/-!
# Ordered sets of texts

`orderedSet` lists the texts of a list once each, in the order of their characters. Two
lists with the same members have the same ordered set, so comparing ordered sets is
comparing sets.
-/

namespace BackendSync.Text

/-- Puts a text at its place in an ordered list, unless it is there. -/
def insertOrdered (s : String) : List String → List String
  | [] => [s]
  | t :: rest =>
    if s < t then s :: t :: rest
    else if s = t then t :: rest
    else t :: insertOrdered s rest

/-- The texts of a list, each once, in order. -/
def orderedSet (texts : List String) : List String := texts.foldr insertOrdered []

theorem mem_insertOrdered {s u : String} {ts : List String} :
    u ∈ insertOrdered s ts ↔ u = s ∨ u ∈ ts := by
  induction ts with
  | nil => simp [insertOrdered]
  | cons t rest ih =>
    unfold insertOrdered
    split
    · simp
    · split
      · rename_i h; subst h; simp
      · simp only [List.mem_cons, ih]
        constructor
        · rintro (h | h | h) <;> simp [h]
        · rintro (h | h | h) <;> simp [h]

theorem mem_orderedSet {u : String} {ts : List String} : u ∈ orderedSet ts ↔ u ∈ ts := by
  induction ts with
  | nil => simp [orderedSet]
  | cons t rest ih =>
    simp only [orderedSet, List.foldr_cons, List.mem_cons] at ih ⊢
    rw [mem_insertOrdered, ih]

theorem pairwise_insertOrdered {s : String} {ts : List String} (h : ts.Pairwise (· < ·)) :
    (insertOrdered s ts).Pairwise (· < ·) := by
  induction ts with
  | nil => simp [insertOrdered]
  | cons t rest ih =>
    obtain ⟨above, ordered⟩ := List.pairwise_cons.mp h
    unfold insertOrdered
    split
    · rename_i hst
      refine List.pairwise_cons.mpr ⟨fun u hu => ?_, h⟩
      rcases List.mem_cons.mp hu with rfl | hu
      · exact hst
      · exact String.lt_trans hst (above u hu)
    · split
      · exact h
      · rename_i hst hne
        refine List.pairwise_cons.mpr ⟨fun u hu => ?_, ih ordered⟩
        rcases mem_insertOrdered.mp hu with rfl | hu
        · refine Decidable.byContradiction fun hts => hne ?_
          exact String.le_antisymm (String.not_lt.mp hts) (String.not_lt.mp hst)
        · exact above u hu

/-- An ordered set is strictly ordered, so no text is in it twice. -/
theorem pairwise_orderedSet (ts : List String) : (orderedSet ts).Pairwise (· < ·) := by
  induction ts with
  | nil => exact .nil
  | cons t rest ih => exact pairwise_insertOrdered ih

end BackendSync.Text
