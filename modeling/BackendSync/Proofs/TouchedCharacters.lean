import BackendSync.Proofs.EditReplay
import BackendSync.Proofs.ScriptCosts

/-!
# The characters that edits touch

An edit touches the characters that it takes out of a buffer and those that it puts there. To
count them, a list of edits is replayed, as what an edit takes out is in the buffer and not in the
edit. `Edit.touched` does that.

On one side, the edits of a script touch what the script costs. On the other side, no edits at all
that turn one text into another touch fewer characters than the two are apart, since no single
edit brings a text nearer to another than by the characters that it touches. The edits of two
texts come from a script that costs what they are apart, and so there are none shorter
(`Diff.edits_shortest`).
-/

namespace BackendSync

/-! ## Counting -/

namespace Edit

/-- The characters that an edit takes out of a buffer that it fits. -/
def taken (e : Edit) (buffer : String) : List Char :=
  match Text.splitAtByte e.start buffer.toList with
  | none => []
  | some (_, rest) =>
    match Text.splitAtByte (e.stop - e.start) rest with
    | none => []
    | some (middle, _) => middle

/-- The number of characters that edits take out of a buffer and put into it, each applied to what
those before it have left. -/
def touched : List Edit → String → Nat
  | [], _ => 0
  | e :: edits, buffer =>
    match e.applyTo? buffer with
    | none => 0
    | some next => (e.taken buffer).length + e.text.length + touched edits next

theorem taken_append (front middle back : List Char) (text : String) :
    (Edit.mk (Text.byteLength front) (Text.byteLength front + Text.byteLength middle) text).taken
        (String.ofList (front ++ middle ++ back)) = middle := by
  simp only [taken, String.toList_ofList, List.append_assoc, Text.splitAtByte_append,
    Nat.add_sub_cancel_left]

/-- Behind `front`, an edit touches what it spans and what it puts in its place. -/
theorem touched_cons_append (front middle back : List Char) (text : String) (edits : List Edit) :
    touched (⟨Text.byteLength front, Text.byteLength front + Text.byteLength middle, text⟩ :: edits)
        (String.ofList (front ++ middle ++ back)) =
      middle.length + text.length +
        touched edits (String.ofList (front ++ text.toList ++ back)) := by
  rw [touched, applyTo?_append, taken_append]

/-- **Edits that turn one text into another touch as many characters as the two are apart.** The
induction is on the edits: what is still apart after the first one is touched by the others. -/
theorem apart_le_touched {edits : List Edit} {old new : String}
    (h : replay? edits old = some new) :
    Diff.apart old.toList new.toList ≤ touched edits old := by
  induction edits generalizing old with
  | nil =>
    cases h
    exact Nat.le_of_eq (Diff.apart_self _)
  | cons e edits ih =>
    rw [replay?_cons] at h
    obtain ⟨next, happly, hrest⟩ := Option.bind_eq_some_iff.mp h
    have hfits : e.Fits old := applyTo?_isSome_iff.mp (by rw [happly]; rfl)
    obtain ⟨front, middle, back, hold, hstart, hstop⟩ := fits_iff.mp hfits
    obtain ⟨start, stop, text⟩ := e
    dsimp only at hstart hstop
    rw [Text.byteLength_append] at hstop
    subst hstart hstop
    obtain rfl : old = String.ofList (front ++ middle ++ back) := by
      rw [← hold, String.ofList_toList]
    rw [applyTo?_append] at happly
    obtain rfl := Option.some.inj happly
    have hfar := ih hrest
    rw [String.toList_ofList] at hfar
    have hedit := Diff.apart_splice_le front middle text.toList back new.toList
    rw [String.length_toList, ← List.append_assoc, ← List.append_assoc] at hedit
    rw [touched_cons_append, String.toList_ofList]
    omega

end Edit

namespace Diff

/-- **Behind final text, the edits of a script touch what the script costs.** -/
theorem touched_editsFrom (s : Script) (final : List Char) :
    Edit.touched (Run.editsFrom (Text.byteLength final) (s.map Piece.run))
        (String.ofList (final ++ s.oldText)) = s.cost := by
  induction s generalizing final with
  | nil => rfl
  | cons piece rest ih =>
    cases piece with
    | keep text =>
      -- what is kept becomes final
      have h := ih (final ++ text)
      rw [Text.byteLength_append, List.append_assoc] at h
      rw [Script.cost_cons, Piece.cost, Nat.zero_add]
      exact h
    | delete text =>
      rw [List.map_cons, Piece.run, Run.editsFrom, Script.cost_cons, Piece.cost]
      split
      · rename_i hnone
        rw [Text.byteLength_eq_zero_iff] at hnone
        subst hnone
        rw [List.length_nil, Nat.zero_add]
        exact ih final
      · have he := Edit.touched_cons_append final text (Script.oldText rest) ""
          (Run.editsFrom (Text.byteLength final) (rest.map Piece.run))
        rw [String.toList_empty, List.append_nil, List.append_assoc, ih final] at he
        exact he
    | insert text =>
      rw [List.map_cons, Piece.run, Run.editsFrom, Script.cost_cons, Piece.cost]
      split
      · rename_i hnone
        have htext : text = [] := by simpa using hnone
        subst htext
        rw [List.length_nil, Nat.zero_add]
        exact ih final
      · -- what is inserted becomes final
        have h := ih (final ++ text)
        rw [Text.byteLength_append] at h
        have he := Edit.touched_cons_append final [] (Script.oldText rest) (String.ofList text)
          (Run.editsFrom (Text.byteLength final + Text.byteLength text) (rest.map Piece.run))
        rw [String.toList_ofList, List.append_nil, Text.byteLength, Nat.add_zero, h,
          List.length_nil, Nat.zero_add, String.length_ofList] at he
        rw [Text.utf8ByteSize_ofList]
        exact he

/-- The edits of two texts touch what the texts are apart. -/
theorem touched_edits (old new : String) :
    Edit.touched (edits old new) old = apart old.toList new.toList := by
  unfold edits
  split
  · rename_i heq
    rw [heq, apart_self]
    rfl
  · have h := touched_editsFrom (script old new) []
    rw [List.nil_append, (script_spells old new).old, String.ofList_toList, cost_script] at h
    exact h

/-- **Shortest scripts.** The edits of two texts turn the first into the second and touch every
character outside of a longest common subsequence once. No edits that do the same touch fewer. -/
theorem edits_shortest (old new : String) :
    Edit.replay? (edits old new) old = some new ∧
    (∃ c, LongestCommon c old.toList new.toList ∧
      Edit.touched (edits old new) old + 2 * c.length = old.length + new.length) ∧
    ∀ others, Edit.replay? others old = some new →
      Edit.touched (edits old new) old ≤ Edit.touched others old := by
  rw [touched_edits]
  refine ⟨replay?_edits old new, ?_, fun others hreplay => Edit.apart_le_touched hreplay⟩
  obtain ⟨c, hlongest, hlength⟩ := exists_longestCommon old.toList new.toList
  refine ⟨c, hlongest, ?_⟩
  rw [hlength, apart_add, String.length_toList, String.length_toList]

/-- Edits of one character each. -/
def oneByOne : List Edit :=
  [.remove 0 1, .insertAt 0 "s", .remove 4 5, .insertAt 4 "i", .insertAt 6 "g"]

/-- Five characters are enough between these two texts, and their edits touch no more. -/
theorem edits_shortest_kitten :
    Edit.replay? oneByOne "kitten" = some "sitting" ∧ Edit.touched oneByOne "kitten" = 5 ∧
    Edit.touched (edits "kitten" "sitting") "kitten" ≤ Edit.touched oneByOne "kitten" := by
  have hreplay : Edit.replay? oneByOne "kitten" = some "sitting" := by decide
  exact ⟨hreplay, by decide, (edits_shortest "kitten" "sitting").2.2 oneByOne hreplay⟩

end Diff

end BackendSync
