import Mathlib.Data.List.Induction
import BackendSync.MatchSet

/-!
# What a match set holds

A match set is a list that grows at the end and takes no path that it has under another
spelling. So after any number of insertions it is the list of all that was inserted, in
that order, without the repeats: `firstSpellings`, which is said of the list alone and
knows nothing of sets.

The cap looks at the size and at nothing else, so it is passed or not passed by the
number of different files in that list.
-/

namespace BackendSync

/-- The paths of a list without those that repeat an earlier one, under whatever spelling. -/
def firstSpellings (paths : List Path) : List Path := paths.eraseDupsBy fun p q => decide (p ≈ q)

theorem firstSpellings_cons (p : Path) (rest : List Path) :
    firstSpellings (p :: rest) = p :: firstSpellings (rest.filter fun q => !decide (q ≈ p)) := by
  rw [firstSpellings, List.eraseDupsBy_cons, firstSpellings]
  congr 3
  funext q
  cases decide (q ≈ p) <;> rfl

/-- A path at the end counts if it is not there before. -/
theorem firstSpellings_concat (paths : List Path) (p : Path) :
    firstSpellings (paths ++ [p]) =
      if ∃ q ∈ paths, q ≈ p then firstSpellings paths else firstSpellings paths ++ [p] := by
  -- what follows the head is filtered, so the induction is on the length
  induction hn : paths.length using Nat.strongRecOn generalizing paths with
  | ind n ih =>
    cases paths with
    | nil => rfl
    | cons a rest =>
      rw [List.cons_append, firstSpellings_cons, firstSpellings_cons, List.filter_append]
      by_cases hpa : p ≈ a
      · have hdrop : [p].filter (fun q => !decide (q ≈ a)) = [] := by
          rw [List.filter_cons_of_neg, List.filter_nil]
          rw [decide_eq_true hpa]
          exact Bool.false_ne_true
        have hthere : ∃ q ∈ a :: rest, q ≈ p := ⟨a, List.mem_cons_self, Setoid.symm hpa⟩
        rw [hdrop, List.append_nil, if_pos hthere]
      · have hkeep : [p].filter (fun q => !decide (q ≈ a)) = [p] := by
          rw [List.filter_cons_of_pos, List.filter_nil]
          rw [decide_eq_false hpa]
          rfl
        have hlt : (rest.filter fun q => !decide (q ≈ a)).length < n := by
          have hle := List.length_filter_le (fun q => !decide (q ≈ a)) rest
          have hlen : rest.length + 1 = n := hn
          omega
        have hthere : (∃ q ∈ rest.filter fun q => !decide (q ≈ a), q ≈ p) ↔
            ∃ q ∈ a :: rest, q ≈ p := by
          constructor
          · rintro ⟨q, hq, hqp⟩
            exact ⟨q, List.mem_cons_of_mem a (List.mem_filter.mp hq).1, hqp⟩
          · rintro ⟨q, hq, hqp⟩
            have hqa : ¬q ≈ a := fun h => hpa (Setoid.trans (Setoid.symm hqp) h)
            rcases List.mem_cons.mp hq with heq | hrest
            · rw [heq] at hqa
              exact absurd (Setoid.refl a) hqa
            · refine ⟨q, List.mem_filter.mpr ⟨hrest, ?_⟩, hqp⟩
              rw [decide_eq_false hqa]
              rfl
        rw [hkeep, ih _ hlt _ rfl]
        by_cases h : ∃ q ∈ a :: rest, q ≈ p
        · rw [if_pos h, if_pos (hthere.mpr h)]
        · rw [if_neg h, if_neg (mt hthere.mp h), List.cons_append]

example : firstSpellings [⟨"/a"⟩, ⟨"/b"⟩, ⟨"//a"⟩] = [⟨"/a"⟩, ⟨"/b"⟩] := by decide

/-- Every path of a list is among the first spellings, and nothing else is. -/
theorem exists_mem_firstSpellings_iff {paths : List Path} {p : Path} :
    (∃ q ∈ firstSpellings paths, q ≈ p) ↔ ∃ q ∈ paths, q ≈ p := by
  induction paths using List.reverseRecOn with
  | nil => rfl
  | append_singleton paths last ih =>
    rw [firstSpellings_concat]
    by_cases h : ∃ q ∈ paths, q ≈ last
    · rw [if_pos h, ih]
      constructor
      · rintro ⟨q, hq, hqp⟩
        exact ⟨q, List.mem_append_left _ hq, hqp⟩
      · rintro ⟨q, hq, hqp⟩
        rcases List.mem_append.mp hq with hq | hq
        · exact ⟨q, hq, hqp⟩
        · obtain ⟨r, hr, hrlast⟩ := h
          rw [List.mem_singleton.mp hq] at hqp
          exact ⟨r, hr, Setoid.trans hrlast hqp⟩
    · rw [if_neg h]
      simp only [List.mem_append, or_and_right, exists_or, ih]

/-- A list without repeats is kept as it is. -/
theorem firstSpellings_of_distinct {paths : List Path}
    (h : paths.Pairwise fun p q => ¬p ≈ q) : firstSpellings paths = paths := by
  induction paths using List.reverseRecOn with
  | nil => rfl
  | append_singleton paths last ih =>
    obtain ⟨hpaths, _, hlast⟩ := List.pairwise_append.mp h
    have hnew : ¬∃ q ∈ paths, q ≈ last := by
      rintro ⟨q, hq, hql⟩
      exact hlast q hq last (List.mem_singleton_self last) hql
    rw [firstSpellings_concat, if_neg hnew, ih hpaths]

/-! ## Insertion -/

theorem PathSet.toList_insert_firstSpellings {s : PathSet} {paths : List Path}
    (h : s.toList = firstSpellings paths) (p : Path) :
    (s.insert p).toList = firstSpellings (paths ++ [p]) := by
  have hmem : p ∈ s ↔ ∃ q ∈ paths, q ≈ p := by
    rw [PathSet.mem_iff, h]
    exact exists_mem_firstSpellings_iff
  rw [PathSet.toList_insert, firstSpellings_concat, h]
  simp only [hmem]

/-- **A set that paths are put into lists them in their first spellings.** -/
theorem PathSet.toList_foldl_insert {s : PathSet} {paths : List Path}
    (h : s.toList = firstSpellings paths) (more : List Path) :
    (more.foldl PathSet.insert s).toList = firstSpellings (paths ++ more) := by
  induction more generalizing s paths with
  | nil =>
    rw [List.append_nil]
    exact h
  | cons p rest ih =>
    rw [List.foldl_cons, ih (toList_insert_firstSpellings h p), List.append_assoc,
      List.singleton_append]

theorem distinct_firstSpellings (paths : List Path) :
    (firstSpellings paths).Pairwise fun p q => ¬p ≈ q := by
  have hset : (paths.foldl PathSet.insert ∅).toList = firstSpellings ([] ++ paths) :=
    PathSet.toList_foldl_insert rfl paths
  rw [← List.nil_append paths, ← hset]
  exact (paths.foldl PathSet.insert ∅).distinct

namespace MatchSet

/-- A set of distinct paths is its own list of first spellings. -/
theorem toList_eq_firstSpellings (m : MatchSet) :
    m.files.toList = firstSpellings m.files.toList :=
  (firstSpellings_of_distinct m.files.distinct).symm

/-! ## The cap -/

/-- The error for a set with too many files: how many were allowed, the first of them, the rest. -/
def overuse (m : MatchSet) (max : Nat) : SyncError :=
  .tooManyDefaultProjectFiles max (m.files.toList.take printLimit) (m.size - printLimit)

/-- **The cap is passed by the number of files alone.** -/
theorem check_eq (m : MatchSet) (max : Nat) :
    m.check max = if max < m.size then .error (m.overuse max) else .ok () := by
  have hlisted : m.size - (m.files.toList.take printLimit).length = m.size - printLimit := by
    rw [List.length_take]
    show m.size - min printLimit m.size = _
    omega
  unfold check
  dsimp only
  rw [hlisted]
  by_cases h : m.size ≤ max
  · rw [if_pos h, if_neg (Nat.not_lt.mpr h)]
  · rw [if_neg h, if_pos (Nat.not_le.mp h)]
    rfl

end MatchSet

end BackendSync
