import BackendSync.Path.Basic

/-!
# Sets of paths in the order they came

A `PathSet` lists paths no two of which are equivalent. A path that is inserted
again, under whatever spelling, changes nothing, so the set shows the first
spelling of each path in the order of first insertion.
-/

namespace BackendSync

/-- Paths in order of first insertion, no two of them equivalent. -/
structure PathSet where
  toList : List Path
  distinct : toList.Pairwise (fun p q => ¬p ≈ q)

namespace PathSet

instance : EmptyCollection PathSet := ⟨⟨[], .nil⟩⟩

instance : Inhabited PathSet := ⟨∅⟩

@[simp] theorem toList_empty : (∅ : PathSet).toList = [] := rfl

@[ext] theorem ext {s t : PathSet} (h : s.toList = t.toList) : s = t := by
  cases s; cases t; simp_all

/-- Membership is up to spelling. -/
instance : Membership Path PathSet := ⟨fun s p => ∃ q ∈ s.toList, q ≈ p⟩

theorem mem_iff {s : PathSet} {p : Path} : p ∈ s ↔ ∃ q ∈ s.toList, q ≈ p := Iff.rfl

instance (s : PathSet) (p : Path) : Decidable (p ∈ s) :=
  inferInstanceAs (Decidable (∃ q ∈ s.toList, q ≈ p))

theorem mem_congr {s : PathSet} {p q : Path} (h : p ≈ q) : p ∈ s ↔ q ∈ s := by
  constructor
  · rintro ⟨r, hr, hrp⟩
    exact ⟨r, hr, hrp.trans h⟩
  · rintro ⟨r, hr, hrq⟩
    exact ⟨r, hr, hrq.trans h.symm⟩

/-- Number of paths. -/
def size (s : PathSet) : Nat := s.toList.length

/-- Adds a path at the end, unless the set has it under some spelling. -/
def insert (s : PathSet) (p : Path) : PathSet :=
  if h : p ∈ s then s
  else
    { toList := s.toList ++ [p]
      distinct := by
        refine List.pairwise_append.mpr ⟨s.distinct, List.pairwise_singleton _ _, ?_⟩
        intro q hq r hr hqr
        rw [List.mem_singleton] at hr
        exact h ⟨q, hq, hr ▸ hqr⟩ }

/-- Takes a path out, under whatever spelling it is in. -/
def erase (s : PathSet) (p : Path) : PathSet :=
  { toList := s.toList.filter (fun q => !decide (q ≈ p))
    distinct := s.distinct.sublist List.filter_sublist }

/-- The paths of a list, each in its first spelling. -/
def ofList (paths : List Path) : PathSet := paths.foldl insert ∅

theorem toList_insert (s : PathSet) (p : Path) :
    (s.insert p).toList = if p ∈ s then s.toList else s.toList ++ [p] := by
  unfold insert; split <;> rfl

theorem insert_of_mem {s : PathSet} {p : Path} (h : p ∈ s) : s.insert p = s := by
  simp [insert, h]

theorem mem_insert {s : PathSet} {p q : Path} : q ∈ s.insert p ↔ q ∈ s ∨ p ≈ q := by
  simp only [mem_iff, toList_insert]
  split
  · rename_i h
    refine ⟨Or.inl, fun hq => hq.elim id fun hpq => ?_⟩
    obtain ⟨r, hr, hrp⟩ := h
    exact ⟨r, hr, hrp.trans hpq⟩
  · simp only [List.mem_append, List.mem_singleton]
    constructor
    · rintro ⟨r, hr | rfl, hrq⟩
      · exact .inl ⟨r, hr, hrq⟩
      · exact .inr hrq
    · rintro (⟨r, hr, hrq⟩ | hpq)
      · exact ⟨r, .inl hr, hrq⟩
      · exact ⟨p, .inr rfl, hpq⟩

theorem mem_erase {s : PathSet} {p q : Path} : q ∈ s.erase p ↔ q ∈ s ∧ ¬p ≈ q := by
  simp only [mem_iff, erase, List.mem_filter, Bool.not_eq_true', decide_eq_false_iff_not]
  constructor
  · rintro ⟨r, ⟨hr, hrp⟩, hrq⟩
    exact ⟨⟨r, hr, hrq⟩, fun hpq => hrp (hrq.trans hpq.symm)⟩
  · rintro ⟨⟨r, hr, hrq⟩, hpq⟩
    exact ⟨r, ⟨hr, fun hrp => hpq (Path.Equiv.trans (Path.Equiv.symm hrp) hrq)⟩, hrq⟩

end PathSet

end BackendSync
