import BackendSync.Path.Basic

/-!
# Maps keyed by path

A `PathMap` is a list of entries no two of whose keys are equivalent. Writing to a
key that is present under another spelling replaces the value and keeps the spelling
and the place of the key.
-/

namespace BackendSync

/-- Values at paths, no two of the paths equivalent. -/
structure PathMap (α : Type u) where
  entries : List (Path × α)
  distinct : entries.Pairwise (fun x y => ¬x.1 ≈ y.1)

namespace PathMap

variable {α : Type u}

theorem distinct_nil : ([] : List (Path × α)).Pairwise (fun x y => ¬x.1 ≈ y.1) := .nil

instance : EmptyCollection (PathMap α) := ⟨⟨[], distinct_nil⟩⟩

instance : Inhabited (PathMap α) := ⟨∅⟩

@[ext] theorem ext {m n : PathMap α} (h : m.entries = n.entries) : m = n := by
  cases m; cases n; simp_all

/-- The value at a path, under whatever spelling. -/
def get? (m : PathMap α) (p : Path) : Option α :=
  (m.entries.find? (fun e => decide (e.1 ≈ p))).map (·.2)

/-- Has the map a value at this path? -/
def contains (m : PathMap α) (p : Path) : Bool := (m.get? p).isSome

/-- Replaces the value at a key that is there already. -/
def overwrite (m : PathMap α) (p : Path) (value : α) : PathMap α :=
  { entries := m.entries.map (fun e => if e.1 ≈ p then (e.1, value) else e)
    distinct := by
      rw [List.pairwise_map]
      refine m.distinct.imp fun {x y} h => ?_
      have key : ∀ e : Path × α, (if e.1 ≈ p then (e.1, value) else e).1 = e.1 := by
        intro e; split <;> rfl
      rw [key, key]
      exact h }

/-- Writes a value at a path. -/
def insert (m : PathMap α) (p : Path) (value : α) : PathMap α :=
  if h : ∃ e ∈ m.entries, e.1 ≈ p then m.overwrite p value
  else
    { entries := m.entries ++ [(p, value)]
      distinct := by
        refine List.pairwise_append.mpr ⟨m.distinct, List.pairwise_singleton _ _, ?_⟩
        intro x hx y hy hxy
        rw [List.mem_singleton] at hy
        subst hy
        exact h ⟨x, hx, hxy⟩ }

/-- Takes the entry at a path out. -/
def erase (m : PathMap α) (p : Path) : PathMap α :=
  { entries := m.entries.filter (fun e => !decide (e.1 ≈ p))
    distinct := m.distinct.sublist List.filter_sublist }

/-- The map of a list of entries, where a later entry wins over an earlier one. -/
def ofList (entries : List (Path × α)) : PathMap α :=
  entries.foldl (fun m e => m.insert e.1 e.2) ∅

@[simp] theorem get?_empty (p : Path) : (∅ : PathMap α).get? p = none := rfl

theorem get?_congr {m : PathMap α} {p q : Path} (h : p ≈ q) : m.get? p = m.get? q := by
  have same : ∀ e : Path × α, decide (e.1 ≈ p) = decide (e.1 ≈ q) := fun e =>
    decide_eq_decide.mpr ⟨fun he => he.trans h, fun he => he.trans h.symm⟩
  simp only [get?, same]

theorem get?_eq_none_iff {m : PathMap α} {p : Path} :
    m.get? p = none ↔ ∀ e ∈ m.entries, ¬e.1 ≈ p := by
  simp [get?]

/-- Looking up what was written gives it back. -/
theorem get?_insert_self (m : PathMap α) (p : Path) (value : α) :
    (m.insert p value).get? p = some value := by
  unfold insert
  split
  · rename_i h
    obtain ⟨e, he, hep⟩ := h
    simp only [get?, overwrite, List.find?_map, Option.map_map]
    cases hf : m.entries.find? _ with
    | none =>
      have absent := List.find?_eq_none.mp hf e he
      simp [hep] at absent
    | some x =>
      have hx := List.find?_some hf
      simp only [Function.comp_apply] at hx
      by_cases hxp : x.1 ≈ p
      · simp [hxp]
      · rw [if_neg hxp] at hx
        exact absurd (of_decide_eq_true hx) hxp
  · rename_i h
    have absent : m.entries.find? (fun e => decide (e.1 ≈ p)) = none :=
      List.find?_eq_none.mpr fun e he hep => h ⟨e, he, of_decide_eq_true hep⟩
    have self : decide (p ≈ p) = true := decide_eq_true (Path.Equiv.refl p)
    simp only [get?, List.find?_append, absent, Option.none_or, List.find?_cons, self,
      Option.map_some]

/-- Writing at one path leaves the others alone. -/
theorem get?_insert_of_not_equiv {m : PathMap α} {p q : Path} (value : α) (h : ¬p ≈ q) :
    (m.insert p value).get? q = m.get? q := by
  unfold insert
  split
  · have keys : ((fun e : Path × α => decide (e.1 ≈ q)) ∘
        fun e => if e.1 ≈ p then (e.1, value) else e) = fun e => decide (e.1 ≈ q) := by
      funext e
      simp only [Function.comp_apply]
      split <;> rfl
    simp only [get?, overwrite, List.find?_map, keys, Option.map_map]
    cases hf : m.entries.find? (fun e => decide (e.1 ≈ q)) with
    | none => rfl
    | some x =>
      have hx : x.1 ≈ q := by simpa using List.find?_some hf
      have hxp : ¬x.1 ≈ p := fun hxp => h (Path.Equiv.trans (Path.Equiv.symm hxp) hx)
      simp [hxp]
  · simp [get?, List.find?_append, h]

/-- Nothing is found where an entry was taken out. -/
theorem get?_erase_self (m : PathMap α) (p : Path) : (m.erase p).get? p = none := by
  rw [get?_eq_none_iff]
  intro e he
  simpa [erase] using (List.mem_filter.mp he).2

/-- Taking one entry out leaves the others alone. -/
theorem get?_erase_of_not_equiv {m : PathMap α} {p q : Path} (h : ¬p ≈ q) :
    (m.erase p).get? q = m.get? q := by
  simp only [get?, erase, List.find?_filter]
  congr 2
  funext e
  by_cases heq : e.1 ≈ q
  · have hep : ¬e.1 ≈ p := fun hep => h (Path.Equiv.trans (Path.Equiv.symm hep) heq)
    simp [heq, hep]
  · simp [heq]

end PathMap

end BackendSync
