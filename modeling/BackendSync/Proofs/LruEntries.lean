import BackendSync.LruMap

/-!
# The entries of a map in order of recency

A map is a list of entries, the most recently touched first, and no two of its paths are
equivalent. So for a path there are two cases and no more: it is present, under one spelling
and in one place, or it is absent. Each operation is spelled out here for both, and nothing
later looks inside an operation again.

Touching puts an entry in front and leaves the order of the others alone. In terms of paths
that is a permutation, and it is the only one that happens without anything entering or
leaving.
-/

namespace BackendSync.LruMap

variable {α : Type u} {m : LruMap α} {p q : Path} {e : Path × α}

/-! ## Presence -/

theorem mem_of_present (h : m.entry? p = some e) : e ∈ m.entries := List.mem_of_find?_eq_some h

theorem equiv_of_present (h : m.entry? p = some e) : e.1 ≈ p := by
  simpa [ entry?] using List.find?_some h

theorem absent_iff : m.entry? p = none ↔ ∀ x ∈ m.entries, ¬x.1 ≈ p := by
  simp [ entry?]

theorem mem_paths_iff : q ∈ m.paths ↔ ∃ x ∈ m.entries, x.1 = q := List.mem_map

theorem contains_iff : m.contains p = true ↔ ∃ q ∈ m.paths, q ≈ p := by
  rw [contains, Option.isSome_iff_exists]
  constructor
  · rintro ⟨x, hx⟩
    exact ⟨x.1, List.mem_map_of_mem (mem_of_present hx), equiv_of_present hx⟩
  · rintro ⟨q, hq, hqp⟩
    obtain ⟨x, hx, rfl⟩ := mem_paths_iff.mp hq
    refine Option.isSome_iff_exists.mp (Option.isSome_iff_ne_none.mpr fun hnone => ?_)
    exact absent_iff.mp hnone x hx hqp

theorem contains_eq_false_iff : m.contains p = false ↔ m.entry? p = none := by
  rw [contains, Option.isSome_eq_false_iff, Option.isNone_iff_eq_none]

theorem contains_of_present (h : m.entry? p = some e) : m.contains p = true := by
  rw [contains, h]
  rfl

theorem contains_congr (h : p ≈ q) : m.contains p = m.contains q := by
  rw [Bool.eq_iff_iff, contains_iff, contains_iff]
  constructor
  · rintro ⟨r, hr, hrp⟩
    exact ⟨r, hr, Path.Equiv.trans hrp h⟩
  · rintro ⟨r, hr, hrq⟩
    exact ⟨r, hr, Path.Equiv.trans hrq (Path.Equiv.symm h)⟩

/-- No two paths of a map are equivalent. -/
theorem paths_distinct (m : LruMap α) : m.paths.Pairwise (fun p q => ¬p ≈ q) := by
  rw [paths, List.pairwise_map]
  exact m.distinct

theorem length_paths (m : LruMap α) : m.paths.length = m.size := List.length_map ..

/-- The present entry of a path parts the map, and neither part has the path. -/
theorem split_of_present (h : m.entry? p = some e) :
    ∃ newer older, m.entries = newer ++ e :: older ∧ m.others p = newer ++ older := by
  obtain ⟨hep, newer, older, hsplit, hnewer⟩ := List.find?_eq_some_iff_append.mp h
  refine ⟨newer, older, hsplit, ?_⟩
  have hdistinct := m.distinct
  rw [hsplit] at hdistinct
  have hbehind := (List.pairwise_cons.mp (List.pairwise_append.mp hdistinct).2.1).1
  rw [others, hsplit, List.filter_append, List.filter_cons]
  -- the entry is the first of its path, and being distinct it is also the last
  have hfront : newer.filter (fun x => !decide (x.1 ≈ p)) = newer :=
    List.filter_eq_self.mpr hnewer
  have hback : older.filter (fun x => !decide (x.1 ≈ p)) = older := by
    refine List.filter_eq_self.mpr fun x hx => ?_
    have hxp : ¬x.1 ≈ p := fun hxp =>
      hbehind x hx (Path.Equiv.trans (equiv_of_present h) (Path.Equiv.symm hxp))
    simp [hxp]
  rw [hfront, hback, hep]
  rfl

theorem others_of_absent (h : m.entry? p = none) : m.others p = m.entries := by
  refine List.filter_eq_self.mpr fun x hx => ?_
  rw [Bool.not_eq_true', decide_eq_false_iff_not]
  exact absent_iff.mp h x hx

/-- The entries other than the one at a path, by that one entry. -/
theorem others_eq_filter (m : LruMap α) (p : Path) :
    m.others p = m.entries.filter fun x => decide (∀ e ∈ (m.entry? p).toList, ¬x.1 ≈ e.1) := by
  cases h : m.entry? p with
  | none =>
    rw [others_of_absent h, List.filter_eq_self.mpr]
    exact fun x _ => decide_eq_true fun e he => absurd he List.not_mem_nil
  | some e =>
    have hep := equiv_of_present h
    refine List.filter_congr fun x _ => ?_
    rw [Bool.eq_iff_iff, Bool.not_eq_true', decide_eq_false_iff_not, decide_eq_true_iff]
    constructor
    · intro hxp y hy hxy
      rw [List.mem_singleton.mp hy] at hxy
      exact hxp (Setoid.trans hxy hep)
    · intro hall hxp
      exact hall e (List.mem_singleton_self e) (Setoid.trans hxp (Setoid.symm hep))

/-! ## Touching -/

theorem modify_of_present (h : m.entry? p = some e) (f : α → α) :
    m.modify p f = (some (f e.2), m.refresh p e h (f e.2)) := by
  unfold modify
  split
  · rename_i x hx
    cases h.symm.trans hx
    rfl
  · rename_i hnone
    rw [hnone] at h
    cases h

theorem modify_of_absent (h : m.entry? p = none) (f : α → α) : m.modify p f = (none, m) := by
  unfold modify
  split
  · rename_i x hx
    rw [hx] at h
    cases h
  · rfl

theorem paths_refresh (h : m.entry? p = some e) (value : α) :
    (m.refresh p e h value).paths = e.1 :: (m.others p).map (·.1) := rfl

/-- Touching moves a path to the front and changes nothing else about the paths. -/
theorem paths_refresh_perm (h : m.entry? p = some e) (value : α) :
    (m.refresh p e h value).paths.Perm m.paths := by
  obtain ⟨newer, older, hsplit, hothers⟩ := split_of_present h
  rw [paths_refresh, paths, hsplit, hothers, List.map_append, List.map_append, List.map_cons]
  exact List.perm_middle.symm

theorem others_sublist (m : LruMap α) (p : Path) : (m.others p).Sublist m.entries :=
  List.filter_sublist

/-- The entry in front is found first. -/
theorem entry?_of_front {value : α} {rest : List (Path × α)}
    (h : m.entries = (q, value) :: rest) (hq : q ≈ p) : m.entry? p = some (q, value) := by
  rw [ entry?, h, List.find?_cons, decide_eq_true hq]

/-- Touching the entry in front changes nothing. -/
theorem refresh_of_front {value : α} {rest : List (Path × α)}
    (h : m.entries = (q, value) :: rest) (hq : q ≈ p) :
    m.refresh p (q, value) (entry?_of_front h hq) value = m := by
  have hdistinct := m.distinct
  rw [h] at hdistinct
  have hbehind : ∀ x ∈ rest, (!decide (x.1 ≈ p)) = true := by
    intro x hx
    have hne := (List.pairwise_cons.mp hdistinct).1 x hx
    rw [Bool.not_eq_true', decide_eq_false_iff_not]
    exact fun hxp => hne (Setoid.trans hq (Setoid.symm hxp))
  have hothers : m.others p = rest := by
    rw [others, h, List.filter_cons_of_neg, List.filter_eq_self.mpr hbehind]
    rw [decide_eq_true hq]
    exact Bool.false_ne_true
  refine ext rfl ?_
  show (q, value) :: m.others p = m.entries
  rw [hothers, h]

/-! ## Pushing and popping -/

theorem push_of_present (h : m.entry? p = some e) (value : α) :
    m.push p value = (some e, m.refresh p e h value) := by
  unfold push
  split
  · rename_i x hx
    cases h.symm.trans hx
    rfl
  · rename_i hnone
    rw [hnone] at h
    cases h

theorem push_of_absent (h : m.entry? p = none) (value : α) :
    (m.push p value).1 = m.makeRoom.1 ∧
      (m.push p value).2.entries = (p, value) :: m.makeRoom.2 := by
  unfold push
  split
  · rename_i x hx
    rw [hx] at h
    cases h
  · exact ⟨rfl, rfl⟩

@[simp] theorem capacity_push (m : LruMap α) (p : Path) (value : α) :
    (m.push p value).2.capacity = m.capacity := by
  unfold push
  split <;> rfl

/-- Room is made by giving up the least recently touched entry, and only if it must be. -/
theorem makeRoom_cases (m : LruMap α) :
    (m.size < m.capacity ∧ m.makeRoom = (none, m.entries)) ∨
    ∃ rest last, m.size = m.capacity ∧ m.entries = rest ++ [last] ∧
      m.makeRoom = (some last, rest) := by
  have hpos := m.capacity_pos
  have hle := m.size_le
  by_cases hroom : m.size < m.capacity
  · exact Or.inl ⟨hroom, by rw [makeRoom, if_pos hroom]⟩
  · right
    have hne : m.entries ≠ [] := by
      intro hnil
      rw [size, hnil] at hroom
      exact hroom hpos
    obtain ⟨rest, last, hsplit⟩ : ∃ rest last, m.entries = rest ++ [last] :=
      ⟨_, _, (List.dropLast_concat_getLast hne).symm⟩
    refine ⟨rest, last, ?_, hsplit, ?_⟩
    · rw [size] at hroom ⊢
      omega
    · rw [makeRoom, if_neg hroom, hsplit, List.getLast?_concat, List.dropLast_concat]

/-- A map with no entry has none to give up, and else it gives up the last one. -/
theorem popOldest_cases (m : LruMap α) :
    (m.entries = [] ∧ m.popOldest = (none, m)) ∨
    ∃ last m', m.popOldest = (some last, m') ∧ m.entries = m'.entries ++ [last] ∧
      m'.capacity = m.capacity := by
  by_cases hnil : m.entries = []
  · refine Or.inl ⟨hnil, Prod.ext ?_ (LruMap.ext rfl ?_)⟩
    · show m.entries.getLast? = none
      rw [hnil]
      rfl
    · show m.entries.dropLast = m.entries
      rw [hnil]
      rfl
  · right
    refine ⟨m.entries.getLast hnil, m.popOldest.2, Prod.ext ?_ rfl, ?_, rfl⟩
    · exact List.getLast?_eq_some_getLast hnil
    · exact (List.dropLast_concat_getLast hnil).symm

/-! ## What is found afterwards -/

theorem entry?_congr (h : p ≈ q) : m.entry? p = m.entry? q := by
  have same : ∀ x : Path × α, decide (x.1 ≈ p) = decide (x.1 ≈ q) := fun x =>
    decide_eq_decide.mpr ⟨fun hx => hx.trans h, fun hx => hx.trans h.symm⟩
  simp only [ entry?, same]

/-- An entry is found under its own path. -/
theorem entry?_of_mem {x : Path × α} (h : x ∈ m.entries) : m.entry? x.1 = some x := by
  obtain ⟨newer, older, hsplit⟩ := List.append_of_mem h
  have hdistinct := m.distinct
  rw [hsplit] at hdistinct
  have hnewer : newer.find? (fun y => decide (y.1 ≈ x.1)) = none := by
    refine List.find?_eq_none.mpr fun y hy hyx => ?_
    exact (List.pairwise_append.mp hdistinct).2.2 y hy x List.mem_cons_self (of_decide_eq_true hyx)
  rw [ entry?, hsplit, List.find?_append, hnewer, Option.none_or, List.find?_cons,
    decide_eq_true (Setoid.refl x.1)]

/-- Without the entry at one path the others are found as before. -/
theorem find?_others (m : LruMap α) (h : ¬p ≈ q) :
    (m.others p).find? (fun x => decide (x.1 ≈ q)) = m.entry? q := by
  rw [others, List.find?_filter, entry?]
  congr 1
  funext x
  by_cases hxq : x.1 ≈ q
  · have hxp : ¬x.1 ≈ p := fun hxp => h (Setoid.trans (Setoid.symm hxp) hxq)
    simp [hxq, hxp]
  · simp [hxq]

theorem entry?_refresh (h : m.entry? p = some e) (value : α) (q : Path) :
    entry? (m.refresh p e h value) q = if p ≈ q then some (e.1, value) else m.entry? q := by
  have hep := equiv_of_present h
  have hentries : (m.refresh p e h value).entries = (e.1, value) :: m.others p := rfl
  rw [ entry?, hentries, List.find?_cons]
  by_cases hpq : p ≈ q
  · rw [if_pos hpq, decide_eq_true (Setoid.trans hep hpq)]
  · have heq : ¬e.1 ≈ q := fun heq => hpq (Setoid.trans (Setoid.symm hep) heq)
    rw [if_neg hpq, decide_eq_false heq]
    exact m.find?_others hpq

theorem entry?_erase (m : LruMap α) (p q : Path) :
    entry? (m.erase p) q = if p ≈ q then none else m.entry? q := by
  by_cases hpq : p ≈ q
  · rw [if_pos hpq]
    refine absent_iff.mpr fun x hx hxq => ?_
    exact not_equiv_of_mem_others hx (Setoid.trans hxq (Setoid.symm hpq))
  · rw [if_neg hpq]
    exact m.find?_others hpq

end BackendSync.LruMap
