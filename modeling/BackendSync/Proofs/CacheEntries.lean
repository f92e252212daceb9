import BackendSync.Cache
import BackendSync.Proofs.LruEntries

/-!
# What enters a cache and what it hands back

An insertion pushes, and what a push gives back is either the old entry of the path itself or
an entry that had to leave. The comparison of the two paths tells them apart: the first was
there under the path, the second is another one because nothing was. So only what left is
handed back. Clearing pops until nothing is there, which is the list of the entries from its
end.
-/

namespace BackendSync.Cache

variable {α : Type u} {c : Cache α} {p q : Path} {e : Path × α}

@[ext] theorem ext {c d : Cache α} (hc : c.capacity = d.capacity) (he : c.entries = d.entries) :
    c = d := by
  obtain ⟨m⟩ := c
  obtain ⟨n⟩ := d
  exact congrArg Cache.mk (LruMap.ext hc he)

/-! ## Touching -/

theorem modify_of_present (h : c.entry? p = some e) (f : α → α) :
    c.modify p f = (some (f e.2), ⟨c.refresh p e h (f e.2)⟩) := by
  rw [modify, LruMap.modify_of_present h]

theorem modify_of_absent (h : c.entry? p = none) (f : α → α) : c.modify p f = (none, c) := by
  rw [modify, LruMap.modify_of_absent h]

theorem get_of_present (h : c.entry? p = some e) :
    c.get p = (some e.2, ⟨c.refresh p e h e.2⟩) := modify_of_present h id

@[simp] theorem capacity_modify (c : Cache α) (p : Path) (f : α → α) :
    (c.modify p f).2.capacity = c.capacity := by
  cases h : c.entry? p with
  | some e => rw [modify_of_present h]; rfl
  | none => rw [modify_of_absent h]

/-! ## Entering -/

theorem insert_eq (c : Cache α) (p : Path) (value : α) :
    c.insert p value =
      ((c.push p value).1.filter fun e => !decide (e.1 ≈ p), ⟨(c.push p value).2⟩) := by
  unfold insert
  split
  · rename_i e map hpush
    rw [hpush, Option.filter_some]
    by_cases hep : e.1 ≈ p
    · rw [if_pos hep, decide_eq_true hep]
      rfl
    · rw [if_neg hep, decide_eq_false hep]
      rfl
  · rename_i map hpush
    rw [hpush]
    rfl

/-- **A path that is there takes the new value, and nothing is handed back.** -/
theorem insert_of_present (h : c.entry? p = some e) (value : α) :
    c.insert p value = (none, ⟨c.refresh p e h value⟩) := by
  rw [insert, LruMap.push_of_present h]
  dsimp only
  rw [if_pos (LruMap.equiv_of_present h)]

theorem entries_insert_of_absent (h : c.entry? p = none) (value : α) :
    (c.insert p value).2.entries = (p, value) :: c.makeRoom.2 := by
  rw [insert_eq]
  exact (LruMap.push_of_absent h value).2

@[simp] theorem capacity_insert (c : Cache α) (p : Path) (value : α) :
    (c.insert p value).2.capacity = c.capacity := by
  rw [insert_eq]
  exact c.capacity_push p value

/-- After an insertion the value at the path is the new one, and the other entries are old ones. -/
theorem mem_insert {value : α} {x : Path × α} (h : x ∈ (c.insert p value).2.entries) :
    (x.1 ≈ p ∧ x.2 = value) ∨ (x ∈ c.entries ∧ ¬x.1 ≈ p) := by
  cases hp : c.entry? p with
  | some e =>
    rw [insert_of_present hp] at h
    rcases List.mem_cons.mp h with heq | hother
    · have hkey : e.1 ≈ p := LruMap.equiv_of_present hp
      rw [heq]
      exact Or.inl ⟨hkey, rfl⟩
    · exact Or.inr ⟨(c.others_sublist p).subset hother, LruMap.not_equiv_of_mem_others hother⟩
  | none =>
    rw [entries_insert_of_absent hp] at h
    rcases List.mem_cons.mp h with heq | hkept
    · rw [heq]
      exact Or.inl ⟨Setoid.refl p, rfl⟩
    · have hold := c.makeRoom_sublist.subset hkept
      exact Or.inr ⟨hold, LruMap.absent_iff.mp hp x hold⟩

/-- What enters goes in front, and the last entry leaves for it if the cache was full. -/
theorem insert_of_absent (h : c.entry? p = none) (value : α) :
    (c.size < c.capacity ∧ (c.insert p value).1 = none ∧
      (c.insert p value).2.entries = (p, value) :: c.entries) ∨
    ∃ rest last, c.size = c.capacity ∧ c.entries = rest ++ [last] ∧
      (c.insert p value).1 = some last ∧
      (c.insert p value).2.entries = (p, value) :: rest := by
  rw [entries_insert_of_absent h, insert_eq, (LruMap.push_of_absent h value).1]
  rcases c.makeRoom_cases with ⟨hsize, hroom⟩ | ⟨rest, last, hsize, hsplit, hroom⟩
  · rw [hroom]
    exact Or.inl ⟨hsize, rfl, rfl⟩
  · -- what was pushed out was there, so it is no spelling of the path
    have hlast : ¬last.1 ≈ p := LruMap.absent_iff.mp h last (by rw [hsplit]; simp)
    rw [hroom]
    refine Or.inr ⟨rest, last, hsize, hsplit, ?_, rfl⟩
    rw [Option.filter_some, decide_eq_false hlast]
    rfl

/-- Only the last entry of a full cache leaves on an insertion, and only for a new path. -/
theorem insert_of_evicted {value : α} (h : (c.insert p value).1 = some e) :
    c.entry? p = none ∧ c.size = c.capacity ∧
      ∃ rest, c.entries = rest ++ [e] ∧ (c.insert p value).2.entries = (p, value) :: rest := by
  cases hp : c.entry? p with
  | some x =>
    rw [insert_of_present hp] at h
    cases h
  | none =>
    rcases insert_of_absent hp value with ⟨_, hnone, _⟩ | ⟨rest, last, hsize, hsplit, hlast, hrest⟩
    · rw [hnone] at h
      cases h
    · rw [hlast] at h
      cases h
      exact ⟨rfl, hsize, rest, hsplit, hrest⟩

theorem mem_of_evicted {value : α} (h : (c.insert p value).1 = some e) : e ∈ c.entries := by
  obtain ⟨_, _, rest, hsplit, _⟩ := insert_of_evicted h
  rw [hsplit]
  exact List.mem_append_right _ (List.mem_singleton_self e)

/-- What leaves on an insertion is another path than the one that enters. -/
theorem not_equiv_of_evicted {value : α} (h : (c.insert p value).1 = some e) : ¬e.1 ≈ p :=
  LruMap.absent_iff.mp (insert_of_evicted h).1 e (mem_of_evicted h)

/-- What left on an insertion is not there any more, under no spelling. -/
theorem absent_of_evicted {value : α} (h : (c.insert p value).1 = some e) :
    (c.insert p value).2.contains e.1 = false := by
  obtain ⟨_, _, rest, hsplit, hrest⟩ := insert_of_evicted h
  rw [LruMap.contains_eq_false_iff, LruMap.absent_iff, hrest]
  intro x hx hxe
  rcases List.mem_cons.mp hx with hfront | hback
  · rw [hfront] at hxe
    exact not_equiv_of_evicted h (Setoid.symm hxe)
  · have hdistinct := c.distinct
    rw [hsplit] at hdistinct
    exact (List.pairwise_append.mp hdistinct).2.2 x hback e (List.mem_singleton_self e) hxe

/-- The entry that left is the only one that is not found any more. -/
theorem entry?_insert_of_absent (h : c.entry? p = none) (value : α) (q : Path) :
    (c.insert p value).2.toLruMap.entry? q =
      if p ≈ q then some (p, value)
      else if ∃ x ∈ (c.insert p value).1, x.1 ≈ q then none else c.entry? q := by
  rcases insert_of_absent h value with
    ⟨_, hnone, hentries⟩ | ⟨rest, last, _, hsplit, hlast, hentries⟩
  · rw [LruMap.entry?, hentries, hnone, List.find?_cons]
    by_cases hpq : p ≈ q
    · rw [if_pos hpq, decide_eq_true hpq]
    · have hleft : ¬∃ x ∈ (none : Option (Path × α)), x.1 ≈ q := by simp
      rw [if_neg hpq, decide_eq_false hpq, if_neg hleft]
      rfl
  · have hold : c.entry? q = (rest ++ [last]).find? fun x => decide (x.1 ≈ q) := by
      rw [LruMap.entry?, hsplit]
    rw [hold, LruMap.entry?, hentries, hlast, List.find?_cons, List.find?_append]
    by_cases hpq : p ≈ q
    · rw [if_pos hpq, decide_eq_true hpq]
    · rw [if_neg hpq, decide_eq_false hpq]
      by_cases hlq : last.1 ≈ q
      · have hdistinct := c.distinct
        rw [hsplit] at hdistinct
        rw [if_pos ⟨last, rfl, hlq⟩]
        refine List.find?_eq_none.mpr fun x hx hxq => ?_
        exact (List.pairwise_append.mp hdistinct).2.2 x hx last (List.mem_singleton_self last)
          (Setoid.trans (of_decide_eq_true hxq) (Setoid.symm hlq))
      · have hleft : ¬∃ x ∈ some last, x.1 ≈ q := by simpa using hlq
        rw [if_neg hleft, List.find?_singleton, decide_eq_false hlq]
        exact (Option.or_none).symm

/-! ## Clearing -/

theorem clear_of_pop {map : LruMap α} (h : c.popOldest = (some e, map)) :
    c.clear = (e :: (clear ⟨map⟩).1, (clear ⟨map⟩).2) := by
  rw [clear]
  split
  · rename_i x m hpop
    cases h.symm.trans hpop
    rfl
  · rename_i m hpop
    cases h.symm.trans hpop

theorem clear_of_nothing (h : c.popOldest = (none, c.toLruMap)) : c.clear = ([], c) := by
  rw [clear]
  split
  · rename_i x m hpop
    cases h.symm.trans hpop
  · rename_i m hpop
    cases h.symm.trans hpop
    rfl

/-- **Clearing hands everything back, the least recently touched entry first.** -/
theorem clear_eq (c : Cache α) :
    c.clear = (c.entries.reverse, empty c.capacity c.capacity_pos) := by
  -- each pop leaves one entry less, and the map it leaves is cleared in turn
  induction hn : c.size generalizing c with
  | zero =>
    have hnil : c.entries = [] := List.length_eq_zero_iff.mp hn
    rcases c.popOldest_cases with ⟨_, hnothing⟩ | ⟨last, map, _, hsplit, _⟩
    · rw [clear_of_nothing hnothing, hnil]
      exact Prod.ext rfl (Cache.ext rfl hnil)
    · rw [hnil] at hsplit
      cases List.append_eq_nil_iff.mp hsplit.symm |>.2
  | succ n ih =>
    rcases c.popOldest_cases with ⟨hnil, _⟩ | ⟨last, map, hpop, hsplit, hcapacity⟩
    · rw [LruMap.size, hnil] at hn
      cases hn
    · have hsize : map.size = n := by
        rw [LruMap.size, hsplit, List.length_append] at hn
        exact Nat.succ.inj hn
      rw [clear_of_pop hpop, ih ⟨map⟩ hsize, hsplit, List.reverse_append]
      exact Prod.ext rfl (Cache.ext hcapacity rfl)

end BackendSync.Cache
