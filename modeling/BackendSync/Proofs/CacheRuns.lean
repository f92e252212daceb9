import BackendSync.Proofs.CacheEntries
import BackendSync.Proofs.Mentions

/-!
# Runs of a cache

A cache is asked for one operation after another, with paths in any spelling. `Account` is
what the operations come to for somebody who does not look into the cache: one entry per
path, with the spelling it was stored under and the value last written, and the touches in
their order. All that the account takes from the cache is what was handed back to make room.

`Follows` ties a cache to an account, and every operation keeps it. So at any time the cache
lists what the account holds, by the latest touch, and what it hands back to make room is
the entry whose latest touch is the oldest.
-/

namespace BackendSync

namespace Cache

open LruMap

variable {α : Type u}

/-- What a cache can be asked for. -/
inductive Op (α : Type u) where
  | insert (path : Path) (value : α)
  | get (path : Path)
  /-- Writes through the value at a path. -/
  | modify (path : Path) (change : α → α)
  | contains (path : Path)
  | remove (path : Path)
  | clear

/-- What an operation hands back, and the cache after it. -/
def apply (c : Cache α) : Op α → List (Path × α) × Cache α
  | .insert path value => ((c.insert path value).1.toList, (c.insert path value).2)
  | .get path => ([], (c.get path).2)
  | .modify path change => ([], (c.modify path change).2)
  | .contains _ => ([], c)
  | .remove path => ((c.remove path).1.toList, (c.remove path).2)
  | .clear => c.clear

theorem apply_clear (c : Cache α) :
    c.apply .clear = (c.entries.reverse, empty c.capacity c.capacity_pos) := clear_eq c

/-- The cache after a list of operations. -/
def run (c : Cache α) (ops : List (Op α)) : Cache α := ops.foldl (fun c op => (c.apply op).2) c

/-- What operations come to, without a look into the cache. -/
structure Account (α : Type u) where
  /-- What there is at a path: the spelling it was stored under and the value last written. -/
  held : Path → Option (Path × α) := fun _ => none
  /-- The paths that were touched, the latest at the end. -/
  touches : List Path := []

namespace Account

/-- What an operation touches. Asking for a path that is not there touches nothing. -/
def touched (a : Account α) : Op α → List Path
  | .insert path _ => [path]
  | .get path => if (a.held path).isSome then [path] else []
  | .modify path _ => if (a.held path).isSome then [path] else []
  | _ => []

/-- What there is at a path after an operation that hands back `left`. -/
def heldAfter (a : Account α) (left : List (Path × α)) (q : Path) : Op α → Option (Path × α)
  | .insert path value =>
    if path ≈ q then some (((a.held path).map (·.1)).getD path, value)
    else if ∃ e ∈ left, e.1 ≈ q then none
    else a.held q
  | .modify path change =>
    if path ≈ q then (a.held path).map fun e => (e.1, change e.2) else a.held q
  | .remove path => if path ≈ q then none else a.held q
  | .clear => none
  | _ => a.held q

/-- The account after an operation that hands back `left`. -/
def next (a : Account α) (op : Op α) (left : List (Path × α)) : Account α where
  held q := a.heldAfter left q op
  touches := a.touches ++ a.touched op

end Account

/-- The account of operations on a cache, from an account of what was before them. -/
def account (c : Cache α) (a : Account α) : List (Op α) → Account α
  | [] => a
  | op :: rest => (c.apply op).2.account (a.next op (c.apply op).1) rest

/-! ## One operation -/

/-- The cache holds what the account does, in the order of the latest touches. -/
structure Follows (c : Cache α) (a : Account α) : Prop where
  held : ∀ p, c.entry? p = a.held p
  mentioned : ∀ q ∈ c.paths, ∃ x ∈ a.touches, x ≈ q
  recent : c.paths.Pairwise (Later a.touches)

variable {c c' : Cache α} {a : Account α} {p q : Path} {e : Path × α}

theorem follows_empty (capacity : Nat) (h : 0 < capacity) :
    (empty capacity h : Cache α).Follows {} := by
  refine ⟨fun p => rfl, fun q hq => ?_, .nil⟩
  cases hq

/-- An operation that touches nothing keeps the order of what it leaves. -/
theorem Follows.keep (h : c.Follows a) {held : Path → Option (Path × α)}
    (hsublist : c'.paths.Sublist c.paths) (hheld : ∀ p, c'.entry? p = held p) :
    c'.Follows ⟨held, a.touches ++ []⟩ := by
  rw [List.append_nil]
  exact ⟨hheld, fun q hq => h.mentioned q (hsublist.subset hq), h.recent.sublist hsublist⟩

/-- An operation that touches a path puts it in front of some of the other paths. -/
theorem Follows.touch (h : c.Follows a) {held : Path → Option (Path × α)} {front : Path}
    {rest : List Path} (hpaths : c'.paths = front :: rest) (hrest : rest.Sublist c.paths)
    (hfront : p ≈ front) (hne : ∀ q ∈ rest, ¬p ≈ q) (hheld : ∀ p, c'.entry? p = held p) :
    c'.Follows ⟨held, a.touches ++ [p]⟩ := by
  refine ⟨hheld, ?_, ?_⟩
  · rw [hpaths]
    exact mentioned_cons h.mentioned hrest hfront
  · rw [hpaths]
    exact pairwise_later_cons h.recent h.mentioned hrest hne hfront

theorem not_equiv_of_mem_others_paths (hq : q ∈ (c.others p).map (·.1)) : ¬p ≈ q := by
  obtain ⟨x, hx, rfl⟩ := List.mem_map.mp hq
  exact fun hpx => not_equiv_of_mem_others hx (Setoid.symm hpx)

theorem Follows.refresh (h : c.Follows a) (hp : c.entry? p = some e) (value : α)
    {held : Path → Option (Path × α)}
    (hheld : ∀ q, held q = if p ≈ q then some (e.1, value) else a.held q) :
    (⟨c.refresh p e hp value⟩ : Cache α).Follows ⟨held, a.touches ++ [p]⟩ := by
  refine h.touch (paths_refresh hp value) ((c.others_sublist p).map _)
    (Setoid.symm (equiv_of_present hp)) (fun q => not_equiv_of_mem_others_paths) fun q => ?_
  rw [ entry?_refresh, hheld, h.held]

theorem Follows.insert (h : c.Follows a) (path : Path) (value : α) :
    (c.insert path value).2.Follows
      (a.next (.insert path value) (c.insert path value).1.toList) := by
  cases hp : c.entry? path with
  | some e =>
    have hheld := (h.held path).symm.trans hp
    rw [insert_of_present hp]
    refine h.refresh hp value fun q => ?_
    simp [Account.heldAfter, hheld]
  | none =>
    have hheld := (h.held path).symm.trans hp
    have hne : ∀ q ∈ c.paths, ¬path ≈ q := by
      intro q hq hpq
      obtain ⟨x, hx, rfl⟩ := mem_paths_iff.mp hq
      exact absent_iff.mp hp x hx (Setoid.symm hpq)
    have hrest : (c.makeRoom.2.map (·.1)).Sublist c.paths := c.makeRoom_sublist.map _
    have hpaths : (c.insert path value).2.paths = path :: c.makeRoom.2.map (·.1) := by
      rw [paths, entries_insert_of_absent hp]
      rfl
    refine h.touch hpaths hrest (Setoid.refl path) (fun q hq => hne q (hrest.subset hq)) fun q => ?_
    rw [ entry?_insert_of_absent hp, h.held q, Account.heldAfter, hheld]
    simp only [Option.mem_toList, Option.mem_def, Option.map_none, Option.getD_none]

theorem Follows.modify (h : c.Follows a) (path : Path) (change : α → α) :
    (c.modify path change).2.Follows (a.next (.modify path change) []) := by
  have htouched : a.touched (.modify path change) =
      if (a.held path).isSome then [path] else [] := rfl
  rw [Account.next, htouched]
  cases hp : c.entry? path with
  | some e =>
    have hheld := (h.held path).symm.trans hp
    rw [modify_of_present hp, hheld]
    refine h.refresh hp (change e.2) fun q => ?_
    rw [Account.heldAfter, hheld]
    rfl
  | none =>
    have hheld := (h.held path).symm.trans hp
    rw [modify_of_absent hp, hheld]
    refine h.keep (List.Sublist.refl _) fun q => ?_
    rw [Account.heldAfter, hheld, h.held q]
    -- under another spelling there is nothing either
    by_cases hpq : path ≈ q
    · rw [if_pos hpq, ← h.held q, ← entry?_congr hpq, hp]
      rfl
    · rw [if_neg hpq]

/-- A look-up is a modification that changes nothing. -/
theorem Follows.get (h : c.Follows a) (path : Path) :
    (c.get path).2.Follows (a.next (.get path) []) := by
  have hmodify := h.modify path id
  have hheld : ∀ q, a.heldAfter [] q (.modify path id) = a.held q := by
    intro q
    have hid : (fun e : Path × α => (e.1, id e.2)) = id := rfl
    rw [Account.heldAfter, hid, Option.map_id]
    split
    · rename_i hpq
      rw [id, ← h.held, ← h.held, entry?_congr hpq]
    · rfl
  refine ⟨fun q => ?_, hmodify.mentioned, hmodify.recent⟩
  exact (hmodify.held q).trans (hheld q)

/-- **Every operation keeps a cache to its account.** -/
theorem Follows.apply (h : c.Follows a) (op : Op α) :
    (c.apply op).2.Follows (a.next op (c.apply op).1) := by
  cases op with
  | insert path value => exact h.insert path value
  | get path => exact h.get path
  | modify path change => exact h.modify path change
  | contains path => exact h.keep (List.Sublist.refl _) h.held
  | remove path =>
    have herase : (c.apply (.remove path)).2 = ⟨c.erase path⟩ := rfl
    rw [herase]
    refine h.keep ((c.others_sublist path).map _) fun q => ?_
    rw [ entry?_erase, h.held q]
    rfl
  | clear =>
    rw [apply_clear]
    exact h.keep (List.nil_sublist _) fun q => rfl

/-! ## Runs -/

@[simp] theorem capacity_apply (c : Cache α) (op : Op α) : (c.apply op).2.capacity = c.capacity := by
  cases op with
  | insert path value => exact capacity_insert c path value
  | get path => exact capacity_modify c path id
  | modify path change => exact capacity_modify c path change
  | contains path => rfl
  | remove path => rfl
  | clear => rw [apply_clear]; rfl

theorem capacity_run (c : Cache α) (ops : List (Op α)) : (c.run ops).capacity = c.capacity := by
  induction ops generalizing c with
  | nil => rfl
  | cons op rest ih => exact (ih (c.apply op).2).trans (c.capacity_apply op)

theorem Follows.run (h : c.Follows a) (ops : List (Op α)) :
    (c.run ops).Follows (c.account a ops) := by
  induction ops generalizing c a with
  | nil => exact h
  | cons op rest ih => exact ih (h.apply op)

/-- What a cache does, said by the account of what was done to it. -/
structure LeastRecentLeaves (limit : Nat) (a : Account α) (c : Cache α) : Prop where
  /-- No two paths are spellings of one. -/
  distinct : c.paths.Pairwise fun p q => ¬p ≈ q
  bounded : c.paths.length ≤ limit
  /-- What is held is listed, under the spelling it was stored with, and nothing else is. -/
  listed : ∀ q, q ∈ c.paths ↔ (a.held q).map (·.1) = some q
  /-- Every path was touched, and the one that was touched later stands before the other. -/
  mentioned : ∀ q ∈ c.paths, ∃ x ∈ a.touches, x ≈ q
  recent : c.paths.Pairwise (Later a.touches)
  /-- What is looked up is what was written last. -/
  found : ∀ p, (c.get p).1 = (a.held p).map (·.2)
  modified : ∀ p change, (c.modify p change).1 = (a.held p).map fun e => change e.2
  /-- Whether a path is there can be asked without touching it. -/
  asked : ∀ p, c.contains p = (a.held p).isSome ∧ c.apply (.contains p) = ([], c)
  /-- An insertion hands something back just if its path is new and there is no room. -/
  full : ∀ p value, (c.apply (.insert p value)).1 ≠ [] ↔ a.held p = none ∧ c.paths.length = limit
  /-- That is one entry, as it was last written, and the one that was touched the longest ago. -/
  oldest : ∀ p value, ∀ e ∈ (c.apply (.insert p value)).1,
    (c.apply (.insert p value)).1 = [e] ∧ a.held e.1 = some e ∧
      ∀ q ∈ c.paths, ¬q ≈ e.1 → Later a.touches q e.1

theorem Follows.mem_paths_iff (h : c.Follows a) :
    q ∈ c.paths ↔ (a.held q).map (·.1) = some q := by
  rw [← h.held]
  constructor
  · intro hq
    obtain ⟨x, hx, rfl⟩ := LruMap.mem_paths_iff.mp hq
    rw [ entry?_of_mem hx]
    rfl
  · intro hq
    obtain ⟨x, hx, hxq⟩ := Option.map_eq_some_iff.mp hq
    exact LruMap.mem_paths_iff.mpr ⟨x, mem_of_present hx, hxq⟩

theorem Follows.modify_eq (h : c.Follows a) (p : Path) (change : α → α) :
    (c.modify p change).1 = (a.held p).map fun e => change e.2 := by
  rw [← h.held]
  cases hp : c.entry? p with
  | some e => rw [modify_of_present hp, Option.map_some]
  | none => rw [modify_of_absent hp, Option.map_none]

theorem Follows.insert_ne_nil_iff (h : c.Follows a) (p : Path) (value : α) :
    (c.insert p value).1.toList ≠ [] ↔ a.held p = none ∧ c.paths.length = c.capacity := by
  rw [← h.held, length_paths]
  cases hp : c.entry? p with
  | some e =>
    rw [insert_of_present hp]
    refine iff_of_false (fun hne => hne rfl) fun hnone => ?_
    cases hnone.1
  | none =>
    rcases insert_of_absent hp value with ⟨hroom, hnone, _⟩ | ⟨rest, last, hfull, _, hlast, _⟩
    · rw [hnone]
      refine iff_of_false (fun hne => hne rfl) fun hfull => ?_
      exact Nat.ne_of_lt hroom hfull.2
    · rw [hlast]
      exact iff_of_true (List.cons_ne_nil last []) ⟨rfl, hfull⟩

theorem Follows.oldest_of_insert (h : c.Follows a) {value : α}
    (he : e ∈ (c.insert p value).1.toList) :
    (c.insert p value).1.toList = [e] ∧ a.held e.1 = some e ∧
      ∀ q ∈ c.paths, ¬q ≈ e.1 → Later a.touches q e.1 := by
  have hleft : (c.insert p value).1 = some e := Option.mem_toList.mp he
  obtain ⟨_, _, rest, hsplit, _⟩ := insert_of_evicted hleft
  refine ⟨by rw [hleft]; rfl, ?_, fun q hq hne => ?_⟩
  · rw [← h.held]
    exact entry?_of_mem (mem_of_evicted hleft)
  · -- the entry that leaves is the last one
    have hrecent := h.recent
    rw [paths, hsplit, List.map_append] at hq hrecent
    rcases List.mem_append.mp hq with hfront | hback
    · exact (List.pairwise_append.mp hrecent).2.2 q hfront e.1 (List.mem_singleton_self e.1)
    · rw [List.mem_singleton.mp hback] at hne
      exact absurd (Setoid.refl e.1) hne

/--
**A cache lists what it holds by the latest touch, and the oldest leaves.** Whatever is done
to a cache that was empty, and however paths are spelled, it holds what the account of that
says: each path under its first spelling and with its last value, the latest touched first.
Only an insertion of a new path into a full cache makes an entry leave, and that is the one
whose latest touch is the oldest.
-/
theorem run_leastRecentLeaves {capacity : Nat} (hpos : 0 < capacity) (ops : List (Op α)) :
    LeastRecentLeaves capacity ((empty capacity hpos).account {} ops)
      ((empty capacity hpos).run ops) := by
  have h := (follows_empty (α := α) capacity hpos).run ops
  have hcapacity : ((empty capacity hpos : Cache α).run ops).capacity = capacity :=
    capacity_run _ ops
  generalize (empty capacity hpos : Cache α).run ops = c at h hcapacity ⊢
  generalize (empty capacity hpos : Cache α).account {} ops = a at h ⊢
  refine ⟨c.paths_distinct, ?_, fun q => h.mem_paths_iff, h.mentioned, h.recent, ?_, h.modify_eq,
    fun p => ⟨?_, rfl⟩, ?_, fun p value e he => h.oldest_of_insert he⟩
  · rw [length_paths, ← hcapacity]
    exact c.size_le
  · intro p
    exact h.modify_eq p id
  · rw [contains, h.held]
  · intro p value
    rw [← hcapacity]
    exact h.insert_ne_nil_iff p value

/-- In a full cache of two, the path that was written last stays, under its first spelling. -/
theorem run_leastRecentLeaves_of_two :
    LeastRecentLeaves 2
      ((empty 2 Nat.two_pos).account {}
        [.insert ⟨"/a"⟩ 1, .insert ⟨"/b"⟩ 2, .modify ⟨"//a/."⟩ (· + 10)])
      ((empty 2 Nat.two_pos).run
        [.insert ⟨"/a"⟩ 1, .insert ⟨"/b"⟩ 2, .modify ⟨"//a/."⟩ (· + 10)]) ∧
    (((empty 2 Nat.two_pos).run
        [.insert ⟨"/a"⟩ 1, .insert ⟨"/b"⟩ 2, .modify ⟨"//a/."⟩ (· + 10)]).insert ⟨"/c"⟩ 3).1 =
      some (⟨"/b"⟩, 2) ∧
    ((empty 2 Nat.two_pos).run
        [.insert ⟨"/a"⟩ 1, .insert ⟨"/b"⟩ 2, .modify ⟨"//a/."⟩ (· + 10), .insert ⟨"/c"⟩ 3]).entries =
      [(⟨"/c"⟩, 3), (⟨"/a"⟩, 11)] :=
  ⟨run_leastRecentLeaves Nat.two_pos _, by decide, by decide⟩

end Cache

end BackendSync
