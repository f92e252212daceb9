import Mathlib.Data.List.Chain
import BackendSync.Proofs.CacheRuns

/-!
# Traffic of a cache

A path enters a cache when it is inserted and was not there, and it leaves when its entry is
handed back. `traffic` writes down both for a list of operations, in their order.

All of what follows rests on one law, `paths_apply_perm`: the paths that were there and those
that enter are, spelling by spelling, the paths that are there afterwards and those that
leave. So what has entered has left or is there. And the crossings of one path take turns,
for it can only enter when it is outside and only leave when it is inside.
-/

namespace BackendSync

namespace Cache

open LruMap

variable {α : Type u}

/-- One path that enters a cache, or one entry that is handed back. -/
inductive Crossing (α : Type u) where
  | entered (path : Path)
  | left (path : Path) (value : α)
deriving DecidableEq

namespace Crossing

/-- The path that crosses. -/
def path : Crossing α → Path
  | entered path => path
  | left path _ => path

/-- Does the path come in? -/
def inward : Crossing α → Bool
  | entered _ => true
  | left _ _ => false

end Crossing

/-- The path that enters by an operation: an insertion lets its path in if it is absent. -/
def entering (c : Cache α) : Op α → List Path
  | .insert path _ => if c.contains path then [] else [path]
  | _ => []

/-- What crosses in one operation. -/
def crossings (c : Cache α) (op : Op α) : List (Crossing α) :=
  (c.entering op).map .entered ++ (c.apply op).1.map fun e => .left e.1 e.2

/-- What crosses in a list of operations. -/
def traffic (c : Cache α) : List (Op α) → List (Crossing α)
  | [] => []
  | op :: rest => c.crossings op ++ (c.apply op).2.traffic rest

/-- The paths that cross in one direction. -/
def pathsOf (inward : Bool) (crossed : List (Crossing α)) : List Path :=
  (crossed.filter (·.inward == inward)).map (·.path)

/-- The directions in which a path crosses, under whatever spelling. -/
def turns (crossed : List (Crossing α)) (q : Path) : List Bool :=
  (crossed.filter fun x => decide (x.path ≈ q)).map (·.inward)

variable {c : Cache α} {op : Op α} {p q : Path} {e : Path × α}

/-! ## One operation -/

/-- Only what is there is handed back. -/
theorem mem_of_handedBack (h : e ∈ (c.apply op).1) : e ∈ c.entries := by
  cases op with
  | insert path value => exact mem_of_evicted (Option.mem_toList.mp h)
  | remove path => exact mem_of_present (Option.mem_toList.mp h)
  | clear =>
    rw [apply_clear] at h
    exact List.mem_reverse.mp h
  | get path => cases h
  | modify path change => cases h
  | contains path => cases h

theorem entering_of_absent (h : c.entry? p = none) (value : α) :
    c.entering (.insert p value) = [p] := by
  simp [entering, contains, h]

theorem entering_of_present (h : c.entry? p = some e) (value : α) :
    c.entering (.insert p value) = [] := by
  simp [entering, contains, h]

/-- What enters was not there. -/
theorem absent_of_entering (h : p ∈ c.entering op) : c.contains p = false := by
  cases op with
  | insert path value =>
    simp only [entering] at h
    split at h
    · cases h
    · rename_i hcontains
      rw [List.mem_singleton.mp h]
      simpa using hcontains
  | get path => cases h
  | modify path change => cases h
  | contains path => cases h
  | remove path => cases h
  | clear => cases h

/-- What enters is not what leaves for it. -/
theorem not_equiv_of_entering (hp : p ∈ c.entering op) (he : e ∈ (c.apply op).1) : ¬e.1 ≈ p := by
  intro hep
  have habsent := absent_of_entering hp
  rw [contains_eq_false_iff] at habsent
  exact absent_iff.mp habsent e (mem_of_handedBack he) hep

theorem paths_modify_perm (c : Cache α) (p : Path) (f : α → α) :
    (c.modify p f).2.paths.Perm c.paths := by
  cases h : c.entry? p with
  | some e =>
    rw [modify_of_present h]
    exact paths_refresh_perm h (f e.2)
  | none => rw [modify_of_absent h]

theorem paths_insert_perm (c : Cache α) (p : Path) (value : α) :
    (c.entering (.insert p value) ++ c.paths).Perm
      ((c.insert p value).2.paths ++ (c.insert p value).1.toList.map (·.1)) := by
  cases h : c.entry? p with
  | some e =>
    rw [entering_of_present h, insert_of_present h]
    simpa using (paths_refresh_perm h value).symm
  | none =>
    rw [entering_of_absent h]
    rcases insert_of_absent h value with
      ⟨_, hnone, hentries⟩ | ⟨rest, last, _, hsplit, hlast, hentries⟩
    · simp [paths, hnone, hentries]
    · simp [paths, hlast, hentries, hsplit]

theorem paths_remove_perm (c : Cache α) (p : Path) :
    c.paths.Perm ((c.erase p).paths ++ (c.entry? p).toList.map (·.1)) := by
  cases h : c.entry? p with
  | some e =>
    obtain ⟨newer, older, hsplit, hothers⟩ := split_of_present h
    have herase : (c.erase p).entries = newer ++ older := hothers
    simp only [paths, hsplit, herase, List.map_append, List.map_cons, Option.toList_some,
      List.map_nil]
    exact List.perm_middle.trans (List.perm_append_singleton _ _).symm
  | none =>
    have herase : (c.erase p).entries = c.entries :=
      List.filter_eq_self.mpr fun x hx => by simpa using absent_iff.mp h x hx
    simp [paths, herase]

/--
**An operation loses no path and makes none.** The paths that were there and those that
enter are the paths that are there afterwards and those that leave.
-/
theorem paths_apply_perm (c : Cache α) (op : Op α) :
    (c.entering op ++ c.paths).Perm ((c.apply op).2.paths ++ (c.apply op).1.map (·.1)) := by
  cases op with
  | insert path value => exact paths_insert_perm c path value
  | get path => simpa [entering, apply, get] using (paths_modify_perm c path id).symm
  | modify path change => simpa [entering, apply] using (paths_modify_perm c path change).symm
  | contains path => simp [entering, apply]
  | remove path => exact paths_remove_perm c path
  | clear =>
    rw [apply_clear]
    simp only [entering, paths, List.map_reverse, List.nil_append]
    exact (List.reverse_perm _).symm

/-! ## Turns -/

theorem countP_le_one_of_distinct {paths : List Path} (h : paths.Pairwise fun p q => ¬p ≈ q)
    (q : Path) : paths.countP (fun p => decide (p ≈ q)) ≤ 1 := by
  induction paths with
  | nil => simp
  | cons p rest ih =>
    obtain ⟨hp, hrest⟩ := List.pairwise_cons.mp h
    rw [List.countP_cons]
    by_cases hpq : p ≈ q
    · have hnone : rest.countP (fun p => decide (p ≈ q)) = 0 := by
        rw [List.countP_eq_zero]
        intro r hr hrq
        exact hp r hr (Setoid.trans hpq (Setoid.symm (of_decide_eq_true hrq)))
      simp [hnone, hpq]
    · have := ih hrest
      simp [hpq]
      omega

/-- A path is there once or not at all. -/
theorem countP_paths (c : Cache α) (q : Path) :
    c.paths.countP (fun p => decide (p ≈ q)) = if c.contains q then 1 else 0 := by
  have hle := countP_le_one_of_distinct c.paths_distinct q
  by_cases h : c.contains q = true
  · obtain ⟨p, hp, hpq⟩ := contains_iff.mp h
    have hpos : 0 < c.paths.countP (fun p => decide (p ≈ q)) :=
      List.countP_pos_iff.mpr ⟨p, hp, decide_eq_true hpq⟩
    rw [if_pos h]
    omega
  · rw [if_neg h, List.countP_eq_zero]
    intro p hp hpq
    exact h (contains_iff.mpr ⟨p, hp, of_decide_eq_true hpq⟩)

@[simp] theorem turns_append (first second : List (Crossing α)) (q : Path) :
    turns (first ++ second) q = turns first q ++ turns second q := by
  simp [turns]

theorem turns_entered (paths : List Path) (q : Path) :
    turns (paths.map .entered : List (Crossing α)) q =
      List.replicate (paths.countP fun p => decide (p ≈ q)) true := by
  induction paths with
  | nil => rfl
  | cons p rest ih =>
    by_cases hpq : p ≈ q
    · simpa [turns, Crossing.path, Crossing.inward, hpq, List.replicate_succ] using ih
    · simpa [turns, Crossing.path, hpq] using ih

theorem turns_left (gone : List (Path × α)) (q : Path) :
    turns (gone.map fun e => .left e.1 e.2) q =
      List.replicate ((gone.map (·.1)).countP fun p => decide (p ≈ q)) false := by
  induction gone with
  | nil => rfl
  | cons e rest ih =>
    by_cases hpq : e.1 ≈ q
    · simpa [turns, Crossing.path, Crossing.inward, hpq, List.replicate_succ] using ih
    · simpa [turns, Crossing.path, hpq] using ih

/--
**An operation turns a path at most once.** It crosses just if it is on the other side
afterwards, and to that side.
-/
theorem turns_crossings (c : Cache α) (op : Op α) (q : Path) :
    turns (c.crossings op) q =
      if c.contains q = (c.apply op).2.contains q then [] else [(c.apply op).2.contains q] := by
  rw [crossings, turns_append, turns_entered, turns_left]
  -- what comes in and was there is what is there and goes out
  have hbalance := (paths_apply_perm c op).countP_eq fun p => decide (p ≈ q)
  rw [List.countP_append, List.countP_append, countP_paths, countP_paths] at hbalance
  have hnotBoth : 0 < (c.entering op).countP (fun p => decide (p ≈ q)) →
      c.contains q = false ∧ ((c.apply op).1.map (·.1)).countP (fun p => decide (p ≈ q)) = 0 := by
    intro hpos
    obtain ⟨p, hp, hpq⟩ := List.countP_pos_iff.mp hpos
    refine ⟨?_, ?_⟩
    · rw [← contains_congr (of_decide_eq_true hpq)]
      exact absent_of_entering hp
    · rw [List.countP_eq_zero]
      intro r hr hrq
      obtain ⟨e, he, rfl⟩ := List.mem_map.mp hr
      exact not_equiv_of_entering hp he
        (Setoid.trans (of_decide_eq_true hrq) (Setoid.symm (of_decide_eq_true hpq)))
  generalize (c.entering op).countP (fun p => decide (p ≈ q)) = i at *
  generalize ((c.apply op).1.map (·.1)).countP (fun p => decide (p ≈ q)) = o at *
  generalize (c.apply op).2.contains q = after at *
  rcases Nat.eq_zero_or_pos i with hi | hi
  · -- nothing comes in, so it goes out or stays where it is
    cases hbefore : c.contains q <;> cases after <;>
      simp only [hbefore, Bool.false_eq_true, if_true, if_false] at hbalance
    · obtain rfl : o = 0 := by omega
      simp [hi]
    · omega
    · obtain rfl : o = 1 := by omega
      simp [hi]
    · obtain rfl : o = 0 := by omega
      simp [hi]
  · obtain ⟨hbefore, ho⟩ := hnotBoth hi
    rw [hbefore, ho] at hbalance
    cases after
    · simp at hbalance
      omega
    · obtain rfl : i = 1 := by simpa using hbalance
      simp [hbefore, ho]

/-! ## Runs -/

/-- The crossings of a path take turns, the first of them from the side on which it was. -/
theorem turns_traffic (c : Cache α) (ops : List (Op α)) (q : Path) :
    (c.contains q :: turns (c.traffic ops) q).IsChain (· ≠ ·) ∧
      (c.contains q :: turns (c.traffic ops) q).getLast? = some ((c.run ops).contains q) := by
  induction ops generalizing c with
  | nil => simp [traffic, turns, run]
  | cons op rest ih =>
    obtain ⟨hchain, hlast⟩ := ih (c.apply op).2
    have hrun : c.run (op :: rest) = (c.apply op).2.run rest := rfl
    rw [traffic, turns_append, turns_crossings, hrun]
    by_cases hsame : c.contains q = (c.apply op).2.contains q
    · rw [if_pos hsame, List.nil_append, hsame]
      exact ⟨hchain, hlast⟩
    · rw [if_neg hsame, List.singleton_append]
      refine ⟨List.isChain_cons_cons.mpr ⟨hsame, hchain⟩, ?_⟩
      rw [List.getLast?_cons_cons, hlast]

@[simp] theorem pathsOf_append (inward : Bool) (first second : List (Crossing α)) :
    pathsOf inward (first ++ second) = pathsOf inward first ++ pathsOf inward second := by
  simp [pathsOf]

theorem pathsOf_crossings (c : Cache α) (op : Op α) :
    pathsOf true (c.crossings op) = c.entering op ∧
      pathsOf false (c.crossings op) = (c.apply op).1.map (·.1) := by
  refine ⟨?_, ?_⟩
  · simp [pathsOf, crossings, List.filter_map, Function.comp_def, Crossing.inward, Crossing.path,
      List.filter_true, List.filter_false]
  · simp [pathsOf, crossings, List.filter_map, Function.comp_def, Crossing.inward, Crossing.path,
      List.filter_true, List.filter_false]

/-- The paths that were there and have entered are there or have left. -/
theorem paths_run_perm (c : Cache α) (ops : List (Op α)) :
    (pathsOf true (c.traffic ops) ++ c.paths).Perm
      ((c.run ops).paths ++ pathsOf false (c.traffic ops)) := by
  induction ops generalizing c with
  | nil => simp [traffic, pathsOf, run]
  | cons op rest ih =>
    have hrun : c.run (op :: rest) = (c.apply op).2.run rest := rfl
    obtain ⟨hin, hout⟩ := c.pathsOf_crossings op
    rw [traffic, pathsOf_append, pathsOf_append, hin, hout, hrun]
    -- each spelling that is there between the two counts on both sides
    refine List.perm_iff_count.mpr fun p => ?_
    have hop := (paths_apply_perm c op).count_eq p
    have hrest := (ih (c.apply op).2).count_eq p
    simp only [List.count_append] at hop hrest ⊢
    omega

/-- What leaves a cache, by what has crossed and by the account of what was done. -/
structure LeavesSeen (a : Account α) (crossed : List (Crossing α)) (c : Cache α) : Prop where
  /-- What has entered is there or has left, in the spelling in which it entered. -/
  conserved : (pathsOf true crossed).Perm (c.paths ++ pathsOf false crossed)
  balanced : (pathsOf true crossed).length = c.paths.length + (pathsOf false crossed).length
  /-- A path enters first, then it leaves and enters by turns, and is there if it entered last. -/
  alternate : ∀ q, (false :: turns crossed q).IsChain (· ≠ ·) ∧
    (false :: turns crossed q).getLast? = some (c.contains q)
  /-- What is handed back has the spelling under which it was stored and its last value. -/
  carried : ∀ op, ∀ e ∈ (c.apply op).1, a.held e.1 = some e
  /-- A value that is replaced is not handed back. -/
  replaced : ∀ p value, c.contains p = true → c.crossings (.insert p value) = []
  /-- All that is there is handed back at the end, once, and the oldest first. -/
  cleared : (c.apply .clear).1.map (·.1) = c.paths.reverse ∧
    ((c.apply .clear).1.map (·.1)).Pairwise (fun p q => ¬p ≈ q ∧ Later a.touches q p) ∧
    (c.apply .clear).2.paths = []

theorem Follows.carried {a : Account α} (h : c.Follows a) (he : e ∈ (c.apply op).1) :
    a.held e.1 = some e := by
  rw [← h.held]
  exact entry?_of_mem (mem_of_handedBack he)

theorem crossings_of_replaced (h : c.contains p = true) (value : α) :
    c.crossings (.insert p value) = [] := by
  obtain ⟨e, he⟩ := Option.isSome_iff_exists.mp h
  rw [crossings, entering_of_present he, apply, insert_of_present he]
  rfl

theorem paths_cleared (c : Cache α) : (c.apply .clear).1.map (·.1) = c.paths.reverse := by
  rw [apply_clear, List.map_reverse, paths]

theorem Follows.cleared_oldest_first {a : Account α} (h : c.Follows a) :
    ((c.apply .clear).1.map (·.1)).Pairwise (fun p q => ¬p ≈ q ∧ Later a.touches q p) := by
  rw [paths_cleared, List.pairwise_reverse]
  refine c.paths_distinct.and h.recent |>.imp ?_
  intro p q hpq
  exact ⟨fun hqp => hpq.1 (Setoid.symm hqp), hpq.2⟩

/--
**Nothing leaves a cache unseen.** Whatever is done to a cache that was empty, and however
paths are spelled, the entries made so far are as many as the paths that are there and the
entries handed back together. No path is handed back that is not there, none is missed and
none is handed back twice, and each comes with what was stored for it last.
-/
theorem traffic_leavesSeen {capacity : Nat} (hpos : 0 < capacity) (ops : List (Op α)) :
    LeavesSeen ((empty capacity hpos).account {} ops) ((empty capacity hpos).traffic ops)
      ((empty capacity hpos).run ops) := by
  have hfollows := (follows_empty (α := α) capacity hpos).run ops
  have hconserved : (pathsOf true ((empty capacity hpos).traffic ops)).Perm
      (((empty capacity hpos).run ops).paths ++
        pathsOf false ((empty capacity hpos).traffic ops)) := by
    have hperm := (empty capacity hpos).paths_run_perm ops
    rwa [show (empty capacity hpos : Cache α).paths = [] from rfl, List.append_nil] at hperm
  refine ⟨hconserved, ?_, ?_, ?_, ?_, ?_⟩
  · rw [hconserved.length_eq, List.length_append]
  · intro q
    exact (empty capacity hpos).turns_traffic ops q
  · intro op e he
    exact hfollows.carried he
  · intro p value h
    exact crossings_of_replaced h value
  · refine ⟨paths_cleared _, hfollows.cleared_oldest_first, ?_⟩
    rw [apply_clear]
    rfl

/-- With room for one, a path that is written again stays, and leaves for another path. -/
theorem traffic_leavesSeen_of_one :
    LeavesSeen
      ((empty 1 Nat.one_pos).account {}
        [.insert ⟨"/a"⟩ 1, .insert ⟨"//a/."⟩ 2, .modify ⟨"/a/"⟩ (· + 10), .insert ⟨"/b"⟩ 3])
      ((empty 1 Nat.one_pos).traffic
        [.insert ⟨"/a"⟩ 1, .insert ⟨"//a/."⟩ 2, .modify ⟨"/a/"⟩ (· + 10), .insert ⟨"/b"⟩ 3])
      ((empty 1 Nat.one_pos).run
        [.insert ⟨"/a"⟩ 1, .insert ⟨"//a/."⟩ 2, .modify ⟨"/a/"⟩ (· + 10), .insert ⟨"/b"⟩ 3]) ∧
    (empty 1 Nat.one_pos).traffic
        [.insert ⟨"/a"⟩ 1, .insert ⟨"//a/."⟩ 2, .modify ⟨"/a/"⟩ (· + 10), .insert ⟨"/b"⟩ 3] =
      [.entered ⟨"/a"⟩, .entered ⟨"/b"⟩, .left ⟨"/a"⟩ 12] :=
  ⟨traffic_leavesSeen Nat.one_pos _, by decide⟩

end Cache

end BackendSync
