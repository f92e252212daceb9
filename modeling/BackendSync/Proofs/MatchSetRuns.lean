import BackendSync.Proofs.MatchSets

/-!
# A match set in use

A match set is asked to take paths, to hold itself against a cap, and to forget everything.
After any number of such requests it lists the paths that came since it last forgot, each in
the spelling it came in first, and what it answers depends on that list and on nothing else.
In particular a path stays that was recorded over the cap, and a check leaves no trace.

The list is `firstSpellings` of what was put in, and `Checked` says what the answer to a check
is. The induction is on the requests, from the last one.
-/

namespace BackendSync

namespace MatchSet

/-! ## Requests -/

/-- What a match set may be asked for. -/
inductive Op where
  | insert (path : Path)
  | record (path : Path) (max : Nat)
  | check (max : Nat)
  | clear

/-- What it answers. -/
inductive Answer where
  | isNew (new : Bool)
  | capped (result : Except SyncError Unit)
  | done

/-- What a request answers, and the set after it. -/
def step (m : MatchSet) : Op → Answer × MatchSet
  | .insert path =>
    let (new, m) := m.insert path
    (.isNew new, m)
  | .record path max =>
    let (result, m) := m.record path max
    (.capped result, m)
  | .check max => (.capped (m.check max), m)
  | .clear => (.done, .empty)

/-- The set after a list of requests. -/
def run (m : MatchSet) (ops : List Op) : MatchSet := ops.foldl (fun m op => (m.step op).2) m

/-- The path that a request puts in. -/
def Op.path? : Op → Option Path
  | insert path => some path
  | record path _ => some path
  | _ => none

/-- Does the request forget everything? -/
def Op.clears : Op → Bool
  | clear => true
  | _ => false

/-- The requests since the last that forgot everything. -/
def sinceClear (ops : List Op) : List Op := (ops.reverse.takeWhile fun op => !op.clears).reverse

/-- The paths that were put in since then. -/
def putIn (ops : List Op) : List Path := (sinceClear ops).filterMap Op.path?

theorem run_concat (m : MatchSet) (ops : List Op) (op : Op) :
    m.run (ops ++ [op]) = ((m.run ops).step op).2 := by
  rw [run, List.foldl_append]
  rfl

theorem putIn_concat_of_clears {op : Op} (h : op.clears = true) (ops : List Op) :
    putIn (ops ++ [op]) = [] := by
  rw [putIn, sinceClear, List.reverse_append, List.reverse_singleton, List.singleton_append,
    List.takeWhile_cons_of_neg (by rw [h]; exact Bool.false_ne_true)]
  rfl

theorem putIn_concat_of_not_clears {op : Op} (h : op.clears = false) (ops : List Op) :
    putIn (ops ++ [op]) = putIn ops ++ op.path?.toList := by
  rw [putIn, sinceClear, List.reverse_append, List.reverse_singleton, List.singleton_append,
    List.takeWhile_cons_of_pos (by rw [h]; rfl), List.reverse_cons, List.filterMap_append, putIn,
    sinceClear]
  cases op <;> rfl

/-- A request that puts a path in puts it at the end, and else only forgetting changes the list. -/
theorem toList_step {m : MatchSet} {paths : List Path}
    (h : m.files.toList = firstSpellings paths) (op : Op) :
    (m.step op).2.files.toList =
      if op.clears then [] else firstSpellings (paths ++ op.path?.toList) := by
  cases op with
  | insert path => exact PathSet.toList_insert_firstSpellings h path
  | record path max => exact PathSet.toList_insert_firstSpellings h path
  | check max =>
    have hnone : paths ++ (Op.check max).path?.toList = paths := List.append_nil paths
    rw [hnone]
    exact h
  | clear => rfl

/-- **The set lists what was put in since it last forgot.** -/
theorem toList_run (ops : List Op) :
    (run .empty ops).files.toList = firstSpellings (putIn ops) := by
  induction ops using List.reverseRecOn with
  | nil => rfl
  | append_singleton ops op ih =>
    rw [run_concat, toList_step ih op]
    cases hop : op.clears with
    | true =>
      rw [putIn_concat_of_clears hop, if_pos rfl]
      rfl
    | false => rw [putIn_concat_of_not_clears hop, if_neg Bool.false_ne_true]

/-! ## The cap -/

/-- The answer to holding files against a cap, and what an overuse reports of them. -/
structure Checked (files : List Path) (max : Nat) (result : Except SyncError Unit) : Prop where
  fails_iff : (∃ e, result = .error e) ↔ max < files.length
  reports : ∀ e, result = .error e → ∃ listed remaining,
    e = .tooManyDefaultProjectFiles max listed remaining ∧
      listed = files.take (min 20 files.length) ∧
      remaining = files.length - min 20 files.length ∧ listed.length + remaining = files.length

theorem checked_check (m : MatchSet) (max : Nat) : Checked m.files.toList max (m.check max) := by
  have hsize : m.files.toList.length = m.size := rfl
  rw [check_eq]
  by_cases h : max < m.size
  · rw [if_pos h]
    refine ⟨iff_of_true ⟨_, rfl⟩ h, fun e he => ?_⟩
    cases he
    refine ⟨_, _, rfl, ?_, ?_, ?_⟩
    · rw [printLimit, List.take_eq_take_iff]
      omega
    · rw [printLimit]
      omega
    · rw [List.length_take, printLimit]
      omega
  · rw [if_neg h]
    exact ⟨iff_of_false nofun h, nofun⟩

/--
**Match sets in use.** After any requests a set lists the paths that were put in since it last
forgot, in the order in which they came first and each as it was spelled then, and no two of them
are equal. A path is new just if no equal one came since. A check changes nothing and a record
inserts its path, at the end if it is new and whatever it answers; both fail just if there are more
files than the cap allows, and report the first twenty and how many more.
-/
theorem run_listsFirst (ops : List Op) :
    (run .empty ops).files.toList = firstSpellings (putIn ops) ∧
    (firstSpellings (putIn ops)).Pairwise (fun p q => ¬p ≈ q) ∧
    (∀ p, ∃ new, ((run .empty ops).step (.insert p)).1 = .isNew new ∧
      (new = true ↔ ∀ q ∈ putIn ops, ¬q ≈ p)) ∧
    (∀ max, ((run .empty ops).step (.check max)).2 = run .empty ops ∧
      ∃ result, ((run .empty ops).step (.check max)).1 = .capped result ∧
        Checked (firstSpellings (putIn ops)) max result) ∧
    ∀ p max,
      ((run .empty ops).step (.record p max)).2.files.toList = firstSpellings (putIn ops ++ [p]) ∧
      ((run .empty ops).step (.record p max)).2 = ((run .empty ops).step (.insert p)).2 ∧
      p ∈ ((run .empty ops).step (.record p max)).2.files ∧
      ∃ result, ((run .empty ops).step (.record p max)).1 = .capped result ∧
        Checked (firstSpellings (putIn ops ++ [p])) max result := by
  have hlist := toList_run ops
  refine ⟨hlist, distinct_firstSpellings _, fun p => ⟨_, rfl, ?_⟩, fun max => ⟨rfl, _, rfl, ?_⟩,
    fun p max => ?_⟩
  · have hmem : p ∈ (run .empty ops).files ↔ ∃ q ∈ putIn ops, q ≈ p := by
      rw [PathSet.mem_iff, hlist]
      exact exists_mem_firstSpellings_iff
    rw [Bool.not_eq_true', contains, decide_eq_false_iff_not, hmem]
    simp only [not_exists, not_and]
  · rw [← hlist]
    exact checked_check _ max
  · have hrecorded : ((run .empty ops).step (.record p max)).2.files.toList =
        firstSpellings (putIn ops ++ [p]) := toList_step hlist (.record p max)
    refine ⟨hrecorded, rfl, PathSet.mem_insert.mpr (Or.inr (Setoid.refl p)), _, rfl, ?_⟩
    rw [← hrecorded]
    exact checked_check _ max

end MatchSet

end BackendSync
