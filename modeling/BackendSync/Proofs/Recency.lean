import BackendSync.Proofs.Mentions
import BackendSync.Proofs.OpenFiles

/-!
# The order of recency

The cache keeps the open files in an order, and `history` says what that order means: a
file stands before another if it was resolved after the last time that other one was.
`Kept` puts this beside the rest of what ties the cache to the past: its capacity, and
that it has just the files that the log leaves open, each under the spelling it was
opened with. Each of the four moves preserves it.

So when a file has to leave, the one that does is the one whose last resolve is furthest
back, which is what `Oldest` says without the cache.
-/

namespace BackendSync

/-! ## The oldest open file -/

/-- Of all open files, `v` is the one whose last mention is furthest back. -/
def Oldest (history : List Path) (isOpen : PathSet) (v : Path) : Prop :=
  v ∈ isOpen ∧ ∀ q ∈ isOpen.toList, ¬q ≈ v → Later history q v

/-! ## What ties the cache to the past -/

/-- The cache of open files after the steps of a history, and with a log. -/
structure Kept (limit : Nat) (history : List Path) (log : List Effect)
    (files : Cache OpenedFile) : Prop where
  capacity : files.capacity = limit
  /-- The cached files are the open ones, spelling and all. -/
  same : (openPaths log).toList.Perm files.paths
  /-- Every cached file was resolved at some time. -/
  mentioned : ∀ q ∈ files.paths, ∃ x ∈ history, x ≈ q
  /-- A file stands before those that were last resolved before it was. -/
  recent : files.paths.Pairwise (Later history)

variable {limit : Nat} {history : List Path} {log sent : List Effect} {files : Cache OpenedFile}

theorem kept_empty (h : 0 < limit) {log : List Effect} (hlog : openPaths log = ∅) :
    Kept limit [] log (Cache.empty limit h) := by
  refine ⟨rfl, ?_, ?_, .nil⟩
  · rw [hlog]
    exact .refl _
  · intro q hq
    exact absurd hq List.not_mem_nil

theorem Kept.mem_openPaths_iff (h : Kept limit history log files) {p : Path} :
    p ∈ openPaths log ↔ files.contains p = true := by
  rw [LruMap.contains_iff, PathSet.mem_iff]
  constructor
  · rintro ⟨q, hq, hqp⟩
    exact ⟨q, h.same.mem_iff.mp hq, hqp⟩
  · rintro ⟨q, hq, hqp⟩
    exact ⟨q, h.same.mem_iff.mpr hq, hqp⟩

theorem Kept.not_mem_of_absent (h : Kept limit history log files) {p : Path}
    (habsent : files.entry? p = none) : p ∉ openPaths log := by
  rw [h.mem_openPaths_iff, LruMap.contains_eq_false_iff.mpr habsent]
  exact Bool.false_ne_true

theorem Kept.size_eq (h : Kept limit history log files) :
    (openPaths log).size = files.size := by
  rw [PathSet.size, h.same.length_eq, LruMap.length_paths]

/--
A path is mentioned and moves to the front, under whatever spelling it has there. Behind
it stand other paths, in the order they had.
-/
theorem Kept.touch {front path : Path} {rest : List Path} {log' : List Effect}
    {files' : Cache OpenedFile} (h : Kept limit history log files) (hfront : path ≈ front)
    (hrest : rest.Sublist files.paths) (hne : ∀ q ∈ rest, ¬q ≈ path)
    (hcapacity : files'.capacity = files.capacity) (hpaths : files'.paths = front :: rest)
    (hopen : (openPaths log').toList.Perm (front :: rest)) :
    Kept limit (history ++ [path]) log' files' := by
  have hother : ∀ q ∈ rest, ¬path ≈ q := fun q hq hpq => hne q hq (Setoid.symm hpq)
  refine ⟨hcapacity.trans h.capacity, ?_, ?_, ?_⟩
  · rw [hpaths]
    exact hopen
  · rw [hpaths]
    exact mentioned_cons h.mentioned hrest hfront
  · rw [hpaths]
    exact pairwise_later_cons h.recent h.mentioned hrest hother hfront

/-! ## The four moves -/

theorem closedOf_eq (gone : List (Path × OpenedFile)) :
    gone.map (fun e => Effect.closed e.1) = (gone.map (·.1)).map .closed := List.map_map.symm

/-- Touching an open file. -/
theorem Kept.refresh {log' : List Effect} {path : Path} {e : Path × OpenedFile}
    (h : Kept limit history log files) (hcached : files.entry? path = some e) (value : OpenedFile)
    (hlog : openPaths log' = openPaths log) :
    Kept limit (history ++ [path]) log' ⟨files.refresh path e hcached value⟩ := by
  have hpath : path ≈ e.1 := Setoid.symm (LruMap.equiv_of_present hcached)
  have hothers : ∀ q ∈ (files.others path).map (·.1), ¬q ≈ path := by
    intro q hq
    obtain ⟨x, hx, rfl⟩ := List.mem_map.mp hq
    exact LruMap.not_equiv_of_mem_others hx
  refine h.touch hpath ((files.others_sublist path).map _) hothers rfl
    (LruMap.paths_refresh hcached value) ?_
  rw [hlog, ← LruMap.paths_refresh hcached value]
  exact h.same.trans (LruMap.paths_refresh_perm hcached value).symm

theorem filter_closed_last {init : List Path} {v : Path} (h : ∀ q ∈ init, ¬q ≈ v) :
    (init ++ [v]).filter (fun q => decide (∀ p ∈ [v], ¬q ≈ p)) = init := by
  have hinit : init.filter (fun q => decide (∀ p ∈ [v], ¬q ≈ p)) = init := by
    refine List.filter_eq_self.mpr fun q hq => decide_eq_true fun p hp => ?_
    rw [List.mem_singleton.mp hp]
    exact h q hq
  rw [List.filter_append, hinit, List.filter_cons_of_neg, List.filter_nil, List.append_nil]
  intro hall
  exact of_decide_eq_true hall v (List.mem_singleton_self v) (Setoid.refl v)

/-- Opening a file that is not in the cache. -/
theorem Kept.insert {path : Path} (h : Kept limit history log files)
    (habsent : files.entry? path = none) (value : OpenedFile) {first : List Effect}
    (hfirst : Calm first) (code : String) (root : Path) :
    Kept limit (history ++ [path])
      (log ++ (first ++ .opened path code root ::
        (files.insert path value).1.toList.map fun e => .closed e.1))
      (files.insert path value).2 := by
  have hinserted : ((openPaths log).insert path).toList.Perm (path :: files.paths) := by
    rw [PathSet.toList_insert, if_neg (h.not_mem_of_absent habsent)]
    exact (List.perm_append_singleton path _).trans (h.same.cons path)
  have hne : ∀ q ∈ files.paths, ¬q ≈ path := by
    intro q hq
    obtain ⟨x, hx, rfl⟩ := LruMap.mem_paths_iff.mp hq
    exact LruMap.absent_iff.mp habsent x hx
  have hcapacity := Cache.capacity_insert files path value
  rcases Cache.insert_of_absent habsent value with
    ⟨hsize, hleft, hentries⟩ | ⟨rest, last, hsize, hsplit, hleft, hentries⟩
  · -- there is room, and nothing is closed
    refine h.touch (Setoid.refl path) (List.Sublist.refl _) hne hcapacity ?_ ?_
    · rw [LruMap.paths, hentries]
      rfl
    · rw [openPaths_append_opened hfirst, hleft]
      exact hinserted
  · -- the last entry leaves the cache, and it is the one that is closed
    have hpaths : files.paths = rest.map (·.1) ++ [last.1] := by
      rw [LruMap.paths, hsplit, List.map_append]
      rfl
    have hrest : (rest.map (·.1)).Sublist files.paths := by
      rw [hpaths]
      exact List.sublist_append_left _ _
    refine h.touch (Setoid.refl path) hrest (fun q hq => hne q (hrest.subset hq)) hcapacity ?_ ?_
    · rw [LruMap.paths, hentries]
      rfl
    · rw [openPaths_append_opened hfirst, hleft]
      refine (openAfter_closed_perm hinserted [last.1]).trans ?_
      have hdistinct := files.paths_distinct
      rw [hpaths] at hdistinct hne
      have hother : ∀ q ∈ path :: rest.map (·.1), ¬q ≈ last.1 := by
        intro q hq
        rcases List.mem_cons.mp hq with heq | hq
        · rw [heq]
          intro hlast
          exact hne last.1 (List.mem_append_right _ (List.mem_singleton_self _)) (Setoid.symm hlast)
        · exact (List.pairwise_append.mp hdistinct).2.2 q hq _ (List.mem_singleton_self _)
      rw [hpaths, ← List.cons_append, filter_closed_last hother]

/-- What leaves for a file is the one whose last resolve is furthest back. -/
theorem Kept.oldest_of_evicted {path : Path} {value : OpenedFile} {e : Path × OpenedFile}
    (h : Kept limit history log files) (hleft : (files.insert path value).1 = some e) :
    Oldest (history ++ [path]) ((openPaths log).insert path) e.1 := by
  obtain ⟨habsent, _, rest, hsplit, _⟩ := Cache.insert_of_evicted hleft
  have hne : ¬path ≈ e.1 := fun heq => Cache.not_equiv_of_evicted hleft (Setoid.symm heq)
  have hpaths : files.paths = rest.map (·.1) ++ [e.1] := by
    rw [LruMap.paths, hsplit, List.map_append]
    rfl
  have hlast : e.1 ∈ files.paths := by
    rw [hpaths]
    exact List.mem_append_right _ (List.mem_singleton_self _)
  refine ⟨PathSet.mem_insert.mpr (Or.inl ⟨e.1, h.same.mem_iff.mpr hlast, Setoid.refl e.1⟩), ?_⟩
  intro q hq hqe
  have hnotin := h.not_mem_of_absent habsent
  rw [PathSet.toList_insert, if_neg hnotin] at hq
  rcases List.mem_append.mp hq with hold | hnew
  · -- the cache has it in front of the one that leaves
    have hin := h.same.mem_iff.mp hold
    have hrecent := h.recent
    rw [hpaths] at hin hrecent
    rcases List.mem_append.mp hin with hfront | hback
    · have hlater := (List.pairwise_append.mp hrecent).2.2 q hfront e.1 (List.mem_singleton_self _)
      exact hlater.append hne
    · rw [List.mem_singleton.mp hback] at hqe
      exact absurd (Setoid.refl e.1) hqe
  · rw [List.mem_singleton.mp hnew]
    exact later_of_mentioned (h.mentioned e.1 hlast) hne (Setoid.refl path)

/-- **Each of the four moves keeps the cache tied to the past.** -/
theorem Kept.moves {s : Session Scripted} {touched : Option Path}
    (h : Kept limit history log s.openFiles) (hmoves : s.Moves sent touched files) :
    Kept limit (history ++ touched.toList) (log ++ sent) files := by
  cases hmoves with
  | rests calm none eq =>
    rw [none, eq, Option.toList_none, List.append_nil]
    refine ⟨h.capacity, ?_, h.mentioned, h.recent⟩
    rw [openPaths_append_calm calm]
    exact h.same
  | edits path e cached calm some eq =>
    rw [some, eq]
    exact h.refresh cached e.2 (openPaths_append_calm calm log)
  | opens path code root value first quiet fresh some effects eq =>
    rw [some, eq, effects]
    cases hentry : s.openFiles.entry? path with
    | none => exact h.insert hentry value quiet.calm code root
    | some e =>
      -- the file is opened again, which neither the cache nor the account of the log counts
      have hin : path ∈ openPaths log := h.mem_openPaths_iff.mpr (LruMap.contains_of_present hentry)
      rw [Cache.insert_of_present hentry]
      refine h.refresh hentry value ?_
      rw [openPaths_append_opened quiet.calm, PathSet.insert_of_mem hin]
      rfl
  | closes gone present distinct none effects capacity eq =>
    -- the same paths are taken out of the cache and out of what the log leaves open
    have hpaths : files.paths =
        s.openFiles.paths.filter fun q => decide (∀ p ∈ gone.map (·.1), ¬q ≈ p) := by
      rw [LruMap.paths, LruMap.paths, eq, List.filter_map]
      refine congrArg _ (List.filter_congr fun x _ => ?_)
      simp
    have hsublist : files.paths.Sublist s.openFiles.paths := by
      rw [hpaths]
      exact List.filter_sublist
    rw [none, effects, Option.toList_none, List.append_nil, closedOf_eq]
    refine ⟨by rw [capacity, h.capacity], ?_, fun q hq => h.mentioned q (hsublist.subset hq),
      h.recent.sublist hsublist⟩
    rw [openPaths_append, hpaths]
    exact openAfter_closed_perm h.same _

end BackendSync
