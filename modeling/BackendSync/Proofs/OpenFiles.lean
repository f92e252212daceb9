import BackendSync.Proofs.OpenPaths
import BackendSync.Proofs.StepEffects

/-!
# How the open files move

Seen from the cache of open files there are four kinds of step, and `traced_step` says
that every step but a change from outside is of one of them:

* nothing enters, nothing leaves, and nothing is touched;
* an open file is touched, and its text edited;
* a file is opened, under a path that is new or whose text the backend had dropped, and
  whatever leaves the cache for it is closed directly afterwards;
* some files are taken out, and closed one after another.

The relation between the cache and the log, whatever it is, need only be followed through
these four.
-/

namespace BackendSync

/-! ## Kinds of steps -/

namespace Session

/--
A step sends `sent`, brings the file at `touched` up to date, if any, and leaves `files` as
the open files of the session.
-/
inductive Moves (s : Session Scripted) (sent : List Effect) (touched : Option Path)
    (files : Cache OpenedFile) : Prop where
  /-- The open files stay as they are. -/
  | rests (calm : Calm sent) (none : touched = none) (eq : files = s.openFiles)
  /-- An open file is touched. -/
  | edits (path : Path) (e : Path × OpenedFile) (cached : s.openFiles.entry? path = some e)
      (calm : Calm sent) (some : touched = some path)
      (eq : files = ⟨s.openFiles.refresh path e cached e.2⟩)
  /-- A file is opened. -/
  | opens (path : Path) (code : String) (root : Path) (value : OpenedFile) (first : List Effect)
      (quiet : Quiet first)
      (fresh : s.openFiles.entry? path = none ∨ s.backend.buffers.get? path = none)
      (some : touched = some path)
      (effects : sent = first ++ .opened path code root ::
        (s.openFiles.insert path value).1.toList.map fun e => .closed e.1)
      (eq : files = (s.openFiles.insert path value).2)
  /-- Some files are closed. -/
  | closes (gone : List (Path × OpenedFile)) (present : ∀ e ∈ gone, e ∈ s.openFiles.entries)
      (distinct : gone.Pairwise fun x y => ¬x.1 ≈ y.1)
      (none : touched = none) (effects : sent = gone.map fun e => .closed e.1)
      (capacity : files.capacity = s.openFiles.capacity)
      (eq : files.entries = s.openFiles.entries.filter fun e => decide (∀ x ∈ gone, ¬e.1 ≈ x.1))

/-- Effects about no file may come before a move. -/
theorem Moves.after_quiet {s s₁ : Session Scripted} {first sent : List Effect}
    {touched : Option Path} {files : Cache OpenedFile} (h : s₁.Moves sent touched files)
    (hquiet : Quiet first) (hfiles : s₁.openFiles = s.openFiles)
    (hbuffers : s₁.backend.buffers = s.backend.buffers) (htouched : touched ≠ none) :
    s.Moves (first ++ sent) touched files := by
  cases h with
  | rests calm none eq => exact absurd none htouched
  | edits path e cached calm some eq =>
    have hcached : s.openFiles.entry? path = Option.some e := by rw [← hfiles, cached]
    refine .edits path e hcached (hquiet.calm.append calm) some ?_
    subst eq
    cases s₁
    cases hfiles
    rfl
  | opens path code root value second quiet fresh some effects eq =>
    rw [hfiles, hbuffers] at fresh
    rw [hfiles] at effects eq
    refine .opens path code root value (first ++ second) (hquiet.append quiet) fresh some ?_ eq
    rw [effects, List.append_assoc]
  | closes gone present distinct none effects capacity eq => exact absurd none htouched

/-- A file that is brought up to date is touched or opened. -/
theorem bringUp_moves {s s' : Session Scripted} {path : Path} {code : String} {root : Path}
    {allowed : Bool} {opened : OpenedFile}
    (h : s.bringUp path code root allowed = (.ok opened, s')) :
    ∃ sent, s'.backend.drained = (s.backend.performAll sent).drained ∧
      s.Moves sent (some path) s'.openFiles := by
  rcases s.bringUp_cases path code root allowed with
    ⟨e, live, hcached, halive, heq⟩ | ⟨e, hcached, hgone, heq⟩ | ⟨habsent, hadmitted, heq⟩ |
    ⟨habsent, hrefuses, heq⟩
  · rw [heq] at h
    cases h
    exact ⟨_, rfl, .edits path e hcached (calm_edited path _) rfl rfl⟩
  · rw [heq] at h
    have hs : (s.openFile path code root).2 = s' := congrArg Prod.snd h
    rw [← hs, backend_openFile, openFiles_openFile]
    refine ⟨s.opening path code root, rfl, ?_⟩
    exact .opens path code root (s.backend.report path) [] (fun _ h => by cases h)
      (Or.inr hgone) rfl rfl rfl
  · rw [heq] at h
    have hs : ((s.announced path).openFile path code root).2 = s' :=
      congrArg Prod.snd h
    rw [← hs, backend_openFile, openFiles_openFile]
    refine ⟨s.notices path ++ (s.announced path).opening path code root, ?_, ?_⟩
    · rw [Scripted.performAll_append]
      rfl
    · exact .opens path code root _ (s.notices path) (s.quiet_notices path) (Or.inl habsent)
        rfl rfl rfl
  · rw [heq] at h
    cases h

end Session

/-! ## What was resolved -/

/-- Is this the answer that the file of a request is an orphan? -/
def Reply.isOrphaned : Reply → Bool
  | .resolved (.error (.orphanedFile _)) => true
  | _ => false

theorem Reply.isOrphaned_eq_false {outcome : Outcome String}
    (h : ∀ p, outcome ≠ .error (.orphanedFile p)) :
    Reply.isOrphaned (.resolved outcome) = false := by
  cases outcome with
  | ok program => rfl
  | error e =>
    cases e with
    | orphanedFile p => exact absurd rfl (h p)
    | _ => rfl

namespace World

/-- The file of a step that resolves one and does not call it an orphan. -/
def touched? (w : World) : Step → Option Path
  | .resolve request full run =>
    if (w.step (.resolve request full run)).1.isOrphaned then none
    else some (w.session.absolute request.path)
  | _ => none

/-- The files of all such steps of a run, the earliest first. -/
def history (w : World) : List Step → List Path
  | [] => []
  | st :: rest => (w.touched? st).toList ++ (w.step st).2.history rest

theorem run_append (w : World) (first second : List Step) :
    w.run (first ++ second) = (w.run first).run second := List.foldl_append

theorem history_append (w : World) (first second : List Step) :
    w.history (first ++ second) = w.history first ++ (w.run first).history second := by
  induction first generalizing w with
  | nil => rfl
  | cons st rest ih =>
    show (w.touched? st).toList ++ (w.step st).2.history (rest ++ second) = _
    rw [ih, ← List.append_assoc]
    rfl

/--
A step is written to the log, as if its effects had been performed one after another, and
moves the open files in one of the four ways.
-/
def Traced (w : World) (st : Step) : Prop :=
  ∃ sent, (w.step st).2.session.backend.drained = (w.session.backend.performAll sent).drained ∧
    w.session.Moves sent (w.touched? st) (w.step st).2.session.openFiles

theorem traced_resolve (w : World) (request : Request) (full : Bool) (run : Option String) :
    w.Traced (.resolve request full run) := by
  have hquiet := w.session.quiet_extensionEffects request.extensions
  have hextended := w.session.updateExtensions_eq request.extensions
  obtain ⟨outcome, used, hreply, hways⟩ := w.step_resolve request full run
  rw [Traced, touched?, hreply]
  rcases hways with ⟨e, hbring, hout, hsession⟩ | ⟨opened, s', hbring, hnot, _, hsession⟩
  · rw [hsession, hextended, hout, Session.orphaned_of_bringUp_error hbring]
    exact ⟨w.session.extensionEffects request.extensions, rfl, .rests hquiet.calm rfl rfl⟩
  · obtain ⟨sent, hperformed, hmoves⟩ := Session.bringUp_moves hbring
    rw [hextended] at hperformed hmoves
    rw [hsession, Reply.isOrphaned_eq_false hnot]
    refine ⟨w.session.extensionEffects request.extensions ++ sent, ?_, ?_⟩
    · rw [Scripted.performAll_append]
      exact hperformed
    · refine hmoves.after_quiet hquiet rfl ?_ (Option.some_ne_none _)
      exact Scripted.buffers_performAll_of_quiet hquiet _

theorem traced_closeFile (w : World) (path : Path) : w.Traced (.closeFile path) := by
  refine ⟨(w.session.openFiles.entry? (w.session.absolute path)).toList.map
    fun e => .closed e.1, ?_, ?_⟩
  · show (w.session.closeFile path).2.backend.drained = _
    rw [Session.closeFile_eq]
  · -- at most one file is taken out, the one that is there under some spelling
    refine .closes _ ?_ ?_ rfl rfl rfl ?_
    · intro e he
      exact LruMap.mem_of_present (Option.mem_toList.mp he)
    · cases w.session.openFiles.entry? (w.session.absolute path) with
      | none => exact .nil
      | some e => exact List.pairwise_singleton _ e
    · show w.session.openFiles.others (w.session.absolute path) = _
      exact LruMap.others_eq_filter ..

theorem traced_closeAll (w : World) : w.Traced .closeAll := by
  refine ⟨w.session.openFiles.entries.reverse.map fun e => .closed e.1, ?_, ?_⟩
  · show w.session.closeAll.backend.drained = _
    rw [Session.closeAll_eq]
  · show w.session.Moves _ none w.session.closeAll.openFiles
    rw [Session.closeAll_eq]
    refine .closes _ (fun e he => List.mem_reverse.mp he) ?_ rfl rfl rfl ?_
    · refine List.pairwise_reverse.mpr (w.session.openFiles.distinct.imp fun hne heq => ?_)
      exact hne (Setoid.symm heq)
    · refine (List.filter_eq_nil_iff.mpr fun e he hall => ?_).symm
      exact of_decide_eq_true hall e (List.mem_reverse.mpr he) (Setoid.refl e.1)

/-- A step that does not reach the backend. -/
theorem traced_idle {w : World} {st : Step}
    (hbackend : (w.step st).2.session.backend = w.session.backend)
    (hfiles : (w.step st).2.session.openFiles = w.session.openFiles)
    (htouched : w.touched? st = none) : w.Traced st :=
  ⟨[], by rw [hbackend]; rfl, .rests (fun e he => absurd he List.not_mem_nil) htouched hfiles⟩

/-- **Every step but a change from outside moves the open files in one of the four ways.** -/
theorem traced_step {w : World} {st : Step} (h : ∀ c, st ≠ .change c) : w.Traced st := by
  cases st with
  | resolve request full run => exact w.traced_resolve request full run
  | closeFile path => exact w.traced_closeFile path
  | closeAll => exact w.traced_closeAll
  | change c => exact absurd rfl (h c)
  | watch path kind =>
    exact traced_idle (by rw [session_step_watch]) (by rw [session_step_watch]) rfl
  | closeWatch i =>
    refine traced_idle ?_ ?_ rfl
    all_goals
      rw [step_closeWatch]
      cases w.handles[i]? <;> rfl
  | _ => exact traced_idle rfl rfl rfl

end World

end BackendSync
