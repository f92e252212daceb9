import BackendSync.Session.World
import BackendSync.Proofs.CacheEntries
import BackendSync.Proofs.LiveTexts

/-!
# What a session tells its backend

Each operation of a session is followed here through to the backend: which effects it
has, in which order, and what it leaves in the session. Resolving a file is the one with
many ways through it. There are four, and `bringUp_cases` lists them once:

* the file is open and alive, and its live text is edited;
* the file is open but the backend has dropped its text, and it is opened again;
* the file is not open, is announced to a watch if no project has it, and is opened;
* the file is not open and is refused.

Everything after that reads the backend and changes nothing. So a theorem about a whole
resolve is a theorem about four sessions, each of them written out.
-/

namespace BackendSync

namespace Session

/-! ## Extensions -/

/-- What the backend is told of the extensions that a request wants. -/
def extensionEffects (s : Session Scripted) (requested : List String) : List Effect :=
  if Text.orderedSet (s.config.extraExtensions ++ requested) = s.extensions then []
  else [.extensions (Text.orderedSet (s.config.extraExtensions ++ requested))]

theorem updateExtensions_eq (s : Session Scripted) (requested : List String) :
    s.updateExtensions requested =
      { s with
        backend := s.backend.performAll (s.extensionEffects requested)
        extensions := Text.orderedSet (s.config.extraExtensions ++ requested) } := by
  unfold updateExtensions extensionEffects
  dsimp only
  split
  · rename_i h
    rw [h, Scripted.performAll_nil]
  · rfl

theorem log_updateExtensions (s : Session Scripted) (requested : List String) :
    (s.updateExtensions requested).backend.log =
      s.backend.log ++ s.extensionEffects requested := by
  rw [updateExtensions_eq]
  exact Scripted.log_performAll ..

theorem quiet_extensionEffects (s : Session Scripted) (requested : List String) :
    Quiet (s.extensionEffects requested) := by
  intro e he
  unfold extensionEffects at he
  split at he
  · cases he
  · rw [List.mem_singleton.mp he]
    rfl

/-! ## Closing -/

theorem closeAllOf_eq (b : Scripted) (left : List (Path × OpenedFile)) :
    closeAllOf b left = b.performAll (left.map fun e => .closed e.1) := by
  rw [Scripted.performAll, List.foldl_map]
  rfl

theorem closeFile_eq (s : Session Scripted) (p : Path) :
    s.closeFile p = ((s.openFiles.entry? (s.absolute p)).isSome,
      { s with
        backend := s.backend.performAll
          ((s.openFiles.entry? (s.absolute p)).toList.map fun e => .closed e.1)
        openFiles := ⟨s.openFiles.erase (s.absolute p)⟩ }) := by
  rw [← closeAllOf_eq]
  rfl

theorem closeAll_eq (s : Session Scripted) :
    s.closeAll =
      { s with
        backend := s.backend.performAll (s.openFiles.entries.reverse.map fun e => .closed e.1)
        openFiles := .empty s.openFiles.capacity s.openFiles.capacity_pos } := by
  rw [← closeAllOf_eq, closeAll, Cache.clear_eq]

/-! ## Announcing -/

/-- What the backend is told of a file that is about to be opened for the first time. -/
def notices (s : Session Scripted) (path : Path) : List Effect :=
  if (s.backend.projectOf? path).isSome then []
  else (s.watches.trigger path).toList.map .notified

theorem quiet_notices (s : Session Scripted) (path : Path) : Quiet (s.notices path) := by
  intro e he
  unfold notices at he
  split at he
  · cases he
  · obtain ⟨event, _, hevent⟩ := List.mem_map.mp he
    rw [← hevent]
    rfl

/-- Nothing covers the file, and the policy is to reject such files. -/
structure Refuses (s : Session Scripted) (path : Path) (allowed : Bool) : Prop where
  /-- No project has the file. -/
  unclaimed : s.backend.projectOf? path = none
  /-- No watch is on the file or above it. -/
  unwatched : s.watches.trigger path = none
  policy : s.config.orphanPolicy = .reject
  notAllowed : allowed = false

theorem announce_of_refuses {s : Session Scripted} {path : Path} {allowed : Bool}
    (h : s.Refuses path allowed) : s.announce path allowed = (.error (.orphanedFile path), s) := by
  have hclaimed : Backend.inProject s.backend path = false := by
    show (s.backend.projectOf? path).isSome = false
    rw [h.unclaimed]
    rfl
  rw [announce, hclaimed, h.unwatched, h.policy, h.notAllowed]
  rfl

/-- The session after a file was announced. -/
def announced (s : Session Scripted) (path : Path) : Session Scripted :=
  { s with backend := s.backend.performAll (s.notices path) }

theorem announce_of_not_refuses {s : Session Scripted} {path : Path} {allowed : Bool}
    (h : ¬s.Refuses path allowed) : s.announce path allowed = (.ok (), s.announced path) := by
  unfold announce announced notices
  have hin : Backend.inProject s.backend path = (s.backend.projectOf? path).isSome := rfl
  rw [hin]
  cases hclaimed : s.backend.projectOf? path with
  | some project => rfl
  | none =>
    cases hwatch : s.watches.trigger path with
    | some event => rfl
    | none =>
      -- nothing covers the file, so it is let in by the policy or by the allow-list
      have hadmitted : ¬(decide (s.config.orphanPolicy = .reject) && !allowed) = true := by
        intro hrefused
        rw [Bool.and_eq_true, decide_eq_true_eq, Bool.not_eq_true'] at hrefused
        exact h ⟨hclaimed, hwatch, hrefused.1, hrefused.2⟩
      simp only [Option.isSome_none, Bool.false_eq_true, if_false, if_neg hadmitted]
      rfl

/-! ## Opening -/

/-- What is done to the backend when a file is opened; another may have to be closed. -/
def opening (s : Session Scripted) (path : Path) (code : String) (root : Path) : List Effect :=
  .opened path code root ::
    (s.openFiles.insert path (s.backend.report path)).1.toList.map fun e => .closed e.1

/-- Closing files asks for no watches. -/
theorem queue_closeAllOf (b : Scripted) (left : List (Path × OpenedFile)) :
    (closeAllOf b left).queue = b.queue := by
  induction left generalizing b with
  | nil => rfl
  | cons e rest ih => exact ih (b.closeFile e.1)

theorem directory_closeAllOf (b : Scripted) (left : List (Path × OpenedFile)) :
    (closeAllOf b left).directory = b.directory := by
  rw [closeAllOf_eq, Scripted.directory_performAll]

theorem registerRequested_eq (s : Session Scripted) :
    s.registerRequested =
      { s with
        backend := s.backend.drained
        watches := s.backend.queue.foldl (registerRequest s.backend.directory) s.watches } := rfl

theorem openFile_eq (s : Session Scripted) (path : Path) (code : String) (root : Path) :
    s.openFile path code root =
      (s.backend.report path,
        { s with
          backend := (s.backend.performAll (s.opening path code root)).drained
          openFiles := (s.openFiles.insert path (s.backend.report path)).2
          watches := (s.backend.queue ++ s.backend.watchesOnOpen).foldl
            (registerRequest s.backend.directory) s.watches }) := by
  have hopen : Backend.openFile s.backend path code root = s.backend.openFile path code root := rfl
  rw [openFile, hopen]
  dsimp only [Scripted.openFile]
  rw [registerRequested_eq]
  dsimp only
  rw [queue_closeAllOf, directory_closeAllOf, closeAllOf_eq]
  rfl

theorem backend_openFile (s : Session Scripted) (path : Path) (code : String) (root : Path) :
    (s.openFile path code root).2.backend =
      (s.backend.performAll (s.opening path code root)).drained := by
  rw [openFile_eq]

theorem openFiles_openFile (s : Session Scripted) (path : Path) (code : String) (root : Path) :
    (s.openFile path code root).2.openFiles =
      (s.openFiles.insert path (s.backend.report path)).2 := by
  rw [openFile_eq]

theorem log_openFile (s : Session Scripted) (path : Path) (code : String) (root : Path) :
    (s.openFile path code root).2.backend.log = s.backend.log ++ s.opening path code root := by
  rw [backend_openFile]
  exact Scripted.log_performAll ..

/-! ## Bringing a file up to date -/

/-- **Both modes of syncing take the live text to the new one.** -/
theorem replay?_editsFor (config : Config) (live code : String) :
    Edit.replay? (editsFor config live code) live = some code := by
  unfold editsFor
  split
  · rename_i hsame
    rw [hsame, Edit.replay?_nil]
  · split
    · exact Diff.replay?_edits live code
    · exact Edit.replay?_replaceAll live code

theorem sync?_of_alive {s : Session Scripted} {path : Path} {code live : String}
    {e : Path × OpenedFile} (hcached : s.openFiles.entry? path = some e)
    (halive : s.backend.buffers.get? path = some live) :
    s.sync? path code = (some e.2,
      { s with
        backend := s.backend.performAll ((editsFor s.config live code).map (.edited path))
        openFiles := ⟨s.openFiles.refresh path e hcached e.2⟩ }) := by
  have hread : Backend.bufferText? s.backend path = some live := halive
  rw [sync?, hread]
  dsimp only
  rw [Cache.get_of_present hcached, Scripted.performAll, List.foldl_map]
  rfl

theorem sync?_of_gone {s : Session Scripted} {path : Path} {code : String}
    (hgone : s.backend.buffers.get? path = none) : s.sync? path code = (none, s) := by
  have hread : Backend.bufferText? s.backend path = none := hgone
  rw [sync?, hread]

theorem bringUp_of_alive {s : Session Scripted} {path : Path} {live : String}
    {e : Path × OpenedFile} (hcached : s.openFiles.entry? path = some e)
    (halive : s.backend.buffers.get? path = some live) (code : String) (root : Path)
    (allowed : Bool) :
    s.bringUp path code root allowed = (.ok e.2,
      { s with
        backend := s.backend.performAll ((editsFor s.config live code).map (.edited path))
        openFiles := ⟨s.openFiles.refresh path e hcached e.2⟩ }) := by
  rw [bringUp, if_pos (LruMap.contains_of_present hcached), sync?_of_alive hcached halive]

theorem bringUp_of_gone {s : Session Scripted} {path : Path} {e : Path × OpenedFile}
    (hcached : s.openFiles.entry? path = some e) (hgone : s.backend.buffers.get? path = none)
    (code : String) (root : Path) (allowed : Bool) :
    s.bringUp path code root allowed =
      (.ok (s.openFile path code root).1, (s.openFile path code root).2) := by
  rw [bringUp, if_pos (LruMap.contains_of_present hcached), sync?_of_gone hgone]

theorem not_contains_of_absent {s : Session Scripted} {path : Path}
    (habsent : s.openFiles.entry? path = none) : ¬s.openFiles.contains path = true := by
  rw [LruMap.contains_eq_false_iff.mpr habsent]
  exact Bool.false_ne_true

theorem bringUp_of_refuses {s : Session Scripted} {path : Path} {allowed : Bool}
    (habsent : s.openFiles.entry? path = none) (hrefuses : s.Refuses path allowed)
    (code : String) (root : Path) :
    s.bringUp path code root allowed = (.error (.orphanedFile path), s) := by
  rw [bringUp, if_neg (not_contains_of_absent habsent), announce_of_refuses hrefuses]

theorem bringUp_of_admitted {s : Session Scripted} {path : Path} {allowed : Bool}
    (habsent : s.openFiles.entry? path = none) (hadmitted : ¬s.Refuses path allowed)
    (code : String) (root : Path) :
    s.bringUp path code root allowed =
      (.ok ((s.announced path).openFile path code root).1,
        ((s.announced path).openFile path code root).2) := by
  rw [bringUp, if_neg (not_contains_of_absent habsent), announce_of_not_refuses hadmitted]

/-- The four ways in which a request for a file goes through to the backend. -/
inductive BroughtUp (s : Session Scripted) (path : Path) (code : String) (root : Path)
    (allowed : Bool) (result : Except SyncError OpenedFile × Session Scripted) : Prop where
  /-- The file is open and alive. -/
  | edited (e : Path × OpenedFile) (live : String)
      (cached : s.openFiles.entry? path = some e)
      (alive : s.backend.buffers.get? path = some live)
      (eq : result = (.ok e.2,
        { s with
          backend := s.backend.performAll ((editsFor s.config live code).map (.edited path))
          openFiles := ⟨s.openFiles.refresh path e cached e.2⟩ }))
  /-- The file is open and its text is gone. -/
  | reopened (e : Path × OpenedFile)
      (cached : s.openFiles.entry? path = some e)
      (gone : s.backend.buffers.get? path = none)
      (eq : result = (.ok (s.openFile path code root).1, (s.openFile path code root).2))
  /-- The file is not open and is let in. -/
  | opened (absent : s.openFiles.entry? path = none)
      (admitted : ¬s.Refuses path allowed)
      (eq : result = (.ok ((s.announced path).openFile path code root).1,
        ((s.announced path).openFile path code root).2))
  /-- The file is not open and is refused, and nothing has happened. -/
  | refused (absent : s.openFiles.entry? path = none)
      (refuses : s.Refuses path allowed)
      (eq : result = (.error (.orphanedFile path), s))

/-- **Every request for a file goes one of the four ways.** -/
theorem bringUp_cases (s : Session Scripted) (path : Path) (code : String) (root : Path)
    (allowed : Bool) :
    s.BroughtUp path code root allowed (s.bringUp path code root allowed) := by
  cases hcached : s.openFiles.entry? path with
  | some e =>
    cases halive : s.backend.buffers.get? path with
    | some live => exact .edited e live hcached halive (bringUp_of_alive hcached halive ..)
    | none => exact .reopened e hcached halive (bringUp_of_gone hcached halive ..)
  | none =>
    by_cases hrefuses : s.Refuses path allowed
    · exact .refused hcached hrefuses (bringUp_of_refuses hcached hrefuses ..)
    · exact .opened hcached hrefuses (bringUp_of_admitted hcached hrefuses ..)

/-- **Only one thing keeps a file from being brought up to date, and then nothing has happened.** -/
theorem refused_of_bringUp_error {s : Session Scripted} {path : Path} {code : String} {root : Path}
    {allowed : Bool} {e : SyncError} (h : (s.bringUp path code root allowed).1 = .error e) :
    s.openFiles.entry? path = none ∧ s.Refuses path allowed ∧ e = .orphanedFile path ∧
      (s.bringUp path code root allowed).2 = s := by
  rcases s.bringUp_cases path code root allowed with
    ⟨_, _, _, _, heq⟩ | ⟨_, _, _, heq⟩ | ⟨_, _, heq⟩ | ⟨habsent, hrefuses, heq⟩
  all_goals
    rw [heq] at h
    cases h
  exact ⟨habsent, hrefuses, rfl, congrArg Prod.snd heq⟩

theorem orphaned_of_bringUp_error {s : Session Scripted} {path : Path} {code : String}
    {root : Path} {allowed : Bool} {e : SyncError}
    (h : (s.bringUp path code root allowed).1 = .error e) : e = .orphanedFile path :=
  (refused_of_bringUp_error h).2.2.1

/-- A file that was opened, by the result that says so. -/
theorem openFile_of_ok {s s' : Session Scripted} {path : Path} {code : String} {root : Path}
    {opened : OpenedFile}
    (h : ((.ok (s.openFile path code root).1, (s.openFile path code root).2) :
      Except SyncError OpenedFile × Session Scripted) = (.ok opened, s')) :
    s.openFile path code root = (opened, s') := by
  obtain ⟨hopened, hsession⟩ := Prod.mk.inj h
  exact Prod.ext (Except.ok.inj hopened) hsession

end Session

end BackendSync
