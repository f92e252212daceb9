import BackendSync.Proofs.Bookkeeping
import BackendSync.Proofs.Content

/-!
# What a resolve does to the backend, event by event

A resolve first sends the extensions if they changed, and then does one of four things
about the file of the request, with no other effect before, between or after. Which of the
four it is, and with what arguments, is decided by what is there on entry: the cache, the
live texts, the projects and the watches. What is answered afterwards has no part in it,
but that an orphan is refused before anything was done.

`Session.Block` lists the four. What is closed for an opening is the last path of the
cache, and in a session with a past this is the one whose last resolve is furthest back.
-/

namespace BackendSync

namespace Session

variable {s s' : Session Scripted} {request : Request} {path : Path}

/--
The effects of a request on behalf of its file, by what the session and the backend are on
entry. They are followed by the answer `outcome`.
-/
inductive Block (s : Session Scripted) (request : Request) (outcome : Outcome String)
    (block : List Effect) : Prop where
  /-- The file is open and alive: its text is edited, and that only if it has to be. -/
  | edits (live : String)
      (cached : s.openFiles.contains (s.absolute request.path) = true)
      (alive : s.backend.buffers.get? (s.absolute request.path) = some live)
      (accepted : ∀ p, outcome ≠ .error (.orphanedFile p))
      (same : live = request.code → block = [])
      (whole : live ≠ request.code → s.config.incrementalSync = false →
        block = [.edited (s.absolute request.path) ⟨0, live.utf8ByteSize, request.code⟩])
      (pieces : live ≠ request.code → s.config.incrementalSync = true →
        block = (Diff.edits live request.code).map (.edited (s.absolute request.path)))
  /-- The file is open and its text is gone: it is opened, and nothing is closed. -/
  | reopens (cached : s.openFiles.contains (s.absolute request.path) = true)
      (gone : s.backend.buffers.get? (s.absolute request.path) = none)
      (accepted : ∀ p, outcome ≠ .error (.orphanedFile p))
      (eq : block = [.opened (s.absolute request.path) request.code (s.rootOf request)])
  /-- The file is not open: a watch may hear of it, it is opened, and another may be closed. -/
  | opens (notice : Option Watch.Event) (left : Option Path)
      (absent : s.openFiles.contains (s.absolute request.path) = false)
      (accepted : ∀ p, outcome ≠ .error (.orphanedFile p))
      (heard : ∀ event, notice = some event ↔
        s.backend.projectOf? (s.absolute request.path) = none ∧
          s.watches.trigger (s.absolute request.path) = some event)
      (full : left.isSome ↔ s.openFiles.size = s.openFiles.capacity)
      (last : ∀ v ∈ left, s.openFiles.paths.getLast? = some v)
      (eq : block = notice.toList.map .notified ++
        .opened (s.absolute request.path) request.code (s.rootOf request) ::
          left.toList.map .closed)
  /-- The file is not open and is refused. -/
  | refuses (absent : s.openFiles.contains (s.absolute request.path) = false)
      (orphaned : outcome = .error (.orphanedFile (s.absolute request.path)))
      (eq : block = [])

/-! ## What is heard and what leaves -/

/-- The event that a file which no project has is announced with. -/
def notice? (s : Session Scripted) (path : Path) : Option Watch.Event :=
  if (s.backend.projectOf? path).isSome then none else s.watches.trigger path

theorem notice?_eq_some_iff {event : Watch.Event} :
    s.notice? path = some event ↔
      s.backend.projectOf? path = none ∧ s.watches.trigger path = some event := by
  unfold notice?
  cases s.backend.projectOf? path <;> simp

theorem notices_eq (s : Session Scripted) (path : Path) :
    s.notices path = (s.notice? path).toList.map .notified := by
  unfold notices notice?
  split <;> rfl

theorem leaving_of_present {e : Path × OpenedFile} (h : s.openFiles.entry? path = some e) :
    s.leaving path = none := by
  rw [leaving, Cache.insert_of_present h]
  rfl

/-- For a new file the last path of the cache leaves, and it does so just if the cache is full. -/
theorem leaving_of_absent (h : s.openFiles.entry? path = none) :
    ((s.leaving path).isSome ↔ s.openFiles.size = s.openFiles.capacity) ∧
      ∀ v ∈ s.leaving path, s.openFiles.paths.getLast? = some v := by
  rw [leaving]
  rcases Cache.insert_of_absent h (s.backend.report path) with
    ⟨hroom, hnone, _⟩ | ⟨rest, last, hfull, hsplit, hlast, _⟩
  · rw [hnone]
    refine ⟨iff_of_false Bool.false_ne_true (Nat.ne_of_lt hroom), fun v hv => ?_⟩
    cases hv
  · have hpaths : s.openFiles.paths = rest.map (·.1) ++ [last.1] := by
      rw [LruMap.paths, hsplit, List.map_append]
      rfl
    rw [hlast]
    refine ⟨iff_of_true rfl hfull, fun v hv => ?_⟩
    cases hv
    rw [hpaths, List.getLast?_concat]

/-! ## The four blocks -/

theorem block_of_edited {live : String} {outcome : Outcome String}
    (hcached : s.openFiles.contains (s.absolute request.path) = true)
    (halive : s.backend.buffers.get? (s.absolute request.path) = some live)
    (haccepted : ∀ p, outcome ≠ .error (.orphanedFile p)) :
    s.Block request outcome
      ((editsFor s.config live request.code).map (.edited (s.absolute request.path))) := by
  unfold editsFor
  refine .edits live hcached halive haccepted ?_ ?_ ?_
  · intro hsame
    rw [if_pos hsame]
    rfl
  · intro hne hwhole
    rw [if_neg hne, hwhole]
    rfl
  · intro hne hpieces
    rw [if_neg hne, hpieces]
    rfl

/--
**A file that is brought up to date has one block of effects behind the extensions.** The
block is that of the session on entry, since sending extensions changes nothing it
depends on.
-/
theorem block_of_bringUpFor {opened : OpenedFile} {outcome : Outcome String}
    (h : s.bringUpFor request = (.ok opened, s'))
    (haccepted : ∀ p, outcome ≠ .error (.orphanedFile p)) :
    ∃ block, s'.backend.log = s.backend.log ++ (s.extensionEffects request.extensions ++ block) ∧
      s.Block request outcome block := by
  have hbackend := s.backend_updateExtensions request.extensions
  have hlog := s.log_updateExtensions request.extensions
  have hfiles := s.openFiles_updateExtensions request.extensions
  have hwatches := s.watches_updateExtensions request.extensions
  have hconfig := s.config_updateExtensions request.extensions
  rw [bringUpFor] at h
  generalize s.updateExtensions request.extensions = s₁ at h hbackend hlog hfiles hwatches hconfig
  rcases s₁.bringUp_cases (s.absolute request.path) request.code (s.rootOf request)
      (s.allows request) with
    ⟨e, live, hcached, halive, heq⟩ | ⟨e, hcached, hgone, heq⟩ | ⟨habsent, hadmitted, heq⟩ |
    ⟨habsent, hrefuses, heq⟩
  · have hs : _ = s' := congrArg Prod.snd (heq.symm.trans h)
    have hopen := LruMap.contains_of_present hcached
    rw [hfiles] at hopen
    rw [hbackend] at halive
    refine ⟨_, ?_, block_of_edited hopen halive haccepted⟩
    rw [← hs, Scripted.log_performAll, hlog, hconfig, List.append_assoc]
  · have hs : _ = s' := congrArg Prod.snd (heq.symm.trans h)
    have hopen := LruMap.contains_of_present hcached
    rw [hfiles] at hopen
    rw [hbackend] at hgone
    refine ⟨_, ?_, .reopens hopen hgone haccepted rfl⟩
    rw [← hs, log_openFile, hlog, opening_eq, leaving_of_present hcached, List.append_assoc]
    rfl
  · have hs : _ = s' := congrArg Prod.snd (heq.symm.trans h)
    have hnotice : s₁.notices (s.absolute request.path) = s.notices (s.absolute request.path) := by
      unfold notices
      rw [hbackend, hwatches]
      rfl
    -- the announcement leaves the cache alone, so the same file has to leave
    obtain ⟨hfull, hlast⟩ := leaving_of_absent (s := s₁.announced (s.absolute request.path)) habsent
    have hkept : (s₁.announced (s.absolute request.path)).openFiles = s.openFiles := hfiles
    rw [hfiles] at habsent
    rw [hkept] at hfull hlast
    refine ⟨_, ?_, .opens _ _ (LruMap.contains_eq_false_iff.mpr habsent) haccepted
      (fun _ => notice?_eq_some_iff) hfull hlast rfl⟩
    have hlogged : (s₁.announced (s.absolute request.path)).backend.log =
        s₁.backend.log ++ s₁.notices (s.absolute request.path) := Scripted.log_performAll ..
    rw [← hs, log_openFile, hlogged, hlog, hnotice, notices_eq, opening_eq, List.append_assoc,
      List.append_assoc]
  · cases heq.symm.trans h

theorem absent_of_bringUpFor_error {e : SyncError} (h : (s.bringUpFor request).1 = .error e) :
    s.openFiles.contains (s.absolute request.path) = false := by
  rw [LruMap.contains_eq_false_iff, ← s.openFiles_updateExtensions request.extensions]
  exact (refused_of_bringUp_error h).1

/-- Whatever a block closes is the last path of the cache. -/
theorem Block.last_of_closed {outcome : Outcome String} {block : List Effect} {v : Path}
    (h : s.Block request outcome block) (hv : .closed v ∈ block) :
    s.openFiles.paths.getLast? = some v := by
  cases h with
  | edits live cached alive accepted same whole pieces =>
    have hedited : ∀ e ∈ block, ∃ edit, e = .edited (s.absolute request.path) edit := by
      intro e he
      by_cases hcode : live = request.code
      · rw [same hcode] at he
        cases he
      · cases hmode : s.config.incrementalSync with
        | false =>
          rw [whole hcode hmode] at he
          exact ⟨_, List.mem_singleton.mp he⟩
        | true =>
          rw [pieces hcode hmode] at he
          obtain ⟨edit, _, hedit⟩ := List.mem_map.mp he
          exact ⟨edit, hedit.symm⟩
    obtain ⟨edit, hedit⟩ := hedited _ hv
    cases hedit
  | reopens cached gone accepted eq =>
    rw [eq] at hv
    cases List.mem_singleton.mp hv
  | opens notice left absent accepted heard full last eq =>
    rw [eq] at hv
    rcases List.mem_append.mp hv with hnotified | hrest
    · obtain ⟨event, _, hevent⟩ := List.mem_map.mp hnotified
      cases hevent
    · rcases List.mem_cons.mp hrest with hopened | hclosed
      · cases hopened
      · obtain ⟨q, hq, hqv⟩ := List.mem_map.mp hclosed
        cases hqv
        exact last v (Option.mem_toList.mp hq)
  | refuses absent orphaned eq =>
    rw [eq] at hv
    cases hv

end Session

/-- The last path of the cache is the one whose last resolve is furthest back. -/
theorem Kept.oldest_of_last {limit : Nat} {history : List Path} {log : List Effect}
    {files : Cache OpenedFile} {v : Path} (h : Kept limit history log files)
    (hlast : files.paths.getLast? = some v) : Oldest history (openPaths log) v := by
  obtain ⟨rest, hpaths⟩ := List.getLast?_eq_some_iff.mp hlast
  have hin : v ∈ files.paths := by
    rw [hpaths]
    exact List.mem_append_right _ (List.mem_singleton_self v)
  refine ⟨⟨v, h.same.mem_iff.mpr hin, Setoid.refl v⟩, fun q hq hqv => ?_⟩
  have hrecent := h.recent
  have hcached := h.same.mem_iff.mp hq
  rw [hpaths] at hrecent hcached
  rcases List.mem_append.mp hcached with hfront | hback
  · exact (List.pairwise_append.mp hrecent).2.2 q hfront v (List.mem_singleton_self v)
  · rw [List.mem_singleton.mp hback] at hqv
    exact absurd (Setoid.refl v) hqv

namespace World

/-- What a resolve tells the backend: the extensions if they changed, and one block. -/
structure Told (w : World) (request : Request) (outcome : Outcome String)
    (first block : List Effect) (w' : World) : Prop where
  logged : w'.log = w.log ++ (first ++ block)
  extensions : first = [] ∨
    first = [.extensions (Text.orderedSet (w.session.config.extraExtensions ++ request.extensions))]
  isBlock : w.session.Block request outcome block
  /-- Of all open files, the one that is closed was resolved the longest time ago. -/
  oldest : ∀ backend config start steps, backend.Fresh → create backend config = .ok start →
    w = start.run steps → ∀ v, .closed v ∈ block → Oldest (start.history steps) (openPaths w.log) v

theorem oldest_of_block {w : World} {request : Request} {outcome : Outcome String}
    {block : List Effect} (h : w.session.Block request outcome block) {backend : Scripted}
    {config : Config} {start : World} {steps : List Step} (hfresh : backend.Fresh)
    (hcreate : create backend config = .ok start) (hrun : w = start.run steps) {v : Path}
    (hv : .closed v ∈ block) : Oldest (start.history steps) (openPaths w.log) v := by
  have hkept := keptBy_run (keptBy_create hfresh hcreate) steps
  rw [List.nil_append, ← hrun] at hkept
  exact Kept.oldest_of_last hkept (h.last_of_closed hv)

/--
**What a resolve does to the backend, event by event.** Whatever the state of the session
and of the backend, and whatever is answered, the log grows by the extensions, if they
have to be sent, and by the one block that the state on entry calls for.
-/
theorem resolve_trace (w : World) (request : Request) (full : Bool) (run : Option String) :
    ∃ outcome first block, (w.step (.resolve request full run)).1 = .resolved outcome ∧
      w.Told request outcome first block (w.step (.resolve request full run)).2 := by
  obtain ⟨outcome, used, hreply, hways⟩ := w.step_resolve request full run
  have hextensions : w.session.extensionEffects request.extensions = [] ∨
      w.session.extensionEffects request.extensions = [.extensions
        (Text.orderedSet (w.session.config.extraExtensions ++ request.extensions))] := by
    unfold Session.extensionEffects
    split
    · exact Or.inl rfl
    · exact Or.inr rfl
  rcases hways with ⟨e, hbring, hout, hsession⟩ | ⟨opened, s', hbring, hnot, _, hsession⟩
  · have hblock : w.session.Block request outcome [] := by
      refine .refuses (Session.absent_of_bringUpFor_error hbring) ?_ rfl
      rw [hout, Session.orphaned_of_bringUp_error hbring]
    refine ⟨outcome, _, [], hreply, ?_, hextensions, hblock, fun _ _ _ _ _ _ _ v hv => ?_⟩
    · rw [List.append_nil, log, hsession]
      exact Session.log_updateExtensions ..
    · cases hv
  · obtain ⟨block, hlog, hblock⟩ := Session.block_of_bringUpFor hbring hnot
    refine ⟨outcome, _, block, hreply, ?_, hextensions, hblock, ?_⟩
    · rw [log, hsession]
      exact hlog
    · intro backend config start steps hfresh hcreate hrun v hv
      exact oldest_of_block hblock hfresh hcreate hrun hv

end World

end BackendSync
