import BackendSync.Proofs.AlikeBackends
import BackendSync.Proofs.RequestOrder

/-!
# The spelling of a path does not matter

Two runs that differ in how their paths are spelled are the same run but for that. The
relation that is kept from step to step is `World.Alike`: the backends went through the same
effects, the caches hold the same files in the same order, the match sets list the same
files, and the registries of watches are equal. Answers are alike as well.

Only the allow-list reads a spelling, since a glob is matched against text. So two requests
are the same up to spelling only if it gives the same verdict on both. Nothing else is
assumed: the directory that relative paths are seen from, and the allow-list itself, stay as
they are for as long as the session lives, so what a path means does not change on the way.
-/

namespace BackendSync

/-! ## Answers -/

/-- The same error, among those that a step can meet. -/
inductive SyncError.Alike : SyncError → SyncError → Prop
  | allowlistConflict {p q : Path} (h : p ≈ q) : Alike (.allowlistConflict p) (.allowlistConflict q)
  | notInProject {p q : Path} (h : p ≈ q) : Alike (.notInProject p) (.notInProject q)
  | tooManyDefaultProjectFiles {max remaining : Nat} {files files' : List Path}
      (h : SamePaths files files') :
      Alike (.tooManyDefaultProjectFiles max files remaining)
        (.tooManyDefaultProjectFiles max files' remaining)
  | orphanedFile {p q : Path} (h : p ≈ q) : Alike (.orphanedFile p) (.orphanedFile q)
  | watch {e f : Watch.Error} (h : e.Alike f) : Alike (.watch e) (.watch f)

/-- The same program of the same file. -/
structure Resolved.Alike (r r' : Resolved String) : Prop where
  path : r.path ≈ r'.path
  program : r.program = r'.program
  configFile : r.configFile = r'.configFile
  usedDefaultProject : r.usedDefaultProject = r'.usedDefaultProject

/-- The same answer to a request. -/
abbrev SameOutcome : Outcome String → Outcome String → Prop :=
  SameResult SyncError.Alike (Option.Rel Resolved.Alike)

theorem Facts.classify_alike {p q : Path} (hpq : p ≈ q) (opened : OpenedFile)
    (inProject allowed full : Bool) :
    SameResult SyncError.Alike (· = ·) ((Facts.mk p opened inProject allowed).classify full)
      ((Facts.mk q opened inProject allowed).classify full) := by
  unfold Facts.classify
  dsimp only
  split
  · exact .ok rfl
  · split
    · exact .error (.allowlistConflict hpq)
    · split
      · exact .error (.notInProject hpq)
      · exact .ok rfl

theorem MatchSet.Alike.check {m n : MatchSet} (h : m.Alike n) (max : Nat) :
    SameResult SyncError.Alike (· = ·) (m.check max) (n.check max) := by
  have hsize : m.size = n.size := PathSet.Alike.size_eq h
  have hfiles : SamePaths (m.files.toList.take printLimit) (n.files.toList.take printLimit) :=
    List.forall₂_take _ h
  -- as many files are listed, so as many remain
  have hlength := hfiles.length_eq
  unfold MatchSet.check
  dsimp only
  rw [hsize, hlength]
  split
  · exact .ok rfl
  · exact .error (.tooManyDefaultProjectFiles hfiles)

/-! ## Sessions -/

namespace Session

/-- The same session, but for the spelling of paths. -/
structure Alike (s t : Session Scripted) : Prop where
  backend : s.backend.Alike t.backend
  config : s.config = t.config
  allowlist : s.allowlist = t.allowlist
  openFiles : s.openFiles.Alike t.openFiles
  watches : s.watches = t.watches
  used : s.used.Alike t.used
  extensions : s.extensions = t.extensions

theorem Alike.refl (s : Session Scripted) : s.Alike s :=
  ⟨.refl _, rfl, rfl, .refl _, rfl, .refl _, rfl⟩

variable {s t : Session Scripted} {p q root root' : Path} {used used' : MatchSet}

theorem Alike.absolute (h : s.Alike t) : s.absolute = t.absolute := absolute_congr h.backend.directory

/-- The extensions that are sent have no paths in them. -/
theorem Alike.updateExtensions (h : s.Alike t) (requested : List String) :
    (s.updateExtensions requested).Alike (t.updateExtensions requested) := by
  have heffects : s.extensionEffects requested = t.extensionEffects requested := by
    rw [extensionEffects, extensionEffects, h.config, h.extensions]
  have hsent : List.Forall₂ Effect.Alike (s.extensionEffects requested)
      (t.extensionEffects requested) := by
    rw [heffects]
    exact List.forall₂_same.mpr fun e _ => Effect.Alike.refl e
  rw [updateExtensions_eq, updateExtensions_eq, h.config]
  exact { h with backend := h.backend.performAll hsent, config := rfl, extensions := rfl }

/-! ### Announcing and opening -/

theorem Alike.trigger (h : s.Alike t) (hpq : p ≈ q) :
    Option.Rel Watch.Event.Alike (s.watches.trigger p) (t.watches.trigger q) := by
  rw [h.watches]
  exact t.watches.trigger_alike hpq

theorem Alike.announced (h : s.Alike t) (hpq : p ≈ q) : (s.announced p).Alike (t.announced q) := by
  have hnotices : List.Forall₂ Effect.Alike (s.notices p) (t.notices q) := by
    rw [notices, notices, h.backend.isSome_projectOf? hpq]
    split
    · exact .nil
    · rw [List.forall₂_map_left_iff, List.forall₂_map_right_iff]
      exact (toList_rel (h.trigger hpq)).imp fun _ _ => .notified
  exact { h with backend := h.backend.performAll hnotices }

theorem Alike.refuses_iff (h : s.Alike t) (hpq : p ≈ q) (allowed : Bool) :
    s.Refuses p allowed ↔ t.Refuses q allowed := by
  have hunclaimed := eq_none_iff_of_rel (h.backend.projectOf? hpq)
  have hunwatched := eq_none_iff_of_rel (h.trigger hpq)
  constructor
  · intro k
    exact ⟨hunclaimed.mp k.unclaimed, hunwatched.mp k.unwatched, h.config ▸ k.policy, k.notAllowed⟩
  · intro k
    exact ⟨hunclaimed.mpr k.unclaimed, hunwatched.mpr k.unwatched, h.config ▸ k.policy,
      k.notAllowed⟩

/-- Files that leave the cache are closed alike. -/
theorem closed_rel {left left' : List (Path × OpenedFile)}
    (h : List.Forall₂ SameEntry left left') :
    List.Forall₂ Effect.Alike (left.map fun e => .closed e.1) (left'.map fun e => .closed e.1) := by
  rw [List.forall₂_map_left_iff, List.forall₂_map_right_iff]
  exact h.imp fun _ _ hxy => .closed hxy.1

theorem Alike.openFile (h : s.Alike t) (hpq : p ≈ q) (hroot : root ≈ root') (code : String) :
    (s.openFile p code root).1 = (t.openFile q code root').1 ∧
      (s.openFile p code root).2.Alike (t.openFile q code root').2 := by
  have hreport := h.backend.report hpq
  obtain ⟨hleft, hfiles⟩ := h.openFiles.insert hpq (s.backend.report p)
  rw [openFile_eq, openFile_eq]
  refine ⟨hreport, { h with backend := ?_, openFiles := ?_, watches := ?_ }⟩
  · refine Scripted.Alike.drained (h.backend.performAll (.cons (.opened hpq hroot) ?_))
    rw [← hreport]
    exact closed_rel (toList_rel hleft)
  · rw [← hreport]
    exact hfiles
  · dsimp only
    rw [h.backend.queue, h.backend.watchesOnOpen, h.backend.directory, h.watches]

/-! ### Bringing a file up to date -/

/-- **Of the four ways, both take the same one.** -/
theorem Alike.bringUp (h : s.Alike t) (hpq : p ≈ q) (hroot : root ≈ root') (code : String)
    (allowed : Bool) :
    SameResult SyncError.Alike (· = ·) (s.bringUp p code root allowed).1
        (t.bringUp q code root' allowed).1 ∧
      (s.bringUp p code root allowed).2.Alike (t.bringUp q code root' allowed).2 := by
  have htext := h.backend.buffers.get?_eq hpq
  rcases s.bringUp_cases p code root allowed with
    ⟨e, live, hcached, halive, heq⟩ | ⟨e, hcached, hgone, heq⟩ | ⟨habsent, hadmitted, heq⟩ |
    ⟨habsent, hrefuses, heq⟩
  -- the other session is found to be in the same of the four situations
  · obtain ⟨e', hcached', hsame⟩ := h.openFiles.entry?_some hpq hcached
    have hfiles := h.openFiles.refresh hpq hcached hcached' hsame e.2
    have hsent : List.Forall₂ Effect.Alike ((editsFor s.config live code).map (.edited p))
        ((editsFor t.config live code).map (.edited q)) := by
      rw [List.forall₂_map_left_iff, List.forall₂_map_right_iff, h.config]
      exact List.forall₂_same.mpr fun edit _ => .edited hpq
    rw [heq, bringUp_of_alive hcached' (htext ▸ halive), ← hsame.2]
    exact ⟨.ok rfl, { h with backend := h.backend.performAll hsent, openFiles := hfiles }⟩
  · obtain ⟨e', hcached', _⟩ := h.openFiles.entry?_some hpq hcached
    obtain ⟨hopened, halike⟩ := h.openFile hpq hroot code
    rw [heq, bringUp_of_gone hcached' (htext ▸ hgone)]
    exact ⟨.ok hopened, halike⟩
  · have habsent' := (h.openFiles.entry?_eq_none_iff hpq).mp habsent
    obtain ⟨hopened, halike⟩ := (h.announced hpq).openFile hpq hroot code
    rw [heq, bringUp_of_admitted habsent' (mt (h.refuses_iff hpq allowed).mpr hadmitted)]
    exact ⟨.ok hopened, halike⟩
  · have habsent' := (h.openFiles.entry?_eq_none_iff hpq).mp habsent
    rw [heq, bringUp_of_refuses habsent' ((h.refuses_iff hpq allowed).mp hrefuses)]
    exact ⟨.error (.orphanedFile hpq), h⟩

theorem recorded_alike (hpq : p ≈ q) (hused : used.Alike used') (m : Membership) :
    (recorded p m used).Alike (recorded q m used') := by
  unfold recorded
  split
  · exact (hused.insert hpq).2
  · exact hused

theorem Alike.conclude (h : s.Alike t) (hpq : p ≈ q) (hused : used.Alike used')
    (opened : OpenedFile) (allowed full : Bool) :
    SameOutcome (s.conclude p opened allowed full used).1
        (t.conclude q opened allowed full used').1 ∧
      (s.conclude p opened allowed full used).2.Alike
        (t.conclude q opened allowed full used').2 := by
  have hin : Backend.inProject s.backend p = Backend.inProject t.backend q :=
    h.backend.isSome_projectOf? hpq
  have hprogram : Backend.program? s.backend p = Backend.program? t.backend q :=
    h.backend.program? hpq
  have hmembership :=
    Facts.classify_alike hpq opened (Backend.inProject t.backend q) allowed full
  unfold Session.conclude
  dsimp only
  -- from here on only the path and the match set differ
  rw [hin, hprogram, h.config]
  generalize (Facts.mk p opened (Backend.inProject t.backend q) allowed).classify full = x,
    (Facts.mk q opened (Backend.inProject t.backend q) allowed).classify full = y
    at hmembership ⊢
  cases hmembership with
  | error he => exact ⟨.error he, hused⟩
  | @ok m _ hm =>
    obtain rfl := hm
    cases Backend.program? t.backend q with
    | none => exact ⟨.ok .none, hused⟩
    | some program =>
      have hrecorded := recorded_alike hpq hused m
      have hcheck := hrecorded.check t.config.maximumMatches
      unfold recorded at hrecorded hcheck
      dsimp only [decide_eq_true_eq]
      generalize (if m = .default then (used.insert p).2 else used).check
          t.config.maximumMatches = x,
        (if m = .default then (used'.insert q).2 else used').check
          t.config.maximumMatches = y at hcheck ⊢
      cases hcheck with
      | error he => exact ⟨.error he, hrecorded⟩
      | ok _ => exact ⟨.ok (.some ⟨hpq, rfl, rfl, rfl⟩), hrecorded⟩

/-! ### Requests -/

/--
Two requests that differ in the spelling of paths only. They name one file and one root, and
the allow-list, which matches the text of a path, gives one verdict.
-/
structure SameRequest (s : Session Scripted) (request request' : Request) : Prop where
  path : s.absolute request.path ≈ s.absolute request'.path
  root : s.rootOf request ≈ s.rootOf request'
  allowed : s.allows request = s.allows request'
  code : request.code = request'.code
  extensions : request.extensions = request'.extensions

/-- What a path means depends on the directory and on the allow-list only. -/
theorem SameRequest.congr {request request' : Request} (h : s.SameRequest request request')
    (hdirectory : t.backend.directory = s.backend.directory) (hallowlist : t.allowlist = s.allowlist) :
    t.SameRequest request request' := by
  refine ⟨?_, ?_, ?_, h.code, h.extensions⟩
  · rw [absolute_congr hdirectory]
    exact h.path
  · rw [rootOf_congr hdirectory, rootOf_congr hdirectory]
    exact h.root
  · rw [allows_congr hdirectory hallowlist, allows_congr hdirectory hallowlist]
    exact h.allowed

theorem Alike.bringUpFor (h : s.Alike t) {request request' : Request}
    (hsame : s.SameRequest request request') :
    SameResult SyncError.Alike (· = ·) (s.bringUpFor request).1 (t.bringUpFor request').1 ∧
      (s.bringUpFor request).2.Alike (t.bringUpFor request').2 := by
  have hdirectory := h.backend.directory
  rw [Session.bringUpFor, Session.bringUpFor, ← h.absolute, ← rootOf_congr hdirectory,
    ← allows_congr hdirectory h.allowlist, ← hsame.allowed, ← hsame.code, ← hsame.extensions]
  exact (h.updateExtensions request.extensions).bringUp hsame.path hsame.root request.code
    (s.allows request)

/-- **A request is answered alike under all its spellings.** -/
theorem Alike.resolveWith (h : s.Alike t) {request request' : Request}
    (hsame : s.SameRequest request request') (full : Bool) (hused : used.Alike used') :
    SameOutcome (s.resolveWith request full used).1 (t.resolveWith request' full used').1 ∧
      (s.resolveWith request full used).2.1.Alike (t.resolveWith request' full used').2.1 ∧
      (s.resolveWith request full used).2.2.Alike (t.resolveWith request' full used').2.2 := by
  obtain ⟨hresult, halike⟩ := h.bringUpFor hsame
  rcases hs : s.bringUpFor request with ⟨result, s'⟩
  rcases ht : t.bringUpFor request' with ⟨result', t'⟩
  rw [hs, ht] at hresult halike
  cases hresult with
  | error he =>
    have hs' := congrArg Prod.fst hs
    have ht' := congrArg Prod.fst ht
    rw [resolveWith_of_error hs', resolveWith_of_error ht', ← hsame.extensions]
    exact ⟨.error he, hused, h.updateExtensions request.extensions⟩
  | @ok opened _ hopened =>
    rw [resolveWith_of_ok hs, resolveWith_of_ok ht, ← hopened, ← h.absolute,
      ← allows_congr h.backend.directory h.allowlist, ← hsame.allowed]
    obtain ⟨houtcome, hset⟩ := halike.conclude hsame.path hused opened (s.allows request) full
    exact ⟨houtcome, hset, halike⟩

/-! ### The other calls -/

theorem Alike.closeFile (h : s.Alike t) (hpq : s.absolute p ≈ s.absolute q) :
    (s.closeFile p).1 = (t.closeFile q).1 ∧ (s.closeFile p).2.Alike (t.closeFile q).2 := by
  have hentry := h.openFiles.entry? hpq
  rw [closeFile_eq, closeFile_eq, ← h.absolute]
  exact ⟨isSome_eq_of_rel hentry,
    { h with
      backend := h.backend.performAll (closed_rel (toList_rel hentry))
      openFiles := h.openFiles.erase hpq }⟩

theorem Alike.closeAll (h : s.Alike t) : s.closeAll.Alike t.closeAll := by
  have hleft := List.forall₂_reverse_iff.mpr h.openFiles.entries
  rw [closeAll_eq, closeAll_eq]
  exact { h with
    backend := h.backend.performAll (closed_rel hleft)
    openFiles := ⟨h.openFiles.capacity, .nil⟩ }

theorem Alike.watch (h : s.Alike t) (hpq : s.absolute p ≈ s.absolute q) (kind : Watch.Kind) :
    SameResult SyncError.Alike (· = ·) (s.watch p kind).1 (t.watch q kind).1 ∧
      (s.watch p kind).2.Alike (t.watch q kind).2 := by
  obtain ⟨hhandle, hwatches⟩ := t.watches.register_alike hpq kind
  rw [watch_eq, watch_eq, h.watches, ← h.absolute]
  refine ⟨?_, { h with watches := hwatches }⟩
  generalize (t.watches.register (s.absolute p) kind).1 = x,
    (t.watches.register (s.absolute q) kind).1 = y at hhandle ⊢
  cases hhandle with
  | error he => exact .error (.watch he)
  | ok heq => exact .ok heq

theorem Alike.closeWatch (h : s.Alike t) (handle : Watch.Handle) :
    (s.closeWatch handle).1 = (t.closeWatch handle).1 ∧
      (s.closeWatch handle).2.Alike (t.closeWatch handle).2 := by
  rw [Session.closeWatch, Session.closeWatch, h.watches]
  exact ⟨rfl, { h with watches := rfl }⟩

end Session

/-! ## Steps -/

/-- The same step, under two spellings of its paths, as a session sees them. -/
inductive Step.Alike (s : Session Scripted) : Step → Step → Prop
  | resolve {request request' : Request} (h : s.SameRequest request request') (full : Bool)
      (run : Option String) : Alike s (.resolve request full run) (.resolve request' full run)
  | closeFile {p q : Path} (h : s.absolute p ≈ s.absolute q) : Alike s (.closeFile p) (.closeFile q)
  | closeAll : Alike s .closeAll .closeAll
  | isOpen {p q : Path} (h : s.absolute p ≈ s.absolute q) : Alike s (.isOpen p) (.isOpen q)
  | clearUsed : Alike s .clearUsed .clearUsed
  | watch {p q : Path} (h : s.absolute p ≈ s.absolute q) (kind : Watch.Kind) :
      Alike s (.watch p kind) (.watch q kind)
  | closeWatch (handle : Nat) : Alike s (.closeWatch handle) (.closeWatch handle)
  | config : Alike s .config .config
  | addToRun (run : String) {paths paths' : List Path} (h : SamePaths paths paths') :
      Alike s (.addToRun run paths) (.addToRun run paths')
  | filesOfRun (run : String) : Alike s (.filesOfRun run) (.filesOfRun run)
  | buffer {p q : Path} (h : p ≈ q) : Alike s (.buffer p) (.buffer q)
  | change {x y : Scripted.Change} (h : x.Alike y) : Alike s (.change x) (.change y)

theorem Step.Alike.congr {s t : Session Scripted} {st st' : Step} (h : Step.Alike s st st')
    (hdirectory : t.backend.directory = s.backend.directory) (hallowlist : t.allowlist = s.allowlist) :
    Step.Alike t st st' := by
  have habsolute : t.absolute = s.absolute := Session.absolute_congr hdirectory
  cases h with
  | resolve h full run => exact .resolve (h.congr hdirectory hallowlist) full run
  | closeFile h => exact .closeFile (habsolute ▸ h)
  | closeAll => exact .closeAll
  | isOpen h => exact .isOpen (habsolute ▸ h)
  | clearUsed => exact .clearUsed
  | watch h kind => exact .watch (habsolute ▸ h) kind
  | closeWatch handle => exact .closeWatch handle
  | config => exact .config
  | addToRun run h => exact .addToRun run h
  | filesOfRun run => exact .filesOfRun run
  | buffer h => exact .buffer h
  | change h => exact .change h

/-- The same reply. -/
inductive Reply.Alike : Reply → Reply → Prop
  | done : Alike .done .done
  | flag {b c : Bool} (h : b = c) : Alike (.flag b) (.flag c)
  | flags {bs cs : List Bool} (h : bs = cs) : Alike (.flags bs) (.flags cs)
  | resolved {x y : Outcome String} (h : SameOutcome x y) : Alike (.resolved x) (.resolved y)
  | watched {x y : Except SyncError Watch.Handle} (h : SameResult SyncError.Alike (· = ·) x y) :
      Alike (.watched x) (.watched y)
  | config {x y : Config} (h : x = y) : Alike (.config x) (.config y)
  | files {x y : Option (List Path)} (h : Option.Rel SamePaths x y) : Alike (.files x) (.files y)
  | text {x y : Option String} (h : x = y) : Alike (.text x) (.text y)

namespace World

/-- The same world, but for the spelling of paths. -/
structure Alike (w v : World) : Prop where
  session : w.session.Alike v.session
  handles : w.handles = v.handles
  runs : ∀ name, Option.Rel MatchSet.Alike (w.runs name) (v.runs name)

theorem Alike.refl (w : World) : w.Alike w := by
  refine ⟨.refl _, rfl, fun name => ?_⟩
  cases w.runs name with
  | none => exact .none
  | some used => exact .some (.refl used)

variable {w v : World} {used used' : MatchSet}

theorem Alike.runOf (h : w.Alike v) (name : String) : (w.runOf name).Alike (v.runOf name) := by
  have hrun := h.runs name
  unfold World.runOf
  generalize w.runs name = x, v.runs name = y at hrun ⊢
  cases hrun with
  | some hused => exact hused
  | none => exact MatchSet.Alike.refl _

theorem Alike.setRun (h : w.Alike v) (name : String) (hused : used.Alike used') :
    (w.setRun name used).Alike (v.setRun name used') := by
  refine { h with runs := fun other => ?_ }
  unfold World.setRun
  dsimp only
  split
  · exact .some hused
  · exact h.runs other

theorem insertAll_alike (hused : used.Alike used') {paths paths' : List Path}
    (h : SamePaths paths paths') :
    (insertAll used paths).1 = (insertAll used' paths').1 ∧
      (insertAll used paths).2.Alike (insertAll used' paths').2 := by
  induction h generalizing used used' with
  | nil => exact ⟨rfl, hused⟩
  | cons hpq _ ih =>
    obtain ⟨hnew, hinserted⟩ := hused.insert hpq
    obtain ⟨hflags, hall⟩ := ih hinserted
    exact ⟨List.cons_eq_cons.mpr ⟨hnew, hflags⟩, hall⟩

theorem Alike.withSession (h : w.Alike v) {s t : Session Scripted} (hst : s.Alike t) :
    Alike { w with session := s } { v with session := t } := { h with session := hst }

theorem Alike.step_resolve (h : w.Alike v) {request request' : Request}
    (hsame : w.session.SameRequest request request') (full : Bool) (run : Option String) :
    Reply.Alike (w.step (.resolve request full run)).1 (v.step (.resolve request' full run)).1 ∧
      (w.step (.resolve request full run)).2.Alike (v.step (.resolve request' full run)).2 := by
  cases run with
  | none =>
    obtain ⟨houtcome, hused, halike⟩ := h.session.resolveWith hsame full h.session.used
    exact ⟨.resolved houtcome, h.withSession { halike with used := hused }⟩
  | some name =>
    obtain ⟨houtcome, hused, halike⟩ := h.session.resolveWith hsame full (h.runOf name)
    exact ⟨.resolved houtcome, (h.withSession halike).setRun name hused⟩

theorem Alike.step_watch (h : w.Alike v) {p q : Path}
    (hpq : w.session.absolute p ≈ w.session.absolute q) (kind : Watch.Kind) :
    Reply.Alike (w.step (.watch p kind)).1 (v.step (.watch q kind)).1 ∧
      (w.step (.watch p kind)).2.Alike (v.step (.watch q kind)).2 := by
  obtain ⟨hhandle, halike⟩ := h.session.watch hpq kind
  rw [World.step_watch, World.step_watch, h.handles, hhandle.toOption_eq]
  exact ⟨.watched hhandle, { h with session := halike, handles := rfl }⟩

/-- **Two spellings of a step are answered alike and leave worlds that are alike.** -/
theorem Alike.step (h : w.Alike v) {st st' : Step} (hst : Step.Alike w.session st st') :
    Reply.Alike (w.step st).1 (v.step st').1 ∧ (w.step st).2.Alike (v.step st').2 := by
  have hsession := h.session
  cases hst with
  | resolve hsame full run => exact h.step_resolve hsame full run
  | closeFile hpq =>
    obtain ⟨hflag, halike⟩ := hsession.closeFile hpq
    exact ⟨.flag hflag, h.withSession halike⟩
  | closeAll => exact ⟨.done, h.withSession hsession.closeAll⟩
  | @isOpen p q hpq =>
    have hflag : w.session.isOpen p = v.session.isOpen q := by
      rw [Session.isOpen, Session.isOpen, ← hsession.absolute]
      exact hsession.openFiles.contains_eq hpq
    exact ⟨.flag hflag, h⟩
  | clearUsed => exact ⟨.done, h.withSession { hsession with used := .refl _ }⟩
  | watch hpq kind => exact h.step_watch hpq kind
  | closeWatch i =>
    rw [step_closeWatch, step_closeWatch, h.handles]
    cases v.handles[i]? with
    | none => exact ⟨.flag rfl, h⟩
    | some handle =>
      obtain ⟨hflag, halike⟩ := hsession.closeWatch handle
      exact ⟨.flag hflag, { h with session := halike, handles := rfl }⟩
  | config => exact ⟨.config hsession.config, h⟩
  | addToRun run hpaths =>
    obtain ⟨hflags, hused⟩ := insertAll_alike (h.runOf run) hpaths
    exact ⟨.flags hflags, h.setRun run hused⟩
  | filesOfRun run =>
    refine ⟨.files ?_, h⟩
    have hrun := h.runs run
    generalize w.runs run = x, v.runs run = y at hrun ⊢
    cases hrun with
    | some hused => exact .some hused
    | none => exact .none
  | buffer hpq => exact ⟨.text (hsession.backend.buffers.get?_eq hpq), h⟩
  | change hxy =>
    obtain ⟨hflag, halike⟩ := hsession.backend.change hxy
    exact ⟨.flag hflag, h.withSession { hsession with backend := halike }⟩

/-! ## Runs -/

/-- **Two spellings of a run are answered alike and end in worlds that are alike.** -/
theorem Alike.run (h : w.Alike v) {steps steps' : List Step}
    (hsteps : List.Forall₂ (Step.Alike w.session) steps steps') :
    List.Forall₂ Reply.Alike (w.replies steps) (v.replies steps') ∧
      (w.run steps).Alike (v.run steps') := by
  induction steps generalizing w v steps' with
  | nil =>
    cases hsteps
    exact ⟨.nil, h⟩
  | cons st rest ih =>
    cases hsteps with
    | cons hst hrest =>
      obtain ⟨hreply, hafter⟩ := h.step hst
      obtain ⟨_, hallowlist, hdirectory⟩ := w.settings_step st
      -- paths mean what they meant before, so the rest is alike in the next world too
      obtain ⟨hreplies, hend⟩ := ih hafter
        (hrest.imp fun _ _ hsame => hsame.congr hdirectory hallowlist)
      exact ⟨.cons hreply hreplies, hend⟩

/--
**The spelling of a path does not matter.** Two lists of steps that differ only in it are
answered alike, step for step. After as many steps of each, the backends had the same done to
them, the same files are open in the same order of recency, the match sets list the same
files in the same order, and the registries of watches are equal.
-/
theorem spellings_do_not_matter (w : World) {steps steps' : List Step}
    (h : List.Forall₂ (Step.Alike w.session) steps steps') :
    List.Forall₂ Reply.Alike (w.replies steps) (w.replies steps') ∧
      ∀ n, (w.run (steps.take n)).Alike (w.run (steps'.take n)) := by
  obtain ⟨hreplies, _⟩ := (Alike.refl w).run h
  refine ⟨hreplies, fun n => ?_⟩
  -- the first `n` steps of both are a pair of runs of their own
  have hfirst := List.forall₂_take n h
  exact ((Alike.refl w).run hfirst).2

/-- A directory is watched, and a file below it opened and closed. -/
def plainSteps : List Step :=
  [.watch ⟨"/p"⟩ .directory, .resolve ⟨⟨"/p/a"⟩, "x", none, []⟩ false none, .closeFile ⟨"/p/a"⟩]

/-- The same under other spellings, some of them relative. -/
def oddSteps : List Step :=
  [.watch ⟨"."⟩ .directory, .resolve ⟨⟨"//p/./a/"⟩, "x", some ⟨"/p/"⟩, []⟩ false none,
    .closeFile ⟨"a//"⟩]

/-- Both backends are told of the new file, which is opened and closed. -/
theorem spellings_do_not_matter_for_three_steps : ∃ w : World,
    create (.bare ⟨"/p"⟩) {} = .ok w ∧
    List.Forall₂ (Step.Alike w.session) plainSteps oddSteps ∧
    (w.run plainSteps).Alike (w.run oddSteps) ∧
    (w.run plainSteps).log =
      [.notified ⟨⟨"/p"⟩, ⟨"/p/a"⟩, .create⟩, .opened ⟨"/p/a"⟩ "x" ⟨"/p"⟩, .closed ⟨"/p/a"⟩] ∧
    (w.run oddSteps).log =
      [.notified ⟨⟨"/p"⟩, ⟨"//p/./a/"⟩, .create⟩, .opened ⟨"//p/./a/"⟩ "x" ⟨"/p/"⟩,
        .closed ⟨"//p/./a/"⟩] := by
  have hsame : ∀ w : World, create (.bare ⟨"/p"⟩) {} = .ok w →
      List.Forall₂ (Step.Alike w.session) plainSteps oddSteps := by
    intro w hw
    cases hw
    refine .cons (.watch (by decide) _) (.cons (.resolve ?_ _ _) (.cons (.closeFile ?_) .nil))
    · exact ⟨by decide, by decide, by decide, rfl, rfl⟩
    · decide
  have hrun : ∀ w : World, create (.bare ⟨"/p"⟩) {} = .ok w →
      (w.run plainSteps).Alike (w.run oddSteps) := fun w hw =>
    (spellings_do_not_matter w (hsame w hw)).2 3
  exact ⟨_, rfl, hsame _ rfl, hrun _ rfl, by decide, by decide⟩

end World

end BackendSync
