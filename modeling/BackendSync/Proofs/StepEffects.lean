import BackendSync.Proofs.BringingUp

/-!
# What a step does to a world

A step has effects on the backend, which the log shows, or it is a change behind the
session's back, which leaves no trace there. For every step of the first kind the state
of the backend afterwards is the state before it with the effects performed. What a
resolve answers depends on how the file was brought up to date, but what it does to the
backend is over by then.
-/

namespace BackendSync

/-! ## The answer to a request -/

/-- Membership is denied for one of two reasons, both about the file itself. -/
theorem Facts.classify_error {f : Facts} {full : Bool} {e : SyncError}
    (h : f.classify full = .error e) : e = .allowlistConflict f.path ∨ e = .notInProject f.path := by
  unfold Facts.classify at h
  dsimp only at h
  split at h
  · cases h
  · split at h
    · cases h
      exact Or.inl rfl
    · split at h
      · cases h
        exact Or.inr rfl
      · cases h

theorem MatchSet.check_error {m : MatchSet} {max : Nat} {e : SyncError}
    (h : m.check max = .error e) :
    ∃ files remaining, e = .tooManyDefaultProjectFiles max files remaining := by
  unfold MatchSet.check at h
  by_cases hle : m.size ≤ max
  · rw [if_pos hle] at h
    cases h
  · rw [if_neg hle] at h
    cases h
    exact ⟨_, _, rfl⟩

namespace Session

/-- The set of a run after a file of some membership got its program. -/
def recorded (path : Path) (membership : Membership) (used : MatchSet) : MatchSet :=
  if membership = .default then (used.insert path).2 else used

/-- The four answers to a request for a file that was brought up to date. -/
inductive Concluded (s : Session Scripted) (path : Path) (opened : OpenedFile) (allowed full : Bool)
    (used : MatchSet) (result : Outcome String × MatchSet) : Prop where
  /-- Its membership is denied. -/
  | denied (e : SyncError)
      (membership : (Facts.mk path opened (s.backend.projectOf? path).isSome allowed).classify full =
        .error e)
      (eq : result = (.error e, used))
  /-- Its program is not ready. -/
  | unready (m : Membership)
      (membership : (Facts.mk path opened (s.backend.projectOf? path).isSome allowed).classify full =
        .ok m)
      (program : s.backend.program? path = none)
      (eq : result = (.ok none, used))
  /-- The set of its run is over the cap. -/
  | overfull (m : Membership) (program : String) (e : SyncError)
      (membership : (Facts.mk path opened (s.backend.projectOf? path).isSome allowed).classify full =
        .ok m)
      (found : s.backend.program? path = some program)
      (check : (recorded path m used).check s.config.maximumMatches = .error e)
      (eq : result = (.error e, recorded path m used))
  /-- It is served. -/
  | served (m : Membership) (program : String)
      (membership : (Facts.mk path opened (s.backend.projectOf? path).isSome allowed).classify full =
        .ok m)
      (found : s.backend.program? path = some program)
      (check : (recorded path m used).check s.config.maximumMatches = .ok ())
      (eq : result =
        (.ok (some ⟨path, program, opened.configFile, decide (m = .default)⟩), recorded path m used))

theorem conclude_cases (s : Session Scripted) (path : Path) (opened : OpenedFile)
    (allowed full : Bool) (used : MatchSet) :
    s.Concluded path opened allowed full used (s.conclude path opened allowed full used) := by
  have hin : Backend.inProject s.backend path = (s.backend.projectOf? path).isSome := rfl
  have hprogram : Backend.program? s.backend path = s.backend.program? path := rfl
  cases hm : (Facts.mk path opened (s.backend.projectOf? path).isSome allowed).classify full with
  | error e =>
    refine .denied e hm ?_
    simp only [conclude, hin, hm]
  | ok m =>
    cases hp : s.backend.program? path with
    | none =>
      refine .unready m hm hp ?_
      simp only [conclude, hin, hm, hprogram, hp]
    | some program =>
      cases hcheck : (recorded path m used).check s.config.maximumMatches with
      | error e =>
        refine .overfull m program e hm hp hcheck ?_
        rw [recorded] at hcheck
        simp only [conclude, hin, hm, hprogram, hp, hcheck, recorded]
      | ok _ =>
        refine .served m program hm hp hcheck ?_
        rw [recorded] at hcheck
        simp only [conclude, hin, hm, hprogram, hp, hcheck, recorded]

/-- A file that was brought up to date is not called an orphan. -/
theorem conclude_not_orphaned (s : Session Scripted) (path : Path) (opened : OpenedFile)
    (allowed full : Bool) (used : MatchSet) (p : Path) :
    (s.conclude path opened allowed full used).1 ≠ .error (.orphanedFile p) := by
  intro h
  rcases s.conclude_cases path opened allowed full used with
    ⟨e, hm, heq⟩ | ⟨m, hm, hp, heq⟩ | ⟨m, program, e, hm, hp, hcheck, heq⟩ |
    ⟨m, program, hm, hp, hcheck, heq⟩
  -- an error comes from the membership or from the check of the cap
  · rw [heq] at h
    cases h
    rcases Facts.classify_error hm with hq | hq <;> cases hq
  · rw [heq] at h
    cases h
  · rw [heq] at h
    cases h
    obtain ⟨files, remaining, hq⟩ := MatchSet.check_error hcheck
    cases hq
  · rw [heq] at h
    cases h

/-- The program that is served is the one that the backend has. -/
theorem program?_of_served {s : Session Scripted} {path : Path} {opened : OpenedFile}
    {allowed full : Bool} {used : MatchSet} {r : Resolved String}
    (h : (s.conclude path opened allowed full used).1 = .ok (some r)) :
    s.backend.program? path = some r.program := by
  rcases s.conclude_cases path opened allowed full used with
    ⟨e, hm, heq⟩ | ⟨m, hm, hp, heq⟩ | ⟨m, program, e, hm, hp, hcheck, heq⟩ |
    ⟨m, program, hm, hp, hcheck, heq⟩
  all_goals
    rw [heq] at h
    cases h
  exact hp

/-- Watching a path changes the registry and nothing else. -/
theorem watch_eq (s : Session Scripted) (p : Path) (kind : Watch.Kind) :
    s.watch p kind = ((s.watches.register (s.absolute p) kind).1.mapError .watch,
      { s with watches := (s.watches.register (s.absolute p) kind).2 }) := by
  unfold watch
  generalize s.watches.register (s.absolute p) kind = result
  rfl

/-! ## A request, seen from its session -/

/-- The directory that a request is resolved in. -/
def rootOf (s : Session Scripted) (request : Request) : Path :=
  (request.root.map s.absolute).getD s.backend.directory

/-- Is the file of a request on the allow-list? -/
def allows (s : Session Scripted) (request : Request) : Bool :=
  s.allowlist.acceptsFrom (s.absolute request.path) (s.rootOf request)

/-- Brings the file of a request up to date, the extensions first. -/
def bringUpFor (s : Session Scripted) (request : Request) :
    Except SyncError OpenedFile × Session Scripted :=
  (s.updateExtensions request.extensions).bringUp (s.absolute request.path) request.code
    (s.rootOf request) (s.allows request)

/-- Only the directory of the backend has a say in what a path means. -/
theorem absolute_congr {s t : Session Scripted}
    (h : t.backend.directory = s.backend.directory) : t.absolute = s.absolute := by
  funext p
  show p.absolutize t.backend.directory = p.absolutize s.backend.directory
  rw [h]

theorem rootOf_congr {s t : Session Scripted} (h : t.backend.directory = s.backend.directory)
    (request : Request) : t.rootOf request = s.rootOf request := by
  rw [rootOf, rootOf, absolute_congr h, h]

theorem allows_congr {s t : Session Scripted} (hdirectory : t.backend.directory = s.backend.directory)
    (hallowlist : t.allowlist = s.allowlist) (request : Request) :
    t.allows request = s.allows request := by
  rw [allows, rootOf_congr hdirectory, absolute_congr hdirectory, hallowlist, allows]

@[simp] theorem directory_updateExtensions (s : Session Scripted) (requested : List String) :
    (s.updateExtensions requested).backend.directory = s.backend.directory := by
  rw [updateExtensions_eq, Scripted.directory_performAll]

@[simp] theorem absolute_updateExtensions (s : Session Scripted) (requested : List String) :
    (s.updateExtensions requested).absolute = s.absolute :=
  absolute_congr (s.directory_updateExtensions requested)

@[simp] theorem allowlist_updateExtensions (s : Session Scripted) (requested : List String) :
    (s.updateExtensions requested).allowlist = s.allowlist := by
  rw [updateExtensions_eq]

@[simp] theorem openFiles_updateExtensions (s : Session Scripted) (requested : List String) :
    (s.updateExtensions requested).openFiles = s.openFiles := by
  rw [updateExtensions_eq]

@[simp] theorem watches_updateExtensions (s : Session Scripted) (requested : List String) :
    (s.updateExtensions requested).watches = s.watches := by
  rw [updateExtensions_eq]

@[simp] theorem config_updateExtensions (s : Session Scripted) (requested : List String) :
    (s.updateExtensions requested).config = s.config := by
  rw [updateExtensions_eq]

/-- Sending extensions writes to the log of the backend and leaves the rest of it alone. -/
theorem backend_updateExtensions (s : Session Scripted) (requested : List String) :
    (s.updateExtensions requested).backend =
      { s.backend with log := s.backend.log ++ s.extensionEffects requested } := by
  rw [updateExtensions_eq]
  unfold extensionEffects
  split
  · rw [List.append_nil]
    rfl
  · rfl

theorem bringUpFor_eq (s : Session Scripted) (request : Request) :
    (s.updateExtensions request.extensions).bringUp
        ((s.updateExtensions request.extensions).absolute request.path) request.code
        ((request.root.map (s.updateExtensions request.extensions).absolute).getD
          (Backend.currentDirectory (s.updateExtensions request.extensions).backend))
        ((s.updateExtensions request.extensions).allowlist.acceptsFrom
          ((s.updateExtensions request.extensions).absolute request.path)
          ((request.root.map (s.updateExtensions request.extensions).absolute).getD
            (Backend.currentDirectory (s.updateExtensions request.extensions).backend))) =
      s.bringUpFor request := by
  have hdirectory : Backend.currentDirectory (s.updateExtensions request.extensions).backend =
      s.backend.directory := s.directory_updateExtensions request.extensions
  rw [absolute_updateExtensions, allowlist_updateExtensions, hdirectory]
  rfl

/-- **A request that is refused has sent its extensions, and that is all it has done.** -/
theorem session_of_bringUpFor_error {s : Session Scripted} {request : Request} {e : SyncError}
    (h : (s.bringUpFor request).1 = .error e) :
    (s.bringUpFor request).2 = s.updateExtensions request.extensions :=
  (refused_of_bringUp_error h).2.2.2

/-- **Once the file is brought up to date, the session only reads.** -/
theorem session_resolveWith (s : Session Scripted) (request : Request) (full : Bool)
    (used : MatchSet) :
    (s.resolveWith request full used).2.2 = (s.bringUpFor request).2 := by
  rw [← bringUpFor_eq]
  unfold resolveWith
  dsimp only
  split
  · rename_i e s' hbring
    rw [hbring]
  · rename_i opened s' hbring
    rw [hbring]

theorem resolveWith_of_error {s : Session Scripted} {request : Request} {e : SyncError}
    (h : (s.bringUpFor request).1 = .error e) (full : Bool) (used : MatchSet) :
    s.resolveWith request full used = (.error e, used, s.updateExtensions request.extensions) := by
  have hbring : s.bringUpFor request = (.error e, s.updateExtensions request.extensions) :=
    Prod.ext h (session_of_bringUpFor_error h)
  rw [← bringUpFor_eq] at hbring
  unfold resolveWith
  dsimp only
  rw [hbring]

theorem resolveWith_of_ok {s s' : Session Scripted} {request : Request} {opened : OpenedFile}
    (h : s.bringUpFor request = (.ok opened, s')) (full : Bool) (used : MatchSet) :
    s.resolveWith request full used =
      ((s'.conclude (s.absolute request.path) opened (s.allows request) full used).1,
        (s'.conclude (s.absolute request.path) opened (s.allows request) full used).2, s') := by
  have hdirectory : Backend.currentDirectory (s.updateExtensions request.extensions).backend =
      s.backend.directory := s.directory_updateExtensions request.extensions
  rw [← bringUpFor_eq] at h
  unfold resolveWith
  dsimp only
  rw [h]
  dsimp only
  rw [absolute_updateExtensions, allowlist_updateExtensions, hdirectory]
  rfl

end Session

/-! ## Steps -/

namespace World

/-- What a step does to the backend. -/
def effects (w : World) (st : Step) : List Effect := (w.step st).2.log.drop w.log.length

/-- A step that only adds to the log adds its effects. -/
theorem effects_of_log {w : World} {st : Step} {sent : List Effect}
    (h : (w.step st).2.log = w.log ++ sent) : w.effects st = sent := by
  rw [effects, h, List.drop_left]

/-- The match set that a resolve counts in: the session's own, or that of a caller's run. -/
def counted (w : World) (run : Option String) : MatchSet := (run.map w.runOf).getD w.session.used

theorem step_watch (w : World) (path : Path) (kind : Watch.Kind) :
    w.step (.watch path kind) = (.watched (w.session.watch path kind).1,
      { w with
        session := (w.session.watch path kind).2
        handles := w.handles ++ (w.session.watch path kind).1.toOption.toList }) := by
  unfold step
  dsimp only

/-- A call to watch a path changes the registry of the session and nothing else of it. -/
theorem session_step_watch (w : World) (path : Path) (kind : Watch.Kind) :
    (w.step (.watch path kind)).2.session =
      { w.session with
        watches := (w.session.watches.register (w.session.absolute path) kind).2 } := by
  rw [step_watch, Session.watch_eq]

theorem step_closeWatch (w : World) (i : Nat) :
    w.step (.closeWatch i) =
      match w.handles[i]? with
      | some handle =>
        (.flag (w.session.closeWatch handle).1,
          { w with session := (w.session.closeWatch handle).2 })
      | none => (.flag false, w) := rfl

theorem step_resolve_own (w : World) (request : Request) (full : Bool) :
    w.step (.resolve request full none) =
      (.resolved (w.session.resolveWith request full w.session.used).1,
        { w with
          session :=
            { (w.session.resolveWith request full w.session.used).2.2 with
              used := (w.session.resolveWith request full w.session.used).2.1 } }) := rfl

theorem step_resolve_run (w : World) (request : Request) (full : Bool) (run : String) :
    w.step (.resolve request full (some run)) =
      (.resolved (w.session.resolveWith request full (w.runOf run)).1,
        ({ w with session := (w.session.resolveWith request full (w.runOf run)).2.2 } :
          World).setRun run (w.session.resolveWith request full (w.runOf run)).2.1) := rfl

theorem reply_resolve (w : World) (request : Request) (full : Bool) (run : Option String) :
    (w.step (.resolve request full run)).1 =
      .resolved (w.session.resolveWith request full (w.counted run)).1 := by
  cases run <;> rfl

theorem session_resolve (w : World) (request : Request) (full : Bool) (run : Option String) :
    ∃ used, (w.step (.resolve request full run)).2.session =
      { (w.session.resolveWith request full (w.counted run)).2.2 with used } := by
  cases run with
  | none => exact ⟨_, rfl⟩
  | some name => exact ⟨(w.session.resolveWith request full (w.counted (some name))).2.2.used, rfl⟩

/--
A resolve goes one of two ways: the file is refused and the session is as the extensions
left it, or the file is brought up to date and some answer is given that does not call
it an orphan.
-/
theorem step_resolve (w : World) (request : Request) (full : Bool) (run : Option String) :
    ∃ outcome used, (w.step (.resolve request full run)).1 = .resolved outcome ∧
      ((∃ e, (w.session.bringUpFor request).1 = .error e ∧ outcome = .error e ∧
        (w.step (.resolve request full run)).2.session =
          { w.session.updateExtensions request.extensions with used }) ∨
      ∃ opened s', w.session.bringUpFor request = (.ok opened, s') ∧
        (∀ p, outcome ≠ .error (.orphanedFile p)) ∧
        (∀ r, outcome = .ok (some r) →
          s'.backend.program? (w.session.absolute request.path) = some r.program) ∧
        (w.step (.resolve request full run)).2.session = { s' with used }) := by
  obtain ⟨used, hsession⟩ := w.session_resolve request full run
  refine ⟨_, used, w.reply_resolve request full run, ?_⟩
  rw [hsession]
  rcases h : w.session.bringUpFor request with ⟨e | opened, s'⟩
  · have herror := congrArg Prod.fst h
    rw [Session.resolveWith_of_error herror]
    exact Or.inl ⟨e, rfl, rfl, rfl⟩
  · rw [Session.resolveWith_of_ok h]
    exact Or.inr ⟨opened, s', rfl, Session.conclude_not_orphaned _ _ _ _ _ _,
      fun r hr => Session.program?_of_served hr, rfl⟩

end World

end BackendSync
