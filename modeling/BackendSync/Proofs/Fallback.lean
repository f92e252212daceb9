import BackendSync.Proofs.LastOpening
import BackendSync.Proofs.Repeating

/-!
# Which files fall back to the default project

Whether a file falls back is decided by how it was opened, and whether it may by the projects
at the moment of the request. The two can disagree: a project may take in a file that is
already open, and the file keeps its open result. With full type information required, such
a file is denied if it is on the allow-list, and falls back if it is not.

So a file that falls back is in none of the projects, or it is not on the allow-list, was
opened before the request, and was in no project then.
-/

namespace BackendSync

namespace Session

/-! ## With any backend -/

section

variable {β Program : Type} [Backend β Program] {s : Session β} {request : Request}
  {used : MatchSet}

/-- The session once the extensions of a request were sent. -/
def prepared (s : Session β) (request : Request) : Session β :=
  s.updateExtensions request.extensions

/-- Is the file of a request on the allow-list? -/
def accepts (s : Session β) (request : Request) : Bool :=
  s.allowlist.acceptsFrom (s.absolute request.path)
    ((request.root.map s.absolute).getD (Backend.currentDirectory s.backend))

/-- Brings the file of a request up to date, once the extensions are sent. -/
def broughtUp (s : Session β) (request : Request) : Except SyncError OpenedFile × Session β :=
  s.bringUp (s.absolute request.path) request.code
    ((request.root.map s.absolute).getD (Backend.currentDirectory s.backend)) (s.accepts request)

theorem resolveWith_eq (s : Session β) (request : Request) (full : Bool) (used : MatchSet) :
    s.resolveWith request full used =
      match (s.prepared request).broughtUp request with
      | (.error e, s') => (.error e, used, s')
      | (.ok opened, s') =>
        let answer := s'.conclude ((s.prepared request).absolute request.path) opened
          ((s.prepared request).accepts request) full used
        (answer.1, answer.2, s') := rfl

/--
With full type information required, the file of a request falls back to the default
project: it is served from there, or it enters the match set.
-/
def FallsBack (s : Session β) (request : Request) (used : MatchSet) : Prop :=
  (∃ r, (s.resolveWith request true used).1 = .ok (some r) ∧ r.usedDefaultProject = true) ∨
    (s.resolveWith request true used).2.1 ≠ used

/-- What is so when a request falls back, whatever the backend does. -/
structure FellBack (s : Session β) (request : Request) (used : MatchSet) : Prop where
  /-- The open result, a new one or that of the cache, names no config file. -/
  unconfigured : ∃ opened, (s.prepared request).broughtUp request =
    (.ok opened, (s.resolveWith request true used).2.2) ∧ opened.configFile = none
  /-- A file on the allow-list is in no project, and any other is in one. -/
  claimed_iff :
    Backend.inProject (s.resolveWith request true used).2.2.backend
        ((s.prepared request).absolute request.path) = true ↔
      (s.prepared request).accepts request = false

variable {path : Path} {opened : OpenedFile} {allowed full : Bool}

/-- A file of a configured project counts nowhere and is not said to have fallen back. -/
theorem conclude_of_configured
    (hm : (Facts.mk path opened (Backend.inProject s.backend path) allowed).classify full =
      .ok .configured) (used : MatchSet) :
    (s.conclude path opened allowed full used).2 = used ∧
      ∀ r, (s.conclude path opened allowed full used).1 = .ok (some r) →
        r.usedDefaultProject = false := by
  simp only [conclude, hm]
  cases Backend.program? s.backend path with
  | none =>
    refine ⟨rfl, fun r hr => ?_⟩
    cases hr
  | some program =>
    have hnot : ¬Membership.configured = .default := Membership.noConfusion
    simp only [if_neg hnot]
    cases used.check s.config.maximumMatches with
    | error e =>
      refine ⟨rfl, fun r hr => ?_⟩
      cases hr
    | ok _ =>
      refine ⟨rfl, fun r hr => ?_⟩
      cases hr
      rfl

/-- A file that falls back was opened so, and is in a project just if it is not allowed. -/
theorem conclude_of_default
    (h : (∃ r, (s.conclude path opened allowed true used).1 = .ok (some r) ∧
        r.usedDefaultProject = true) ∨ (s.conclude path opened allowed true used).2 ≠ used) :
    opened.configFile = none ∧ (Backend.inProject s.backend path = true ↔ allowed = false) := by
  cases hm : (Facts.mk path opened (Backend.inProject s.backend path) allowed).classify true with
  | error e =>
    simp only [conclude, hm] at h
    rcases h with ⟨r, hr, _⟩ | hused
    · cases hr
    · exact absurd rfl hused
  | ok m =>
    cases m with
    | configured =>
      obtain ⟨hsame, hnever⟩ := conclude_of_configured hm used
      rcases h with ⟨r, hr, hdefault⟩ | hused
      · cases hdefault.symm.trans (hnever r hr)
      · exact absurd hsame hused
    | default =>
      have hnone : opened.configFile = none :=
        OpenedFile.membership_eq_default_iff.mp (Facts.eq_of_classify hm).symm
      obtain ⟨hnotboth, heither⟩ := Facts.classify_full_iff.mp ⟨_, hm⟩
      refine ⟨hnone, fun hclaimed => ?_, fun hnot => ?_⟩
      · exact Bool.eq_false_iff.mpr fun hallowed => hnotboth ⟨hclaimed, hallowed⟩
      · rcases heither hnone with hclaimed | hallowed
        · exact hclaimed
        · cases hallowed.symm.trans hnot

/-- **Whatever the backend, a file that falls back is in a project just if it is not allowed to.** -/
theorem FallsBack.fellBack (h : s.FallsBack request used) : s.FellBack request used := by
  have hresolve := s.resolveWith_eq request true used
  rcases hbring : (s.prepared request).broughtUp request with ⟨e | opened, s'⟩
  · rw [hbring] at hresolve
    rw [FallsBack, hresolve] at h
    rcases h with ⟨r, hr, _⟩ | hused
    · cases hr
    · exact absurd rfl hused
  · rw [hbring] at hresolve
    rw [FallsBack, hresolve] at h
    obtain ⟨hnone, hclaimed⟩ := conclude_of_default h
    refine ⟨⟨opened, ?_, hnone⟩, ?_⟩
    · rw [hbring, hresolve]
    · rw [hresolve]
      exact hclaimed

end

end Session

/-! ## With the scripted backend -/

/-- Some project has the file. -/
def Scripted.Claims (b : Scripted) (p : Path) : Prop := ∃ project ∈ b.projects, p ∈ project.files

namespace Scripted

theorem projects_perform {e : Effect} (h : e.target? ≠ none) (b : Scripted) :
    (e.perform b).projects = b.projects := by
  cases e with
  | notified event => exact absurd rfl h
  | _ => rfl

/-- Effects on files take no file into a project. -/
theorem projects_performAll {effects : List Effect} (h : ∀ e ∈ effects, e.target? ≠ none)
    (b : Scripted) : (b.performAll effects).projects = b.projects := by
  induction effects generalizing b with
  | nil => rfl
  | cons e rest ih =>
    rw [performAll_cons, ih fun x hx => h x (List.mem_cons_of_mem e hx),
      projects_perform (h e List.mem_cons_self)]

end Scripted

namespace Session

variable {s s' : Session Scripted} {request : Request} {opened : OpenedFile} {path : Path}
  {code : String} {root : Path} {allowed : Bool}

theorem accepts_prepared (s : Session Scripted) (request : Request) :
    (s.prepared request).accepts request = s.allows request := by
  have hdirectory : Backend.currentDirectory (s.updateExtensions request.extensions).backend =
      s.backend.directory := s.directory_updateExtensions request.extensions
  rw [prepared, accepts, absolute_updateExtensions, allowlist_updateExtensions, hdirectory]
  rfl

theorem projects_openFile (s : Session Scripted) (path : Path) (code : String) (root : Path) :
    (s.openFile path code root).2.backend.projects = s.backend.projects := by
  rw [backend_openFile]
  exact Scripted.projects_performAll (fun e he => target_of_opening he) s.backend

/-- A file that a project has on entry is there afterwards. -/
theorem claims_of_bringUp (h : s.bringUp path code root allowed = (.ok opened, s'))
    (hclaims : s.backend.Claims path) : s'.backend.Claims path := by
  have hprojects : s'.backend.projects = s.backend.projects := by
    rcases s.bringUp_cases path code root allowed with
      ⟨e, live, hcached, _, heq⟩ | ⟨_, _, _, heq⟩ | ⟨_, _, heq⟩ | ⟨_, _, heq⟩
    · cases heq.symm.trans h
      exact Scripted.projects_performAll (fun e he => target_of_edited he) s.backend
    · have hs : (s.openFile path code root).2 = s' :=
        congrArg Prod.snd (heq.symm.trans h)
      rw [← hs]
      exact s.projects_openFile path code root
    · have hs : ((s.announced path).openFile path code root).2 = s' :=
        congrArg Prod.snd (heq.symm.trans h)
      -- a file that a project has is not announced
      have hnotices : s.notices path = [] := if_pos (Scripted.projectOf?_isSome_iff.mpr hclaims)
      rw [← hs, projects_openFile, announced, hnotices]
      rfl
    · cases heq.symm.trans h
  rw [Scripted.Claims, hprojects]
  exact hclaims

/-- **A file with no config file that a project has was open, and is as it was opened before.** -/
theorem stale_of_claims (h : s.bringUp path code root allowed = (.ok opened, s'))
    (hnone : opened.configFile = none) (hclaims : s'.backend.Claims path) :
    s.openFiles.peek? path = some opened ∧ (s.backend.buffers.get? path).isSome = true ∧
      s.backend.Claims path := by
  have hclaimed := Scripted.projectOf?_isSome_iff.mpr hclaims
  -- what is opened now would name the config file of the project
  have hfresh : ∀ s₁ : Session Scripted, s₁.openFile path code root = (opened, s') → False := by
    intro s₁ hopen
    have hreport := s₁.opened_openFile path code root
    rw [hopen] at hreport
    dsimp only at hreport
    rw [hreport] at hnone
    rw [Scripted.projectOf?_of_report hnone] at hclaimed
    cases hclaimed
  rcases s.bringUp_cases path code root allowed with
    ⟨e, live, hcached, halive, heq⟩ | ⟨_, _, _, heq⟩ | ⟨_, _, heq⟩ | ⟨_, _, heq⟩
  · cases heq.symm.trans h
    have hprojects : (s.backend.performAll
        ((editsFor s.config live code).map (.edited path))).projects = s.backend.projects :=
      Scripted.projects_performAll (fun e he => target_of_edited he) s.backend
    rw [Scripted.Claims, hprojects] at hclaims
    refine ⟨?_, Option.isSome_of_eq_some halive, hclaims⟩
    rw [LruMap.peek?, hcached]
    rfl
  · exact (hfresh s (openFile_of_ok (heq.symm.trans h))).elim
  · exact (hfresh _ (openFile_of_ok (heq.symm.trans h))).elim
  · cases heq.symm.trans h

/-- A request with an open result that names no config file takes its file into no project. -/
theorem claims_bringUpFor_iff (h : s.bringUpFor request = (.ok opened, s'))
    (hnone : opened.configFile = none) :
    s'.backend.Claims (s.absolute request.path) ↔ s.backend.Claims (s.absolute request.path) := by
  have hprojects : (s.updateExtensions request.extensions).backend.projects = s.backend.projects := by
    rw [backend_updateExtensions]
  constructor
  · intro hclaims
    obtain ⟨_, _, hbefore⟩ := stale_of_claims h hnone hclaims
    rw [Scripted.Claims, hprojects] at hbefore
    exact hbefore
  · intro hclaims
    rw [Scripted.Claims, ← hprojects] at hclaims
    exact claims_of_bringUp h hclaims

theorem stale_of_bringUpFor (h : s.bringUpFor request = (.ok opened, s'))
    (hnone : opened.configFile = none) (hclaims : s.backend.Claims (s.absolute request.path)) :
    s.openFiles.peek? (s.absolute request.path) = some ⟨none⟩ ∧
      (s.backend.buffers.get? (s.absolute request.path)).isSome = true := by
  obtain ⟨hopen, halive, _⟩ :=
    stale_of_claims h hnone ((claims_bringUpFor_iff h hnone).mpr hclaims)
  have hopened : opened = ⟨none⟩ := congrArg OpenedFile.mk hnone
  rw [openFiles_updateExtensions, hopened] at hopen
  rw [backend_updateExtensions] at halive
  exact ⟨hopen, halive⟩

end Session

namespace World

variable {w : World} {request : Request} {run : Option String}

/-- The same in a world, where the answer is a reply and the match set that of a run. -/
def FallsBack (w : World) (request : Request) (run : Option String) : Prop :=
  (∃ r, (w.step (.resolve request true run)).1 = .resolved (.ok (some r)) ∧
      r.usedDefaultProject = true) ∨
    (w.step (.resolve request true run)).2.counted run ≠ w.counted run

theorem fallsBack_iff :
    w.FallsBack request run ↔ w.session.FallsBack request (w.counted run) := by
  rw [FallsBack, Session.FallsBack, reply_resolve, counted_resolve]
  simp only [Reply.resolved.injEq]

/-- What is so when the file of a request falls back. -/
structure FellBack (w : World) (request : Request) (run : Option String) : Prop where
  /-- On entry, a file on the allow-list is in no project, and any other is in one. -/
  claimed_iff : w.session.backend.Claims (w.session.absolute request.path) ↔
    w.session.allows request = false
  /-- The same is so when the answer is given. -/
  claimed_after_iff : (w.step (.resolve request true run)).2.session.backend.Claims
      (w.session.absolute request.path) ↔ w.session.allows request = false
  /-- A file that is in a project was open and alive, and was opened with no config file. -/
  stale : w.session.backend.Claims (w.session.absolute request.path) →
    w.session.openFiles.peek? (w.session.absolute request.path) = some ⟨none⟩ ∧
      (w.session.backend.buffers.get? (w.session.absolute request.path)).isSome = true
  /-- No project had the file when it was opened for the last time. -/
  unclaimed : ∀ backend config start steps, create backend config = .ok start →
    w = start.run steps → ∃ earlier st later,
      start.LastOpening (steps ++ [.resolve request true run])
        (w.session.absolute request.path) earlier st later ∧
      ¬(start.run (earlier ++ [st])).session.backend.Claims (w.session.absolute request.path)

theorem unclaimed_at_lastOpening {opened : OpenedFile} {s' : Session Scripted}
    (h : w.session.bringUpFor request = (.ok opened, s')) (hnone : opened.configFile = none)
    {backend : Scripted} {config : Config} {start : World} {steps : List Step}
    (hcreate : create backend config = .ok start) (hrun : w = start.run steps)
    (run : Option String) : ∃ earlier st later,
      start.LastOpening (steps ++ [.resolve request true run])
        (w.session.absolute request.path) earlier st later ∧
      ¬(start.run (earlier ++ [st])).session.backend.Claims (w.session.absolute request.path) := by
  obtain ⟨key, rest, hfront, hkey⟩ := (Session.upToDate_of_bringUpFor h).front
  rw [(Session.sameSettings_bringUpFor h).absolute] at hkey
  obtain ⟨used, hsession⟩ := w.session_resolve request true run
  rw [Session.resolveWith_of_ok h] at hsession
  have hin : (key, opened) ∈
      (start.run (steps ++ [.resolve request true run])).session.openFiles.entries := by
    rw [run_concat, ← hrun, hsession]
    show (key, opened) ∈ s'.openFiles.entries
    rw [hfront]
    exact List.mem_cons_self
  obtain ⟨earlier, st, later, hlast, hreport⟩ :=
    reported_at_lastOpening (openFiles_of_create hcreate) hin
  refine ⟨earlier, st, later, hlast.congr hkey, fun hclaims => ?_⟩
  have hclaimed := Scripted.projectOf?_isSome_iff.mpr hclaims
  dsimp only at hreport
  rw [hreport] at hnone
  rw [← Scripted.projectOf?_congr hkey, Scripted.projectOf?_of_report hnone] at hclaimed
  cases hclaimed

/--
**Which files fall back to the default project.** Whatever the backend, a file that falls
back although full type information is required was opened with no config file, and is in a
project just if it is not on the allow-list. With the scripted backend, one that is in a
project was open and alive before the request, and no project had it when it was opened.
-/
theorem files_that_fall_back :
    (∀ (β Program : Type) [Backend β Program] (s : Session β) (request : Request)
      (used : MatchSet), s.FallsBack request used → s.FellBack request used) ∧
    ∀ (w : World) (request : Request) (run : Option String),
      w.FallsBack request run → w.FellBack request run := by
  refine ⟨fun β Program _ s request used h => h.fellBack, fun w request run h => ?_⟩
  obtain ⟨⟨opened, hbroughtUp, hnone⟩, hclaimed⟩ := (fallsBack_iff.mp h).fellBack
  have hbring := (w.session.bringUpFor_eq request).symm.trans hbroughtUp
  have hbackend := backend_resolve hbring true run
  rw [Session.accepts_prepared, Session.prepared, Session.absolute_updateExtensions] at hclaimed
  have hafter : (w.step (.resolve request true run)).2.session.backend.Claims
      (w.session.absolute request.path) ↔ w.session.allows request = false := by
    rw [hbackend]
    exact Scripted.projectOf?_isSome_iff.symm.trans hclaimed
  -- what is done between the entry and the answer neither takes the file in nor out
  have hsame := Session.claims_bringUpFor_iff hbring hnone
  rw [← hbackend] at hsame
  refine ⟨hsame.symm.trans hafter, hafter, Session.stale_of_bringUpFor hbring hnone, ?_⟩
  intro backend config start steps hcreate hrun
  exact unclaimed_at_lastOpening hbring hnone hcreate hrun run

/-- A file is opened while no project has it, and then a project comes that does. -/
def lateProject : List Step :=
  [.resolve ⟨⟨"/a"⟩, "x", none, []⟩ true none, .change (.addProject ⟨⟨"/c"⟩, .ofList [⟨"/a"⟩]⟩)]

/-- The next request for the file falls back, in the world as in its session. -/
theorem files_that_fall_back_after_late_project : ∃ w : World,
    create (.bare ⟨"/"⟩) {} = .ok w ∧
    (w.run lateProject).FallsBack ⟨⟨"/a"⟩, "x", none, []⟩ none ∧
    (w.run lateProject).FellBack ⟨⟨"/a"⟩, "x", none, []⟩ none ∧
    (w.run lateProject).session.FallsBack ⟨⟨"/a"⟩, "x", none, []⟩ .empty ∧
    (w.run lateProject).session.FellBack ⟨⟨"/a"⟩, "x", none, []⟩ .empty := by
  have hworld := fun (w : World) hfalls =>
    files_that_fall_back.2 (w.run lateProject) ⟨⟨"/a"⟩, "x", none, []⟩ none hfalls
  have hsession := fun (w : World) hfalls =>
    files_that_fall_back.1 Scripted String (w.run lateProject).session
      ⟨⟨"/a"⟩, "x", none, []⟩ .empty hfalls
  exact ⟨_, rfl, Or.inl ⟨_, rfl, rfl⟩, hworld _ (Or.inl ⟨_, rfl, rfl⟩), Or.inl ⟨_, rfl, rfl⟩,
    hsession _ (Or.inl ⟨_, rfl, rfl⟩)⟩

/-- It is served from the default project and counted, though a project has it by then. -/
theorem fallback_of_late_project : ∃ (w : World) (r : Resolved String),
    create (.bare ⟨"/"⟩) {} = .ok w ∧
    ((w.run lateProject).step (.resolve ⟨⟨"/a"⟩, "x", none, []⟩ true none)).1 =
      .resolved (.ok (some r)) ∧
    r.usedDefaultProject = true ∧
    ((w.run lateProject).step
      (.resolve ⟨⟨"/a"⟩, "x", none, []⟩ true none)).2.session.backend.Claims r.path ∧
    ((w.run lateProject).counted none).contains r.path = false ∧
    (((w.run lateProject).step
      (.resolve ⟨⟨"/a"⟩, "x", none, []⟩ true none)).2.counted none).contains r.path = true := by
  refine ⟨_, _, rfl, rfl, rfl, ?_, rfl, rfl⟩
  exact ⟨_, List.mem_singleton_self _, by decide⟩

end World

end BackendSync
