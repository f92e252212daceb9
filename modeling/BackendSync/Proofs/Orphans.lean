import BackendSync.Proofs.NearestWatch
import BackendSync.Proofs.OpenResults

/-!
# Orphans

An orphan is a file that is not open, that no project has, and that no watch on it or above
it could tell the backend about. Under the policy to reject, an orphan that is not on the
allow-list is refused, and nothing else ever is: `orphan_rejection` says so as an
equivalence. A refusal is the one way in which a resolve can end before the backend was
told of the file, so there is nothing that it could have changed but the extensions, which
are sent before any file is looked at.
-/

namespace BackendSync

namespace Session

variable {s : Session Scripted} {path : Path} {allowed : Bool}

/-- What it takes to be refused, by what the projects and the watches have. -/
theorem refuses_iff :
    s.Refuses path allowed ↔
      (∀ project ∈ s.backend.projects, path ∉ project.files) ∧
        (path.isAbsolute = false ∨ path.climbs = true ∨
          ∀ a, a.OnWayTo path → s.watches.isWatched a = false) ∧
        s.config.orphanPolicy = .reject ∧ allowed = false := by
  rw [← Scripted.projectOf?_eq_none_iff, ← Watch.Registry.trigger_eq_none_iff]
  constructor
  · intro h
    exact ⟨h.unclaimed, h.unwatched, h.policy, h.notAllowed⟩
  · intro h
    obtain ⟨hunclaimed, hunwatched, hpolicy, hnotAllowed⟩ := h
    exact ⟨hunclaimed, hunwatched, hpolicy, hnotAllowed⟩

/-- Sending extensions lets in no file and keeps out none. -/
theorem refuses_updateExtensions (s : Session Scripted) (requested : List String) :
    (s.updateExtensions requested).Refuses path allowed ↔ s.Refuses path allowed := by
  rw [refuses_iff, refuses_iff, backend_updateExtensions, watches_updateExtensions,
    config_updateExtensions]

/-- **A request ends early just if its file is not open and is refused.** -/
theorem bringUpFor_eq_error_iff {request : Request} {e : SyncError} :
    (s.bringUpFor request).1 = .error e ↔
      s.openFiles.contains (s.absolute request.path) = false ∧
        s.Refuses (s.absolute request.path) (s.allows request) ∧
        e = .orphanedFile (s.absolute request.path) := by
  rw [← s.openFiles_updateExtensions request.extensions, LruMap.contains_eq_false_iff,
    ← s.refuses_updateExtensions request.extensions]
  constructor
  · intro h
    obtain ⟨habsent, hrefuses, he, _⟩ := refused_of_bringUp_error h
    exact ⟨habsent, hrefuses, he⟩
  · intro h
    obtain ⟨habsent, hrefuses, rfl⟩ := h
    exact congrArg Prod.fst (bringUp_of_refuses habsent hrefuses _ _)

end Session

namespace World

variable {w : World} {request : Request} {full : Bool} {run : Option String}

/-- A resolve calls a file an orphan just if its request ends early. -/
theorem orphaned_iff {p : Path} :
    (w.step (.resolve request full run)).1 = .resolved (.error (.orphanedFile p)) ↔
      (w.session.bringUpFor request).1 = .error (.orphanedFile p) := by
  obtain ⟨outcome, used, hreply, hways⟩ := w.step_resolve request full run
  rw [hreply]
  rcases hways with ⟨e, hbring, hout, _⟩ | ⟨opened, s', hbring, hnot, _, _⟩
  · rw [hbring, hout]
    constructor
    · intro h
      cases h
      rfl
    · intro h
      cases h
      rfl
  · rw [hbring]
    refine iff_of_false (fun h => hnot p (Reply.resolved.inj h)) (fun h => ?_)
    cases h

/-- What a refused request leaves as it was, which is all but the extensions. -/
structure LeftAlone (w : World) (request : Request) (w' : World) : Prop where
  /-- The cache, in content and in order. -/
  openFiles : w'.session.openFiles = w.session.openFiles
  watches : w'.session.watches = w.session.watches
  /-- The backend, with its live texts and its projects, but for its log. -/
  backend : w'.session.backend = { w.session.backend with log := w'.log }
  /-- Every match set, the session's own and those of the callers. -/
  counted : ∀ key, w'.counted key = w.counted key
  handles : w'.handles = w.handles
  /-- The log has at most the extensions more. -/
  log : w'.log = w.log ∨ w'.log = w.log ++
    [.extensions (Text.orderedSet (w.session.config.extraExtensions ++ request.extensions))]

theorem handles_resolve (w : World) (request : Request) (full : Bool) (run : Option String) :
    (w.step (.resolve request full run)).2.handles = w.handles := by
  cases run <;> rfl

/-- A request that ends early counts nowhere. -/
theorem counted_of_error {e : SyncError} (h : (w.session.bringUpFor request).1 = .error e)
    (key : Option String) :
    (w.step (.resolve request full run)).2.counted key = w.counted key := by
  by_cases hrun : run = key
  · rw [← hrun, counted_resolve, Session.resolveWith_of_error h]
  · exact counted_resolve_of_ne hrun w request full

/-- **A request that ends early leaves everything alone but the extensions.** -/
theorem leftAlone_of_error {e : SyncError} (h : (w.session.bringUpFor request).1 = .error e) :
    w.LeftAlone request (w.step (.resolve request full run)).2 := by
  obtain ⟨used, hsession⟩ := w.session_resolve request full run
  rw [Session.resolveWith_of_error h] at hsession
  have hbackend : (w.step (.resolve request full run)).2.session.backend =
      { w.session.backend with
        log := w.session.backend.log ++ w.session.extensionEffects request.extensions } := by
    rw [hsession]
    exact Session.backend_updateExtensions ..
  have hlog : (w.step (.resolve request full run)).2.log =
      w.log ++ w.session.extensionEffects request.extensions := congrArg (·.log) hbackend
  refine ⟨?_, ?_, ?_, counted_of_error h, handles_resolve w request full run, ?_⟩
  · rw [hsession]
    exact Session.openFiles_updateExtensions ..
  · rw [hsession]
    exact Session.watches_updateExtensions ..
  · rw [hbackend, hlog]
    rfl
  · rw [hlog, Session.extensionEffects]
    split
    · exact Or.inl (List.append_nil _)
    · exact Or.inr rfl

/--
**Which files are rejected as orphans, and what that does.** A resolve answers that a file
is an orphan just if the file is not open, no project has it, no watch is on it or on a
directory above it, the policy is to reject, and the file is not on the allow-list. No watch
is looked for above a path that is relative or climbs. Then nothing has changed, but that the
extensions may have been sent.
-/
theorem orphan_rejection (w : World) (request : Request) (full : Bool) (run : Option String) :
    ((w.step (.resolve request full run)).1 =
        .resolved (.error (.orphanedFile (w.session.absolute request.path))) ↔
      w.session.openFiles.contains (w.session.absolute request.path) = false ∧
        (∀ project ∈ w.session.backend.projects,
          w.session.absolute request.path ∉ project.files) ∧
        ((w.session.absolute request.path).isAbsolute = false ∨
          (w.session.absolute request.path).climbs = true ∨
          ∀ a, a.OnWayTo (w.session.absolute request.path) →
            w.session.watches.isWatched a = false) ∧
        w.session.config.orphanPolicy = .reject ∧ w.session.allows request = false) ∧
    ∀ p, (w.step (.resolve request full run)).1 = .resolved (.error (.orphanedFile p)) →
      p = w.session.absolute request.path ∧
        w.LeftAlone request (w.step (.resolve request full run)).2 := by
  refine ⟨?_, fun p hp => ?_⟩
  · rw [orphaned_iff, Session.bringUpFor_eq_error_iff, and_iff_left rfl, Session.refuses_iff]
  · have hbring := orphaned_iff.mp hp
    obtain ⟨_, _, hpath⟩ := Session.bringUpFor_eq_error_iff.mp hbring
    exact ⟨SyncError.orphanedFile.inj hpath, leftAlone_of_error hbring⟩

end World

end BackendSync
