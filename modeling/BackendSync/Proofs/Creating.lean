import BackendSync.Proofs.BringingUp
import BackendSync.Session.World

/-!
# A new session

Creating a session does two things to the backend, and both are about no file: the
default project is named to it, and then the extensions. So no text is touched, nothing
is open, and whatever the log says was open before still is.
-/

namespace BackendSync

namespace Session

/-- What a backend is told of the default project of a configuration. -/
def defaultProjectEffects (b : Scripted) (config : Config) : List Effect :=
  (config.defaultProject.map fun descriptor =>
    .defaultProject (descriptor.absolutize b.directory)).toList

theorem useDefaultProject_eq (b : Scripted) (config : Config) :
    (useDefaultProject b config).2 = b.performAll (defaultProjectEffects b config) := by
  unfold useDefaultProject defaultProjectEffects
  cases config.defaultProject <;> rfl

theorem quiet_defaultProjectEffects (b : Scripted) (config : Config) :
    Quiet (defaultProjectEffects b config) := by
  intro e he
  obtain ⟨descriptor, _, hdescriptor⟩ := Option.map_eq_some_iff.mp (Option.mem_toList.mp he)
  rw [← hdescriptor]
  rfl

/-- The session that is there before the extensions are sent. -/
def begun (backend : Scripted) (config : Config) (allowlist : Allowlist)
    (h : 0 < config.maximumOpenFiles) : Session Scripted where
  backend := backend.performAll (defaultProjectEffects backend config)
  config := config
  allowlist := allowlist
  openFiles := .empty config.maximumOpenFiles h

/-- Creating a session, one check after another. -/
theorem create_eq (backend : Scripted) (config : Config) :
    create backend config =
      match config.validate with
      | .error e => .error (e, backend)
      | .ok _ =>
        match Allowlist.compile config.allowDefaultProject with
        | .error e => .error (e, backend)
        | .ok allowlist =>
          if h : 0 < config.maximumOpenFiles then
            match (useDefaultProject backend config).1 with
            | some e => .error (e, backend.performAll (defaultProjectEffects backend config))
            | none => .ok ((begun backend config allowlist h).updateExtensions [])
          else .error (.invalidConfig ConfigFault.noOpenFiles.reason, backend) := by
  unfold create
  cases config.validate with
  | error e => rfl
  | ok _ =>
    cases Allowlist.compile config.allowDefaultProject with
    | error e => rfl
    | ok allowlist =>
      by_cases h : 0 < config.maximumOpenFiles
      · have hbackend := useDefaultProject_eq backend config
        simp only [dif_pos h]
        cases hused : useDefaultProject backend config with
        | mk failure after =>
          rw [hused] at hbackend
          dsimp only at hbackend
          rw [hbackend]
          cases failure <;> rfl
      · simp only [dif_neg h]
        rfl

/-- A session that was created had nothing open, and told its backend nothing of any file. -/
theorem begun_of_create {backend : Scripted} {config : Config} {s : Session Scripted}
    (h : create backend config = .ok s) :
    ∃ allowlist hpos, s = (begun backend config allowlist hpos).updateExtensions [] := by
  rw [create_eq] at h
  split at h
  · cases h
  · split at h
    · cases h
    · rename_i allowlist _
      by_cases hpos : 0 < config.maximumOpenFiles
      · rw [dif_pos hpos] at h
        split at h
        · cases h
        · exact ⟨allowlist, hpos, (Except.ok.inj h).symm⟩
      · rw [dif_neg hpos] at h
        cases h

end Session

namespace World

/-- A new world is a new session, of which nobody holds anything yet. -/
theorem eq_of_create {backend : Scripted} {config : Config} {w : World}
    (h : create backend config = .ok w) :
    Session.create backend config = .ok w.session ∧ w = { session := w.session } := by
  unfold create at h
  cases hs : Session.create backend config with
  | error e =>
    rw [hs] at h
    cases h
  | ok s =>
    rw [hs] at h
    cases h
    exact ⟨rfl, rfl⟩

theorem session_of_create {backend : Scripted} {config : Config} {w : World}
    (h : create backend config = .ok w) : Session.create backend config = .ok w.session :=
  (eq_of_create h).1

end World

end BackendSync
