import BackendSync.Backend.Scripted
import BackendSync.Config.Document
import BackendSync.Proofs.Validation
import BackendSync.Session.Basic

/-!
# Making a session

A session is there or it is not. If the configuration is not valid, it is refused for the
reason that validation gives, before anything is done to the backend. If it is valid, the
checks that follow find nothing more, since the list compiles and there is room for a file;
then only the backend can refuse, and it is asked just once, for the default project.

This is so for any backend. To say what is done to one, it is recorded: a `Recorded` backend
is a backend together with the effects of the calls that were made to it, and it answers as
the backend does. `Making` lists the ways in which a session is made or not, and
`making_create` says that there are no others.
-/

namespace BackendSync

/-! ## Recorded backends -/

/-- A backend and what was done to it since it is recorded, the oldest first. -/
structure Recorded (β : Type) where
  inner : β
  log : List Effect

namespace Recorded

/-- A backend to which nothing was done yet. -/
def of {β : Type} (backend : β) : Recorded β := ⟨backend, []⟩

variable {β Program : Type} [Backend β Program]

/-- The next state of the backend, and what was done to it. -/
def next (r : Recorded β) (inner : β) (e : Effect) : Recorded β := ⟨inner, r.log ++ [e]⟩

instance : Backend (Recorded β) Program where
  currentDirectory r := Backend.currentDirectory r.inner
  openFile r path text root :=
    let (opened, inner) := Backend.openFile r.inner path text root
    (opened, r.next inner (.opened path text root))
  closeFile r path := r.next (Backend.closeFile r.inner path) (.closed path)
  bufferText? r := Backend.bufferText? r.inner
  applyEdit r path edit := r.next (Backend.applyEdit r.inner path edit) (.edited path edit)
  inProject r := Backend.inProject r.inner
  program? r := Backend.program? r.inner
  setExtensions r extensions :=
    r.next (Backend.setExtensions r.inner extensions) (.extensions extensions)
  setDefaultProject r path :=
    let (failure, inner) := Backend.setDefaultProject r.inner path
    (failure, r.next inner (.defaultProject path))
  notify r event := r.next (Backend.notify r.inner event) (.notified event)
  takeWatchRequests r :=
    let (requests, inner) := Backend.takeWatchRequests r.inner
    (requests, { r with inner })

theorem setDefaultProject_of (backend : β) (path : Path) :
    Backend.setDefaultProject (of backend) path =
      ((Backend.setDefaultProject backend path).1,
        ⟨(Backend.setDefaultProject backend path).2, [.defaultProject path]⟩) := rfl

end Recorded

namespace Session

variable {β Program : Type} [Backend β Program]

/-! ## One check after another -/

/-- A session in which nothing happened yet. -/
def blank (backend : β) (config : Config) (allowlist : Allowlist)
    (h : 0 < config.maximumOpenFiles) : Session β where
  backend := backend
  config := config
  allowlist := allowlist
  openFiles := .empty config.maximumOpenFiles h

theorem create_of_not_valid (backend : β) {config : Config} {e : SyncError}
    (h : config.validate = .error e) : create backend config = .error (e, backend) := by
  unfold create
  rw [h]
  rfl

/-- With a valid configuration only the backend is left to refuse. -/
theorem create_of_valid (backend : β) {config : Config} (h : config.validate = .ok ()) :
    ∃ allowlist hpos, Allowlist.compile config.allowDefaultProject = .ok allowlist ∧
      create backend config =
        match useDefaultProject backend config with
        | (some e, after) => .error (e, after)
        | (none, after) => .ok ((blank after config allowlist hpos).updateExtensions []) := by
  obtain ⟨hfault, allowlist, hcompile⟩ := Config.validate_eq_ok_iff.mp h
  have hpos : 0 < config.maximumOpenFiles := (Config.fault?_eq_none_iff.mp hfault).1
  refine ⟨allowlist, hpos, hcompile, ?_⟩
  unfold create
  rw [h, hcompile]
  simp only [dif_pos hpos]
  cases hused : useDefaultProject backend config with
  | mk failure after => cases failure <;> rfl

/-- What is sent of the extensions of a configuration. -/
def extensionCalls (config : Config) : List Effect :=
  if config.extraExtensions = [] then [] else [.extensions (Text.orderedSet config.extraExtensions)]

theorem orderedSet_eq_nil_iff {texts : List String} : Text.orderedSet texts = [] ↔ texts = [] := by
  rw [List.eq_nil_iff_forall_not_mem, List.eq_nil_iff_forall_not_mem]
  simp only [Text.mem_orderedSet]

/-- A session that was just made: it has its configuration, and nothing else. -/
structure IsNew (s : Session β) (config : Config) : Prop where
  settings : s.config = config
  allowlist : Allowlist.compile config.allowDefaultProject = .ok s.allowlist
  noneOpen : s.openFiles.entries = []
  noneWatched : s.watches = .empty
  noneUsed : s.used.files = ∅

theorem isNew_updateExtensions {s : Session β} {config : Config} (h : s.IsNew config)
    (requested : List String) : (s.updateExtensions requested).IsNew config := by
  unfold updateExtensions
  dsimp only
  split
  · exact h
  · exact ⟨h.settings, h.allowlist, h.noneOpen, h.noneWatched, h.noneUsed⟩

/-- The first extensions are sent if there are any. -/
theorem log_updateExtensions_blank (r : Recorded β) {config : Config} {allowlist : Allowlist}
    {hpos : 0 < config.maximumOpenFiles} :
    ((blank r config allowlist hpos).updateExtensions []).backend.log =
      r.log ++ extensionCalls config := by
  unfold updateExtensions extensionCalls
  have hwanted : (blank r config allowlist hpos).config.extraExtensions ++ [] =
      config.extraExtensions := List.append_nil _
  have hnone : (blank r config allowlist hpos).extensions = [] := rfl
  dsimp only
  rw [hwanted, hnone]
  by_cases hempty : config.extraExtensions = []
  · rw [if_pos (orderedSet_eq_nil_iff.mpr hempty), if_pos hempty, List.append_nil]
    rfl
  · rw [if_neg (mt orderedSet_eq_nil_iff.mp hempty), if_neg hempty]
    rfl

/-! ## The ways to end -/

/-- What is said of the default project of a configuration to a backend. -/
def defaultProjectCalls (backend : β) (config : Config) : List Effect :=
  (config.defaultProject.map fun descriptor =>
    .defaultProject (descriptor.absolutize (Backend.currentDirectory backend))).toList

/-- Does the backend take the default project of a configuration, if there is one? -/
def TakesDefaultProject (backend : β) (config : Config) : Prop :=
  ∀ descriptor, config.defaultProject = some descriptor →
    (Backend.setDefaultProject backend
      (descriptor.absolutize (Backend.currentDirectory backend))).1 = none

/-- The ways in which making a session can end, with what is done to the backend in each. -/
inductive Making (backend : β) (config : Config) :
    Except (SyncError × Recorded β) (Session (Recorded β)) → Prop
  | invalid {e : SyncError} (h : config.validate = .error e) :
      Making backend config (.error (e, .of backend))
  | refused {descriptor path : Path} {messages : List String} {inner : β}
      (hvalid : config.validate = .ok ()) (hdescriptor : config.defaultProject = some descriptor)
      (hpath : path = descriptor.absolutize (Backend.currentDirectory backend))
      (hrefuses : Backend.setDefaultProject backend path = (some messages, inner)) :
      Making backend config (.error (.defaultProject path (String.intercalate ": " messages),
        ⟨inner, [.defaultProject path]⟩))
  | made {s : Session (Recorded β)} (hvalid : config.validate = .ok ())
      (htakes : TakesDefaultProject backend config) (hnew : s.IsNew config)
      (hlog : s.backend.log = defaultProjectCalls backend config ++ extensionCalls config) :
      Making backend config (.ok s)

theorem useDefaultProject_of_none (backend : β) {config : Config}
    (h : config.defaultProject = none) : useDefaultProject backend config = (none, backend) := by
  rw [useDefaultProject, h]

section

variable {backend : β} {config : Config} {descriptor path : Path} {failure : Option (List String)}

/-- The backend is asked once, for the descriptor seen from its directory. -/
theorem useDefaultProject_of_some {after : β} (h : config.defaultProject = some descriptor)
    (hpath : path = descriptor.absolutize (Backend.currentDirectory backend))
    (hset : Backend.setDefaultProject backend path = (failure, after)) :
    useDefaultProject backend config =
      (failure.map fun messages => .defaultProject path (joinMessages messages), after) := by
  rw [useDefaultProject, h]
  dsimp only
  rw [← hpath, hset]

theorem useDefaultProject_recorded {inner : β} (h : config.defaultProject = some descriptor)
    (hpath : path = descriptor.absolutize (Backend.currentDirectory backend))
    (hset : Backend.setDefaultProject backend path = (failure, inner)) :
    useDefaultProject (Recorded.of backend) config =
      (failure.map fun messages => .defaultProject path (joinMessages messages),
        ⟨inner, [.defaultProject path]⟩) := by
  refine useDefaultProject_of_some h hpath ?_
  rw [Recorded.setDefaultProject_of, hset]

end

/-- **Making a session ends in one of these ways.** -/
theorem making_create (backend : β) (config : Config) :
    Making backend config (create (.of backend) config) := by
  cases hvalid : config.validate with
  | error e =>
    rw [create_of_not_valid _ hvalid]
    exact .invalid hvalid
  | ok _ =>
    obtain ⟨allowlist, hpos, hcompile, hcreate⟩ := create_of_valid (Recorded.of backend) hvalid
    have hnew : ∀ r : Recorded β,
        ((blank r config allowlist hpos).updateExtensions []).IsNew config :=
      fun r => isNew_updateExtensions ⟨rfl, hcompile, rfl, rfl, rfl⟩ []
    rw [hcreate]
    cases hdescriptor : config.defaultProject with
    | none =>
      rw [useDefaultProject_of_none _ hdescriptor]
      refine .made hvalid (fun _ h => ?_) (hnew _) ?_
      · rw [hdescriptor] at h
        cases h
      · rw [log_updateExtensions_blank, defaultProjectCalls, hdescriptor]
        rfl
    | some descriptor =>
      cases hset : Backend.setDefaultProject backend
          (descriptor.absolutize (Backend.currentDirectory backend)) with
      | mk failure inner =>
        rw [useDefaultProject_recorded hdescriptor rfl hset]
        cases failure with
        | some messages => exact .refused hvalid hdescriptor rfl hset
        | none =>
          refine .made hvalid (fun other h => ?_) (hnew _) ?_
          · rw [hdescriptor] at h
            cases h
            rw [hset]
          · rw [log_updateExtensions_blank, defaultProjectCalls, hdescriptor]
            rfl

/-- A session is made, or it is refused for one of two reasons; which of these it is. -/
structure MadeOrRefused (backend : β) (config : Config) : Prop where
  /-- A configuration is refused just as validation refuses it, and the backend is left alone. -/
  invalid_iff : ∀ (e : SyncError) (after : Recorded β),
    (∀ path message, e ≠ .defaultProject path message) →
    (create (Recorded.of backend) config = .error (e, after) ↔
      config.validate = .error e ∧ after = Recorded.of backend)
  /-- The backend refuses the descriptor, and it was asked for nothing else before or after. -/
  refused_iff : ∀ (path : Path) (message : String) (after : Recorded β),
    create (Recorded.of backend) config = .error (.defaultProject path message, after) ↔
      config.validate = .ok () ∧ ∃ descriptor messages inner,
        config.defaultProject = some descriptor ∧
        path = descriptor.absolutize (Backend.currentDirectory backend) ∧
        Backend.setDefaultProject backend path = (some messages, inner) ∧
        message = String.intercalate ": " messages ∧ after = ⟨inner, [.defaultProject path]⟩
  /-- The session is there if neither is so. -/
  made_iff : (∃ s, create (Recorded.of backend) config = .ok s) ↔
    config.validate = .ok () ∧ TakesDefaultProject backend config
  /-- It is new, and the backend was told of the default project and then the extensions. -/
  made : ∀ s : Session (Recorded β), create (Recorded.of backend) config = .ok s → s.IsNew config ∧
    s.backend.log = defaultProjectCalls backend config ++ extensionCalls config

theorem madeOrRefused (backend : β) (config : Config) : MadeOrRefused backend config := by
  have hmaking := making_create backend config
  refine ⟨fun e after hother => ?_, fun path message after => ?_, ?_, fun s hs => ?_⟩
  · constructor
    · intro h
      rw [h] at hmaking
      cases hmaking with
      | invalid hinvalid => exact ⟨hinvalid, rfl⟩
      | refused => exact absurd rfl (hother _ _)
    · rintro ⟨hinvalid, rfl⟩
      exact create_of_not_valid _ hinvalid
  · constructor
    · intro h
      rw [h] at hmaking
      cases hmaking with
      | invalid hinvalid => exact absurd hinvalid (Config.validate_ne_defaultProject path message)
      | refused hvalid hdescriptor hpath hrefuses =>
        exact ⟨hvalid, _, _, _, hdescriptor, hpath, hrefuses, rfl, rfl⟩
    · rintro ⟨hvalid, descriptor, messages, inner, hdescriptor, hpath, hrefuses, rfl, rfl⟩
      obtain ⟨allowlist, hpos, -, hcreate⟩ := create_of_valid (Recorded.of backend) hvalid
      rw [hcreate, useDefaultProject_recorded hdescriptor hpath hrefuses]
      rfl
  · constructor
    · rintro ⟨s, hs⟩
      rw [hs] at hmaking
      cases hmaking with
      | made hvalid htakes => exact ⟨hvalid, htakes⟩
    · rintro ⟨hvalid, htakes⟩
      -- of the three ways to end, the other two need what was just denied
      generalize create (Recorded.of backend) config = result at hmaking
      cases hmaking with
      | invalid hinvalid => exact absurd (hvalid.symm.trans hinvalid) nofun
      | refused _ hdescriptor hpath hrefuses =>
        have htaken := htakes _ hdescriptor
        rw [← hpath, hrefuses] at htaken
        cases htaken
      | made => exact ⟨_, rfl⟩
  · rw [hs] at hmaking
    cases hmaking with
    | made _ _ hnew hlog => exact ⟨hnew, hlog⟩

/-! ## The backend itself -/

/-- The session with the backend itself, without the record. -/
def unrecorded (s : Session (Recorded β)) : Session β where
  backend := s.backend.inner
  config := s.config
  allowlist := s.allowlist
  openFiles := s.openFiles
  watches := s.watches
  used := s.used
  extensions := s.extensions

theorem unrecorded_updateExtensions (s : Session (Recorded β)) (requested : List String) :
    (s.updateExtensions requested).unrecorded = s.unrecorded.updateExtensions requested := by
  unfold updateExtensions
  dsimp only
  by_cases h : Text.orderedSet (s.config.extraExtensions ++ requested) = s.extensions
  · rw [if_pos h]
    exact (if_pos h).symm
  · rw [if_neg h]
    exact (if_neg h).symm

/-- What is made with a backend is what is made with its record, and likewise what fails. -/
theorem create_unrecorded (backend : β) (config : Config) :
    create backend config =
      match create (Recorded.of backend) config with
      | .error (e, after) => .error (e, after.inner)
      | .ok s => .ok s.unrecorded := by
  cases hvalid : config.validate with
  | error e =>
    rw [create_of_not_valid _ hvalid, create_of_not_valid _ hvalid]
    rfl
  | ok _ =>
    obtain ⟨allowlist, hpos, hcompile, hcreate⟩ := create_of_valid backend hvalid
    obtain ⟨allowlist', _, hcompile', hcreate'⟩ := create_of_valid (Recorded.of backend) hvalid
    -- the list is the same one, so the two differ only in what the backend is asked
    cases hcompile.symm.trans hcompile'
    rw [hcreate, hcreate']
    cases hdescriptor : config.defaultProject with
    | none =>
      rw [useDefaultProject_of_none _ hdescriptor, useDefaultProject_of_none _ hdescriptor]
      exact congrArg Except.ok
        (unrecorded_updateExtensions (blank (Recorded.of backend) config allowlist hpos) []).symm
    | some descriptor =>
      cases hset : Backend.setDefaultProject backend
          (descriptor.absolutize (Backend.currentDirectory backend)) with
      | mk failure inner =>
        rw [useDefaultProject_of_some hdescriptor rfl hset,
          useDefaultProject_recorded hdescriptor rfl hset]
        cases failure with
        | some messages => rfl
        | none =>
          exact congrArg Except.ok
            (unrecorded_updateExtensions (blank ⟨inner, _⟩ config allowlist hpos) []).symm

/--
**A session is made as a whole or not at all.** It fails as validation does and leaves the
backend alone, or it fails because the backend refuses the default project, which is then all
that was done to it, or it is there with nothing open, watched or counted. Validation looks at
the limits and the width of the patterns before their form. So for a configuration that was
read from a document only the backend can refuse.
-/
theorem session_made_or_refused (backend : β) (config : Config) :
    MadeOrRefused backend config ∧ config.ValidatedInOrder ∧
      (∀ source, Config.ofDocument source = .ok config → ∀ e after,
        create (Recorded.of backend) config = .error (e, after) →
          ∃ path message, e = .defaultProject path message) ∧
      create backend config =
        match create (Recorded.of backend) config with
        | .error (e, after) => .error (e, after.inner)
        | .ok s => .ok s.unrecorded := by
  refine ⟨madeOrRefused backend config, config.validatedInOrder, ?_,
    create_unrecorded backend config⟩
  intro source hsource e after h
  have hvalid := Config.validate_of_ofDocument hsource
  have hmaking := making_create backend config
  rw [h] at hmaking
  cases hmaking with
  | invalid hinvalid => exact absurd (hvalid.symm.trans hinvalid) nofun
  | refused => exact ⟨_, _, rfl⟩

end Session

end BackendSync
