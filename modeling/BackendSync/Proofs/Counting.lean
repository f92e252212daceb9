import BackendSync.Proofs.Creating
import BackendSync.Proofs.MatchSets
import BackendSync.Proofs.StepEffects

/-!
# Counting the files of the default project

A session counts in one set of its own, and each caller in as many sets as it likes. Which
set a request counts in is for the request to say; whether it counts at all is decided by
the file alone, and `granted?` is that decision. `counted_step` says what one step does to
one set, for every step and every set. The content of a set after a run, the cap, and that
no set ever interferes with another are read off it.
-/

namespace BackendSync

theorem OpenedFile.membership_eq_default_iff {o : OpenedFile} :
    o.membership = .default ↔ o.configFile = none := by
  unfold OpenedFile.membership OpenedFile.usesDefaultProject
  cases o.configFile <;> simp

/-- A membership that is granted is the one that the file was opened with. -/
theorem Facts.eq_of_classify {f : Facts} {full : Bool} {m : Membership}
    (h : f.classify full = .ok m) : m = f.opened.membership := by
  unfold Facts.classify at h
  dsimp only at h
  split at h
  · exact (Except.ok.inj h).symm
  · split at h
    · cases h
    · split at h
      · cases h
      · exact (Except.ok.inj h).symm

/--
With full type information required, a file has to be in a project or allowed in the
default project, and may not be both. Only the first of the two asks how it was opened.
-/
theorem Facts.classify_full_iff {f : Facts} :
    (∃ m, f.classify true = .ok m) ↔
      ¬(f.inProject = true ∧ f.allowed = true) ∧
        (f.opened.configFile = none → f.inProject = true ∨ f.allowed = true) := by
  obtain ⟨path, opened, inProject, allowed⟩ := f
  unfold Facts.classify
  rw [← OpenedFile.membership_eq_default_iff]
  dsimp only
  cases inProject with
  | true => cases allowed <;> simp
  | false =>
    cases allowed with
    | true => simp
    | false => by_cases hm : opened.membership = .default <;> simp [hm]

namespace Session

/-! ## What bringing a file up to date leaves alone -/

variable {s s' : Session Scripted}

/-- The parts of a session that have nothing to do with one file. -/
structure SameSettings (s s' : Session Scripted) : Prop where
  config : s'.config = s.config
  allowlist : s'.allowlist = s.allowlist
  used : s'.used = s.used
  directory : s'.backend.directory = s.backend.directory

theorem SameSettings.trans {s₁ s₂ s₃ : Session Scripted} (h : s₁.SameSettings s₂)
    (k : s₂.SameSettings s₃) : s₁.SameSettings s₃ :=
  ⟨k.config.trans h.config, k.allowlist.trans h.allowlist, k.used.trans h.used,
    k.directory.trans h.directory⟩

theorem sameSettings_updateExtensions (s : Session Scripted) (requested : List String) :
    s.SameSettings (s.updateExtensions requested) := by
  have hdirectory := s.directory_updateExtensions requested
  rw [updateExtensions_eq] at hdirectory ⊢
  exact ⟨rfl, rfl, rfl, hdirectory⟩

theorem sameSettings_openFile (s : Session Scripted) (path : Path) (code : String) (root : Path) :
    s.SameSettings (s.openFile path code root).2 := by
  rw [openFile_eq]
  exact ⟨rfl, rfl, rfl, Scripted.directory_performAll ..⟩

theorem sameSettings_bringUp {path : Path} {code : String} {root : Path} {allowed : Bool}
    {opened : OpenedFile} (h : s.bringUp path code root allowed = (.ok opened, s')) :
    s.SameSettings s' := by
  rcases s.bringUp_cases path code root allowed with
    ⟨e, live, _, _, heq⟩ | ⟨e, _, _, heq⟩ | ⟨_, _, heq⟩ | ⟨_, _, heq⟩
  all_goals
    rw [heq] at h
    cases h
  · exact ⟨rfl, rfl, rfl, Scripted.directory_performAll ..⟩
  · exact s.sameSettings_openFile path code root
  · have hannounced : s.SameSettings (s.announced path) :=
      ⟨rfl, rfl, rfl, Scripted.directory_performAll ..⟩
    exact hannounced.trans ((s.announced path).sameSettings_openFile path code root)

theorem sameSettings_bringUpFor {request : Request} {opened : OpenedFile}
    (h : s.bringUpFor request = (.ok opened, s')) : s.SameSettings s' :=
  (s.sameSettings_updateExtensions request.extensions).trans (sameSettings_bringUp h)

theorem sameSettings_resolveWith (s : Session Scripted) (request : Request) (full : Bool)
    (used : MatchSet) : s.SameSettings (s.resolveWith request full used).2.2 := by
  rcases h : s.bringUpFor request with ⟨e | opened, s'⟩
  · rw [resolveWith_of_error (congrArg Prod.fst h)]
    exact s.sameSettings_updateExtensions request.extensions
  · rw [resolveWith_of_ok h]
    exact sameSettings_bringUpFor h

/-! ## Requests that are granted -/

/-- What is known of the file of a request once it was brought up to date. -/
def factsFor (s : Session Scripted) (request : Request) (opened : OpenedFile)
    (s' : Session Scripted) : Facts :=
  ⟨s.absolute request.path, opened, (s'.backend.projectOf? (s.absolute request.path)).isSome,
    s.allows request⟩

/--
How the file of a request was opened, and its program, if its membership is granted and it
has a program.
-/
def granted? (s : Session Scripted) (request : Request) (full : Bool) :
    Option (OpenedFile × String) :=
  match s.bringUpFor request with
  | (.error _, _) => none
  | (.ok opened, s') =>
    match (s.factsFor request opened s').classify full with
    | .error _ => none
    | .ok _ => (s'.backend.program? (s.absolute request.path)).map fun program => (opened, program)

theorem granted?_eq_some_iff {request : Request} {full : Bool} {opened : OpenedFile}
    {program : String} :
    s.granted? request full = some (opened, program) ↔
      ∃ s', s.bringUpFor request = (.ok opened, s') ∧
        (∃ m, (s.factsFor request opened s').classify full = .ok m) ∧
        s'.backend.program? (s.absolute request.path) = some program := by
  unfold granted?
  rcases hbring : s.bringUpFor request with ⟨e | opened', s₁⟩
  · refine iff_of_false (fun h => by cases h) ?_
    rintro ⟨s', hs', _⟩
    cases hs'
  · dsimp only
    constructor
    · intro h
      cases hm : (s.factsFor request opened' s₁).classify full with
      | error e =>
        rw [hm] at h
        cases h
      | ok m =>
        rw [hm] at h
        obtain ⟨_, hprogram, heq⟩ := Option.map_eq_some_iff.mp h
        cases heq
        exact ⟨s₁, rfl, ⟨m, hm⟩, hprogram⟩
    · rintro ⟨s', hs', ⟨m, hm⟩, hprogram⟩
      cases hs'
      rw [hm, hprogram]
      rfl

/-- **A granted request counts if it has to, and is served unless its set is over the cap.** -/
theorem resolveWith_of_granted {request : Request} {full : Bool} {opened : OpenedFile}
    {program : String} (h : s.granted? request full = some (opened, program)) (used : MatchSet) :
    let recorded := recorded (s.absolute request.path) opened.membership used
    (s.resolveWith request full used).2.1 = recorded ∧
      (s.resolveWith request full used).1 =
        if s.config.maximumMatches < recorded.size then
          .error (recorded.overuse s.config.maximumMatches)
        else .ok (some ⟨s.absolute request.path, program, opened.configFile,
          opened.configFile.isNone⟩) := by
  intro recorded
  unfold granted? at h
  rcases hbring : s.bringUpFor request with ⟨e | opened', s'⟩
  · rw [hbring] at h
    cases h
  · have hconfig : s'.config = s.config := (sameSettings_bringUpFor hbring).config
    rw [hbring] at h
    dsimp only at h
    rw [resolveWith_of_ok hbring]
    dsimp only
    rcases s'.conclude_cases (s.absolute request.path) opened' (s.allows request) full used with
      ⟨e, hm, heq⟩ | ⟨m, hm, hp, heq⟩ | ⟨m, program', e, hm, hp, hcheck, heq⟩ |
      ⟨m, program', hm, hp, hcheck, heq⟩
    · have hdenied : (s.factsFor request opened' s').classify full = .error e := hm
      rw [hdenied] at h
      cases h
    · have hgranted : (s.factsFor request opened' s').classify full = .ok m := hm
      rw [hgranted, hp] at h
      cases h
    all_goals
      have hgranted : (s.factsFor request opened' s').classify full = .ok m := hm
      have hmembership : m = opened'.membership := Facts.eq_of_classify hgranted
      rw [hgranted, hp] at h
      cases h
      rw [MatchSet.check_eq, hconfig, hmembership] at hcheck
      rw [heq, hmembership]
    · -- the check failed, so the set is over the cap
      by_cases hover : s.config.maximumMatches < recorded.size
      · rw [if_pos hover] at hcheck
        rw [if_pos hover]
        exact ⟨rfl, congrArg Except.error (Except.error.inj hcheck).symm⟩
      · rw [if_neg hover] at hcheck
        cases hcheck
    · by_cases hover : s.config.maximumMatches < recorded.size
      · rw [if_pos hover] at hcheck
        cases hcheck
      · have hdefault : decide (opened.membership = .default) = opened.configFile.isNone := by
          rw [Bool.eq_iff_iff, decide_eq_true_iff, Option.isNone_iff_eq_none]
          exact OpenedFile.membership_eq_default_iff
        rw [if_neg hover, hdefault]
        exact ⟨rfl, rfl⟩

/-- **Any other request counts nowhere, and is neither served nor over a cap.** -/
theorem resolveWith_of_not_granted {request : Request} {full : Bool}
    (h : s.granted? request full = none) (used : MatchSet) :
    (s.resolveWith request full used).2.1 = used ∧
      (∀ r, (s.resolveWith request full used).1 ≠ .ok (some r)) ∧
      ∀ max files remaining, (s.resolveWith request full used).1 ≠
        .error (.tooManyDefaultProjectFiles max files remaining) := by
  unfold granted? at h
  rcases hbring : s.bringUpFor request with ⟨e | opened, s'⟩
  · have herror := congrArg Prod.fst hbring
    rw [resolveWith_of_error herror, orphaned_of_bringUp_error herror]
    refine ⟨rfl, fun r hr => ?_, fun max files remaining he => ?_⟩
    · cases hr
    · cases he
  · rw [hbring] at h
    dsimp only at h
    rw [resolveWith_of_ok hbring]
    dsimp only
    rcases s'.conclude_cases (s.absolute request.path) opened (s.allows request) full used with
      ⟨e, hm, heq⟩ | ⟨m, hm, hp, heq⟩ | ⟨m, program, e, hm, hp, hcheck, heq⟩ |
      ⟨m, program, hm, hp, hcheck, heq⟩
    · rw [heq]
      refine ⟨rfl, fun r hr => ?_, fun max files remaining he => ?_⟩
      · cases hr
      · cases he
        rcases Facts.classify_error hm with hq | hq <;> cases hq
    · rw [heq]
      refine ⟨rfl, fun r hr => ?_, fun max files remaining he => ?_⟩
      · cases hr
      · cases he
    all_goals
      have hgranted : (s.factsFor request opened s').classify full = .ok m := hm
      rw [hgranted, hp] at h
      cases h

end Session

/-! ## One set and one step -/

/-- Is a step about the match set of a key? The session's own set has no key. -/
def Step.concerns (key : Option String) : Step → Prop
  | .resolve _ _ run => run = key
  | .addToRun run _ => some run = key
  | .clearUsed => key = none
  | _ => False

/-- Does a step begin a new run in the match set of a key? -/
def Step.clears (key : Option String) : Step → Bool
  | .clearUsed => key.isNone
  | _ => false

namespace World

/--
The paths that a step puts into the match set of a key: the file of a request that counts
there, is granted, and was opened in no project, or what a caller puts into its own set.
-/
def enters (w : World) (key : Option String) : Step → List Path
  | .resolve request full run =>
    match w.session.granted? request full with
    | some (opened, _) =>
      if run = key ∧ opened.configFile = none then [w.session.absolute request.path] else []
    | none => []
  | .addToRun run paths => if some run = key then paths else []
  | _ => []

/-- What was put into a match set since it was cleared, the earliest first. -/
def entered (w : World) (key : Option String) (before : List Path) : List Step → List Path
  | [] => before
  | st :: rest =>
    (w.step st).2.entered key (if st.clears key then [] else before ++ w.enters key st) rest

theorem files_insertAll (used : MatchSet) (paths : List Path) :
    (insertAll used paths).2.files = paths.foldl PathSet.insert used.files := by
  induction paths generalizing used with
  | nil => rfl
  | cons p rest ih => exact ih (used.insert p).2

theorem counted_resolve (w : World) (request : Request) (full : Bool) (key : Option String) :
    (w.step (.resolve request full key)).2.counted key =
      (w.session.resolveWith request full (w.counted key)).2.1 := by
  cases key with
  | none => rfl
  | some run =>
    rw [step_resolve_run, counted, Option.map_some, Option.getD_some, runOf, setRun]
    dsimp only
    rw [if_pos rfl]
    rfl

/-- A request that counts in one set leaves the others alone. -/
theorem counted_resolve_of_ne {run key : Option String} (hne : run ≠ key) (w : World)
    (request : Request) (full : Bool) :
    (w.step (.resolve request full run)).2.counted key = w.counted key := by
  cases run with
  | none =>
    cases key with
    | none => exact absurd rfl hne
    | some other => rfl
  | some name =>
    rw [step_resolve_run]
    cases key with
    | none => exact (w.session.sameSettings_resolveWith request full _).used
    | some other =>
      have hother : other ≠ name := fun h => hne (by rw [h])
      rw [counted, Option.map_some, Option.getD_some, runOf, setRun]
      dsimp only
      rw [if_neg hother]
      rfl

theorem counted_addToRun (w : World) (run : String) (paths : List Path) (key : Option String) :
    ((w.step (.addToRun run paths)).2.counted key).files =
      (w.enters key (.addToRun run paths)).foldl PathSet.insert (w.counted key).files := by
  have hstep : (w.step (.addToRun run paths)).2 = w.setRun run (insertAll (w.runOf run) paths).2 :=
    rfl
  rw [hstep, enters]
  by_cases h : some run = key
  · rw [if_pos h, ← h, counted, Option.map_some, Option.getD_some, runOf, setRun]
    dsimp only
    rw [if_pos rfl, Option.getD_some, files_insertAll]
    rfl
  · rw [if_neg h, List.foldl_nil]
    cases key with
    | none => rfl
    | some other =>
      have hother : other ≠ run := fun heq => h (by rw [heq])
      rw [counted, Option.map_some, Option.getD_some, runOf, setRun]
      dsimp only
      rw [if_neg hother]
      rfl

/-- A step that leaves the session's own set and the callers' sets alone. -/
theorem counted_of_same {w w' : World} (hused : w'.session.used = w.session.used)
    (hruns : w'.runs = w.runs) (key : Option String) : w'.counted key = w.counted key := by
  cases key with
  | none => exact hused
  | some run =>
    show (w'.runs run).getD .empty = (w.runs run).getD .empty
    rw [hruns]

theorem counted_resolve_eq (w : World) (request : Request) (full : Bool) (run key : Option String) :
    ((w.step (.resolve request full run)).2.counted key).files =
      (w.enters key (.resolve request full run)).foldl PathSet.insert (w.counted key).files := by
  rw [enters]
  by_cases hrun : run = key
  · rw [hrun, counted_resolve]
    cases hgranted : w.session.granted? request full with
    | none => rw [(Session.resolveWith_of_not_granted hgranted _).1, List.foldl_nil]
    | some result =>
      obtain ⟨opened, program⟩ := result
      rw [(Session.resolveWith_of_granted hgranted _).1, Session.recorded]
      by_cases hconfig : opened.configFile = none
      · rw [if_pos (OpenedFile.membership_eq_default_iff.mpr hconfig)]
        dsimp only
        rw [if_pos ⟨rfl, hconfig⟩]
        rfl
      · rw [if_neg (mt OpenedFile.membership_eq_default_iff.mp hconfig)]
        dsimp only
        rw [if_neg fun h => hconfig h.2]
        rfl
  · rw [counted_resolve_of_ne hrun]
    split
    · rw [if_neg fun h => hrun h.1, List.foldl_nil]
    · rw [List.foldl_nil]

/-- **What one step does to one match set.** -/
theorem counted_step (w : World) (st : Step) (key : Option String) :
    ((w.step st).2.counted key).files =
      if st.clears key then ∅ else (w.enters key st).foldl PathSet.insert (w.counted key).files := by
  cases st with
  | resolve request full run => exact w.counted_resolve_eq request full run key
  | addToRun run paths => exact w.counted_addToRun run paths key
  | clearUsed => cases key <;> rfl
  | watch path kind =>
    show ((w.step (.watch path kind)).2.counted key).files = (w.counted key).files
    rw [step_watch, Session.watch_eq]
    exact congrArg _ (counted_of_same rfl rfl key)
  | closeWatch i =>
    show ((w.step (.closeWatch i)).2.counted key).files = (w.counted key).files
    rw [step_closeWatch]
    cases w.handles[i]? with
    | none => rfl
    | some handle =>
      refine congrArg _ (counted_of_same ?_ rfl key)
      show (w.session.closeWatch handle).2.used = w.session.used
      rw [Session.closeWatch]
  | _ => exact congrArg _ (counted_of_same rfl rfl key)

theorem size_le_foldl_insert (s : PathSet) (paths : List Path) :
    s.size ≤ (paths.foldl PathSet.insert s).size := by
  induction paths generalizing s with
  | nil => exact Nat.le_refl _
  | cons p rest ih =>
    have hinsert : s.size ≤ (s.insert p).size := by
      rw [PathSet.size, PathSet.size, PathSet.toList_insert]
      split
      · exact Nat.le_refl _
      · rw [List.length_append]
        omega
    exact Nat.le_trans hinsert (ih (s.insert p))

/-- A set that is not cleared does not shrink. -/
theorem size_counted_le_step {w : World} {st : Step} {key : Option String}
    (h : st.clears key = false) : (w.counted key).size ≤ ((w.step st).2.counted key).size := by
  rw [MatchSet.size, MatchSet.size, counted_step, h]
  exact size_le_foldl_insert _ _

theorem counted_of_not_concerns {st : Step} {key : Option String} (h : ¬st.concerns key)
    (w : World) : (w.step st).2.counted key = w.counted key := by
  have hclears : st.clears key = false := by
    cases st with
    | clearUsed =>
      cases key with
      | none => exact absurd rfl h
      | some run => rfl
    | _ => rfl
  have henters : w.enters key st = [] := by
    cases st with
    | resolve request full run =>
      rw [enters]
      split
      · exact if_neg fun hkey => h hkey.1
      · rfl
    | addToRun run paths => exact if_neg h
    | _ => rfl
  have hfiles := w.counted_step st key
  rw [hclears, henters] at hfiles
  exact congrArg MatchSet.mk hfiles

/-! ## Runs -/

theorem size_counted_le_run {w : World} {key : Option String} {steps : List Step}
    (h : ∀ st ∈ steps, st.clears key = false) :
    (w.counted key).size ≤ ((w.run steps).counted key).size := by
  induction steps generalizing w with
  | nil => exact Nat.le_refl _
  | cons st rest ih =>
    have hstep := size_counted_le_step (w := w) (h st List.mem_cons_self)
    exact Nat.le_trans hstep (ih fun x hx => h x (List.mem_cons_of_mem st hx))

theorem toList_counted_run {w : World} {key : Option String} {before : List Path}
    (h : (w.counted key).files.toList = firstSpellings before) (steps : List Step) :
    ((w.run steps).counted key).files.toList = firstSpellings (w.entered key before steps) := by
  induction steps generalizing w before with
  | nil => exact h
  | cons st rest ih =>
    refine ih (w := (w.step st).2) ?_
    rw [counted_step]
    cases st.clears key with
    | true => rfl
    | false => exact PathSet.toList_foldl_insert h _

/-- No step changes the configuration, the allow-list or the directory of relative paths. -/
theorem settings_step (w : World) (st : Step) :
    (w.step st).2.session.config = w.session.config ∧
      (w.step st).2.session.allowlist = w.session.allowlist ∧
      (w.step st).2.session.backend.directory = w.session.backend.directory := by
  cases st with
  | resolve request full run =>
    obtain ⟨used, hsession⟩ := w.session_resolve request full run
    have hsame := w.session.sameSettings_resolveWith request full (w.counted run)
    rw [hsession]
    exact ⟨hsame.config, hsame.allowlist, hsame.directory⟩
  | closeFile path =>
    have hclosed := w.session.closeFile_eq path
    refine ⟨rfl, rfl, ?_⟩
    exact (congrArg (·.2.backend.directory) hclosed).trans (Scripted.directory_performAll ..)
  | closeAll =>
    have hclosed := w.session.closeAll_eq
    refine ⟨rfl, rfl, ?_⟩
    exact (congrArg (·.backend.directory) hclosed).trans (Scripted.directory_performAll ..)
  | watch path kind =>
    rw [session_step_watch]
    exact ⟨rfl, rfl, rfl⟩
  | closeWatch i =>
    rw [step_closeWatch]
    cases w.handles[i]? <;> exact ⟨rfl, rfl, rfl⟩
  | change c => exact ⟨rfl, rfl, Scripted.directory_change ..⟩
  | _ => exact ⟨rfl, rfl, rfl⟩

theorem config_step (w : World) (st : Step) :
    (w.step st).2.session.config = w.session.config := (w.settings_step st).1

theorem config_run (w : World) (steps : List Step) :
    (w.run steps).session.config = w.session.config := by
  induction steps generalizing w with
  | nil => rfl
  | cons st rest ih => exact (ih (w.step st).2).trans (w.config_step st)

/-! ## The cap -/

/-- What a match set means for the requests that count in it, and what changes it. -/
structure Capped (max : Nat) (w : World) (key : Option String) : Prop where
  /-- A granted request fails if its set is over the cap then, and is served otherwise. -/
  granted : ∀ request full opened program,
    w.session.granted? request full = some (opened, program) →
    let after := (w.step (.resolve request full key)).2.counted key
    (w.step (.resolve request full key)).1 = .resolved
      (if max < after.size then .error (after.overuse max)
      else .ok (some ⟨w.session.absolute request.path, program, opened.configFile,
        opened.configFile.isNone⟩))
  /-- Nothing else is served, and nothing else is over the cap. -/
  others : ∀ request full, w.session.granted? request full = none →
    (∀ r, (w.step (.resolve request full key)).1 ≠ .resolved (.ok (some r))) ∧
    ∀ m files remaining, (w.step (.resolve request full key)).1 ≠
      .resolved (.error (.tooManyDefaultProjectFiles m files remaining))
  /-- Over the cap nothing at all is served until the set is cleared. -/
  exceeded : max < (w.counted key).size → ∀ later, (∀ st ∈ later, st.clears key = false) →
    ∀ request full r, ((w.run later).step (.resolve request full key)).1 ≠
      .resolved (.ok (some r))
  /-- Steps that are about something else leave the set as it is. -/
  kept : ∀ st, ¬st.concerns key → (w.step st).2.counted key = w.counted key

theorem reply_of_granted {w : World} {request : Request} {full : Bool} {opened : OpenedFile}
    {program : String} (h : w.session.granted? request full = some (opened, program))
    (key : Option String) :
    let after := (w.step (.resolve request full key)).2.counted key
    (w.step (.resolve request full key)).1 = .resolved
      (if w.session.config.maximumMatches < after.size then
        .error (after.overuse w.session.config.maximumMatches)
      else .ok (some ⟨w.session.absolute request.path, program, opened.configFile,
        opened.configFile.isNone⟩)) := by
  obtain ⟨hset, hreply⟩ := Session.resolveWith_of_granted h (w.counted key)
  intro after
  have hafter : after = (w.session.resolveWith request full (w.counted key)).2.1 :=
    w.counted_resolve request full key
  rw [reply_resolve, hreply, hafter, hset]

/-- **A request is served just if it is granted and its set is not over the cap then.** -/
theorem served_iff {w : World} {request : Request} {full : Bool} {key : Option String}
    {r : Resolved String} :
    (w.step (.resolve request full key)).1 = .resolved (.ok (some r)) ↔
      ∃ opened program, w.session.granted? request full = some (opened, program) ∧
        ((w.step (.resolve request full key)).2.counted key).size ≤
          w.session.config.maximumMatches ∧
        r = ⟨w.session.absolute request.path, program, opened.configFile,
          opened.configFile.isNone⟩ := by
  cases hgranted : w.session.granted? request full with
  | none =>
    obtain ⟨_, hserved, _⟩ := Session.resolveWith_of_not_granted hgranted (w.counted key)
    rw [reply_resolve]
    refine iff_of_false (fun h => hserved r (Reply.resolved.inj h)) ?_
    rintro ⟨opened, program, hnone, _⟩
    cases hnone
  | some result =>
    obtain ⟨opened, program⟩ := result
    have hreply := reply_of_granted hgranted key
    dsimp only at hreply
    rw [hreply]
    by_cases hover : w.session.config.maximumMatches <
        ((w.step (.resolve request full key)).2.counted key).size
    · rw [if_pos hover]
      refine iff_of_false (fun h => by cases h) ?_
      rintro ⟨_, _, _, hle, _⟩
      omega
    · rw [if_neg hover]
      constructor
      · intro h
        cases h
        exact ⟨opened, program, rfl, Nat.le_of_not_lt hover, rfl⟩
      · rintro ⟨opened', program', hsame, _, heq⟩
        cases hsame
        rw [heq]

theorem capped (w : World) (key : Option String) :
    w.Capped w.session.config.maximumMatches key := by
  refine ⟨fun request full opened program h => reply_of_granted h key, ?_, ?_,
    fun st h => counted_of_not_concerns h w⟩
  · intro request full h
    obtain ⟨_, hserved, hover⟩ := Session.resolveWith_of_not_granted h (w.counted key)
    rw [reply_resolve]
    refine ⟨fun r hr => hserved r (Reply.resolved.inj hr), fun m files remaining he => ?_⟩
    exact hover m files remaining (Reply.resolved.inj he)
  · intro hover later hlater request full r hr
    obtain ⟨_, _, _, hle, _⟩ := served_iff.mp hr
    -- the set has only grown since
    have hrun : (w.counted key).size ≤ ((w.run later).counted key).size :=
      size_counted_le_run hlater
    have hstep : ((w.run later).counted key).size ≤
        (((w.run later).step (.resolve request full key)).2.counted key).size :=
      size_counted_le_step rfl
    rw [config_run] at hle
    omega

theorem created {backend : Scripted} {config : Config} {w : World}
    (h : create backend config = .ok w) :
    w.session.used = .empty ∧ w.session.config = config ∧ w.runs = fun _ => none := by
  obtain ⟨allowlist, hpos, hsession⟩ := Session.begun_of_create (session_of_create h)
  have hsame := (Session.begun backend config allowlist hpos).sameSettings_updateExtensions []
  refine ⟨?_, ?_, ?_⟩
  · rw [hsession]
    exact hsame.used
  · rw [hsession]
    exact hsame.config
  · rw [(eq_of_create h).2]

/--
**The cap on the files of the default project.** Whatever steps a world went through, each
match set lists the files that entered it since it was cleared, in their order and first
spellings. These are the files of the requests that counted in it, were granted and opened
in no project, and what a caller put into its own set. The set's size alone decides
whether a granted request is served, and no step about something else changes it.
-/
theorem match_sets_over_run (w : World) (steps : List Step) (key : Option String) :
    ((w.run steps).counted key).files.toList =
        firstSpellings (w.entered key (w.counted key).files.toList steps) ∧
      (w.run steps).Capped w.session.config.maximumMatches key ∧
      ∀ backend config, create backend config = .ok w →
        (w.counted key).files.toList = [] ∧ w.session.config = config := by
  refine ⟨?_, ?_, fun backend config h => ?_⟩
  · exact toList_counted_run (w.counted key).toList_eq_firstSpellings steps
  · rw [← w.config_run steps]
    exact (w.run steps).capped key
  · obtain ⟨hused, hconfig, hruns⟩ := created h
    refine ⟨?_, hconfig⟩
    cases key with
    | none =>
      show w.session.used.files.toList = []
      rw [hused]
      rfl
    | some run =>
      show ((w.runs run).getD .empty).files.toList = []
      rw [hruns]
      rfl

end World

end BackendSync
