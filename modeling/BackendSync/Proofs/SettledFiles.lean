import BackendSync.Proofs.Repeating

/-!
# Requests for settled files

Requests for different files get in each other's way at four places only: a file that is
opened may push another one out of the cache, a file that is announced may enter a project,
the match set may go over the cap, and watches are registered in the order in which the
backend asks for them.

A file that is open or in a project is `Settled`, and is not announced. If there is room for
it besides, then `resolve_of_settled` says what a request for it makes of the session and how
it is answered: apart from the cap and the watches, that is a matter of this file alone.
-/

namespace BackendSync

namespace Cache

variable {α : Type u} {c : Cache α} {p : Path}

/-- The spelling that a path has in the cache, or would have. -/
def spelling (c : Cache α) (p : Path) : Path := ((c.entry? p).map (·.1)).getD p

theorem spelling_equiv (c : Cache α) (p : Path) : c.spelling p ≈ p := by
  unfold spelling
  cases h : c.entry? p with
  | none => exact Setoid.refl p
  | some e => exact LruMap.equiv_of_present h

/-- With room in the cache nothing leaves on an insertion. -/
theorem insert_of_room (h : c.entry? p = none → c.size < c.capacity) (value : α) :
    (c.insert p value).1 = none ∧
      (c.insert p value).2.entries = (c.spelling p, value) :: c.others p := by
  unfold spelling
  cases hp : c.entry? p with
  | some e =>
    rw [insert_of_present hp]
    exact ⟨rfl, rfl⟩
  | none =>
    rcases insert_of_absent hp value with ⟨_, hnone, hentries⟩ | ⟨_, _, hfull, _⟩
    · rw [hnone, hentries, LruMap.others_of_absent hp]
      exact ⟨rfl, rfl⟩
    · exact absurd (h hp) (hfull ▸ Nat.lt_irrefl _)

end Cache

namespace Session

variable {s t : Session Scripted} {path : Path} {request : Request}

/-! ## One file -/

/-- The parts of a session that requests for files read and do not write. -/
structure SameScript (s t : Session Scripted) : Prop where
  config : t.config = s.config
  allowlist : t.allowlist = s.allowlist
  capacity : t.openFiles.capacity = s.openFiles.capacity
  directory : t.backend.directory = s.backend.directory
  projects : t.backend.projects = s.backend.projects
  openConfig : t.backend.openConfig = s.backend.openConfig
  withoutProgram : t.backend.withoutProgram = s.backend.withoutProgram
  watchesOnOpen : t.backend.watchesOnOpen = s.backend.watchesOnOpen

theorem SameScript.refl (s : Session Scripted) : s.SameScript s :=
  ⟨rfl, rfl, rfl, rfl, rfl, rfl, rfl, rfl⟩

theorem SameScript.trans {s₁ s₂ s₃ : Session Scripted} (h : s₁.SameScript s₂)
    (k : s₂.SameScript s₃) : s₁.SameScript s₃ :=
  ⟨k.config.trans h.config, k.allowlist.trans h.allowlist, k.capacity.trans h.capacity,
    k.directory.trans h.directory, k.projects.trans h.projects, k.openConfig.trans h.openConfig,
    k.withoutProgram.trans h.withoutProgram, k.watchesOnOpen.trans h.watchesOnOpen⟩

theorem SameScript.projectOf? (h : s.SameScript t) (p : Path) :
    t.backend.projectOf? p = s.backend.projectOf? p := by
  rw [Scripted.projectOf?, h.projects, Scripted.projectOf?]

theorem SameScript.report (h : s.SameScript t) (p : Path) :
    t.backend.report p = s.backend.report p := by
  rw [Scripted.report, h.projectOf?, h.openConfig, Scripted.report]

/-- Has the file to be opened, for the first time or again? -/
def needsOpening (s : Session Scripted) (p : Path) : Bool :=
  (s.openFiles.entry? p).isNone || (s.backend.buffers.get? p).isNone

/-- How the file is open once it is brought up to date, if it need not be announced. -/
def openAs (s : Session Scripted) (p : Path) : OpenedFile :=
  match s.openFiles.entry? p, s.backend.buffers.get? p with
  | some e, some _ => e.2
  | _, _ => s.backend.report p

/-- The watches and the waiting requests for watches after one more opening. -/
def registerOne (s : Session Scripted) (w : Watch.Registry × List WatchRequest) :
    Watch.Registry × List WatchRequest :=
  ((w.2 ++ s.backend.watchesOnOpen).foldl (registerRequest s.backend.directory) w.1, [])

/-- A file that is open, or that a project has, is not announced. -/
def Settled (s : Session Scripted) (p : Path) : Prop :=
  s.openFiles.contains p = true ∨ (s.backend.projectOf? p).isSome = true

instance (s : Session Scripted) (p : Path) : Decidable (s.Settled p) :=
  inferInstanceAs (Decidable (_ ∨ _))

/-- The file can be open without another one leaving. -/
def HasRoom (s : Session Scripted) (p : Path) : Prop :=
  s.openFiles.entry? p = none → s.openFiles.size < s.openFiles.capacity

/-- What bringing a settled file up to date makes of a session, if there is room. -/
structure Brought (s : Session Scripted) (path : Path) (code : String) (t : Session Scripted) :
    Prop where
  script : s.SameScript t
  texts : t.backend.buffers = s.backend.buffers.insert path code
  entries : t.openFiles.entries = (s.openFiles.spelling path, s.openAs path) :: s.openFiles.others path
  watches : (t.watches, t.backend.queue) =
    if s.needsOpening path then s.registerOne (s.watches, s.backend.queue)
    else (s.watches, s.backend.queue)

theorem brought_openFile (hroom : s.HasRoom path) (hopen : s.needsOpening path = true)
    (code : String) (root : Path) :
    (s.openFile path code root).1 = s.openAs path ∧
      s.Brought path code (s.openFile path code root).2 := by
  obtain ⟨hnone, hentries⟩ := Cache.insert_of_room hroom (s.backend.report path)
  have hopening : s.opening path code root = [.opened path code root] := by
    rw [opening, hnone]
    rfl
  have has : s.openAs path = s.backend.report path := by
    unfold openAs
    unfold needsOpening at hopen
    cases hcached : s.openFiles.entry? path with
    | none => rfl
    | some e =>
      cases halive : s.backend.buffers.get? path with
      | none => rfl
      | some live =>
        rw [hcached, halive] at hopen
        cases hopen
  rw [openFile_eq, hopening, has]
  refine ⟨rfl, ⟨rfl, rfl, Cache.capacity_insert .., rfl, rfl, rfl, rfl, rfl⟩, rfl, ?_, ?_⟩
  · rw [has]
    exact hentries
  · rw [if_pos hopen]
    rfl

/-- **A settled file is brought up to date without a look at any other file.** -/
theorem bringUp_of_settled (hsettled : s.Settled path) (hroom : s.HasRoom path) (code : String)
    (root : Path) (allowed : Bool) :
    ∃ t, s.bringUp path code root allowed = (.ok (s.openAs path), t) ∧ s.Brought path code t := by
  cases hcached : s.openFiles.entry? path with
  | some e =>
    cases halive : s.backend.buffers.get? path with
    | some live =>
      have has : s.openAs path = e.2 := by
        rw [openAs, hcached, halive]
      have hopen : s.needsOpening path = false := by
        rw [needsOpening, hcached, halive]
        rfl
      rw [bringUp_of_alive hcached halive, has,
        Scripted.performAll_edited s.backend halive (replay?_editsFor s.config live code)]
      refine ⟨_, rfl, ⟨rfl, rfl, rfl, rfl, rfl, rfl, rfl, rfl⟩, rfl, ?_, ?_⟩
      · rw [has, Cache.spelling, hcached]
        rfl
      · rw [hopen, if_neg Bool.false_ne_true]
    | none =>
      have hopen : s.needsOpening path = true := by
        rw [needsOpening, hcached, halive]
        rfl
      obtain ⟨has, hbrought⟩ := brought_openFile hroom hopen code root
      rw [bringUp_of_gone hcached halive, ← has]
      exact ⟨_, rfl, hbrought⟩
  | none =>
    have hin : (s.backend.projectOf? path).isSome = true := by
      refine hsettled.resolve_left fun hcontains => ?_
      rw [LruMap.contains_eq_false_iff.mpr hcached] at hcontains
      cases hcontains
    have hadmitted : ¬s.Refuses path allowed := by
      intro hrefuses
      rw [hrefuses.unclaimed] at hin
      cases hin
    have hannounced : s.announced path = s := by
      rw [announced, notices, if_pos hin]
      rfl
    have hopen : s.needsOpening path = true := by
      rw [needsOpening, hcached]
      rfl
    obtain ⟨has, hbrought⟩ := brought_openFile hroom hopen code root
    rw [bringUp_of_admitted hcached hadmitted, hannounced, ← has]
    exact ⟨_, rfl, hbrought⟩

theorem openAs_updateExtensions (s : Session Scripted) (requested : List String) (p : Path) :
    (s.updateExtensions requested).openAs p = s.openAs p := by
  rw [openAs, openFiles_updateExtensions, backend_updateExtensions, openAs]
  rfl

/-- Sending extensions writes to the log and to nothing that a request reads. -/
theorem brought_of_updateExtensions {requested : List String} {code : String}
    (h : (s.updateExtensions requested).Brought path code t) : s.Brought path code t := by
  have hbackend := s.backend_updateExtensions requested
  have hscript : s.SameScript (s.updateExtensions requested) := by
    refine ⟨s.config_updateExtensions requested, s.allowlist_updateExtensions requested, ?_, ?_, ?_,
      ?_, ?_, ?_⟩
    · rw [openFiles_updateExtensions]
    all_goals rw [hbackend]
  have hopen : (s.updateExtensions requested).needsOpening path = s.needsOpening path := by
    rw [needsOpening, openFiles_updateExtensions, hbackend, needsOpening]
  refine ⟨hscript.trans h.script, h.texts.trans ?_, h.entries.trans ?_, h.watches.trans ?_⟩
  · rw [hbackend]
  · rw [openFiles_updateExtensions, openAs_updateExtensions]
  · rw [hopen, registerOne, registerOne, hscript.watchesOnOpen, hscript.directory,
      watches_updateExtensions, hbackend]

theorem bringUpFor_of_settled (hsettled : s.Settled (s.absolute request.path))
    (hroom : s.HasRoom (s.absolute request.path)) :
    ∃ t, s.bringUpFor request = (.ok (s.openAs (s.absolute request.path)), t) ∧
      s.Brought (s.absolute request.path) request.code t ∧
      t.extensions = Text.orderedSet (s.config.extraExtensions ++ request.extensions) := by
  have hbackend := s.backend_updateExtensions request.extensions
  have hproject : (s.updateExtensions request.extensions).backend.projectOf?
      (s.absolute request.path) = s.backend.projectOf? (s.absolute request.path) := by
    rw [hbackend]
    rfl
  have hsettled' : (s.updateExtensions request.extensions).Settled (s.absolute request.path) := by
    rw [Settled, openFiles_updateExtensions, hproject]
    exact hsettled
  have hroom' : (s.updateExtensions request.extensions).HasRoom (s.absolute request.path) := by
    rw [HasRoom, openFiles_updateExtensions]
    exact hroom
  obtain ⟨t, hbring, hbrought⟩ := bringUp_of_settled hsettled' hroom' request.code
    (s.rootOf request) (s.allows request)
  have hextensions := (front_bringUp hbring).1
  rw [openAs_updateExtensions] at hbring
  refine ⟨t, hbring, brought_of_updateExtensions hbrought, hextensions.trans ?_⟩
  rw [updateExtensions_eq]

/-! ## One answer -/

/--
The answer to a request for a settled file, as far as it does not depend on the cap. The
text that the request brings is the text of the program.
-/
def answer (s : Session Scripted) (request : Request) (full : Bool) : Outcome String :=
  (Facts.classify ⟨s.absolute request.path, s.openAs (s.absolute request.path),
    (s.backend.projectOf? (s.absolute request.path)).isSome, s.allows request⟩ full).map fun m =>
      if s.absolute request.path ∈ s.backend.withoutProgram then none
      else some ⟨s.absolute request.path, request.code,
        (s.openAs (s.absolute request.path)).configFile, decide (m = .default)⟩

/-- Does an answer count in the match set? -/
def counts : Outcome String → Bool
  | .ok (some r) => r.usedDefaultProject
  | _ => false

/-- The match set after an answer. -/
def countedIn (path : Path) (outcome : Outcome String) (used : MatchSet) : MatchSet :=
  if counts outcome then (used.insert path).2 else used

theorem countedIn_served (path : Path) (program : String) (configFile : Option Path)
    (m : Membership) (used : MatchSet) :
    countedIn path (.ok (some ⟨path, program, configFile, decide (m = .default)⟩)) used =
      recorded path m used := by
  cases m with
  | configured => rfl
  | default => rfl

theorem conclude_of_brought (h : s.Brought (s.absolute request.path) request.code t) (full : Bool)
    (used : MatchSet) :
    let result := t.conclude (s.absolute request.path) (s.openAs (s.absolute request.path))
      (s.allows request) full used
    result.2 = countedIn (s.absolute request.path) (s.answer request full) used ∧
      (result.2.size ≤ s.config.maximumMatches → result.1 = s.answer request full) := by
  intro result
  have hproject := h.script.projectOf? (s.absolute request.path)
  have hprogram : t.backend.program? (s.absolute request.path) =
      if s.absolute request.path ∈ s.backend.withoutProgram then none else some request.code := by
    rw [Scripted.program?, h.script.withoutProgram, h.texts, PathMap.get?_insert_self]
  have hanswer : ∀ m, Facts.classify ⟨s.absolute request.path, s.openAs (s.absolute request.path),
      (s.backend.projectOf? (s.absolute request.path)).isSome, s.allows request⟩ full = .ok m →
      s.answer request full = .ok ((t.backend.program? (s.absolute request.path)).map fun program =>
        ⟨s.absolute request.path, program, (s.openAs (s.absolute request.path)).configFile,
          decide (m = .default)⟩) := by
    intro m hm
    rw [answer, hm, hprogram]
    split
    · rfl
    · rfl
  rcases t.conclude_cases (s.absolute request.path) (s.openAs (s.absolute request.path))
      (s.allows request) full used with
    ⟨e, hm, heq⟩ | ⟨m, hm, hp, heq⟩ | ⟨m, program, e, hm, hp, hcheck, heq⟩ |
    ⟨m, program, hm, hp, hcheck, heq⟩
  all_goals
    rw [hproject] at hm
    have hresult : result = _ := heq
    rw [hresult]
  · have hdenied : s.answer request full = .error e := by
      rw [answer, hm]
      rfl
    rw [hdenied]
    exact ⟨rfl, fun _ => rfl⟩
  all_goals rw [hanswer m hm, hp]
  · exact ⟨rfl, fun _ => rfl⟩
  · refine ⟨(countedIn_served ..).symm, fun hle => ?_⟩
    rw [MatchSet.check, h.script.config, if_pos hle] at hcheck
    cases hcheck
  · exact ⟨(countedIn_served ..).symm, fun _ => rfl⟩

/-- **A request for a settled file, if there is room, is a matter of that file alone.** -/
theorem resolve_of_settled (hsettled : s.Settled (s.absolute request.path))
    (hroom : s.HasRoom (s.absolute request.path)) (full : Bool) :
    let result := s.resolve request full
    s.Brought (s.absolute request.path) request.code result.2 ∧
      result.2.extensions = Text.orderedSet (s.config.extraExtensions ++ request.extensions) ∧
      result.2.used = countedIn (s.absolute request.path) (s.answer request full) s.used ∧
      (result.2.used.size ≤ s.config.maximumMatches → result.1 = s.answer request full) := by
  intro result
  obtain ⟨t, hbring, hbrought, hextensions⟩ := bringUpFor_of_settled hsettled hroom
  obtain ⟨hused, hanswer⟩ := conclude_of_brought hbrought full s.used
  have hresult : result = (s.resolve request full) := rfl
  rw [resolve, resolveWith_of_ok hbring] at hresult
  rw [hresult]
  refine ⟨⟨?_, hbrought.texts, hbrought.entries, hbrought.watches⟩, hextensions, hused, hanswer⟩
  have h := hbrought.script
  exact ⟨h.config, h.allowlist, h.capacity, h.directory, h.projects, h.openConfig,
    h.withoutProgram, h.watchesOnOpen⟩

end Session

end BackendSync
