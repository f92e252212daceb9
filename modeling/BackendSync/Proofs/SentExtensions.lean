import Mathlib.Data.List.Chain
import BackendSync.Proofs.Bookkeeping
import BackendSync.Proofs.ByteOrder
import BackendSync.Proofs.Repeating

/-!
# The extensions that the backend was told

The backend is sent a list of extensions when the list has changed and at no other time, so
what it knows is the list that was sent last. The session remembers that list. What keeps the
two equal is that a resolve looks at the extensions before anything else: however the request
ends, whatever is sent of them has been sent by then, and nothing else in a session sends any.

A log that begins with the creation of the session therefore ends in the list that the latest
resolve wanted, or the configuration if nothing was resolved yet, and no list in it repeats the
one before. Before the first list the backend knows of no extra extensions, which is why an
empty list is never the first.
-/

namespace BackendSync

/-! ## Lists that were sent -/

/-- The list that an effect sends. -/
def Effect.extensions? : Effect → Option (List String)
  | .extensions sent => some sent
  | _ => none

/-- The lists of extensions that some effects send, the earliest first. -/
def sentLists (effects : List Effect) : List (List String) := effects.filterMap Effect.extensions?

/-- The list that was sent last, which is the empty one before any was. -/
def lastSent (effects : List Effect) : List String := (sentLists effects).getLast?.getD []

theorem sentLists_append (first second : List Effect) :
    sentLists (first ++ second) = sentLists first ++ sentLists second := List.filterMap_append

theorem sentLists_eq_nil_iff {effects : List Effect} :
    sentLists effects = [] ↔ ∀ e ∈ effects, e.extensions? = none := List.filterMap_eq_nil_iff

/-- Each text of `texts` once, in the order of their bytes. -/
structure Text.ListsOnce (list texts : List String) : Prop where
  mem_iff : ∀ t, t ∈ list ↔ t ∈ texts
  ordered : list.Pairwise fun s t => utf8 s < utf8 t

theorem Text.listsOnce_orderedSet (texts : List String) :
    ListsOnce (orderedSet texts) texts :=
  ⟨fun _ => mem_orderedSet, (pairwise_orderedSet texts).imp utf8_lt_utf8⟩

/-! ## What a resolve sends -/

namespace Session

variable {s s' : Session Scripted} {path : Path}

theorem sentLists_extensionEffects (s : Session Scripted) (requested : List String) :
    sentLists (s.extensionEffects requested) =
      if Text.orderedSet (s.config.extraExtensions ++ requested) = s.extensions then []
      else [Text.orderedSet (s.config.extraExtensions ++ requested)] := by
  unfold extensionEffects
  split <;> rfl

theorem sentLists_notices (s : Session Scripted) (path : Path) :
    sentLists (s.notices path) = [] := by
  refine sentLists_eq_nil_iff.mpr fun e he => ?_
  unfold notices at he
  split at he
  · cases he
  · obtain ⟨event, _, rfl⟩ := List.mem_map.mp he
    rfl

theorem sentLists_closed (left : List (Path × OpenedFile)) :
    sentLists (left.map fun e => .closed e.1) = [] := by
  refine sentLists_eq_nil_iff.mpr fun e he => ?_
  obtain ⟨x, _, rfl⟩ := List.mem_map.mp he
  rfl

/-- Whatever is done about the file of a request, no extensions are sent. -/
theorem sentLists_bringUp {code : String} {root : Path} {allowed : Bool} {opened : OpenedFile}
    (h : s.bringUp path code root allowed = (.ok opened, s')) :
    sentLists s'.backend.log = sentLists s.backend.log := by
  have hopening : ∀ t : Session Scripted, sentLists (t.openFile path code root).2.backend.log =
      sentLists t.backend.log := by
    intro t
    have hclosed : sentLists (t.opening path code root) = [] := sentLists_closed _
    rw [log_openFile, sentLists_append, hclosed, List.append_nil]
  rcases s.bringUp_cases path code root allowed with
    ⟨e, live, _, _, heq⟩ | ⟨_, _, _, heq⟩ | ⟨_, _, heq⟩ | ⟨_, _, heq⟩
  · cases heq.symm.trans h
    have hedited : sentLists ((editsFor s.config live code).map (.edited path)) = [] := by
      refine sentLists_eq_nil_iff.mpr fun x hx => ?_
      obtain ⟨edit, _, rfl⟩ := List.mem_map.mp hx
      rfl
    rw [Scripted.log_performAll, sentLists_append, hedited, List.append_nil]
  · have hs : (s.openFile path code root).2 = s' :=
      congrArg Prod.snd (heq.symm.trans h)
    rw [← hs, hopening]
  · have hs : ((s.announced path).openFile path code root).2 = s' :=
      congrArg Prod.snd (heq.symm.trans h)
    have hnoticed : (s.announced path).backend.log = s.backend.log ++ s.notices path :=
      Scripted.log_performAll _ _
    rw [← hs, hopening, hnoticed, sentLists_append, sentLists_notices, List.append_nil]
  · cases heq.symm.trans h

end Session

/-! ## What a step sends -/

/-- The extensions that a step asks for. -/
def Step.extensions? : Step → Option (List String)
  | .resolve request _ _ => some request.extensions
  | _ => none

namespace World

variable {w : World} {config : Config} {wanted : List String}

/-- **A resolve sends its extensions if they are not those sent last**, whatever it answers. -/
theorem sends_resolve (w : World) (request : Request) (full : Bool) (run : Option String) :
    (w.step (.resolve request full run)).2.session.extensions =
        Text.orderedSet (w.session.config.extraExtensions ++ request.extensions) ∧
      sentLists (w.step (.resolve request full run)).2.log =
        sentLists w.log ++ sentLists (w.session.extensionEffects request.extensions) := by
  have hextended := w.session.updateExtensions_eq request.extensions
  have hlogged := w.session.log_updateExtensions request.extensions
  obtain ⟨outcome, used, _, hways⟩ := w.step_resolve request full run
  rw [log, log, ← sentLists_append, ← hlogged]
  rcases hways with ⟨e, _, _, hsession⟩ | ⟨opened, s', hbring, _, _, hsession⟩
  · rw [hsession]
    exact ⟨by rw [hextended], rfl⟩
  · have hkept := (Session.front_bringUp hbring).1
    rw [hsession]
    have hsilent : sentLists s'.backend.log = _ := Session.sentLists_bringUp hbring
    exact ⟨by rw [hkept, hextended], hsilent⟩

/-- **A step that resolves nothing sends no extensions.** -/
theorem sends_nothing {st : Step} (h : st.extensions? = none) :
    (w.step st).2.session.extensions = w.session.extensions ∧
      sentLists (w.step st).2.log = sentLists w.log := by
  cases st with
  | resolve request full run => cases h
  | closeFile path =>
    refine ⟨rfl, ?_⟩
    have hlog : (w.step (.closeFile path)).2.log = w.log ++
        (w.session.openFiles.entry? (w.session.absolute path)).toList.map fun e => .closed e.1 := by
      show (w.session.closeFile path).2.backend.log = _
      rw [Session.closeFile_eq]
      exact Scripted.log_performAll ..
    rw [hlog, sentLists_append, Session.sentLists_closed, List.append_nil]
  | closeAll =>
    refine ⟨rfl, ?_⟩
    have hlog : (w.step .closeAll).2.log = w.log ++
        w.session.openFiles.entries.reverse.map fun e => .closed e.1 := by
      show w.session.closeAll.backend.log = _
      rw [Session.closeAll_eq]
      exact Scripted.log_performAll ..
    rw [hlog, sentLists_append, Session.sentLists_closed, List.append_nil]
  | change change =>
    refine ⟨rfl, ?_⟩
    show sentLists (w.session.backend.change change).2.log = sentLists w.session.backend.log
    rw [Scripted.log_change]
  | watch path kind =>
    rw [step_watch, Session.watch_eq]
    exact ⟨rfl, rfl⟩
  | closeWatch i =>
    rw [step_closeWatch]
    cases w.handles[i]? <;> exact ⟨rfl, rfl⟩
  | _ => exact ⟨rfl, rfl⟩

/-! ## Over a run -/

/-- The backend was last sent the extensions `wanted`, and the session remembers it. -/
structure Tracks (w : World) (wanted : List String) : Prop where
  remembered : w.session.extensions = Text.orderedSet wanted
  sent : lastSent w.log = w.session.extensions
  /-- No list repeats the one before, and the first is not empty. -/
  changing : ([] :: sentLists w.log).IsChain (· ≠ ·)

/-- The extensions are tracked from the first list on that is sent. -/
theorem Tracks.send {w' : World} (h : w.Tracks wanted) {requested : List String}
    (hremembered : w'.session.extensions =
      Text.orderedSet (w.session.config.extraExtensions ++ requested))
    (hsent : sentLists w'.log =
      sentLists w.log ++ sentLists (w.session.extensionEffects requested)) :
    w'.Tracks (w.session.config.extraExtensions ++ requested) := by
  rw [Session.sentLists_extensionEffects] at hsent
  split at hsent
  · rename_i hsame
    rw [List.append_nil] at hsent
    refine ⟨hremembered, ?_, ?_⟩
    · rw [lastSent, hsent, hremembered, hsame]
      exact h.sent
    · rw [hsent]
      exact h.changing
  · rename_i hnew
    refine ⟨hremembered, ?_, ?_⟩
    · rw [lastSent, hsent, List.getLast?_concat, hremembered]
      rfl
    · rw [hsent, ← List.cons_append]
      refine List.isChain_append.mpr ⟨h.changing, .singleton _, ?_⟩
      intro last hlast next hnext
      rw [List.getLast?_cons, Option.mem_some_iff] at hlast
      rw [List.head?_cons, Option.mem_some_iff] at hnext
      have hremembered : last = w.session.extensions := hlast.symm.trans h.sent
      rw [← hnext, hremembered]
      exact Ne.symm hnew

/-- The extensions that the latest resolve of some steps asked for. -/
def lastRequested (steps : List Step) : List String :=
  (steps.filterMap Step.extensions?).getLast?.getD []

theorem lastRequested_concat (steps : List Step) (st : Step) :
    lastRequested (steps ++ [st]) = st.extensions?.getD (lastRequested steps) := by
  rw [lastRequested, List.filterMap_append, List.getLast?_append]
  cases h : st.extensions? <;> simp [h, lastRequested]

theorem tracks_of_create {backend : Scripted} (hlog : backend.log = [])
    (h : create backend config = .ok w) : w.Tracks config.extraExtensions := by
  obtain ⟨allowlist, hpos, hs⟩ := Session.begun_of_create (session_of_create h)
  -- before the extensions the backend is told of the default project only
  let begun : World := { session := Session.begun backend config allowlist hpos }
  have hsilent : sentLists begun.log = [] := by
    show sentLists (backend.performAll (Session.defaultProjectEffects backend config)).log = []
    rw [Scripted.log_performAll, hlog, List.nil_append, Session.defaultProjectEffects]
    cases config.defaultProject <;> rfl
  have hbegun : begun.Tracks [] := by
    refine ⟨rfl, ?_, ?_⟩
    · rw [lastSent, hsilent]
      rfl
    · rw [hsilent]
      exact .singleton _
  have hremembered : w.session.extensions = Text.orderedSet (config.extraExtensions ++ []) := by
    rw [hs, Session.updateExtensions_eq]
    rfl
  have hsent : sentLists w.log =
      sentLists begun.log ++ sentLists (begun.session.extensionEffects []) := by
    have hextended := begun.session.log_updateExtensions []
    rw [log, hs, ← sentLists_append]
    exact congrArg sentLists hextended
  have htracks : w.Tracks (config.extraExtensions ++ []) := hbegun.send hremembered hsent
  rwa [List.append_nil] at htracks

theorem tracks_run (hconfig : w.session.config = config) (h : w.Tracks config.extraExtensions)
    (steps : List Step) :
    (w.run steps).Tracks (config.extraExtensions ++ lastRequested steps) := by
  induction steps using List.reverseRecOn with
  | nil =>
    have hnone : config.extraExtensions ++ lastRequested [] = config.extraExtensions :=
      List.append_nil _
    rw [hnone]
    exact h
  | append_singleton steps st ih =>
    rw [run_concat, lastRequested_concat]
    cases hst : st.extensions? with
    | none =>
      obtain ⟨hremembered, hsent⟩ := (w.run steps).sends_nothing hst
      refine ⟨hremembered.trans ih.remembered, ?_, ?_⟩
      · rw [lastSent, hsent, hremembered]
        exact ih.sent
      · rw [hsent]
        exact ih.changing
    | some requested =>
      cases st with
      | resolve request full run =>
        cases hst
        obtain ⟨hremembered, hsent⟩ := (w.run steps).sends_resolve request full run
        have hsettings := w.config_run steps
        have htracks := ih.send hremembered hsent
        rw [hsettings, hconfig] at htracks
        exact htracks
      | _ => cases hst

/--
**The backend knows the extensions that the latest resolve wanted.** Whatever is asked of a
session and however it answers, the list that was sent last has the configured extensions and
those of the latest resolve, each of them once and in the order of their bytes. No list is sent
twice in a row, the first one has something in it, and nothing but a resolve sends one.
-/
theorem extensions_tracked {backend : Scripted} (hlog : backend.log = [])
    (hcreate : create backend config = .ok w) (steps : List Step) :
    Text.ListsOnce (lastSent (w.run steps).log) (config.extraExtensions ++ lastRequested steps) ∧
    (sentLists (w.run steps).log).IsChain (· ≠ ·) ∧
    (sentLists (w.run steps).log).head? ≠ some [] ∧
    ∀ st, (∀ request full run, st ≠ .resolve request full run) →
      sentLists ((w.run steps).step st).2.log = sentLists (w.run steps).log := by
  have htracks := tracks_run (created hcreate).2.1 (tracks_of_create hlog hcreate) steps
  refine ⟨?_, htracks.changing.tail, ?_, ?_⟩
  · rw [htracks.sent, htracks.remembered]
    exact Text.listsOnce_orderedSet _
  · intro hempty
    obtain ⟨rest, hrest⟩ := List.head?_eq_some_iff.mp hempty
    have hchanging := htracks.changing
    rw [hrest, List.isChain_cons_cons] at hchanging
    exact hchanging.1 rfl
  · intro st hst
    have hnone : st.extensions? = none := by
      cases st with
      | resolve request full run => exact absurd rfl (hst request full run)
      | _ => rfl
    exact (sends_nothing hnone).2

/-- A configuration that lets in nothing and names an extension twice. -/
def closedConfig : Config :=
  { extraExtensions := [".vue", ".md", ".vue"], orphanPolicy := .reject }

/-- Resolves of one file with changing extensions. -/
def refusedThrice : List Step :=
  [.resolve ⟨⟨"/a"⟩, "x", none, [".astro", ".vue"]⟩ true none,
    .resolve ⟨⟨"/a"⟩, "x", none, [".vue", ".astro", ".vue"]⟩ true none,
    .resolve ⟨⟨"/a"⟩, "x", none, []⟩ false none]

/-- Three resolves of a file that is refused each time. The second wants what the first did, in
another order and twice, and the third wants nothing beyond the configuration. -/
theorem extensions_tracked_for_refused_file : ∃ w : World,
    create (.bare ⟨"/"⟩) closedConfig = .ok w ∧
    (w.run refusedThrice).log =
      [.extensions [".md", ".vue"], .extensions [".astro", ".md", ".vue"],
        .extensions [".md", ".vue"]] ∧
    Text.ListsOnce (lastSent (w.run refusedThrice).log)
      (closedConfig.extraExtensions ++ lastRequested refusedThrice) := by
  have htracked := fun (w : World) (hw : create (.bare ⟨"/"⟩) closedConfig = .ok w) =>
    (extensions_tracked rfl hw refusedThrice).1
  exact ⟨_, rfl, by decide, htracked _ rfl⟩

end World

end BackendSync
