import BackendSync.Proofs.Creating
import BackendSync.Proofs.StepEffects

/-!
# Both modes of syncing come to the same

A session sends changes as edits or as whole texts. Which of the two it does shows in the
edits of the log and nowhere else. `inMode` is a session in the other mode, with another
log and otherwise the same, and every operation commutes with it: what it does in one
mode, seen from the other, is what it does in the other.

There is one operation where that takes an argument, the editing of a live text. The
edits sent are different, but either list takes the live text to the new one, and neither
is empty unless the texts are equal.
-/

namespace BackendSync

/-! ## Logs without edits -/

/-- Is the effect an edit of a live text? -/
def Effect.isEdit : Effect → Bool
  | .edited _ _ => true
  | _ => false

/-- What is left of a log without its edits. -/
def withoutEdits (effects : List Effect) : List Effect := effects.filter fun e => !e.isEdit

theorem withoutEdits_append (first second : List Effect) :
    withoutEdits (first ++ second) = withoutEdits first ++ withoutEdits second :=
  List.filter_append ..

theorem withoutEdits_edited (path : Path) (edits : List Edit) :
    withoutEdits (edits.map (.edited path)) = [] := by
  refine List.filter_eq_nil_iff.mpr fun e he => ?_
  obtain ⟨edit, _, rfl⟩ := List.mem_map.mp he
  exact Bool.false_ne_true

/-- The same effects but for the edits, of which both have some or neither has any. -/
structure SameButEdits (sent sent' : List Effect) : Prop where
  rest : withoutEdits sent = withoutEdits sent'
  edits : sent.any Effect.isEdit = sent'.any Effect.isEdit

theorem SameButEdits.refl (sent : List Effect) : SameButEdits sent sent := ⟨rfl, rfl⟩

theorem SameButEdits.append {first first' second second' : List Effect}
    (h : SameButEdits first first') (k : SameButEdits second second') :
    SameButEdits (first ++ second) (first' ++ second') := by
  refine ⟨?_, ?_⟩
  · rw [withoutEdits_append, withoutEdits_append, h.rest, k.rest]
  · rw [List.any_append, List.any_append, h.edits, k.edits]

/-! ## The same backend with another log -/

namespace Scripted

/-- The backend with another log. -/
def withLog (b : Scripted) (log : List Effect) : Scripted := { b with log }

theorem perform_withLog (b : Scripted) (log : List Effect) (e : Effect) :
    e.perform (b.withLog log) = (e.perform b).withLog (log ++ [e]) := by
  cases e with
  | notified event =>
    obtain ⟨_, _, kind⟩ := event
    obtain ⟨_, _, adopter, _, _, _, _, _, _, _⟩ := b
    cases kind <;> cases adopter <;> rfl
  | _ => rfl

theorem performAll_withLog (b : Scripted) (log effects : List Effect) :
    (b.withLog log).performAll effects = (b.performAll effects).withLog (log ++ effects) := by
  induction effects generalizing b log with
  | nil =>
    rw [List.append_nil]
    rfl
  | cons e rest ih =>
    rw [performAll_cons, performAll_cons, perform_withLog, ih, List.append_assoc,
      List.singleton_append]

theorem change_withLog (b : Scripted) (log : List Effect) (c : Change) :
    (b.withLog log).change c = ((b.change c).1, (b.change c).2.withLog log) := by
  cases c with
  | overwrite path text =>
    by_cases h : b.buffers.contains path = true
    · have h' : (b.withLog log).buffers.contains path = true := h
      rw [change, change, if_pos h, if_pos h']
      rfl
    · have h' : ¬(b.withLog log).buffers.contains path = true := h
      rw [change, change, if_neg h, if_neg h']
  | setProgram path available => cases available <;> rfl
  | _ => rfl

end Scripted

/-! ## The same session in another mode -/

namespace Session

/-- The session in a mode of syncing, and with a log. -/
def inMode (s : Session Scripted) (incremental : Bool) (log : List Effect) : Session Scripted :=
  { s with
    backend := s.backend.withLog log
    config := { s.config with incrementalSync := incremental } }

variable (s : Session Scripted) (m : Bool) (log : List Effect)

theorem backend_inMode : (s.inMode m log).backend = s.backend.withLog log := rfl

theorem updateExtensions_inMode (requested : List String) :
    (s.inMode m log).updateExtensions requested =
      (s.updateExtensions requested).inMode m (log ++ s.extensionEffects requested) := by
  rw [updateExtensions_eq, updateExtensions_eq]
  have heffects : (s.inMode m log).extensionEffects requested = s.extensionEffects requested := rfl
  rw [heffects, backend_inMode, Scripted.performAll_withLog]
  rfl

theorem announced_inMode (path : Path) :
    (s.inMode m log).announced path = (s.announced path).inMode m (log ++ s.notices path) := by
  unfold announced
  have heffects : (s.inMode m log).notices path = s.notices path := rfl
  rw [heffects, backend_inMode, Scripted.performAll_withLog]
  rfl

theorem openFile_inMode (path : Path) (code : String) (root : Path) :
    (s.inMode m log).openFile path code root =
      ((s.openFile path code root).1,
        (s.openFile path code root).2.inMode m (log ++ s.opening path code root)) := by
  rw [openFile_eq, openFile_eq]
  have heffects : (s.inMode m log).opening path code root = s.opening path code root := rfl
  rw [heffects, backend_inMode, Scripted.performAll_withLog]
  rfl

theorem closeFile_inMode (p : Path) :
    (s.inMode m log).closeFile p =
      ((s.closeFile p).1, (s.closeFile p).2.inMode m
        (log ++ (s.openFiles.entry? (s.absolute p)).toList.map fun e => .closed e.1)) := by
  rw [closeFile_eq, closeFile_eq]
  have habsolute : (s.inMode m log).absolute p = s.absolute p := rfl
  have hfiles : (s.inMode m log).openFiles = s.openFiles := rfl
  rw [habsolute, hfiles, backend_inMode, Scripted.performAll_withLog]
  rfl

theorem closeAll_inMode :
    (s.inMode m log).closeAll = s.closeAll.inMode m
      (log ++ s.openFiles.entries.reverse.map fun e => .closed e.1) := by
  rw [closeAll_eq, closeAll_eq]
  have hfiles : (s.inMode m log).openFiles = s.openFiles := rfl
  rw [hfiles, backend_inMode, Scripted.performAll_withLog]
  rfl

theorem watch_inMode (p : Path) (kind : Watch.Kind) :
    (s.inMode m log).watch p kind = ((s.watch p kind).1, (s.watch p kind).2.inMode m log) := by
  have hregister : (s.inMode m log).watches.register ((s.inMode m log).absolute p) kind =
      s.watches.register (s.absolute p) kind := rfl
  rw [watch_eq, watch_eq, hregister]
  rfl

/-- The mode decides which edits are sent, but not whether any are. -/
theorem editsFor_eq_nil_iff {config : Config} {live code : String} :
    editsFor config live code = [] ↔ live = code := by
  constructor
  · intro hnil
    have hreplay := replay?_editsFor config live code
    rw [hnil, Edit.replay?_nil] at hreplay
    exact Option.some.inj hreplay
  · intro hsame
    exact if_pos hsame

theorem sameButEdits_editsFor (config config' : Config) (path : Path) (live code : String) :
    SameButEdits ((editsFor config live code).map (.edited path))
      ((editsFor config' live code).map (.edited path)) := by
  refine ⟨by rw [withoutEdits_edited, withoutEdits_edited], ?_⟩
  by_cases hsame : live = code
  · rw [editsFor_eq_nil_iff.mpr hsame, editsFor_eq_nil_iff.mpr hsame]
  · -- texts that differ need an edit in either mode
    have hany : ∀ c : Config, ((editsFor c live code).map (Effect.edited path)).any Effect.isEdit =
        true := by
      intro c
      obtain ⟨edit, hedit⟩ := List.exists_mem_of_ne_nil _
        fun hnil => hsame (editsFor_eq_nil_iff.mp hnil)
      exact List.any_eq_true.mpr ⟨_, List.mem_map_of_mem hedit, rfl⟩
    rw [hany, hany]

/-- **Editing comes to the same in both modes.** -/
theorem performAll_editsFor_inMode {path : Path} {live : String}
    (halive : s.backend.buffers.get? path = some live) (code : String) :
    (s.inMode m log).backend.performAll
        ((editsFor (s.inMode m log).config live code).map (.edited path)) =
      (s.backend.performAll ((editsFor s.config live code).map (.edited path))).withLog
        (log ++ (editsFor (s.inMode m log).config live code).map (.edited path)) := by
  have halive' : (s.inMode m log).backend.buffers.get? path = some live := halive
  rw [Scripted.performAll_edited _ halive' (replay?_editsFor _ _ _),
    Scripted.performAll_edited _ halive (replay?_editsFor _ _ _)]
  rfl

theorem refuses_inMode {path : Path} {allowed : Bool} :
    (s.inMode m log).Refuses path allowed ↔ s.Refuses path allowed :=
  ⟨fun h => ⟨h.unclaimed, h.unwatched, h.policy, h.notAllowed⟩,
    fun h => ⟨h.unclaimed, h.unwatched, h.policy, h.notAllowed⟩⟩

/-- **Bringing a file up to date comes to the same in both modes.** -/
theorem bringUp_inMode (path : Path) (code : String) (root : Path) (allowed : Bool) :
    ∃ sent sent', SameButEdits sent sent' ∧
      (s.bringUp path code root allowed).2.backend.log = s.backend.log ++ sent ∧
      (s.inMode m log).bringUp path code root allowed =
        ((s.bringUp path code root allowed).1,
          (s.bringUp path code root allowed).2.inMode m (log ++ sent')) := by
  cases hcached : s.openFiles.entry? path with
  | some e =>
    have hcached' : (s.inMode m log).openFiles.entry? path = some e := hcached
    cases halive : s.backend.buffers.get? path with
    | some live =>
      -- the only case in which the modes send different effects
      have halive' : (s.inMode m log).backend.buffers.get? path = some live := halive
      rw [bringUp_of_alive hcached halive, bringUp_of_alive hcached' halive',
        performAll_editsFor_inMode s m log halive]
      exact ⟨_, _, sameButEdits_editsFor s.config (s.inMode m log).config path live code,
        Scripted.log_performAll .., rfl⟩
    | none =>
      have hgone' : (s.inMode m log).backend.buffers.get? path = none := halive
      rw [bringUp_of_gone hcached halive, bringUp_of_gone hcached' hgone', openFile_inMode]
      exact ⟨_, _, SameButEdits.refl (s.opening path code root), log_openFile .., rfl⟩
  | none =>
    have habsent' : (s.inMode m log).openFiles.entry? path = none := hcached
    by_cases hrefuses : s.Refuses path allowed
    · rw [bringUp_of_refuses hcached hrefuses,
        bringUp_of_refuses habsent' ((s.refuses_inMode m log).mpr hrefuses)]
      refine ⟨[], [], SameButEdits.refl [], (List.append_nil _).symm, ?_⟩
      rw [List.append_nil]
    · have hadmitted' := mt (s.refuses_inMode m log).mp hrefuses
      have hannounced : (s.announced path).backend.log = s.backend.log ++ s.notices path :=
        Scripted.log_performAll ..
      rw [bringUp_of_admitted hcached hrefuses, bringUp_of_admitted habsent' hadmitted',
        announced_inMode, openFile_inMode, List.append_assoc]
      refine ⟨_, _, SameButEdits.refl (s.notices path ++ (s.announced path).opening path code root),
        ?_, rfl⟩
      rw [log_openFile, hannounced, List.append_assoc]

/-- The extensions are sent first, and the same ones in both modes. -/
theorem bringUpFor_inMode (request : Request) :
    ∃ sent sent', SameButEdits sent sent' ∧
      (s.bringUpFor request).2.backend.log = s.backend.log ++ sent ∧
      (s.inMode m log).bringUpFor request =
        ((s.bringUpFor request).1, (s.bringUpFor request).2.inMode m (log ++ sent')) := by
  obtain ⟨sent, sent', hsame, hlog, heq⟩ := (s.updateExtensions request.extensions).bringUp_inMode m
    (log ++ s.extensionEffects request.extensions) (s.absolute request.path) request.code
    (s.rootOf request) (s.allows request)
  refine ⟨s.extensionEffects request.extensions ++ sent,
    s.extensionEffects request.extensions ++ sent', (SameButEdits.refl _).append hsame, ?_, ?_⟩
  · rw [log_updateExtensions, List.append_assoc] at hlog
    exact hlog
  · rw [bringUpFor, updateExtensions_inMode]
    rw [← List.append_assoc]
    exact heq

theorem conclude_inMode (path : Path) (opened : OpenedFile) (allowed full : Bool)
    (used : MatchSet) :
    (s.inMode m log).conclude path opened allowed full used =
      s.conclude path opened allowed full used := rfl

/-- **A request is answered in the same way in both modes.** -/
theorem resolveWith_inMode (request : Request) (full : Bool) (used : MatchSet) :
    ∃ sent sent', SameButEdits sent sent' ∧
      (s.resolveWith request full used).2.2.backend.log = s.backend.log ++ sent ∧
      (s.inMode m log).resolveWith request full used =
        ((s.resolveWith request full used).1, (s.resolveWith request full used).2.1,
          (s.resolveWith request full used).2.2.inMode m (log ++ sent')) := by
  obtain ⟨sent, sent', hsame, hlog, heq⟩ := s.bringUpFor_inMode m log request
  refine ⟨sent, sent', hsame, ?_, ?_⟩
  · rw [session_resolveWith]
    exact hlog
  · rcases hbring : s.bringUpFor request with ⟨e | opened, s'⟩
    · have herror := congrArg Prod.fst hbring
      have herror' := congrArg Prod.fst heq
      rw [hbring] at herror'
      rw [resolveWith_of_error herror, resolveWith_of_error herror',
        ← session_of_bringUpFor_error herror, ← session_of_bringUpFor_error herror', heq]
    · rw [hbring] at heq
      rw [resolveWith_of_ok hbring, resolveWith_of_ok heq, conclude_inMode]
      rfl

end Session

/-! ## The same world in another mode -/

/-- The answer in another mode: a configuration that is read shows the mode. -/
def Reply.inMode (m : Bool) : Reply → Reply
  | .config c => .config { c with incrementalSync := m }
  | reply => reply

namespace World

/-- The world with its session in a mode of syncing, and with a log. -/
def inMode (w : World) (m : Bool) (log : List Effect) : World :=
  { w with session := w.session.inMode m log }

/-- A step in another mode: the same but for the edits, and for the mode in what it answers. -/
def Commutes (w : World) (m : Bool) (log : List Effect) (st : Step) : Prop :=
  ∃ sent sent', SameButEdits sent sent' ∧ (w.step st).2.log = w.log ++ sent ∧
    (w.inMode m log).step st = ((w.step st).1.inMode m, (w.step st).2.inMode m (log ++ sent'))

section Steps

variable {w : World} {m : Bool} {log : List Effect}

/-- A step that sends the same effects in both modes. -/
theorem commutes_of_same {st : Step} (sent : List Effect)
    (hlog : (w.step st).2.log = w.log ++ sent)
    (h : (w.inMode m log).step st =
      ((w.step st).1.inMode m, (w.step st).2.inMode m (log ++ sent))) : w.Commutes m log st :=
  ⟨sent, sent, SameButEdits.refl sent, hlog, h⟩

/-- A step that sends nothing. -/
theorem commutes_of_idle {st : Step} (hlog : (w.step st).2.log = w.log)
    (h : (w.inMode m log).step st = ((w.step st).1.inMode m, (w.step st).2.inMode m log)) :
    w.Commutes m log st :=
  commutes_of_same [] (by rw [hlog, List.append_nil]) (by rw [h, List.append_nil])

theorem commutes_resolve (request : Request) (full : Bool) (run : Option String) :
    w.Commutes m log (.resolve request full run) := by
  cases run with
  | none =>
    obtain ⟨sent, sent', hsame, hlog, heq⟩ :=
      w.session.resolveWith_inMode m log request full w.session.used
    have hanswer : (w.inMode m log).session.resolveWith request full
        (w.inMode m log).session.used = _ := heq
    refine ⟨sent, sent', hsame, hlog, ?_⟩
    rw [step_resolve_own, step_resolve_own, hanswer]
    rfl
  | some run =>
    obtain ⟨sent, sent', hsame, hlog, heq⟩ :=
      w.session.resolveWith_inMode m log request full (w.runOf run)
    have hanswer : (w.inMode m log).session.resolveWith request full
        ((w.inMode m log).runOf run) = _ := heq
    refine ⟨sent, sent', hsame, hlog, ?_⟩
    rw [step_resolve_run, step_resolve_run, hanswer]
    rfl

theorem commutes_closeFile (path : Path) : w.Commutes m log (.closeFile path) := by
  refine commutes_of_same
    ((w.session.openFiles.entry? (w.session.absolute path)).toList.map fun e => .closed e.1) ?_ ?_
  · show (w.session.closeFile path).2.backend.log = _
    rw [Session.closeFile_eq]
    exact Scripted.log_performAll ..
  · show (Reply.flag ((w.session.inMode m log).closeFile path).1,
      ({ w with session := ((w.session.inMode m log).closeFile path).2 } : World)) = _
    rw [Session.closeFile_inMode]
    rfl

theorem commutes_closeAll : w.Commutes m log .closeAll := by
  refine commutes_of_same (w.session.openFiles.entries.reverse.map fun e => .closed e.1) ?_ ?_
  · show w.session.closeAll.backend.log = _
    rw [Session.closeAll_eq]
    exact Scripted.log_performAll ..
  · show (Reply.done, ({ w with session := (w.session.inMode m log).closeAll } : World)) = _
    rw [Session.closeAll_inMode]
    rfl

theorem commutes_change (c : Scripted.Change) : w.Commutes m log (.change c) := by
  refine commutes_of_idle (Scripted.log_change ..) ?_
  show (Reply.flag ((w.session.backend.withLog log).change c).1,
    ({ w with session := { w.session.inMode m log with
      backend := ((w.session.backend.withLog log).change c).2 } } : World)) = _
  rw [Scripted.change_withLog]
  rfl

theorem commutes_watch (path : Path) (kind : Watch.Kind) :
    w.Commutes m log (.watch path kind) := by
  have hwatch : (w.inMode m log).session.watch path kind =
      ((w.session.watch path kind).1, (w.session.watch path kind).2.inMode m log) :=
    w.session.watch_inMode m log path kind
  refine commutes_of_idle ?_ ?_
  · show (w.step (.watch path kind)).2.session.backend.log = _
    rw [session_step_watch]
    rfl
  · rw [step_watch, step_watch, hwatch]
    rfl

theorem commutes_closeWatch (i : Nat) : w.Commutes m log (.closeWatch i) := by
  have hhandles : (w.inMode m log).handles = w.handles := rfl
  refine commutes_of_idle ?_ ?_
  · rw [step_closeWatch]
    cases w.handles[i]? <;> rfl
  · rw [step_closeWatch, step_closeWatch, hhandles]
    cases w.handles[i]? <;> rfl

end Steps

/-- **Every step comes to the same in both modes.** -/
theorem commutes_step (w : World) (m : Bool) (log : List Effect) (st : Step) :
    w.Commutes m log st := by
  cases st with
  | resolve request full run => exact commutes_resolve request full run
  | closeFile path => exact commutes_closeFile path
  | closeAll => exact commutes_closeAll
  | change c => exact commutes_change c
  | watch path kind => exact commutes_watch path kind
  | closeWatch i => exact commutes_closeWatch i
  | _ => exact commutes_of_idle rfl rfl

theorem effects_inMode (w : World) (m : Bool) (log : List Effect) (st : Step) :
    SameButEdits (w.effects st) ((w.inMode m log).effects st) ∧
      (w.inMode m log).step st = ((w.step st).1.inMode m,
        (w.step st).2.inMode m (log ++ (w.inMode m log).effects st)) := by
  obtain ⟨sent, sent', hsame, hlog, heq⟩ := w.commutes_step m log st
  have hsent' : (w.inMode m log).effects st = sent' := by
    refine effects_of_log ?_
    rw [heq]
    rfl
  rw [effects_of_log hlog, hsent']
  exact ⟨hsame, heq⟩

/-- **Every run comes to the same in both modes.** -/
theorem run_inMode {w : World} {log : List Effect} (h : withoutEdits log = withoutEdits w.log)
    (m : Bool) (steps : List Step) :
    ∃ log', withoutEdits log' = withoutEdits (w.run steps).log ∧
      (w.inMode m log).run steps = (w.run steps).inMode m log' := by
  induction steps generalizing w log with
  | nil => exact ⟨log, h, rfl⟩
  | cons st rest ih =>
    obtain ⟨sent, sent', hsame, hlog, heq⟩ := w.commutes_step m log st
    have hnext : withoutEdits (log ++ sent') = withoutEdits (w.step st).2.log := by
      rw [hlog, withoutEdits_append, withoutEdits_append, h, hsame.rest]
    obtain ⟨log', hlog', hrun⟩ := ih hnext
    refine ⟨log', hlog', ?_⟩
    show ((w.inMode m log).step st).2.run rest = _
    rw [heq]
    exact hrun

/-! ## A new world in either mode -/

theorem create_inMode (backend : Scripted) (config : Config) (m : Bool) :
    create backend { config with incrementalSync := m } =
      (create backend config).map fun w => w.inMode m w.log := by
  unfold create
  rw [Session.create_eq, Session.create_eq]
  have hvalidate : ({ config with incrementalSync := m } : Config).validate = config.validate := rfl
  have hused : Session.useDefaultProject backend { config with incrementalSync := m } =
      Session.useDefaultProject backend config := rfl
  rw [hvalidate, hused]
  dsimp only
  cases config.validate with
  | error e => rfl
  | ok _ =>
    cases Allowlist.compile config.allowDefaultProject with
    | error e => rfl
    | ok allowlist =>
      by_cases hpos : 0 < config.maximumOpenFiles
      · dsimp only
        rw [dif_pos hpos, dif_pos hpos]
        cases (Session.useDefaultProject backend config).1 with
        | some e => rfl
        | none =>
          -- the session begun in the other mode has the same log, and the extensions add to it
          have hbegun := (Session.begun backend config allowlist hpos).updateExtensions_inMode m
            (Session.begun backend config allowlist hpos).backend.log []
          rw [← Session.log_updateExtensions] at hbegun
          exact congrArg (fun s => Except.ok ({ session := s } : World)) hbegun
      · dsimp only
        rw [dif_neg hpos, dif_neg hpos]
        rfl

/-- Two worlds that are the same but for the mode of syncing and the edits in their logs. -/
structure Agrees (w v : World) : Prop where
  used : v.session.used = w.session.used
  runs : v.runs = w.runs
  /-- Paths, values and order of recency. -/
  openFiles : v.session.openFiles = w.session.openFiles
  watches : v.session.watches = w.session.watches
  handles : v.handles = w.handles
  buffers : v.session.backend.buffers = w.session.backend.buffers
  log : withoutEdits v.log = withoutEdits w.log
  config : { v.session.config with incrementalSync := w.session.config.incrementalSync } =
    w.session.config

theorem agrees_inMode {w : World} {log : List Effect} (h : withoutEdits log = withoutEdits w.log)
    (m : Bool) : w.Agrees (w.inMode m log) := ⟨rfl, rfl, rfl, rfl, rfl, rfl, h, rfl⟩

/-- Only a reader of the configuration is told the mode. -/
theorem reply_inMode (w : World) (m : Bool) {st : Step} (h : st ≠ .config) :
    (w.step st).1.inMode m = (w.step st).1 := by
  cases st with
  | resolve request full run =>
    rw [reply_resolve]
    rfl
  | watch path kind =>
    rw [step_watch]
    rfl
  | closeWatch i =>
    rw [step_closeWatch]
    cases w.handles[i]? <;> rfl
  | config => exact absurd rfl h
  | _ => rfl

theorem any_isEdit_iff {effects : List Effect} :
    effects.any Effect.isEdit = true ↔ ∃ p edit, .edited p edit ∈ effects := by
  rw [List.any_eq_true]
  constructor
  · intro h
    obtain ⟨e, he, hedit⟩ := h
    cases e with
    | edited p edit => exact ⟨p, edit, he⟩
    | _ => cases hedit
  · intro h
    obtain ⟨p, edit, he⟩ := h
    exact ⟨_, he, rfl⟩

/--
**Sending edits comes to the same as sending whole texts.** With one backend and one
configuration, a session can be created in both modes or in neither, for the same reason.
Whatever steps follow, the two sessions and their backends agree after each of them in
all but the edits of the log, every step is answered in the same way, and it sends edits
in one mode if it does in the other.
-/
theorem sync_modes_agree (backend : Scripted) (config : Config) :
    (∃ e, create backend { config with incrementalSync := true } = .error e ∧
      create backend { config with incrementalSync := false } = .error e) ∨
    ∃ w v, create backend { config with incrementalSync := true } = .ok w ∧
      create backend { config with incrementalSync := false } = .ok v ∧
      ∀ steps, (w.run steps).Agrees (v.run steps) ∧ ∀ st,
        (st ≠ .config → ((v.run steps).step st).1 = ((w.run steps).step st).1) ∧
        ((∃ p edit, .edited p edit ∈ (v.run steps).effects st) ↔
          ∃ p edit, .edited p edit ∈ (w.run steps).effects st) := by
  have hcreate := create_inMode backend { config with incrementalSync := true } false
  cases hw : create backend { config with incrementalSync := true } with
  | error e =>
    rw [hw] at hcreate
    exact Or.inl ⟨e, rfl, hcreate⟩
  | ok w =>
    rw [hw] at hcreate
    refine Or.inr ⟨w, w.inMode false w.log, rfl, hcreate, fun steps => ?_⟩
    obtain ⟨log, hlog, hrun⟩ := run_inMode (rfl : withoutEdits w.log = withoutEdits w.log) false steps
    rw [hrun]
    refine ⟨agrees_inMode hlog false, fun st => ?_⟩
    obtain ⟨hsame, hstep⟩ := (w.run steps).effects_inMode false log st
    refine ⟨fun hst => ?_, ?_⟩
    · rw [hstep]
      exact reply_inMode _ false hst
    · rw [← any_isEdit_iff, ← any_isEdit_iff, hsame.edits]

end World

end BackendSync
