import BackendSync.Proofs.Admission
import BackendSync.Proofs.Draining
import BackendSync.Proofs.LastOpening
import BackendSync.Proofs.WatchLedger

/-!
# The watches of a session

There are two sources of watches: callers ask for them and close them, and the backend asks
for them while it opens files. What the backend asks for is taken whenever it has opened a file
and at no other time, and before anything is decided about the file. So it makes no difference
to the watches how the request is answered, and a step either opens a file and takes the whole
queue, or leaves both as they are.

Over a run the registry is then what a registry comes to that is asked for just these things,
one after another, and knows nothing of files (`World.replay_run`).
-/

namespace BackendSync

/-! ## What the backend asks for -/

namespace Scripted

/-- The watches that are asked for by the time that another file has been opened. -/
def asked (b : Scripted) : List WatchRequest := b.queue ++ b.watchesOnOpen

/-- Effects that open no file ask for no watches. -/
theorem asked_perform {e : Effect} (h : e.opened? = none) (b : Scripted) :
    (e.perform b).asked = b.asked := by
  cases e with
  | opened path text root => cases h
  | notified event =>
    rw [Effect.perform, notify]
    split <;> rfl
  | _ => rfl

theorem asked_performAll {effects : List Effect} (h : ∀ e ∈ effects, e.opened? = none)
    (b : Scripted) : (b.performAll effects).asked = b.asked := by
  induction effects generalizing b with
  | nil => rfl
  | cons e rest ih =>
    rw [performAll_cons, ih fun x hx => h x (List.mem_cons_of_mem e hx),
      asked_perform (h e List.mem_cons_self)]

end Scripted

namespace Session

variable {s s₁ s' : Session Scripted} {sent : List Effect}

/-- What the effects `sent`, which lead from `s` to `s'`, are to the watches. -/
inductive Taken (s s' : Session Scripted) (sent : List Effect) : Prop where
  /-- No file is opened. -/
  | kept (silent : ∀ e ∈ sent, e.opened? = none) (watches : s'.watches = s.watches)
  /-- A file is opened, and all that was asked for is taken. -/
  | taken (opened : ∃ e ∈ sent, e.opened?.isSome = true) (emptied : s'.backend.queue = [])
      (watches : s'.watches =
        s.backend.asked.foldl (registerRequest s.backend.directory) s.watches)

/-- Effects that open no file may come before. -/
theorem Taken.after {first : List Effect} (h : s₁.Taken s' sent)
    (hfirst : ∀ e ∈ first, e.opened? = none) (hbackend : s₁.backend = s.backend.performAll first)
    (hwatches : s₁.watches = s.watches) : s.Taken s' (first ++ sent) := by
  cases h with
  | kept silent watches =>
    refine .kept (fun e he => ?_) (watches.trans hwatches)
    exact (List.mem_append.mp he).elim (hfirst e) (silent e)
  | taken opened emptied watches =>
    obtain ⟨e, he, hopened⟩ := opened
    refine .taken ⟨e, List.mem_append_right first he, hopened⟩ emptied ?_
    rw [watches, hbackend, Scripted.asked_performAll hfirst, Scripted.directory_performAll,
      hwatches]

/-- Opening a file takes what was asked for, the opening included. -/
theorem taken_openFile (s : Session Scripted) (path : Path) (code : String) (root : Path) :
    s.Taken (s.openFile path code root).2 (s.opening path code root) := by
  rw [openFile_eq]
  exact .taken ⟨.opened path code root, List.mem_cons_self, rfl⟩ rfl rfl

theorem taken_bringUp {path : Path} {code : String} {root : Path} {allowed : Bool}
    {opened : OpenedFile} (h : s.bringUp path code root allowed = (.ok opened, s')) :
    ∃ sent, s'.backend.log = s.backend.log ++ sent ∧ s.Taken s' sent := by
  rcases s.bringUp_cases path code root allowed with
    ⟨e, live, _, _, heq⟩ | ⟨_, _, _, heq⟩ | ⟨_, _, heq⟩ | ⟨_, _, heq⟩
  · cases heq.symm.trans h
    exact ⟨_, Scripted.log_performAll _ _, .kept (fun x hx => (calm_edited path _ x hx).1) rfl⟩
  · have hs : (s.openFile path code root).2 = s' :=
      congrArg Prod.snd (heq.symm.trans h)
    rw [← hs]
    exact ⟨_, s.log_openFile path code root, s.taken_openFile path code root⟩
  · have hs : ((s.announced path).openFile path code root).2 = s' :=
      congrArg Prod.snd (heq.symm.trans h)
    have hnoticed : (s.announced path).backend.log = s.backend.log ++ s.notices path :=
      Scripted.log_performAll _ _
    have htaken := (s.announced path).taken_openFile path code root
    rw [← hs]
    refine ⟨_, ?_, htaken.after (opened?_of_quiet (s.quiet_notices path)) rfl rfl⟩
    rw [log_openFile, hnoticed, List.append_assoc]
  · cases heq.symm.trans h

end Session

/-! ## Steps -/

namespace World

variable {w : World} {st : Step}

/-- Does the step open a file? -/
def opensFile (w : World) (st : Step) : Bool := (w.effects st).any fun e => e.opened?.isSome

theorem opensFile_of_silent (h : ∀ e ∈ w.effects st, e.opened? = none) :
    w.opensFile st = false := by
  rw [opensFile, List.any_eq_false]
  intro e he
  rw [h e he]
  exact Bool.false_ne_true

/-- **A resolve takes what the backend has asked for just if it opens a file**, whatever it
answers. -/
theorem taken_resolve (w : World) (request : Request) (full : Bool) (run : Option String) :
    w.session.Taken (w.step (.resolve request full run)).2.session
      (w.effects (.resolve request full run)) := by
  have hquiet := w.session.quiet_extensionEffects request.extensions
  have hextended := w.session.watches_updateExtensions request.extensions
  obtain ⟨outcome, used, _, hways⟩ := w.step_resolve request full run
  rcases hways with ⟨e, hbring, _, hsession⟩ | ⟨opened, s', hbring, _, _, hsession⟩
  · rw [effects_of_error hbring, hsession]
    exact .kept (Session.opened?_of_quiet hquiet) hextended
  · obtain ⟨sent, hlog, htaken⟩ := Session.taken_bringUp hbring
    have heffects : w.effects (.resolve request full run) =
        w.session.extensionEffects request.extensions ++ sent := by
      refine effects_of_log ?_
      rw [log, hsession, log, ← List.append_assoc, ← Session.log_updateExtensions]
      exact hlog
    have hafter := htaken.after (Session.opened?_of_quiet hquiet)
      (by rw [Session.updateExtensions_eq]) hextended
    rw [heffects, hsession]
    cases hafter with
    | kept silent watches => exact .kept silent watches
    | taken opened emptied watches => exact .taken opened emptied watches

/-- A step that resolves no file opens none. -/
theorem silent_of_untouched (h : w.touched? st = none) :
    ∀ e ∈ w.effects st, e.opened? = none := by
  intro e he
  cases w.moves st with
  | rests calm none eq => exact (calm e he).1
  | edits path e cached calm some eq => cases h.symm.trans some
  | opens path code root value first quiet fresh some effects eq => cases h.symm.trans some
  | closes gone present distinct none effects capacity eq =>
    rw [effects] at he
    obtain ⟨x, _, rfl⟩ := List.mem_map.mp he
    rfl

/-- What the backend asked for is taken between the two worlds. -/
structure Drains (before after : World) : Prop where
  /-- Nothing is left to take. -/
  emptied : after.session.backend.queue = []
  /-- Each request is granted, or is passed over and leaves the registry to the next as it was. -/
  oneByOne : Watch.Registry.Drained before.session.backend.directory before.session.watches
    before.session.backend.asked after.session.watches
  /-- The registry is as if just the watchable requests had been made, and none of them fails. -/
  registered : before.session.watches.registerAll
    (grantable before.session.backend.directory before.session.backend.asked) =
      .ok after.session.watches

/-- **A step that opens a file drains the queue.** -/
theorem drains_of_opensFile (h : w.session.watches.trie.WellFormed)
    (hopens : w.opensFile st = true) : w.Drains (w.step st).2 := by
  cases st with
  | resolve request full run =>
    cases w.taken_resolve request full run with
    | kept silent watches => cases (opensFile_of_silent silent).symm.trans hopens
    | taken opened emptied watches =>
      have hdrained := (Watch.Registry.drained_foldl h w.session.backend.directory
        w.session.backend.asked).1
      rw [← watches] at hdrained
      exact ⟨emptied, hdrained, hdrained.registerAll⟩
  | _ => cases (opensFile_of_silent (silent_of_untouched rfl)).symm.trans hopens

theorem wellFormed_step (h : w.session.watches.trie.WellFormed) (st : Step) :
    (w.step st).2.session.watches.trie.WellFormed := by
  cases st with
  | resolve request full run =>
    cases w.taken_resolve request full run with
    | kept silent watches =>
      rw [watches]
      exact h
    | taken opened emptied watches =>
      rw [watches]
      exact (Watch.Registry.drained_foldl h _ _).2
  | watch path kind =>
    rw [session_step_watch]
    exact Watch.Registry.wellFormed_register h _ kind
  | closeWatch i =>
    rw [step_closeWatch]
    cases w.handles[i]? with
    | none => exact h
    | some handle => exact Watch.Registry.wellFormed_close h handle
  | _ => exact h

theorem wellFormed_run (h : w.session.watches.trie.WellFormed) (steps : List Step) :
    (w.run steps).session.watches.trie.WellFormed := by
  induction steps generalizing w with
  | nil => exact h
  | cons st rest ih => exact ih (wellFormed_step h st)

end World

/-! ## Replaying -/

/-- What a registry is asked for at one time. -/
inductive Errand where
  /-- To register some watches for the backend, which keeps no handles. -/
  | watches (requests : List WatchRequest)
  /-- To do something for a caller. -/
  | call (call : Watch.Call)

namespace Watch.Watcher

/-- Does an errand; it fails if a watch for the backend is refused. -/
def errand (w : Watcher) : Errand → Except Error Watcher
  | .watches requests => (w.registry.registerAll requests).map fun registry => { w with registry }
  | .call call => .ok (w.call call).2

/-- Does errands one after another. -/
def replay (w : Watcher) (errands : List Errand) : Except Error Watcher := errands.foldlM errand w

theorem replay_append (w : Watcher) (first second : List Errand) :
    w.replay (first ++ second) = w.replay first >>= fun w => w.replay second := by
  rw [replay, List.foldlM_append]
  rfl

theorem replay_singleton (w : Watcher) (e : Errand) : w.replay [e] = w.errand e := by
  rw [replay, List.foldlM_cons]
  cases w.errand e <;> rfl

end Watch.Watcher

namespace World

variable {w : World}

/-- The registry of the session, with the handles that were returned to callers. -/
def watcher (w : World) : Watch.Watcher := ⟨w.session.watches, w.handles⟩

/-- What a step has the registry do. -/
def errands (w : World) : Step → List Errand
  | .resolve request full run =>
    if w.opensFile (.resolve request full run) then
      [.watches (grantable w.session.backend.directory w.session.backend.asked)]
    else []
  | .watch path kind => [.call (.watch (w.session.absolute path) kind)]
  | .closeWatch i => [.call (.close i)]
  | _ => []

/-- What the steps of a run have the registry do, in order. -/
def errandsOf (w : World) : List Step → List Errand
  | [] => []
  | st :: rest => w.errands st ++ (w.step st).2.errandsOf rest

/-- **A step does to the registry what its errand does.** -/
theorem replay_errands (h : w.session.watches.trie.WellFormed) (st : Step) :
    w.watcher.replay (w.errands st) = .ok (w.step st).2.watcher := by
  cases st with
  | resolve request full run =>
    have hafter : (w.step (.resolve request full run)).2.watcher =
        ⟨(w.step (.resolve request full run)).2.session.watches, w.handles⟩ := by
      rw [watcher, handles_resolve]
    rw [hafter, errands]
    cases hopens : w.opensFile (.resolve request full run) with
    | true =>
      rw [if_pos rfl, Watch.Watcher.replay_singleton, Watch.Watcher.errand, watcher,
        (drains_of_opensFile h hopens).registered]
      rfl
    | false =>
      cases w.taken_resolve request full run with
      | kept silent watches =>
        rw [watches]
        rfl
      | taken opened emptied watches =>
        obtain ⟨e, he, hopened⟩ := opened
        rw [opensFile, List.any_eq_false] at hopens
        exact absurd hopened (hopens e he)
  | watch path kind =>
    rw [errands, Watch.Watcher.replay_singleton, Watch.Watcher.errand, Watch.Watcher.call,
      step_watch, Session.watch_eq, watcher, watcher]
    generalize w.session.watches.register (w.session.absolute path) kind = result
    obtain ⟨e | handle, watches⟩ := result <;> rfl
  | closeWatch i =>
    rw [errands, Watch.Watcher.replay_singleton, Watch.Watcher.errand, Watch.Watcher.call,
      step_closeWatch, watcher]
    cases w.handles[i]? <;> rfl
  | _ => rfl

/-- **A run does to the registry what its errands do.** -/
theorem replay_run (h : w.session.watches.trie.WellFormed) (steps : List Step) :
    w.watcher.replay (w.errandsOf steps) = .ok (w.run steps).watcher := by
  induction steps generalizing w with
  | nil => rfl
  | cons st rest ih =>
    rw [errandsOf, Watch.Watcher.replay_append, replay_errands h st]
    exact ih (wellFormed_step h st)

theorem watcher_of_create {backend : Scripted} {config : Config}
    (h : create backend config = .ok w) : w.watcher = {} := by
  obtain ⟨hsession, hw⟩ := eq_of_create h
  obtain ⟨allowlist, hpos, hs⟩ := Session.begun_of_create hsession
  have hwatches : w.session.watches = .empty := by
    rw [hs, Session.watches_updateExtensions]
    rfl
  rw [watcher, hwatches, hw]

/-- The world, with other watches asked for by its backend. -/
def asking (w : World) (queue : List WatchRequest) : World :=
  { w with session := { w.session with backend := { w.session.backend with queue } } }

/--
**What the backend asks for is taken when a file is opened, and all of it.** In whatever state
a session is and whatever its backend has queued, a step that opens a file leaves the queue
empty and has registered what of it can be watched, in order, and this does not depend on what
the step answers. All other requests are passed over without a trace. Over a run the registry
comes to what these errands and those of the callers come to.
-/
theorem watches_replayed {backend : Scripted} {config : Config} {w : World}
    (hcreate : create backend config = .ok w) (steps : List Step) :
    (∀ queue st, ((w.run steps).asking queue).opensFile st = true →
      ((w.run steps).asking queue).Drains (((w.run steps).asking queue).step st).2) ∧
    Watch.Watcher.replay {} (w.errandsOf steps) = .ok (w.run steps).watcher := by
  have hempty := watcher_of_create hcreate
  have hstart : w.session.watches.trie.WellFormed := by
    have hwatches : w.session.watches = .empty := congrArg (·.registry) hempty
    rw [hwatches]
    exact Watch.Trie.wellFormed_empty
  refine ⟨fun queue st hopens => drains_of_opensFile (wellFormed_run hstart steps) hopens, ?_⟩
  rw [← hempty]
  exact replay_run hstart steps

/-- A backend in `/p` that asks for watches of all sorts whenever it opens a file. -/
def demanding : Scripted :=
  { Scripted.bare ⟨"/p"⟩ with
    watchesOnOpen := [⟨⟨"gen"⟩, .directory⟩, ⟨⟨"../up"⟩, .file⟩, ⟨⟨"/"⟩, .directory⟩,
      ⟨⟨"gen/"⟩, .file⟩] }

/-- A request that needs a project, for a file that is in none. -/
def homeless : Step := .resolve ⟨⟨"a"⟩, "x", none, []⟩ true none

/-- The file is opened and then denied, for it is in no project. Two of the five requests are
passed over, and the last is for a path that has a watch by then. -/
theorem watches_replayed_for_denied_file : ∃ w v : World,
    create demanding {} = .ok w ∧
    v = (w.run [.watch ⟨"lib"⟩ .file]).asking [⟨⟨"/q"⟩, .file⟩] ∧
    v.opensFile homeless = true ∧
    (v.step homeless).1 = .resolved (.error (.notInProject ⟨"/p/a"⟩)) ∧
    grantable v.session.backend.directory v.session.backend.asked =
      [⟨⟨"/q"⟩, .file⟩, ⟨⟨"/p/gen"⟩, .directory⟩, ⟨⟨"/p/gen/"⟩, .file⟩] ∧
    v.Drains (v.step homeless).2 ∧
    Watch.Watcher.replay {} (w.errandsOf [.watch ⟨"lib"⟩ .file]) =
      .ok (w.run [.watch ⟨"lib"⟩ .file]).watcher := by
  have hreplayed := fun (w : World) (hw : create demanding {} = .ok w) =>
    watches_replayed hw [.watch ⟨"lib"⟩ .file]
  refine ⟨_, _, rfl, rfl, ?_, rfl, ?_, (hreplayed _ rfl).1 _ _ ?_, (hreplayed _ rfl).2⟩
  · decide
  · decide
  · decide

end World

end BackendSync
