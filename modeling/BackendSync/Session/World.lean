import BackendSync.Backend.Scripted
import BackendSync.Session.Resolve

/-!
# Worlds

A `World` is a session with a scripted backend, the watch handles that were returned so
far, and the match sets that callers own under names. A `Step` is anything that can
happen to it: a call of the session, or a change of the backend behind its back.
-/

namespace BackendSync

/-- A session with a scripted backend, and what its callers hold. -/
structure World where
  session : Session Scripted
  /-- The handles returned so far, the oldest first. -/
  handles : List Watch.Handle := []
  /-- The match sets that callers own, by name. -/
  runs : String → Option MatchSet := fun _ => none

/-- Something that happens to a world. -/
inductive Step where
  /-- Resolves a file, in a run of the caller's if one is named. -/
  | resolve (request : Request) (full : Bool) (run : Option String)
  | closeFile (path : Path)
  | closeAll
  | isOpen (path : Path)
  | clearUsed
  | watch (path : Path) (kind : Watch.Kind)
  /-- Closes the watch of a handle, by its place in the list of handles. -/
  | closeWatch (handle : Nat)
  | config
  /-- Puts paths into a run of the caller's. -/
  | addToRun (run : String) (paths : List Path)
  | filesOfRun (run : String)
  /-- Looks at a live text. -/
  | buffer (path : Path)
  | change (change : Scripted.Change)

/-- The answer to a step. -/
inductive Reply where
  | done
  | flag (b : Bool)
  | flags (bs : List Bool)
  | resolved (outcome : Outcome String)
  | watched (handle : Except SyncError Watch.Handle)
  | config (config : Config)
  | files (files : Option (List Path))
  | text (text : Option String)

namespace World

/-- The world of a new session. -/
def create (backend : Scripted) (config : Config) : Except (SyncError × Scripted) World := do
  return { session := ← Session.create backend config }

/-- The match set of a name; one that is used for the first time is empty. -/
def runOf (w : World) (name : String) : MatchSet := (w.runs name).getD .empty

/-- Replaces the match set of a name. -/
def setRun (w : World) (name : String) (used : MatchSet) : World :=
  { w with runs := fun other => if other = name then some used else w.runs other }

/-- Inserts paths one after another. Says of each whether it was new. -/
def insertAll (used : MatchSet) : List Path → List Bool × MatchSet
  | [] => ([], used)
  | p :: rest =>
    let (new, used) := used.insert p
    let (flags, used) := insertAll used rest
    (new :: flags, used)

/-- What a step answers, and the world after it. -/
def step (w : World) : Step → Reply × World
  | .resolve request full none =>
    let (outcome, session) := w.session.resolve request full
    (.resolved outcome, { w with session })
  | .resolve request full (some run) =>
    let (outcome, used, session) := w.session.resolveWith request full (w.runOf run)
    (.resolved outcome, { w with session }.setRun run used)
  | .closeFile path =>
    let (closed, session) := w.session.closeFile path
    (.flag closed, { w with session })
  | .closeAll => (.done, { w with session := w.session.closeAll })
  | .isOpen path => (.flag (w.session.isOpen path), w)
  | .clearUsed => (.done, { w with session := w.session.clearUsed })
  | .watch path kind =>
    let (handle, session) := w.session.watch path kind
    (.watched handle, { w with session, handles := w.handles ++ handle.toOption.toList })
  | .closeWatch i =>
    match w.handles[i]? with
    | some handle =>
      let (closed, session) := w.session.closeWatch handle
      (.flag closed, { w with session })
    | none => (.flag false, w)
  | .config => (.config w.session.config, w)
  | .addToRun run paths =>
    let (flags, used) := insertAll (w.runOf run) paths
    (.flags flags, w.setRun run used)
  | .filesOfRun run => (.files ((w.runs run).map (·.files.toList)), w)
  | .buffer path => (.text (w.session.backend.buffers.get? path), w)
  | .change change =>
    let (answer, backend) := w.session.backend.change change
    (.flag answer, { w with session := { w.session with backend } })

/-- The world after a list of steps. -/
def run (w : World) (steps : List Step) : World := steps.foldl (fun w step => (w.step step).2) w

/-- What was done to the backend so far. -/
def log (w : World) : List Effect := w.session.backend.log

end World

end BackendSync
