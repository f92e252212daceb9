import BackendSync.Backend.Basic
import BackendSync.Cache
import BackendSync.Config.Basic
import BackendSync.MatchSet
import BackendSync.Text.Ordered
import BackendSync.Watch.Registry

/-!
# Sessions

A `Session` holds what has to stay in step with one backend for as long as that lives:
the files that are open there, the watches, the extensions last sent, and the files that
used the default project in the current run. Every entry that leaves the cache of open
files is closed in the backend, so the two never drift apart.
-/

namespace BackendSync

/-- What is kept in step with a backend whose states are of type `β`. -/
structure Session (β : Type) where
  backend : β
  config : Config
  allowlist : Allowlist
  openFiles : Cache OpenedFile
  watches : Watch.Registry := .empty
  /-- The files of the current run that used the default project. -/
  used : MatchSet := .empty
  /-- The extra extensions last sent, in order. -/
  extensions : List String := []

namespace Session

variable {β Program : Type} [Backend β Program]

/-- The path seen from the current directory of the backend. -/
def absolute (s : Session β) (p : Path) : Path :=
  p.absolutize (Backend.currentDirectory s.backend)

/-- Sends the configured and the requested extensions if they are not those last sent. -/
def updateExtensions (s : Session β) (requested : List String) : Session β :=
  let wanted := Text.orderedSet (s.config.extraExtensions ++ requested)
  if wanted = s.extensions then s
  else { s with backend := Backend.setExtensions s.backend wanted, extensions := wanted }

/-- The message of a failure, from its outermost to its innermost cause. -/
def joinMessages (messages : List String) : String := String.intercalate ": " messages

/-- Has the backend use the default project of a configuration, if there is one. -/
def useDefaultProject (backend : β) (config : Config) : Option SyncError × β :=
  match config.defaultProject with
  | none => (none, backend)
  | some descriptor =>
    let path := descriptor.absolutize (Backend.currentDirectory backend)
    let (failure, backend) := Backend.setDefaultProject backend path
    (failure.map fun messages => .defaultProject path (joinMessages messages), backend)

/--
A session with a backend. The configuration is checked before anything is done to the
backend; a failure comes with the state that the backend is in then.
-/
def create (backend : β) (config : Config) : Except (SyncError × β) (Session β) := do
  config.validate.mapError (·, backend)
  let allowlist ← (Allowlist.compile config.allowDefaultProject).mapError (·, backend)
  if h : 0 < config.maximumOpenFiles then
    match useDefaultProject backend config with
    | (some e, backend) => throw (e, backend)
    | (none, backend) =>
      let openFiles := Cache.empty config.maximumOpenFiles h
      return updateExtensions { backend, config, allowlist, openFiles } []
  else throw (.invalidConfig ConfigFault.noOpenFiles.reason, backend)

/-! ## Open files -/

/-- Closes what left the cache of open files. -/
def closeAllOf (backend : β) (left : List (Path × OpenedFile)) : β :=
  left.foldl (fun b e => Backend.closeFile b e.1) backend

/-- Closes one file. Says whether it was open. -/
def closeFile (s : Session β) (p : Path) : Bool × Session β :=
  let (removed, openFiles) := s.openFiles.remove (s.absolute p)
  (removed.isSome, { s with backend := closeAllOf s.backend removed.toList, openFiles })

/-- Closes every open file, the least recently used one first. -/
def closeAll (s : Session β) : Session β :=
  let (left, openFiles) := s.openFiles.clear
  { s with backend := closeAllOf s.backend left, openFiles }

/-- Is the file open? -/
def isOpen (s : Session β) (p : Path) : Bool := s.openFiles.contains (s.absolute p)

/-! ## Watches -/

/-- Registers a watch. -/
def watch (s : Session β) (p : Path) (kind : Watch.Kind) :
    Except SyncError Watch.Handle × Session β :=
  let (handle, watches) := s.watches.register (s.absolute p) kind
  (handle.mapError .watch, { s with watches })

/-- Closes a watch. Says whether the handle still had one. -/
def closeWatch (s : Session β) (handle : Watch.Handle) : Bool × Session β :=
  let (closed, watches) := s.watches.close handle
  (closed, { s with watches })

/-- Registers one watch that the backend asked for, and goes on if that fails. -/
def registerRequest (directory : Path) (watches : Watch.Registry) (request : WatchRequest) :
    Watch.Registry :=
  (watches.register (request.path.absolutize directory) request.kind).2

/-- Registers the watches that the backend asked for. -/
def registerRequested (s : Session β) : Session β :=
  let directory := Backend.currentDirectory s.backend
  let (requests, backend) := Backend.takeWatchRequests s.backend
  { s with backend, watches := requests.foldl (registerRequest directory) s.watches }

/-! ## Runs -/

/-- Begins a new run. -/
def clearUsed (s : Session β) : Session β := { s with used := .empty }

end Session

end BackendSync
