import BackendSync.Path.Map
import BackendSync.Path.Set
import BackendSync.Backend.Basic

/-!
# A scripted backend

A backend that does what a script says, for driving a session without an analyser. Its
projects are lists of files, the program of a file is its live text, and it keeps a log
of all that was done to it.

Behind the back of a session, a `Change` may be made to it at any time: buffers are
dropped or overwritten, and projects come, go and change.
-/

namespace BackendSync

/-- A configured project and the files in it. -/
structure Project where
  configFile : Path
  files : PathSet

/-- What was done to a backend. -/
inductive Effect where
  | opened (path : Path) (text : String) (root : Path)
  | closed (path : Path)
  | edited (path : Path) (edit : Edit)
  | extensions (extensions : List String)
  | defaultProject (path : Path)
  | notified (event : Watch.Event)
deriving DecidableEq

/-- The state of a scripted backend. -/
structure Scripted where
  directory : Path
  projects : List Project
  /-- The project that files enter when their creation is reported. -/
  adopter : Option Nat
  /-- The watches asked for whenever a file is opened. -/
  watchesOnOpen : List WatchRequest
  /-- Config files reported for paths, whatever the projects say. -/
  openConfig : PathMap Path
  /-- Paths that have no program. -/
  withoutProgram : PathSet
  /-- Messages of the failure to use a default project; there is none if this is empty. -/
  defaultProjectErrors : List String
  /-- Live texts. -/
  buffers : PathMap String := ∅
  /-- Watches asked for and not yet handed out. -/
  queue : List WatchRequest := []
  /-- Everything that was done, the oldest first. -/
  log : List Effect := []

namespace Scripted

/-- Writes an effect to the log. -/
def record (b : Scripted) (e : Effect) : Scripted := { b with log := b.log ++ [e] }

/-- The first project that contains a path. -/
def projectOf? (b : Scripted) (p : Path) : Option Project :=
  b.projects.find? fun project => decide (p ∈ project.files)

/-- What opening a path reports at this moment. -/
def report (b : Scripted) (p : Path) : OpenedFile :=
  ⟨(b.openConfig.get? p).orElse fun () => (b.projectOf? p).map (·.configFile)⟩

/-- Adds a file to a project. -/
def addToProject (b : Scripted) (i : Nat) (p : Path) : Scripted :=
  { b with projects := b.projects.modify i fun project =>
      { project with files := project.files.insert p } }

/-- Opens a file. -/
def openFile (b : Scripted) (path : Path) (text : String) (root : Path) : OpenedFile × Scripted :=
  (b.report path,
    { b.record (.opened path text root) with
      queue := b.queue ++ b.watchesOnOpen
      buffers := b.buffers.insert path text })

/-- Closes a file. -/
def closeFile (b : Scripted) (path : Path) : Scripted :=
  { b.record (.closed path) with buffers := b.buffers.erase path }

/-- Edits a live text. An edit that does not fit the text leaves it as it is. -/
def applyEdit (b : Scripted) (path : Path) (e : Edit) : Scripted :=
  let edited := (b.buffers.get? path).bind e.applyTo?
  { b.record (.edited path e) with
    buffers := match edited with
      | some text => b.buffers.insert path text
      | none => b.buffers }

/-- The program of a file is its live text. -/
def program? (b : Scripted) (path : Path) : Option String :=
  if path ∈ b.withoutProgram then none else b.buffers.get? path

/-- Delivers a watch event; a file reported as created may enter a project. -/
def notify (b : Scripted) (event : Watch.Event) : Scripted :=
  let b := b.record (.notified event)
  match event.kind, b.adopter with
  | .create, some i => b.addToProject i event.path
  | _, _ => b

instance : Backend Scripted String where
  currentDirectory := directory
  openFile := openFile
  closeFile := closeFile
  bufferText? b := b.buffers.get?
  applyEdit := applyEdit
  inProject b p := (b.projectOf? p).isSome
  program? := program?
  setExtensions b extensions := b.record (.extensions extensions)
  setDefaultProject b path :=
    (if b.defaultProjectErrors.isEmpty then none else some b.defaultProjectErrors,
      b.record (.defaultProject path))
  notify := notify
  takeWatchRequests b := (b.queue, { b with queue := [] })

/-! ## Changes from outside -/

/-- A change that is made to the backend behind the back of a session. -/
inductive Change where
  /-- Drops a live text. -/
  | dropBuffer (path : Path)
  /-- Replaces a live text. -/
  | overwrite (path : Path) (text : String)
  /-- Says whether a path has a program. -/
  | setProgram (path : Path) (available : Bool)
  | addProject (project : Project)
  | removeProject (index : Nat)
  | addFile (index : Nat) (path : Path)
  | removeFile (index : Nat) (path : Path)
  /-- Replaces the watches asked for whenever a file is opened. -/
  | requestWatches (requests : List WatchRequest)

/-- Is the path in a project? -/
def hasFile (b : Scripted) (i : Nat) (p : Path) : Bool :=
  (b.projects[i]?.map fun project => decide (p ∈ project.files)).getD false

/--
Makes a change. Nothing is logged. For most changes the answer says whether there was
anything to change.
-/
def change (b : Scripted) : Change → Bool × Scripted
  | .dropBuffer path => (b.buffers.contains path, { b with buffers := b.buffers.erase path })
  | .overwrite path text =>
    if b.buffers.contains path then (true, { b with buffers := b.buffers.insert path text })
    else (false, b)
  | .setProgram path true =>
    (path ∈ b.withoutProgram, { b with withoutProgram := b.withoutProgram.erase path })
  | .setProgram path false =>
    (path ∉ b.withoutProgram, { b with withoutProgram := b.withoutProgram.insert path })
  | .addProject project => (true, { b with projects := b.projects ++ [project] })
  | .removeProject index =>
    (index < b.projects.length, { b with projects := b.projects.eraseIdx index })
  | .addFile index path =>
    (index < b.projects.length && !b.hasFile index path, b.addToProject index path)
  | .removeFile index path =>
    (b.hasFile index path,
      { b with projects := b.projects.modify index fun project =>
          { project with files := project.files.erase path } })
  | .requestWatches requests => (true, { b with watchesOnOpen := requests })

end Scripted

end BackendSync
