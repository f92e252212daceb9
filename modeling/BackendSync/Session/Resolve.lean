import BackendSync.Session.Basic
import BackendSync.Diff.Run

/-!
# Resolving a file

A request brings a file of the backend up to date and asks for its compiled program:

1. the extensions are sent if they changed;
2. a file that is open gets its new text, as edits or as a whole; a file that is not, or
   whose text the backend has dropped, is opened;
3. before a file is opened for the first time, a file that no configured project has is
   announced to the nearest watch on it, or refused if the policy says so;
4. the membership of the file is decided, its program fetched, and the use of the default
   project counted against the cap.
-/

namespace BackendSync

/-- A file to resolve. -/
structure Request where
  path : Path
  /-- The current text of the file. -/
  code : String
  /-- The directory handed to the backend, and which the allow-list is relative to. -/
  root : Option Path
  extensions : List String

/-- The program of a file. -/
structure Resolved (Program : Type) where
  path : Path
  program : Program
  configFile : Option Path
  usedDefaultProject : Bool
deriving DecidableEq

/-- The answer to a request; the program may not be ready yet. -/
abbrev Outcome (Program : Type) := Except SyncError (Option (Resolved Program))

namespace Session

variable {β Program : Type} [Backend β Program]

/-- The edits that take the live text of an open file to its new text. -/
def editsFor (config : Config) (live code : String) : List Edit :=
  if live = code then []
  else if config.incrementalSync then Diff.edits live code
  else Edit.replaceAll live.utf8ByteSize code

/-- Sends the new text of an open file, unless the backend has dropped the file's text. -/
def sync? (s : Session β) (path : Path) (code : String) : Option OpenedFile × Session β :=
  -- The text may have been changed behind the session, so the backend is asked for it.
  match Backend.bufferText? s.backend path with
  | none => (none, s)
  | some live =>
    match s.openFiles.get path with
    | (none, openFiles) => (none, { s with openFiles })
    | (some opened, openFiles) =>
      let edits := editsFor s.config live code
      let backend := edits.foldl (fun b e => Backend.applyEdit b path e) s.backend
      (some opened, { s with backend, openFiles })

/--
Announces a file that no configured project has to the nearest watch. Without such a
watch the file is refused, if that is the policy and it is not on the allow-list.
-/
def announce (s : Session β) (path : Path) (allowed : Bool) : Except SyncError Unit × Session β :=
  if Backend.inProject s.backend path then (.ok (), s)
  else
    match s.watches.trigger path with
    | some event => (.ok (), { s with backend := Backend.notify s.backend event })
    | none =>
      if s.config.orphanPolicy = .reject && !allowed then (.error (.orphanedFile path), s)
      else (.ok (), s)

/-- Opens a file, closes the one that has to leave for it, and registers requested watches. -/
def openFile (s : Session β) (path : Path) (code : String) (root : Path) : OpenedFile × Session β :=
  let (opened, backend) := Backend.openFile s.backend path code root
  let (evicted, openFiles) := s.openFiles.insert path opened
  let s := { s with backend := closeAllOf backend evicted.toList, openFiles }
  (opened, s.registerRequested)

/--
Brings a file of the backend up to date. Returns how it is open or why it is refused, and the
session after it.
-/
def bringUp (s : Session β) (path : Path) (code : String) (root : Path) (allowed : Bool) :
    Except SyncError OpenedFile × Session β :=
  if s.openFiles.contains path then
    match s.sync? path code with
    | (some opened, s) => (.ok opened, s)
    | (none, s) =>
      let (opened, s) := s.openFile path code root
      (.ok opened, s)
  else
    match s.announce path allowed with
    | (.error e, s) => (.error e, s)
    | (.ok (), s) =>
      let (opened, s) := s.openFile path code root
      (.ok opened, s)

/-- Decides membership, fetches the program and counts the use of the default project. -/
def conclude (s : Session β) (path : Path) (opened : OpenedFile) (allowed full : Bool)
    (used : MatchSet) : Outcome Program × MatchSet :=
  let facts : Facts := ⟨path, opened, Backend.inProject s.backend path, allowed⟩
  match facts.classify full with
  | .error e => (.error e, used)
  | .ok membership =>
    match Backend.program? s.backend path with
    | none => (.ok none, used)
    | some program =>
      let usedDefault := membership = .default
      let used := if usedDefault then (used.insert path).2 else used
      -- Every request is checked: a set of the caller's may have been over the cap before.
      match used.check s.config.maximumMatches with
      | .error e => (.error e, used)
      | .ok () => (.ok (some ⟨path, program, opened.configFile, usedDefault⟩), used)

/--
Resolves a file, counting the use of the default project in a set that the caller owns.
`full` says that full type information is required.
-/
def resolveWith (s : Session β) (request : Request) (full : Bool) (used : MatchSet) :
    Outcome Program × MatchSet × Session β :=
  let s := s.updateExtensions request.extensions
  let path := s.absolute request.path
  let root := (request.root.map s.absolute).getD (Backend.currentDirectory s.backend)
  let allowed := s.allowlist.acceptsFrom path root
  match s.bringUp path request.code root allowed with
  | (.error e, s) => (.error e, used, s)
  | (.ok opened, s) =>
    let (outcome, used) := s.conclude path opened allowed full used
    (outcome, used, s)

/-- Resolves a file, counting the use of the default project in the session's own set. -/
def resolve (s : Session β) (request : Request) (full : Bool) : Outcome Program × Session β :=
  let (outcome, used, s) := s.resolveWith request full s.used
  (outcome, { s with used })

end Session

end BackendSync
