import BackendSync.Membership
import BackendSync.Text.Edit

/-!
# The analysis backend

A backend parses and checks files, groups them into projects and hands out compiled
programs. A session sees it only through the operations of the class `Backend`, each of
which takes the state of the backend to its next state.
-/

namespace BackendSync

/-- A watch that the backend asks for while it opens a file. -/
structure WatchRequest where
  path : Path
  kind : Watch.Kind
deriving DecidableEq

/-- A backend whose states are of type `β`, with compiled programs of type `Program`. -/
class Backend (β : Type) (Program : outParam Type) where
  /-- The directory that relative paths are seen from. -/
  currentDirectory : β → Path
  /-- Opens a path with a text below a root; the backend picks the project. -/
  openFile : β → Path → String → Path → OpenedFile × β
  /-- Closes an open path. -/
  closeFile : β → Path → β
  /-- The live text of a path, if the backend still holds one. -/
  bufferText? : β → Path → Option String
  /-- Edits the live text of a path. -/
  applyEdit : β → Path → Edit → β
  /-- Does a configured project contain the path at this moment? -/
  inProject : β → Path → Bool
  /-- The compiled program of a path; none while it is not ready. -/
  program? : β → Path → Option Program
  /-- Replaces the extra file extensions. -/
  setExtensions : β → List String → β
  /-- Uses a descriptor for the default project. Messages of a failure, the outermost first. -/
  setDefaultProject : β → Path → Option (List String) × β
  /-- Delivers a watch event. -/
  notify : β → Watch.Event → β
  /-- Hands out the watches that were asked for since the last time. -/
  takeWatchRequests : β → List WatchRequest × β

end BackendSync
