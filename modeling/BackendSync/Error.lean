import BackendSync.Watch.Event
import BackendSync.Glob.Pattern

/-!
# Errors of the service

Each error is a case of static misconfiguration, so none of them is worth a retry.
-/

namespace BackendSync

/-- Why a configuration file could not be read. -/
inductive ReadFailure where
  | notFound
  | isDirectory
  | notText
deriving DecidableEq

/-- The text shown for a read failure. -/
def ReadFailure.message : ReadFailure → String
  | notFound => "No such file or directory (os error 2)"
  | isDirectory => "Is a directory (os error 21)"
  | notText => "stream did not contain valid UTF-8"

/-- Why a file cannot be resolved or a session cannot be made. -/
inductive SyncError where
  /-- The file is in a configured project and on the allow-list too. -/
  | allowlistConflict (path : Path)
  /-- The file is in no configured project and not on the allow-list. -/
  | notInProject (path : Path)
  /-- More than `max` files used the default project; `files` are the first of them. -/
  | tooManyDefaultProjectFiles (max : Nat) (files : List Path) (remaining : Nat)
  /-- Nothing covers the file, and the policy is to reject such files. -/
  | orphanedFile (path : Path)
  /-- The backend refused the descriptor of the default project. -/
  | defaultProject (path : Path) (message : String)
  /-- A value of the configuration is out of range. -/
  | invalidConfig (reason : String)
  /-- A glob of the allow-list, or the list as a whole, cannot be matched. -/
  | invalidGlob (pattern : String) (cause : Glob.Error)
  /-- The configuration file could not be read. -/
  | readConfig (path : Path) (failure : ReadFailure)
  /-- The configuration file is no document of the right form. -/
  | parseConfig
  /-- A watch could not be registered. -/
  | watch (cause : Watch.Error)
deriving DecidableEq

namespace SyncError

/-- Why it matters how many files use the default project. -/
def defaultProjectExplanation : String :=
  "\n\nHaving many files run with the default project is known to cause performance issues " ++
    "and slow down linting."

/-- The text shown for a run in which too many files used the default project. -/
def tooManyMessage (max : Nat) (files : List Path) (remaining : Nat) : String :=
  "Too many files (>" ++ max.repr ++ ") have matched the default project." ++
    defaultProjectExplanation ++ "\nMatching files:\n" ++
    String.join (files.map fun file => "- " ++ file.spelling ++ "\n") ++
    (if 0 < remaining then "...and " ++ remaining.repr ++ " more files\n" else "") ++
    "\nIf you absolutely need more files included, set " ++
    "maximum_default_project_file_match_count to a larger value.\n"

/-- The text shown for an error. -/
def message : SyncError → String
  | allowlistConflict path =>
    path.spelling ++ " was included by allow_default_project but also was found in the project " ++
      "service. Consider removing it from allow_default_project."
  | notInProject path =>
    path.spelling ++ " was not found by the project service. Consider either including it in the " ++
      "project config or including it in allow_default_project."
  | tooManyDefaultProjectFiles max files remaining => tooManyMessage max files remaining
  | orphanedFile path =>
    path.spelling ++ " is not covered by any configured project or registered watch, and is not " ++
      "included in allow_default_project."
  | defaultProject path message =>
    "Could not parse default project '" ++ path.spelling ++ "': " ++ message
  | invalidConfig reason => "invalid configuration: " ++ reason
  | invalidGlob pattern cause =>
    "invalid allow_default_project glob '" ++ pattern ++ "': error parsing glob '" ++ pattern ++
      "': " ++ cause.message
  | readConfig path failure =>
    "failed to read config " ++ path.spelling ++ ": " ++ failure.message
  | parseConfig => "failed to parse config"
  | watch cause => cause.message

end SyncError

end BackendSync
