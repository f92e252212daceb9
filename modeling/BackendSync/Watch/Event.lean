import BackendSync.Path.Basic

/-!
# Watches and what they see

A file watch covers one file, a directory watch a directory and all below it. Both are
registered on absolute paths without `..` pieces, other than the root.
-/

namespace BackendSync.Watch

/-- What is watched. -/
inductive Kind where
  | file
  | directory
deriving DecidableEq

/-- Why a path cannot be watched. -/
inductive Error where
  /-- The path does not start at the root. -/
  | relativePath (path : Path)
  /-- The path has a `..` piece. -/
  | notNormalized (path : Path)
  /-- The path is the root. -/
  | root
deriving DecidableEq

/-- The text shown for an error. -/
def Error.message : Error → String
  | relativePath path => "absolute paths only: " ++ path.spelling
  | notNormalized path => "path contains parent directory segments: " ++ path.spelling
  | root => "cannot watch the filesystem root"

/-- What happened to a file. -/
inductive EventKind where
  | create
  | modify
deriving DecidableEq

/-- A change as the watch on `watched` sees it. -/
structure Event where
  watched : Path
  path : Path
  kind : EventKind
deriving DecidableEq

end BackendSync.Watch
