import BackendSync.Path.Relative
import BackendSync.Glob.Basic
import BackendSync.Error

/-!
# The allow-list of the default project

Globs of files that may use the default project although no configured project has
them. A file is on the list if any glob accepts it.
-/

namespace BackendSync

/-- Patterns and the globs read from them. -/
structure Allowlist where
  patterns : List String
  globs : List Glob

namespace Allowlist

/-- Reads a pattern of the list. -/
def readGlob (pattern : String) : Except SyncError Glob :=
  (Glob.ofPattern pattern).mapError (.invalidGlob pattern)

/--
Compiles patterns. The first pattern that cannot be read is reported; that a glob cannot
be matched comes to light only when all have been read, and is a fault of the list.
-/
def compile (patterns : List String) : Except SyncError Allowlist := do
  let globs ← patterns.mapM readGlob
  if globs.all Glob.isMatchable then return ⟨patterns, globs⟩
  else throw (.invalidGlob (String.intercalate ", " patterns) .nestedTooDeeply)

/-- Is the list empty? -/
def isEmpty (a : Allowlist) : Bool := a.patterns.isEmpty

/-- Is the path, as it is spelled, on the list? -/
def accepts (a : Allowlist) (p : Path) : Bool := a.globs.any (·.accepts p)

/-- Is the path on the list, seen from `root` if it lies below? -/
def acceptsFrom (a : Allowlist) (p root : Path) : Bool := a.accepts (p.relativeTo root)

end Allowlist

end BackendSync
