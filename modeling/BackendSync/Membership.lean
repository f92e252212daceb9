import BackendSync.Error

/-!
# Project membership

A file either belongs to a configured project or falls back to the default project.
Where full type information is required, a configuration that says both or neither is
refused.
-/

namespace BackendSync

/-- Where a file gets its compiler options from. -/
inductive Membership where
  | configured
  | default
deriving DecidableEq

/-- What the backend reported when it opened a file. -/
structure OpenedFile where
  /-- The config file of the project that has the file; none means the default project. -/
  configFile : Option Path
deriving DecidableEq

namespace OpenedFile

/-- Did the file fall back to the default project? -/
def usesDefaultProject (o : OpenedFile) : Bool := o.configFile.isNone

/-- The membership that follows from how the file was opened. -/
def membership (o : OpenedFile) : Membership :=
  if o.usesDefaultProject then .default else .configured

end OpenedFile

/-- What is known of a file when its membership is decided. -/
structure Facts where
  /-- The absolute path. -/
  path : Path
  opened : OpenedFile
  /-- Does a configured project contain the file at this moment? -/
  inProject : Bool
  /-- Is the file on the allow-list? -/
  allowed : Bool

/--
The membership of a file. With `full` type information required, a file of a configured
project must not be allowed in the default project, and a file of no project must be.
-/
def Facts.classify (f : Facts) (full : Bool) : Except SyncError Membership :=
  let membership := f.opened.membership
  if !full then .ok membership
  else if f.inProject && f.allowed then .error (.allowlistConflict f.path)
  else if !f.allowed && !f.inProject && membership = .default then .error (.notInProject f.path)
  else .ok membership

end BackendSync
