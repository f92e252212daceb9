import BackendSync.Allowlist

/-!
# Configuration

The limits must leave room for at least one file, and the allow-list must not be so wide
that whole trees of files could end up in the default project: `*` alone and `**`
anywhere in a pattern are refused. What is wrong with the limits or the width of the list
is reported before what is wrong with the form of a pattern.
-/

namespace BackendSync

/-- What to do with a file that is in no configured project when it is first seen. -/
inductive OrphanPolicy where
  /-- Open it and let its membership decide. -/
  | tolerate
  /-- Refuse it, unless a watch covers it or it is on the allow-list. -/
  | reject
deriving DecidableEq

/-- The settings of one session. -/
structure Config where
  /-- Globs of the files that may use the default project. -/
  allowDefaultProject : List String := []
  /-- The descriptor that the default project takes its options from. -/
  defaultProject : Option Path := none
  /-- How many files the backend holds open at once. -/
  maximumOpenFiles : Nat := 16
  /-- How many files may use the default project in one run. -/
  maximumMatches : Nat := 8
  /-- Are changes sent as character edits, and not as whole texts? -/
  incrementalSync : Bool := false
  /-- File extensions that the backend should know besides its own. -/
  extraExtensions : List String := []
  orphanPolicy : OrphanPolicy := .tolerate
deriving DecidableEq

/-- Why a configuration is out of range. -/
inductive ConfigFault where
  | noOpenFiles
  | noMatches
  /-- The pattern `*`. -/
  | wideStar
  /-- A pattern with `**` in it. -/
  | doubleStar (pattern : String)
deriving DecidableEq

/-- The text shown for a fault. -/
def ConfigFault.reason : ConfigFault → String
  | noOpenFiles => "maximum_open_files must be at least 1"
  | noMatches => "maximum_default_project_file_match_count must be at least 1"
  | wideStar =>
    "allow_default_project contains the overly wide '*'." ++ SyncError.defaultProjectExplanation
  | doubleStar pattern =>
    "allow_default_project glob '" ++ pattern ++ "' contains a disallowed '**'." ++
      SyncError.defaultProjectExplanation

namespace Config

/-- Are there two stars next to each other? -/
def hasDoubleStar : List Char → Bool
  | '*' :: '*' :: _ => true
  | _ :: rest => hasDoubleStar rest
  | [] => false

/-- What makes a pattern too wide. -/
def patternFault? (pattern : String) : Option ConfigFault :=
  if pattern = "*" then some .wideStar
  else if hasDoubleStar pattern.toList then some (.doubleStar pattern)
  else none

/-- The first fault of a configuration. -/
def fault? (c : Config) : Option ConfigFault :=
  if c.maximumOpenFiles = 0 then some .noOpenFiles
  else if c.maximumMatches = 0 then some .noMatches
  else c.allowDefaultProject.findSome? patternFault?

/-- Checks the ranges, the width of the allow-list and then the form of its patterns. -/
def validate (c : Config) : Except SyncError Unit :=
  match c.fault? with
  | some fault => .error (.invalidConfig fault.reason)
  | none => (Allowlist.compile c.allowDefaultProject).map fun _ => ()

end Config

end BackendSync
