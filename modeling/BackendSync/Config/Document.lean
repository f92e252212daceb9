import BackendSync.Config.Basic
import BackendSync.Toml.Document

/-!
# Configuration documents

A configuration is read from a TOML document. Keys that are not known do not matter,
whatever is under them; a known key must have a value of its type. The configuration is
checked once the whole document has been read.
-/

namespace BackendSync

open Toml (Value Entries)

namespace OrphanPolicy

/-- The policy of a name. -/
def ofName? : String → Option OrphanPolicy
  | "open" => some .tolerate
  | "reject" => some .reject
  | _ => none

end OrphanPolicy

namespace Config

/-- The text of a string value. -/
def asText? : Value → Option String
  | .string text => some text
  | _ => none

/-- The texts of an array of strings. -/
def asTexts? : Value → Option (List String)
  | .array items => items.mapM asText?
  | _ => none

/-- The number of an integer value that is not negative. -/
def asCount? : Value → Option Nat
  | .integer n => if 0 ≤ n then some n.toNat else none
  | _ => none

/-- The truth value. -/
def asFlag? : Value → Option Bool
  | .boolean b => some b
  | _ => none

/-- Is this a container without anything in it? -/
def isEmptyContainer : Value → Bool
  | .array items => items.isEmpty
  | .table _ entries => entries.isEmpty
  | .tables elements => elements.isEmpty
  | _ => false

/-- The policy: its name as a string, or as the only key of a table with nothing under it. -/
def asPolicy? : Value → Option OrphanPolicy
  | .string name => OrphanPolicy.ofName? name
  | .table _ [(name, value)] => if isEmptyContainer value then OrphanPolicy.ofName? name else none
  | _ => none

/-- The value under a key, read as what the key is for; a missing key leaves the default. -/
def field (entries : Entries) (key : String) (read : Value → Option α) (missing : α) : Option α :=
  match entries.get? key with
  | some value => read value
  | none => some missing

/-- The configuration in the entries of a document. -/
def ofEntries? (entries : Entries) : Option Config := do
  let base : Config := {}
  return {
    allowDefaultProject :=
      ← field entries "allow_default_project" asTexts? base.allowDefaultProject
    defaultProject :=
      ← field entries "default_project" (fun v => (asText? v).map fun text => some ⟨text⟩)
        base.defaultProject
    maximumOpenFiles := ← field entries "maximum_open_files" asCount? base.maximumOpenFiles
    maximumMatches :=
      ← field entries "maximum_default_project_file_match_count" asCount? base.maximumMatches
    incrementalSync := ← field entries "incremental_sync" asFlag? base.incrementalSync
    extraExtensions := ← field entries "extra_file_extensions" asTexts? base.extraExtensions
    orphanPolicy := ← field entries "orphan_policy" asPolicy? base.orphanPolicy }

/-- Reads and checks a configuration document. -/
def ofDocument (source : String) : Except SyncError Config :=
  match (Toml.readDocument source).bind ofEntries? with
  | none => .error .parseConfig
  | some config => do
    config.validate
    return config

/-- Reads and checks the configuration file at a path, given what reading its bytes gave. -/
def ofFile (path : Path) (content : Except ReadFailure ByteArray) : Except SyncError Config :=
  match content with
  | .error failure => .error (.readConfig path failure)
  | .ok bytes =>
    match String.fromUTF8? bytes with
    | none => .error (.readConfig path .notText)
    | some source => ofDocument source

end Config

end BackendSync
