import BackendSync.Toml.Number

/-!
# Documents

A document is a sequence of lines: a key with its value, the header of a table, or
nothing, each with an optional comment. Keys before the first header belong to the
document itself.

Arrays and inline tables are nested less than `nestingLimit` deep, and a dotted key has
fewer parts than that.
-/

namespace BackendSync.Toml

/-- Containers and keys have fewer levels than this. -/
def nestingLimit : Nat := 80

/-- A character of a key without quotes. -/
def isBareKey (c : Char) : Bool := c.isAlphanum || c = '_' || c = '-'

namespace Reader

/-- Reads one part of a key. -/
def keyPart : Reader String := lineString <|> do
  let cs ← many isBareKey
  guard (!cs.isEmpty)
  return String.ofList cs

/-- Reads the parts of a key behind the first one. -/
def keyParts : Nat → Reader (List String)
  | 0 => return []
  | fuel + 1 => (do
      char '.'
      blanks
      let part ← keyPart
      blanks
      return part :: (← keyParts fuel)) <|> pure []

/-- Reads a dotted key: its last part, and the parts before it. -/
def key : Reader (List String × String) := do
  blanks
  let first ← keyPart
  blanks
  let parts := first :: (← keyParts (← get).length)
  guard (parts.length < nestingLimit)
  return (parts.dropLast, parts.getLast?.getD "")

mutual

/--
Reads a value. `levels` is the number of containers that may still be opened, and `fuel`
bounds the number of steps; twice the length of the text is enough, since a value and the
items of a container take turns and each container and each item has a character of its own.
-/
def value (levels : Nat) : Nat → Reader Value
  | 0 => failure
  | fuel + 1 => do
    match ← get with
    | '"' :: _ => return .string (← string)
    | '\'' :: _ => return .string (← string)
    | '[' :: rest =>
      set rest
      guard (1 < levels)
      gap
      return .array (← items (levels - 1) fuel)
    | '{' :: rest =>
      set rest
      guard (1 < levels)
      blanks
      (do char '}'; return .table .inline []) <|> do
        return .table .inline (← pairs (levels - 1) [] fuel)
    | _ =>
      (do text "true"; return .boolean true) <|> (do text "false"; return .boolean false) <|>
        -- A date begins like a number, so it is tried first.
        datetime <|> number

/-- Reads the items of an array up to its end; a comma may stand behind the last one. -/
def items (levels : Nat) : Nat → Reader (List Value)
  | 0 => failure
  | fuel + 1 => (do char ']'; return []) <|> do
    let item ← value levels fuel
    gap
    (do char ']'; return [item]) <|> do
      char ','
      gap
      return item :: (← items levels fuel)

/-- Reads the entries of an inline table up to its end. -/
def pairs (levels : Nat) (entries : Entries) : Nat → Reader Entries
  | 0 => failure
  | fuel + 1 => do
    let (path, last) ← key
    char '='
    blanks
    let v ← value levels fuel
    let entries ← Entries.addDotted last v path entries
    blanks
    (do char '}'; return entries) <|> do
      char ','
      blanks
      pairs levels entries fuel

end

end Reader

/-- A document that is being read: its entries, and the table that lines belong to. -/
structure Draft where
  entries : Entries
  table : List String

namespace Reader

/-- Reads a header, `[key]` or `[[key]]`. -/
def header (d : Draft) : Reader Draft := do
  char '['
  (do
    char '['
    let (path, last) ← key
    text "]]"
    return ⟨← Entries.change (Entries.beginElement last) path d.entries, path ++ [last]⟩) <|> do
    let (path, last) ← key
    char ']'
    return ⟨← Entries.change (Entries.beginTable last) path d.entries, path ++ [last]⟩

/-- Reads a key and its value. -/
def entry (d : Draft) : Reader Draft := do
  let (path, last) ← key
  char '='
  blanks
  let v ← value nestingLimit (2 * (← get).length)
  return { d with entries := ← Entries.change (Entries.addDotted last v path) d.table d.entries }

/-- Reads what a line says. -/
def statement (d : Draft) : Reader Draft := do
  match ← get with
  | '[' :: _ => header d
  | '#' :: _ => return d
  | '\n' :: _ => return d
  | [] => return d
  | _ => entry d

/-- Reads lines up to the end of the text. -/
def lines (d : Draft) : Nat → Reader Draft
  | 0 => return d
  | fuel + 1 => do
    blanks
    let d ← statement d
    blanks
    comment?
    lineEnd
    if ← atEnd then return d else lines d fuel

end Reader

/-- The entries of a document; a byte order mark in front does not count. -/
def readDocument (source : String) : Option Entries := do
  let cs := match source.toList with
    | '\uFEFF' :: rest => singleLineEnds rest
    | cs => singleLineEnds cs
  let (d, rest) ← (Reader.lines ⟨[], []⟩ (cs.length + 1)).run cs
  if rest.isEmpty then return d.entries else none

end BackendSync.Toml
