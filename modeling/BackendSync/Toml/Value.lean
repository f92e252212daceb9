/-!
# Values of a TOML document

A document is a table of values. Tables come about in four ways, and what may still be
added to one depends on which of them it was: an inline table is closed, a table with a
header of its own cannot get a second header or be reached by a dotted key, a table that
was only implied by the headers below it can still get its header, and a table made by
dotted keys can only be extended by dotted keys.

What a value is matters no further than a configuration can tell, so floats and dates
are known as such and no more.
-/

namespace BackendSync.Toml

/-- How a table came about. -/
inductive TableKind where
  | inline
  | header
  | implied
  | dotted
deriving DecidableEq

/-- A value; arrays of tables made by headers are apart from arrays written as values. -/
inductive Value where
  | string (text : String)
  | integer (n : Int)
  | boolean (b : Bool)
  | float
  | datetime
  | array (items : List Value)
  | table (kind : TableKind) (entries : List (String × Value))
  | tables (elements : List (List (String × Value)))

/-- The entries of a table, in the order in which they came. -/
abbrev Entries := List (String × Value)

namespace Entries

/-- The value under a key. -/
def get? (es : Entries) (key : String) : Option Value := es.lookup key

/-- Replaces the value under a key that is there. -/
def set (es : Entries) (key : String) (value : Value) : Entries :=
  es.map fun e => if e.1 = key then (key, value) else e

/-- Adds an entry. -/
def add (es : Entries) (key : String) (value : Value) : Entries := es ++ [(key, value)]

/-- Changes the last of several tables. -/
def changeLast (f : Entries → Option Entries) (elements : List Entries) : Option (List Entries) := do
  let last ← elements.getLast?
  return elements.dropLast ++ [← f last]

/--
Changes the table that a header path leads to. Tables on the way that are not there yet
are implied; an array of tables is entered at its last element.
-/
def change (f : Entries → Option Entries) : List String → Entries → Option Entries
  | [], es => f es
  | key :: path, es =>
    match es.get? key with
    | none => do return es.add key (.table .implied (← change f path []))
    | some (.table .inline _) => none
    | some (.table kind inner) => do return es.set key (.table kind (← change f path inner))
    | some (.tables elements) => do
      return es.set key (.tables (← changeLast (change f path) elements))
    | some _ => none

/-- Begins the table of a header; its name must be new or only implied so far. -/
def beginTable (key : String) (es : Entries) : Option Entries :=
  match es.get? key with
  | none => some (es.add key (.table .header []))
  | some (.table .implied inner) => some (es.set key (.table .header inner))
  | some _ => none

/-- Begins the next table of an array of tables. -/
def beginElement (key : String) (es : Entries) : Option Entries :=
  match es.get? key with
  | none => some (es.add key (.tables [[]]))
  | some (.tables elements) => some (es.set key (.tables (elements ++ [[]])))
  | some _ => none

/-- Adds a value under a dotted key, whose last part is `key`. -/
def addDotted (key : String) (value : Value) : List String → Entries → Option Entries
  | [], es => if (es.get? key).isSome then none else some (es.add key value)
  | part :: path, es =>
    match es.get? part with
    | none => do return es.add part (.table .dotted (← addDotted key value path []))
    | some (.table .dotted inner) => do
      return es.set part (.table .dotted (← addDotted key value path inner))
    | some (.table .implied inner) =>
      if path.isEmpty then none
      else do return es.set part (.table .implied (← addDotted key value path inner))
    | some (.tables elements) =>
      if path.isEmpty then none
      else do return es.set part (.tables (← changeLast (addDotted key value path) elements))
    | some _ => none

end Entries

end BackendSync.Toml
