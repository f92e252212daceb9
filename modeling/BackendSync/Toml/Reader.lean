/-!
# Readers of characters

A reader takes a part off the front of a text or fails. Alternatives begin again where
the one that failed began. Line ends are single line feeds: the two-character form is
replaced before reading, and a carriage return on its own is no character of a document.
-/

namespace BackendSync.Toml

/-- Reads a part of a text. -/
abbrev Reader := StateT (List Char) Option

/-- Writes each line end as one character. -/
def singleLineEnds : List Char → List Char
  | '\r' :: '\n' :: rest => '\n' :: singleLineEnds rest
  | c :: rest => c :: singleLineEnds rest
  | [] => []

/-- A space or a tab. -/
def isBlank (c : Char) : Bool := c = ' ' || c = '\t'

/-- A character of a comment or of a literal string; other control characters are refused. -/
def isPrintable (c : Char) : Bool := c = '\t' || (' ' ≤ c && c ≠ '\x7f')

namespace Reader

/-- Reads this character. -/
def char (c : Char) : Reader Unit := do
  let first :: rest ← get | failure
  guard (first = c)
  set rest

/-- Reads this text. -/
def text (s : String) : Reader Unit := s.toList.forM char

/-- Reads characters of a kind for as long as there are any. -/
def many (p : Char → Bool) : Reader (List Char) := do
  let cs ← get
  set (cs.dropWhile p)
  return cs.takeWhile p

/-- Reads a digit in base ten. -/
def digit : Reader Nat := do
  let first :: rest ← get | failure
  guard first.isDigit
  set rest
  return first.toNat - '0'.toNat

/-- Reads a number of exactly two digits. -/
def twoDigits : Reader Nat := do return 10 * (← digit) + (← digit)

/-- Reads spaces and tabs. -/
def blanks : Reader Unit := do discard (many isBlank)

/-- Reads a comment, if there is one, up to the end of the line. -/
def comment? : Reader Unit := do
  if (← get).head? = some '#' then discard (many isPrintable)

/-- Reads the end of a line or finds the end of the text. -/
def lineEnd : Reader Unit := do
  match ← get with
  | [] => return
  | '\n' :: rest => set rest
  | _ => failure

/-- Is the text at its end? -/
def atEnd : Reader Bool := do return (← get).isEmpty

/--
Reads what may stand between the items of an array: blanks, comments and line ends.
`inComment` says that a comment goes on.
-/
def gapRest (inComment : Bool) : List Char → Option (List Char)
  | [] => some []
  | c :: rest =>
    if c = '\n' then gapRest false rest
    else if inComment then if isPrintable c then gapRest true rest else none
    else if isBlank c then gapRest false rest
    else if c = '#' then gapRest true rest
    else some (c :: rest)

/-- Reads blanks, comments and line ends. -/
def gap : Reader Unit := do set (← gapRest false (← get))

end Reader

end BackendSync.Toml
