import BackendSync.Toml.Reader

/-!
# Strings

There are four kinds of strings. Between `"` a backslash begins an escape, between `'`
every character stands for itself, and three quotes make either kind go over several
lines. A line end directly behind the three opening quotes does not count; up to two
quotes may stand directly before the three closing ones. In an escaped string of several
lines, a backslash at the end of a line joins the line to the next text.
-/

namespace BackendSync.Toml

/-- What a string reads to: its characters and the text behind it. -/
abbrev Quoted := Option (List Char × List Char)

/-- Puts a character in front of what a string reads to. -/
def Quoted.cons (c : Char) (q : Quoted) : Quoted := q.map fun (cs, rest) => (c :: cs, rest)

/-- The character of a one-letter escape. -/
def escaped? : Char → Option Char
  | 'b' => some '\x08'
  | 't' => some '\t'
  | 'n' => some '\n'
  | 'f' => some '\x0c'
  | 'r' => some '\r'
  | '"' => some '"'
  | '\\' => some '\\'
  | _ => none

/-- The value of a hexadecimal digit. -/
def hexDigit? (c : Char) : Option Nat :=
  if '0' ≤ c ∧ c ≤ '9' then some (c.toNat - '0'.toNat)
  else if 'a' ≤ c ∧ c ≤ 'f' then some (c.toNat - 'a'.toNat + 10)
  else if 'A' ≤ c ∧ c ≤ 'F' then some (c.toNat - 'A'.toNat + 10)
  else none

/-- The character with a number written in hexadecimal digits, if there is one. -/
def charOfHex? (digits : List Char) : Option Char := do
  let n ← digits.foldlM (fun n c => do return 16 * n + (← hexDigit? c)) 0
  if n.isValidChar then return Char.ofNat n else failure

namespace Quoted

/-- The rest of a string between `"` on one line. -/
def basic : List Char → Quoted
  | '"' :: rest => some ([], rest)
  | '\\' :: 'u' :: a :: b :: c :: d :: rest =>
    (charOfHex? [a, b, c, d]).bind fun e => cons e (basic rest)
  | '\\' :: 'U' :: a :: b :: c :: d :: e :: f :: g :: h :: rest =>
    (charOfHex? [a, b, c, d, e, f, g, h]).bind fun e => cons e (basic rest)
  | '\\' :: c :: rest => (escaped? c).bind fun e => cons e (basic rest)
  | c :: rest => if isPrintable c then cons c (basic rest) else none
  | [] => none

/-- The rest of a string between `'` on one line. -/
def literal : List Char → Quoted
  | '\'' :: rest => some ([], rest)
  | c :: rest => if isPrintable c then cons c (literal rest) else none
  | [] => none

/--
The rest of a string between `"""`. While `joining`, behind a backslash at the end of a
line, blanks and line ends do not count.
-/
def basicLines (joining : Bool) : List Char → Quoted
  | '"' :: '"' :: '"' :: '"' :: '"' :: rest => some (['"', '"'], rest)
  | '"' :: '"' :: '"' :: '"' :: rest => some (['"'], rest)
  | '"' :: '"' :: '"' :: rest => some ([], rest)
  | '\\' :: 'u' :: a :: b :: c :: d :: rest =>
    (charOfHex? [a, b, c, d]).bind fun e => cons e (basicLines false rest)
  | '\\' :: 'U' :: a :: b :: c :: d :: e :: f :: g :: h :: rest =>
    (charOfHex? [a, b, c, d, e, f, g, h]).bind fun e => cons e (basicLines false rest)
  | '\\' :: c :: rest =>
    if ((c :: rest).dropWhile isBlank).head? = some '\n' then basicLines true (c :: rest)
    else (escaped? c).bind fun e => cons e (basicLines false rest)
  | c :: rest =>
    if joining && (isBlank c || c = '\n') then basicLines true rest
    else if isPrintable c || c = '\n' then cons c (basicLines false rest)
    else none
  | [] => none

/-- The rest of a string between `'''`. -/
def literalLines : List Char → Quoted
  | '\'' :: '\'' :: '\'' :: '\'' :: '\'' :: rest => some (['\'', '\''], rest)
  | '\'' :: '\'' :: '\'' :: '\'' :: rest => some (['\''], rest)
  | '\'' :: '\'' :: '\'' :: rest => some ([], rest)
  | c :: rest => if isPrintable c || c = '\n' then cons c (literalLines rest) else none
  | [] => none

/-- The text without a line end at its front. -/
def skipLineEnd : List Char → List Char
  | '\n' :: rest => rest
  | cs => cs

end Quoted

namespace Reader

/-- Reads a string that stays on one line. -/
def lineString : Reader String := do
  let (cs, rest) ← match ← get with
    | '"' :: rest => Quoted.basic rest
    | '\'' :: rest => Quoted.literal rest
    | _ => none
  set rest
  return String.ofList cs

/-- Reads a string of any kind. -/
def string : Reader String := do
  let (cs, rest) ← match ← get with
    | '"' :: '"' :: '"' :: rest => Quoted.basicLines false (Quoted.skipLineEnd rest)
    | '\'' :: '\'' :: '\'' :: rest => Quoted.literalLines (Quoted.skipLineEnd rest)
    | '"' :: rest => Quoted.basic rest
    | '\'' :: rest => Quoted.literal rest
    | _ => none
  set rest
  return String.ofList cs

end Reader

end BackendSync.Toml
