import BackendSync.Toml.Reader
import BackendSync.Toml.Value
import BackendSync.Toml.Quoted

/-!
# Numbers, dates and times

Integers are written in base ten with an optional sign, or in base two, eight or
sixteen behind a marker and without a sign. An underscore may stand between two digits.
They must fit into 64 bits with a sign. A float has a fraction, an exponent or both; a
positive one must be finite as a number of double precision.
-/

namespace BackendSync.Toml

/-- The digits of a number behind its first one, and the text behind them. -/
def moreDigits (digit? : Char → Option Nat) : List Char → Option (List Nat × List Char)
  | '_' :: c :: rest => do
    let d ← digit? c
    let (ds, rest) ← moreDigits digit? rest
    return (d :: ds, rest)
  | ['_'] => none
  | c :: rest =>
    match digit? c with
    | some d => (moreDigits digit? rest).map fun (ds, rest) => (d :: ds, rest)
    | none => some ([], c :: rest)
  | [] => some ([], [])

/-- The number that digits in a base write. -/
def ofDigits (base : Nat) (digits : List Nat) : Nat := digits.foldl (fun n d => base * n + d) 0

/-- Does the integer fit into 64 bits with a sign? -/
def fitsInt64 (n : Int) : Bool := -9223372036854775808 ≤ n && n ≤ 9223372036854775807

/--
Is `m * 10 ^ e` too large for double precision? Numbers from half a unit above the largest
finite one on are.
-/
def overflowsDouble (m : Nat) (e : Int) : Bool :=
  let size : Int := (Nat.toDigits 10 m).length + e
  if m = 0 ∨ size < 300 then false
  else if 400 < size then true
  else
    let bound := Nat.pow 2 1024 - Nat.pow 2 970
    bound ≤ (if 0 ≤ e then m * Nat.pow 10 e.toNat else m / Nat.pow 10 (-e).toNat)

namespace Reader

/-- Reads digits with underscores between them. -/
def digits (digit? : Char → Option Nat) : Reader (List Nat) := do
  let c :: rest ← get | failure
  let d ← digit? c
  let (ds, rest) ← moreDigits digit? rest
  set rest
  return d :: ds

/-- The value of a digit in a base up to sixteen. -/
def digitIn? (base : Nat) (c : Char) : Option Nat := (hexDigit? c).filter (· < base)

/-- Reads a sign; is it a minus? -/
def sign : Reader Bool := (do char '-'; return true) <|> (do char '+'; return false) <|> pure false

/-- Reads the digits before the point; a zero stands alone. -/
def wholeDigits : Reader (List Nat) := (do char '0'; return [0]) <|> digits (digitIn? 10)

/-- Reads an integer behind the marker of its base. -/
def markedInteger : Reader Value := do
  let base ← (do text "0x"; return 16) <|> (do text "0o"; return 8) <|> (do text "0b"; return 2)
  let n := ofDigits base (← digits (digitIn? base))
  guard (fitsInt64 n)
  return .integer n

/-- Reads a fraction; its digits. -/
def fraction : Reader (List Nat) := do char '.'; digits (digitIn? 10)

/-- Reads an exponent of ten. -/
def exponent : Reader Int := do
  char 'e' <|> char 'E'
  let minus ← sign
  let n := ofDigits 10 (← digits (digitIn? 10))
  return if minus then -n else n

/-- Reads a float. -/
def float : Reader Value := do
  let minus ← sign
  (do text "inf" <|> text "nan"; return .float) <|> do
    let whole ← wholeDigits
    let (places, power) ←
      (do return ([], ← exponent)) <|> (do return (← fraction, ← exponent <|> pure 0))
    guard (minus || !overflowsDouble (ofDigits 10 (whole ++ places)) (power - places.length))
    return .float

/-- Reads an integer in base ten. -/
def decimalInteger : Reader Value := do
  let minus ← sign
  let n := ofDigits 10 (← wholeDigits)
  let n : Int := if minus then -n else n
  guard (fitsInt64 n)
  return .integer n

/-- Reads a number. -/
def number : Reader Value := markedInteger <|> float <|> decimalInteger

end Reader

/-! ## Dates and times -/

/-- Has the year a leap day? -/
def isLeapYear (year : Nat) : Bool := year % 4 = 0 && (year % 100 ≠ 0 || year % 400 = 0)

/-- The number of days of a month. -/
def daysIn (year month : Nat) : Nat :=
  if month = 2 then if isLeapYear year then 29 else 28
  else if month = 4 ∨ month = 6 ∨ month = 9 ∨ month = 11 then 30
  else 31

namespace Reader

/-- Reads a date that exists. -/
def date : Reader Unit := do
  let year := 100 * (← twoDigits) + (← twoDigits)
  char '-'
  let month ← twoDigits
  guard (1 ≤ month ∧ month ≤ 12)
  char '-'
  let day ← twoDigits
  guard (1 ≤ day ∧ day ≤ daysIn year month)

/-- Reads an hour and a minute. -/
def hourMinute : Reader Unit := do
  let hour ← twoDigits
  guard (hour ≤ 23)
  char ':'
  let minute ← twoDigits
  guard (minute ≤ 59)

/-- Reads a time of the day; a leap second is allowed. -/
def time : Reader Unit := do
  hourMinute
  char ':'
  let second ← twoDigits
  guard (second ≤ 60)
  (do char '.'; discard digit; discard (many Char.isDigit)) <|> pure ()

/-- Reads the distance from universal time. -/
def offset : Reader Unit :=
  char 'Z' <|> char 'z' <|> (do char '+' <|> char '-'; hourMinute)

/-- Reads a date, a time, or both. -/
def datetime : Reader Value := do
  (do
    date
    (do
      char 'T' <|> char 't' <|> char ' '
      time
      offset <|> pure ()) <|> pure ()) <|> time
  return .datetime

end Reader

end BackendSync.Toml
