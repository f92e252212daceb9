/-!
# Expressions over bytes

The language of globs over the UTF-8 bytes of a path: sets of bytes, repeated or not,
in sequence and as alternatives.

Matching marks positions. A text of `n` bytes has `n + 1` positions, and a list of
`n + 1` marks says which of them a match may have reached. An expression takes the
marks of where it may begin to the marks of where it may end, in time linear in the
text for each part of the expression.
-/

namespace BackendSync.Glob

/-- The bytes in some of the given ranges, or all other bytes. -/
structure ByteSet where
  negated : Bool
  ranges : List (UInt8 × UInt8)
deriving DecidableEq

namespace ByteSet

/-- Is the byte in the set? -/
def contains (s : ByteSet) (b : UInt8) : Bool :=
  s.negated != s.ranges.any fun (low, high) => low ≤ b && b ≤ high

/-- One byte. -/
def single (b : UInt8) : ByteSet := ⟨false, [(b, b)]⟩

/-- The byte between two segments of a path. -/
def slash : ByteSet := single 47

/-- Every byte within a segment. -/
def notSlash : ByteSet := ⟨true, [(47, 47)]⟩

/-- Every byte. -/
def all : ByteSet := ⟨true, []⟩

end ByteSet

/-- A language of byte strings. -/
inductive Expr where
  /-- The empty string. -/
  | empty
  /-- One byte of a set. -/
  | one (set : ByteSet)
  /-- Any number of bytes of a set. -/
  | many (set : ByteSet)
  /-- A string of the first and then one of the second. -/
  | seq (first second : Expr)
  /-- A string of either. -/
  | alt (left right : Expr)
deriving DecidableEq

namespace Expr

/-- Expressions one after another. -/
def sequence (es : List Expr) : Expr := es.foldr seq empty

/-- A given string of bytes. -/
def bytes (bs : List UInt8) : Expr := sequence (bs.map fun b => one (.single b))

/--
Marks each position that is marked or follows a marked one with nothing but bytes of
the set between them. `carry` says whether a match comes in from the left.
-/
def spread (set : ByteSet) (carry : Bool) : List UInt8 → List Bool → List Bool
  | b :: bs, mark :: marks =>
    let here := carry || mark
    here :: spread set (here && set.contains b) bs marks
  | [], mark :: _ => [carry || mark]
  | _, [] => []

/-- The marks of where a match may end, from the marks of where it may begin. -/
def advance (text : List UInt8) : Expr → List Bool → List Bool
  | empty, marks => marks
  | one set, marks => false :: List.zipWith (fun mark b => mark && set.contains b) marks text
  | many set, marks => spread set false text marks
  | seq first second, marks => second.advance text (first.advance text marks)
  | alt left right, marks =>
    List.zipWith (fun a b => a || b) (left.advance text marks) (right.advance text marks)

/-- Is the whole text in the language? -/
def accepts (e : Expr) (text : List UInt8) : Bool :=
  (e.advance text (true :: text.map fun _ => false)).getLast?.getD false

end Expr

end BackendSync.Glob
