import BackendSync.Path.Basic
import BackendSync.Glob.Pattern

/-!
# Globs

A `Glob` decides whether a path as spelled, byte by byte and from end to end, has the
form of a pattern.

There is one exception to that. Where the last name of a path decides, `..` counts as
no name at all, and no pattern that is decided by the last name accepts it. These are
the patterns for a file of the name `..` in any directory, and those that end in a
literal `.` and are more than a fixed name in a fixed or in any directory.
-/

namespace BackendSync

/-- A pattern for paths. -/
structure Glob where
  tokens : List Glob.Token

namespace Glob

/-- Reads a pattern. -/
def ofPattern (pattern : String) : Except Error Glob := do return ⟨← tokenize pattern⟩

/-- The expression that a path must match. -/
def expr (g : Glob) : Expr :=
  match g.tokens with
  | [.dirsBefore] => .many .all
  | tokens => sequenceExpr tokens

/-- How deep the expression is nested. -/
def nesting (g : Glob) : Nat := 1 + deepest g.tokens

/-- An expression may not be nested deeper than this. -/
def nestingLimit : Nat := 250

/-- Can the expression be matched at all? -/
def isMatchable (g : Glob) : Bool := g.nesting ≤ nestingLimit

/-- Is the token a character that stands for itself? -/
def Token.isLiteral : Token → Bool
  | literal _ => true
  | _ => false

/-- Does the last name decide, so that `..` is not accepted? -/
def needsName (g : Glob) : Bool :=
  match g.tokens with
  | [.dirsBefore, .literal '.', .literal '.'] => true
  | .dirsBefore :: rest => endsInDot g.tokens && !rest.all Token.isLiteral
  | tokens => endsInDot tokens && !tokens.all Token.isLiteral
where
  endsInDot (tokens : List Token) : Bool :=
    match tokens.getLast? with
    | some (.literal '.') => true
    | _ => false

/-- The text behind the last separator. -/
def lastPiece (p : Path) : List Char := p.pieces.getLast?.getD []

/-- The bytes of a path as spelled. -/
def pathBytes (p : Path) : List UInt8 := p.chars.flatMap charBytes

/-- Has the path the form of the pattern? -/
def accepts (g : Glob) (p : Path) : Bool :=
  if g.needsName && lastPiece p == ['.', '.'] then false else g.expr.accepts (pathBytes p)

end Glob

end BackendSync
