import BackendSync.Glob.Expr

/-!
# The parts of a glob

A pattern is a list of tokens, and each token stands for an expression over bytes. A
wildcard stays within one segment of a path; only the tokens written with two stars
cross from one segment to the next. A group of alternatives is turned into its
expression when it is closed, so tokens do not nest.
-/

namespace BackendSync.Glob

/-- One part of a pattern. -/
inductive Token where
  /-- The character itself. -/
  | literal (c : Char)
  /-- One byte of a segment, `?`. -/
  | any
  /-- Any number of bytes of a segment, `*`. -/
  | star
  /-- Any directories before what follows, a leading `**/`. -/
  | dirsBefore
  /-- Anything below, a closing `/**`. -/
  | dirsAfter
  /-- Any directories between, `/**/`. -/
  | dirsBetween
  /-- One byte that is or is not in a class of characters. -/
  | charClass (negated : Bool) (entries : List (Char × Char))
  /-- A group of alternatives; one whose branches are all blank has no expression. -/
  | group (body : Option Expr) (nesting : Nat)

/-- The bytes of a character. -/
def charBytes (c : Char) : List UInt8 := String.utf8EncodeChar c

/--
The byte ranges of an entry of a class. The entry of two characters is read byte by
byte: only the last byte of the lower one and the first byte of the upper one span a
range, the bytes around them stand for themselves.
-/
def entryRanges : Char × Char → List (UInt8 × UInt8)
  | (low, high) =>
    let same := fun b : UInt8 => (b, b)
    if low = high then (charBytes low).map same
    else
      match (charBytes low).getLast?, charBytes high with
      | some last, first :: rest =>
        (charBytes low).dropLast.map same ++ (last, first) :: rest.map same
      | _, _ => []

namespace Token

/-- The expression that a token stands for. -/
def expr : Token → Expr
  | literal c => .bytes (charBytes c)
  | any => .one .notSlash
  | star => .many .notSlash
  | dirsBefore =>
    .alt (.alt .empty (.one .slash)) (.seq (.many .all) (.one .slash))
  | dirsAfter => .seq (.one .slash) (.many .all)
  | dirsBetween =>
    .alt (.one .slash) (.seq (.one .slash) (.seq (.many .all) (.one .slash)))
  | charClass negated entries => .one ⟨negated, entries.flatMap entryRanges⟩
  | group body _ => body.getD .empty

/-- Is this a group without an expression? -/
def isBlank : Token → Bool
  | group none _ => true
  | _ => false

/-- The number of parts that a token adds to a sequence. -/
def parts : Token → Nat
  | literal c => (charBytes c).length
  | dirsAfter => 2
  | group none _ => 0
  | _ => 1

/-- How deep the expression of a token is nested. -/
def nesting : Token → Nat
  | literal _ => 0
  | any => 1
  | star => 2
  | dirsBefore => 4
  | dirsAfter => 1
  | dirsBetween => 4
  | charClass _ entries => if 2 ≤ (entries.flatMap entryRanges).length then 2 else 1
  | group _ nesting => nesting

end Token

/-- Tokens one after another. -/
def sequenceExpr (tokens : List Token) : Expr := .sequence (tokens.map Token.expr)

/-- The number of parts of a sequence. -/
def partCount : List Token → Nat
  | [] => 0
  | token :: rest => token.parts + partCount rest

/-- The deepest nesting among tokens. -/
def deepest (tokens : List Token) : Nat := (tokens.map Token.nesting).foldr max 0

/-- How deep a branch is nested; a sequence of several parts is one level of its own. -/
def branchNesting (tokens : List Token) : Nat :=
  (if 2 ≤ partCount tokens then 1 else 0) + deepest tokens

/-- Any of several expressions, of which there is at least one. -/
def alternatives : List Expr → Expr
  | [] => .empty
  | [e] => e
  | e :: rest => .alt e (alternatives rest)

/-- The token of a group. Blank branches do not count. -/
def Token.ofBranches (branches : List (List Token)) : Token :=
  let kept := branches.filter fun branch => !branch.all Token.isBlank
  if kept.isEmpty then .group none 0
  else
    .group (some (alternatives (kept.map sequenceExpr)))
      (1 + (if 2 ≤ kept.length then 1 else 0) + (kept.map branchNesting).foldr max 0)

end BackendSync.Glob
