import BackendSync.Path.Basic

/-!
# Paths relative to a directory

`p.relativeTo? root` takes the components of `root` off the front of `p` and keeps
the rest as it was spelled, inner doubled separators included. Only the ends are
tidied: blank pieces left at the front once something was taken off, and blank
pieces at the back always.

The empty root stands above everything and takes nothing off, so a path minus the
empty root keeps its leading separator or leading `.` piece.
-/

namespace BackendSync.Path

/-- The pieces left after `n` names, with everything before and between those names gone. -/
def dropNames : Nat → List (List Char) → List (List Char)
  | 0, pieces => pieces
  | _ + 1, [] => []
  | n + 1, piece :: rest => if isBlank piece then dropNames (n + 1) rest else dropNames n rest

/-- Drops the blank pieces at the end. -/
def trimBlankEnd (pieces : List (List Char)) : List (List Char) :=
  (pieces.reverse.dropWhile isBlank).reverse

/-- The path without separators and `.` pieces at its end; its first piece always stays. -/
def trimEnd (p : Path) : Path :=
  match p.pieces with
  | [] => p
  | first :: rest =>
    match trimBlankEnd rest with
    -- The first piece of an absolute path is empty, and stands for its separator.
    | [] => if p.isAbsolute then root else ofChars first
    | kept => ofChars (joinPieces (first :: kept))

/-- The path below `root`, or nothing when it does not lie there. -/
def relativeTo? (p root : Path) : Option Path :=
  if root.spelling = "" then some p.trimEnd
  else if root.isAbsolute = p.isAbsolute ∧ root.components <+: p.components then
    let rest := dropNames (names root.pieces).length p.pieces
    some (ofChars (joinPieces (trimBlankEnd (rest.dropWhile isBlank))))
  else none

/-- The path below `root`, or the path as it is when it does not lie there. -/
def relativeTo (p root : Path) : Path := (p.relativeTo? root).getD p

end BackendSync.Path
