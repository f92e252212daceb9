/-!
# Scripts of pieces

A script lines two texts up. Read from left to right, its kept and deleted pieces
spell the old text and its kept and inserted pieces spell the new one. Pieces carry
their text, so a script says on its own which two texts it belongs to: `oldText` and
`newText` are functions of it, and a rearrangement of a script is right when it keeps
both.
-/

namespace BackendSync.Diff

/-- A stretch of text that both texts have, or that only one of them has. -/
inductive Piece where
  | keep (text : List Char)
  | delete (text : List Char)
  | insert (text : List Char)
deriving DecidableEq

namespace Piece

/-- What the piece contributes to the old text. -/
def oldText : Piece → List Char
  | keep text => text
  | delete text => text
  | insert _ => []

/-- What the piece contributes to the new text. -/
def newText : Piece → List Char
  | keep text => text
  | delete _ => []
  | insert text => text

/-- The number of characters that the piece deletes or inserts. -/
def cost : Piece → Nat
  | keep _ => 0
  | delete text => text.length
  | insert text => text.length

/-- A kept piece, or none for an empty text. -/
def keepIfAny (text : List Char) : List Piece := if text.isEmpty then [] else [keep text]

/-- A deleted piece, or none for an empty text. -/
def deleteIfAny (text : List Char) : List Piece := if text.isEmpty then [] else [delete text]

/-- An inserted piece, or none for an empty text. -/
def insertIfAny (text : List Char) : List Piece := if text.isEmpty then [] else [insert text]

end Piece

/-- Pieces in the order of the texts. -/
abbrev Script := List Piece

namespace Script

/-- The text a script starts from. -/
def oldText (s : Script) : List Char := s.flatMap Piece.oldText

/-- The text a script ends in. -/
def newText (s : Script) : List Char := s.flatMap Piece.newText

/-- The number of characters that a script deletes or inserts. -/
def cost : Script → Nat
  | [] => 0
  | piece :: rest => piece.cost + cost rest

end Script

end BackendSync.Diff
