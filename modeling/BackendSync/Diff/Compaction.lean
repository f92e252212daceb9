import BackendSync.Diff.Piece
import BackendSync.Diff.Common

/-!
# Moving pieces together

An alignment may scatter small pieces that could stand together. `compact` rearranges
it, keeping the old and the new text, in two passes:

* the deleted pieces between two kept ones become one, behind the inserted pieces;
* each inserted piece is moved towards the front as far as the kept text lets it, and
  from there towards the end. It swallows the inserted pieces that it meets on either
  way and steps over deleted ones.

An inserted piece can move over kept text with which it shares an end: inserting `ab`
behind a kept `b` is inserting `ba` in front of it.
-/

namespace BackendSync.Diff

/-! ## Deletions -/

/--
Gathers the deleted text of a stretch without kept pieces; `gathered` is what was met so
far and is written out at the end of the stretch.
-/
def gatherDeletes (gathered : List Char) : Script → Script
  | [] => Piece.deleteIfAny gathered
  | .keep text :: rest => Piece.deleteIfAny gathered ++ .keep text :: gatherDeletes [] rest
  | .delete text :: rest => gatherDeletes (gathered ++ text) rest
  | .insert text :: rest => .insert text :: gatherDeletes gathered rest

/-! ## Insertions -/

/-- A script around one inserted piece: what is before it, nearest first, and after it. -/
structure Focus where
  before : List Piece
  text : List Char
  after : List Piece

namespace Focus

/-- The script that a focus is on. -/
def script (f : Focus) : Script := f.before.reverse ++ .insert f.text :: f.after

/-- Puts kept text in front of a script, as part of its first piece if that is kept. -/
def keepBefore (text : List Char) : List Piece → List Piece
  | .keep other :: rest => .keep (text ++ other) :: rest
  | rest => .keep text :: rest

/-- The same at the end of the part before a focus, whose first piece is the nearest. -/
def keepAfter (text : List Char) : List Piece → List Piece
  | .keep other :: rest => .keep (other ++ text) :: rest
  | rest => .keep text :: rest

/-- Characters and pieces on one side of a focus. -/
def weight : List Piece → Nat
  | [] => 0
  | piece :: rest => piece.oldText.length + piece.newText.length + 1 + weight rest

/-- Moves the inserted piece towards the front. -/
def raise : List Piece → List Char → List Piece → Focus
  | [], text, after => ⟨[], text, after⟩
  | .insert other :: before, text, after => raise before (other ++ text) after
  | .delete other :: before, text, after => raise before text (.delete other :: after)
  | .keep kept :: before, text, after =>
    let s := commonEndLength kept text
    if s = 0 then ⟨.keep kept :: before, text, after⟩
    else
      let shared := kept.drop (kept.length - s)
      let text := shared ++ text.take (text.length - s)
      let after := keepBefore shared after
      if s < kept.length then raise (.keep (kept.take (kept.length - s)) :: before) text after
      else raise before text after
termination_by before => weight before
decreasing_by
  all_goals simp [weight, Piece.oldText, Piece.newText]
  all_goals omega

/-- Moves the inserted piece towards the end. -/
def lower (before : List Piece) (text : List Char) : List Piece → Focus
  | [] => ⟨before, text, []⟩
  | .insert other :: after => lower before (text ++ other) after
  | .delete other :: after => lower (.delete other :: before) text after
  | .keep kept :: after =>
    let s := commonLength kept text
    if s = 0 then ⟨before, text, .keep kept :: after⟩
    else
      let shared := kept.take s
      let text := text.drop s ++ shared
      let before := keepAfter shared before
      if s < kept.length then lower before text (.keep (kept.drop s) :: after)
      else lower before text after
termination_by after => weight after
decreasing_by
  all_goals simp [weight, Piece.oldText, Piece.newText]
  all_goals omega

/-- Moves an inserted piece as far to the front as it goes, and then to the end. -/
def settle (f : Focus) : Focus :=
  let raised := raise f.before f.text f.after
  lower raised.before raised.text raised.after

/-- The first inserted piece of a script that goes on behind `before` (nearest first). -/
def first? (before : List Piece) : List Piece → Option Focus
  | [] => none
  | .insert text :: after => some ⟨before, text, after⟩
  | piece :: after => first? (piece :: before) after

end Focus

/-- The number of inserted pieces. -/
def insertCount : List Piece → Nat
  | [] => 0
  | .insert _ :: rest => insertCount rest + 1
  | _ :: rest => insertCount rest

/--
Settles the first inserted pieces behind `before` (nearest first), as many as `count` says.
Settling one adds no other behind it, so their number at the start is enough for all.
-/
def settleInserts : Nat → List Piece → List Piece → Script
  | 0, before, rest => before.reverse ++ rest
  | count + 1, before, rest =>
    match Focus.first? before rest with
    | none => before.reverse ++ rest
    | some focus =>
      let settled := focus.settle
      settleInserts count (.insert settled.text :: settled.before) settled.after

/-! ## The normal form of a script -/

/--
Merges neighbouring kept pieces, and turns what lies between two kept pieces into at most
one deletion followed by at most one insertion. `kept`, `deleted` and `inserted` are the
pieces that are still growing; while `kept` grows the other two are empty.
-/
def mergePieces (kept deleted inserted : List Char) : Script → Script
  | [] => Piece.keepIfAny kept ++ Piece.deleteIfAny deleted ++ Piece.insertIfAny inserted
  | .keep text :: rest =>
    if deleted.isEmpty && inserted.isEmpty then mergePieces (kept ++ text) [] [] rest
    else
      Piece.keepIfAny kept ++ Piece.deleteIfAny deleted ++ Piece.insertIfAny inserted ++
        mergePieces text [] [] rest
  | .delete text :: rest => mergePieces kept (deleted ++ text) inserted rest
  | .insert text :: rest => mergePieces kept deleted (inserted ++ text) rest

/-- The alignment of two texts with its pieces moved together. -/
def compact (s : Script) : Script :=
  let gathered := gatherDeletes [] s
  mergePieces [] [] [] (settleInserts (insertCount gathered) [] gathered)

end BackendSync.Diff
