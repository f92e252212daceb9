import BackendSync.Text.Edit
import BackendSync.Diff.Alignment
import BackendSync.Diff.Compaction

/-!
# From an alignment to edits

A `Run` says what becomes of the next bytes of a text. `Diff.runs` lines two texts up,
and `Run.edits` turns any sequence of runs into edits of a live buffer: the position
moves on over kept and over inserted text, but not over deleted text, which is gone
from the buffer once its edit is applied.
-/

namespace BackendSync.Diff

/-- Bytes to keep, bytes to delete, or a text to insert. -/
inductive Run where
  | equal (bytes : Nat)
  | delete (bytes : Nat)
  | insert (text : String)
deriving DecidableEq

/-- The run of a piece. -/
def Piece.run : Piece → Run
  | keep text => .equal (Text.byteLength text)
  | delete text => .delete (Text.byteLength text)
  | insert text => .insert (String.ofList text)

/-- The script that turns one text into another, with its pieces moved together. -/
def script (old new : String) : Script := compact (align old.toList new.toList)

/--
The runs that turn one text into another. Where a text is replaced, the deletion comes
before the insertion.
-/
def runs (old new : String) : List Run := (script old new).map Piece.run

/-- The edits of a sequence of runs, from a position in the live buffer on. -/
def Run.editsFrom (position : Nat) : List Run → List Edit
  | [] => []
  | equal bytes :: rest => editsFrom (position + bytes) rest
  | delete bytes :: rest =>
    if bytes = 0 then editsFrom position rest
    else .remove position (position + bytes) :: editsFrom position rest
  | insert text :: rest =>
    if text = "" then editsFrom position rest
    else .insertAt position text :: editsFrom (position + text.utf8ByteSize) rest

/-- The edits of a sequence of runs. Empty runs make none. -/
def Run.edits (runs : List Run) : List Edit := editsFrom 0 runs

/-- The edits that turn one text into another; none if they are the same. -/
def edits (old new : String) : List Edit := if old = new then [] else Run.edits (runs old new)

end BackendSync.Diff
