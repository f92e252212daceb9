import BackendSync.Text.Bytes

/-!
# Edits of a live buffer

An `Edit` replaces a half-open range of bytes by a text. Edits are meant for a buffer
that is edited in place: each one is in the coordinates of the buffer as it stands
when that edit is applied, after all edits before it.
-/

namespace BackendSync

/-- The bytes from `start` up to `stop`, replaced by `text`. -/
structure Edit where
  start : Nat
  stop : Nat
  text : String
deriving DecidableEq

namespace Edit

/-- Takes the bytes from `start` up to `stop` out. -/
def remove (start stop : Nat) : Edit := ⟨start, stop, ""⟩

/-- Puts `text` at a position. -/
def insertAt (position : Nat) (text : String) : Edit := ⟨position, position, text⟩

/-- Does the edit only add text? -/
def isInsert (e : Edit) : Bool := e.start == e.stop

/--
The buffer after one edit. There is none if the range is reversed, ends behind the
buffer, or begins or ends inside a character.
-/
def applyTo? (e : Edit) (buffer : String) : Option String :=
  if e.start ≤ e.stop then do
    let (front, rest) ← Text.splitAtByte e.start buffer.toList
    let (_, back) ← Text.splitAtByte (e.stop - e.start) rest
    return String.ofList (front ++ e.text.toList ++ back)
  else none

/-- Behind `front`, an edit puts its text in the place of what it spans. -/
theorem applyTo?_append (front middle back : List Char) (text : String) :
    (Edit.mk (Text.byteLength front) (Text.byteLength front + Text.byteLength middle) text).applyTo?
        (String.ofList (front ++ middle ++ back)) =
      some (String.ofList (front ++ text.toList ++ back)) := by
  simp only [applyTo?, Nat.le_add_right, if_true, String.toList_ofList, List.append_assoc,
    Text.splitAtByte_append, Nat.add_sub_cancel_left, Option.bind_eq_bind, Option.bind_some]
  rfl

/-- The buffer after a list of edits, one after another. -/
def replay? (edits : List Edit) (buffer : String) : Option String :=
  edits.foldlM (fun b e => e.applyTo? b) buffer

/-- The one edit that replaces a buffer of `oldLength` bytes by `new`. -/
def replaceAll (oldLength : Nat) (new : String) : List Edit := [⟨0, oldLength, new⟩]

end Edit

end BackendSync
