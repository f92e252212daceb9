import Mathlib.Algebra.GroupWithZero.Nat
import BackendSync.Proofs.ByteOrder
import BackendSync.Proofs.EditReplay

/-!
# Alignments by bytes

Runs count bytes and know nothing of the texts that they line up. Read from left to right they
stand at a byte of the old text and at a byte of the new one, and what they say is true or false
of the two texts at these places. Two things are shown here, one in each direction.

* The runs of two texts are true of them (`Diff.runs_align`).
* Any runs that take up an old text, cutting it between characters, can be folded into edits that
  replay on it (`Diff.edits_fold_alignment`). Whether a diff made the runs has no part in it.

Both are about bytes, and for both the way to them is through scripts: runs that cut a text
between characters are the runs of a script that begins with that text.
-/

namespace BackendSync

/-! ## Bytes at a position -/

namespace Text

/-- The bytes of a text from a position on, as many as `count` says. -/
def bytesAt (s : String) (position count : Nat) : List UInt8 :=
  ((utf8 s).drop position).take count

theorem utf8_ofList_append (front back : List Char) :
    utf8 (String.ofList (front ++ back)) =
      utf8 (String.ofList front) ++ utf8 (String.ofList back) := by
  rw [utf8_eq, utf8_eq, utf8_eq, String.toList_ofList, String.toList_ofList, String.toList_ofList,
    List.flatMap_append]

theorem length_utf8_ofList (cs : List Char) : (utf8 (String.ofList cs)).length = byteLength cs := by
  rw [utf8_eq, String.toList_ofList]
  induction cs with
  | nil => rfl
  | cons c cs ih =>
    rw [List.flatMap_cons, List.length_append, ih, String.length_utf8EncodeChar, byteLength]

/-- Behind `front`, the bytes of what comes next are read. -/
theorem bytesAt_append (front middle back : List Char) :
    bytesAt (String.ofList (front ++ (middle ++ back))) (byteLength front) (byteLength middle) =
      utf8 (String.ofList middle) := by
  rw [bytesAt, utf8_ofList_append, utf8_ofList_append, ← length_utf8_ofList front, List.drop_left,
    ← length_utf8_ofList middle, List.take_left]

/-- Of two cuts of one text, the one that is further on cuts what is behind the other. -/
theorem cut_behind {a b a' b' : List Char} (h : a ++ b = a' ++ b')
    (hle : byteLength a ≤ byteLength a') : ∃ c, a' = a ++ c ∧ b = c ++ b' := by
  rcases List.append_eq_append_iff.mp h with ⟨c, ha', hb⟩ | ⟨c, ha, hb'⟩
  · exact ⟨c, ha', hb⟩
  · have hnone : c = [] := by
      rw [ha, byteLength_append] at hle
      exact byteLength_eq_zero_iff.mp (by omega)
    rw [hnone, List.append_nil] at ha
    rw [hnone, List.nil_append] at hb'
    exact ⟨[], by rw [ha, List.append_nil], by rw [hb', List.nil_append]⟩

end Text

/-- An edit takes text out or puts text in, and it does not do both. -/
def Edit.OneSided (e : Edit) : Prop :=
  e.text = "" ∧ e.start < e.stop ∨ e.start = e.stop ∧ e.text ≠ ""

namespace Diff

namespace Run

/-! ## What runs say -/

/-- The bytes of the old text that a run takes up. -/
def consumed : Run → Nat
  | equal bytes => bytes
  | delete bytes => bytes
  | insert _ => 0

/-- The bytes of the new text that a run gives. -/
def produced : Run → Nat
  | equal bytes => bytes
  | delete _ => 0
  | insert text => text.utf8ByteSize

/-- The byte of the old text behind some runs. -/
def consumedBy (runs : List Run) : Nat := (runs.map consumed).sum

/-- The byte of the new text behind some runs. -/
def producedBy (runs : List Run) : Nat := (runs.map produced).sum

/-- Runs take up an old text and cut it between characters. -/
structure Covers (runs : List Run) (old : String) : Prop where
  total : consumedBy runs = old.utf8ByteSize
  onBoundary : ∀ front back, runs = front ++ back →
    (String.Pos.Raw.mk (consumedBy front)).IsValid old

/-- Runs line two texts up. -/
structure Aligns (runs : List Run) (old new : String) : Prop where
  covers : Covers runs old
  total : producedBy runs = new.utf8ByteSize
  onBoundary : ∀ front back, runs = front ++ back →
    (String.Pos.Raw.mk (producedBy front)).IsValid new
  /-- What is kept has the same bytes in both texts. -/
  kept : ∀ front bytes back, runs = front ++ .equal bytes :: back →
    Text.bytesAt old (consumedBy front) bytes = Text.bytesAt new (producedBy front) bytes
  /-- What is inserted stands in the new text. -/
  inserted : ∀ front text back, runs = front ++ .insert text :: back →
    Text.utf8 text = Text.bytesAt new (producedBy front) text.utf8ByteSize

/-- The bytes that runs keep of an old text, from a position on, and those that they insert. -/
def resultFrom (old : String) (position : Nat) : List Run → List UInt8
  | [] => []
  | equal bytes :: rest => Text.bytesAt old position bytes ++ resultFrom old (position + bytes) rest
  | delete bytes :: rest => resultFrom old (position + bytes) rest
  | insert text :: rest => Text.utf8 text ++ resultFrom old position rest

theorem consumedBy_cons (run : Run) (rest : List Run) :
    consumedBy (run :: rest) = run.consumed + consumedBy rest := by
  rw [consumedBy, List.map_cons, List.sum_cons]
  rfl

theorem oneSided_of_mem_editsFrom {position : Nat} {runs : List Run} {e : Edit}
    (he : e ∈ editsFrom position runs) : e.OneSided := by
  fun_induction editsFrom position runs with
  | case1 => cases he
  | case2 position bytes rest ih => exact ih he
  | case3 position rest ih => exact ih he
  | case4 position bytes rest hbytes ih =>
    rcases List.mem_cons.mp he with rfl | he
    · refine Or.inl ⟨rfl, ?_⟩
      show position < position + bytes
      omega
    · exact ih he
  | case5 position rest ih => exact ih he
  | case6 position text rest htext ih =>
    rcases List.mem_cons.mp he with rfl | he
    · exact Or.inr ⟨rfl, htext⟩
    · exact ih he

end Run

/-! ## The runs of a script -/

namespace Script

variable {s : Script}

theorem consumedBy_map_run (s : Script) :
    Run.consumedBy (s.map Piece.run) = Text.byteLength s.oldText := by
  induction s with
  | nil => rfl
  | cons piece rest ih =>
    rw [List.map_cons, Run.consumedBy_cons, ih, oldText_cons, Text.byteLength_append]
    cases piece <;> rfl

theorem producedBy_map_run (s : Script) :
    Run.producedBy (s.map Piece.run) = Text.byteLength s.newText := by
  rw [Run.producedBy, List.map_map]
  induction s with
  | nil => rfl
  | cons piece rest ih =>
    rw [List.map_cons, List.sum_cons, ih, newText_cons, Text.byteLength_append]
    cases piece with
    | insert text => exact congrArg (· + _) (Text.utf8ByteSize_ofList text)
    | _ => rfl

/-- **The runs of a script line up the two texts that it spells.** -/
theorem aligns_map_run {old new : String} (h : s.Spells old.toList new.toList) :
    Run.Aligns (s.map Piece.run) old new := by
  have hold : old = String.ofList s.oldText := by rw [h.old, String.ofList_toList]
  have hnew : new = String.ofList s.newText := by rw [h.new, String.ofList_toList]
  refine ⟨⟨?_, ?_⟩, ?_, ?_, ?_, ?_⟩
  · rw [consumedBy_map_run, h.old, Text.byteLength_toList]
  · intro front back hsplit
    obtain ⟨first, second, rfl, rfl, rfl⟩ := List.map_eq_append_iff.mp hsplit
    refine Text.isValid_iff.mpr ⟨oldText first, oldText second, ?_, (consumedBy_map_run first).symm⟩
    rw [← h.old, oldText_append]
  · rw [producedBy_map_run, h.new, Text.byteLength_toList]
  · intro front back hsplit
    obtain ⟨first, second, rfl, rfl, rfl⟩ := List.map_eq_append_iff.mp hsplit
    refine Text.isValid_iff.mpr ⟨newText first, newText second, ?_, (producedBy_map_run first).symm⟩
    rw [← h.new, newText_append]
  · intro front bytes back hsplit
    obtain ⟨first, second, rfl, rfl, hsecond⟩ := List.map_eq_append_iff.mp hsplit
    obtain ⟨piece, rest, rfl, hpiece, rfl⟩ := List.map_eq_cons_iff.mp hsecond
    cases piece with
    | keep text =>
      cases hpiece
      rw [hold, hnew, oldText_append, newText_append, oldText_cons, newText_cons,
        Piece.oldText, Piece.newText, consumedBy_map_run, producedBy_map_run, Text.bytesAt_append,
        Text.bytesAt_append]
    | _ => cases hpiece
  · intro front text back hsplit
    obtain ⟨first, second, rfl, rfl, hsecond⟩ := List.map_eq_append_iff.mp hsplit
    obtain ⟨piece, rest, rfl, hpiece, rfl⟩ := List.map_eq_cons_iff.mp hsecond
    cases piece with
    | insert inserted =>
      cases hpiece
      rw [hnew, newText_append, newText_cons, Piece.newText, producedBy_map_run,
        Text.utf8ByteSize_ofList, Text.bytesAt_append]
    | _ => cases hpiece

/-- Behind `front`, the runs of a script keep and insert the new text that it spells. -/
theorem resultFrom_map_run (s : Script) (front : List Char) :
    Run.resultFrom (String.ofList (front ++ s.oldText)) (Text.byteLength front) (s.map Piece.run) =
      Text.utf8 (String.ofList s.newText) := by
  induction s generalizing front with
  | nil => rfl
  | cons piece rest ih =>
    rw [List.map_cons, oldText_cons, newText_cons, Text.utf8_ofList_append]
    cases piece with
    | keep text =>
      have h := ih (front ++ text)
      rw [Text.byteLength_append, List.append_assoc] at h
      rw [Piece.run, Run.resultFrom, Piece.oldText, Piece.newText, h, Text.bytesAt_append]
    | delete text =>
      have h := ih (front ++ text)
      rw [Text.byteLength_append, List.append_assoc] at h
      rw [Piece.run, Run.resultFrom, Piece.oldText, Piece.newText, h]
      rfl
    | insert text =>
      rw [Piece.run, Run.resultFrom, Piece.oldText, Piece.newText, List.nil_append, ih front]

/-- **Runs that cut a text between characters are the runs of a script.** The induction takes off
the run in front and the text that it takes up. -/
theorem exists_of_cuts {runs : List Run} {old : List Char}
    (htotal : Run.consumedBy runs = Text.byteLength old)
    (hcut : ∀ front back, runs = front ++ back →
      ∃ a b, old = a ++ b ∧ Text.byteLength a = Run.consumedBy front) :
    ∃ s : Script, s.map Piece.run = runs ∧ s.oldText = old := by
  induction runs generalizing old with
  | nil =>
    have hnone : old = [] := Text.byteLength_eq_zero_iff.mp htotal.symm
    exact ⟨[], rfl, hnone.symm⟩
  | cons run rest ih =>
    obtain ⟨a, b, rfl, ha⟩ := hcut [run] rest rfl
    have ha : Text.byteLength a = run.consumed := ha
    rw [Run.consumedBy_cons, Text.byteLength_append, ha] at htotal
    have hrest : Run.consumedBy rest = Text.byteLength b := by omega
    obtain ⟨s, rfl, rfl⟩ := ih hrest fun front back hsplit => by
      obtain ⟨a', b', heq, ha'⟩ := hcut (run :: front) back (by rw [hsplit, List.cons_append])
      rw [Run.consumedBy_cons] at ha'
      obtain ⟨c, rfl, hb⟩ := Text.cut_behind heq (by omega)
      rw [Text.byteLength_append] at ha'
      exact ⟨c, b', hb, by omega⟩
    cases run with
    | equal bytes =>
      refine ⟨.keep a :: s, ?_, rfl⟩
      rw [List.map_cons, Piece.run, ha]
      rfl
    | delete bytes =>
      refine ⟨.delete a :: s, ?_, rfl⟩
      rw [List.map_cons, Piece.run, ha]
      rfl
    | insert text =>
      have hnone : a = [] := Text.byteLength_eq_zero_iff.mp ha
      refine ⟨.insert text.toList :: s, ?_, ?_⟩
      · rw [List.map_cons, Piece.run, String.ofList_toList]
      · rw [hnone]
        rfl

end Script

/-! ## Main results -/

/--
**The runs of two texts line them up.** Kept and deleted runs take up the old text, kept and
inserted runs give the new one, and what is kept or inserted is what the new text has there. No
run ends inside a character of either text.
-/
theorem runs_align (old new : String) : Run.Aligns (runs old new) old new :=
  Script.aligns_map_run (script_spells old new)

/--
**Runs that take up a text fold into edits of it.** They may be in any order, and empty. Each
edit fits the buffer that it meets and takes text out or puts text in. None begins before the one
that it follows, and in the end the buffer has the bytes that the runs keep and insert.
-/
theorem edits_fold_alignment {runs : List Run} {old : String} (h : Run.Covers runs old) :
    ∃ new, Edit.replay? (Run.edits runs) old = some new ∧
      Text.utf8 new = Run.resultFrom old 0 runs ∧
      (∀ before e after, Run.edits runs = before ++ e :: after →
        ∃ buffer, Edit.replay? before old = some buffer ∧ e.Fits buffer) ∧
      (Run.edits runs).Pairwise (fun e f => e.start ≤ f.start) ∧
      ∀ e ∈ Run.edits runs, e.OneSided := by
  have hcut : ∀ front back, runs = front ++ back →
      ∃ a b, old.toList = a ++ b ∧ Text.byteLength a = Run.consumedBy front :=
    fun front back hsplit => Text.isValid_iff.mp (h.onBoundary front back hsplit)
  have htotal : Run.consumedBy runs = Text.byteLength old.toList := by
    rw [h.total, Text.byteLength_toList]
  obtain ⟨s, rfl, hold⟩ := Script.exists_of_cuts htotal hcut
  have hold : old = String.ofList ([] ++ s.oldText) := by
    rw [List.nil_append, hold, String.ofList_toList]
  have hreplay :
      Edit.replay? (Run.edits (s.map Piece.run)) old = some (String.ofList s.newText) := by
    rw [hold]
    exact replay?_editsFrom s []
  refine ⟨_, hreplay, ?_, ?_, Run.editsFrom_ordered 0 _,
    fun e he => Run.oneSided_of_mem_editsFrom he⟩
  · rw [hold]
    exact (Script.resultFrom_map_run s []).symm
  · intro before e after hsplit
    rw [hsplit] at hreplay
    exact Edit.fits_of_replay? hreplay

/-- Runs in an order that no diff gives, among them empty ones, of a text with a character of two
bytes. -/
def scattered : List Run :=
  [.insert "→", .equal 1, .insert "", .insert "b", .delete 2, .equal 0, .delete 1, .insert "é",
    .equal 1]

/-- The text is cut in front of and behind its second character, of two bytes, and not within. -/
theorem edits_fold_scattered : Run.Covers scattered "aécd" ∧
    Run.edits scattered =
      [.insertAt 0 "→", .insertAt 4 "b", .remove 5 7, .remove 5 6, .insertAt 5 "é"] ∧
    Run.resultFrom "aécd" 0 scattered = Text.utf8 "→abéd" ∧
    ∃ new, Edit.replay? (Run.edits scattered) "aécd" = some new ∧
      Text.utf8 new = Run.resultFrom "aécd" 0 scattered := by
  have hcovers : Run.Covers scattered "aécd" := by
    refine ⟨by decide, fun front back hsplit => ?_⟩
    have hfront : front = scattered.take front.length := by rw [hsplit, List.take_left]
    have hle : front.length ≤ scattered.length := by simp [hsplit]
    have hall : ∀ n ≤ scattered.length,
        (String.Pos.Raw.mk (Run.consumedBy (scattered.take n))).IsValid "aécd" := by decide
    rw [hfront]
    exact hall _ hle
  obtain ⟨new, hreplay, hbytes, _⟩ := edits_fold_alignment hcovers
  exact ⟨hcovers, by decide, by decide, new, hreplay, hbytes⟩

end Diff

end BackendSync
