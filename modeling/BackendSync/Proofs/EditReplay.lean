import BackendSync.Proofs.ScriptTexts

/-!
# Replaying edits on a live buffer

A buffer is edited in place, so the offsets of an edit count bytes of whatever the edits
before it have left. What keeps the edits of a script in step with the buffer is that the
position always stands behind text that is final: at any moment the buffer is new text up
to the position and untouched old text from there on.

An edit whose span is reversed, too long or off the boundaries of characters changes
nothing in a buffer and has no result. `Edit.Fits` says when that does not happen, in
terms of the buffer alone, and `applyTo?_isSome_iff` that it says so exactly.
-/

namespace BackendSync

/-! ## Cutting a text at a byte -/

namespace Text

theorem utf8ByteSize_ofList (cs : List Char) :
    (String.ofList cs).utf8ByteSize = byteLength cs := by
  induction cs with
  | nil => rfl
  | cons c cs ih =>
    rw [← List.singleton_append, String.ofList_append, String.utf8ByteSize_append, ih]
    simp [byteLength]

theorem byteLength_toList (s : String) : byteLength s.toList = s.utf8ByteSize := by
  rw [← utf8ByteSize_ofList, String.ofList_toList]

theorem byteLength_eq_zero_iff {cs : List Char} : byteLength cs = 0 ↔ cs = [] := by
  cases cs with
  | nil => simp [byteLength]
  | cons c cs =>
    have hc := c.utf8Size_pos
    constructor
    · intro h
      simp only [byteLength] at h
      omega
    · intro h
      exact absurd h (by simp)

/-- A text is cut where its characters have been counted out. -/
theorem splitAtByte_eq_some_iff {n : Nat} {cs front back : List Char} :
    splitAtByte n cs = some (front, back) ↔ cs = front ++ back ∧ byteLength front = n := by
  constructor
  · intro h
    fun_induction splitAtByte n cs generalizing front back with
    | case1 cs =>
      cases h
      exact ⟨rfl, rfl⟩
    | case2 => cases h
    | case3 n c cs hc ih =>
      obtain ⟨⟨front', back'⟩, hcut, heq⟩ := Option.map_eq_some_iff.mp h
      cases heq
      obtain ⟨hcs, hlen⟩ := ih hcut
      refine ⟨by rw [hcs, List.cons_append], ?_⟩
      rw [byteLength, hlen]
      omega
    | case4 => cases h
  · rintro ⟨rfl, rfl⟩
    exact splitAtByte_append front back

/-- A byte is a boundary between characters if the text can be cut there. -/
theorem isValid_iff {n : Nat} {s : String} :
    (String.Pos.Raw.mk n).IsValid s ↔
      ∃ front back, s.toList = front ++ back ∧ byteLength front = n := by
  rw [String.Pos.Raw.isValid_iff_exists_append]
  constructor
  · rintro ⟨front, back, rfl, hn⟩
    refine ⟨front.toList, back.toList, String.toList_append, ?_⟩
    rw [byteLength_toList]
    exact (congrArg String.Pos.Raw.byteIdx hn).symm
  · rintro ⟨front, back, hs, hn⟩
    refine ⟨String.ofList front, String.ofList back, ?_, ?_⟩
    · rw [← String.ofList_append, ← hs, String.ofList_toList]
    · refine String.Pos.Raw.ext ?_
      rw [String.byteIdx_rawEndPos, utf8ByteSize_ofList, hn]

end Text

/-! ## Edits that fit -/

namespace Edit

/-- The span of an edit lies in a buffer and begins and ends between characters. -/
structure Fits (e : Edit) (buffer : String) : Prop where
  /-- The span is not reversed. -/
  ordered : e.start ≤ e.stop
  /-- The span does not end behind the buffer. -/
  inside : e.stop ≤ buffer.utf8ByteSize
  /-- The span begins on a boundary. -/
  startsOnBoundary : (String.Pos.Raw.mk e.start).IsValid buffer
  /-- The span ends on a boundary. -/
  stopsOnBoundary : (String.Pos.Raw.mk e.stop).IsValid buffer

/-- An edit fits if it cuts the buffer in three. -/
theorem fits_iff {e : Edit} {buffer : String} :
    e.Fits buffer ↔ ∃ front middle back, buffer.toList = front ++ middle ++ back ∧
      Text.byteLength front = e.start ∧ Text.byteLength (front ++ middle) = e.stop := by
  constructor
  · intro h
    obtain ⟨front, rest, hrest, hstart⟩ := Text.isValid_iff.mp h.startsOnBoundary
    obtain ⟨upto, back, hback, hstop⟩ := Text.isValid_iff.mp h.stopsOnBoundary
    rcases List.append_eq_append_iff.mp (hrest.symm.trans hback) with
      ⟨middle, hupto, _⟩ | ⟨extra, hfront, _⟩
    · exact ⟨front, middle, back, by rw [hback, hupto], hstart, by rw [← hupto, hstop]⟩
    · -- the cuts are in the other order only if nothing is between them
      have hover : extra = [] := by
        rw [← Text.byteLength_eq_zero_iff]
        have hsum := congrArg Text.byteLength hfront
        rw [Text.byteLength_append] at hsum
        have := h.ordered
        omega
      refine ⟨front, [], back, ?_, hstart, ?_⟩
      · rw [hback, hfront, hover, List.append_nil, List.append_nil]
      · rw [hfront, hover, List.append_nil, List.append_nil, hstop]
  · rintro ⟨front, middle, back, hbuffer, hstart, hstop⟩
    have hsize := congrArg Text.byteLength hbuffer
    rw [Text.byteLength_toList, Text.byteLength_append, hstop] at hsize
    refine ⟨?_, by omega, ?_, ?_⟩
    · rw [← hstart, ← hstop, Text.byteLength_append]
      omega
    · exact Text.isValid_iff.mpr ⟨front, middle ++ back, by rw [hbuffer, List.append_assoc], hstart⟩
    · exact Text.isValid_iff.mpr ⟨front ++ middle, back, hbuffer, hstop⟩

/-- **An edit has a result exactly when it fits.** -/
theorem applyTo?_isSome_iff {e : Edit} {buffer : String} :
    (e.applyTo? buffer).isSome ↔ e.Fits buffer := by
  rw [fits_iff]
  constructor
  · intro h
    obtain ⟨after, hafter⟩ := Option.isSome_iff_exists.mp h
    unfold applyTo? at hafter
    split at hafter
    · rename_i hle
      simp only [Option.bind_eq_bind, Option.bind_eq_some_iff] at hafter
      obtain ⟨⟨front, rest⟩, hfront, ⟨middle, back⟩, hmiddle, _⟩ := hafter
      obtain ⟨hbuffer, hstart⟩ := Text.splitAtByte_eq_some_iff.mp hfront
      obtain ⟨hrest, hlen⟩ := Text.splitAtByte_eq_some_iff.mp hmiddle
      dsimp only at hrest
      refine ⟨front, middle, back, ?_, hstart, ?_⟩
      · rw [hbuffer, hrest, List.append_assoc]
      · rw [Text.byteLength_append, hstart, hlen]
        omega
    · cases hafter
  · rintro ⟨front, middle, back, hbuffer, hstart, hstop⟩
    have happly := applyTo?_append front middle back e.text
    rw [← Text.byteLength_append, hstart, hstop, ← hbuffer, String.ofList_toList] at happly
    rw [happly]
    rfl

@[simp] theorem replay?_nil (buffer : String) : replay? [] buffer = some buffer := rfl

theorem replay?_cons (e : Edit) (edits : List Edit) (buffer : String) :
    replay? (e :: edits) buffer = (e.applyTo? buffer).bind (replay? edits) := by
  rw [replay?, List.foldlM_cons]
  rfl

theorem replay?_append (before after : List Edit) (buffer : String) :
    replay? (before ++ after) buffer = (replay? before buffer).bind (replay? after) := by
  rw [replay?, List.foldlM_append]
  rfl

/-- Where a replay has a result, each edit fits the buffer that it meets. -/
theorem fits_of_replay? {before after : List Edit} {e : Edit} {old new : String}
    (h : replay? (before ++ e :: after) old = some new) :
    ∃ buffer, replay? before old = some buffer ∧ e.Fits buffer := by
  rw [replay?_append] at h
  obtain ⟨buffer, hbefore, hrest⟩ := Option.bind_eq_some_iff.mp h
  rw [replay?_cons] at hrest
  obtain ⟨next, he, _⟩ := Option.bind_eq_some_iff.mp hrest
  exact ⟨buffer, hbefore, applyTo?_isSome_iff.mp (by rw [he]; rfl)⟩

/-- One edit replaces a whole buffer. -/
theorem replay?_replaceAll (old new : String) :
    replay? (replaceAll old.utf8ByteSize new) old = some new := by
  have h := applyTo?_append [] old.toList [] new
  simp only [Text.byteLength, Nat.zero_add, Text.byteLength_toList, List.nil_append,
    List.append_nil, String.ofList_toList] at h
  rw [replaceAll, replay?_cons, h]
  rfl

end Edit

/-! ## The edits of a script -/

namespace Diff

/-- No edit begins before the position from which its run was reached. -/
theorem Run.le_start_of_mem_editsFrom {position : Nat} {runs : List Run} {e : Edit}
    (he : e ∈ Run.editsFrom position runs) : position ≤ e.start := by
  fun_induction Run.editsFrom position runs with
  | case1 => cases he
  | case2 position bytes rest ih => exact Nat.le_trans (Nat.le_add_right ..) (ih he)
  | case3 position rest ih => exact ih he
  | case4 position bytes rest _ ih =>
    rcases List.mem_cons.mp he with rfl | he
    · exact Nat.le_refl _
    · exact ih he
  | case5 position rest ih => exact ih he
  | case6 position text rest _ ih =>
    rcases List.mem_cons.mp he with rfl | he
    · exact Nat.le_refl _
    · exact Nat.le_trans (Nat.le_add_right ..) (ih he)

/-- Edits come in the order of their starts. -/
theorem Run.editsFrom_ordered (position : Nat) (runs : List Run) :
    (Run.editsFrom position runs).Pairwise (fun e f => e.start ≤ f.start) := by
  fun_induction Run.editsFrom position runs with
  | case1 => exact .nil
  | case2 position bytes rest ih => exact ih
  | case3 position rest ih => exact ih
  | case4 position bytes rest _ ih =>
    exact List.pairwise_cons.mpr ⟨fun f hf => Run.le_start_of_mem_editsFrom hf, ih⟩
  | case5 position rest ih => exact ih
  | case6 position text rest _ ih =>
    refine List.pairwise_cons.mpr ⟨fun f hf => ?_, ih⟩
    exact Nat.le_trans (Nat.le_add_right ..) (Run.le_start_of_mem_editsFrom hf)

/--
**Behind final text, the edits of a script turn its old text into its new text.** The
induction is on the script; what is final grows by the pieces that stay in the buffer.
-/
theorem replay?_editsFrom (s : Script) (final : List Char) :
    Edit.replay? (Run.editsFrom (Text.byteLength final) (s.map Piece.run))
        (String.ofList (final ++ s.oldText)) =
      some (String.ofList (final ++ s.newText)) := by
  induction s generalizing final with
  | nil => rfl
  | cons piece rest ih =>
    cases piece with
    | keep text =>
      -- what is kept becomes final, and no edit is made
      have h := ih (final ++ text)
      rw [Text.byteLength_append, List.append_assoc, List.append_assoc] at h
      exact h
    | delete text =>
      rw [List.map_cons, Piece.run, Run.editsFrom]
      split
      · rename_i hnone
        rw [Text.byteLength_eq_zero_iff] at hnone
        subst hnone
        exact ih final
      · -- what is deleted stands right behind the final text
        have he := Edit.applyTo?_append final text (Script.oldText rest) ""
        rw [String.toList_empty, List.append_nil, List.append_assoc] at he
        rw [Edit.replay?_cons, Edit.remove, Script.oldText_cons, Piece.oldText, he,
          Option.bind_some, ih final]
        rfl
    | insert text =>
      rw [List.map_cons, Piece.run, Run.editsFrom]
      split
      · rename_i hnone
        have htext : text = [] := by simpa using hnone
        subst htext
        exact ih final
      · -- what is inserted becomes final
        have he := Edit.applyTo?_append final [] (Script.oldText rest) (String.ofList text)
        rw [String.toList_ofList, List.append_nil, Text.byteLength, Nat.add_zero] at he
        have h := ih (final ++ text)
        rw [Text.byteLength_append, List.append_assoc final text (Script.newText rest)] at h
        rw [Edit.replay?_cons, Edit.insertAt, Script.oldText_cons, Piece.oldText, List.nil_append,
          he, Option.bind_some, Text.utf8ByteSize_ofList, h]
        rfl

/-- The edits of two texts turn one into the other. -/
theorem replay?_edits (old new : String) : Edit.replay? (edits old new) old = some new := by
  unfold edits
  split
  · rename_i heq
    rw [heq, Edit.replay?_nil]
  · have h := replay?_editsFrom (script old new) []
    rw [List.nil_append, List.nil_append, (script_spells old new).old,
      (script_spells old new).new, String.ofList_toList, String.ofList_toList] at h
    exact h

/--
**Round trip.** Replaying the edits of two texts on the first never fails and ends in the
second. Each edit fits the buffer that the edits before it have left, and none begins
before the one that it follows.
-/
theorem edits_round_trip (old new : String) :
    Edit.replay? (edits old new) old = some new ∧
    (∀ before e after, edits old new = before ++ e :: after →
      ∃ buffer, Edit.replay? before old = some buffer ∧ e.Fits buffer) ∧
    (edits old new).Pairwise (fun e f => e.start ≤ f.start) := by
  refine ⟨replay?_edits old new, ?_, ?_⟩
  · intro before e after h
    have hreplay := replay?_edits old new
    rw [h] at hreplay
    exact Edit.fits_of_replay? hreplay
  · unfold edits
    split
    · exact .nil
    · exact Run.editsFrom_ordered 0 _

end Diff

end BackendSync
