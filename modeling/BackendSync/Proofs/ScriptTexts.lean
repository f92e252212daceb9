import BackendSync.Diff.Run

/-!
# The two texts of a script

An alignment is cut, put together again, and then has its pieces moved about by three
passes that know nothing of the texts it came from. None of them may lose, add or
exchange a character, and what says so is the same for all of them: a script **spells**
an old and a new text, and whatever is done to it keeps both.

The two passes over insertions rest on one observation. An inserted piece that shares an
end with the kept text before it can change places with that end, because
`keep (x ++ z), insert (y ++ z)` and `keep x, insert (z ++ y), keep z` have the same
texts. Everything else is moving pieces over pieces of the other kind.
-/

namespace BackendSync.Diff

/-- The script lines `old` up with `new`. -/
structure Script.Spells (s : Script) (old new : List Char) : Prop where
  /-- Its kept and deleted pieces are the old text. -/
  old : s.oldText = old
  /-- Its kept and inserted pieces are the new text. -/
  new : s.newText = new

/-! ## Texts of pieces -/

namespace Script

@[simp] theorem oldText_nil : oldText [] = [] := rfl

@[simp] theorem newText_nil : newText [] = [] := rfl

@[simp] theorem oldText_cons (piece : Piece) (s : Script) :
    oldText (piece :: s) = piece.oldText ++ oldText s := List.flatMap_cons

@[simp] theorem newText_cons (piece : Piece) (s : Script) :
    newText (piece :: s) = piece.newText ++ newText s := List.flatMap_cons

@[simp] theorem oldText_append (s t : Script) : oldText (s ++ t) = oldText s ++ oldText t :=
  List.flatMap_append

@[simp] theorem newText_append (s t : Script) : newText (s ++ t) = newText s ++ newText t :=
  List.flatMap_append

theorem Spells.append {s t : Script} {a b c d : List Char}
    (hs : s.Spells a b) (ht : t.Spells c d) : Script.Spells (s ++ t) (a ++ c) (b ++ d) :=
  ⟨by rw [oldText_append, hs.old, ht.old], by rw [newText_append, hs.new, ht.new]⟩

end Script

namespace Piece

attribute [simp] oldText newText

@[simp] theorem oldText_keepIfAny (text : List Char) : Script.oldText (keepIfAny text) = text := by
  cases text <;> simp [keepIfAny]

@[simp] theorem newText_keepIfAny (text : List Char) : Script.newText (keepIfAny text) = text := by
  cases text <;> simp [keepIfAny]

@[simp] theorem oldText_deleteIfAny (text : List Char) :
    Script.oldText (deleteIfAny text) = text := by
  cases text <;> simp [deleteIfAny]

@[simp] theorem newText_deleteIfAny (text : List Char) :
    Script.newText (deleteIfAny text) = [] := by
  cases text <;> simp [deleteIfAny]

@[simp] theorem oldText_insertIfAny (text : List Char) :
    Script.oldText (insertIfAny text) = [] := by
  cases text <;> simp [insertIfAny]

@[simp] theorem newText_insertIfAny (text : List Char) :
    Script.newText (insertIfAny text) = text := by
  cases text <;> simp [insertIfAny]

end Piece

/-! ## Shared beginnings and ends -/

theorem drop_commonEndLength (a b : List Char) :
    a.drop (a.length - commonEndLength a b) = b.drop (b.length - commonEndLength a b) := by
  have h := congrArg List.reverse (take_commonLength a.reverse b.reverse)
  rwa [List.reverse_take, List.reverse_take, List.reverse_reverse, List.reverse_reverse,
    List.length_reverse, List.length_reverse] at h

/-- The end that a text shares with another is its own end. -/
theorem take_append_commonEnd (a b : List Char) :
    b.take (b.length - commonEndLength a b) ++ a.drop (a.length - commonEndLength a b) = b := by
  rw [drop_commonEndLength, List.take_append_drop]

/-- The beginning that a text shares with another is its own beginning. -/
theorem commonStart_append_drop (a b : List Char) :
    a.take (commonLength a b) ++ b.drop (commonLength a b) = b := by
  rw [take_commonLength, List.take_append_drop]

/-! ## The alignment -/

/-- Two texts with a common beginning and a common end are spelled around their rests. -/
theorem frame_spells {old new : List Char} {k s : Nat} {middle : Script}
    (hfront : old.take k = new.take k)
    (hback : (old.drop k).drop (old.length - k - s) = (new.drop k).drop (new.length - k - s))
    (h : middle.Spells ((old.drop k).take (old.length - k - s))
      ((new.drop k).take (new.length - k - s))) :
    Script.Spells (Piece.keepIfAny (old.take k) ++ middle ++
      Piece.keepIfAny ((old.drop k).drop (old.length - k - s))) old new := by
  constructor
  · rw [Script.oldText_append, Script.oldText_append, h.old, Piece.oldText_keepIfAny,
      Piece.oldText_keepIfAny, List.append_assoc, List.take_append_drop, List.take_append_drop]
  · rw [Script.newText_append, Script.newText_append, h.new, Piece.newText_keepIfAny,
      Piece.newText_keepIfAny, List.append_assoc, hfront, hback, List.take_append_drop,
      List.take_append_drop]

/--
**The alignment of two texts spells them both.** It does not matter where the rests are
cut: the two parts of a text are the text, whatever the cut.
-/
theorem align_spells (old new : List Char) : (align old new).Spells old new := by
  fun_induction align old new with
  | case1 old new k s a b middle hfront hback =>
    have hmiddle : middle.Spells a b := by
      simp only [middle]
      split
      · rename_i ha
        exact ⟨by rw [Piece.oldText_insertIfAny, List.isEmpty_iff.mp ha], by simp⟩
      · split
        · rename_i hb
          exact ⟨by simp, by rw [List.isEmpty_iff.mp hb]; simp⟩
        · split
          · rename_i x y hcut
            have h := (hfront x y hcut).append (hback x y hcut)
            rwa [List.take_append_drop, List.take_append_drop] at h
          · exact ⟨by simp, by simp⟩
    refine frame_spells (take_commonLength old new) ?_ hmiddle
    have h := drop_commonEndLength (old.drop k) (new.drop k)
    rwa [List.length_drop, List.length_drop] at h

/-! ## Moving pieces -/

theorem gatherDeletes_spells {gathered : List Char} {s : Script} :
    (gatherDeletes gathered s).Spells (gathered ++ s.oldText) s.newText := by
  fun_induction gatherDeletes gathered s with
  | case1 gathered => exact ⟨by simp, by simp⟩
  | case2 gathered text rest ih => exact ⟨by simp [ih.old], by simp [ih.new]⟩
  | case3 gathered text rest ih => exact ⟨by simp [ih.old], by simp [ih.new]⟩
  | case4 gathered text rest ih => exact ⟨by simp [ih.old], by simp [ih.new]⟩

namespace Focus

/-- The texts of a focus, its inserted piece apart. -/
theorem script_spells_iff (f : Focus) {old new : List Char} :
    f.script.Spells old new ↔
      Script.oldText f.before.reverse ++ Script.oldText f.after = old ∧
      Script.newText f.before.reverse ++ (f.text ++ Script.newText f.after) = new := by
  constructor
  · intro h
    exact ⟨by simpa [script] using h.old, by simpa [script] using h.new⟩
  · rintro ⟨hold, hnew⟩
    exact ⟨by simpa [script] using hold, by simpa [script] using hnew⟩

@[simp] theorem oldText_keepBefore (text : List Char) (after : List Piece) :
    Script.oldText (keepBefore text after) = text ++ Script.oldText after := by
  unfold keepBefore; split <;> simp

@[simp] theorem newText_keepBefore (text : List Char) (after : List Piece) :
    Script.newText (keepBefore text after) = text ++ Script.newText after := by
  unfold keepBefore; split <;> simp

@[simp] theorem oldText_keepAfter (text : List Char) (before : List Piece) :
    Script.oldText (keepAfter text before).reverse = Script.oldText before.reverse ++ text := by
  unfold keepAfter; split <;> simp

@[simp] theorem newText_keepAfter (text : List Char) (before : List Piece) :
    Script.newText (keepAfter text before).reverse = Script.newText before.reverse ++ text := by
  unfold keepAfter; split <;> simp

theorem raise_spells {before after : List Piece} {text old new : List Char}
    (h : (Focus.mk before text after).script.Spells old new) :
    (raise before text after).script.Spells old new := by
  fun_induction raise before text after with
  | case1 text after => exact h
  | case2 text after other before ih =>
    refine ih ?_
    rw [script_spells_iff] at h ⊢
    simpa using h
  | case3 text after other before ih =>
    refine ih ?_
    rw [script_spells_iff] at h ⊢
    simpa using h
  | case4 => exact h
  | case5 kept before text after s _ shared text' after' _ ih =>
    -- part of the kept text stays in front of the inserted piece
    refine ih ?_
    rw [script_spells_iff] at h ⊢
    have hkept : kept.take (kept.length - s) ++ shared = kept := List.take_append_drop _ _
    have htext : text.take (text.length - s) ++ shared = text := take_append_commonEnd kept text
    rw [← hkept, ← htext] at h
    simpa [text', after'] using h
  | case6 kept before text after s _ shared text' after' hall ih =>
    -- all of it is shared and goes behind
    refine ih ?_
    rw [script_spells_iff] at h ⊢
    have hkept : kept = shared := by
      simp only [shared, Nat.sub_eq_zero_of_le (Nat.not_lt.mp hall), List.drop_zero]
    have htext : text.take (text.length - s) ++ shared = text := take_append_commonEnd kept text
    rw [← htext, hkept] at h
    simpa [text', after'] using h

theorem lower_spells {before after : List Piece} {text old new : List Char}
    (h : (Focus.mk before text after).script.Spells old new) :
    (lower before text after).script.Spells old new := by
  fun_induction lower before text after with
  | case1 before text => exact h
  | case2 before text other after ih =>
    refine ih ?_
    rw [script_spells_iff] at h ⊢
    simpa using h
  | case3 before text other after ih =>
    refine ih ?_
    rw [script_spells_iff] at h ⊢
    simpa using h
  | case4 => exact h
  | case5 before text kept after s _ shared text' before' _ ih =>
    -- part of the kept text stays behind the inserted piece
    refine ih ?_
    rw [script_spells_iff] at h ⊢
    have hkept : shared ++ kept.drop s = kept := List.take_append_drop _ _
    have htext : shared ++ text.drop s = text := commonStart_append_drop kept text
    rw [← hkept, ← htext] at h
    simpa [text', before'] using h
  | case6 before text kept after s _ shared text' before' hall ih =>
    -- all of it is shared and goes in front
    refine ih ?_
    rw [script_spells_iff] at h ⊢
    have hkept : kept = shared := (List.take_of_length_le (Nat.not_lt.mp hall)).symm
    have htext : shared ++ text.drop s = text := commonStart_append_drop kept text
    rw [← htext, hkept] at h
    simpa [text', before'] using h

theorem settle_spells {f : Focus} {old new : List Char} (h : f.script.Spells old new) :
    f.settle.script.Spells old new := lower_spells (raise_spells h)

theorem first?_script {before rest : List Piece} {f : Focus} (h : first? before rest = some f) :
    f.script = before.reverse ++ rest := by
  fun_induction first? before rest with
  | case1 => cases h
  | case2 before text after =>
    cases h
    rfl
  | case3 before piece after _ ih => simpa using ih h

end Focus

theorem settleInserts_spells {count : Nat} {before rest : List Piece} {old new : List Char}
    (h : Script.Spells (before.reverse ++ rest) old new) :
    (settleInserts count before rest).Spells old new := by
  fun_induction settleInserts count before rest with
  | case1 => exact h
  | case2 => exact h
  | case3 before rest count focus hfocus settled ih =>
    refine ih ?_
    rw [← Focus.first?_script hfocus] at h
    simpa [Focus.script] using Focus.settle_spells h

/-- Merging writes out what has grown, and the rest of the script behind it. -/
theorem mergePieces_spells (kept deleted inserted : List Char) (s : Script) :
    (mergePieces kept deleted inserted s).Spells
      (kept ++ deleted ++ s.oldText) (kept ++ inserted ++ s.newText) := by
  fun_induction mergePieces kept deleted inserted s with
  | case1 kept deleted inserted => exact ⟨by simp, by simp⟩
  | case2 kept deleted inserted text rest hnone ih =>
    rw [Bool.and_eq_true, List.isEmpty_iff, List.isEmpty_iff] at hnone
    obtain ⟨rfl, rfl⟩ := hnone
    exact ⟨by simp [ih.old], by simp [ih.new]⟩
  | case3 kept deleted inserted text rest _ ih => exact ⟨by simp [ih.old], by simp [ih.new]⟩
  | case4 kept deleted inserted text rest ih => exact ⟨by simp [ih.old], by simp [ih.new]⟩
  | case5 kept deleted inserted text rest ih => exact ⟨by simp [ih.old], by simp [ih.new]⟩

/-! ## At the top -/

/-- Moving pieces together keeps both texts. -/
theorem compact_spells {s : Script} {old new : List Char} (h : s.Spells old new) :
    (compact s).Spells old new := by
  have hgathered : (gatherDeletes [] s).Spells old new := by
    have hg : (gatherDeletes [] s).Spells ([] ++ s.oldText) s.newText := gatherDeletes_spells
    rwa [List.nil_append, h.old, h.new] at hg
  have hsettled :
      (settleInserts (insertCount (gatherDeletes [] s)) [] (gatherDeletes [] s)).Spells old new :=
    settleInserts_spells hgathered
  have hmerged := mergePieces_spells [] [] []
    (settleInserts (insertCount (gatherDeletes [] s)) [] (gatherDeletes [] s))
  rw [hsettled.old, hsettled.new] at hmerged
  simpa [compact] using hmerged

/-- **The script of two texts spells them both.** -/
theorem script_spells (old new : String) : (script old new).Spells old.toList new.toList :=
  compact_spells (align_spells _ _)

end BackendSync.Diff
