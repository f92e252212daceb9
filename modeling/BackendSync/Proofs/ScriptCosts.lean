import BackendSync.Proofs.Meeting
import BackendSync.Proofs.ScriptTexts

/-!
# The cost of a script

A script that lines two texts up costs the characters that it deletes and inserts. The alignment
of two texts costs no more than they are apart, and the passes that move its pieces together cost
nothing. They only exchange what is inserted for as many other characters, so that each of them
needs one equation, between the cost of what it is given and of what it gives.

An alignment is as good as its cuts. What two texts do not begin and do not end with in common is
two steps apart at least (`two_le_apart`), and then there is a cut that loses nothing
(`exists_cut`). The branch of `align` that gives up for want of a cut is never taken.
-/

namespace BackendSync.Diff

/-! ## Adding costs up -/

namespace Script

@[simp] theorem cost_nil : cost [] = 0 := rfl

@[simp] theorem cost_cons (piece : Piece) (s : Script) :
    cost (piece :: s) = piece.cost + cost s := rfl

@[simp] theorem cost_append (s t : Script) : cost (s ++ t) = cost s + cost t := by
  induction s with
  | nil => rw [List.nil_append, cost_nil, Nat.zero_add]
  | cons piece s ih => rw [List.cons_append, cost_cons, cost_cons, ih, Nat.add_assoc]

@[simp] theorem cost_reverse (s : Script) : cost s.reverse = cost s := by
  induction s with
  | nil => rfl
  | cons piece s ih =>
    rw [List.reverse_cons, cost_append, ih, cost_cons, cost_cons, cost_nil]
    omega

end Script

namespace Piece

attribute [simp] cost

@[simp] theorem cost_keepIfAny (text : List Char) : Script.cost (keepIfAny text) = 0 := by
  cases text <;> rfl

@[simp] theorem cost_deleteIfAny (text : List Char) :
    Script.cost (deleteIfAny text) = text.length := by
  cases text <;> rfl

@[simp] theorem cost_insertIfAny (text : List Char) :
    Script.cost (insertIfAny text) = text.length := by
  cases text <;> rfl

end Piece

/-! ## What common beginnings and ends leave -/

theorem commonLength_append_same (front a b : List Char) :
    commonLength (front ++ a) (front ++ b) = front.length + commonLength a b := by
  induction front with
  | nil => rw [List.nil_append, List.nil_append, List.length_nil, Nat.zero_add]
  | cons c front ih =>
    rw [List.cons_append, List.cons_append, commonLength, if_pos rfl, ih, List.length_cons]
    omega

/-- Behind the longest common beginning there is no other. -/
theorem commonLength_drop (a b : List Char) :
    commonLength (a.drop (commonLength a b)) (b.drop (commonLength a b)) = 0 := by
  fun_induction commonLength a b with
  | case1 a as bs ih => exact ih
  | case2 a as b bs hne => rw [List.drop_zero, List.drop_zero, commonLength, if_neg hne]
  | case3 a b hnone =>
    rw [List.drop_zero, List.drop_zero, commonLength]
    exact hnone

/-- Beginnings of two texts have no longer common beginning than the texts. -/
theorem commonLength_take_le (a b : List Char) (i j : Nat) :
    commonLength (a.take i) (b.take j) ≤ commonLength a b := by
  have hfront := take_commonLength (a.take i) (b.take j)
  have hlength := List.length_take_of_le (commonLength_le_left (a.take i) (b.take j))
  generalize commonLength (a.take i) (b.take j) = n at hfront hlength ⊢
  rw [← List.take_append_drop i a, ← List.take_append_drop n (a.take i),
    ← List.take_append_drop j b, ← List.take_append_drop n (b.take j), ← hfront,
    List.append_assoc, List.append_assoc, commonLength_append_same, hlength]
  exact Nat.le_add_right _ _

/-- In front of the longest common end there is no other. -/
theorem commonEndLength_take (a b : List Char) :
    commonEndLength (a.take (a.length - commonEndLength a b))
      (b.take (b.length - commonEndLength a b)) = 0 := by
  have h := commonLength_drop a.reverse b.reverse
  rwa [List.drop_reverse, List.drop_reverse] at h

/-- A text and the same with one character more in front of it have a common end. -/
theorem length_le_commonEndLength_cons (c : Char) (a : List Char) :
    a.length ≤ commonEndLength (c :: a) a ∧ a.length ≤ commonEndLength a (c :: a) := by
  have hleft := commonLength_append_same a.reverse [c] []
  have hright := commonLength_append_same a.reverse [] [c]
  rw [List.append_nil, List.length_reverse] at hleft hright
  rw [commonEndLength, commonEndLength, List.reverse_cons]
  omega

/-- **Texts with neither a common beginning nor a common end are two steps apart**, if there is
anything of both. -/
theorem two_le_apart {a b : List Char} (ha : a ≠ []) (hb : b ≠ []) (hstart : commonLength a b = 0)
    (hend : commonEndLength a b = 0) : 2 ≤ apart a b := by
  obtain ⟨x, as, rfl⟩ := List.exists_cons_of_ne_nil ha
  obtain ⟨y, bs, rfl⟩ := List.exists_cons_of_ne_nil hb
  have hne : x ≠ y := by
    rintro rfl
    rw [commonLength, if_pos rfl] at hstart
    exact Nat.succ_ne_zero _ hstart
  -- one of the first characters is touched, and if it is the only one, all that follows is kept
  rw [apart_cons_of_ne hne]
  have hleft : apart as (y :: bs) ≠ 0 := by
    intro hnone
    have hsame := eq_of_apart_eq_zero hnone
    have hlong := (length_le_commonEndLength_cons x (y :: bs)).1
    rw [hsame] at hend
    rw [hend] at hlong
    exact Nat.not_succ_le_zero _ hlong
  have hright : apart (x :: as) bs ≠ 0 := by
    intro hnone
    have hsame := eq_of_apart_eq_zero hnone
    have hlong := (length_le_commonEndLength_cons y (x :: as)).2
    rw [← hsame] at hend
    rw [hend] at hlong
    exact Nat.not_succ_le_zero _ hlong
  omega

/-! ## The alignment -/

/-- Two texts are as far apart as what a common beginning and a common end leave of them. -/
theorem apart_rests {old new : List Char} {k s : Nat} (hfront : old.take k = new.take k)
    (hback : (old.drop k).drop (old.length - k - s) = (new.drop k).drop (new.length - k - s)) :
    apart ((old.drop k).take (old.length - k - s)) ((new.drop k).take (new.length - k - s)) =
      apart old new := by
  have hframe := apart_frame (old.take k) ((old.drop k).drop (old.length - k - s))
    ((old.drop k).take (old.length - k - s)) ((new.drop k).take (new.length - k - s))
  rw [← hframe, List.take_append_drop, List.take_append_drop, hfront, hback, List.take_append_drop,
    List.take_append_drop]

/-- **The alignment of two texts costs what they are apart.** -/
theorem cost_align (old new : List Char) : (align old new).cost = apart old new := by
  fun_induction align old new with
  | case1 old new k s a b middle hfront hback =>
    have hnostart : commonLength a b = 0 := by
      have h := commonLength_take_le (old.drop k) (new.drop k) (old.length - k - s)
        (new.length - k - s)
      rw [commonLength_drop] at h
      exact Nat.le_zero.mp h
    have hnoend : commonEndLength a b = 0 := by
      have h := commonEndLength_take (old.drop k) (new.drop k)
      rwa [List.length_drop, List.length_drop] at h
    have hmiddle : middle.cost = apart a b := by
      simp only [middle]
      split
      · rename_i ha
        rw [List.isEmpty_iff.mp ha, apart_nil_left, Piece.cost_insertIfAny]
      · rename_i ha
        split
        · rename_i hb
          rw [List.isEmpty_iff.mp hb, apart_nil_right]
          rfl
        · rename_i hb
          rw [List.isEmpty_iff] at ha hb
          obtain ⟨x, y, hcut, hsum⟩ := exists_cut (two_le_apart ha hb hnostart hnoend)
          split
          · rename_i x' y' hcut'
            cases hcut.symm.trans hcut'
            rw [Script.cost_append, hfront x y hcut, hback x y hcut, hsum]
          · rename_i hnocut
            cases hcut.symm.trans hnocut
    -- what is around the rests is kept and costs nothing
    have hend := drop_commonEndLength (old.drop k) (new.drop k)
    rw [List.length_drop, List.length_drop] at hend
    have hrests : apart a b = apart old new := apart_rests (take_commonLength old new) hend
    rw [Script.cost_append, Script.cost_append, Piece.cost_keepIfAny, Piece.cost_keepIfAny,
      hmiddle, hrests, Nat.zero_add, Nat.add_zero]

/-! ## Moving pieces -/

theorem cost_gatherDeletes (gathered : List Char) (s : Script) :
    (gatherDeletes gathered s).cost = gathered.length + s.cost := by
  fun_induction gatherDeletes gathered s with
  | case1 gathered => simp
  | case2 gathered text rest ih => simp [ih]
  | case3 gathered text rest ih => simp [ih, Nat.add_assoc]
  | case4 gathered text rest ih => simp [ih, Nat.add_left_comm]

namespace Focus

theorem cost_script (f : Focus) :
    f.script.cost = Script.cost f.before + (f.text.length + Script.cost f.after) := by
  simp [script]

@[simp] theorem cost_keepBefore (text : List Char) (after : List Piece) :
    Script.cost (keepBefore text after) = Script.cost after := by
  unfold keepBefore; split <;> simp

@[simp] theorem cost_keepAfter (text : List Char) (before : List Piece) :
    Script.cost (keepAfter text before) = Script.cost before := by
  unfold keepAfter; split <;> simp

/-- The end that a kept text shares with an inserted one is exchanged for another of its length. -/
theorem length_rotate_end (kept text : List Char) :
    (kept.drop (kept.length - commonEndLength kept text) ++
      text.take (text.length - commonEndLength kept text)).length = text.length := by
  have hkept := commonEndLength_le_left kept text
  have htext := commonEndLength_le_right kept text
  rw [List.length_append, List.length_drop, List.length_take]
  omega

theorem length_rotate_start (kept text : List Char) :
    (text.drop (commonLength kept text) ++ kept.take (commonLength kept text)).length =
      text.length := by
  have hkept := commonLength_le_left kept text
  have htext := commonLength_le_right kept text
  rw [List.length_append, List.length_drop, List.length_take]
  omega

theorem cost_raise (before : List Piece) (text : List Char) (after : List Piece) :
    (raise before text after).script.cost =
      Script.cost before + (text.length + Script.cost after) := by
  fun_induction raise before text after with
  | case1 text after => exact cost_script _
  | case2 text after other before ih =>
    rw [ih, List.length_append, Script.cost_cons, Piece.cost]
    omega
  | case3 text after other before ih =>
    rw [ih, Script.cost_cons, Script.cost_cons, Piece.cost]
    omega
  | case4 => exact cost_script _
  | case5 kept before text after s _ shared text' after' _ ih =>
    rw [ih, length_rotate_end, cost_keepBefore]
    rfl
  | case6 kept before text after s _ shared text' after' _ ih =>
    rw [ih, length_rotate_end, cost_keepBefore, Script.cost_cons, Piece.cost, Nat.zero_add]

theorem cost_lower (before : List Piece) (text : List Char) (after : List Piece) :
    (lower before text after).script.cost =
      Script.cost before + (text.length + Script.cost after) := by
  fun_induction lower before text after with
  | case1 before text => exact cost_script _
  | case2 before text other after ih =>
    rw [ih, List.length_append, Script.cost_cons, Piece.cost, Nat.add_assoc]
  | case3 before text other after ih =>
    rw [ih, Script.cost_cons, Script.cost_cons, Piece.cost]
    omega
  | case4 => exact cost_script _
  | case5 before text kept after s _ shared text' before' _ ih =>
    rw [ih, length_rotate_start, cost_keepAfter]
    rfl
  | case6 before text kept after s _ shared text' before' _ ih =>
    rw [ih, length_rotate_start, cost_keepAfter, Script.cost_cons, Piece.cost, Nat.zero_add]

theorem cost_settle (f : Focus) : f.settle.script.cost = f.script.cost := by
  rw [settle, cost_lower, ← cost_script, cost_raise, cost_script]

end Focus

theorem cost_settleInserts (count : Nat) (before rest : List Piece) :
    (settleInserts count before rest).cost = Script.cost before + Script.cost rest := by
  fun_induction settleInserts count before rest with
  | case1 => rw [Script.cost_append, Script.cost_reverse]
  | case2 => rw [Script.cost_append, Script.cost_reverse]
  | case3 count before rest focus hfocus settled ih =>
    have hsettled : settled.script.cost = focus.script.cost := focus.cost_settle
    rw [Focus.cost_script, Focus.first?_script hfocus, Script.cost_append, Script.cost_reverse]
      at hsettled
    rw [ih, Script.cost_cons, Piece.cost]
    omega

theorem cost_mergePieces (kept deleted inserted : List Char) (s : Script) :
    (mergePieces kept deleted inserted s).cost = deleted.length + inserted.length + s.cost := by
  fun_induction mergePieces kept deleted inserted s with
  | case1 kept deleted inserted => simp
  | case2 kept deleted inserted text rest hnone ih =>
    rw [Bool.and_eq_true, List.isEmpty_iff, List.isEmpty_iff] at hnone
    obtain ⟨rfl, rfl⟩ := hnone
    simp [ih]
  | case3 kept deleted inserted text rest _ ih => simp [ih, Nat.add_assoc]
  | case4 kept deleted inserted text rest ih =>
    rw [ih, List.length_append, Script.cost_cons, Piece.cost]
    omega
  | case5 kept deleted inserted text rest ih =>
    rw [ih, List.length_append, Script.cost_cons, Piece.cost]
    omega

/-! ## At the top -/

/-- Moving pieces together costs nothing. -/
theorem cost_compact (s : Script) : (compact s).cost = s.cost := by
  rw [compact, cost_mergePieces, cost_settleInserts, cost_gatherDeletes]
  simp only [List.length_nil, Script.cost_nil, Nat.zero_add]

/-- **The script of two texts costs what they are apart.** -/
theorem cost_script (old new : String) : (script old new).cost = apart old.toList new.toList := by
  rw [script, cost_compact, cost_align]

end BackendSync.Diff
