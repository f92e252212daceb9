import BackendSync.Glob.Basic
import Mathlib.Tactic.Tauto

/-!
# The language of an expression

`Expr.Matches` says which strings of bytes an expression stands for, rule by rule and
without any positions. The marks that the matcher moves along a text are just the ends of
such strings: `marked_advance` is the step, one case for each form of an expression, and
`accepts_iff` the result.
-/

namespace BackendSync.Glob

namespace Expr

/-- The strings of bytes in the language of an expression. -/
inductive Matches : Expr → List UInt8 → Prop
  | empty : Matches empty []
  | one {set : ByteSet} {b : UInt8} (h : set.contains b = true) : Matches (one set) [b]
  | many {set : ByteSet} {bs : List UInt8} (h : ∀ b ∈ bs, set.contains b = true) :
      Matches (many set) bs
  | seq {first second : Expr} {front back : List UInt8} (hfirst : Matches first front)
      (hsecond : Matches second back) : Matches (seq first second) (front ++ back)
  | left {left right : Expr} {bs : List UInt8} (h : Matches left bs) : Matches (alt left right) bs
  | right {left right : Expr} {bs : List UInt8} (h : Matches right bs) :
      Matches (alt left right) bs

/-! ## Marks -/

/-- Is the position marked? -/
def Marked (marks : List Bool) (i : Nat) : Prop := marks[i]? = some true

theorem marked_zero {mark : Bool} {marks : List Bool} : Marked (mark :: marks) 0 ↔ mark = true :=
  Option.some_inj

theorem marked_succ {mark : Bool} {marks : List Bool} {i : Nat} :
    Marked (mark :: marks) (i + 1) ↔ Marked marks i := Iff.rfl

theorem Marked.lt {marks : List Bool} {i : Nat} (h : Marked marks i) : i < marks.length :=
  (List.getElem?_eq_some_iff.mp h).1

/--
A string of the language can be read in the text from a marked position up to the position
`j`.
-/
def Reaches (e : Expr) (text : List UInt8) (marks : List Bool) (j : Nat) : Prop :=
  ∃ before found after, text = before ++ found ++ after ∧ Marked marks before.length ∧
    e.Matches found ∧ (before ++ found).length = j

theorem length_spread (set : ByteSet) (carry : Bool) {text : List UInt8} {marks : List Bool}
    (h : marks.length = text.length + 1) :
    (spread set carry text marks).length = text.length + 1 := by
  induction text generalizing carry marks with
  | nil =>
    obtain ⟨mark, rfl⟩ := List.length_eq_one_iff.mp h
    rfl
  | cons b text ih =>
    obtain ⟨mark, marks, rfl⟩ := List.exists_cons_of_length_eq_add_one h
    exact congrArg (· + 1) (ih _ (Nat.succ.inj h))

theorem length_advance (e : Expr) {text : List UInt8} {marks : List Bool}
    (h : marks.length = text.length + 1) : (e.advance text marks).length = text.length + 1 := by
  induction e generalizing marks with
  | empty => exact h
  | one set => rw [advance, List.length_cons, List.length_zipWith, h, Nat.min_eq_right (Nat.le_succ _)]
  | many set => exact length_spread set false h
  | seq first second ihf ihs => exact ihs (ihf h)
  | alt left right ihl ihr => rw [advance, List.length_zipWith, ihl h, ihr h, Nat.min_self]

/-! ## One case for each form -/

theorem marked_empty {text : List UInt8} {marks : List Bool}
    (h : marks.length = text.length + 1) (j : Nat) :
    Marked (empty.advance text marks) j ↔ empty.Reaches text marks j := by
  constructor
  · intro hmarked
    have hle : j ≤ text.length := by
      have hlt : j < marks.length := hmarked.lt
      rw [h] at hlt
      exact Nat.le_of_lt_succ hlt
    have hlength : (text.take j).length = j := List.length_take_of_le hle
    refine ⟨text.take j, [], text.drop j, ?_, ?_, .empty, ?_⟩
    · rw [List.append_nil, List.take_append_drop]
    · rw [hlength]
      exact hmarked
    · rw [List.append_nil, hlength]
  · rintro ⟨before, found, after, -, hmarked, hmatches, hj⟩
    cases hmatches
    rw [List.append_nil] at hj
    rw [← hj]
    exact hmarked

theorem marked_one (set : ByteSet) {text : List UInt8} {marks : List Bool}
    (j : Nat) :
    Marked ((one set).advance text marks) j ↔ (one set).Reaches text marks j := by
  constructor
  · intro hmarked
    cases j with
    | zero => exact absurd (marked_zero.mp hmarked) Bool.false_ne_true
    | succ i =>
      obtain ⟨mark, b, hmark, hb, hboth⟩ := List.getElem?_zipWith_eq_some.mp (marked_succ.mp hmarked)
      obtain ⟨rfl, hin⟩ := Bool.and_eq_true_iff.mp hboth
      obtain ⟨hlt, rfl⟩ := List.getElem?_eq_some_iff.mp hb
      have hlength : (text.take i).length = i := List.length_take_of_le (Nat.le_of_lt hlt)
      refine ⟨text.take i, [text[i]], text.drop (i + 1), ?_, ?_, .one hin, ?_⟩
      · rw [← List.take_succ_eq_append_getElem hlt, List.take_append_drop]
      · rw [hlength]
        exact hmark
      · rw [List.length_append, hlength, List.length_singleton]
  · rintro ⟨before, found, after, rfl, hmarked, hmatches, hj⟩
    cases hmatches with
    | @one _ b hin =>
      rw [List.length_append, List.length_singleton] at hj
      rw [← hj]
      refine marked_succ.mpr (List.getElem?_zipWith_eq_some.mpr ⟨true, b, hmarked, ?_, ?_⟩)
      · rw [List.append_assoc, List.getElem?_append_right (Nat.le_refl _), Nat.sub_self]
        rfl
      · rw [Bool.true_and]
        exact hin

/-- Do the first `j` bytes of the text all belong to the set? -/
def BeginsIn (set : ByteSet) (text : List UInt8) (j : Nat) : Prop :=
  ∃ found after, text = found ++ after ∧ (many set).Matches found ∧ found.length = j

theorem matches_many_iff {set : ByteSet} {bs : List UInt8} :
    (many set).Matches bs ↔ ∀ b ∈ bs, set.contains b = true :=
  ⟨fun h => by cases h; assumption, .many⟩

theorem beginsIn_zero (set : ByteSet) (text : List UInt8) : BeginsIn set text 0 :=
  ⟨[], text, rfl, .many fun _ h => absurd h List.not_mem_nil, rfl⟩

theorem beginsIn_succ {set : ByteSet} {b : UInt8} {text : List UInt8} {j : Nat} :
    BeginsIn set (b :: text) (j + 1) ↔ set.contains b = true ∧ BeginsIn set text j := by
  constructor
  · rintro ⟨found, after, heq, hmatches, hj⟩
    obtain ⟨c, found, rfl⟩ := List.exists_cons_of_length_eq_add_one hj
    obtain ⟨rfl, rfl⟩ := List.cons.inj heq
    obtain ⟨hin, hrest⟩ := List.forall_mem_cons.mp (matches_many_iff.mp hmatches)
    exact ⟨hin, found, after, rfl, .many hrest, Nat.succ.inj hj⟩
  · rintro ⟨hin, found, after, rfl, hmatches, hj⟩
    refine ⟨b :: found, after, rfl, .many ?_, congrArg (· + 1) hj⟩
    exact List.forall_mem_cons.mpr ⟨hin, matches_many_iff.mp hmatches⟩

theorem not_beginsIn_nil {set : ByteSet} {j : Nat} : ¬BeginsIn set [] (j + 1) := by
  rintro ⟨found, after, heq, -, hj⟩
  rw [(List.append_eq_nil_iff.mp heq.symm).1] at hj
  cases hj

/-- A run of bytes begins at the first position or behind it. -/
theorem reaches_many_cons {set : ByteSet} {b : UInt8} {text : List UInt8} {mark : Bool}
    {marks : List Bool} {j : Nat} :
    (many set).Reaches (b :: text) (mark :: marks) (j + 1) ↔
      (many set).Reaches text marks j ∨ mark = true ∧ BeginsIn set (b :: text) (j + 1) := by
  constructor
  · rintro ⟨before, found, after, heq, hmarked, hmatches, hj⟩
    cases before with
    | nil => exact Or.inr ⟨marked_zero.mp hmarked, found, after, heq, hmatches, hj⟩
    | cons c before =>
      obtain ⟨rfl, rfl⟩ := List.cons.inj heq
      exact Or.inl ⟨before, found, after, rfl, hmarked, hmatches, Nat.succ.inj hj⟩
  · rintro (⟨before, found, after, rfl, hmarked, hmatches, hj⟩ | ⟨hmark, found, after, heq, hmatches, hj⟩)
    · exact ⟨b :: before, found, after, rfl, hmarked, hmatches, congrArg (· + 1) hj⟩
    · exact ⟨[], found, after, heq, marked_zero.mpr hmark, hmatches, hj⟩

theorem reaches_many_zero {set : ByteSet} {text : List UInt8} {mark : Bool} {marks : List Bool} :
    (many set).Reaches text (mark :: marks) 0 ↔ mark = true := by
  constructor
  · rintro ⟨before, found, after, -, hmarked, -, hj⟩
    rw [(List.append_eq_nil_iff.mp (List.eq_nil_of_length_eq_zero hj)).1] at hmarked
    exact marked_zero.mp hmarked
  · intro hmark
    obtain ⟨found, after, heq, hmatches, hj⟩ := beginsIn_zero set text
    exact ⟨[], found, after, heq, marked_zero.mpr hmark, hmatches, hj⟩

theorem not_reaches_many_nil {set : ByteSet} {marks : List Bool} {j : Nat} :
    ¬(many set).Reaches [] marks (j + 1) := by
  rintro ⟨before, found, after, heq, -, -, hj⟩
  rw [(List.append_eq_nil_iff.mp heq.symm).1] at hj
  cases hj

/--
What spreading marks: the positions that a run of bytes of the set reaches from a marked
position, or from the beginning if a match comes in there.
-/
theorem marked_spread (set : ByteSet) {text : List UInt8} (carry : Bool) {marks : List Bool}
    (h : marks.length = text.length + 1) (j : Nat) :
    Marked (spread set carry text marks) j ↔
      (many set).Reaches text marks j ∨ carry = true ∧ BeginsIn set text j := by
  induction text generalizing carry marks j with
  | nil =>
    obtain ⟨mark, rfl⟩ := List.length_eq_one_iff.mp h
    cases j with
    | zero =>
      have hhere : Marked (spread set carry [] [mark]) 0 ↔ (carry || mark) = true := marked_zero
      rw [hhere, reaches_many_zero, Bool.or_eq_true, or_comm]
      exact or_congr_right (and_iff_left (beginsIn_zero set [])).symm
    | succ j =>
      refine iff_of_false (fun hmarked => ?_) ?_
      · exact absurd hmarked.lt (Nat.not_lt.mpr (Nat.le_add_left 1 j))
      · rintro (hreaches | ⟨-, hbegins⟩)
        · exact not_reaches_many_nil hreaches
        · exact not_beginsIn_nil hbegins
  | cons b text ih =>
    obtain ⟨mark, marks, rfl⟩ := List.exists_cons_of_length_eq_add_one h
    cases j with
    | zero =>
      have hhere : Marked (spread set carry (b :: text) (mark :: marks)) 0 ↔
          (carry || mark) = true := marked_zero
      rw [hhere, reaches_many_zero, Bool.or_eq_true, or_comm]
      exact or_congr_right (and_iff_left (beginsIn_zero set (b :: text))).symm
    | succ j =>
      have hrest : Marked (spread set carry (b :: text) (mark :: marks)) (j + 1) ↔
          Marked (spread set ((carry || mark) && set.contains b) text marks) j := marked_succ
      rw [hrest, ih _ (Nat.succ.inj h), reaches_many_cons, beginsIn_succ, Bool.and_eq_true,
        Bool.or_eq_true]
      tauto

theorem marked_many (set : ByteSet) {text : List UInt8} {marks : List Bool}
    (h : marks.length = text.length + 1) (j : Nat) :
    Marked ((many set).advance text marks) j ↔ (many set).Reaches text marks j := by
  rw [advance, marked_spread set false h]
  exact or_iff_left fun hcarry => Bool.false_ne_true hcarry.1

/-- What the first expression reaches is where the second one begins. -/
theorem reaches_seq {first second : Expr} {text : List UInt8} {marks middle : List Bool}
    (hmiddle : ∀ i, Marked middle i ↔ first.Reaches text marks i) (j : Nat) :
    second.Reaches text middle j ↔ (seq first second).Reaches text marks j := by
  constructor
  · rintro ⟨before, found, after, htext, hmarked, hmatches, hj⟩
    obtain ⟨start, front, rest, heq, hstart, hfront, hlength⟩ := (hmiddle _).mp hmarked
    have hboth : (start ++ front) ++ rest = before ++ (found ++ after) := by
      rw [← heq, htext, List.append_assoc]
    obtain ⟨rfl, rfl⟩ := List.append_inj hboth hlength
    refine ⟨start, front ++ found, after, ?_, hstart, .seq hfront hmatches, ?_⟩
    · rw [htext, List.append_assoc start]
    · rw [← hj, List.append_assoc]
  · rintro ⟨before, found, after, htext, hmarked, hmatches, hj⟩
    cases hmatches with
    | @seq _ _ front back hfirst hsecond =>
      have hreaches : first.Reaches text marks (before ++ front).length := by
        refine ⟨before, front, back ++ after, ?_, hmarked, hfirst, rfl⟩
        rw [htext]
        simp only [List.append_assoc]
      refine ⟨before ++ front, back, after, ?_, (hmiddle _).mpr hreaches, hsecond, ?_⟩
      · rw [htext]
        simp only [List.append_assoc]
      · rw [← hj, List.append_assoc]

theorem reaches_alt {left right : Expr} {text : List UInt8} {marks : List Bool} {j : Nat} :
    (alt left right).Reaches text marks j ↔
      left.Reaches text marks j ∨ right.Reaches text marks j := by
  constructor
  · rintro ⟨before, found, after, htext, hmarked, hmatches, hj⟩
    cases hmatches with
    | left h => exact Or.inl ⟨before, found, after, htext, hmarked, h, hj⟩
    | right h => exact Or.inr ⟨before, found, after, htext, hmarked, h, hj⟩
  · rintro (⟨before, found, after, htext, hmarked, h, hj⟩ | ⟨before, found, after, htext, hmarked, h, hj⟩)
    · exact ⟨before, found, after, htext, hmarked, .left h, hj⟩
    · exact ⟨before, found, after, htext, hmarked, .right h, hj⟩

theorem marked_zipWith_or {as bs : List Bool} (h : as.length = bs.length) (j : Nat) :
    Marked (List.zipWith (fun a b => a || b) as bs) j ↔ Marked as j ∨ Marked bs j := by
  induction as generalizing bs j with
  | nil =>
    rw [List.eq_nil_of_length_eq_zero h.symm]
    exact (or_self_iff).symm
  | cons a as ih =>
    obtain ⟨b, bs, rfl⟩ := List.exists_cons_of_length_eq_add_one h.symm
    cases j with
    | zero => rw [List.zipWith_cons_cons, marked_zero, marked_zero, marked_zero, Bool.or_eq_true]
    | succ j => exact ih (Nat.succ.inj h) j

/-- **An expression marks just the ends of its strings.** -/
theorem marked_advance (e : Expr) {text : List UInt8} {marks : List Bool}
    (h : marks.length = text.length + 1) (j : Nat) :
    Marked (e.advance text marks) j ↔ e.Reaches text marks j := by
  induction e generalizing marks j with
  | empty => exact marked_empty h j
  | one set => exact marked_one set j
  | many set => exact marked_many set h j
  | seq first second ihf ihs =>
    exact (ihs (length_advance first h) j).trans (reaches_seq (fun i => ihf h i) j)
  | alt left right ihl ihr =>
    have hlengths : (left.advance text marks).length = (right.advance text marks).length := by
      rw [length_advance left h, length_advance right h]
    rw [advance, marked_zipWith_or hlengths, ihl h, ihr h, reaches_alt]

/-! ## Whole texts -/

/-- **A text is accepted if and only if it is in the language of the expression.** -/
theorem accepts_iff (e : Expr) (text : List UInt8) : e.accepts text = true ↔ e.Matches text := by
  have hbegin : ∀ i, Marked (true :: text.map fun _ => false) i ↔ i = 0 := by
    intro i
    cases i with
    | zero => exact iff_of_true (marked_zero.mpr rfl) rfl
    | succ i =>
      refine iff_of_false (fun h => ?_) (Nat.succ_ne_zero i)
      obtain ⟨b, -, hb⟩ := List.mem_map.mp (List.mem_of_getElem? (marked_succ.mp h))
      exact Bool.false_ne_true hb
  have hlength : (true :: text.map fun _ => false).length = text.length + 1 := by
    rw [List.length_cons, List.length_map]
  have hlast : e.accepts text = true ↔
      Marked (e.advance text (true :: text.map fun _ => false)) text.length := by
    rw [accepts, List.getLast?_eq_getElem?, length_advance e hlength, Nat.add_sub_cancel, Marked]
    cases (e.advance text (true :: text.map fun _ => false))[text.length]? with
    | none => exact iff_of_false Bool.false_ne_true nofun
    | some mark => exact Option.some_inj.symm
  rw [hlast, marked_advance e hlength]
  constructor
  · rintro ⟨before, found, after, htext, hmarked, hmatches, hj⟩
    obtain rfl := List.eq_nil_of_length_eq_zero ((hbegin _).mp hmarked)
    have hafter : after = [] := by
      refine List.eq_nil_of_length_eq_zero ?_
      have hsum := congrArg List.length htext
      rw [List.length_append, hj] at hsum
      omega
    rw [htext, hafter, List.append_nil]
    exact hmatches
  · intro hmatches
    refine ⟨[], text, [], ?_, (hbegin _).mpr rfl, hmatches, rfl⟩
    rw [List.append_nil]
    rfl

/-! ## Fixed texts -/

theorem matches_empty_iff {bs : List UInt8} : empty.Matches bs ↔ bs = [] :=
  ⟨fun h => by cases h; rfl, fun h => h ▸ .empty⟩

theorem matches_one_iff {set : ByteSet} {bs : List UInt8} :
    (one set).Matches bs ↔ ∃ b, set.contains b = true ∧ bs = [b] := by
  constructor
  · intro h
    cases h with
    | one h => exact ⟨_, h, rfl⟩
  · rintro ⟨b, h, rfl⟩
    exact .one h

theorem matches_seq_iff {first second : Expr} {bs : List UInt8} :
    (seq first second).Matches bs ↔
      ∃ front back, bs = front ++ back ∧ first.Matches front ∧ second.Matches back := by
  constructor
  · intro h
    cases h with
    | seq hfirst hsecond => exact ⟨_, _, rfl, hfirst, hsecond⟩
  · rintro ⟨front, back, rfl, hfirst, hsecond⟩
    exact .seq hfirst hsecond

end Expr

theorem ByteSet.contains_single {a b : UInt8} : (single a).contains b = true ↔ b = a := by
  have hrange : (single a).contains b = (decide (a ≤ b) && decide (b ≤ a)) := by
    rw [contains, single, List.any_cons, List.any_nil, Bool.or_false, Bool.false_bne]
  rw [hrange, Bool.and_eq_true, decide_eq_true_iff, decide_eq_true_iff]
  exact ⟨fun h => UInt8.le_antisymm h.2 h.1, fun h => h ▸ ⟨UInt8.le_refl b, UInt8.le_refl b⟩⟩

theorem Expr.matches_bytes_iff {bs text : List UInt8} : (bytes bs).Matches text ↔ text = bs := by
  induction bs generalizing text with
  | nil => exact matches_empty_iff
  | cons b bs ih =>
    have hseq : bytes (b :: bs) = seq (one (.single b)) (bytes bs) := rfl
    rw [hseq, matches_seq_iff]
    constructor
    · rintro ⟨front, back, rfl, hfront, hback⟩
      obtain ⟨c, hc, rfl⟩ := matches_one_iff.mp hfront
      rw [ByteSet.contains_single.mp hc, ih.mp hback]
      rfl
    · rintro rfl
      exact ⟨[b], bs, rfl, .one (ByteSet.contains_single.mpr rfl), ih.mpr rfl⟩

/-- Characters that stand for themselves match their bytes and nothing else. -/
theorem matches_literals_iff {cs : List Char} {text : List UInt8} :
    (sequenceExpr (cs.map .literal)).Matches text ↔ text = cs.flatMap charBytes := by
  induction cs generalizing text with
  | nil => exact Expr.matches_empty_iff
  | cons c cs ih =>
    have hseq : sequenceExpr ((c :: cs).map .literal) =
        .seq (.bytes (charBytes c)) (sequenceExpr (cs.map .literal)) := rfl
    rw [hseq, Expr.matches_seq_iff, List.flatMap_cons]
    constructor
    · rintro ⟨front, back, rfl, hfront, hback⟩
      rw [Expr.matches_bytes_iff.mp hfront, ih.mp hback]
    · rintro rfl
      exact ⟨_, _, rfl, Expr.matches_bytes_iff.mpr rfl, ih.mpr rfl⟩

/-! ## A pattern for one path -/

/-- Two paths of the same bytes are spelled alike. -/
theorem pathBytes_injective {p q : Path} (h : pathBytes p = pathBytes q) : p = q := by
  have hspelling : String.ofList p.chars = String.ofList q.chars :=
    String.toByteArray_inj.mp (congrArg List.toByteArray h)
  rw [← Path.ofChars_chars p, ← Path.ofChars_chars q]
  exact congrArg Path.mk hspelling

/-- The glob of characters that stand for themselves. -/
def fixed (cs : List Char) : Glob := ⟨cs.map .literal⟩

theorem expr_fixed (cs : List Char) : (fixed cs).expr = sequenceExpr (cs.map .literal) := by
  cases cs with
  | nil => rfl
  | cons c cs => rfl

theorem all_isLiteral_fixed (cs : List Char) : (cs.map Token.literal).all Token.isLiteral = true :=
  List.all_eq_true.mpr fun token h => by
    obtain ⟨c, -, rfl⟩ := List.mem_map.mp h
    rfl

theorem needsName_fixed (cs : List Char) : (fixed cs).needsName = false := by
  have hneeds : (fixed cs).needsName =
      (needsName.endsInDot (cs.map .literal) && !(cs.map Token.literal).all Token.isLiteral) := by
    cases cs with
    | nil => rfl
    | cons c cs => rfl
  rw [hneeds, all_isLiteral_fixed, Bool.not_true, Bool.and_false]

theorem deepest_literals (cs : List Char) : deepest (cs.map .literal) = 0 := by
  induction cs with
  | nil => rfl
  | cons c cs ih => exact (Nat.zero_max _).trans ih

theorem isMatchable_fixed (cs : List Char) : (fixed cs).isMatchable = true := by
  rw [isMatchable, nesting, fixed, deepest_literals]
  rfl

/-- **A fixed glob accepts the one path that is spelled with its characters.** -/
theorem accepts_fixed_iff {cs : List Char} {p : Path} :
    (fixed cs).accepts p = true ↔ p = Path.ofChars cs := by
  have hexpr : (fixed cs).accepts p = (fixed cs).expr.accepts (pathBytes p) := by
    rw [accepts, needsName_fixed, Bool.false_and, if_neg Bool.false_ne_true]
  have hbytes : cs.flatMap charBytes = pathBytes (Path.ofChars cs) := by
    rw [pathBytes, Path.chars_ofChars]
  rw [hexpr, Expr.accepts_iff, expr_fixed, matches_literals_iff, hbytes]
  exact ⟨pathBytes_injective, congrArg pathBytes⟩

/-- A backslash in front of every character. -/
def escape (cs : List Char) : List Char := cs.flatMap fun c => ['\\', c]

theorem read_escape (before : Option Char) (s : Levels) (cs : List Char) :
    read before s (escape cs) =
      .ok ⟨⟨s.inner.finished, (cs.map .literal).reverse ++ s.inner.tokens⟩, s.outer⟩ := by
  induction cs generalizing before s with
  | nil => exact read.eq_1 before s
  | cons c cs ih =>
    have hescape : escape (c :: cs) = '\\' :: c :: escape cs := rfl
    rw [hescape, read, ih]
    simp only [Levels.push, List.map_cons, List.reverse_cons, List.append_assoc,
      List.singleton_append]

/-- Every text can be written as a pattern for just that text. -/
theorem ofPattern_escape (cs : List Char) :
    ofPattern (String.ofList (escape cs)) = .ok (fixed cs) := by
  have htokens : tokenize (String.ofList (escape cs)) = .ok (cs.map .literal) := by
    rw [tokenize, String.toList_ofList, read_escape]
    simp only [Levels.start, List.append_nil]
    exact congrArg Except.ok (List.reverse_reverse _)
  rw [ofPattern, htokens]
  rfl

end BackendSync.Glob
