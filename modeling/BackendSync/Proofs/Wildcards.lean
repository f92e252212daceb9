import Mathlib.Data.List.Basic
import Mathlib.Data.List.Forall2
import BackendSync.Proofs.SeparatorBound

/-!
# Wildcards within a segment

A pattern of stars, question marks and characters that stand for themselves is matched
segment by segment. It says what each segment of a path looks like, and a path has its form if
it has as many segments and each of them comes out of the pattern's segment when its wildcards
are replaced: a star by any bytes, a question mark by one byte.

What a segment of the pattern matches has no separator in it. So the text can be cut at its
first separator, in only one way, and the induction is on the segments.
-/

namespace BackendSync.Glob

/-! ## Replacing wildcards -/

/-- What a character of a pattern may be replaced with. -/
inductive Replaces : Char → List UInt8 → Prop
  | star (bs : List UInt8) : Replaces '*' bs
  | any (b : UInt8) : Replaces '?' [b]
  | itself {c : Char} (hstar : c ≠ '*') (hany : c ≠ '?') : Replaces c (charBytes c)

/-- The bytes come out of the characters when each of these is replaced. -/
def Fits (piece : List Char) (bs : List UInt8) : Prop :=
  ∃ parts, List.Forall₂ Replaces piece parts ∧ bs = parts.flatten

theorem fits_nil_iff {bs : List UInt8} : Fits [] bs ↔ bs = [] := by
  constructor
  · rintro ⟨parts, hparts, rfl⟩
    cases hparts
    rfl
  · rintro rfl
    exact ⟨[], .nil, rfl⟩

theorem fits_cons_iff {c : Char} {piece : List Char} {bs : List UInt8} :
    Fits (c :: piece) bs ↔
      ∃ front back, bs = front ++ back ∧ Replaces c front ∧ Fits piece back := by
  constructor
  · rintro ⟨parts, hparts, rfl⟩
    cases hparts with
    | cons hfirst hrest => exact ⟨_, _, List.flatten_cons, hfirst, _, hrest, rfl⟩
  · rintro ⟨front, back, rfl, hfirst, parts, hrest, rfl⟩
    exact ⟨front :: parts, .cons hfirst hrest, List.flatten_cons.symm⟩

/-! ## The tokens of a plain pattern -/

/-- The token of a character in a pattern without classes, groups and escapes. -/
def plainToken (c : Char) : Token :=
  if c = '*' then .star else if c = '?' then .any else .literal c

theorem plainToken_cases (c : Char) :
    c = '*' ∧ plainToken c = .star ∨ c = '?' ∧ plainToken c = .any ∨
      c ≠ '*' ∧ c ≠ '?' ∧ plainToken c = .literal c := by
  unfold plainToken
  by_cases hstar : c = '*'
  · exact Or.inl ⟨hstar, if_pos hstar⟩
  · rw [if_neg hstar]
    by_cases hany : c = '?'
    · exact Or.inr (Or.inl ⟨hany, if_pos hany⟩)
    · exact Or.inr (Or.inr ⟨hstar, hany, if_neg hany⟩)

/-- The characters of classes, groups, branches and escapes. -/
def special : List Char := ['[', ']', '{', '}', ',', '\\']

/-- Are all characters wildcards or ordinary ones? -/
def Ordinary (cs : List Char) : Prop := ∀ c ∈ cs, c ∉ special

theorem Ordinary.head {c : Char} {rest : List Char} (h : Ordinary (c :: rest)) : c ∉ special :=
  h c List.mem_cons_self

theorem Ordinary.tail {c : Char} {rest : List Char} (h : Ordinary (c :: rest)) : Ordinary rest :=
  fun d hd => h d (List.mem_cons_of_mem c hd)

/-- A pattern of wildcards within a segment and of characters that stand for themselves. -/
structure IsPlain (pattern : String) : Prop where
  ordinary : Ordinary pattern.toList
  stars : NoDoubleStar pattern.toList
  ending : pattern.toList.getLast? ≠ some '.'

/-- Adds the tokens of plain characters. -/
def Levels.pushAll (s : Levels) (cs : List Char) : Levels :=
  ⟨⟨s.inner.finished, (cs.map plainToken).reverse ++ s.inner.tokens⟩, s.outer⟩

theorem Levels.pushAll_push (s : Levels) (c : Char) (rest : List Char) :
    (s.push (plainToken c)).pushAll rest = s.pushAll (c :: rest) := by
  simp only [pushAll, push, List.map_cons, List.reverse_cons, List.append_assoc,
    List.singleton_append]

/-- Each ordinary character is read as its token. -/
theorem read_plain {before : Option Char} {s : Levels} {cs : List Char} (hordinary : Ordinary cs)
    (hstars : NoDoubleStar cs) : read before s cs = .ok (s.pushAll cs) := by
  fun_induction read before s cs with
  | case1 => rfl
  | case2 before s rest ih =>
    rw [← Levels.pushAll_push]
    exact ih hordinary.tail (hstars.of_suffix (List.suffix_cons _ _))
  -- escapes, groups, branches and classes begin with a special character
  | case3 | case4 | case5 | case6 | case7 | case8 | case12 | case13 =>
    exact absurd (by decide) hordinary.head
  | case9 before s rest | case10 before s rest => exact absurd ⟨[], rest, rfl⟩ hstars
  | case11 before s rest _ ih =>
    rw [← Levels.pushAll_push]
    exact ih hordinary.tail (hstars.of_suffix (List.suffix_cons _ _))
  | case14 before s c rest hany _ _ _ _ _ _ hstar _ ih =>
    have htoken : plainToken c = .literal c := (if_neg hstar).trans (if_neg hany)
    rw [← Levels.pushAll_push, htoken]
    exact ih hordinary.tail (hstars.of_suffix (List.suffix_cons _ _))

/-- The glob of a plain pattern has a token for each character. -/
theorem ofPattern_plain {pattern : String} (h : IsPlain pattern) :
    ofPattern pattern = .ok ⟨pattern.toList.map plainToken⟩ := by
  have htokens : tokenize pattern = .ok (pattern.toList.map plainToken) := by
    rw [tokenize, read_plain h.ordinary h.stars, Levels.pushAll]
    simp only [Levels.start, List.append_nil]
    exact congrArg Except.ok (List.reverse_reverse _)
  rw [ofPattern, htokens]
  rfl

theorem deepest_plain_le (cs : List Char) : deepest (cs.map plainToken) ≤ 2 := by
  induction cs with
  | nil => exact Nat.zero_le 2
  | cons c cs ih =>
    have hfirst : (plainToken c).nesting ≤ 2 := by
      obtain ⟨-, htoken⟩ | ⟨-, htoken⟩ | ⟨-, -, htoken⟩ := plainToken_cases c
      · rw [htoken]
        exact Nat.le_refl 2
      · rw [htoken]
        exact Nat.le_succ 1
      · rw [htoken]
        exact Nat.zero_le 2
    exact Nat.max_le.mpr ⟨hfirst, ih⟩

theorem isMatchable_plain (cs : List Char) : (⟨cs.map plainToken⟩ : Glob).isMatchable = true := by
  have hdeep := deepest_plain_le cs
  rw [isMatchable, nesting, decide_eq_true_iff]
  show 1 + deepest (cs.map plainToken) ≤ 250
  omega

/-- No token of a plain pattern crosses segments. -/
theorem map_plainToken_ne (cs : List Char) (rest : List Token) :
    cs.map plainToken ≠ .dirsBefore :: rest := by
  intro h
  cases cs with
  | nil => cases h
  | cons c cs =>
    have hfirst : plainToken c = .dirsBefore := (List.cons.inj h).1
    obtain ⟨-, htoken⟩ | ⟨-, htoken⟩ | ⟨-, -, htoken⟩ := plainToken_cases c <;>
      cases htoken.symm.trans hfirst

theorem expr_plain (cs : List Char) :
    (⟨cs.map plainToken⟩ : Glob).expr = sequenceExpr (cs.map plainToken) := by
  unfold expr
  split
  · rename_i hall
    exact absurd hall (map_plainToken_ne cs [])
  · rfl

/-- A plain pattern that does not end in a dot is matched as it is written. -/
theorem needsName_plain {cs : List Char} (h : cs.getLast? ≠ some '.') :
    (⟨cs.map plainToken⟩ : Glob).needsName = false := by
  have hdot : needsName.endsInDot (cs.map plainToken) = false := by
    unfold needsName.endsInDot
    rw [List.getLast?_map]
    cases hlast : cs.getLast? with
    | none => rfl
    | some c =>
      rw [Option.map_some]
      split
      · rename_i heq
        have hliteral : plainToken c = .literal '.' := Option.some.inj heq
        obtain ⟨-, htoken⟩ | ⟨-, htoken⟩ | ⟨-, -, htoken⟩ := plainToken_cases c
        · cases htoken.symm.trans hliteral
        · cases htoken.symm.trans hliteral
        · cases htoken.symm.trans hliteral
          exact absurd hlast h
      · rfl
  unfold needsName
  split
  · rename_i hall
    exact absurd hall (map_plainToken_ne cs _)
  · rw [hdot, Bool.false_and]
  · rw [hdot, Bool.false_and]

/-! ## Segment by segment -/

theorem matches_sequenceExpr_cons_iff {token : Token} {tokens : List Token} {bs : List UInt8} :
    (sequenceExpr (token :: tokens)).Matches bs ↔ ∃ front back, bs = front ++ back ∧
      token.expr.Matches front ∧ (sequenceExpr tokens).Matches back :=
  Expr.matches_seq_iff

theorem matches_sequenceExpr_append_iff {tokens tokens' : List Token} {bs : List UInt8} :
    (sequenceExpr (tokens ++ tokens')).Matches bs ↔ ∃ front back, bs = front ++ back ∧
      (sequenceExpr tokens).Matches front ∧ (sequenceExpr tokens').Matches back := by
  induction tokens generalizing bs with
  | nil =>
    constructor
    · intro h
      exact ⟨[], bs, rfl, Expr.matches_empty_iff.mpr rfl, h⟩
    · rintro ⟨front, back, rfl, hfront, hback⟩
      rw [Expr.matches_empty_iff.mp hfront]
      exact hback
  | cons token tokens ih =>
    rw [List.cons_append, matches_sequenceExpr_cons_iff]
    constructor
    · rintro ⟨first, rest, rfl, hfirst, hrest⟩
      obtain ⟨front, back, rfl, hfront, hback⟩ := ih.mp hrest
      exact ⟨first ++ front, back, (List.append_assoc _ _ _).symm,
        matches_sequenceExpr_cons_iff.mpr ⟨first, front, rfl, hfirst, hfront⟩, hback⟩
    · rintro ⟨both, back, rfl, hboth, hback⟩
      obtain ⟨first, front, rfl, hfirst, hfront⟩ := matches_sequenceExpr_cons_iff.mp hboth
      exact ⟨first, front ++ back, List.append_assoc _ _ _, hfirst,
        ih.mpr ⟨_, _, rfl, hfront, hback⟩⟩

theorem notSlash_contains_iff {b : UInt8} : ByteSet.notSlash.contains b = true ↔ b ≠ separator := by
  have hcontains : ByteSet.notSlash.contains b = !(ByteSet.single separator).contains b := by
    show (true != (ByteSet.single separator).ranges.any _) =
      !(false != (ByteSet.single separator).ranges.any _)
    cases (ByteSet.single separator).ranges.any _ <;> rfl
  rw [hcontains, Bool.not_eq_true', ← Bool.not_eq_true, ByteSet.contains_single]

/-- A token of a segment matches what may stand for its character, but for a separator. -/
theorem matches_plainToken_iff {c : Char} (hc : c ≠ '/') {bs : List UInt8} :
    (plainToken c).expr.Matches bs ↔ Replaces c bs ∧ separator ∉ bs := by
  obtain ⟨rfl, htoken⟩ | ⟨rfl, htoken⟩ | ⟨hstar, hany, htoken⟩ := plainToken_cases c
  · rw [htoken]
    have hmany : Token.star.expr.Matches bs ↔ ∀ b ∈ bs, b ≠ separator := by
      have hiff : Token.star.expr.Matches bs ↔ ∀ b ∈ bs, ByteSet.notSlash.contains b = true :=
        Expr.matches_many_iff
      simpa only [notSlash_contains_iff] using hiff
    rw [hmany]
    exact ⟨fun h => ⟨.star bs, fun hmem => h _ hmem rfl⟩, fun h b hb heq => h.2 (heq ▸ hb)⟩
  · rw [htoken]
    have hone : Token.any.expr.Matches bs ↔ ∃ b, b ≠ separator ∧ bs = [b] := by
      have hiff : Token.any.expr.Matches bs ↔
          ∃ b, ByteSet.notSlash.contains b = true ∧ bs = [b] := Expr.matches_one_iff
      simpa only [notSlash_contains_iff] using hiff
    rw [hone]
    constructor
    · rintro ⟨b, hb, rfl⟩
      exact ⟨.any b, fun hmem => hb (List.mem_singleton.mp hmem).symm⟩
    · rintro ⟨hreplaces, hsep⟩
      cases hreplaces with
      | any b => exact ⟨b, fun heq => hsep (heq ▸ List.mem_singleton_self b), rfl⟩
      | itself _ hne => exact absurd rfl hne
  · rw [htoken]
    have hliteral : (Token.literal c).expr.Matches bs ↔ bs = charBytes c := Expr.matches_bytes_iff
    rw [hliteral]
    constructor
    · rintro rfl
      exact ⟨.itself hstar hany, separator_not_mem_charBytes hc⟩
    · rintro ⟨hreplaces, -⟩
      cases hreplaces with
      | star => exact absurd rfl hstar
      | any => exact absurd rfl hany
      | itself => rfl

/-- A segment of a plain pattern matches what fits it, but for separators. -/
theorem matches_segment_iff {piece : List Char} (hpiece : '/' ∉ piece) {bs : List UInt8} :
    (sequenceExpr (piece.map plainToken)).Matches bs ↔ Fits piece bs ∧ separator ∉ bs := by
  induction piece generalizing bs with
  | nil =>
    rw [fits_nil_iff]
    refine Expr.matches_empty_iff.trans (and_iff_left_of_imp ?_).symm
    rintro rfl
    exact List.not_mem_nil
  | cons c piece ih =>
    have hc : c ≠ '/' := fun heq => hpiece (heq ▸ List.mem_cons_self)
    have hrest : '/' ∉ piece := fun hmem => hpiece (List.mem_cons_of_mem c hmem)
    rw [List.map_cons, matches_sequenceExpr_cons_iff, fits_cons_iff]
    constructor
    · rintro ⟨front, back, rfl, hfront, hback⟩
      obtain ⟨hreplaces, hfree⟩ := (matches_plainToken_iff hc).mp hfront
      obtain ⟨hfits, hfree'⟩ := (ih hrest).mp hback
      exact ⟨⟨front, back, rfl, hreplaces, hfits⟩,
        fun hmem => (List.mem_append.mp hmem).elim hfree hfree'⟩
    · rintro ⟨⟨front, back, rfl, hreplaces, hfits⟩, hfree⟩
      have hfront := fun hmem => hfree (List.mem_append_left back hmem)
      have hback := fun hmem => hfree (List.mem_append_right front hmem)
      exact ⟨front, back, rfl, (matches_plainToken_iff hc).mpr ⟨hreplaces, hfront⟩,
        (ih hrest).mpr ⟨hfits, hback⟩⟩

theorem separator_not_mem_bytes {piece : List Char} (h : '/' ∉ piece) :
    separator ∉ piece.flatMap charBytes := by
  rw [← List.count_eq_zero, count_flatMap_charBytes, List.count_eq_zero]
  exact h

/-- A segment and what follows it match a text that is cut at its first separator. -/
theorem matches_segments_cons_iff {piece rest : List Char} (hpiece : '/' ∉ piece)
    {bs : List UInt8} :
    (sequenceExpr ((piece ++ '/' :: rest).map plainToken)).Matches bs ↔
      ∃ front back, bs = front ++ separator :: back ∧ separator ∉ front ∧ Fits piece front ∧
        (sequenceExpr (rest.map plainToken)).Matches back := by
  have hsep : ∀ {text : List UInt8}, (plainToken '/').expr.Matches text ↔ text = [separator] := by
    intro text
    have hliteral : (plainToken '/').expr.Matches text ↔ text = charBytes '/' :=
      Expr.matches_bytes_iff
    rw [hliteral, charBytes_separator]
  rw [List.map_append, matches_sequenceExpr_append_iff]
  constructor
  · rintro ⟨front, tail, rfl, hfront, htail⟩
    obtain ⟨first, back, rfl, hfirst, hback⟩ := matches_sequenceExpr_cons_iff.mp htail
    obtain ⟨hfits, hfree⟩ := (matches_segment_iff hpiece).mp hfront
    rw [hsep.mp hfirst]
    exact ⟨front, back, rfl, hfree, hfits, hback⟩
  · rintro ⟨front, back, rfl, hfree, hfits, hback⟩
    have htail : (sequenceExpr (('/' :: rest).map plainToken)).Matches (separator :: back) :=
      matches_sequenceExpr_cons_iff.mpr ⟨[separator], back, rfl, hsep.mpr rfl, hback⟩
    exact ⟨front, separator :: back, rfl, (matches_segment_iff hpiece).mpr ⟨hfits, hfree⟩, htail⟩

/-- A text is cut at its first separator in one way only. -/
theorem cut_unique {front front' back back' : List UInt8} (h : separator ∉ front)
    (h' : separator ∉ front') (heq : front ++ separator :: back = front' ++ separator :: back') :
    front = front' ∧ back = back' := by
  induction front generalizing front' with
  | nil =>
    cases front' with
    | nil => exact ⟨rfl, (List.cons.inj heq).2⟩
    | cons b front' => exact absurd ((List.cons.inj heq).1 ▸ List.mem_cons_self) h'
  | cons b front ih =>
    cases front' with
    | nil => exact absurd ((List.cons.inj heq).1 ▸ List.mem_cons_self) h
    | cons b' front' =>
      obtain ⟨rfl, hrest⟩ := List.cons.inj heq
      obtain ⟨rfl, hback⟩ := ih (fun hmem => h (List.mem_cons_of_mem b hmem))
        (fun hmem => h' (List.mem_cons_of_mem b hmem)) hrest
      exact ⟨rfl, hback⟩

/-- The bytes of a segment fit a segment of a pattern. -/
def SegmentFits (piece text : List Char) : Prop := Fits piece (text.flatMap charBytes)

/-- **Segments match segments, one by one.** -/
theorem matches_joinPieces_iff {pieces texts : List (List Char)} (hne : pieces ≠ [])
    (hne' : texts ≠ []) (hpieces : ∀ piece ∈ pieces, '/' ∉ piece)
    (htexts : ∀ text ∈ texts, '/' ∉ text) :
    (sequenceExpr ((Path.joinPieces pieces).map plainToken)).Matches
        ((Path.joinPieces texts).flatMap charBytes) ↔
      List.Forall₂ SegmentFits pieces texts := by
  induction pieces generalizing texts with
  | nil => exact absurd rfl hne
  | cons piece rest ih =>
    obtain ⟨text, others, rfl⟩ := List.exists_cons_of_ne_nil hne'
    have hpiece := hpieces piece List.mem_cons_self
    have htext := separator_not_mem_bytes (htexts text List.mem_cons_self)
    rw [List.forall₂_cons]
    -- a text of several segments has a separator, a text of one has none
    have hcut : ∀ second more, (Path.joinPieces (text :: second :: more)).flatMap charBytes =
        text.flatMap charBytes ++
          separator :: (Path.joinPieces (second :: more)).flatMap charBytes :=
      fun second more => List.flatMap_append
    cases rest with
    | nil =>
      rw [show Path.joinPieces [piece] = piece from rfl, matches_segment_iff hpiece]
      cases others with
      | nil => exact ⟨fun h => ⟨h.1, .nil⟩, fun h => ⟨h.1, htext⟩⟩
      | cons second more =>
        refine iff_of_false (fun h => h.2 ?_) fun h => nomatch h.2
        rw [hcut]
        exact List.mem_append_right _ List.mem_cons_self
    | cons next rest =>
      rw [show Path.joinPieces (piece :: next :: rest) =
        piece ++ '/' :: Path.joinPieces (next :: rest) from rfl, matches_segments_cons_iff hpiece]
      cases others with
      | nil =>
        refine iff_of_false ?_ fun h => nomatch h.2
        rintro ⟨front, back, heq, -⟩
        refine htext ?_
        rw [show Path.joinPieces [text] = text from rfl] at heq
        rw [heq]
        exact List.mem_append_right _ List.mem_cons_self
      | cons second more =>
        have hrest := ih (List.cons_ne_nil next rest) (List.cons_ne_nil second more)
          (fun p hp => hpieces p (List.mem_cons_of_mem piece hp))
          (fun t ht => htexts t (List.mem_cons_of_mem text ht))
        rw [hcut, ← hrest]
        constructor
        · rintro ⟨front, back, heq, hfree, hfits, hback⟩
          obtain ⟨rfl, rfl⟩ := cut_unique htext hfree heq
          exact ⟨hfits, hback⟩
        · rintro ⟨hfits, hback⟩
          exact ⟨_, _, rfl, htext, hfits, hback⟩

/-! ## Plain patterns on an allow-list -/

theorem accepts_plain_iff {pattern : String} (h : IsPlain pattern) (p : Path) :
    (⟨pattern.toList.map plainToken⟩ : Glob).accepts p = true ↔
      List.Forall₂ SegmentFits (Path.splitPieces pattern.toList) p.pieces := by
  have hexpr : (⟨pattern.toList.map plainToken⟩ : Glob).accepts p =
      (sequenceExpr (pattern.toList.map plainToken)).accepts (pathBytes p) := by
    rw [accepts, needsName_plain h.ending, Bool.false_and, if_neg Bool.false_ne_true, expr_plain]
  have hsegments := matches_joinPieces_iff (Path.splitPieces_ne_nil pattern.toList)
    (Path.splitPieces_ne_nil p.chars) (fun _ => Path.no_separator_of_mem_splitPieces)
    (fun _ => Path.no_separator_of_mem_splitPieces)
  rw [Path.joinPieces_splitPieces, Path.joinPieces_splitPieces] at hsegments
  rw [hexpr, Expr.accepts_iff]
  exact hsegments

end BackendSync.Glob

namespace BackendSync.Allowlist

open Glob

/-- The list of one pattern that can be read and matched. -/
theorem compile_singleton {pattern : String} {g : Glob} (hread : ofPattern pattern = .ok g)
    (hmatchable : g.isMatchable = true) : compile [pattern] = .ok ⟨[pattern], [g]⟩ := by
  have hglobs : [pattern].mapM readGlob = .ok [g] := by
    rw [List.mapM_cons, readGlob_eq_ok_iff.mpr hread]
    rfl
  have hall : [g].all Glob.isMatchable = true := by
    rw [List.all_cons, hmatchable]
    rfl
  exact compile_eq_ok_iff.mpr ⟨[g], hglobs, hall, rfl⟩

/--
**Wildcards stay within a segment.** A pattern of stars, question marks and ordinary
characters, with no two stars side by side and no dot at its end, always makes a list, and
that accepts a path just if the path has as many pieces as the pattern and each piece comes
out of the pattern's piece when every star is replaced by some bytes and every question mark
by one.
-/
theorem plain_pattern_accepts_iff {pattern : String} (h : IsPlain pattern) :
    ∃ list, compile [pattern] = .ok list ∧ ∀ p : Path,
      list.accepts p = true ↔
        List.Forall₂ SegmentFits (Path.splitPieces pattern.toList) p.pieces := by
  refine ⟨_, compile_singleton (ofPattern_plain h) (isMatchable_plain _), fun p => ?_⟩
  rw [accepts, List.any_cons, List.any_nil, Bool.or_false]
  exact accepts_plain_iff h p

/-- Stars that have to share a piece between them, and a character of two bytes. -/
theorem plain_pattern_accepts_iff_for_stars : IsPlain "s?c/*a*b*/??*" ∧
    ∃ list, compile ["s?c/*a*b*/??*"] = .ok list ∧
      list.accepts ⟨"src/xaab/é"⟩ = true ∧
      List.Forall₂ SegmentFits (Path.splitPieces "s?c/*a*b*/??*".toList)
        (⟨"src/xaab/é"⟩ : Path).pieces ∧
      list.accepts ⟨"src/xa/ab/é"⟩ = false ∧
      ¬List.Forall₂ SegmentFits (Path.splitPieces "s?c/*a*b*/??*".toList)
        (⟨"src/xa/ab/é"⟩ : Path).pieces := by
  have hplain : IsPlain "s?c/*a*b*/??*" := by
    have hall : "s?c/*a*b*/??*".toList.all (· ∉ special) = true := by decide
    refine ⟨fun c hc => ?_, fun hdouble => ?_, by decide⟩
    · exact of_decide_eq_true (List.all_eq_true.mp hall c hc)
    · exact absurd (Config.hasDoubleStar_iff.mpr hdouble) (by decide)
  obtain ⟨list, hlist, haccepts⟩ := plain_pattern_accepts_iff hplain
  have hcompile := compile_singleton (ofPattern_plain hplain) (isMatchable_plain _)
  cases hlist.symm.trans hcompile
  refine ⟨hplain, _, hlist, by decide, (haccepts _).mp (by decide), by decide, fun hfits => ?_⟩
  exact absurd ((haccepts _).mpr hfits) (by decide)

end BackendSync.Allowlist
