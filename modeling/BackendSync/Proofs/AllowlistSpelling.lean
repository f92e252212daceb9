import BackendSync.Proofs.GlobLanguage
import BackendSync.Proofs.PathNames
import BackendSync.Proofs.StepEffects
import Mathlib.Data.List.TakeWhile

/-!
# Spelling and the allow-list

The allow-list reads what is left of a path below a root as it is spelled. How the root is
spelled makes no difference to that, nor does what a path spells within the root's part or
at its end. What it spells between the names that are left does: a pattern can be written
that tells any two texts apart. `ReadAlike` says when two spellings of one file leave the
same text, and `verdicts_agree_iff` that this is what the verdicts depend on.
-/

namespace BackendSync

namespace Path

/-! ## Blank pieces -/

/-- Are all pieces blank? -/
def AllBlank (pieces : List (List Char)) : Prop := ∀ piece ∈ pieces, isBlank piece = true

theorem trimBlankEnd_append {pieces back : List (List Char)} (h : AllBlank back) :
    trimBlankEnd (pieces ++ back) = trimBlankEnd pieces := by
  have hback : ∀ piece ∈ back.reverse, isBlank piece = true :=
    fun piece hpiece => h piece (List.mem_reverse.mp hpiece)
  rw [trimBlankEnd, List.reverse_append, List.dropWhile_append_of_pos hback, trimBlankEnd]

theorem exists_trimBlankEnd (pieces : List (List Char)) :
    ∃ back, AllBlank back ∧ pieces = trimBlankEnd pieces ++ back := by
  refine ⟨(pieces.reverse.takeWhile isBlank).reverse, fun piece h => ?_, ?_⟩
  · exact List.mem_takeWhile_imp (List.mem_reverse.mp h)
  · rw [trimBlankEnd, ← List.reverse_append, List.takeWhile_append_dropWhile, List.reverse_reverse]

theorem trimBlankEnd_subset (pieces : List (List Char)) : trimBlankEnd pieces ⊆ pieces := by
  intro piece h
  exact List.mem_reverse.mp ((List.dropWhile_sublist isBlank).subset (List.mem_reverse.mp h))

/-- A trimmed list does not end in a blank piece, so it is no single empty piece. -/
theorem trimBlankEnd_ne_singleton (pieces : List (List Char)) : trimBlankEnd pieces ≠ [[]] := by
  intro h
  have hdropped : pieces.reverse.dropWhile isBlank = [[]] := List.reverse_eq_iff.mp h
  have hhead := List.head?_dropWhile_not isBlank pieces.reverse
  rw [hdropped] at hhead
  cases hhead

theorem joinPieces_injective {pieces pieces' : List (List Char)}
    (hsep : ∀ piece ∈ pieces, '/' ∉ piece) (hsep' : ∀ piece ∈ pieces', '/' ∉ piece)
    (hne : pieces ≠ [[]]) (hne' : pieces' ≠ [[]])
    (h : joinPieces pieces = joinPieces pieces') : pieces = pieces' := by
  by_cases hnil : pieces = []
  · by_cases hnil' : pieces' = []
    · rw [hnil, hnil']
    · rw [hnil] at h
      exact absurd ((splitPieces_joinPieces hnil' hsep').symm.trans (congrArg splitPieces h.symm)) hne'
  · by_cases hnil' : pieces' = []
    · rw [hnil'] at h
      exact absurd ((splitPieces_joinPieces hnil hsep).symm.trans (congrArg splitPieces h)) hne
    · rw [← splitPieces_joinPieces hnil hsep, h, splitPieces_joinPieces hnil' hsep']

/-- The pieces from the first name to the last. -/
def span (pieces : List (List Char)) : List (List Char) := trimBlankEnd (pieces.dropWhile isBlank)

theorem span_append {pieces back : List (List Char)} (h : AllBlank back) :
    span (pieces ++ back) = span pieces := by
  rw [span, List.dropWhile_append]
  split
  · rename_i hempty
    rw [span, List.isEmpty_iff.mp hempty, List.dropWhile_eq_nil_iff.mpr h]
  · exact trimBlankEnd_append h

theorem exists_span (pieces : List (List Char)) :
    ∃ lead back, AllBlank lead ∧ AllBlank back ∧ pieces = lead ++ (span pieces ++ back) := by
  obtain ⟨back, hback, heq⟩ := exists_trimBlankEnd (pieces.dropWhile isBlank)
  refine ⟨pieces.takeWhile isBlank, back, fun _ => List.mem_takeWhile_imp, hback, ?_⟩
  rw [span, ← heq, List.takeWhile_append_dropWhile]

/-! ## Names taken off the front -/

theorem names_append (pieces pieces' : List (List Char)) :
    names (pieces ++ pieces') = names pieces ++ names pieces' := by
  rw [names, List.filter_append, List.map_append]
  rfl

theorem names_cons_of_blank {piece : List Char} (h : isBlank piece = true)
    (pieces : List (List Char)) : names (piece :: pieces) = names pieces := by
  rw [names, List.filter_cons_of_neg, names]
  rw [h]
  exact Bool.false_ne_true

theorem names_cons_of_not_blank {piece : List Char} (h : isBlank piece = false)
    (pieces : List (List Char)) :
    names (piece :: pieces) = String.ofList piece :: names pieces := by
  rw [names, List.filter_cons_of_pos, List.map_cons, names]
  rw [h]
  rfl

theorem names_of_allBlank {pieces : List (List Char)} (h : AllBlank pieces) : names pieces = [] := by
  have hnone : pieces.filter (!isBlank ·) = [] := by
    refine List.filter_eq_nil_iff.mpr fun piece hpiece => ?_
    rw [h piece hpiece]
    exact Bool.false_ne_true
  rw [names, hnone, List.map_nil]

/-- Taking off the names of a front leaves what follows it, up to blank pieces between. -/
theorem span_dropNames {front rest : List (List Char)} {n : Nat} (h : (names front).length = n) :
    span (dropNames n (front ++ rest)) = span rest := by
  induction front generalizing n with
  | nil =>
    rw [← h, List.nil_append]
    exact congrArg span (dropNames.eq_1 rest)
  | cons piece front ih =>
    cases hblank : isBlank piece with
    | true =>
      rw [names_cons_of_blank hblank] at h
      cases n with
      | zero =>
        have hfront := ih h
        rw [dropNames] at hfront ⊢
        rw [List.cons_append, span, List.dropWhile_cons_of_pos hblank]
        exact hfront
      | succ n =>
        rw [List.cons_append, dropNames, if_pos hblank]
        exact ih h
    | false =>
      rw [names_cons_of_not_blank hblank] at h
      cases n with
      | zero => cases h
      | succ n =>
        rw [List.cons_append, dropNames, hblank, if_neg Bool.false_ne_true]
        exact ih (Nat.succ.inj h)

/-- What is left behind `n` names follows a front with just those names. -/
theorem exists_dropNames {n : Nat} {pieces : List (List Char)} (h : n ≤ (names pieces).length) :
    ∃ front, pieces = front ++ dropNames n pieces ∧ names front = (names pieces).take n := by
  induction pieces generalizing n with
  | nil =>
    cases Nat.le_zero.mp h
    exact ⟨[], rfl, rfl⟩
  | cons piece rest ih =>
    cases n with
    | zero => exact ⟨[], rfl, rfl⟩
    | succ n =>
      cases hblank : isBlank piece with
      | true =>
        rw [names_cons_of_blank hblank] at h
        obtain ⟨front, heq, hnames⟩ := ih h
        refine ⟨piece :: front, ?_, ?_⟩
        · rw [dropNames, if_pos hblank, List.cons_append, ← heq]
        · rw [names_cons_of_blank hblank, names_cons_of_blank hblank, hnames]
      | false =>
        rw [names_cons_of_not_blank hblank] at h
        obtain ⟨front, heq, hnames⟩ := ih (Nat.le_of_succ_le_succ h)
        refine ⟨piece :: front, ?_, ?_⟩
        · rw [dropNames, hblank, if_neg Bool.false_ne_true, List.cons_append, ← heq]
        · rw [names_cons_of_not_blank hblank, names_cons_of_not_blank hblank, hnames,
            List.take_succ_cons]

/-! ## What is left below a root -/

theorem no_separator_of_mem_pieces {p : Path} {piece : List Char} (h : piece ∈ p.pieces) :
    '/' ∉ piece := no_separator_of_mem_splitPieces h

theorem exists_pieces_of_absolute {p : Path} (h : p.isAbsolute = true) :
    ∃ rest, p.pieces = [] :: rest := by
  obtain ⟨cs, hcs⟩ := isAbsolute_iff.mp h
  exact ⟨splitPieces cs, by rw [pieces, hcs, splitPieces_separator]⟩

theorem components_eq_names {p : Path} (h : p.isAbsolute = true) : p.components = names p.pieces := by
  obtain ⟨rest, hrest⟩ := exists_pieces_of_absolute h
  unfold components
  rw [hrest]

/-- The empty path is the one path that is relative and has no components. -/
theorem spelling_eq_empty_iff {p : Path} :
    p.spelling = "" ↔ p.isAbsolute = false ∧ p.components = [] := by
  constructor
  · intro h
    obtain rfl : p = ⟨""⟩ := congrArg Path.mk h
    exact ⟨by decide, by decide⟩
  · rintro ⟨hrelative, hnone⟩
    cases hchars : p.chars with
    | nil => exact String.toList_eq_nil_iff.mp hchars
    | cons c cs =>
      have hc : c ≠ '/' := by
        rintro rfl
        rw [isAbsolute_iff.mpr ⟨cs, hchars⟩] at hrelative
        cases hrelative
      obtain ⟨piece, rest, hsplit⟩ := List.exists_cons_of_ne_nil (splitPieces_ne_nil cs)
      have hpieces : p.pieces = (c :: piece) :: rest := by
        rw [pieces, hchars, splitPieces_cons hc hsplit]
      unfold components at hnone
      rw [hpieces] at hnone
      split at hnone
      · cases hnone
      · rename_i hdot
        have hblank : isBlank (c :: piece) = false := by
          rw [isBlank, Bool.or_eq_false_iff, beq_eq_false_iff_ne, beq_eq_false_iff_ne]
          refine ⟨List.cons_ne_nil c piece, fun heq => ?_⟩
          exact hdot rest (congrArg (· :: rest) heq)
        rw [names_cons_of_not_blank hblank] at hnone
        cases hnone

/-- Does the absolute path lie in the absolute directory `root`, or is it that directory? -/
structure Below (p root : Path) : Prop where
  absolute : p.isAbsolute = true
  root_absolute : root.isAbsolute = true
  start : root.components <+: p.components

theorem Below.congr {p q r s : Path} (h : p.Below r) (hpq : p ≈ q) (hrs : r ≈ s) : q.Below s :=
  ⟨hpq.1 ▸ h.absolute, hrs.1 ▸ h.root_absolute, hrs.2 ▸ hpq.2 ▸ h.start⟩

theorem Below.spelling_ne {p root : Path} (h : p.Below root) : root.spelling ≠ "" := by
  intro hempty
  have hrelative := (spelling_eq_empty_iff.mp hempty).1
  rw [h.root_absolute] at hrelative
  cases hrelative

theorem relativeTo_of_empty {root : Path} (h : root.spelling = "") (p : Path) :
    p.relativeTo root = p.trimEnd := by
  rw [relativeTo, relativeTo?, if_pos h, Option.getD_some]

theorem relativeTo?_of_below {p root : Path} (h : p.Below root) :
    p.relativeTo? root =
      some (ofChars (joinPieces (span (dropNames root.components.length p.pieces)))) := by
  have habsolute : root.isAbsolute = p.isAbsolute := h.root_absolute.trans h.absolute.symm
  rw [relativeTo?, if_neg h.spelling_ne, if_pos ⟨habsolute, h.start⟩,
    ← components_eq_names h.root_absolute]
  rfl

theorem relativeTo_of_below {p root : Path} (h : p.Below root) :
    p.relativeTo root =
      ofChars (joinPieces (span (dropNames root.components.length p.pieces))) := by
  rw [relativeTo, relativeTo?_of_below h, Option.getD_some]

theorem relativeTo_of_outside {p root : Path} (habs : p.isAbsolute = true)
    (hroot : root.spelling ≠ "") (h : ¬p.Below root) : p.relativeTo root = p := by
  have hnot : ¬(root.isAbsolute = p.isAbsolute ∧ root.components <+: p.components) :=
    fun hbelow => h ⟨habs, hbelow.1.trans habs, hbelow.2⟩
  rw [relativeTo, relativeTo?, if_neg hroot, if_neg hnot]
  rfl

theorem trimEnd_of_absolute {p : Path} {rest : List (List Char)} (habs : p.isAbsolute = true)
    (h : p.pieces = [] :: rest) : p.trimEnd = ofChars ('/' :: joinPieces (trimBlankEnd rest)) := by
  unfold trimEnd
  rw [h]
  dsimp only
  split
  · rename_i hnil
    rw [if_pos habs, hnil]
    rfl
  · rename_i hkept
    obtain ⟨piece, kept, hcons⟩ := List.exists_cons_of_ne_nil hkept
    rw [hcons]
    rfl

/-! ## Spellings that are read alike -/

/--
Two spellings of one file that leave the same text, seen from `root`: there is only one, or
they differ only in the part that the root takes off and in blank pieces at the end. The
empty root takes nothing off.
-/
inductive ReadAlike (root : Path) : Path → Path → Prop
  | same (p : Path) : ReadAlike root p p
  | unrooted {p q : Path} {shared back back' : List (List Char)} (hroot : root.spelling = "")
      (hback : AllBlank back) (hback' : AllBlank back') (hp : p.pieces = [] :: shared ++ back)
      (hq : q.pieces = [] :: shared ++ back') : ReadAlike root p q
  | below {p q : Path} {front front' shared back back' : List (List Char)} (hbelow : p.Below root)
      (hfront : names front = root.components) (hfront' : names front' = root.components)
      (hback : AllBlank back) (hback' : AllBlank back') (hp : p.pieces = front ++ shared ++ back)
      (hq : q.pieces = front' ++ shared ++ back') : ReadAlike root p q

/-- The text below a root does not depend on how the root is spelled. -/
theorem relativeTo_congr_root {p r s : Path} (habs : p.isAbsolute = true) (hrs : r ≈ s) :
    p.relativeTo r = p.relativeTo s := by
  have hempty : r.spelling = "" ↔ s.spelling = "" := by
    rw [spelling_eq_empty_iff, spelling_eq_empty_iff, hrs.1, hrs.2]
  by_cases hr : r.spelling = ""
  · rw [relativeTo_of_empty hr, relativeTo_of_empty (hempty.mp hr)]
  · by_cases hbelow : p.Below r
    · rw [relativeTo_of_below hbelow, relativeTo_of_below (hbelow.congr (Setoid.refl p) hrs), hrs.2]
    · have hbelow' : ¬p.Below s :=
        fun h => hbelow (h.congr (Setoid.refl p) (Setoid.symm hrs))
      rw [relativeTo_of_outside habs hr hbelow,
        relativeTo_of_outside habs (fun hs => hr (hempty.mpr hs)) hbelow']

theorem relativeTo_of_readAlike {p q root : Path} (habs : p.isAbsolute = true) (hpq : p ≈ q)
    (h : ReadAlike root p q) : p.relativeTo root = q.relativeTo root := by
  have habs' : q.isAbsolute = true := hpq.1 ▸ habs
  cases h with
  | same => rfl
  | @unrooted _ shared back back' hroot hback hback' hp hq =>
    have htrimmed : trimBlankEnd (shared ++ back) = trimBlankEnd (shared ++ back') :=
      (trimBlankEnd_append hback).trans (trimBlankEnd_append hback').symm
    rw [relativeTo_of_empty hroot, relativeTo_of_empty hroot, trimEnd_of_absolute habs hp,
      trimEnd_of_absolute habs' hq]
    exact congrArg (fun kept => ofChars ('/' :: joinPieces kept)) htrimmed
  | below hbelow hfront hfront' hback hback' hp hq =>
    have hcount : ∀ front : List (List Char), names front = root.components →
        (names front).length = root.components.length := fun _ h => congrArg List.length h
    rw [relativeTo_of_below hbelow, relativeTo_of_below (hbelow.congr hpq (Setoid.refl root)), hp,
      hq, List.append_assoc, span_dropNames (hcount _ hfront), span_append hback,
      List.append_assoc, span_dropNames (hcount _ hfront'), span_append hback']

/-- The part of a path in a directory before the names that are left there. -/
theorem Below.exists_front {p root : Path} (h : p.Below root) :
    ∃ front back, names front = root.components ∧ AllBlank back ∧
      p.pieces = front ++ span (dropNames root.components.length p.pieces) ++ back := by
  have hnames := components_eq_names h.absolute
  have hle : root.components.length ≤ (names p.pieces).length := hnames ▸ h.start.length_le
  obtain ⟨front, hpieces, hfront⟩ := exists_dropNames hle
  obtain ⟨lead, back, hlead, hback, hspan⟩ :=
    exists_span (dropNames root.components.length p.pieces)
  refine ⟨front ++ lead, back, ?_, hback, ?_⟩
  · rw [names_append, names_of_allBlank hlead, List.append_nil, hfront, ← hnames]
    exact (List.prefix_iff_eq_take.mp h.start).symm
  · rw [List.append_assoc, List.append_assoc, ← hspan, ← hpieces]

theorem readAlike_of_trimEnd {p q root : Path} (hroot : root.spelling = "")
    (habs : p.isAbsolute = true) (habs' : q.isAbsolute = true) (h : p.trimEnd = q.trimEnd) :
    ReadAlike root p q := by
  obtain ⟨rest, hp⟩ := exists_pieces_of_absolute habs
  obtain ⟨rest', hq⟩ := exists_pieces_of_absolute habs'
  rw [trimEnd_of_absolute habs hp, trimEnd_of_absolute habs' hq] at h
  have hchars := congrArg chars h
  rw [chars_ofChars, chars_ofChars] at hchars
  have hsep : ∀ (r : Path) (tail : List (List Char)), r.pieces = [] :: tail →
      ∀ piece ∈ trimBlankEnd tail, '/' ∉ piece := by
    intro r tail hr piece hpiece
    have hmem : piece ∈ r.pieces := by
      rw [hr]
      exact List.mem_cons_of_mem _ (trimBlankEnd_subset tail hpiece)
    exact no_separator_of_mem_pieces hmem
  have hshared := joinPieces_injective (hsep p rest hp) (hsep q rest' hq)
    (trimBlankEnd_ne_singleton rest) (trimBlankEnd_ne_singleton rest') (List.cons.inj hchars).2
  obtain ⟨back, hback, heq⟩ := exists_trimBlankEnd rest
  obtain ⟨back', hback', heq'⟩ := exists_trimBlankEnd rest'
  have hpieces : p.pieces = [] :: trimBlankEnd rest ++ back := by
    rw [hp, List.cons_append, ← heq]
  have hpieces' : q.pieces = [] :: trimBlankEnd rest ++ back' := by
    rw [hq, List.cons_append, hshared, ← heq']
  exact .unrooted hroot hback hback' hpieces hpieces'

/-- What is left below a root has no separator within its pieces. -/
theorem Below.no_separator {p root : Path} (h : p.Below root) :
    ∀ piece ∈ span (dropNames root.components.length p.pieces), '/' ∉ piece := by
  intro piece hpiece
  obtain ⟨front, back, -, -, hpieces⟩ := h.exists_front
  have hmem : piece ∈ p.pieces := by
    rw [hpieces]
    exact List.mem_append_left _ (List.mem_append_right _ hpiece)
  exact no_separator_of_mem_pieces hmem

theorem Below.readAlike {p q root : Path} (hp : p.Below root) (hq : q.Below root)
    (h : p.relativeTo root = q.relativeTo root) : ReadAlike root p q := by
  rw [relativeTo_of_below hp, relativeTo_of_below hq] at h
  have hchars := congrArg chars h
  rw [chars_ofChars, chars_ofChars] at hchars
  obtain ⟨front, back, hfront, hback, hpieces⟩ := hp.exists_front
  obtain ⟨front', back', hfront', hback', hpieces'⟩ := hq.exists_front
  have hshared := joinPieces_injective hp.no_separator hq.no_separator
    (trimBlankEnd_ne_singleton _) (trimBlankEnd_ne_singleton _) hchars
  rw [← hshared] at hpieces'
  exact .below hp hfront hfront' hback hback' hpieces hpieces'

theorem readAlike_of_relativeTo {p q root : Path} (habs : p.isAbsolute = true) (hpq : p ≈ q)
    (h : p.relativeTo root = q.relativeTo root) : ReadAlike root p q := by
  have habs' : q.isAbsolute = true := hpq.1 ▸ habs
  by_cases hroot : root.spelling = ""
  · rw [relativeTo_of_empty hroot, relativeTo_of_empty hroot] at h
    exact readAlike_of_trimEnd hroot habs habs' h
  · by_cases hbelow : p.Below root
    · exact hbelow.readAlike (hbelow.congr hpq (Setoid.refl root)) h
    · have hbelow' : ¬q.Below root := fun h =>
        hbelow (h.congr (Setoid.symm hpq) (Setoid.refl root))
      rw [relativeTo_of_outside habs hroot hbelow, relativeTo_of_outside habs' hroot hbelow'] at h
      rw [h]
      exact .same q

/-- **What is left below a root is the same text just for spellings that are read alike.** -/
theorem relativeTo_eq_iff {p q r s : Path} (habs : p.isAbsolute = true) (hpq : p ≈ q)
    (hrs : r ≈ s) : p.relativeTo r = q.relativeTo s ↔ ReadAlike r p q := by
  have habs' : q.isAbsolute = true := hpq.1 ▸ habs
  rw [← relativeTo_congr_root habs' hrs]
  exact ⟨readAlike_of_relativeTo habs hpq, relativeTo_of_readAlike habs hpq⟩

end Path

namespace Allowlist

/-! ## Verdicts -/

/-- A list of one pattern, for just one text. -/
theorem compile_escape (cs : List Char) :
    compile [String.ofList (Glob.escape cs)] =
      .ok ⟨[String.ofList (Glob.escape cs)], [Glob.fixed cs]⟩ := by
  have hread : readGlob (String.ofList (Glob.escape cs)) = .ok (Glob.fixed cs) := by
    rw [readGlob, Glob.ofPattern_escape]
    rfl
  have hall : [Glob.fixed cs].all Glob.isMatchable = true := by
    rw [List.all_cons, Glob.isMatchable_fixed]
    rfl
  rw [compile, List.mapM_cons, hread]
  show (if [Glob.fixed cs].all Glob.isMatchable = true then _ else _) = _
  rw [if_pos hall]
  rfl

theorem accepts_escape_iff {cs : List Char} {p : Path} :
    (⟨[String.ofList (Glob.escape cs)], [Glob.fixed cs]⟩ : Allowlist).accepts p = true ↔
      p = Path.ofChars cs := by
  rw [accepts, List.any_cons, List.any_nil, Bool.or_false]
  exact Glob.accepts_fixed_iff

/--
**What the verdicts of allow-lists depend on.** Of two spellings of one file, seen from two
spellings of one root, every list that can be compiled accepts both or neither, if and only
if the two leave the same text below the root. And a session decides alike on requests whose
paths leave the same text.
-/
theorem verdicts_agree_iff {p q r s : Path} (habs : p.isAbsolute = true) (hpq : p ≈ q)
    (hrs : r ≈ s) :
    ((∀ patterns a, compile patterns = .ok a → a.acceptsFrom p r = a.acceptsFrom q s) ↔
        Path.ReadAlike r p q) ∧
      ∀ (session : Session Scripted) (first second : Request),
        session.absolute first.path = p → session.absolute second.path = q →
        session.rootOf first = r → session.rootOf second = s →
        Path.ReadAlike r p q → session.allows first = session.allows second := by
  refine ⟨⟨fun hagree => ?_, fun halike patterns a _ => ?_⟩, ?_⟩
  · have hverdict := hagree _ _ (compile_escape (p.relativeTo r).chars)
    have haccepted := accepts_escape_iff.mpr (Path.ofChars_chars (p.relativeTo r)).symm
    rw [acceptsFrom, haccepted, acceptsFrom] at hverdict
    have htext := accepts_escape_iff.mp hverdict.symm
    rw [Path.ofChars_chars] at htext
    exact (Path.relativeTo_eq_iff habs hpq hrs).mp htext.symm
  · rw [acceptsFrom, (Path.relativeTo_eq_iff habs hpq hrs).mpr halike, acceptsFrom]
  · rintro session first second rfl rfl rfl rfl halike
    rw [Session.allows, acceptsFrom, (Path.relativeTo_eq_iff habs hpq hrs).mpr halike]
    rfl

/-- What the roots and the ends spell makes no difference. -/
theorem verdicts_agree_at_script :
    ((⟨"/proj/scripts/b.ts"⟩ : Path).isAbsolute = true ∧
      (⟨"/proj/scripts/b.ts"⟩ : Path) ≈ ⟨"//proj/./scripts/b.ts/."⟩ ∧
      (⟨"/proj"⟩ : Path) ≈ ⟨"/./proj//"⟩) ∧
    ∀ patterns a, compile patterns = .ok a →
      a.acceptsFrom ⟨"/proj/scripts/b.ts"⟩ ⟨"/proj"⟩ =
        a.acceptsFrom ⟨"//proj/./scripts/b.ts/."⟩ ⟨"/./proj//"⟩ := by
  have hp : (⟨"/proj/scripts/b.ts"⟩ : Path).pieces =
      [[], "proj".toList] ++ ["scripts".toList, "b.ts".toList] ++ [] := by decide
  have hq : (⟨"//proj/./scripts/b.ts/."⟩ : Path).pieces =
      [[], [], "proj".toList, ['.']] ++ ["scripts".toList, "b.ts".toList] ++ [['.']] := by decide
  have hnone : Path.AllBlank [] := fun _ h => absurd h List.not_mem_nil
  have hback : Path.AllBlank [['.']] := List.forall_mem_singleton.mpr (by decide)
  have halike : Path.ReadAlike ⟨"/proj"⟩ ⟨"/proj/scripts/b.ts"⟩ ⟨"//proj/./scripts/b.ts/."⟩ :=
    .below ⟨by decide, by decide, by decide⟩ (by decide) (by decide) hnone hback hp hq
  exact ⟨by decide, (verdicts_agree_iff (by decide) (by decide) (by decide)).1.mpr halike⟩

theorem compile_scripts : compile ["scripts/*.ts"] =
    .ok ⟨["scripts/*.ts"],
      [⟨"scripts/".toList.map .literal ++ .star :: ".ts".toList.map .literal⟩]⟩ := by
  cbv

/-- A separator written twice between two names makes a difference to a list. -/
theorem verdicts_differ_at_script : ∃ a : Allowlist,
    compile ["scripts/*.ts"] = .ok a ∧
    (⟨"/proj/scripts/b.ts"⟩ : Path).isAbsolute = true ∧
    (⟨"/proj/scripts/b.ts"⟩ : Path) ≈ ⟨"/proj/scripts//b.ts"⟩ ∧
    a.acceptsFrom ⟨"/proj/scripts/b.ts"⟩ ⟨"/proj"⟩ = true ∧
    a.acceptsFrom ⟨"/proj/scripts//b.ts"⟩ ⟨"/proj"⟩ = false :=
  ⟨_, compile_scripts, by decide, by decide, by decide, by decide⟩

end Allowlist

end BackendSync
