import Mathlib.Algebra.BigOperators.Group.List.Basic
import Mathlib.Data.ENat.Basic
import BackendSync.Proofs.GlobLanguage
import BackendSync.Proofs.PathNames
import BackendSync.Proofs.SeparatorByte
import BackendSync.Proofs.Validation

/-!
# How deep an allow-list reaches

A wildcard stays within a segment unless it is written with two stars side by side, so what a
pattern without these matches has no more separators than the pattern pays for: a separator
that is written out pays for itself, and a class, which may match one, has its opening bracket.

The bound is counted on expressions first: `Expr.separators` is the most separators that a
string of the language has, and it is infinite where something crosses segments. Reading a
pattern then spends characters. `reach_read` says that with each character read the tokens so
far, over all the groups that are still open, reach no further than was paid for. Two stars can
only come from two characters side by side, also across the borders of branches, because a
token is pushed for what was read and never for what a branch ends in.
-/

namespace BackendSync

namespace Glob

/-! ## Separators in a language -/

/--
A bound on the separators that a string of the language has. Alternatives count together,
as a pattern pays for each of them.
-/
def Expr.separators : Expr → ℕ∞
  | empty => 0
  | one set => if set.contains separator then 1 else 0
  | many set => if set.contains separator then ⊤ else 0
  | seq first second => first.separators + second.separators
  | alt left right => left.separators + right.separators

/-- **No string of a language has more separators.** -/
theorem Expr.Matches.count_le {e : Expr} {bs : List UInt8} (h : e.Matches bs) :
    (bs.count separator : ℕ∞) ≤ e.separators := by
  induction h with
  | empty => exact le_refl _
  | @one set b hin =>
    unfold Expr.separators
    by_cases hb : b = separator
    · rw [if_pos (hb ▸ hin), hb]
      exact le_refl _
    · have hnone : [b].count separator = 0 :=
        List.count_eq_zero.mpr fun hmem => hb (List.mem_singleton.mp hmem).symm
      rw [hnone]
      exact zero_le
  | @many set bs hall =>
    unfold Expr.separators
    by_cases hset : set.contains separator = true
    · rw [if_pos hset]
      exact le_top
    · have hnone : bs.count separator = 0 :=
        List.count_eq_zero.mpr fun hmem => hset (hall _ hmem)
      rw [hnone]
      exact zero_le
  | seq _ _ ihf ihs =>
    rw [List.count_append, Nat.cast_add]
    exact add_le_add ihf ihs
  | left _ ih => exact ih.trans (le_add_right (le_refl _))
  | right _ ih => exact ih.trans (le_add_left (le_refl _))

theorem Expr.separators_bytes (bs : List UInt8) :
    (bytes bs).separators = (bs.count separator : ℕ∞) := by
  induction bs with
  | nil => rfl
  | cons b bs ih =>
    have hseq : (bytes (b :: bs)).separators =
        (one (.single b)).separators + (bytes bs).separators := rfl
    rw [hseq, ih, Expr.separators, List.count_cons, Nat.cast_add, add_comm]
    congr 1
    by_cases hb : b = separator
    · rw [if_pos (ByteSet.contains_single.mpr hb.symm), if_pos (beq_iff_eq.mpr hb)]
      rfl
    · rw [if_neg fun hin => hb (ByteSet.contains_single.mp hin).symm,
        if_neg fun hin => hb (beq_iff_eq.mp hin)]
      rfl

/-! ## What tokens reach -/

/-- A bound on the separators that a token matches. -/
def Token.reach (token : Token) : ℕ∞ := token.expr.separators

/-- A bound on those that tokens one after another match. -/
def reachOf (tokens : List Token) : ℕ∞ := (tokens.map Token.reach).sum

theorem reachOf_cons (token : Token) (rest : List Token) :
    reachOf (token :: rest) = token.reach + reachOf rest := by
  rw [reachOf, List.map_cons, List.sum_cons, reachOf]

theorem reachOf_reverse (tokens : List Token) : reachOf tokens.reverse = reachOf tokens := by
  rw [reachOf, List.map_reverse, List.sum_reverse, reachOf]

theorem separators_sequenceExpr (tokens : List Token) :
    (sequenceExpr tokens).separators = reachOf tokens := by
  induction tokens with
  | nil => rfl
  | cons token rest ih =>
    have hseq : (sequenceExpr (token :: rest)).separators =
        token.reach + (sequenceExpr rest).separators := rfl
    rw [hseq, ih, reachOf_cons]

theorem reach_literal (c : Char) : (Token.literal c).reach = if c = '/' then 1 else 0 := by
  have hbytes : (Token.literal c).reach = ((charBytes c).count separator : ℕ∞) :=
    Expr.separators_bytes (charBytes c)
  rw [hbytes, count_charBytes]
  split <;> rfl

theorem reach_any : Token.any.reach = 0 := rfl

theorem reach_star : Token.star.reach = 0 := rfl

theorem reach_charClass_le (negated : Bool) (entries : List (Char × Char)) :
    (Token.charClass negated entries).reach ≤ 1 := by
  unfold Token.reach Token.expr Expr.separators
  split
  · exact le_refl 1
  · exact zero_le

theorem separators_alternatives (es : List Expr) :
    (alternatives es).separators = (es.map Expr.separators).sum := by
  fun_induction alternatives es with
  | case1 => rfl
  | case2 e => rw [List.map_singleton, List.sum_singleton]
  | case3 e rest _ ih => rw [Expr.separators, ih, List.map_cons, List.sum_cons]

/-- A bound on the separators that branches match if all of them were matched. -/
def reachOfBranches (branches : List (List Token)) : ℕ∞ := (branches.map reachOf).sum

theorem reachOfBranches_cons (branch : List Token) (rest : List (List Token)) :
    reachOfBranches (branch :: rest) = reachOf branch + reachOfBranches rest := by
  rw [reachOfBranches, List.map_cons, List.sum_cons, reachOfBranches]

theorem reachOfBranches_reverse (branches : List (List Token)) :
    reachOfBranches branches.reverse = reachOfBranches branches := by
  rw [reachOfBranches, List.map_reverse, List.sum_reverse, reachOfBranches]

theorem reachOfBranches_filter_le (keep : List Token → Bool) (branches : List (List Token)) :
    reachOfBranches (branches.filter keep) ≤ reachOfBranches branches := by
  induction branches with
  | nil => exact le_refl 0
  | cons branch rest ih =>
    rw [reachOfBranches_cons]
    cases hkeep : keep branch with
    | true =>
      rw [List.filter_cons_of_pos hkeep, reachOfBranches_cons]
      exact add_le_add (le_refl _) ih
    | false =>
      rw [List.filter_cons_of_neg (by rw [hkeep]; exact Bool.false_ne_true)]
      exact ih.trans (le_add_left (le_refl _))

/-- A group reaches no further than its branches do together. -/
theorem reach_ofBranches_le (branches : List (List Token)) :
    (Token.ofBranches branches).reach ≤ reachOfBranches branches := by
  refine le_trans ?_ (reachOfBranches_filter_le (fun branch => !branch.all Token.isBlank) branches)
  unfold Token.ofBranches
  dsimp only
  generalize branches.filter (fun branch => !branch.all Token.isBlank) = kept
  split
  · exact zero_le
  · have hsum : (kept.map sequenceExpr).map Expr.separators = kept.map reachOf := by
      rw [List.map_map]
      exact List.map_congr_left fun tokens _ => separators_sequenceExpr tokens
    have heq := separators_alternatives (kept.map sequenceExpr)
    rw [hsum] at heq
    exact le_of_eq heq

/-! ## Reading spends characters -/

/-- The separators and the class openings of a text. -/
def crossings (cs : List Char) : Nat := cs.count '/' + cs.count '['

theorem crossings_le_of_suffix {cs rest : List Char} (h : rest <:+ cs) :
    crossings rest ≤ crossings cs :=
  Nat.add_le_add (h.sublist.count_le '/') (h.sublist.count_le '[')

/-- What the branches of an open group and the one that is being read reach together. -/
def Level.reach (level : Level) : ℕ∞ := reachOfBranches level.finished + reachOf level.tokens

/-- Nothing changes when the branch that is being read is finished. -/
theorem Level.reach_finish (level : Level) :
    reachOfBranches (level.tokens.reverse :: level.finished) = level.reach := by
  rw [reachOfBranches_cons, reachOf_reverse, Level.reach, add_comm]

/-- What all that was read so far reaches. -/
def Levels.reach (s : Levels) : ℕ∞ := s.inner.reach + (s.outer.map Level.reach).sum

theorem Levels.reach_start : Levels.start.reach = 0 := rfl

theorem Levels.reach_push (s : Levels) (token : Token) :
    (s.push token).reach = token.reach + s.reach := by
  have hinner : (s.push token).inner.reach = token.reach + s.inner.reach := by
    show reachOfBranches s.inner.finished + reachOf (token :: s.inner.tokens) = _
    rw [reachOf_cons, Level.reach]
    exact add_left_comm _ _ _
  rw [Levels.reach, hinner, Levels.reach, add_assoc]
  rfl

theorem Levels.reach_openGroup (s : Levels) : s.openGroup.reach = s.reach := by
  have hopen : s.openGroup.reach = 0 + ((s.inner :: s.outer).map Level.reach).sum := rfl
  rw [hopen, zero_add, List.map_cons, List.sum_cons, Levels.reach]

theorem Levels.reach_nextBranch (s : Levels) : s.nextBranch.reach = s.reach := by
  have hinner : s.nextBranch.inner.reach = s.inner.reach := by
    show reachOfBranches (s.inner.tokens.reverse :: s.inner.finished) + reachOf [] = _
    rw [Level.reach_finish]
    exact add_zero _
  rw [Levels.reach, hinner, Levels.reach]
  rfl

theorem Levels.reach_closeGroup? {s closed : Levels} (h : s.closeGroup? = some closed) :
    closed.reach ≤ s.reach := by
  unfold closeGroup? at h
  split at h
  · cases h
  · rename_i level outer houter
    have hgroup := reach_ofBranches_le (s.inner.tokens.reverse :: s.inner.finished).reverse
    rw [reachOfBranches_reverse, Level.reach_finish] at hgroup
    have hclosed := congrArg Levels.reach (Option.some.inj h).symm
    -- the group is pushed as a token to the level around it
    have hpush := Levels.reach_push ⟨level, outer⟩
      (.ofBranches (s.inner.tokens.reverse :: s.inner.finished).reverse)
    have heq : closed.reach =
        (Token.ofBranches (s.inner.tokens.reverse :: s.inner.finished).reverse).reach +
          (level.reach + (outer.map Level.reach).sum) := hclosed.trans hpush
    rw [heq, Levels.reach, houter, List.map_cons, List.sum_cons]
    exact add_le_add hgroup (le_refl _)

theorem suffix_of_readEntries {entries : List (Char × Char)} {first ranging : Bool}
    {cs : List Char} {r : List (Char × Char) × List Char}
    (h : readEntries entries first ranging cs = .ok r) : r.2 <:+ cs := by
  fun_induction readEntries entries first ranging cs with
  | case1 => cases h
  | case2 =>
    cases h
    exact List.suffix_cons _ _
  | case3 _ _ _ _ _ _ _ ih => exact (ih h).trans (List.suffix_cons _ _)
  | case4 => cases h
  | case5 => rename_i ih; exact (ih h).trans (List.suffix_cons _ _)
  | case6 => rename_i ih; exact (ih h).trans (List.suffix_cons _ _)

/-- A class leaves the end of the text, and it matches one byte. -/
theorem of_readClass {cs rest : List Char} {token : Token} (h : readClass cs = .ok (token, rest)) :
    rest <:+ cs ∧ token.reach ≤ 1 := by
  unfold readClass at h
  split at h
  rename_i negated body split_eq
  have hbody : body <:+ cs := by
    split at split_eq <;> cases split_eq
    · exact List.suffix_cons _ _
    · exact List.suffix_cons _ _
    · exact List.suffix_refl _
  cases hr : readEntries [] true false body with
  | error e =>
    rw [hr] at h
    cases h
  | ok r =>
    rw [hr] at h
    cases h
    exact ⟨(suffix_of_readEntries hr).trans hbody, reach_charClass_le negated r.1⟩

theorem crossings_literal_le (c : Char) (rest : List Char) :
    (if c = '/' then 1 else 0) + crossings rest ≤ crossings (c :: rest) := by
  unfold crossings
  rw [List.count_cons, List.count_cons]
  by_cases hc : c = '/'
  · rw [if_pos hc, if_pos (beq_iff_eq.mpr hc)]
    omega
  · rw [if_neg hc]
    omega

/-- A step that adds no more than it spends leaves the bound as it is. -/
theorem spend {s next : Levels} {cs rest : List Char} {n : Nat} {total : ℕ∞}
    (hnext : next.reach ≤ n + s.reach) (hspent : n + crossings rest ≤ crossings cs)
    (h : total ≤ next.reach + crossings rest) : total ≤ s.reach + crossings cs := by
  calc total ≤ next.reach + crossings rest := h
    _ ≤ (n + s.reach) + crossings rest := add_le_add hnext (le_refl _)
    _ = s.reach + ((n + crossings rest : Nat) : ℕ∞) := by
      rw [Nat.cast_add, add_comm (n : ℕ∞), add_assoc]
    _ ≤ s.reach + crossings cs := add_le_add (le_refl _) (Nat.cast_le.mpr hspent)

theorem spend_nothing {s next : Levels} {c : Char} {rest : List Char} {total : ℕ∞}
    (hnext : next.reach ≤ s.reach) (h : total ≤ next.reach + crossings rest) :
    total ≤ s.reach + crossings (c :: rest) := by
  refine spend (n := 0) ?_ ?_ h
  · rw [Nat.cast_zero, zero_add]
    exact hnext
  · rw [Nat.zero_add]
    exact crossings_le_of_suffix (List.suffix_cons c rest)

theorem spend_literal {s : Levels} {c : Char} {rest : List Char} {total : ℕ∞}
    (h : total ≤ (s.push (.literal c)).reach + crossings rest) :
    total ≤ s.reach + crossings (c :: rest) := by
  refine spend (n := if c = '/' then 1 else 0) ?_ (crossings_literal_le c rest) h
  rw [Levels.reach_push, reach_literal]
  split <;> exact le_refl _

/-- **Reading reaches no further than the separators and class openings that are read.** -/
theorem reach_read {before : Option Char} {s after : Levels} {cs : List Char}
    (h : read before s cs = .ok after) (hstars : NoDoubleStar cs) :
    after.reach ≤ s.reach + crossings cs := by
  fun_induction read before s cs with
  | case1 =>
    cases h
    exact le_add_right (le_refl _)
  | case2 before s rest ih =>
    refine spend_nothing ?_ (ih h (hstars.of_suffix (List.suffix_cons _ _)))
    rw [Levels.reach_push, reach_any, zero_add]
  | case3 => cases h
  | case4 before s c rest ih =>
    have hrest : rest <:+ '\\' :: c :: rest :=
      (List.suffix_cons c rest).trans (List.suffix_cons _ _)
    exact spend_nothing (le_refl _) (spend_literal (ih h (hstars.of_suffix hrest)))
  | case5 before s rest ih =>
    refine spend_nothing ?_ (ih h (hstars.of_suffix (List.suffix_cons _ _)))
    rw [Levels.reach_openGroup]
  | case6 before s rest closed hclosed ih =>
    exact spend_nothing (Levels.reach_closeGroup? hclosed)
      (ih h (hstars.of_suffix (List.suffix_cons _ _)))
  | case7 => cases h
  | case8 before s rest ih =>
    refine spend_nothing ?_ (ih h (hstars.of_suffix (List.suffix_cons _ _)))
    -- outside a group a comma stands for itself
    split
    · rw [Levels.reach_nextBranch]
    · rw [Levels.reach_push, reach_literal, if_neg (by decide), zero_add]
  -- only two stars in the text are read as what crosses segments
  | case9 before s rest _ _ _ => exact absurd ⟨[], rest, rfl⟩ hstars
  | case10 before s rest _ _ _ _ => exact absurd ⟨[], rest, rfl⟩ hstars
  | case11 before s rest _ ih =>
    refine spend_nothing ?_ (ih h (hstars.of_suffix (List.suffix_cons _ _)))
    rw [Levels.reach_push, reach_star, zero_add]
  | case12 before s rest token behind hclass ih =>
    -- the opening bracket pays for the byte that the class matches
    obtain ⟨hbehind, htoken⟩ := of_readClass hclass
    refine spend (n := 1) ?_ ?_ (ih h (hstars.of_suffix (hbehind.trans (List.suffix_cons _ _))))
    · rw [Levels.reach_push, Nat.cast_one]
      exact add_le_add htoken (le_refl _)
    · have hle := crossings_le_of_suffix hbehind
      have hopening : crossings ('[' :: rest) = crossings rest + 1 := by
        unfold crossings
        rw [List.count_cons_of_ne (by decide), List.count_cons_self]
        omega
      omega
  | case13 => cases h
  | case14 before s c rest _ _ _ _ _ _ _ _ _ ih =>
    exact spend_literal (ih h (hstars.of_suffix (List.suffix_cons _ _)))

/-- The whole pattern is read, and then no group may be open. -/
theorem tokenize_eq_bind (pattern : String) :
    tokenize pattern = (read none .start pattern.toList).bind fun s =>
      if s.inGroup then .error .unclosedGroup else .ok s.inner.tokens.reverse := rfl

theorem reachOf_tokenize {pattern : String} {tokens : List Token}
    (h : tokenize pattern = .ok tokens) (hstars : NoDoubleStar pattern.toList) :
    reachOf tokens ≤ crossings pattern.toList := by
  rw [tokenize_eq_bind] at h
  cases hread : read none .start pattern.toList with
  | error e =>
    rw [hread] at h
    cases h
  | ok s =>
    have htotal := reach_read hread hstars
    -- what is left is what the innermost level has read
    rw [Levels.reach_start, zero_add] at htotal
    have hinner : reachOf s.inner.tokens ≤ s.reach :=
      (le_add_left (le_refl _)).trans (le_add_right (le_refl _))
    rw [hread, Except.bind] at h
    split at h
    · cases h
    · cases h
      rw [reachOf_reverse]
      exact hinner.trans htotal

/-! ## Paths -/

/-- A glob reaches what its tokens reach, also the one that is for every path. -/
theorem separators_expr_le (g : Glob) : g.expr.separators ≤ reachOf g.tokens := by
  unfold expr
  split
  · rename_i hall
    rw [hall]
    exact le_refl _
  · exact le_of_eq (separators_sequenceExpr g.tokens)

theorem count_le_of_accepts {g : Glob} {p : Path} (h : g.accepts p = true) :
    (p.chars.count '/' : ℕ∞) ≤ reachOf g.tokens := by
  have hexpr : g.expr.accepts (pathBytes p) = true := by
    unfold accepts at h
    split at h
    · cases h
    · exact h
  have hcount := ((Expr.accepts_iff _ _).mp hexpr).count_le
  rw [pathBytes, count_flatMap_charBytes] at hcount
  exact hcount.trans (separators_expr_le g)

/-- **What a pattern without two stars side by side accepts is no deeper than the pattern.** -/
theorem count_le_crossings {pattern : String} {g : Glob} {p : Path} (h : ofPattern pattern = .ok g)
    (hstars : NoDoubleStar pattern.toList) (haccepts : g.accepts p = true) :
    p.chars.count '/' ≤ crossings pattern.toList := by
  unfold ofPattern at h
  cases htokens : tokenize pattern with
  | error e =>
    rw [htokens] at h
    cases h
  | ok tokens =>
    rw [htokens] at h
    cases h
    exact Nat.cast_le.mp ((count_le_of_accepts haccepts).trans (reachOf_tokenize htokens hstars))

end Glob

/-! ## Depth -/

namespace Path

theorem length_splitPieces (cs : List Char) : (splitPieces cs).length = cs.count '/' + 1 := by
  induction cs with
  | nil => rfl
  | cons c cs ih =>
    by_cases hc : c = '/'
    · rw [hc, splitPieces_separator, List.length_cons, ih, List.count_cons_self]
    · obtain ⟨piece, rest, hsplit⟩ := List.exists_cons_of_ne_nil (splitPieces_ne_nil cs)
      rw [splitPieces_cons hc hsplit, List.count_cons_of_ne hc, ← ih, hsplit]
      rfl

theorem length_names_le (pieces : List (List Char)) : (names pieces).length ≤ pieces.length := by
  rw [names, List.length_map]
  exact List.length_filter_le _ _

/-- A path has one component more than separators, or fewer. -/
theorem length_components_le (p : Path) : p.components.length ≤ p.chars.count '/' + 1 := by
  rw [← length_splitPieces, ← pieces]
  unfold components
  split
  · rename_i rest hpieces
    rw [hpieces, List.length_cons, List.length_cons]
    exact Nat.succ_le_succ (length_names_le rest)
  · exact length_names_le p.pieces

end Path

namespace Config

/-- The most directories that a pattern of the allow-list has above a file. -/
def depth (c : Config) : Nat :=
  (c.allowDefaultProject.map fun pattern => Glob.crossings pattern.toList).foldr max 0

theorem crossings_le_depth {c : Config} {pattern : String} (h : pattern ∈ c.allowDefaultProject) :
    Glob.crossings pattern.toList ≤ c.depth := by
  unfold depth
  revert h
  generalize c.allowDefaultProject = patterns
  intro h
  induction patterns with
  | nil => exact absurd h List.not_mem_nil
  | cons first rest ih =>
    rw [List.map_cons, List.foldr_cons]
    rcases List.mem_cons.mp h with rfl | hmem
    · exact Nat.le_max_left _ _
    · exact (ih hmem).trans (Nat.le_max_right _ _)

/--
**A valid allow-list does not recurse.** It compiles, and whatever path it accepts, some
pattern of it has as many separators and class openings as the path has separators. So the
files that it admits below a root are no deeper there than its patterns say.
-/
theorem valid_list_bounded {c : Config} (h : c.validate = .ok ()) :
    ∃ list, Allowlist.compile c.allowDefaultProject = .ok list ∧
      (∀ p, list.accepts p = true → ∃ pattern ∈ c.allowDefaultProject,
        p.chars.count '/' ≤ pattern.toList.count '/' + pattern.toList.count '[') ∧
      ∀ p root, list.acceptsFrom p root = true →
        (p.relativeTo root).components.length ≤ c.depth + 1 := by
  obtain ⟨hfault, list, hlist⟩ := validate_eq_ok_iff.mp h
  obtain ⟨-, -, hnarrow⟩ := fault?_eq_none_iff.mp hfault
  have hbound : ∀ p, list.accepts p = true → ∃ pattern ∈ c.allowDefaultProject,
      p.chars.count '/' ≤ Glob.crossings pattern.toList := by
    intro p haccepts
    obtain ⟨g, hg, hgp⟩ := List.any_eq_true.mp haccepts
    obtain ⟨pattern, hpattern, hread⟩ := Allowlist.exists_pattern_of_compile hlist hg
    have hstars : Glob.NoDoubleStar pattern.toList :=
      fun hdouble => hnarrow pattern hpattern (Or.inr hdouble)
    exact ⟨pattern, hpattern, Glob.count_le_crossings hread hstars hgp⟩
  refine ⟨list, hlist, hbound, fun p root haccepts => ?_⟩
  obtain ⟨pattern, hpattern, hle⟩ := hbound (p.relativeTo root) haccepts
  calc (p.relativeTo root).components.length
      ≤ (p.relativeTo root).chars.count '/' + 1 := (p.relativeTo root).length_components_le
    _ ≤ c.depth + 1 := Nat.succ_le_succ (hle.trans (crossings_le_depth hpattern))

/-- An allow-list with a class that may stand for a separator, in a branch of a group. -/
def classInGroup : Config := { allowDefaultProject := ["{a[!x]b,*}/?"] }

/-- Both bounds can be reached: the class pays for the separator that it matches. -/
theorem valid_list_bounded_for_class : classInGroup.validate = .ok () ∧
    ∃ list, Allowlist.compile classInGroup.allowDefaultProject = .ok list ∧
      list.acceptsFrom ⟨"/p/a/b/c"⟩ ⟨"/p"⟩ = true ∧
      ((⟨"/p/a/b/c"⟩ : Path).relativeTo ⟨"/p"⟩).components.length = classInGroup.depth + 1 ∧
      ((⟨"/p/a/b/c"⟩ : Path).relativeTo ⟨"/p"⟩).components.length ≤ classInGroup.depth + 1 := by
  have hcompile : Allowlist.compile classInGroup.allowDefaultProject = .ok ⟨["{a[!x]b,*}/?"],
      [⟨[.ofBranches [[.literal 'a', .charClass true [('x', 'x')], .literal 'b'], [.star]],
        .literal '/', .any]⟩]⟩ := by cbv
  have hvalid : classInGroup.validate = .ok () :=
    validate_eq_ok_iff.mpr ⟨by decide, _, hcompile⟩
  obtain ⟨list, hlist, -, hdepth⟩ := valid_list_bounded hvalid
  cases hlist.symm.trans hcompile
  exact ⟨hvalid, _, hlist, by decide, by decide, hdepth _ _ (by decide)⟩

end Config

end BackendSync
