import BackendSync.Proofs.AllowlistSpelling

/-!
# Joining below a directory, and what is left below it

Joining puts texts together and stripping cuts a text, while what a path names is read off its
pieces. The two meet at the seam. A separator ends the piece before it, so the pieces of a
joined path are those of its two sides, save that a doubled or trailing separator leaves empty
ones, which name nothing; and a leading `.` of what is joined comes to stand inside the path,
where it names nothing either. What is left of a path below a directory starts and ends with a
name, so it cannot be mistaken for an absolute path and has no `.` to lose. Hence each of the
two undoes the other, for every spelling.
-/

namespace BackendSync

namespace Path

variable {p q dir dir' : Path}

/-! ## Components of a joined path -/

/-- The names of a joined path are those of its two sides, in whatever way these are spelled. -/
theorem names_pieces_join (dir rest : Path) :
    names (dir.join rest).pieces = names dir.pieces ++ names rest.pieces := by
  unfold join
  split
  · rename_i hend
    rw [pieces, chars_ofChars]
    rcases hend with hempty | hslash
    · rw [hempty, pieces, hempty]
      rfl
    · -- the separator is there already, and behind it stands a piece with nothing in it
      obtain ⟨front, hfront⟩ := List.getLast?_eq_some_iff.mp hslash
      have hdir : dir.pieces = splitPieces front ++ [[]] := by
        rw [pieces, hfront, splitPieces_append_separator]
        rfl
      have hnone : names ([[]] : List (List Char)) = [] := rfl
      rw [hdir, hfront, List.append_assoc, List.singleton_append, splitPieces_append_separator,
        names_append, names_append, hnone, List.append_nil, pieces]
  · rw [pieces, chars_ofChars, splitPieces_append_separator, names_append, pieces, pieces]

theorem isAbsolute_join (h : dir.isAbsolute = true) (rest : Path) :
    (dir.join rest).isAbsolute = true := by
  obtain ⟨cs, hcs⟩ := isAbsolute_iff.mp h
  rw [isAbsolute_iff, join]
  split
  · exact ⟨cs ++ rest.chars, by rw [chars_ofChars, hcs, List.cons_append]⟩
  · exact ⟨cs ++ '/' :: rest.chars, by rw [chars_ofChars, hcs, List.cons_append]⟩

/-- A list of components without a `.` at its head. -/
def withoutDot : List String → List String
  | "." :: rest => rest
  | components => components

theorem withoutDot_names {pieces : List (List Char)} (h : ∀ piece ∈ pieces, '/' ∉ piece) :
    withoutDot (names pieces) = names pieces := by
  unfold withoutDot
  split
  · rename_i hdot
    have hname : IsName "." := isName_of_mem_names h (by rw [hdot]; exact List.mem_cons_self)
    exact absurd hname.not_blank (by decide)
  · rfl

/-- Only a leading `.` is a component without being a name. -/
theorem withoutDot_components (p : Path) : withoutDot p.components = names p.pieces := by
  unfold components
  split
  · rename_i hdot
    rw [hdot, names_cons_of_blank (by decide), withoutDot]
  · exact withoutDot_names fun _ hpiece => no_separator_of_mem_pieces hpiece

theorem components_of_first_piece (h : p.pieces.head? ≠ some ['.']) :
    p.components = names p.pieces := by
  unfold components
  split
  · rename_i hdot
    rw [hdot] at h
    exact absurd rfl h
  · rfl

/-! ## Seeing a path from a directory -/

theorem absolutize_of_relative (h : p.isAbsolute = false) (dir : Path) :
    p.absolutize dir = dir.join p := by
  rw [absolutize, h, if_neg Bool.false_ne_true]

theorem isAbsolute_absolutize (hdir : dir.isAbsolute = true) (p : Path) :
    (p.absolutize dir).isAbsolute = true := by
  cases hp : p.isAbsolute with
  | true => rw [absolutize_of_isAbsolute hp, hp]
  | false => rw [absolutize_of_relative hp, isAbsolute_join hdir]

/-- **The components of a path seen from a directory.** -/
theorem components_absolutize (hdir : dir.isAbsolute = true) (p : Path) :
    (p.absolutize dir).components =
      if p.isAbsolute then p.components else dir.components ++ withoutDot p.components := by
  cases hp : p.isAbsolute with
  | true => rw [absolutize_of_isAbsolute hp, if_pos rfl]
  | false =>
    rw [absolutize_of_relative hp, if_neg Bool.false_ne_true,
      components_eq_names (isAbsolute_join hdir p), names_pieces_join, components_eq_names hdir,
      withoutDot_components]

theorem absolutize_congr (hdir : dir.isAbsolute = true) (hpq : p ≈ q) (hdirs : dir ≈ dir') :
    p.absolutize dir ≈ q.absolutize dir' := by
  have hdir' : dir'.isAbsolute = true := hdirs.1 ▸ hdir
  refine ⟨?_, ?_⟩
  · rw [isAbsolute_absolutize hdir, isAbsolute_absolutize hdir']
  · rw [components_absolutize hdir, components_absolutize hdir', hpq.1, hpq.2, hdirs.2]

/-! ## What is left below a directory -/

theorem isBlank_first_of_span {pieces tail : List (List Char)} {first : List Char}
    (h : span pieces = first :: tail) : isBlank first = false := by
  obtain ⟨back, -, heq⟩ := exists_trimBlankEnd (pieces.dropWhile isBlank)
  have hdropped : pieces.dropWhile isBlank = first :: (tail ++ back) := by
    rw [heq, ← span, h, List.cons_append]
  have hhead := List.head?_dropWhile_not isBlank pieces
  rw [hdropped] at hhead
  exact hhead

theorem isBlank_last_of_span {pieces front : List (List Char)} {last : List Char}
    (h : span pieces = front ++ [last]) : isBlank last = false := by
  -- the end is trimmed backwards, so the last piece is the first that was kept
  have hdropped : (pieces.dropWhile isBlank).reverse.dropWhile isBlank = last :: front.reverse := by
    rw [List.reverse_eq_iff.mp h, List.reverse_append, List.reverse_singleton,
      List.singleton_append]
  have hhead := List.head?_dropWhile_not isBlank (pieces.dropWhile isBlank).reverse
  rw [hdropped] at hhead
  exact hhead

/-- A text from its first name to its last has a separator at neither end. -/
theorem ends_of_span {pieces : List (List Char)} (hsep : ∀ piece ∈ span pieces, '/' ∉ piece) :
    (joinPieces (span pieces)).head? ≠ some '/' ∧
      (joinPieces (span pieces)).getLast? ≠ some '/' := by
  refine ⟨fun hhead => ?_, fun hlast => ?_⟩
  · cases hspan : span pieces with
    | nil =>
      rw [hspan] at hhead
      cases hhead
    | cons first tail =>
      have hfirst := ne_nil_of_not_blank (isBlank_first_of_span hspan)
      rw [hspan, head?_joinPieces_cons hfirst] at hhead
      rw [hspan] at hsep
      exact hsep first List.mem_cons_self (List.mem_of_head? hhead)
  · by_cases hnil : span pieces = []
    · rw [hnil] at hlast
      cases hlast
    · obtain ⟨front, last, hspan⟩ : ∃ front last, span pieces = front ++ [last] :=
        ⟨_, _, (List.dropLast_concat_getLast hnil).symm⟩
      have hend := ne_nil_of_not_blank (isBlank_last_of_span hspan)
      rw [hspan, getLast?_joinPieces_concat hend] at hlast
      rw [hspan] at hsep
      exact hsep last (List.mem_append_right front List.mem_cons_self) (List.mem_of_getLast? hlast)

/-- No component of such a text is a `.`, since the first piece is a name. -/
theorem components_of_span {pieces : List (List Char)} (hsep : ∀ piece ∈ span pieces, '/' ∉ piece) :
    (ofChars (joinPieces (span pieces))).components = names (span pieces) := by
  cases hspan : span pieces with
  | nil => rfl
  | cons first tail =>
    rw [hspan] at hsep
    have hpieces : (ofChars (joinPieces (first :: tail))).pieces = first :: tail := by
      rw [Path.pieces, chars_ofChars, splitPieces_joinPieces (List.cons_ne_nil first tail) hsep]
    have hfirst : (ofChars (joinPieces (first :: tail))).pieces.head? ≠ some ['.'] := by
      rw [hpieces]
      intro hdot
      have hblank := isBlank_first_of_span hspan
      rw [Option.some.inj hdot] at hblank
      cases hblank
    rw [components_of_first_piece hfirst, hpieces]

/-- `rest` is a relative path, bare of separators at its ends, that leads from `dir` to `p`. -/
structure Leads (rest dir p : Path) : Prop where
  relative : rest.isAbsolute = false
  components : dir.components ++ rest.components = p.components
  not_leading : rest.chars.head? ≠ some '/'
  not_trailing : rest.chars.getLast? ≠ some '/'
  joined : rest.absolutize dir ≈ p

theorem Below.relativeTo? (h : p.Below dir) : p.relativeTo? dir = some (p.relativeTo dir) := by
  rw [relativeTo?_of_below h, relativeTo_of_below h]

/-- **What is left of a path below a directory leads from there to the path.** -/
theorem Below.leads (h : p.Below dir) : (p.relativeTo dir).Leads dir p := by
  have hsep := h.no_separator
  obtain ⟨front, back, hfront, hback, hpieces⟩ := h.exists_front
  rw [relativeTo_of_below h]
  generalize dropNames dir.components.length p.pieces = behind at hsep hpieces ⊢
  have hsplit : dir.components ++ names (span behind) = p.components := by
    rw [components_eq_names h.absolute, hpieces, names_append, names_append, hfront,
      names_of_allBlank hback, List.append_nil]
  have hcomponents := components_of_span hsep
  obtain ⟨hhead, hlast⟩ := ends_of_span hsep
  rw [← chars_ofChars (joinPieces (span behind))] at hhead hlast
  have hrelative : (ofChars (joinPieces (span behind))).isAbsolute = false :=
    beq_eq_false_iff_ne.mpr hhead
  refine ⟨hrelative, ?_, hhead, hlast, ?_, ?_⟩
  · rw [hcomponents, hsplit]
  · rw [isAbsolute_absolutize h.root_absolute, h.absolute]
  · rw [components_absolutize h.root_absolute, hrelative, if_neg Bool.false_ne_true, hcomponents,
      withoutDot_names hsep, hsplit]

/-- A relative path that is joined to a directory is found below it. -/
theorem below_absolutize (hdir : dir.isAbsolute = true) (hp : p.isAbsolute = false) :
    (p.absolutize dir).Below dir := by
  refine ⟨isAbsolute_absolutize hdir p, hdir, ?_⟩
  rw [components_absolutize hdir, hp, if_neg Bool.false_ne_true]
  exact List.prefix_append _ _

/-! ## Each undoes the other -/

/--
**Joining and stripping undo each other, up to how a path is spelled.** Seen from an absolute
directory a path is absolute, with its own components or, if it is relative, with those of the
directory and then its own but for a leading `.`. To see it from a second directory changes
nothing, and neither does the spelling of either side. The text that an allow-list matches of
a path below the directory leads from there to the path. And what is left of a relative path
that was joined is that path again, less the leading `.`.
-/
theorem joining_inverts_stripping (hdir : dir.isAbsolute = true) :
    (∀ p : Path, (p.absolutize dir).isAbsolute = true ∧
      (p.absolutize dir).components =
        if p.isAbsolute then p.components else dir.components ++ withoutDot p.components) ∧
    (∀ p other : Path, (p.absolutize dir).absolutize other = p.absolutize dir) ∧
    (∀ p q other : Path, p ≈ q → dir ≈ other → p.absolutize dir ≈ q.absolutize other) ∧
    (∀ p : Path, p.isAbsolute = true → dir.components <+: p.components →
      ∃ rest, p.relativeTo? dir = some rest ∧ rest.Leads dir p ∧
        ∀ a : Allowlist, a.acceptsFrom p dir = a.globs.any (·.accepts rest)) ∧
    ∀ p : Path, p.isAbsolute = false →
      ∃ rest, (p.absolutize dir).relativeTo? dir = some rest ∧
        rest.Leads dir (p.absolutize dir) ∧ rest.components = withoutDot p.components := by
  refine ⟨fun p => ⟨isAbsolute_absolutize hdir p, components_absolutize hdir p⟩,
    fun p other => absolutize_of_isAbsolute (isAbsolute_absolutize hdir p) other,
    fun p q other => absolutize_congr hdir, fun p habs hstart => ?_, fun p hp => ?_⟩
  · have hbelow : p.Below dir := ⟨habs, hdir, hstart⟩
    exact ⟨p.relativeTo dir, hbelow.relativeTo?, hbelow.leads, fun _ => rfl⟩
  · have hbelow := below_absolutize hdir hp
    refine ⟨(p.absolutize dir).relativeTo dir, hbelow.relativeTo?, hbelow.leads, ?_⟩
    have hsplit := hbelow.leads.components
    rw [components_absolutize hdir, hp, if_neg Bool.false_ne_true] at hsplit
    exact List.append_cancel_left hsplit

/-- The directory, the path and what is joined, each spelled with blank pieces in it. -/
theorem joining_inverts_stripping_at_script :
    ((⟨"/./proj//"⟩ : Path).isAbsolute = true ∧ (⟨"./b.ts"⟩ : Path) ≈ ⟨"././b.ts//"⟩ ∧
      (⟨"/./proj//"⟩ : Path) ≈ ⟨"/proj/."⟩ ∧
      (⟨"//proj/.//scripts//b.ts/."⟩ : Path).isAbsolute = true ∧
      (⟨"/./proj//"⟩ : Path).components <+: (⟨"//proj/.//scripts//b.ts/."⟩ : Path).components ∧
      (⟨"./b.ts"⟩ : Path).isAbsolute = false) ∧
    ((⟨"./b.ts"⟩ : Path).absolutize ⟨"/./proj//"⟩).components = ["proj", "b.ts"] ∧
    ((⟨"./b.ts"⟩ : Path).absolutize ⟨"/./proj//"⟩).absolutize ⟨"/proj/."⟩ = ⟨"/./proj//./b.ts"⟩ ∧
    (⟨"./b.ts"⟩ : Path).absolutize ⟨"/./proj//"⟩ ≈
      (⟨"././b.ts//"⟩ : Path).absolutize ⟨"/proj/."⟩ ∧
    (⟨"scripts//b.ts"⟩ : Path).Leads ⟨"/./proj//"⟩ ⟨"//proj/.//scripts//b.ts/."⟩ ∧
    (∀ a : Allowlist, a.acceptsFrom ⟨"//proj/.//scripts//b.ts/."⟩ ⟨"/./proj//"⟩ =
      a.globs.any (·.accepts ⟨"scripts//b.ts"⟩)) ∧
    (⟨"b.ts"⟩ : Path).Leads ⟨"/./proj//"⟩ ⟨"/./proj//./b.ts"⟩ := by
  obtain ⟨hseen, hagain, hcongr, hstripped, hjoined⟩ :=
    joining_inverts_stripping (show (⟨"/./proj//"⟩ : Path).isAbsolute = true by decide)
  obtain ⟨rest, hrest, hleads, hmatched⟩ :=
    hstripped ⟨"//proj/.//scripts//b.ts/."⟩ (by decide) (by decide)
  obtain ⟨rest', hrest', hleads', -⟩ := hjoined ⟨"./b.ts"⟩ (by decide)
  obtain rfl : rest = ⟨"scripts//b.ts"⟩ := Option.some.inj (hrest.symm.trans (by decide))
  obtain rfl : rest' = ⟨"b.ts"⟩ := Option.some.inj (hrest'.symm.trans (by decide))
  refine ⟨by decide, (hseen ⟨"./b.ts"⟩).2.trans (by decide), ?_,
    hcongr _ _ _ (by decide) (by decide), hleads, hmatched, hleads'⟩
  exact (hagain ⟨"./b.ts"⟩ ⟨"/proj/."⟩).trans (by decide)

end Path

end BackendSync
