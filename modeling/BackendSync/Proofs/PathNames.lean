import BackendSync.Path.Basic

/-!
# Names and the paths above a path

A component of an absolute path is a name: it has no separator in it and is not blank. Any
list of names is what the components of some absolute path are, and `ofNames` spells that
path. So to speak of the directories above a path is to speak of the starts of its list of
components, and neither says more than the other.
-/

namespace BackendSync.Path

/-! ## Pieces -/

theorem splitPieces_ne_nil (cs : List Char) : splitPieces cs ≠ [] := by
  cases cs with
  | nil => exact List.cons_ne_nil _ _
  | cons c cs =>
    unfold splitPieces
    split
    · exact List.cons_ne_nil _ _
    · split
      · exact List.cons_ne_nil _ _
      · exact List.cons_ne_nil _ _

theorem splitPieces_separator (cs : List Char) : splitPieces ('/' :: cs) = [] :: splitPieces cs :=
  if_pos rfl

/-- A character that is no separator becomes part of the first piece. -/
theorem splitPieces_cons {c : Char} {cs piece : List Char} {rest : List (List Char)} (hc : c ≠ '/')
    (h : splitPieces cs = piece :: rest) : splitPieces (c :: cs) = (c :: piece) :: rest := by
  rw [splitPieces, if_neg hc, h]

theorem splitPieces_of_no_separator {piece : List Char} (h : '/' ∉ piece) :
    splitPieces piece = [piece] := by
  induction piece with
  | nil => rfl
  | cons c cs ih =>
    have hc : c ≠ '/' := fun heq => h (by rw [heq]; exact List.mem_cons_self)
    exact splitPieces_cons hc (ih fun hcs => h (List.mem_cons_of_mem c hcs))

/-- A separator ends the piece before it, whatever stands on either side. -/
theorem splitPieces_append_separator (cs ds : List Char) :
    splitPieces (cs ++ '/' :: ds) = splitPieces cs ++ splitPieces ds := by
  induction cs with
  | nil => exact splitPieces_separator ds
  | cons c cs ih =>
    by_cases hc : c = '/'
    · rw [hc, List.cons_append, splitPieces_separator, ih, splitPieces_separator, List.cons_append]
    · obtain ⟨piece, rest, hsplit⟩ := List.exists_cons_of_ne_nil (splitPieces_ne_nil cs)
      have hboth : splitPieces (cs ++ '/' :: ds) = piece :: (rest ++ splitPieces ds) := by
        rw [ih, hsplit, List.cons_append]
      rw [List.cons_append, splitPieces_cons hc hboth, splitPieces_cons hc hsplit, List.cons_append]

theorem splitPieces_append {piece : List Char} (h : '/' ∉ piece) (cs : List Char) :
    splitPieces (piece ++ '/' :: cs) = piece :: splitPieces cs := by
  rw [splitPieces_append_separator, splitPieces_of_no_separator h, List.singleton_append]

/-- **Pieces without separators come back as they were joined.** -/
theorem splitPieces_joinPieces {pieces : List (List Char)} (hne : pieces ≠ [])
    (h : ∀ piece ∈ pieces, '/' ∉ piece) : splitPieces (joinPieces pieces) = pieces := by
  induction pieces with
  | nil => exact absurd rfl hne
  | cons first rest ih =>
    have hfirst := h first List.mem_cons_self
    have hrest := fun piece hpiece => h piece (List.mem_cons_of_mem first hpiece)
    cases rest with
    | nil => exact splitPieces_of_no_separator hfirst
    | cons second rest =>
      have hjoin : joinPieces (first :: second :: rest) =
          first ++ '/' :: joinPieces (second :: rest) := rfl
      rw [hjoin, splitPieces_append hfirst, ih (List.cons_ne_nil second rest) hrest]

/-- Joining the pieces of a text gives the text back. -/
theorem joinPieces_splitPieces (cs : List Char) : joinPieces (splitPieces cs) = cs := by
  induction cs with
  | nil => rfl
  | cons c cs ih =>
    obtain ⟨piece, rest, hsplit⟩ := List.exists_cons_of_ne_nil (splitPieces_ne_nil cs)
    by_cases hc : c = '/'
    · have hjoin : joinPieces ([] :: piece :: rest) = '/' :: joinPieces (piece :: rest) := rfl
      rw [hc, splitPieces_separator, hsplit, hjoin, ← hsplit, ih]
    · have hjoin : joinPieces ((c :: piece) :: rest) = c :: joinPieces (piece :: rest) := by
        cases rest <;> rfl
      rw [splitPieces_cons hc hsplit, hjoin, ← hsplit, ih]

theorem no_separator_of_mem_splitPieces {cs piece : List Char} (h : piece ∈ splitPieces cs) :
    '/' ∉ piece := by
  induction cs generalizing piece with
  | nil =>
    rw [List.mem_singleton.mp h]
    exact List.not_mem_nil
  | cons c cs ih =>
    by_cases hc : c = '/'
    · rw [hc, splitPieces_separator] at h
      rcases List.mem_cons.mp h with heq | hmem
      · rw [heq]
        exact List.not_mem_nil
      · exact ih hmem
    · obtain ⟨first, rest, hsplit⟩ := List.exists_cons_of_ne_nil (splitPieces_ne_nil cs)
      rw [splitPieces_cons hc hsplit] at h
      rw [hsplit] at ih
      rcases List.mem_cons.mp h with heq | hmem
      · rw [heq]
        intro hin
        rcases List.mem_cons.mp hin with hsep | hin
        · exact hc hsep.symm
        · exact ih List.mem_cons_self hin
      · exact ih (List.mem_cons_of_mem first hmem)

theorem joinPieces_concat {pieces : List (List Char)} (hne : pieces ≠ []) (piece : List Char) :
    joinPieces (pieces ++ [piece]) = joinPieces pieces ++ '/' :: piece := by
  induction pieces with
  | nil => exact absurd rfl hne
  | cons first rest ih =>
    cases rest with
    | nil => rfl
    | cons second rest =>
      have hjoin : ∀ more : List (List Char), joinPieces (first :: (second :: rest ++ more)) =
          first ++ '/' :: joinPieces (second :: rest ++ more) := fun _ => rfl
      have hjoined := hjoin []
      rw [List.append_nil] at hjoined
      rw [List.cons_append, hjoin, ih (List.cons_ne_nil second rest), hjoined, List.append_assoc]
      rfl

/-- A joined text begins as the first of its pieces does. -/
theorem head?_joinPieces_cons {first : List Char} (hfirst : first ≠ []) (rest : List (List Char)) :
    (joinPieces (first :: rest)).head? = first.head? := by
  obtain ⟨c, cs, rfl⟩ := List.exists_cons_of_ne_nil hfirst
  cases rest <;> rfl

/-- A joined text ends as the last of its pieces does. -/
theorem getLast?_joinPieces_concat {last : List Char} (hlast : last ≠ [])
    (front : List (List Char)) : (joinPieces (front ++ [last])).getLast? = last.getLast? := by
  by_cases hfront : front = []
  · rw [hfront]
    rfl
  · rw [joinPieces_concat hfront, List.getLast?_append, List.getLast?_cons,
      List.getLast?_eq_some_getLast hlast]
    rfl

/-- A text that is joined of texts with something in them does not end in a separator. -/
theorem getLast?_joinPieces_ne {pieces : List (List Char)} (hne : pieces ≠ [])
    (h : ∀ piece ∈ pieces, '/' ∉ piece ∧ piece ≠ []) :
    joinPieces pieces ≠ [] ∧ (joinPieces pieces).getLast? ≠ some '/' := by
  obtain ⟨front, last, rfl⟩ : ∃ front last, pieces = front ++ [last] :=
    ⟨_, _, (List.dropLast_concat_getLast hne).symm⟩
  obtain ⟨hsep, hlast⟩ := h last (by simp)
  have hend := getLast?_joinPieces_concat hlast front
  refine ⟨fun hnil => ?_, fun hslash => ?_⟩
  · rw [hnil] at hend
    exact hlast (List.getLast?_eq_none_iff.mp hend.symm)
  · rw [hend] at hslash
    exact hsep (List.mem_of_getLast? hslash)

/-! ## Names -/

theorem ne_nil_of_not_blank {piece : List Char} (h : isBlank piece = false) : piece ≠ [] := by
  rintro rfl
  cases h

/-- A text that can stand between two separators of a path and be a component there. -/
structure IsName (name : String) : Prop where
  no_separator : '/' ∉ name.toList
  not_blank : isBlank name.toList = false

theorem isName_of_mem_names {pieces : List (List Char)} (h : ∀ piece ∈ pieces, '/' ∉ piece)
    {name : String} (hname : name ∈ names pieces) : IsName name := by
  obtain ⟨piece, hpiece, rfl⟩ := List.mem_map.mp hname
  obtain ⟨hin, hblank⟩ := List.mem_filter.mp hpiece
  refine ⟨?_, ?_⟩
  · rw [String.toList_ofList]
    exact h piece hin
  · rw [String.toList_ofList]
    rw [Bool.not_eq_true'] at hblank
    exact hblank

/-- Names are not blank, so all of them are kept. -/
theorem names_map_toList {texts : List String} (h : ∀ text ∈ texts, IsName text) :
    names (texts.map String.toList) = texts := by
  have hkept : (texts.map String.toList).filter (!isBlank ·) = texts.map String.toList := by
    refine List.filter_eq_self.mpr fun piece hpiece => ?_
    obtain ⟨text, htext, rfl⟩ := List.mem_map.mp hpiece
    rw [Bool.not_eq_true']
    exact (h text htext).not_blank
  rw [names, hkept, List.map_map]
  refine (List.map_congr_left fun text _ => ?_).trans (List.map_id texts)
  exact String.ofList_toList

/-! ## Absolute paths -/

theorem isAbsolute_iff {p : Path} : p.isAbsolute = true ↔ ∃ cs, p.chars = '/' :: cs := by
  rw [isAbsolute, beq_iff_eq]
  exact List.head?_eq_some_iff

/-- The components of an absolute path are the names behind its first separator. -/
theorem components_of_absolute {p : Path} {cs : List Char} (h : p.chars = '/' :: cs) :
    p.components = names (splitPieces cs) := by
  have hpieces : p.pieces = [] :: splitPieces cs := by
    rw [pieces, h, splitPieces_separator]
  unfold components
  rw [hpieces]
  rfl

theorem isName_of_mem_components {p : Path} (habs : p.isAbsolute = true) {name : String}
    (h : name ∈ p.components) : IsName name := by
  obtain ⟨cs, hcs⟩ := isAbsolute_iff.mp habs
  rw [components_of_absolute hcs] at h
  exact isName_of_mem_names (fun _ hpiece => no_separator_of_mem_splitPieces hpiece) h

/-- The absolute path with the given names as its components. -/
def ofNames (texts : List String) : Path := ofChars ('/' :: joinPieces (texts.map String.toList))

theorem chars_ofNames (texts : List String) :
    (ofNames texts).chars = '/' :: joinPieces (texts.map String.toList) := chars_ofChars _

theorem isAbsolute_ofNames (texts : List String) : (ofNames texts).isAbsolute = true :=
  isAbsolute_iff.mpr ⟨_, chars_ofNames texts⟩

/-- **Every list of names is what the components of some absolute path are.** -/
theorem components_ofNames {texts : List String} (h : ∀ text ∈ texts, IsName text) :
    (ofNames texts).components = texts := by
  rw [components_of_absolute (chars_ofNames texts)]
  cases texts with
  | nil => rfl
  | cons first rest =>
    have hsplit : splitPieces (joinPieces ((first :: rest).map String.toList)) =
        (first :: rest).map String.toList := by
      refine splitPieces_joinPieces (List.cons_ne_nil _ _) fun piece hpiece => ?_
      obtain ⟨text, htext, rfl⟩ := List.mem_map.mp hpiece
      exact (h text htext).no_separator
    rw [hsplit, names_map_toList h]

theorem IsName.ne_nil {name : String} (h : IsName name) : name.toList ≠ [] :=
  ne_nil_of_not_blank h.not_blank

/-- **A name that is joined to a path of names comes behind them.** -/
theorem join_ofNames {texts : List String} {name : String} (h : ∀ text ∈ texts, IsName text) :
    (ofNames texts).join ⟨name⟩ = ofNames (texts ++ [name]) := by
  have hchars : (⟨name⟩ : Path).chars = name.toList := rfl
  have htexts : (texts ++ [name]).map String.toList =
      texts.map String.toList ++ [name.toList] := by simp
  rw [join, chars_ofNames, hchars]
  by_cases hnil : texts = []
  · subst hnil
    rfl
  · have hne : texts.map String.toList ≠ [] := by simpa using hnil
    obtain ⟨hjoined, hend⟩ := getLast?_joinPieces_ne hne fun piece hpiece => by
      obtain ⟨text, htext, rfl⟩ := List.mem_map.mp hpiece
      exact ⟨(h text htext).no_separator, (h text htext).ne_nil⟩
    have hlast : ('/' :: joinPieces (texts.map String.toList)).getLast? ≠ some '/' := by
      rw [List.getLast?_cons, List.getLast?_eq_some_getLast hjoined]
      rw [List.getLast?_eq_some_getLast hjoined] at hend
      simpa using hend
    rw [if_neg (by simpa using hlast), ofNames, htexts, joinPieces_concat hne]
    rfl

/-! ## What lies above a path -/

/-- The absolute path `a` is `p` itself or a directory above it, but not the root. -/
structure OnWayTo (a p : Path) : Prop where
  left_absolute : a.isAbsolute = true
  right_absolute : p.isAbsolute = true
  not_root : a.components ≠ []
  start : a.components <+: p.components

/-- The starts of the components of an absolute path belong to paths on the way to it. -/
theorem onWayTo_ofNames {p : Path} {front : List String} (habs : p.isAbsolute = true)
    (hne : front ≠ []) (hfront : front <+: p.components) :
    (ofNames front).OnWayTo p ∧ (ofNames front).components = front := by
  have hcomponents : (ofNames front).components = front :=
    components_ofNames fun name hname => isName_of_mem_components habs (hfront.subset hname)
  refine ⟨⟨isAbsolute_ofNames front, habs, ?_, ?_⟩, hcomponents⟩
  · rw [hcomponents]
    exact hne
  · rw [hcomponents]
    exact hfront

theorem OnWayTo.climbs {a p : Path} (h : a.OnWayTo p) (hp : p.climbs = false) :
    a.climbs = false := by
  unfold Path.climbs at hp ⊢
  rw [List.contains_eq_mem, decide_eq_false_iff_not] at hp ⊢
  exact fun hmem => hp (h.start.subset hmem)

end BackendSync.Path
