import Mathlib.Data.Finset.Card
import Mathlib.Data.Finset.Range
import BackendSync.Proofs.NearestWatch

/-!
# The nodes of a trie

A node is added once and stays, so the nodes of a trie only `Grow`: what was below a node
stays below it, and a walk that ended somewhere still ends there. What a walk finds with a
value at its end is the same before and after, for a new node has no value.

In a `WellFormed` trie the path on a node is spelled by the names that lead to it. Two walks
from the root that end at one node are therefore one walk (`eq_of_descend`), which is all
that is ever used of the shape of a trie: a node stands for a path and for no other.
-/

namespace BackendSync.Watch

/-- A name that can be a segment: it does not climb. -/
structure IsSegment (name : String) : Prop where
  isName : Path.IsName name
  not_climb : name ≠ ".."

theorem isSegment_of_mem_segments {p : Path} {names : List String} (h : segments p = .ok names) :
    p.isAbsolute = true ∧ p.climbs = false ∧ p.components = names ∧
      ∀ name ∈ names, IsSegment name := by
  rcases segments_cases p with ⟨habs, hclimbs, hsegments⟩ | ⟨_, e, hsegments⟩
  · obtain rfl := Except.ok.inj (hsegments.symm.trans h)
    refine ⟨habs, hclimbs, rfl, fun name hname => ⟨Path.isName_of_mem_components habs hname, ?_⟩⟩
    rintro rfl
    simp [Path.climbs, hname] at hclimbs
  · rw [hsegments] at h
    cases h

namespace Trie

variable {α : Type} {t t' : Trie α} {n m : Nat} {name a : String} {names : List String} {p : Path}

/-! ## One more node -/

theorem node?_addChild (t : Trie α) (n : Nat) (name : String) (m : Nat) :
    (t.addChild n name).node? m =
      if m = t.size then some ⟨((t.path? n).getD Path.root).join ⟨name⟩, ∅, none⟩
      else if n = m then
        (t.node? m).map fun node => { node with children := node.children.insert name t.size }
      else t.node? m := by
  simp only [addChild, node?, size, Array.getElem?_push, Array.getElem?_modify, Array.size_modify]
  rfl

theorem node?_setValue (t : Trie α) (n : Nat) (value : Option α) (m : Nat) :
    (t.setValue n value).node? m =
      if n = m then (t.node? m).map fun node => { node with value } else t.node? m := by
  simp only [setValue, node?, Array.getElem?_modify]

theorem node?_of_size_le (h : t.size ≤ n) : t.node? n = none := by
  simpa [node?, size] using h

theorem lt_size_of_path? (h : t.path? n = some p) : n < t.size := by
  by_contra hle
  rw [path?, node?_of_size_le (Nat.le_of_not_lt hle)] at h
  cases h

@[simp] theorem size_addChild (t : Trie α) (n : Nat) (name : String) :
    (t.addChild n name).size = t.size + 1 := by
  simp [addChild, size]

@[simp] theorem size_setValue (t : Trie α) (n : Nat) (value : Option α) :
    (t.setValue n value).size = t.size := by
  simp [setValue, size]

theorem path?_addChild (h : t.path? n = some p) (name : String) (m : Nat) :
    (t.addChild n name).path? m = if m = t.size then some (p.join ⟨name⟩) else t.path? m := by
  rw [path?, node?_addChild, h, path?]
  by_cases hm : m = t.size
  · simp [hm]
  · by_cases hn : n = m
    · simp [hm, hn, Function.comp_def]
    · simp [hm, hn]

@[simp] theorem value?_addChild (t : Trie α) (n : Nat) (name : String) (m : Nat) :
    (t.addChild n name).value? m = t.value? m := by
  rw [value?, node?_addChild, value?]
  by_cases hm : m = t.size
  · simp [hm, node?_of_size_le (Nat.le_refl t.size)]
  · by_cases hn : n = m
    · simp [hm, hn, Option.bind_map]
    · simp [hm, hn]

theorem child?_addChild (h : n < t.size) (name : String) (m : Nat) (a : String) :
    (t.addChild n name).child? m a =
      if m = n ∧ a = name then some t.size else t.child? m a := by
  rw [child?, node?_addChild, child?]
  by_cases hm : m = t.size
  · simp [hm, node?_of_size_le (Nat.le_refl t.size)]
    omega
  · by_cases hn : n = m
    · subst hn
      obtain ⟨node, hnode⟩ : ∃ node, t.node? n = some node :=
        ⟨t.nodes[n], Array.getElem?_eq_getElem h⟩
      have hname : compare name a = .eq ↔ a = name := by
        rw [Std.LawfulEqOrd.compare_eq_iff_eq]
        exact eq_comm
      simp [hm, hnode, Std.TreeMap.getElem?_insert, hname]
    · have hne : m ≠ n := fun heq => hn heq.symm
      simp [hm, hn, hne]

@[simp] theorem path?_setValue (t : Trie α) (n : Nat) (value : Option α) (m : Nat) :
    (t.setValue n value).path? m = t.path? m := by
  rw [path?, node?_setValue, path?]
  by_cases hn : n = m
  · simp [hn, Function.comp_def]
  · simp [hn]

@[simp] theorem child?_setValue (t : Trie α) (n : Nat) (value : Option α) (m : Nat) (a : String) :
    (t.setValue n value).child? m a = t.child? m a := by
  rw [child?, node?_setValue, child?]
  by_cases hn : n = m
  · simp [hn, Option.bind_map]
  · simp [hn]

theorem value?_setValue (h : t.path? n = some p) (value : Option α) (m : Nat) :
    (t.setValue n value).value? m = if n = m then value else t.value? m := by
  obtain ⟨node, hnode, _⟩ := Option.map_eq_some_iff.mp h
  rw [value?, node?_setValue, value?]
  by_cases hn : n = m
  · subst hn
    simp [hnode]
  · simp [hn]

/-! ## Walks -/

theorem descend_append (t : Trie α) (n : Nat) (first second : List String) :
    t.descend n (first ++ second) = (t.descend n first).bind fun m => t.descend m second := by
  induction first generalizing n with
  | nil => rfl
  | cons name rest ih =>
    rw [List.cons_append, descend, descend]
    cases t.child? n name with
    | none => rfl
    | some child => exact ih child

@[simp] theorem descend_setValue (t : Trie α) (m : Nat) (value : Option α) (n : Nat)
    (names : List String) : (t.setValue m value).descend n names = t.descend n names := by
  induction names generalizing n with
  | nil => rfl
  | cons name rest ih => simp [descend, ih]

@[simp] theorem find?_setValue (t : Trie α) (n : Nat) (value : Option α) (p : Path) :
    (t.setValue n value).find? p = t.find? p := by
  simp [find?]

/-- A walk in a trie with one more node ends as before, or at that node. -/
theorem descend_addChild (h : n < t.size) (habsent : t.child? n name = none) (m : Nat)
    (names : List String) :
    (t.addChild n name).descend m names = t.descend m names ∨
      (t.descend m names = none ∧ (t.addChild n name).descend m names = some t.size) := by
  induction names generalizing m with
  | nil => exact Or.inl rfl
  | cons a rest ih =>
    rw [descend, descend, child?_addChild h]
    by_cases hnew : m = n ∧ a = name
    · obtain ⟨rfl, rfl⟩ := hnew
      simp only [habsent, and_self, if_true, Option.bind_some, Option.bind_none]
      -- nothing is below the new node
      cases rest with
      | nil => exact Or.inr ⟨trivial, rfl⟩
      | cons b rest =>
        have hnone : t.child? t.size b = none := by
          rw [child?, node?_of_size_le (Nat.le_refl t.size)]
          rfl
        have hne : t.size ≠ m := by omega
        refine Or.inl ?_
        rw [descend, child?_addChild h]
        simp [hne, hnone]
    · simp only [hnew, if_false]
      cases t.child? m a with
      | none => exact Or.inl rfl
      | some child => exact ih child

/-! ## Growing -/

/-- What adding nodes to a trie leaves as it was. -/
structure Grows (t t' : Trie α) : Prop where
  path : ∀ n p, t.path? n = some p → t'.path? n = some p
  descend : ∀ n names m, t.descend n names = some m → t'.descend n names = some m
  value : ∀ n, t'.value? n = t.value? n
  /-- No walk ends at another value than before. -/
  along : ∀ n names, t'.valueAlong? n names = t.valueAlong? n names

theorem Grows.refl (t : Trie α) : Grows t t :=
  ⟨fun _ _ h => h, fun _ _ _ h => h, fun _ => rfl, fun _ _ => rfl⟩

theorem Grows.trans {t'' : Trie α} (h : Grows t t') (h' : Grows t' t'') : Grows t t'' where
  path n p hp := h'.path n p (h.path n p hp)
  descend n names m hm := h'.descend n names m (h.descend n names m hm)
  value n := (h'.value n).trans (h.value n)
  along n names := (h'.along n names).trans (h.along n names)

theorem Grows.find? (h : Grows t t') (hp : t.find? p = some n) : t'.find? p = some n := by
  unfold Trie.find? at hp ⊢
  cases hsegments : segments p with
  | error e => rw [hsegments] at hp; cases hp
  | ok names =>
    rw [hsegments] at hp
    exact h.descend 0 names n hp

theorem grows_addChild (h : t.path? n = some p) (habsent : t.child? n name = none) :
    Grows t (t.addChild n name) := by
  have hlt := lt_size_of_path? h
  refine ⟨?_, ?_, fun m => value?_addChild t n name m, ?_⟩
  · intro m q hm
    have hne : m ≠ t.size := by have := lt_size_of_path? hm; omega
    rw [path?_addChild h, if_neg hne, hm]
  · intro k names m hm
    rcases descend_addChild hlt habsent k names with heq | ⟨hnone, _⟩
    · rw [heq, hm]
    · rw [hnone] at hm
      cases hm
  · intro k names
    rw [valueAlong?, valueAlong?]
    rcases descend_addChild hlt habsent k names with heq | ⟨hnone, hnew⟩
    · simp [heq]
    · have hvalue : t.value? t.size = none := by
        rw [value?, node?_of_size_le (Nat.le_refl t.size)]
        rfl
      simp [hnone, hnew, hvalue]

/-! ## Paths of nodes -/

/-- Every node has the path that leads to it. -/
structure WellFormed (t : Trie α) : Prop where
  root : t.path? 0 = some Path.root
  /-- A node is written down behind the one above it, and its path is longer by one name. -/
  child : ∀ n name m, t.child? n name = some m →
    IsSegment name ∧ n < m ∧ ∃ p, t.path? n = some p ∧ t.path? m = some (p.join ⟨name⟩)
  /-- Every node but the root is below another. -/
  linked : ∀ m, 0 < m → m < t.size → ∃ n name, t.child? n name = some m

theorem wellFormed_empty : (empty : Trie α).WellFormed := by
  refine ⟨rfl, ?_, ?_⟩
  · intro n name m h
    cases n with
    | zero => simp [child?, node?, empty] at h
    | succ n => simp [child?, node?, empty] at h
  · intro m hpos hm
    simp [size, empty] at hm
    omega

theorem WellFormed.setValue (h : t.WellFormed) (n : Nat) (value : Option α) :
    (t.setValue n value).WellFormed := by
  refine ⟨?_, ?_, ?_⟩
  · simpa using h.root
  · simpa using h.child
  · simpa using h.linked

theorem WellFormed.addChild (h : t.WellFormed) (hn : t.path? n = some p)
    (habsent : t.child? n name = none) (hname : IsSegment name) :
    (t.addChild n name).WellFormed := by
  have hlt := lt_size_of_path? hn
  have hgrows := grows_addChild hn habsent
  refine ⟨hgrows.path 0 _ h.root, ?_, ?_⟩
  · intro k a m hm
    rw [child?_addChild hlt] at hm
    by_cases hnew : k = n ∧ a = name
    · obtain ⟨rfl, rfl⟩ := hnew
      simp at hm
      subst hm
      refine ⟨hname, hlt, p, hgrows.path k p hn, ?_⟩
      rw [path?_addChild hn, if_pos rfl]
    · rw [if_neg hnew] at hm
      obtain ⟨hsegment, hkm, q, hk, hq⟩ := h.child k a m hm
      exact ⟨hsegment, hkm, q, hgrows.path k q hk, hgrows.path m _ hq⟩
  · intro m hpos hm
    rw [size_addChild] at hm
    by_cases hnew : m = t.size
    · refine ⟨n, name, ?_⟩
      rw [child?_addChild hlt, if_pos ⟨rfl, rfl⟩, hnew]
    · obtain ⟨k, a, hk⟩ := h.linked m hpos (by omega)
      have hother : ¬(k = n ∧ a = name) := by
        rintro ⟨rfl, rfl⟩
        rw [habsent] at hk
        cases hk
      exact ⟨k, a, by rw [child?_addChild hlt, if_neg hother, hk]⟩

/-- **The path on a node is spelled by the names that lead to it.** -/
theorem WellFormed.path?_of_descend (h : t.WellFormed) {front : List String}
    (hfront : ∀ name ∈ front, IsSegment name) (hn : t.path? n = some (Path.ofNames front))
    (hm : t.descend n names = some m) :
    (∀ name ∈ names, IsSegment name) ∧ t.path? m = some (Path.ofNames (front ++ names)) := by
  induction names generalizing n front with
  | nil =>
    obtain rfl := Option.some.inj hm
    simpa using hn
  | cons name rest ih =>
    obtain ⟨child, hchild, hrest⟩ := Option.bind_eq_some_iff.mp hm
    obtain ⟨hname, _, p, hp, hpath⟩ := h.child n name child hchild
    obtain rfl := Option.some.inj (hp.symm.trans hn)
    rw [Path.join_ofNames fun text htext => (hfront text htext).isName] at hpath
    have hlonger : ∀ a ∈ front ++ [name], IsSegment a := by
      intro a ha
      rcases List.mem_append.mp ha with ha | ha
      · exact hfront a ha
      · rw [List.mem_singleton.mp ha]
        exact hname
    obtain ⟨hsegments, hpathm⟩ := ih hlonger hpath hrest
    refine ⟨?_, by simpa using hpathm⟩
    intro a ha
    rcases List.mem_cons.mp ha with rfl | ha
    · exact hname
    · exact hsegments a ha

theorem WellFormed.path?_of_reached (h : t.WellFormed) (hm : t.descend 0 names = some m) :
    (∀ name ∈ names, IsSegment name) ∧ t.path? m = some (Path.ofNames names) := by
  have hnone : ∀ name ∈ ([] : List String), IsSegment name := by simp
  exact h.path?_of_descend hnone h.root hm

/-- **Two walks from the root that end at one node are the same walk.** -/
theorem WellFormed.eq_of_descend (h : t.WellFormed) {names' : List String}
    (hm : t.descend 0 names = some m) (hm' : t.descend 0 names' = some m) : names = names' := by
  obtain ⟨hnames, hpath⟩ := h.path?_of_reached hm
  obtain ⟨hnames', hpath'⟩ := h.path?_of_reached hm'
  have hsame := Option.some.inj (hpath.symm.trans hpath')
  rw [← Path.components_ofNames fun name hname => (hnames name hname).isName, hsame,
    Path.components_ofNames fun name hname => (hnames' name hname).isName]

theorem find?_eq_some_iff :
    t.find? p = some n ↔
      p.isAbsolute = true ∧ p.climbs = false ∧ t.descend 0 p.components = some n := by
  unfold find?
  rcases segments_cases p with ⟨habs, hclimbs, hsegments⟩ | ⟨hneither, e, hsegments⟩
  · simp [hsegments, habs, hclimbs]
  · rcases hneither with hrelative | hclimbs
    · simp [hsegments, hrelative]
    · simp [hsegments, hclimbs]

theorem WellFormed.equiv_of_find? (h : t.WellFormed) {q : Path} (hp : t.find? p = some n)
    (hq : t.find? q = some n) : p ≈ q := by
  obtain ⟨habs, _, hdescend⟩ := find?_eq_some_iff.mp hp
  obtain ⟨habs', _, hdescend'⟩ := find?_eq_some_iff.mp hq
  exact ⟨habs.trans habs'.symm, h.eq_of_descend hdescend hdescend'⟩

/-! ## Inserting -/

/-- Nothing is added on a way that is there. -/
theorem extend_of_descend (h : t.descend n names = some m) : t.extend n names = (m, t) := by
  induction names generalizing n with
  | nil =>
    obtain rfl := Option.some.inj h
    rfl
  | cons name rest ih =>
    obtain ⟨child, hchild, hrest⟩ := Option.bind_eq_some_iff.mp h
    rw [extend, hchild]
    exact ih hrest

/-- What is missing on a way is added, and nothing else changes. -/
theorem WellFormed.extend (h : t.WellFormed) (hn : t.path? n = some p)
    (hnames : ∀ name ∈ names, IsSegment name) :
    (t.extend n names).2.WellFormed ∧ Grows t (t.extend n names).2 ∧
      (t.extend n names).2.descend n names = some (t.extend n names).1 := by
  induction names generalizing t n p with
  | nil => exact ⟨h, Grows.refl t, rfl⟩
  | cons name rest ih =>
    have hrest : ∀ a ∈ rest, IsSegment a := fun a ha => hnames a (List.mem_cons_of_mem name ha)
    rw [Trie.extend]
    cases hchild : t.child? n name with
    | some child =>
      obtain ⟨_, _, q, _, hq⟩ := h.child n name child hchild
      obtain ⟨hshape, hgrows, hdescend⟩ := ih h hq hrest
      refine ⟨hshape, hgrows, ?_⟩
      have hfirst : t.descend n [name] = some child := by rw [Trie.descend, hchild]; rfl
      rw [← List.singleton_append, descend_append, hgrows.descend n [name] child hfirst]
      exact hdescend
    | none =>
      have hadded := h.addChild hn hchild (hnames name List.mem_cons_self)
      have hpath : (t.addChild n name).path? t.size = some (p.join ⟨name⟩) := by
        rw [path?_addChild hn, if_pos rfl]
      obtain ⟨hshape, hgrows, hdescend⟩ := ih hadded hpath hrest
      refine ⟨hshape, (grows_addChild hn hchild).trans hgrows, ?_⟩
      have hfirst : (t.addChild n name).descend n [name] = some t.size := by
        rw [Trie.descend, child?_addChild (lt_size_of_path? hn), if_pos ⟨rfl, rfl⟩]
        rfl
      rw [← List.singleton_append, descend_append, hgrows.descend n [name] t.size hfirst]
      exact hdescend

/-- **A path is inserted just if it starts at the root and never climbs.** -/
theorem WellFormed.insert_cases (h : t.WellFormed) (p : Path) :
    ((p.isAbsolute = false ∨ p.climbs = true) ∧ ∃ e, t.insert p = (.error e, t)) ∨
    (p.isAbsolute = true ∧ p.climbs = false ∧ ∃ n t', t.insert p = (.ok n, t') ∧
      t'.WellFormed ∧ Grows t t' ∧ t'.find? p = some n) := by
  rcases segments_cases p with ⟨habs, hclimbs, hsegments⟩ | ⟨hneither, e, hsegments⟩
  · refine Or.inr ⟨habs, hclimbs, _, _, by rw [insert, hsegments], ?_⟩
    obtain ⟨hshape, hgrows, hdescend⟩ :=
      h.extend h.root (isSegment_of_mem_segments hsegments).2.2.2
    exact ⟨hshape, hgrows, find?_eq_some_iff.mpr ⟨habs, hclimbs, hdescend⟩⟩
  · exact Or.inl ⟨hneither, e, by rw [insert, hsegments]⟩

theorem insert_of_found (h : t.find? p = some n) : t.insert p = (.ok n, t) := by
  obtain ⟨habs, hclimbs, hdescend⟩ := find?_eq_some_iff.mp h
  rw [insert, segments_of_absolute habs hclimbs]
  dsimp only
  rw [extend_of_descend hdescend]

/-! ## Nodes with a value -/

/-- The nodes with a value on them. -/
def valued (t : Trie α) : Finset Nat := (Finset.range t.size).filter fun n => (t.value? n).isSome

theorem mem_valued : n ∈ t.valued ↔ (t.value? n).isSome = true := by
  simp only [valued, Finset.mem_filter, Finset.mem_range, and_iff_right_iff_imp]
  intro h
  by_contra hle
  rw [value?, node?_of_size_le (Nat.le_of_not_lt hle)] at h
  cases h

theorem Grows.valued (h : Grows t t') : t'.valued = t.valued := by
  ext n
  rw [mem_valued, mem_valued, h.value]

theorem card_valued_setValue_some (h : t.path? n = some p) (hnone : t.value? n = none)
    (value : α) : (t.setValue n (some value)).valued.card = t.valued.card + 1 := by
  have hinsert : (t.setValue n (some value)).valued = Insert.insert n t.valued := by
    ext m
    rw [mem_valued, value?_setValue h, Finset.mem_insert, mem_valued]
    by_cases hm : n = m
    · simp [hm]
    · have hne : m ≠ n := fun heq => hm heq.symm
      simp [hm, hne]
  rw [hinsert, Finset.card_insert_of_notMem]
  simp [mem_valued, hnone]

theorem card_valued_setValue_none (h : t.path? n = some p) (hsome : (t.value? n).isSome = true) :
    (t.setValue n none).valued.card + 1 = t.valued.card := by
  have herase : (t.setValue n none).valued = t.valued.erase n := by
    ext m
    rw [mem_valued, value?_setValue h, Finset.mem_erase, mem_valued]
    by_cases hm : n = m
    · simp [hm]
    · have hne : m ≠ n := fun heq => hm heq.symm
      simp [hm, hne]
  rw [herase, Finset.card_erase_add_one (mem_valued.mpr hsome)]

end Trie

end BackendSync.Watch
