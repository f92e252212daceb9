import Mathlib.Data.Finset.Dedup
import Mathlib.Data.List.Infix
import BackendSync.Proofs.TrieRuns

/-!
# Which paths have nodes

A path has a node if it was inserted, or if a longer path was: the lists of names that lead to
nodes are the starts of those that were inserted, and no others. That is so because an
insertion adds the starts that are missing, one below the other, and never anything beside
them. What is there stays, and a trie `Keeps` it under its number whatever is done later. So
the number of nodes is that of the different starts, and says nothing about the order in which
they came or about what was inserted twice.
-/

namespace BackendSync.Watch.Trie

variable {α : Type} {t t' : Trie α} {n m : Nat} {name : String} {names front : List String}
  {p q : Path} {paths : List Path}

/-! ## What stays -/

/-- The nodes are there still, each with its path and with all that was below it. -/
structure Keeps (t t' : Trie α) : Prop where
  path : ∀ n p, t.path? n = some p → t'.path? n = some p
  child : ∀ n name m, t.child? n name = some m → t'.child? n name = some m

theorem Keeps.refl (t : Trie α) : Keeps t t := ⟨fun _ _ h => h, fun _ _ _ h => h⟩

theorem Keeps.trans {t'' : Trie α} (h : Keeps t t') (h' : Keeps t' t'') : Keeps t t'' where
  path n p hp := h'.path n p (h.path n p hp)
  child n name m hm := h'.child n name m (h.child n name m hm)

theorem Keeps.descend (h : Keeps t t') (hm : t.descend n names = some m) :
    t'.descend n names = some m := by
  induction names generalizing n with
  | nil => exact hm
  | cons name rest ih =>
    obtain ⟨child, hchild, hrest⟩ := Option.bind_eq_some_iff.mp hm
    rw [descend_cons_of_child (h.child n name child hchild)]
    exact ih hrest

theorem Keeps.find? (h : Keeps t t') (hp : t.find? p = some n) : t'.find? p = some n := by
  obtain ⟨habs, hclimbs, hdescend⟩ := find?_eq_some_iff.mp hp
  exact find?_eq_some_iff.mpr ⟨habs, hclimbs, h.descend hdescend⟩

theorem Keeps.size_le (h : Keeps t t') : t.size ≤ t'.size := by
  by_contra hlt
  obtain ⟨p, hp⟩ := exists_path_of_lt (Nat.lt_of_not_le hlt)
  exact Nat.lt_irrefl _ (lt_size_of_path? (h.path _ p hp))

theorem Grows.keeps (h : Grows t t') : Keeps t t' := by
  refine ⟨h.path, fun n name m hm => ?_⟩
  have hwalk := h.descend n [name] m (by rw [descend_cons_of_child hm]; rfl)
  obtain ⟨child, hchild, hend⟩ := Option.bind_eq_some_iff.mp hwalk
  rw [hchild, ← Option.some.inj hend]

theorem keeps_setValue (t : Trie α) (n : Nat) (value : Option α) :
    Keeps t (t.setValue n value) := by
  refine ⟨fun k p hp => ?_, fun k a m hm => ?_⟩
  · rw [path?_setValue, hp]
  · rw [child?_setValue, hm]

/-- **No operation removes a node or gives it another number.** -/
theorem WellFormed.keeps_perform (h : t.WellFormed) (op : Operation α) :
    Keeps t (t.perform op).2 := by
  cases op with
  | insert path =>
    rcases h.perform_insert_cases path with ⟨_, e, heq⟩ | ⟨_, _, n, t', heq, _, hgrows, _⟩
    · rw [heq]
      exact Keeps.refl t
    · rw [heq]
      exact hgrows.keeps
  | set n value => exact keeps_setValue t n (some value)
  | take n => exact keeps_setValue t n none

theorem WellFormed.keeps_run (h : t.WellFormed) (ops : List (Operation α)) :
    Keeps t (t.run ops) := by
  induction ops generalizing t with
  | nil => exact Keeps.refl t
  | cons op rest ih => exact (h.keeps_perform op).trans (ih (h.perform op))

/-! ## Walks that an insertion makes possible -/

/-- One more node makes one more walk possible, the one that ends there. -/
theorem WellFormed.isSome_descend_addChild (h : t.WellFormed) (hfront : t.descend 0 front = some n)
    (habsent : t.child? n name = none) (hname : IsSegment name) (names : List String) :
    ((t.addChild n name).descend 0 names).isSome = true ↔
      (t.descend 0 names).isSome = true ∨ names = front ++ [name] := by
  have hpath := (h.path?_of_reached hfront).2
  have hlt := lt_size_of_path? hpath
  have hnew : (t.addChild n name).descend 0 (front ++ [name]) = some t.size := by
    refine descend_concat ((grows_addChild hpath habsent).descend 0 front n hfront) ?_
    rw [child?_addChild hlt, if_pos ⟨rfl, rfl⟩]
  rcases descend_addChild hlt habsent 0 names with heq | ⟨_, hend⟩
  · rw [← heq]
    refine ⟨Or.inl, fun hor => ?_⟩
    rcases hor with hsome | rfl
    · exact hsome
    · rw [hnew]
      rfl
  · -- a walk that ends at the new node is the one that leads there
    refine iff_of_true (by rw [hend]; rfl) (Or.inr ?_)
    exact (h.addChild hpath habsent hname).eq_of_descend hend hnew

/-- **Adding what is missing on a way makes the starts of that way possible, and no other walk.** -/
theorem WellFormed.isSome_descend_extend (h : t.WellFormed) (hfront : t.descend 0 front = some n)
    (hnames : ∀ name ∈ names, IsSegment name) (walk : List String) :
    ((t.extend n names).2.descend 0 walk).isSome = true ↔
      (t.descend 0 walk).isSome = true ∨ walk <+: front ++ names := by
  induction names generalizing t n front with
  | nil =>
    rw [List.append_nil]
    refine ⟨Or.inl, fun hor => ?_⟩
    rcases hor with hsome | ⟨rest, rfl⟩
    · exact hsome
    · rw [descend_append] at hfront
      obtain ⟨m, hm, _⟩ := Option.bind_eq_some_iff.mp hfront
      rw [Trie.extend, hm]
      rfl
  | cons name rest ih =>
    have hrest : ∀ a ∈ rest, IsSegment a := fun a ha => hnames a (List.mem_cons_of_mem name ha)
    have hsplit : front ++ name :: rest = front ++ [name] ++ rest := by simp
    rw [Trie.extend, hsplit]
    cases hchild : t.child? n name with
    | some child => exact ih h (descend_concat hfront hchild) hrest
    | none =>
      have hname := hnames name List.mem_cons_self
      have hpath := (h.path?_of_reached hfront).2
      have hgrows := grows_addChild hpath hchild
      have hnew : (t.addChild n name).child? n name = some t.size := by
        rw [child?_addChild (lt_size_of_path? hpath), if_pos ⟨rfl, rfl⟩]
      have hlonger := descend_concat (hgrows.descend 0 front n hfront) hnew
      dsimp only
      rw [ih (h.addChild hpath hchild hname) hlonger hrest,
        h.isSome_descend_addChild hfront hchild hname, or_assoc]
      refine or_congr_right (or_iff_right_of_imp fun heq => ?_)
      rw [heq]
      exact List.prefix_append _ _

/-! ## Insertions with success -/

/-- The path that an operation inserts, unless it fails. -/
def inserts? (t : Trie α) : Operation α → Option Path
  | .insert path =>
    match (t.insert path).1 with
    | .ok _ => some path
    | .error _ => none
  | _ => none

/-- The paths that are inserted with success, the oldest first. -/
def inserted (t : Trie α) : List (Operation α) → List Path
  | [] => []
  | op :: rest => (t.inserts? op).toList ++ (t.perform op).2.inserted rest

/-- The lists of names that lead to nodes are the starts of those of the paths. -/
structure Holds (t : Trie α) (paths : List Path) : Prop where
  shape : t.WellFormed
  reached : ∀ names, (t.descend 0 names).isSome = true ↔
    names = [] ∨ ∃ p ∈ paths, names <+: p.components

theorem holds_empty : (empty : Trie α).Holds [] := by
  refine ⟨wellFormed_empty, fun names => ?_⟩
  cases names with
  | nil => simp [descend]
  | cons name rest => simp [descend, child?, node?, empty]

theorem insert_of_absolute (habs : p.isAbsolute = true) (hclimbs : p.climbs = false) (t : Trie α) :
    t.insert p = (.ok (t.extend 0 p.components).1, (t.extend 0 p.components).2) := by
  rw [insert, segments_of_absolute habs hclimbs]

theorem Holds.perform (h : t.Holds paths) (op : Operation α) :
    (t.perform op).2.Holds (paths ++ (t.inserts? op).toList) := by
  refine ⟨h.shape.perform op, ?_⟩
  cases op with
  | insert path =>
    rw [Trie.perform, inserts?]
    rcases segments_cases path with ⟨habs, hclimbs, hsegments⟩ | ⟨_, e, hsegments⟩
    · intro names
      rw [insert_of_absolute habs hclimbs]
      have hroot : t.descend 0 [] = some 0 := rfl
      have hwalks := h.shape.isSome_descend_extend hroot
        (isSegment_of_mem_segments hsegments).2.2.2 names
      dsimp only [Option.toList_some]
      rw [hwalks, h.reached, List.nil_append, or_assoc]
      simp [or_and_right, exists_or]
    · have hinsert : t.insert path = (.error e, t) := by rw [insert, hsegments]
      rw [hinsert]
      simpa using h.reached
  | set n value => simpa [Trie.perform, inserts?] using h.reached
  | take n => simpa [Trie.perform, inserts?] using h.reached

theorem Holds.run (h : t.Holds paths) (ops : List (Operation α)) :
    (t.run ops).Holds (paths ++ t.inserted ops) := by
  induction ops generalizing t paths with
  | nil =>
    rw [inserted, List.append_nil]
    exact h
  | cons op rest ih =>
    rw [inserted, ← List.append_assoc]
    exact ih (h.perform op)

/-! ## Counting -/

/-- The starts of lists, each once, but for the empty one. -/
def starts (lists : List (List String)) : Finset (List String) :=
  (lists.flatMap List.inits).toFinset.erase []

theorem mem_starts_iff {lists : List (List String)} :
    names ∈ starts lists ↔ names ≠ [] ∧ ∃ list ∈ lists, names <+: list := by
  simp [starts]

/-- The walks from the root that lead to nodes if just these paths were inserted. -/
def walks (paths : List Path) : Finset (List String) :=
  Insert.insert [] (starts (paths.map (·.components)))

/-- The node at the end of a walk from the root, if the walk leads to one. -/
def endOf (t : Trie α) (walk : List String) : Nat := (t.descend 0 walk).getD 0

theorem card_walks (paths : List Path) :
    (walks paths).card = (starts (paths.map (·.components))).card + 1 :=
  Finset.card_insert_of_notMem fun hmem => (mem_starts_iff.mp hmem).1 rfl

theorem Holds.mem_walks_iff (h : t.Holds paths) (names : List String) :
    names ∈ walks paths ↔ ∃ n, t.descend 0 names = some n ∧ t.endOf names = n := by
  have hwalk : (∃ n, t.descend 0 names = some n ∧ t.endOf names = n) ↔
      (t.descend 0 names).isSome = true := by
    unfold endOf
    cases t.descend 0 names <;> simp
  rw [hwalk, h.reached, walks, Finset.mem_insert, mem_starts_iff]
  by_cases hnil : names = []
  · simp [hnil]
  · simp [hnil]

/-- Every node is at the end of one of the walks. -/
theorem Holds.image_endOf (h : t.Holds paths) :
    (walks paths).image t.endOf = Finset.range t.size := by
  ext n
  rw [Finset.mem_image, Finset.mem_range]
  constructor
  · intro hend
    obtain ⟨names, hmem, hn⟩ := hend
    obtain ⟨m, hm, hend⟩ := (h.mem_walks_iff names).mp hmem
    rw [← hn, hend]
    exact lt_size_of_path? (h.shape.path?_of_reached hm).2
  · intro hn
    obtain ⟨names, hnames⟩ := h.shape.exists_descend hn
    have hend : t.endOf names = n := by rw [endOf, hnames, Option.getD_some]
    exact ⟨names, (h.mem_walks_iff names).mpr ⟨n, hnames, hend⟩, hend⟩

/-- No two walks end at one node. -/
theorem Holds.injOn_endOf (h : t.Holds paths) : Set.InjOn t.endOf (walks paths) := by
  intro first hfirst second hsecond heq
  obtain ⟨m, hm, hend⟩ := (h.mem_walks_iff first).mp hfirst
  obtain ⟨m', hm', hend'⟩ := (h.mem_walks_iff second).mp hsecond
  rw [hend, hend'] at heq
  subst heq
  exact h.shape.eq_of_descend hm hm'

/-- **There is one node for each start of a path, and the root.** -/
theorem Holds.size_eq (h : t.Holds paths) :
    t.size = (starts (paths.map (·.components))).card + 1 := by
  rw [← card_walks, ← Finset.card_image_of_injOn h.injOn_endOf, h.image_endOf, Finset.card_range]

/-! ## Inserting and finding -/

theorem climbs_of_components_nil (h : q.components = []) : q.climbs = false := by
  rw [Path.climbs, h]
  rfl

theorem Holds.isSome_find?_iff (h : t.Holds paths) (q : Path) :
    (t.find? q).isSome = true ↔ q.isAbsolute = true ∧ q.climbs = false ∧
      (q.components = [] ∨ ∃ p ∈ paths, q.components <+: p.components) := by
  rw [← h.reached, Option.isSome_iff_exists, Option.isSome_iff_exists]
  simp only [find?_eq_some_iff, exists_and_left]

/-- Paths are found at one node if they have the same names. -/
theorem WellFormed.node_eq_iff (h : t.WellFormed) (hp : t.find? p = some n)
    (hq : t.find? q = some m) : n = m ↔ p.components = q.components := by
  have hp := (find?_eq_some_iff.mp hp).2.2
  have hq := (find?_eq_some_iff.mp hq).2.2
  refine ⟨fun heq => ?_, fun heq => ?_⟩
  · subst heq
    exact h.eq_of_descend hp hq
  · rw [heq, hq] at hp
    exact (Option.some.inj hp).symm

/-- **An insertion succeeds just if the path starts at the root and never climbs.** -/
theorem WellFormed.accepts_iff (h : t.WellFormed) (p : Path) :
    (∃ n, (t.perform (.insert p)).1 = .node (.ok n)) ↔ p.isAbsolute = true ∧ p.climbs = false := by
  rcases h.perform_insert_cases p with ⟨hneither, e, heq⟩ | ⟨habs, hclimbs, n, t', heq, _⟩
  · rw [heq]
    refine iff_of_false (fun hok => ?_) (fun hboth => ?_)
    · obtain ⟨n, hn⟩ := hok
      cases hn
    · rcases hneither with hrelative | hclimbs
      · cases hboth.1.symm.trans hrelative
      · cases hboth.2.symm.trans hclimbs
  · rw [heq]
    exact iff_of_true ⟨n, rfl⟩ ⟨habs, hclimbs⟩

theorem WellFormed.find?_of_accepted (h : t.WellFormed)
    (hok : (t.perform (.insert p)).1 = .node (.ok n)) :
    (t.perform (.insert p)).2.find? p = some n := by
  rcases h.perform_insert_cases p with ⟨_, e, heq⟩ | ⟨_, _, m, t', heq, _, _, hfound⟩
  · rw [heq] at hok
    cases hok
  · rw [heq] at hok ⊢
    cases hok
    exact hfound

theorem WellFormed.eq_of_refused (h : t.WellFormed) {e : Error}
    (herror : (t.perform (.insert p)).1 = .node (.error e)) : (t.perform (.insert p)).2 = t := by
  rcases h.perform_insert_cases p with ⟨_, e', heq⟩ | ⟨_, _, n, t', heq, _⟩
  · rw [heq]
  · rw [heq] at herror
    cases herror

/-- A trie has nodes for the starts of the paths, and keeps them. -/
structure NodesOf (t : Trie α) (paths : List Path) : Prop where
  /-- A path is found if it could have been inserted and is a start of one that was. -/
  found : ∀ q, (t.find? q).isSome = true ↔ q.isAbsolute = true ∧ q.climbs = false ∧
    (q.components = [] ∨ ∃ p ∈ paths, q.components <+: p.components)
  root : ∀ q, q.isAbsolute = true → q.components = [] → t.find? q = some 0
  same : ∀ p q n m, t.find? p = some n → t.find? q = some m →
    (n = m ↔ p.components = q.components)
  accepted : ∀ p, (∃ n, (t.perform (.insert p)).1 = .node (.ok n)) ↔
    p.isAbsolute = true ∧ p.climbs = false
  /-- A path is found at the node that its insertion answered, whatever is done afterwards. -/
  stays : ∀ p n, (t.perform (.insert p)).1 = .node (.ok n) →
    ∀ later, ((t.perform (.insert p)).2.run later).find? p = some n
  refused : ∀ p e, (t.perform (.insert p)).1 = .node (.error e) → (t.perform (.insert p)).2 = t
  /-- To insert a path that is found changes nothing. -/
  idle : ∀ p n, t.find? p = some n → t.perform (.insert p) = (.node (.ok n), t)
  /-- Nodes are not removed, and they keep their numbers. -/
  kept : ∀ later, t.Keeps (t.run later) ∧ t.size ≤ (t.run later).size
  numbers : ∀ later q n, t.find? q = some n → (t.run later).find? q = some n
  /-- Besides the root there are as many nodes as the paths have different starts. -/
  size : t.size = 1 + (starts (paths.map (·.components))).card

theorem Holds.nodesOf (h : t.Holds paths) : t.NodesOf paths := by
  refine ⟨h.isSome_find?_iff, ?_, fun p q n m hp hq => h.shape.node_eq_iff hp hq,
    h.shape.accepts_iff, ?_, fun p e herror => h.shape.eq_of_refused herror, ?_, ?_, ?_, ?_⟩
  · intro q habs hnil
    exact find?_eq_some_iff.mpr ⟨habs, climbs_of_components_nil hnil, by rw [hnil]; rfl⟩
  · intro p n hok later
    have hkept := (h.shape.perform (.insert p)).keeps_run later
    exact hkept.find? (h.shape.find?_of_accepted hok)
  · intro p n hfound
    rw [Trie.perform, insert_of_found hfound]
  · intro later
    exact ⟨h.shape.keeps_run later, (h.shape.keeps_run later).size_le⟩
  · intro later q n hfound
    exact (h.shape.keeps_run later).find? hfound
  · rw [h.size_eq, Nat.add_comm]

/--
**A trie has a node for each start of a path that was inserted, for good.** However paths were
inserted, with or without success, and values put on nodes and taken off, just the starts of
the paths that were inserted with success are found, each at a node of its own, and at the
same one from then on.
-/
theorem run_nodesOf (ops : List (Operation α)) :
    ((empty : Trie α).run ops).NodesOf ((empty : Trie α).inserted ops) :=
  (holds_empty.run ops).nodesOf

end BackendSync.Watch.Trie
