import BackendSync.Proofs.ByteOrder
import BackendSync.Proofs.TrieNodes

/-!
# Runs of a trie

A trie is inserted into again and again, some of the insertions fail, and values are put on
its nodes and taken off. Whatever was done, its nodes are those of one tree: each but the root
is below one other, under one name, and the names on the way to a node spell the path that is
written on it. So looking up the path of a node leads back to that node.

The nodes are added in two writes, and between them a node is there that nothing leads to.
`WellFormed` holds before and after, never in between, and all that is said here follows from
it and from the names below a node being kept in order.
-/

namespace BackendSync.Watch.Trie

/-- What can be done to a trie. -/
inductive Operation (α : Type) where
  | insert (path : Path)
  | set (node : Nat) (value : α)
  | take (node : Nat)

/-- What an operation answers: the node of a path, or the value that was on a node. -/
inductive Answer (α : Type) where
  | node (result : Except Error Nat)
  | value (before : Option α)

variable {α : Type} {t : Trie α} {n m : Nat} {name : String} {names : List String} {p : Path}

/-- What an operation answers, and the trie after it. -/
def perform (t : Trie α) : Operation α → Answer α × Trie α
  | .insert path =>
    let (result, t') := t.insert path
    (.node result, t')
  | .set n value => (.value (t.value? n), t.setValue n (some value))
  | .take n => (.value (t.value? n), t.setValue n none)

/-- The trie after a list of operations. -/
def run (t : Trie α) (ops : List (Operation α)) : Trie α :=
  ops.foldl (fun t op => (t.perform op).2) t

/-! ## Names below a node -/

theorem mem_childNames_iff : name ∈ t.childNames n ↔ ∃ m, t.child? n name = some m := by
  rw [← Option.isSome_iff_exists, childNames, child?]
  cases t.node? n with
  | none => simp
  | some node => simp [Std.TreeMap.mem_keys]

theorem pairwise_keys (children : Std.TreeMap String Nat) :
    children.keys.Pairwise (· < ·) := by
  refine Std.TreeMap.ordered_keys.imp fun {a b} hab => ?_
  exact compareOfLessAndEq_eq_lt.mp hab

theorem pairwise_childNames (t : Trie α) (n : Nat) : (t.childNames n).Pairwise (· < ·) := by
  unfold childNames
  cases t.node? n with
  | none => exact .nil
  | some node => exact pairwise_keys node.children

theorem lt_size_of_child? (h : t.child? n name = some m) : n < t.size := by
  by_contra hle
  rw [child?, node?_of_size_le (Nat.le_of_not_lt hle)] at h
  cases h

/-! ## One tree -/

theorem descend_concat (hn : t.descend 0 names = some n) (hm : t.child? n name = some m) :
    t.descend 0 (names ++ [name]) = some m := by
  rw [descend_append, hn, Option.bind_some, descend, hm]
  rfl

/-- **Every node is reached from the root**, by way of the one above it. -/
theorem WellFormed.exists_descend (h : t.WellFormed) (hn : n < t.size) :
    ∃ names, t.descend 0 names = some n := by
  induction n using Nat.strongRecOn with
  | ind n ih =>
    rcases Nat.eq_zero_or_pos n with rfl | hpos
    · exact ⟨[], rfl⟩
    · obtain ⟨parent, name, hchild⟩ := h.linked n hpos hn
      obtain ⟨_, hlt, _⟩ := h.child parent name n hchild
      obtain ⟨names, hnames⟩ := ih parent hlt (Nat.lt_trans hlt hn)
      exact ⟨names ++ [name], descend_concat hnames hchild⟩

/-- **A node is below one other only, and under one name.** -/
theorem WellFormed.parent_unique (h : t.WellFormed) {n' : Nat} {name' : String}
    (hm : t.child? n name = some m) (hm' : t.child? n' name' = some m) : n' = n ∧ name' = name := by
  obtain ⟨front, hfront⟩ := h.exists_descend (lt_size_of_child? hm)
  obtain ⟨front', hfront'⟩ := h.exists_descend (lt_size_of_child? hm')
  -- the walks through both of them are the same
  have hsame := h.eq_of_descend (descend_concat hfront' hm') (descend_concat hfront hm)
  obtain ⟨rfl, hname⟩ := List.append_inj' hsame rfl
  exact ⟨Option.some.inj (hfront'.symm.trans hfront), List.singleton_inj.mp hname⟩

/-- The path of a node is absolute and does not climb, and its names lead to the node. -/
theorem WellFormed.descend_path (h : t.WellFormed) (hp : t.path? n = some p) :
    p.isAbsolute = true ∧ p.climbs = false ∧ t.descend 0 p.components = some n := by
  obtain ⟨names, hnames⟩ := h.exists_descend (lt_size_of_path? hp)
  obtain ⟨hsegments, hpath⟩ := h.path?_of_reached hnames
  obtain rfl := Option.some.inj (hp.symm.trans hpath)
  have hcomponents : (Path.ofNames names).components = names :=
    Path.components_ofNames fun name hname => (hsegments name hname).isName
  refine ⟨Path.isAbsolute_ofNames names, ?_, by rw [hcomponents, hnames]⟩
  rw [Path.climbs, hcomponents, List.contains_eq_mem, decide_eq_false_iff_not]
  exact fun hclimb => (hsegments ".." hclimb).not_climb rfl

/-- **The path of a node is found at that node.** -/
theorem WellFormed.find?_path (h : t.WellFormed) (hp : t.path? n = some p) : t.find? p = some n :=
  find?_eq_some_iff.mpr (h.descend_path hp)

theorem exists_path_of_lt (hn : n < t.size) : ∃ p, t.path? n = some p := by
  have hnode : n < t.nodes.size := hn
  rw [path?, node?, Array.getElem?_eq_getElem hnode]
  exact ⟨_, rfl⟩

/-- The nodes are those of one tree. -/
structure IsTree (t : Trie α) : Prop where
  /-- Node 0 is the root directory. -/
  root : t.path? 0 = some Path.root
  /-- Every other node is below one node, under one name. It has a larger number, and its path
  is that of the node above it, joined with the name. -/
  parent : ∀ m, 0 < m → m < t.size → ∃ n name p, t.child? n name = some m ∧
    n < m ∧ t.path? n = some p ∧ t.path? m = some (p.join ⟨name⟩) ∧
    ∀ n' name', t.child? n' name' = some m → n' = n ∧ name' = name
  /-- Whatever is below a node is a node, and not the root. -/
  range : ∀ n name m, t.child? n name = some m → n < t.size ∧ 0 < m ∧ m < t.size
  /-- The names below a node are listed, each once, in the order of their bytes. -/
  listed : ∀ n name, name ∈ t.childNames n ↔ ∃ m, t.child? n name = some m
  distinct : ∀ n, (t.childNames n).Nodup
  sorted : ∀ n, (t.childNames n).Pairwise fun a b => Text.utf8 a < Text.utf8 b
  reachable : ∀ n, n < t.size → ∃ names, t.descend 0 names = some n
  /-- Every node has a path, and is found by it. -/
  found : ∀ n, n < t.size → ∃ p, t.path? n = some p ∧ t.find? p = some n

theorem WellFormed.isTree (h : t.WellFormed) : t.IsTree := by
  refine ⟨h.root, ?_, ?_, fun n name => mem_childNames_iff, ?_, ?_, ?_, ?_⟩
  · intro m hpos hm
    obtain ⟨n, name, hchild⟩ := h.linked m hpos hm
    obtain ⟨_, hlt, p, hn, hpath⟩ := h.child n name m hchild
    exact ⟨n, name, p, hchild, hlt, hn, hpath, fun n' name' hm' => h.parent_unique hchild hm'⟩
  · intro n name m hchild
    obtain ⟨_, hlt, _, _, hpath⟩ := h.child n name m hchild
    exact ⟨lt_size_of_child? hchild, Nat.zero_lt_of_lt hlt, lt_size_of_path? hpath⟩
  · intro n
    exact (t.pairwise_childNames n).imp fun {a b} hlt => String.ne_of_lt hlt
  · intro n
    exact (t.pairwise_childNames n).imp Text.utf8_lt_utf8
  · intro n hn
    exact h.exists_descend hn
  · intro n hn
    obtain ⟨p, hp⟩ := exists_path_of_lt hn
    exact ⟨p, hp, h.find?_path hp⟩

/-! ## Runs -/

/-- An insertion is refused and changes nothing, or it adds what the path needs. -/
theorem WellFormed.perform_insert_cases (h : t.WellFormed) (p : Path) :
    ((p.isAbsolute = false ∨ p.climbs = true) ∧
      ∃ e, t.perform (.insert p) = (.node (.error e), t)) ∨
    (p.isAbsolute = true ∧ p.climbs = false ∧ ∃ n t', t.perform (.insert p) = (.node (.ok n), t') ∧
      t'.WellFormed ∧ Grows t t' ∧ t'.find? p = some n) := by
  rcases h.insert_cases p with ⟨hneither, e, hinsert⟩ | ⟨habs, hclimbs, n, t', hinsert, hadded⟩
  · exact Or.inl ⟨hneither, e, by rw [Trie.perform, hinsert]⟩
  · exact Or.inr ⟨habs, hclimbs, n, t', by rw [Trie.perform, hinsert], hadded⟩

/-- **Every operation keeps a trie in shape.** -/
theorem WellFormed.perform (h : t.WellFormed) (op : Operation α) : (t.perform op).2.WellFormed := by
  cases op with
  | insert path =>
    rcases h.perform_insert_cases path with ⟨_, e, heq⟩ | ⟨_, _, n, t', heq, hshape, _⟩
    · rw [heq]
      exact h
    · rw [heq]
      exact hshape
  | set n value => exact h.setValue n (some value)
  | take n => exact h.setValue n none

theorem WellFormed.run (h : t.WellFormed) (ops : List (Operation α)) : (t.run ops).WellFormed := by
  induction ops generalizing t with
  | nil => exact h
  | cons op rest ih => exact ih (h.perform op)

/--
**The nodes of a trie are those of one tree.** However paths were inserted, with or without
success, and values put on nodes and taken off, every node but the root is below one other
under one name, its path is spelled by the names that lead to it, and it is found by that path.
-/
theorem run_isTree (ops : List (Operation α)) : ((empty : Trie α).run ops).IsTree :=
  (wellFormed_empty.run ops).isTree

end BackendSync.Watch.Trie
