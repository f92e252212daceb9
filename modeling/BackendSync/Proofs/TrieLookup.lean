import BackendSync.Proofs.TrieRuns

/-!
# Looking up in a trie

The walk of a look-up stops at the first name that is missing and answers the last node with a
value that it came by. What it answers can be said of the nodes alone, without the walk: of all
the nodes whose path is a start of the path that is looked up, it is the one with a value and
the longest path.

The walk sees no node that it does not come to. But it comes to every node on the way, for the
names on the path of a node lead to that node (`WellFormed.descend_path`). And of two nearest
nodes each would be above the other, so there is one at most.
-/

namespace BackendSync.Watch.Trie

variable {α : Type} {t : Trie α} {n m : Nat} {p q a : Path}

/-- Of all nodes that have a value and a path from which `q` goes on, the root apart, `n` is the
one with the longest path, which is `p`. -/
structure NearestNode (t : Trie α) (q : Path) (n : Nat) (p : Path) : Prop where
  absolute : q.isAbsolute = true
  level : q.climbs = false
  valued : (t.value? n).isSome = true
  named : t.path? n = some p
  not_root : p.components ≠ []
  start : p.components <+: q.components
  /-- No node on the way that is further down has a value. -/
  longest : ∀ m a, t.path? m = some a → a.components <+: q.components →
    p.components.length < a.components.length → t.value? m = none

/-- No node below the root that is on the way to `q` has a value. -/
def Bare (t : Trie α) (q : Path) : Prop :=
  ∀ m a, t.path? m = some a → a.components ≠ [] → a.components <+: q.components → t.value? m = none

/-- The walk along the names of a node's path ends at the value of the node. -/
theorem WellFormed.valueAlong?_components (h : t.WellFormed) (ha : t.path? m = some a) :
    t.valueAlong? 0 a.components = t.value? m := by
  rw [valueAlong?, (h.descend_path ha).2.2, Option.bind_some]

/-- Every node on the way that has a value is the nearest one, or above it. -/
theorem NearestNode.above (h : t.NearestNode q n p) (ha : t.path? m = some a)
    (hstart : a.components <+: q.components) (hvalue : (t.value? m).isSome = true) :
    a.components <+: p.components := by
  refine List.prefix_of_prefix_length_le hstart h.start ?_
  by_contra hlonger
  exact Option.isSome_iff_ne_none.mp hvalue (h.longest m a ha hstart (Nat.lt_of_not_le hlonger))

/-- **At most one node is nearest.** Two of them would each be above the other. -/
theorem NearestNode.unique (h : t.NearestNode q n p) (hshape : t.WellFormed)
    (h' : t.NearestNode q m a) : n = m := by
  have habove : p.components <+: a.components := h'.above h.named h.start h.valued
  have hbelow : a.components <+: p.components := h.above h'.named h'.start h'.valued
  have hsame : p.components = a.components :=
    habove.eq_of_length (Nat.le_antisymm habove.length_le hbelow.length_le)
  have hn : t.descend 0 p.components = some n := (hshape.descend_path h.named).2.2
  have hm : t.descend 0 a.components = some m := (hshape.descend_path h'.named).2.2
  rw [hsame] at hn
  exact Option.some.inj (hn.symm.trans hm)

/-- If there is a nearest node, nothing speaks against there being one. -/
theorem NearestNode.covered (h : t.NearestNode q n p) :
    ¬(q.isAbsolute = false ∨ q.climbs = true ∨ t.Bare q) := by
  intro huncovered
  rcases huncovered with hrelative | hclimbs | hbare
  · cases hrelative.symm.trans h.absolute
  · cases hclimbs.symm.trans h.level
  · exact Option.isSome_iff_ne_none.mp h.valued (hbare n p h.named h.not_root h.start)

/-- The longest start that the walk remembers belongs to the nearest node. -/
theorem WellFormed.nearestNode_of_deepest (h : t.WellFormed) (habs : q.isAbsolute = true)
    (hclimbs : q.climbs = false) {front : List String}
    (hdeepest : t.Deepest 0 q.components front m) : t.NearestNode q m (.ofNames front) := by
  obtain ⟨_, hpath⟩ := h.path?_of_reached hdeepest.reached
  have hcomponents : (Path.ofNames front).components = front :=
    (Path.onWayTo_ofNames habs hdeepest.not_nil hdeepest.start).2
  refine ⟨habs, hclimbs, hdeepest.valued, hpath, ?_, ?_, ?_⟩
  · rw [hcomponents]
    exact hdeepest.not_nil
  · rw [hcomponents]
    exact hdeepest.start
  · intro k a ha hstart hlonger
    rw [hcomponents] at hlonger
    rw [← h.valueAlong?_components ha]
    exact hdeepest.longest a.components hstart hlonger

/-- **A look-up finds the nearest node, or there is none.** -/
theorem WellFormed.lookup?_cases (h : t.WellFormed) (q : Path) :
    (t.lookup? q = none ∧ (q.isAbsolute = false ∨ q.climbs = true ∨ t.Bare q)) ∨
    ∃ n p, t.lookup? q = some n ∧ t.NearestNode q n p := by
  rcases segments_cases q with ⟨habs, hclimbs, hsegments⟩ | ⟨hneither, e, hsegments⟩
  · have hlookup : t.lookup? q = t.deepest 0 none q.components := by rw [lookup?, hsegments]
    rcases t.deepest_cases 0 none q.components with ⟨hfound, hnone⟩ | ⟨front, m, hfound, hdeepest⟩
    · refine Or.inl ⟨hlookup.trans hfound, Or.inr (Or.inr fun m a ha hne hstart => ?_)⟩
      rw [← h.valueAlong?_components ha]
      exact hnone a.components hne hstart
    · exact Or.inr ⟨m, _, hlookup.trans hfound, h.nearestNode_of_deepest habs hclimbs hdeepest⟩
  · refine Or.inl ⟨by rw [lookup?, hsegments], ?_⟩
    rcases hneither with hrelative | hclimbs
    · exact Or.inl hrelative
    · exact Or.inr (Or.inl hclimbs)

theorem WellFormed.lookup?_eq_some_iff (h : t.WellFormed) :
    t.lookup? q = some n ↔ ∃ p, t.NearestNode q n p := by
  rcases h.lookup?_cases q with ⟨hnone, huncovered⟩ | ⟨m, a, hsome, hnearest⟩
  · rw [hnone]
    refine iff_of_false (fun hcontra => by cases hcontra) fun hexists => ?_
    obtain ⟨p, hnearest⟩ := hexists
    exact hnearest.covered huncovered
  · refine ⟨fun hlookup => ?_, fun hexists => ?_⟩
    · obtain rfl := Option.some.inj (hsome.symm.trans hlookup)
      exact ⟨a, hnearest⟩
    · obtain ⟨p, hnearest'⟩ := hexists
      rw [hsome, hnearest.unique h hnearest']

theorem WellFormed.lookup?_eq_none_iff (h : t.WellFormed) :
    t.lookup? q = none ↔ q.isAbsolute = false ∨ q.climbs = true ∨ t.Bare q := by
  rcases h.lookup?_cases q with ⟨hnone, huncovered⟩ | ⟨m, a, hsome, hnearest⟩
  · exact iff_of_true hnone huncovered
  · rw [hsome]
    exact iff_of_false (fun hcontra => by cases hcontra) hnearest.covered

/-- Looking up answers the nearest node. -/
structure LooksUpNearest (t : Trie α) : Prop where
  some_iff : ∀ q n, t.lookup? q = some n ↔ ∃ p, t.NearestNode q n p
  none_iff : ∀ q, t.lookup? q = none ↔ q.isAbsolute = false ∨ q.climbs = true ∨ t.Bare q
  /-- The root is not answered, whatever is on it. -/
  not_root : ∀ q, t.lookup? q ≠ some 0
  /-- Nodes without a value hide none: one with a value that is on the way is what is answered,
  or above it. -/
  not_skipped : ∀ q n p m a, t.lookup? q = some n → t.path? n = some p → t.path? m = some a →
    a.components <+: q.components → (t.value? m).isSome = true → a.components <+: p.components

theorem WellFormed.looksUpNearest (h : t.WellFormed) : t.LooksUpNearest := by
  refine ⟨fun q n => h.lookup?_eq_some_iff, fun q => h.lookup?_eq_none_iff, ?_, ?_⟩
  · intro q hlookup
    obtain ⟨p, hnearest⟩ := h.lookup?_eq_some_iff.mp hlookup
    obtain rfl := Option.some.inj (hnearest.named.symm.trans h.root)
    exact hnearest.not_root rfl
  · intro q n p m a hlookup hp ha hstart hvalue
    obtain ⟨p', hnearest⟩ := h.lookup?_eq_some_iff.mp hlookup
    obtain rfl := Option.some.inj (hnearest.named.symm.trans hp)
    exact hnearest.above ha hstart hvalue

/--
**A look-up answers the nearest node with a value.** However the trie came to be, with values
put on any of its nodes and taken off: the node that is looked up has a value, `q` goes on from
its path, and no node with a longer path from which `q` goes on has one. It is never the root.
-/
theorem run_looksUpNearest (ops : List (Operation α)) :
    ((empty : Trie α).run ops).LooksUpNearest :=
  (wellFormed_empty.run ops).looksUpNearest

end BackendSync.Watch.Trie
