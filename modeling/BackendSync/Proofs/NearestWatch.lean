import BackendSync.Watch.Registry
import BackendSync.Proofs.PathNames

/-!
# The nearest watch

A lookup walks down from the root and remembers the last node with a value on it. Said
without the walk: what it returns is the longest start of the path that leads to a node
with a value, the empty start excluded. `deepest_cases` is that statement for a walk from
any node, and by induction on the names still to go.

For a registry the values are watches and the starts are directories, so `Nearest` speaks
of paths only. A path triggers an event just if some watch is on it or above it, whatever
the kind of that watch.
-/

namespace BackendSync.Watch

theorem segments_of_absolute {p : Path} (habs : p.isAbsolute = true) (hclimbs : p.climbs = false) :
    segments p = .ok p.components := by
  rw [segments, habs, hclimbs]
  rfl

/-- A path is cut into segments if it starts at the root and never climbs. -/
theorem segments_cases (p : Path) :
    (p.isAbsolute = true ∧ p.climbs = false ∧ segments p = .ok p.components) ∨
      ((p.isAbsolute = false ∨ p.climbs = true) ∧ ∃ e, segments p = .error e) := by
  cases habs : p.isAbsolute with
  | false => exact Or.inr ⟨Or.inl rfl, .relativePath p, by rw [segments, habs]; rfl⟩
  | true =>
    cases hclimbs : p.climbs with
    | false => exact Or.inl ⟨rfl, rfl, segments_of_absolute habs hclimbs⟩
    | true => exact Or.inr ⟨Or.inr rfl, .notNormalized p, by rw [segments, habs, hclimbs]; rfl⟩

/-! ## Walks -/

namespace Trie

variable {α : Type} {t : Trie α} {n child : Nat} {name : String} {names : List String}

/-- The value at the end of a walk. -/
def valueAlong? (t : Trie α) (n : Nat) (names : List String) : Option α :=
  (t.descend n names).bind t.value?

theorem descend_cons_of_child (h : t.child? n name = some child) (names : List String) :
    t.descend n (name :: names) = t.descend child names := by
  rw [descend, h, Option.bind_some]

theorem valueAlong?_cons_of_child (h : t.child? n name = some child) (names : List String) :
    t.valueAlong? n (name :: names) = t.valueAlong? child names := by
  rw [valueAlong?, descend_cons_of_child h, valueAlong?]

theorem valueAlong?_cons_of_none (h : t.child? n name = none) (names : List String) :
    t.valueAlong? n (name :: names) = none := by
  rw [valueAlong?, descend, h]
  rfl

theorem valueAlong?_nil (t : Trie α) (n : Nat) : t.valueAlong? n [] = t.value? n := rfl

/-- `front` is the longest start of `names` with a value at its end, and `m` is that end. -/
structure Deepest (t : Trie α) (n : Nat) (names front : List String) (m : Nat) : Prop where
  not_nil : front ≠ []
  start : front <+: names
  reached : t.descend n front = some m
  valued : (t.value? m).isSome = true
  longest : ∀ longer, longer <+: names → front.length < longer.length →
    t.valueAlong? n longer = none

/-- Whatever is deepest below a child is deepest below its parent. -/
theorem Deepest.cons {front : List String} {m : Nat} (h : t.Deepest child names front m)
    (hchild : t.child? n name = some child) : t.Deepest n (name :: names) (name :: front) m := by
  refine ⟨List.cons_ne_nil name front, (List.prefix_cons_inj name).mpr h.start, ?_, h.valued, ?_⟩
  · rw [descend_cons_of_child hchild]
    exact h.reached
  · intro longer hlonger hlength
    rcases List.prefix_cons_iff.mp hlonger with hnil | ⟨more, hmore, hstart⟩
    · rw [hnil] at hlength
      cases hlength
    · rw [hmore] at hlength ⊢
      rw [valueAlong?_cons_of_child hchild]
      exact h.longest more hstart (Nat.lt_of_succ_lt_succ hlength)

/-- A child with a value is deepest if no walk from it ends at another. -/
theorem deepest_child (hchild : t.child? n name = some child)
    (hvalue : (t.value? child).isSome = true)
    (hnone : ∀ front, front ≠ [] → front <+: names → t.valueAlong? child front = none) :
    t.Deepest n (name :: names) [name] child := by
  refine ⟨List.cons_ne_nil name [], ⟨names, rfl⟩, ?_, hvalue, ?_⟩
  · rw [descend_cons_of_child hchild]
    rfl
  · intro longer hlonger hlength
    rcases List.prefix_cons_iff.mp hlonger with hnil | ⟨more, hmore, hstart⟩
    · rw [hnil] at hlength
      cases hlength
    · rw [hmore] at hlength ⊢
      rw [valueAlong?_cons_of_child hchild]
      refine hnone more (fun hnil => ?_) hstart
      rw [hnil] at hlength
      exact Nat.lt_irrefl 1 hlength

/--
**A walk remembers the longest start with a value at its end.** If there is none, it still
remembers what it came with.
-/
theorem deepest_cases (t : Trie α) (n : Nat) (found : Option Nat) (names : List String) :
    (t.deepest n found names = found ∧
      ∀ front, front ≠ [] → front <+: names → t.valueAlong? n front = none) ∨
    ∃ front m, t.deepest n found names = some m ∧ t.Deepest n names front m := by
  induction names generalizing n found with
  | nil => exact Or.inl ⟨rfl, fun front hne hfront => absurd (List.prefix_nil.mp hfront) hne⟩
  | cons name rest ih =>
    cases hchild : t.child? n name with
    | none =>
      refine Or.inl ⟨by rw [deepest, hchild], fun front hne hfront => ?_⟩
      rcases List.prefix_cons_iff.mp hfront with hnil | ⟨more, hmore, _⟩
      · exact absurd hnil hne
      · rw [hmore, valueAlong?_cons_of_none hchild]
    | some child =>
      rw [deepest, hchild]
      dsimp only
      rcases ih child (if (t.value? child).isSome then some child else found) with
        ⟨hkept, hnone⟩ | ⟨front, m, hfound, hdeepest⟩
      · -- nothing lies deeper, so all depends on the child itself
        rw [hkept]
        cases hvalue : (t.value? child).isSome with
        | true => exact Or.inr ⟨[name], child, rfl, deepest_child hchild hvalue hnone⟩
        | false =>
          refine Or.inl ⟨rfl, fun front hne hfront => ?_⟩
          rcases List.prefix_cons_iff.mp hfront with hnil | ⟨more, hmore, hstart⟩
          · exact absurd hnil hne
          · rw [hmore, valueAlong?_cons_of_child hchild]
            by_cases hend : more = []
            · rw [hend, valueAlong?_nil]
              exact Option.isNone_iff_eq_none.mp (Option.isSome_eq_false_iff.mp hvalue)
            · exact hnone more hend hstart
      · exact Or.inr ⟨name :: front, m, hfound, hdeepest.cons hchild⟩

theorem find?_of_absolute {p : Path} (habs : p.isAbsolute = true) (hclimbs : p.climbs = false)
    (t : Trie α) : t.find? p = t.descend 0 p.components := by
  rw [find?, segments_of_absolute habs hclimbs]

/-- Equivalent paths have the same node. -/
theorem find?_congr {p q : Path} (h : p ≈ q) (t : Trie α) : t.find? p = t.find? q := by
  have hclimbs : p.climbs = q.climbs := by rw [Path.climbs, h.2, Path.climbs]
  unfold find? segments
  rw [h.1, h.2, hclimbs]
  cases q.isAbsolute with
  | false => rfl
  | true => cases q.climbs <;> rfl

end Trie

/-! ## Watches on the way to a path -/

namespace Registry

variable {r : Registry} {p a : Path}

/-- The kind of the watch on exactly this path. -/
def kindAt? (r : Registry) (p : Path) : Option Kind :=
  ((r.trie.find? p).bind r.trie.value?).map (·.kind)

theorem isWatched_eq (r : Registry) (p : Path) : r.isWatched p = (r.kindAt? p).isSome := by
  rw [isWatched, kindAt?, Option.isSome_map]

/-- Equivalent paths have the same watch. -/
theorem kindAt?_congr (h : p ≈ a) : r.kindAt? p = r.kindAt? a := by
  rw [kindAt?, Trie.find?_congr h, kindAt?]

/-- The watch on `a` is of this kind, and of those on `p` and above it is the nearest to `p`. -/
structure Nearest (r : Registry) (p a : Path) (kind : Kind) : Prop where
  onWay : a.OnWayTo p
  watched : r.kindAt? a = some kind
  longest : ∀ b, b.OnWayTo p → a.components.length < b.components.length → r.kindAt? b = none

/-- The watches on the way to a path, by what the trie has along its components. -/
theorem kindAt?_of_onWayTo (h : a.OnWayTo p) (hclimbs : p.climbs = false) :
    r.kindAt? a = (r.trie.valueAlong? 0 a.components).map (·.kind) := by
  rw [kindAt?, Trie.find?_of_absolute h.left_absolute (h.climbs hclimbs), Trie.valueAlong?]

/-- What is looked up is the node of the nearest watch, and `front` leads to it. -/
structure LooksUp (r : Registry) (p : Path) (front : List String) (m : Nat) (watch : Registration) :
    Prop where
  lookup : r.trie.lookup? p = some m
  reached : r.trie.descend 0 front = some m
  valued : r.trie.value? m = some watch
  components : (Path.ofNames front).components = front
  nearest : r.Nearest p (.ofNames front) watch.kind

/-- A look-up finds nothing, or it finds the nearest watch. -/
theorem lookup_cases (r : Registry) (p : Path) :
    (r.trie.lookup? p = none ∧
      (p.isAbsolute = false ∨ p.climbs = true ∨ ∀ a, a.OnWayTo p → r.kindAt? a = none)) ∨
    (p.isAbsolute = true ∧ p.climbs = false ∧ ∃ front m watch, r.LooksUp p front m watch) := by
  rcases segments_cases p with ⟨habs, hclimbs, hsegments⟩ | ⟨hneither, e, hsegments⟩
  · have hlookup : r.trie.lookup? p = r.trie.deepest 0 none p.components := by
      rw [Trie.lookup?, hsegments]
    rcases r.trie.deepest_cases 0 none p.components with
      ⟨hfound, hnone⟩ | ⟨front, m, hfound, hdeepest⟩
    · refine Or.inl ⟨hlookup.trans hfound, Or.inr (Or.inr fun a ha => ?_)⟩
      rw [kindAt?_of_onWayTo ha hclimbs, hnone _ ha.not_root ha.start]
      rfl
    · -- the start that the walk remembers is that of a path above
      obtain ⟨honWay, hcomponents⟩ := Path.onWayTo_ofNames habs hdeepest.not_nil hdeepest.start
      obtain ⟨watch, hwatch⟩ := Option.isSome_iff_exists.mp hdeepest.valued
      refine Or.inr ⟨habs, hclimbs, front, m, watch, hlookup.trans hfound, hdeepest.reached, hwatch,
        hcomponents, honWay, ?_, ?_⟩
      · rw [kindAt?_of_onWayTo honWay hclimbs, hcomponents, Trie.valueAlong?, hdeepest.reached,
          Option.bind_some, hwatch]
        rfl
      · intro b hb hlength
        rw [hcomponents] at hlength
        rw [kindAt?_of_onWayTo hb hclimbs, hdeepest.longest _ hb.start hlength]
        rfl
  · refine Or.inl ⟨by rw [Trie.lookup?, hsegments], ?_⟩
    rcases hneither with hrelative | hclimbs
    · exact Or.inl hrelative
    · exact Or.inr (Or.inl hclimbs)

theorem find?_of_lookup_none (hlookup : r.trie.lookup? p = none) : r.find? p = none := by
  rw [find?, hlookup]
  rfl

/-- What is looked up is found with the path that is on its node. -/
theorem LooksUp.find? {front : List String} {m : Nat} {watch : Registration}
    (h : r.LooksUp p front m watch) :
    r.find? p = (r.trie.path? m).map fun path => (path, watch.kind) := by
  rw [Registry.find?, h.lookup, Option.bind_eq_bind, Option.bind_some, h.valued]
  cases r.trie.path? m <;> rfl

/--
**A path triggers the nearest watch on it or above it.** If there is none, or the path does
not start at the root or climbs, it triggers nothing.
-/
theorem trigger_cases (r : Registry) (p : Path) :
    (r.trigger p = none ∧
      (p.isAbsolute = false ∨ p.climbs = true ∨ ∀ a, a.OnWayTo p → r.kindAt? a = none)) ∨
    ((r.trigger p).isSome = true ∧ p.isAbsolute = true ∧ p.climbs = false ∧
      ∃ a kind, r.Nearest p a kind) := by
  rcases r.lookup_cases p with
    ⟨hlookup, huncovered⟩ | ⟨habs, hclimbs, front, m, watch, hlooksUp⟩
  · refine Or.inl ⟨?_, huncovered⟩
    rw [trigger, find?_of_lookup_none hlookup]
    rfl
  · obtain ⟨node, hnode, _⟩ := Option.bind_eq_some_iff.mp hlooksUp.valued
    refine Or.inr ⟨?_, habs, hclimbs, _, _, hlooksUp.nearest⟩
    rw [trigger, hlooksUp.find?, Trie.path?, hnode]
    rfl

theorem trigger_eq_none_iff :
    r.trigger p = none ↔
      p.isAbsolute = false ∨ p.climbs = true ∨ ∀ a, a.OnWayTo p → r.isWatched a = false := by
  have hwatched : (∀ a : Path, a.OnWayTo p → r.isWatched a = false) ↔
      ∀ a : Path, a.OnWayTo p → r.kindAt? a = none := by
    refine forall₂_congr fun a _ => ?_
    rw [isWatched_eq, Option.isSome_eq_false_iff, Option.isNone_iff_eq_none]
  rw [hwatched]
  rcases r.trigger_cases p with ⟨hnone, huncovered⟩ | ⟨hsome, habs, hclimbs, a, kind, hnearest⟩
  · exact iff_of_true hnone huncovered
  · refine iff_of_false (fun hnone => ?_) ?_
    · rw [hnone] at hsome
      cases hsome
    · intro huncovered
      rcases huncovered with hrelative | hclimbing | hall
      · rw [habs] at hrelative
        cases hrelative
      · rw [hclimbs] at hclimbing
        cases hclimbing
      · cases (hall a hnearest.onWay).symm.trans hnearest.watched

theorem trigger_isSome_iff :
    (r.trigger p).isSome = true ↔
      p.isAbsolute = true ∧ p.climbs = false ∧ ∃ a kind, r.Nearest p a kind := by
  rcases r.trigger_cases p with ⟨hnone, huncovered⟩ | ⟨hsome, hcovered⟩
  · rw [hnone]
    refine iff_of_false Bool.false_ne_true ?_
    intro hcovered
    obtain ⟨habs, hclimbs, a, kind, hnearest⟩ := hcovered
    rcases huncovered with hrelative | hclimbing | hall
    · cases habs.symm.trans hrelative
    · cases hclimbs.symm.trans hclimbing
    · cases (hall a hnearest.onWay).symm.trans hnearest.watched
  · exact iff_of_true hsome hcovered

end Registry

end BackendSync.Watch
