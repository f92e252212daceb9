import BackendSync.Proofs.TrieNodes

/-!
# Registering and closing watches

What the operations of a registry come to is said here by the watch on each path, and no
longer by nodes. A path that no watch can be on is refused, and the registry is afterwards what
it was: the path is taken apart before the trie is touched, and the one path that gets past
this is the root, which is in every trie. Registering a path that has a watch changes nothing
either; registering one that has none puts a watch there, and closing a watch takes it off, and
no other path sees anything of it. That takes the trie to be well-formed, for else a node could
stand for two paths.
-/

namespace BackendSync.Watch

/-- A path that a watch can be on. -/
structure Watchable (p : Path) : Prop where
  absolute : p.isAbsolute = true
  level : p.climbs = false
  not_root : p.components ≠ []

theorem watchable_iff {p : Path} :
    Watchable p ↔ p.isAbsolute = true ∧ p.climbs = false ∧ p.components ≠ [] :=
  ⟨fun h => ⟨h.absolute, h.level, h.not_root⟩, fun h => ⟨h.1, h.2.1, h.2.2⟩⟩

instance (p : Path) : Decidable (Watchable p) := decidable_of_iff _ watchable_iff.symm

theorem Watchable.congr {p q : Path} (h : Watchable p) (hpq : p ≈ q) : Watchable q := by
  refine ⟨hpq.1 ▸ h.absolute, ?_, hpq.2 ▸ h.not_root⟩
  have hlevel := h.level
  rwa [Path.climbs, hpq.2] at hlevel

namespace Trie

variable {α : Type} {t t' : Trie α} {n : Nat} {p q : Path}

theorem find?_bind_value?_eq (t : Trie α) (p : Path) :
    (t.find? p).bind t.value? =
      if p.isAbsolute = true ∧ p.climbs = false then t.valueAlong? 0 p.components else none := by
  unfold find?
  rcases segments_cases p with ⟨habs, hclimbs, hsegments⟩ | ⟨hneither, e, hsegments⟩
  · rw [hsegments, if_pos ⟨habs, hclimbs⟩]
    rfl
  · have hnot : ¬(p.isAbsolute = true ∧ p.climbs = false) := by
      rcases hneither with h | h <;> simp [h]
    rw [hsegments, if_neg hnot]
    rfl

/-- New nodes have no values, so every path has the value that it had. -/
theorem Grows.find?_bind_value? (h : Grows t t') (q : Path) :
    (t'.find? q).bind t'.value? = (t.find? q).bind t.value? := by
  rw [find?_bind_value?_eq, find?_bind_value?_eq, h.along]

theorem WellFormed.path?_of_find? (h : t.WellFormed) (hp : t.find? p = some n) :
    t.path? n = some (Path.ofNames p.components) :=
  (h.path?_of_reached (find?_eq_some_iff.mp hp).2.2).2

/-- **A value that is written at a path is seen there and nowhere else.** -/
theorem WellFormed.find?_bind_value?_setValue (h : t.WellFormed) (hp : t.find? p = some n)
    (value : Option α) (q : Path) :
    ((t.setValue n value).find? q).bind (t.setValue n value).value? =
      if p ≈ q then value else (t.find? q).bind t.value? := by
  rw [find?_setValue]
  by_cases hpq : p ≈ q
  · rw [if_pos hpq, ← find?_congr hpq, hp, Option.bind_some, value?_setValue (h.path?_of_find? hp),
      if_pos rfl]
  · rw [if_neg hpq]
    cases hq : t.find? q with
    | none => rfl
    | some m =>
      have hne : n ≠ m := by
        intro heq
        subst heq
        exact hpq (h.equiv_of_find? hp hq)
      rw [Option.bind_some, Option.bind_some, value?_setValue (h.path?_of_find? hp), if_neg hne]

/-- The root is found only under its own name. -/
theorem WellFormed.components_of_find?_root (h : t.WellFormed) (hp : t.find? p = some 0) :
    p.components = [] :=
  h.eq_of_descend (find?_eq_some_iff.mp hp).2.2 rfl

end Trie

namespace Registry

variable {r r' : Registry} {p q : Path} {kind : Kind} {handle : Handle} {watch : Registration}

/-- The watch on exactly this path. -/
def watchAt? (r : Registry) (p : Path) : Option Registration := (r.trie.find? p).bind r.trie.value?

theorem kindAt?_eq (r : Registry) (p : Path) : r.kindAt? p = (r.watchAt? p).map (·.kind) := rfl

/-- A watch is put on a path that had none, at a node. -/
structure Registered (r : Registry) (p : Path) (kind : Kind) (node : Nat) (r' : Registry) :
    Prop where
  shape : r'.trie.WellFormed
  found : r'.trie.find? p = some node
  /-- Nodes stay what they are. -/
  kept : ∀ q n, r.trie.find? q = some n → r'.trie.find? q = some n
  watches : ∀ q, r'.watchAt? q = if p ≈ q then some ⟨kind, r.nextGeneration⟩ else r.watchAt? q
  next : r'.nextGeneration = r.nextGeneration + 1
  active : r'.active = r.active + 1
  valued : r'.trie.valued.card = r.trie.valued.card + 1

/-- Registering the path fails, and the registry is afterwards what it was. -/
def Refused (r : Registry) (p : Path) (kind : Kind) : Prop := ∃ e, r.register p kind = (.error e, r)

/-- **A path that no watch can be on is refused, and nothing was added for it.** -/
theorem refused_of_not_watchable (h : r.trie.WellFormed) (hp : ¬Watchable p) (kind : Kind) :
    r.Refused p kind := by
  rcases h.insert_cases p with ⟨_, e, hinsert⟩ | ⟨habs, hclimbs, _⟩
  · exact ⟨e, by rw [register, hinsert]⟩
  · have hroot : p.components = [] :=
      Decidable.byContradiction fun hne => hp ⟨habs, hclimbs, hne⟩
    have hfound : r.trie.find? p = some 0 := by
      rw [Trie.find?_of_absolute habs hclimbs, hroot]
      rfl
    exact ⟨.root, by rw [register, Trie.insert_of_found hfound]; rfl⟩

/--
**The three ways in which registering ends.** The path is refused, or it has a watch and
nothing changes, or it had none and has a new one.
-/
theorem register_cases (h : r.trie.WellFormed) (p : Path) (kind : Kind) :
    (¬Watchable p ∧ r.Refused p kind) ∨
    (Watchable p ∧ ∃ node watch, r.trie.find? p = some node ∧ r.watchAt? p = some watch ∧
      r.register p kind = (.ok ⟨node, watch.generation⟩, r)) ∨
    (Watchable p ∧ r.watchAt? p = none ∧ ∃ node r',
      r.register p kind = (.ok ⟨node, r.nextGeneration⟩, r') ∧ r.Registered p kind node r') := by
  by_cases hp : Watchable p
  · right
    rcases h.insert_cases p with ⟨hneither, _⟩ | ⟨_, _, node, t, hinsert, hshape, hgrows, hfound⟩
    · rcases hneither with hrelative | hclimbs
      · cases hp.absolute.symm.trans hrelative
      · cases hp.level.symm.trans hclimbs
    · have hroot : node ≠ 0 := by
        intro hnode
        rw [hnode] at hfound
        exact hp.not_root (hshape.components_of_find?_root hfound)
      have hvalue : t.value? node = r.watchAt? p := by
        rw [watchAt?, ← hgrows.find?_bind_value?, hfound, Option.bind_some]
      cases hwatch : r.watchAt? p with
      | some watch =>
        -- the path had a node before, so nothing was added
        obtain ⟨m, hm, _⟩ := Option.bind_eq_some_iff.mp hwatch
        have hsame := (Trie.insert_of_found hm).symm.trans hinsert
        obtain ⟨hnode, rfl⟩ := Prod.mk.inj hsame
        obtain rfl := Except.ok.inj hnode
        rw [hwatch] at hvalue
        exact Or.inl ⟨hp, m, watch, hm, rfl, by simp [register, hinsert, hroot, hvalue]⟩
      | none =>
        rw [hwatch] at hvalue
        refine Or.inr ⟨hp, rfl, node,
          ⟨t.setValue node (some ⟨kind, r.nextGeneration⟩), r.nextGeneration + 1, r.active + 1⟩,
          by simp [register, hinsert, hroot, hvalue], hshape.setValue node _, ?_, ?_, ?_, rfl, rfl,
          ?_⟩
        · rw [Trie.find?_setValue, hfound]
        · intro q n hq
          rw [Trie.find?_setValue]
          exact hgrows.find? hq
        · intro q
          rw [watchAt?, hshape.find?_bind_value?_setValue hfound, hgrows.find?_bind_value?,
            watchAt?]
        · rw [Trie.card_valued_setValue_some (hshape.path?_of_find? hfound) hvalue,
            hgrows.valued]
  · exact Or.inl ⟨hp, refused_of_not_watchable h hp kind⟩

/-- A handle is current if the watch on its node is of its generation. -/
theorem isCurrent_iff (hp : r.trie.find? p = some handle.node) :
    r.isCurrent handle = true ↔
      ∃ watch, r.watchAt? p = some watch ∧ watch.generation = handle.generation := by
  have hvalue : r.trie.value? handle.node = r.watchAt? p := by rw [watchAt?, hp, Option.bind_some]
  rw [isCurrent, hvalue, beq_iff_eq, Option.map_eq_some_iff]

/-- A watch is taken off a path. -/
structure Closed (r : Registry) (p : Path) (r' : Registry) : Prop where
  shape : r'.trie.WellFormed
  kept : ∀ q, r'.trie.find? q = r.trie.find? q
  watches : ∀ q, r'.watchAt? q = if p ≈ q then none else r.watchAt? q
  next : r'.nextGeneration = r.nextGeneration
  active : r'.active = r.active - 1
  valued : r'.trie.valued.card + 1 = r.trie.valued.card

/-- Closing through a handle that is not current does nothing. -/
theorem close_of_not_current (h : r.isCurrent handle = false) : r.close handle = (false, r) := by
  rw [close, h]
  rfl

/-- **Closing through a current handle takes the watch off its path.** -/
theorem close_of_current (h : r.trie.WellFormed) (hp : r.trie.find? p = some handle.node)
    (hcurrent : r.isCurrent handle = true) :
    (r.close handle).1 = true ∧ r.Closed p (r.close handle).2 := by
  have hpath := h.path?_of_find? hp
  obtain ⟨watch, hwatch, _⟩ := (isCurrent_iff hp).mp hcurrent
  have hvalue : (r.trie.value? handle.node).isSome = true := by
    rw [watchAt?, hp, Option.bind_some] at hwatch
    rw [hwatch]
    rfl
  rw [close, if_pos hcurrent]
  refine ⟨rfl, h.setValue _ _, ?_, ?_, rfl, rfl, Trie.card_valued_setValue_none hpath hvalue⟩
  · intro q
    exact Trie.find?_setValue r.trie handle.node none q
  · intro q
    exact h.find?_bind_value?_setValue hp none q

end Registry

end BackendSync.Watch
