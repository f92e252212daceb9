import BackendSync.Proofs.WatchLedger

/-!
# The map of watched paths

To anybody who asks it, a registry is a map from paths to kinds: a path is in the map if its
latest registration was not closed, and its kind is that of the call that registered it.
Nodes, generations and what was closed before show nowhere. What is found for a path is the
longest path of the map on the way to it, and what it triggers follows from that.
-/

namespace BackendSync.Watch

/-- Of the watched paths on the way to `q`, the path `a` is the longest. -/
structure Ledger.Nearest (l : Ledger) (q a : Path) (kind : Kind) : Prop where
  onWay : a.OnWayTo q
  watched : l.kindAt? a = some kind
  longest : ∀ b, b.OnWayTo q → a.components.length < b.components.length → l.kindAt? b = none

theorem Ledger.kindAt?_congr {l : Ledger} {p q : Path} (h : p ≈ q) : l.kindAt? p = l.kindAt? q := by
  rw [kindAt?, current?_congr h, kindAt?]

/-- There is one nearest path, under whatever spelling. -/
theorem Ledger.Nearest.unique {l : Ledger} {q a b : Path} {kind kind' : Kind}
    (ha : l.Nearest q a kind) (hb : l.Nearest q b kind') : a ≈ b ∧ kind = kind' := by
  have hab : a.components.length = b.components.length := by
    rcases Nat.lt_trichotomy a.components.length b.components.length with hlt | heq | hgt
    · have hnone := ha.longest b hb.onWay hlt
      rw [hb.watched] at hnone
      cases hnone
    · exact heq
    · have hnone := hb.longest a ha.onWay hgt
      rw [ha.watched] at hnone
      cases hnone
  have hequiv : a ≈ b := by
    refine ⟨ha.onWay.left_absolute.trans hb.onWay.left_absolute.symm, ?_⟩
    -- both are starts of one list
    rw [List.prefix_iff_eq_take.mp ha.onWay.start, hab, ← List.prefix_iff_eq_take.mp hb.onWay.start]
  refine ⟨hequiv, Option.some.inj ?_⟩
  rw [← ha.watched, ← hb.watched, kindAt?_congr hequiv]

/-- A path that has a nearest one is not without any. -/
theorem Ledger.Nearest.covered {l : Ledger} {q a : Path} {kind : Kind} (h : l.Nearest q a kind)
    (hclimbs : q.climbs = false) :
    ¬(q.isAbsolute = false ∨ q.climbs = true ∨ ∀ a, a.OnWayTo q → l.kindAt? a = none) := by
  intro huncovered
  rcases huncovered with hrelative | hclimbing | hnone
  · rw [h.onWay.right_absolute] at hrelative
    cases hrelative
  · rw [hclimbs] at hclimbing
    cases hclimbing
  · have hwatched := h.watched
    rw [hnone a h.onWay] at hwatched
    cases hwatched

variable {w : Watcher} {l : Ledger} {q a : Path} {kind : Kind}

theorem Follows.kindAt?_eq (h : Follows w l) (p : Path) :
    w.registry.kindAt? p = l.kindAt? p := by
  rw [Registry.kindAt?_eq, h.watches, Option.map_map, Ledger.kindAt?]
  rfl

theorem Follows.nearest_iff (h : Follows w l) :
    w.registry.Nearest q a kind ↔ l.Nearest q a kind := by
  constructor
  · intro hnearest
    refine ⟨hnearest.onWay, ?_, fun b hb hlength => ?_⟩
    · rw [← h.kindAt?_eq, hnearest.watched]
    · rw [← h.kindAt?_eq, hnearest.longest b hb hlength]
  · intro hnearest
    refine ⟨hnearest.onWay, ?_, fun b hb hlength => ?_⟩
    · rw [h.kindAt?_eq, hnearest.watched]
    · rw [h.kindAt?_eq, hnearest.longest b hb hlength]

/-- Only paths that can be watched are watched. -/
theorem Follows.watchable (h : Follows w l) (hkind : l.kindAt? q = some kind) : Watchable q := by
  obtain ⟨e, he, _⟩ := Option.map_eq_some_iff.mp hkind
  obtain ⟨hentry, _, heq⟩ := h.valid.current?_eq_some_iff.mp he
  exact (h.valid.watchable e hentry).congr heq

/-- What is found for a path: nothing, or the nearest watched path as its names spell it. -/
theorem Follows.find?_cases (h : Follows w l) (q : Path) :
    (w.registry.find? q = none ∧
      (q.isAbsolute = false ∨ q.climbs = true ∨ ∀ a, a.OnWayTo q → l.kindAt? a = none)) ∨
    (q.climbs = false ∧ ∃ a kind, w.registry.find? q = some (a, kind) ∧
      a = .ofNames a.components ∧ l.Nearest q a kind) := by
  rcases w.registry.lookup_cases q with
    ⟨hlookup, huncovered⟩ | ⟨_, hclimbs, front, m, watch, hlooksUp⟩
  · refine Or.inl ⟨Registry.find?_of_lookup_none hlookup, ?_⟩
    rcases huncovered with hrelative | hclimbs | hnone
    · exact Or.inl hrelative
    · exact Or.inr (Or.inl hclimbs)
    · refine Or.inr (Or.inr fun a ha => ?_)
      rw [← h.kindAt?_eq, hnone a ha]
  · have hpath := (h.shape.path?_of_reached hlooksUp.reached).2
    refine Or.inr ⟨hclimbs, .ofNames front, watch.kind, ?_, ?_, h.nearest_iff.mp hlooksUp.nearest⟩
    · rw [hlooksUp.find?, hpath]
      rfl
    · rw [hlooksUp.components]

theorem Follows.find?_eq_none_iff (h : Follows w l) (q : Path) :
    w.registry.find? q = none ↔
      q.isAbsolute = false ∨ q.climbs = true ∨ ∀ a, a.OnWayTo q → l.kindAt? a = none := by
  rcases h.find?_cases q with ⟨hnone, huncovered⟩ | ⟨hclimbs, a, kind, hfound, _, hnearest⟩
  · exact iff_of_true hnone huncovered
  · rw [hfound]
    exact iff_of_false (fun hnone => by cases hnone) (hnearest.covered hclimbs)

theorem Follows.find?_eq_some_iff (h : Follows w l) (q a : Path) (kind : Kind) :
    w.registry.find? q = some (a, kind) ↔
      q.climbs = false ∧ a = .ofNames a.components ∧ l.Nearest q a kind := by
  rcases h.find?_cases q with ⟨hnone, huncovered⟩ | ⟨hclimbs, b, kind', hfound, hspelled, hnearest⟩
  · rw [hnone]
    refine iff_of_false (fun hsome => by cases hsome) fun hnear => ?_
    obtain ⟨hclimbs, _, hnearest⟩ := hnear
    exact hnearest.covered hclimbs huncovered
  · rw [hfound]
    constructor
    · intro heq
      cases heq
      exact ⟨hclimbs, hspelled, hnearest⟩
    · intro hnear
      obtain ⟨_, hspelled', hnearest'⟩ := hnear
      obtain ⟨hequiv, rfl⟩ := hnearest.unique hnearest'
      rw [hspelled, hspelled', hequiv.2]

theorem Follows.isWatched_iff (h : Follows w l) (q : Path) :
    w.registry.isWatched q = true ↔
      q.isAbsolute = true ∧ q.climbs = false ∧ (l.kindAt? q).isSome = true := by
  rw [Registry.isWatched_eq, h.kindAt?_eq]
  constructor
  · intro hsome
    obtain ⟨kind, hkind⟩ := Option.isSome_iff_exists.mp hsome
    have hwatchable := h.watchable hkind
    exact ⟨hwatchable.absolute, hwatchable.level, hsome⟩
  · intro hwatched
    exact hwatched.2.2

/-- The paths that are watched, each in the spelling of the call that put its watch there. -/
def Ledger.keys (l : Ledger) (h : l.Valid) : PathSet where
  toList := l.active.map (·.path)
  distinct := by
    rw [List.pairwise_map]
    refine h.nodup_active.imp_of_mem ?_
    intro e f he hf hne hef
    obtain ⟨hentry, hopen⟩ := mem_active_iff.mp he
    obtain ⟨hentry', hopen'⟩ := mem_active_iff.mp hf
    -- both are the current entry of one path
    have hcurrent := h.current?_eq_some_iff.mpr ⟨hentry, hopen, hef⟩
    have hcurrent' := h.current?_eq_some_iff.mpr ⟨hentry', hopen', Setoid.refl f.path⟩
    exact hne (Option.some.inj (hcurrent.symm.trans hcurrent'))

theorem Ledger.mem_keys_iff (h : l.Valid) : q ∈ l.keys h ↔ (l.kindAt? q).isSome = true := by
  rw [PathSet.mem_iff, Ledger.kindAt?, Option.isSome_map, Option.isSome_iff_exists]
  constructor
  · intro hmem
    obtain ⟨p, hp, hpq⟩ := hmem
    obtain ⟨e, he, rfl⟩ := List.mem_map.mp hp
    obtain ⟨hentry, hopen⟩ := mem_active_iff.mp he
    exact ⟨e, h.current?_eq_some_iff.mpr ⟨hentry, hopen, hpq⟩⟩
  · intro hsome
    obtain ⟨e, he⟩ := hsome
    obtain ⟨hentry, hopen, heq⟩ := h.current?_eq_some_iff.mp he
    exact ⟨e.path, List.mem_map_of_mem (mem_active_iff.mpr ⟨hentry, hopen⟩), heq⟩

/-- A registry answers as the map of watched paths does. -/
structure AnswersAs (r : Registry) (l : Ledger) : Prop where
  /-- What is in the map is absolute, never climbs and is not the root. -/
  watchable : ∀ q kind, l.kindAt? q = some kind → Watchable q
  watched : ∀ q, r.isWatched q = true ↔
    q.isAbsolute = true ∧ q.climbs = false ∧ (l.kindAt? q).isSome = true
  /-- What is found is the longest path of the map on the way, spelled by its names alone. -/
  found : ∀ q a kind, r.find? q = some (a, kind) ↔
    q.climbs = false ∧ a = .ofNames a.components ∧ l.Nearest q a kind
  lost : ∀ q, r.find? q = none ↔
    q.isAbsolute = false ∨ q.climbs = true ∨ ∀ a, a.OnWayTo q → l.kindAt? a = none
  /-- What is found decides on what is triggered. -/
  silent : ∀ q, r.trigger q = none ↔ r.find? q = none
  modified : ∀ q a, r.find? q = some (a, .file) → r.trigger q = some ⟨a, a, .modify⟩
  created : ∀ q a, r.find? q = some (a, .directory) → r.trigger q = some ⟨a, q, .create⟩
  /-- The active watches are as many as the paths of the map. -/
  size : ∃ keys : PathSet, (∀ q, q ∈ keys ↔ (l.kindAt? q).isSome = true) ∧ r.active = keys.size

/--
**A registry is a map from paths to kinds.** However watches are registered and closed, a path
is watched just if its latest registration was not closed, as the kind with which that
registration was made. What is found for a path, what it triggers and how many watches there
are is read off that map.
-/
theorem registry_answersAs (calls : List Call) :
    AnswersAs (Watcher.run {} calls).registry (Ledger.run {} calls) := by
  have h := follows_empty.run calls
  refine ⟨fun q kind => h.watchable, h.isWatched_iff, h.find?_eq_some_iff, h.find?_eq_none_iff,
    ?_, ?_, ?_, ⟨_, fun q => Ledger.mem_keys_iff h.valid, ?_⟩⟩
  · intro q
    rw [Registry.trigger, Option.map_eq_none_iff]
  · intro q a hfound
    rw [Registry.trigger, hfound]
    rfl
  · intro q a hfound
    rw [Registry.trigger, hfound]
    rfl
  · rw [h.active, PathSet.size, Ledger.keys, List.length_map]

end BackendSync.Watch
