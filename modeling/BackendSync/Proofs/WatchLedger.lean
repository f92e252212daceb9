import Mathlib.Data.List.Nodup
import BackendSync.Proofs.AlikePaths
import BackendSync.Proofs.Registering

/-!
# A ledger of watches

A registry is called again and again, and the handles that it returns are closed in any
order and as often as anybody likes. A `Ledger` is kept of that by somebody who sees the
calls and not the registry: it has an entry for each call that puts a watch on a path where
none is, it notes of which entry each handle is, and strikes out the entries that were
closed. So there are no nodes in it and nothing is used again.

`Follows` ties a registry to a ledger, and every call keeps it. What makes it work is that
an entry that is not struck out is the latest of its path: for this reason the watch on a
path is that of one entry, and the generation on it tells which.
-/

namespace BackendSync.Watch

/-- What a registry can be asked to do. -/
inductive Call where
  | watch (path : Path) (kind : Kind)
  /-- Closes the watch of a handle, by its place in the order in which they were returned. -/
  | close (handle : Nat)

inductive Answer where
  | watched (handle : Except Error Handle)
  | closed (closed : Bool)

/-- A registry with the handles that it has returned, the oldest first. -/
structure Watcher where
  registry : Registry := .empty
  handles : List Handle := []

namespace Watcher

/-- What a call is answered, and what there is after it. -/
def call (w : Watcher) : Call → Answer × Watcher
  | .watch path kind =>
    let (handle, registry) := w.registry.register path kind
    (.watched handle, ⟨registry, w.handles ++ handle.toOption.toList⟩)
  | .close i =>
    match w.handles[i]? with
    | some handle =>
      (.closed (w.registry.close handle).1, { w with registry := (w.registry.close handle).2 })
    | none => (.closed false, w)

/-- What there is after a list of calls. -/
def run (w : Watcher) (calls : List Call) : Watcher := calls.foldl (fun w call => (w.call call).2) w

end Watcher

/-- A call that put a watch on a path. -/
structure Entry where
  number : Nat
  path : Path
  kind : Kind
deriving DecidableEq

/-- What was registered and closed so far. -/
structure Ledger where
  /-- The latest entry first. -/
  entries : List Entry := []
  /-- The numbers of the entries that are struck out. -/
  closed : List Nat := []
  /-- The entry that each handle is of, in the order in which they were returned. -/
  handles : List Entry := []

namespace Ledger

/-- Is an entry struck out? -/
def isClosed (l : Ledger) (e : Entry) : Bool := l.closed.contains e.number

/-- The latest entry of a path. -/
def latest? (l : Ledger) (p : Path) : Option Entry := l.entries.find? fun e => decide (e.path ≈ p)

/-- The latest entry of a path, if it is not struck out. -/
def current? (l : Ledger) (p : Path) : Option Entry := (l.latest? p).filter fun e => !l.isClosed e

/-- What a path is watched as: the kind of the call that put the watch there. -/
def kindAt? (l : Ledger) (p : Path) : Option Kind := (l.current? p).map (·.kind)

/-- The entries that are not struck out. -/
def active (l : Ledger) : List Entry := l.entries.filter fun e => !l.isClosed e

/-- The ledger with one more entry, of which a handle is returned. -/
def enter (l : Ledger) (p : Path) (kind : Kind) : Ledger :=
  { l with
    entries := ⟨l.entries.length, p, kind⟩ :: l.entries
    handles := l.handles ++ [⟨l.entries.length, p, kind⟩] }

/-- The ledger with an entry struck out. -/
def strike (l : Ledger) (e : Entry) : Ledger := { l with closed := e.number :: l.closed }

/-- The ledger after a call. -/
def next (l : Ledger) : Call → Ledger
  | .watch path kind =>
    if Watchable path then
      match l.current? path with
      | some e => { l with handles := l.handles ++ [e] }
      | none => l.enter path kind
    else l
  | .close i =>
    match l.handles[i]? with
    | some e => l.strike e
    | none => l

/-- The ledger after a list of calls. -/
def run (l : Ledger) (calls : List Call) : Ledger := calls.foldl next l

/-! ## Entries -/

/-- The entries of a ledger are numbered from the oldest, and only the latest of a path can be
without a strike. -/
structure Valid (l : Ledger) : Prop where
  numbered : ∀ e ∈ l.entries, e.number < l.entries.length
  distinct : (l.entries.map (·.number)).Nodup
  watchable : ∀ e ∈ l.entries, Watchable e.path
  latest : ∀ e ∈ l.entries, l.isClosed e = false → l.latest? e.path = some e
  handles : ∀ e ∈ l.handles, e ∈ l.entries
  closed : ∀ n ∈ l.closed, n < l.entries.length

theorem valid_empty : Valid {} := by
  refine ⟨?_, .nil, ?_, ?_, ?_, ?_⟩ <;> intro e he <;> cases he

variable {l : Ledger} {e f : Entry} {p q : Path} {kind : Kind}

theorem latest?_congr (h : p ≈ q) : l.latest? p = l.latest? q := by
  have same : ∀ e : Entry, decide (e.path ≈ p) = decide (e.path ≈ q) := fun e =>
    decide_eq_decide.mpr ⟨fun he => he.trans h, fun he => he.trans h.symm⟩
  simp only [latest?, same]

theorem Valid.eq_of_number (h : l.Valid) (he : e ∈ l.entries) (hf : f ∈ l.entries)
    (hnumber : e.number = f.number) : e = f :=
  List.inj_on_of_nodup_map h.distinct he hf hnumber

/-- The current entry of a path is the one entry of that path that is not struck out. -/
theorem Valid.current?_eq_some_iff (h : l.Valid) :
    l.current? p = some e ↔ e ∈ l.entries ∧ l.isClosed e = false ∧ e.path ≈ p := by
  rw [current?, Option.filter_eq_some_iff]
  constructor
  · intro hcurrent
    obtain ⟨hlatest, hopen⟩ := hcurrent
    have hep := List.find?_some hlatest
    exact ⟨List.mem_of_find?_eq_some hlatest, by simpa using hopen, by simpa using hep⟩
  · intro hentry
    obtain ⟨he, hopen, hep⟩ := hentry
    rw [← latest?_congr hep, h.latest e he hopen]
    exact ⟨rfl, by simp [hopen]⟩

theorem Valid.current?_eq_none_iff (h : l.Valid) :
    l.current? p = none ↔ ∀ e ∈ l.entries, l.isClosed e = false → ¬e.path ≈ p := by
  constructor
  · intro hnone e he hopen hep
    rw [h.current?_eq_some_iff.mpr ⟨he, hopen, hep⟩] at hnone
    cases hnone
  · intro hall
    cases hcurrent : l.current? p with
    | none => rfl
    | some e =>
      obtain ⟨he, hopen, hep⟩ := h.current?_eq_some_iff.mp hcurrent
      exact absurd hep (hall e he hopen)

theorem current?_congr (h : p ≈ q) : l.current? p = l.current? q := by
  rw [current?, latest?_congr h, current?]

/-! ## Entering -/

/-- A new number has not been struck out. -/
theorem Valid.not_closed_new (h : l.Valid) : l.closed.contains l.entries.length = false := by
  rw [Bool.eq_false_iff]
  intro hcontains
  have := h.closed _ (List.contains_iff_mem.mp hcontains)
  omega

theorem latest?_enter (l : Ledger) (p : Path) (kind : Kind) (q : Path) :
    (l.enter p kind).latest? q =
      if p ≈ q then some ⟨l.entries.length, p, kind⟩ else l.latest? q := by
  rw [latest?, enter, List.find?_cons, latest?]
  by_cases hpq : p ≈ q
  · simp [hpq]
  · simp [hpq]

theorem Valid.current?_enter (h : l.Valid) (p : Path) (kind : Kind) (q : Path) :
    (l.enter p kind).current? q =
      if p ≈ q then some ⟨l.entries.length, p, kind⟩ else l.current? q := by
  rw [current?, latest?_enter, current?]
  by_cases hpq : p ≈ q
  · have hopen := h.not_closed_new
    rw [if_pos hpq, if_pos hpq]
    simpa [isClosed, enter] using hopen
  · rw [if_neg hpq, if_neg hpq]
    rfl

theorem Valid.enter (h : l.Valid) (hp : Watchable p) (hnone : l.current? p = none) :
    (l.enter p kind).Valid := by
  have hentries : (l.enter p kind).entries = ⟨l.entries.length, p, kind⟩ :: l.entries := rfl
  refine ⟨?_, ?_, ?_, ?_, ?_, ?_⟩
  · intro e he
    rcases List.mem_cons.mp he with rfl | he
    · simp [hentries]
    · have := h.numbered e he
      simp [hentries]
      omega
  · refine List.nodup_cons.mpr ⟨?_, h.distinct⟩
    intro hmem
    obtain ⟨e, he, hnumber⟩ := List.mem_map.mp hmem
    have := h.numbered e he
    simp only at hnumber
    omega
  · intro e he
    rcases List.mem_cons.mp he with rfl | he
    · exact hp
    · exact h.watchable e he
  · intro e he hopen
    rw [latest?_enter]
    rcases List.mem_cons.mp he with rfl | he
    · exact if_pos (Setoid.refl p)
    · -- an older entry of the same path would have been current
      have hne : ¬p ≈ e.path := fun hpe =>
        h.current?_eq_none_iff.mp hnone e he hopen (Setoid.symm hpe)
      rw [if_neg hne]
      exact h.latest e he hopen
  · intro e he
    rcases List.mem_append.mp he with he | he
    · exact List.mem_cons_of_mem _ (h.handles e he)
    · rw [List.mem_singleton.mp he]
      exact List.mem_cons_self
  · intro n hn
    have := h.closed n hn
    simp [hentries]
    omega

theorem Valid.active_enter (h : l.Valid) (p : Path) (kind : Kind) :
    (l.enter p kind).active = ⟨l.entries.length, p, kind⟩ :: l.active := by
  have hopen : (l.enter p kind).isClosed ⟨l.entries.length, p, kind⟩ = false := h.not_closed_new
  have hentries : (l.enter p kind).entries = ⟨l.entries.length, p, kind⟩ :: l.entries := rfl
  rw [active, hentries, List.filter_cons, hopen]
  rfl

/-! ## Striking out -/

theorem isClosed_strike (l : Ledger) (e f : Entry) :
    (l.strike e).isClosed f = true ↔ f.number = e.number ∨ l.isClosed f = true := by
  simp [isClosed, strike]

/-- Striking out an entry for a second time makes no difference. -/
theorem isClosed_strike_of_closed (h : l.isClosed e = true) (f : Entry) :
    (l.strike e).isClosed f = l.isClosed f := by
  rw [Bool.eq_iff_iff, isClosed_strike]
  refine ⟨fun hf => ?_, Or.inr⟩
  rcases hf with hnumber | hf
  · rwa [isClosed, hnumber]
  · exact hf

theorem current?_strike_of_closed (h : l.isClosed e = true) (q : Path) :
    (l.strike e).current? q = l.current? q := by
  have hlatest : (l.strike e).latest? q = l.latest? q := rfl
  rw [current?, hlatest, current?]
  simp only [isClosed_strike_of_closed h]

theorem active_strike_of_closed (h : l.isClosed e = true) : (l.strike e).active = l.active := by
  have hentries : (l.strike e).entries = l.entries := rfl
  rw [active, hentries, active]
  simp only [isClosed_strike_of_closed h]

theorem Valid.strike (h : l.Valid) (he : e ∈ l.entries) : (l.strike e).Valid := by
  refine ⟨h.numbered, h.distinct, h.watchable, ?_, h.handles, ?_⟩
  · intro f hf hopen
    refine h.latest f hf ?_
    rw [Bool.eq_false_iff] at hopen ⊢
    exact fun hclosed => hopen ((l.isClosed_strike e f).mpr (Or.inr hclosed))
  · intro n hn
    rcases List.mem_cons.mp hn with rfl | hn
    · exact h.numbered e he
    · exact h.closed n hn

theorem Valid.current?_strike (h : l.Valid) (he : e ∈ l.entries) (hopen : l.isClosed e = false)
    (q : Path) : (l.strike e).current? q = if e.path ≈ q then none else l.current? q := by
  have hlatest : (l.strike e).latest? q = l.latest? q := rfl
  by_cases heq : e.path ≈ q
  · rw [if_pos heq, current?, hlatest, ← latest?_congr heq, h.latest e he hopen]
    simp [isClosed, Ledger.strike]
  · rw [if_neg heq, current?, hlatest, current?]
    cases hf : l.latest? q with
    | none => rfl
    | some f =>
      -- the entry of another path has another number
      have hfq : f.path ≈ q := by simpa using List.find?_some hf
      have hne : f.number ≠ e.number := by
        intro hnumber
        rw [h.eq_of_number (List.mem_of_find?_eq_some hf) he hnumber] at hfq
        exact heq hfq
      have hsame : (l.strike e).isClosed f = l.isClosed f := by
        rw [Bool.eq_iff_iff, isClosed_strike]
        simp [hne]
      rw [Option.filter_some, Option.filter_some, hsame]

theorem mem_active_iff : e ∈ l.active ↔ e ∈ l.entries ∧ l.isClosed e = false := by
  simp [active]

theorem Valid.nodup_active (h : l.Valid) : l.active.Nodup := h.distinct.of_map.filter _

theorem Valid.length_active_strike (h : l.Valid) (he : e ∈ l.entries)
    (hopen : l.isClosed e = false) : (l.strike e).active.length + 1 = l.active.length := by
  have hmem := mem_active_iff.mpr ⟨he, hopen⟩
  have herase : (l.strike e).active = l.active.erase e := by
    rw [h.nodup_active.erase_eq_filter, active, active, List.filter_filter]
    refine List.filter_congr fun f hf => ?_
    have hnumber : f.number = e.number ↔ f = e :=
      ⟨h.eq_of_number hf he, fun heq => by rw [heq]⟩
    rw [Bool.eq_iff_iff, Bool.not_eq_true', Bool.eq_false_iff, ne_eq, isClosed_strike, hnumber]
    simp
  rw [herase, List.length_erase_of_mem hmem]
  have := List.length_pos_of_mem hmem
  omega

end Ledger

/-! ## A registry and its ledger -/

/-- The watch that an entry put on its path. -/
def Entry.registration (e : Entry) : Registration := ⟨e.kind, e.number⟩

/-- The handle that is returned for an entry. -/
structure Registry.IsHandleOf (r : Registry) (handle : Handle) (e : Entry) : Prop where
  node : r.trie.find? e.path = some handle.node
  generation : handle.generation = e.number

/-- A registry is what a ledger says, and its handles are those of the entries. -/
structure Follows (w : Watcher) (l : Ledger) : Prop where
  valid : l.Valid
  shape : w.registry.trie.WellFormed
  watches : ∀ p, w.registry.watchAt? p = (l.current? p).map (·.registration)
  handles : List.Forall₂ w.registry.IsHandleOf w.handles l.handles
  next : w.registry.nextGeneration = l.entries.length
  active : w.registry.active = l.active.length
  valued : w.registry.active = w.registry.trie.valued.card

theorem follows_empty : Follows {} {} where
  valid := Ledger.valid_empty
  shape := Trie.wellFormed_empty
  watches p := by
    show (Trie.empty.find? p).bind Trie.empty.value? = none
    rw [Option.bind_eq_none_iff]
    intro n _
    cases n <;> simp [Trie.value?, Trie.node?, Trie.empty]
  handles := .nil
  next := rfl
  active := rfl
  valued := by
    have hnone : (Trie.empty : Trie Registration).valued = ∅ := by
      ext n
      rw [Trie.mem_valued]
      cases n <;> simp [Trie.value?, Trie.node?, Trie.empty]
    show 0 = (Trie.empty : Trie Registration).valued.card
    rw [hnone, Finset.card_empty]

variable {w : Watcher} {l : Ledger} {e : Entry} {handle : Handle}

/-- The entry that a handle is of. -/
theorem Follows.handle_cases (h : Follows w l) (i : Nat) :
    (w.handles[i]? = none ∧ l.handles[i]? = none) ∨
    ∃ handle e, w.handles[i]? = some handle ∧ l.handles[i]? = some e ∧ e ∈ l.entries ∧
      w.registry.IsHandleOf handle e := by
  have hrel := getElem?_rel h.handles i
  cases hw : w.handles[i]? with
  | none =>
    rw [hw] at hrel
    exact Or.inl ⟨rfl, eq_none_iff_of_rel hrel |>.mp rfl⟩
  | some handle =>
    rw [hw] at hrel
    cases hl : l.handles[i]? with
    | none => rw [hl] at hrel; cases hrel
    | some e =>
      rw [hl] at hrel
      cases hrel with
      | some hof =>
        exact Or.inr ⟨handle, e, rfl, rfl, h.valid.handles e (List.mem_of_getElem? hl), hof⟩

/-- The handle that was returned for an entry. -/
theorem Follows.handle_of (h : Follows w l) {i : Nat} (hi : l.handles[i]? = some e) :
    e ∈ l.entries ∧ ∃ handle, w.handles[i]? = some handle ∧ w.registry.IsHandleOf handle e := by
  rcases h.handle_cases i with ⟨_, hnone⟩ | ⟨handle, f, hw, hl, hf, hof⟩
  · rw [hnone] at hi
    cases hi
  · obtain rfl := Option.some.inj (hl.symm.trans hi)
    exact ⟨hf, handle, hw, hof⟩

/-- **A handle is current just if its entry is not struck out.** -/
theorem Follows.isCurrent_iff (h : Follows w l) (he : e ∈ l.entries)
    (hof : w.registry.IsHandleOf handle e) :
    w.registry.isCurrent handle = true ↔ l.isClosed e = false := by
  rw [Registry.isCurrent_iff hof.node, h.watches]
  constructor
  · intro hcurrent
    obtain ⟨watch, hwatch, hgeneration⟩ := hcurrent
    obtain ⟨f, hf, rfl⟩ := Option.map_eq_some_iff.mp hwatch
    obtain ⟨hfe, hopen, _⟩ := h.valid.current?_eq_some_iff.mp hf
    have hnumber : f.number = e.number := hgeneration.trans hof.generation
    rwa [h.valid.eq_of_number hfe he hnumber] at hopen
  · intro hopen
    have hcurrent := h.valid.current?_eq_some_iff.mpr ⟨he, hopen, Setoid.refl e.path⟩
    exact ⟨e.registration, by rw [hcurrent]; rfl, hof.generation.symm⟩

/-- A handle of a path that has a watch is one more handle of the entry that put it there. -/
theorem Follows.registered_again (h : Follows w l) {p : Path} {node : Nat} {watch : Registration}
    (hnode : w.registry.trie.find? p = some node) (hwatch : w.registry.watchAt? p = some watch) :
    ∃ e, l.current? p = some e ∧
      Follows ⟨w.registry, w.handles ++ [⟨node, watch.generation⟩]⟩
        { l with handles := l.handles ++ [e] } := by
  rw [h.watches] at hwatch
  obtain ⟨e, hcurrent, rfl⟩ := Option.map_eq_some_iff.mp hwatch
  obtain ⟨he, _, hep⟩ := h.valid.current?_eq_some_iff.mp hcurrent
  refine ⟨e, hcurrent, ?_, h.shape, h.watches, ?_, h.next, h.active, h.valued⟩
  · refine ⟨h.valid.numbered, h.valid.distinct, h.valid.watchable, h.valid.latest, ?_,
      h.valid.closed⟩
    intro f hf
    rcases List.mem_append.mp hf with hf | hf
    · exact h.valid.handles f hf
    · rw [List.mem_singleton.mp hf]
      exact he
  · refine concat_rel_iff.mpr ⟨h.handles, ?_, rfl⟩
    rw [Trie.find?_congr hep, hnode]

/-- A watch on a path that had none is that of a new entry. -/
theorem Follows.registered_new (h : Follows w l) {p : Path} {kind : Kind} {node : Nat}
    {r : Registry} (hp : Watchable p) (hnone : w.registry.watchAt? p = none)
    (hr : w.registry.Registered p kind node r) :
    l.current? p = none ∧
      Follows ⟨r, w.handles ++ [⟨node, w.registry.nextGeneration⟩]⟩ (l.enter p kind) := by
  rw [h.watches, Option.map_eq_none_iff] at hnone
  refine ⟨hnone, h.valid.enter hp hnone, hr.shape, ?_, ?_, ?_, ?_, ?_⟩
  · intro q
    rw [hr.watches, h.valid.current?_enter, h.next, h.watches]
    by_cases hpq : p ≈ q
    · rw [if_pos hpq, if_pos hpq]
      rfl
    · rw [if_neg hpq, if_neg hpq]
  · refine concat_rel_iff.mpr ⟨h.handles.imp ?_, hr.found, h.next⟩
    intro handle e hof
    exact ⟨hr.kept e.path handle.node hof.node, hof.generation⟩
  · rw [hr.next, h.next]
    rfl
  · rw [hr.active, h.active, h.valid.active_enter, List.length_cons]
  · rw [hr.active, hr.valued, h.valued]

/-- Closing through a handle of an entry strikes that entry out. -/
theorem Follows.closed (h : Follows w l) (he : e ∈ l.entries)
    (hof : w.registry.IsHandleOf handle e) :
    (w.registry.close handle).1 = !l.isClosed e ∧
      Follows { w with registry := (w.registry.close handle).2 } (l.strike e) := by
  cases hclosed : l.isClosed e with
  | true =>
    have hnot : w.registry.isCurrent handle = false := by
      rw [Bool.eq_false_iff, ne_eq, h.isCurrent_iff he hof, hclosed]
      exact Bool.noConfusion
    rw [Registry.close_of_not_current hnot]
    refine ⟨rfl, h.valid.strike he, h.shape, ?_, h.handles, h.next, ?_, h.valued⟩
    · intro p
      rw [h.watches, Ledger.current?_strike_of_closed hclosed]
    · rw [h.active, Ledger.active_strike_of_closed hclosed]
  | false =>
    obtain ⟨htrue, hr⟩ :=
      Registry.close_of_current h.shape hof.node ((h.isCurrent_iff he hof).mpr hclosed)
    have hlength := h.valid.length_active_strike he hclosed
    have hvalued := hr.valued
    rw [← h.valued] at hvalued
    refine ⟨htrue, h.valid.strike he, hr.shape, ?_, ?_, hr.next.trans h.next, ?_, ?_⟩
    · intro p
      rw [hr.watches, h.valid.current?_strike he hclosed, h.watches]
      by_cases hep : e.path ≈ p
      · rw [if_pos hep, if_pos hep]
        rfl
      · rw [if_neg hep, if_neg hep]
    · refine h.handles.imp ?_
      intro handle f hf
      exact ⟨(hr.kept f.path).trans hf.node, hf.generation⟩
    · have := h.active
      rw [hr.active]
      omega
    · have := hr.active
      show (w.registry.close handle).2.active = (w.registry.close handle).2.trie.valued.card
      omega

/-- **Every call keeps a registry to its ledger.** -/
theorem Follows.call (h : Follows w l) (call : Call) : Follows (w.call call).2 (l.next call) := by
  cases call with
  | watch p kind =>
    rw [Watcher.call, Ledger.next]
    rcases Registry.register_cases h.shape p kind with ⟨hnot, e, heq⟩ |
      ⟨hp, node, watch, hnode, hwatch, heq⟩ | ⟨hp, hnone, node, r, heq, hr⟩
    · have hhandles : w.handles ++ (none : Option Handle).toList = w.handles := List.append_nil _
      rw [heq, if_neg hnot]
      show Follows ⟨w.registry, w.handles ++ (none : Option Handle).toList⟩ l
      rw [hhandles]
      exact h
    · obtain ⟨e, hcurrent, hfollows⟩ := h.registered_again hnode hwatch
      rw [heq, if_pos hp, hcurrent]
      exact hfollows
    · obtain ⟨hcurrent, hfollows⟩ := h.registered_new hp hnone hr
      rw [heq, if_pos hp, hcurrent]
      exact hfollows
  | close i =>
    rw [Watcher.call, Ledger.next]
    rcases h.handle_cases i with ⟨hw, hl⟩ | ⟨handle, e, hw, hl, he, hof⟩
    · rw [hw, hl]
      exact h
    · rw [hw, hl]
      exact (h.closed he hof).2

theorem Follows.run (h : Follows w l) (calls : List Call) :
    Follows (w.run calls) (l.run calls) := by
  induction calls generalizing w l with
  | nil => exact h
  | cons call rest ih => exact ih (h.call call)

end BackendSync.Watch
