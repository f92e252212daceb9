import BackendSync.Proofs.WatchLedger

/-!
# Handles of watches

A handle is as good as its entry in the ledger. Two handles are equal if they are of one
entry, closing through a handle answers whether its entry is still without a strike, and
after that the entry is struck out for good. So a node can be used again and again without
a handle from before ever closing what is there now.
-/

namespace BackendSync.Watch

namespace Ledger

variable {l : Ledger} {e : Entry}

/-- What is struck out stays struck out. -/
theorem isClosed_next (h : l.isClosed e = true) (call : Call) :
    (l.next call).isClosed e = true := by
  cases call with
  | watch p kind =>
    rw [next]
    split
    · split
      · exact h
      · exact h
    · exact h
  | close i =>
    rw [next]
    split
    · exact (isClosed_strike l _ e).mpr (Or.inr h)
    · exact h

theorem isClosed_run (h : l.isClosed e = true) (calls : List Call) :
    (l.run calls).isClosed e = true := by
  induction calls generalizing l with
  | nil => exact h
  | cons call rest ih => exact ih (isClosed_next h call)

/-- A call of close strikes out the entry of its handle. -/
theorem isClosed_close {i : Nat} (h : l.handles[i]? = some e) :
    (l.next (.close i)).isClosed e = true := by
  rw [next, h]
  exact (isClosed_strike l e e).mpr (Or.inl rfl)

end Ledger

variable {w : Watcher} {l : Ledger} {e f : Entry} {handle handle' : Handle}

/-- Equal handles are of one entry, and the other way round. -/
theorem Follows.handle_eq_iff (h : Follows w l) (he : e ∈ l.entries) (hf : f ∈ l.entries)
    (hof : w.registry.IsHandleOf handle e) (hof' : w.registry.IsHandleOf handle' f) :
    handle = handle' ↔ e = f := by
  constructor
  · intro heq
    refine h.valid.eq_of_number he hf ?_
    rw [← hof.generation, ← hof'.generation, heq]
  · intro heq
    subst heq
    have hnode : handle.node = handle'.node := Option.some.inj (hof.node.symm.trans hof'.node)
    have hgeneration := hof.generation.trans hof'.generation.symm
    cases handle
    cases handle'
    simp_all

theorem Follows.answer_close (h : Follows w l) {i : Nat} (hi : l.handles[i]? = some e) :
    (w.call (.close i)).1 = .closed (!l.isClosed e) := by
  obtain ⟨he, handle, hw, hof⟩ := h.handle_of hi
  rw [Watcher.call, hw]
  dsimp only
  rw [(h.closed he hof).1]

/-- An entry is not struck out as long as its watch is on its path. -/
theorem Follows.isClosed_eq_false_iff (h : Follows w l) (he : e ∈ l.entries) :
    l.isClosed e = false ↔ w.registry.watchAt? e.path = some e.registration := by
  rw [h.watches, Option.map_eq_some_iff]
  constructor
  · intro hopen
    exact ⟨e, h.valid.current?_eq_some_iff.mpr ⟨he, hopen, Setoid.refl e.path⟩, rfl⟩
  · intro hcurrent
    obtain ⟨f, hf, heq⟩ := hcurrent
    obtain ⟨hfe, hopen, _⟩ := h.valid.current?_eq_some_iff.mp hf
    rwa [h.valid.eq_of_number hfe he (congrArg Registration.generation heq)] at hopen

/-- A close that says so has one watch to count down. -/
theorem Registry.active_close {r : Registry} (hactive : r.active = r.trie.valued.card)
    (h : (r.close handle).1 = true) : (r.close handle).2.active + 1 = r.active := by
  cases hcurrent : r.isCurrent handle with
  | false =>
    rw [close_of_not_current hcurrent] at h
    cases h
  | true =>
    have hmem : handle.node ∈ r.trie.valued := by
      rw [Trie.mem_valued]
      rw [isCurrent, beq_iff_eq] at hcurrent
      obtain ⟨watch, hwatch, _⟩ := Option.map_eq_some_iff.mp hcurrent
      rw [hwatch]
      rfl
    have hpos := Finset.card_pos.mpr ⟨_, hmem⟩
    rw [close, if_pos hcurrent]
    show r.active - 1 + 1 = r.active
    omega

/-- What the handles of a registry are good for, by the ledger of its watches. -/
structure SafeHandles (w : Watcher) (l : Ledger) : Prop where
  /-- Every handle is of an entry. -/
  entered : w.handles.length = l.handles.length ∧ ∀ e ∈ l.handles, e ∈ l.entries
  /-- Two handles are equal just if they are of one entry, and so of one path. -/
  equal : ∀ (i j : Nat) handle handle' e f,
    w.handles[i]? = some handle → w.handles[j]? = some handle' →
    l.handles[i]? = some e → l.handles[j]? = some f → (handle = handle' ↔ e = f)
  /-- A handle has the generation of its entry and the node of its path. -/
  generation : ∀ (i : Nat) handle e, w.handles[i]? = some handle → l.handles[i]? = some e →
    handle.generation = e.number ∧ w.registry.trie.find? e.path = some handle.node
  /-- Generations differ, and all of them are used up. -/
  distinct : ∀ e ∈ l.entries, ∀ f ∈ l.entries, e.number = f.number → e = f
  below : ∀ e ∈ l.entries, e.number < w.registry.nextGeneration
  counted : w.registry.nextGeneration = l.entries.length
  /-- An entry that is not struck out is that of the watch on its path. -/
  standing : ∀ e ∈ l.entries,
    l.isClosed e = false ↔ w.registry.watchAt? e.path = some e.registration
  /-- A close says whether the entry was not struck out. -/
  closes : ∀ (i : Nat) e, l.handles[i]? = some e → (w.call (.close i)).1 = .closed (!l.isClosed e)
  /-- Once an entry was closed, no later close of it says so. -/
  once : ∀ (i : Nat) e, l.handles[i]? = some e → ∀ later (j : Nat),
    (l.run (.close i :: later)).handles[j]? = some e →
      ((w.run (.close i :: later)).call (.close j)).1 = .closed false
  /-- A close that does not say so does nothing, whatever handle it is given. -/
  idle : ∀ handle, (w.registry.close handle).1 = false →
    w.registry.close handle = (false, w.registry)
  /-- The count of active watches is that of the nodes that hold one, and never runs below. -/
  active : w.registry.active = w.registry.trie.valued.card
  above : ∀ handle, (w.registry.close handle).1 = true →
    (w.registry.close handle).2.active + 1 = w.registry.active

theorem Follows.safeHandles (h : Follows w l) : SafeHandles w l := by
  refine ⟨⟨h.handles.length_eq, h.valid.handles⟩, ?_, ?_, ?_, ?_, h.next, ?_, ?_, ?_, ?_,
    h.valued, ?_⟩
  · intro i j handle handle' e f hi hj he hf
    obtain ⟨hentry, _, hw, hof⟩ := h.handle_of he
    obtain ⟨hentry', _, hw', hof'⟩ := h.handle_of hf
    obtain rfl := Option.some.inj (hw.symm.trans hi)
    obtain rfl := Option.some.inj (hw'.symm.trans hj)
    exact h.handle_eq_iff hentry hentry' hof hof'
  · intro i handle e hi he
    obtain ⟨_, _, hw, hof⟩ := h.handle_of he
    obtain rfl := Option.some.inj (hw.symm.trans hi)
    exact ⟨hof.generation, hof.node⟩
  · intro e he f hf hnumber
    exact h.valid.eq_of_number he hf hnumber
  · intro e he
    rw [h.next]
    exact h.valid.numbered e he
  · intro e he
    exact h.isClosed_eq_false_iff he
  · intro i e hi
    exact h.answer_close hi
  · intro i e hi later j hj
    have hclosed := Ledger.isClosed_run (Ledger.isClosed_close hi) later
    rw [(h.run (.close i :: later)).answer_close hj]
    exact congrArg (fun closed => Answer.closed (!closed)) hclosed
  · intro handle hfalse
    cases hcurrent : w.registry.isCurrent handle with
    | false => exact Registry.close_of_not_current hcurrent
    | true =>
      rw [Registry.close, if_pos hcurrent] at hfalse
      cases hfalse
  · intro handle htrue
    exact Registry.active_close h.valued htrue

/--
**Handles are safe against reuse.** However watches are registered and closed, a handle is of
the one registration that it was returned for, and equal to just those handles that are of
the same one. Closing through it answers whether that registration is still active, so of all
closes through handles of it at most one answers that it is, and the others do nothing.
-/
theorem handles_safe (calls : List Call) :
    SafeHandles (Watcher.run {} calls) (Ledger.run {} calls) :=
  (follows_empty.run calls).safeHandles

end BackendSync.Watch
