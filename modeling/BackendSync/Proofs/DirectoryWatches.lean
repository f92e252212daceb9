import BackendSync.Proofs.WatchMap

/-!
# What a directory watch covers

A directory watch covers what is below it, as far as no other watch is nearer. For that the
watch that was asked for has to be there. A path that is watched keeps the watch that it has,
so a path that is watched as a file is watched as a file still after it was registered as a
directory. What is on the path then stays there until a handle of it is closed.
-/

namespace BackendSync.Watch

/-- The call closes the watch on `d`. -/
def Watcher.Closes (w : Watcher) (call : Call) (d : Path) : Prop :=
  ∃ (i : Nat) (handle : Handle), call = .close i ∧ w.handles[i]? = some handle ∧
    w.registry.trie.find? d = some handle.node ∧ (w.registry.close handle).1 = true

/-- `d` was registered as a directory after the calls `before`, and none of the calls `since`
closed the watch on it. -/
structure WatchedSince (before since : List Call) (d : Path) : Prop where
  registered : ∃ handle,
    ((Watcher.run {} before).call (.watch d .directory)).1 = .watched (.ok handle)
  kept : ∀ front call, front ++ [call] <+: since →
    ¬(Watcher.run {} (before ++ .watch d .directory :: front)).Closes call d

/-- `q` lies below `d`, and no watch is on `q` or between the two. -/
structure Registry.Clear (r : Registry) (d q : Path) : Prop where
  absolute : q.isAbsolute = true
  level : q.climbs = false
  below : d.components <+: q.components
  deeper : d.components.length < q.components.length
  unwatched : ∀ b, b.OnWayTo q → d.components.length < b.components.length → r.isWatched b = false

/-- Right below `d` there is nothing in between. -/
theorem Registry.clear_of_child {r : Registry} {d q : Path} {name : String}
    (habs : q.isAbsolute = true) (hlevel : q.climbs = false)
    (hq : q.components = d.components ++ [name]) (hunwatched : r.isWatched q = false) :
    r.Clear d q := by
  have hlength : q.components.length = d.components.length + 1 := by simp [hq]
  refine ⟨habs, hlevel, ⟨[name], hq.symm⟩, by omega, ?_⟩
  intro b hb hdeeper
  have hequiv : b ≈ q :=
    ⟨hb.left_absolute.trans habs.symm, hb.start.eq_of_length_le (by omega)⟩
  rw [isWatched_eq, kindAt?_congr hequiv, ← isWatched_eq]
  exact hunwatched

variable {w : Watcher} {l : Ledger} {e : Entry} {d q : Path} {kind : Kind} {handle : Handle}

/-! ## A watch that stands -/

/-- The current entry of a path stays so, but for a close of a handle of it. -/
theorem Ledger.Valid.current?_next (h : l.Valid) (hcurrent : l.current? d = some e) (call : Call) :
    (l.next call).current? d = some e ∨ ∃ i, call = .close i ∧ l.handles[i]? = some e := by
  cases call with
  | watch p kind =>
    refine Or.inl ?_
    rw [next]
    split
    · cases hother : l.current? p with
      | some f => exact hcurrent
      | none =>
        -- a path that has an entry is not the one that is entered
        have hne : ¬p ≈ d := by
          intro hpd
          rw [current?_congr hpd, hcurrent] at hother
          cases hother
        dsimp only
        rw [h.current?_enter, if_neg hne]
        exact hcurrent
    · exact hcurrent
  | close i =>
    rw [next]
    cases hi : l.handles[i]? with
    | none => exact Or.inl hcurrent
    | some f =>
      dsimp only
      have hf := h.handles f (List.mem_of_getElem? hi)
      cases hclosed : l.isClosed f with
      | true => exact Or.inl ((current?_strike_of_closed hclosed d).trans hcurrent)
      | false =>
        rw [h.current?_strike hf hclosed]
        by_cases hfd : f.path ≈ d
        · have hcurrent' := h.current?_eq_some_iff.mpr ⟨hf, hclosed, hfd⟩
          obtain rfl := Option.some.inj (hcurrent'.symm.trans hcurrent)
          exact Or.inr ⟨i, rfl, hi⟩
        · rw [if_neg hfd]
          exact Or.inl hcurrent

/-- Closing a handle of the current entry of a path closes the watch on that path. -/
theorem Follows.closes_of_current (h : Follows w l) (hcurrent : l.current? d = some e) {i : Nat}
    (hi : l.handles[i]? = some e) : w.Closes (.close i) d := by
  obtain ⟨he, hopen, hed⟩ := h.valid.current?_eq_some_iff.mp hcurrent
  obtain ⟨_, handle, hw, hof⟩ := h.handle_of hi
  refine ⟨i, handle, rfl, hw, ?_, ?_⟩
  · rw [← Trie.find?_congr hed]
    exact hof.node
  · rw [(h.closed he hof).1, hopen]
    rfl

/-- **What is on a path stays there until it is closed.** -/
theorem Follows.current?_run (h : Follows w l) (hcurrent : l.current? d = some e)
    {calls : List Call}
    (hkept : ∀ front call, front ++ [call] <+: calls → ¬(w.run front).Closes call d) :
    (l.run calls).current? d = some e := by
  induction calls generalizing w l with
  | nil => exact hcurrent
  | cons call rest ih =>
    have hnext : (l.next call).current? d = some e := by
      rcases h.valid.current?_next hcurrent call with hstays | ⟨i, rfl, hi⟩
      · exact hstays
      · exact absurd (h.closes_of_current hcurrent hi) (hkept [] _ ⟨rest, rfl⟩)
    refine ih (h.call call) hnext fun front later hfront => ?_
    exact hkept (call :: front) later ((List.prefix_cons_inj call).mpr hfront)

/-- What is on a path after it was registered: what was there before, or else what was asked for. -/
theorem Follows.current?_watch (h : Follows w l)
    (hok : (w.call (.watch d kind)).1 = .watched (.ok handle)) :
    ∃ e, (l.next (.watch d kind)).current? d = some e ∧ e.kind = (l.kindAt? d).getD kind := by
  rw [Watcher.call] at hok
  rw [Ledger.next]
  rcases Registry.register_cases h.shape d kind with ⟨_, error, heq⟩ |
    ⟨hd, node, watch, hnode, hwatch, _⟩ | ⟨hd, hnone, node, r, _, hr⟩
  · rw [heq] at hok
    cases hok
  · obtain ⟨e, hcurrent, _⟩ := h.registered_again hnode hwatch
    rw [if_pos hd, hcurrent]
    refine ⟨e, hcurrent, ?_⟩
    rw [Ledger.kindAt?, hcurrent]
    rfl
  · obtain ⟨hcurrent, _⟩ := h.registered_new hd hnone hr
    rw [if_pos hd, hcurrent]
    refine ⟨⟨l.entries.length, d, kind⟩, ?_, ?_⟩
    · dsimp only
      rw [h.valid.current?_enter, if_pos (Setoid.refl d)]
    · rw [Ledger.kindAt?, hcurrent]
      rfl

/-! ## What it covers -/

/-- A path is found on a watch above it if there is no other in between. -/
theorem Follows.find?_of_clear (h : Follows w l) (hcurrent : l.current? d = some e)
    (hclear : w.registry.Clear d q) :
    ∃ watched, watched ≈ d ∧ w.registry.find? q = some (watched, e.kind) := by
  have hkind : l.kindAt? d = some e.kind := by
    rw [Ledger.kindAt?, hcurrent]
    rfl
  have hd := h.watchable hkind
  obtain ⟨honWay, hcomponents⟩ :=
    Path.onWayTo_ofNames hclear.absolute hd.not_root hclear.below
  have hequiv : Path.ofNames d.components ≈ d :=
    ⟨honWay.left_absolute.trans hd.absolute.symm, hcomponents⟩
  refine ⟨_, hequiv, (h.find?_eq_some_iff q _ _).mpr ⟨hclear.level, ?_, honWay, ?_, ?_⟩⟩
  · rw [hcomponents]
  · rw [Ledger.kindAt?_congr hequiv, hkind]
  · intro b hb hlength
    rw [hcomponents] at hlength
    have hunwatched := hclear.unwatched b hb hlength
    rw [Registry.isWatched_eq, h.kindAt?_eq] at hunwatched
    simpa using hunwatched

/--
**A directory watch covers what is below it.** A path that was registered as a directory, and
whose watch nobody closed since, sees a path below it created if no other watch is nearer. If
there was a file watch on it when it was registered, that is the watch which was handed back,
and it sees its own path modified.
-/
theorem directory_watch_covers (before since : List Call) (d q : Path)
    (hwatched : WatchedSince before since d)
    (hclear : (Watcher.run {} (before ++ .watch d .directory :: since)).registry.Clear d q) :
    ∃ watched, watched ≈ d ∧
      ((Watcher.run {} before).registry.kindAt? d ≠ some .file →
        (Watcher.run {} (before ++ .watch d .directory :: since)).registry.trigger q =
          some ⟨watched, q, .create⟩) ∧
      ((Watcher.run {} before).registry.kindAt? d = some .file →
        (Watcher.run {} (before ++ .watch d .directory :: since)).registry.trigger q =
          some ⟨watched, watched, .modify⟩) := by
  have hsplit : ∀ calls, Watcher.run {} (before ++ .watch d .directory :: calls) =
      ((Watcher.run {} before).call (.watch d .directory)).2.run calls := fun calls => by
    simp [Watcher.run]
  have h := follows_empty.run before
  obtain ⟨handle, hok⟩ := hwatched.registered
  obtain ⟨e, hcurrent, hkind⟩ := h.current?_watch hok
  have hstands := (h.call (.watch d .directory)).current?_run hcurrent fun front call hfront => by
    rw [← hsplit]
    exact hwatched.kept front call hfront
  rw [hsplit] at hclear ⊢
  obtain ⟨watched, hequiv, hfound⟩ :=
    ((h.call (.watch d .directory)).run since).find?_of_clear hstands hclear
  rw [← h.kindAt?_eq] at hkind
  refine ⟨watched, hequiv, fun hnot => ?_, fun hfile => ?_⟩
  · have hdirectory : e.kind = .directory := by
      rw [hkind]
      cases hbefore : (Watcher.run {} before).registry.kindAt? d with
      | none => rfl
      | some kind =>
        cases kind with
        | file => exact absurd hbefore hnot
        | directory => rfl
    rw [Registry.trigger, hfound, hdirectory]
    rfl
  · rw [hfile] at hkind
    rw [Registry.trigger, hfound, hkind]
    rfl

/-- A path whose file watch was closed is covered as a directory, and a stale handle of the file
watch does not change that. -/
theorem directory_watch_covers_after_file_watch :
    WatchedSince [.watch ⟨"/d"⟩ .file, .close 0] [.close 0] ⟨"/d"⟩ ∧
    (Watcher.run {} [.watch ⟨"/d"⟩ .file, .close 0, .watch ⟨"/d"⟩ .directory,
      .close 0]).registry.Clear ⟨"/d"⟩ ⟨"/d/a"⟩ ∧
    ∃ watched : Path, watched ≈ ⟨"/d"⟩ ∧
      (Watcher.run {} [.watch ⟨"/d"⟩ .file, .close 0, .watch ⟨"/d"⟩ .directory,
        .close 0]).registry.trigger ⟨"/d/a"⟩ = some ⟨watched, ⟨"/d/a"⟩, .create⟩ := by
  have hwatched : WatchedSince [.watch ⟨"/d"⟩ .file, .close 0] [.close 0] ⟨"/d"⟩ := by
    refine ⟨⟨⟨1, 1⟩, rfl⟩, fun front call hfront hcloses => ?_⟩
    obtain ⟨i, handle, rfl, hi, _, hclose⟩ := hcloses
    rcases List.prefix_cons_iff.mp hfront with hnil | ⟨rest, hrest, hend⟩
    · simp at hnil
    · -- the one call since is the close through the stale handle
      have hrest' : rest = [] := List.prefix_nil.mp hend
      subst hrest'
      have hfront' : front = [] := by
        cases front with
        | nil => rfl
        | cons _ more => simp at hrest
      subst hfront'
      cases hrest
      cases hi
      cases hclose
  have hclear : (Watcher.run {} [.watch ⟨"/d"⟩ .file, .close 0, .watch ⟨"/d"⟩ .directory,
      .close 0]).registry.Clear ⟨"/d"⟩ ⟨"/d/a"⟩ := Registry.clear_of_child rfl rfl rfl rfl
  obtain ⟨watched, hequiv, hcreate, _⟩ := directory_watch_covers [.watch ⟨"/d"⟩ .file, .close 0]
    [.close 0] ⟨"/d"⟩ ⟨"/d/a"⟩ hwatched hclear
  exact ⟨hwatched, hclear, watched, hequiv, hcreate nofun⟩

/-- A path that is watched as a file can be registered as a directory, and covers nothing. -/
theorem file_watch_stays_on_directory :
    WatchedSince [.watch ⟨"/d"⟩ .file] [] ⟨"/d"⟩ ∧
    (Watcher.run {} [.watch ⟨"/d"⟩ .file, .watch ⟨"/d"⟩ .directory]).registry.Clear
      ⟨"/d"⟩ ⟨"/d/a"⟩ ∧
    ∀ watched : Path,
      (Watcher.run {} [.watch ⟨"/d"⟩ .file, .watch ⟨"/d"⟩ .directory]).registry.trigger
        ⟨"/d/a"⟩ ≠ some ⟨watched, ⟨"/d/a"⟩, .create⟩ := by
  refine ⟨⟨⟨⟨1, 0⟩, rfl⟩, ?_⟩, Registry.clear_of_child rfl rfl rfl rfl, ?_⟩
  · intro front call hfront
    simp at hfront
  · intro watched hcreate
    have hmodify : (Watcher.run {} [.watch ⟨"/d"⟩ .file, .watch ⟨"/d"⟩ .directory]).registry.trigger
        ⟨"/d/a"⟩ = some ⟨⟨"/d"⟩, ⟨"/d"⟩, .modify⟩ := rfl
    have hkind := congrArg (Option.map Event.kind) (hmodify.symm.trans hcreate)
    cases hkind

end BackendSync.Watch
