import BackendSync.Backend.Scripted
import BackendSync.Proofs.EditReplay

/-!
# Live texts and the log

The log of a scripted backend says what was done to it, and with the script that is all
there is to know: the state after a list of effects is the state before them with the
effects done again, one after another. So "at the moment of an effect" has a meaning, and
it is the state that performing everything before that effect leads to.

Only the watches that were asked for do not show in the log. A backend whose requests
were taken is `drained`, and two backends that differ in nothing else go through the same
effects in the same way.
-/

namespace BackendSync

/-! ## Maps of texts -/

namespace PathMap

variable {α : Type u} {m : PathMap α} {p q : Path}

theorem get?_insert (m : PathMap α) (p q : Path) (value : α) :
    (m.insert p value).get? q = if p ≈ q then some value else m.get? q := by
  split
  · rename_i h
    rw [← get?_congr h, get?_insert_self]
  · rename_i h
    exact get?_insert_of_not_equiv value h

theorem get?_erase (m : PathMap α) (p q : Path) :
    (m.erase p).get? q = if p ≈ q then none else m.get? q := by
  split
  · rename_i h
    rw [← get?_congr h, get?_erase_self]
  · rename_i h
    exact get?_erase_of_not_equiv h

theorem isSome_get?_insert {value : α} :
    ((m.insert q value).get? p).isSome ↔ (m.get? p).isSome ∨ q ≈ p := by
  rw [get?_insert]
  by_cases h : q ≈ p
  · rw [if_pos h]
    exact iff_of_true rfl (Or.inr h)
  · rw [if_neg h]
    exact (or_iff_left h).symm

theorem isSome_get?_erase : ((m.erase q).get? p).isSome ↔ (m.get? p).isSome ∧ ¬q ≈ p := by
  rw [get?_erase]
  by_cases h : q ≈ p
  · rw [if_pos h]
    exact iff_of_false Bool.false_ne_true fun hand => hand.2 h
  · rw [if_neg h]
    exact (and_iff_left h).symm

/-- An entry is known by its key. -/
theorem eq_of_equiv {x y : Path × α} (hx : x ∈ m.entries) (hy : y ∈ m.entries)
    (h : x.1 ≈ y.1) : x = y := by
  have key : ∀ ⦃x⦄, x ∈ m.entries → ∀ ⦃y⦄, y ∈ m.entries → x.1 ≈ y.1 → x = y := by
    refine List.Pairwise.forall_of_forall_of_flip (fun _ _ _ => rfl) ?_ ?_
    · exact m.distinct.imp fun hne heq => absurd heq hne
    · exact m.distinct.imp fun hne heq => absurd (Path.Equiv.symm heq) hne
  exact key hx hy h

theorem entries_overwrite (m : PathMap α) (p : Path) (value : α) :
    (m.overwrite p value).entries =
      m.entries.map fun e => if e.1 ≈ p then (e.1, value) else e := rfl

theorem insert_of_present (h : ∃ e ∈ m.entries, e.1 ≈ p) (value : α) :
    m.insert p value = m.overwrite p value := dif_pos h

theorem entries_insert_of_absent (h : ¬∃ e ∈ m.entries, e.1 ≈ p) (value : α) :
    (m.insert p value).entries = m.entries ++ [(p, value)] := by
  rw [insert, dif_neg h]

/-- Writing the value that is there changes nothing. -/
theorem insert_of_get? {value : α} (h : m.get? p = some value) : m.insert p value = m := by
  obtain ⟨x, hx, rfl⟩ := Option.map_eq_some_iff.mp h
  have hxp : x.1 ≈ p := by simpa using List.find?_some hx
  have hmem := List.mem_of_find?_eq_some hx
  rw [insert_of_present ⟨x, hmem, hxp⟩]
  refine ext ?_
  rw [entries_overwrite]
  refine (List.map_congr_left fun y hy => ?_).trans (List.map_id _)
  split
  · rename_i hyp
    rw [eq_of_equiv hy hmem (Path.Equiv.trans hyp (Path.Equiv.symm hxp))]
    rfl
  · rfl

/-- A second value written at a path replaces the first. -/
theorem insert_insert (m : PathMap α) (p : Path) (first second : α) :
    (m.insert p first).insert p second = m.insert p second := by
  by_cases h : ∃ e ∈ m.entries, e.1 ≈ p
  · obtain ⟨x, hx, hxp⟩ := h
    have hthere : ∃ e ∈ (m.overwrite p first).entries, e.1 ≈ p :=
      ⟨(x.1, first), List.mem_map.mpr ⟨x, hx, if_pos hxp⟩, hxp⟩
    rw [insert_of_present ⟨x, hx, hxp⟩, insert_of_present ⟨x, hx, hxp⟩,
      insert_of_present hthere]
    refine ext ?_
    rw [entries_overwrite, entries_overwrite, entries_overwrite, List.map_map]
    refine List.map_congr_left fun y _ => ?_
    rw [Function.comp_apply]
    by_cases hyp : y.1 ≈ p
    · rw [if_pos hyp, if_pos hyp, if_pos hyp]
    · rw [if_neg hyp, if_neg hyp]
  · have hentries := entries_insert_of_absent h first
    have hthere : ∃ e ∈ (m.insert p first).entries, e.1 ≈ p :=
      ⟨(p, first), by rw [hentries]; simp, Path.Equiv.refl p⟩
    have hothers : m.entries.map (fun e => if e.1 ≈ p then (e.1, second) else e) = m.entries := by
      refine (List.map_congr_left fun y hy => ?_).trans (List.map_id _)
      rw [if_neg fun hyp => h ⟨y, hy, hyp⟩]
      rfl
    rw [insert_of_present hthere]
    refine ext ?_
    rw [entries_overwrite, hentries, entries_insert_of_absent h, List.map_append, hothers,
      List.map_singleton, if_pos (Setoid.refl p)]

end PathMap

/-! ## Performing effects -/

/-- Does to a backend what an effect says was done to one. -/
def Effect.perform (b : Scripted) : Effect → Scripted
  | .opened path text root => (b.openFile path text root).2
  | .closed path => b.closeFile path
  | .edited path edit => b.applyEdit path edit
  | .extensions sent => b.record (.extensions sent)
  | .defaultProject path => b.record (.defaultProject path)
  | .notified event => b.notify event

/-- The file whose text an effect changes. -/
def Effect.target? : Effect → Option Path
  | .opened path _ _ => some path
  | .closed path => some path
  | .edited path _ => some path
  | _ => none

/-- Effects that are about no file in particular. -/
def Quiet (effects : List Effect) : Prop := ∀ e ∈ effects, e.target? = none

theorem Quiet.append {first second : List Effect} (hfirst : Quiet first)
    (hsecond : Quiet second) : Quiet (first ++ second) := by
  intro e he
  rcases List.mem_append.mp he with h | h
  · exact hfirst e h
  · exact hsecond e h

/-- The file that an effect closes. -/
def Effect.closed? : Effect → Option Path
  | .closed path => some path
  | _ => none

namespace Scripted

/-- Performs effects one after another. -/
def performAll (b : Scripted) (effects : List Effect) : Scripted :=
  effects.foldl Effect.perform b

/-- The backend once its requests for watches have been taken. -/
def drained (b : Scripted) : Scripted := { b with queue := [] }

@[simp] theorem performAll_nil (b : Scripted) : b.performAll [] = b := rfl

@[simp] theorem performAll_cons (b : Scripted) (e : Effect) (effects : List Effect) :
    b.performAll (e :: effects) = (e.perform b).performAll effects := rfl

theorem performAll_append (b : Scripted) (first second : List Effect) :
    b.performAll (first ++ second) = (b.performAll first).performAll second :=
  List.foldl_append

theorem log_perform (b : Scripted) (e : Effect) : (e.perform b).log = b.log ++ [e] := by
  cases e with
  | notified event =>
    rw [Effect.perform, notify]
    split <;> rfl
  | _ => rfl

theorem directory_perform (b : Scripted) (e : Effect) :
    (e.perform b).directory = b.directory := by
  cases e with
  | notified event =>
    rw [Effect.perform, notify]
    split <;> rfl
  | _ => rfl

/-- Effects are written to the log in order, and nothing else is. -/
theorem log_performAll (b : Scripted) (effects : List Effect) :
    (b.performAll effects).log = b.log ++ effects := by
  induction effects generalizing b with
  | nil => rw [performAll_nil, List.append_nil]
  | cons e rest ih =>
    rw [performAll_cons, ih, log_perform, List.append_assoc, List.singleton_append]

@[simp] theorem directory_performAll (b : Scripted) (effects : List Effect) :
    (b.performAll effects).directory = b.directory := by
  induction effects generalizing b with
  | nil => rfl
  | cons e rest ih => rw [performAll_cons, ih, directory_perform]

/-- A program is the live text of its file. -/
theorem get?_of_program? {b : Scripted} {path : Path} {program : String}
    (h : b.program? path = some program) : b.buffers.get? path = some program := by
  unfold program? at h
  split at h
  · cases h
  · exact h

/-- The live texts after an effect. -/
theorem buffers_perform (b : Scripted) (e : Effect) :
    (e.perform b).buffers =
      match e with
      | .opened path text _ => b.buffers.insert path text
      | .closed path => b.buffers.erase path
      | .edited path edit =>
        match (b.buffers.get? path).bind edit.applyTo? with
        | some text => b.buffers.insert path text
        | none => b.buffers
      | _ => b.buffers := by
  cases e with
  | notified event =>
    rw [Effect.perform, notify]
    split <;> rfl
  | _ => rfl

theorem get?_perform_of_not_target {e : Effect} {p : Path} (h : ∀ q ∈ e.target?, ¬q ≈ p)
    (b : Scripted) : (e.perform b).buffers.get? p = b.buffers.get? p := by
  rw [buffers_perform]
  cases e with
  | opened path text root => exact PathMap.get?_insert_of_not_equiv text (h path rfl)
  | closed path => exact PathMap.get?_erase_of_not_equiv (h path rfl)
  | edited path edit =>
    dsimp only
    split
    · exact PathMap.get?_insert_of_not_equiv _ (h path rfl)
    · rfl
  | _ => rfl

/-- A file that no effect is about keeps its text. -/
theorem get?_performAll_of_not_target {effects : List Effect} {p : Path}
    (h : ∀ e ∈ effects, ∀ q ∈ e.target?, ¬q ≈ p) (b : Scripted) :
    (b.performAll effects).buffers.get? p = b.buffers.get? p := by
  induction effects generalizing b with
  | nil => rfl
  | cons e rest ih =>
    have hrest := ih fun x hx => h x (List.mem_cons_of_mem e hx)
    rw [performAll_cons, hrest, get?_perform_of_not_target (h e List.mem_cons_self)]

theorem buffers_performAll_of_quiet {effects : List Effect} (h : Quiet effects) (b : Scripted) :
    (b.performAll effects).buffers = b.buffers := by
  induction effects generalizing b with
  | nil => rfl
  | cons e rest ih =>
    rw [performAll_cons, ih fun x hx => h x (List.mem_cons_of_mem e hx), buffers_perform]
    have he := h e List.mem_cons_self
    cases e with
    | opened path text root => cases he
    | closed path => cases he
    | edited path edit => cases he
    | _ => rfl

/-- **Edits of a live text that have a result leave just that result.** -/
theorem performAll_edited {edits : List Edit} {path : Path} {live text : String}
    (b : Scripted) (hlive : b.buffers.get? path = some live)
    (hedits : Edit.replay? edits live = some text) :
    b.performAll (edits.map (.edited path)) =
      { b with
        buffers := b.buffers.insert path text
        log := b.log ++ edits.map (.edited path) } := by
  induction edits generalizing b live with
  | nil =>
    cases hedits
    rw [PathMap.insert_of_get? hlive, List.map_nil, performAll_nil, List.append_nil]
  | cons e rest ih =>
    rw [Edit.replay?_cons] at hedits
    obtain ⟨next, hnext, hrest⟩ := Option.bind_eq_some_iff.mp hedits
    have happly : Effect.perform b (.edited path e) =
        { b with buffers := b.buffers.insert path next, log := b.log ++ [.edited path e] } := by
      rw [Effect.perform, applyEdit, hlive, Option.bind_some, hnext]
      rfl
    -- the texts in between are overwritten, so only the last one shows
    rw [List.map_cons, performAll_cons, happly, ih _ (PathMap.get?_insert_self ..) hrest]
    rw [PathMap.insert_insert, List.append_assoc, List.singleton_append]

/-! ## Changes from outside -/

theorem buffers_change (b : Scripted) (c : Change) :
    (b.change c).2.buffers =
      match c with
      | .dropBuffer path => b.buffers.erase path
      | .overwrite path text =>
        if b.buffers.contains path then b.buffers.insert path text else b.buffers
      | _ => b.buffers := by
  cases c with
  | overwrite path text =>
    by_cases h : b.buffers.contains path = true
    · simp only [change, if_pos h]
    · simp only [change, if_neg h]
  | setProgram path available => cases available <;> rfl
  | _ => rfl

/-- Changes from outside leave no trace in the log. -/
theorem log_change (b : Scripted) (c : Change) : (b.change c).2.log = b.log := by
  cases c with
  | overwrite path text =>
    rw [change]
    split <;> rfl
  | setProgram path available => cases available <;> rfl
  | _ => rfl

theorem directory_change (b : Scripted) (c : Change) : (b.change c).2.directory = b.directory := by
  cases c with
  | overwrite path text =>
    rw [change]
    split <;> rfl
  | setProgram path available => cases available <;> rfl
  | _ => rfl

/-- A change from outside gives no file a text, and only dropping a text takes one away. -/
theorem isSome_change_iff {b : Scripted} {c : Change} {p : Path} :
    ((b.change c).2.buffers.get? p).isSome ↔
      (b.buffers.get? p).isSome ∧ ∀ q, c = .dropBuffer q → ¬q ≈ p := by
  rw [buffers_change]
  cases c with
  | dropBuffer path =>
    rw [PathMap.isSome_get?_erase]
    refine and_congr_right fun _ => ⟨fun h q hq => ?_, fun h => h path rfl⟩
    cases hq
    exact h
  | overwrite path text =>
    rw [and_iff_left fun q hq => by cases hq]
    dsimp only
    split
    · rename_i hpresent
      rw [PathMap.isSome_get?_insert]
      refine or_iff_left_of_imp fun heq => ?_
      rw [← PathMap.get?_congr heq]
      exact hpresent
    · rfl
  | _ => exact (and_iff_left fun q hq => by cases hq).symm

/-! ## Edits that fit -/

/--
Every edit is inside the text it is applied to, as that text is when its turn comes, and
on the boundaries of characters there.
-/
def EditsFit (b : Scripted) (effects : List Effect) : Prop :=
  ∀ sooner path edit later, effects = sooner ++ .edited path edit :: later →
    ∃ text, (b.performAll sooner).buffers.get? path = some text ∧ edit.Fits text

theorem editsFit_of_no_edit {effects : List Effect}
    (h : ∀ path edit, .edited path edit ∉ effects) (b : Scripted) : b.EditsFit effects := by
  intro sooner path edit later heq
  exact absurd (by rw [heq]; exact List.mem_append_right _ List.mem_cons_self) (h path edit)

/-- Effects about no file may come before ones that fit. -/
theorem EditsFit.after_quiet {b : Scripted} {first second : List Effect}
    (h : (b.performAll first).EditsFit second) (hfirst : Quiet first) :
    b.EditsFit (first ++ second) := by
  intro sooner path edit later heq
  have hearly : ∀ rest, first ≠ sooner ++ .edited path edit :: rest := by
    intro rest hin
    have hmem : Effect.edited path edit ∈ first := by
      rw [hin]
      exact List.mem_append_right _ List.mem_cons_self
    cases hfirst _ hmem
  rcases List.append_eq_append_iff.mp heq with ⟨middle, hsooner, hsecond⟩ | ⟨middle, hin, hback⟩
  · obtain ⟨text, htext, hfits⟩ := h middle path edit later hsecond
    rw [hsooner, performAll_append]
    exact ⟨text, htext, hfits⟩
  · -- the edit is not among the first effects, so these end before it
    rcases List.cons_eq_append_iff.mp hback with ⟨hnil, hsecond⟩ | ⟨rest, hcons, _⟩
    · obtain ⟨text, htext, hfits⟩ := h [] path edit later hsecond
      rw [hin, hnil, List.append_nil] at htext
      exact ⟨text, htext, hfits⟩
    · rw [hcons] at hin
      exact absurd hin (hearly rest)

/-- Edits that have a result fit, each of them when its turn comes. -/
theorem editsFit_edited {edits : List Edit} {path : Path} {live text : String} {b : Scripted}
    (hlive : b.buffers.get? path = some live) (hedits : Edit.replay? edits live = some text) :
    b.EditsFit (edits.map (.edited path)) := by
  intro sooner q edit later heq
  obtain ⟨first, rest, hsplit, hfirst, hrest⟩ := List.map_eq_append_iff.mp heq
  obtain ⟨next, others, hcons, hnext, _⟩ := List.map_eq_cons_iff.mp hrest
  cases hnext
  subst hsplit hfirst hcons
  obtain ⟨now, hnow, hfits⟩ := Edit.fits_of_replay? hedits
  refine ⟨now, ?_, hfits⟩
  -- the live text at that moment is what the earlier edits made of it
  rw [performAll_edited b hlive hnow]
  exact PathMap.get?_insert_self ..

end Scripted

end BackendSync
