import BackendSync.Proofs.LiveTexts

/-!
# Which files a log leaves open

A log alone says which files are open: those that were opened and not closed since. That
is a definition by what is in the log, and it is also a set that can be kept while the
log grows, where an opening inserts a path and a closing erases it. `mem_openPaths_iff`
says that the two agree. The set counts, so it is the one the bound on the number of open
files is about.
-/

namespace BackendSync

/-- The file that an effect opens. -/
def Effect.opened? : Effect → Option Path
  | .opened path _ _ => some path
  | _ => none

/-- Effects that open nothing and close nothing. -/
def Calm (effects : List Effect) : Prop :=
  ∀ e ∈ effects, e.opened? = none ∧ e.closed? = none

/-- The open files after an effect. -/
def Effect.account (isOpen : PathSet) : Effect → PathSet
  | .opened path _ _ => isOpen.insert path
  | .closed path => isOpen.erase path
  | _ => isOpen

/-- The open files after a list of effects. -/
def openAfter (isOpen : PathSet) (effects : List Effect) : PathSet :=
  effects.foldl Effect.account isOpen

/-- The files that a log leaves open. -/
def openPaths (log : List Effect) : PathSet := openAfter ∅ log

@[simp] theorem openAfter_nil (isOpen : PathSet) : openAfter isOpen [] = isOpen := rfl

@[simp] theorem openAfter_cons (isOpen : PathSet) (e : Effect) (effects : List Effect) :
    openAfter isOpen (e :: effects) = openAfter (e.account isOpen) effects := rfl

theorem openAfter_append (isOpen : PathSet) (first second : List Effect) :
    openAfter isOpen (first ++ second) = openAfter (openAfter isOpen first) second :=
  List.foldl_append

theorem openPaths_append (log effects : List Effect) :
    openPaths (log ++ effects) = openAfter (openPaths log) effects := openAfter_append ..

/-! ## Said of the log itself -/

/-- A log opens a file and does not close it later. -/
def OpenIn (log : List Effect) (p : Path) : Prop :=
  ∃ earlier q text root later, log = earlier ++ .opened q text root :: later ∧ q ≈ p ∧
    ∀ r, .closed r ∈ later → ¬r ≈ p

theorem openIn_nil {p : Path} : ¬OpenIn [] p := by
  intro h
  obtain ⟨earlier, _, _, _, later, heq, _⟩ := h
  exact List.append_ne_nil_of_right_ne_nil earlier (List.cons_ne_nil _ later) heq.symm

theorem openIn_cons {e : Effect} {rest : List Effect} {p : Path} :
    OpenIn (e :: rest) p ↔
      OpenIn rest p ∨ (∃ q ∈ e.opened?, q ≈ p) ∧ ∀ r, .closed r ∈ rest → ¬r ≈ p := by
  constructor
  · intro h
    obtain ⟨earlier, q, text, root, later, heq, hqp, hlater⟩ := h
    cases earlier with
    | nil =>
      cases heq
      exact Or.inr ⟨⟨q, rfl, hqp⟩, hlater⟩
    | cons x earlier =>
      cases heq
      exact Or.inl ⟨earlier, q, text, root, later, rfl, hqp, hlater⟩
  · intro h
    rcases h with ⟨earlier, q, text, root, later, heq, hqp, hlater⟩ | ⟨⟨q, hq, hqp⟩, hlater⟩
    · exact ⟨e :: earlier, q, text, root, later, by rw [heq]; rfl, hqp, hlater⟩
    · cases e with
      | opened path text root =>
        cases hq
        exact ⟨[], q, text, root, rest, rfl, hqp, hlater⟩
      | _ => cases hq

/-- A file is open after some effects if they open it, or it was open and they do not close it. -/
theorem mem_openAfter_iff {isOpen : PathSet} {effects : List Effect} {p : Path} :
    p ∈ openAfter isOpen effects ↔
      OpenIn effects p ∨ p ∈ isOpen ∧ ∀ r, .closed r ∈ effects → ¬r ≈ p := by
  induction effects generalizing isOpen with
  | nil =>
    rw [openAfter_nil, or_iff_right openIn_nil]
    exact (and_iff_left fun r hr => absurd hr List.not_mem_nil).symm
  | cons e rest ih =>
    rw [openAfter_cons, ih, openIn_cons]
    cases e with
    | opened q text root =>
      rw [Effect.account, PathSet.mem_insert]
      simp only [Effect.opened?, Option.mem_some_iff, List.mem_cons, reduceCtorEq, false_or]
      grind
    | closed q =>
      rw [Effect.account, PathSet.mem_erase]
      simp only [Effect.opened?, Option.not_mem_none, List.mem_cons, Effect.closed.injEq]
      grind
    | _ =>
      simp only [Effect.account, Effect.opened?, Option.not_mem_none, List.mem_cons, reduceCtorEq,
        false_or, false_and, exists_false, or_false]

/-- **The set that is kept along a log holds the files that the log leaves open.** -/
theorem mem_openPaths_iff {log : List Effect} {p : Path} : p ∈ openPaths log ↔ OpenIn log p := by
  rw [openPaths, mem_openAfter_iff]
  refine or_iff_left fun h => ?_
  obtain ⟨q, hq, _⟩ := h.1
  exact absurd hq List.not_mem_nil

/-! ## Texts that are alive -/

/-- An edit brings no text to life and takes none away. -/
theorem isSome_get?_applyEdit {b : Scripted} {p q : Path} {edit : Edit} :
    ((b.applyEdit q edit).buffers.get? p).isSome ↔ (b.buffers.get? p).isSome := by
  have hbuffers := Scripted.buffers_perform b (.edited q edit)
  rw [Effect.perform] at hbuffers
  rw [hbuffers]
  dsimp only
  split
  · rename_i text hedited
    obtain ⟨live, hlive, _⟩ := Option.bind_eq_some_iff.mp hedited
    rw [PathMap.isSome_get?_insert]
    refine or_iff_left_of_imp fun hqp => ?_
    rw [← PathMap.get?_congr hqp, hlive]
    rfl
  · rfl

/--
**Live texts go by the log as open files do.** A text is alive after some effects if they
open its file, or it was alive and they do not close it.
-/
theorem isSome_performAll_iff {b : Scripted} {effects : List Effect} {p : Path} :
    ((b.performAll effects).buffers.get? p).isSome ↔
      OpenIn effects p ∨ (b.buffers.get? p).isSome ∧ ∀ r, .closed r ∈ effects → ¬r ≈ p := by
  induction effects generalizing b with
  | nil =>
    rw [Scripted.performAll_nil, or_iff_right openIn_nil]
    exact (and_iff_left fun r hr => absurd hr List.not_mem_nil).symm
  | cons e rest ih =>
    rw [Scripted.performAll_cons, ih, openIn_cons]
    cases e with
    | opened q text root =>
      rw [Scripted.buffers_perform, PathMap.isSome_get?_insert]
      simp only [Effect.opened?, Option.mem_some_iff, List.mem_cons, reduceCtorEq, false_or]
      grind
    | closed q =>
      rw [Scripted.buffers_perform, PathMap.isSome_get?_erase]
      simp only [Effect.opened?, Option.not_mem_none, List.mem_cons, Effect.closed.injEq]
      grind
    | edited q edit =>
      rw [Effect.perform, isSome_get?_applyEdit]
      simp only [Effect.opened?, Option.not_mem_none, List.mem_cons, reduceCtorEq,
        false_or, false_and, exists_false, or_false]
    | _ =>
      rw [Scripted.buffers_perform]
      simp only [Effect.opened?, Option.not_mem_none, List.mem_cons, reduceCtorEq,
        false_or, false_and, exists_false, or_false]

/-! ## Effects that do not count -/

theorem Quiet.calm {effects : List Effect} (h : Quiet effects) : Calm effects := by
  intro e he
  have hnone := h e he
  cases e with
  | opened path text root => cases hnone
  | closed path => cases hnone
  | _ => exact ⟨rfl, rfl⟩

theorem Calm.append {first second : List Effect} (hfirst : Calm first) (hsecond : Calm second) :
    Calm (first ++ second) := by
  intro e he
  rcases List.mem_append.mp he with h | h
  · exact hfirst e h
  · exact hsecond e h

theorem calm_edited (path : Path) (edits : List Edit) : Calm (edits.map (.edited path)) := by
  intro e he
  obtain ⟨edit, _, rfl⟩ := List.mem_map.mp he
  exact ⟨rfl, rfl⟩

theorem openAfter_of_calm {effects : List Effect} (h : Calm effects) (isOpen : PathSet) :
    openAfter isOpen effects = isOpen := by
  induction effects generalizing isOpen with
  | nil => rfl
  | cons e rest ih =>
    rw [openAfter_cons, ih fun x hx => h x (List.mem_cons_of_mem e hx)]
    obtain ⟨hopened, hclosed⟩ := h e List.mem_cons_self
    cases e with
    | opened path text root => cases hopened
    | closed path => cases hclosed
    | _ => rfl

theorem openPaths_append_calm {effects : List Effect} (h : Calm effects) (log : List Effect) :
    openPaths (log ++ effects) = openPaths log := by
  rw [openPaths_append, openAfter_of_calm h]

/-- A file is opened after effects that do not count. -/
theorem openPaths_append_opened {first rest : List Effect} (h : Calm first) (log : List Effect)
    (path : Path) (text : String) (root : Path) :
    openPaths (log ++ (first ++ .opened path text root :: rest)) =
      openAfter ((openPaths log).insert path) rest := by
  rw [openPaths_append, openAfter_append, openAfter_of_calm h]
  rfl

/-! ## Closing several files -/

/-- What is left open after some files are closed. -/
theorem toList_openAfter_closed (isOpen : PathSet) (paths : List Path) :
    (openAfter isOpen (paths.map .closed)).toList =
      isOpen.toList.filter fun q => decide (∀ p ∈ paths, ¬q ≈ p) := by
  induction paths generalizing isOpen with
  | nil => exact (List.filter_eq_self.mpr fun q _ => by simp).symm
  | cons p rest ih =>
    rw [List.map_cons, openAfter_cons, ih]
    show (isOpen.toList.filter fun q => !decide (q ≈ p)).filter _ = _
    rw [List.filter_filter]
    refine List.filter_congr fun q _ => ?_
    simp [Bool.and_comm]

/-- The order in which the open files are listed does not matter for what is left of them. -/
theorem openAfter_closed_perm {isOpen : PathSet} {listed : List Path}
    (h : isOpen.toList.Perm listed) (paths : List Path) :
    (openAfter isOpen (paths.map .closed)).toList.Perm
      (listed.filter fun q => decide (∀ p ∈ paths, ¬q ≈ p)) := by
  rw [toList_openAfter_closed]
  exact h.filter _

theorem mem_openAfter_closed {isOpen : PathSet} {paths : List Path} {q : Path}
    (h : q ∈ isOpen.toList) (hpaths : ∀ p ∈ paths, ¬q ≈ p) :
    q ∈ openAfter isOpen (paths.map .closed) := by
  refine ⟨q, ?_, Setoid.refl q⟩
  rw [toList_openAfter_closed]
  exact List.mem_filter.mpr ⟨h, decide_eq_true hpaths⟩

theorem size_openAfter_closed_le (isOpen : PathSet) (paths : List Path) :
    (openAfter isOpen (paths.map .closed)).size ≤ isOpen.size := by
  rw [PathSet.size, toList_openAfter_closed]
  exact List.length_filter_le ..

end BackendSync
