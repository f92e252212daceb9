import BackendSync.Proofs.AlikePaths

/-!
# Backends up to spelling

Two scripted backends are alike if they follow the same script and had the same done to
them, but for how paths are spelled in their projects, their texts and their logs. An
effect that is performed on both leaves them alike, whichever two spellings of its paths are
used, and so does a change from outside. What they report of a path is the same.

The log is the part of this that a caller can see, and it needs no argument of its own:
what is performed is what is written there.
-/

namespace BackendSync

/-- The same effect, under two spellings of its paths. -/
inductive Effect.Alike : Effect → Effect → Prop
  | opened {p q root root' : Path} {text : String} (hpath : p ≈ q) (hroot : root ≈ root') :
      Alike (.opened p text root) (.opened q text root')
  | closed {p q : Path} (h : p ≈ q) : Alike (.closed p) (.closed q)
  | edited {p q : Path} {edit : Edit} (h : p ≈ q) : Alike (.edited p edit) (.edited q edit)
  | extensions (sent : List String) : Alike (.extensions sent) (.extensions sent)
  | defaultProject {p q : Path} (h : p ≈ q) : Alike (.defaultProject p) (.defaultProject q)
  | notified {e f : Watch.Event} (h : e.Alike f) : Alike (.notified e) (.notified f)

theorem Effect.Alike.refl (e : Effect) : e.Alike e := by
  cases e with
  | opened path text root => exact .opened (Setoid.refl path) (Setoid.refl root)
  | closed path => exact .closed (Setoid.refl path)
  | edited path edit => exact .edited (Setoid.refl path)
  | extensions sent => exact .extensions sent
  | defaultProject path => exact .defaultProject (Setoid.refl path)
  | notified event => exact .notified (Watch.Event.Alike.refl event)

/-- The same project, with other spellings of its files. -/
structure Project.Alike (x y : Project) : Prop where
  configFile : x.configFile = y.configFile
  files : x.files.Alike y.files

theorem Project.Alike.refl (x : Project) : x.Alike x := ⟨rfl, PathSet.Alike.refl x.files⟩

namespace Scripted

/-- The same script and the same history, but for the spelling of paths. -/
structure Alike (b c : Scripted) : Prop where
  directory : b.directory = c.directory
  projects : List.Forall₂ Project.Alike b.projects c.projects
  adopter : b.adopter = c.adopter
  watchesOnOpen : b.watchesOnOpen = c.watchesOnOpen
  openConfig : b.openConfig.Alike c.openConfig
  withoutProgram : b.withoutProgram.Alike c.withoutProgram
  defaultProjectErrors : b.defaultProjectErrors = c.defaultProjectErrors
  buffers : b.buffers.Alike c.buffers
  queue : b.queue = c.queue
  log : List.Forall₂ Effect.Alike b.log c.log

theorem Alike.refl (b : Scripted) : b.Alike b where
  directory := rfl
  projects := List.forall₂_same.mpr fun x _ => Project.Alike.refl x
  adopter := rfl
  watchesOnOpen := rfl
  openConfig := PathMap.Alike.refl b.openConfig
  withoutProgram := PathSet.Alike.refl b.withoutProgram
  defaultProjectErrors := rfl
  buffers := PathMap.Alike.refl b.buffers
  queue := rfl
  log := List.forall₂_same.mpr fun e _ => Effect.Alike.refl e

variable {b c : Scripted} {p q : Path} {e f : Effect}

/-! ## What is read -/

theorem Alike.projectOf? (h : b.Alike c) (hpq : p ≈ q) :
    Option.Rel Project.Alike (b.projectOf? p) (c.projectOf? q) :=
  find?_rel (fun _ _ hxy => decide_eq_decide.mpr (hxy.files.mem_iff hpq)) h.projects

theorem Alike.isSome_projectOf? (h : b.Alike c) (hpq : p ≈ q) :
    (b.projectOf? p).isSome = (c.projectOf? q).isSome := isSome_eq_of_rel (h.projectOf? hpq)

/-- **A file is opened alike under all its spellings.** -/
theorem Alike.report (h : b.Alike c) (hpq : p ≈ q) : b.report p = c.report q := by
  have hproject : (b.projectOf? p).map (·.configFile) = (c.projectOf? q).map (·.configFile) :=
    map_eq_of_rel (fun _ _ hxy => hxy.configFile) (h.projectOf? hpq)
  rw [Scripted.report, Scripted.report, h.openConfig.get?_eq hpq, hproject]

theorem Alike.program? (h : b.Alike c) (hpq : p ≈ q) : b.program? p = c.program? q := by
  rw [Scripted.program?, Scripted.program?, h.buffers.get?_eq hpq]
  exact if_congr (h.withoutProgram.mem_iff hpq) rfl rfl

/-! ## What is done -/

theorem Alike.record (h : b.Alike c) (hef : e.Alike f) : (b.record e).Alike (c.record f) :=
  { h with log := concat_rel_iff.mpr ⟨h.log, hef⟩ }

/-- A project is changed at the same place in both. -/
theorem Alike.modifyProject (h : b.Alike c) (i : Nat) {change change' : PathSet → PathSet}
    (hchange : ∀ s t : PathSet, s.Alike t → (change s).Alike (change' t)) :
    Alike
      { b with projects := b.projects.modify i fun x => { x with files := change x.files } }
      { c with projects := c.projects.modify i fun x => { x with files := change' x.files } } := by
  have hproject : ∀ x y : Project, x.Alike y → Project.Alike { x with files := change x.files }
      { y with files := change' y.files } := fun x y hxy =>
    ⟨hxy.configFile, hchange _ _ hxy.files⟩
  exact { h with projects := modify_rel hproject h.projects i }

theorem Alike.addToProject (h : b.Alike c) (i : Nat) (hpq : p ≈ q) :
    (b.addToProject i p).Alike (c.addToProject i q) :=
  h.modifyProject i fun _ _ hst => hst.insert hpq

theorem Alike.applyEdit (h : b.Alike c) (hpq : p ≈ q) (edit : Edit) :
    (b.applyEdit p edit).Alike (c.applyEdit q edit) := by
  have hrecord : (b.record (.edited p edit)).Alike (c.record (.edited q edit)) :=
    h.record (.edited hpq)
  -- the live text is the same, so the edit fits both or neither
  have htext : (b.buffers.get? p).bind edit.applyTo? = (c.buffers.get? q).bind edit.applyTo? := by
    rw [h.buffers.get?_eq hpq]
  unfold Scripted.applyEdit
  dsimp only
  rw [htext]
  cases (c.buffers.get? q).bind edit.applyTo? with
  | some text => exact { hrecord with buffers := h.buffers.insert hpq text }
  | none => exact hrecord

theorem Alike.notify (h : b.Alike c) {event event' : Watch.Event} (hevent : event.Alike event') :
    (b.notify event).Alike (c.notify event') := by
  have hrecord := h.record (.notified hevent)
  unfold Scripted.notify
  dsimp only
  rw [hevent.kind, hrecord.adopter]
  split
  · exact hrecord.addToProject _ hevent.path
  · exact hrecord

/-- **An effect leaves both alike, under any two spellings.** -/
theorem Alike.perform (h : b.Alike c) (hef : e.Alike f) : (e.perform b).Alike (f.perform c) := by
  cases hef with
  | @opened p q root root' text hpath hroot =>
    have hqueue : b.queue ++ b.watchesOnOpen = c.queue ++ c.watchesOnOpen := by
      rw [h.queue, h.watchesOnOpen]
    exact { h.record (.opened hpath hroot) with
      queue := hqueue, buffers := h.buffers.insert hpath text }
  | closed hpath => exact { h.record (.closed hpath) with buffers := h.buffers.erase hpath }
  | edited hpath => exact h.applyEdit hpath _
  | extensions sent => exact h.record (.extensions sent)
  | defaultProject hpath => exact h.record (.defaultProject hpath)
  | notified hevent => exact h.notify hevent

theorem Alike.performAll (h : b.Alike c) {sent sent' : List Effect}
    (hsent : List.Forall₂ Effect.Alike sent sent') :
    (b.performAll sent).Alike (c.performAll sent') := by
  induction hsent generalizing b c with
  | nil => exact h
  | cons hef _ ih => exact ih (h.perform hef)

theorem Alike.drained (h : b.Alike c) : b.drained.Alike c.drained := { h with queue := rfl }

/-! ## Changes from outside -/

/-- The same change, under two spellings of its path. -/
inductive Change.Alike : Change → Change → Prop
  | dropBuffer {p q : Path} (h : p ≈ q) : Alike (.dropBuffer p) (.dropBuffer q)
  | overwrite {p q : Path} (h : p ≈ q) (text : String) :
      Alike (.overwrite p text) (.overwrite q text)
  | setProgram {p q : Path} (h : p ≈ q) (available : Bool) :
      Alike (.setProgram p available) (.setProgram q available)
  | addProject {x y : Project} (h : x.Alike y) : Alike (.addProject x) (.addProject y)
  | removeProject (index : Nat) : Alike (.removeProject index) (.removeProject index)
  | addFile (index : Nat) {p q : Path} (h : p ≈ q) : Alike (.addFile index p) (.addFile index q)
  | removeFile (index : Nat) {p q : Path} (h : p ≈ q) :
      Alike (.removeFile index p) (.removeFile index q)
  | requestWatches (requests : List WatchRequest) :
      Alike (.requestWatches requests) (.requestWatches requests)

theorem Alike.hasFile (h : b.Alike c) (i : Nat) (hpq : p ≈ q) : b.hasFile i p = c.hasFile i q := by
  have hproject : b.projects[i]?.map (fun x => decide (p ∈ x.files)) =
      c.projects[i]?.map (fun x => decide (q ∈ x.files)) :=
    map_eq_of_rel (fun _ _ hxy => decide_eq_decide.mpr (hxy.files.mem_iff hpq))
      (getElem?_rel h.projects i)
  rw [Scripted.hasFile, Scripted.hasFile, hproject]

theorem Alike.change (h : b.Alike c) {x y : Change} (hxy : x.Alike y) :
    (b.change x).1 = (c.change y).1 ∧ (b.change x).2.Alike (c.change y).2 := by
  cases hxy with
  | dropBuffer hpq =>
    exact ⟨congrArg Option.isSome (h.buffers.get?_eq hpq),
      { h with buffers := h.buffers.erase hpq }⟩
  | @overwrite p q hpq text =>
    have hpresent : b.buffers.contains p = c.buffers.contains q :=
      congrArg Option.isSome (h.buffers.get?_eq hpq)
    rw [Scripted.change, Scripted.change, hpresent]
    split
    · exact ⟨rfl, { h with buffers := h.buffers.insert hpq text }⟩
    · exact ⟨rfl, h⟩
  | setProgram hpq available =>
    have hmem := h.withoutProgram.mem_iff hpq
    cases available with
    | true =>
      exact ⟨decide_eq_decide.mpr hmem, { h with withoutProgram := h.withoutProgram.erase hpq }⟩
    | false =>
      exact ⟨decide_eq_decide.mpr (not_congr hmem),
        { h with withoutProgram := h.withoutProgram.insert hpq }⟩
  | addProject hproject =>
    exact ⟨rfl, { h with projects := concat_rel_iff.mpr ⟨h.projects, hproject⟩ }⟩
  | removeProject index =>
    have hlength := h.projects.length_eq
    refine ⟨?_, { h with projects := eraseIdx_rel h.projects index }⟩
    rw [Scripted.change, Scripted.change, hlength]
  | addFile index hpq =>
    have hlength := h.projects.length_eq
    refine ⟨?_, h.addToProject index hpq⟩
    rw [Scripted.change, Scripted.change, hlength, h.hasFile index hpq]
  | removeFile index hpq =>
    exact ⟨h.hasFile index hpq, h.modifyProject index fun _ _ hst => hst.erase hpq⟩
  | requestWatches requests => exact ⟨rfl, { h with watchesOnOpen := rfl }⟩

end Scripted

end BackendSync
