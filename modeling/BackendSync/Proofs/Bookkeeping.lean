import Mathlib.Data.List.Induction
import BackendSync.Proofs.Creating
import BackendSync.Proofs.Recency

/-!
# The open files are accounted for

The files that the session has in its cache are those that the log of the backend says
are open, after every step of every run. Nothing is closed twice, and nothing is opened
that is open, unless the backend itself had dropped its text. There may be one file too
many for an instant, between the opening of a file and the closing of the one that has to
leave for it, which is always the one that was resolved the longest time ago.

The account holds after a step because each of the four moves preserves it. What holds
within a step is read off the same four moves.
-/

namespace BackendSync

/-! ## Splitting a list of effects -/

/-- An element of a list with a marked element is in front of the mark, is it, or is behind it. -/
theorem split_at_mark {α : Type u} {first rest sooner later : List α} {x y : α}
    (h : first ++ x :: rest = sooner ++ y :: later) :
    (∃ middle, first = sooner ++ y :: middle) ∨ (first = sooner ∧ x = y ∧ rest = later) ∨
      ∃ middle, sooner = first ++ x :: middle ∧ rest = middle ++ y :: later := by
  rcases List.append_eq_append_iff.mp h with ⟨between, hsooner, hx⟩ | ⟨between, hfirst, hy⟩
  · rcases List.cons_eq_append_iff.mp hx with ⟨hnil, heq⟩ | ⟨middle, hbetween, hrest⟩
    · cases heq
      rw [hnil, List.append_nil] at hsooner
      exact Or.inr (Or.inl ⟨hsooner.symm, rfl, rfl⟩)
    · rw [hbetween] at hsooner
      exact Or.inr (Or.inr ⟨middle, hsooner, hrest⟩)
  · rcases List.cons_eq_append_iff.mp hy with ⟨hnil, heq⟩ | ⟨middle, hbetween, _⟩
    · cases heq
      rw [hnil, List.append_nil] at hfirst
      exact Or.inr (Or.inl ⟨hfirst, rfl, rfl⟩)
    · rw [hbetween] at hfirst
      exact Or.inl ⟨middle, hfirst⟩

/-- A list with a marked element is cut in front of the mark or behind it. -/
theorem cut_at_mark {α : Type u} {first rest sooner later : List α} {x : α}
    (h : first ++ x :: rest = sooner ++ later) :
    (∃ middle, first = sooner ++ middle) ∨
      ∃ middle, sooner = first ++ x :: middle ∧ rest = middle ++ later := by
  rcases List.append_eq_append_iff.mp h with ⟨between, hsooner, hx⟩ | ⟨between, hfirst, _⟩
  · rcases List.cons_eq_append_iff.mp hx with ⟨hnil, _⟩ | ⟨middle, hbetween, hrest⟩
    · rw [hnil, List.append_nil] at hsooner
      exact Or.inl ⟨[], by rw [hsooner, List.append_nil]⟩
    · rw [hbetween] at hsooner
      exact Or.inr ⟨middle, hsooner, hrest⟩
  · exact Or.inl ⟨between, hfirst⟩

/-! ## Within a step -/

/--
The effects of one step, in their order, on a backend and with the files that the log
before them leaves open.
-/
structure Orderly (limit : Nat) (history : List Path) (before : Scripted)
    (effects : List Effect) : Prop where
  /-- Whatever is closed is open. -/
  closes : ∀ sooner p later, effects = sooner ++ .closed p :: later →
    p ∈ openPaths (before.log ++ sooner)
  /-- What is opened is not open, or its text is gone. -/
  opens : ∀ sooner p text root later, effects = sooner ++ .opened p text root :: later →
    p ∈ openPaths (before.log ++ sooner) → (before.performAll sooner).buffers.get? p = none
  /--
  There is one file too many only directly after an opening, and the next effect is to
  close the file that was resolved the longest time ago.
  -/
  bounded : ∀ sooner later, effects = sooner ++ later →
    (openPaths (before.log ++ sooner)).size ≤ limit ∨
    (openPaths (before.log ++ sooner)).size = limit + 1 ∧
      (∃ earlier p text root, sooner = earlier ++ [.opened p text root]) ∧
      ∃ v rest, later = .closed v :: rest ∧
        Oldest history (openPaths (before.log ++ sooner)) v

variable {limit : Nat} {history : List Path} {sent : List Effect} {files : Cache OpenedFile}
variable {s : Session Scripted}

theorem Kept.size_le (h : Kept limit history s.backend.log files) :
    (openPaths s.backend.log).size ≤ limit := by
  rw [h.size_eq, ← h.capacity]
  exact files.size_le

theorem Calm.of_append_left {first second : List Effect} (h : Calm (first ++ second)) :
    Calm first := fun e he => h e (List.mem_append_left _ he)

/-- Effects that open and close nothing are in order. -/
theorem orderly_of_calm (h : Kept limit history s.backend.log s.openFiles) (hcalm : Calm sent)
    (history' : List Path) : Orderly limit history' s.backend sent := by
  refine ⟨?_, ?_, ?_⟩
  · intro sooner p later heq
    rw [heq] at hcalm
    cases (hcalm (.closed p) (List.mem_append_right _ List.mem_cons_self)).2
  · intro sooner p text root later heq
    rw [heq] at hcalm
    cases (hcalm (.opened p text root) (List.mem_append_right _ List.mem_cons_self)).1
  · intro sooner later heq
    rw [heq] at hcalm
    rw [openPaths_append_calm hcalm.of_append_left]
    exact Or.inl h.size_le

/-- Closing files of the cache, each of them once, is in order. -/
theorem orderly_of_closes (h : Kept limit history s.backend.log s.openFiles)
    {gone : List (Path × OpenedFile)} (hpresent : ∀ e ∈ gone, e ∈ s.openFiles.entries)
    (hdistinct : gone.Pairwise fun x y => ¬x.1 ≈ y.1) (history' : List Path) :
    Orderly limit history' s.backend (gone.map fun e => .closed e.1) := by
  refine ⟨?_, ?_, ?_⟩
  · intro sooner p later heq
    obtain ⟨first, rest, hsplit, hfirst, hrest⟩ := List.map_eq_append_iff.mp heq
    obtain ⟨e, others, hcons, hclosed, _⟩ := List.map_eq_cons_iff.mp hrest
    cases hclosed
    rw [← hfirst, closedOf_eq, openPaths_append]
    have hin : e.1 ∈ (openPaths s.backend.log).toList := by
      refine h.same.mem_iff.mpr (List.mem_map_of_mem (hpresent e ?_))
      rw [hsplit, hcons]
      exact List.mem_append_right _ List.mem_cons_self
    refine mem_openAfter_closed hin fun q hq => ?_
    obtain ⟨x, hx, rfl⟩ := List.mem_map.mp hq
    rw [hsplit, hcons] at hdistinct
    intro hex
    exact (List.pairwise_append.mp hdistinct).2.2 x hx e List.mem_cons_self (Setoid.symm hex)
  · intro sooner p text root later heq
    obtain ⟨_, rest, _, _, hrest⟩ := List.map_eq_append_iff.mp heq
    obtain ⟨_, _, _, hopened, _⟩ := List.map_eq_cons_iff.mp hrest
    cases hopened
  · intro sooner later heq
    obtain ⟨first, _, _, hfirst, _⟩ := List.map_eq_append_iff.mp heq
    rw [← hfirst, closedOf_eq, openPaths_append]
    exact Or.inl (Nat.le_trans (size_openAfter_closed_le _ _) h.size_le)

/-- What is closed behind an opening, up to some point, is nothing or all of it. -/
theorem closed_split {left : Option (Path × OpenedFile)} {middle later : List Effect}
    (h : left.toList.map (fun e => Effect.closed e.1) = middle ++ later) :
    later = [] ∨ middle = [] ∧ ∃ e, left = some e ∧ later = [.closed e.1] := by
  cases left with
  | none =>
    rw [Option.toList_none, List.map_nil] at h
    exact Or.inl (List.append_eq_nil_iff.mp h.symm).2
  | some e =>
    rw [Option.toList_some, List.map_singleton] at h
    rcases List.singleton_eq_append_iff.mp h with ⟨hmiddle, hlater⟩ | ⟨_, hlater⟩
    · exact Or.inr ⟨hmiddle, e, rfl, hlater⟩
    · exact Or.inl hlater

section Opening

variable {path root : Path} {code : String} {value : OpenedFile} {first sooner later : List Effect}

/-- What an opening does, the effects before it included. -/
def openingEffects (s : Session Scripted) (first : List Effect) (path : Path) (code : String)
    (root : Path) (value : OpenedFile) : List Effect :=
  first ++ .opened path code root ::
    (s.openFiles.insert path value).1.toList.map fun e => .closed e.1

/-- What is closed for an opening was open before. -/
theorem closes_of_opens (h : Kept limit history s.backend.log s.openFiles) (hcalm : Calm first)
    {p : Path} (heq : openingEffects s first path code root value = sooner ++ .closed p :: later) :
    p ∈ openPaths (s.backend.log ++ sooner) := by
  rcases split_at_mark heq with ⟨middle, hin⟩ | ⟨_, hne, _⟩ | ⟨middle, hsooner, hclosed⟩
  · rw [hin] at hcalm
    cases (hcalm (.closed p) (List.mem_append_right _ List.mem_cons_self)).2
  · cases hne
  · rcases closed_split hclosed with hnil | ⟨hmiddle, e, hleft, hlater⟩
    · cases hnil
    · cases hlater
      rw [hsooner, hmiddle, openPaths_append_opened hcalm]
      exact (h.oldest_of_evicted hleft).1

/-- A file that is opened though it is open has no text. -/
theorem opens_of_opens (h : Kept limit history s.backend.log s.openFiles) (hquiet : Quiet first)
    (hfresh : s.openFiles.entry? path = none ∨ s.backend.buffers.get? path = none)
    {p root' : Path} {text : String}
    (heq : openingEffects s first path code root value = sooner ++ .opened p text root' :: later)
    (hopen : p ∈ openPaths (s.backend.log ++ sooner)) :
    (s.backend.performAll sooner).buffers.get? p = none := by
  have hcalm := hquiet.calm
  rcases split_at_mark heq with ⟨middle, hin⟩ | ⟨hfirst, hsame, _⟩ | ⟨middle, _, hclosed⟩
  · rw [hin] at hcalm
    cases (hcalm (.opened p text root') (List.mem_append_right _ List.mem_cons_self)).1
  · cases hsame
    rw [← hfirst, openPaths_append_calm hcalm] at hopen
    rw [← hfirst, Scripted.buffers_performAll_of_quiet hquiet]
    rcases hfresh with habsent | hgone
    · exact absurd hopen (h.not_mem_of_absent habsent)
    · exact hgone
  · rcases closed_split hclosed with hnil | ⟨_, e, _, hlater⟩
    · cases hnil
    · cases hlater

/-- Behind an opening either the step is over or the one file too many is still to be closed. -/
theorem bounded_of_opens (h : Kept limit history s.backend.log s.openFiles) (hcalm : Calm first)
    (hafter : Kept limit (history ++ [path])
      (s.backend.log ++ openingEffects s first path code root value)
      (s.openFiles.insert path value).2)
    (heq : openingEffects s first path code root value = sooner ++ later) :
    (openPaths (s.backend.log ++ sooner)).size ≤ limit ∨
    (openPaths (s.backend.log ++ sooner)).size = limit + 1 ∧
      (∃ earlier p text root, sooner = earlier ++ [.opened p text root]) ∧
      ∃ v rest, later = .closed v :: rest ∧
        Oldest (history ++ [path]) (openPaths (s.backend.log ++ sooner)) v := by
  rcases cut_at_mark heq with ⟨middle, hin⟩ | ⟨middle, hsooner, hclosed⟩
  · rw [hin] at hcalm
    rw [openPaths_append_calm hcalm.of_append_left]
    exact Or.inl h.size_le
  · rcases closed_split hclosed with hnil | ⟨hmiddle, e, hleft, hlater⟩
    · rw [hnil, List.append_nil] at heq
      rw [← heq, hafter.size_eq, ← hafter.capacity]
      exact Or.inl (LruMap.size_le _)
    · obtain ⟨habsent, hfull, _, _, _⟩ := Cache.insert_of_evicted hleft
      have hnotin := h.not_mem_of_absent habsent
      rw [hsooner, hmiddle, openPaths_append_opened hcalm, openAfter_nil]
      refine Or.inr ⟨?_, ⟨first, path, code, root, rfl⟩, e.1, [], hlater, ?_⟩
      · rw [PathSet.size, PathSet.toList_insert, if_neg hnotin, List.length_append,
          List.length_singleton, ← h.capacity, ← hfull, ← h.size_eq]
        rfl
      · exact h.oldest_of_evicted hleft

end Opening

/-- **Each of the four moves is in order.** -/
theorem orderly_of_moves {touched : Option Path}
    (h : Kept limit history s.backend.log s.openFiles) (hmoves : s.Moves sent touched files) :
    Orderly limit (history ++ touched.toList) s.backend sent := by
  have hafter := h.moves hmoves
  cases hmoves with
  | rests calm none eq => exact orderly_of_calm h calm _
  | edits path e cached calm some eq => exact orderly_of_calm h calm _
  | opens path code root value first quiet fresh some effects eq =>
    have hsent : sent = openingEffects s first path code root value := effects
    rw [some, eq, hsent] at hafter
    rw [some, hsent]
    exact ⟨fun _ _ _ heq => closes_of_opens h quiet.calm heq,
      fun _ _ _ _ _ heq => opens_of_opens h quiet fresh heq,
      fun _ _ heq => bounded_of_opens h quiet.calm hafter heq⟩
  | closes gone present distinct none effects capacity eq =>
    rw [effects]
    exact orderly_of_closes h present distinct _

/-! ## From step to step -/

namespace World

/-- **What a step does is written to the log, and the open files move accordingly.** -/
theorem effects_moves {w : World} {st : Step} (h : ∀ c, st ≠ .change c) :
    (w.step st).2.log = w.log ++ w.effects st ∧
      (w.step st).2.session.backend.buffers =
        (w.session.backend.performAll (w.effects st)).buffers ∧
      w.session.Moves (w.effects st) (w.touched? st) (w.step st).2.session.openFiles := by
  obtain ⟨sent, hperformed, hmoves⟩ := traced_step h
  have hlog : (w.step st).2.log = w.log ++ sent :=
    (congrArg (·.log) hperformed).trans (Scripted.log_performAll _ _)
  rw [effects_of_log hlog]
  exact ⟨hlog, congrArg (·.buffers) hperformed, hmoves⟩

theorem log_change (w : World) (c : Scripted.Change) : (w.step (.change c)).2.log = w.log :=
  Scripted.log_change ..

theorem effects_change (w : World) (c : Scripted.Change) : w.effects (.change c) = [] :=
  effects_of_log (by rw [log_change, List.append_nil])

theorem log_step (w : World) (st : Step) : (w.step st).2.log = w.log ++ w.effects st := by
  by_cases h : ∃ c, st = .change c
  · obtain ⟨c, rfl⟩ := h
    rw [effects_change, log_change, List.append_nil]
  · exact (effects_moves fun c hc => h ⟨c, hc⟩).1

/-- A change from outside does not move the open files. -/
theorem moves_change (w : World) (c : Scripted.Change) :
    w.session.Moves (w.effects (.change c)) (w.touched? (.change c))
      (w.step (.change c)).2.session.openFiles := by
  rw [effects_change]
  exact .rests (fun e he => absurd he List.not_mem_nil) rfl rfl

theorem moves (w : World) (st : Step) :
    w.session.Moves (w.effects st) (w.touched? st) (w.step st).2.session.openFiles := by
  by_cases h : ∃ c, st = .change c
  · obtain ⟨c, rfl⟩ := h
    exact w.moves_change c
  · exact (effects_moves fun c hc => h ⟨c, hc⟩).2.2

/-- The account of the open files after a run. -/
def KeptBy (limit : Nat) (history : List Path) (w : World) : Prop :=
  Kept limit history w.log w.session.openFiles

theorem keptBy_step {limit : Nat} {history : List Path} {w : World}
    (h : w.KeptBy limit history) (st : Step) :
    (w.step st).2.KeptBy limit (history ++ (w.touched? st).toList) := by
  rw [KeptBy, log_step]
  exact Kept.moves h (w.moves st)

theorem keptBy_run {limit : Nat} {history : List Path} {w : World}
    (h : w.KeptBy limit history) (steps : List Step) :
    (w.run steps).KeptBy limit (history ++ w.history steps) := by
  induction steps generalizing w history with
  | nil =>
    rw [World.history, List.append_nil]
    exact h
  | cons st rest ih =>
    rw [World.history, ← List.append_assoc]
    exact ih (keptBy_step h st)

theorem mem_openPaths_step {w : World} {st : Step} {p : Path} :
    p ∈ openPaths (w.step st).2.log ↔
      OpenIn (w.effects st) p ∨ p ∈ openPaths w.log ∧ ∀ r, .closed r ∈ w.effects st → ¬r ≈ p := by
  rw [log_step, openPaths_append, mem_openAfter_iff]

/-- Live texts go the way of open files, but that the backend may drop one itself. -/
theorem alive_step {w : World} {st : Step} {p : Path} :
    ((w.step st).2.session.backend.buffers.get? p).isSome ↔
      OpenIn (w.effects st) p ∨
        ((w.session.backend.buffers.get? p).isSome ∧ ∀ r, .closed r ∈ w.effects st → ¬r ≈ p) ∧
          ∀ q, st = .change (.dropBuffer q) → ¬q ≈ p := by
  by_cases h : ∃ c, st = .change c
  · obtain ⟨c, rfl⟩ := h
    have hbuffers : (w.step (.change c)).2.session.backend = (w.session.backend.change c).2 := rfl
    rw [hbuffers, Scripted.isSome_change_iff, effects_change, or_iff_right openIn_nil,
      and_iff_left fun r hr => absurd hr List.not_mem_nil]
    refine and_congr_right fun _ => ⟨fun hdrop q hq => ?_, fun hdrop q hq => ?_⟩
    · cases hq
      exact hdrop q rfl
    · exact hdrop q (by rw [hq])
  · have hnot : ∀ c, st ≠ .change c := fun c hc => h ⟨c, hc⟩
    rw [(effects_moves hnot).2.1, isSome_performAll_iff,
      and_iff_left fun q hq => absurd hq (hnot _)]

/-- Every live text belongs to an open file. -/
def Covered (w : World) : Prop :=
  ∀ p, (w.session.backend.buffers.get? p).isSome → p ∈ openPaths w.log

theorem covered_step {w : World} (h : w.Covered) (st : Step) : (w.step st).2.Covered := by
  intro p hp
  rw [mem_openPaths_step]
  rcases alive_step.mp hp with hopened | ⟨⟨halive, hclosed⟩, _⟩
  · exact Or.inl hopened
  · exact Or.inr ⟨h p halive, hclosed⟩

theorem covered_run {w : World} (h : w.Covered) (steps : List Step) : (w.run steps).Covered := by
  induction steps generalizing w with
  | nil => exact h
  | cons st rest ih => exact ih (covered_step h st)

/-! ## Texts that the backend dropped -/

/--
At some step of a run the backend itself dropped the text of a file that had one, and the
file has had none since.
-/
def Dropped (w : World) (steps : List Step) (p : Path) : Prop :=
  ∃ earlier q rest, steps = earlier ++ .change (.dropBuffer q) :: rest ∧ q ≈ p ∧
    ((w.run earlier).session.backend.buffers.get? p).isSome ∧
    ∀ since more, rest = since ++ more →
      (w.run (earlier ++ .change (.dropBuffer q) :: since)).session.backend.buffers.get? p = none

theorem run_concat (w : World) (steps : List Step) (st : Step) :
    w.run (steps ++ [st]) = ((w.run steps).step st).2 := by
  rw [run_append]
  rfl

theorem Dropped.concat {w : World} {steps : List Step} {p : Path} (h : w.Dropped steps p)
    {st : Step} (hdead : (w.run (steps ++ [st])).session.backend.buffers.get? p = none) :
    w.Dropped (steps ++ [st]) p := by
  obtain ⟨earlier, q, rest, hsteps, hqp, halive, hsince⟩ := h
  refine ⟨earlier, q, rest ++ [st], by rw [hsteps]; simp, hqp, halive, ?_⟩
  intro since more heq
  rcases List.eq_nil_or_concat more with hnil | ⟨init, last, hlast⟩
  · -- the new step is the last of those since
    rw [hnil, List.append_nil] at heq
    rw [← heq, ← List.cons_append, ← List.append_assoc, ← hsteps]
    exact hdead
  · rw [hlast, List.concat_eq_append, ← List.append_assoc] at heq
    exact hsince since init (List.append_inj' heq rfl).1

/-- **An open file without a text is one whose text the backend dropped.** -/
theorem dropped_of_dead {w : World} {p : Path} (hstart : openPaths w.log = ∅)
    {steps : List Step} (hopen : p ∈ openPaths (w.run steps).log)
    (hdead : (w.run steps).session.backend.buffers.get? p = none) : w.Dropped steps p := by
  induction steps using List.reverseRecOn with
  | nil =>
    obtain ⟨q, hq, _⟩ := hopen
    have hnone : q ∈ (openPaths w.log).toList := hq
    rw [hstart] at hnone
    exact absurd hnone List.not_mem_nil
  | append_singleton steps st ih =>
    have hend := hdead
    rw [run_concat] at hopen hdead
    have hnotalive : ¬(((w.run steps).step st).2.session.backend.buffers.get? p).isSome := by
      rw [hdead]
      exact Bool.false_ne_true
    rw [alive_step, not_or] at hnotalive
    obtain ⟨hnotopened, hnotkept⟩ := hnotalive
    obtain ⟨hbefore, hclosed⟩ := (mem_openPaths_step.mp hopen).resolve_left hnotopened
    cases halive : (w.run steps).session.backend.buffers.get? p with
    | none => exact (ih hbefore halive).concat hend
    | some text =>
      -- it was there before the step, which does not close it, so the step drops it
      have hsome : ((w.run steps).session.backend.buffers.get? p).isSome := by
        rw [halive]
        rfl
      by_cases hdrop : ∃ q, st = .change (.dropBuffer q) ∧ q ≈ p
      · obtain ⟨q, rfl, hqp⟩ := hdrop
        refine ⟨steps, q, [], rfl, hqp, hsome, ?_⟩
        intro since more heq
        rw [(List.append_eq_nil_iff.mp heq.symm).1]
        exact hend
      · exact absurd ⟨⟨hsome, hclosed⟩, fun q hq hqp => hdrop ⟨q, hq, hqp⟩⟩ hnotkept

end World

/-! ## From a fresh backend -/

/-- Nothing was ever done to the backend, and it has no texts. -/
structure Scripted.Fresh (b : Scripted) : Prop where
  buffers : b.buffers = ∅
  log : b.log = []

/-- A backend in a directory, without any projects. -/
def Scripted.bare (directory : Path) : Scripted where
  directory := directory
  projects := []
  adopter := none
  watchesOnOpen := []
  openConfig := ∅
  withoutProgram := ∅
  defaultProjectErrors := []

theorem Scripted.fresh_bare (directory : Path) : (bare directory).Fresh := ⟨rfl, rfl⟩

namespace World

theorem performed_of_create {backend : Scripted} {config : Config} {w : World}
    (h : create backend config = .ok w) :
    ∃ sent, Quiet sent ∧ w.session.backend = backend.performAll sent ∧
      ∃ hpos, w.session.openFiles = .empty config.maximumOpenFiles hpos := by
  obtain ⟨allowlist, hpos, hs⟩ := Session.begun_of_create (session_of_create h)
  rw [hs, Session.updateExtensions_eq]
  refine ⟨Session.defaultProjectEffects backend config ++
    (Session.begun backend config allowlist hpos).extensionEffects [], ?_, ?_, hpos, rfl⟩
  · exact (Session.quiet_defaultProjectEffects backend config).append
      (Session.quiet_extensionEffects _ _)
  · rw [Scripted.performAll_append]
    rfl

theorem openPaths_of_create {backend : Scripted} {config : Config} {w : World}
    (hfresh : backend.Fresh) (h : create backend config = .ok w) : openPaths w.log = ∅ := by
  obtain ⟨sent, hquiet, hbackend, _⟩ := performed_of_create h
  rw [log, hbackend, Scripted.log_performAll, hfresh.log, openPaths_append_calm hquiet.calm]
  rfl

theorem keptBy_create {backend : Scripted} {config : Config} {w : World}
    (hfresh : backend.Fresh) (h : create backend config = .ok w) :
    w.KeptBy config.maximumOpenFiles [] := by
  obtain ⟨_, _, _, hpos, hfiles⟩ := performed_of_create h
  rw [KeptBy, hfiles]
  exact kept_empty hpos (openPaths_of_create hfresh h)

theorem covered_create {backend : Scripted} {config : Config} {w : World}
    (hfresh : backend.Fresh) (h : create backend config = .ok w) : w.Covered := by
  obtain ⟨sent, hquiet, hbackend, _⟩ := performed_of_create h
  intro p hp
  rw [hbackend, Scripted.buffers_performAll_of_quiet hquiet, hfresh.buffers,
    PathMap.get?_empty] at hp
  cases hp

/-! ## The account of a whole run -/

/-- The session's account of the open files is that of the log. -/
structure Accounted (limit : Nat) (w : World) : Prop where
  /-- The cached files are those that were opened and not closed since. -/
  same : ∀ p, w.session.openFiles.contains p = true ↔ OpenIn w.log p
  /-- There are as many of them, and they are spelled as they are there. -/
  listed : (openPaths w.log).toList.Perm w.session.openFiles.paths
  bounded : w.session.openFiles.size ≤ limit
  /-- Every live text is that of a cached file. -/
  covered : ∀ p text, w.session.backend.buffers.get? p = some text →
    w.session.openFiles.contains p = true

/--
**The open files are accounted for.** From a fresh backend, whatever is asked of the
session and whatever changes behind its back, the cache holds after every step what the
log says is open, and every step keeps to the order that `Orderly` describes. A file that
is opened although it is open is one whose text the backend had dropped.
-/
theorem open_files_accounted {backend : Scripted} {config : Config} {w : World}
    (hfresh : backend.Fresh) (hcreate : create backend config = .ok w) (steps : List Step) :
    (w.run steps).Accounted config.maximumOpenFiles ∧ ∀ st,
      ((w.run steps).step st).2.log = (w.run steps).log ++ (w.run steps).effects st ∧
      Orderly config.maximumOpenFiles (w.history (steps ++ [st])) (w.run steps).session.backend
        ((w.run steps).effects st) ∧
      ∀ sooner p text root later,
        (w.run steps).effects st = sooner ++ .opened p text root :: later →
        p ∈ openPaths ((w.run steps).log ++ sooner) → w.Dropped steps p := by
  have hkept := keptBy_run (keptBy_create hfresh hcreate) steps
  have hcovered := covered_run (covered_create hfresh hcreate) steps
  rw [List.nil_append] at hkept
  have hsame : ∀ p, p ∈ openPaths (w.run steps).log ↔
      (w.run steps).session.openFiles.contains p = true := fun p => Kept.mem_openPaths_iff hkept
  refine ⟨⟨fun p => ?_, hkept.same, ?_, fun p text hp => ?_⟩, fun st => ?_⟩
  · rw [← hsame, mem_openPaths_iff]
  · rw [← hkept.size_eq]
    exact Kept.size_le hkept
  · exact (hsame p).mp (hcovered p (by rw [hp]; rfl))
  · have horderly := orderly_of_moves hkept ((w.run steps).moves st)
    have hhistory : w.history (steps ++ [st]) =
        w.history steps ++ ((w.run steps).touched? st).toList := by
      rw [history_append, history, history, List.append_nil]
    rw [← hhistory] at horderly
    refine ⟨log_step _ st, horderly, ?_⟩
    intro sooner p text root later heq hopen
    -- what is open and dead before the opening was so before the step
    have hdead := horderly.opens sooner p text root later heq hopen
    have hnotalive : ¬(((w.run steps).session.backend.performAll sooner).buffers.get? p).isSome := by
      rw [hdead]
      exact Bool.false_ne_true
    rw [isSome_performAll_iff, not_or] at hnotalive
    rw [openPaths_append, mem_openAfter_iff] at hopen
    obtain ⟨hbefore, hclosed⟩ := hopen.resolve_left hnotalive.1
    refine dropped_of_dead (openPaths_of_create hfresh hcreate) hbefore ?_
    cases halive : (w.run steps).session.backend.buffers.get? p with
    | none => rfl
    | some text => exact absurd ⟨by rw [halive]; rfl, hclosed⟩ hnotalive.2

/-- With room for one file only, opening a second one closes the first. -/
theorem open_files_accounted_for_one : ∃ w : World,
    create (.bare ⟨"/"⟩) { maximumOpenFiles := 1 } = .ok w ∧
    (w.run [.resolve ⟨⟨"/a"⟩, "x", none, []⟩ false none]).Accounted 1 ∧
    (w.run [.resolve ⟨⟨"/a"⟩, "x", none, []⟩ false none]).effects
        (.resolve ⟨⟨"/b"⟩, "y", none, []⟩ false none) =
      [.opened ⟨"/b"⟩ "y" ⟨"/"⟩, .closed ⟨"/a"⟩] := by
  have haccounted : ∀ w : World, create (.bare ⟨"/"⟩) { maximumOpenFiles := 1 } = .ok w →
      (w.run [.resolve ⟨⟨"/a"⟩, "x", none, []⟩ false none]).Accounted 1 := fun w hw =>
    (open_files_accounted (Scripted.fresh_bare _) hw _).1
  exact ⟨_, rfl, haccounted _ rfl, by decide⟩

end World

end BackendSync
