import BackendSync.Proofs.OpenResults

/-!
# Where an open result comes from

What the cache has for a file is what the backend reported when it opened the file for the
last time. `OpenResults` says when that is still what it would report. Here nothing is
assumed of the changes in between, and so the open result is traced back to the step at
which the file was opened: a step renews the results of the files that it opens and leaves
those of the others alone, and a run is followed back to the last step of the first kind.
-/

namespace BackendSync

/-- Some of the effects opens a file, under whatever spelling. -/
def OpenedBy (effects : List Effect) (p : Path) : Prop :=
  ∃ q text root, .opened q text root ∈ effects ∧ q ≈ p

theorem OpenedBy.congr {effects : List Effect} {p q : Path} (h : OpenedBy effects p)
    (hpq : p ≈ q) : OpenedBy effects q := by
  obtain ⟨r, text, root, hopened, hrp⟩ := h
  exact ⟨r, text, root, hopened, Setoid.trans hrp hpq⟩

theorem not_openedBy {effects : List Effect} (h : ∀ e ∈ effects, e.opened? = none) (p : Path) :
    ¬OpenedBy effects p := by
  intro hopens
  obtain ⟨q, text, root, hopened, _⟩ := hopens
  cases h _ hopened

theorem openedBy_append_iff {first second : List Effect} (h : ∀ e ∈ first, e.opened? = none)
    (p : Path) : OpenedBy (first ++ second) p ↔ OpenedBy second p := by
  constructor
  · intro hopens
    obtain ⟨q, text, root, hopened, hqp⟩ := hopens
    rcases List.mem_append.mp hopened with hfirst | hsecond
    · cases h _ hfirst
    · exact ⟨q, text, root, hsecond, hqp⟩
  · intro hopens
    obtain ⟨q, text, root, hopened, hqp⟩ := hopens
    exact ⟨q, text, root, List.mem_append_right first hopened, hqp⟩

namespace Session

variable {s s₁ s' : Session Scripted} {sent : List Effect} {path : Path} {code : String}
  {root : Path}

/--
The open results of `s'` are those of `s`, but that the files which `sent` opens have what
is reported for them now.
-/
def Renews (s s' : Session Scripted) (sent : List Effect) : Prop :=
  ∀ e ∈ s'.openFiles.entries,
    (OpenedBy sent e.1 ∧ e.2 = s'.backend.report e.1) ∨
      (¬OpenedBy sent e.1 ∧ e ∈ s.openFiles.entries)

theorem renews_of_kept (hsent : ∀ e ∈ sent, e.opened? = none)
    (hkept : ∀ e ∈ s'.openFiles.entries, e ∈ s.openFiles.entries) : s.Renews s' sent :=
  fun e he => Or.inr ⟨not_openedBy hsent e.1, hkept e he⟩

/-- Effects that open nothing may come before. -/
theorem Renews.after {first : List Effect} (h : s₁.Renews s' sent)
    (hfirst : ∀ e ∈ first, e.opened? = none) (hfiles : s₁.openFiles = s.openFiles) :
    s.Renews s' (first ++ sent) := by
  intro e he
  rw [openedBy_append_iff hfirst, ← hfiles]
  exact h e he

theorem opened?_of_quiet (h : Quiet sent) : ∀ e ∈ sent, e.opened? = none :=
  fun e he => (h.calm e he).1

/-- Opening a file renews its open result and no other. -/
theorem renews_openFile (s : Session Scripted) (path : Path) (code : String) (root : Path) :
    s.Renews (s.openFile path code root).2 (s.opening path code root) := by
  intro e he
  rw [openFiles_openFile] at he
  rw [report_openFile]
  rcases Cache.mem_insert he with ⟨hpath, hvalue⟩ | ⟨hold, hne⟩
  · refine Or.inl ⟨⟨path, code, root, List.mem_cons_self, Setoid.symm hpath⟩, ?_⟩
    rw [hvalue, Scripted.report_congr hpath]
  · refine Or.inr ⟨?_, hold⟩
    intro hopens
    obtain ⟨q, text, root', hopened, hq⟩ := hopens
    rcases List.mem_cons.mp hopened with hself | hclosed
    · cases hself
      exact hne (Setoid.symm hq)
    · obtain ⟨x, _, hx⟩ := List.mem_map.mp hclosed
      cases hx

/-- **Bringing a file up to date renews its open result if it opens the file.** -/
theorem renews_bringUp {allowed : Bool} {opened : OpenedFile}
    (h : s.bringUp path code root allowed = (.ok opened, s')) :
    ∃ sent, s'.backend.log = s.backend.log ++ sent ∧ s.Renews s' sent := by
  rcases s.bringUp_cases path code root allowed with
    ⟨e, live, hcached, _, heq⟩ | ⟨_, _, _, heq⟩ | ⟨_, _, heq⟩ | ⟨_, _, heq⟩
  · cases heq.symm.trans h
    refine ⟨_, Scripted.log_performAll _ _, renews_of_kept ?_ ?_⟩
    · exact fun x hx => (calm_edited path _ x hx).1
    · intro x hx
      rcases List.mem_cons.mp hx with hfront | hother
      · rw [hfront]
        exact LruMap.mem_of_present hcached
      · exact (s.openFiles.others_sublist path).subset hother
  · have hs : (s.openFile path code root).2 = s' :=
      congrArg Prod.snd (heq.symm.trans h)
    rw [← hs]
    exact ⟨_, s.log_openFile path code root, s.renews_openFile path code root⟩
  · have hs : ((s.announced path).openFile path code root).2 = s' :=
      congrArg Prod.snd (heq.symm.trans h)
    have hnoticed : (s.announced path).backend.log = s.backend.log ++ s.notices path :=
      Scripted.log_performAll _ _
    have hrenews := (s.announced path).renews_openFile path code root
    rw [← hs]
    refine ⟨_, ?_, hrenews.after (opened?_of_quiet (s.quiet_notices path)) rfl⟩
    rw [log_openFile, hnoticed, List.append_assoc]
  · cases heq.symm.trans h

end Session

namespace World

variable {w : World} {st : Step} {steps earlier later : List Step} {p q : Path}

theorem renews_of_untouched (h : w.touched? st = none) :
    w.session.Renews (w.step st).2.session (w.effects st) := by
  cases w.moves st with
  | rests calm none eq =>
    refine Session.renews_of_kept (fun e he => (calm e he).1) fun e he => ?_
    rw [eq] at he
    exact he
  | edits path e cached calm some eq => cases h.symm.trans some
  | opens path code root value first quiet fresh some effects eq => cases h.symm.trans some
  | closes gone present distinct none effects capacity eq =>
    refine Session.renews_of_kept (fun e he => ?_) fun e he => ?_
    · rw [effects] at he
      obtain ⟨x, _, rfl⟩ := List.mem_map.mp he
      rfl
    · rw [eq] at he
      exact (List.mem_filter.mp he).1

/-- **A step renews the open results of the files that it opens, and of no others.** -/
theorem renews_step (w : World) (st : Step) :
    w.session.Renews (w.step st).2.session (w.effects st) := by
  cases st with
  | resolve request full run =>
    obtain ⟨outcome, used, hreply, hways⟩ := w.step_resolve request full run
    rcases hways with ⟨e, hbring, hout, _⟩ | ⟨opened, s', hbring, _, _, hsession⟩
    · refine renews_of_untouched ?_
      rw [touched?, hreply, hout, Session.orphaned_of_bringUp_error hbring]
      rfl
    · obtain ⟨sent, hlog, hrenews⟩ := Session.renews_bringUp hbring
      have hquiet := w.session.quiet_extensionEffects request.extensions
      have heffects : w.effects (.resolve request full run) =
          w.session.extensionEffects request.extensions ++ sent := by
        refine effects_of_log ?_
        rw [log, hsession, log, ← List.append_assoc, ← Session.log_updateExtensions]
        exact hlog
      rw [heffects, hsession]
      exact hrenews.after (Session.opened?_of_quiet hquiet)
        (w.session.openFiles_updateExtensions request.extensions)
  | _ => exact renews_of_untouched rfl

/-! ## The last opening of a file -/

/-- Of all steps of a run, the step `st` after `earlier` is the last one that opened a file. -/
structure LastOpening (w : World) (steps : List Step) (p : Path) (earlier : List Step) (st : Step)
    (later : List Step) : Prop where
  split : steps = earlier ++ st :: later
  opened : OpenedBy ((w.run earlier).effects st) p
  notSince : ∀ since next more, later = since ++ next :: more →
    ¬OpenedBy ((w.run (earlier ++ st :: since)).effects next) p

theorem LastOpening.congr (h : w.LastOpening steps p earlier st later) (hpq : p ≈ q) :
    w.LastOpening steps q earlier st later :=
  ⟨h.split, h.opened.congr hpq, fun since next more heq hopened =>
    h.notSince since next more heq (hopened.congr (Setoid.symm hpq))⟩

/-- The step that was made last is the last to open a file that it opens. -/
theorem lastOpening_of_openedBy (h : OpenedBy ((w.run steps).effects st) p) :
    w.LastOpening (steps ++ [st]) p steps st [] := by
  refine ⟨rfl, h, fun since next more heq => ?_⟩
  cases (List.append_eq_nil_iff.mp heq.symm).2

/-- A further step that does not open the file leaves its last opening where it was. -/
theorem LastOpening.concat (h : w.LastOpening steps p earlier st later) {next : Step}
    (hnot : ¬OpenedBy ((w.run steps).effects next) p) :
    w.LastOpening (steps ++ [next]) p earlier st (later ++ [next]) := by
  refine ⟨by rw [h.split, List.append_assoc]; rfl, h.opened, fun since x more heq => ?_⟩
  rcases List.eq_nil_or_concat more with hnil | ⟨init, last, hlast⟩
  · -- the further step itself
    rw [hnil] at heq
    obtain ⟨hsince, hnext⟩ := List.append_inj' heq rfl
    cases hnext
    rw [← hsince, ← h.split]
    exact hnot
  · rw [hlast, List.concat_eq_append, ← List.cons_append, ← List.append_assoc] at heq
    exact h.notSince since x init (List.append_inj' heq rfl).1

/--
**An open result is what was reported when the file was opened for the last time.** In a run
from an empty cache every file in the cache was opened at some step, and what the cache has
for it is what the backend reported then, whatever has been done to the projects since.
-/
theorem reported_at_lastOpening (hempty : w.session.openFiles.entries = [])
    {e : Path × OpenedFile} (he : e ∈ (w.run steps).session.openFiles.entries) :
    ∃ earlier st later, w.LastOpening steps e.1 earlier st later ∧
      e.2 = (w.run (earlier ++ [st])).session.backend.report e.1 := by
  induction steps using List.reverseRecOn with
  | nil =>
    have hin : e ∈ w.session.openFiles.entries := he
    rw [hempty] at hin
    cases hin
  | append_singleton steps st ih =>
    rw [run_concat] at he
    rcases (w.run steps).renews_step st e he with ⟨hopened, hreport⟩ | ⟨hnot, hold⟩
    · refine ⟨steps, st, [], lastOpening_of_openedBy hopened, ?_⟩
      rw [run_concat]
      exact hreport
    · obtain ⟨earlier, st', later, hlast, hreport⟩ := ih hold
      exact ⟨earlier, st', later ++ [st], hlast.concat hnot, hreport⟩

theorem openFiles_of_create {backend : Scripted} {config : Config}
    (h : create backend config = .ok w) : w.session.openFiles.entries = [] := by
  obtain ⟨allowlist, hpos, hsession⟩ := Session.begun_of_create (session_of_create h)
  rw [hsession, Session.openFiles_updateExtensions]
  rfl

end World

end BackendSync
