import BackendSync.Proofs.Bookkeeping
import BackendSync.Proofs.Counting

/-!
# Open results stay current

The cache remembers what the backend reported when a file was opened, for as long as the
file stays open. Meanwhile the projects may change, because the backend takes a file into
a project when it hears that the file was created. The remembered results do not go out
of date by that. A creation is reported for one path only, which is not in the cache then
and is opened directly afterwards, and a path is that path under every spelling.

So as long as nothing else changes the projects, `Session.Current` holds after every step.
-/

namespace BackendSync

/-! ## What a report depends on -/

/-- A change of one element that keeps what is asked for and what is looked at. -/
theorem find?_modify_map {α : Type u} {β : Type v} {f : α → α} {found : α → Bool} {look : α → β}
    (hfound : ∀ x, found (f x) = found x) (hlook : ∀ x, look (f x) = look x) (l : List α)
    (i : Nat) : ((l.modify i f).find? found).map look = (l.find? found).map look := by
  induction l generalizing i with
  | nil => cases i <;> rfl
  | cons x rest ih =>
    cases i with
    | zero =>
      rw [List.modify_zero_cons, List.find?_cons, List.find?_cons, hfound]
      cases found x with
      | true => exact congrArg some (hlook x)
      | false => rfl
    | succ i =>
      rw [List.modify_succ_cons, List.find?_cons, List.find?_cons]
      cases found x with
      | true => rfl
      | false => exact ih i

namespace Scripted

variable {b : Scripted} {p q : Path}

theorem projectOf?_congr (h : p ≈ q) : b.projectOf? p = b.projectOf? q := by
  have hmem : ∀ project : Project, decide (p ∈ project.files) = decide (q ∈ project.files) :=
    fun project => decide_eq_decide.mpr (PathSet.mem_congr h)
  simp only [projectOf?, hmem]

theorem report_congr (h : p ≈ q) : b.report p = b.report q := by
  unfold report
  rw [PathMap.get?_congr h, projectOf?_congr h]

theorem projectOf?_of_report (h : (b.report p).configFile = none) : b.projectOf? p = none := by
  unfold report at h
  cases hconfig : b.openConfig.get? p with
  | some config =>
    rw [hconfig] at h
    cases h
  | none =>
    rw [hconfig] at h
    exact Option.map_eq_none_iff.mp h

theorem projectOf?_eq_none_iff :
    b.projectOf? p = none ↔ ∀ project ∈ b.projects, p ∉ project.files := by
  rw [projectOf?, List.find?_eq_none]
  refine forall₂_congr fun project _ => ?_
  rw [decide_eq_true_iff]

theorem projectOf?_isSome_iff :
    (b.projectOf? p).isSome = true ↔ ∃ project ∈ b.projects, p ∈ project.files := by
  rw [projectOf?, List.find?_isSome]
  simp only [decide_eq_true_iff]

/-- A new file of a project changes what is reported for that file alone. -/
theorem report_addToProject (i : Nat) (h : ¬p ≈ q) : (b.addToProject i p).report q = b.report q := by
  have hfound : ∀ project : Project,
      decide (q ∈ project.files.insert p) = decide (q ∈ project.files) := fun project =>
    decide_eq_decide.mpr (PathSet.mem_insert.trans (or_iff_left h))
  have hproject : ((b.addToProject i p).projectOf? q).map (·.configFile) =
      (b.projectOf? q).map (·.configFile) :=
    find?_modify_map (f := fun project => { project with files := project.files.insert p })
      hfound (fun _ => rfl) b.projects i
  unfold report
  rw [hproject]
  rfl

end Scripted

/-- The file that an effect reports as created. -/
def Effect.created? : Effect → Option Path
  | .notified event => if event.kind = .create then some event.path else none
  | _ => none

namespace Scripted

variable {b : Scripted} {q : Path}

theorem report_perform {e : Effect} (h : ∀ p ∈ e.created?, ¬p ≈ q) :
    (e.perform b).report q = b.report q := by
  cases e with
  | notified event =>
    rw [Effect.perform, notify]
    split
    · rename_i i hkind _
      exact report_addToProject i (h event.path (if_pos hkind))
    · rfl
  | _ => rfl

/-- **Effects change what is reported for the files they report as created, and for no other.** -/
theorem report_performAll {effects : List Effect}
    (h : ∀ e ∈ effects, ∀ p ∈ e.created?, ¬p ≈ q) :
    (b.performAll effects).report q = b.report q := by
  induction effects generalizing b with
  | nil => rfl
  | cons e rest ih =>
    rw [performAll_cons, ih fun x hx => h x (List.mem_cons_of_mem e hx),
      report_perform (h e List.mem_cons_self)]

end Scripted

/-- Effects that report no file as created change no report. -/
theorem Scripted.report_performAll_of_target {b : Scripted} {effects : List Effect}
    (h : ∀ e ∈ effects, e.target? ≠ none) (q : Path) :
    (b.performAll effects).report q = b.report q := by
  refine report_performAll fun e he p hp => ?_
  have htarget := h e he
  cases e with
  | notified event => exact absurd rfl htarget
  | _ => cases hp

namespace Session

variable {s s' : Session Scripted} {path : Path} {code : String} {root : Path}

/-- A watch hears of the creation of no other file than the one that is announced. -/
theorem created_of_notices {e : Effect} {p : Path} (he : e ∈ s.notices path)
    (hp : p ∈ e.created?) : p = path := by
  unfold notices at he
  split at he
  · cases he
  · obtain ⟨event, hevent, rfl⟩ := List.mem_map.mp he
    obtain ⟨⟨watched, kind⟩, _, hseen⟩ := Option.map_eq_some_iff.mp (Option.mem_toList.mp hevent)
    cases kind with
    | file =>
      rw [← hseen] at hp
      cases hp
    | directory =>
      rw [← hseen] at hp
      exact (Option.some.inj hp).symm

/-! ## The cache of open results -/

/-- Every open result in the cache is what the backend would report now. -/
def Current (s : Session Scripted) : Prop :=
  ∀ e ∈ s.openFiles.entries, e.2 = s.backend.report e.1

theorem target_of_edited {edits : List Edit} {e : Effect} (he : e ∈ edits.map (.edited path)) :
    e.target? ≠ none := by
  obtain ⟨edit, _, rfl⟩ := List.mem_map.mp he
  exact Option.some_ne_none path

/-- All that is done to open a file is about that file or the one that is closed for it. -/
theorem target_of_opening {e : Effect} (he : e ∈ s.opening path code root) : e.target? ≠ none := by
  rcases List.mem_cons.mp he with heq | hclosed
  · rw [heq]
    exact Option.some_ne_none path
  · obtain ⟨x, _, rfl⟩ := List.mem_map.mp hclosed
    exact Option.some_ne_none x.1

/-- Opening a file, and closing another for it, changes no report. -/
theorem report_openFile (s : Session Scripted) (path : Path) (code : String) (root : Path)
    (q : Path) : (s.openFile path code root).2.backend.report q = s.backend.report q := by
  rw [backend_openFile]
  exact Scripted.report_performAll_of_target (fun e he => target_of_opening he) q

/-- What is opened is opened as it is reported now. -/
theorem opened_openFile (s : Session Scripted) (path : Path) (code : String) (root : Path) :
    (s.openFile path code root).1 = (s.openFile path code root).2.backend.report path := by
  rw [report_openFile, openFile_eq]

/-- The results of the other files stay current, whatever the cache had for the one that is opened. -/
theorem current_openFile (h : ∀ e ∈ s.openFiles.entries, ¬e.1 ≈ path → e.2 = s.backend.report e.1)
    (code : String) (root : Path) :
    (s.openFile path code root).2.Current ∧
      (s.openFile path code root).1 = (s.openFile path code root).2.backend.report path := by
  refine ⟨fun e he => ?_, s.opened_openFile path code root⟩
  rw [openFiles_openFile] at he
  rw [report_openFile]
  rcases Cache.mem_insert he with ⟨hpath, hvalue⟩ | ⟨hold, hne⟩
  · rw [hvalue, Scripted.report_congr hpath]
  · exact h e hold hne

/-- **Bringing a file up to date keeps the open results current, that of the file included.** -/
theorem current_bringUp (h : s.Current) {allowed : Bool} {opened : OpenedFile}
    (hbring : s.bringUp path code root allowed = (.ok opened, s')) :
    s'.Current ∧ opened = s'.backend.report path := by
  rcases s.bringUp_cases path code root allowed with
    ⟨e, live, hcached, halive, heq⟩ | ⟨e, hcached, hgone, heq⟩ | ⟨habsent, hadmitted, heq⟩ |
    ⟨habsent, hrefuses, heq⟩
  · cases heq.symm.trans hbring
    have hreport : ∀ q, (s.backend.performAll
        ((editsFor s.config live code).map (.edited path))).report q = s.backend.report q :=
      Scripted.report_performAll_of_target fun e he => target_of_edited he
    have hentry := h e (LruMap.mem_of_present hcached)
    refine ⟨fun x hx => ?_, ?_⟩
    · rw [hreport]
      rcases List.mem_cons.mp hx with hfront | hother
      · rw [hfront]
        exact hentry
      · exact h x ((s.openFiles.others_sublist path).subset hother)
    · rw [hreport, hentry, Scripted.report_congr (LruMap.equiv_of_present hcached)]
  · have hresult := openFile_of_ok (heq.symm.trans hbring)
    have hopened := s.current_openFile (fun e he (_ : ¬e.1 ≈ path) => h e he) code root
    rw [hresult] at hopened
    exact hopened
  · have hresult := openFile_of_ok (heq.symm.trans hbring)
    -- the announcement is of a file that is not in the cache, so it makes nothing there stale
    have hannounced : ∀ e ∈ (s.announced path).openFiles.entries, ¬e.1 ≈ path →
        e.2 = (s.announced path).backend.report e.1 := by
      intro e he hne
      have hkept : (s.backend.performAll (s.notices path)).report e.1 = s.backend.report e.1 := by
        refine Scripted.report_performAll fun x hx p hp => ?_
        rw [created_of_notices hx hp]
        exact fun hpe => hne (Setoid.symm hpe)
      exact (h e he).trans hkept.symm
    have hopened := (s.announced path).current_openFile hannounced code root
    rw [hresult] at hopened
    exact hopened
  · cases heq.symm.trans hbring

theorem current_updateExtensions (h : s.Current) (requested : List String) :
    (s.updateExtensions requested).Current := by
  intro e he
  rw [openFiles_updateExtensions] at he
  rw [backend_updateExtensions]
  exact h e he

theorem current_bringUpFor (h : s.Current) {request : Request} {opened : OpenedFile}
    (hbring : s.bringUpFor request = (.ok opened, s')) :
    s'.Current ∧ opened = s'.backend.report (s.absolute request.path) :=
  current_bringUp (current_updateExtensions h request.extensions) hbring

theorem current_resolveWith (h : s.Current) (request : Request) (full : Bool) (used : MatchSet) :
    (s.resolveWith request full used).2.2.Current := by
  rcases hbring : s.bringUpFor request with ⟨e | opened, s'⟩
  · rw [resolveWith_of_error (congrArg Prod.fst hbring)]
    exact current_updateExtensions h request.extensions
  · rw [resolveWith_of_ok hbring]
    exact (current_bringUpFor h hbring).1

theorem report_closed (b : Scripted) (gone : List (Path × OpenedFile)) (q : Path) :
    (b.performAll (gone.map fun e => .closed e.1)).report q = b.report q := by
  refine Scripted.report_performAll_of_target (fun e he => ?_) q
  obtain ⟨x, _, rfl⟩ := List.mem_map.mp he
  exact Option.some_ne_none x.1

theorem current_closeFile (h : s.Current) (p : Path) : (s.closeFile p).2.Current := by
  rw [closeFile_eq]
  intro e he
  have hreport := report_closed s.backend (s.openFiles.entry? (s.absolute p)).toList e.1
  exact (h e ((s.openFiles.others_sublist _).subset he)).trans hreport.symm

end Session

/-! ## Runs that leave the projects alone -/

/-- A change that leaves the projects as they are changes no report. -/
theorem Scripted.report_change {b : Scripted} {c : Change}
    (h : (b.change c).2.projects = b.projects) (p : Path) :
    (b.change c).2.report p = b.report p := by
  have hconfig : (b.change c).2.openConfig = b.openConfig := by
    cases c with
    | overwrite path text =>
      rw [change]
      split <;> rfl
    | setProgram path available => cases available <;> rfl
    | _ => rfl
  unfold report projectOf?
  rw [h, hconfig]

namespace World

/--
Along a run nothing from outside changes the projects. Files that are reported as created
may enter them all the same.
-/
def ProjectsKept (w : World) : List Step → Prop
  | [] => True
  | st :: rest =>
    (∀ c, st = .change c → (w.session.backend.change c).2.projects = w.session.backend.projects) ∧
      (w.step st).2.ProjectsKept rest

theorem current_step {w : World} {st : Step} (h : w.session.Current)
    (hst : ∀ c, st = .change c →
      (w.session.backend.change c).2.projects = w.session.backend.projects) :
    (w.step st).2.session.Current := by
  cases st with
  | resolve request full run =>
    obtain ⟨used, hsession⟩ := w.session_resolve request full run
    rw [hsession]
    exact Session.current_resolveWith h request full (w.counted run)
  | closeFile path => exact Session.current_closeFile h path
  | closeAll =>
    show w.session.closeAll.Current
    rw [Session.closeAll_eq]
    intro e he
    cases he
  | watch path kind =>
    rw [session_step_watch]
    exact h
  | closeWatch i =>
    rw [step_closeWatch]
    cases w.handles[i]? with
    | none => exact h
    | some handle =>
      show (w.session.closeWatch handle).2.Current
      rw [Session.closeWatch]
      exact h
  | change c =>
    intro e he
    have hreport := Scripted.report_change (hst c rfl) e.1
    exact (h e he).trans hreport.symm
  | _ => exact h

theorem current_run {w : World} (h : w.session.Current) {steps : List Step}
    (hsteps : w.ProjectsKept steps) : (w.run steps).session.Current := by
  induction steps generalizing w with
  | nil => exact h
  | cons st rest ih =>
    obtain ⟨hst, hrest⟩ := hsteps
    exact ih (current_step h hst) hrest

theorem current_of_create {backend : Scripted} {config : Config} {w : World}
    (h : create backend config = .ok w) : w.session.Current := by
  obtain ⟨allowlist, hpos, hsession⟩ := Session.begun_of_create (session_of_create h)
  rw [hsession]
  refine Session.current_updateExtensions (fun e he => ?_) []
  cases he

/-! ## What is served -/

/-- A served answer says of its file what the backend `b` says. -/
structure Truthful (w : World) (request : Request) (b : Scripted) (r : Resolved String) :
    Prop where
  path : r.path = w.session.absolute request.path
  /-- A file of the default project is allowed there, and no project has it. -/
  default : r.usedDefaultProject = true →
    w.session.allows request = true ∧ ∀ project ∈ b.projects, r.path ∉ project.files
  /-- Any other file comes with the config file that opening it would report. -/
  configured : r.usedDefaultProject = false →
    r.configFile.isSome ∧ ∀ text root, (b.openFile r.path text root).1.configFile = r.configFile

theorem backend_resolve {w : World} {request : Request} {opened : OpenedFile}
    {s' : Session Scripted} (h : w.session.bringUpFor request = (.ok opened, s')) (full : Bool)
    (run : Option String) : (w.step (.resolve request full run)).2.session.backend = s'.backend := by
  obtain ⟨used, hsession⟩ := w.session_resolve request full run
  rw [hsession, Session.resolveWith_of_ok h]

theorem truthful_of_served {w : World} {request : Request} {run : Option String}
    {r : Resolved String} (h : w.session.Current)
    (hserved : (w.step (.resolve request true run)).1 = .resolved (.ok (some r))) :
    w.Truthful request (w.step (.resolve request true run)).2.session.backend r := by
  obtain ⟨opened, program, hgranted, _, hr⟩ := served_iff.mp hserved
  obtain ⟨s', hbring, ⟨m, hm⟩, _⟩ := Session.granted?_eq_some_iff.mp hgranted
  obtain ⟨_, hopened⟩ := Session.current_bringUpFor h hbring
  rw [backend_resolve hbring, hr]
  refine ⟨rfl, fun hdefault => ?_, fun hconfigured => ?_⟩
  · have hnone : opened.configFile = none := Option.isNone_iff_eq_none.mp hdefault
    have hunclaimed : s'.backend.projectOf? (w.session.absolute request.path) = none := by
      rw [hopened] at hnone
      exact Scripted.projectOf?_of_report hnone
    refine ⟨?_, Scripted.projectOf?_eq_none_iff.mp hunclaimed⟩
    -- a file that no project has is granted the default project by the allow-list alone
    rcases (Facts.classify_full_iff.mp ⟨m, hm⟩).2 hnone with hclaimed | hallowed
    · have hin : (s'.backend.projectOf? (w.session.absolute request.path)).isSome = true := hclaimed
      rw [hunclaimed] at hin
      cases hin
    · exact hallowed
  · have hnot : opened.configFile.isNone = false := hconfigured
    have hsome : opened.configFile.isSome = true := by
      rw [← Option.not_isNone, hnot]
      rfl
    refine ⟨hsome, fun text root => ?_⟩
    rw [hopened]
    rfl

/--
**Open results stay current.** As long as files enter projects only because their creation
was reported, every open result in the cache is at all times what opening its file again
would report. So an answer with full type information is right at the moment it is given.
-/
theorem open_results_current {backend : Scripted} {config : Config} {w : World}
    (hcreate : create backend config = .ok w) {steps : List Step}
    (hsteps : w.ProjectsKept steps) :
    (∀ p opened, (w.run steps).session.openFiles.peek? p = some opened → ∀ text root,
      ((w.run steps).session.backend.openFile p text root).1 = opened) ∧
    ∀ request run r,
      ((w.run steps).step (.resolve request true run)).1 = .resolved (.ok (some r)) →
      (w.run steps).Truthful request
        ((w.run steps).step (.resolve request true run)).2.session.backend r := by
  have hcurrent := current_run (current_of_create hcreate) hsteps
  refine ⟨fun p opened hpeek text root => ?_, fun request run r => truthful_of_served hcurrent⟩
  obtain ⟨e, he, rfl⟩ := Option.map_eq_some_iff.mp hpeek
  rw [hcurrent e (LruMap.mem_of_present he), Scripted.report_congr (LruMap.equiv_of_present he)]
  rfl

/-- A backend with one project, which takes in every file that is reported as created. -/
def adopting : Scripted :=
  { Scripted.bare ⟨"/"⟩ with projects := [⟨⟨"/p/c"⟩, ∅⟩], adopter := some 0 }

/-- Below a watched directory a new file enters the project, and is served as one of its files. -/
theorem open_results_current_for_new_file : ∃ (w : World) (r : Resolved String),
    create adopting {} = .ok w ∧ w.ProjectsKept [.watch ⟨"/p"⟩ .directory] ∧
    ((w.run [.watch ⟨"/p"⟩ .directory]).step (.resolve ⟨⟨"/p/a"⟩, "x", none, []⟩ true none)).1 =
      .resolved (.ok (some r)) ∧
    r.configFile = some ⟨"/p/c"⟩ ∧
    (w.run [.watch ⟨"/p"⟩ .directory]).Truthful ⟨⟨"/p/a"⟩, "x", none, []⟩
      ((w.run [.watch ⟨"/p"⟩ .directory]).step
        (.resolve ⟨⟨"/p/a"⟩, "x", none, []⟩ true none)).2.session.backend r := by
  have hkept : ∀ w : World, w.ProjectsKept [.watch ⟨"/p"⟩ .directory] := fun w =>
    ⟨nofun, trivial⟩
  have htruthful := fun w (hw : create adopting {} = .ok w) =>
    (open_results_current hw (hkept w)).2 ⟨⟨"/p/a"⟩, "x", none, []⟩ none
  exact ⟨_, _, rfl, hkept _, rfl, rfl, htruthful _ rfl _ rfl⟩

end World

end BackendSync
