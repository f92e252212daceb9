import BackendSync.Proofs.Content
import BackendSync.Proofs.Orphans

/-!
# A request made twice

The second of two equal requests finds everything as the first one left it. If the first was
refused, so is the second, for the same reason. If it brought its file up to date, the
session is then `UpToDate` with the request: the extensions are sent, the file is in front
of the cache with the open result that was used, and the live text is the requested one.
From such a session a request has nothing to do, whichever of the four ways the first one
went, and the answer is made of the same parts as before.
-/

namespace BackendSync

/-- What is stored at a path stands in front afterwards. -/
theorem Cache.front_of_insert {α : Type u} (c : Cache α) (p : Path) (value : α) :
    ∃ key rest, (c.insert p value).2.entries = (key, value) :: rest ∧ key ≈ p := by
  cases h : c.entry? p with
  | some e =>
    rw [Cache.insert_of_present h]
    exact ⟨e.1, c.others p, rfl, LruMap.equiv_of_present h⟩
  | none => exact ⟨p, c.makeRoom.2, Cache.entries_insert_of_absent h value, Setoid.refl p⟩

/-- A path that was inserted is in the set, so inserting it again changes nothing. -/
theorem MatchSet.insert_insert (m : MatchSet) (p : Path) :
    ((m.insert p).2.insert p).2 = (m.insert p).2 := by
  have hmem : p ∈ m.files.insert p := PathSet.mem_insert.mpr (Or.inr (Setoid.refl p))
  exact congrArg MatchSet.mk (PathSet.insert_of_mem hmem)

namespace Session

variable {s s' : Session Scripted} {request : Request} {opened : OpenedFile}

/-- Nothing is left to be done for a request. -/
structure UpToDate (s : Session Scripted) (request : Request) (opened : OpenedFile) : Prop where
  extensions : Text.orderedSet (s.config.extraExtensions ++ request.extensions) = s.extensions
  /-- The file is the one that was touched last, and `opened` is how it was opened. -/
  front : ∃ key rest, s.openFiles.entries = (key, opened) :: rest ∧ key ≈ s.absolute request.path
  text : s.backend.buffers.get? (s.absolute request.path) = some request.code

/-- Extensions that were sent are not sent again. -/
theorem updateExtensions_of_sent {requested : List String}
    (h : Text.orderedSet (s.config.extraExtensions ++ requested) = s.extensions) :
    s.updateExtensions requested = s := if_pos h

theorem extensions_updateExtensions (s : Session Scripted) (requested : List String) :
    Text.orderedSet ((s.updateExtensions requested).config.extraExtensions ++ requested) =
      (s.updateExtensions requested).extensions := by
  rw [updateExtensions_eq]

theorem extensions_openFile (s : Session Scripted) (path : Path) (code : String) (root : Path) :
    (s.openFile path code root).2.extensions = s.extensions := by
  rw [openFile_eq]

theorem front_openFile (s : Session Scripted) (path : Path) (code : String) (root : Path) :
    ∃ key rest, (s.openFile path code root).2.openFiles.entries =
      (key, (s.openFile path code root).1) :: rest ∧ key ≈ path := by
  rw [openFile_eq]
  exact Cache.front_of_insert ..

/-- Bringing a file up to date puts it in front, and sends no extensions. -/
theorem front_bringUp {path : Path} {code : String} {root : Path} {allowed : Bool}
    (h : s.bringUp path code root allowed = (.ok opened, s')) :
    s'.extensions = s.extensions ∧
      ∃ key rest, s'.openFiles.entries = (key, opened) :: rest ∧ key ≈ path := by
  rcases s.bringUp_cases path code root allowed with
    ⟨e, live, hcached, _, heq⟩ | ⟨_, _, _, heq⟩ | ⟨_, _, heq⟩ | ⟨_, _, heq⟩
  · cases heq.symm.trans h
    exact ⟨rfl, e.1, s.openFiles.others path, rfl, LruMap.equiv_of_present hcached⟩
  · have hresult := openFile_of_ok (heq.symm.trans h)
    have hfront := s.front_openFile path code root
    have hextensions := s.extensions_openFile path code root
    rw [hresult] at hfront hextensions
    exact ⟨hextensions, hfront⟩
  · have hresult := openFile_of_ok (heq.symm.trans h)
    have hfront := (s.announced path).front_openFile path code root
    have hextensions := (s.announced path).extensions_openFile path code root
    rw [hresult] at hfront hextensions
    exact ⟨hextensions, hfront⟩
  · cases heq.symm.trans h

theorem SameSettings.absolute (h : s.SameSettings s') : s'.absolute = s.absolute :=
  absolute_congr h.directory

theorem SameSettings.allows (h : s.SameSettings s') (request : Request) :
    s'.allows request = s.allows request := allows_congr h.directory h.allowlist request

/-- **A request that brought its file up to date has nothing more to do.** -/
theorem upToDate_of_bringUpFor (h : s.bringUpFor request = (.ok opened, s')) :
    s'.UpToDate request opened := by
  have hsame := sameSettings_bringUpFor h
  obtain ⟨hextensions, hfront⟩ := front_bringUp h
  obtain ⟨_, _, _, htext⟩ := bringUp_touches h
  refine ⟨?_, ?_, ?_⟩
  · rw [hextensions, ← extensions_updateExtensions, hsame.config, config_updateExtensions]
  · rw [hsame.absolute]
    exact hfront
  · rw [hsame.absolute]
    exact htext

/-- **From a session that is up to date a request changes nothing.** -/
theorem UpToDate.bringUpFor (h : s.UpToDate request opened) :
    s.bringUpFor request = (.ok opened, s) := by
  obtain ⟨key, rest, hfront, hkey⟩ := h.front
  have hsent := updateExtensions_of_sent h.extensions
  rw [Session.bringUpFor, hsent, bringUp_of_alive (LruMap.entry?_of_front hfront hkey) h.text,
    LruMap.refresh_of_front hfront hkey, editsFor, if_pos rfl]
  rfl

theorem recorded_recorded (path : Path) (m : Membership) (used : MatchSet) :
    recorded path m (recorded path m used) = recorded path m used := by
  unfold recorded
  split
  · exact MatchSet.insert_insert used path
  · rfl

/-- **A request that was refused is refused again.** -/
theorem bringUpFor_again_of_error {e : SyncError} (h : (s.bringUpFor request).1 = .error e)
    (own : MatchSet) :
    (({ s.updateExtensions request.extensions with used := own } : Session Scripted).bringUpFor
      request).1 = .error e := by
  obtain ⟨habsent, hrefuses, he⟩ := bringUpFor_eq_error_iff.mp h
  have hsame := s.sameSettings_updateExtensions request.extensions
  have habsolute := congrFun hsame.absolute request.path
  rw [← s.refuses_updateExtensions request.extensions, ← habsolute, ← hsame.allows] at hrefuses
  rw [← s.openFiles_updateExtensions request.extensions, ← habsolute] at habsent
  rw [← habsolute] at he
  obtain ⟨hunclaimed, hunwatched, hpolicy, hnotAllowed⟩ := hrefuses
  exact bringUpFor_eq_error_iff.mpr ⟨habsent, ⟨hunclaimed, hunwatched, hpolicy, hnotAllowed⟩, he⟩

/-- Concluding again with the set that the first conclusion left gives the same. -/
theorem conclude_again (s : Session Scripted) (path : Path) (opened : OpenedFile)
    (allowed full : Bool) (used : MatchSet) :
    s.conclude path opened allowed full (s.conclude path opened allowed full used).2 =
      s.conclude path opened allowed full used := by
  rcases s.conclude_cases path opened allowed full used with
    ⟨e, hm, heq⟩ | ⟨m, hm, hp, heq⟩ | ⟨m, program, e, hm, hp, hcheck, heq⟩ |
    ⟨m, program, hm, hp, hcheck, heq⟩
  · rw [heq, heq]
  · rw [heq, heq]
  all_goals
    have hrecorded := recorded_recorded path m used
    have hin : Backend.inProject s.backend path = (s.backend.projectOf? path).isSome := rfl
    have hprogram : Backend.program? s.backend path = s.backend.program? path := rfl
    rw [heq]
    unfold recorded at hrecorded hcheck ⊢
    simp only [conclude, hin, hm, hprogram, hp, hrecorded, hcheck]

/--
**The second of two equal requests gives the first one's answer and changes nothing.** The
set that the session itself counts in has no part in it.
-/
theorem resolveWith_again (s : Session Scripted) (request : Request) (full : Bool)
    (used own : MatchSet) :
    ({ (s.resolveWith request full used).2.2 with used := own } : Session Scripted).resolveWith
        request full (s.resolveWith request full used).2.1 =
      ((s.resolveWith request full used).1, (s.resolveWith request full used).2.1,
        { (s.resolveWith request full used).2.2 with used := own }) := by
  rcases hbring : s.bringUpFor request with ⟨e | opened, s'⟩
  · have herror : (s.bringUpFor request).1 = .error e := congrArg Prod.fst hbring
    rw [resolveWith_of_error herror, resolveWith_of_error (bringUpFor_again_of_error herror own)]
    refine congrArg (fun s' => (_, _, s')) (updateExtensions_of_sent ?_)
    exact s.extensions_updateExtensions request.extensions
  · obtain ⟨hextensions, hfront, htext⟩ := upToDate_of_bringUpFor hbring
    have hagain : UpToDate { s' with used := own } request opened := ⟨hextensions, hfront, htext⟩
    have hsame := sameSettings_bringUpFor hbring
    have habsolute : ({ s' with used := own } : Session Scripted).absolute request.path =
        s.absolute request.path := congrFun hsame.absolute request.path
    have hallows : ({ s' with used := own } : Session Scripted).allows request =
        s.allows request := hsame.allows request
    have hconclude := s'.conclude_again (s.absolute request.path) opened (s.allows request) full used
    rw [resolveWith_of_ok hbring, resolveWith_of_ok hagain.bringUpFor, habsolute, hallows]
    exact congrArg (fun answer => (answer.1, answer.2, _)) hconclude

end Session

namespace World

theorem runOf_setRun (w : World) (name : String) (used : MatchSet) :
    (w.setRun name used).runOf name = used := by
  show (if name = name then some used else w.runs name).getD .empty = used
  rw [if_pos rfl]
  rfl

theorem setRun_setRun (w : World) (name : String) (used : MatchSet) :
    (w.setRun name used).setRun name used = w.setRun name used := by
  refine congrArg (World.mk w.session w.handles) (funext fun other => ?_)
  show (if other = name then some used else (w.setRun name used).runs other) =
    if other = name then some used else w.runs other
  by_cases h : other = name
  · rw [if_pos h, if_pos h]
  · rw [if_neg h, if_neg h]
    exact if_neg h

/--
**A request made twice is a request made once.** Whatever the state of the session and of the
backend, and whatever was answered, the same request with the same match set, made again
directly afterwards, sends nothing to the backend, gets the same answer and leaves the world
as it is.
-/
theorem resolve_again (w : World) (request : Request) (full : Bool) (run : Option String) :
    (w.step (.resolve request full run)).2.effects (.resolve request full run) = [] ∧
      (w.step (.resolve request full run)).2.step (.resolve request full run) =
        w.step (.resolve request full run) := by
  have hagain : (w.step (.resolve request full run)).2.step (.resolve request full run) =
      w.step (.resolve request full run) := by
    cases run with
    | none =>
      have h := w.session.resolveWith_again request full w.session.used
        (w.session.resolveWith request full w.session.used).2.1
      rw [step_resolve_own, step_resolve_own]
      dsimp only
      rw [h]
    | some name =>
      have h : (w.session.resolveWith request full (w.runOf name)).2.2.resolveWith request full
          (w.session.resolveWith request full (w.runOf name)).2.1 =
          w.session.resolveWith request full (w.runOf name) :=
        w.session.resolveWith_again request full (w.runOf name) _
      rw [step_resolve_run, step_resolve_run, runOf_setRun]
      generalize w.session.resolveWith request full (w.runOf name) = first at h ⊢
      have hsession : (({ w with session := first.2.2 } : World).setRun name first.2.1).session =
          first.2.2 := rfl
      rw [hsession, h]
      exact congrArg (Prod.mk _) (setRun_setRun { w with session := first.2.2 } name first.2.1)
  refine ⟨effects_of_log ?_, hagain⟩
  rw [hagain, List.append_nil]

end World

end BackendSync
