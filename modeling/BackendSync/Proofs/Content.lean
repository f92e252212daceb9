import BackendSync.Proofs.StepEffects

/-!
# After a resolve the backend has the requested text

Whatever a session and its backend went through before, and whatever was done to the live
texts behind the session's back, a resolve that does not call the file an orphan leaves
exactly the requested text in the backend. It does so without touching anything else,
but that one other file may have to be closed to make room.

No invariant of the session is needed for this. The session never trusts what it sent
earlier: it asks the backend for the live text, and edits that text or opens the file.
So the theorem is about every world there is, reachable or not.
-/

namespace BackendSync

namespace Session

/-! ## On behalf of one file -/

/--
`sent` is done to the backend on behalf of the file at `path`, and `left` is the file
that has to be closed for it, if there is one.
-/
structure Touches (s : Session Scripted) (path : Path) (sent : List Effect) (left : Option Path)
    (s' : Session Scripted) : Prop where
  performed : s'.backend.drained = (s.backend.performAll sent).drained
  fits : s.backend.EditsFit sent
  closes : sent.filterMap Effect.closed? = left.toList
  /-- Nothing is done to a third file. -/
  targets : ∀ e ∈ sent, ∀ q ∈ e.target?, q = path ∨ q ∈ left
  /-- The file that leaves is another one. It was open, and nothing is left of it. -/
  evicted : ∀ q ∈ left, ¬q ≈ path ∧ q ∈ s.openFiles.paths ∧
    s'.openFiles.contains q = false ∧ s'.backend.buffers.get? q = none

theorem closed?_of_target? {e : Effect} (h : e.target? = none) : e.closed? = none := by
  cases e with
  | closed path => cases h
  | _ => rfl

/-- Effects about no file may come before. -/
theorem Touches.after_quiet {s s₁ s' : Session Scripted} {path : Path} {first sent : List Effect}
    {left : Option Path} (h : s₁.Touches path sent left s') (hquiet : Quiet first)
    (hbackend : s₁.backend = s.backend.performAll first) (hfiles : s₁.openFiles = s.openFiles) :
    s.Touches path (first ++ sent) left s' := by
  refine ⟨?_, ?_, ?_, ?_, ?_⟩
  · rw [h.performed, hbackend, Scripted.performAll_append]
  · have hfits := h.fits
    rw [hbackend] at hfits
    exact hfits.after_quiet hquiet
  · have hnone : first.filterMap Effect.closed? = [] :=
      List.filterMap_eq_nil_iff.mpr fun e he => closed?_of_target? (hquiet e he)
    rw [List.filterMap_append, hnone, List.nil_append, h.closes]
  · intro e he q hq
    rcases List.mem_append.mp he with hfirst | hsent
    · rw [hquiet e hfirst] at hq
      cases hq
    · exact h.targets e hsent q hq
  · intro q hq
    have hout := h.evicted q hq
    rw [hfiles] at hout
    exact hout

/-- Effects about no file are on behalf of any file. -/
theorem touches_of_quiet {s s' : Session Scripted} {sent : List Effect} (hquiet : Quiet sent)
    (hbackend : s'.backend = s.backend.performAll sent) (path : Path) :
    s.Touches path sent none s' := by
  refine ⟨by rw [hbackend], ?_, ?_, ?_, ?_⟩
  · refine Scripted.editsFit_of_no_edit (fun p edit hmem => ?_) _
    cases hquiet _ hmem
  · exact List.filterMap_eq_nil_iff.mpr fun e he => closed?_of_target? (hquiet e he)
  · intro e he q hq
    rw [hquiet e he] at hq
    cases hq
  · intro q hq
    cases hq

/-- Editing the live text of a file is on its behalf alone. -/
theorem touches_edited {s s' : Session Scripted} {path : Path} {code live : String}
    (halive : s.backend.buffers.get? path = some live)
    (hbackend : s'.backend =
      s.backend.performAll ((editsFor s.config live code).map (.edited path))) :
    s.Touches path ((editsFor s.config live code).map (.edited path)) none s' := by
  refine ⟨by rw [hbackend], ?_, ?_, ?_, ?_⟩
  · exact Scripted.editsFit_edited halive (replay?_editsFor _ _ _)
  · refine List.filterMap_eq_nil_iff.mpr fun e he => ?_
    obtain ⟨edit, _, hedit⟩ := List.mem_map.mp he
    rw [← hedit]
    rfl
  · intro e he q hq
    obtain ⟨edit, _, hedit⟩ := List.mem_map.mp he
    rw [← hedit] at hq
    cases hq
    exact Or.inl rfl
  · intro q hq
    cases hq

/-- The file that has to be closed when another is opened. -/
def leaving (s : Session Scripted) (path : Path) : Option Path :=
  (s.openFiles.insert path (s.backend.report path)).1.map (·.1)

theorem opening_eq (s : Session Scripted) (path : Path) (code : String) (root : Path) :
    s.opening path code root = .opened path code root :: (s.leaving path).toList.map .closed := by
  rw [opening, leaving]
  cases (s.openFiles.insert path (s.backend.report path)).1 <;> rfl

/-- The file that is closed for another is never that other file. -/
theorem leaving_not_equiv {s : Session Scripted} {path q : Path} (h : q ∈ s.leaving path) :
    ¬q ≈ path := by
  obtain ⟨e, he, rfl⟩ := Option.map_eq_some_iff.mp h
  exact Cache.not_equiv_of_evicted he

theorem touches_openFile (s : Session Scripted) (path : Path) (code : String) (root : Path) :
    s.Touches path (s.opening path code root) (s.leaving path) (s.openFile path code root).2 := by
  refine ⟨?_, ?_, ?_, ?_, ?_⟩
  · rw [backend_openFile]
    rfl
  · refine Scripted.editsFit_of_no_edit (fun p edit hmem => ?_) _
    rw [opening_eq] at hmem
    rcases List.mem_cons.mp hmem with heq | hmem
    · cases heq
    · obtain ⟨q, _, heq⟩ := List.mem_map.mp hmem
      cases heq
  · rw [opening_eq]
    cases s.leaving path <;> rfl
  · intro e he q hq
    rw [opening_eq] at he
    rcases List.mem_cons.mp he with heq | hmem
    · rw [heq] at hq
      cases hq
      exact Or.inl rfl
    · obtain ⟨p, hp, heq⟩ := List.mem_map.mp hmem
      rw [← heq] at hq
      cases hq
      exact Or.inr (Option.mem_toList.mp hp)
  · intro q hq
    refine ⟨leaving_not_equiv hq, ?_⟩
    have hsent := s.opening_eq path code root
    rw [hq] at hsent
    obtain ⟨e, he, rfl⟩ := Option.map_eq_some_iff.mp hq
    rw [backend_openFile, openFiles_openFile]
    refine ⟨List.mem_map_of_mem (Cache.mem_of_evicted he), Cache.absent_of_evicted he, ?_⟩
    show (s.backend.performAll (s.opening path code root)).buffers.get? e.1 = none
    rw [hsent]
    exact PathMap.get?_erase_self ..

/-! ## The text that is there afterwards -/

theorem buffers_openFile (s : Session Scripted) (path : Path) (code : String) (root : Path) :
    (s.openFile path code root).2.backend.buffers.get? path = some code := by
  have hkept : ∀ e ∈ (s.leaving path).toList.map Effect.closed, ∀ q ∈ e.target?, ¬q ≈ path := by
    intro e he q hq
    obtain ⟨p, hp, heq⟩ := List.mem_map.mp he
    rw [← heq] at hq
    cases hq
    exact leaving_not_equiv (Option.mem_toList.mp hp)
  rw [backend_openFile]
  show (s.backend.performAll (s.opening path code root)).buffers.get? path = some code
  rw [opening_eq, Scripted.performAll_cons, Scripted.get?_performAll_of_not_target hkept,
    Scripted.buffers_perform]
  exact PathMap.get?_insert_self ..

/-- **A file that is brought up to date has the new text, and no third file is touched.** -/
theorem bringUp_touches {s s' : Session Scripted} {path : Path} {code : String} {root : Path}
    {allowed : Bool} {opened : OpenedFile}
    (h : s.bringUp path code root allowed = (.ok opened, s')) :
    ∃ sent left, s.Touches path sent left s' ∧ s'.backend.buffers.get? path = some code := by
  rcases s.bringUp_cases path code root allowed with
    ⟨e, live, hcached, halive, heq⟩ | ⟨e, hcached, hgone, heq⟩ | ⟨habsent, hadmitted, heq⟩ |
    ⟨habsent, hrefuses, heq⟩
  all_goals
    rw [heq] at h
    cases h
  · -- the edits start from the live text, whoever wrote that, and end in the new one
    refine ⟨_, none, touches_edited halive rfl, ?_⟩
    rw [Scripted.performAll_edited _ halive (replay?_editsFor _ _ _)]
    exact PathMap.get?_insert_self ..
  · exact ⟨_, _, s.touches_openFile path code root, s.buffers_openFile path code root⟩
  · refine ⟨_, _, (touches_openFile _ path code root).after_quiet (s.quiet_notices path) rfl rfl, ?_⟩
    exact buffers_openFile ..

end Session

/-! ## A whole resolve -/

namespace World

/--
What a resolve does to the backend and what it leaves there. `sent` is what was done, and
`left` the file that had to be closed to make room, if there was one.
-/
structure Synchronised (w : World) (request : Request) (sent : List Effect) (left : Option Path)
    (outcome : Outcome String) (w' : World) : Prop where
  logged : w'.log = w.log ++ sent
  /-- The live texts are those from before with the effects performed on them. -/
  performed : w'.session.backend.buffers = (w.session.backend.performAll sent).buffers
  /-- The backend has the requested text. -/
  text : (∀ p, outcome ≠ .error (.orphanedFile p)) →
    w'.session.backend.buffers.get? (w.session.absolute request.path) = some request.code
  /-- Every edit is inside the text and on boundaries of characters when it is applied. -/
  fits : w.session.backend.EditsFit sent
  /-- At most one file is closed. -/
  closes : sent.filterMap Effect.closed? = left.toList
  /-- That is another file, which was open. Nothing is left of it. -/
  evicted : ∀ q ∈ left, ¬q ≈ w.session.absolute request.path ∧ q ∈ w.session.openFiles.paths ∧
    w'.session.openFiles.contains q = false ∧ w'.session.backend.buffers.get? q = none
  /-- Every other text is what it was. -/
  others : ∀ q, ¬q ≈ w.session.absolute request.path → (∀ p ∈ left, ¬q ≈ p) →
    w'.session.backend.buffers.get? q = w.session.backend.buffers.get? q
  /-- The program that is served is the one of the requested text. -/
  program : ∀ r, outcome = .ok (some r) → r.program = request.code

/-- What is seen of a session that brought a file up to date. -/
theorem synchronised_of_touches {w w' : World} {request : Request} {sent : List Effect}
    {left : Option Path} {outcome : Outcome String} {s' : Session Scripted}
    (h : w.session.Touches (w.session.absolute request.path) sent left s')
    (hbackend : w'.session.backend = s'.backend) (hfiles : w'.session.openFiles = s'.openFiles)
    (htext : (∀ p, outcome ≠ .error (.orphanedFile p)) →
      s'.backend.buffers.get? (w.session.absolute request.path) = some request.code)
    (hprogram : ∀ r, outcome = .ok (some r) → r.program = request.code) :
    w.Synchronised request sent left outcome w' := by
  have hbuffers : s'.backend.buffers = (w.session.backend.performAll sent).buffers :=
    congrArg (·.buffers) h.performed
  have hlog : s'.backend.log = (w.session.backend.performAll sent).log :=
    congrArg (·.log) h.performed
  refine ⟨?_, ?_, ?_, h.fits, h.closes, ?_, ?_, hprogram⟩
  · rw [log, hbackend, hlog, Scripted.log_performAll]
    rfl
  · rw [hbackend, hbuffers]
  · rw [hbackend]
    exact htext
  · rw [hbackend, hfiles]
    exact h.evicted
  · intro q hpath hleft
    rw [hbackend, hbuffers]
    refine Scripted.get?_performAll_of_not_target (fun e he p hp hpq => ?_) _
    rcases h.targets e he p hp with heq | hmem
    · rw [heq] at hpq
      exact hpath (Setoid.symm hpq)
    · exact hleft p hmem (Setoid.symm hpq)

/--
**After a resolve the backend has the requested text.** Whatever the state of the session
and of the backend, a resolve in either mode of syncing, with any answer other than that
the file is an orphan, leaves exactly the requested text at the path of the request, by
edits that fit. Other files keep their texts but for one that may be closed, and a
program that is served is that of the requested text.
-/
theorem resolve_synchronises (w : World) (request : Request) (full : Bool) (run : Option String) :
    ∃ outcome sent left, (w.step (.resolve request full run)).1 = .resolved outcome ∧
      w.Synchronised request sent left outcome (w.step (.resolve request full run)).2 := by
  obtain ⟨outcome, used, hreply, hways⟩ := w.step_resolve request full run
  have hquiet := w.session.quiet_extensionEffects request.extensions
  have hextended := w.session.updateExtensions_eq request.extensions
  rcases hways with ⟨e, hbring, hout, hsession⟩ | ⟨opened, s', hbring, hnot, hprogram, hsession⟩
  · -- nothing but the extensions was sent, and the answer is that the file is an orphan
    have horphan := Session.orphaned_of_bringUp_error hbring
    have htouches : w.session.Touches (w.session.absolute request.path)
        (w.session.extensionEffects request.extensions) none
        (w.session.updateExtensions request.extensions) :=
      Session.touches_of_quiet hquiet (by rw [hextended]) _
    refine ⟨outcome, _, none, hreply, synchronised_of_touches htouches ?_ ?_ ?_ ?_⟩
    · rw [hsession]
    · rw [hsession]
    · intro hnot
      exact absurd (by rw [hout, horphan]) (hnot _)
    · intro r hr
      rw [hout] at hr
      cases hr
  · -- whatever is answered, the backend is not told anything after the file was brought up
    obtain ⟨sent, left, htouches, htext⟩ := Session.bringUp_touches hbring
    rw [hextended] at htouches
    have hwhole := htouches.after_quiet hquiet rfl rfl
    refine ⟨outcome, _, left, hreply, synchronised_of_touches hwhole ?_ ?_ ?_ ?_⟩
    · rw [hsession]
    · rw [hsession]
    · exact fun _ => htext
    · intro r hr
      have hserved := Scripted.get?_of_program? (hprogram r hr)
      rw [htext] at hserved
      exact (Option.some.inj hserved).symm

end World

end BackendSync
