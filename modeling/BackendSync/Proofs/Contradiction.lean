import BackendSync.Proofs.Bookkeeping
import BackendSync.Proofs.Counting

/-!
# Files that are in a project and on the allow-list

A file of a configured project must not be on the allow-list for the default project as
well. There are two places where a file can be said to be in a project: the projects that
the backend has at the moment, and the config file that it reported when the file was
opened. To be in neither is what denies a file, but only the first of them is held against
the allow-list. `served_in_both_iff` says which files get through because of that.
-/

namespace BackendSync

namespace World

/-- A request for a file that was opened in a project counts nowhere. -/
theorem counted_resolve_of_configured {w : World} {request : Request} {full : Bool}
    {opened : OpenedFile} {program : String}
    (h : w.session.granted? request full = some (opened, program))
    (hconfig : opened.configFile.isSome = true) (key : Option String) :
    (w.step (.resolve request full key)).2.counted key = w.counted key := by
  have hnot : opened.membership ≠ .default := by
    intro hdefault
    rw [OpenedFile.membership_eq_default_iff.mp hdefault] at hconfig
    cases hconfig
  rw [counted_resolve, (Session.resolveWith_of_granted h _).1, Session.recorded, if_neg hnot]

/--
**When a file is served although it is in a project and on the allow-list.** With full type
information required, a file that was opened in a project and is on the allow-list is
served just if none of the projects at that moment has it, it has a program, and its match
set is not over the cap. A project that has it at that moment is the only thing for which
the contradiction is refused.
-/
theorem served_in_both_iff (w : World) (request : Request) (run : Option String) :
    (∃ r, (w.step (.resolve request true run)).1 = .resolved (.ok (some r)) ∧
        r.configFile.isSome = true ∧ w.session.allows request = true) ↔
      w.session.allows request = true ∧
        (w.counted run).size ≤ w.session.config.maximumMatches ∧
        ∃ opened s', w.session.bringUpFor request = (.ok opened, s') ∧
          opened.configFile.isSome = true ∧
          s'.backend.projectOf? (w.session.absolute request.path) = none ∧
          (s'.backend.program? (w.session.absolute request.path)).isSome = true := by
  constructor
  · rintro ⟨r, hserved, hconfig, hallowed⟩
    obtain ⟨opened, program, hgranted, hsize, hr⟩ := served_iff.mp hserved
    obtain ⟨s', hbring, hm, hprogram⟩ := Session.granted?_eq_some_iff.mp hgranted
    rw [hr] at hconfig
    rw [counted_resolve_of_configured hgranted hconfig] at hsize
    have hnotboth := (Facts.classify_full_iff.mp hm).1
    have hunclaimed : s'.backend.projectOf? (w.session.absolute request.path) = none := by
      cases hclaimed : s'.backend.projectOf? (w.session.absolute request.path) with
      | none => rfl
      | some project =>
        have hin : (s'.backend.projectOf? (w.session.absolute request.path)).isSome = true := by
          rw [hclaimed]
          rfl
        exact absurd ⟨hin, hallowed⟩ hnotboth
    refine ⟨hallowed, hsize, opened, s', hbring, hconfig, hunclaimed, ?_⟩
    rw [hprogram]
    rfl
  · rintro ⟨hallowed, hsize, opened, s', hbring, hconfig, hunclaimed, hready⟩
    obtain ⟨program, hprogram⟩ := Option.isSome_iff_exists.mp hready
    have hm : ∃ m, (w.session.factsFor request opened s').classify true = .ok m := by
      refine Facts.classify_full_iff.mpr ⟨fun hboth => ?_, fun _ => Or.inr hallowed⟩
      have hin : (s'.backend.projectOf? (w.session.absolute request.path)).isSome = true := hboth.1
      rw [hunclaimed] at hin
      cases hin
    have hgranted := Session.granted?_eq_some_iff.mpr ⟨s', hbring, hm, hprogram⟩
    have hcounted := counted_resolve_of_configured hgranted hconfig run
    refine ⟨_, served_iff.mpr ⟨opened, program, hgranted, ?_, rfl⟩, hconfig, hallowed⟩
    rw [hcounted]
    exact hsize

/-- A backend that reports a project for a file which none of its projects has. -/
def contested : Scripted :=
  { Scripted.bare ⟨"/proj"⟩ with
    openConfig := .ofList [(⟨"/proj/a.ts"⟩, ⟨"/proj/tsconfig.json"⟩)] }

/-- A configuration with just that file on the allow-list. -/
def contestedConfig : Config := { allowDefaultProject := ["a.ts"] }

theorem compile_contested :
    Allowlist.compile ["a.ts"] = .ok ⟨["a.ts"], [⟨"a.ts".toList.map .literal⟩]⟩ := by
  cbv

theorem create_contested (h : 0 < contestedConfig.maximumOpenFiles) :
    create contested contestedConfig =
      .ok { session := (Session.begun contested contestedConfig
        ⟨["a.ts"], [⟨"a.ts".toList.map .literal⟩]⟩ h).updateExtensions [] } := by
  have hvalid : contestedConfig.validate = .ok () := by
    cbv
  have hpatterns : contestedConfig.allowDefaultProject = ["a.ts"] := rfl
  rw [create, Session.create_eq, hvalid, hpatterns, compile_contested]
  rfl

/-- The file that the backend reports a project for is served, though it is on the allow-list. -/
theorem served_in_both : ∃ (w : World) (r : Resolved String),
    create contested contestedConfig = .ok w ∧
    (w.step (.resolve ⟨⟨"/proj/a.ts"⟩, "x", none, []⟩ true none)).1 = .resolved (.ok (some r)) ∧
    r.configFile = some ⟨"/proj/tsconfig.json"⟩ ∧
    w.session.allows ⟨⟨"/proj/a.ts"⟩, "x", none, []⟩ = true :=
  ⟨_, _, create_contested (by decide), rfl, rfl, by decide⟩

end World

end BackendSync
