import BackendSync.Proofs.Orphans
import BackendSync.Proofs.ResolveTrace

/-!
# Which files the policy to reject lets in

A file watch covers one file, a directory watch a directory and all below it. A file that no
project has and that is not on the allow-list is let in if a watch is on it or above it,
and it is the nearest one that is asked for, of whatever kind. So besides the files that a
watch covers there is one more sort of file that is let in: the nearest watch may be a file
watch, and not on the file itself but above it. `opened_under_reject_iff` lists all sorts.
-/

namespace BackendSync

namespace Watch.Registry

variable {r : Registry} {p a : Path}

/-- Some watch covers the path: a file watch just its own path, a directory watch all below. -/
def Covers (r : Registry) (p : Path) : Prop :=
  ∃ a kind, a.OnWayTo p ∧ r.kindAt? a = some kind ∧ (kind = .file → a ≈ p)

/-- The nearest watch to the path is a file watch, on a path above it. -/
def StrayFile (r : Registry) (p : Path) : Prop := ∃ a, r.Nearest p a .file ∧ ¬a ≈ p

/-- If there is a watch on the way to a path, one of them is the nearest. -/
theorem trigger_isSome_of_onWayTo (h : a.OnWayTo p) (hclimbs : p.climbs = false) {kind : Kind}
    (hwatched : r.kindAt? a = some kind) : (r.trigger p).isSome = true := by
  rcases r.trigger_cases p with ⟨_, hrelative | hclimbing | hall⟩ | ⟨hsome, _⟩
  · cases h.right_absolute.symm.trans hrelative
  · cases hclimbs.symm.trans hclimbing
  · cases (hall a h).symm.trans hwatched
  · exact hsome

/-- **A path triggers a watch if a watch covers it, or if a file watch above it is nearest.** -/
theorem trigger_isSome_iff_covers :
    (r.trigger p).isSome = true ↔ p.climbs = false ∧ (r.Covers p ∨ r.StrayFile p) := by
  constructor
  · intro h
    obtain ⟨_, hclimbs, a, kind, hnearest⟩ := trigger_isSome_iff.mp h
    refine ⟨hclimbs, ?_⟩
    by_cases hstray : kind = .file ∧ ¬a ≈ p
    · obtain ⟨rfl, hne⟩ := hstray
      exact Or.inr ⟨a, hnearest, hne⟩
    · refine Or.inl ⟨a, kind, hnearest.onWay, hnearest.watched, fun hfile => ?_⟩
      exact Decidable.byContradiction fun hne => hstray ⟨hfile, hne⟩
  · intro h
    obtain ⟨hclimbs, ⟨a, kind, honWay, hwatched, _⟩ | ⟨a, hnearest, _⟩⟩ := h
    · exact trigger_isSome_of_onWayTo honWay hclimbs hwatched
    · exact trigger_isSome_of_onWayTo hnearest.onWay hclimbs hnearest.watched

end Watch.Registry

namespace World

variable {w : World} {request : Request} {full : Bool} {run : Option String}

/-- A resolve opens the file of its request. -/
def Opens (w : World) (request : Request) (full : Bool) (run : Option String) : Prop :=
  ∃ text root, .opened (w.session.absolute request.path) text root ∈
    w.effects (.resolve request full run)

theorem effects_of_error {e : SyncError} (h : (w.session.bringUpFor request).1 = .error e) :
    w.effects (.resolve request full run) = w.session.extensionEffects request.extensions := by
  obtain ⟨used, hsession⟩ := w.session_resolve request full run
  rw [Session.resolveWith_of_error h] at hsession
  refine effects_of_log ?_
  rw [log, hsession]
  exact Session.log_updateExtensions ..

/-- **A file that is not open is opened just if its request does not end early.** -/
theorem opens_iff (habsent : w.session.openFiles.contains (w.session.absolute request.path) = false) :
    w.Opens request full run ↔
      ¬w.session.Refuses (w.session.absolute request.path) (w.session.allows request) := by
  rcases hbring : w.session.bringUpFor request with ⟨e | opened, s'⟩
  · have herror := congrArg Prod.fst hbring
    obtain ⟨_, hrefuses, _⟩ := Session.bringUpFor_eq_error_iff.mp herror
    refine iff_of_false ?_ fun hnot => hnot hrefuses
    intro hopens
    obtain ⟨text, root, hopened⟩ := hopens
    rw [effects_of_error herror] at hopened
    cases w.session.quiet_extensionEffects request.extensions _ hopened
  · refine iff_of_true ?_ fun hrefuses => ?_
    · -- of the four blocks only the one for a file that is not open remains
      have haccepted : ∀ p, (.ok none : Outcome String) ≠ .error (.orphanedFile p) := nofun
      obtain ⟨block, hlog, hblock⟩ := Session.block_of_bringUpFor hbring haccepted
      have heffects : w.effects (.resolve request full run) =
          w.session.extensionEffects request.extensions ++ block := by
        refine effects_of_log ?_
        rw [log, backend_resolve hbring, hlog]
        rfl
      cases hblock with
      | edits live cached => cases habsent.symm.trans cached
      | reopens cached => cases habsent.symm.trans cached
      | opens notice left _ _ _ _ _ eq =>
        refine ⟨request.code, w.session.rootOf request, ?_⟩
        rw [heffects, eq]
        simp
      | refuses _ orphaned => cases orphaned
    · have herror := Session.bringUpFor_eq_error_iff.mpr ⟨habsent, hrefuses, rfl⟩
      cases (congrArg Prod.fst hbring).symm.trans herror

/--
**Which new files are opened under the policy to reject.** A file that is not open is opened
if a project has it, if it is on the allow-list, if it does not climb and a watch covers it,
or if it does not climb and the nearest watch is a file watch above it. The last of these
watches does not cover the file.
-/
theorem opened_under_reject_iff (w : World) (request : Request) (full : Bool)
    (run : Option String) (hpolicy : w.session.config.orphanPolicy = .reject)
    (habsent : w.session.openFiles.contains (w.session.absolute request.path) = false) :
    w.Opens request full run ↔
      (∃ project ∈ w.session.backend.projects, w.session.absolute request.path ∈ project.files) ∨
        w.session.allows request = true ∨
        (w.session.absolute request.path).climbs = false ∧
          (w.session.watches.Covers (w.session.absolute request.path) ∨
            w.session.watches.StrayFile (w.session.absolute request.path)) := by
  rw [opens_iff habsent, ← Scripted.projectOf?_isSome_iff,
    ← Watch.Registry.trigger_isSome_iff_covers]
  constructor
  · intro hadmitted
    by_cases hclaimed : (w.session.backend.projectOf? (w.session.absolute request.path)).isSome = true
    · exact Or.inl hclaimed
    · cases hallowed : w.session.allows request with
      | true => exact Or.inr (Or.inl rfl)
      | false =>
        refine Or.inr (Or.inr (Option.isSome_iff_ne_none.mpr fun hunwatched => ?_))
        refine hadmitted ⟨?_, hunwatched, hpolicy, hallowed⟩
        exact Option.not_isSome_iff_eq_none.mp hclaimed
  · intro hcovered hrefuses
    rcases hcovered with hclaimed | hallowed | hwatched
    · rw [hrefuses.unclaimed] at hclaimed
      cases hclaimed
    · cases hallowed.symm.trans hrefuses.notAllowed
    · rw [hrefuses.unwatched] at hwatched
      cases hwatched

/-- A configuration that rejects orphans and allows nothing. -/
def rejecting : Config := { orphanPolicy := .reject }

/-- A directory watch lets a file below the directory in, and it covers that file. -/
theorem opened_under_reject_below_directory_watch : ∃ w : World,
    create (.bare ⟨"/"⟩) rejecting = .ok w ∧
    (w.run [.watch ⟨"/gen"⟩ .directory]).session.config.orphanPolicy = .reject ∧
    (w.run [.watch ⟨"/gen"⟩ .directory]).session.openFiles.contains ⟨"/gen/a"⟩ = false ∧
    (w.run [.watch ⟨"/gen"⟩ .directory]).Opens ⟨⟨"/gen/a"⟩, "x", none, []⟩ false none := by
  have honWay : Path.OnWayTo ⟨"/gen"⟩ ⟨"/gen/a"⟩ :=
    ⟨rfl, rfl, List.cons_ne_nil "gen" [], ["a"], rfl⟩
  have hopens := fun (w : World) hpolicy habsent =>
    opened_under_reject_iff (w.run [.watch ⟨"/gen"⟩ .directory]) ⟨⟨"/gen/a"⟩, "x", none, []⟩ false
      none hpolicy habsent
  refine ⟨_, rfl, rfl, rfl, (hopens _ rfl rfl).mpr (Or.inr (Or.inr ⟨rfl, Or.inl ?_⟩))⟩
  exact ⟨⟨"/gen"⟩, .directory, honWay, rfl, nofun⟩

/-- A file watch on a path lets a file below that path in, though it does not cover it. -/
theorem opened_below_file_watch : ∃ w : World,
    create (.bare ⟨"/"⟩) rejecting = .ok w ∧
    (w.run [.watch ⟨"/gen"⟩ .file]).session.openFiles.contains ⟨"/gen/a"⟩ = false ∧
    (w.run [.watch ⟨"/gen"⟩ .file]).Opens ⟨⟨"/gen/a"⟩, "x", none, []⟩ false none ∧
    (∀ project ∈ (w.run [.watch ⟨"/gen"⟩ .file]).session.backend.projects,
      ⟨"/gen/a"⟩ ∉ project.files) ∧
    (w.run [.watch ⟨"/gen"⟩ .file]).session.allows ⟨⟨"/gen/a"⟩, "x", none, []⟩ = false ∧
    ¬(w.run [.watch ⟨"/gen"⟩ .file]).session.watches.Covers ⟨"/gen/a"⟩ := by
  refine ⟨_, rfl, rfl, ⟨"x", ⟨"/"⟩, by decide⟩, ?_, rfl, ?_⟩
  · intro project hproject
    cases hproject
  · intro hcovers
    obtain ⟨a, kind, honWay, hwatched, hfile⟩ := hcovers
    have hstart : a.components <+: ["gen", "a"] := honWay.start
    -- the only watch on the way is the file watch, and that is on another path
    rcases List.prefix_cons_iff.mp hstart with hnil | ⟨rest, hrest, hmore⟩
    · exact honWay.not_root hnil
    · rcases List.prefix_cons_iff.mp hmore with hnil | ⟨last, hlast, hend⟩
      · have hgen : a ≈ ⟨"/gen"⟩ := ⟨honWay.left_absolute, by rw [hrest, hnil]; rfl⟩
        rw [Watch.Registry.kindAt?_congr hgen] at hwatched
        cases hwatched
        have hcomponents := (hfile rfl).2
        rw [hrest, hnil] at hcomponents
        cases hcomponents
      · have hsame : a ≈ ⟨"/gen/a"⟩ :=
          ⟨honWay.left_absolute, by rw [hrest, hlast, List.prefix_nil.mp hend]; rfl⟩
        rw [Watch.Registry.kindAt?_congr hsame] at hwatched
        cases hwatched

end World

end BackendSync
