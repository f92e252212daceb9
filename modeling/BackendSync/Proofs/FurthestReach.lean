import Mathlib.Data.List.Nodup
import BackendSync.Proofs.EditGrid

/-!
# Frontiers are furthest reach

On each diagonal there is a point that a walk of fewer than `d` steps gets to and behind which
there is none, because the steps that a point needs do not fall along a diagonal. `Furthest` says
that a point is this one, and a frontier `Knows` the grid up to `d` if its cells are these points,
on every diagonal that `d - 1` steps lead to.

A round goes from `d` to `d + 1`. It enters a diagonal from the further of its two neighbours and
slides along the kept characters. Where it stops nothing can be kept, so a walk that gets behind
comes from behind one of the neighbours' cells and makes one step more. The neighbours have the
other parity, so that a round writes no cell that it reads, and beyond the outermost diagonals a
point is out of reach by its diagonal alone (`Knows.le_steps`).

None of this cares for the far sides of the grid: a frontier may leave it, and stays right.
-/

namespace BackendSync.Diff

/-! ## Furthest points -/

namespace Grid

variable {g : Grid} {d x x' y' : Nat} {k : Int}

/-- The row of a point that is not above the grid. -/
theorem row_cast {x : Nat} (h : k ≤ x) : (row k x : Int) = x - k := by
  rw [row]
  omega

theorem row_add {x : Nat} (h : k ≤ x) (n : Nat) : row k (x + n) = row k x + n := by
  rw [row, row]
  omega

/-- On diagonal `k`, a walk of fewer than `d` steps gets as far right as `x` and no further. -/
structure Furthest (g : Grid) (d : Nat) (k : Int) (x : Nat) : Prop where
  /-- The point is not above the grid. -/
  inside : k ≤ x
  reached : g.steps x (row k x) < d
  beyond : d ≤ g.steps (x + 1) (row k x + 1)

/-- Whatever is further right needs as many steps. -/
theorem Furthest.le_steps (h : g.Furthest d k x) (hk : (x' : Int) - y' = k) (hlt : x < x') :
    d ≤ g.steps x' y' := by
  have hrow := row_cast h.inside
  have hx : x' = x + 1 + (x' - (x + 1)) := by omega
  have hy : y' = row k x + 1 + (x' - (x + 1)) := by omega
  have hfall := g.steps_le_add (x + 1) (row k x + 1) (x' - (x + 1))
  rw [← hx, ← hy] at hfall
  exact Nat.le_trans h.beyond hfall

/-- Whatever is not further right needs fewer. -/
theorem Furthest.steps_lt (h : g.Furthest d k x) (hk : (x' : Int) - y' = k) (hle : x' ≤ x) :
    g.steps x' y' < d := by
  have hrow := row_cast h.inside
  have hx : x = x' + (x - x') := by omega
  have hy : row k x = y' + (x - x') := by omega
  have hfall := g.steps_le_add x' y' (x - x')
  rw [← hx, ← hy] at hfall
  exact Nat.lt_of_le_of_lt hfall h.reached

/-- Round `d` enters diagonal `k` in `x`: it has made `d` steps, and neither a step further right
nor one further down is a point that fewer lead to. -/
structure Enters (g : Grid) (d : Nat) (k : Int) (x : Nat) : Prop where
  inside : k ≤ x
  reached : g.steps x (row k x) ≤ d
  right : d ≤ g.steps (x + 1) (row k x)
  below : d ≤ g.steps x (row k x + 1)

/-- A slide goes over matching characters and ends where there is no other. -/
theorem slide_spec (g : Grid) (x y : Nat) :
    (∀ i < g.slide x y, g.Matches (x + i) (y + i)) ∧
      ¬g.Matches (x + g.slide x y) (y + g.slide x y) := by
  fun_induction slide g x y with
  | case1 x y h heq ih =>
    obtain ⟨hmatch, hend⟩ := ih
    refine ⟨fun i hi => ?_, ?_⟩
    · cases i with
      | zero => exact ⟨g.old[x], Array.getElem?_eq_getElem h.1, heq ▸ Array.getElem?_eq_getElem h.2⟩
      | succ i =>
        have hnext := hmatch i (by omega)
        rwa [Nat.add_right_comm, Nat.add_right_comm y] at hnext
    · rwa [Nat.add_right_comm, Nat.add_right_comm y] at hend
  | case2 x y h hne =>
    refine ⟨fun i hi => absurd hi (Nat.not_lt_zero i), ?_⟩
    rintro ⟨c, hold, hnew⟩
    rw [Nat.add_zero, Array.getElem?_eq_getElem h.1] at hold
    rw [Nat.add_zero, Array.getElem?_eq_getElem h.2] at hnew
    exact hne ((Option.some.inj hold).trans (Option.some.inj hnew).symm)
  | case3 x y h =>
    refine ⟨fun i hi => absurd hi (Nat.not_lt_zero i), ?_⟩
    rintro ⟨c, hold, hnew⟩
    obtain ⟨hx, _⟩ := Array.getElem?_eq_some_iff.mp hold
    obtain ⟨hy, _⟩ := Array.getElem?_eq_some_iff.mp hnew
    exact h ⟨hx, hy⟩

theorem mem_diagonals_iff : k ∈ diagonals d ↔ k.natAbs ≤ d ∧ (k + d) % 2 = 0 := by
  rw [diagonals, List.mem_map]
  constructor
  · rintro ⟨i, hi, rfl⟩
    rw [List.mem_range] at hi
    omega
  · rintro ⟨hk, hparity⟩
    refine ⟨((d - k) / 2).toNat, List.mem_range.mpr ?_, ?_⟩ <;> omega

theorem nodup_diagonals (d : Nat) : (diagonals d).Nodup := by
  refine List.Nodup.map ?_ List.nodup_range
  intro i j hij
  dsimp only at hij
  omega

end Grid

/-! ## What a frontier knows -/

namespace Frontier

variable {f : Frontier} {g : Grid} {d x y : Nat} {j k : Int}

/-- There is a cell for every diagonal up to the radius. -/
def Wide (f : Frontier) : Prop := f.cells.size = 2 * f.radius + 1

theorem wide_start (radius : Nat) : (start radius).Wide := Array.size_replicate

theorem Wide.set (h : f.Wide) (k : Int) (x : Nat) : (f.set k x).Wide := by
  rw [Wide, Frontier.set, Array.size_setIfInBounds]
  exact h

theorem Wide.reach_set (h : f.Wide) (hk : k.natAbs ≤ f.radius) (hj : j.natAbs ≤ f.radius)
    (x : Nat) : (f.set k x).reach j = if j = k then x else f.reach j := by
  have hcell : (f.set k x).cell j = f.cell j := rfl
  have hin : f.cell k < f.cells.size := by
    rw [h, cell]
    omega
  rw [reach, hcell, Frontier.set, Array.getD_eq_getD_getElem?, Array.getElem?_setIfInBounds]
  by_cases hjk : j = k
  · rw [if_pos hjk, hjk, if_pos rfl, if_pos hin, Option.getD_some]
  · have hne : f.cell k ≠ f.cell j := by
      rw [cell, cell]
      omega
    rw [if_neg hjk, if_neg hne, reach, Array.getD_eq_getD_getElem?]

/-- The cells that `d - 1` steps lead to are the furthest points of fewer than `d` steps. -/
structure Knows (f : Frontier) (g : Grid) (d : Nat) : Prop where
  wide : f.Wide
  /-- Before the first round the corner is entered from above. -/
  entrance : d = 0 → f.reach 1 = 0
  furthest : ∀ k : Int, k.natAbs < d → (k + d) % 2 = 1 → g.Furthest d k (f.reach k)

theorem knows_start (g : Grid) (radius : Nat) : (start radius).Knows g 0 := by
  refine ⟨wide_start radius, fun _ => ?_, fun k hk => absurd hk (Nat.not_lt_zero _)⟩
  rw [reach, start, Array.getD_eq_getD_getElem?, Array.getElem?_replicate]
  split <;> rfl

/-- The cells of a round are not those that it reads. -/
theorem Knows.set (h : f.Knows g d) (hd : d < f.radius) (hk : k ∈ Grid.diagonals d) (x : Nat) :
    (f.set k x).Knows g d := by
  obtain ⟨hnear, hparity⟩ := Grid.mem_diagonals_iff.mp hk
  refine ⟨h.wide.set k x, fun hzero => ?_, fun j hj hother => ?_⟩
  · rw [h.wide.reach_set (by omega) (by omega), if_neg (by omega)]
    exact h.entrance hzero
  · rw [h.wide.reach_set (by omega) (by omega), if_neg (by omega)]
    exact h.furthest j hj hother

/-- **A point behind the cell of its diagonal is not reached in fewer than `d` steps**, and neither
is a point on a diagonal that fewer do not lead to. -/
theorem Knows.le_steps (h : f.Knows g d) (hparity : ((x : Int) - y + d) % 2 = 1)
    (hbehind : ((x : Int) - y).natAbs < d → f.reach (x - y) < x) : d ≤ g.steps x y := by
  by_cases hnear : ((x : Int) - y).natAbs < d
  · exact (h.furthest _ hnear hparity).le_steps rfl (hbehind hnear)
  · have hfar := g.le_steps_add x y
    omega

/-- The round enters from above, by a step down. -/
theorem Knows.enters_down (h : f.Knows g d) (hpos : 0 < d) (hk : k ∈ Grid.diagonals d)
    (hdown : k = -d ∨ (k ≠ d ∧ f.reach (k - 1) < f.reach (k + 1))) :
    g.Enters d k (f.reach (k + 1)) := by
  obtain ⟨hnear, hparity⟩ := Grid.mem_diagonals_iff.mp hk
  obtain ⟨hinside, hreached, hbeyond⟩ := h.furthest (k + 1) (by omega) (by omega)
  have hstep := (g.steps_succ_right (f.reach (k + 1)) (Grid.row (k + 1) (f.reach (k + 1)))).1
  have hcast : (Grid.row k (f.reach (k + 1)) : Int) = f.reach (k + 1) - k :=
    Grid.row_cast (by omega)
  have hrow : Grid.row k (f.reach (k + 1)) = Grid.row (k + 1) (f.reach (k + 1)) + 1 := by
    have hcell := Grid.row_cast hinside
    omega
  refine ⟨by omega, by rw [hrow]; omega, by rw [hrow]; exact hbeyond, ?_⟩
  -- below is the diagonal that the round did not come from, and its cell is not further right
  have hother : (f.reach (k + 1) : Int) - (Grid.row k (f.reach (k + 1)) + 1 : Nat) = k - 1 := by
    omega
  refine h.le_steps (by omega) fun hin => ?_
  rw [hother] at hin ⊢
  omega

/-- The round enters from the left, by a step right. -/
theorem Knows.enters_right (h : f.Knows g d) (hpos : 0 < d) (hk : k ∈ Grid.diagonals d)
    (hright : ¬(k = -d ∨ (k ≠ d ∧ f.reach (k - 1) < f.reach (k + 1)))) :
    g.Enters d k (f.reach (k - 1) + 1) := by
  obtain ⟨hnear, hparity⟩ := Grid.mem_diagonals_iff.mp hk
  obtain ⟨hinside, hreached, hbeyond⟩ := h.furthest (k - 1) (by omega) (by omega)
  have hstep := (g.steps_succ_left (f.reach (k - 1)) (Grid.row (k - 1) (f.reach (k - 1)))).1
  have hcast : (Grid.row k (f.reach (k - 1) + 1) : Int) = (f.reach (k - 1) + 1 : Nat) - k :=
    Grid.row_cast (by omega)
  have hrow : Grid.row k (f.reach (k - 1) + 1) = Grid.row (k - 1) (f.reach (k - 1)) := by
    have hcell := Grid.row_cast hinside
    omega
  refine ⟨by omega, by rw [hrow]; omega, ?_, by rw [hrow]; exact hbeyond⟩
  have hother : ((f.reach (k - 1) + 1 + 1 : Nat) : Int) - Grid.row k (f.reach (k - 1) + 1) =
      k + 1 := by omega
  refine h.le_steps (by omega) fun hin => ?_
  rw [hother] at hin ⊢
  omega

theorem Knows.enters (h : f.Knows g d) (hk : k ∈ Grid.diagonals d) :
    g.Enters d k (f.enter d k) := by
  rcases Nat.eq_zero_or_pos d with rfl | hpos
  · -- the first round starts in the corner
    obtain ⟨hnear, _⟩ := Grid.mem_diagonals_iff.mp hk
    obtain rfl : k = 0 := by omega
    have henter : f.enter 0 0 = 0 := by
      rw [Frontier.enter, if_pos (Or.inl (by omega))]
      exact h.entrance rfl
    have hcorner : g.steps 0 (Grid.row 0 0) = 0 := g.steps_zero_left 0
    rw [henter]
    exact ⟨Int.le_refl 0, Nat.le_of_eq hcorner, Nat.zero_le _, Nat.zero_le _⟩
  · rw [Frontier.enter]
    split
    · rename_i hdown
      exact h.enters_down hpos hk hdown
    · rename_i hright
      exact h.enters_right hpos hk hright

/-- **What a round writes into a cell is the furthest point of one step more.** -/
theorem Knows.arrive (h : f.Knows g d) (hk : k ∈ Grid.diagonals d) :
    g.Furthest (d + 1) k
      (f.enter d k + g.slide (f.enter d k) (Grid.row k (f.enter d k))) := by
  obtain ⟨hinside, hreached, hright, hbelow⟩ := h.enters hk
  generalize f.enter d k = x₀ at hinside hreached hright hbelow ⊢
  obtain ⟨hmatch, hend⟩ := g.slide_spec x₀ (Grid.row k x₀)
  generalize g.slide x₀ (Grid.row k x₀) = n at hmatch hend ⊢
  have hrow := Grid.row_add hinside n
  have hsteps := (Grid.steps_and_rest_of_matches hmatch).1
  refine ⟨by omega, by rw [hrow]; omega, ?_⟩
  -- both neighbours of the point behind are further along than where the diagonal was entered
  have hlast := Grid.steps_of_not_matches hend
  have halong := g.steps_le_add x₀ (Grid.row k x₀ + 1) n
  have halong' := g.steps_le_add (x₀ + 1) (Grid.row k x₀) n
  rw [Nat.add_right_comm] at halong halong'
  rw [hrow]
  omega

end Frontier

/-! ## A round -/

namespace Grid

variable {g : Grid} {d : Nat} {ks : List Int} {f : Frontier}

/-- How a sweep of the diagonals `ks` in round `d` ends. -/
inductive Swept (g : Grid) (meets : Int → Nat → Bool) (d : Nat) (ks : List Int) (f : Frontier)
    (result : Frontier × Option (Entry × Nat)) : Prop where
  /-- All diagonals were swept, and the sweep met nothing on them. -/
  | passed (f' : Frontier)
      (wide : f'.Wide)
      (radius : f'.radius = f.radius)
      (others : ∀ j : Int, j.natAbs ≤ f.radius → j ∉ ks → f'.reach j = f.reach j)
      (furthest : ∀ k ∈ ks, g.Furthest (d + 1) k (f'.reach k))
      (unmet : ∀ k ∈ ks, meets k (f'.reach k) = false)
      (eq : result = (f', none))
  /-- The sweep stopped where it met something, a slide behind where it came in. -/
  | met (f' : Frontier) (entry : Entry) (x : Nat)
      (mem : entry.diagonal ∈ ks)
      (inside : entry.diagonal ≤ entry.x)
      (slid : x = entry.x + g.slide entry.x (row entry.diagonal entry.x))
      (furthest : g.Furthest (d + 1) entry.diagonal x)
      (meeting : meets entry.diagonal x = true)
      (eq : result = (f', some (entry, x)))

/-- **A sweep extends the frontier on one diagonal after the other.** -/
theorem swept_sweep (meets : Int → Nat → Bool) (hf : f.Knows g d) (hd : d < f.radius)
    (hks : ∀ k ∈ ks, k ∈ diagonals d) (hnodup : ks.Nodup) :
    g.Swept meets d ks f (g.sweep meets d ks f) := by
  induction ks generalizing f with
  | nil =>
    refine .passed f hf.wide rfl (fun _ _ _ => rfl) ?_ ?_ rfl
    · intro k hk
      cases hk
    · intro k hk
      cases hk
  | cons k ks ih =>
    have hk := hks k List.mem_cons_self
    have harrive := hf.arrive hk
    have hinside := (hf.enters hk).inside
    have hnear := (mem_diagonals_iff.mp hk).1
    rw [sweep]
    dsimp only
    generalize hx : f.enter d k + g.slide (f.enter d k) (row k (f.enter d k)) = x at harrive ⊢
    cases hmeets : meets k x with
    | true =>
      rw [if_pos rfl]
      exact .met _ ⟨k, f.enter d k⟩ x List.mem_cons_self hinside hx.symm harrive hmeets rfl
    | false =>
      rw [if_neg Bool.false_ne_true]
      obtain ⟨hnot, hrest⟩ := List.nodup_cons.mp hnodup
      cases ih (hf.set hd hk x) hd (fun j hj => hks j (List.mem_cons_of_mem k hj)) hrest with
      | met f' entry x' mem inside slid furthest meeting eq =>
        exact .met f' entry x' (List.mem_cons_of_mem k mem) inside slid furthest meeting eq
      | passed f' wide radius others furthest unmet eq =>
        have hradius : (f.set k x).radius = f.radius := rfl
        rw [hradius] at others
        have hcell : f'.reach k = x := by
          rw [others k (by omega) hnot, hf.wide.reach_set (by omega) (by omega), if_pos rfl]
        refine .passed f' wide radius (fun j hj hjks => ?_) ?_ ?_ eq
        · obtain ⟨hne, hnotin⟩ := not_or.mp (mt List.mem_cons.mpr hjks)
          rw [others j hj hnotin, hf.wide.reach_set (by omega) hj, if_neg hne]
        · intro j hj
          rcases List.mem_cons.mp hj with rfl | hj
          · rw [hcell]
            exact harrive
          · exact furthest j hj
        · intro j hj
          rcases List.mem_cons.mp hj with rfl | hj
          · rw [hcell]
            exact hmeets
          · exact unmet j hj

/-- A frontier that was swept on all diagonals of a round knows one round more. -/
theorem knows_of_swept {f' : Frontier} (hwide : f'.Wide)
    (hfurthest : ∀ k ∈ diagonals d, g.Furthest (d + 1) k (f'.reach k)) : f'.Knows g (d + 1) := by
  refine ⟨hwide, fun hzero => absurd hzero (Nat.succ_ne_zero d), fun k hk hparity => ?_⟩
  exact hfurthest k (mem_diagonals_iff.mpr ⟨by omega, by omega⟩)

end Grid

end BackendSync.Diff
