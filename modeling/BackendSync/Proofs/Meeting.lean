import BackendSync.Diff.Alignment
import BackendSync.Proofs.FurthestReach

/-!
# Frontiers meet on a shortest walk

Two frontiers are grown, one from each end of a grid. Together they have come as far as the grid
is long when they first meet, and not before. If they meet on a diagonal, there are walks from
both ends that go through one point, and the two make no more steps than a shortest walk does
(`onWay_of_meet`). In the other direction, a shortest walk has a point after every number of
steps, and there the frontiers have met, as they are not behind it (`exists_meet`).

The two halves of a round are the same (`halfRound_sweep`): one frontier is extended to `d`
steps, the other has come `e - 1`, and they can only meet where the parities agree.

A point in which a shortest walk is cut has to leave steps to do on both sides of it, or an
alignment would not end. That is so as soon as a shortest walk has two steps (`exists_cut`).
-/

namespace BackendSync.Diff.Grid

variable {g : Grid} {d e made left x y : Nat} {k : Int}

/-! ## Where frontiers meet -/

theorem size_old_reverse (g : Grid) : g.reverse.old.size = g.old.size := Array.size_reverse

theorem size_new_reverse (g : Grid) : g.reverse.new.size = g.new.size := Array.size_reverse

/-- The corner lies on an even diagonal or on an odd one as the steps from corner to corner are. -/
theorem span_parity (g : Grid) : (g.corner + g.span) % 2 = 0 := by
  have hspan := g.span_add
  rw [corner]
  omega

/-- A point on a shortest walk is one from the far end as well. -/
theorem OnWay.of_reverse (h : g.reverse.OnWay x y) :
    g.OnWay (g.old.size - x) (g.new.size - y) ∧
      g.rest (g.old.size - x) (g.new.size - y) = g.reverse.steps x y := by
  obtain ⟨hx, hy, hsum⟩ := h
  rw [size_old_reverse] at hx
  rw [size_new_reverse] at hy
  have hmade := g.reverse.steps_reverse x y
  rw [reverse_reverse, size_old_reverse, size_new_reverse] at hmade
  have hleft := g.steps_reverse (g.old.size - x) (g.new.size - y)
  rw [Nat.sub_sub_self hx, Nat.sub_sub_self hy] at hleft
  rw [span_reverse] at hsum
  exact ⟨⟨Nat.sub_le _ _, Nat.sub_le _ _, by omega⟩, hleft.symm⟩

/-- **Frontiers that meet do so on a shortest walk**, unless they have come further together than
the grid is long. -/
theorem onWay_of_meet {u : Nat} (hfront : g.Furthest (made + 1) k x)
    (hback : g.reverse.Furthest (left + 1) (g.corner - k) u) (hnear : (k - g.corner).natAbs ≤ left)
    (hspan : made + left ≤ g.span) (hmeet : g.old.size ≤ x + u) :
    g.OnWay x (row k x) ∧ g.steps x (row k x) = made ∧ made + left = g.span := by
  have hreached := hfront.reached
  have hrow := row_cast hfront.inside
  by_cases hout : g.old.size < x ∨ g.new.size < row k x
  · -- outside of the grid the near frontier has made too many steps
    have hfar := span_lt_of_outside hout
    omega
  · have hcorner :
        ((g.old.size - x : Nat) : Int) - (g.new.size - row k x : Nat) = g.corner - k := by
      rw [corner]
      omega
    have hleft := hback.steps_lt hcorner (by omega)
    rw [steps_reverse] at hleft
    have hway := span_le (g := g) (x := x) (y := row k x) (by omega) (by omega)
    exact ⟨⟨by omega, by omega, by omega⟩, by omega, by omega⟩

/-- **On a shortest walk frontiers meet**, on a diagonal that both have got to. -/
theorem exists_meet (h : made + left = g.span) :
    ∃ k : Int, k.natAbs ≤ made ∧ (k + made) % 2 = 0 ∧ (k - g.corner).natAbs ≤ left ∧
      ∀ x u, g.Furthest (made + 1) k x → g.reverse.Furthest (left + 1) (g.corner - k) u →
        g.old.size ≤ x + u := by
  obtain ⟨x, y, hway, hmade, hleft⟩ := exists_between h
  have hx := hway.inOld
  have hy := hway.inNew
  have hfrom := g.le_steps_add x y
  have hparity := g.steps_add x y
  rw [← steps_reverse] at hleft
  have hto := g.reverse.le_steps_add (g.old.size - x) (g.new.size - y)
  have hcorner : ((g.old.size - x : Nat) : Int) - (g.new.size - y : Nat) = g.corner - (x - y) := by
    rw [corner]
    omega
  refine ⟨x - y, by omega, by omega, by rw [corner]; omega, fun x' u hfront hback => ?_⟩
  have hnear : x ≤ x' := by
    by_contra hlt
    have hmore := hfront.le_steps rfl (Nat.lt_of_not_le hlt)
    omega
  have hfar : g.old.size - x ≤ u := by
    by_contra hlt
    have hmore := hback.le_steps hcorner (Nat.lt_of_not_le hlt)
    omega
  omega

/-! ## Half a round -/

variable {f other : Frontier}

/-- How half a round ends that extends `f` to `d` steps, while the frontier of the far end knows
its grid up to `e`. -/
inductive HalfRound (g : Grid) (d e : Nat) (f : Frontier)
    (result : Frontier × Option (Entry × Nat)) : Prop where
  /-- The frontiers have met. The stretch of kept characters that made them meet begins and ends
  on a shortest walk. -/
  | met (f' : Frontier) (entry : Entry) (x : Nat)
      (span : d + e = g.span + 1)
      (first : g.OnWay entry.x (row entry.diagonal entry.x))
      (steps_first : g.steps entry.x (row entry.diagonal entry.x) = d)
      (last : g.OnWay x (row entry.diagonal x))
      (steps_last : g.steps x (row entry.diagonal x) = d)
      (eq : result = (f', some (entry, x)))
  /-- A shortest walk has more steps than the frontiers have made. -/
  | passed (f' : Frontier)
      (span : d + e ≤ g.span)
      (knows : f'.Knows g (d + 1))
      (radius : f'.radius = f.radius)
      (eq : result = (f', none))

/-- **Half a round meets the other frontier when the two have come as far as the grid is long.** -/
theorem halfRound_sweep (meets : Int → Nat → Bool) (hf : f.Knows g d)
    (hother : other.Knows g.reverse e) (hd : d < f.radius) (hle : d ≤ e)
    (hspan : d + e ≤ g.span + 1)
    (hmeets : ∀ k x, meets k x = true ↔ (g.corner + d + e) % 2 = 1 ∧ (k - g.corner).natAbs < e ∧
      g.old.size ≤ x + other.reach (g.corner - k)) :
    g.HalfRound d e f (g.sweep meets d (diagonals d) f) := by
  cases swept_sweep meets hf hd (fun _ hk => hk) (nodup_diagonals d) with
  | met f' entry x mem inside slid furthest meeting eq =>
    obtain ⟨hodd, hnear, hmeet⟩ := (hmeets _ _).mp meeting
    obtain ⟨_, hparity⟩ := mem_diagonals_iff.mp mem
    obtain ⟨left, rfl⟩ : ∃ left, e = left + 1 := ⟨e - 1, by omega⟩
    have hback := hother.furthest (g.corner - entry.diagonal) (by omega) (by omega)
    obtain ⟨hlast, hsteps, hsum⟩ := onWay_of_meet furthest hback (by omega) (by omega) hmeet
    -- back along the kept characters to where the stretch begins
    have hrow : row entry.diagonal x =
        row entry.diagonal entry.x + g.slide entry.x (row entry.diagonal entry.x) := by
      rw [slid, row_add inside]
    have hslid : g.OnWay (entry.x + g.slide entry.x (row entry.diagonal entry.x))
        (row entry.diagonal entry.x + g.slide entry.x (row entry.diagonal entry.x)) := by
      rwa [← slid, ← hrow]
    obtain ⟨hfirst, hsame⟩ := hslid.of_matches (g.slide_spec _ _).1
    rw [← slid, ← hrow, hsteps] at hsame
    exact .met f' entry x (by omega) hfirst hsame hlast hsteps eq
  | passed f' wide radius others furthest unmet eq =>
    refine .passed f' ?_ (knows_of_swept wide furthest) radius eq
    by_contra hmore
    have hsum : d + e = g.span + 1 := by omega
    have hparity := g.span_parity
    obtain ⟨left, rfl⟩ : ∃ left, e = left + 1 := ⟨e - 1, by omega⟩
    have hboth : d + left = g.span := by omega
    obtain ⟨k, hnear, hk, hfar, hmeet⟩ := exists_meet hboth
    have hmem : k ∈ diagonals d := mem_diagonals_iff.mpr ⟨hnear, hk⟩
    have hback := hother.furthest (g.corner - k) (by omega) (by omega)
    have hyes := (hmeets k _).mpr ⟨by omega, by omega, hmeet _ _ (furthest k hmem) hback⟩
    rw [unmet k hmem] at hyes
    exact Bool.false_ne_true hyes

/-! ## The search -/

/-- A point on a shortest walk with steps on both sides of it. -/
structure Divides (g : Grid) (x y : Nat) : Prop extends g.OnWay x y where
  before : 0 < g.steps x y
  behind : 0 < g.rest x y

/-- **The search for a meeting finds a point that divides the grid**, if rounds enough are left to
come through it. -/
theorem exists_meet_divides {rounds : Nat} {front back : Frontier} (htwo : 2 ≤ g.span)
    (hfront : front.Knows g d) (hback : back.Knows g.reverse d)
    (hradius : d + rounds ≤ front.radius ∧ d + rounds ≤ back.radius)
    (hspan : 2 * d ≤ g.span + 1) (hrounds : g.span + 1 < 2 * (d + rounds)) :
    ∃ x y, g.meet g.reverse rounds d front back = some (x, y) ∧ g.Divides x y := by
  induction rounds generalizing d front back with
  | zero => omega
  | succ rounds ih =>
    obtain ⟨hwide, hwide'⟩ := hradius
    rw [meet]
    dsimp only
    have hforward := halfRound_sweep (fun k x => decide (g.corner % 2 = 1) &&
        decide ((k - g.corner).natAbs < d) && decide (g.old.size ≤ x + back.reach (g.corner - k)))
      hfront hback (by omega) (Nat.le_refl d) (by omega) fun k x => by
        simp only [Bool.and_eq_true, decide_eq_true_eq]
        omega
    cases hforward with
    | met f' entry x span first steps_first last steps_last eq =>
      rw [eq]
      have hsum := first.sum
      exact ⟨_, _, rfl, first, by omega, by omega⟩
    | passed front' span knows radius eq =>
      rw [eq]
      dsimp only
      have hfar : front'.Knows g.reverse.reverse (d + 1) := by rwa [reverse_reverse]
      have hbackward := halfRound_sweep (fun k x => !decide (g.corner % 2 = 1) &&
          decide ((k - g.corner).natAbs ≤ d) &&
            decide (g.old.size ≤ x + front'.reach (g.corner - k)))
        hback hfar (by omega) (Nat.le_succ d) (by rw [span_reverse]; omega) fun k x => by
          simp only [Bool.and_eq_true, Bool.not_eq_true', decide_eq_true_eq,
            decide_eq_false_iff_not, corner_reverse, size_old_reverse]
          omega
      cases hbackward with
      | met f' entry x span first steps_first last steps_last eq =>
        rw [eq]
        rw [span_reverse] at span
        obtain ⟨hway, hbehind⟩ := last.of_reverse
        have hsum := hway.sum
        exact ⟨_, _, rfl, hway, by omega, by omega⟩
      | passed back' span knows' radius' eq =>
        rw [eq]
        rw [span_reverse] at span
        exact ih knows knows' ⟨by omega, by omega⟩ (by omega) (by omega)

/-- **A grid is divided if a shortest walk through it has two steps.** -/
theorem exists_splitPoint (h : 2 ≤ g.span) :
    ∃ x y, g.splitPoint? = some (x, y) ∧ g.Divides x y := by
  have hspan := g.span_add
  have hrounds : g.span + 1 < 2 * (0 + g.rounds) := by
    rw [rounds]
    omega
  have hradius : 0 + g.rounds ≤ (Frontier.start g.rounds).radius := Nat.le_of_eq (Nat.zero_add _)
  exact exists_meet_divides h (Frontier.knows_start g _) (Frontier.knows_start g.reverse _)
    ⟨hradius, hradius⟩ (by omega) hrounds

end BackendSync.Diff.Grid

namespace BackendSync.Diff

/-- Two texts that are two steps apart are cut in such a way that their parts, put together, are
as far apart as they are. -/
theorem exists_cut {a b : List Char} (h : 2 ≤ apart a b) :
    ∃ x y, cut? a b = some (x, y) ∧
      apart (a.take x) (b.take y) + apart (a.drop x) (b.drop y) = apart a b := by
  obtain ⟨x, y, hsplit, hdivides⟩ := Grid.exists_splitPoint (g := ⟨a.toArray, b.toArray⟩) h
  have hx : x ≤ a.length := hdivides.inOld
  have hy : y ≤ b.length := hdivides.inNew
  have hsum := hdivides.sum
  have hbefore := hdivides.before
  have hbehind := hdivides.behind
  -- a corner of the grid divides nothing
  have hstart : 0 < x + y := by
    by_contra hnone
    obtain ⟨rfl, rfl⟩ : x = 0 ∧ y = 0 := by omega
    have hzero := Grid.steps_add ⟨a.toArray, b.toArray⟩ 0 0
    omega
  have hend : x + y < a.length + b.length := by
    by_contra hall
    obtain ⟨rfl, rfl⟩ : x = a.length ∧ y = b.length := by omega
    have hzero := Grid.rest_corner ⟨a.toArray, b.toArray⟩
    exact absurd hzero (Nat.ne_of_gt hbehind)
  refine ⟨x, y, ?_, ?_⟩
  · rw [cut?, hsplit, Option.filter_some, if_pos (decide_eq_true ⟨hx, hy, hstart, hend⟩)]
  · rwa [Grid.steps_eq_apart hdivides.inOld hdivides.inNew] at hsum

end BackendSync.Diff
