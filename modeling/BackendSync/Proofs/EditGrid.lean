import BackendSync.Diff.Frontier
import BackendSync.Proofs.CommonSubsequence

/-!
# Walks through an edit grid

A walk from the near corner `(0, 0)` of a grid to `(x, y)` deletes and inserts what it does not
keep, so the fewest steps that it needs are given by the longest common subsequence of the first
`x` and the first `y` characters. That is `steps`. Beyond the far sides of the grid there is
nothing to keep and every move is a step, which is what the same formula says there; a frontier
may get there, and `steps` has to know. `rest` are the steps that are left from a point of the
grid to its far corner, and `span` are those from corner to corner.

What an argument about furthest reach needs of `steps` is how it changes from a point to its
neighbours (`steps_of_matches` and `steps_of_not_matches`), that it does not fall along a diagonal
(`steps_le_add`), and that there are points all along a shortest walk (`exists_between`).
-/

namespace BackendSync.Diff.Grid

variable {g : Grid} {x y : Nat}

/-- The most characters that a walk to `(x, y)` keeps. -/
def kept (g : Grid) (x y : Nat) : Nat := common (g.old.toList.take x) (g.new.toList.take y)

/-- The fewest steps of a walk to `(x, y)`. -/
def steps (g : Grid) (x y : Nat) : Nat := x + y - 2 * g.kept x y

/-- The fewest steps of a walk from `(x, y)` to the far corner. -/
def rest (g : Grid) (x y : Nat) : Nat := apart (g.old.toList.drop x) (g.new.toList.drop y)

/-- The fewest steps of a walk from corner to corner. -/
def span (g : Grid) : Nat := apart g.old.toList g.new.toList

/-- The texts have the same character at `x` and at `y`. -/
def Matches (g : Grid) (x y : Nat) : Prop := ∃ c, g.old[x]? = some c ∧ g.new[y]? = some c

/-! ## What is kept -/

theorem kept_le_left (g : Grid) (x y : Nat) : g.kept x y ≤ x :=
  Nat.le_trans (common_le_left _ _) (List.length_take_le _ _)

theorem kept_le_right (g : Grid) (x y : Nat) : g.kept x y ≤ y :=
  Nat.le_trans (common_le_right _ _) (List.length_take_le _ _)

/-- No walk keeps more than a walk through the whole grid does. -/
theorem kept_le (g : Grid) (x y : Nat) : g.kept x y ≤ common g.old.toList g.new.toList :=
  common_mono (List.take_sublist _ _) (List.take_sublist _ _)

theorem kept_succ_left (g : Grid) (x y : Nat) :
    g.kept x y ≤ g.kept (x + 1) y ∧ g.kept (x + 1) y ≤ g.kept x y + 1 :=
  ⟨common_mono (List.take_sublist_take_left (Nat.le_succ x)) (List.Sublist.refl _),
    common_take_succ_le _ _ _⟩

theorem kept_succ_right (g : Grid) (x y : Nat) :
    g.kept x y ≤ g.kept x (y + 1) ∧ g.kept x (y + 1) ≤ g.kept x y + 1 := by
  refine ⟨common_mono (List.Sublist.refl _) (List.take_sublist_take_left (Nat.le_succ y)), ?_⟩
  rw [kept, kept, common_comm, common_comm (g.old.toList.take x)]
  exact common_take_succ_le _ _ _

theorem kept_of_matches (h : g.Matches x y) : g.kept (x + 1) (y + 1) = g.kept x y + 1 := by
  obtain ⟨c, hold, hnew⟩ := h
  rw [kept, List.take_add_one, List.take_add_one, Array.getElem?_toList, Array.getElem?_toList,
    hold, hnew]
  exact common_concat_same c _ _

theorem kept_of_not_matches (h : ¬g.Matches x y) :
    g.kept (x + 1) (y + 1) = max (g.kept x (y + 1)) (g.kept (x + 1) y) := by
  have hleft := (g.kept_succ_left x (y + 1)).1
  have hright := (g.kept_succ_right (x + 1) y).1
  cases hold : g.old[x]? with
  | none =>
    -- beyond the end of a text nothing is added to it
    have hsame : g.old.toList.take (x + 1) = g.old.toList.take x := by
      rw [List.take_add_one, Array.getElem?_toList, hold, Option.toList_none, List.append_nil]
    have hkept : g.kept (x + 1) (y + 1) = g.kept x (y + 1) := by rw [kept, hsame, kept]
    omega
  | some a =>
    cases hnew : g.new[y]? with
    | none =>
      have hsame : g.new.toList.take (y + 1) = g.new.toList.take y := by
        rw [List.take_add_one, Array.getElem?_toList, hnew, Option.toList_none, List.append_nil]
      have hkept : g.kept (x + 1) (y + 1) = g.kept (x + 1) y := by rw [kept, hsame, kept]
      omega
    | some b =>
      have hne : a ≠ b := by
        rintro rfl
        exact h ⟨a, hold, hnew⟩
      rw [kept, kept, kept, List.take_add_one, List.take_add_one, Array.getElem?_toList,
        Array.getElem?_toList, hold, hnew]
      exact common_concat_of_ne hne _ _

/-! ## Steps -/

theorem steps_add (g : Grid) (x y : Nat) : g.steps x y + 2 * g.kept x y = x + y := by
  have hleft := g.kept_le_left x y
  have hright := g.kept_le_right x y
  rw [steps]
  omega

/-- A walk to another diagonal has to make the steps that lead there. -/
theorem le_steps_add (g : Grid) (x y : Nat) : x ≤ g.steps x y + y ∧ y ≤ g.steps x y + x := by
  have h := g.steps_add x y
  have hleft := g.kept_le_left x y
  have hright := g.kept_le_right x y
  omega

/-- On the sides of the grid nothing is kept. -/
theorem steps_zero_left (g : Grid) (y : Nat) : g.steps 0 y = y := by
  have h := g.steps_add 0 y
  have hkept := g.kept_le_left 0 y
  omega

theorem steps_zero_right (g : Grid) (x : Nat) : g.steps x 0 = x := by
  have h := g.steps_add x 0
  have hkept := g.kept_le_right x 0
  omega

theorem steps_succ_left (g : Grid) (x y : Nat) :
    g.steps (x + 1) y ≤ g.steps x y + 1 ∧ g.steps x y ≤ g.steps (x + 1) y + 1 := by
  have hkept := g.kept_succ_left x y
  have h := g.steps_add x y
  have hnext := g.steps_add (x + 1) y
  omega

theorem steps_succ_right (g : Grid) (x y : Nat) :
    g.steps x (y + 1) ≤ g.steps x y + 1 ∧ g.steps x y ≤ g.steps x (y + 1) + 1 := by
  have hkept := g.kept_succ_right x y
  have h := g.steps_add x y
  have hnext := g.steps_add x (y + 1)
  omega

/-- Keeping a character is no step. -/
theorem steps_of_matches (h : g.Matches x y) : g.steps (x + 1) (y + 1) = g.steps x y := by
  have hkept := kept_of_matches h
  have hsteps := g.steps_add x y
  have hnext := g.steps_add (x + 1) (y + 1)
  omega

/-- Where no character can be kept, the last move is a step right or a step down. -/
theorem steps_of_not_matches (h : ¬g.Matches x y) :
    g.steps (x + 1) (y + 1) = min (g.steps x (y + 1)) (g.steps (x + 1) y) + 1 := by
  have hkept := kept_of_not_matches h
  have hdown := g.steps_add x (y + 1)
  have hright := g.steps_add (x + 1) y
  have hnext := g.steps_add (x + 1) (y + 1)
  omega

/-- Further along a diagonal there is no point that is nearer. -/
theorem steps_le_add (g : Grid) (x y i : Nat) : g.steps x y ≤ g.steps (x + i) (y + i) := by
  induction i with
  | zero => exact Nat.le_refl _
  | succ i ih =>
    refine Nat.le_trans ih ?_
    show g.steps (x + i) (y + i) ≤ g.steps (x + i + 1) (y + i + 1)
    by_cases h : g.Matches (x + i) (y + i)
    · exact Nat.le_of_eq (steps_of_matches h).symm
    · have hnext := steps_of_not_matches h
      have hdown := (g.steps_succ_right (x + i) (y + i)).2
      have hright := (g.steps_succ_left (x + i) (y + i)).2
      omega

/-! ## From corner to corner -/

theorem span_add (g : Grid) :
    g.span + 2 * common g.old.toList g.new.toList = g.old.size + g.new.size := by
  have h := apart_add g.old.toList g.new.toList
  rwa [Array.length_toList, Array.length_toList] at h

/-- A point outside of the grid is further from the near corner than its diagonal is from the
far one. -/
theorem span_lt_of_outside (h : g.old.size < x ∨ g.new.size < y) :
    g.span + 2 ≤ g.steps x y + ((x : Int) - y - g.corner).natAbs := by
  have hkept := g.kept_le x y
  have hsteps := g.steps_add x y
  have hspan := g.span_add
  rw [corner]
  omega

theorem steps_eq_apart (hx : x ≤ g.old.size) (hy : y ≤ g.new.size) :
    g.steps x y = apart (g.old.toList.take x) (g.new.toList.take y) := by
  rw [steps, apart, List.length_take, List.length_take, Array.length_toList, Array.length_toList,
    Nat.min_eq_left hx, Nat.min_eq_left hy]
  rfl

/-- Going by way of some point of the grid is one way to go. -/
theorem span_le (hx : x ≤ g.old.size) (hy : y ≤ g.new.size) :
    g.span ≤ g.steps x y + g.rest x y := by
  have h := apart_append_le (g.old.toList.take x) (g.old.toList.drop x) (g.new.toList.take y)
    (g.new.toList.drop y)
  rwa [List.take_append_drop, List.take_append_drop, ← steps_eq_apart hx hy] at h

theorem steps_corner (g : Grid) : g.steps g.old.size g.new.size = g.span := by
  rw [steps_eq_apart (Nat.le_refl _) (Nat.le_refl _), ← Array.length_toList, ← Array.length_toList,
    List.take_length, List.take_length, span]

theorem rest_corner (g : Grid) : g.rest g.old.size g.new.size = 0 := by
  rw [rest, ← Array.length_toList, ← Array.length_toList, List.drop_length, List.drop_length,
    apart_self]

/-! ## What is left -/

/-- A step right leaves at least one step less. -/
theorem rest_le_left (g : Grid) (x y : Nat) : g.rest x y ≤ g.rest (x + 1) y + 1 := by
  have h := apart_append_le g.old.toList[x]?.toList (g.old.toList.drop (x + 1)) []
    (g.new.toList.drop y)
  have hone : g.old.toList[x]?.toList.length ≤ 1 := Option.length_toList_le
  rw [← List.drop_eq_getElem?_toList_append, List.nil_append, apart_nil_right] at h
  show apart _ _ ≤ apart _ _ + 1
  omega

theorem rest_le_right (g : Grid) (x y : Nat) : g.rest x y ≤ g.rest x (y + 1) + 1 := by
  have h := apart_append_le [] (g.old.toList.drop x) g.new.toList[y]?.toList
    (g.new.toList.drop (y + 1))
  have hone : g.new.toList[y]?.toList.length ≤ 1 := Option.length_toList_le
  rw [← List.drop_eq_getElem?_toList_append, List.nil_append, apart_nil_left] at h
  show apart _ _ ≤ apart _ _ + 1
  omega

theorem rest_of_matches (h : g.Matches x y) : g.rest x y = g.rest (x + 1) (y + 1) := by
  obtain ⟨c, hold, hnew⟩ := h
  have hframe := apart_frame [c] [] (g.old.toList.drop (x + 1)) (g.new.toList.drop (y + 1))
  rw [List.append_nil, List.append_nil] at hframe
  rw [rest, List.drop_eq_getElem?_toList_append, List.drop_eq_getElem?_toList_append (i := y),
    Array.getElem?_toList, Array.getElem?_toList, hold, hnew]
  exact hframe

/-- Along kept characters neither the steps made nor the steps left change. -/
theorem steps_and_rest_of_matches {n : Nat} (h : ∀ i < n, g.Matches (x + i) (y + i)) :
    g.steps (x + n) (y + n) = g.steps x y ∧ g.rest (x + n) (y + n) = g.rest x y := by
  induction n with
  | zero => exact ⟨rfl, rfl⟩
  | succ n ih =>
    obtain ⟨hsteps, hrest⟩ := ih fun i hi => h i (Nat.lt_succ_of_lt hi)
    have hlast := h n (Nat.lt_succ_self n)
    exact ⟨(steps_of_matches hlast).trans hsteps, (rest_of_matches hlast).symm.trans hrest⟩

/-! ## The grid from its far end -/

theorem reverse_reverse (g : Grid) : g.reverse.reverse = g := by
  rw [reverse, reverse, Array.reverse_reverse, Array.reverse_reverse]

theorem corner_reverse (g : Grid) : g.reverse.corner = g.corner := by
  rw [corner, corner, reverse, Array.size_reverse, Array.size_reverse]

theorem span_reverse (g : Grid) : g.reverse.span = g.span := by
  rw [span, span, reverse, Array.toList_reverse, Array.toList_reverse, apart_reverse]

/-- Seen from the far end, the steps that were left are those that were made. -/
theorem steps_reverse (g : Grid) (x y : Nat) :
    g.reverse.steps (g.old.size - x) (g.new.size - y) = g.rest x y := by
  have hold : g.reverse.old.toList.take (g.old.size - x) = (g.old.toList.drop x).reverse := by
    rw [reverse, Array.toList_reverse, List.reverse_drop, Array.length_toList]
  have hnew : g.reverse.new.toList.take (g.new.size - y) = (g.new.toList.drop y).reverse := by
    rw [reverse, Array.toList_reverse, List.reverse_drop, Array.length_toList]
  rw [steps, kept, hold, hnew, common_reverse, rest, apart, List.length_drop, List.length_drop,
    Array.length_toList, Array.length_toList]

/-! ## Points along a shortest walk -/

/-- A point of the grid that some shortest walk goes through. -/
structure OnWay (g : Grid) (x y : Nat) : Prop where
  inOld : x ≤ g.old.size
  inNew : y ≤ g.new.size
  sum : g.steps x y + g.rest x y = g.span

/-- Where a shortest walk can be after a stretch of kept characters it can be before it. -/
theorem OnWay.of_matches {n : Nat} (h : g.OnWay (x + n) (y + n))
    (hmatch : ∀ i < n, g.Matches (x + i) (y + i)) :
    g.OnWay x y ∧ g.steps x y = g.steps (x + n) (y + n) := by
  obtain ⟨hx, hy, hsum⟩ := h
  obtain ⟨hsteps, hrest⟩ := steps_and_rest_of_matches hmatch
  exact ⟨⟨by omega, by omega, by omega⟩, hsteps.symm⟩

/-- A shortest walk may come to a point from the left if that is a step. -/
theorem OnWay.left (h : g.OnWay (x + 1) y) (hstep : g.steps x y + 1 = g.steps (x + 1) y) :
    g.OnWay x y := by
  have hx := h.inOld
  have hsum := h.sum
  have hrest := g.rest_le_left x y
  have hspan := span_le (g := g) (x := x) (by omega) h.inNew
  exact ⟨by omega, h.inNew, by omega⟩

/-- The same for a step down. -/
theorem OnWay.above (h : g.OnWay x (y + 1)) (hstep : g.steps x y + 1 = g.steps x (y + 1)) :
    g.OnWay x y := by
  have hy := h.inNew
  have hsum := h.sum
  have hrest := g.rest_le_right x y
  have hspan := span_le (g := g) (y := y) h.inOld (by omega)
  exact ⟨h.inOld, by omega, by omega⟩

/-- A shortest walk comes to a point that is not the corner by a step, some kept characters
before. -/
theorem OnWay.exists_before (h : g.OnWay x y) (hpos : 0 < g.steps x y) :
    ∃ x' y', g.OnWay x' y' ∧ g.steps x' y' + 1 = g.steps x y := by
  induction x generalizing y with
  | zero =>
    -- on the left side all that leads to a point are steps down
    cases y with
    | zero => exact absurd hpos (Nat.not_lt_of_le (Nat.le_of_eq (g.steps_zero_left 0)))
    | succ y =>
      have hstep : g.steps 0 y + 1 = g.steps 0 (y + 1) := by
        rw [steps_zero_left, steps_zero_left]
      exact ⟨0, y, h.above hstep, hstep⟩
  | succ x ih =>
    cases y with
    | zero =>
      have hstep : g.steps x 0 + 1 = g.steps (x + 1) 0 := by
        rw [steps_zero_right, steps_zero_right]
      exact ⟨x, 0, h.left hstep, hstep⟩
    | succ y =>
      by_cases hmatch : g.Matches x y
      · have hsteps := steps_of_matches hmatch
        have hrest := rest_of_matches hmatch
        obtain ⟨hx, hy, hsum⟩ := h
        rw [hsteps]
        exact ih ⟨by omega, by omega, by omega⟩ (by omega)
      · have hsteps := steps_of_not_matches hmatch
        rcases Nat.le_total (g.steps x (y + 1)) (g.steps (x + 1) y) with hle | hle
        · have hstep : g.steps x (y + 1) + 1 = g.steps (x + 1) (y + 1) := by omega
          exact ⟨x, y + 1, h.left hstep, hstep⟩
        · have hstep : g.steps (x + 1) y + 1 = g.steps (x + 1) (y + 1) := by omega
          exact ⟨x + 1, y, h.above hstep, hstep⟩

/-- **A shortest walk has a point after every number of steps.** -/
theorem exists_between {made left : Nat} (h : made + left = g.span) :
    ∃ x y, g.OnWay x y ∧ g.steps x y = made ∧ g.rest x y = left := by
  induction left generalizing made with
  | zero =>
    have hsteps := g.steps_corner
    have hrest := g.rest_corner
    exact ⟨g.old.size, g.new.size, ⟨Nat.le_refl _, Nat.le_refl _, by omega⟩, by omega, hrest⟩
  | succ left ih =>
    have hone : made + 1 + left = g.span := by omega
    obtain ⟨x, y, hway, hsteps, hrest⟩ := ih hone
    obtain ⟨x', y', hway', hbefore⟩ := hway.exists_before (by omega)
    have hsum := hway'.sum
    exact ⟨x', y', hway', by omega, by omega⟩

end BackendSync.Diff.Grid
