/-!
# Furthest reach on the diagonals of an edit grid

Lining up a text of `n` characters with one of `m` is walking a grid from `(0, 0)` to
`(n, m)`: a step right deletes, a step down inserts, and a diagonal step keeps a
character that both texts have there. On diagonal `k` lie the points with `x - y = k`.

A `Frontier` records, for each diagonal, how far right a walk with a given number of
deletions and insertions can get on it. Round `d` extends the frontier of `d - 1` such
steps by one more. Two frontiers are grown in turn, one from each end of the grid, and
the first time that they meet, the stretch of kept characters that made them meet lies
in the middle of a shortest walk. `splitPoint?` is the point of the grid where that
stretch begins, read from the front.

The frontier of the far end is the frontier of the reversed texts.
-/

namespace BackendSync.Diff

/-- The furthest `x` on each diagonal from `-radius` to `radius`. -/
structure Frontier where
  radius : Nat
  cells : Array Nat

namespace Frontier

/-- Nothing is reached yet. -/
def start (radius : Nat) : Frontier := ⟨radius, Array.replicate (2 * radius + 1) 0⟩

/-- The cell of a diagonal. -/
def cell (f : Frontier) (k : Int) : Nat := (k + f.radius).toNat

/-- How far right the frontier is on diagonal `k`. -/
def reach (f : Frontier) (k : Int) : Nat := f.cells.getD (f.cell k) 0

/-- Moves the frontier on diagonal `k`. -/
def set (f : Frontier) (k : Int) (x : Nat) : Frontier :=
  { f with cells := f.cells.setIfInBounds (f.cell k) x }

/--
Where the walk with one more step arrives on diagonal `k` in round `d`: down from the
diagonal above or right from the diagonal below, whichever gets further.
-/
def enter (f : Frontier) (d : Nat) (k : Int) : Nat :=
  if k = -d ∨ (k ≠ d ∧ f.reach (k - 1) < f.reach (k + 1)) then f.reach (k + 1)
  else f.reach (k - 1) + 1

end Frontier

/-- The two texts of a grid, for looking characters up by position. -/
structure Grid where
  old : Array Char
  new : Array Char

namespace Grid

/-- The grid walked from its far end. -/
def reverse (g : Grid) : Grid := ⟨g.old.reverse, g.new.reverse⟩

/-- The diagonal on which the far corner lies. -/
def corner (g : Grid) : Int := (g.old.size : Int) - g.new.size

/-- How many characters agree from `(x, y)` on. -/
def slide (g : Grid) (x y : Nat) : Nat :=
  if h : x < g.old.size ∧ y < g.new.size then
    if g.old[x] = g.new[y] then g.slide (x + 1) (y + 1) + 1 else 0
  else 0
termination_by g.old.size - x

/-- A stretch of kept characters: it enters diagonal `diagonal` at `x`. -/
structure Entry where
  diagonal : Int
  x : Nat

/-- The row of the point of diagonal `k` that is `x` far to the right. -/
def row (k : Int) (x : Nat) : Nat := (x - k).toNat

/--
Extends a frontier along the given diagonals of round `d`. Stops at the first diagonal
on which `meets` holds of the new reach.
-/
def sweep (g : Grid) (meets : Int → Nat → Bool) (d : Nat) :
    List Int → Frontier → Frontier × Option (Entry × Nat)
  | [], f => (f, none)
  | k :: ks, f =>
    let entry : Entry := ⟨k, f.enter d k⟩
    let x := entry.x + g.slide entry.x (row k entry.x)
    let f := f.set k x
    if meets k x then (f, some (entry, x)) else g.sweep meets d ks f

/-- The diagonals that round `d` reaches, from the right to the left. -/
def diagonals (d : Nat) : List Int := (List.range (d + 1)).map fun (i : Nat) => (d : Int) - 2 * i

/--
Rounds `d`, `d + 1`, and so on, as many as `rounds` says. `far` is the grid reversed
and `back` its frontier. On diagonal `k` of one side lies diagonal `corner - k` of the
other; their parities agree in the forward half of a round when the corner is on an odd
diagonal, and in the backward half when it is on an even one.
-/
def meet (g far : Grid) : Nat → Nat → Frontier → Frontier → Option (Nat × Nat)
  | 0, _, _, _ => none
  | rounds + 1, d, front, back =>
    let n := g.old.size
    let odd := g.corner % 2 = 1
    -- The far frontier is still that of the round before.
    let forward := g.sweep (fun k x =>
      odd && (k - g.corner).natAbs < d && n ≤ x + back.reach (g.corner - k))
      d (diagonals d) front
    match forward with
    | (_, some (entry, _)) => some (entry.x, row entry.diagonal entry.x)
    | (front, none) =>
      -- The front frontier is that of this round already.
      let backward := far.sweep (fun k x =>
        !odd && (k - g.corner).natAbs ≤ d && n ≤ x + front.reach (g.corner - k))
        d (diagonals d) back
      match backward with
      | (_, some (entry, x)) => some (n - x, g.new.size - row entry.diagonal x)
      | (back, none) => g.meet far rounds (d + 1) front back

/-- The number of rounds after which the two frontiers have met. -/
def rounds (g : Grid) : Nat := (g.old.size + g.new.size + 1) / 2 + 1

/-- A point of the grid through which a shortest walk goes. -/
def splitPoint? (g : Grid) : Option (Nat × Nat) :=
  let start := Frontier.start g.rounds
  g.meet g.reverse g.rounds 0 start start

end Grid

end BackendSync.Diff
