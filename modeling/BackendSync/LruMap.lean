import BackendSync.Path.Basic

/-!
# A bounded map in order of recency

An `LruMap` holds values at paths, at most `capacity` of them, the most recently touched one
first. A push, a successful lookup and a modification touch; asking whether a path is present
does not. A map that is full makes room for a new path by giving up the entry that was touched
the longest ago.

A key keeps the spelling it was stored with for as long as it stays.
-/

namespace BackendSync

/-- Values at paths, the most recently touched first. -/
structure LruMap (α : Type u) where
  capacity : Nat
  entries : List (Path × α)
  capacity_pos : 0 < capacity
  size_le : entries.length ≤ capacity
  distinct : entries.Pairwise (fun x y => ¬x.1 ≈ y.1)

namespace LruMap

variable {α : Type u}

/-- A map that holds nothing yet. -/
def empty (capacity : Nat) (h : 0 < capacity) : LruMap α := ⟨capacity, [], h, Nat.zero_le _, .nil⟩

@[ext] theorem ext {m n : LruMap α} (hc : m.capacity = n.capacity) (he : m.entries = n.entries) :
    m = n := by
  cases m; cases n; simp_all

/-- The number of values. -/
def size (m : LruMap α) : Nat := m.entries.length

/-- The paths, the most recently touched first. -/
def paths (m : LruMap α) : List Path := m.entries.map (·.1)

/-- The entry at a path, under whatever spelling it is there. -/
def entry? (m : LruMap α) (p : Path) : Option (Path × α) :=
  m.entries.find? fun e => decide (e.1 ≈ p)

/-- The value at a path, for looking only. -/
def peek? (m : LruMap α) (p : Path) : Option α := (m.entry? p).map (·.2)

/-- Is there a value at this path? -/
def contains (m : LruMap α) (p : Path) : Bool := (m.entry? p).isSome

/-- The entries other than the one at a path. -/
def others (m : LruMap α) (p : Path) : List (Path × α) :=
  m.entries.filter fun e => !decide (e.1 ≈ p)

theorem length_others_lt {m : LruMap α} {p : Path} {e : Path × α} (h : m.entry? p = some e) :
    (m.others p).length < m.entries.length := by
  have mem := List.mem_of_find?_eq_some h
  have equiv := List.find?_some h
  exact List.length_filter_lt_length_iff_exists.mpr ⟨e, mem, by simpa using equiv⟩

theorem not_equiv_of_mem_others {m : LruMap α} {p : Path} {x : Path × α} (h : x ∈ m.others p) :
    ¬x.1 ≈ p := by
  simpa [others] using (List.mem_filter.mp h).2

/-- Takes the value at a path out. -/
def erase (m : LruMap α) (p : Path) : LruMap α :=
  { m with
    entries := m.others p
    size_le := Nat.le_trans (List.length_filter_le _ _) m.size_le
    distinct := m.distinct.sublist List.filter_sublist }

/-- Moves the entry at a path to the front, with a new value. -/
def refresh (m : LruMap α) (p : Path) (e : Path × α) (h : m.entry? p = some e) (value : α) :
    LruMap α :=
  { m with
    entries := (e.1, value) :: m.others p
    size_le := Nat.le_trans (length_others_lt h) m.size_le
    distinct := by
      refine List.pairwise_cons.mpr ⟨fun x hx hex => ?_, m.distinct.sublist List.filter_sublist⟩
      have equiv : e.1 ≈ p := by simpa using List.find?_some h
      exact not_equiv_of_mem_others hx (Setoid.trans (Setoid.symm hex) equiv) }

/-- Changes the value at a path and touches it. Returns the new value. -/
def modify (m : LruMap α) (p : Path) (f : α → α) : Option α × LruMap α :=
  match h : m.entry? p with
  | some e => (some (f e.2), m.refresh p e h (f e.2))
  | none => (none, m)

/-- Drops the least recently touched entry if the map is full. -/
def makeRoom (m : LruMap α) : Option (Path × α) × List (Path × α) :=
  if m.size < m.capacity then (none, m.entries)
  else (m.entries.getLast?, m.entries.dropLast)

theorem makeRoom_sublist (m : LruMap α) : m.makeRoom.2.Sublist m.entries := by
  unfold makeRoom; split
  · exact List.Sublist.refl _
  · exact List.dropLast_sublist _

theorem length_makeRoom_lt (m : LruMap α) : m.makeRoom.2.length < m.capacity := by
  have := m.capacity_pos
  have := m.size_le
  unfold makeRoom; split
  · assumption
  · simp only [List.length_dropLast]; omega

/--
Stores a value at a path and touches it. Returns the entry that had to go: the old one of the
path if it was there, and otherwise the least recently touched one if the map was full.
-/
def push (m : LruMap α) (p : Path) (value : α) : Option (Path × α) × LruMap α :=
  match h : m.entry? p with
  | some e => (some e, m.refresh p e h value)
  | none =>
    (m.makeRoom.1,
      { m with
        entries := (p, value) :: m.makeRoom.2
        size_le := m.length_makeRoom_lt
        distinct := by
          refine List.pairwise_cons.mpr ⟨fun x hx hpx => ?_, m.distinct.sublist m.makeRoom_sublist⟩
          have absent := List.find?_eq_none.mp h x (m.makeRoom_sublist.subset hx)
          exact absent (by simpa using Setoid.symm hpx) })

/-- Takes the entry at a path out and returns it. -/
def pop (m : LruMap α) (p : Path) : Option (Path × α) × LruMap α := (m.entry? p, m.erase p)

/-- Takes the least recently touched entry out and returns it. -/
def popOldest (m : LruMap α) : Option (Path × α) × LruMap α :=
  (m.entries.getLast?,
    { m with
      entries := m.entries.dropLast
      size_le := Nat.le_trans (List.dropLast_sublist _).length_le m.size_le
      distinct := m.distinct.sublist (List.dropLast_sublist _) })

theorem size_popOldest_lt {m m' : LruMap α} {e : Path × α} (h : m.popOldest = (some e, m')) :
    m'.size < m.size := by
  have hlast : m.entries.getLast? = some e := congrArg Prod.fst h
  have hpos : 0 < m.size := List.length_pos_of_mem (List.mem_of_getLast? hlast)
  have hmap : m.popOldest.2 = m' := congrArg Prod.snd h
  have hsize : m.popOldest.2.size = m.size - 1 := List.length_dropLast
  rw [hmap] at hsize
  omega

end LruMap

end BackendSync
