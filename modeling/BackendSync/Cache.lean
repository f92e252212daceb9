import BackendSync.LruMap

/-!
# A cache from which nothing leaves unseen

A `Cache` is a bounded map in order of recency whose entries stand for files that are open
somewhere else. So every entry that leaves is handed back to the caller, in the order in which
they leave, while a value that is replaced stays in its place and is not.
-/

namespace BackendSync

/-- A map of what is open, the most recently touched first. -/
structure Cache (α : Type u) extends LruMap α

namespace Cache

variable {α : Type u}

/-- A cache that holds nothing yet. -/
def empty (capacity : Nat) (h : 0 < capacity) : Cache α := ⟨.empty capacity h⟩

/-- Changes the value at a path and touches it. Returns the new value. -/
def modify (c : Cache α) (p : Path) (f : α → α) : Option α × Cache α :=
  let (value, map) := c.toLruMap.modify p f
  (value, ⟨map⟩)

/-- The value at a path, which is touched by being asked for. -/
def get (c : Cache α) (p : Path) : Option α × Cache α := c.modify p id

/--
Stores a value at a path and touches it. If the path is new and the cache full, the least
recently touched entry leaves and is handed back.
-/
def insert (c : Cache α) (p : Path) (value : α) : Option (Path × α) × Cache α :=
  match c.push p value with
  -- The old entry of the path itself was replaced and has not left.
  | (some e, map) => (if e.1 ≈ p then none else some e, ⟨map⟩)
  | (none, map) => (none, ⟨map⟩)

/-- Takes the entry at a path out and hands it back. -/
def remove (c : Cache α) (p : Path) : Option (Path × α) × Cache α :=
  let (removed, map) := c.pop p
  (removed, ⟨map⟩)

/-- Takes one entry after another out, the least recently touched first, and hands them back. -/
def clear (c : Cache α) : List (Path × α) × Cache α :=
  match h : c.popOldest with
  | (some e, map) =>
    have : map.size < c.size := LruMap.size_popOldest_lt h
    let (left, emptied) := clear ⟨map⟩
    (e :: left, emptied)
  | (none, map) => ([], ⟨map⟩)
termination_by c.size

end Cache

end BackendSync
