import BackendSync.Watch.Trie

/-!
# A registry of watches

Watches sit on the nodes of a trie. Registering a path that is watched already hands
back the watch that is there, whatever its kind. Closing a watch frees the node for a
later registration, which gets a new generation; a handle of the earlier one then means
nothing any more, and closing it does nothing.
-/

namespace BackendSync.Watch

/-- A watch on a node. -/
structure Registration where
  kind : Kind
  generation : Nat
deriving DecidableEq

/-- What a caller holds of a watch: its node and its generation. -/
structure Handle where
  node : Nat
  generation : Nat
deriving DecidableEq

/-- The watches that are active. -/
structure Registry where
  trie : Trie Registration
  /-- The generation of the next new watch. -/
  nextGeneration : Nat
  /-- The number of active watches. -/
  active : Nat

namespace Registry

/-- No watch was ever registered. -/
def empty : Registry := ⟨.empty, 0, 0⟩

instance : Inhabited Registry := ⟨empty⟩

/-- Watches a path. Returns the handle of the watch or the failure, and the registry after it. -/
def register (r : Registry) (path : Path) (kind : Kind) : Except Error Handle × Registry :=
  match r.trie.insert path with
  | (.error e, trie) => (.error e, { r with trie })
  | (.ok node, trie) =>
    if node = 0 then (.error .root, { r with trie })
    else
      match trie.value? node with
      | some watch => (.ok ⟨node, watch.generation⟩, { r with trie })
      | none =>
        let watch : Registration := ⟨kind, r.nextGeneration⟩
        (.ok ⟨node, watch.generation⟩,
          ⟨trie.setValue node (some watch), r.nextGeneration + 1, r.active + 1⟩)

/-- Is the watch of this handle still the one on its node? -/
def isCurrent (r : Registry) (handle : Handle) : Bool :=
  (r.trie.value? handle.node).map (·.generation) == some handle.generation

/-- Closes a watch. Says whether the handle still had one to close. -/
def close (r : Registry) (handle : Handle) : Bool × Registry :=
  if r.isCurrent handle then
    (true, { r with trie := r.trie.setValue handle.node none, active := r.active - 1 })
  else (false, r)

/-- Is there a watch on exactly this path? -/
def isWatched (r : Registry) (path : Path) : Bool :=
  ((r.trie.find? path).bind r.trie.value?).isSome

/-- The nearest watch, on the path itself or above it, with the path it is on. -/
def find? (r : Registry) (path : Path) : Option (Path × Kind) := do
  let node ← r.trie.lookup? path
  return (← r.trie.path? node, (← r.trie.value? node).kind)

/--
What the nearest watch would see if the file at a path appeared: a file watch sees its
own file modified, a directory watch sees the path created below it.
-/
def trigger (r : Registry) (path : Path) : Option Event :=
  (r.find? path).map fun (watched, kind) =>
    match kind with
    | .file => ⟨watched, watched, .modify⟩
    | .directory => ⟨watched, path, .create⟩

end Registry

end BackendSync.Watch
