import Std.Data.TreeMap
import BackendSync.Watch.Event

/-!
# A trie of path segments

The nodes of a `Trie` lie in an arena and are known by their number. Node 0 is the root
directory. A node is added when a path through it is inserted for the first time and
stays for good; only the value on it comes and goes. So a number, once handed out,
always means the same directory.
-/

namespace BackendSync.Watch

/-- The segments of a path that starts at the root and never climbs. -/
def segments (p : Path) : Except Error (List String) :=
  if !p.isAbsolute then .error (.relativePath p)
  else if p.climbs then .error (.notNormalized p)
  else .ok p.components

/-- One directory or file. -/
structure Node (α : Type) where
  /-- The absolute path of the node, without blank pieces. -/
  path : Path
  /-- The numbers of the nodes directly below, by name. -/
  children : Std.TreeMap String Nat
  value : Option α

/-- Nodes by number. -/
structure Trie (α : Type) where
  nodes : Array (Node α)

namespace Trie

variable {α : Type}

/-- The trie that has only the root. -/
def empty : Trie α := ⟨#[⟨Path.root, ∅, none⟩]⟩

instance : Inhabited (Trie α) := ⟨empty⟩

/-- The number of nodes. -/
def size (t : Trie α) : Nat := t.nodes.size

/-- The node with a number. -/
def node? (t : Trie α) (n : Nat) : Option (Node α) := t.nodes[n]?

/-- The value on a node. -/
def value? (t : Trie α) (n : Nat) : Option α := (t.node? n).bind (·.value)

/-- The path of a node. -/
def path? (t : Trie α) (n : Nat) : Option Path := (t.node? n).map (·.path)

/-- The node below another under a name. -/
def child? (t : Trie α) (n : Nat) (name : String) : Option Nat :=
  (t.node? n).bind (·.children[name]?)

/-- The names directly below a node, in the order of their characters. -/
def childNames (t : Trie α) (n : Nat) : List String :=
  ((t.node? n).map (·.children.keys)).getD []

/-! ## Adding nodes -/

/-- Adds a node below another. Its number is the next free one. -/
def addChild (t : Trie α) (n : Nat) (name : String) : Trie α :=
  let path := ((t.path? n).getD Path.root).join ⟨name⟩
  let linked := t.nodes.modify n fun node =>
    { node with children := node.children.insert name t.size }
  ⟨linked.push ⟨path, ∅, none⟩⟩

/-- Walks down from a node, adding what is missing. Returns the node at the end. -/
def extend (t : Trie α) (n : Nat) : List String → Nat × Trie α
  | [] => (n, t)
  | name :: rest =>
    match t.child? n name with
    | some child => t.extend child rest
    | none => (t.addChild n name).extend t.size rest

/-- The node of a path, added with all nodes above it if need be, and the trie after it. -/
def insert (t : Trie α) (p : Path) : Except Error Nat × Trie α :=
  match segments p with
  | .ok names =>
    let (node, t) := t.extend 0 names
    (.ok node, t)
  | .error e => (.error e, t)

/-! ## Finding nodes -/

/-- Walks down from a node. -/
def descend (t : Trie α) (n : Nat) : List String → Option Nat
  | [] => some n
  | name :: rest => (t.child? n name).bind fun child => t.descend child rest

/-- The node of exactly this path. -/
def find? (t : Trie α) (p : Path) : Option Nat :=
  match segments p with
  | .ok names => t.descend 0 names
  | .error _ => none

/-- Walks down from a node and remembers the last node with a value. -/
def deepest (t : Trie α) (n : Nat) (found : Option Nat) : List String → Option Nat
  | [] => found
  | name :: rest =>
    match t.child? n name with
    | some child => t.deepest child (if (t.value? child).isSome then some child else found) rest
    | none => found

/-- The nearest node with a value, on the path itself or above it but below the root. -/
def lookup? (t : Trie α) (p : Path) : Option Nat :=
  match segments p with
  | .ok names => t.deepest 0 none names
  | .error _ => none

/-! ## Values -/

/-- Puts a value on a node, or takes it off. -/
def setValue (t : Trie α) (n : Nat) (value : Option α) : Trie α :=
  ⟨t.nodes.modify n fun node => { node with value }⟩

end Trie

end BackendSync.Watch
