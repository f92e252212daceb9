/-!
# Paths

A path keeps the text it was spelled with. What a path *names* is its list of
components together with whether it starts at the root, and two spellings of one
name are equivalent (`p ≈ q`):

* empty pieces between separators are no components, so `/a//b/` names `/a/b`;
* a `.` piece is no component either, except as the first piece of a relative
  path, where it stays: `./a` and `a` are different names;
* a `..` piece is a component like any other, since nothing here reads a disk.

Every set, map and cache of this library compares its keys with `≈` and shows the
spelling it stored first.
-/

namespace BackendSync

/-- A path as it was spelled. -/
structure Path where
  spelling : String
deriving DecidableEq, Inhabited

namespace Path

/-- The root directory. -/
def root : Path := ⟨"/"⟩

/-- The characters of the spelling. -/
def chars (p : Path) : List Char := p.spelling.toList

/-- The path spelled by a list of characters. -/
def ofChars (cs : List Char) : Path := ⟨String.ofList cs⟩

@[simp] theorem chars_ofChars (cs : List Char) : (ofChars cs).chars = cs := by
  simp [chars, ofChars]

@[simp] theorem ofChars_chars (p : Path) : ofChars p.chars = p := by
  simp [chars, ofChars]

/-- Does the path start at the root? -/
def isAbsolute (p : Path) : Bool := p.chars.head? == some '/'

/-! ## Pieces and components -/

/-- The texts between separators; there is always at least one. -/
def splitPieces : List Char → List (List Char)
  | [] => [[]]
  | c :: cs =>
    if c = '/' then [] :: splitPieces cs
    else
      match splitPieces cs with
      | [] => [[c]]
      | piece :: rest => (c :: piece) :: rest

/-- Writes pieces with one separator between neighbours. -/
def joinPieces : List (List Char) → List Char
  | [] => []
  | [piece] => piece
  | piece :: rest => piece ++ '/' :: joinPieces rest

/-- The texts between the separators of a path. -/
def pieces (p : Path) : List (List Char) := splitPieces p.chars

/-- A piece that moves nowhere: the empty one and `.`. -/
def isBlank (piece : List Char) : Bool := piece == [] || piece == ['.']

/-- The pieces that are names. -/
def names (pieces : List (List Char)) : List String :=
  (pieces.filter (!isBlank ·)).map String.ofList

/--
The components below the root, if the path starts there, and otherwise below the
directory it is relative to.
-/
def components (p : Path) : List String :=
  match p.pieces with
  | ['.'] :: rest => "." :: names rest
  | pieces => names pieces

/-- Does the path climb anywhere with a `..` piece? -/
def climbs (p : Path) : Bool := p.components.contains ".."

/-! ## Equivalent spellings -/

/-- Two spellings of one name. -/
def Equiv (p q : Path) : Prop :=
  p.isAbsolute = q.isAbsolute ∧ p.components = q.components

theorem Equiv.refl (p : Path) : Equiv p p := ⟨rfl, rfl⟩

theorem Equiv.symm {p q : Path} (h : Equiv p q) : Equiv q p := ⟨h.1.symm, h.2.symm⟩

theorem Equiv.trans {p q r : Path} (h : Equiv p q) (k : Equiv q r) : Equiv p r :=
  ⟨h.1.trans k.1, h.2.trans k.2⟩

instance : Setoid Path := ⟨Equiv, ⟨Equiv.refl, Equiv.symm, Equiv.trans⟩⟩

instance (p q : Path) : Decidable (p ≈ q) :=
  inferInstanceAs (Decidable (p.isAbsolute = q.isAbsolute ∧ p.components = q.components))

/-! ## Joining -/

/-- `rest` written below `base`, with a separator between them where one is missing. -/
def join (base rest : Path) : Path :=
  if base.chars = [] ∨ base.chars.getLast? = some '/' then ofChars (base.chars ++ rest.chars)
  else ofChars (base.chars ++ '/' :: rest.chars)

/--
The path seen from the directory `cwd`: an absolute path stays as it is, any other is
written below `cwd`. Neither `..` nor `.` pieces are resolved, so the spelling a caller
uses is the spelling that is kept.
-/
def absolutize (p cwd : Path) : Path := if p.isAbsolute then p else cwd.join p

theorem absolutize_of_isAbsolute {p : Path} (h : p.isAbsolute) (cwd : Path) :
    p.absolutize cwd = p := by simp [absolutize, h]

end Path

end BackendSync
