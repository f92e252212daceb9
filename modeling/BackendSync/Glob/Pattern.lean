import BackendSync.Glob.Token

/-!
# Reading a glob

A pattern is read character by character, from left to right.

* `?` and `*` are wildcards within a segment, and a backslash makes the next character
  stand for itself.
* `[…]` is a class; a `!` or `^` in front negates it, a `]` or `-` in first position is
  an entry like any other, and there are no escapes inside.
* `{…}` is a group whose branches are separated by commas; groups nest.
* `**` crosses segments when it stands for whole segments: at the beginning of the
  pattern or of a branch and before a separator, between two separators, or at the end
  after a separator. Anywhere else it is two stars.
-/

namespace BackendSync.Glob

/-- What is wrong with a pattern. -/
inductive Error where
  | unclosedClass
  | invalidRange (low high : Char)
  | unopenedGroup
  | unclosedGroup
  | danglingEscape
  /-- The groups are nested too deeply to be matched. -/
  | nestedTooDeeply
deriving DecidableEq

/-- The text shown for an error. -/
def Error.message : Error → String
  | unclosedClass => "unclosed character class; missing ']'"
  | invalidRange low high =>
    "invalid range; '" ++ low.toString ++ "' > '" ++ high.toString ++ "'"
  | unopenedGroup => "unopened alternate group; missing '\x7b' (maybe escape '\x7d' with '[\x7d]'?)"
  | unclosedGroup => "unclosed alternate group; missing '\x7d' (maybe escape '\x7b' with '[\x7b]'?)"
  | danglingEscape => "dangling '\\'"
  | nestedTooDeeply => "alternate groups are nested too deeply"

/-! ## Classes -/

/--
Reads the entries of a class up to its `]`. `entries` are those read so far, the latest
first; `first` says that nothing was read yet, and `ranging` that a `-` waits for the
upper end of a range that begins at the latest entry.
-/
def readEntries (entries : List (Char × Char)) (first ranging : Bool) :
    List Char → Except Error (List (Char × Char) × List Char)
  | [] => .error .unclosedClass
  | c :: rest =>
    if c = ']' ∧ !first then
      .ok ((if ranging then ('-', '-') :: entries else entries).reverse, rest)
    else if c = '-' ∧ !first ∧ !ranging then readEntries entries false true rest
    else
      match ranging, entries with
      | true, (low, _) :: earlier =>
        if c < low then .error (.invalidRange low c)
        else readEntries ((low, c) :: earlier) false false rest
      | _, _ => readEntries ((c, c) :: entries) false false rest

theorem length_of_readEntries {entries : List (Char × Char)} {first ranging : Bool}
    {cs : List Char} {r : List (Char × Char) × List Char}
    (h : readEntries entries first ranging cs = .ok r) : r.2.length < cs.length := by
  fun_induction readEntries entries first ranging cs with
  | case1 => cases h
  | case2 => cases h; simp
  | case3 _ _ _ _ _ _ _ ih => exact Nat.lt_succ_of_lt (ih h)
  | case4 => cases h
  | case5 => rename_i ih; exact Nat.lt_succ_of_lt (ih h)
  | case6 => rename_i ih; exact Nat.lt_succ_of_lt (ih h)

/-- Reads a class behind its `[`. -/
def readClass (cs : List Char) : Except Error (Token × List Char) :=
  let (negated, body) :=
    match cs with
    | '!' :: body => (true, body)
    | '^' :: body => (true, body)
    | body => (false, body)
  (readEntries [] true false body).map fun (entries, rest) => (.charClass negated entries, rest)

theorem length_of_readClass {cs : List Char} {r : Token × List Char}
    (h : readClass cs = .ok r) : r.2.length < cs.length := by
  unfold readClass at h
  split at h
  rename_i negated body split_eq
  have body_le : body.length ≤ cs.length := by
    split at split_eq <;> cases split_eq <;> simp
  cases hr : readEntries [] true false body with
  | error e => rw [hr] at h; cases h
  | ok s =>
    rw [hr] at h; cases h
    exact Nat.lt_of_lt_of_le (length_of_readEntries hr) body_le

/-! ## Groups -/

/-- A branch that is being read, behind the finished branches of its group. -/
structure Level where
  /-- The finished branches, the latest first. -/
  finished : List (List Token)
  /-- The tokens of the branch, the latest first. -/
  tokens : List Token

/-- The pattern itself or the innermost open group, and the levels around it. -/
structure Levels where
  inner : Level
  outer : List Level

namespace Levels

/-- Nothing was read yet. -/
def start : Levels := ⟨⟨[], []⟩, []⟩

/-- Is a group open? -/
def inGroup (s : Levels) : Bool := !s.outer.isEmpty

/-- Adds a token to the branch that is being read. -/
def push (s : Levels) (t : Token) : Levels :=
  { s with inner := { s.inner with tokens := t :: s.inner.tokens } }

/-- Begins a group. -/
def openGroup (s : Levels) : Levels := ⟨⟨[], []⟩, s.inner :: s.outer⟩

/-- Begins the next branch. -/
def nextBranch (s : Levels) : Levels :=
  { s with inner := ⟨s.inner.tokens.reverse :: s.inner.finished, []⟩ }

/-- Ends the innermost group, if one is open. -/
def closeGroup? (s : Levels) : Option Levels :=
  match s.outer with
  | [] => none
  | level :: outer =>
    let branches := (s.inner.tokens.reverse :: s.inner.finished).reverse
    some ⟨{ level with tokens := .ofBranches branches :: level.tokens }, outer⟩

/-- Puts a token in the place of the latest one, unless that stands for directories too. -/
def replaceLatest (s : Levels) (t : Token) : Levels :=
  match s.inner.tokens with
  | .dirsBefore :: _ => s
  | .dirsAfter :: _ => s
  | _ :: rest => { s with inner := { s.inner with tokens := t :: rest } }
  | [] => s

/--
Reads two stars between the characters `before` and `next`. Says whether `next`, a
separator, belongs to them.
-/
def pushStars (s : Levels) (before next : Option Char) : Levels × Bool :=
  let twoStars := ((s.push .star).push .star, false)
  if s.inner.tokens.isEmpty then
    if next = none ∨ next = some '/' then (s.push .dirsBefore, true) else twoStars
  else if before = some '/' ∨ (s.inGroup ∧ (before = some ',' ∨ before = some '{')) then
    if next = none ∨ (s.inGroup ∧ (next = some ',' ∨ next = some '}')) then
      (s.replaceLatest .dirsAfter, false)
    else if next = some '/' then (s.replaceLatest .dirsBetween, true)
    else twoStars
  else twoStars

end Levels

/-! ## Patterns -/

/-- Reads the rest of a pattern; `before` is the character just read. -/
def read (before : Option Char) (s : Levels) : List Char → Except Error Levels
  | [] => .ok s
  | '?' :: rest => read (some '?') (s.push .any) rest
  | ['\\'] => .error .danglingEscape
  | '\\' :: c :: rest => read (some c) (s.push (.literal c)) rest
  | '{' :: rest => read (some '{') s.openGroup rest
  | '}' :: rest =>
    match s.closeGroup? with
    | some s => read (some '}') s rest
    | none => .error .unopenedGroup
  | ',' :: rest =>
    read (some ',') (if s.inGroup then s.nextBranch else s.push (.literal ',')) rest
  | '*' :: '*' :: rest =>
    let (s, consumed) := s.pushStars before rest.head?
    if consumed then read (some '/') s rest.tail else read (some '*') s rest
  | '*' :: rest => read (some '*') (s.push .star) rest
  | '[' :: rest =>
    match _class : readClass rest with
    | .ok (token, rest) => read (some ']') (s.push token) rest
    | .error e => .error e
  | c :: rest => read (some c) (s.push (.literal c)) rest
termination_by cs => cs.length
decreasing_by
  all_goals simp only [List.length_cons, List.length_tail]
  all_goals try omega
  have := length_of_readClass _class
  simp only at this
  omega

/-- The tokens of a pattern. -/
def tokenize (pattern : String) : Except Error (List Token) := do
  let s ← read none .start pattern.toList
  if s.inGroup then throw .unclosedGroup
  return s.inner.tokens.reverse

end BackendSync.Glob
