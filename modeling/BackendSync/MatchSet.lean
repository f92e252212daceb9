import BackendSync.Path.Set
import BackendSync.Error

/-!
# Files of the default project

A `MatchSet` collects the files that used the default project during one run, in the
order in which they first did. It only grows until the run ends, so once it has gone
over the cap every further check fails.
-/

namespace BackendSync

/-- The files of a run that used the default project. -/
structure MatchSet where
  files : PathSet

namespace MatchSet

/-- No file used the default project yet. -/
def empty : MatchSet := ⟨∅⟩

instance : Inhabited MatchSet := ⟨empty⟩

/-- An error lists so many files at most. -/
def printLimit : Nat := 20

/-- The number of files. -/
def size (m : MatchSet) : Nat := m.files.size

/-- Is the file recorded, under whatever spelling? -/
def contains (m : MatchSet) (p : Path) : Bool := p ∈ m.files

/-- Records a file, whatever the cap. Says whether the file is new. -/
def insert (m : MatchSet) (p : Path) : Bool × MatchSet := (!m.contains p, ⟨m.files.insert p⟩)

/-- Fails if there are more than `max` files. -/
def check (m : MatchSet) (max : Nat) : Except SyncError Unit :=
  if m.size ≤ max then .ok ()
  else
    let files := m.files.toList.take printLimit
    .error (.tooManyDefaultProjectFiles max files (m.size - files.length))

/-- Records a file and checks the cap. The file stays recorded if that fails. -/
def record (m : MatchSet) (p : Path) (max : Nat) : Except SyncError Unit × MatchSet :=
  let recorded := (m.insert p).2
  (recorded.check max, recorded)

end MatchSet

end BackendSync
