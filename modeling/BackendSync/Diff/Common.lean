/-!
# Common beginnings and ends

`commonLength` measures how far two lists agree from the front; applied to reversed
lists it measures how far they agree from the back.
-/

namespace BackendSync.Diff

/-- The length of the longest common beginning. -/
def commonLength : List Char → List Char → Nat
  | a :: as, b :: bs => if a = b then commonLength as bs + 1 else 0
  | _, _ => 0

/-- The length of the longest common end. -/
def commonEndLength (a b : List Char) : Nat := commonLength a.reverse b.reverse

theorem commonLength_le_left (a b : List Char) : commonLength a b ≤ a.length := by
  fun_induction commonLength a b <;> simp_all

theorem commonLength_le_right (a b : List Char) : commonLength a b ≤ b.length := by
  fun_induction commonLength a b <;> simp_all

theorem take_commonLength (a b : List Char) :
    a.take (commonLength a b) = b.take (commonLength a b) := by
  fun_induction commonLength a b <;> simp_all

theorem commonEndLength_le_left (a b : List Char) : commonEndLength a b ≤ a.length := by
  simpa [commonEndLength] using commonLength_le_left a.reverse b.reverse

theorem commonEndLength_le_right (a b : List Char) : commonEndLength a b ≤ b.length := by
  simpa [commonEndLength] using commonLength_le_right a.reverse b.reverse

end BackendSync.Diff
