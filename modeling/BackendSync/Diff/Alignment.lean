import BackendSync.Diff.Piece
import BackendSync.Diff.Common
import BackendSync.Diff.Frontier

/-!
# Aligning two texts

The common beginning and the common end of two texts are kept. If one of the texts
has nothing else, the rest of the other is deleted or inserted. Otherwise the edit grid
of the two rests is cut at a point on a shortest walk, and both parts are aligned on
their own.
-/

namespace BackendSync.Diff

/-- Where to cut two texts, if that leaves two parts smaller than the whole. -/
def cut? (old new : List Char) : Option (Nat × Nat) :=
  (Grid.splitPoint? ⟨old.toArray, new.toArray⟩).filter fun (x, y) =>
    decide (x ≤ old.length ∧ y ≤ new.length ∧ 0 < x + y ∧ x + y < old.length + new.length)

theorem cut?_bounds {old new : List Char} {x y : Nat} (h : cut? old new = some (x, y)) :
    x ≤ old.length ∧ y ≤ new.length ∧ 0 < x + y ∧ x + y < old.length + new.length := by
  have holds := (Option.filter_eq_some_iff.mp h).2
  exact of_decide_eq_true holds

/-- The alignment of two texts. -/
def align (old new : List Char) : Script :=
  let k := commonLength old new
  let s := commonEndLength (old.drop k) (new.drop k)
  let a := (old.drop k).take (old.length - k - s)
  let b := (new.drop k).take (new.length - k - s)
  -- What is left has neither a common beginning nor a common end.
  let middle : Script :=
    if a.isEmpty then Piece.insertIfAny b
    else if b.isEmpty then [.delete a]
    else
      match _cut : cut? a b with
      | some (x, y) => align (a.take x) (b.take y) ++ align (a.drop x) (b.drop y)
      | none => [.delete a, .insert b] -- no cut helps, so nothing more is kept
  Piece.keepIfAny (old.take k) ++ middle ++ Piece.keepIfAny ((old.drop k).drop (old.length - k - s))
termination_by old.length + new.length
decreasing_by
  all_goals
    have bounds := cut?_bounds _cut
    have ha : a.length ≤ old.length := by simp only [a, List.length_take, List.length_drop]; omega
    have hb : b.length ≤ new.length := by simp only [b, List.length_take, List.length_drop]; omega
    simp only [List.length_take, List.length_drop]
    omega

end BackendSync.Diff
