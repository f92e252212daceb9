import Mathlib.Data.List.Basic
import BackendSync.Diff.Piece

/-!
# What two texts have in common

To turn one text into another by deleting and inserting characters is to keep a common
subsequence of the two and touch the rest. The longest one that there is, measured by
`common`, settles how many characters have to be touched, and `apart` is their number. It is
a distance: it adds up over cuts of the two texts, and an edit of one of them changes it by no
more than the edit touches.

Everything here is read off two facts, that there is a common subsequence of `common`
characters and that there is none with more.
-/

namespace BackendSync.Diff

/-- The length of the longest common subsequences of two texts. -/
def common : List Char → List Char → Nat
  | [], _ => 0
  | _ :: _, [] => 0
  | a :: as, b :: bs =>
    if a = b then common as bs + 1 else max (common as (b :: bs)) (common (a :: as) bs)
termination_by a b => a.length + b.length

/-- A common subsequence of two texts that no other is longer than. -/
structure LongestCommon (c a b : List Char) : Prop where
  left : c.Sublist a
  right : c.Sublist b
  longest : ∀ c' : List Char, c'.Sublist a → c'.Sublist b → c'.length ≤ c.length

/-! ## The two facts -/

theorem length_le_common {a b c : List Char} (ha : c.Sublist a) (hb : c.Sublist b) :
    c.length ≤ common a b := by
  fun_induction common a b generalizing c with
  | case1 b => exact ha.length_le
  | case2 a as => exact hb.length_le
  | case3 as a bs ih =>
    have htail := ih ha.tail hb.tail
    rw [List.length_tail] at htail
    omega
  | case4 a as b bs hne ihleft ihright =>
    -- the first characters differ, so one of them is passed over
    rcases List.sublist_cons_iff.mp ha with hleft | ⟨r, rfl, _⟩
    · exact Nat.le_trans (ihleft hleft hb) (Nat.le_max_left ..)
    · rcases List.sublist_cons_iff.mp hb with hright | ⟨r', heq, _⟩
      · exact Nat.le_trans (ihright ha hright) (Nat.le_max_right ..)
      · exact absurd (List.cons.inj heq).1 hne

theorem exists_common (a b : List Char) :
    ∃ c : List Char, c.Sublist a ∧ c.Sublist b ∧ c.length = common a b := by
  fun_induction common a b with
  | case1 b => exact ⟨[], List.nil_sublist _, List.nil_sublist _, rfl⟩
  | case2 a as => exact ⟨[], List.nil_sublist _, List.nil_sublist _, rfl⟩
  | case3 as a bs ih =>
    obtain ⟨c, hleft, hright, hlength⟩ := ih
    exact ⟨a :: c, hleft.cons_cons a, hright.cons_cons a, by rw [List.length_cons, hlength]⟩
  | case4 a as b bs hne ihleft ihright =>
    rcases Nat.le_total (common as (b :: bs)) (common (a :: as) bs) with hle | hle
    · obtain ⟨c, hleft, hright, hlength⟩ := ihright
      exact ⟨c, hleft, hright.cons b, by rw [hlength, Nat.max_eq_right hle]⟩
    · obtain ⟨c, hleft, hright, hlength⟩ := ihleft
      exact ⟨c, hleft.cons a, hright, by rw [hlength, Nat.max_eq_left hle]⟩

theorem exists_longestCommon (a b : List Char) :
    ∃ c : List Char, LongestCommon c a b ∧ c.length = common a b := by
  obtain ⟨c, hleft, hright, hlength⟩ := exists_common a b
  exact ⟨c, ⟨hleft, hright, fun c' ha hb => hlength ▸ length_le_common ha hb⟩, hlength⟩

/-! ## What follows for parts of the texts -/

theorem common_le_left (a b : List Char) : common a b ≤ a.length := by
  obtain ⟨c, hleft, _, hlength⟩ := exists_common a b
  exact hlength ▸ hleft.length_le

theorem common_le_right (a b : List Char) : common a b ≤ b.length := by
  obtain ⟨c, _, hright, hlength⟩ := exists_common a b
  exact hlength ▸ hright.length_le

theorem common_self (a : List Char) : common a a = a.length := by
  have hall := length_le_common (List.Sublist.refl a) (List.Sublist.refl a)
  exact Nat.le_antisymm (common_le_left a a) hall

theorem common_mono {a a' b b' : List Char} (ha : a.Sublist a') (hb : b.Sublist b') :
    common a b ≤ common a' b' := by
  obtain ⟨c, hleft, hright, hlength⟩ := exists_common a b
  exact hlength ▸ length_le_common (hleft.trans ha) (hright.trans hb)

theorem common_comm (a b : List Char) : common a b = common b a := by
  have hle : ∀ a b, common a b ≤ common b a := by
    intro a b
    obtain ⟨c, hleft, hright, hlength⟩ := exists_common a b
    exact hlength ▸ length_le_common hright hleft
  exact Nat.le_antisymm (hle a b) (hle b a)

theorem common_reverse (a b : List Char) : common a.reverse b.reverse = common a b := by
  have hle : ∀ a b, common a b ≤ common a.reverse b.reverse := by
    intro a b
    obtain ⟨c, hleft, hright, hlength⟩ := exists_common a b
    rw [← hlength, ← List.length_reverse]
    exact length_le_common hleft.reverse hright.reverse
  refine Nat.le_antisymm ?_ (hle a b)
  have h := hle a.reverse b.reverse
  rwa [List.reverse_reverse, List.reverse_reverse] at h

/-- Subsequences of parts are put together. -/
theorem common_append_le (a a' b b' : List Char) :
    common a b + common a' b' ≤ common (a ++ a') (b ++ b') := by
  obtain ⟨c, hleft, hright, hlength⟩ := exists_common a b
  obtain ⟨c', hleft', hright', hlength'⟩ := exists_common a' b'
  rw [← hlength, ← hlength', ← List.length_append]
  exact length_le_common (hleft.append hleft') (hright.append hright')

/-- A piece of text has no more than its own characters in common with anything. -/
theorem common_splice_le (front middle back b : List Char) :
    common (front ++ (middle ++ back)) b ≤ common (front ++ back) b + middle.length := by
  obtain ⟨c, hleft, hright, hlength⟩ := exists_common (front ++ (middle ++ back)) b
  obtain ⟨c₁, rest, rfl, h₁, hrest⟩ := List.sublist_append_iff.mp hleft
  obtain ⟨c₂, c₃, rfl, h₂, h₃⟩ := List.sublist_append_iff.mp hrest
  have hshorter : (c₁ ++ c₃).Sublist b :=
    ((List.Sublist.refl c₁).append (List.sublist_append_right c₂ c₃)).trans hright
  have hkept := length_le_common (h₁.append h₃) hshorter
  have hmiddle := h₂.length_le
  rw [List.length_append] at hkept
  rw [List.length_append, List.length_append] at hlength
  omega

/-- One character more keeps at most one more. -/
theorem common_take_succ_le (l b : List Char) (i : Nat) :
    common (l.take (i + 1)) b ≤ common (l.take i) b + 1 := by
  have hsplice := common_splice_le (l.take i) l[i]?.toList [] b
  have hone : l[i]?.toList.length ≤ 1 := Option.length_toList_le
  rw [List.append_nil, List.append_nil, ← List.take_add_one] at hsplice
  omega

theorem common_cons_same (x : Char) (a b : List Char) :
    common (x :: a) (x :: b) = common a b + 1 := by
  rw [common, if_pos rfl]

theorem common_cons_of_ne {x y : Char} (h : x ≠ y) (a b : List Char) :
    common (x :: a) (y :: b) = max (common a (y :: b)) (common (x :: a) b) := by
  rw [common, if_neg h]

theorem common_append_same (front a b : List Char) :
    common (front ++ a) (front ++ b) = front.length + common a b := by
  induction front with
  | nil => rw [List.nil_append, List.nil_append, List.length_nil, Nat.zero_add]
  | cons x front ih =>
    rw [List.cons_append, List.cons_append, common_cons_same, ih, List.length_cons]
    omega

theorem common_concat_same (x : Char) (a b : List Char) :
    common (a ++ [x]) (b ++ [x]) = common a b + 1 := by
  rw [← common_reverse, List.reverse_concat, List.reverse_concat, common_cons_same, common_reverse]

theorem common_concat_of_ne {x y : Char} (h : x ≠ y) (a b : List Char) :
    common (a ++ [x]) (b ++ [y]) = max (common a (b ++ [y])) (common (a ++ [x]) b) := by
  rw [← common_reverse, List.reverse_concat, List.reverse_concat, common_cons_of_ne h,
    ← common_reverse a, ← common_reverse (a ++ [x]), List.reverse_concat, List.reverse_concat]

/-! ## How far texts are apart -/

/-- The number of characters that have to be deleted or inserted between two texts. -/
def apart (a b : List Char) : Nat := a.length + b.length - 2 * common a b

theorem apart_add (a b : List Char) : apart a b + 2 * common a b = a.length + b.length := by
  have hleft := common_le_left a b
  have hright := common_le_right a b
  rw [apart]
  omega

theorem apart_self (a : List Char) : apart a a = 0 := by
  have h := apart_add a a
  rw [common_self] at h
  omega

theorem eq_of_apart_eq_zero {a b : List Char} (h : apart a b = 0) : a = b := by
  obtain ⟨c, hleft, hright, hlength⟩ := exists_common a b
  have hadd := apart_add a b
  have hle := hleft.length_le
  have hle' := hright.length_le
  rw [← hleft.eq_of_length (by omega), ← hright.eq_of_length (by omega)]

/-- Where the first characters differ, one of them is touched. -/
theorem apart_cons_of_ne {x y : Char} (h : x ≠ y) (a b : List Char) :
    apart (x :: a) (y :: b) = min (apart a (y :: b)) (apart (x :: a) b) + 1 := by
  have hcommon := common_cons_of_ne h a b
  have hboth := apart_add (x :: a) (y :: b)
  have hleft := apart_add a (y :: b)
  have hright := apart_add (x :: a) b
  simp only [List.length_cons] at hboth hleft hright
  omega

/-- Between a text and none, all of it is touched. -/
theorem apart_nil_left (b : List Char) : apart [] b = b.length := by
  have h := apart_add [] b
  have hle := common_le_left [] b
  rw [List.length_nil] at h hle
  omega

theorem apart_nil_right (a : List Char) : apart a [] = a.length := by
  have h := apart_add a []
  have hle := common_le_right a []
  rw [List.length_nil] at h hle
  omega

theorem apart_reverse (a b : List Char) : apart a.reverse b.reverse = apart a b := by
  rw [apart, apart, common_reverse, List.length_reverse, List.length_reverse]

/-- Going from one text to the other part by part is one way to go. -/
theorem apart_append_le (a a' b b' : List Char) :
    apart (a ++ a') (b ++ b') ≤ apart a b + apart a' b' := by
  have hcommon := common_append_le a a' b b'
  have h := apart_add a b
  have h' := apart_add a' b'
  have happend := apart_add (a ++ a') (b ++ b')
  rw [List.length_append, List.length_append] at happend
  omega

/-- A common beginning and a common end are kept. -/
theorem apart_frame (front back a b : List Char) :
    apart (front ++ (a ++ back)) (front ++ (b ++ back)) = apart a b := by
  have hback : common (a ++ back) (b ++ back) = back.length + common a b := by
    rw [← common_reverse, List.reverse_append, List.reverse_append, common_append_same,
      common_reverse, List.length_reverse]
  have h := apart_add a b
  have hframe := apart_add (front ++ (a ++ back)) (front ++ (b ++ back))
  rw [common_append_same, hback] at hframe
  simp only [List.length_append] at hframe
  omega

/-- A text in the place of another brings no text nearer than by the characters of both. -/
theorem apart_splice_le (front middle text back b : List Char) :
    apart (front ++ (middle ++ back)) b ≤
      middle.length + text.length + apart (front ++ (text ++ back)) b := by
  have hless : (front ++ back).Sublist (front ++ (middle ++ back)) :=
    (List.Sublist.refl front).append (List.sublist_append_right middle back)
  have hcommon := common_mono hless (List.Sublist.refl b)
  have htext := common_splice_le front text back b
  have hold := apart_add (front ++ (middle ++ back)) b
  have hnew := apart_add (front ++ (text ++ back)) b
  simp only [List.length_append] at hold hnew
  omega

end BackendSync.Diff
