/-!
# The order of bytes

Texts are compared by their characters here, and by the bytes of their UTF-8 wherever names
are sorted outside. It is the same order. Two characters differ in a byte that both of them
have, so that what follows has no say, and in the first such byte the smaller character has
the smaller one: a character of fewer bytes has the smaller first byte, and of two with as
many bytes each the bytes are digits.
-/

namespace BackendSync.Text

/-- The bytes of a text in UTF-8. -/
def utf8 (s : String) : List UInt8 := s.toUTF8.data.toList

theorem utf8_eq (s : String) : utf8 s = s.toList.flatMap String.utf8EncodeChar := by
  have hencode : s.toUTF8 = s.toList.utf8Encode := by
    conv => lhs; rw [← String.ofList_toList (s := s)]
    exact String.toByteArray_ofList
  rw [utf8, hencode, List.utf8Encode]
  simp

/-- Two lists differ at a place that both have, and there the first has the smaller byte. -/
inductive Parts : List UInt8 → List UInt8 → Prop where
  | here {a b : UInt8} (h : a < b) (as bs : List UInt8) : Parts (a :: as) (b :: bs)
  | there (a : UInt8) {as bs : List UInt8} (h : Parts as bs) : Parts (a :: as) (a :: bs)

/-- Whatever is written behind two lists that differ, they differ in the same way. -/
theorem Parts.append_lt {as bs : List UInt8} (h : Parts as bs) (cs ds : List UInt8) :
    as ++ cs < bs ++ ds := by
  induction h with
  | here hlt as bs => exact List.cons_lt_cons_iff.mpr (Or.inl hlt)
  | there a _ ih => exact List.cons_lt_cons_iff.mpr (Or.inr ⟨rfl, ih⟩)

/-- A digit decides, unless it is the same and the digits behind it decide. -/
theorem parts_of_le {m n : Nat} {as bs : List UInt8} (hn : n < 256) (hle : m ≤ n)
    (h : m = n → Parts as bs) : Parts (UInt8.ofNat m :: as) (UInt8.ofNat n :: bs) := by
  rcases Nat.lt_or_eq_of_le hle with hlt | heq
  · refine .here ?_ as bs
    rw [UInt8.lt_iff_toNat_lt, UInt8.toNat_ofNat_of_lt' (Nat.lt_trans hlt hn),
      UInt8.toNat_ofNat_of_lt' hn]
    exact hlt
  · subst heq
    exact .there _ (h rfl)

theorem parts_of_lt {m n : Nat} {as bs : List UInt8} (hn : n < 256) (hlt : m < n) :
    Parts (UInt8.ofNat m :: as) (UInt8.ofNat n :: bs) :=
  parts_of_le hn (Nat.le_of_lt hlt) fun heq => absurd heq (Nat.ne_of_lt hlt)

/-- **A smaller character is smaller in its bytes.** -/
theorem parts_utf8EncodeChar {c d : Char} (h : c < d) :
    Parts (String.utf8EncodeChar c) (String.utf8EncodeChar d) := by
  have hlt : c.val.toNat < d.val.toNat := h
  have hmax : d.val.toNat < 0x110000 := by rcases d.valid with hd | hd <;> omega
  unfold String.utf8EncodeChar
  dsimp only
  generalize c.val.toNat = v at hlt ⊢
  generalize d.val.toNat = w at hlt hmax ⊢
  -- by the number of bytes of the larger one, and then of the smaller one
  rcases Nat.lt_or_ge w 0x80 with hw | hw
  · rw [if_pos (show v ≤ 127 by omega), if_pos (show w ≤ 127 by omega)]
    exact parts_of_lt (by omega) hlt
  rw [if_neg (show ¬w ≤ 127 by omega)]
  rcases Nat.lt_or_ge w 0x800 with hw | hw
  · rw [if_pos (show w ≤ 2047 by omega)]
    split
    · exact parts_of_lt (by omega) (by omega)
    · rw [if_pos (show v ≤ 2047 by omega)]
      exact parts_of_le (by omega) (by omega) fun _ => parts_of_lt (by omega) (by omega)
  rw [if_neg (show ¬w ≤ 2047 by omega)]
  rcases Nat.lt_or_ge w 0x10000 with hw | hw
  · rw [if_pos (show w ≤ 65535 by omega)]
    split
    · exact parts_of_lt (by omega) (by omega)
    · split
      · exact parts_of_lt (by omega) (by omega)
      · rw [if_pos (show v ≤ 65535 by omega)]
        refine parts_of_le (by omega) (by omega) fun _ => ?_
        exact parts_of_le (by omega) (by omega) fun _ => parts_of_lt (by omega) (by omega)
  · rw [if_neg (show ¬w ≤ 65535 by omega)]
    split
    · exact parts_of_lt (by omega) (by omega)
    · split
      · exact parts_of_lt (by omega) (by omega)
      · split
        · exact parts_of_lt (by omega) (by omega)
        · refine parts_of_le (by omega) (by omega) fun _ => ?_
          refine parts_of_le (by omega) (by omega) fun _ => ?_
          exact parts_of_le (by omega) (by omega) fun _ => parts_of_lt (by omega) (by omega)

/-- **A smaller text is smaller in its bytes.** -/
theorem utf8_lt_utf8 {s t : String} (h : s < t) : utf8 s < utf8 t := by
  rw [String.lt_iff] at h
  rw [utf8_eq, utf8_eq]
  generalize s.toList = cs at h ⊢
  generalize t.toList = ds at h ⊢
  induction cs generalizing ds with
  | nil =>
    cases ds with
    | nil => exact absurd h (List.lt_irrefl [])
    | cons d ds =>
      obtain ⟨b, bs, hb⟩ := List.exists_cons_of_ne_nil (String.utf8EncodeChar_ne_nil (c := d))
      rw [List.flatMap_nil, List.flatMap_cons, hb]
      exact List.nil_lt_cons b _
  | cons c cs ih =>
    cases ds with
    | nil => exact absurd h (List.not_lt_nil (c :: cs))
    | cons d ds =>
      rw [List.flatMap_cons, List.flatMap_cons]
      rcases List.cons_lt_cons_iff.mp h with hlt | ⟨rfl, hrest⟩
      · exact (parts_utf8EncodeChar hlt).append_lt _ _
      · exact List.append_left_lt (ih ds hrest)

end BackendSync.Text
