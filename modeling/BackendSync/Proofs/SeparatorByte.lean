import BackendSync.Glob.Token

/-!
# The separator among the bytes

A glob sees the bytes of a path, and a path has its pieces between characters. Both agree on
where a segment ends: the separator is one byte, and no other character has that byte in it.
-/

namespace BackendSync.Glob

/-- The byte of a separator. -/
def separator : UInt8 := 47

theorem charBytes_separator : charBytes '/' = [separator] := by decide

/-- The byte of a separator is not part of any other character. -/
theorem separator_not_mem_charBytes {c : Char} (h : c ≠ '/') : separator ∉ charBytes c := by
  have hval : c.val.toNat ≠ 47 := fun heq =>
    h (Char.ext (UInt32.toNat_inj.mp heq))
  have hmax : c.val.toNat < 0x110000 := by rcases c.valid with hc | hc <;> omega
  have hbyte : ∀ {n : Nat}, n < 256 → n ≠ 47 → separator ≠ UInt8.ofNat n := by
    intro n hn hne heq
    refine hne ?_
    have hnat := congrArg UInt8.toNat heq
    rw [UInt8.toNat_ofNat_of_lt' hn] at hnat
    exact hnat.symm
  unfold charBytes String.utf8EncodeChar
  dsimp only
  generalize c.val.toNat = v at hval hmax
  split
  · simp only [List.mem_singleton]
    exact hbyte (by omega) hval
  · split
    · simp only [List.mem_cons, List.not_mem_nil, or_false, not_or]
      exact ⟨hbyte (by omega) (by omega), hbyte (by omega) (by omega)⟩
    · split
      · simp only [List.mem_cons, List.not_mem_nil, or_false, not_or]
        exact ⟨hbyte (by omega) (by omega), hbyte (by omega) (by omega),
          hbyte (by omega) (by omega)⟩
      · simp only [List.mem_cons, List.not_mem_nil, or_false, not_or]
        exact ⟨hbyte (by omega) (by omega), hbyte (by omega) (by omega),
          hbyte (by omega) (by omega), hbyte (by omega) (by omega)⟩

theorem count_charBytes (c : Char) :
    (charBytes c).count separator = if c = '/' then 1 else 0 := by
  by_cases hc : c = '/'
  · rw [if_pos hc, hc, charBytes_separator]
    rfl
  · rw [if_neg hc]
    exact List.count_eq_zero.mpr (separator_not_mem_charBytes hc)

/-- The bytes of a text have the separators of its characters. -/
theorem count_flatMap_charBytes (cs : List Char) :
    (cs.flatMap charBytes).count separator = cs.count '/' := by
  induction cs with
  | nil => rfl
  | cons c cs ih =>
    rw [List.flatMap_cons, List.count_append, ih, count_charBytes, List.count_cons, Nat.add_comm]
    congr 1
    by_cases hc : c = '/'
    · rw [if_pos hc, hc]
      rfl
    · rw [if_neg hc, if_neg (by simpa using hc)]

end BackendSync.Glob
