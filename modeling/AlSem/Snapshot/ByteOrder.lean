/-
# The byte order of strings

The source orders strings by their bytes, Lean by their characters.  UTF-8 makes these one order
(`compare_asBytes`): the code of a smaller character is smaller at the first byte where the two differ.
-/
import AlSem.Snapshot.JoinedKey

namespace AlSem.JoinedKey

theorem compare_ofNat {a b : ℕ} (ha : a < 256) (hb : b < 256) :
    compare (UInt8.ofNat a) (UInt8.ofNat b) = compare a b := by
  have hto : ∀ n, n < 256 → (UInt8.ofNat n).toNat = n := fun n hn => by
    rw [UInt8.toNat_ofNat']
    exact Nat.mod_eq_of_lt hn
  have hlt : (UInt8.ofNat a < UInt8.ofNat b) ↔ a < b := by
    rw [UInt8.lt_iff_toNat_lt, hto a ha, hto b hb]
  have heq : (UInt8.ofNat a = UInt8.ofNat b) ↔ a = b := by
    rw [← UInt8.toNat_inj, hto a ha, hto b hb]
  show compareOfLessAndEq _ _ = compareOfLessAndEq _ _
  unfold compareOfLessAndEq
  simp only [hlt, heq]

theorem then_eq_lt_iff {o p : Ordering} : o.then p = .lt ↔ o = .lt ∨ o = .eq ∧ p = .lt := by
  cases o <;> simp

theorem char_lt (c : Char) : c.val.toNat < 0x110000 := by
  have h := c.valid
  unfold UInt32.isValidChar Nat.isValidChar at h
  omega

/-- **The bytes of a smaller character are smaller**, whatever follows. -/
theorem compare_encode_lt {c d : Char} (h : c.toNat < d.toNat) (s t : List UInt8) :
    compare (String.utf8EncodeChar c ++ s) (String.utf8EncodeChar d ++ t) = .lt := by
  have hc := char_lt c
  have hd := char_lt d
  have hcd : c.val.toNat < d.val.toNat := h
  unfold String.utf8EncodeChar
  generalize c.val.toNat = v at hc hcd
  generalize d.val.toNat = w at hd hcd
  -- every byte is six bits further down
  have hdiv : ∀ n : ℕ, n / 4096 = n / 64 / 64 ∧ n / 262144 = n / 64 / 64 / 64 := fun n => by
    rw [Nat.div_div_eq_div_mul, Nat.div_div_eq_div_mul]
    exact ⟨rfl, rfl⟩
  simp only [(hdiv v).1, (hdiv v).2, (hdiv w).1, (hdiv w).2]
  clear h hdiv
  split_ifs <;> simp only [List.cons_append, List.nil_append, List.compare_cons_cons, then_eq_lt_iff] <;>
    (repeat rw [compare_ofNat (by omega) (by omega)]) <;>
    simp only [Nat.compare_eq_lt, Nat.compare_eq_eq] <;> omega

theorem compare_encode_chars (s t : List Char) :
    compare (s.flatMap String.utf8EncodeChar) (t.flatMap String.utf8EncodeChar) = .lt ↔ s < t := by
  induction s generalizing t with
  | nil =>
    cases t with
    | nil => simp
    | cons d t =>
      rw [List.flatMap_cons]
      obtain ⟨x, xs, hx⟩ := List.exists_cons_of_ne_nil (String.utf8EncodeChar_ne_nil (c := d))
      rw [hx]
      exact iff_of_true rfl (List.nil_lt_cons d t)
  | cons c s ih =>
    cases t with
    | nil =>
      rw [List.flatMap_cons]
      obtain ⟨x, xs, hx⟩ := List.exists_cons_of_ne_nil (String.utf8EncodeChar_ne_nil (c := c))
      rw [hx]
      exact iff_of_false nofun (List.not_lt_nil _)
    | cons d t =>
      rw [List.flatMap_cons, List.flatMap_cons, List.cons_lt_cons_iff]
      rcases Nat.lt_trichotomy c.toNat d.toNat with h | h | h
      · exact iff_of_true (compare_encode_lt h _ _) (Or.inl h)
      · obtain rfl := Char.toNat_inj.mp h
        rw [compare_append_left, ih]
        exact (or_iff_right (Char.lt_irrefl c)).symm.trans (by simp)
      · have hgt := compare_encode_lt h (t.flatMap String.utf8EncodeChar)
          (s.flatMap String.utf8EncodeChar)
        refine iff_of_false (fun hlt => ?_) ?_
        · rw [Std.OrientedOrd.eq_swap, hlt] at hgt
          cases hgt
        · rintro (hcd | ⟨rfl, -⟩)
          · exact absurd (Nat.lt_trans h hcd) (Nat.lt_irrefl _)
          · exact Nat.lt_irrefl _ h

theorem asBytes_eq (s : String) : asBytes s = s.toList.flatMap String.utf8EncodeChar := by
  rw [asBytes, ← String.utf8Encode_toList, List.utf8Encode]
  simp

/-- **The byte order of strings is their order.** -/
theorem compare_asBytes (s t : String) : compare (asBytes s) (asBytes t) = .lt ↔ s < t := by
  rw [asBytes_eq, asBytes_eq, compare_encode_chars]
  exact String.lt_iff_toList_lt.symm

end AlSem.JoinedKey
