/-
# Text as UTF-8 bytes

`encode` gives the bytes of a text, `decode` the text of bytes that are valid.  Each undoes the other
(`decode_encode`, `encode_of_decode`), and a byte below 128 stands for the character of that number and for
nothing else (`ascii_mem_encode`).
-/
import Mathlib.Data.List.Basic

namespace Utf8

/-- The bytes of a text. -/
def encode (cs : List Char) : List UInt8 := cs.flatMap String.utf8EncodeChar

/-- `from_utf8`: the text of valid bytes. -/
def decode (bs : List UInt8) : Option (List Char) := bs.toByteArray.utf8Decode?.map Array.toList

@[simp] theorem encode_nil : encode [] = [] := rfl

@[simp] theorem encode_append (cs ds : List Char) : encode (cs ++ ds) = encode cs ++ encode ds :=
  List.flatMap_append

theorem toByteArray_encode (cs : List Char) : (encode cs).toByteArray = cs.utf8Encode := rfl

/-! ## 1. There and back -/

theorem decode_encode (cs : List Char) : decode (encode cs) = some cs := by
  unfold decode
  rw [toByteArray_encode, List.utf8Decode?_utf8Encode]
  simp

theorem encode_of_decode {bs : List UInt8} {cs : List Char} (h : decode bs = some cs) :
    encode cs = bs := by
  obtain ⟨a, ha, rfl⟩ := Option.map_eq_some_iff.mp h
  obtain ⟨l, hl⟩ := ByteArray.isSome_utf8Decode?_iff.mp (Option.isSome_of_eq_some ha)
  rw [hl, List.utf8Decode?_utf8Encode, Option.some_inj] at ha
  have hbytes : (encode l).toByteArray = bs.toByteArray := hl.symm
  have hdata := congrArg ByteArray.data hbytes
  rw [List.data_toByteArray, List.data_toByteArray] at hdata
  rw [← ha]
  exact Array.toList_inj.mpr hdata

/-! ## 2. Bytes below 128 -/

/-- A byte of a longer sequence has its high bit set. -/
theorem not_lt_ofNat {n : ℕ} (hn : 128 ≤ n) (hn' : n < 256) : ¬ UInt8.ofNat n < 128 := by
  intro h
  have hlt : (UInt8.ofNat n).toNat < 128 := h
  rw [UInt8.toNat_ofNat', Nat.mod_eq_of_lt hn'] at hlt
  omega

theorem ascii_mem_encodeChar {b : UInt8} (hb : b < 128) {c : Char}
    (h : b ∈ String.utf8EncodeChar c) : c.toNat = b.toNat := by
  have hval : c.val.toNat = c.toNat := rfl
  simp only [String.utf8EncodeChar, hval] at h
  split at h
  · rename_i hc
    rw [List.mem_singleton] at h
    rw [h, UInt8.toNat_ofNat']
    exact (Nat.mod_eq_of_lt (by omega)).symm
  · exfalso
    split at h
    · rcases List.mem_pair.mp h with rfl | rfl
      · exact not_lt_ofNat (by omega) (by omega) hb
      · exact not_lt_ofNat (by omega) (by omega) hb
    split at h
    · simp only [List.mem_cons, List.not_mem_nil, or_false] at h
      rcases h with rfl | rfl | rfl <;> exact not_lt_ofNat (by omega) (by omega) hb
    · simp only [List.mem_cons, List.not_mem_nil, or_false] at h
      rcases h with rfl | rfl | rfl | rfl <;> exact not_lt_ofNat (by omega) (by omega) hb

/-- **A byte below 128 in a text's bytes is a character of the text.** -/
theorem ascii_mem_encode {b : UInt8} (hb : b < 128) {cs : List Char} (h : b ∈ encode cs) :
    ∃ c ∈ cs, c.toNat = b.toNat := by
  obtain ⟨c, hc, hbc⟩ := List.mem_flatMap.mp h
  exact ⟨c, hc, ascii_mem_encodeChar hb hbc⟩

end Utf8
