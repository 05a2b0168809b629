/-
# Fixed-width big-endian numbers

A number as `k` bytes, the highest first, and the number that bytes stand for.  The bytes of a
number below `256 ^ k` give it back (`ofBeBytes_toBeBytes`).
-/
import Mathlib.Data.Nat.Basic
import Mathlib.Tactic.Ring

namespace AlSem.BigEndian

/-- The lowest `k` bytes of `n`, the highest of them first. -/
def toBeBytes : ℕ → ℕ → List UInt8
  | 0, _ => []
  | k + 1, n => toBeBytes k (n / 256) ++ [UInt8.ofNat n]

/-- The number that bytes stand for, the highest first. -/
def ofBeBytes (bs : List UInt8) : ℕ := bs.foldl (fun acc b => 256 * acc + b.toNat) 0

@[simp] theorem length_toBeBytes (k n : ℕ) : (toBeBytes k n).length = k := by
  induction k generalizing n with
  | zero => rfl
  | succ k ih => simp [toBeBytes, ih]

theorem ofBeBytes_append_singleton (bs : List UInt8) (b : UInt8) :
    ofBeBytes (bs ++ [b]) = 256 * ofBeBytes bs + b.toNat := by
  simp [ofBeBytes]

/-- **Writing and reading `k` bytes** gives back every number that fits them. -/
theorem ofBeBytes_toBeBytes {k n : ℕ} (h : n < 256 ^ k) : ofBeBytes (toBeBytes k n) = n := by
  induction k generalizing n with
  | zero =>
    have hn : n = 0 := by simpa using h
    simp [toBeBytes, ofBeBytes, hn]
  | succ k ih =>
    have hdiv : n / 256 < 256 ^ k := by
      rw [Nat.div_lt_iff_lt_mul (by decide)]
      simpa [pow_succ] using h
    have hlow : (UInt8.ofNat n).toNat = n % 256 := by simp
    rw [toBeBytes, ofBeBytes_append_singleton, ih hdiv, hlow]
    exact Nat.div_add_mod n 256

end AlSem.BigEndian
