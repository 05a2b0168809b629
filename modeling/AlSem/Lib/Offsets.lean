/-
# Offsets in a list of sized elements

The elements of a list have a size in each of several measures.  An offset is a boundary when some
first elements add up to it.  `convert` reads an offset in one measure and gives it in another, an
element that the offset falls inside counted whole: it gives boundaries, it is monotone, and from a
boundary to the other measure and back it gives the boundary again.
-/
import Mathlib.Algebra.BigOperators.Group.List.Basic
import Mathlib.Order.Monotone.Basic
import Mathlib.Algebra.GroupWithZero.Nat

namespace Offsets

variable {α : Type*}

/-- The size of a list. -/
def total (w : α → ℕ) (l : List α) : ℕ := (l.map w).sum

/-- The sum of some first elements. -/
def IsBoundary (w : α → ℕ) (l : List α) (b : ℕ) : Prop := ∃ k, b = total w (l.take k)

/-- How many first elements start before an offset. -/
def count (w : α → ℕ) : List α → ℕ → ℕ
  | [], _ => 0
  | a :: l, t => if t = 0 then 0 else count w l (t - w a) + 1

/-- Walk along the list until `target` is seen in one measure, and add up the other. -/
def convert (w v : α → ℕ) (target : ℕ) : List α → ℕ → ℕ → ℕ
  | [], _, out => out
  | a :: l, seen, out =>
    if target ≤ seen then out else convert w v target l (seen + w a) (out + v a)

variable (w v : α → ℕ)

/-! ## 1. Sizes -/

@[simp] theorem total_nil : total w [] = 0 := rfl

@[simp] theorem total_cons (a : α) (l : List α) : total w (a :: l) = w a + total w l := by
  simp [total]

theorem total_append (l m : List α) : total w (l ++ m) = total w l + total w m := by
  simp [total]

theorem total_take_le (l : List α) (k : ℕ) : total w (l.take k) ≤ total w l := by
  have hsplit : total w (l.take k ++ l.drop k) = total w (l.take k) + total w (l.drop k) :=
    total_append w _ _
  rw [List.take_append_drop] at hsplit
  omega

theorem total_take_mono (l : List α) {j k : ℕ} (h : j ≤ k) :
    total w (l.take j) ≤ total w (l.take k) := by
  have htake : l.take j = (l.take k).take j := by rw [List.take_take, Nat.min_eq_left h]
  rw [htake]
  exact total_take_le w _ j

theorem isBoundary_take (l : List α) (k : ℕ) : IsBoundary w l (total w (l.take k)) := ⟨k, rfl⟩

theorem IsBoundary.le {w : α → ℕ} {l : List α} {b : ℕ} (h : IsBoundary w l b) :
    b ≤ total w l := by
  obtain ⟨k, rfl⟩ := h
  exact total_take_le w l k

/-! ## 2. Counting -/

@[simp] theorem count_zero (l : List α) : count w l 0 = 0 := by
  cases l <;> simp [count]

theorem count_mono (l : List α) {s t : ℕ} (h : s ≤ t) : count w l s ≤ count w l t := by
  induction l generalizing s t with
  | nil => exact Nat.le_refl _
  | cons a l ih =>
    simp only [count]
    by_cases hs : s = 0
    · rw [if_pos hs]
      exact Nat.zero_le _
    · have ht : t ≠ 0 := by omega
      rw [if_neg hs, if_neg ht]
      exact Nat.succ_le_succ (ih (Nat.sub_le_sub_right h _))

/-- **At a boundary the elements before it are counted.** -/
theorem take_count {w : α → ℕ} (hw : ∀ a, 0 < w a) (l : List α) (k : ℕ) :
    l.take (count w l (total w (l.take k))) = l.take k := by
  induction l generalizing k with
  | nil => simp
  | cons a l ih =>
    cases k with
    | zero => simp
    | succ k =>
      have hpos : w a + total w (l.take k) ≠ 0 := by
        have ha := hw a
        omega
      have hrest : w a + total w (l.take k) - w a = total w (l.take k) := by omega
      rw [List.take_succ_cons, total_cons, count, if_neg hpos, hrest, List.take_succ_cons, ih]

/-- Behind the end everything is counted. -/
theorem take_count_of_le {w : α → ℕ} (hw : ∀ a, 0 < w a) {l : List α} {t : ℕ}
    (h : total w l ≤ t) : l.take (count w l t) = l := by
  induction l generalizing t with
  | nil => simp
  | cons a l ih =>
    have ha := hw a
    rw [total_cons] at h
    have ht : t ≠ 0 := by omega
    rw [count, if_neg ht, List.take_succ_cons, ih (by omega)]

/-! ## 3. Conversion -/

theorem convert_eq (target : ℕ) (l : List α) (seen out : ℕ) :
    convert w v target l seen out = out + total v (l.take (count w l (target - seen))) := by
  induction l generalizing seen out with
  | nil => simp [convert]
  | cons a l ih =>
    rw [convert, count]
    by_cases h : target ≤ seen
    · have hzero : target - seen = 0 := by omega
      rw [if_pos h, if_pos hzero]
      simp
    · have hpos : target - seen ≠ 0 := by omega
      have hsub : target - seen - w a = target - (seen + w a) := by omega
      rw [if_neg h, if_neg hpos, ih, hsub, List.take_succ_cons, total_cons, Nat.add_assoc]

/-- **A conversion gives a boundary.** -/
theorem convert_isBoundary (target : ℕ) (l : List α) :
    IsBoundary v l (convert w v target l 0 0) := by
  rw [convert_eq, Nat.zero_add]
  exact isBoundary_take v l _

/-- **A conversion is monotone.** -/
theorem convert_mono (l : List α) : Monotone fun target => convert w v target l 0 0 := by
  intro s t h
  simp only [convert_eq, Nat.zero_add, Nat.sub_zero]
  exact total_take_mono v l (count_mono w l h)

/-- **There and back again.** -/
theorem convert_convert {w v : α → ℕ} (hw : ∀ a, 0 < w a) (hv : ∀ a, 0 < v a) {l : List α}
    {b : ℕ} (hb : IsBoundary w l b) : convert v w (convert w v b l 0 0) l 0 0 = b := by
  obtain ⟨k, rfl⟩ := hb
  simp only [convert_eq, Nat.zero_add, Nat.sub_zero]
  rw [take_count hw, take_count hv]

end Offsets
