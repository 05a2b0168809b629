/-
# Buckets

A table of lists that a loop fills: `pushAt` adds to one list, and after a loop over pairs each
list has what it had and what the loop put there.
-/
import Mathlib.Data.List.Basic

namespace Buckets

variable {α β : Type*}

/-- The list at a place, the empty one outside the table. -/
def bucket (t : List (List α)) (i : ℕ) : List α := t.getD i []

/-- `t[i].push(a)`. -/
def pushAt (t : List (List α)) (i : ℕ) (a : α) : List (List α) := t.modify i (· ++ [a])

@[simp] theorem length_pushAt (t : List (List α)) (i : ℕ) (a : α) :
    (pushAt t i a).length = t.length := List.length_modify _ _ _

theorem mem_bucket_replicate (n i : ℕ) (x : α) : x ∉ bucket (List.replicate n []) i := by
  unfold bucket
  rw [List.getD_eq_getElem?_getD, List.getElem?_replicate]
  split <;> simp

theorem mem_bucket_pushAt {t : List (List α)} {i : ℕ} (hi : i < t.length) (j : ℕ) (a x : α) :
    x ∈ bucket (pushAt t i a) j ↔ x ∈ bucket t j ∨ j = i ∧ x = a := by
  unfold bucket pushAt
  simp only [List.getD_eq_getElem?_getD, List.getElem?_modify]
  by_cases h : i = j
  · subst h
    simp [List.getElem?_eq_getElem hi]
  · simp [h, Ne.symm h]

/-- **What a loop of pushes leaves in a bucket.** -/
theorem mem_bucket_foldl_pushAt (key : β → ℕ) (val : β → α) {l : List β} : ∀ {t : List (List α)},
    (∀ b ∈ l, key b < t.length) → ∀ (j : ℕ) (x : α),
      x ∈ bucket (l.foldl (fun t b => pushAt t (key b) (val b)) t) j ↔
        x ∈ bucket t j ∨ ∃ b ∈ l, key b = j ∧ val b = x := by
  induction l with
  | nil => intro t _ j x; simp
  | cons b l ih =>
    intro t hin j x
    have hrest : ∀ c ∈ l, key c < (pushAt t (key b) (val b)).length := by
      intro c hc
      rw [length_pushAt]
      exact hin c (List.mem_cons_of_mem _ hc)
    rw [List.foldl_cons, ih hrest, mem_bucket_pushAt (hin b List.mem_cons_self)]
    simp only [List.mem_cons, exists_eq_or_imp, or_assoc, eq_comm (a := j), eq_comm (a := x)]

end Buckets
