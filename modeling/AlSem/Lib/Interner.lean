/-
# Interners

A map from values to consecutive numbers and back.  The two directions agree by construction,
so a number means one value and a value has one number; an interner only grows, and what a
number means never changes (`Interner.Le`).
-/
import Mathlib.Logic.Function.Basic
import Mathlib.Data.List.Basic

/-- Values numbered in the order they were first seen. -/
structure Interner (α : Type*) where
  byId : List α
  byValue : α → Option ℕ
  agree : ∀ x n, byValue x = some n ↔ byId[n]? = some x

namespace Interner

variable {α : Type*}

/-- The interner that has seen nothing. -/
def new : Interner α where
  byId := []
  byValue := fun _ => none
  agree := by simp

/-- The number of a value already seen. -/
def get (i : Interner α) (x : α) : Option ℕ := i.byValue x

/-- The value of a number, `none` for a number never given out. -/
def value (i : Interner α) (n : ℕ) : Option α := i.byId[n]?

theorem get_eq_some {i : Interner α} {x : α} {n : ℕ} : i.get x = some n ↔ i.value n = some x :=
  i.agree x n

/-- Two numbers of one value are one number. -/
theorem value_inj {i : Interner α} {a b : ℕ} {x : α} (ha : i.value a = some x)
    (hb : i.value b = some x) : a = b := by
  have ha' := get_eq_some.mpr ha
  rw [get_eq_some.mpr hb] at ha'
  exact (Option.some.inj ha').symm

/-- Two values with one number are one value. -/
theorem get_inj {i : Interner α} {x y : α} {n : ℕ} (hx : i.get x = some n)
    (hy : i.get y = some n) : x = y := by
  have hx' := get_eq_some.mp hx
  rw [get_eq_some.mp hy] at hx'
  exact (Option.some.inj hx').symm

/-- `j` extends `i`: every number of `i` means the same in `j`. -/
def Le (i j : Interner α) : Prop := ∀ n x, i.value n = some x → j.value n = some x

theorem Le.refl (i : Interner α) : i.Le i := fun _ _ h => h

theorem Le.trans {i j k : Interner α} (h : i.Le j) (h' : j.Le k) : i.Le k :=
  fun n x hx => h' n x (h n x hx)

variable [DecidableEq α]

/-- The directions still agree when a new value gets the next number. -/
theorem agree_snoc {byValue : α → Option ℕ} {byId : List α}
    (h : ∀ x n, byValue x = some n ↔ byId[n]? = some x) {x : α} (hx : byValue x = none) (y : α)
    (n : ℕ) :
    Function.update byValue x (some byId.length) y = some n ↔ (byId ++ [x])[n]? = some y := by
  have hnot : byId[n]? ≠ some x := fun hn => by
    rw [← h, hx] at hn
    exact absurd hn (by simp)
  rw [List.getElem?_append, List.getElem?_singleton]
  by_cases hy : y = x
  · subst hy
    rw [Function.update_self]
    split
    · exact ⟨fun heq => by simp only [Option.some.injEq] at heq; omega, fun heq => absurd heq hnot⟩
    · split <;> simp <;> omega
  · rw [Function.update_of_ne hy, h]
    split
    · exact Iff.rfl
    · rw [List.getElem?_eq_none (by omega)]
      split <;> simp [Ne.symm hy]

/-- The number of a value, the next one on first sight. -/
def intern (i : Interner α) (x : α) : Interner α × ℕ :=
  match h : i.byValue x with
  | some n => (i, n)
  | none =>
    ({ byId := i.byId ++ [x]
       byValue := Function.update i.byValue x (some i.byId.length)
       agree := agree_snoc i.agree h },
      i.byId.length)

/-- **Interning**: the interner grows, and the number returned means the value. -/
theorem intern_spec (i : Interner α) (x : α) :
    i.Le (i.intern x).1 ∧ (i.intern x).1.value (i.intern x).2 = some x := by
  unfold intern
  split
  · rename_i n h
    exact ⟨Le.refl i, get_eq_some.mp h⟩
  · refine ⟨fun n y hy => ?_, by simp [value]⟩
    have hlt : n < i.byId.length := (List.getElem?_eq_some_iff.mp hy).1
    simpa [value, List.getElem?_append_left hlt] using hy

/-- What is known after interning: what was known, and the value. -/
theorem isSome_get_intern (i : Interner α) (x y : α) :
    ((i.intern x).1.get y).isSome ↔ y = x ∨ (i.get y).isSome := by
  unfold intern
  split
  · rename_i n h
    refine ⟨Or.inr, ?_⟩
    rintro (rfl | hs)
    · simp [get, h]
    · exact hs
  · by_cases hy : y = x <;> simp [get, hy]

/-- Interning a list knows the list's values, and what was known. -/
theorem isSome_get_foldl_intern (l : List α) (i : Interner α) (y : α) :
    ((l.foldl (fun i x => (i.intern x).1) i).get y).isSome ↔ y ∈ l ∨ (i.get y).isSome := by
  induction l generalizing i with
  | nil => simp
  | cons x l ih =>
    rw [List.foldl_cons, ih, isSome_get_intern, List.mem_cons, or_left_comm, or_assoc]

/-- **New values are numbered in their order.** -/
theorem byId_foldl_intern : ∀ (l : List α) (i : Interner α), (i.byId ++ l).Nodup →
    (l.foldl (fun i x => (i.intern x).1) i).byId = i.byId ++ l
  | [], i, _ => (List.append_nil i.byId).symm
  | x :: l, i, h => by
    have hx : i.byValue x = none := by
      rw [Option.eq_none_iff_forall_ne_some]
      intro n hn
      have hmem := List.mem_of_getElem? ((i.agree x n).mp hn)
      exact (List.nodup_append.mp h).2.2 x hmem x List.mem_cons_self rfl
    have hstep : (i.intern x).1.byId = i.byId ++ [x] := by
      unfold intern
      split
      · rename_i n hn
        rw [hx] at hn
        cases hn
      · rfl
    rw [List.foldl_cons, byId_foldl_intern l, hstep, List.append_assoc, List.singleton_append]
    rwa [hstep, List.append_assoc, List.singleton_append]

end Interner
