/-
# Folds that stop early

A left fold that returns its accumulator as soon as a test accepts it.  Where the test accepts
only accumulators the operation leaves alone, stopping changes nothing (`foldUntil_eq_foldl`),
and two such folds are compared through the plain ones (`foldl_rel`).
-/
import Mathlib.Data.List.Forall2

namespace StopFold

variable {α β γ δ : Type*}

/-- Fold from the left, and stop once `stop` accepts the accumulator. -/
def foldUntil (stop : α → Bool) (op : α → β → α) : α → List β → α
  | acc, [] => acc
  | acc, b :: bs =>
    if stop (op acc b) then op acc b else foldUntil stop op (op acc b) bs

/-- An accumulator the operation never changes is the result of the fold. -/
theorem foldl_eq_of_absorbing {op : α → β → α} {a : α} (h : ∀ b, op a b = a) (l : List β) :
    l.foldl op a = a := by
  induction l with
  | nil => rfl
  | cons b l ih => rw [List.foldl_cons, h b, ih]

/-- **Stopping early changes nothing** where the operation absorbs what the test accepts. -/
theorem foldUntil_eq_foldl {stop : α → Bool} {op : α → β → α}
    (h : ∀ a, stop a = true → ∀ b, op a b = a) (l : List β) (acc : α) :
    foldUntil stop op acc l = l.foldl op acc := by
  induction l generalizing acc with
  | nil => rfl
  | cons b l ih =>
    rw [foldUntil, List.foldl_cons]
    split
    · next hstop => exact (foldl_eq_of_absorbing (h _ hstop) l).symm
    · exact ih _

/-- Folds by operations that keep a relation end in related accumulators. -/
theorem foldl_rel {R : α → γ → Prop} {S : β → δ → Prop} {op : α → β → α} {op' : γ → δ → γ}
    (hop : ∀ {a c b d}, R a c → S b d → R (op a b) (op' c d)) {l : List β} {l' : List δ}
    (hl : List.Forall₂ S l l') {a : α} {c : γ} (h : R a c) :
    R (l.foldl op a) (l'.foldl op' c) := by
  induction hl generalizing a c with
  | nil => exact h
  | cons hbd _ ih => exact ih (hop h hbd)

end StopFold
