/-
# While loops

A `while` loop is a step function that answers `none` when the loop is over.  `Loop.run`
iterates it under a fuel, and `Loop.run_spec` is the rule every loop of the development is
proved with: an invariant that each step keeps, and a natural-number measure that each step
lowers, give the loop's end state, with the invariant, within the measure's number of steps.
-/
import Mathlib.Order.Basic

namespace Loop

variable {σ : Type*}

/-- Run `step` until it answers `none`; the answer is `none` when the fuel runs out first. -/
def run (step : σ → Option σ) : ℕ → σ → Option σ
  | 0, _ => none
  | n + 1, s =>
    match step s with
    | none => some s
    | some s' => run step n s'

/-- **The while rule.**  An invariant kept by every step and a measure lowered by every step
bring the loop to its end within the measure's number of steps, and the invariant holds
there. -/
theorem run_spec (step : σ → Option σ) (Inv : σ → Prop) (μ : σ → ℕ)
    (hInv : ∀ s s', Inv s → step s = some s' → Inv s')
    (hμ : ∀ s s', Inv s → step s = some s' → μ s' < μ s) :
    ∀ (n : ℕ) (s : σ), Inv s → μ s < n →
      ∃ s', run step n s = some s' ∧ Inv s' ∧ step s' = none
  | 0, _, _, hn => absurd hn (Nat.not_lt_zero _)
  | n + 1, s, hs, hn => by
    simp only [run]
    cases hst : step s with
    | none => exact ⟨s, rfl, hs, hst⟩
    | some s₁ =>
      have hlt : μ s₁ < μ s := hμ s s₁ hs hst
      exact run_spec step Inv μ hInv hμ n s₁ (hInv s s₁ hs hst) (by omega)

/-- What every step keeps holds where the loop ended. -/
theorem run_inv {step : σ → Option σ} {Inv : σ → Prop}
    (hInv : ∀ s s', Inv s → step s = some s' → Inv s') :
    ∀ {n : ℕ} {s s' : σ}, Inv s → run step n s = some s' → Inv s'
  | 0, _, _, _, h => by simp [run] at h
  | n + 1, s, s', hs, h => by
    simp only [run] at h
    cases hst : step s with
    | none =>
      rw [hst] at h
      exact Option.some.inj h ▸ hs
    | some s₁ =>
      rw [hst] at h
      exact run_inv hInv (hInv s s₁ hs hst) h

/-- More fuel does not change the answer of a loop that ended. -/
theorem run_mono {step : σ → Option σ} :
    ∀ {n m : ℕ} {s s' : σ}, n ≤ m → run step n s = some s' → run step m s = some s'
  | 0, _, _, _, _, h => by simp [run] at h
  | n + 1, 0, _, _, hle, _ => absurd hle (by omega)
  | n + 1, m + 1, s, s', hle, h => by
    simp only [run] at h ⊢
    cases hst : step s with
    | none => simpa [hst] using h
    | some s₁ =>
      simp only [hst] at h ⊢
      exact run_mono (by omega) h

end Loop
