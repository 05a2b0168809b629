/-
# Rules for a state with errors

Programs over a state that may fail, `StateT σ (Except ε)`, with two judgements and a rule for
each way of putting programs together.

* `Yields p s a s'`: from the state `s` the program gives `a` and leaves `s'`.
* `Sound I E p Q`: from every state with the invariant `I` the program either gives a value with
  `Q` and keeps `I`, or fails with an error that `E` allows.

`repeatN` is the loop that runs a step a number of times on an accumulator.
-/
import Mathlib.Logic.Basic
import Mathlib.Data.Nat.Notation

namespace AlSem.StateExcept

variable {σ ε α β : Type}

/-! ## 1. What a run gives -/

/-- From `s` the program gives `a` and leaves `s'`. -/
def Yields (p : StateT σ (Except ε) α) (s : σ) (a : α) (s' : σ) : Prop := p s = .ok (a, s')

theorem Yields.pure (a : α) (s : σ) : Yields (Pure.pure a : StateT σ (Except ε) α) s a s := rfl

theorem Yields.bind {p : StateT σ (Except ε) α} {f : α → StateT σ (Except ε) β} {s s' s'' : σ}
    {a : α} {b : β} (hp : Yields p s a s') (hf : Yields (f a) s' b s'') :
    Yields (p >>= f) s b s'' := by
  have hbind : (p >>= f) s = (p s >>= fun r => f r.1 r.2) := rfl
  unfold Yields at *
  rw [hbind, hp]
  exact hf

/-! ## 2. What every run keeps -/

/-- From a state with `I`, the program gives a value with `Q` and keeps `I`, or fails with an
error in `E`. -/
def Sound (I : σ → Prop) (E : ε → Prop) (p : StateT σ (Except ε) α) (Q : α → Prop) : Prop :=
  ∀ s, I s → match p s with
    | .ok (a, s') => Q a ∧ I s'
    | .error e => E e

variable {I : σ → Prop} {E : ε → Prop}

theorem Sound.pure {Q : α → Prop} {a : α} (h : Q a) :
    Sound I E (Pure.pure a : StateT σ (Except ε) α) Q := fun _ hs => ⟨h, hs⟩

theorem Sound.throw {Q : α → Prop} {e : ε} (h : E e) :
    Sound I E (MonadExcept.throw e : StateT σ (Except ε) α) Q := fun _ _ => h

theorem Sound.bind {p : StateT σ (Except ε) α} {f : α → StateT σ (Except ε) β} {Q : α → Prop}
    {R : β → Prop} (hp : Sound I E p Q) (hf : ∀ a, Q a → Sound I E (f a) R) :
    Sound I E (p >>= f) R := by
  intro s hs
  have hbind : (p >>= f) s = (p s >>= fun r => f r.1 r.2) := rfl
  have hrun := hp s hs
  rw [hbind]
  cases hps : p s with
  | error e =>
    rw [hps] at hrun
    exact hrun
  | ok r =>
    rw [hps] at hrun
    exact hf r.1 hrun.1 r.2 hrun.2

/-! ## 3. A counted loop -/

/-- Run `step` on the accumulator `n` times. -/
def repeatN (step : α → StateT σ (Except ε) α) : ℕ → α → StateT σ (Except ε) α
  | 0, acc => pure acc
  | n + 1, acc => do
    let acc ← step acc
    repeatN step n acc

/-- A step that keeps the invariant and a property of the accumulator makes a loop that does. -/
theorem Sound.repeatN {step : α → StateT σ (Except ε) α} {Q : α → Prop}
    (hstep : ∀ acc, Q acc → Sound I E (step acc) Q) (n : ℕ) {acc : α} (hacc : Q acc) :
    Sound I E (repeatN step n acc) Q := by
  induction n generalizing acc with
  | zero => exact Sound.pure hacc
  | succ n ih => exact (hstep acc hacc).bind fun acc' hacc' => ih hacc'

end AlSem.StateExcept
