/-
# Equations between parametrised values

A system of equations for a value at every key of a preorder, where a key's right-hand side may read its
own value and the value of any other key, the key it reads depending on what it has read so far.  A larger
key, a larger own value and a larger reading of the others give a larger right-hand side, so there is a
least solution, monotone in the key (`least`).

An iteration that computes values for some keys only, reading others while they are still being computed,
stands above the least solution once nothing moves any more: `least_le_of_settled`.  The argument needs a
reading of every key that is monotone, below the values the iteration holds and below the least solution
(`cap`).
-/
import Mathlib

/-- Right-hand sides that read a key's own value and the values of the others. -/
structure KeyedSystem (K V : Type*) [Preorder K] [CompleteLattice V] where
  rhs : K → V → (K →o V) → V
  mono : ∀ {k l : K} {v w : V} {σ τ : K →o V}, k ≤ l → v ≤ w → σ ≤ τ → rhs k v σ ≤ rhs l w τ

namespace KeyedSystem

variable {K V ι : Type*} [Preorder K] [CompleteLattice V] (E : KeyedSystem K V)

/-- One round of all equations. -/
def round : (K →o V) →o (K →o V) where
  toFun σ := ⟨fun k => E.rhs k (σ k) σ, fun _ _ h => E.mono h (σ.mono h) le_rfl⟩
  monotone' _ _ h k := E.mono le_rfl (h k) h

/-- The least solution. -/
def least : K →o V := E.round.lfp

theorem rhs_least (k : K) : E.rhs k (E.least k) E.least = E.least k :=
  congrArg (fun σ : K →o V => σ k) E.round.map_lfp

theorem isLeast_least : IsLeast {σ : K →o V | ∀ k, E.rhs k (σ k) σ ≤ σ k} E.least :=
  E.round.isLeast_lfp_le

/-- The least solution, cut down at every key to what the values `m` of the keys above it allow. -/
def cap (T : Set ι) (key : ι → K) (m : ι → V) : K →o V where
  toFun k := E.least k ⊓ ⨅ i ∈ T, ⨅ _ : k ≤ key i, m i
  monotone' k l h := by
    refine inf_le_inf (E.least.mono h) ?_
    refine le_iInf₂ fun i hi => le_iInf fun hl => ?_
    exact (iInf₂_le i hi).trans (iInf_le _ (h.trans hl))

theorem cap_le_least (T : Set ι) (key : ι → K) (m : ι → V) : E.cap T key m ≤ E.least :=
  fun _ => inf_le_left

theorem cap_le {T : Set ι} {key : ι → K} {m : ι → V} {i : ι} (hi : i ∈ T) {k : K}
    (hk : k ≤ key i) : E.cap T key m k ≤ m i :=
  inf_le_right.trans ((iInf₂_le i hi).trans (iInf_le _ hk))

/-- **Settled values are above the least solution**, when each one's right-hand side stays below it
with the others read no higher than they are held. -/
theorem least_le_of_settled {T : Set ι} {key : ι → K} {m : ι → V}
    (h : ∀ i ∈ T, E.rhs (key i) (m i) (E.cap T key m) ≤ m i) {i : ι} (hi : i ∈ T) :
    E.least (key i) ≤ m i := by
  have hcap : E.cap T key m ∈ {σ : K →o V | ∀ k, E.rhs k (σ k) σ ≤ σ k} := by
    intro k
    refine le_inf ?_ (le_iInf₂ fun j hj => le_iInf fun hk => ?_)
    · calc E.rhs k (E.cap T key m k) (E.cap T key m)
          ≤ E.rhs k (E.least k) E.least :=
            E.mono le_rfl (E.cap_le_least T key m k) (E.cap_le_least T key m)
        _ = E.least k := E.rhs_least k
    · exact (E.mono hk (E.cap_le hj hk) le_rfl).trans (h j hj)
  exact (E.isLeast_least.2 hcap (key i)).trans (E.cap_le hi le_rfl)

/-- A value that its right-hand side does not exceed, with the others at the least solution. -/
theorem least_le_of_rhs_le {k : K} {v : V} (h : E.rhs k v E.least ≤ v) : E.least k ≤ v := by
  refine @least_le_of_settled K V Unit _ _ E Set.univ (fun _ => k) (fun _ => v) (fun _ _ => ?_) ()
    (Set.mem_univ ())
  exact (E.mono le_rfl le_rfl (E.cap_le_least _ _ _)).trans h

end KeyedSystem
