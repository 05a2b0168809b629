/-
# What an overload pick depends on

A pick is decided by one of four rules (`Picks`), each of which names an overload by a property of its own,
so that a pick is never of an overload proven unable to bind (`Picks.applicable`) and does not depend on the
order of the overloads (`pickCandidate_perm`).

One more overload may take a call over or leave it undecided, and never hands it from one of the others to
another one (`pickCandidate_stable`).  It can add discriminating positions, where the old overloads agree;
there the four rules before and after are played off against each other, and the only pair that is not
settled by uniqueness is a text passed where one takes `Text` and the other `SecretText`.
-/
import AlSem.Resolve.ArgDispatch
import Mathlib.Data.List.FinRange
import Mathlib.Data.List.Nodup
import Mathlib.Data.List.Basic
import Mathlib.Logic.Equiv.Fin.Basic

namespace AlSem.Resolve

/-! ## 1. The only index with a property -/

/-- Below `n`, `i` and nothing else has the property. -/
def Only (n : ℕ) (P : ℕ → Prop) (i : ℕ) : Prop := i < n ∧ P i ∧ ∀ j < n, P j → j = i

theorem sole_eq_some_iff {l : List ℕ} (hl : l.Nodup) {i : ℕ} :
    sole l = some i ↔ i ∈ l ∧ ∀ j ∈ l, j = i := by
  cases l with
  | nil => simp [sole]
  | cons a l =>
    cases l with
    | nil => simp [sole, eq_comm]
    | cons b l =>
      simp only [sole, reduceCtorEq, false_iff, not_and, not_forall]
      intro _
      have hne : a ≠ b := fun h => (List.nodup_cons.mp hl).1 (h ▸ List.mem_cons_self)
      by_contra hall
      push Not at hall
      exact hne ((hall a (by simp)).trans (hall b (by simp)).symm)

variable {args : List ArgDispatchInfo} {candidates : List Candidate}

theorem mem_indices {P : ℕ → Bool} {i : ℕ} :
    i ∈ indices candidates P ↔ i < candidates.length ∧ P i = true := by
  rw [indices, List.mem_filter, List.mem_range]

theorem sole_indices {P : ℕ → Bool} {i : ℕ} :
    sole (indices candidates P) = some i ↔ Only candidates.length (fun j => P j = true) i := by
  have hnodup : (indices candidates P).Nodup := List.nodup_range.filter _
  rw [sole_eq_some_iff hnodup, mem_indices, Only, and_assoc]
  constructor
  · rintro ⟨hi, hP, hall⟩
    exact ⟨hi, hP, fun j hj hPj => hall j (mem_indices.mpr ⟨hj, hPj⟩)⟩
  · rintro ⟨hi, hP, hall⟩
    exact ⟨hi, hP, fun j hj => hall j (mem_indices.mp hj).1 (mem_indices.mp hj).2⟩

theorem candidateAt_eq {i : ℕ} (h : i < candidates.length) :
    candidateAt candidates i = candidates.get ⟨i, h⟩ := by
  simp [candidateAt, List.getD, List.getElem?_eq_getElem h]

theorem candidateAt_mem {i : ℕ} (h : i < candidates.length) :
    candidateAt candidates i ∈ candidates := by
  rw [candidateAt_eq h]
  exact List.get_mem _ _

/-! ## 2. Discriminating positions -/

/-- Neighbours differ somewhere exactly when not all agree. -/
theorem windowsDiffer_iff {pos : ℕ} : ∀ {cs : List Candidate},
    windowsDiffer pos cs = true ↔ ∃ a ∈ cs, ∃ b ∈ cs, a[pos]? ≠ b[pos]?
  | [] => by simp [windowsDiffer]
  | [a] => by simp [windowsDiffer]
  | a :: b :: rest => by
    rw [windowsDiffer, Bool.or_eq_true, decide_eq_true_iff, windowsDiffer_iff]
    constructor
    · rintro (h | ⟨x, hx, y, hy, h⟩)
      · exact ⟨a, by simp, b, by simp, h⟩
      · exact ⟨x, List.mem_cons_of_mem _ hx, y, List.mem_cons_of_mem _ hy, h⟩
    · rintro ⟨x, hx, y, hy, h⟩
      by_contra hno
      push Not at hno
      obtain ⟨hab, hrest⟩ := hno
      have hsame : ∀ z ∈ a :: b :: rest, z[pos]? = b[pos]? := by
        intro z hz
        rcases List.mem_cons.mp hz with rfl | hz
        · exact hab
        · exact hrest z hz b (by simp)
      exact h ((hsame x hx).trans (hsame y hy).symm)

theorem mem_discriminating {p : ℕ} : p ∈ discriminating args candidates ↔
    p < args.length ∧ ∃ a ∈ candidates, ∃ b ∈ candidates, a[p]? ≠ b[p]? := by
  rw [discriminating, List.mem_filter, List.mem_range, windowsDiffer_iff]

/-! ## 3. The rules that pick -/

theorem exact_canonical {arg : ArgDispatchInfo} {param : ParamDispatchInfo}
    (h : positionExactMatch arg param = true) : arg.canonical = some param.canonical := by
  by_contra hne
  rw [positionExactMatch, if_pos hne] at h
  exact absurd h (by simp)

/-- An exact match of a `var` parameter can be passed by reference, with the very type text. -/
theorem exact_byRef {arg : ArgDispatchInfo} {param : ParamDispatchInfo}
    (h : positionExactMatch arg param = true) (href : param.byRef = true) :
    arg.varPassable = true ∧
      (param.canonical.hasLength = true → arg.exactText = some param.exactText) := by
  have hc := exact_canonical h
  rw [positionExactMatch, if_neg (not_not.mpr hc)] at h
  simp only [href, Bool.not_true, Bool.false_and, Bool.false_eq_true, if_false, if_true] at h
  cases hpass : arg.varPassable with
  | false => simp [hpass] at h
  | true =>
    refine ⟨rfl, fun hlength => ?_⟩
    simpa [hpass, hlength] using h

/-- What matches exactly is not proven unable. -/
theorem not_incompatible_of_exact {arg : ArgDispatchInfo} {param : ParamDispatchInfo}
    (h : positionExactMatch arg param = true) : positionProvablyIncompatible arg param = false := by
  unfold positionProvablyIncompatible
  rw [exact_canonical h]
  dsimp only
  rw [if_neg (not_not.mpr rfl), if_neg (not_not.mpr rfl)]
  cases href : param.byRef with
  | false => simp
  | true =>
    obtain ⟨hpass, htext⟩ := exact_byRef h href
    cases hcan : param.canonical with
    | base b => simp [hpass, htext (by rw [hcan]; rfl)]
    | object id => simp [hpass]
    | generic base as => simp [hpass]
    | array dims elem => simp [hpass]

/-- The overload takes a `Variant` at every discriminating position. -/
def AllVariant (args : List ArgDispatchInfo) (candidates : List Candidate) (i : ℕ) : Prop :=
  ∀ p ∈ discriminating args candidates, variantAt (candidateAt candidates i) p = true

/-- No argument is proven unable to bind the overload. -/
def IsApplicable (args : List ArgDispatchInfo) (candidates : List Candidate) (i : ℕ) : Prop :=
  ∀ p ∈ discriminating args candidates, incompatibleAt args (candidateAt candidates i) p = false

/-- The overload has no `Variant` and matches exactly. -/
def IsExact (args : List ArgDispatchInfo) (candidates : List Candidate) (i : ℕ) : Prop :=
  ∀ p ∈ discriminating args candidates, variantAt (candidateAt candidates i) p = false ∧
    exactAt args (candidateAt candidates i) p = true

/-- The first overload loses to the second. -/
def Loses (args : List ArgDispatchInfo) (candidates : List Candidate) (i j : ℕ) : Prop :=
  losesTo args (discriminating args candidates) (candidateAt candidates i) (candidateAt candidates j)
    = true

/-- **The rules**: what tells the picked overload from the others. -/
inductive Picks (args : List ArgDispatchInfo) (candidates : List Candidate) (i : ℕ) : Prop where
  | sole (h : Only candidates.length (IsApplicable args candidates) i)
  | variant (hargs : ∀ p ∈ discriminating args candidates, variantArg args p = true)
      (hne : discriminating args candidates ≠ [])
      (h : Only candidates.length (AllVariant args candidates) i)
  | exact (h : Only candidates.length (IsExact args candidates) i)
  | secret (hi : i < candidates.length) (happ : IsApplicable args candidates i)
      (h : ∀ j < candidates.length, IsApplicable args candidates j → j ≠ i →
        Loses args candidates j i)

theorem applicable_iff {i : ℕ} :
    applicable args (discriminating args candidates) (candidateAt candidates i) = true
      ↔ IsApplicable args candidates i := by
  rw [applicable, Bool.not_eq_true', List.any_eq_false]
  exact forall₂_congr fun _ _ => by rw [Bool.not_eq_true]

theorem Only.congr {n : ℕ} {P Q : ℕ → Prop} (h : ∀ j, P j ↔ Q j) {i : ℕ} :
    Only n P i ↔ Only n Q i := by
  unfold Only
  simp only [h]

theorem pickSoleApplicable_iff {i : ℕ} :
    pickSoleApplicable args candidates (discriminating args candidates) = some i
      ↔ Only candidates.length (IsApplicable args candidates) i :=
  sole_indices.trans (Only.congr fun _ => applicable_iff)

theorem pickVariant_iff {i : ℕ} :
    pickVariant candidates (discriminating args candidates) = some i
      ↔ Only candidates.length (AllVariant args candidates) i :=
  sole_indices.trans (Only.congr fun _ => List.all_eq_true)

theorem pickExact_iff {i : ℕ} :
    pickExact args candidates (discriminating args candidates) = some i
      ↔ Only candidates.length (IsExact args candidates) i := by
  refine sole_indices.trans (Only.congr fun j => ?_)
  rw [Bool.and_eq_true, Bool.not_eq_true', hasVariant, List.any_eq_false, List.all_eq_true]
  constructor
  · rintro ⟨hvariant, hexact⟩ p hp
    exact ⟨by simpa using hvariant p hp, hexact p hp⟩
  · intro h
    exact ⟨fun p hp => by simp [(h p hp).1], fun p hp => (h p hp).2⟩

theorem pickOverSecrettext_iff {i : ℕ} :
    pickOverSecrettext args candidates (discriminating args candidates) = some i
      ↔ Only candidates.length (fun y => IsApplicable args candidates y ∧
          ∀ x < candidates.length, IsApplicable args candidates x → x ≠ y →
            Loses args candidates x y) i := by
  have hpool : ∀ j, j ∈ indices candidates (fun i =>
      applicable args (discriminating args candidates) (candidateAt candidates i))
        ↔ j < candidates.length ∧ IsApplicable args candidates j := fun j => by
    rw [mem_indices, applicable_iff]
  have hnodup : (indices candidates fun i =>
      applicable args (discriminating args candidates) (candidateAt candidates i)).Nodup :=
    List.nodup_range.filter _
  rw [pickOverSecrettext, sole_eq_some_iff (hnodup.filter _)]
  simp only [List.mem_filter, hpool, List.all_eq_true, Bool.or_eq_true, beq_iff_eq, Only, Loses]
  constructor
  · rintro ⟨⟨⟨hi, happ⟩, hwin⟩, hall⟩
    refine ⟨hi, ⟨happ, fun x hx hxa hne => (hwin x ⟨hx, hxa⟩).resolve_left hne⟩, ?_⟩
    rintro j hj ⟨hja, hjwin⟩
    refine hall j ⟨⟨hj, hja⟩, fun x hx => ?_⟩
    by_cases hxj : x = j
    · exact .inl hxj
    · exact .inr (hjwin x hx.1 hx.2 hxj)
  · rintro ⟨hi, ⟨happ, hwin⟩, hall⟩
    refine ⟨⟨⟨hi, happ⟩, fun x hx => ?_⟩, ?_⟩
    · by_cases hxi : x = i
      · exact .inl hxi
      · exact .inr (hwin x hx.1 hx.2 hxi)
    · rintro j ⟨⟨hj, hja⟩, hjwin⟩
      exact hall j hj ⟨hja, fun x hx hxa hne => (hjwin x ⟨hx, hxa⟩).resolve_left hne⟩

theorem pickByMatch_picks {i : ℕ}
    (h : pickByMatch args candidates (discriminating args candidates) = some i) :
    Picks args candidates i := by
  rw [pickByMatch, Option.or_eq_some_iff, Option.or_eq_some_iff] at h
  rcases h with h | ⟨-, h | ⟨-, h⟩⟩
  · exact .exact (pickExact_iff.mp h)
  · exact .sole (pickSoleApplicable_iff.mp h)
  · obtain ⟨hi, ⟨happ, hwin⟩, -⟩ := pickOverSecrettext_iff.mp h
    exact .secret hi happ hwin

/-- **Every pick is by one of the rules.** -/
theorem pickCandidate_picks {i : ℕ} (h : pickCandidate args candidates = some i) :
    1 < candidates.length ∧ (∀ cand ∈ candidates, cand.length = args.length) ∧
      Picks args candidates i := by
  unfold pickCandidate at h
  split at h
  · exact absurd h (by simp)
  rename_i hsize
  split at h
  · exact absurd h (by simp)
  rename_i harity
  have hlength : 1 < candidates.length := by
    simp only [Bool.or_eq_true, decide_eq_true_eq, not_or] at hsize
    omega
  refine ⟨hlength, by simpa using harity, ?_⟩
  dsimp only at h
  split at h
  · exact absurd h (by simp)
  split at h
  · exact .sole (pickSoleApplicable_iff.mp h)
  unfold pickTyped at h
  split at h
  · rename_i hvariant
    split at h
    · rename_i hall
      refine .variant ?_ ?_ (pickVariant_iff.mp h)
      · exact List.filter_eq_self.mp (List.filter_sublist.eq_of_length hall)
      · intro hnil
        rw [hnil] at hvariant
        simp [hasVariant] at hvariant
    split at h
    · exact .sole (pickSoleApplicable_iff.mp h)
    · exact pickByMatch_picks h
  · exact pickByMatch_picks h

/-- A `Variant` argument is never proven unable. -/
theorem not_incompatible_of_variantArg {p : ℕ} (h : variantArg args p = true) (cand : Candidate) :
    incompatibleAt args cand p = false := by
  unfold incompatibleAt
  cases harg : args[p]? with
  | none => rfl
  | some arg =>
    cases cand[p]? with
    | none => rfl
    | some param =>
      rw [variantArg, harg] at h
      cases hc : arg.canonical with
      | none => simp [hc] at h
      | some t =>
        have hvariant : t.isVariant = true := by simpa [hc] using h
        simp [positionProvablyIncompatible, hc, hvariant]

theorem not_incompatibleAt_of_exact {cand : Candidate} {p : ℕ} (h : exactAt args cand p = true) :
    incompatibleAt args cand p = false := by
  unfold exactAt at h
  unfold incompatibleAt
  cases harg : args[p]? with
  | none => rfl
  | some arg =>
    cases hparam : cand[p]? with
    | none => rfl
    | some param =>
      rw [harg, hparam] at h
      exact not_incompatible_of_exact h

theorem Picks.lt {i : ℕ} (h : Picks args candidates i) : i < candidates.length := by
  cases h with
  | sole h => exact h.1
  | variant _ _ h => exact h.1
  | exact h => exact h.1
  | secret hi _ _ => exact hi

/-- **The picked overload is not proven unable**, at any discriminating position. -/
theorem Picks.applicable {i : ℕ} (h : Picks args candidates i) : IsApplicable args candidates i := by
  cases h with
  | sole h => exact h.2.1
  | variant hargs _ _ => exact fun p hp => not_incompatible_of_variantArg (hargs p hp) _
  | exact h => exact fun p hp => not_incompatibleAt_of_exact (h.2.1 p hp).2
  | secret _ happ _ => exact happ

/-! ## 4. The order of the overloads -/

/-- A rearranged list is the same list read through a permutation of the positions. -/
theorem exists_getElem?_perm {α : Type} {l l' : List α} (h : l'.Perm l) :
    ∃ σ : Equiv.Perm ℕ, ∀ i : ℕ, l'[i]? = l[σ i]? := by
  induction h with
  | nil => exact ⟨Equiv.refl _, fun _ => rfl⟩
  | cons a _ ih =>
    obtain ⟨σ, hσ⟩ := ih
    refine ⟨⟨fun i => i.casesOn 0 fun i => σ i + 1, fun i => i.casesOn 0 fun i => σ.symm i + 1,
      fun i => ?_, fun i => ?_⟩, fun i => ?_⟩
    · cases i <;> simp
    · cases i <;> simp
    · cases i with
      | zero => rfl
      | succ i => simpa using hσ i
  | swap a b l =>
    refine ⟨Equiv.swap 0 1, fun i => ?_⟩
    rcases i with _ | _ | i
    · simp
    · simp
    · rw [Equiv.swap_apply_of_ne_of_ne (by omega) (by omega)]
      simp
  | trans _ _ ih₁ ih₂ =>
    obtain ⟨σ₁, h₁⟩ := ih₁
    obtain ⟨σ₂, h₂⟩ := ih₂
    exact ⟨σ₁.trans σ₂, fun i => (h₁ i).trans (h₂ (σ₁ i))⟩

section Rearranged

variable {candidates' : List Candidate} {σ : Equiv.Perm ℕ}

/-- The second list of overloads is the first, read through a permutation of the positions. -/
structure Rearranges (σ : Equiv.Perm ℕ) (candidates candidates' : List Candidate) : Prop where
  perm : candidates'.Perm candidates
  read : ∀ i, candidates'[i]? = candidates[σ i]?

namespace Rearranges

variable (h : Rearranges σ candidates candidates')
include h

theorem lt_iff (i : ℕ) : i < candidates'.length ↔ σ i < candidates.length := by
  have hlt : ∀ (l : List Candidate) (j : ℕ), j < l.length ↔ l[j]? ≠ none := fun l j => by simp
  rw [hlt, hlt, h.read]

theorem candidateAt_eq (i : ℕ) : candidateAt candidates' i = candidateAt candidates (σ i) := by
  simp only [candidateAt, List.getD, h.read]

/-- A property of one index alone among all carries over, read at the rearranged positions. -/
theorem only_iff {P P' : ℕ → Prop} (hP : ∀ i, P' i ↔ P (σ i)) (i : ℕ) :
    Only candidates'.length P' i ↔ Only candidates.length P (σ i) := by
  simp only [Only, hP, h.lt_iff]
  refine and_congr_right fun _ => and_congr_right fun _ => ?_
  refine ⟨fun hall j hj hPj => ?_, fun hall j hj hPj => ?_⟩
  · have := hall (σ.symm j) (by simpa using hj) (by simpa using hPj)
    rw [← this, Equiv.apply_symm_apply]
  · exact σ.injective (hall (σ j) hj hPj)

theorem any_eq (f : Candidate → Bool) : candidates'.any f = candidates.any f :=
  h.perm.any_eq

theorem discriminating_eq : discriminating args candidates' = discriminating args candidates := by
  refine List.filter_congr fun p _ => ?_
  rw [Bool.eq_iff_iff, windowsDiffer_iff, windowsDiffer_iff]
  simp only [h.perm.mem_iff]

theorem gatedAt_eq (D : List ℕ) (p : ℕ) : gatedAt args candidates' D p = gatedAt args candidates D p := by
  unfold gatedAt
  rw [h.any_eq]
  congr 1
  cases args[p]?.bind (·.literalKind) with
  | none => rfl
  | some kind =>
    have hviable := (h.perm.filter (applicable args D)).map fun cand => cand[p]?.map (·.canonical)
    simp only [hviable.length_eq, hviable.any_eq]

theorem isApplicable_iff (i : ℕ) :
    IsApplicable args candidates' i ↔ IsApplicable args candidates (σ i) := by
  simp only [IsApplicable, h.discriminating_eq, h.candidateAt_eq]

theorem loses_iff (i j : ℕ) : Loses args candidates' i j ↔ Loses args candidates (σ i) (σ j) := by
  simp only [Loses, h.discriminating_eq, h.candidateAt_eq]

theorem pickSoleApplicable_eq :
    pickSoleApplicable args candidates' (discriminating args candidates') =
      (pickSoleApplicable args candidates (discriminating args candidates)).map σ.symm := by
  refine Option.ext fun i => ?_
  simp only [Option.map_eq_some_iff, Equiv.symm_apply_eq, exists_eq_right, pickSoleApplicable_iff]
  exact h.only_iff h.isApplicable_iff i

theorem pickVariant_eq :
    pickVariant candidates' (discriminating args candidates') =
      (pickVariant candidates (discriminating args candidates)).map σ.symm := by
  refine Option.ext fun i => ?_
  simp only [Option.map_eq_some_iff, Equiv.symm_apply_eq, exists_eq_right, pickVariant_iff]
  exact h.only_iff (fun j => by simp only [AllVariant, h.discriminating_eq, h.candidateAt_eq]) i

theorem pickExact_eq :
    pickExact args candidates' (discriminating args candidates') =
      (pickExact args candidates (discriminating args candidates)).map σ.symm := by
  refine Option.ext fun i => ?_
  simp only [Option.map_eq_some_iff, Equiv.symm_apply_eq, exists_eq_right, pickExact_iff]
  exact h.only_iff (fun j => by simp only [IsExact, h.discriminating_eq, h.candidateAt_eq]) i

theorem pickOverSecrettext_eq :
    pickOverSecrettext args candidates' (discriminating args candidates') =
      (pickOverSecrettext args candidates (discriminating args candidates)).map σ.symm := by
  refine Option.ext fun i => ?_
  simp only [Option.map_eq_some_iff, Equiv.symm_apply_eq, exists_eq_right, pickOverSecrettext_iff]
  refine h.only_iff (fun y => ?_) i
  rw [h.isApplicable_iff]
  refine and_congr_right fun _ => ⟨fun hwin x hx hxa hne => ?_, fun hwin x hx hxa hne => ?_⟩
  · have := hwin (σ.symm x) (by rw [h.lt_iff]; simpa using hx)
      (by rw [h.isApplicable_iff]; simpa using hxa) (fun he => hne (by rw [← he]; simp))
    simpa [h.loses_iff] using this
  · rw [h.loses_iff]
    exact hwin (σ x) ((h.lt_iff x).mp hx) ((h.isApplicable_iff x).mp hxa)
      (fun he => hne (σ.injective he))

theorem pickByMatch_eq :
    pickByMatch args candidates' (discriminating args candidates') =
      (pickByMatch args candidates (discriminating args candidates)).map σ.symm := by
  rw [pickByMatch, pickByMatch, h.pickExact_eq, h.pickSoleApplicable_eq, h.pickOverSecrettext_eq,
    Option.map_or, Option.map_or]

theorem pickTyped_eq :
    pickTyped args candidates' (discriminating args candidates') =
      (pickTyped args candidates (discriminating args candidates)).map σ.symm := by
  rw [pickTyped, pickTyped, h.pickVariant_eq, h.pickSoleApplicable_eq, h.pickByMatch_eq,
    h.discriminating_eq, h.any_eq]
  simp only [apply_ite (Option.map σ.symm)]

theorem pickCandidate_eq : pickCandidate args candidates' = (pickCandidate args candidates).map σ.symm := by
  rw [pickCandidate, pickCandidate, h.perm.length_eq, h.any_eq]
  dsimp only
  rw [h.pickTyped_eq, h.pickSoleApplicable_eq, h.discriminating_eq]
  have hgate : gatedAt args candidates' = gatedAt args candidates :=
    funext fun D => funext fun p => h.gatedAt_eq D p
  rw [hgate]
  simp only [apply_ite (Option.map σ.symm), Option.map_none]

end Rearranges

end Rearranged

/-- A parameter taken by value, of one keyword. -/
def byValue (keyword : String) : ParamDispatchInfo where
  canonical := .base keyword
  exactText := keyword
  byRef := false
  secret := fun h => congrArg _ h

/-- **The order of the overloads does not matter**: of rearranged overloads, each with its routine, the same
one is picked, or none. -/
theorem pickCandidate_perm {Routine : Type} (args : List ArgDispatchInfo)
    {overloads overloads' : List (Candidate × Routine)} (h : overloads'.Perm overloads) :
    (pickCandidate args (overloads'.map Prod.fst)).bind (fun i => overloads'[i]?) =
      (pickCandidate args (overloads.map Prod.fst)).bind (fun i => overloads[i]?) := by
  obtain ⟨σ, hσ⟩ := exists_getElem?_perm h
  have hr : Rearranges σ (overloads.map Prod.fst) (overloads'.map Prod.fst) :=
    ⟨h.map _, fun i => by rw [List.getElem?_map, List.getElem?_map, hσ]⟩
  rw [hr.pickCandidate_eq, Option.bind_map]
  congr 1
  funext i
  simp [hσ]

/-- Two overloads swapped. -/
theorem pickCandidate_perm_swapped :
    let args := [ArgDispatchInfo.mk (some (.base "text")) (some "text") none true]
    let overloads : List (Candidate × String) :=
      [([byValue "text"], "WriteText"), ([byValue "integer"], "WriteInteger")]
    (pickCandidate args (overloads.reverse.map Prod.fst)).bind (fun i => overloads.reverse[i]?) =
      (pickCandidate args (overloads.map Prod.fst)).bind (fun i => overloads[i]?) :=
  pickCandidate_perm _ (List.reverse_perm _)

/-! ## 5. One more overload -/

section OneMore

variable {k : ℕ} {x : Candidate}

/-- Where the `t`-th overload stands once one more is put in at `k`. -/
def shifted (k t : ℕ) : ℕ := if t < k then t else t + 1

theorem shifted_injective (k : ℕ) : Function.Injective (shifted k) := by
  intro a b h
  unfold shifted at h
  split at h <;> split at h <;> omega

/-- Every position but `k` is one of the old ones. -/
theorem exists_shifted {j : ℕ} (hk : k ≤ candidates.length)
    (hj : j < (candidates.insertIdx k x).length) (hjk : j ≠ k) :
    ∃ b < candidates.length, j = shifted k b := by
  rw [List.length_insertIdx_of_le_length hk] at hj
  by_cases hlt : j < k
  · exact ⟨j, by omega, by simp [shifted, hlt]⟩
  · exact ⟨j - 1, by omega, by unfold shifted; split <;> omega⟩

theorem shifted_lt {t : ℕ} (hk : k ≤ candidates.length) (ht : t < candidates.length) :
    shifted k t < (candidates.insertIdx k x).length := by
  rw [List.length_insertIdx_of_le_length hk, shifted]
  split <;> omega

theorem candidateAt_shifted {t : ℕ} :
    candidateAt (candidates.insertIdx k x) (shifted k t) = candidateAt candidates t := by
  unfold candidateAt shifted
  by_cases hlt : t < k
  · rw [if_pos hlt, List.getD, List.getElem?_insertIdx_of_lt hlt, List.getD]
  · rw [if_neg hlt, List.getD, List.getElem?_insertIdx_of_gt (by omega), List.getD, Nat.add_sub_cancel]

/-- The discriminating positions stay. -/
theorem discriminating_insert {p : ℕ} (hk : k ≤ candidates.length)
    (hp : p ∈ discriminating args candidates) :
    p ∈ discriminating args (candidates.insertIdx k x) := by
  obtain ⟨hlt, a, ha, b, hb, hne⟩ := mem_discriminating.mp hp
  have hmem : ∀ c ∈ candidates, c ∈ candidates.insertIdx k x := fun c hc =>
    (List.mem_insertIdx hk).mpr (.inr hc)
  exact mem_discriminating.mpr ⟨hlt, a, hmem a ha, b, hmem b hb, hne⟩

/-- At any other position the old overloads agree. -/
theorem agree_of_notMem {p a b : ℕ} (hlt : p < args.length)
    (hp : p ∉ discriminating args candidates) (ha : a < candidates.length)
    (hb : b < candidates.length) : (candidateAt candidates a)[p]? = (candidateAt candidates b)[p]? := by
  by_contra hne
  exact hp (mem_discriminating.mpr
    ⟨hlt, _, candidateAt_mem ha, _, candidateAt_mem hb, hne⟩)

theorem incompatibleAt_congr {cand other : Candidate} {p : ℕ} (h : cand[p]? = other[p]?) :
    incompatibleAt args cand p = incompatibleAt args other p := by
  rw [incompatibleAt, incompatibleAt, h]

/-- Where an old overload still can take the call, those that could before still can. -/
theorem isApplicable_shifted {a b : ℕ} (ha : a < candidates.length)
    (hb : b < candidates.length) (hA : IsApplicable args candidates a)
    (hB : IsApplicable args (candidates.insertIdx k x) (shifted k b)) :
    IsApplicable args (candidates.insertIdx k x) (shifted k a) := by
  intro p hp
  have hlt := (mem_discriminating.mp hp).1
  rw [candidateAt_shifted]
  by_cases hold : p ∈ discriminating args candidates
  · exact hA p hold
  · rw [incompatibleAt_congr (agree_of_notMem hlt hold ha hb), ← candidateAt_shifted]
    exact hB p hp

theorem isApplicable_of_shifted {b : ℕ} (hk : k ≤ candidates.length)
    (hB : IsApplicable args (candidates.insertIdx k x) (shifted k b)) :
    IsApplicable args candidates b := fun p hp => by
  have := hB p (discriminating_insert hk hp)
  rwa [candidateAt_shifted] at this

theorem allVariant_of_shifted {b : ℕ} (hk : k ≤ candidates.length)
    (hB : AllVariant args (candidates.insertIdx k x) (shifted k b)) :
    AllVariant args candidates b := fun p hp => by
  have := hB p (discriminating_insert hk hp)
  rwa [candidateAt_shifted] at this

theorem isExact_of_shifted {b : ℕ} (hk : k ≤ candidates.length)
    (hB : IsExact args (candidates.insertIdx k x) (shifted k b)) :
    IsExact args candidates b := fun p hp => by
  have := hB p (discriminating_insert hk hp)
  rwa [candidateAt_shifted] at this

/-- What it is to lose at a position: `SecretText` against `Text`, of a text. -/
theorem losesAt_iff {a b : Candidate} {p : ℕ} : losesAt args a b p = true ↔
    ∃ arg pa pb, args[p]? = some arg ∧ a[p]? = some pa ∧ b[p]? = some pb ∧
      (pa.byRef = false ∧ pa.exactText = "secrettext") ∧
        (pb.byRef = false ∧ pb.exactText = "text") ∧ textFamily arg = true := by
  unfold losesAt
  cases args[p]? with
  | none => simp
  | some arg =>
    cases a[p]? with
    | none => simp
    | some pa =>
      cases b[p]? with
      | none => simp
      | some pb => simp [and_assoc]

/-- One overload loses to another at a discriminating position, where they differ. -/
theorem Loses.exists {i j : ℕ} (h : Loses args candidates i j) :
    ∃ p ∈ discriminating args candidates,
      losesAt args (candidateAt candidates i) (candidateAt candidates j) p = true := by
  simp only [Loses, losesTo, Bool.and_eq_true, List.any_eq_true, List.all_eq_true, Bool.or_eq_true,
    decide_eq_true_eq] at h
  obtain ⟨⟨p, hp, hne⟩, hall⟩ := h
  exact ⟨p, hp, (hall p hp).resolve_left hne⟩

theorem Loses.at {i j p : ℕ} (h : Loses args candidates i j)
    (hp : p ∈ discriminating args candidates)
    (hne : (candidateAt candidates i)[p]? ≠ (candidateAt candidates j)[p]?) :
    losesAt args (candidateAt candidates i) (candidateAt candidates j) p = true := by
  simp only [Loses, losesTo, Bool.and_eq_true, List.all_eq_true, Bool.or_eq_true,
    decide_eq_true_eq] at h
  exact (h.2 p hp).resolve_left hne

/-- A loss is never over a `Variant` argument. -/
theorem not_variantArg_of_losesAt {a b : Candidate} {p : ℕ} (h : losesAt args a b p = true) :
    variantArg args p = false := by
  obtain ⟨arg, pa, pb, harg, -, -, -, -, htext⟩ := losesAt_iff.mp h
  rw [variantArg, harg]
  simp only [textFamily, Bool.or_eq_true, decide_eq_true_eq] at htext
  rcases htext with (htext | htext) | htext <;> simp [htext, CanonicalArgType.isVariant]

/-- What loses at a position does not match exactly there: its `SecretText` is no text. -/
theorem not_exactAt_of_losesAt {a b : Candidate} {p : ℕ} (h : losesAt args a b p = true) :
    exactAt args a p = false := by
  obtain ⟨arg, pa, pb, harg, hpa, -, ⟨-, hsecret⟩, -, htext⟩ := losesAt_iff.mp h
  rw [exactAt, harg, hpa]
  by_contra hexact
  have hcan := exact_canonical (by simpa using hexact)
  rw [pa.secret hsecret] at hcan
  simp only [textFamily, Bool.or_eq_true, decide_eq_true_eq] at htext
  rcases htext with (htext | htext) | htext <;> rw [hcan] at htext <;> simp at htext

/-- A `Variant` argument matches only a `Variant` exactly. -/
theorem variantAt_of_exactAt {cand : Candidate} {p : ℕ} (h : exactAt args cand p = true)
    (hv : variantArg args p = true) : variantAt cand p = true := by
  unfold exactAt at h
  rw [variantArg] at hv
  cases harg : args[p]? with
  | none => simp [harg] at hv
  | some arg =>
    cases hparam : cand[p]? with
    | none => simp [harg, hparam] at h
    | some param =>
      simp only [harg, hparam] at h
      simp only [harg, Option.any_some, exact_canonical h] at hv
      simpa [variantAt, hparam] using hv

/-- Where several overloads are told apart by a property of their discriminating positions alone, there are
discriminating positions. -/
theorem discriminating_ne_nil {P : ℕ → Prop} {i : ℕ} (h1 : 1 < candidates.length)
    (h : Only candidates.length P i) (hP : discriminating args candidates = [] → ∀ j, P j) :
    discriminating args candidates ≠ [] := by
  intro hnil
  have h0 := h.2.2 0 (by omega) (hP hnil 0)
  have h1 := h.2.2 1 h1 (hP hnil 1)
  omega

/-- **No hand-over**, from rule to rule: the old overload a call is picked for before and after is the
same. -/
theorem Picks.stable {a b : ℕ} (h1 : 1 < candidates.length) (hk : k ≤ candidates.length)
    (hb : b < candidates.length) (hA : Picks args candidates a)
    (hB : Picks args (candidates.insertIdx k x) (shifted k b)) : a = b := by
  have ha := hA.lt
  have hAapp := hA.applicable
  have hBapp := hB.applicable
  have hb_before := isApplicable_of_shifted hk hBapp
  have ha_after := isApplicable_shifted ha hb hAapp hBapp
  have ha' : shifted k a < (candidates.insertIdx k x).length := shifted_lt hk ha
  by_contra hne
  have hne' : shifted k a ≠ shifted k b := fun he => hne (shifted_injective k he)
  -- What the old pick loses to after, it differs from at an old position.
  have hlose : Loses args (candidates.insertIdx k x) (shifted k a) (shifted k b) →
      ∃ p ∈ discriminating args candidates,
        losesAt args (candidateAt candidates a) (candidateAt candidates b) p = true := by
    intro hl
    obtain ⟨p, hp, hat⟩ := hl.exists
    rw [candidateAt_shifted, candidateAt_shifted] at hat
    refine ⟨p, ?_, hat⟩
    by_contra hold
    have hagree := agree_of_notMem (mem_discriminating.mp hp).1 hold ha hb
    obtain ⟨_, pa, pb, -, hpa, hpb, ⟨-, hpaText⟩, ⟨-, hpbText⟩, -⟩ := losesAt_iff.mp hat
    rw [hpa, hpb, Option.some_inj] at hagree
    rw [hagree, hpbText] at hpaText
    simp at hpaText
  cases hB with
  | sole hafter => exact hne' (hafter.2.2 _ ha' ha_after)
  | variant hargs _ hafter =>
    have hvariant : ∀ p ∈ discriminating args candidates, variantArg args p = true := fun p hp =>
      hargs p (discriminating_insert hk hp)
    cases hA with
    | sole h => exact hne (h.2.2 b hb hb_before).symm
    | variant _ _ h => exact hne (h.2.2 b hb (allVariant_of_shifted hk hafter.2.1)).symm
    | exact h =>
      have hD : discriminating args candidates ≠ [] :=
        discriminating_ne_nil h1 h fun hnil j p hp => by simp [hnil] at hp
      obtain ⟨p, hp⟩ := List.exists_mem_of_ne_nil _ hD
      have := variantAt_of_exactAt (h.2.1 p hp).2 (hvariant p hp)
      rw [(h.2.1 p hp).1] at this
      exact absurd this (by simp)
    | secret _ _ h =>
      obtain ⟨p, hp, hat⟩ := (h b hb hb_before (Ne.symm hne)).exists
      exact absurd (hvariant p hp) (by simp [not_variantArg_of_losesAt hat])
  | exact hafter =>
    have hexact := isExact_of_shifted hk hafter.2.1
    cases hA with
    | sole h => exact hne (h.2.2 b hb hb_before).symm
    | variant hvariant hD _ =>
      obtain ⟨p, hp⟩ := List.exists_mem_of_ne_nil _ hD
      have := variantAt_of_exactAt (hexact p hp).2 (hvariant p hp)
      rw [(hexact p hp).1] at this
      exact absurd this (by simp)
    | exact h => exact hne (h.2.2 b hb hexact).symm
    | secret _ _ h =>
      obtain ⟨p, hp, hat⟩ := (h b hb hb_before (Ne.symm hne)).exists
      exact absurd (hexact p hp).2 (by simp [not_exactAt_of_losesAt hat])
  | secret _ _ hafter =>
    obtain ⟨p, hp, hat⟩ := hlose (hafter _ ha' ha_after hne')
    cases hA with
    | sole h => exact hne (h.2.2 b hb hb_before).symm
    | variant hvariant _ _ =>
      exact absurd (hvariant p hp) (by simp [not_variantArg_of_losesAt hat])
    | exact h => exact absurd (h.2.1 p hp).2 (by simp [not_exactAt_of_losesAt hat])
    | secret _ _ h =>
      -- Each takes `Text` where the other takes `SecretText`.
      have hloses := h b hb hb_before (Ne.symm hne)
      obtain ⟨_, pa, pb, -, hpa, hpb, ⟨-, hpaText⟩, ⟨-, hpbText⟩, -⟩ := losesAt_iff.mp hat
      have hdiffer : (candidateAt candidates b)[p]? ≠ (candidateAt candidates a)[p]? := by
        rw [hpa, hpb]
        rintro ⟨⟩
        rw [hpaText] at hpbText
        simp at hpbText
      obtain ⟨_, qb, qa, -, -, hqa, -, ⟨-, hqaText⟩, -⟩ := losesAt_iff.mp (hloses.at hp hdiffer)
      rw [hpa, Option.some_inj] at hqa
      rw [← hqa, hpaText] at hqaText
      simp at hqaText

/-- **One more overload takes a call over or leaves it undecided**: the call never goes from one of the old
overloads to another. -/
theorem pickCandidate_stable {i j : ℕ} (hk : k ≤ candidates.length)
    (hbefore : pickCandidate args candidates = some i)
    (hafter : pickCandidate args (candidates.insertIdx k x) = some j) :
    j = k ∨ j = shifted k i := by
  obtain ⟨h1, -, hA⟩ := pickCandidate_picks hbefore
  obtain ⟨-, -, hB⟩ := pickCandidate_picks hafter
  by_cases hjk : j = k
  · exact .inl hjk
  right
  obtain ⟨b, hb, rfl⟩ := exists_shifted hk hB.lt hjk
  rw [hA.stable h1 hk hb hB]

-- A `Text` keeps its overload when one for `Code` comes before it.
example :
    let args := [ArgDispatchInfo.mk (some (.base "text")) (some "text") none true]
    let candidates : List Candidate := [[byValue "text"], [byValue "integer"]]
    pickCandidate args candidates = some 0 ∧
      pickCandidate args (candidates.insertIdx 0 [byValue "code"]) = some (shifted 0 0) := by
  decide

end OneMore

end AlSem.Resolve
