/-
# Edge equations

A graph whose nodes carry sets of facts: a node has its own facts, and every out-edge transfers
the facts of its target.  Some nodes are settled: their row is given.  The solution is the least
family of rows with

    row v = base v ∪ ⋃ (e out of v), transfer v e '' row (target e)

at the active nodes (`EdgeSystem.solution_eq`).  Facts no edge changes travel along every path
(`EdgeSystem.stable_of_path`), and `EdgeSystem.block_eq` is the closed form of the solution on a
strongly connected block whose outward targets are solved already: the facts that no edge
changes are one set for the whole block, and only the others are kept node by node.
-/
import Mathlib.Order.FixedPoints
import Mathlib.Data.Set.Lattice
import Mathlib.Logic.Relation
import Mathlib.Order.CompletePartialOrder

/-- The data of the equations. -/
structure EdgeSystem (V E K : Type*) where
  active : V → Prop
  base : V → Set K
  out : V → List E
  target : E → V
  transfer : V → E → K → K
  settled : V → Option (Set K)

namespace EdgeSystem

variable {V E K : Type*} (S : EdgeSystem V E K)

/-- The row an edge into `v` reads: the settled one, else the family's, else nothing. -/
def row (P : V → Set K) (v : V) : Set K := (S.settled v).getD {k | S.active v ∧ k ∈ P v}

/-- What the equations make of a family. -/
def rhs (P : V → Set K) (v : V) : Set K :=
  {k | S.active v ∧
    (k ∈ S.base v ∨ ∃ e ∈ S.out v, ∃ k' ∈ S.row P (S.target e), S.transfer v e k' = k)}

variable {S}

theorem row_mono {P Q : V → Set K} (h : P ≤ Q) (v : V) : S.row P v ⊆ S.row Q v := by
  unfold row
  cases S.settled v with
  | none => exact fun k hk => ⟨hk.1, h v hk.2⟩
  | some R => exact subset_rfl

theorem row_of_active {P : V → Set K} {v : V} (hv : S.active v) (h : S.settled v = none) :
    S.row P v = P v := by
  simp [row, h, hv]

theorem row_of_not_active {P : V → Set K} {v : V} (hv : ¬ S.active v) (h : S.settled v = none) :
    S.row P v = ∅ := by
  simp [row, h, hv]

theorem row_of_settled {P : V → Set K} {v : V} {R : Set K} (h : S.settled v = some R) :
    S.row P v = R := by
  simp [row, h]

theorem rhs_mono : Monotone S.rhs := by
  rintro P Q h v k ⟨hact, hk⟩
  refine ⟨hact, hk.imp_right ?_⟩
  rintro ⟨e, he, k', hk', htr⟩
  exact ⟨e, he, k', row_mono h _ hk', htr⟩

variable (S)

/-- The equations as a monotone operator. -/
def operator : (V → Set K) →o (V → Set K) := ⟨S.rhs, rhs_mono⟩

/-- The least solution. -/
def solution : V → Set K := S.operator.lfp

variable {S}

theorem rhs_solution : S.rhs S.solution = S.solution := S.operator.map_lfp

theorem solution_le {P : V → Set K} (h : S.rhs P ≤ P) : S.solution ≤ P := S.operator.lfp_le h

/-- **The solution satisfies the equations.** -/
theorem solution_eq {v : V} (hv : S.active v) :
    S.solution v =
      S.base v ∪ {k | ∃ e ∈ S.out v, ∃ k' ∈ S.row S.solution (S.target e), S.transfer v e k' = k} := by
  conv_lhs => rw [← rhs_solution]
  ext k
  simp [rhs, hv]

theorem mem_solution_of_base {v : V} (hv : S.active v) {k : K} (hk : k ∈ S.base v) :
    k ∈ S.solution v := by
  rw [solution_eq hv]
  exact Or.inl hk

theorem mem_solution_of_edge {v : V} (hv : S.active v) {e : E} (he : e ∈ S.out v) {k : K}
    (hk : k ∈ S.row S.solution (S.target e)) : S.transfer v e k ∈ S.solution v := by
  rw [solution_eq hv]
  exact Or.inr ⟨e, he, k, hk, rfl⟩

/-- A family that satisfies the equations at the active nodes. -/
def Solves (S : EdgeSystem V E K) (P : V → Set K) : Prop :=
  ∀ v, S.active v →
    P v = S.base v ∪ {k | ∃ e ∈ S.out v, ∃ k' ∈ S.row P (S.target e), S.transfer v e k' = k}

/-- The least such family: it satisfies the equations, and is contained in every family that
does, at the active nodes. -/
structure IsLeastSolution (S : EdgeSystem V E K) (P : V → Set K) : Prop where
  solves : S.Solves P
  least : ∀ Q, S.Solves Q → ∀ v, S.active v → P v ⊆ Q v

/-- **A family that is the fixed point at the active nodes is the least solution.** -/
theorem isLeastSolution_of_eq {P : V → Set K} (h : ∀ v, S.active v → P v = S.solution v) :
    S.IsLeastSolution P := by
  have hrow : ∀ v, S.row P v = S.row S.solution v := by
    intro v
    unfold row
    cases S.settled v with
    | some R => rfl
    | none =>
      ext k
      exact and_congr_right fun hv => by rw [h v hv]
  refine ⟨fun v hv => ?_, fun Q hQ v hv => ?_⟩
  · rw [h v hv, solution_eq hv]
    simp only [hrow]
  · have hle : S.solution ≤ fun v => {k | S.active v ∧ k ∈ Q v} := by
      refine solution_le fun w k hk => ⟨hk.1, ?_⟩
      have hQrow : S.row (fun v => {k | S.active v ∧ k ∈ Q v}) = S.row Q := by
        funext u
        unfold row
        congr 1
        ext k
        simp
      rw [hQ w hk.1, ← hQrow]
      exact hk.2
    rw [h v hv]
    exact fun k hk => (hle v hk).2

/-- An edge from an active node into a node the system solves. -/
def Step (S : EdgeSystem V E K) (v w : V) : Prop :=
  S.active v ∧ S.active w ∧ S.settled w = none ∧ ∃ e ∈ S.out v, S.target e = w

/-- **Facts no edge changes travel along every path.** -/
theorem stable_of_path {k : K} (hk : ∀ v e, S.transfer v e k = k) {v w : V}
    (hpath : Relation.ReflTransGen S.Step v w) (hw : k ∈ S.solution w) : k ∈ S.solution v := by
  induction hpath using Relation.ReflTransGen.head_induction_on with
  | refl => exact hw
  | head hstep _ ih =>
    obtain ⟨hact, hact', hset, e, he, rfl⟩ := hstep
    have h := mem_solution_of_edge hact he (k := k) (by rw [row_of_active hact' hset]; exact ih)
    rwa [hk] at h

/-! ## The closed form of a block -/

section Block

variable (S) (M : Set V) (stable : Set K)

/-- The facts edges may change that reach a node of the block, link by link. -/
inductive Unstable : V → K → Prop
  | base {v : V} {k : K} : v ∈ M → k ∈ S.base v → k ∉ stable → Unstable v k
  | outer {v : V} {e : E} {k : K} : v ∈ M → e ∈ S.out v → S.target e ∉ M →
      k ∈ S.row S.solution (S.target e) → k ∉ stable → S.transfer v e k ∉ stable →
      Unstable v (S.transfer v e k)
  | inner {v : V} {e : E} {k : K} : v ∈ M → e ∈ S.out v → S.target e ∈ M →
      Unstable (S.target e) k → S.transfer v e k ∉ stable → Unstable v (S.transfer v e k)

/-- The facts no edge changes that some node of the block comes by: its own, those of a target
outside, and what becomes of the others. -/
inductive Shared : K → Prop
  | base {v : V} {k : K} : v ∈ M → k ∈ S.base v → k ∈ stable → Shared k
  | outer {v : V} {e : E} {k : K} : v ∈ M → e ∈ S.out v → S.target e ∉ M →
      k ∈ S.row S.solution (S.target e) → k ∈ stable → Shared k
  | outerTurned {v : V} {e : E} {k : K} : v ∈ M → e ∈ S.out v → S.target e ∉ M →
      k ∈ S.row S.solution (S.target e) → k ∉ stable → S.transfer v e k ∈ stable →
      Shared (S.transfer v e k)
  | innerTurned {v : V} {e : E} {k : K} : v ∈ M → e ∈ S.out v → S.target e ∈ M →
      Unstable S M stable (S.target e) k → S.transfer v e k ∈ stable → Shared (S.transfer v e k)

variable {S M stable}

theorem Unstable.not_stable {v : V} {k : K} (h : Unstable S M stable v k) : k ∉ stable := by
  cases h <;> assumption

theorem Shared.mem_stable {k : K} (h : Shared S M stable k) : k ∈ stable := by
  cases h <;> assumption

theorem Unstable.mem_solution (hact : ∀ v ∈ M, S.active v) (hset : ∀ v ∈ M, S.settled v = none)
    {v : V} {k : K} (h : Unstable S M stable v k) : k ∈ S.solution v := by
  induction h with
  | base hv hk => exact mem_solution_of_base (hact _ hv) hk
  | outer hv he _ hk => exact mem_solution_of_edge (hact _ hv) he hk
  | inner hv he hin _ _ ih =>
    exact mem_solution_of_edge (hact _ hv) he (by rw [row_of_active (hact _ hin) (hset _ hin)]; exact ih)

theorem Shared.mem_solution (hact : ∀ v ∈ M, S.active v) (hset : ∀ v ∈ M, S.settled v = none)
    (hstable : ∀ k ∈ stable, ∀ v e, S.transfer v e k = k)
    (hconn : ∀ v ∈ M, ∀ w ∈ M, Relation.ReflTransGen S.Step v w)
    {k : K} (h : Shared S M stable k) {v : V} (hv : v ∈ M) : k ∈ S.solution v := by
  have hspread : ∀ w ∈ M, k ∈ S.solution w → k ∈ S.solution v := fun w hw hkw =>
    stable_of_path (hstable k h.mem_stable) (hconn v hv w hw) hkw
  cases h with
  | base hw hk => exact hspread _ hw (mem_solution_of_base (hact _ hw) hk)
  | @outer w e _ hw he _ hk hst =>
    have hmem := mem_solution_of_edge (hact _ hw) he hk
    rw [hstable k hst] at hmem
    exact hspread _ hw hmem
  | outerTurned hw he _ hk => exact hspread _ hw (mem_solution_of_edge (hact _ hw) he hk)
  | innerTurned hw he hin hk =>
    refine hspread _ hw (mem_solution_of_edge (hact _ hw) he ?_)
    rw [row_of_active (hact _ hin) (hset _ hin)]
    exact hk.mem_solution hact hset

/-- **The closed form of a strongly connected block.**  At every node of the block the solution
is the block's shared facts and the node's own unstable ones. -/
theorem block_eq (hact : ∀ v ∈ M, S.active v) (hset : ∀ v ∈ M, S.settled v = none)
    (hstable : ∀ k ∈ stable, ∀ v e, S.transfer v e k = k)
    (hconn : ∀ v ∈ M, ∀ w ∈ M, Relation.ReflTransGen S.Step v w) {v : V} (hv : v ∈ M) :
    S.solution v = {k | Shared S M stable k} ∪ {k | Unstable S M stable v k} := by
  classical
  -- the closed form on the block, the solution elsewhere
  let P : V → Set K := fun w =>
    if w ∈ M then {k | Shared S M stable k} ∪ {k | Unstable S M stable w k} else S.solution w
  have hP : ∀ w ∈ M, P w = {k | Shared S M stable k} ∪ {k | Unstable S M stable w k} :=
    fun w hw => if_pos hw
  have hP' : ∀ w, w ∉ M → P w = S.solution w := fun w hw => if_neg hw
  have hle : P ≤ S.solution := by
    intro w k hk
    by_cases hw : w ∈ M
    · rw [hP w hw] at hk
      rcases hk with hk | hk
      · exact Shared.mem_solution hact hset hstable hconn hk hw
      · exact Unstable.mem_solution hact hset hk
    · rwa [hP' w hw] at hk
  have hge : S.solution ≤ P := by
    refine solution_le fun w k hk => ?_
    by_cases hw : w ∈ M
    · obtain ⟨-, hk⟩ := hk
      rw [hP w hw]
      rcases hk with hk | ⟨e, he, k', hk', rfl⟩
      · by_cases hst : k ∈ stable
        · exact Or.inl (.base hw hk hst)
        · exact Or.inr (.base hw hk hst)
      · by_cases hin : S.target e ∈ M
        · rw [row_of_active (hact _ hin) (hset _ hin), hP _ hin] at hk'
          rcases hk' with hk' | hk'
          · rw [hstable k' hk'.mem_stable]
            exact Or.inl hk'
          · by_cases hst : S.transfer w e k' ∈ stable
            · exact Or.inl (.innerTurned hw he hin hk' hst)
            · exact Or.inr (.inner hw he hin hk' hst)
        · have hout : k' ∈ S.row S.solution (S.target e) := row_mono hle _ hk'
          by_cases hst' : k' ∈ stable
          · rw [hstable k' hst']
            exact Or.inl (.outer hw he hin hout hst')
          · by_cases hst : S.transfer w e k' ∈ stable
            · exact Or.inl (.outerTurned hw he hin hout hst' hst)
            · exact Or.inr (.outer hw he hin hout hst' hst)
    · rw [hP' w hw, ← rhs_solution]
      exact rhs_mono hle w hk
  rw [← hP v hv]
  exact Set.Subset.antisymm (hge v) (hle v)

end Block

end EdgeSystem
