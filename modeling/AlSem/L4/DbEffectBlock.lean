/-
# Solving one component

The per-edge effect equations (`effectSystem`), and what the solver does on one effective
component whose outward targets are solved: parameter-dependent reachability finds the facts the
edges may change, link by link (`EdgeSystem.Unstable`), the closed-form union collects the shared
ones (`EdgeSystem.Shared`), and the rows recorded hold the solution of the equations
(`solveOneEffectiveScc_spec`).
-/
import AlSem.Lib.EdgeSystem
import AlSem.L4.DbEffectRows
import Mathlib.Data.Finset.Prod

namespace AlSem.L4

open AlSem.Model EdgeSystem

/-! ## 1. The equations -/

/-- A routine's own effects. -/
def SolverInput.ownEffects (ctx : SolverInput) (m : String) : Set EffectIdentity :=
  {k | ∃ s, ctx.ownSummary m = some s ∧ ∃ d ∈ s.dbEffects, d.identity = k}

/-- The temp-state transfer of one edge: the identity on known and unknown, substitution on a
parameter. -/
def transferEffect (ctx : SolverInput) (m : String) (e : CombinedEdge) (k : EffectIdentity) :
    EffectIdentity :=
  match k.temp, ctx.routinesById m with
  | .parameterDependent j, some routine =>
    effectOf k.base (substitutePdTempState e j routine (ctx.routinesById e.to)).toKind
  | _, _ => k

/-- The per-edge effect equations over the recomputed routines; a fixed leaf has its settled
row. -/
def effectSystem (ctx : SolverInput) (isRecomputed : String → Bool)
    (leafRow : String → Option (Set EffectIdentity)) :
    EdgeSystem String CombinedEdge EffectIdentity where
  active m := isRecomputed m = true
  base := ctx.ownEffects
  out := ctx.graph.outEdges
  target := CombinedEdge.to
  transfer := transferEffect ctx
  settled := leafRow

theorem transferEffect_terminal (ctx : SolverInput) {k : EffectIdentity} (hk : k ∈ terminalEffects)
    (m : String) (e : CombinedEdge) : transferEffect ctx m e k = k := by
  unfold transferEffect
  split
  · rename_i j _ hj _
    exact absurd hj (hk j)
  · rfl

theorem transferEffect_pd {ctx : SolverInput} {m : String} {routine : ModelRoutine}
    (hr : ctx.routinesById m = some routine) (e : CombinedEdge) (base : BaseId) (j : ℕ) :
    transferEffect ctx m e (effectOf base (.parameterDependent j)) =
      effectOf base (substitutePdTempState e j routine (ctx.routinesById e.to)).toKind := by
  simp [transferEffect, effectOf, EffectIdentity.base, hr]

variable {ctx : SolverInput} {isRecomputed : String → Bool}
  {leafRow : String → Option (Set EffectIdentity)} {members : List String} {s : SolveState}

/-! ## 2. What is offered -/

section Offers

variable {o : PdState ⊕ TerminalEmission}

theorem mem_applyPdTransition {interner : RoutineInterner} {ix : ℕ} {r : String}
    (hr : interner.name ix = some r) {base : BaseId} {outcome : TempState} :
    o ∈ applyPdTransition interner ix base outcome ↔
      (∃ j, outcome = .parameterDependent j ∧ o = .inl (ix, base, j)) ∨
        effectOf base outcome.toKind ∈ terminalEffects ∧ o = .inr ⟨r, base, outcome.toKind⟩ := by
  cases outcome with
  | parameterDependent j =>
    have hnot : effectOf base (TempState.parameterDependent j).toKind ∉ terminalEffects :=
      not_terminal_of_pd
    simp [applyPdTransition, hnot]
  | known v =>
    have hin : effectOf base (TempState.known v).toKind ∈ terminalEffects :=
      mem_terminalEffects_of_known
    rw [and_iff_right hin]
    simp [applyPdTransition, hr, TempState.toKind]
  | unknown =>
    have hin : effectOf base TempState.unknown.toKind ∈ terminalEffects :=
      mem_terminalEffects_of_unknown
    rw [and_iff_right hin]
    simp [applyPdTransition, hr, TempState.toKind]

theorem mem_ownPdSeeds {m : String} : o ∈ ownPdSeeds ctx m ↔
    ∃ own ix e i, ctx.ownSummary m = some own ∧ ctx.interner.get m = some ix ∧
      e ∈ own.dbEffects ∧ e.tempState = .parameterDependent i ∧
      o = .inl (ix, e.identity.base, i) := by
  unfold ownPdSeeds
  cases hown : ctx.ownSummary m with
  | none => simp
  | some own =>
    cases hix : ctx.interner.get m with
    | none => simp
    | some ix =>
      simp only [List.mem_filterMap, Option.some.injEq]
      constructor
      · rintro ⟨e, he, heq⟩
        cases ht : e.tempState with
        | parameterDependent i =>
          rw [ht] at heq
          exact ⟨own, ix, e, i, rfl, rfl, he, ht, (Option.some.inj heq).symm⟩
        | known v => simp [ht] at heq
        | unknown => simp [ht] at heq
      · rintro ⟨own', ix', e, i, rfl, rfl, he, ht, rfl⟩
        exact ⟨e, he, by rw [ht]; rfl⟩

theorem mem_settledPdSeeds {m : String} : o ∈ settledPdSeeds ctx members s.bundle s.effects m ↔
    ∃ r ix e toIx id k j, ctx.routinesById m = some r ∧ ctx.interner.get m = some ix ∧
      e ∈ ctx.graph.outEdges m ∧ e.to ∉ members ∧ ctx.interner.get e.to = some toIx ∧
      s.bundle.hasRow toIx = true ∧ id ∈ s.bundle.pdIds toIx ∧ s.effects.value id = some k ∧
      k.temp = .parameterDependent j ∧
      o ∈ applyPdTransition ctx.interner ix k.base
        (substitutePdTempState e j r (ctx.routinesById e.to)) := by
  unfold settledPdSeeds
  cases hr : ctx.routinesById m with
  | none => simp
  | some r =>
    cases hix : ctx.interner.get m with
    | none => simp
    | some ix =>
      simp only [List.mem_flatMap, outerEdges, List.mem_filter]
      constructor
      · rintro ⟨e, ⟨he, hout⟩, ho⟩
        cases hto : ctx.interner.get e.to with
        | none => simp [hto] at ho
        | some toIx =>
          simp only [hto] at ho
          split at ho
          · rename_i hrow
            obtain ⟨id, hid, ho⟩ := List.mem_flatMap.mp ho
            unfold substituteSettled at ho
            cases hk : s.effects.identity id with
            | none => simp [hk] at ho
            | some k =>
              simp only [hk] at ho
              cases ht : k.temp with
              | parameterDependent j =>
                simp only [ht] at ho
                exact ⟨r, ix, e, toIx, id, k, j, rfl, rfl, he, by simpa using hout, hto, hrow, hid,
                  hk, ht, ho⟩
              | known v => simp [ht] at ho
              | unknown => simp [ht] at ho
          · simp at ho
      · rintro ⟨r', ix', e, toIx, id, k, j, hr', hix', he, hout, hto, hrow, hid, hk, ht, ho⟩
        obtain rfl := Option.some.inj hr'
        obtain rfl := Option.some.inj hix'
        refine ⟨e, ⟨he, by simpa using hout⟩, ?_⟩
        simp only [hto, hrow, if_true]
        refine List.mem_flatMap.mpr ⟨id, hid, ?_⟩
        unfold substituteSettled
        simp only [GrowingEffectUniverse.identity, hk, ht]
        exact ho

theorem mem_expandPd {w : String} {ix idx : ℕ} {base : BaseId}
    (hw : ctx.interner.get w = some ix) : o ∈ expandPd ctx members (ix, base, idx) ↔
    ∃ v e r vIx, v ∈ members ∧ e ∈ ctx.graph.outEdges v ∧ e.to ∈ members ∧ e.to = w ∧
      ctx.routinesById v = some r ∧ ctx.interner.get v = some vIx ∧
      o ∈ applyPdTransition ctx.interner vIx base
        (substitutePdTempState e idx r (ctx.routinesById e.to)) := by
  have hname : ctx.interner.name ix = some w := Interner.get_eq_some.mp hw
  unfold expandPd callersOf
  simp only [hname, List.mem_flatMap, List.mem_map, List.mem_filter, Bool.and_eq_true,
    List.contains_iff_mem, decide_eq_true_eq]
  constructor
  · rintro ⟨c, ⟨v, hv, e, ⟨he, hin, hew⟩, rfl⟩, ho⟩
    dsimp only at ho
    split at ho
    · rename_i r vIx hr hix
      exact ⟨v, e, r, vIx, hv, he, hin, hew, hr, hix, ho⟩
    · simp at ho
  · rintro ⟨v, e, r, vIx, hv, he, hin, hew, hr, hix, ho⟩
    refine ⟨(v, e), ⟨v, hv, e, ⟨he, hin, hew⟩, rfl⟩, ?_⟩
    simp only [hr, hix]
    exact ho

/-- What a transition over an edge offers, read as a fact at the caller. -/
theorem mem_transition {m : String} {e : CombinedEdge} {r : ModelRoutine}
    {ix : ℕ} (hr : ctx.routinesById m = some r) (hix : ctx.interner.get m = some ix) {base : BaseId}
    {j : ℕ} :
    o ∈ applyPdTransition ctx.interner ix base
        (substitutePdTempState e j r (ctx.routinesById e.to)) ↔
      (∃ i, transferEffect ctx m e (effectOf base (.parameterDependent j)) =
          effectOf base (.parameterDependent i) ∧ o = .inl (ix, base, i)) ∨
        ∃ t, transferEffect ctx m e (effectOf base (.parameterDependent j)) = effectOf base t ∧
          effectOf base t ∈ terminalEffects ∧ o = .inr ⟨m, base, t⟩ := by
  have htemp : ∀ t t' : TempStateKind, effectOf base t = effectOf base t' ↔ t = t' := fun t t' =>
    ⟨fun heq => congrArg EffectIdentity.temp heq, fun heq => by rw [heq]⟩
  rw [mem_applyPdTransition (Interner.get_eq_some.mp hix), transferEffect_pd hr]
  simp only [htemp]
  constructor
  · rintro (⟨i, hi, rfl⟩ | ⟨hterm, rfl⟩)
    · exact Or.inl ⟨i, by rw [hi]; rfl, rfl⟩
    · exact Or.inr ⟨_, rfl, hterm, rfl⟩
  · rintro (⟨i, hi, rfl⟩ | ⟨t, ht, hterm, rfl⟩)
    · exact Or.inl ⟨i, TempState.toKind_injective hi, rfl⟩
    · subst ht
      exact Or.inr ⟨hterm, rfl⟩

/-- A seed's product state stands at a member. -/
theorem member_of_seed {st : PdState}
    (hst : Sum.inl st ∈ pdSeeds ctx members s.bundle s.effects) :
    ∃ m ∈ members, ctx.interner.get m = some st.1 := by
  rcases List.mem_append.mp hst with hst | hst
  · obtain ⟨m, hm, ho⟩ := List.mem_flatMap.mp hst
    obtain ⟨own, ix, e, i, -, hix, -, -, heq⟩ := mem_ownPdSeeds.mp ho
    obtain rfl := Sum.inl.inj heq
    exact ⟨m, hm, hix⟩
  · obtain ⟨m, hm, ho⟩ := List.mem_flatMap.mp hst
    obtain ⟨r, ix, e, toIx, id, k, j, -, hix, -, -, -, -, -, -, -, ho⟩ := mem_settledPdSeeds.mp ho
    rcases (mem_applyPdTransition (Interner.get_eq_some.mp hix)).mp ho with ⟨i, -, heq⟩ | ⟨-, heq⟩
    · obtain rfl := Sum.inl.inj heq
      exact ⟨m, hm, hix⟩
    · cases heq

/-- **The worklist ends**, having derived and emitted what the seeds derive and emit. -/
theorem pdWorklist_solved (ctx : SolverInput) (members : List String) (s : SolveState) :
    ∃ w, Worklist.solve (expandPd ctx members)
        (pdFuel ctx members (pdSeeds ctx members s.bundle s.effects))
        (pdSeeds ctx members s.bundle s.effects) = some w ∧
      (∀ st, st ∈ w.visited ↔
        Worklist.Derivable (expandPd ctx members) (pdSeeds ctx members s.bundle s.effects) st) ∧
      ∀ t, t ∈ w.out ↔
        Worklist.Emitted (expandPd ctx members) (pdSeeds ctx members s.bundle s.effects) t := by
  set seeds := pdSeeds ctx members s.bundle s.effects with hseeds
  -- the product states stay among the members, the seeds' bases and the members' parameters
  let U : Finset PdState := (members.filterMap ctx.interner.get).toFinset ×ˢ
    (((offeredStates seeds).map fun st => st.2.1).toFinset ×ˢ (pdIndices ctx members seeds).toFinset)
  have hcard : U.card < pdFuel ctx members seeds := by
    have h₁ : (members.filterMap ctx.interner.get).toFinset.card ≤ members.length :=
      (List.toFinset_card_le _).trans (List.length_filterMap_le _ _)
    have h₂ : ((offeredStates seeds).map fun st => st.2.1).toFinset.card ≤
        (offeredStates seeds).length :=
      (List.toFinset_card_le _).trans (by simp)
    have h₃ : (pdIndices ctx members seeds).toFinset.card ≤ (pdIndices ctx members seeds).length :=
      List.toFinset_card_le _
    rw [Finset.card_product, Finset.card_product]
    exact Nat.lt_succ_of_le (Nat.mul_le_mul h₁ (Nat.mul_le_mul h₂ h₃))
  have hseedU : ∀ st, Sum.inl st ∈ seeds → st ∈ U := by
    intro st hst
    obtain ⟨m, hm, hmix⟩ := member_of_seed hst
    have hoff : st ∈ offeredStates seeds := List.mem_filterMap.mpr ⟨_, hst, rfl⟩
    simp only [U, Finset.mem_product, List.mem_toFinset]
    exact ⟨List.mem_filterMap.mpr ⟨m, hm, hmix⟩, List.mem_map.mpr ⟨st, hoff, rfl⟩,
      List.mem_append_left _ (List.mem_map.mpr ⟨st, hoff, rfl⟩)⟩
  have hexpU : ∀ st ∈ U, ∀ st', Sum.inl st' ∈ expandPd ctx members st → st' ∈ U := by
    rintro ⟨ix, base, j⟩ hst st' hexp
    simp only [U, Finset.mem_product, List.mem_toFinset] at hst ⊢
    obtain ⟨w, hw, hwix⟩ := List.mem_filterMap.mp hst.1
    obtain ⟨v, e, r, vIx, hv, -, -, -, hr, hix, ho⟩ := (mem_expandPd hwix).mp hexp
    rcases (mem_applyPdTransition (Interner.get_eq_some.mp hix)).mp ho with ⟨i, hi, heq⟩ | ⟨-, heq⟩
    · obtain rfl := Sum.inl.inj heq
      refine ⟨List.mem_filterMap.mpr ⟨v, hv, hix⟩, hst.2.1, List.mem_append_right _ ?_⟩
      exact List.mem_flatMap.mpr ⟨v, hv, by rw [hr]; exact substitutePdTempState_mem hi⟩
    · simp at heq
  obtain ⟨w, hw, -, hvis, hout⟩ := Worklist.solve_spec U hseedU hexpU hcard
  exact ⟨w, hw, hvis, hout⟩

/-- What the worklist emits does not depend on a parameter. -/
theorem terminal_of_emitted {t : TerminalEmission}
    (he : Worklist.Emitted (expandPd ctx members) (pdSeeds ctx members s.bundle s.effects) t) :
    effectOf t.base t.temp ∈ terminalEffects := by
  have hmember : ∀ {st : PdState}, Worklist.Derivable (expandPd ctx members)
      (pdSeeds ctx members s.bundle s.effects) st → ∃ m ∈ members, ctx.interner.get m = some st.1 := by
    intro st hd
    induction hd with
    | seed hst => exact member_of_seed hst
    | @step st st' _ hexp ih =>
      obtain ⟨w, hw, hwix⟩ := ih
      obtain ⟨ix, base, j⟩ := st
      obtain ⟨v, e, r, vIx, hv, -, -, -, -, hix, ho⟩ := (mem_expandPd hwix).mp hexp
      rcases (mem_applyPdTransition (Interner.get_eq_some.mp hix)).mp ho with ⟨i, -, heq⟩ | ⟨-, heq⟩
      · obtain rfl := Sum.inl.inj heq
        exact ⟨v, hv, hix⟩
      · cases heq
  rcases he with hseed | ⟨⟨ix, base, j⟩, hst, hexp⟩
  · rcases List.mem_append.mp hseed with hseed | hseed
    · obtain ⟨m, hm, ho⟩ := List.mem_flatMap.mp hseed
      obtain ⟨own, ix, e, i, -, -, -, -, heq⟩ := mem_ownPdSeeds.mp ho
      cases heq
    · obtain ⟨m, hm, ho⟩ := List.mem_flatMap.mp hseed
      obtain ⟨r, ix, e, toIx, id, k, j, -, hix, -, -, -, -, -, -, -, ho⟩ := mem_settledPdSeeds.mp ho
      rcases (mem_applyPdTransition (Interner.get_eq_some.mp hix)).mp ho with ⟨i, -, heq⟩ | ⟨ht, heq⟩
      · cases heq
      · obtain rfl := Sum.inr.inj heq
        exact ht
  · obtain ⟨w, hw, hwix⟩ := hmember hst
    obtain ⟨v, e, r, vIx, hv, -, -, -, -, hix, ho⟩ := (mem_expandPd hwix).mp hexp
    rcases (mem_applyPdTransition (Interner.get_eq_some.mp hix)).mp ho with ⟨i, -, heq⟩ | ⟨ht, heq⟩
    · cases heq
    · obtain rfl := Sum.inr.inj heq
      exact ht

end Offers

/-! ## 3. A component ready to be solved -/

/-- What an edge target outside the component has: its row, or nothing at all. -/
def TargetReady (ctx : SolverInput) (S : EdgeSystem String CombinedEdge EffectIdentity)
    (s : SolveState) (c : String) : Prop :=
  (∃ ix, ctx.interner.get c = some ix ∧ RowHolds s ix (S.row S.solution c)) ∨
    S.row S.solution c = ∅ ∧ ∀ ix, ctx.interner.get c = some ix → s.bundle.hasRow ix = false

/-- An effective component whose outward targets are solved. -/
structure BlockReady (ctx : SolverInput) (isRecomputed : String → Bool)
    (leafRow : String → Option (Set EffectIdentity)) (members : List String) (s : SolveState) :
    Prop where
  nodup : members.Nodup
  active : ∀ m ∈ members, isRecomputed m = true
  routine : ∀ m ∈ members, ∃ r, ctx.routinesById m = some r
  interned : ∀ m ∈ members, ∃ ix, ctx.interner.get m = some ix
  unsettled : ∀ m ∈ members, leafRow m = none
  base : ∀ m ∈ members, ∀ b, ctx.baseSummaries m = some b →
    ∃ own, ctx.ownSummary m = some own ∧ b.dbEffects = own.dbEffects
  connected : ∀ v ∈ members, ∀ w ∈ members,
    Relation.ReflTransGen (effectSystem ctx isRecomputed leafRow).Step v w
  outer : ∀ m ∈ members, ∀ e ∈ ctx.graph.outEdges m, e.to ∉ members →
    TargetReady ctx (effectSystem ctx isRecomputed leafRow) s e.to

/-- The facts of a block's members that edges may change. -/
abbrev UnstableOf (ctx : SolverInput) (isRecomputed : String → Bool)
    (leafRow : String → Option (Set EffectIdentity)) (members : List String) :=
  Unstable (effectSystem ctx isRecomputed leafRow) {m | m ∈ members} terminalEffects

/-- The facts a block's members share. -/
abbrev SharedOf (ctx : SolverInput) (isRecomputed : String → Bool)
    (leafRow : String → Option (Set EffectIdentity)) (members : List String) :=
  Shared (effectSystem ctx isRecomputed leafRow) {m | m ∈ members} terminalEffects

/-- **The closed form of the equations on a component.** -/
theorem BlockReady.solution_eq (h : BlockReady ctx isRecomputed leafRow members s) {m : String}
    (hm : m ∈ members) :
    (effectSystem ctx isRecomputed leafRow).solution m =
      {k | SharedOf ctx isRecomputed leafRow members k} ∪
        {k | UnstableOf ctx isRecomputed leafRow members m k} :=
  block_eq (S := effectSystem ctx isRecomputed leafRow) (M := {m | m ∈ members}) h.active
    h.unsettled (fun _ hk v e => transferEffect_terminal ctx hk v e) h.connected hm

/-! ## 4. Reachability -/

section Reachability

variable (h : BlockReady ctx isRecomputed leafRow members s)
include h

/-- The routine of a member, and the member of its solve index. -/
theorem BlockReady.member_ix {m : String} (hm : m ∈ members) :
    ∃ r ix, ctx.routinesById m = some r ∧ ctx.interner.get m = some ix ∧
      ctx.interner.name ix = some m := by
  obtain ⟨r, hr⟩ := h.routine m hm
  obtain ⟨ix, hix⟩ := h.interned m hm
  exact ⟨r, ix, hr, hix, Interner.get_eq_some.mp hix⟩

/-- The row of a target outside the component, read back from its parameter-dependent ids. -/
theorem BlockReady.outer_pd {m : String} (hm : m ∈ members) {e : CombinedEdge}
    (he : e ∈ ctx.graph.outEdges m) (hout : e.to ∉ members) {k : EffectIdentity} :
    (k ∈ (effectSystem ctx isRecomputed leafRow).row
        (effectSystem ctx isRecomputed leafRow).solution e.to ∧ k ∉ terminalEffects) ↔
      ∃ toIx id, ctx.interner.get e.to = some toIx ∧ s.bundle.hasRow toIx = true ∧
        id ∈ s.bundle.pdIds toIx ∧ s.effects.value id = some k := by
  rcases h.outer m hm e he hout with ⟨toIx, hto, hrow⟩ | ⟨hempty, hnorow⟩
  · constructor
    · rintro ⟨hk, hnt⟩
      obtain ⟨id, hid, hv⟩ := hrow.pd.complete k ⟨hk, hnt⟩
      exact ⟨toIx, id, hto, hrow.hasRow, hid, hv⟩
    · rintro ⟨toIx', id, hto', -, hid, hv⟩
      rw [hto] at hto'
      obtain rfl := Option.some.inj hto'
      exact hrow.pd.mem_of_value hid hv
  · constructor
    · rintro ⟨hk, -⟩
      rw [hempty] at hk
      exact absurd hk (by simp)
    · rintro ⟨toIx, id, hto, hr, -⟩
      rw [hnorow toIx hto] at hr
      exact absurd hr (by simp)

/-- **Every product state reached is a fact of the equations** at a member. -/
theorem BlockReady.unstable_of_derivable {st : PdState}
    (hd : Worklist.Derivable (expandPd ctx members) (pdSeeds ctx members s.bundle s.effects) st) :
    ∃ m ∈ members, ctx.interner.get m = some st.1 ∧
      UnstableOf ctx isRecomputed leafRow members m (effectOf st.2.1 (.parameterDependent st.2.2)) := by
  induction hd with
  | @seed st hseed =>
    rcases List.mem_append.mp hseed with hseed | hseed
    · obtain ⟨m, hm, ho⟩ := List.mem_flatMap.mp hseed
      obtain ⟨own, ix, e, i, hown, hix, he, ht, heq⟩ := mem_ownPdSeeds.mp ho
      obtain rfl := Sum.inl.inj heq
      refine ⟨m, hm, hix, .base hm ⟨own, hown, e, he, ?_⟩ not_terminal_of_pd⟩
      simp [DbEffect.identity, effectOf, EffectIdentity.base, ht, TempState.toKind]
    · obtain ⟨m, hm, ho⟩ := List.mem_flatMap.mp hseed
      obtain ⟨r, ix, e, toIx, id, k, j, hr, hix, he, hout, hto, hrow, hid, hv, ht, ho⟩ :=
        mem_settledPdSeeds.mp ho
      have hk : k = effectOf k.base (.parameterDependent j) := by rw [← ht]; rfl
      obtain ⟨hkrow, hnt⟩ := (h.outer_pd hm he hout).mpr ⟨toIx, id, hto, hrow, hid, hv⟩
      rcases (mem_transition hr hix).mp ho with ⟨i, htr, heq⟩ | ⟨t, -, -, heq⟩
      · obtain rfl := Sum.inl.inj heq
        rw [← hk] at htr
        refine ⟨m, hm, hix, ?_⟩
        dsimp only
        rw [← htr]
        exact .outer hm he hout hkrow hnt (by
          show transferEffect ctx m e k ∉ terminalEffects
          rw [htr]; exact not_terminal_of_pd)
      · simp at heq
  | @step st st' _ hexp ih =>
    obtain ⟨w, hw, hwix, hun⟩ := ih
    obtain ⟨ix, base, j⟩ := st
    obtain ⟨v, e, r, vIx, hv, he, hin, rfl, hr, hix, ho⟩ := (mem_expandPd hwix).mp hexp
    rcases (mem_transition hr hix).mp ho with ⟨i, htr, heq⟩ | ⟨t, -, -, heq⟩
    · obtain rfl := Sum.inl.inj heq
      refine ⟨v, hv, hix, ?_⟩
      dsimp only
      rw [← htr]
      exact .inner hv he hin hun (by
        show transferEffect ctx v e _ ∉ terminalEffects
        rw [htr]; exact not_terminal_of_pd)
    · simp at heq

/-- **Every such fact is reached.** -/
theorem BlockReady.derivable_of_unstable {m : String} {k : EffectIdentity}
    (hun : UnstableOf ctx isRecomputed leafRow members m k) {ix : ℕ}
    (hix : ctx.interner.get m = some ix) {base : BaseId} {i : ℕ}
    (hk : k = effectOf base (.parameterDependent i)) :
    Worklist.Derivable (expandPd ctx members) (pdSeeds ctx members s.bundle s.effects)
      (ix, base, i) := by
  induction hun generalizing ix base i with
  | @base v k hv hb _ =>
    obtain ⟨own, hown, d, hd, rfl⟩ := hb
    refine .seed (List.mem_append_left _ (List.mem_flatMap.mpr ⟨v, hv, mem_ownPdSeeds.mpr ?_⟩))
    refine ⟨own, ix, d, i, hown, hix, hd, TempState.toKind_injective ?_, ?_⟩
    · exact congrArg EffectIdentity.temp hk
    · rw [hk]; rfl
  | @outer v e k' hv he hout hrow hnt _ =>
    obtain ⟨r, ix', hr, hix', -⟩ := h.member_ix hv
    rw [hix] at hix'
    obtain rfl := Option.some.inj hix'
    obtain ⟨j, hj⟩ := exists_index_of_not_terminal hnt
    obtain ⟨toIx, id, hto, hhas, hid, hval⟩ := (h.outer_pd hv he hout).mp ⟨hrow, hnt⟩
    refine .seed (List.mem_append_right _ (List.mem_flatMap.mpr ⟨v, hv, mem_settledPdSeeds.mpr ?_⟩))
    have hbase : k'.base = base := by
      have hb : (transferEffect ctx v e k').base = k'.base := by
        rw [hj, transferEffect_pd hr]; rfl
      rw [← hb]
      exact (congrArg EffectIdentity.base hk).trans rfl
    refine ⟨r, ix, e, toIx, id, k', j, hr, hix, he, hout, hto, hhas, hid, hval, by rw [hj]; rfl, ?_⟩
    rw [hbase] at hj ⊢
    exact (mem_transition hr hix).mpr (Or.inl ⟨i, by rw [← hj]; exact hk, rfl⟩)
  | @inner v e k' hv he hin hun _ ih =>
    obtain ⟨r, ix', hr, hix', -⟩ := h.member_ix hv
    rw [hix] at hix'
    obtain rfl := Option.some.inj hix'
    obtain ⟨-, wIx, -, hwix, -⟩ := h.member_ix hin
    obtain ⟨j, hj⟩ := exists_index_of_not_terminal hun.not_stable
    have hbase : k'.base = base := by
      have hb : (transferEffect ctx v e k').base = k'.base := by
        rw [hj, transferEffect_pd hr]; rfl
      rw [← hb]
      exact (congrArg EffectIdentity.base hk).trans rfl
    refine .step (ih hwix hj) ((mem_expandPd hwix).mpr ⟨v, e, r, ix, hv, he, hin, rfl, hr, hix, ?_⟩)
    rw [hbase] at hj ⊢
    exact (mem_transition hr hix).mpr (Or.inl ⟨i, by rw [← hj]; exact hk, rfl⟩)

/-- **The terminal effects emitted** are the shared facts the unstable ones turn into. -/
theorem BlockReady.shared_of_emitted {t : TerminalEmission}
    (he : Worklist.Emitted (expandPd ctx members) (pdSeeds ctx members s.bundle s.effects) t) :
    SharedOf ctx isRecomputed leafRow members (effectOf t.base t.temp) := by
  rcases he with hseed | ⟨st, hst, hexp⟩
  · rcases List.mem_append.mp hseed with hseed | hseed
    · obtain ⟨m, hm, ho⟩ := List.mem_flatMap.mp hseed
      obtain ⟨own, ix, e, i, hown, hix, he, ht, heq⟩ := mem_ownPdSeeds.mp ho
      simp at heq
    · obtain ⟨m, hm, ho⟩ := List.mem_flatMap.mp hseed
      obtain ⟨r, ix, e, toIx, id, k, j, hr, hix, he, hout, hto, hrow, hid, hv, ht, ho⟩ :=
        mem_settledPdSeeds.mp ho
      have hk : k = effectOf k.base (.parameterDependent j) := by rw [← ht]; rfl
      obtain ⟨hkrow, hnt⟩ := (h.outer_pd hm he hout).mpr ⟨toIx, id, hto, hrow, hid, hv⟩
      rcases (mem_transition hr hix).mp ho with ⟨i, -, heq⟩ | ⟨t', htr, hterm, heq⟩
      · simp at heq
      · obtain rfl := Sum.inr.inj heq
        rw [← hk] at htr
        dsimp only
        rw [← htr] at hterm ⊢
        exact .outerTurned hm he hout hkrow hnt hterm
  · obtain ⟨w, hw, hwix, hun⟩ := h.unstable_of_derivable hst
    obtain ⟨ix, base, j⟩ := st
    obtain ⟨v, e, r, vIx, hv, he, hin, rfl, hr, hix, ho⟩ := (mem_expandPd hwix).mp hexp
    rcases (mem_transition hr hix).mp ho with ⟨i, -, heq⟩ | ⟨t', htr, hterm, heq⟩
    · simp at heq
    · obtain rfl := Sum.inr.inj heq
      dsimp only
      rw [← htr] at hterm ⊢
      exact .innerTurned hv he hin hun hterm

theorem BlockReady.emitted_of_outer {v : String} {e : CombinedEdge} {k : EffectIdentity}
    (hv : v ∈ members) (he : e ∈ ctx.graph.outEdges v) (hout : e.to ∉ members)
    (hrow : k ∈ (effectSystem ctx isRecomputed leafRow).row
      (effectSystem ctx isRecomputed leafRow).solution e.to) (hnt : k ∉ terminalEffects)
    (hterm : transferEffect ctx v e k ∈ terminalEffects) :
    ∃ t, Worklist.Emitted (expandPd ctx members) (pdSeeds ctx members s.bundle s.effects) t ∧
      effectOf t.base t.temp = transferEffect ctx v e k := by
  obtain ⟨r, ix, hr, hix, -⟩ := h.member_ix hv
  obtain ⟨j, hj⟩ := exists_index_of_not_terminal hnt
  obtain ⟨toIx, id, hto, hhas, hid, hval⟩ := (h.outer_pd hv he hout).mp ⟨hrow, hnt⟩
  have htr : transferEffect ctx v e k = effectOf k.base (transferEffect ctx v e k).temp := by
    rw [hj, transferEffect_pd hr]; rfl
  refine ⟨⟨v, k.base, (transferEffect ctx v e k).temp⟩, Or.inl ?_, htr.symm⟩
  refine List.mem_append_right _ (List.mem_flatMap.mpr ⟨v, hv, mem_settledPdSeeds.mpr ?_⟩)
  refine ⟨r, ix, e, toIx, id, k, j, hr, hix, he, hout, hto, hhas, hid, hval, by rw [hj]; rfl, ?_⟩
  refine (mem_transition hr hix).mpr (Or.inr ⟨_, ?_, by rw [← htr]; exact hterm, rfl⟩)
  rw [← hj]
  exact htr

theorem BlockReady.emitted_of_inner {v : String} {e : CombinedEdge} {k : EffectIdentity}
    (hv : v ∈ members) (he : e ∈ ctx.graph.outEdges v) (hin : e.to ∈ members)
    (hun : UnstableOf ctx isRecomputed leafRow members e.to k)
    (hterm : transferEffect ctx v e k ∈ terminalEffects) :
    ∃ t, Worklist.Emitted (expandPd ctx members) (pdSeeds ctx members s.bundle s.effects) t ∧
      effectOf t.base t.temp = transferEffect ctx v e k := by
  obtain ⟨r, ix, hr, hix, -⟩ := h.member_ix hv
  obtain ⟨-, wIx, -, hwix, -⟩ := h.member_ix hin
  obtain ⟨j, hj⟩ := exists_index_of_not_terminal hun.not_stable
  have htr : transferEffect ctx v e k = effectOf k.base (transferEffect ctx v e k).temp := by
    rw [hj, transferEffect_pd hr]; rfl
  refine ⟨⟨v, k.base, (transferEffect ctx v e k).temp⟩, Or.inr ⟨(wIx, k.base, j), ?_, ?_⟩, htr.symm⟩
  · exact h.derivable_of_unstable hun hwix hj
  · refine (mem_expandPd hwix).mpr ⟨v, e, r, ix, hv, he, hin, rfl, hr, hix, ?_⟩
    refine (mem_transition hr hix).mpr (Or.inr ⟨_, ?_, by rw [← htr]; exact hterm, rfl⟩)
    rw [← hj]
    exact htr

/-- **The worklist ends, with exactly the facts and the emissions.** -/
theorem BlockReady.solvePdReachability_spec :
    ∃ facts emissions, solvePdReachability ctx members s.bundle s.effects = some (facts, emissions) ∧
      (∀ f : PdFact, f ∈ facts ↔ f.routineId ∈ members ∧
        UnstableOf ctx isRecomputed leafRow members f.routineId
          (effectOf f.base (.parameterDependent f.paramIndex))) ∧
      ∀ t, t ∈ emissions ↔
        Worklist.Emitted (expandPd ctx members) (pdSeeds ctx members s.bundle s.effects) t := by
  obtain ⟨w, hw, hvis, hout⟩ := pdWorklist_solved ctx members s
  refine ⟨(w.visited.filterMap fun st => (ctx.interner.name st.1).map fun r =>
    ⟨r, st.2.1, st.2.2⟩).mergeSort PdFact.le, w.out.mergeSort TerminalEmission.le, ?_,
    fun f => ?_, fun t => ?_⟩
  · unfold solvePdReachability
    simp only [hw, Option.map_some]
  · rw [(List.mergeSort_perm _ _).mem_iff, List.mem_filterMap]
    constructor
    · rintro ⟨st, hst, hf⟩
      obtain ⟨m, hm, hmix, hun⟩ := h.unstable_of_derivable ((hvis st).mp hst)
      have hname : ctx.interner.name st.1 = some m := Interner.get_eq_some.mp hmix
      rw [hname] at hf
      obtain rfl := Option.some.inj hf
      exact ⟨hm, hun⟩
    · rintro ⟨hm, hun⟩
      obtain ⟨-, ix, -, hix, hname⟩ := h.member_ix hm
      exact ⟨(ix, f.base, f.paramIndex), (hvis _).mpr (h.derivable_of_unstable hun hix rfl),
        by rw [hname]; rfl⟩
  · rw [(List.mergeSort_perm _ _).mem_iff]
    exact hout t

end Reachability

/-! ## 5. The closed-form union -/

/-- A member's base effects are its own effects. -/
theorem BlockReady.baseOf (h : BlockReady ctx isRecomputed leafRow members s) {m : String}
    (hm : m ∈ members) : ∃ b own, ctx.baseOf m = some b ∧ ctx.ownSummary m = some own ∧
      b.dbEffects = own.dbEffects := by
  obtain ⟨r, hr⟩ := h.routine m hm
  have hown : ctx.ownSummary m = some (baseIntraproceduralSummary ctx.toLowercase r emptyFields) := by
    simp [SolverInput.ownSummary, hr]
  unfold SolverInput.baseOf
  cases hb : ctx.baseSummaries m with
  | none => exact ⟨_, _, by rw [Option.none_or, hown], hown, rfl⟩
  | some b =>
    obtain ⟨own, hown', heq⟩ := h.base m hm b hb
    exact ⟨b, own, rfl, hown', heq⟩

/-- The effect a terminal base effect interns, none for a parameter-dependent one. -/
def terminalIdentity (e : DbEffect) : Option EffectIdentity :=
  match e.tempState with
  | .parameterDependent _ => none
  | _ => some e.identity

theorem terminalIdentity_eq_some {e : DbEffect} {k : EffectIdentity} :
    terminalIdentity e = some k ↔ e.identity = k ∧ k ∈ terminalEffects := by
  unfold terminalIdentity
  cases ht : e.tempState with
  | parameterDependent i =>
    have hnt : e.identity ∉ terminalEffects := fun hk => hk i (by simp [DbEffect.identity, ht, TempState.toKind])
    constructor
    · simp
    · rintro ⟨rfl, hk⟩
      exact absurd hk hnt
  | known v =>
    have hin : e.identity ∈ terminalEffects := fun i => by simp [DbEffect.identity, ht, TempState.toKind]
    constructor
    · intro hk
      obtain rfl := Option.some.inj hk
      exact ⟨rfl, hin⟩
    · rintro ⟨rfl, -⟩
      rfl
  | unknown =>
    have hin : e.identity ∈ terminalEffects := fun i => by simp [DbEffect.identity, ht, TempState.toKind]
    constructor
    · intro hk
      obtain rfl := Option.some.inj hk
      exact ⟨rfl, hin⟩
    · rintro ⟨rfl, -⟩
      rfl

theorem internTerminalDbEffect_eq (u : GrowingEffectUniverse × Bits) (e : DbEffect) :
    internTerminalDbEffect u e =
      match terminalIdentity e with
      | some k => internBit u k
      | none => u := by
  unfold internTerminalDbEffect terminalIdentity
  cases e.tempState <;> rfl

/-- Source 2: the shared facts the settled targets hold. -/
theorem BlockReady.orSettled_decodes (h : BlockReady ctx isRecomputed leafRow members s)
    {effects : GrowingEffectUniverse} (hle : s.effects.Le effects) :
    ∀ (l : List CombinedEdge) (bits : Bits) (X : Set EffectIdentity),
      (∀ e ∈ l, ∃ m ∈ members, e ∈ ctx.graph.outEdges m ∧ e.to ∉ members) →
      BitsDecode (effects, bits) X →
      BitsDecode (effects, l.foldl (orSettled ctx s.bundle) bits)
        (X ∪ {k | k ∈ terminalEffects ∧ ∃ e ∈ l,
          k ∈ (effectSystem ctx isRecomputed leafRow).row
            (effectSystem ctx isRecomputed leafRow).solution e.to}) := by
  intro l
  induction l with
  | nil => exact fun bits X _ hX => hX.congr (fun _ => Iff.rfl) (by simp)
  | cons e l ih =>
    intro bits X hl hX
    obtain ⟨m, hm, he, hout⟩ := hl e List.mem_cons_self
    have hstep : BitsDecode (effects, orSettled ctx s.bundle bits e)
        (X ∪ ((effectSystem ctx isRecomputed leafRow).row
          (effectSystem ctx isRecomputed leafRow).solution e.to ∩ terminalEffects)) := by
      rcases h.outer m hm e he hout with ⟨toIx, hto, hrow⟩ | ⟨hempty, hnorow⟩
      · refine (hX.union (hrow.terminal.mono hle)).congr (fun id => ?_) rfl
        simp [orSettled, hto, hrow.hasRow]
      · have hskip : orSettled ctx s.bundle bits e = bits := by
          unfold orSettled
          cases hto : ctx.interner.get e.to with
          | none => rfl
          | some toIx => simp [hnorow toIx hto]
        rw [hskip, hempty]
        exact hX.congr (fun _ => Iff.rfl) (by simp)
    refine (ih _ _ (fun e' he' => hl e' (List.mem_cons_of_mem _ he')) hstep).congr
      (fun _ => Iff.rfl) ?_
    ext k
    simp only [Set.mem_union, Set.mem_inter_iff, Set.mem_ofPred_eq, List.mem_cons, exists_eq_or_imp]
    constructor
    · rintro (hk | ⟨hterm, hrow | hrest⟩)
      · exact Or.inl (Or.inl hk)
      · exact Or.inl (Or.inr ⟨hrow, hterm⟩)
      · exact Or.inr ⟨hterm, hrest⟩
    · rintro ((hk | ⟨hrow, hterm⟩) | ⟨hterm, hrest⟩)
      · exact Or.inl hk
      · exact Or.inr ⟨hterm, Or.inl hrow⟩
      · exact Or.inr ⟨hterm, Or.inr hrest⟩

/-- **The terminal union decodes to the shared facts.** -/
theorem BlockReady.terminalUnion_decodes (h : BlockReady ctx isRecomputed leafRow members s)
    {emissions : List TerminalEmission}
    (hem : ∀ t, t ∈ emissions ↔
      Worklist.Emitted (expandPd ctx members) (pdSeeds ctx members s.bundle s.effects) t) :
    s.effects.Le (terminalUnionOf ctx members s.bundle emissions s.effects).1 ∧
      BitsDecode (terminalUnionOf ctx members s.bundle emissions s.effects)
        {k | SharedOf ctx isRecomputed leafRow members k} := by
  unfold terminalUnionOf
  obtain ⟨hle₁, hd₁⟩ := foldl_decodes _ internTerminalDbEffect_eq
    (members.flatMap fun m => ((ctx.baseOf m).map RoutineSummary.dbEffects).getD [])
    (s := (s.effects, [])) Decodes.nil
  have hd₂ := h.orSettled_decodes hle₁ (members.flatMap (outerEdges ctx members)) _ _ (fun e he => by
    obtain ⟨m, hm, he⟩ := List.mem_flatMap.mp he
    obtain ⟨he, hout⟩ := List.mem_filter.mp he
    exact ⟨m, hm, he, by simpa using hout⟩) hd₁
  obtain ⟨hle₃, hd₃⟩ := foldl_decodes
    (fun s (t : TerminalEmission) => internBit s (effectOf t.base t.temp))
    (f := fun t => some (effectOf t.base t.temp)) (fun _ _ => rfl) emissions hd₂
  refine ⟨hle₁.trans hle₃, hd₃.congr (fun _ => Iff.rfl) ?_⟩
  ext k
  simp only [Set.mem_ofPred_eq, Set.mem_union, Set.empty_union, List.mem_flatMap]
  constructor
  · intro hk
    cases hk with
    | @base v _ hv hb hterm =>
      obtain ⟨own, hown, d, hd, hid⟩ := hb
      obtain ⟨b, own', hbo, hown', heq⟩ := h.baseOf hv
      rw [hown] at hown'
      obtain rfl := Option.some.inj hown'
      refine Or.inl (Or.inl ⟨d, ⟨v, hv, ?_⟩, terminalIdentity_eq_some.mpr ⟨hid, hterm⟩⟩)
      rw [hbo, Option.map_some, Option.getD_some, heq]
      exact hd
    | @outer v e _ hv he hout hrow hterm =>
      have hout' : e.to ∉ members := hout
      refine Or.inl (Or.inr ⟨hterm, e, ⟨v, hv, List.mem_filter.mpr ⟨he, ?_⟩⟩, hrow⟩)
      simpa using hout'
    | outerTurned hv he hout hrow hnt hterm =>
      obtain ⟨t, ht, hk⟩ := h.emitted_of_outer hv he hout hrow hnt hterm
      exact Or.inr ⟨t, (hem t).mpr ht, by rw [hk]; rfl⟩
    | innerTurned hv he hin hun hterm =>
      obtain ⟨t, ht, hk⟩ := h.emitted_of_inner hv he hin hun hterm
      exact Or.inr ⟨t, (hem t).mpr ht, by rw [hk]; rfl⟩
  · rintro ((⟨d, ⟨v, hv, hd⟩, hid⟩ | ⟨hterm, e, ⟨v, hv, he⟩, hrow⟩) | ⟨t, ht, hk⟩)
    · obtain ⟨hid, hterm⟩ := terminalIdentity_eq_some.mp hid
      obtain ⟨b, own, hbo, hown, heq⟩ := h.baseOf hv
      rw [hbo, Option.map_some, Option.getD_some, heq] at hd
      exact .base hv ⟨own, hown, d, hd, hid⟩ hterm
    · obtain ⟨he, hout⟩ := List.mem_filter.mp he
      exact .outer hv he (show e.to ∉ members by simpa using hout) hrow hterm
    · rw [← Option.some.inj hk]
      exact h.shared_of_emitted ((hem t).mp ht)

/-- **Each member's own bits decode to its unstable facts.** -/
theorem BlockReady.pdByMember_decodes (h : BlockReady ctx isRecomputed leafRow members s)
    {facts : List PdFact}
    (hfacts : ∀ f : PdFact, f ∈ facts ↔ f.routineId ∈ members ∧
      UnstableOf ctx isRecomputed leafRow members f.routineId
        (effectOf f.base (.parameterDependent f.paramIndex))) :
    ∀ (l : List String) (u : GrowingEffectUniverse) (pd : ℕ → Option Bits), l ⊆ members → l.Nodup →
      u.Le (l.foldl (internMemberPd ctx facts) (u, pd)).1 ∧
      (∀ ix, (∀ m ∈ l, ctx.interner.get m ≠ some ix) →
        (l.foldl (internMemberPd ctx facts) (u, pd)).2 ix = pd ix) ∧
      ∀ m ∈ l, ∀ ix, ctx.interner.get m = some ix →
        ∃ bits, (l.foldl (internMemberPd ctx facts) (u, pd)).2 ix = some bits ∧
          BitsDecode ((l.foldl (internMemberPd ctx facts) (u, pd)).1, bits)
            {k | UnstableOf ctx isRecomputed leafRow members m k} := by
  intro l
  induction l with
  | nil => exact fun u pd _ _ => ⟨Interner.Le.refl _, fun _ _ => rfl, by simp⟩
  | cons m l ih =>
    intro u pd hl hnd
    have hm : m ∈ members := hl List.mem_cons_self
    obtain ⟨-, mIx, -, hmix, -⟩ := h.member_ix hm
    rw [List.foldl_cons]
    obtain ⟨hle₁, hd₁⟩ := foldl_decodes
      (fun s (f : PdFact) => internBit s (effectOf f.base (.parameterDependent f.paramIndex)))
      (f := fun f => some (effectOf f.base (.parameterDependent f.paramIndex))) (fun _ _ => rfl)
      (facts.filter fun f => f.routineId = m) (s := (u, [])) Decodes.nil
    have hstep : internMemberPd ctx facts (u, pd) m =
        (((facts.filter fun f => f.routineId = m).foldl (fun s f =>
            internBit s (effectOf f.base (.parameterDependent f.paramIndex))) (u, [])).1,
          Function.update pd mIx (some ((facts.filter fun f => f.routineId = m).foldl (fun s f =>
            internBit s (effectOf f.base (.parameterDependent f.paramIndex))) (u, [])).2)) := by
      unfold internMemberPd
      simp only [hmix]
    rw [hstep]
    obtain ⟨hle₂, hkeep, hdec⟩ := ih _ (Function.update pd mIx (some
      ((facts.filter fun f => f.routineId = m).foldl (fun s f =>
        internBit s (effectOf f.base (.parameterDependent f.paramIndex))) (u, [])).2))
      (fun x hx => hl (List.mem_cons_of_mem _ hx)) (List.nodup_cons.mp hnd).2
    have hnot : ∀ m' ∈ l, ctx.interner.get m' ≠ some mIx := fun m' hm' hm'ix =>
      (List.nodup_cons.mp hnd).1 (Interner.get_inj hmix hm'ix ▸ hm')
    refine ⟨hle₁.trans hle₂, fun ix hix => ?_, fun m' hm' ix hix => ?_⟩
    · rw [hkeep ix fun m' hm' => hix m' (List.mem_cons_of_mem _ hm')]
      refine Function.update_of_ne ?_ _ _
      rintro rfl
      exact hix m List.mem_cons_self hmix
    · rcases List.mem_cons.mp hm' with rfl | hm'
      · rw [hmix] at hix
        obtain rfl := Option.some.inj hix
        refine ⟨_, (hkeep mIx hnot).trans (Function.update_self _ _ _), ?_⟩
        refine (hd₁.mono hle₂).congr (fun _ => Iff.rfl) ?_
        ext k
        simp only [Set.mem_ofPred_eq, Set.empty_union, List.mem_filter, decide_eq_true_eq]
        constructor
        · intro hk
          obtain ⟨i, hi⟩ := exists_index_of_not_terminal hk.not_stable
          exact ⟨⟨m', k.base, i⟩, ⟨(hfacts _).mpr ⟨hm, by rw [← hi]; exact hk⟩, rfl⟩, by rw [← hi]⟩
        · rintro ⟨f, ⟨hf, rfl⟩, hk⟩
          rw [← Option.some.inj hk]
          exact ((hfacts f).mp hf).2
      · exact hdec m' hm' ix hix

/-! ## 6. The rows recorded -/

/-- The row `materialize_member_row` records. -/
def memberRow (presence : SccPresence) (viaMap : ViaMap) (terminalSet ix : ℕ) : RawRow where
  terminalSet := terminalSet
  baseVia := (iterSetBits presence.terminalUnion).map fun id => (viaMap ix id).getD .inherited
  pdDelta := ((presence.pdByMember ix).map iterSetBits).getD []
  deltaVia := (((presence.pdByMember ix).map iterSetBits).getD []).map fun id =>
    (viaMap ix id).getD .inherited

/-- Recording rows leaves the arena, and writes exactly the rows of the indices named. -/
theorem foldl_materialize (presence : SccPresence) (viaMap : ViaMap) (terminalSet : ℕ) :
    ∀ (l : List ℕ) (b : SummaryBundleBuilder),
      (l.foldl (materializeMemberRow presence viaMap terminalSet) b).arena = b.arena ∧
      (∀ ix, ix ∉ l →
        (l.foldl (materializeMemberRow presence viaMap terminalSet) b).rows ix = b.rows ix) ∧
      ∀ ix ∈ l, (l.foldl (materializeMemberRow presence viaMap terminalSet) b).rows ix =
        some (memberRow presence viaMap terminalSet ix) := by
  intro l
  induction l with
  | nil => exact fun b => ⟨rfl, fun _ _ => rfl, by simp⟩
  | cons ix l ih =>
    intro b
    obtain ⟨harena, hkeep, hrow⟩ := ih (materializeMemberRow presence viaMap terminalSet b ix)
    rw [List.foldl_cons]
    refine ⟨harena, fun ix' hix' => ?_, fun ix' hix' => ?_⟩
    · rw [hkeep ix' fun hl => hix' (List.mem_cons_of_mem _ hl)]
      exact Function.update_of_ne (fun heq => hix' (by rw [heq]; exact List.mem_cons_self)) _ _
    · by_cases hl : ix' ∈ l
      · exact hrow ix' hl
      · obtain rfl := (List.mem_cons.mp hix').resolve_right hl
        exact (hkeep ix' hl).trans (Function.update_self _ _ _)

/-- **Solving one effective component**: its members' rows hold the solution of the equations,
and no other row is touched. -/
theorem BlockReady.solveOneEffectiveScc_spec (h : BlockReady ctx isRecomputed leafRow members s)
    (hok : BundleOk s.bundle) {eff : Scc String} (heff : eff.members = members)
    (settled : String → Option RoutineSummary) :
    ∃ s' side, solveOneEffectiveScc ctx eff settled s = some (s', side) ∧ Extends s s' ∧
      BundleOk s'.bundle ∧
      (∀ m ∈ members, ∀ ix, ctx.interner.get m = some ix →
        RowHolds s' ix ((effectSystem ctx isRecomputed leafRow).solution m)) ∧
      ∀ ix, (∀ m ∈ members, ctx.interner.get m ≠ some ix) → s'.bundle.rows ix = s.bundle.rows ix := by
  subst heff
  obtain ⟨facts, emissions, hsolve, hfacts, hem⟩ := h.solvePdReachability_spec
  obtain ⟨hle₁, hterm⟩ := h.terminalUnion_decodes hem
  set u := terminalUnionOf ctx eff.members s.bundle emissions s.effects with hu
  obtain ⟨hle₂, hnone, hpd⟩ := h.pdByMember_decodes hfacts eff.members u.1 (fun _ => none)
    (List.Subset.refl _) h.nodup
  set v := eff.members.foldl (internMemberPd ctx facts) (u.1, fun _ => none) with hv
  set presence : SccPresence := { terminalUnion := u.2, pdByMember := v.2 } with hpres
  set viaMap := attributePdSubstitutedVia ctx eff.members s.bundle v.1 presence
    (reconstructVia ctx eff.members s.bundle v.1 presence) with hvia
  set ixs := eff.members.filterMap ctx.interner.get with hixs
  obtain ⟨harena, hkeep, hrow⟩ := foldl_materialize presence viaMap s.bundle.arena.length ixs
    { s.bundle with arena := s.bundle.arena ++ [u.2] }
  set b := ixs.foldl (materializeMemberRow presence viaMap s.bundle.arena.length)
    { s.bundle with arena := s.bundle.arena ++ [u.2] } with hb
  have hmem : ∀ m ∈ eff.members, ∀ ix, ctx.interner.get m = some ix → ix ∈ ixs := fun m hm ix hix =>
    List.mem_filterMap.mpr ⟨m, hm, hix⟩
  refine ⟨{ effects := v.1, bundle := b },
    sideResults ctx eff.members (solveSideFacts ctx eff.members settled), ?_, ⟨hle₁.trans hle₂, [u.2], harena⟩, ?_, ?_, ?_⟩
  · unfold solveOneEffectiveScc
    dsimp only
    rw [hsolve]
    rfl
  · intro ix row hr
    have hlen : b.arena.length = s.bundle.arena.length + 1 := by rw [harena]; simp
    show row.terminalSet < b.arena.length
    by_cases hix : ix ∈ ixs
    · rw [hrow ix hix] at hr
      obtain rfl := Option.some.inj hr
      exact hlen ▸ Nat.lt_succ_self _
    · rw [hkeep ix hix] at hr
      have := hok ix row hr
      omega
  · intro m hm ix hix
    have hr := hrow ix (hmem m hm ix hix)
    obtain ⟨bits, hbits, hdec⟩ := hpd m hm ix hix
    rw [h.solution_eq hm]
    refine ⟨?_, ?_, ?_⟩
    · simp [SummaryBundleBuilder.hasRow, hr]
    · have hread : b.terminalBits ix = u.2 := by
        simp only [SummaryBundleBuilder.terminalBits, hr, memberRow, harena]
        simp
      rw [hread]
      refine (hterm.mono hle₂).congr (fun _ => Iff.rfl) ?_
      ext k
      constructor
      · rintro ⟨hk | hk, ht⟩
        · exact hk
        · exact absurd ht hk.not_stable
      · exact fun hk => ⟨Or.inl hk, hk.mem_stable⟩
    · have hread : b.pdIds ix = iterSetBits bits := by
        simp only [SummaryBundleBuilder.pdIds, hr, memberRow]
        simp [hpres, hbits]
      rw [hread]
      refine hdec.congr (fun id => mem_iterSetBits bits id) ?_
      ext k
      constructor
      · rintro ⟨hk | hk, ht⟩
        · exact absurd hk.mem_stable ht
        · exact hk
      · exact fun hk => ⟨Or.inr hk, hk.not_stable⟩
  · intro ix hix
    refine hkeep ix fun hin => ?_
    obtain ⟨m, hm, hmix⟩ := List.mem_filterMap.mp hin
    exact hix m hm hmix

end AlSem.L4
