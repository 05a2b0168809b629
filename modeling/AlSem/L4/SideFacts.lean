/-
# Side facts are the fixed point of the per-edge fold

`solve_side_facts` computes one shared set and one flag for a whole component.  The per-edge fold
it stands for is a system of equations: a routine has what it produces, and over every resolved
edge what the edge's target has and may leave it.  On a strongly connected component the shared
set and the own entries together are its least solution (`solveSideFacts_fixedPoint`).
-/
import AlSem.L4.DbEffectLfp
import AlSem.L4.EffectUniverse

namespace AlSem.L4

open AlSem.Model

/-! ## 1. The per-edge fold -/

section Spec

variable (ctx : SolverInput) (members : List String) (settled : String → Option RoutineSummary)

/-- The edge's target is a member or settled. -/
def ResolvedEdge (e : CombinedEdge) : Prop := e.to ∈ members ∨ (settled e.to).isSome = true

instance (e : CombinedEdge) : Decidable (ResolvedEdge members settled e) :=
  inferInstanceAs (Decidable (_ ∨ _))

/-- The uncertainty of an opaque call, reported at its call site. -/
def opaqueEntry (e : CombinedEdge) : Option Uncertainty :=
  if ResolvedEdge members settled e ∧ opaqueEdge ctx e = true then
    e.callsiteId.map fun cs => { kind := "opaque-callee", callsiteId := some cs }
  else none

/-- The uncertainties of a routine's uncertainty edges. -/
def edgeEntries (m : String) : List Uncertainty :=
  (ctx.uncertaintyEdgesByFrom m).filterMap fun i =>
    (ctx.graph.uncertaintyEdges[i]?).map UncertaintyEdge.uncertainty

/-- **What a routine produces**: its base entries, its opaque calls, its uncertainty edges. -/
def producedAt (m : String) : List Uncertainty :=
  ((ctx.baseOf m).map RoutineSummary.uncertainties).getD [] ++
    (ctx.graph.outEdges m).filterMap (opaqueEntry ctx members settled) ++ edgeEntries ctx m

/-- What the target of a resolved edge has: a member what the equations give it, a settled routine
its own entries. -/
def targetHas (U : String → Set Uncertainty) (e : CombinedEdge) : Set Uncertainty :=
  {u | e.to ∈ members ∧ u ∈ U e.to ∨
    e.to ∉ members ∧ ∃ c, settled e.to = some c ∧ u ∈ c.uncertainties}

/-- **The equations**: what a member produces, and over every out-edge what its target has of a
kind that may leave it. -/
def SideSolution (U : String → Set Uncertainty) : Prop :=
  ∀ m ∈ members, U m = {u | u ∈ producedAt ctx members settled m ∨
    ∃ e ∈ ctx.graph.outEdges m, u ∈ targetHas members settled U e ∧ isCallsiteLocalKind u.kind = false}

/-- The least solution of the equations. -/
def LeastSideSolution (U : String → Set Uncertainty) : Prop :=
  SideSolution ctx members settled U ∧
    ∀ V, SideSolution ctx members settled V → ∀ m ∈ members, U m ⊆ V m

/-- Reachable over edges to members. -/
def SideReach : String → String → Prop :=
  Relation.ReflTransGen fun a b => b ∈ members ∧ ∃ e ∈ ctx.graph.outEdges a, e.to = b

/-- A routine's own reasons for an unresolved call: its base flag, an edge to a target that is
neither a member nor settled, an opaque call, an uncertainty edge. -/
def LocalTrigger (m : String) : Prop :=
  (∃ base, ctx.baseOf m = some base ∧ base.hasUnresolvedCalls = true) ∨
    (∃ e ∈ ctx.graph.outEdges m, ¬ ResolvedEdge members settled e ∨ opaqueEdge ctx e = true) ∨
    ctx.uncertaintyEdgesByFrom m ≠ []

/-- A settled target with an unresolved call. -/
def SettledUnresolved (e : CombinedEdge) : Prop :=
  e.to ∉ members ∧ ∃ c, settled e.to = some c ∧ c.hasUnresolvedCalls = true

/-- A settled target of the routine has an unresolved call. -/
def SettledTrigger (m : String) : Prop :=
  ∃ e ∈ ctx.graph.outEdges m, SettledUnresolved members settled e

/-! ## 2. What the pass collects -/

/-- What a routine gives the component: its own entries and its settled targets' that may leave
their owner. -/
def Contributed (m : String) (u : Uncertainty) : Prop :=
  isCallsiteLocalKind u.kind = false ∧
    (u ∈ producedAt ctx members settled m ∨
      ∃ e ∈ ctx.graph.outEdges m, e.to ∉ members ∧ ∃ c, settled e.to = some c ∧ u ∈ c.uncertainties)

end Spec

/-- The shared map holds, under its key, one of the entries `C` for each of their keys. -/
structure SharedIs (shared : SharedUncertainties) (C : Uncertainty → Prop) : Prop where
  sound : ∀ p ∈ shared, p.1 = uncertaintyKey p.2 ∧ C p.2
  complete : ∀ u, C u → ∃ p ∈ shared, p.1 = uncertaintyKey u

namespace SharedIs

variable {shared : SharedUncertainties} {C C' : Uncertainty → Prop}

theorem congr (h : SharedIs shared C) (hC : ∀ u, C' u ↔ C u) : SharedIs shared C' := by
  have : C' = C := funext fun u => propext (hC u)
  rw [this]
  exact h

theorem nil : SharedIs [] fun _ => False := ⟨fun _ h => absurd h List.not_mem_nil, fun _ h => h.elim⟩

/-- **One fold** adds its entry, the last write of a key winning. -/
theorem fold (h : SharedIs shared C) (u : Uncertainty) :
    SharedIs (foldShared shared u) fun v => C v ∨ v = u := by
  unfold foldShared
  split
  · rename_i hany
    obtain ⟨q, hq, hkey⟩ := List.any_eq_true.mp hany
    have hkey : q.1 = uncertaintyKey u := by simpa using hkey
    refine ⟨fun p hp => ?_, fun v hv => ?_⟩
    · obtain ⟨p', hp', rfl⟩ := List.mem_map.mp hp
      split
      · rename_i hsame
        exact ⟨hsame, Or.inr rfl⟩
      · exact ⟨(h.sound p' hp').1, Or.inl (h.sound p' hp').2⟩
    · have hentry : ∃ p ∈ shared, p.1 = uncertaintyKey v := by
        rcases hv with hv | rfl
        · exact h.complete v hv
        · exact ⟨q, hq, hkey⟩
      obtain ⟨p, hp, hpv⟩ := hentry
      refine ⟨_, List.mem_map_of_mem hp, ?_⟩
      split <;> exact hpv
  · refine ⟨fun p hp => ?_, fun v hv => ?_⟩
    · rcases List.mem_append.mp hp with hp | hp
      · exact ⟨(h.sound p hp).1, Or.inl (h.sound p hp).2⟩
      · obtain rfl := List.mem_singleton.mp hp
        exact ⟨rfl, Or.inr rfl⟩
    · rcases hv with hv | rfl
      · obtain ⟨p, hp, hpv⟩ := h.complete v hv
        exact ⟨p, List.mem_append_left _ hp, hpv⟩
      · exact ⟨_, List.mem_append_right _ List.mem_cons_self, rfl⟩

theorem foldPropagatable (h : SharedIs shared C) (u : Uncertainty) :
    SharedIs (foldPropagatable shared u) fun v => C v ∨ isCallsiteLocalKind v.kind = false ∧ v = u := by
  unfold AlSem.L4.foldPropagatable
  split
  · rename_i hlocal
    refine h.congr fun v => ⟨fun hv => hv.resolve_right ?_, Or.inl⟩
    rintro ⟨hfree, rfl⟩
    exact absurd (hlocal.symm.trans hfree) (by simp)
  · rename_i hlocal
    refine (h.fold u).congr fun v => or_congr_right ?_
    refine ⟨And.right, ?_⟩
    rintro rfl
    exact ⟨Bool.not_eq_true _ ▸ hlocal, rfl⟩

/-- Folding a list in adds those of its entries that may leave their owner. -/
theorem foldl : ∀ (l : List Uncertainty) {shared : SharedUncertainties} {C : Uncertainty → Prop},
    SharedIs shared C → SharedIs (l.foldl AlSem.L4.foldPropagatable shared)
      fun v => C v ∨ isCallsiteLocalKind v.kind = false ∧ v ∈ l
  | [], _, _, h => h.congr fun v => by simp
  | u :: l, _, _, h => by
    rw [List.foldl_cons]
    refine (foldl l (h.foldPropagatable u)).congr fun v => ?_
    rw [List.mem_cons]
    tauto

end SharedIs

section Pass

variable {ctx : SolverInput} {members : List String} {settled : String → Option RoutineSummary}

/-- What an edge gives its caller, the filter apart: its own opaque call, or an entry of its settled
target. -/
def EdgeGives (ctx : SolverInput) (members : List String) (settled : String → Option RoutineSummary)
    (e : CombinedEdge) (u : Uncertainty) : Prop :=
  opaqueEntry ctx members settled e = some u ∨
    e.to ∉ members ∧ ∃ c, settled e.to = some c ∧ u ∈ c.uncertainties

/-- What one edge adds. -/
theorem foldSideEdge_spec {acc : SideFold} {C : Uncertainty → Prop} (h : SharedIs acc.shared C)
    (e : CombinedEdge) :
    (foldSideEdge ctx members settled acc e).own =
        acc.own ++ (opaqueEntry ctx members settled e).toList ∧
      SharedIs (foldSideEdge ctx members settled acc e).shared (fun u => C u ∨
        isCallsiteLocalKind u.kind = false ∧ EdgeGives ctx members settled e u) ∧
      ((foldSideEdge ctx members settled acc e).localHu = true ↔ acc.localHu = true ∨
        ¬ ResolvedEdge members settled e ∨ opaqueEdge ctx e = true) ∧
      ((foldSideEdge ctx members settled acc e).sharedHu = true ↔ acc.sharedHu = true ∨
        SettledUnresolved members settled e) := by
  unfold EdgeGives SettledUnresolved
  -- a resolved edge's own call
  have hopaque : ∀ (acc : SideFold) (C : Uncertainty → Prop), SharedIs acc.shared C →
      ResolvedEdge members settled e →
      (foldOpaque ctx acc e).own = acc.own ++ (opaqueEntry ctx members settled e).toList ∧
      SharedIs (foldOpaque ctx acc e).shared (fun u => C u ∨ isCallsiteLocalKind u.kind = false ∧
        opaqueEntry ctx members settled e = some u) ∧
      ((foldOpaque ctx acc e).localHu = true ↔ acc.localHu = true ∨ opaqueEdge ctx e = true) ∧
      (foldOpaque ctx acc e).sharedHu = acc.sharedHu := by
    intro acc C h hres
    unfold foldOpaque opaqueEntry
    by_cases hop : opaqueEdge ctx e = true
    · rw [if_pos hop, if_pos ⟨hres, hop⟩]
      cases hcs : e.callsiteId with
      | none => exact ⟨by simp, h.congr fun u => by simp, by simp [hop], rfl⟩
      | some cs =>
        refine ⟨rfl, (h.fold _).congr fun u => or_congr_right ?_, by simp [hop], rfl⟩
        rw [Option.map_some, Option.some.injEq, eq_comm (b := u)]
        refine ⟨And.right, ?_⟩
        rintro rfl
        exact ⟨rfl, rfl⟩
    · rw [if_neg hop, if_neg fun hand => hop hand.2]
      exact ⟨by simp, h.congr fun u => by simp, by simp [hop], rfl⟩
  unfold foldSideEdge
  by_cases hmem : e.to ∈ members
  · have hres : ResolvedEdge members settled e := Or.inl hmem
    rw [if_pos (by simpa using hmem)]
    obtain ⟨hown, hshared, hlocal, hsharedHu⟩ := hopaque acc C h hres
    refine ⟨hown, hshared.congr fun u => by simp [hmem], ?_, ?_⟩
    · rw [hlocal]
      simp [hres]
    · rw [hsharedHu]
      simp [hmem]
  · rw [if_neg (by simpa using hmem)]
    cases hset : settled e.to with
    | none =>
      have hres : ¬ ResolvedEdge members settled e := by
        rintro (hin | hsome)
        · exact hmem hin
        · rw [hset] at hsome
          cases hsome
      refine ⟨by simp [opaqueEntry, hres], h.congr fun u => by simp [opaqueEntry, hres], ?_, by simp⟩
      simp [hres]
    | some callee =>
      have hres : ResolvedEdge members settled e := Or.inr (by rw [hset]; rfl)
      obtain ⟨hown, hshared, hlocal, hsharedHu⟩ := hopaque
        { acc with
          shared := callee.uncertainties.foldl AlSem.L4.foldPropagatable acc.shared
          sharedHu := acc.sharedHu || callee.hasUnresolvedCalls } _
        (SharedIs.foldl callee.uncertainties h) hres
      dsimp only
      refine ⟨hown, hshared.congr fun u => ?_, ?_, ?_⟩
      · simp only [hmem, not_false_eq_true, true_and, Option.some.injEq, exists_eq_left']
        tauto
      · rw [hlocal]
        simp [hres]
      · rw [hsharedHu]
        simp [hmem]

/-- What the out-edges add. -/
theorem foldl_foldSideEdge_spec : ∀ (l : List CombinedEdge) {acc : SideFold} {C : Uncertainty → Prop},
    SharedIs acc.shared C →
    (l.foldl (foldSideEdge ctx members settled) acc).own =
        acc.own ++ l.filterMap (opaqueEntry ctx members settled) ∧
      SharedIs (l.foldl (foldSideEdge ctx members settled) acc).shared (fun u => C u ∨
        isCallsiteLocalKind u.kind = false ∧ ∃ e ∈ l, EdgeGives ctx members settled e u) ∧
      ((l.foldl (foldSideEdge ctx members settled) acc).localHu = true ↔ acc.localHu = true ∨
        ∃ e ∈ l, ¬ ResolvedEdge members settled e ∨ opaqueEdge ctx e = true) ∧
      ((l.foldl (foldSideEdge ctx members settled) acc).sharedHu = true ↔ acc.sharedHu = true ∨
        ∃ e ∈ l, SettledUnresolved members settled e)
  | [], acc, C, h => ⟨by simp, h.congr fun u => by simp, by simp, by simp⟩
  | e :: l, acc, C, h => by
    obtain ⟨hown, hshared, hlocal, hsharedHu⟩ := @foldSideEdge_spec ctx members settled _ _ h e
    obtain ⟨hown', hshared', hlocal', hsharedHu'⟩ := foldl_foldSideEdge_spec l hshared
    rw [List.foldl_cons]
    refine ⟨?_, hshared'.congr fun u => ?_, ?_, ?_⟩
    · rw [hown', hown, List.append_assoc]
      cases hop : opaqueEntry ctx members settled e <;> simp [hop]
    · rw [List.exists_mem_cons_iff, or_assoc, ← and_or_left]
    · rw [hlocal', hlocal, List.exists_mem_cons_iff, or_assoc]
    · rw [hsharedHu', hsharedHu, List.exists_mem_cons_iff, or_assoc]

/-- **What one member adds.** -/
theorem foldSideMember_spec {acc : SharedUncertainties × Bool × (ℕ → Option (List Uncertainty))}
    {C : Uncertainty → Prop} (h : SharedIs acc.1 C) {m : String} {base : RoutineSummary}
    (hbase : ctx.baseOf m = some base) :
    SharedIs (foldSideMember ctx members settled acc m).1
        (fun u => C u ∨ Contributed ctx members settled m u) ∧
      ((foldSideMember ctx members settled acc m).2.1 = true ↔ acc.2.1 = true ∨
        LocalTrigger ctx members settled m ∨ SettledTrigger ctx members settled m) ∧
      (foldSideMember ctx members settled acc m).2.2 =
        match ctx.interner.get m with
        | some mIx => Function.update acc.2.2 mIx (some (producedAt ctx members settled m))
        | none => acc.2.2 := by
  obtain ⟨hown, hshared, hlocal, hsharedHu⟩ := @foldl_foldSideEdge_spec ctx members settled
    (ctx.graph.outEdges m)
    { own := base.uncertainties
      shared := base.uncertainties.foldl foldPropagatable acc.1
      localHu := base.hasUnresolvedCalls
      sharedHu := acc.2.1 } _ (SharedIs.foldl base.uncertainties h)
  unfold foldSideMember
  rw [hbase]
  dsimp only
  generalize (ctx.graph.outEdges m).foldl (foldSideEdge ctx members settled)
    { own := base.uncertainties
      shared := base.uncertainties.foldl foldPropagatable acc.1
      localHu := base.hasUnresolvedCalls
      sharedHu := acc.2.1 } = s at hown hshared hlocal hsharedHu ⊢
  dsimp only at hown hshared hlocal hsharedHu
  have hproduced : producedAt ctx members settled m = s.own ++ edgeEntries ctx m := by
    rw [hown]
    unfold producedAt
    rw [hbase]
    rfl
  refine ⟨(SharedIs.foldl (edgeEntries ctx m) hshared).congr fun u => ?_, ?_, ?_⟩
  · have hgives : (∃ e ∈ ctx.graph.outEdges m, EdgeGives ctx members settled e u) ↔
        u ∈ (ctx.graph.outEdges m).filterMap (opaqueEntry ctx members settled) ∨
          ∃ e ∈ ctx.graph.outEdges m, e.to ∉ members ∧ ∃ c, settled e.to = some c ∧
            u ∈ c.uncertainties := by
      rw [List.mem_filterMap]
      unfold EdgeGives
      simp only [and_or_left, exists_or]
    unfold Contributed
    rw [hgives, hproduced, hown, List.mem_append, List.mem_append]
    generalize (∃ e ∈ ctx.graph.outEdges m, e.to ∉ members ∧ ∃ c, settled e.to = some c ∧
      u ∈ c.uncertainties) = handed
    generalize (u ∈ base.uncertainties) = own
    generalize (u ∈ (ctx.graph.outEdges m).filterMap (opaqueEntry ctx members settled)) = called
    generalize (u ∈ edgeEntries ctx m) = edged
    generalize (isCallsiteLocalKind u.kind = false) = kept
    clear hown hshared hlocal hsharedHu hgives hproduced
    by_cases hkept : kept <;> simp only [hkept, true_and, false_and, or_false]
    tauto
  · have hedges : (!(ctx.uncertaintyEdgesByFrom m).isEmpty) = true ↔
        ctx.uncertaintyEdgesByFrom m ≠ [] := by simp
    rw [Bool.or_eq_true, Bool.or_eq_true, hsharedHu, hlocal, hedges]
    unfold LocalTrigger SettledTrigger
    rw [hbase]
    simp only [Option.some.injEq, exists_eq_left']
    generalize (∃ e ∈ ctx.graph.outEdges m, SettledUnresolved members settled e) = handed
    generalize (∃ e ∈ ctx.graph.outEdges m, ¬ ResolvedEdge members settled e ∨
      opaqueEdge ctx e = true) = called
    generalize (ctx.uncertaintyEdgesByFrom m ≠ []) = edged
    clear hown hshared hlocal hsharedHu hedges hproduced
    tauto
  · cases ctx.interner.get m with
    | none => rfl
    | some mIx =>
      dsimp only
      rw [hproduced]
      rfl

/-- What the members add. -/
theorem foldl_foldSideMember_spec (l : List String)
    {acc : SharedUncertainties × Bool × (ℕ → Option (List Uncertainty))} {C : Uncertainty → Prop}
    (h : SharedIs acc.1 C) (hbase : ∀ m ∈ l, ∃ base, ctx.baseOf m = some base) :
    SharedIs (l.foldl (foldSideMember ctx members settled) acc).1
        (fun u => C u ∨ ∃ m ∈ l, Contributed ctx members settled m u) ∧
      ((l.foldl (foldSideMember ctx members settled) acc).2.1 = true ↔ acc.2.1 = true ∨
        ∃ m ∈ l, LocalTrigger ctx members settled m ∨ SettledTrigger ctx members settled m) ∧
      ∀ m ix, ctx.interner.get m = some ix →
        (m ∈ l ∨ acc.2.2 ix = some (producedAt ctx members settled m)) →
        (l.foldl (foldSideMember ctx members settled) acc).2.2 ix =
          some (producedAt ctx members settled m) := by
  induction l generalizing acc C with
  | nil => exact ⟨h.congr fun u => by simp, by simp, fun m ix _ hm => hm.resolve_left List.not_mem_nil⟩
  | cons m l ih =>
    obtain ⟨base, hb⟩ := hbase m List.mem_cons_self
    obtain ⟨hshared, hhu, hown⟩ := @foldSideMember_spec ctx members settled _ _ h _ _ hb
    obtain ⟨hshared', hhu', hown'⟩ := ih hshared fun m' hm' => hbase m' (List.mem_cons_of_mem _ hm')
    rw [List.foldl_cons]
    refine ⟨hshared'.congr fun u => ?_, ?_, fun m' ix hix hm' => ?_⟩
    · rw [List.exists_mem_cons_iff, or_assoc]
    · rw [hhu', hhu, List.exists_mem_cons_iff, or_assoc]
    · refine hown' m' ix hix ?_
      by_cases hsame : m' = m
      · subst hsame
        refine Or.inr ?_
        rw [hown, hix]
        exact Function.update_self _ _ _
      · refine hm'.imp (fun hin => (List.mem_cons.mp hin).resolve_left hsame) fun hacc => ?_
        rw [hown]
        cases hix' : ctx.interner.get m with
        | none => exact hacc
        | some mIx =>
          have hne : ix ≠ mIx := by
            rintro rfl
            exact hsame (Interner.get_inj hix hix')
          exact (Function.update_of_ne hne _ _).trans hacc

/-- De-duplication keeps entries of the list, one of every key. -/
theorem mem_dedupeUncertainties (l : List Uncertainty) :
    (∀ u ∈ dedupeUncertainties l, u ∈ l) ∧
      ∀ u ∈ l, ∃ v ∈ dedupeUncertainties l, uncertaintyKey v = uncertaintyKey u := by
  have hlast : ∀ l : List Uncertainty, (∀ u ∈ keepLastByKey l, u ∈ l) ∧
      ∀ u ∈ l, ∃ v ∈ keepLastByKey l, uncertaintyKey v = uncertaintyKey u := by
    intro l
    fun_induction keepLastByKey l with
    | case1 => simp
    | case2 u => simp
    | case3 u v us hkey ih =>
      refine ⟨fun w hw => List.mem_cons_of_mem _ (ih.1 w hw), fun w hw => ?_⟩
      rcases List.mem_cons.mp hw with rfl | hw
      · obtain ⟨x, hx, hxv⟩ := ih.2 v List.mem_cons_self
        exact ⟨x, hx, hxv.trans hkey.symm⟩
      · exact ih.2 w hw
    | case4 u v us hkey ih =>
      refine ⟨fun w hw => ?_, fun w hw => ?_⟩
      · rcases List.mem_cons.mp hw with rfl | hw
        · exact List.mem_cons_self
        · exact List.mem_cons_of_mem _ (ih.1 w hw)
      · rcases List.mem_cons.mp hw with rfl | hw
        · exact ⟨w, List.mem_cons_self, rfl⟩
        · obtain ⟨x, hx, hxw⟩ := ih.2 w hw
          exact ⟨x, List.mem_cons_of_mem _ hx, hxw⟩
  have hperm := List.mergeSort_perm l fun a b => decide (uncertaintyKey a ≤ uncertaintyKey b)
  obtain ⟨hsound, hcomplete⟩ := hlast (l.mergeSort fun a b => decide (uncertaintyKey a ≤ uncertaintyKey b))
  exact ⟨fun u hu => hperm.mem_iff.mp (hsound u hu), fun u hu => hcomplete u (hperm.mem_iff.mpr hu)⟩

/-- **What the pass answers for a member**: the flag of the whole component, and the shared entries
with the member's own. -/
theorem solveSideFacts_spec (hbase : ∀ m ∈ members, ∃ base, ctx.baseOf m = some base) {m : String}
    {ix : ℕ} (hm : m ∈ members) (hix : ctx.interner.get m = some ix) :
    ∃ us flag, (solveSideFacts ctx members settled).uncertainties ix = some us ∧
      (solveSideFacts ctx members settled).hasUnresolved ix = some flag ∧
      (flag = true ↔ ∃ w ∈ members, LocalTrigger ctx members settled w ∨
        SettledTrigger ctx members settled w) ∧
      (∀ u ∈ us, u ∈ producedAt ctx members settled m ∨
        ∃ w ∈ members, Contributed ctx members settled w u) ∧
      ∀ u, (u ∈ producedAt ctx members settled m ∨ ∃ w ∈ members, Contributed ctx members settled w u) →
        ∃ v ∈ us, uncertaintyKey v = uncertaintyKey u := by
  obtain ⟨hshared, hhu, hown⟩ := @foldl_foldSideMember_spec ctx members settled members
    ([], false, fun _ => none) _ SharedIs.nil hbase
  unfold solveSideFacts
  generalize members.foldl (foldSideMember ctx members settled) ([], false, fun _ => none) = r
    at hshared hhu hown
  obtain ⟨shared, sharedHu, own⟩ := r
  dsimp only at hshared hhu hown ⊢
  -- the last write for a member is its own
  have hwrite : ∀ (step : SideFacts → String → SideFacts), (∀ side m', step side m' =
        match ctx.interner.get m' with
        | some mIx =>
          { uncertainties := Function.update side.uncertainties mIx
              (some (dedupeUncertainties (shared.map Prod.snd ++ (own mIx).getD [])))
            hasUnresolved := Function.update side.hasUnresolved mIx (some sharedHu) }
        | none => side) → ∀ (l : List String) (side : SideFacts),
      (m ∈ l ∨ side.uncertainties ix =
          some (dedupeUncertainties (shared.map Prod.snd ++ (own ix).getD [])) ∧
        side.hasUnresolved ix = some sharedHu) →
      (l.foldl step side).uncertainties ix =
          some (dedupeUncertainties (shared.map Prod.snd ++ (own ix).getD [])) ∧
        (l.foldl step side).hasUnresolved ix = some sharedHu := by
    intro step hstep l
    induction l with
    | nil => exact fun side h => h.resolve_left List.not_mem_nil
    | cons m' l ih =>
      intro side h
      rw [List.foldl_cons]
      refine ih _ ?_
      by_cases hsame : m = m'
      · subst hsame
        refine Or.inr ?_
        rw [hstep, hix]
        exact ⟨Function.update_self _ _ _, Function.update_self _ _ _⟩
      · refine h.imp (fun hin => (List.mem_cons.mp hin).resolve_left hsame) fun hside => ?_
        rw [hstep]
        cases hix' : ctx.interner.get m' with
        | none => exact hside
        | some mIx =>
          have hne : ix ≠ mIx := by
            rintro rfl
            exact hsame (Interner.get_inj hix hix')
          exact ⟨(Function.update_of_ne hne _ _).trans hside.1,
            (Function.update_of_ne hne _ _).trans hside.2⟩
  obtain ⟨hus, hflag⟩ := hwrite _ (fun _ _ => rfl) members _ (Or.inl hm)
  rw [hown m ix hix (Or.inl hm), Option.getD_some] at hus
  obtain ⟨hsound, hcomplete⟩ := mem_dedupeUncertainties
    (shared.map Prod.snd ++ producedAt ctx members settled m)
  refine ⟨_, sharedHu, hus, hflag, by simpa using hhu, fun u hu => ?_, fun u hu => ?_⟩
  · rcases List.mem_append.mp (hsound u hu) with hin | hin
    · obtain ⟨p, hp, rfl⟩ := List.mem_map.mp hin
      exact Or.inr ((hshared.sound p hp).2.resolve_left id)
    · exact Or.inl hin
  · rcases hu with hu | hu
    · exact hcomplete u (List.mem_append_right _ hu)
    · obtain ⟨p, hp, hkey⟩ := hshared.complete u (Or.inr hu)
      obtain ⟨v, hv, hvp⟩ := hcomplete p.2 (List.mem_append_left _ (List.mem_map_of_mem hp))
      exact ⟨v, hv, by rw [hvp, ← (hshared.sound p hp).1, hkey]⟩

end Pass

/-! ## 3. The least solution -/

section Least

variable {ctx : SolverInput} {members : List String} {settled : String → Option RoutineSummary}

variable (ctx members settled) in
/-- What the equations derive. -/
inductive Carried : String → Uncertainty → Prop
  | produced {m : String} {u : Uncertainty} : u ∈ producedAt ctx members settled m → Carried m u
  | inner {m : String} {e : CombinedEdge} {u : Uncertainty} : e ∈ ctx.graph.outEdges m →
    e.to ∈ members → Carried e.to u → isCallsiteLocalKind u.kind = false → Carried m u
  | settled {m : String} {e : CombinedEdge} {c : RoutineSummary} {u : Uncertainty} :
    e ∈ ctx.graph.outEdges m → e.to ∉ members → settled e.to = some c → u ∈ c.uncertainties →
    isCallsiteLocalKind u.kind = false → Carried m u

/-- **The derived sets are the least solution.** -/
theorem leastSideSolution_carried :
    LeastSideSolution ctx members settled fun m => {u | Carried ctx members settled m u} := by
  refine ⟨fun m _ => Set.ext fun u => ?_, fun V hV m hm u hu => ?_⟩
  · constructor
    · rintro (hu | ⟨he, hto, hu, hkind⟩ | ⟨he, hto, hc, hu, hkind⟩)
      · exact Or.inl hu
      · exact Or.inr ⟨_, he, Or.inl ⟨hto, hu⟩, hkind⟩
      · exact Or.inr ⟨_, he, Or.inr ⟨hto, _, hc, hu⟩, hkind⟩
    · rintro (hu | ⟨e, he, ⟨hto, hu⟩ | ⟨hto, c, hc, hu⟩, hkind⟩)
      · exact .produced hu
      · exact .inner he hto hu hkind
      · exact .settled he hto hc hu hkind
  · replace hu : Carried ctx members settled m u := hu
    induction hu with
    | produced hu =>
      rw [hV _ hm]
      exact Or.inl hu
    | inner he hto _ hkind ih =>
      rw [hV _ hm]
      exact Or.inr ⟨_, he, Or.inl ⟨hto, ih hto⟩, hkind⟩
    | settled he hto hc hu hkind =>
      rw [hV _ hm]
      exact Or.inr ⟨_, he, Or.inr ⟨hto, _, hc, hu⟩, hkind⟩

/-- A derived entry was produced there, or some member gave it to the component. -/
theorem Carried.cases {m : String} {u : Uncertainty} (hm : m ∈ members)
    (h : Carried ctx members settled m u) : u ∈ producedAt ctx members settled m ∨
      ∃ w ∈ members, Contributed ctx members settled w u := by
  induction h with
  | produced hu => exact Or.inl hu
  | inner _ hto _ hkind ih =>
    rcases ih hto with hu | hw
    · exact Or.inr ⟨_, hto, hkind, Or.inl hu⟩
    · exact Or.inr hw
  | settled he hto hc hu hkind => exact Or.inr ⟨_, hm, hkind, Or.inr ⟨_, he, hto, _, hc, hu⟩⟩

/-- What a member gives the component is derived wherever the member is reached from. -/
theorem carried_of_contributed {m w : String} {u : Uncertainty} (hreach : SideReach ctx members m w)
    (h : Contributed ctx members settled w u) : Carried ctx members settled m u := by
  induction hreach using Relation.ReflTransGen.head_induction_on with
  | refl =>
    obtain ⟨hkind, hu | ⟨e, he, hto, c, hc, hu⟩⟩ := h
    · exact .produced hu
    · exact .settled he hto hc hu hkind
  | head hstep _ ih =>
    obtain ⟨hto, e, he, rfl⟩ := hstep
    exact .inner he hto ih h.1

/-- **An effective component is a whole class** of recomputed members that reach each other. -/
theorem effective_class {graph : PrimaryGraph} {isRecomputed : String → Bool}
    {sccEntry eff : Scc String} (heff : eff ∈ effectiveSccs sccEntry graph isRecomputed) :
    (∀ m ∈ eff.members, isRecomputed m = true) ∧ ∀ v ∈ eff.members, ∀ u, u ∈ eff.members ↔
      Tarjan.Reach (inducedAdjacency graph (sccEntry.members.filter isRecomputed)) v u ∧
        Tarjan.Reach (inducedAdjacency graph (sccEntry.members.filter isRecomputed)) u v := by
  unfold effectiveSccs at heff
  dsimp only at heff
  split at heff
  · exact absurd heff List.not_mem_nil
  · have horder := tarjanScc_isSccOrder
      (inducedAdjacency graph (sccEntry.members.filter isRecomputed))
    have hin : eff.members ∈ (tarjanScc (inducedAdjacency graph
        (sccEntry.members.filter isRecomputed))).sccs.map Scc.members := List.mem_map_of_mem heff
    refine ⟨fun m hm => ?_, (horder.classes eff.members hin).2⟩
    obtain ⟨n, hn, hr⟩ := (horder.mem m).mp (List.mem_flatten.mpr ⟨eff.members, hin, hm⟩)
    have hmem : m ∈ sccEntry.members.filter isRecomputed := by
      induction hr with
      | refl => exact hn
      | tail _ hedge _ => exact (edge_inducedAdjacency.mp hedge).2.1
    exact (List.mem_filter.mp hmem).2

/-- Members of an effective component reach each other over members. -/
theorem sideReach_of_effective {isRecomputed : String → Bool} {sccEntry eff : Scc String}
    (heff : eff ∈ effectiveSccs sccEntry ctx.graph isRecomputed) :
    ∀ v ∈ eff.members, ∀ u ∈ eff.members, SideReach ctx eff.members v u := by
  obtain ⟨-, hclass⟩ := effective_class heff
  intro v hv u hu
  obtain ⟨hvu, huv⟩ := (hclass v hv u).mp hu
  -- every routine on the way there and back is in the component
  have hpath : ∀ x, Tarjan.Reach (inducedAdjacency ctx.graph
      (sccEntry.members.filter isRecomputed)) v x → Tarjan.Reach (inducedAdjacency ctx.graph
      (sccEntry.members.filter isRecomputed)) x u → SideReach ctx eff.members v x := by
    intro x hvx
    induction hvx with
    | refl => exact fun _ => Relation.ReflTransGen.refl
    | @tail y x hvy hedge ih =>
      intro hxu
      obtain ⟨-, -, e, he, hto⟩ := edge_inducedAdjacency.mp hedge
      have hx : x ∈ eff.members := (hclass v hv x).mpr ⟨hvy.tail hedge, hxu.trans huv⟩
      exact (ih (Relation.ReflTransGen.head hedge hxu)).tail ⟨hx, e, he, hto⟩
  exact hpath u hvu Relation.ReflTransGen.refl

end Least

/-- **The side facts of a component are the fixed point of the per-edge fold.**  For every member of
an effective component, whatever is settled: the flag says that a routine reached over the
component has a reason of its own or a settled target with one; and the uncertainties are, by key,
those of the least solution of the equations, so an entry of a call-site kind stays with the
routine that produced it. -/
theorem solveSideFacts_fixedPoint {ctx : SolverInput} {isRecomputed : String → Bool}
    {sccEntry eff : Scc String} (heff : eff ∈ effectiveSccs sccEntry ctx.graph isRecomputed)
    (hknown : ∀ m, isRecomputed m = true →
      (∃ r, ctx.routinesById m = some r) ∧ ∃ ix, ctx.interner.get m = some ix)
    (settled : String → Option RoutineSummary) :
    ∃ U, LeastSideSolution ctx eff.members settled U ∧ ∀ m ∈ eff.members, ∃ ix us flag,
      ctx.interner.get m = some ix ∧
      (solveSideFacts ctx eff.members settled).uncertainties ix = some us ∧
      (solveSideFacts ctx eff.members settled).hasUnresolved ix = some flag ∧
      (flag = true ↔ ∃ w, SideReach ctx eff.members m w ∧
        (LocalTrigger ctx eff.members settled w ∨ SettledTrigger ctx eff.members settled w)) ∧
      (∀ u ∈ us, u ∈ U m) ∧
      (∀ key, key ∈ us.map uncertaintyKey ↔ ∃ u ∈ U m, uncertaintyKey u = key) ∧
      ((∀ u ∈ U m, '|' ∉ u.kind.toList) → ∀ kind place,
        (∃ u ∈ us, u.kind = kind ∧ uncertaintyAt u = place) ↔
          ∃ u ∈ U m, u.kind = kind ∧ uncertaintyAt u = place) ∧
      ∀ u ∈ us, isCallsiteLocalKind u.kind = true → u ∈ producedAt ctx eff.members settled m := by
  obtain ⟨hrec, -⟩ := effective_class heff
  have hconn := sideReach_of_effective heff
  have hbase : ∀ m ∈ eff.members, ∃ base, ctx.baseOf m = some base := by
    intro m hm
    obtain ⟨⟨r, hr⟩, -⟩ := hknown m (hrec m hm)
    unfold SolverInput.baseOf SolverInput.ownSummary
    rw [hr, Option.map_some]
    cases ctx.baseSummaries m <;> simp
  refine ⟨fun m => {u | Carried ctx eff.members settled m u}, leastSideSolution_carried, fun m hm => ?_⟩
  obtain ⟨-, ix, hix⟩ := hknown m (hrec m hm)
  obtain ⟨us, flag, hus, hflag, hiff, hsound, hcomplete⟩ :=
    @solveSideFacts_spec ctx eff.members settled hbase _ _ hm hix
  have hreach : ∀ {w}, SideReach ctx eff.members m w → w ∈ eff.members := by
    intro w hw
    induction hw with
    | refl => exact hm
    | tail _ hstep _ => exact hstep.1
  have hin : ∀ u ∈ us, Carried ctx eff.members settled m u := by
    intro u hu
    rcases hsound u hu with hu | ⟨w, hw, hc⟩
    · exact .produced hu
    · exact carried_of_contributed (hconn m hm w hw) hc
  refine ⟨ix, us, flag, hix, hus, hflag, ?_, hin, fun key => ?_, fun hbar kind place => ?_,
    fun u hu hlocal => ?_⟩
  · rw [hiff]
    constructor
    · rintro ⟨w, hw, htrigger⟩
      exact ⟨w, hconn m hm w hw, htrigger⟩
    · rintro ⟨w, hw, htrigger⟩
      exact ⟨w, hreach hw, htrigger⟩
  · constructor
    · intro hkey
      obtain ⟨u, hu, rfl⟩ := List.mem_map.mp hkey
      exact ⟨u, hin u hu, rfl⟩
    · rintro ⟨u, hu, rfl⟩
      obtain ⟨v, hv, hkey⟩ := hcomplete u (Carried.cases hm hu)
      exact List.mem_map.mpr ⟨v, hv, hkey⟩
  · constructor
    · rintro ⟨u, hu, hkind, hplace⟩
      exact ⟨u, hin u hu, hkind, hplace⟩
    · rintro ⟨u, hu, rfl, rfl⟩
      obtain ⟨v, hv, hkey⟩ := hcomplete u (Carried.cases hm hu)
      -- a key without a separator in its kind tells kind and place apart
      have hlists := congrArg String.toList hkey
      simp only [uncertaintyKey, String.toList_append, List.append_assoc] at hlists
      obtain ⟨hkind, hplace⟩ := split_first (hbar v (hin v hv)) (hbar u hu) hlists
      exact ⟨v, hv, String.toList_injective hkind, String.toList_injective hplace⟩
  · rcases hsound u hu with hu | ⟨w, hw, hfree, -⟩
    · exact hu
    · exact absurd (hlocal.symm.trans hfree) (by simp)

/-- What `a` did not find, at its own call site. -/
def missingMember : Uncertainty := { kind := "member-not-found", callsiteId := some "a/cs1" }

/-- An opaque call of `b`. -/
def opaqueCall : Uncertainty := { kind := "opaque-callee", callsiteId := some "b/cs1" }

/-- `a` and `b` call each other. -/
def cycleSetup : DbSetup where
  graph :=
    { nodes := ["a", "b"]
      edgesByFrom :=
        ⟨[⟨"a", [{ «from» := "a", «to» := "b", kind := "direct", callsiteId := some "a/cs0" }]⟩,
          ⟨"b", [{ «from» := "b", «to» := "a", kind := "direct", callsiteId := some "b/cs0" }]⟩],
          by simp [List.NodupKeys]⟩ }
  routines := [{ id := "a" }, { id := "b" }]
  baseSummaries m := some
    { routineId := m, dbEffects := [], inRecursiveCycle := false, hasUnresolvedCalls := m = "b"
      uncertainties := if m = "a" then [missingMember] else [opaqueCall], parameterRoles := [] }
  leafSummaries := ∅
  toLowercase := String.toLower
  nodes_mem := by simp

/-- Both are in one component. -/
theorem cycleSetup_effective : ∃ eff ∈ effectiveSccs { members := ["a", "b"], recursive := true }
    cycleSetup.input.graph cycleSetup.isRecomputed, "a" ∈ eff.members ∧ "b" ∈ eff.members := by
  have hrec : ∀ m ∈ ["a", "b"], cycleSetup.isRecomputed m = true := by decide
  obtain ⟨members, hmembers, ha⟩ := List.mem_flatten.mp
    ((@mem_effectiveSccs cycleSetup { members := ["a", "b"], recursive := true } _).mpr
      ⟨List.mem_cons_self, hrec "a" List.mem_cons_self⟩)
  obtain ⟨eff, heff, rfl⟩ := List.mem_map.mp hmembers
  have hedge : ∀ m ∈ ["a", "b"], ∀ n ∈ ["a", "b"],
      (∃ e ∈ cycleSetup.graph.outEdges m, e.to = n) → Tarjan.Reach (inducedAdjacency
        cycleSetup.graph (["a", "b"].filter cycleSetup.isRecomputed)) m n := fun m hm n hn he =>
    Relation.ReflTransGen.single (edge_inducedAdjacency.mpr
      ⟨List.mem_filter.mpr ⟨hm, hrec m hm⟩, List.mem_filter.mpr ⟨hn, hrec n hn⟩, he⟩)
  refine ⟨eff, heff, ha, ((effective_class heff).2 "a" ha "b").mpr ⟨?_, ?_⟩⟩
  · exact hedge "a" (by simp) "b" (by simp) ⟨_, List.mem_cons_self, rfl⟩
  · exact hedge "b" (by simp) "a" (by simp) ⟨_, List.mem_cons_self, rfl⟩

/-- On the cycle the opaque call is told of both routines and so is the unresolved call; what was not
found stays with its owner. -/
theorem solveSideFacts_fixedPoint_cycle :
    ∃ eff ∈ effectiveSccs { members := ["a", "b"], recursive := true } cycleSetup.input.graph
        cycleSetup.isRecomputed, ∃ ixa ixb usa usb,
      cycleSetup.input.interner.get "a" = some ixa ∧ cycleSetup.input.interner.get "b" = some ixb ∧
      (solveSideFacts cycleSetup.input eff.members fun _ => none).uncertainties ixa = some usa ∧
      (solveSideFacts cycleSetup.input eff.members fun _ => none).uncertainties ixb = some usb ∧
      (solveSideFacts cycleSetup.input eff.members fun _ => none).hasUnresolved ixa = some true ∧
      uncertaintyKey opaqueCall ∈ usa.map uncertaintyKey ∧
      uncertaintyKey opaqueCall ∈ usb.map uncertaintyKey ∧
      uncertaintyKey missingMember ∈ usa.map uncertaintyKey ∧
      ∀ u ∈ usb, u.kind ≠ missingMember.kind := by
  obtain ⟨eff, heff, ha, hb⟩ := cycleSetup_effective
  obtain ⟨U, hU, hside⟩ := @solveSideFacts_fixedPoint cycleSetup.input _ _ _ heff
    (fun m hm => by
      obtain ⟨-, r, hr⟩ := isRecomputed_iff.mp hm
      exact ⟨⟨r, hr⟩, interned_of (Or.inl ⟨r, hr⟩)⟩) fun _ => none
  obtain ⟨ixa, usa, flag, hixa, husa, hflag, hiff, -, hkeys, -⟩ := hside "a" ha
  obtain ⟨ixb, usb, -, hixb, husb, -, -, -, hkeysb, -, hlocal⟩ := hside "b" hb
  have hopaque : opaqueCall ∈ U "b" := by
    rw [hU.1 "b" hb]
    exact Or.inl (List.mem_append_left _ (List.mem_append_left _ List.mem_cons_self))
  have hcarried : opaqueCall ∈ U "a" := by
    rw [hU.1 "a" ha]
    exact Or.inr ⟨_, List.mem_cons_self, Or.inl ⟨hb, hopaque⟩, by decide⟩
  have hmissing : missingMember ∈ U "a" := by
    rw [hU.1 "a" ha]
    exact Or.inl (List.mem_append_left _ (List.mem_append_left _ List.mem_cons_self))
  have hproduced : ∀ u ∈ producedAt cycleSetup.input eff.members (fun _ => none) "b",
      u.kind = "opaque-callee" := by
    intro u hu
    rcases List.mem_append.mp hu with hu | hu
    · rcases List.mem_append.mp hu with hu | hu
      · obtain rfl := List.mem_singleton.mp hu
        rfl
      · obtain ⟨e, he, hentry⟩ := List.mem_filterMap.mp hu
        obtain rfl := List.mem_singleton.mp he
        unfold opaqueEntry at hentry
        split at hentry
        · obtain rfl := Option.some.inj hentry
          rfl
        · cases hentry
    · cases hu
  refine ⟨eff, heff, ixa, ixb, usa, usb, hixa, hixb, husa, husb, hflag.trans (congrArg some
    (hiff.mpr ⟨"b", ?_, Or.inl (Or.inl ⟨_, rfl, by decide⟩)⟩)), (hkeys _).mpr ⟨_, hcarried, rfl⟩,
    (hkeysb _).mpr ⟨_, hopaque, rfl⟩, (hkeys _).mpr ⟨_, hmissing, rfl⟩, fun u hu hkind => ?_⟩
  · exact Relation.ReflTransGen.single ⟨hb, _, List.mem_cons_self, rfl⟩
  · have hproducer := hproduced u (hlocal u hu (by rw [hkind]; decide))
    rw [hkind] at hproducer
    exact absurd hproducer (by decide)

end AlSem.L4
