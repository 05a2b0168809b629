/-
# The evidence walk

`walk_evidence` of `engine/l5/path_walker.rs`: a depth-first walk from a routine along the edges a policy
names, with a result for every terminal it meets and for every branch it stops at.  The walk stops at a
routine already on its path, at a depth, and when it has visited a number of nodes.

A walk of the policy is named by its choices (`WalkKey`): the edge taken at each routine, by its place in
the list the policy gives there, and the terminal at the end.  The complete results are those of different
walks on simple paths within the depth (`visit_spec`), and a walk that has no result goes through a branch
that was cut, with a result there that says why.  So an uncut walk has the result of every simple path
(`walkEvidence_exact_iff`).  The node budget is checked before a branch, not before the start: with a
budget of 0 one node is visited.
-/
import AlSem.L4.CombinedGraph

namespace AlSem.L5.PathWalker

open AlSem.L4

/-! ## 1. The walk -/

/-- An operation the walk can end at. -/
structure Terminal where
  routineId : String
  localLoopDepth : ℤ
  opId : Option String := none

inductive WalkStop where
  | complete | cycleCut | depthCut | nodeBudgetCut | deadEnd
  deriving DecidableEq, Repr

/-- One branch of the walk.  The steps are of any type. -/
structure WalkResult (σ : Type) where
  path : List σ
  effectiveLoopDepth : ℤ
  uncertainties : List Uncertainty
  stop : WalkStop

/-- What a branch carries along. -/
structure PathCtx (σ : Type) where
  routinePath : List String
  inheritedLoopDepth : ℤ
  steps : List σ
  uncertainties : List Uncertainty

structure WalkBounds where
  maxDepth : ℕ := 20
  maxNodes : ℕ := 500

/-- The detector's part: the terminals, the edges to follow and the steps. -/
structure WalkPolicy (σ : Type) where
  terminalsAt : String → PathCtx σ → List Terminal
  expand : String → PathCtx σ → List CombinedEdge
  buildHopStep : CombinedEdge → PathCtx σ → σ
  buildTerminalStep : Terminal → PathCtx σ → σ
  loopDepthOfEdge : CombinedEdge → ℤ

structure WalkOpts (σ : Type) where
  initialLoopDepth : ℤ := 0
  initialSteps : List σ := []

/-- The node counter and the results. -/
structure WalkState (σ : Type) where
  nodesVisited : ℕ
  results : List (WalkResult σ)

section

variable {σ : Type} (policy : WalkPolicy σ) (bounds : WalkBounds)
  (valuesOf : String → List Uncertainty)

/-- The context at a node, with the node's own uncertainties. -/
def ctxHere (node : String) (ctx : PathCtx σ) : PathCtx σ :=
  { ctx with uncertainties := dedupeUncertainties (ctx.uncertainties ++ valuesOf node) }

def completeResult (here : PathCtx σ) (t : Terminal) : WalkResult σ where
  path := here.steps ++ [policy.buildTerminalStep t here]
  effectiveLoopDepth := here.inheritedLoopDepth + t.localLoopDepth
  uncertainties := here.uncertainties
  stop := .complete

/-- A branch that ends at a node without a terminal. -/
def stopResult (here : PathCtx σ) (stop : WalkStop) : WalkResult σ where
  path := here.steps
  effectiveLoopDepth := here.inheritedLoopDepth
  uncertainties := here.uncertainties
  stop := stop

/-- The context behind an edge. -/
def childCtx (edge : CombinedEdge) (here : PathCtx σ) : PathCtx σ where
  routinePath := here.routinePath ++ [edge.to]
  inheritedLoopDepth := here.inheritedLoopDepth + policy.loopDepthOfEdge edge
  steps := here.steps ++ [policy.buildHopStep edge here]
  uncertainties := here.uncertainties

def WalkState.emit (st : WalkState σ) (rs : List (WalkResult σ)) : WalkState σ :=
  { st with results := st.results ++ rs }

/-- The loop over the edges of a node; `descend` visits a child. -/
def visitEdges (descend : String → PathCtx σ → WalkState σ → Option (WalkState σ)) (here : PathCtx σ) :
    List CombinedEdge → WalkState σ → Option (WalkState σ)
  | [], st => some st
  | edge :: edges, st =>
    if bounds.maxNodes ≤ st.nodesVisited then
      visitEdges descend here edges (st.emit [stopResult here .nodeBudgetCut])
    else if edge.to ∈ here.routinePath then
      visitEdges descend here edges (st.emit [stopResult here .cycleCut])
    else if bounds.maxDepth ≤ here.routinePath.length then
      visitEdges descend here edges (st.emit [stopResult here .depthCut])
    else (descend edge.to (childCtx policy edge here) st).bind (visitEdges descend here edges)

/-- `visit`; `none` when the fuel runs out. -/
def visit : ℕ → String → PathCtx σ → WalkState σ → Option (WalkState σ)
  | 0, _, _, _ => none
  | fuel + 1, node, ctx, st =>
    let st := { st with nodesVisited := st.nodesVisited + 1 }
    let here := ctxHere valuesOf node ctx
    let terminals := policy.terminalsAt node here
    let st := st.emit (terminals.map (completeResult policy here))
    let edges := policy.expand node here
    if edges.isEmpty && terminals.isEmpty then some (st.emit [stopResult here .deadEnd])
    else visitEdges policy bounds (visit fuel) here edges st

/-- The context the walk starts with. -/
def startCtx (opts : WalkOpts σ) (start : String) : PathCtx σ where
  routinePath := [start]
  inheritedLoopDepth := opts.initialLoopDepth
  steps := opts.initialSteps
  uncertainties := []

/-- **`walk_evidence`.**  No branch is deeper than the depth bound, which is the fuel. -/
def walkEvidence (opts : WalkOpts σ) (start : String) : Option (WalkState σ) :=
  visit policy bounds valuesOf (bounds.maxDepth + 1) start (startCtx opts start) ⟨0, []⟩

/-! ## 2. What a walk of the policy is -/

/-- The places of the edges taken, and of the terminal at the end. -/
abbrev WalkKey := List ℕ × ℕ

/-- The node and the context behind some edges. -/
def follow : List ℕ → String → PathCtx σ → Option (String × PathCtx σ)
  | [], node, ctx => some (node, ctxHere valuesOf node ctx)
  | i :: is, node, ctx =>
    (policy.expand node (ctxHere valuesOf node ctx))[i]?.bind fun e =>
      follow is e.to (childCtx policy e (ctxHere valuesOf node ctx))

/-- The result of a walk, without any bound. -/
def resultOf (node : String) (ctx : PathCtx σ) (k : WalkKey) : Option (WalkResult σ) :=
  (follow policy valuesOf k.1 node ctx).bind fun p =>
    (policy.terminalsAt p.1 p.2)[k.2]?.map (completeResult policy p.2)

/-- **A simple path within the depth**: no routine comes twice, and there are at most `maxDepth` hops. -/
def SimpleWithin (node : String) (ctx : PathCtx σ) (k : WalkKey) : Prop :=
  ∃ p, follow policy valuesOf k.1 node ctx = some p ∧ p.2.routinePath.Nodup ∧
    k.1.length ≤ bounds.maxDepth

/-- Why an edge is not followed. -/
def Prunes (here : PathCtx σ) (edge : CombinedEdge) (stop : WalkStop) : Prop :=
  stop = .nodeBudgetCut ∨ (stop = .cycleCut ∧ edge.to ∈ here.routinePath) ∨
    (stop = .depthCut ∧ bounds.maxDepth ≤ here.routinePath.length)

/-- **A walk goes through a branch that was cut**, with a result at the routine where it was. -/
def CutOff (node : String) (ctx : PathCtx σ) (results : List (WalkResult σ)) (k : WalkKey) : Prop :=
  ∃ is i js p e stop, k.1 = is ++ i :: js ∧ follow policy valuesOf is node ctx = some p ∧
    (policy.expand p.1 p.2)[i]? = some e ∧ Prunes bounds p.2 e stop ∧ stopResult p.2 stop ∈ results

/-- No branch was cut. -/
def Uncut (results : List (WalkResult σ)) : Prop :=
  ∀ r ∈ results, r.stop = .complete ∨ r.stop = .deadEnd

/-- The complete results, in order. -/
def completes (results : List (WalkResult σ)) : List (WalkResult σ) :=
  results.filter fun r => r.stop = .complete

/-- **An exact walk**: it ends, visits at most `maxNodes` nodes, and its complete results are those of
different walks on simple paths within the depth; a walk without a result was cut off; and where nothing
was cut, every walk on such a path has its result. -/
def Exact (opts : WalkOpts σ) (start : String) : Prop :=
  ∃ st, walkEvidence policy bounds valuesOf opts start = some st ∧ st.nodesVisited ≤ bounds.maxNodes ∧
    ∃ keys : List WalkKey, keys.Nodup ∧
      (completes st.results).map some = keys.map (resultOf policy valuesOf start (startCtx opts start)) ∧
      (∀ k ∈ keys, SimpleWithin policy bounds valuesOf start (startCtx opts start) k) ∧
      (∀ k r, resultOf policy valuesOf start (startCtx opts start) k = some r →
        k ∈ keys ∨ CutOff policy bounds valuesOf start (startCtx opts start) st.results k) ∧
      (Uncut st.results → ∀ k, k ∈ keys ↔
        (∃ r, resultOf policy valuesOf start (startCtx opts start) k = some r) ∧
          SimpleWithin policy bounds valuesOf start (startCtx opts start) k)

end

/-! ## 3. The edges of a routine -/

section

variable {σ : Type} {policy : WalkPolicy σ} {bounds : WalkBounds} {valuesOf : String → List Uncertainty}

theorem completes_append (rs rs' : List (WalkResult σ)) :
    completes (rs ++ rs') = completes rs ++ completes rs' :=
  List.filter_append rs rs'

/-- The result of a walk that starts with one of some edges. -/
def edgeResult (policy : WalkPolicy σ) (valuesOf : String → List Uncertainty) (here : PathCtx σ)
    (edges : List CombinedEdge) : ℕ × WalkKey → Option (WalkResult σ)
  | (i, k) => edges[i]?.bind fun e => resultOf policy valuesOf e.to (childCtx policy e here) k

/-- What a visit answers for. -/
structure Visited (policy : WalkPolicy σ) (bounds : WalkBounds) (valuesOf : String → List Uncertainty)
    (node : String) (ctx : PathCtx σ) (st st' : WalkState σ) : Prop where
  count : st.nodesVisited < st'.nodesVisited ∧
    st'.nodesVisited ≤ max (st.nodesVisited + 1) bounds.maxNodes
  walks : ∃ (emitted : List (WalkResult σ)) (keys : List WalkKey),
    st'.results = st.results ++ emitted ∧ keys.Nodup ∧
    (completes emitted).map some = keys.map (resultOf policy valuesOf node ctx) ∧
    (∀ k ∈ keys, ∃ p, follow policy valuesOf k.1 node ctx = some p ∧ p.2.routinePath.Nodup ∧
      (k.1 ≠ [] → ctx.routinePath.length + k.1.length ≤ bounds.maxDepth)) ∧
    ∀ k r, resultOf policy valuesOf node ctx k = some r →
      k ∈ keys ∨ CutOff policy bounds valuesOf node ctx emitted k

/-- What the loop over some edges answers for. -/
structure EdgesVisited (policy : WalkPolicy σ) (bounds : WalkBounds)
    (valuesOf : String → List Uncertainty) (here : PathCtx σ) (edges : List CombinedEdge)
    (st st' : WalkState σ) : Prop where
  count : st.nodesVisited ≤ st'.nodesVisited ∧
    st'.nodesVisited ≤ max st.nodesVisited bounds.maxNodes
  walks : ∃ (emitted : List (WalkResult σ)) (keys : List (ℕ × WalkKey)),
    st'.results = st.results ++ emitted ∧ keys.Nodup ∧
    (completes emitted).map some = keys.map (edgeResult policy valuesOf here edges) ∧
    (∀ q ∈ keys, ∃ e p, edges[q.1]? = some e ∧
      follow policy valuesOf q.2.1 e.to (childCtx policy e here) = some p ∧ p.2.routinePath.Nodup ∧
      here.routinePath.length + (q.2.1.length + 1) ≤ bounds.maxDepth) ∧
    ∀ q r, edgeResult policy valuesOf here edges q = some r → q ∈ keys ∨
      (∃ e stop, edges[q.1]? = some e ∧ Prunes bounds here e stop ∧ stopResult here stop ∈ emitted) ∨
      ∃ e, edges[q.1]? = some e ∧
        CutOff policy bounds valuesOf e.to (childCtx policy e here) emitted q.2

theorem CutOff.mono {node : String} {ctx : PathCtx σ} {rs rs' : List (WalkResult σ)} {k : WalkKey}
    (h : CutOff policy bounds valuesOf node ctx rs k) (hsub : rs ⊆ rs') :
    CutOff policy bounds valuesOf node ctx rs' k := by
  obtain ⟨is, i, js, p, e, stop, hk, hp, he, hwhy, hmem⟩ := h
  exact ⟨is, i, js, p, e, stop, hk, hp, he, hwhy, hsub hmem⟩

/-- An edge that is cut: its result, then the other edges. -/
theorem EdgesVisited.cut {here : PathCtx σ} {edge : CombinedEdge} {edges : List CombinedEdge}
    {st st' : WalkState σ} {stop : WalkStop} (hstop : stop ≠ .complete)
    (hwhy : Prunes bounds here edge stop)
    (h : EdgesVisited policy bounds valuesOf here edges (st.emit [stopResult here stop]) st') :
    EdgesVisited policy bounds valuesOf here (edge :: edges) st st' := by
  obtain ⟨emitted, keys, hres, hnd, hcomp, hkeys, hall⟩ := h.walks
  refine ⟨h.count, stopResult here stop :: emitted, keys.map fun q => (q.1 + 1, q.2), ?_, ?_, ?_, ?_, ?_⟩
  · rw [hres]
    simp [WalkState.emit]
  · refine hnd.map fun q q' heq => ?_
    obtain ⟨h₁, h₂⟩ := Prod.mk.inj heq
    exact Prod.ext (Nat.succ.inj h₁) h₂
  · have hnone : completes (stopResult here stop :: emitted) = completes emitted := by
      unfold completes
      refine List.filter_cons_of_neg ?_
      rw [decide_eq_true_eq]
      exact hstop
    rw [hnone, hcomp, List.map_map]
    exact List.map_congr_left fun q _ => rfl
  · intro q hq
    obtain ⟨q', hq', rfl⟩ := List.mem_map.mp hq
    exact hkeys q' hq'
  · rintro ⟨i, k⟩ r hr
    cases i with
    | zero => exact Or.inr (Or.inl ⟨edge, stop, rfl, hwhy, List.mem_cons_self⟩)
    | succ i =>
      rcases hall (i, k) r hr with hk | ⟨e, s, he, hw, hm⟩ | ⟨e, he, hc⟩
      · exact Or.inl (List.mem_map_of_mem hk)
      · exact Or.inr (Or.inl ⟨e, s, he, hw, List.mem_cons_of_mem _ hm⟩)
      · exact Or.inr (Or.inr ⟨e, he, hc.mono (List.subset_cons_self _ _)⟩)

/-- An edge that is followed: the visit of its target, then the other edges. -/
theorem EdgesVisited.step {here : PathCtx σ} {edge : CombinedEdge} {edges : List CombinedEdge}
    {st st₁ st' : WalkState σ} (hroom : st.nodesVisited < bounds.maxNodes)
    (hdepth : here.routinePath.length < bounds.maxDepth)
    (hchild : Visited policy bounds valuesOf edge.to (childCtx policy edge here) st st₁)
    (h : EdgesVisited policy bounds valuesOf here edges st₁ st') :
    EdgesVisited policy bounds valuesOf here (edge :: edges) st st' := by
  obtain ⟨emitted, keys, hres, hnd, hcomp, hkeys, hall⟩ := h.walks
  obtain ⟨emitted₁, keys₁, hres₁, hnd₁, hcomp₁, hkeys₁, hall₁⟩ := hchild.walks
  refine ⟨?_, emitted₁ ++ emitted,
    (keys₁.map fun k => (0, k)) ++ keys.map fun q => (q.1 + 1, q.2), ?_, ?_, ?_, ?_, ?_⟩
  · have hc := h.count
    have hc₁ := hchild.count
    omega
  · rw [hres, hres₁, List.append_assoc]
  · refine List.Nodup.append (hnd₁.map fun k k' heq => (Prod.mk.inj heq).2) (hnd.map fun q q' heq => ?_) ?_
    · obtain ⟨h₁, h₂⟩ := Prod.mk.inj heq
      exact Prod.ext (Nat.succ.inj h₁) h₂
    · intro q hq hq'
      obtain ⟨k, -, rfl⟩ := List.mem_map.mp hq
      obtain ⟨q', -, heq⟩ := List.mem_map.mp hq'
      exact Nat.succ_ne_zero _ (Prod.mk.inj heq).1
  · rw [completes_append, List.map_append, hcomp₁, hcomp, List.map_append, List.map_map, List.map_map]
    exact congrArg₂ (· ++ ·) (List.map_congr_left fun k _ => rfl) (List.map_congr_left fun q _ => rfl)
  · intro q hq
    rcases List.mem_append.mp hq with hq | hq
    · obtain ⟨k, hk, rfl⟩ := List.mem_map.mp hq
      obtain ⟨p, hp, hnodup, hlen⟩ := hkeys₁ k hk
      refine ⟨edge, p, rfl, hp, hnodup, ?_⟩
      have hcl : (childCtx policy edge here).routinePath.length = here.routinePath.length + 1 :=
        List.length_append
      by_cases hnil : k.1 = []
      · rw [hnil, List.length_nil]
        omega
      · have hle := hlen hnil
        rw [hcl] at hle
        dsimp only
        omega
    · obtain ⟨q', hq', rfl⟩ := List.mem_map.mp hq
      exact hkeys q' hq'
  · rintro ⟨i, k⟩ r hr
    cases i with
    | zero =>
      rcases hall₁ k r hr with hk | hc
      · exact Or.inl (List.mem_append_left _ (List.mem_map_of_mem hk))
      · exact Or.inr (Or.inr ⟨edge, rfl, hc.mono (List.subset_append_left _ _)⟩)
    | succ i =>
      rcases hall (i, k) r hr with hk | ⟨e, s, he, hw, hm⟩ | ⟨e, he, hc⟩
      · exact Or.inl (List.mem_append_right _ (List.mem_map.mpr ⟨(i, k), hk, rfl⟩))
      · exact Or.inr (Or.inl ⟨e, s, he, hw, List.mem_append_right _ hm⟩)
      · exact Or.inr (Or.inr ⟨e, he, hc.mono (List.subset_append_right _ _)⟩)

/-- **The loop over the edges**, where a visit of a child answers for it. -/
theorem visitEdges_spec {descend : String → PathCtx σ → WalkState σ → Option (WalkState σ)}
    {here : PathCtx σ} (hnodup : here.routinePath.Nodup)
    (hdescend : here.routinePath.length < bounds.maxDepth → ∀ node ctx st,
      ctx.routinePath.Nodup → ctx.routinePath.length = here.routinePath.length + 1 →
      ∃ st', descend node ctx st = some st' ∧ Visited policy bounds valuesOf node ctx st st')
    (edges : List CombinedEdge) (st : WalkState σ) :
    ∃ st', visitEdges policy bounds descend here edges st = some st' ∧
      EdgesVisited policy bounds valuesOf here edges st st' := by
  induction edges generalizing st with
  | nil =>
    refine ⟨st, rfl, ⟨Nat.le_refl _, Nat.le_max_left _ _⟩, [], [], (List.append_nil _).symm,
      List.nodup_nil, rfl, fun _ h => absurd h List.not_mem_nil, ?_⟩
    rintro ⟨i, k⟩ r hr
    simp [edgeResult] at hr
  | cons edge edges ih =>
    rw [visitEdges]
    split
    · obtain ⟨st', hst', h⟩ := ih (st.emit [stopResult here .nodeBudgetCut])
      exact ⟨st', hst', h.cut (by decide) (Or.inl rfl)⟩
    · rename_i hroom
      split
      · rename_i hcycle
        obtain ⟨st', hst', h⟩ := ih (st.emit [stopResult here .cycleCut])
        exact ⟨st', hst', h.cut (by decide) (Or.inr (Or.inl ⟨rfl, hcycle⟩))⟩
      · rename_i hfresh
        split
        · rename_i hdeep
          obtain ⟨st', hst', h⟩ := ih (st.emit [stopResult here .depthCut])
          exact ⟨st', hst', h.cut (by decide) (Or.inr (Or.inr ⟨rfl, hdeep⟩))⟩
        · rename_i hdepth
          have hchild : (childCtx policy edge here).routinePath.Nodup := by
            refine List.nodup_append.mpr ⟨hnodup, List.nodup_singleton _, fun a ha b hb => ?_⟩
            rintro rfl
            exact hfresh (List.mem_singleton.mp hb ▸ ha)
          obtain ⟨st₁, hst₁, hvis⟩ := hdescend (Nat.lt_of_not_le hdepth) edge.to
            (childCtx policy edge here) st hchild List.length_append
          obtain ⟨st', hst', h⟩ := ih st₁
          exact ⟨st', by rw [hst₁]; exact hst',
            EdgesVisited.step (Nat.lt_of_not_le hroom) (Nat.lt_of_not_le hdepth) hvis h⟩

/-! ## 4. The whole walk -/

theorem follow_cons {i : ℕ} {is : List ℕ} {node : String} {ctx : PathCtx σ} {e : CombinedEdge}
    (he : (policy.expand node (ctxHere valuesOf node ctx))[i]? = some e) :
    follow policy valuesOf (i :: is) node ctx =
      follow policy valuesOf is e.to (childCtx policy e (ctxHere valuesOf node ctx)) := by
  rw [follow, he, Option.bind_some]

/-- A walk that goes on is one of the edges and a walk from its target. -/
theorem resultOf_cons (node : String) (ctx : PathCtx σ) (i : ℕ) (k : WalkKey) :
    resultOf policy valuesOf node ctx (i :: k.1, k.2) =
      edgeResult policy valuesOf (ctxHere valuesOf node ctx)
        (policy.expand node (ctxHere valuesOf node ctx)) (i, k) := by
  unfold resultOf edgeResult follow
  rw [Option.bind_assoc]
  rfl

/-- The walks that end at their start. -/
theorem resultOf_nil (node : String) (ctx : PathCtx σ) (j : ℕ) :
    resultOf policy valuesOf node ctx ([], j) =
      (policy.terminalsAt node (ctxHere valuesOf node ctx))[j]?.map
        (completeResult policy (ctxHere valuesOf node ctx)) := rfl

/-- What the terminals of a node and the walks over its edges are, together. -/
theorem Visited.of_edges {node : String} {ctx : PathCtx σ} {st st' : WalkState σ}
    (hnodup : ctx.routinePath.Nodup)
    (h : EdgesVisited policy bounds valuesOf (ctxHere valuesOf node ctx)
      (policy.expand node (ctxHere valuesOf node ctx))
      (WalkState.emit { st with nodesVisited := st.nodesVisited + 1 }
        ((policy.terminalsAt node (ctxHere valuesOf node ctx)).map
          (completeResult policy (ctxHere valuesOf node ctx)))) st') :
    Visited policy bounds valuesOf node ctx st st' := by
  obtain ⟨emitted, keys, hres, hnd, hcomp, hkeys, hall⟩ := h.walks
  have hcount := h.count
  generalize hts : policy.terminalsAt node (ctxHere valuesOf node ctx) = ts at hres hcount
  refine ⟨hcount, ts.map (completeResult policy (ctxHere valuesOf node ctx)) ++ emitted,
    ((List.range ts.length).map fun j => (([], j) : WalkKey)) ++
      keys.map fun q => (q.1 :: q.2.1, q.2.2), ?_, ?_, ?_, ?_, ?_⟩
  · rw [hres, WalkState.emit, List.append_assoc]
  · refine List.Nodup.append (List.nodup_range.map fun j j' heq => (Prod.mk.inj heq).2)
      (hnd.map fun q q' heq => ?_) ?_
    · obtain ⟨h₁, h₂⟩ := Prod.mk.inj heq
      obtain ⟨h₃, h₄⟩ := List.cons.inj h₁
      exact Prod.ext h₃ (Prod.ext h₄ h₂)
    · intro k hk hk'
      obtain ⟨j, -, rfl⟩ := List.mem_map.mp hk
      obtain ⟨q, -, heq⟩ := List.mem_map.mp hk'
      exact List.cons_ne_nil _ _ (Prod.mk.inj heq).1
  · have hts' : completes (ts.map (completeResult policy (ctxHere valuesOf node ctx))) =
        ts.map (completeResult policy (ctxHere valuesOf node ctx)) := by
      refine List.filter_eq_self.mpr fun r hr => ?_
      obtain ⟨t, -, rfl⟩ := List.mem_map.mp hr
      rfl
    rw [completes_append, hts', List.map_append, hcomp, List.map_append,
      List.map_map (f := fun q : ℕ × WalkKey => (q.1 :: q.2.1, q.2.2))]
    refine congrArg₂ (· ++ ·) ?_ (List.map_congr_left fun q _ => ?_)
    · refine List.ext_getElem (by simp) fun j hj _ => ?_
      have hj' : j < ts.length := by simpa using hj
      simp [resultOf_nil, hts, List.getElem?_eq_getElem hj']
    · exact (resultOf_cons node ctx q.1 q.2).symm
  · intro k hk
    rcases List.mem_append.mp hk with hk | hk
    · obtain ⟨j, -, rfl⟩ := List.mem_map.mp hk
      exact ⟨_, rfl, hnodup, fun h => absurd rfl h⟩
    · obtain ⟨q, hq, rfl⟩ := List.mem_map.mp hk
      obtain ⟨e, p, he, hp, hpn, hlen⟩ := hkeys q hq
      exact ⟨p, by rw [follow_cons he]; exact hp, hpn, fun _ => hlen⟩
  · rintro ⟨is, j⟩ r hr
    cases is with
    | nil =>
      rw [resultOf_nil, hts, Option.map_eq_some_iff] at hr
      obtain ⟨t, ht, -⟩ := hr
      refine Or.inl (List.mem_append_left _ (List.mem_map_of_mem ?_))
      exact List.mem_range.mpr (List.getElem?_eq_some_iff.mp ht).1
    | cons i is =>
      rw [resultOf_cons node ctx i (is, j)] at hr
      rcases hall (i, (is, j)) r hr with hk | ⟨e, stop, he, hwhy, hm⟩ | ⟨e, he, hc⟩
      · exact Or.inl (List.mem_append_right _ (List.mem_map.mpr ⟨_, hk, rfl⟩))
      · exact Or.inr ⟨[], i, is, _, e, stop, rfl, rfl, he, hwhy, List.mem_append_right _ hm⟩
      · obtain ⟨is', i', js, p, e', stop, hk, hp, he', hwhy, hm⟩ := hc
        refine Or.inr ⟨i :: is', i', js, p, e', stop, ?_, by rw [follow_cons he]; exact hp, he', hwhy,
          List.mem_append_right _ hm⟩
        exact congrArg (i :: ·) hk

/-- **A visit ends and answers for its node**, with fuel for the depth that is left. -/
theorem visit_spec : ∀ (fuel : ℕ) (node : String) (ctx : PathCtx σ) (st : WalkState σ),
    ctx.routinePath.Nodup → bounds.maxDepth < fuel + ctx.routinePath.length ∧ 0 < fuel →
    ∃ st', visit policy bounds valuesOf fuel node ctx st = some st' ∧
      Visited policy bounds valuesOf node ctx st st'
  | 0, _, _, _, _, hfuel => absurd hfuel.2 (Nat.lt_irrefl _)
  | fuel + 1, node, ctx, st, hnodup, hfuel => by
    have hroutines : (ctxHere valuesOf node ctx).routinePath = ctx.routinePath := rfl
    have hdescend : (ctxHere valuesOf node ctx).routinePath.length < bounds.maxDepth →
        ∀ (node' : String) (ctx' : PathCtx σ) (st₁ : WalkState σ), ctx'.routinePath.Nodup →
        ctx'.routinePath.length = (ctxHere valuesOf node ctx).routinePath.length + 1 →
        ∃ st', visit policy bounds valuesOf fuel node' ctx' st₁ = some st' ∧
          Visited policy bounds valuesOf node' ctx' st₁ st' := by
      intro hlt node' ctx' st₁ hnd hlen
      rw [hroutines] at hlt hlen
      exact visit_spec fuel node' ctx' st₁ hnd ⟨by omega, by omega⟩
    rw [visit]
    split
    · rename_i hempty
      rw [Bool.and_eq_true, List.isEmpty_iff, List.isEmpty_iff] at hempty
      obtain ⟨hedges, hterms⟩ := hempty
      refine ⟨_, rfl, ⟨?_, ?_⟩, ?_⟩
      · exact Nat.lt_succ_self _
      · exact Nat.le_max_left _ _
      · refine ⟨[stopResult (ctxHere valuesOf node ctx) .deadEnd], [], ?_, List.nodup_nil, rfl,
          fun _ h => absurd h List.not_mem_nil, ?_⟩
        · rw [hterms]
          simp [WalkState.emit]
        · rintro ⟨is, j⟩ r hr
          cases is with
          | nil => simp [resultOf_nil, hterms] at hr
          | cons i is =>
            rw [resultOf_cons node ctx i (is, j), hedges] at hr
            simp [edgeResult] at hr
    · have hhere : (ctxHere valuesOf node ctx).routinePath.Nodup := hnodup
      obtain ⟨st', hst', h⟩ := visitEdges_spec hhere hdescend
        (policy.expand node (ctxHere valuesOf node ctx))
        (WalkState.emit { st with nodesVisited := st.nodesVisited + 1 }
          ((policy.terminalsAt node (ctxHere valuesOf node ctx)).map
            (completeResult policy (ctxHere valuesOf node ctx))))
      exact ⟨st', hst', .of_edges hnodup h⟩

/-- A result at a branch that was cut is a cut. -/
theorem Prunes.cut {here : PathCtx σ} {e : CombinedEdge} {stop : WalkStop}
    (h : Prunes bounds here e stop) : stop ≠ .complete ∧ stop ≠ .deadEnd := by
  rcases h with rfl | ⟨rfl, -⟩ | ⟨rfl, -⟩
  all_goals exact ⟨by decide, by decide⟩

theorem walkEvidence_visited (opts : WalkOpts σ) (start : String) :
    ∃ st, walkEvidence policy bounds valuesOf opts start = some st ∧
      Visited policy bounds valuesOf start (startCtx opts start) ⟨0, []⟩ st := by
  refine visit_spec (bounds.maxDepth + 1) start (startCtx opts start) ⟨0, []⟩
    (List.nodup_singleton _) ⟨?_, Nat.succ_pos _⟩
  simp only [startCtx, List.length_singleton]
  omega

/-- The start is visited whatever the budget. -/
theorem budget_of_exact {opts : WalkOpts σ} {start : String}
    (h : Exact policy bounds valuesOf opts start) : 1 ≤ bounds.maxNodes := by
  obtain ⟨st, hst, hvis⟩ := @walkEvidence_visited σ policy bounds valuesOf opts start
  obtain ⟨st', hst', hle, -⟩ := h
  obtain rfl := Option.some.inj (hst.symm.trans hst')
  exact Nat.le_trans hvis.count.1 hle

theorem exact_of_budget (opts : WalkOpts σ) (start : String) (hone : 1 ≤ bounds.maxNodes) :
    Exact policy bounds valuesOf opts start := by
  obtain ⟨st, hst, hvis⟩ := @walkEvidence_visited σ policy bounds valuesOf opts start
  have hcount := hvis.count
  obtain ⟨emitted, keys, hres, hnd, hcomp, hkeys, hall⟩ := hvis.walks
  rw [List.nil_append] at hres
  subst hres
  have hsimple : ∀ k ∈ keys, SimpleWithin policy bounds valuesOf start (startCtx opts start) k := by
    intro k hk
    obtain ⟨p, hp, hpn, hlen⟩ := hkeys k hk
    refine ⟨p, hp, hpn, ?_⟩
    by_cases hnil : k.1 = []
    · rw [hnil]
      exact Nat.zero_le _
    · have := hlen hnil
      omega
  refine ⟨st, hst, hcount.2.trans (by simpa using hone), keys, hnd, hcomp, hsimple, hall,
    fun huncut k => ⟨fun hk => ⟨?_, hsimple k hk⟩, fun hk => ?_⟩⟩
  · have hmem : resultOf policy valuesOf start (startCtx opts start) k ∈
        (completes st.results).map some := hcomp ▸ List.mem_map_of_mem hk
    obtain ⟨r, -, hr⟩ := List.mem_map.mp hmem
    exact ⟨r, hr.symm⟩
  · obtain ⟨⟨r, hr⟩, -⟩ := hk
    refine (hall k r hr).resolve_right ?_
    rintro ⟨is, i, js, p, e, stop, -, -, -, hwhy, hmem⟩
    have hcut := hwhy.cut
    exact (huncut _ hmem).elim hcut.1 hcut.2

/-- **The walk is exact but for a budget of 0**: then it visits its start all the same. -/
theorem walkEvidence_exact_iff (policy : WalkPolicy σ) (bounds : WalkBounds)
    (valuesOf : String → List Uncertainty) (opts : WalkOpts σ) (start : String) :
    Exact policy bounds valuesOf opts start ↔ 1 ≤ bounds.maxNodes :=
  ⟨budget_of_exact, exact_of_budget opts start⟩

end

/-- A policy that follows nothing. -/
def quietPolicy : WalkPolicy String where
  terminalsAt _ _ := []
  expand _ _ := []
  buildHopStep e _ := e.to
  buildTerminalStep t _ := t.routineId
  loopDepthOfEdge _ := 0

/-- A budget of 0. -/
theorem walkEvidence_not_exact :
    ¬ Exact quietPolicy ⟨20, 0⟩ (fun _ => []) { initialSteps := [] } "r" :=
  fun h => absurd (budget_of_exact h) (by decide)

end AlSem.L5.PathWalker
