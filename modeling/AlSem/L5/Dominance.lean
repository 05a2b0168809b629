/-
# Dominance by frames

`dom` of `l5/ordering.rs`.  A leaf whose frames start those of a later leaf, with no branch and no
loop entered between, is executed before it, in every run that leaves it in: that skips no alternative
of a ternary with the leaf in it, is carried on behind no `asserterror` around it, and leaves no
`repeat` whose condition it stands in by a `break` before that condition has been evaluated (the walk
numbers the condition of a `repeat` before its body, and the run comes to it behind the body).  What
the run does with other leaves does not matter.
-/
import AlSem.Body.OutlineRuns
import AlSem.L5.CoExecution

namespace AlSem.L5

open AlSem.Model AlSem.Body Outline

variable {sel : PCFNNode → Bool → Prop}

/-- **What `dom` says of the chains.** -/
theorem dom_chains {occ occ' : String} {e e' : Entry OrderLeaf Scope}
    (h : dom (entryOp occ e) (entryOp occ' e') = true) :
    e.order < e'.order ∧ e.chain.map Prod.fst <+: e'.chain.map Prod.fst ∧
      ∀ p ∈ e'.chain.drop e.chain.length, InOrder p.2 := by
  unfold dom at h
  split at h
  · cases h
  · rename_i horder
    split at h
    · cases h
    · split at h
      · cases h
      · split at h
        · cases h
        · rename_i hids
          simp only [entryOp, chainFrames_length, ne_eq, Decidable.not_not] at horder hids h
          refine ⟨Nat.lt_of_not_le horder, ?_, ?_⟩
          · rw [chainFrames_ids, List.map_take, chainFrames_ids] at hids
            have hprefix := List.take_prefix e.chain.length (e'.chain.map Prod.fst)
            rwa [← hids] at hprefix
          · intro p hp
            have hkind : p.2.kind ∈
                ((chainFrames (-1) e'.chain).drop e.chain.length).map ScopeFrame.kind := by
              rw [List.map_drop, chainFrames_kinds, ← List.map_drop]
              exact List.mem_map_of_mem hp
            obtain ⟨f, hf, hfk⟩ := List.mem_map.mp hkind
            rw [Bool.not_eq_true', List.any_eq_false] at h
            have hno := h f hf
            rw [Bool.or_eq_true, not_or, beq_iff_eq, hfk] at hno
            exact hno.2

/-- **What dominates a leaf is executed before it**, in every run that leaves it in. -/
theorem dom_executedBefore {tree : PCFNNode} {attributesLc : List String}
    (hids : tree.treeIds.Nodup) {a b : PCFNNode} (hsel : LeavesIn sel a) {t : List PCFNNode}
    {o : Outcome} (hrun : Exec sel (.list (stmtsOf tree)) t o)
    (hbreaks : BreaksLate (stmtsOf tree) a t) (ha : a ∈ tree.subtree) {occ occ' : String}
    {x y : OrderedOp}
    (hx : orderedOp (computeOperationOrder (some tree) attributesLc) occ a = some x)
    (hy : orderedOp (computeOperationOrder (some tree) attributesLc) occ' b = some y)
    (hdom : dom x y = true) {t₁ t₂ : List PCFNNode} (ht : t = t₁ ++ b :: t₂) : a ∈ t₁ := by
  have hstmts := subtrees_stmtsOf tree
  have hb : b ∈ tree.subtree := hstmts.subset (exec_nodes hrun (ht ▸ mem_mid t₁ t₂ b))
  obtain ⟨e, he, rfl, rfl⟩ := orderedOp_entry hids ha hx
  obtain ⟨e', he', rfl, rfl⟩ := orderedOp_entry hids hb hy
  obtain ⟨horder, hprefix, hdrop⟩ := dom_chains hdom
  have hearlier : Earlier InOrder (scopesList (stmtsOf tree)) e.leaf.node e'.leaf.node :=
    earlier_of_chain _ (mem_nodeEntries he) (mem_nodeEntries he') horder hprefix hdrop
  have hnodup : (PCFNNode.listIds (stmtsOf tree)).Nodup := hids.sublist (hstmts.flatMap _)
  have hlate : BreaksLate (stmtsOf tree) _ ([] ++ t) := hbreaks
  rcases exec_earlier hsel hrun (fun m hm => hm) hnodup hlate trivial (siteIds_of_orderedOp hy)
    hearlier ht with hmem | hnil
  · exact hmem
  · exact absurd hnil List.not_mem_nil

/-! ## Two bodies -/

/-- `if B() then ;`. -/
def guardedSecond : PCFNNode where
  kind := .ifThen
  conditionLeaves := some [opNode "b"]

/-- `asserterror Error('')`. -/
def caughtError : PCFNNode where
  kind := .other
  children := some [blockNode [{ kind := .error }]]
  pathHint := some .assertError

/-- `A(); asserterror Error(''); if B() then ;`. -/
def sequenceBody : PCFNNode := blockNode [opNode "a", caughtError, guardedSecond]

/-- What the run chooses: to go on behind the error. -/
def carriedOn (n : PCFNNode) (b : Bool) : Prop := b = true ∨ n = caughtError

def sequenceTrace : List PCFNNode :=
  [opNode "a", caughtError, blockNode [{ kind := .error }], { kind := .error }, opNode "b",
    guardedSecond]

theorem sequenceBody_run :
    Exec carriedOn (.list (stmtsOf sequenceBody)) sequenceTrace .normal := by
  have herror : Exec carriedOn (.node { kind := .error }) [{ kind := .error }] .errored :=
    .unconditional rfl (.error rfl)
  have hblock : Exec carriedOn (.node (blockNode [{ kind := .error }]))
      [blockNode [{ kind := .error }], { kind := .error }] .errored :=
    .unconditional rfl (.sequence (Or.inl rfl) (.stop herror (by simp)))
  have hbody : Exec carriedOn (.body caughtError)
      [blockNode [{ kind := .error }], { kind := .error }] .errored :=
    .sequence (Or.inr (Or.inr (Or.inr rfl))) (.stop hblock (by simp))
  have hcaught : Exec carriedOn (.node caughtError)
      [caughtError, blockNode [{ kind := .error }], { kind := .error }] .normal :=
    .unconditional rfl (.caught rfl rfl (Or.inr rfl) hbody (Or.inl rfl))
  have hcond : Exec carriedOn (.leaves guardedSecond.before) ([opNode "b"] ++ []) .normal :=
    .leavesCons (opNode_run "b") .leavesNil
  have hif : Exec carriedOn (.node guardedSecond)
      (([opNode "b"] ++ []) ++ guardedSecond :: []) .normal :=
    .node hcond (.thenBranch rfl (Or.inl rfl) .nil)
  exact .cons (opNode_run "a") (.cons hcaught (.cons hif .nil))

theorem sequenceBody_leavesIn : LeavesIn carriedOn (opNode "a") := by
  rintro n (hb | rfl) ha
  · cases hb
  · simp [caughtError, blockNode, opNode, PCFNNode.subtree, PCFNNode.subtreesOpt,
      PCFNNode.subtrees] at ha

theorem sequenceBody_breaksLate :
    BreaksLate (stmtsOf sequenceBody) (opNode "a") sequenceTrace := by
  intro m hm hk
  have hkinds : ∀ m ∈ PCFNNode.subtrees (stmtsOf sequenceBody), m.kind ≠ .repeatUntil := by
    simp [sequenceBody, stmtsOf, blockNode, opNode, caughtError, guardedSecond, PCFNNode.body,
      PCFNNode.subtrees, PCFNNode.subtree, PCFNNode.subtreesOpt]
  exact absurd hk (hkinds m hm)

/-- There the first is executed before the last, behind an error that is caught. -/
theorem dom_sequenceBody : ∃ x y,
    orderedOp (computeOperationOrder (some sequenceBody) []) "A" (opNode "a") = some x ∧
    orderedOp (computeOperationOrder (some sequenceBody) []) "B" (opNode "b") = some y ∧
    dom x y = true ∧ opNode "a" ∈ sequenceTrace.take 4 := by
  have hids : sequenceBody.treeIds.Nodup := by decide
  have hops : ∃ x y,
      orderedOp (computeOperationOrder (some sequenceBody) []) "A" (opNode "a") = some x ∧
      orderedOp (computeOperationOrder (some sequenceBody) []) "B" (opNode "b") = some y ∧
      dom x y = true :=
    ⟨⟨"A", 0, true, [makeFrame 0 (-1) "block" none], true⟩,
      ⟨"B", 2, true, [makeFrame 0 (-1) "block" none], false⟩, by decide⟩
  obtain ⟨x, y, hx, hy, hdom⟩ := hops
  have ha : opNode "a" ∈ sequenceBody.subtree := by
    simp [sequenceBody, blockNode, PCFNNode.subtree, PCFNNode.subtreesOpt, PCFNNode.subtrees, opNode]
  exact ⟨x, y, hx, hy, hdom, dom_executedBefore hids sequenceBody_leavesIn sequenceBody_run
    sequenceBody_breaksLate ha hx hy hdom rfl⟩

/-- `repeat break; until Foo();`. -/
def breakingRepeat : PCFNNode where
  kind := .repeatUntil
  conditionLeaves := some [opNode "foo"]
  children := some [{ kind := .breakLoop }]

/-- `repeat break; until Foo(); Bar();`. -/
def breakingBody : PCFNNode := blockNode [breakingRepeat, opNode "bar"]

theorem breakingBody_run : Exec (fun _ b => b = true) (.list (stmtsOf breakingBody))
    [breakingRepeat, { kind := .breakLoop }, opNode "bar"] .normal := by
  have hbreak : Exec (fun _ b => b = true) (.node { kind := .breakLoop })
      [{ kind := .breakLoop }] .broke := .unconditional rfl (.breakLoop rfl)
  have hround : Exec (fun _ b => b = true) (.round breakingRepeat) [{ kind := .breakLoop }]
      .broke := .roundStop (.stop hbreak (by simp)) (by simp [Outcome.latches])
  have hrepeat : Exec (fun _ b => b = true) (.node breakingRepeat)
      [breakingRepeat, { kind := .breakLoop }] .normal :=
    .unconditional rfl (.tailBreak rfl hround)
  exact .cons hrepeat (.cons (opNode_run "bar") .nil)

/-- **A condition that a `break` skips is claimed to dominate what follows the loop.** -/
theorem dominating_condition_skipped : ¬ ∀ (sel : PCFNNode → Bool → Prop) (tree : PCFNNode)
    (attributesLc : List String) (t : List PCFNNode) (o : Outcome) (a b : PCFNNode)
    (occ occ' : String) (x y : OrderedOp) (t₁ t₂ : List PCFNNode), tree.treeIds.Nodup →
    Exec sel (.list (stmtsOf tree)) t o → a ∈ tree.subtree →
    orderedOp (computeOperationOrder (some tree) attributesLc) occ a = some x →
    orderedOp (computeOperationOrder (some tree) attributesLc) occ' b = some y →
    dom x y = true → t = t₁ ++ b :: t₂ → a ∈ t₁ := by
  intro h
  have hids : breakingBody.treeIds.Nodup := by decide
  have hops : ∃ x y,
      orderedOp (computeOperationOrder (some breakingBody) []) "Foo" (opNode "foo") = some x ∧
      orderedOp (computeOperationOrder (some breakingBody) []) "Bar" (opNode "bar") = some y ∧
      dom x y = true :=
    ⟨⟨"Foo", 0, true, [makeFrame 0 (-1) "block" none], false⟩,
      ⟨"Bar", 1, true, [makeFrame 0 (-1) "block" none], true⟩, by decide⟩
  obtain ⟨x, y, hx, hy, hdom⟩ := hops
  have ha : opNode "foo" ∈ breakingBody.subtree := by
    simp [breakingBody, breakingRepeat, blockNode, PCFNNode.subtree, PCFNNode.subtreesOpt,
      PCFNNode.subtrees, opNode]
  have hmem := h _ breakingBody [] _ _ (opNode "foo") (opNode "bar") "Foo" "Bar" x y
    [breakingRepeat, { kind := .breakLoop }] [] hids breakingBody_run ha hx hy hdom rfl
  simp [opNode, breakingRepeat] at hmem

end AlSem.L5
