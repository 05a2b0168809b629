/-
# Which leaves one run may execute

`may_co_execute` of `l5/ordering.rs` on the operations of one routine.  It takes two arms that hang
off one frame for alternatives, and an arm that always ends the routine for one that nothing outside
goes with; both are true of a run that goes through the arms as alternatives (`ArmsApart`), which
a loop around them need not leave so (`eitherLoop`).
-/
import AlSem.Body.OutlineRuns
import AlSem.L5.FrameChain

namespace AlSem.L5

open AlSem.Model AlSem.Body Outline

variable {sel : PCFNNode → Bool → Prop}

/-! ## 1. The test in terms of chains -/

/-- The scope of an arm of an `if` or of a branch of a `case`. -/
def IsArm (s : Scope) : Prop := isSelectorKind s.kind = true

/-- The arm always ends the routine. -/
def EndsRoutine (s : Scope) : Prop := s.info.map BranchInfo.alwaysTerminates = some true

theorem commonPrefixLength_chainFrames (p q : ℤ) (c d : List (ℤ × Scope)) :
    commonPrefixLength (chainFrames p c) (chainFrames q d) = commonLength c d := by
  induction c generalizing p q d with
  | nil => rfl
  | cons x c ih =>
    cases d with
    | nil => rfl
    | cons y d =>
      simp only [chainFrames, commonPrefixLength, commonLength, makeFrame, ih]

theorem chainFrames_getElem? (parent : ℤ) (chain : List (ℤ × Scope)) (n : ℕ) :
    (chainFrames parent chain)[n]?.map ScopeFrame.kind = chain[n]?.map fun p => p.2.kind := by
  rw [← List.getElem?_map, ← List.getElem?_map, chainFrames_kinds]

/-- A frame record of a chain is that of one of its frames. -/
theorem mem_chainFrames {parent : ℤ} {c : List (ℤ × Scope)} {f : ScopeFrame}
    (hf : f ∈ chainFrames parent c) :
    ∃ p ∈ c, f.frameId = p.1 ∧ f.kind = p.2.kind ∧
      f.branchMayFallThrough = p.2.info.map fun i => !i.alwaysTerminates := by
  induction c generalizing parent with
  | nil => exact absurd hf List.not_mem_nil
  | cons x c ih =>
    rw [chainFrames] at hf
    rcases List.mem_cons.mp hf with rfl | hf
    · exact ⟨x, List.mem_cons_self, rfl, rfl, rfl⟩
    · obtain ⟨p, hp, hrest⟩ := ih hf
      exact ⟨p, List.mem_cons_of_mem _ hp, hrest⟩

theorem excludes_chain {c d : List (ℤ × Scope)}
    (h : excludes (chainFrames (-1) c) (chainFrames (-1) d) = true) :
    ∃ p ∈ c, IsArm p.2 ∧ EndsRoutine p.2 ∧ p.1 ∉ d.map Prod.fst := by
  unfold excludes at h
  obtain ⟨f, hf, htest⟩ := List.any_eq_true.mp h
  rw [Bool.and_eq_true, Bool.and_eq_true, beq_iff_eq, Bool.not_eq_true', chainFrames_ids] at htest
  obtain ⟨⟨hkind, hfall⟩, hid⟩ := htest
  obtain ⟨p, hp, hpid, hpkind, hpfall⟩ := mem_chainFrames hf
  refine ⟨p, hp, ?_, ?_, ?_⟩
  · rw [IsArm, ← hpkind]
    exact hkind
  · rw [hpfall] at hfall
    obtain ⟨i, hi, hterm⟩ := Option.map_eq_some_iff.mp hfall
    rw [EndsRoutine, hi]
    simpa using hterm
  · rw [← hpid]
    intro hmem
    rw [List.contains_iff_mem.mpr hmem] at hid
    cases hid

/-- **Where two operations are taken to exclude each other**, their chains part at two arms, or one
stands in an arm that ends the routine and the other does not. -/
theorem excluded_chain {occ occ' : String} {e e' : Entry OrderLeaf Scope} (hocc : occ ≠ occ')
    (h : mayCoExecute (entryOp occ e) (entryOp occ' e') = false) :
    PartAt IsArm e.chain e'.chain ∨
      (∃ p ∈ e.chain, IsArm p.2 ∧ EndsRoutine p.2 ∧ p.1 ∉ e'.chain.map Prod.fst) ∨
      ∃ p ∈ e'.chain, IsArm p.2 ∧ EndsRoutine p.2 ∧ p.1 ∉ e.chain.map Prod.fst := by
  unfold mayCoExecute at h
  have hne : (entryOp occ e).occurrenceId ≠ (entryOp occ' e').occurrenceId := hocc
  rw [if_neg hne] at h
  simp only [entryOp, commonPrefixLength_chainFrames] at h
  have hexcl : (!excludes (chainFrames (-1) e.chain) (chainFrames (-1) e'.chain) &&
      !excludes (chainFrames (-1) e'.chain) (chainFrames (-1) e.chain)) = false →
      (∃ p ∈ e.chain, IsArm p.2 ∧ EndsRoutine p.2 ∧ p.1 ∉ e'.chain.map Prod.fst) ∨
        ∃ p ∈ e'.chain, IsArm p.2 ∧ EndsRoutine p.2 ∧ p.1 ∉ e.chain.map Prod.fst := by
    intro h
    rw [Bool.and_eq_false_iff, Bool.not_eq_false', Bool.not_eq_false'] at h
    exact h.imp excludes_chain excludes_chain
  split at h
  · rename_i f g hf hg
    by_cases hdiv : (isSelectorKind f.kind && isSelectorKind g.kind) = true
    · left
      rw [Bool.and_eq_true] at hdiv
      have hkind := chainFrames_getElem? (-1) e.chain (commonLength e.chain e'.chain)
      have hkind' := chainFrames_getElem? (-1) e'.chain (commonLength e.chain e'.chain)
      rw [hf, Option.map_some] at hkind
      rw [hg, Option.map_some] at hkind'
      obtain ⟨p, hp, hpk⟩ := Option.map_eq_some_iff.mp hkind.symm
      obtain ⟨q, hq, hqk⟩ := Option.map_eq_some_iff.mp hkind'.symm
      refine ⟨p, q, hp, hq, ?_, ?_⟩
      · rw [IsArm, hpk]
        exact hdiv.1
      · rw [IsArm, hqk]
        exact hdiv.2
    · rw [if_neg hdiv] at h
      exact Or.inr (hexcl h)
  · rw [if_neg Bool.false_ne_true] at h
    exact Or.inr (hexcl h)

/-! ## 2. Runs through arms -/

/-- The run executes a leaf with an id in these scopes. -/
def Enters (t : List PCFNNode) (ys : List (Item PCFNNode Scope)) : Prop :=
  ∃ n ∈ t, n ∈ leaves ys ∧ n.siteIds ≠ []

/-- **The run goes through the arms as alternatives**: through at most one of the arms that hang off
one frame, and where it goes through an arm that ends the routine, through nothing else. -/
structure ArmsApart (body : List (Item PCFNNode Scope)) (t : List PCFNNode) : Prop where
  oneArm : ∀ zs p ys q ys', Within body zs → [Item.frame p ys, Item.frame q ys'].Sublist zs →
    IsArm p → IsArm q → ¬ (Enters t ys ∧ Enters t ys')
  lastArm : ∀ zs p ys, Within body zs → Item.frame p ys ∈ zs → IsArm p → EndsRoutine p →
    Enters t ys → ∀ n ∈ t, n ∈ leaves body → n.siteIds ≠ [] → n ∈ leaves ys

/-- The entries of a routine without their flags. -/
def nodeEntries (tree : PCFNNode) : List (Entry PCFNNode Scope) :=
  entries (scopesList (stmtsOf tree)) rootChain 0 1

theorem nodeEntries_eq (tree : PCFNNode) :
    nodeEntries tree = (routineEntries tree).map (Entry.relabel OrderLeaf.node) := by
  rw [nodeEntries, routineEntries, ← entries_relabel, routineOutline, relabel_outlineStmts]

theorem mem_nodeEntries {tree : PCFNNode} {e : Entry OrderLeaf Scope}
    (he : e ∈ routineEntries tree) : e.relabel OrderLeaf.node ∈ nodeEntries tree := by
  rw [nodeEntries_eq]
  exact List.mem_map_of_mem he

/-- A node with an id has one entry. -/
theorem entry_unique {tree : PCFNNode} (hids : tree.treeIds.Nodup)
    {e : Entry OrderLeaf Scope} {e' : Entry PCFNNode Scope} (he : e ∈ routineEntries tree)
    (he' : e' ∈ nodeEntries tree) (hnode : e'.leaf = e.leaf.node) {id : String}
    (hid : id ∈ e.leaf.node.siteIds) : e' = e.relabel OrderLeaf.node := by
  rw [nodeEntries_eq] at he'
  obtain ⟨e'', he'', rfl⟩ := List.mem_map.mp he'
  have hnode' : e''.leaf.node = e.leaf.node := hnode
  have hid' : id ∈ e''.leaf.node.siteIds := by rw [hnode']; exact hid
  rw [eq_of_id (routineEntries_ids hids) he'' he hid' hid]

/-- An executed leaf stands in an arm that ends the routine only with every other. -/
theorem ArmsApart.mem_chain {tree : PCFNNode} {t : List PCFNNode}
    (h : ArmsApart (scopesList (stmtsOf tree)) t) (hids : tree.treeIds.Nodup)
    {e e' : Entry OrderLeaf Scope} (he : e ∈ routineEntries tree) (he' : e' ∈ routineEntries tree)
    (ht : e.leaf.node ∈ t) (ht' : e'.leaf.node ∈ t) (hne : e.leaf.node.siteIds ≠ [])
    (hne' : e'.leaf.node.siteIds ≠ []) {p : ℤ × Scope} (hp : p ∈ e.chain) (harm : IsArm p.2)
    (hends : EndsRoutine p.2) : p.1 ∈ e'.chain.map Prod.fst := by
  have hmem := mem_nodeEntries he
  obtain ⟨d, hd, -⟩ := entries_chain _ hmem
  have hpd : p ∈ d := by
    have hp' : p ∈ rootChain ++ d := hd ▸ hp
    rcases List.mem_append.mp hp' with hp' | hp'
    · -- the root block is no arm
      obtain rfl := List.mem_singleton.mp hp'
      exact absurd harm (by simp [IsArm, isSelectorKind, rootScope])
    · exact hp'
  obtain ⟨zs, ys, hwithin, hframe, hleaf, hall⟩ := around _ hmem hd hpd
  have hleaf' : e'.leaf.node ∈ leaves ys :=
    h.lastArm zs p.2 ys hwithin hframe harm hends ⟨_, ht, hleaf, hne⟩ _ ht'
      (mem_leaves_of_entry (mem_nodeEntries he')) hne'
  obtain ⟨e'', he'', hnode, hchain⟩ := hall _ hleaf'
  obtain ⟨id, hid⟩ := List.exists_mem_of_ne_nil _ hne'
  obtain rfl := entry_unique hids he' he'' hnode hid
  exact List.mem_map_of_mem hchain

/-- **Mutual exclusion is not claimed wrongly** of a run that goes through the arms as
alternatives. -/
theorem mayCoExecute_of_armsApart {tree : PCFNNode} {attributesLc : List String}
    (hids : tree.treeIds.Nodup) {t : List PCFNNode} {o : Outcome}
    (hrun : Exec sel (.list (stmtsOf tree)) t o)
    (harms : ArmsApart (scopesList (stmtsOf tree)) t) {a b : PCFNNode} (ha : a ∈ t) (hb : b ∈ t)
    {occ occ' : String} (hocc : occ ≠ occ') {x y : OrderedOp}
    (hx : orderedOp (computeOperationOrder (some tree) attributesLc) occ a = some x)
    (hy : orderedOp (computeOperationOrder (some tree) attributesLc) occ' b = some y) :
    mayCoExecute x y = true := by
  have htree : ∀ {n : PCFNNode}, n ∈ t → n ∈ tree.subtree :=
    fun hn => (subtrees_stmtsOf tree).subset (exec_nodes hrun hn)
  obtain ⟨e, he, rfl, rfl⟩ := orderedOp_entry hids (htree ha) hx
  obtain ⟨e', he', rfl, rfl⟩ := orderedOp_entry hids (htree hb) hy
  have hne := siteIds_of_orderedOp hx
  have hne' := siteIds_of_orderedOp hy
  by_contra hfalse
  rw [Bool.not_eq_true] at hfalse
  rcases excluded_chain hocc hfalse with hpart | ⟨p, hp, harm, hends, hnot⟩ |
    ⟨p, hp, harm, hends, hnot⟩
  · obtain ⟨zs, p, ys, q, ys', hwithin, hpair, harm, harm', hleaf, hleaf'⟩ :=
      parting_of_partAt _ (mem_nodeEntries he) (mem_nodeEntries he') hpart
    rcases hpair with hpair | hpair
    · exact harms.oneArm zs p ys q ys' hwithin hpair harm harm'
        ⟨⟨_, ha, hleaf, hne⟩, ⟨_, hb, hleaf', hne'⟩⟩
    · exact harms.oneArm zs q ys' p ys hwithin hpair harm' harm
        ⟨⟨_, hb, hleaf', hne'⟩, ⟨_, ha, hleaf, hne⟩⟩
  · exact hnot (harms.mem_chain hids he he' ha hb hne hne' hp harm hends)
  · exact hnot (harms.mem_chain hids he' he hb ha hne' hne hp harm hends)

/-! ## 3. Two bodies -/

/-- An operation. -/
def opNode (id : String) : PCFNNode where
  kind := .op
  operationId := some id

def blockNode (ns : List PCFNNode) : PCFNNode where
  kind := .block
  children := some ns

/-- `begin A(); B(); exit end`. -/
def exitingArm : PCFNNode := blockNode [opNode "a", opNode "b", { kind := .exit }]

def ifExits : PCFNNode where
  kind := .ifThen
  children := some [exitingArm]

/-- `if c then begin A(); B(); exit end`. -/
def exitingBody : PCFNNode := blockNode [ifExits]

theorem opNode_run (id : String) : Exec sel (.node (opNode id)) [opNode id] .normal :=
  .unconditional rfl (.leaf (Or.inl rfl))

/-- The run that goes into the arm. -/
theorem exitingBody_run : Exec (fun _ _ => True) (.list (stmtsOf exitingBody))
    [ifExits, exitingArm, opNode "a", opNode "b", { kind := .exit }] .exited := by
  have hexit : Exec (fun _ _ => True) (.node { kind := .exit }) [{ kind := .exit }] .exited :=
    .unconditional rfl (.exit rfl)
  have harm : Exec (fun _ _ => True) (.node exitingArm)
      [exitingArm, opNode "a", opNode "b", { kind := .exit }] .exited :=
    .unconditional rfl (.sequence (Or.inl rfl)
      (.cons (opNode_run "a") (.cons (opNode_run "b") (.stop hexit (by simp)))))
  have hif : Exec (fun _ _ => True) (.node ifExits)
      [ifExits, exitingArm, opNode "a", opNode "b", { kind := .exit }] .exited :=
    .unconditional rfl (.thenBranch rfl trivial (.stop harm (by simp)))
  exact .stop hif (by simp)

/-- The scopes of that body: one arm, which ends the routine. -/
theorem exitingBody_scopes : scopesList (stmtsOf exitingBody) =
    [.frame (branchScope "if-then" .exit)
      [.leaf (opNode "a"), .leaf (opNode "b"), .leaf { kind := .exit }]] := rfl

/-- The run goes through one arm only, and nothing with an id is outside. -/
theorem exitingBody_armsApart : ArmsApart (scopesList (stmtsOf exitingBody))
    [ifExits, exitingArm, opNode "a", opNode "b", { kind := .exit }] := by
  rw [exitingBody_scopes]
  have hlists : ∀ {zs}, Within [Item.frame (branchScope "if-then" .exit)
      [.leaf (opNode "a"), .leaf (opNode "b"), .leaf { kind := .exit }]] zs →
      zs = [Item.frame (branchScope "if-then" .exit)
        [.leaf (opNode "a"), .leaf (opNode "b"), .leaf { kind := .exit }]] ∨
      ∀ p ys, Item.frame p ys ∉ zs := by
    intro zs h
    cases h with
    | here => exact Or.inl rfl
    | under hmem h =>
      obtain ⟨-, rfl⟩ := Item.frame.inj (List.mem_singleton.mp hmem)
      cases h with
      | here => exact Or.inr (by simp)
      | under hmem' _ => simp at hmem'
  constructor
  · intro zs p ys q ys' hwithin hpair _ _ _
    rcases hlists hwithin with rfl | hnone
    · have := hpair.length_le
      simp at this
    · exact hnone p ys (hpair.subset List.mem_cons_self)
  · intro zs p ys hwithin hmem _ _ _ n _ hleaf _
    rcases hlists hwithin with rfl | hnone
    · obtain ⟨-, rfl⟩ := Item.frame.inj (List.mem_singleton.mp hmem)
      simpa [leaves, Item.leaves] using hleaf
    · exact absurd hmem (hnone p ys)

/-- There the two operations may co-execute. -/
theorem mayCoExecute_exitingBody :
    ∃ x y, orderedOp (computeOperationOrder (some exitingBody) []) "A" (opNode "a") = some x ∧
      orderedOp (computeOperationOrder (some exitingBody) []) "B" (opNode "b") = some y ∧
      mayCoExecute x y = true := by
  have hids : exitingBody.treeIds.Nodup := by decide
  have hx : (orderedOp (computeOperationOrder (some exitingBody) []) "A" (opNode "a")).isSome := by
    decide
  have hy : (orderedOp (computeOperationOrder (some exitingBody) []) "B" (opNode "b")).isSome := by
    decide
  obtain ⟨x, hx⟩ := Option.isSome_iff_exists.mp hx
  obtain ⟨y, hy⟩ := Option.isSome_iff_exists.mp hy
  exact ⟨x, y, hx, hy, mayCoExecute_of_armsApart hids exitingBody_run exitingBody_armsApart
    (by simp) (by simp) (by decide) hx hy⟩

/-- `if d then A() else B()`. -/
def ifEither : PCFNNode where
  kind := .ifThen
  children := some [blockNode [opNode "a"]]
  elseChildren := some [blockNode [opNode "b"]]

def eitherLoop : PCFNNode where
  kind := .whileDo
  children := some [blockNode [ifEither]]

/-- `while c do if d then A() else B();`. -/
def eitherBody : PCFNNode := blockNode [eitherLoop]

/-- The run with two rounds, one through each arm. -/
theorem eitherBody_run : Exec (fun _ _ => True) (.list (stmtsOf eitherBody))
    [eitherLoop, blockNode [ifEither], ifEither, blockNode [opNode "a"], opNode "a",
      blockNode [ifEither], ifEither, blockNode [opNode "b"], opNode "b"] .normal := by
  have hblock : ∀ {m t}, Exec (fun _ _ => True) (.node m) t .normal →
      Exec (fun _ _ => True) (.node (blockNode [m])) (blockNode [m] :: t) .normal := by
    intro m t h
    have hlist : Exec (fun _ _ => True) (.list [m]) (t ++ []) .normal := .cons h .nil
    rw [List.append_nil] at hlist
    exact .unconditional rfl (.sequence (Or.inl rfl) hlist)
  have hlist : ∀ {m t}, Exec (fun _ _ => True) (.node m) t .normal →
      Exec (fun _ _ => True) (.list [m]) t .normal := by
    intro m t h
    have := Exec.cons h .nil
    rwa [List.append_nil] at this
  have hthen : Exec (fun _ _ => True) (.node ifEither)
      [ifEither, blockNode [opNode "a"], opNode "a"] .normal :=
    .unconditional rfl (.thenBranch rfl trivial (hlist (hblock (opNode_run "a"))))
  have helse : Exec (fun _ _ => True) (.node ifEither)
      [ifEither, blockNode [opNode "b"], opNode "b"] .normal :=
    .unconditional rfl (.elseBranch rfl trivial (hlist (hblock (opNode_run "b"))))
  have hround : ∀ {t}, Exec (fun _ _ => True) (.node ifEither) t .normal →
      Exec (fun _ _ => True) (.round eitherLoop) (blockNode [ifEither] :: t) .normal := by
    intro t h
    have := Exec.round (n := eitherLoop) (hlist (hblock h)) (Or.inl rfl) .leavesNil
    rwa [List.append_nil] at this
  have hloop := Exec.loopRound (hround hthen) (.loopRound (hround helse) .loopStop)
  exact hlist (.unconditional rfl (.headLoop (Or.inl rfl) hloop))

/-- **Two arms of an `if` in a loop are claimed to exclude each other**, and one run executes
both. -/
theorem exclusive_arms_both_run : ¬ ∀ (sel : PCFNNode → Bool → Prop) (tree : PCFNNode)
    (attributesLc : List String) (t : List PCFNNode) (o : Outcome) (a b : PCFNNode)
    (occ occ' : String) (x y : OrderedOp), tree.treeIds.Nodup →
    Exec sel (.list (stmtsOf tree)) t o → a ∈ t → b ∈ t → occ ≠ occ' →
    orderedOp (computeOperationOrder (some tree) attributesLc) occ a = some x →
    orderedOp (computeOperationOrder (some tree) attributesLc) occ' b = some y →
    mayCoExecute x y = true := by
  intro h
  have hids : eitherBody.treeIds.Nodup := by decide
  have hfalse : ∃ x y,
      orderedOp (computeOperationOrder (some eitherBody) []) "A" (opNode "a") = some x ∧
      orderedOp (computeOperationOrder (some eitherBody) []) "B" (opNode "b") = some y ∧
      mayCoExecute x y = false := by
    refine ⟨⟨"A", 0, true, [makeFrame 0 (-1) "block" none, makeFrame 1 0 "loop" none,
      makeFrame 2 1 "if-then" (some ⟨false, none⟩)], false⟩, ⟨"B", 1, true,
      [makeFrame 0 (-1) "block" none, makeFrame 1 0 "loop" none,
      makeFrame 3 1 "if-else" (some ⟨false, none⟩)], false⟩, ?_⟩
    decide
  obtain ⟨x, y, hx, hy, hno⟩ := hfalse
  have hyes := h _ eitherBody [] _ _ (opNode "a") (opNode "b") "A" "B" x y hids eitherBody_run
    (by simp) (by simp) (by decide) hx hy
  rw [hno] at hyes
  cases hyes

end AlSem.L5
