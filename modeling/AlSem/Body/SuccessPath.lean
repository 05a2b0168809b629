/-
# The success path

What the two success facts of a leaf's order say of the runs that return.  A leaf that dominates the
return is executed in every such run whose exits the walk of the root block has been told of; a leaf
that a run executes is on the success path, but in an arm that ends in an error.
-/
import AlSem.Body.OutlineRuns

namespace AlSem.Body

open AlSem.Model Outline

variable {sel : PCFNNode → Bool → Prop}

/-! ## 1. Statements that always end -/

/-- A list that ends normally ends each of its statements normally. -/
theorem exec_list_normal {ns t : List PCFNNode} (h : Exec sel (.list ns) t .normal) :
    ∀ s ∈ ns, ∃ t', Exec sel (.node s) t' .normal := by
  induction ns generalizing t with
  | nil => simp
  | cons n ns ih =>
    cases h with
    | cons hn hns =>
      intro s hs
      rcases List.mem_cons.mp hs with rfl | hs
      · exact ⟨_, hn⟩
      · exact ih hns s hs
    | stop _ hne => exact absurd rfl hne

theorem exec_body_normal {n : PCFNNode} {t : List PCFNNode} (h : Exec sel (.node n) t .normal) :
    ∃ t', Exec sel (.body n) t' .normal := by
  cases h with
  | node _ h => exact ⟨_, h⟩
  | nodeStop _ hl => simp [Outcome.leaves] at hl

theorem blockTermination_mem {ns : List PCFNNode} (h : terminates (blockTermination ns) = true) :
    ∃ s ∈ ns, terminates (branchTermination s) = true := by
  induction ns with
  | nil => simp [blockTermination, terminates] at h
  | cons n ns ih =>
    rw [blockTermination] at h
    split at h
    · exact ⟨n, List.mem_cons_self, ‹_›⟩
    · obtain ⟨s, hs, hterm⟩ := ih h
      exact ⟨s, List.mem_cons_of_mem _ hs, hterm⟩

theorem branchTermination_block {n : PCFNNode} (hk : n.kind = .block) :
    branchTermination n = blockTermination n.body := by
  cases n with
  | mk k op cs g leaves children elseChildren els range hint =>
    simp only at hk
    subst hk
    cases children <;> simp [branchTermination, blockTerminationOpt, PCFNNode.body, blockTermination]

theorem firstTermination_eq (ns : Option (List PCFNNode)) :
    firstTermination ns = headTermination (ns.getD []) := by
  cases ns <;> rfl

/-- An `if` always ends where both arms do. -/
theorem branchTermination_if {n : PCFNNode} (hk : n.kind = .ifThen)
    (h : terminates (branchTermination n) = true) :
    ∃ b c, n.body.head? = some b ∧ n.elseBody.head? = some c ∧
      terminates (branchTermination b) = true ∧ terminates (branchTermination c) = true := by
  have hhead : ∀ {ns : List PCFNNode} {t : Termination}, headTermination ns = some t →
      ∃ b, ns.head? = some b ∧ branchTermination b = t := by
    intro ns t h
    cases ns with
    | nil => cases h
    | cons b ns => exact ⟨b, rfl, Option.some.inj h⟩
  cases n with
  | mk k op cs g leaves children elseChildren els range hint =>
    simp only at hk
    subst hk
    simp only [branchTermination, firstTermination_eq] at h
    split at h
    · rename_i t t' hb hc
      obtain ⟨b, hbody, rfl⟩ := hhead hb
      obtain ⟨c, helse, rfl⟩ := hhead hc
      split at h
      · rename_i hboth
        rw [Bool.and_eq_true] at hboth
        exact ⟨b, c, hbody, helse, hboth.1, hboth.2⟩
      · simp [terminates] at h
    · simp [terminates] at h

/-- **A statement that always ends does not end normally.** -/
theorem not_normal_of_terminates (n : PCFNNode) : terminates (branchTermination n) = true →
    ∀ t, ¬ Exec sel (.node n) t .normal := by
  induction n using PCFNNode.induct with
  | step n ih =>
    intro hterm t h
    obtain ⟨t', hbody⟩ := exec_body_normal h
    have hlist : ∀ {ns : List PCFNNode} {b : PCFNNode} {t : List PCFNNode}, b ∈ n.parts → b ∈ ns →
        terminates (branchTermination b) = true → ¬ Exec sel (.list ns) t .normal := by
      intro ns b t hpart hb hbterm hrun
      obtain ⟨t'', hb'⟩ := exec_list_normal hrun b hb
      exact ih b hpart hbterm t'' hb'
    cases hk : n.kind with
    | exit | error =>
      cases hbody <;> simp_all [CfnKind.isLeaf, CfnKind.isSequence, CfnKind.isHeadLoop]
    | block =>
      rw [branchTermination_block hk] at hterm
      obtain ⟨s, hs, hsterm⟩ := blockTermination_mem hterm
      have hpart : s ∈ n.parts := List.mem_append_right _ (List.mem_append_left _ hs)
      cases hbody with
      | sequence _ hrun => exact hlist hpart hs hsterm hrun
      | _ => simp_all [CfnKind.isLeaf, CfnKind.isHeadLoop]
    | ifThen =>
      obtain ⟨b, c, hb, hc, hbterm, hcterm⟩ := branchTermination_if hk hterm
      have hb' := List.mem_of_mem_head? hb
      have hc' := List.mem_of_mem_head? hc
      cases hbody with
      | thenBranch _ _ hrun =>
        exact hlist (List.mem_append_right _ (List.mem_append_left _ hb')) hb' hbterm hrun
      | elseBranch _ _ hrun =>
        exact hlist (List.mem_append_right _ (List.mem_append_right _ hc')) hc' hcterm hrun
      | _ => simp_all [CfnKind.isLeaf, CfnKind.isSequence, CfnKind.isHeadLoop]
    | _ =>
      cases n
      simp only at hk
      subst hk
      simp [branchTermination, terminates] at hterm

theorem terminates_iff (t : Termination) : terminates t = true ↔ t ≠ .fallthrough := by
  cases t <;> simp [terminates]

/-- **What the walk of a block takes for the end of it does not end normally.** -/
theorem continues_of_normal {n : PCFNNode} {t : List PCFNNode}
    (h : Exec sel (.node n) t .normal) : continues n = true := by
  by_contra hcont
  rw [Bool.not_eq_true] at hcont
  refine not_normal_of_terminates n ?_ t h
  cases n with
  | mk k op cs g leaves children elseChildren els range hint =>
    cases k <;> simp only [continues, Bool.true_eq_false] at hcont
    case exit | error => simp [branchTermination, terminates]
    case ifThen =>
      simp only [ifContinues, bodyTermination, elseTermination, Bool.or_eq_false_iff,
        beq_eq_false_iff_ne, ne_eq] at hcont
      obtain ⟨-, hthen, helse⟩ := hcont
      cases hb : firstTermination children with
      | none => simp [hb] at hthen
      | some t =>
        cases hc : firstTermination elseChildren with
        | none => simp [hc] at helse
        | some t' =>
          rw [hb, Option.getD_some, ← ne_eq, ← terminates_iff] at hthen
          rw [hc, Option.getD_some, ← ne_eq, ← terminates_iff] at helse
          simp only [branchTermination, hb, hc, hthen, helse, Bool.and_self, if_true]
          unfold joinTermination
          split <;> rfl

/-! ## 2. The leaves that dominate the return -/

/-- No leaf of the outline is said to dominate the return. -/
def NoneDominates (xs : List (Item OrderLeaf Scope)) : Prop := ∀ l ∈ leaves xs, l.dominates = false

theorem NoneDominates.append {xs ys : List (Item OrderLeaf Scope)} (hx : NoneDominates xs)
    (hy : NoneDominates ys) : NoneDominates (xs ++ ys) := by
  intro l hl
  rw [leaves_append] at hl
  exact (List.mem_append.mp hl).elim (hx l) (hy l)

theorem NoneDominates.frame {xs : List (Item OrderLeaf Scope)} {s : Scope}
    (hx : NoneDominates xs) : NoneDominates [.frame s xs] := by
  intro l hl
  simp only [leaves, Item.leaves, List.append_nil] at hl
  exact hx l hl

theorem noneDominates_nil : NoneDominates [] := by simp [NoneDominates, leaves]

theorem noneDominates_leaf (n : PCFNNode) (onSuccess : Bool) :
    NoneDominates [.leaf ⟨n, onSuccess, false⟩] := by
  intro l hl
  simp only [leaves, Item.leaves, List.append_nil, List.mem_singleton] at hl
  rw [hl]

mutual

/-- Below the root block no leaf dominates the return. -/
theorem noneDominates_node : ∀ (n : PCFNNode) (os : Bool), NoneDominates (outlineNode n os false)
  | ⟨k, op, cs, g, leaves, children, elseChildren, els, range, hint⟩, os => by
    cases k with
    | block => exact noneDominates_blockOpt children os
    | ifThen =>
      exact (noneDominates_opt leaves os).append
        ((noneDominates_arm children _ os).append (noneDominates_arm elseChildren _ os))
    | case => exact (noneDominates_opt leaves os).append (noneDominates_branchesOpt children os)
    | caseBranch => exact noneDominates_opt children os
    | whileDo | forTo | foreach =>
      exact (noneDominates_opt leaves os).append (noneDominates_first children os).frame
    | repeatUntil =>
      exact (noneDominates_opt leaves os).append (noneDominates_blockOpt children os).frame
    | tryBlock => exact (noneDominates_opt children os).frame
    | op | call | error | exit =>
      exact (noneDominates_opt leaves os).append (noneDominates_leaf _ os)
    | breakLoop | continueLoop | other =>
      exact (noneDominates_opt leaves os).append (noneDominates_opt children os)

theorem noneDominates_opt : ∀ (ns : Option (List PCFNNode)) (os : Bool),
    NoneDominates (outlineOpt ns os false)
  | none, _ => noneDominates_nil
  | some ns, os => noneDominates_nodes ns os

theorem noneDominates_nodes : ∀ (ns : List PCFNNode) (os : Bool),
    NoneDominates (outlineNodes ns os false)
  | [], _ => noneDominates_nil
  | n :: ns, os => (noneDominates_node n os).append (noneDominates_nodes ns os)

theorem noneDominates_first : ∀ (ns : Option (List PCFNNode)) (os : Bool),
    NoneDominates (outlineFirst ns os)
  | none, _ => noneDominates_nil
  | some ns, os => noneDominates_head ns os

theorem noneDominates_head : ∀ (ns : List PCFNNode) (os : Bool), NoneDominates (outlineHead ns os)
  | [], _ => noneDominates_nil
  | n :: _, os => noneDominates_node n os

theorem noneDominates_arm : ∀ (ns : Option (List PCFNNode)) (kind : String) (os : Bool),
    NoneDominates (outlineArm ns kind os)
  | none, _, _ => noneDominates_nil
  | some ns, kind, os => noneDominates_armHead ns kind os

theorem noneDominates_armHead : ∀ (ns : List PCFNNode) (kind : String) (os : Bool),
    NoneDominates (outlineArmHead ns kind os)
  | [], _, _ => noneDominates_nil
  | n :: _, _, os => (noneDominates_node n (armSuccess (branchTermination n) os)).frame

theorem noneDominates_branchesOpt : ∀ (ns : Option (List PCFNNode)) (os : Bool),
    NoneDominates (outlineBranchesOpt ns os)
  | none, _ => noneDominates_nil
  | some ns, os => noneDominates_branches ns os

theorem noneDominates_branches : ∀ (ns : List PCFNNode) (os : Bool),
    NoneDominates (outlineBranches ns os)
  | [], _ => noneDominates_nil
  | ⟨_, _, _, _, _, children, _, _, _, _⟩ :: ns, os => by
    have hbranch := noneDominates_opt children
      (armSuccess ((firstTermination children).getD .fallthrough) os)
    exact hbranch.frame.append (noneDominates_branches ns os)

theorem noneDominates_blockOpt : ∀ (ns : Option (List PCFNNode)) (os : Bool),
    NoneDominates (outlineBlockOpt ns os)
  | none, _ => noneDominates_nil
  | some ns, os => noneDominates_stmts ns os true false

theorem noneDominates_stmts : ∀ (ns : List PCFNNode) (os reachable returned : Bool),
    NoneDominates (outlineStmts ns os false reachable returned)
  | [], _, _, _ => noneDominates_nil
  | n :: ns, os, reachable, returned => by
    rw [outlineStmts_cons]
    simp only [Bool.and_false, Bool.false_and]
    exact (noneDominates_node n _).append (noneDominates_stmts ns os _ _)

end

/-- What `ir_walk.rs` promises of a node: an arm and a loop body are one node, and what a wrapper holds
is a block. -/
structure OrderShape (n : PCFNNode) : Prop where
  oneBranch : n.kind = .ifThen → n.body.length ≤ 1 ∧ n.elseBody.length ≤ 1
  oneBody : n.kind.isHeadLoop → n.body.length ≤ 1
  wrapped : n.kind = .other ∨ n.kind = .breakLoop ∨ n.kind = .continueLoop →
    ∀ c ∈ n.body, c.kind = .block

/-- The statement ends the block, or may return, as the walk of the root block sees it. -/
def tellsReturn (n : PCFNNode) : Bool := canNormalReturnBeforeAfter n || !continues n

/-- In a wrapper no leaf dominates the return. -/
theorem noneDominates_wrapped {ns : List PCFNNode} (h : ∀ c ∈ ns, c.kind = .block)
    (os d : Bool) : NoneDominates (outlineNodes ns os d) := by
  induction ns with
  | nil => exact noneDominates_nil
  | cons c ns ih =>
    have hc : NoneDominates (outlineNode c os d) := by
      have hk := h c List.mem_cons_self
      cases c
      simp only at hk
      subst hk
      exact noneDominates_blockOpt _ os
    exact hc.append (ih fun c hc => h c (List.mem_cons_of_mem _ hc))

/-- Only leaves and wrappers read the flag. -/
theorem outlineNode_flag {n : PCFNNode} (hk : n.kind ≠ .op ∧ n.kind ≠ .call ∧ n.kind ≠ .breakLoop ∧
    n.kind ≠ .continueLoop ∧ n.kind ≠ .other) (os d : Bool) :
    outlineNode n os d = outlineNode n os false := by
  cases n with
  | mk k op cs g leaves children elseChildren els range hint =>
    cases k <;> first | rfl | simp at hk

/-- **A leaf of a statement that dominates the return** is the statement, an operation or a call. -/
theorem dominates_node {n : PCFNNode} (hshape : OrderShape n) {os d : Bool} {l : OrderLeaf}
    (hl : l ∈ leaves (outlineNode n os d)) (hdom : l.dominates = true) :
    d = true ∧ l.node = n ∧ (n.kind = .op ∨ n.kind = .call) := by
  have hnone : ∀ {xs : List (Item OrderLeaf Scope)}, NoneDominates xs → l ∉ leaves xs := by
    intro xs hxs hmem
    rw [hxs l hmem] at hdom
    cases hdom
  by_cases hk : n.kind ≠ .op ∧ n.kind ≠ .call ∧ n.kind ≠ .breakLoop ∧ n.kind ≠ .continueLoop ∧
      n.kind ≠ .other
  · rw [outlineNode_flag hk] at hl
    exact absurd hl (hnone (noneDominates_node n os))
  · cases n with
    | mk k op cs g leaves children elseChildren els range hint =>
      cases k
      case op | call =>
        simp only [outlineNode, leaves_append] at hl
        rcases List.mem_append.mp hl with hl | hl
        · exact absurd hl (hnone (noneDominates_opt leaves os))
        · simp only [Outline.leaves, Item.leaves, List.append_nil, List.mem_singleton] at hl
          rw [hl] at hdom
          exact ⟨hdom, by rw [hl], by simp⟩
      case breakLoop | continueLoop | other =>
        simp only [outlineNode, leaves_append] at hl
        rcases List.mem_append.mp hl with hl | hl
        · exact absurd hl (hnone (noneDominates_opt leaves os))
        · cases children with
          | none => exact absurd hl (hnone noneDominates_nil)
          | some ns =>
            exact absurd hl (hnone (noneDominates_wrapped (hshape.wrapped (by simp)) os d))
      all_goals exact absurd (by simp) hk

/-- **A leaf of the root block that dominates the return** is one of its statements, and none before
it ends the block or may return. -/
theorem dominates_stmts {ns : List PCFNNode} (hshape : ∀ n ∈ ns, OrderShape n)
    {os reachable returned : Bool} {l : OrderLeaf}
    (hl : l ∈ leaves (outlineStmts ns os true reachable returned)) (hdom : l.dominates = true) :
    reachable = true ∧ returned = false ∧ (l.node.kind = .op ∨ l.node.kind = .call) ∧
      ∃ pre post, ns = pre ++ l.node :: post ∧ ∀ m ∈ pre, tellsReturn m = false := by
  induction ns generalizing reachable returned with
  | nil => simp [outlineStmts, leaves] at hl
  | cons n ns ih =>
    rw [outlineStmts_cons, leaves_append] at hl
    rcases List.mem_append.mp hl with hl | hl
    · obtain ⟨hd, rfl, hk⟩ := dominates_node (hshape n List.mem_cons_self) hl hdom
      rw [Bool.and_eq_true, Bool.and_eq_true, Bool.and_true, Bool.not_eq_true'] at hd
      exact ⟨hd.1.1, hd.1.2, hk, [], ns, rfl, by simp⟩
    · obtain ⟨hreach, hret, hk, pre, post, rfl, hpre⟩ :=
        ih (fun m hm => hshape m (List.mem_cons_of_mem _ hm)) hl
      rw [Bool.and_eq_true] at hreach
      rw [hreach.1, Bool.and_self, Bool.true_and, Bool.or_eq_false_iff] at hret
      refine ⟨hreach.1, hret.1, hk, n :: pre, post, rfl, ?_⟩
      intro m hm
      rcases List.mem_cons.mp hm with rfl | hm
      · rw [tellsReturn, hret.2, hreach.2]
        rfl
      · exact hpre m hm

/-! ## 3. The leaves off the success path -/

theorem outlineOpt_eq (ns : Option (List PCFNNode)) (os d : Bool) :
    outlineOpt ns os d = outlineNodes (ns.getD []) os d := by
  cases ns <;> rfl

theorem outlineBlockOpt_eq (ns : Option (List PCFNNode)) (os : Bool) :
    outlineBlockOpt ns os = outlineStmts (ns.getD []) os false true false := by
  cases ns <;> rfl

/-- What comes behind a node's condition in its outline. -/
def behindOutline (n : PCFNNode) (os d : Bool) : List (Item OrderLeaf Scope) :=
  match n.kind with
  | .block => outlineStmts n.body os false true false
  | .caseBranch => outlineNodes n.body os false
  | .breakLoop | .continueLoop | .other => outlineNodes n.body os d
  | .ifThen => outlineArmHead n.body "if-then" os ++ outlineArmHead n.elseBody "if-else" os
  | .case => outlineBranches n.body os
  | .whileDo | .forTo | .foreach => [.frame loopScope (outlineHead n.body os)]
  | .repeatUntil => [.frame loopScope (outlineStmts n.body os false true false)]
  | .tryBlock => [.frame tryScope (outlineNodes n.body os false)]
  | .op | .call => [.leaf ⟨n, os, d⟩]
  | .error | .exit => [.leaf ⟨n, os, false⟩]

/-- The nodes of a condition, where it comes first. -/
def condNodes (n : PCFNNode) : List PCFNNode :=
  match n.kind with
  | .block | .caseBranch | .tryBlock => []
  | _ => n.leaves

theorem outlineNode_eq (n : PCFNNode) (os d : Bool) :
    outlineNode n os d = outlineNodes (condNodes n) os false ++ behindOutline n os d := by
  cases n with
  | mk k op cs g leaves children elseChildren els range hint =>
    cases k <;> cases children <;> cases elseChildren <;>
      simp only [outlineNode, condNodes, behindOutline, outlineNodes, outlineOpt_eq,
        outlineBlockOpt_eq, outlineFirst, outlineArm, outlineArmHead, outlineBranchesOpt,
        outlineBranches, outlineHead, PCFNNode.leaves, PCFNNode.body, PCFNNode.elseBody,
        Option.getD_none, Option.getD_some, List.nil_append, List.append_nil]

theorem leaves_condNodes {n : PCFNNode} {ns : List PCFNNode} (h : ns = [] ∨ ns = condNodes n)
    (os d : Bool) : leaves (outlineNodes ns os false) ⊆ leaves (outlineNode n os d) := by
  rcases h with rfl | rfl
  · exact List.nil_subset _
  · rw [outlineNode_eq, leaves_append]
    exact List.subset_append_left _ _

theorem before_condNodes (n : PCFNNode) : n.before = [] ∨ n.before = condNodes n := by
  cases hk : n.kind <;> simp [PCFNNode.before, condNodes, hk]

theorem again_condNodes (n : PCFNNode) : n.again = [] ∨ n.again = condNodes n := by
  cases hk : n.kind <;> simp [PCFNNode.again, condNodes, hk]

/-- `x` stands in an arm of `m` that ends in an error. -/
def InErrorArm (m x : PCFNNode) : Prop :=
  m.kind = .ifThen ∧ (∃ b, (b ∈ m.body ∨ b ∈ m.elseBody) ∧ branchTermination b = .error ∧
      x ∈ b.subtree) ∨
    m.kind = .case ∧ ∃ b ∈ m.body, bodyTermination b = .error ∧ x ∈ b.subtree

/-- The outlines of a piece of code that control reaches. -/
def OutlineOf (os : Bool) : Code → List (Item OrderLeaf Scope) → Prop
  | .node n, X | .body n, X | .round n, X | .loop n, X => ∃ d, X = outlineNode n os d
  | .leaves ns, X => ∃ d, X = outlineNodes ns os d
  | .list ns, X => (∃ d, X = outlineNodes ns os d) ∨
      ∃ isRoot returned, X = outlineStmts ns os isRoot true returned

/-- A leaf of the outline for `x`, whose flag is that of the code or which an arm explains. -/
def Explained (root : List PCFNNode) (os : Bool) (X : List (Item OrderLeaf Scope))
    (x : PCFNNode) : Prop :=
  ∃ l ∈ leaves X, l.node = x ∧
    (l.onSuccess = os ∨ ∃ m ∈ PCFNNode.subtrees root, InErrorArm m x)

theorem Explained.mono {root : List PCFNNode} {os : Bool} {X Y : List (Item OrderLeaf Scope)}
    {x : PCFNNode} (h : Explained root os X x) (hsub : leaves X ⊆ leaves Y) :
    Explained root os Y x := by
  obtain ⟨l, hl, hrest⟩ := h
  exact ⟨l, hsub hl, hrest⟩

/-- What is explained in an arm is explained. -/
theorem Explained.arm {root : List PCFNNode} {os : Bool} {t : Termination}
    {X : List (Item OrderLeaf Scope)} {x m : PCFNNode}
    (h : Explained root (armSuccess t os) X x) (hm : m ∈ PCFNNode.subtrees root)
    (harm : t = .error → InErrorArm m x) : Explained root os X x := by
  obtain ⟨l, hl, hx, hflag⟩ := h
  refine ⟨l, hl, hx, ?_⟩
  rcases hflag with hflag | hin
  · by_cases ht : t = .error
    · exact Or.inr ⟨m, hm, harm ht⟩
    · rw [armSuccess, if_neg ht] at hflag
      exact Or.inl hflag
  · exact Or.inr hin

theorem outlineHead_eq {ns : List PCFNNode} (h : ns.length ≤ 1) (os : Bool) :
    outlineHead ns os = outlineNodes ns os false := by
  cases ns with
  | nil => rfl
  | cons n ns =>
    cases ns with
    | nil => simp [outlineHead, outlineNodes]
    | cons m ns => simp at h

/-- The outline of a list of one arm is that of the arm's frame. -/
theorem leaves_outlineArmHead {ns : List PCFNNode} (h : ns.length ≤ 1) (kind : String) (os : Bool)
    {b : PCFNNode} (hb : b ∈ ns) :
    ns = [b] ∧ leaves (outlineNodes ns (armSuccess (branchTermination b) os) false) ⊆
      leaves (outlineArmHead ns kind os) := by
  cases ns with
  | nil => simp at hb
  | cons n ns =>
    cases ns with
    | nil =>
      obtain rfl := List.mem_singleton.mp hb
      refine ⟨rfl, ?_⟩
      simp only [outlineArmHead, outlineNodes, leaves, Item.leaves, List.append_nil]
      exact List.Subset.refl _
    | cons m ns => simp at h

theorem leaves_outlineBranches {ns : List PCFNNode} {b : PCFNNode} (hb : b ∈ ns)
    (hk : b.kind = .caseBranch) (os : Bool) :
    leaves (outlineNode b (armSuccess (bodyTermination b) os) false) ⊆
      leaves (outlineBranches ns os) := by
  induction ns with
  | nil => simp at hb
  | cons n ns ih =>
    rcases List.mem_cons.mp hb with rfl | hmem
    · cases b
      simp only at hk
      subst hk
      simp only [outlineBranches, leaves, Item.leaves]
      exact List.subset_append_left _ _
    · cases n
      simp only [outlineBranches, leaves]
      exact List.Subset.trans (ih hmem) (List.subset_append_right _ _)

theorem mem_subtrees_iff {ns : List PCFNNode} {m : PCFNNode} :
    m ∈ PCFNNode.subtrees ns ↔ ∃ c ∈ ns, m ∈ c.subtree := by
  constructor
  · induction ns with
    | nil => exact fun h => absurd h List.not_mem_nil
    | cons n ns ih =>
      intro h
      rcases List.mem_append.mp h with h | h
      · exact ⟨n, List.mem_cons_self, h⟩
      · obtain ⟨c, hc, hm⟩ := ih h
        exact ⟨c, List.mem_cons_of_mem _ hc, hm⟩
  · rintro ⟨c, hc, hm⟩
    exact PCFNNode.mem_subtrees hc hm

/-- The outline of a loop's body. -/
theorem loop_outline {n : PCFNNode} (hshape : OrderShape n) (hk : IsLoop n.kind) (os d : Bool) :
    ∃ Y, OutlineOf os (.list n.body) Y ∧ leaves Y ⊆ leaves (outlineNode n os d) := by
  have hbehind : ∀ {Y : List (Item OrderLeaf Scope)}, leaves Y ⊆ leaves (behindOutline n os d) →
      leaves Y ⊆ leaves (outlineNode n os d) := by
    intro Y hY
    rw [outlineNode_eq, leaves_append]
    exact List.Subset.trans hY (List.subset_append_right _ _)
  rcases hk with hk | hk
  · refine ⟨outlineNodes n.body os false, Or.inl ⟨false, rfl⟩, hbehind ?_⟩
    rw [← outlineHead_eq (hshape.oneBody hk)]
    rcases hk with hk | hk | hk <;>
      simp only [behindOutline, hk, leaves, Item.leaves, List.append_nil] <;>
      exact List.Subset.refl _
  · refine ⟨outlineStmts n.body os false true false, Or.inr ⟨false, false, rfl⟩, hbehind ?_⟩
    simp only [behindOutline, hk, leaves, Item.leaves, List.append_nil]
    exact List.Subset.refl _

/-- A statement that control reaches, and those behind it. -/
theorem outlineStmts_reached (n : PCFNNode) (ns : List PCFNNode) (os isRoot returned : Bool) :
    ∃ d returned', outlineStmts (n :: ns) os isRoot true returned =
      outlineNode n os d ++ outlineStmts ns os isRoot (continues n) returned' := by
  rw [outlineStmts_cons]
  simp only [Bool.true_and]
  exact ⟨_, _, rfl⟩

/-- Rounds are those of loops. -/
def RoundsOfLoops : Code → Prop
  | .round n | .loop n => IsLoop n.kind
  | _ => True

/-- **A leaf that a run executes is on the success path**, but in an arm that ends in an error. -/
theorem exec_explained {root : List PCFNNode} (hshape : ∀ m ∈ PCFNNode.subtrees root, OrderShape m)
    {c : Code} {t : List PCFNNode} {o : Outcome} (h : Exec sel c t o) :
    PCFNNode.subtrees (codeNodes c) ⊆ PCFNNode.subtrees root → RoundsOfLoops c →
      ∀ {os X}, OutlineOf os c X → ∀ x ∈ t, IsOwnLeaf x.kind → Explained root os X x := by
  induction h with
  | fail | nil | leavesNil | leaf | exit | error | breakLoop | continueLoop | noBranch | loopStop =>
    intro _ _ os X _ x hx
    exact absurd hx List.not_mem_nil
  | @node n t₁ t₂ o _ _ ih₁ ih₂ =>
    rintro hroot - os X ⟨d, rfl⟩ x hx hown
    rw [codeNodes, subtrees_singleton] at hroot
    rcases List.mem_append.mp hx with hx | hx
    · have hsub : PCFNNode.subtrees n.before ⊆ PCFNNode.subtrees root :=
        fun m hm => hroot (subtrees_leaves n (before_subset n hm))
      exact (ih₁ hsub trivial ⟨false, rfl⟩ x hx hown).mono
        (leaves_condNodes (before_condNodes n) os d)
    · rcases List.mem_cons.mp hx with rfl | hx
      · have hleaf : ∃ d', behindOutline x os d = [.leaf ⟨x, os, d'⟩] := by
          rcases hown with hk | hk | hk | hk
          · exact ⟨d, by simp [behindOutline, hk]⟩
          · exact ⟨d, by simp [behindOutline, hk]⟩
          · exact ⟨false, by simp [behindOutline, hk]⟩
          · exact ⟨false, by simp [behindOutline, hk]⟩
        obtain ⟨d', hleaf⟩ := hleaf
        refine ⟨⟨x, os, d'⟩, ?_, rfl, Or.inl rfl⟩
        rw [outlineNode_eq, leaves_append, hleaf]
        exact List.mem_append_right _ List.mem_cons_self
      · have hsub : PCFNNode.subtrees (codeNodes (.body n)) ⊆ PCFNNode.subtrees root := by
          rw [codeNodes, subtrees_singleton]
          exact hroot
        exact ih₂ hsub trivial ⟨d, rfl⟩ x hx hown
  | @nodeStop n t o _ _ ih =>
    rintro hroot - os X ⟨d, rfl⟩ x hx hown
    rw [codeNodes, subtrees_singleton] at hroot
    have hsub : PCFNNode.subtrees n.before ⊆ PCFNNode.subtrees root :=
      fun m hm => hroot (subtrees_leaves n (before_subset n hm))
    exact (ih hsub trivial ⟨false, rfl⟩ x hx hown).mono (leaves_condNodes (before_condNodes n) os d)
  | @cons n ns t₁ t₂ o hn _ ih₁ ih₂ =>
    intro hroot _ os X hX x hx hown
    have hhead : PCFNNode.subtrees (codeNodes (.node n)) ⊆ PCFNNode.subtrees root := by
      rw [codeNodes, subtrees_singleton]
      exact fun m hm => hroot (PCFNNode.mem_subtrees List.mem_cons_self hm)
    have htail : PCFNNode.subtrees ns ⊆ PCFNNode.subtrees root :=
      fun m hm => hroot (List.mem_append_right _ hm)
    rcases hX with ⟨d, rfl⟩ | ⟨isRoot, returned, rfl⟩
    · rcases List.mem_append.mp hx with hx | hx
      · refine (ih₁ hhead trivial ⟨d, rfl⟩ x hx hown).mono ?_
        rw [outlineNodes, leaves_append]
        exact List.subset_append_left _ _
      · refine (ih₂ htail trivial (Or.inl ⟨d, rfl⟩) x hx hown).mono ?_
        rw [outlineNodes, leaves_append]
        exact List.subset_append_right _ _
    · -- the statement has ended normally, so the walk goes on behind it
      obtain ⟨d, returned', heq⟩ := outlineStmts_reached n ns os isRoot returned
      rw [heq, continues_of_normal hn]
      rcases List.mem_append.mp hx with hx | hx
      · refine (ih₁ hhead trivial ⟨d, rfl⟩ x hx hown).mono ?_
        rw [leaves_append]
        exact List.subset_append_left _ _
      · refine (ih₂ htail trivial (Or.inr ⟨isRoot, returned', rfl⟩) x hx hown).mono ?_
        rw [leaves_append]
        exact List.subset_append_right _ _
  | @stop n ns t o _ _ ih =>
    intro hroot _ os X hX x hx hown
    have hhead : PCFNNode.subtrees (codeNodes (.node n)) ⊆ PCFNNode.subtrees root := by
      rw [codeNodes, subtrees_singleton]
      exact fun m hm => hroot (PCFNNode.mem_subtrees List.mem_cons_self hm)
    rcases hX with ⟨d, rfl⟩ | ⟨isRoot, returned, rfl⟩
    · refine (ih hhead trivial ⟨d, rfl⟩ x hx hown).mono ?_
      rw [outlineNodes, leaves_append]
      exact List.subset_append_left _ _
    · obtain ⟨d, returned', heq⟩ := outlineStmts_reached n ns os isRoot returned
      refine (ih hhead trivial ⟨d, rfl⟩ x hx hown).mono ?_
      rw [heq, leaves_append]
      exact List.subset_append_left _ _
  | @leavesCons n ns t₁ t₂ o _ _ ih₁ ih₂ =>
    rintro hroot - os X ⟨d, rfl⟩ x hx hown
    have hhead : PCFNNode.subtrees (codeNodes (.node n)) ⊆ PCFNNode.subtrees root := by
      rw [codeNodes, subtrees_singleton]
      exact fun m hm => hroot (PCFNNode.mem_subtrees List.mem_cons_self hm)
    have htail : PCFNNode.subtrees ns ⊆ PCFNNode.subtrees root :=
      fun m hm => hroot (List.mem_append_right _ hm)
    rw [outlineNodes]
    rcases List.mem_append.mp hx with hx | hx
    · refine (ih₁ hhead trivial ⟨d, rfl⟩ x hx hown).mono ?_
      rw [leaves_append]
      exact List.subset_append_left _ _
    · refine (ih₂ htail trivial ⟨d, rfl⟩ x hx hown).mono ?_
      rw [leaves_append]
      exact List.subset_append_right _ _
  | @leavesStop n ns t o _ _ ih =>
    rintro hroot - os X ⟨d, rfl⟩ x hx hown
    have hhead : PCFNNode.subtrees (codeNodes (.node n)) ⊆ PCFNNode.subtrees root := by
      rw [codeNodes, subtrees_singleton]
      exact fun m hm => hroot (PCFNNode.mem_subtrees List.mem_cons_self hm)
    refine (ih hhead trivial ⟨d, rfl⟩ x hx hown).mono ?_
    rw [outlineNodes, leaves_append]
    exact List.subset_append_left _ _
  | @leavesSkip n ns t o _ _ _ ih =>
    rintro hroot - os X ⟨d, rfl⟩ x hx hown
    have htail : PCFNNode.subtrees ns ⊆ PCFNNode.subtrees root :=
      fun m hm => hroot (List.mem_append_right _ hm)
    refine (ih htail trivial ⟨d, rfl⟩ x hx hown).mono ?_
    rw [outlineNodes, leaves_append]
    exact List.subset_append_right _ _
  | @sequence n t o hk _ ih =>
    rintro hroot - os X ⟨d, rfl⟩ x hx hown
    rw [codeNodes, subtrees_singleton] at hroot
    have hsub : PCFNNode.subtrees n.body ⊆ PCFNNode.subtrees root :=
      fun m hm => hroot (subtrees_body n hm)
    have hbehind : ∀ {Y}, leaves Y ⊆ leaves (behindOutline n os d) → Explained root os Y x →
        Explained root os (outlineNode n os d) x := by
      intro Y hY hex
      refine hex.mono (List.Subset.trans hY ?_)
      rw [outlineNode_eq, leaves_append]
      exact List.subset_append_right _ _
    have hnodes : ∀ d', Explained root os (outlineNodes n.body os d') x :=
      fun d' => ih hsub trivial (Or.inl ⟨d', rfl⟩) x hx hown
    rcases hk with hk | hk | hk | hk
    · refine hbehind ?_ (ih hsub trivial (Or.inr ⟨false, false, rfl⟩) x hx hown)
      simp only [behindOutline, hk]
      exact List.Subset.refl _
    · refine hbehind ?_ (hnodes false)
      simp only [behindOutline, hk]
      exact List.Subset.refl _
    · refine hbehind ?_ (hnodes false)
      simp only [behindOutline, hk, leaves, Item.leaves, List.append_nil]
      exact List.Subset.refl _
    · refine hbehind ?_ (hnodes d)
      simp only [behindOutline, hk]
      exact List.Subset.refl _
  | caught _ _ _ _ _ ih => exact fun hroot hloop => ih hroot hloop
  | @thenBranch n t o hk _ hrun ih =>
    rintro hroot - os X ⟨d, rfl⟩ x hx hown
    rw [codeNodes, subtrees_singleton] at hroot
    obtain ⟨b, hb, hxb⟩ := mem_subtrees_iff.mp (exec_nodes hrun hx)
    have hlen := ((hshape n (hroot n.mem_subtree_self)).oneBranch hk).1
    obtain ⟨-, hsub⟩ := leaves_outlineArmHead hlen "if-then" os hb
    have hex : Explained root (armSuccess (branchTermination b) os)
        (outlineNodes n.body (armSuccess (branchTermination b) os) false) x :=
      ih (fun m hm => hroot (subtrees_body n hm)) trivial (Or.inl ⟨false, rfl⟩) x hx hown
    refine (hex.mono (List.Subset.trans hsub ?_)).arm (hroot n.mem_subtree_self)
      fun hterm => Or.inl ⟨hk, b, Or.inl hb, hterm, hxb⟩
    rw [outlineNode_eq, leaves_append, behindOutline, hk]
    simp only [leaves_append]
    exact List.Subset.trans (List.subset_append_left _ _) (List.subset_append_right _ _)
  | @elseBranch n t o hk _ hrun ih =>
    rintro hroot - os X ⟨d, rfl⟩ x hx hown
    rw [codeNodes, subtrees_singleton] at hroot
    obtain ⟨b, hb, hxb⟩ := mem_subtrees_iff.mp (exec_nodes hrun hx)
    have hlen := ((hshape n (hroot n.mem_subtree_self)).oneBranch hk).2
    obtain ⟨-, hsub⟩ := leaves_outlineArmHead hlen "if-else" os hb
    have hex : Explained root (armSuccess (branchTermination b) os)
        (outlineNodes n.elseBody (armSuccess (branchTermination b) os) false) x :=
      ih (fun m hm => hroot (subtrees_elseBody n hm)) trivial (Or.inl ⟨false, rfl⟩) x hx hown
    refine (hex.mono (List.Subset.trans hsub ?_)).arm (hroot n.mem_subtree_self)
      fun hterm => Or.inl ⟨hk, b, Or.inr hb, hterm, hxb⟩
    rw [outlineNode_eq, leaves_append, behindOutline, hk]
    simp only [leaves_append]
    exact List.Subset.trans (List.subset_append_right _ _) (List.subset_append_right _ _)
  | @branch n b t o hk hkinds hb hrun ih =>
    rintro hroot - os X ⟨d, rfl⟩ x hx hown
    rw [codeNodes, subtrees_singleton] at hroot
    have hxb : x ∈ b.subtree := by
      rw [← subtrees_singleton]
      exact exec_nodes hrun hx
    have hsubb : PCFNNode.subtrees (codeNodes (.node b)) ⊆ PCFNNode.subtrees root := by
      rw [codeNodes, subtrees_singleton]
      exact fun m hm => hroot (subtrees_body n (PCFNNode.mem_subtrees hb hm))
    have hex : Explained root (armSuccess (bodyTermination b) os)
        (outlineNode b (armSuccess (bodyTermination b) os) false) x :=
      ih hsubb trivial ⟨false, rfl⟩ x hx hown
    refine (hex.mono (List.Subset.trans (leaves_outlineBranches hb (hkinds b hb) os) ?_)).arm
      (hroot n.mem_subtree_self) fun hterm => Or.inr ⟨hk, b, hb, hterm, hxb⟩
    rw [outlineNode_eq, leaves_append, behindOutline, hk]
    exact List.subset_append_right _ _
  | headLoop hk _ ih => exact fun hroot _ => ih hroot (Or.inl hk)
  | @tailLoop n t₁ t₂ o hk _ _ ih₁ ih₂ =>
    intro hroot _ os X hX x hx hown
    rcases List.mem_append.mp hx with hx | hx
    · exact ih₁ hroot (Or.inr hk) hX x hx hown
    · exact ih₂ hroot (Or.inr hk) hX x hx hown
  | tailBreak hk _ ih | tailStop hk _ _ ih => exact fun hroot _ => ih hroot (Or.inr hk)
  | @round n t₁ t₂ o₁ o _ _ _ ih₁ ih₂ =>
    rintro hroot hloop os X ⟨d, rfl⟩ x hx hown
    rw [codeNodes, subtrees_singleton] at hroot
    rcases List.mem_append.mp hx with hx | hx
    · obtain ⟨Y, hY, hsub⟩ := loop_outline (hshape n (hroot n.mem_subtree_self)) hloop os d
      exact (ih₁ (fun m hm => hroot (subtrees_body n hm)) trivial hY x hx hown).mono hsub
    · have hsub : PCFNNode.subtrees n.again ⊆ PCFNNode.subtrees root :=
        fun m hm => hroot (subtrees_leaves n (again_subset n hm))
      exact (ih₂ hsub trivial ⟨false, rfl⟩ x hx hown).mono
        (leaves_condNodes (again_condNodes n) os d)
  | @roundStop n t o _ _ ih =>
    rintro hroot hloop os X ⟨d, rfl⟩ x hx hown
    rw [codeNodes, subtrees_singleton] at hroot
    obtain ⟨Y, hY, hsub⟩ := loop_outline (hshape n (hroot n.mem_subtree_self)) hloop os d
    exact (ih (fun m hm => hroot (subtrees_body n hm)) trivial hY x hx hown).mono hsub
  | @loopRound n t₁ t₂ o _ _ ih₁ ih₂ =>
    intro hroot hloop os X hX x hx hown
    rcases List.mem_append.mp hx with hx | hx
    · exact ih₁ hroot hloop hX x hx hown
    · exact ih₂ hroot hloop hX x hx hown
  | loopBreak _ ih | loopLeave _ _ ih => exact fun hroot hloop => ih hroot hloop

/-! ## 4. Runs that return -/

/-- How a piece of code is left by an `exit`. -/
def ExitedBy : Code → List PCFNNode → Prop
  | .body n, t => n.kind = .exit ∨ ∃ x ∈ t, x.kind = .exit
  | _, t => ∃ x ∈ t, x.kind = .exit

theorem ExitedBy.of_mem {c : Code} {t : List PCFNNode} (h : ∃ x ∈ t, x.kind = .exit) :
    ExitedBy c t := by
  cases c <;> first | exact h | exact Or.inr h

/-- **A run that leaves the routine has executed an `exit`.** -/
theorem exec_exited {c : Code} {t : List PCFNNode} {o : Outcome} (h : Exec sel c t o)
    (ho : o = .exited) : ExitedBy c t := by
  induction h with
  | fail | nil | leavesNil | leaf | error | breakLoop | continueLoop | noBranch | loopStop | caught
  | tailBreak | loopBreak => cases ho
  | exit hk => exact Or.inl hk
  | @node n t₁ t₂ o _ _ _ ih =>
    rcases ih ho with hk | ⟨x, hx, hk⟩
    · exact ⟨n, List.mem_append_right _ List.mem_cons_self, hk⟩
    · exact ⟨x, List.mem_append_right _ (List.mem_cons_of_mem _ hx), hk⟩
  | nodeStop _ _ ih | stop _ _ ih | leavesStop _ _ ih | leavesSkip _ _ _ ih | roundStop _ _ ih
  | loopLeave _ _ ih => exact ih ho
  | cons _ _ _ ih | leavesCons _ _ _ ih | round _ _ _ _ ih | loopRound _ _ _ ih =>
    obtain ⟨x, hx, hk⟩ := ih ho
    exact ⟨x, List.mem_append_right _ hx, hk⟩
  | sequence _ _ ih | thenBranch _ _ _ ih | elseBranch _ _ _ ih | branch _ _ _ _ ih
  | headLoop _ _ ih | tailStop _ _ _ ih => exact .of_mem (ih ho)
  | tailLoop _ _ _ _ ih =>
    obtain ⟨x, hx, hk⟩ := ih ho
    exact .of_mem ⟨x, List.mem_append_right _ hx, hk⟩

/-- A run of statements that returns executes a statement, or it has left the routine by then. -/
theorem executed_or_exited {pre post : List PCFNNode} {p : PCFNNode} {t : List PCFNNode}
    {o : Outcome} (h : Exec sel (.list (pre ++ p :: post)) t o) (ho : o = .normal ∨ o = .exited) :
    p ∈ t ∨ ∃ s ∈ pre ++ [p], ∃ x ∈ t, x.kind = .exit ∧ x ∈ s.subtree := by
  have hexit : ∀ {s : PCFNNode} {t : List PCFNNode}, Exec sel (.node s) t .exited →
      ∃ x ∈ t, x.kind = .exit ∧ x ∈ s.subtree := by
    intro s t hrun
    obtain ⟨x, hx, hk⟩ := exec_exited hrun rfl
    have hmem := exec_nodes hrun hx
    rw [codeNodes, subtrees_singleton] at hmem
    exact ⟨x, hx, hk, hmem⟩
  induction pre generalizing t with
  | nil =>
    have hnode : ∀ {t o}, Exec sel (.node p) t o → o = .normal ∨ o = .exited →
        p ∈ t ∨ ∃ x ∈ t, x.kind = .exit ∧ x ∈ p.subtree := by
      intro t o hrun ho
      rcases ho with rfl | rfl
      · cases hrun with
        | node _ _ => exact Or.inl (List.mem_append_right _ List.mem_cons_self)
        | nodeStop _ hl => simp [Outcome.leaves] at hl
      · exact Or.inr (hexit hrun)
    cases h with
    | fail => simp at ho
    | cons hp _ =>
      rcases hnode hp (Or.inl rfl) with hmem | ⟨x, hx, hk⟩
      · exact Or.inl (List.mem_append_left _ hmem)
      · exact Or.inr ⟨p, List.mem_cons_self, x, List.mem_append_left _ hx, hk⟩
    | stop hp _ =>
      exact (hnode hp ho).imp_right fun hx => ⟨p, List.mem_cons_self, hx⟩
  | cons s pre ih =>
    cases h with
    | fail => simp at ho
    | cons _ hrest =>
      rcases ih hrest with hmem | ⟨s', hs', x, hx, hk⟩
      · exact Or.inl (List.mem_append_right _ hmem)
      · exact Or.inr ⟨s', List.mem_cons_of_mem _ hs', x, List.mem_append_right _ hx, hk⟩
    | stop hs hne =>
      obtain rfl := ho.resolve_left hne
      exact Or.inr ⟨s, List.mem_cons_self, hexit hs⟩

/-- **The walk is told of the exits of a run**: where the run executes an `exit` in or before a leaf
statement of the root block, a statement before the leaf ends the block or may return as the walk
judges it. -/
def ReturnsTold (stmts t : List PCFNNode) : Prop :=
  ∀ pre p post, stmts = pre ++ p :: post → p.kind = .op ∨ p.kind = .call →
    (∃ s ∈ pre ++ [p], ∃ x ∈ t, x.kind = .exit ∧ x ∈ s.subtree) → ∃ m ∈ pre, tellsReturn m = true

/-- **The success facts of the runs that return**: a leaf that dominates the return is executed, and
an executed leaf is on the success path, in every run whose exits the walk is told of and that goes
through no arm ending in an error. -/
theorem return_successFacts {tree : PCFNNode} {attributesLc : List String}
    (hids : tree.treeIds.Nodup) (hshape : ∀ m ∈ tree.subtree, OrderShape m) {t : List PCFNNode}
    {o : Outcome} (hrun : Exec sel (.list (stmtsOf tree)) t o) (ho : o = .normal ∨ o = .exited)
    (htold : ReturnsTold (stmtsOf tree) t)
    (harms : ∀ m ∈ tree.subtree, ∀ x ∈ t, x.siteIds ≠ [] → ¬ InErrorArm m x) :
    (∀ n ∈ tree.subtree, ∀ order, HasOrder (computeOperationOrder (some tree) attributesLc) n order →
      order.dominatesSuccessReturn = true → n ∈ t) ∧
    ∀ n ∈ t, ∀ order, HasOrder (computeOperationOrder (some tree) attributesLc) n order →
      order.onSuccessPath = true := by
  have hstmts := (subtrees_stmtsOf tree).subset
  constructor
  · intro n hn order horder hdom
    obtain ⟨e, he, rfl, rfl, -⟩ := entry_of_hasOrder hids hn horder
    have hshapes : ∀ s ∈ stmtsOf tree, OrderShape s := fun s hs =>
      hshape s (hstmts (PCFNNode.mem_subtrees hs s.mem_subtree_self))
    obtain ⟨-, -, hk, pre, post, heq, hpre⟩ :=
      dominates_stmts hshapes (mem_leaves_of_entry he) hdom
    rw [heq] at hrun
    rcases executed_or_exited hrun ho with hmem | hexit
    · exact hmem
    · obtain ⟨m, hm, htells⟩ := htold pre e.leaf.node post heq hk hexit
      rw [hpre m hm] at htells
      cases htells
  · intro n hn order horder
    have hmem : n ∈ PCFNNode.subtrees (stmtsOf tree) := exec_nodes hrun hn
    obtain ⟨e, he, rfl, rfl, -⟩ := entry_of_hasOrder hids (hstmts hmem) horder
    have hne : e.leaf.node.siteIds ≠ [] := by
      rcases horder with ⟨id, hid, -⟩ | ⟨id, hid, -⟩
      · exact List.ne_nil_of_mem (mem_siteIds_operation hid)
      · exact List.ne_nil_of_mem (mem_siteIds_callsite hid)
    have hown : IsOwnLeaf e.leaf.node.kind := by
      refine ownLeaves_list (stmtsOf tree) e.leaf.node ?_
      rw [← leaves_routineOutline]
      exact List.mem_map_of_mem (mem_leaves_of_entry he)
    have hshapes : ∀ m ∈ PCFNNode.subtrees (stmtsOf tree), OrderShape m :=
      fun m hm => hshape m (hstmts hm)
    obtain ⟨l, hl, hnode, hflag⟩ := exec_explained hshapes hrun (fun m hm => hm) trivial
      (Or.inr ⟨true, false, rfl⟩) e.leaf.node hn hown
    obtain ⟨e', he', rfl⟩ := exists_entry hl rootChain 0 1
    have heq : e' = e := by
      obtain ⟨id, hid⟩ := List.exists_mem_of_ne_nil _ hne
      exact eq_of_id (routineEntries_ids hids) he' he (hnode ▸ hid) hid
    rw [heq] at hflag
    rcases hflag with hflag | ⟨m, hm, harm⟩
    · exact hflag
    · exact absurd harm (harms m (hstmts hm) e.leaf.node hn hne)

/-! ## 5. Two bodies -/

/-- An operation. -/
def leafOp (id : String) : PCFNNode where
  kind := .op
  operationId := some id

def blockOf (ns : List PCFNNode) : PCFNNode where
  kind := .block
  children := some ns

def exitLeaf : PCFNNode where
  kind := .exit

/-- `if c then exit;`. -/
def exitIf : PCFNNode where
  kind := .ifThen
  children := some [blockOf [exitLeaf]]

/-- `A(); if c then exit; B();`. -/
def toldBody : PCFNNode := blockOf [leafOp "a", exitIf, leafOp "b"]

theorem leafOp_run (id : String) : Exec sel (.node (leafOp id)) [leafOp id] .normal :=
  .unconditional rfl (.leaf (Or.inl rfl))

theorem exitIf_run : Exec (fun _ _ => True) (.node exitIf) [exitIf, blockOf [exitLeaf], exitLeaf]
    .exited := by
  have hexit : Exec (fun _ _ => True) (.node exitLeaf) [exitLeaf] .exited :=
    .unconditional rfl (.exit rfl)
  have hblock : Exec (fun _ _ => True) (.node (blockOf [exitLeaf])) [blockOf [exitLeaf], exitLeaf]
      .exited := .unconditional rfl (.sequence (Or.inl rfl) (.stop hexit (by simp)))
  exact .unconditional rfl (.thenBranch rfl trivial (.stop hblock (by simp)))

/-- The run that exits. -/
theorem toldBody_run : Exec (fun _ _ => True) (.list (stmtsOf toldBody))
    [leafOp "a", exitIf, blockOf [exitLeaf], exitLeaf] .exited :=
  .cons (leafOp_run "a") (.stop exitIf_run (by simp))

theorem toldBody_subtree : toldBody.subtree =
    [toldBody, leafOp "a", exitIf, blockOf [exitLeaf], exitLeaf, leafOp "b"] := rfl

theorem toldBody_shape : ∀ m ∈ toldBody.subtree, OrderShape m := by
  rw [toldBody_subtree]
  intro m hm
  simp only [List.mem_cons, List.not_mem_nil, or_false] at hm
  rcases hm with rfl | rfl | rfl | rfl | rfl | rfl <;> constructor <;>
    simp [toldBody, leafOp, exitIf, blockOf, exitLeaf, CfnKind.isHeadLoop, PCFNNode.body,
      PCFNNode.elseBody]

/-- Its `exit` stands in the `if` that the walk judges rightly. -/
theorem toldBody_told : ReturnsTold (stmtsOf toldBody)
    [leafOp "a", exitIf, blockOf [exitLeaf], exitLeaf] := by
  have hif : tellsReturn exitIf = true := rfl
  have hstmts : stmtsOf toldBody = [leafOp "a", exitIf, leafOp "b"] := rfl
  rintro pre p post heq hk ⟨s, hs, x, -, hxk, hxs⟩
  rw [hstmts] at heq
  rcases pre with _ | ⟨q, pre⟩
  · -- nothing exits in the first statement
    obtain ⟨rfl, -⟩ := List.cons.inj heq
    obtain rfl := List.mem_singleton.mp hs
    have hsub : (leafOp "a").subtree = [leafOp "a"] := rfl
    rw [hsub, List.mem_singleton] at hxs
    rw [hxs] at hxk
    cases hxk
  · obtain ⟨rfl, htail⟩ := List.cons.inj heq
    rcases pre with _ | ⟨q, pre⟩
    · obtain ⟨rfl, -⟩ := List.cons.inj htail
      simp [exitIf] at hk
    · obtain ⟨rfl, -⟩ := List.cons.inj htail
      exact ⟨exitIf, by simp, hif⟩

/-- The first operation dominates the return, and is executed. -/
theorem successFacts_toldBody :
    (∀ n ∈ toldBody.subtree, ∀ order, HasOrder (computeOperationOrder (some toldBody) []) n order →
      order.dominatesSuccessReturn = true →
        n ∈ [leafOp "a", exitIf, blockOf [exitLeaf], exitLeaf]) ∧
    ∀ n ∈ [leafOp "a", exitIf, blockOf [exitLeaf], exitLeaf], ∀ order,
      HasOrder (computeOperationOrder (some toldBody) []) n order → order.onSuccessPath = true := by
  have hids : toldBody.treeIds.Nodup := by decide
  refine return_successFacts hids toldBody_shape toldBody_run (Or.inr rfl) toldBody_told ?_
  rw [toldBody_subtree]
  intro m hm x hx _ harm
  simp only [List.mem_cons, List.not_mem_nil, or_false] at hm
  have hterm : branchTermination (blockOf [exitLeaf]) = .exit := rfl
  rcases hm with rfl | rfl | rfl | rfl | rfl | rfl <;>
    simp [InErrorArm, toldBody, leafOp, exitIf, blockOf, exitLeaf, PCFNNode.body,
      PCFNNode.elseBody] at harm
  rw [blockOf, exitLeaf] at hterm
  rw [hterm] at harm
  simp at harm

/-- `while c do begin if d then exit end; A();`. -/
def untoldLoop : PCFNNode where
  kind := .whileDo
  children := some [blockOf [exitIf]]

def untoldBody : PCFNNode := blockOf [untoldLoop, leafOp "a"]

theorem untoldBody_run : Exec (fun _ _ => True) (.list (stmtsOf untoldBody))
    [untoldLoop, blockOf [exitIf], exitIf, blockOf [exitLeaf], exitLeaf] .exited := by
  have hbody : Exec (fun _ _ => True) (.node (blockOf [exitIf]))
      [blockOf [exitIf], exitIf, blockOf [exitLeaf], exitLeaf] .exited :=
    .unconditional rfl (.sequence (Or.inl rfl) (.stop exitIf_run (by simp)))
  have hround : Exec (fun _ _ => True) (.round untoldLoop)
      [blockOf [exitIf], exitIf, blockOf [exitLeaf], exitLeaf] .exited :=
    .roundStop (.stop hbody (by simp)) (by simp [Outcome.latches])
  have hloop : Exec (fun _ _ => True) (.node untoldLoop)
      [untoldLoop, blockOf [exitIf], exitIf, blockOf [exitLeaf], exitLeaf] .exited :=
    .unconditional rfl (.headLoop (Or.inl rfl) (.loopLeave hround (by simp [Outcome.leaves])))
  exact .stop hloop (by simp)

/-- **A leaf behind a loop that may exit is said to dominate the return**, and a run that returns does
not execute it. -/
theorem dominating_leaf_skipped : ¬ ∀ (sel : PCFNNode → Bool → Prop) (tree : PCFNNode)
    (attributesLc : List String) (t : List PCFNNode) (o : Outcome), tree.treeIds.Nodup →
    (∀ m ∈ tree.subtree, OrderShape m) → Exec sel (.list (stmtsOf tree)) t o →
    o = .normal ∨ o = .exited →
    (∀ n ∈ tree.subtree, ∀ order, HasOrder (computeOperationOrder (some tree) attributesLc) n order →
      order.dominatesSuccessReturn = true → n ∈ t) ∧
    ∀ n ∈ t, ∀ order, HasOrder (computeOperationOrder (some tree) attributesLc) n order →
      order.onSuccessPath = true := by
  intro h
  have hids : untoldBody.treeIds.Nodup := by decide
  have hsubtree : untoldBody.subtree = [untoldBody, untoldLoop, blockOf [exitIf], exitIf,
      blockOf [exitLeaf], exitLeaf, leafOp "a"] := rfl
  have hshape : ∀ m ∈ untoldBody.subtree, OrderShape m := by
    rw [hsubtree]
    intro m hm
    simp only [List.mem_cons, List.not_mem_nil, or_false] at hm
    rcases hm with rfl | rfl | rfl | rfl | rfl | rfl | rfl <;> constructor <;>
      simp [untoldBody, untoldLoop, leafOp, exitIf, blockOf, exitLeaf, CfnKind.isHeadLoop,
        PCFNNode.body, PCFNNode.elseBody]
  have horder : HasOrder (computeOperationOrder (some untoldBody) []) (leafOp "a")
      ⟨1, 0, true, true⟩ := Or.inl ⟨"a", rfl, by decide⟩
  have hmem := (h _ untoldBody [] _ _ hids hshape untoldBody_run (Or.inr rfl)).1 (leafOp "a")
    (by simp [hsubtree]) _ horder rfl
  simp [leafOp, untoldLoop, blockOf, exitIf, exitLeaf] at hmem

end AlSem.Body
