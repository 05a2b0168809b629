/-
# The outline of a body

A statement tree as an outline: its leaves, and around them the scope frames that the walk of
`program/body/operation_order.rs` pushes.  The walk is the filling in of this outline
(`collectNode_eq_fill`): a leaf gets its position and the frame around it, and the frame table lists
the frames with their parents.
-/
import AlSem.Body.OperationOrder
import AlSem.Lib.Outline
import Mathlib.Data.List.Flatten
import Mathlib.Data.List.Perm.Subperm

namespace AlSem.Body

open AlSem.Model Outline

/-! ## 1. Outlines -/

/-- What a scope frame is, apart from its number. -/
structure Scope where
  kind : String
  info : Option BranchInfo

/-- The scope of a loop body. -/
def loopScope : Scope := ⟨"loop", none⟩

/-- The scope of a `try`. -/
def tryScope : Scope := ⟨"try", none⟩

/-- The scope of a branch that terminates so. -/
def branchScope (kind : String) (t : Termination) : Scope := ⟨kind, some (branchInfo t)⟩

/-- A leaf with the two flags the walk gives it. -/
structure OrderLeaf where
  node : PCFNNode
  onSuccess : Bool
  dominates : Bool

mutual

/-- **The scopes of a node**: its leaves and the frames around them, in the walk's order. -/
def scopes : PCFNNode → List (Item PCFNNode Scope)
  | ⟨k, op, cs, g, leaves, children, elseChildren, els, range, hint⟩ =>
    match k with
    | .block | .caseBranch => scopesOpt children
    | .ifThen =>
      scopesOpt leaves ++ (scopesArm children "if-then" ++ scopesArm elseChildren "if-else")
    | .case => scopesOpt leaves ++ scopesBranchesOpt children
    | .whileDo | .forTo | .foreach => scopesOpt leaves ++ [.frame loopScope (scopesFirst children)]
    | .repeatUntil => scopesOpt leaves ++ [.frame loopScope (scopesOpt children)]
    | .tryBlock => [.frame tryScope (scopesOpt children)]
    | .op | .call | .error | .exit =>
      scopesOpt leaves ++
        [.leaf ⟨k, op, cs, g, leaves, children, elseChildren, els, range, hint⟩]
    | .breakLoop | .continueLoop | .other => scopesOpt leaves ++ scopesOpt children

def scopesOpt : Option (List PCFNNode) → List (Item PCFNNode Scope)
  | none => []
  | some ns => scopesList ns

def scopesList : List PCFNNode → List (Item PCFNNode Scope)
  | [] => []
  | n :: ns => scopes n ++ scopesList ns

def scopesFirst : Option (List PCFNNode) → List (Item PCFNNode Scope)
  | none => []
  | some ns => scopesHead ns

def scopesHead : List PCFNNode → List (Item PCFNNode Scope)
  | [] => []
  | n :: _ => scopes n

def scopesArm : Option (List PCFNNode) → String → List (Item PCFNNode Scope)
  | none, _ => []
  | some ns, kind => scopesArmHead ns kind

/-- The scope of an arm, around its first node. -/
def scopesArmHead : List PCFNNode → String → List (Item PCFNNode Scope)
  | [], _ => []
  | n :: _, kind => [.frame (branchScope kind (branchTermination n)) (scopes n)]

def scopesBranchesOpt : Option (List PCFNNode) → List (Item PCFNNode Scope)
  | none => []
  | some ns => scopesBranches ns

/-- The scopes of the branches of a `case`. -/
def scopesBranches : List PCFNNode → List (Item PCFNNode Scope)
  | [] => []
  | ⟨_, _, _, _, _, children, _, _, _, _⟩ :: ns =>
    .frame (branchScope "case-branch" ((firstTermination children).getD .fallthrough))
      (scopesOpt children) :: scopesBranches ns

end

mutual

/-- **The outline of a node**: its scopes, each leaf with the flags of the walk. -/
def outlineNode : PCFNNode → Bool → Bool → List (Item OrderLeaf Scope)
  | ⟨k, op, cs, g, leaves, children, elseChildren, els, range, hint⟩, onSuccess, dominates =>
    match k with
    | .block => outlineBlockOpt children onSuccess
    | .ifThen =>
      outlineOpt leaves onSuccess false ++
        (outlineArm children "if-then" onSuccess ++ outlineArm elseChildren "if-else" onSuccess)
    | .case => outlineOpt leaves onSuccess false ++ outlineBranchesOpt children onSuccess
    | .caseBranch => outlineOpt children onSuccess false
    | .whileDo | .forTo | .foreach =>
      outlineOpt leaves onSuccess false ++ [.frame loopScope (outlineFirst children onSuccess)]
    | .repeatUntil =>
      outlineOpt leaves onSuccess false ++ [.frame loopScope (outlineBlockOpt children onSuccess)]
    | .tryBlock => [.frame tryScope (outlineOpt children onSuccess false)]
    | .op | .call =>
      outlineOpt leaves onSuccess false ++
        [.leaf ⟨⟨k, op, cs, g, leaves, children, elseChildren, els, range, hint⟩, onSuccess,
          dominates⟩]
    | .error | .exit =>
      outlineOpt leaves onSuccess false ++
        [.leaf ⟨⟨k, op, cs, g, leaves, children, elseChildren, els, range, hint⟩, onSuccess, false⟩]
    | .breakLoop | .continueLoop | .other =>
      outlineOpt leaves onSuccess false ++ outlineOpt children onSuccess dominates

def outlineOpt : Option (List PCFNNode) → Bool → Bool → List (Item OrderLeaf Scope)
  | none, _, _ => []
  | some ns, onSuccess, dominates => outlineNodes ns onSuccess dominates

def outlineNodes : List PCFNNode → Bool → Bool → List (Item OrderLeaf Scope)
  | [], _, _ => []
  | n :: ns, onSuccess, dominates =>
    outlineNode n onSuccess dominates ++ outlineNodes ns onSuccess dominates

def outlineFirst : Option (List PCFNNode) → Bool → List (Item OrderLeaf Scope)
  | none, _ => []
  | some ns, onSuccess => outlineHead ns onSuccess

def outlineHead : List PCFNNode → Bool → List (Item OrderLeaf Scope)
  | [], _ => []
  | n :: _, onSuccess => outlineNode n onSuccess false

def outlineArm : Option (List PCFNNode) → String → Bool → List (Item OrderLeaf Scope)
  | none, _, _ => []
  | some ns, kind, onSuccess => outlineArmHead ns kind onSuccess

def outlineArmHead : List PCFNNode → String → Bool → List (Item OrderLeaf Scope)
  | [], _, _ => []
  | n :: _, kind, onSuccess =>
    [.frame (branchScope kind (branchTermination n))
      (outlineNode n (armSuccess (branchTermination n) onSuccess) false)]

def outlineBranchesOpt : Option (List PCFNNode) → Bool → List (Item OrderLeaf Scope)
  | none, _ => []
  | some ns, onSuccess => outlineBranches ns onSuccess

def outlineBranches : List PCFNNode → Bool → List (Item OrderLeaf Scope)
  | [], _ => []
  | ⟨_, _, _, _, _, children, _, _, _, _⟩ :: ns, onSuccess =>
    let t := (firstTermination children).getD .fallthrough
    .frame (branchScope "case-branch" t) (outlineOpt children (armSuccess t onSuccess) false) ::
      outlineBranches ns onSuccess

def outlineBlockOpt : Option (List PCFNNode) → Bool → List (Item OrderLeaf Scope)
  | none, _ => []
  | some ns, onSuccess => outlineStmts ns onSuccess false true false

/-- **The outline of the statements of a block**, with the state of `walk_block`. -/
def outlineStmts : List PCFNNode → Bool → Bool → Bool → Bool → List (Item OrderLeaf Scope)
  | [], _, _, _, _ => []
  | n :: ns, onSuccess, isRoot, reachable, returned =>
    if !reachable then
      outlineNode n false false ++ outlineStmts ns onSuccess isRoot false returned
    else
      match n.kind with
      | .error | .exit =>
        outlineNode n onSuccess false ++ outlineStmts ns onSuccess isRoot false returned
      | .ifThen =>
        outlineNode n onSuccess false ++ outlineStmts ns onSuccess isRoot (ifContinues n)
          (returned || isRoot && canNormalReturnBeforeAfter n)
      | .case =>
        outlineNode n onSuccess false ++ outlineStmts ns onSuccess isRoot true
          (returned || isRoot && canNormalReturnBeforeAfter n)
      | .whileDo | .forTo | .foreach | .repeatUntil =>
        outlineNode n onSuccess false ++ outlineStmts ns onSuccess isRoot true returned
      | _ =>
        outlineNode n onSuccess (isRoot && !returned) ++
          outlineStmts ns onSuccess isRoot true returned

end

/-- A statement that hands the flag of its block on to the leaves in it. -/
def takesFlag (n : PCFNNode) : Bool :=
  match n.kind with
  | .error | .exit | .ifThen | .case | .whileDo | .forTo | .foreach | .repeatUntil => false
  | _ => true

/-- Control may get past a statement, as the walk of a block sees it. -/
def continues (n : PCFNNode) : Bool :=
  match n.kind with
  | .error | .exit => false
  | .ifThen => ifContinues n
  | _ => true

/-- **One statement of a block** and the state behind it. -/
theorem walkStmts_cons (n : PCFNNode) (ns : List PCFNNode) (frame : ℤ)
    (os isRoot reachable returned : Bool) (r : OrderWalkResult) :
    walkStmts (n :: ns) frame os isRoot reachable returned r =
      walkStmts ns frame os isRoot (reachable && continues n)
        (returned || reachable && isRoot && canNormalReturnBeforeAfter n)
        (collectNode n frame (reachable && os)
          (reachable && isRoot && !returned && takesFlag n) r) := by
  rw [walkStmts]
  cases reachable with
  | false => simp
  | true => cases hk : n.kind <;> simp [continues, takesFlag, canNormalReturnBeforeAfter, hk]

theorem outlineStmts_cons (n : PCFNNode) (ns : List PCFNNode) (os isRoot reachable returned : Bool) :
    outlineStmts (n :: ns) os isRoot reachable returned =
      outlineNode n (reachable && os) (reachable && isRoot && !returned && takesFlag n) ++
        outlineStmts ns os isRoot (reachable && continues n)
          (returned || reachable && isRoot && canNormalReturnBeforeAfter n) := by
  rw [outlineStmts]
  cases reachable with
  | false => simp
  | true => cases hk : n.kind <;> simp [continues, takesFlag, canNormalReturnBeforeAfter, hk]

mutual

/-- Without its flags the outline of a node is its scopes. -/
theorem relabel_outlineNode : ∀ (n : PCFNNode) (os d : Bool),
    relabel OrderLeaf.node (outlineNode n os d) = scopes n
  | ⟨k, op, cs, g, leaves, children, elseChildren, els, range, hint⟩, os, d => by
    cases k with
    | block => exact relabel_outlineBlockOpt children os
    | ifThen =>
      simp only [outlineNode, scopes, relabel_append]
      rw [relabel_outlineOpt leaves, relabel_outlineArm children, relabel_outlineArm elseChildren]
    | case =>
      simp only [outlineNode, scopes, relabel_append]
      rw [relabel_outlineOpt leaves, relabel_outlineBranchesOpt children]
    | caseBranch => exact relabel_outlineOpt children os false
    | whileDo | forTo | foreach =>
      simp only [outlineNode, scopes, relabel_append, relabel, Item.relabel]
      rw [relabel_outlineOpt leaves, relabel_outlineFirst children]
    | repeatUntil =>
      simp only [outlineNode, scopes, relabel_append, relabel, Item.relabel]
      rw [relabel_outlineOpt leaves, relabel_outlineBlockOpt children]
    | tryBlock =>
      simp only [outlineNode, scopes, relabel, Item.relabel]
      rw [relabel_outlineOpt children]
    | op | call | error | exit =>
      simp only [outlineNode, scopes, relabel_append, relabel, Item.relabel]
      rw [relabel_outlineOpt leaves]
    | breakLoop | continueLoop | other =>
      simp only [outlineNode, scopes, relabel_append]
      rw [relabel_outlineOpt leaves, relabel_outlineOpt children]

theorem relabel_outlineOpt : ∀ (ns : Option (List PCFNNode)) (os d : Bool),
    relabel OrderLeaf.node (outlineOpt ns os d) = scopesOpt ns
  | none, _, _ => rfl
  | some ns, os, d => relabel_outlineNodes ns os d

theorem relabel_outlineNodes : ∀ (ns : List PCFNNode) (os d : Bool),
    relabel OrderLeaf.node (outlineNodes ns os d) = scopesList ns
  | [], _, _ => rfl
  | n :: ns, os, d => by
    simp only [outlineNodes, scopesList, relabel_append]
    rw [relabel_outlineNode n, relabel_outlineNodes ns]

theorem relabel_outlineFirst : ∀ (ns : Option (List PCFNNode)) (os : Bool),
    relabel OrderLeaf.node (outlineFirst ns os) = scopesFirst ns
  | none, _ => rfl
  | some ns, os => relabel_outlineHead ns os

theorem relabel_outlineHead : ∀ (ns : List PCFNNode) (os : Bool),
    relabel OrderLeaf.node (outlineHead ns os) = scopesHead ns
  | [], _ => rfl
  | n :: _, os => relabel_outlineNode n os false

theorem relabel_outlineArm : ∀ (ns : Option (List PCFNNode)) (kind : String) (os : Bool),
    relabel OrderLeaf.node (outlineArm ns kind os) = scopesArm ns kind
  | none, _, _ => rfl
  | some ns, kind, os => relabel_outlineArmHead ns kind os

theorem relabel_outlineArmHead : ∀ (ns : List PCFNNode) (kind : String) (os : Bool),
    relabel OrderLeaf.node (outlineArmHead ns kind os) = scopesArmHead ns kind
  | [], _, _ => rfl
  | n :: _, kind, os => by
    simp only [outlineArmHead, scopesArmHead, relabel, Item.relabel]
    rw [relabel_outlineNode n]

theorem relabel_outlineBranchesOpt : ∀ (ns : Option (List PCFNNode)) (os : Bool),
    relabel OrderLeaf.node (outlineBranchesOpt ns os) = scopesBranchesOpt ns
  | none, _ => rfl
  | some ns, os => relabel_outlineBranches ns os

theorem relabel_outlineBranches : ∀ (ns : List PCFNNode) (os : Bool),
    relabel OrderLeaf.node (outlineBranches ns os) = scopesBranches ns
  | [], _ => rfl
  | ⟨_, _, _, _, _, children, _, _, _, _⟩ :: ns, os => by
    simp only [outlineBranches, scopesBranches, relabel, Item.relabel]
    rw [relabel_outlineOpt children, relabel_outlineBranches ns]

theorem relabel_outlineBlockOpt : ∀ (ns : Option (List PCFNNode)) (os : Bool),
    relabel OrderLeaf.node (outlineBlockOpt ns os) = scopesOpt ns
  | none, _ => rfl
  | some ns, os => relabel_outlineStmts ns os false true false

theorem relabel_outlineStmts : ∀ (ns : List PCFNNode) (os isRoot reachable returned : Bool),
    relabel OrderLeaf.node (outlineStmts ns os isRoot reachable returned) = scopesList ns
  | [], _, _, _, _ => rfl
  | n :: ns, os, isRoot, reachable, returned => by
    rw [outlineStmts_cons, scopesList, relabel_append, relabel_outlineNode n,
      relabel_outlineStmts ns]

end

theorem scopesOpt_eq (ns : Option (List PCFNNode)) : scopesOpt ns = scopesList (ns.getD []) := by
  cases ns <;> rfl

mutual

/-- **The leaves of a node's scopes are nodes of its tree**, each there once. -/
theorem leaves_scopes : ∀ n : PCFNNode, (leaves (scopes n)).Subperm n.subtree
  | ⟨k, op, cs, g, leaves, children, elseChildren, els, range, hint⟩ => by
    have hleaves := leaves_scopesOpt leaves
    have hbody := leaves_scopesOpt children
    have hfirst := leaves_scopesFirst children
    have hthen := leaves_scopesArm children "if-then"
    have helse := leaves_scopesArm elseChildren "if-else"
    have hbranches := leaves_scopesBranchesOpt children
    rw [PCFNNode.subtree]
    -- what is left out below a node: its conditions, its `else` branch, the node itself
    have hright : ∀ {l : List PCFNNode}, l.Subperm (PCFNNode.subtreesOpt children) →
        l.Subperm (PCFNNode.subtreesOpt children ++ PCFNNode.subtreesOpt elseChildren) :=
      fun h => h.trans (List.sublist_append_left _ _).subperm
    have hunder : ∀ {l : List PCFNNode} (n : PCFNNode), l.Subperm (PCFNNode.subtreesOpt leaves ++
        (PCFNNode.subtreesOpt children ++ PCFNNode.subtreesOpt elseChildren)) →
        l.Subperm (n :: (PCFNNode.subtreesOpt leaves ++
          (PCFNNode.subtreesOpt children ++ PCFNNode.subtreesOpt elseChildren))) :=
      fun n h => h.trans (List.sublist_cons_self _ _).subperm
    cases k <;>
      simp only [scopes, leaves_append, Outline.leaves, Item.leaves, List.append_nil]
    case block | caseBranch | tryBlock =>
      exact hunder _ ((hright hbody).trans (List.sublist_append_right _ _).subperm)
    case ifThen => exact hunder _ (hleaves.append (hthen.append helse))
    case case => exact hunder _ (hleaves.append (hright hbranches))
    case whileDo | forTo | foreach => exact hunder _ (hleaves.append (hright hfirst))
    case repeatUntil | breakLoop | continueLoop | other =>
      exact hunder _ (hleaves.append (hright hbody))
    case op | call | error | exit =>
      refine List.perm_append_comm.subperm.trans ?_
      rw [List.singleton_append]
      exact (List.subperm_cons _).mpr (hleaves.trans (List.sublist_append_left _ _).subperm)

theorem leaves_scopesOpt : ∀ ns : Option (List PCFNNode),
    (leaves (scopesOpt ns)).Subperm (PCFNNode.subtreesOpt ns)
  | none => List.nil_subperm
  | some ns => leaves_scopesList ns

theorem leaves_scopesList : ∀ ns : List PCFNNode,
    (leaves (scopesList ns)).Subperm (PCFNNode.subtrees ns)
  | [] => List.nil_subperm
  | n :: ns => by
    rw [scopesList, leaves_append, PCFNNode.subtrees]
    exact (leaves_scopes n).append (leaves_scopesList ns)

theorem leaves_scopesFirst : ∀ ns : Option (List PCFNNode),
    (leaves (scopesFirst ns)).Subperm (PCFNNode.subtreesOpt ns)
  | none => List.nil_subperm
  | some ns => leaves_scopesHead ns

theorem leaves_scopesHead : ∀ ns : List PCFNNode,
    (leaves (scopesHead ns)).Subperm (PCFNNode.subtrees ns)
  | [] => List.nil_subperm
  | n :: _ => (leaves_scopes n).trans (List.sublist_append_left _ _).subperm

theorem leaves_scopesArm : ∀ (ns : Option (List PCFNNode)) (kind : String),
    (leaves (scopesArm ns kind)).Subperm (PCFNNode.subtreesOpt ns)
  | none, _ => List.nil_subperm
  | some ns, kind => leaves_scopesArmHead ns kind

theorem leaves_scopesArmHead : ∀ (ns : List PCFNNode) (kind : String),
    (leaves (scopesArmHead ns kind)).Subperm (PCFNNode.subtrees ns)
  | [], _ => List.nil_subperm
  | n :: _, _ => by
    simp only [scopesArmHead, leaves, Item.leaves, List.append_nil]
    exact (leaves_scopes n).trans (List.sublist_append_left _ _).subperm

theorem leaves_scopesBranchesOpt : ∀ ns : Option (List PCFNNode),
    (leaves (scopesBranchesOpt ns)).Subperm (PCFNNode.subtreesOpt ns)
  | none => List.nil_subperm
  | some ns => leaves_scopesBranches ns

theorem leaves_scopesBranches : ∀ ns : List PCFNNode,
    (leaves (scopesBranches ns)).Subperm (PCFNNode.subtrees ns)
  | [] => List.nil_subperm
  | ⟨k, op, cs, g, leaves, children, elseChildren, els, range, hint⟩ :: ns => by
    have hbody := leaves_scopesOpt children
    have hrest := leaves_scopesBranches ns
    simp only [scopesBranches, Outline.leaves, Item.leaves, PCFNNode.subtrees, PCFNNode.subtree]
    refine (hbody.trans ?_).append hrest
    exact (((List.sublist_append_left _ _).trans (List.sublist_append_right _ _)).cons _).subperm

end

/-! ### A node's scopes by its kind -/

theorem scopes_block {n : PCFNNode} (hk : n.kind = .block ∨ n.kind = .caseBranch) :
    scopes n = scopesList n.body := by
  cases n
  rcases hk with hk | hk <;> simp only at hk <;> subst hk <;> exact scopesOpt_eq _

theorem scopes_try {n : PCFNNode} (hk : n.kind = .tryBlock) :
    scopes n = [.frame tryScope (scopesList n.body)] := by
  cases n
  simp only at hk
  subst hk
  simp only [scopes, scopesOpt_eq, PCFNNode.body]

theorem scopes_leaf {n : PCFNNode}
    (hk : n.kind = .op ∨ n.kind = .call ∨ n.kind = .error ∨ n.kind = .exit) :
    scopes n = scopesList n.leaves ++ [.leaf n] := by
  cases n
  rcases hk with hk | hk | hk | hk <;> simp only at hk <;> subst hk <;>
    simp only [scopes, scopesOpt_eq, PCFNNode.leaves]

theorem scopes_other {n : PCFNNode}
    (hk : n.kind = .other ∨ n.kind = .breakLoop ∨ n.kind = .continueLoop) :
    scopes n = scopesList n.leaves ++ scopesList n.body := by
  cases n
  rcases hk with hk | hk | hk <;> simp only at hk <;> subst hk <;>
    simp only [scopes, scopesOpt_eq, PCFNNode.leaves, PCFNNode.body]

theorem scopes_repeat {n : PCFNNode} (hk : n.kind = .repeatUntil) :
    scopes n = scopesList n.leaves ++ [.frame loopScope (scopesList n.body)] := by
  cases n
  simp only at hk
  subst hk
  simp only [scopes, scopesOpt_eq, PCFNNode.leaves, PCFNNode.body]

theorem scopes_headLoop {n : PCFNNode}
    (hk : n.kind = .whileDo ∨ n.kind = .forTo ∨ n.kind = .foreach) :
    scopes n = scopesList n.leaves ++ [.frame loopScope (scopesHead n.body)] := by
  cases n with
  | mk k op cs g leaves children elseChildren els range hint =>
    cases children <;> rcases hk with hk | hk | hk <;> simp only at hk <;> subst hk <;>
      simp only [scopes, scopesOpt_eq, PCFNNode.leaves, PCFNNode.body, scopesFirst, scopesHead,
        Option.getD_none, Option.getD_some]

theorem scopes_if {n : PCFNNode} (hk : n.kind = .ifThen) :
    scopes n = scopesList n.leaves ++
      (scopesArmHead n.body "if-then" ++ scopesArmHead n.elseBody "if-else") := by
  cases n with
  | mk k op cs g leaves children elseChildren els range hint =>
    simp only at hk
    subst hk
    cases children <;> cases elseChildren <;>
      simp only [scopes, scopesOpt_eq, PCFNNode.leaves, PCFNNode.body, PCFNNode.elseBody, scopesArm,
        scopesArmHead, Option.getD_none, Option.getD_some]

theorem scopes_case {n : PCFNNode} (hk : n.kind = .case) :
    scopes n = scopesList n.leaves ++ scopesBranches n.body := by
  cases n with
  | mk k op cs g leaves children elseChildren els range hint =>
    simp only at hk
    subst hk
    cases children <;>
      simp only [scopes, scopesOpt_eq, PCFNNode.leaves, PCFNNode.body, scopesBranchesOpt,
        scopesBranches, Option.getD_none, Option.getD_some]

theorem scopesBranches_eq (ns : List PCFNNode) :
    scopesBranches ns = ns.map fun b =>
      .frame (branchScope "case-branch" (bodyTermination b)) (scopesList b.body) := by
  induction ns with
  | nil => rfl
  | cons b ns ih =>
    cases b
    rw [scopesBranches, ih, List.map_cons, scopesOpt_eq]
    rfl

/-! ## 2. The walk fills the outline in -/

mutual

/-- An item in a frame: the next order to a leaf, the next number to a frame. -/
def fillItem : Item OrderLeaf Scope → ℤ → OrderWalkResult → OrderWalkResult
  | .leaf l, frame, r =>
    assignLeaf l.node.operationId l.node.callsiteId frame l.onSuccess l.dominates r
  | .frame s items, frame, r => fill items r.nextFrameId (pushFrame r frame s.kind s.info)

def fill : List (Item OrderLeaf Scope) → ℤ → OrderWalkResult → OrderWalkResult
  | [], _, r => r
  | x :: xs, frame, r => fill xs frame (fillItem x frame r)

end

theorem fill_append (xs ys : List (Item OrderLeaf Scope)) (frame : ℤ) (r : OrderWalkResult) :
    fill (xs ++ ys) frame r = fill ys frame (fill xs frame r) := by
  induction xs generalizing r with
  | nil => rfl
  | cons x xs ih => simp only [List.cons_append, fill, ih]

theorem fill_leaf (l : OrderLeaf) (frame : ℤ) (r : OrderWalkResult) :
    fill [.leaf l] frame r =
      assignLeaf l.node.operationId l.node.callsiteId frame l.onSuccess l.dominates r := rfl

theorem fill_frame (s : Scope) (items : List (Item OrderLeaf Scope)) (frame : ℤ)
    (r : OrderWalkResult) :
    fill [.frame s items] frame r = fill items r.nextFrameId (pushFrame r frame s.kind s.info) :=
  rfl

mutual

/-- **The walk of a node fills its outline in.** -/
theorem collectNode_eq_fill : ∀ (n : PCFNNode) (frame : ℤ) (onSuccess dominates : Bool)
    (r : OrderWalkResult), collectNode n frame onSuccess dominates r =
      fill (outlineNode n onSuccess dominates) frame r
  | ⟨k, op, cs, g, leaves, children, elseChildren, els, range, hint⟩, frame, os, d, r => by
    cases k with
    | block => exact walkBlockOpt_eq_fill children frame os r
    | ifThen =>
      simp only [collectNode, outlineNode, fill_append]
      rw [collectOpt_eq_fill leaves, walkArm_eq_fill children, walkArm_eq_fill elseChildren]
    | case =>
      simp only [collectNode, outlineNode, fill_append]
      rw [collectOpt_eq_fill leaves, walkBranchesOpt_eq_fill children]
    | caseBranch => exact collectOpt_eq_fill children frame os false r
    | whileDo | forTo | foreach =>
      simp only [collectNode, outlineNode, fill_append, fill_frame]
      rw [collectOpt_eq_fill leaves, collectFirst_eq_fill children]
      rfl
    | repeatUntil =>
      simp only [collectNode, outlineNode, fill_append, fill_frame]
      rw [collectOpt_eq_fill leaves, walkBlockOpt_eq_fill children]
      rfl
    | tryBlock =>
      simp only [collectNode, outlineNode, fill_frame]
      rw [collectOpt_eq_fill children]
      rfl
    | op | call | error | exit =>
      simp only [collectNode, outlineNode, fill_append, fill_leaf]
      rw [collectOpt_eq_fill leaves]
    | breakLoop | continueLoop | other =>
      simp only [collectNode, outlineNode, fill_append]
      rw [collectOpt_eq_fill leaves, collectOpt_eq_fill children]

theorem collectOpt_eq_fill : ∀ (ns : Option (List PCFNNode)) (frame : ℤ)
    (onSuccess dominates : Bool) (r : OrderWalkResult),
    collectOpt ns frame onSuccess dominates r = fill (outlineOpt ns onSuccess dominates) frame r
  | none, _, _, _, _ => rfl
  | some ns, frame, os, d, r => collectNodes_eq_fill ns frame os d r

theorem collectNodes_eq_fill : ∀ (ns : List PCFNNode) (frame : ℤ) (onSuccess dominates : Bool)
    (r : OrderWalkResult), collectNodes ns frame onSuccess dominates r =
      fill (outlineNodes ns onSuccess dominates) frame r
  | [], _, _, _, _ => rfl
  | n :: ns, frame, os, d, r => by
    simp only [collectNodes, outlineNodes, fill_append]
    rw [collectNode_eq_fill n, collectNodes_eq_fill ns]

theorem collectFirst_eq_fill : ∀ (ns : Option (List PCFNNode)) (frame : ℤ) (onSuccess : Bool)
    (r : OrderWalkResult),
    collectFirst ns frame onSuccess r = fill (outlineFirst ns onSuccess) frame r
  | none, _, _, _ => rfl
  | some ns, frame, os, r => collectHead_eq_fill ns frame os r

theorem collectHead_eq_fill : ∀ (ns : List PCFNNode) (frame : ℤ) (onSuccess : Bool)
    (r : OrderWalkResult), collectHead ns frame onSuccess r = fill (outlineHead ns onSuccess) frame r
  | [], _, _, _ => rfl
  | n :: _, frame, os, r => collectNode_eq_fill n frame os false r

theorem walkArm_eq_fill : ∀ (ns : Option (List PCFNNode)) (kind : String) (frame : ℤ)
    (onSuccess : Bool) (r : OrderWalkResult),
    walkArm ns kind ((firstTermination ns).getD .fallthrough) frame onSuccess r =
      fill (outlineArm ns kind onSuccess) frame r
  | none, _, _, _, _ => rfl
  | some ns, kind, frame, os, r => walkArmHead_eq_fill ns kind frame os r

theorem walkArmHead_eq_fill : ∀ (ns : List PCFNNode) (kind : String) (frame : ℤ)
    (onSuccess : Bool) (r : OrderWalkResult),
    walkArmHead ns kind ((headTermination ns).getD .fallthrough) frame onSuccess r =
      fill (outlineArmHead ns kind onSuccess) frame r
  | [], _, _, _, _ => rfl
  | n :: _, kind, frame, os, r => by
    simp only [walkArmHead, outlineArmHead, fill_frame, headTermination, Option.getD_some]
    rw [collectNode_eq_fill n]
    rfl

theorem walkBranchesOpt_eq_fill : ∀ (ns : Option (List PCFNNode)) (frame : ℤ) (onSuccess : Bool)
    (r : OrderWalkResult),
    walkBranchesOpt ns frame onSuccess r = fill (outlineBranchesOpt ns onSuccess) frame r
  | none, _, _, _ => rfl
  | some ns, frame, os, r => walkBranches_eq_fill ns frame os r

theorem walkBranches_eq_fill : ∀ (ns : List PCFNNode) (frame : ℤ) (onSuccess : Bool)
    (r : OrderWalkResult),
    walkBranches ns frame onSuccess r = fill (outlineBranches ns onSuccess) frame r
  | [], _, _, _ => rfl
  | ⟨_, _, _, _, _, children, _, _, _, _⟩ :: ns, frame, os, r => by
    simp only [walkBranches, outlineBranches, fill, fillItem]
    rw [collectOpt_eq_fill children, walkBranches_eq_fill ns]
    rfl

theorem walkBlockOpt_eq_fill : ∀ (ns : Option (List PCFNNode)) (frame : ℤ) (onSuccess : Bool)
    (r : OrderWalkResult),
    walkBlockOpt ns frame onSuccess r = fill (outlineBlockOpt ns onSuccess) frame r
  | none, _, _, _ => rfl
  | some ns, frame, os, r => walkStmts_eq_fill ns frame os false true false r

/-- **The walk of a block's statements fills their outline in.** -/
theorem walkStmts_eq_fill : ∀ (ns : List PCFNNode) (frame : ℤ)
    (onSuccess isRoot reachable returned : Bool) (r : OrderWalkResult),
    walkStmts ns frame onSuccess isRoot reachable returned r =
      fill (outlineStmts ns onSuccess isRoot reachable returned) frame r
  | [], _, _, _, _, _, _ => rfl
  | n :: ns, frame, os, isRoot, reachable, returned, r => by
    rw [walkStmts_cons, outlineStmts_cons, fill_append, collectNode_eq_fill n, walkStmts_eq_fill ns]

end

/-! ## 3. The orders and the frames of an outline -/

/-- The frame a leaf with this chain stands in; the root frame's parent is −1. -/
def lastFrame (chain : List (ℤ × Scope)) : ℤ := (chain.getLast?.map Prod.fst).getD (-1)

@[simp] theorem lastFrame_concat (chain : List (ℤ × Scope)) (p : ℤ × Scope) :
    lastFrame (chain ++ [p]) = p.1 := by
  simp [lastFrame]

/-- The order of an entry. -/
def entryOrder (e : Entry OrderLeaf Scope) : OperationOrder :=
  ⟨e.order, lastFrame e.chain, e.leaf.onSuccess, e.leaf.dominates⟩

/-- The orders of entries, under the ids that `key` reads. -/
def recordOrders (key : PCFNNode → Option String) (m : HashMap String OperationOrder)
    (es : List (Entry OrderLeaf Scope)) : HashMap String OperationOrder :=
  es.foldl (fun m e => match key e.leaf.node with
    | some id => m.insert id (entryOrder e)
    | none => m) m

theorem recordOrders_append (key : PCFNNode → Option String) (m : HashMap String OperationOrder)
    (es es' : List (Entry OrderLeaf Scope)) :
    recordOrders key m (es ++ es') = recordOrders key (recordOrders key m es) es' :=
  List.foldl_append

/-- **A recorded order is that of an entry.** -/
theorem lookup_recordOrders {key : PCFNNode → Option String} {m : HashMap String OperationOrder}
    {es : List (Entry OrderLeaf Scope)} {id : String} {o : OperationOrder}
    (h : (recordOrders key m es).lookup id = some o) :
    m.lookup id = some o ∨ ∃ e ∈ es, key e.leaf.node = some id ∧ o = entryOrder e := by
  induction es generalizing m with
  | nil => exact Or.inl h
  | cons e es ih =>
    unfold recordOrders at h
    rw [List.foldl_cons] at h
    rcases ih h with h | ⟨e', he', hrest⟩
    · cases hkey : key e.leaf.node with
      | none =>
        simp only [hkey] at h
        exact Or.inl h
      | some id' =>
        simp only [hkey] at h
        by_cases hid : id = id'
        · subst hid
          rw [AList.lookup_insert] at h
          exact Or.inr ⟨e, List.mem_cons_self, hkey, (Option.some.inj h).symm⟩
        · rw [AList.lookup_insert_ne hid] at h
          exact Or.inl h
    · exact Or.inr ⟨e', List.mem_cons_of_mem _ he', hrest⟩

mutual

/-- The frame records of an item in the frame `parent`, from number `f` on. -/
def itemTable : Item OrderLeaf Scope → ℤ → ℤ → List ScopeFrame
  | .leaf _, _, _ => []
  | .frame s items, parent, f => makeFrame f parent s.kind s.info :: frameTable items f (f + 1)

def frameTable : List (Item OrderLeaf Scope) → ℤ → ℤ → List ScopeFrame
  | [], _, _ => []
  | x :: xs, parent, f => itemTable x parent f ++ frameTable xs parent (f + x.frames)

end

/-- The result when an outline is filled in from `r` on, in the frames of `chain`. -/
def filled (xs : List (Item OrderLeaf Scope)) (chain : List (ℤ × Scope)) (r : OrderWalkResult) :
    OrderWalkResult where
  byCallsite :=
    recordOrders PCFNNode.callsiteId r.byCallsite (entries xs chain r.nextOrderId r.nextFrameId)
  byOperation :=
    recordOrders PCFNNode.operationId r.byOperation (entries xs chain r.nextOrderId r.nextFrameId)
  scopeFrames := r.scopeFrames ++ frameTable xs (lastFrame chain) r.nextFrameId
  nextOrderId := r.nextOrderId + (leaves xs).length
  nextFrameId := r.nextFrameId + frames xs

mutual

theorem fillItem_eq : ∀ (x : Item OrderLeaf Scope) (chain : List (ℤ × Scope)) (r : OrderWalkResult),
    fillItem x (lastFrame chain) r = filled [x] chain r
  | .leaf l, chain, r => by
    have hone : entries [.leaf l] chain r.nextOrderId r.nextFrameId =
        [⟨l, r.nextOrderId, chain⟩] := rfl
    rw [filled, hone]
    rcases hop : l.node.operationId with _ | op <;> rcases hcs : l.node.callsiteId with _ | cs <;>
      simp only [fillItem, assignLeaf, hop, hcs, frameTable, itemTable, recordOrders, entryOrder,
        List.append_nil, List.foldl_cons, List.foldl_nil, leaves, Item.leaves, frames, Item.frames,
        List.length_cons, List.length_nil, Nat.zero_add, Nat.cast_zero, add_zero]
  | .frame s items, chain, r => by
    have hitems := fill_eq items (chain ++ [(r.nextFrameId, s)])
      (pushFrame r (lastFrame chain) s.kind s.info)
    rw [lastFrame_concat] at hitems
    rw [fillItem, hitems]
    simp only [filled, pushFrame, entries, Item.entries, frameTable, itemTable, List.append_nil,
      leaves, Item.leaves, frames, Item.frames, List.append_assoc, List.cons_append,
      List.nil_append, add_zero, lastFrame_concat, Nat.cast_add, Nat.cast_one]
    rw [add_assoc, add_comm (1 : ℤ)]

/-- **Filling an outline in** records its entries' orders and its frames. -/
theorem fill_eq : ∀ (xs : List (Item OrderLeaf Scope)) (chain : List (ℤ × Scope))
    (r : OrderWalkResult), fill xs (lastFrame chain) r = filled xs chain r
  | [], chain, r => by
    simp [fill, filled, entries, recordOrders, frameTable, leaves, frames]
  | x :: xs, chain, r => by
    rw [fill, fillItem_eq x, fill_eq xs]
    simp only [filled, entries, frameTable, leaves, frames, recordOrders_append, List.append_nil,
      List.append_assoc, List.length_append, Nat.cast_add, add_zero, add_assoc]

end

/-! ## 4. The walk of a routine -/

/-- The root block's scope. -/
def rootScope : Scope := ⟨"block", none⟩

def rootChain : List (ℤ × Scope) := [(0, rootScope)]

/-- The outline of a routine's body. -/
def routineOutline (tree : PCFNNode) : List (Item OrderLeaf Scope) :=
  outlineStmts (stmtsOf tree) true true true false

/-- Its entries, as the walk numbers them. -/
def routineEntries (tree : PCFNNode) : List (Entry OrderLeaf Scope) :=
  entries (routineOutline tree) rootChain 0 1

/-- **The order of a routine fills its outline in.** -/
theorem computeOperationOrder_eq (tree : PCFNNode) {attributesLc : List String}
    (h : attributesLc.any (· == "tryfunction") = false) :
    computeOperationOrder (some tree) attributesLc =
      filled (routineOutline tree) rootChain (pushFrame .empty (-1) "block" none) := by
  unfold computeOperationOrder
  rw [h, if_neg Bool.false_ne_true]
  dsimp only
  rw [walkStmts_eq_fill]
  exact fill_eq (routineOutline tree) rootChain _

/-- `n` has this order: under its operation id, or under its call site's. -/
def HasOrder (r : OrderWalkResult) (n : PCFNNode) (o : OperationOrder) : Prop :=
  (∃ id, n.operationId = some id ∧ r.byOperation.lookup id = some o) ∨
    ∃ id, n.callsiteId = some id ∧ r.byCallsite.lookup id = some o

/-- Where no id is given twice, what has one id is one thing. -/
theorem eq_of_id {γ : Type*} {ids : γ → List String} {l : List γ} (h : (l.flatMap ids).Nodup)
    {x y : γ} (hx : x ∈ l) (hy : y ∈ l) {id : String} (hidx : id ∈ ids x) (hidy : id ∈ ids y) :
    x = y := by
  by_contra hne
  have hsymm : Std.Symm (Function.onFun List.Disjoint ids) := ⟨fun a b hab s hb ha => hab ha hb⟩
  exact (List.nodup_flatMap.mp h).2.forall hx hy hne hidx hidy

theorem subtrees_stmtsOf (tree : PCFNNode) :
    (PCFNNode.subtrees (stmtsOf tree)).Sublist tree.subtree := by
  unfold stmtsOf
  split
  · rw [PCFNNode.subtree_eq]
    exact ((List.sublist_append_left _ _).trans (List.sublist_append_right _ _)).cons _
  · simp only [PCFNNode.subtrees, List.append_nil]
    exact List.Sublist.refl _

theorem leaves_routineOutline (tree : PCFNNode) :
    (leaves (routineOutline tree)).map OrderLeaf.node = leaves (scopesList (stmtsOf tree)) := by
  rw [← leaves_relabel, routineOutline, relabel_outlineStmts]

/-- The leaf of an entry is a node of the tree. -/
theorem node_of_entry {tree : PCFNNode} {e : Entry OrderLeaf Scope}
    (he : e ∈ routineEntries tree) : e.leaf.node ∈ tree.subtree := by
  have hmem : e.leaf.node ∈ leaves (scopesList (stmtsOf tree)) := by
    rw [← leaves_routineOutline]
    exact List.mem_map_of_mem (mem_leaves_of_entry he)
  exact (subtrees_stmtsOf tree).subset ((leaves_scopesList _).subset hmem)

/-- **The entries of a routine with distinct ids share none.** -/
theorem routineEntries_ids {tree : PCFNNode} (hids : tree.treeIds.Nodup) :
    ((routineEntries tree).flatMap fun e => e.leaf.node.siteIds).Nodup := by
  have hentries : (routineEntries tree).map (fun e => e.leaf.node) =
      leaves (scopesList (stmtsOf tree)) := by
    rw [← leaves_routineOutline, ← entries_leaves (routineOutline tree) rootChain 0 1, List.map_map]
    rfl
  have hsub : (leaves (scopesList (stmtsOf tree))).Subperm tree.subtree :=
    (leaves_scopesList _).trans (subtrees_stmtsOf tree).subperm
  rw [← List.flatMap_map, hentries]
  obtain ⟨l, hperm, hsub⟩ := hsub
  exact (hperm.flatMap_right PCFNNode.siteIds).nodup_iff.mp (hids.sublist (hsub.flatMap _))

theorem mem_siteIds_operation {n : PCFNNode} {id : String} (h : n.operationId = some id) :
    id ∈ n.siteIds := by
  simp [PCFNNode.siteIds, h]

theorem mem_siteIds_callsite {n : PCFNNode} {id : String} (h : n.callsiteId = some id) :
    id ∈ n.siteIds := by
  simp [PCFNNode.siteIds, h]

theorem not_hasOrder_empty {n : PCFNNode} {o : OperationOrder} : ¬ HasOrder .empty n o := by
  rintro (⟨id, -, h⟩ | ⟨id, -, h⟩) <;> cases h

/-- **The order of a node is that of its entry**, where no id is given twice. -/
theorem entry_of_hasOrder {tree : PCFNNode} {attributesLc : List String}
    (hids : tree.treeIds.Nodup) {n : PCFNNode} (hn : n ∈ tree.subtree) {o : OperationOrder}
    (h : HasOrder (computeOperationOrder (some tree) attributesLc) n o) :
    ∃ e ∈ routineEntries tree, e.leaf.node = n ∧ o = entryOrder e ∧
      attributesLc.any (· == "tryfunction") = false := by
  cases htry : attributesLc.any (· == "tryfunction") with
  | true =>
    have hempty : computeOperationOrder (some tree) attributesLc = .empty := by
      rw [computeOperationOrder, if_pos htry]
    rw [hempty] at h
    exact absurd h not_hasOrder_empty
  | false =>
    rw [computeOperationOrder_eq tree htry] at h
    rcases h with ⟨id, hid, hlook⟩ | ⟨id, hid, hlook⟩
    · rcases lookup_recordOrders hlook with hlook | ⟨e, he, hkey, ho⟩
      · cases hlook
      · exact ⟨e, he, eq_of_id hids (node_of_entry he) hn (mem_siteIds_operation hkey)
          (mem_siteIds_operation hid), ho, rfl⟩
    · rcases lookup_recordOrders hlook with hlook | ⟨e, he, hkey, ho⟩
      · cases hlook
      · exact ⟨e, he, eq_of_id hids (node_of_entry he) hn (mem_siteIds_callsite hkey)
          (mem_siteIds_callsite hid), ho, rfl⟩

end AlSem.Body
