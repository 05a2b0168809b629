/-
# The statement tree

`PCFNNode` of `program/body/features.rs`: the control-flow skeleton of a routine body, as
`ir_walk.rs` builds it.  A branch of an `if`, a loop body other than `repeat`'s and the body of a
`case` branch are one `block` node each; a `repeat` holds its statements directly.
-/
import AlSem.Model.Workspace

namespace AlSem.Model

/-- The node kinds.  `other` is also what a reader takes an unknown kind for. -/
inductive CfnKind where
  | block
  | ifThen
  | case
  | caseBranch
  | whileDo
  | forTo
  | foreach
  | repeatUntil
  | breakLoop
  | continueLoop
  | exit
  | error
  | op
  | call
  | tryBlock
  | other
  deriving DecidableEq, Repr

/-- A condition that is one identifier, negated or not. -/
structure PConditionGuard where
  identifier : String
  polarity : String
  deriving DecidableEq, Repr

/-- What a path walk needs that the kind does not say. -/
inductive PathHint where
  | condCall (negated : Bool)
  | exit (value : Bool)
  | assertError
  | mayRun
  deriving DecidableEq, Repr

/-- A node of the statement tree. -/
structure PCFNNode where
  kind : CfnKind
  operationId : Option String := none
  callsiteId : Option String := none
  conditionGuard : Option PConditionGuard := none
  conditionLeaves : Option (List PCFNNode) := none
  children : Option (List PCFNNode) := none
  elseChildren : Option (List PCFNNode) := none
  isCaseElse : Bool := false
  sourceRange : Option PAnchor := none
  pathHint : Option PathHint := none

namespace PCFNNode

/-- The nodes of the condition, none when there is no list. -/
def leaves (n : PCFNNode) : List PCFNNode := n.conditionLeaves.getD []

/-- The statements, or the first branch. -/
def body (n : PCFNNode) : List PCFNNode := n.children.getD []

/-- The `else` branch. -/
def elseBody (n : PCFNNode) : List PCFNNode := n.elseChildren.getD []

/-- The nodes directly below a node. -/
def parts (n : PCFNNode) : List PCFNNode := n.leaves ++ (n.body ++ n.elseBody)

theorem sizeOf_lt_of_mem_getD {ns : Option (List PCFNNode)} {c : PCFNNode} (h : c ∈ ns.getD []) :
    sizeOf c < sizeOf ns := by
  cases ns with
  | none => simp at h
  | some l =>
    have hlt : sizeOf c < sizeOf l := List.sizeOf_lt_of_mem h
    simp only [Option.some.sizeOf_spec]
    omega

theorem sizeOf_lt_of_mem_parts {n c : PCFNNode} (h : c ∈ n.parts) : sizeOf c < sizeOf n := by
  cases n with
  | mk k op cs g leaves children elseChildren els range hint =>
    simp only [PCFNNode.mk.sizeOf_spec]
    rcases List.mem_append.mp h with h | h
    · have := sizeOf_lt_of_mem_getD h
      dsimp only at this
      omega
    · rcases List.mem_append.mp h with h | h
      · have := sizeOf_lt_of_mem_getD h
        dsimp only at this
        omega
      · have := sizeOf_lt_of_mem_getD h
        dsimp only at this
        omega

/-- **Induction on a tree**: what holds of a node when it holds of its parts holds of every
node. -/
theorem induct {P : PCFNNode → Prop} (step : ∀ n, (∀ c ∈ n.parts, P c) → P n) (n : PCFNNode) :
    P n :=
  step n fun c _ => induct step c
termination_by sizeOf n
decreasing_by exact sizeOf_lt_of_mem_parts ‹_›

/-- The operation and call-site ids a node carries. -/
def siteIds (n : PCFNNode) : List String := n.operationId.toList ++ n.callsiteId.toList

mutual

/-- The nodes of a tree, in the order of its lists. -/
def subtree : PCFNNode → List PCFNNode
  | ⟨k, op, cs, g, leaves, children, elseChildren, els, range, hint⟩ =>
    ⟨k, op, cs, g, leaves, children, elseChildren, els, range, hint⟩ ::
      (subtreesOpt leaves ++ (subtreesOpt children ++ subtreesOpt elseChildren))

def subtreesOpt : Option (List PCFNNode) → List PCFNNode
  | none => []
  | some ns => subtrees ns

/-- The nodes of a list of trees. -/
def subtrees : List PCFNNode → List PCFNNode
  | [] => []
  | n :: ns => subtree n ++ subtrees ns

end

theorem subtreesOpt_eq (ns : Option (List PCFNNode)) :
    subtreesOpt ns = subtrees (ns.getD []) := by
  cases ns <;> simp [subtreesOpt, subtrees]

theorem subtree_eq (n : PCFNNode) :
    n.subtree = n :: (subtrees n.leaves ++ (subtrees n.body ++ subtrees n.elseBody)) := by
  cases n
  simp only [subtree, leaves, body, elseBody, subtreesOpt_eq]

theorem mem_subtrees {ns : List PCFNNode} {c m : PCFNNode} (hc : c ∈ ns) (hm : m ∈ c.subtree) :
    m ∈ subtrees ns := by
  induction ns with
  | nil => simp at hc
  | cons n ns ih =>
    rw [subtrees]
    rcases List.mem_cons.mp hc with rfl | hc
    · exact List.mem_append_left _ hm
    · exact List.mem_append_right _ (ih hc)

/-- The tree of a part is within the tree. -/
theorem subtree_subset {n c : PCFNNode} (hc : c ∈ n.parts) : c.subtree ⊆ n.subtree := by
  intro m hm
  rw [subtree_eq]
  refine List.mem_cons_of_mem _ ?_
  rcases List.mem_append.mp hc with hc | hc
  · exact List.mem_append_left _ (mem_subtrees hc hm)
  · rcases List.mem_append.mp hc with hc | hc
    · exact List.mem_append_right _ (List.mem_append_left _ (mem_subtrees hc hm))
    · exact List.mem_append_right _ (List.mem_append_right _ (mem_subtrees hc hm))

theorem mem_subtree_self (n : PCFNNode) : n ∈ n.subtree := by
  rw [subtree_eq]
  exact List.mem_cons_self

/-- The site ids of a tree. -/
def treeIds (n : PCFNNode) : List String := n.subtree.flatMap siteIds

/-- The site ids of a list of trees. -/
def listIds (ns : List PCFNNode) : List String := (subtrees ns).flatMap siteIds

theorem treeIds_eq (n : PCFNNode) :
    n.treeIds = n.siteIds ++ (listIds n.leaves ++ (listIds n.body ++ listIds n.elseBody)) := by
  simp only [treeIds, listIds, subtree_eq, List.flatMap_cons, List.flatMap_append]

theorem listIds_cons (n : PCFNNode) (ns : List PCFNNode) :
    listIds (n :: ns) = n.treeIds ++ listIds ns := by
  simp only [listIds, treeIds, subtrees, List.flatMap_append]

end PCFNNode

/-- An assignment of the body; only its target matters here. -/
structure PVarAssignment where
  lhsName : String
  deriving DecidableEq, Repr

/-- A routine with its body features: the statement tree, the operation sites and the
assignments. -/
structure RoutineBody extends ModelRoutine where
  statementTree : Option PCFNNode := none
  operationSites : List POperationSite := []
  varAssignments : List PVarAssignment := []

end AlSem.Model
