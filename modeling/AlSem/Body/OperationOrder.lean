/-
# Operation order

`program/body/control_flow.rs` and `program/body/operation_order.rs`: how a branch terminates, and the
walk that gives every operation and call site its order id, its scope frame and its two success facts.

The walk of a node (`collectNode`) has the source's walkers of an `if`, a `case` and a loop as its
arms; what `walk_if_node` returns is `ifContinues`.
-/
import AlSem.Model.Cfn
import AlSem.Lib.HashMap

namespace AlSem.Body

open AlSem.Model

/-! ## 1. Termination -/

/-- How a branch body terminates with respect to its routine. -/
inductive Termination where
  | exit
  | error
  | fallthrough
  deriving DecidableEq, Repr

/-- The branch always leaves the routine. -/
def terminates (t : Termination) : Bool := t == .exit || t == .error

/-- The kind of an `if` whose arms both terminate. -/
def joinTermination (a b : Termination) : Termination :=
  if a = .exit ∨ b = .exit then .exit else .error

mutual

/-- How a branch body, or a statement, terminates: a block as its first statement that does, an `if`
when both arms do. -/
def branchTermination : PCFNNode → Termination
  | ⟨k, _, _, _, _, children, elseChildren, _, _, _⟩ =>
    match k with
    | .exit => .exit
    | .error => .error
    | .block => blockTerminationOpt children
    | .ifThen =>
      match firstTermination children, firstTermination elseChildren with
      | some thenT, some elseT =>
        if terminates thenT && terminates elseT then joinTermination thenT elseT else .fallthrough
      | _, _ => .fallthrough
    | _ => .fallthrough

def blockTerminationOpt : Option (List PCFNNode) → Termination
  | none => .fallthrough
  | some ns => blockTermination ns

/-- The first statement that terminates. -/
def blockTermination : List PCFNNode → Termination
  | [] => .fallthrough
  | n :: ns => if terminates (branchTermination n) then branchTermination n else blockTermination ns

/-- The termination of the first node, if there is one. -/
def firstTermination : Option (List PCFNNode) → Option Termination
  | none => none
  | some ns => headTermination ns

def headTermination : List PCFNNode → Option Termination
  | [] => none
  | n :: _ => some (branchTermination n)

end

/-- The termination of the first of a node's children. -/
def bodyTermination (n : PCFNNode) : Termination := (firstTermination n.children).getD .fallthrough

/-- The termination of the `else` arm; an absent one falls through. -/
def elseTermination (n : PCFNNode) : Termination :=
  (firstTermination n.elseChildren).getD .fallthrough

def hasExplicitElse (n : PCFNNode) : Bool := !n.elseBody.isEmpty

/-! ## 2. The result -/

/-- The execution-order fact of a leaf. -/
structure OperationOrder where
  orderId : ℕ
  frameId : ℤ
  onSuccessPath : Bool
  dominatesSuccessReturn : Bool
  deriving DecidableEq, Repr

/-- A syntactic scope frame; the branch flags are a branch's only. -/
structure ScopeFrame where
  frameId : ℤ
  parentFrameId : ℤ
  kind : String
  branchAlwaysTerminates : Option Bool
  branchMayFallThrough : Option Bool
  branchTerminatesBy : Option String
  deriving DecidableEq, Repr

/-- The walker's accumulator: the two maps, the frame table and the two counters. -/
structure OrderWalkResult where
  byCallsite : HashMap String OperationOrder
  byOperation : HashMap String OperationOrder
  scopeFrames : List ScopeFrame
  nextOrderId : ℕ
  nextFrameId : ℤ

def OrderWalkResult.empty : OrderWalkResult := ⟨∅, ∅, [], 0, 0⟩

/-- What a pushed branch frame says of its termination. -/
structure BranchInfo where
  alwaysTerminates : Bool
  terminatesBy : Option String

/-- The frame a push makes. -/
def makeFrame (frameId parent : ℤ) (kind : String) (info : Option BranchInfo) : ScopeFrame where
  frameId := frameId
  parentFrameId := parent
  kind := kind
  branchAlwaysTerminates := info.map BranchInfo.alwaysTerminates
  branchMayFallThrough := info.map fun i => !i.alwaysTerminates
  branchTerminatesBy := info.bind fun i => if i.alwaysTerminates then i.terminatesBy else none

/-- Push a frame; its id is the counter's. -/
def pushFrame (r : OrderWalkResult) (parent : ℤ) (kind : String) (info : Option BranchInfo) :
    OrderWalkResult :=
  { r with
    scopeFrames := r.scopeFrames ++ [makeFrame r.nextFrameId parent kind info]
    nextFrameId := r.nextFrameId + 1 }

/-- `branchTerminatesBy` of an always-terminating branch. -/
def terminationKind : Termination → Option String
  | .exit => some "exit"
  | .error => some "error"
  | .fallthrough => none

/-- The info of a branch that terminates so. -/
def branchInfo (t : Termination) : BranchInfo :=
  ⟨terminates t, if terminates t then terminationKind t else none⟩

/-- One order for a leaf, under both its ids; a leaf without an id uses one up too. -/
def assignLeaf (op cs : Option String) (frame : ℤ) (onSuccess dominates : Bool)
    (r : OrderWalkResult) : OrderWalkResult :=
  let order : OperationOrder := ⟨r.nextOrderId, frame, onSuccess, dominates⟩
  { r with
    nextOrderId := r.nextOrderId + 1
    byOperation := match op with
      | some id => r.byOperation.insert id order
      | none => r.byOperation
    byCallsite := match cs with
      | some id => r.byCallsite.insert id order
      | none => r.byCallsite }

/-! ## 3. The walk -/

/-- Whether a root statement can return normally on some arm without ending the block: judged
shallowly, by kind. -/
def canNormalReturnBeforeAfter (n : PCFNNode) : Bool :=
  match n.kind with
  | .ifThen =>
    let thenT := bodyTermination n
    let elseT := elseTermination n
    if !hasExplicitElse n && thenT == .error then false
    else if !hasExplicitElse n && thenT == .exit then true
    else if hasExplicitElse n then
      thenT == .exit && elseT != .exit || elseT == .exit && thenT != .exit
    else false
  | .case => n.body.any fun branch => bodyTermination branch == .exit
  | _ => false

/-- What `walk_if_node` returns: the continuation is reachable. -/
def ifContinues (n : PCFNNode) : Bool :=
  !hasExplicitElse n && bodyTermination n == .error ||
    (bodyTermination n == .fallthrough || elseTermination n == .fallthrough)

/-- The success flag of an arm: an arm that ends in an error is off the success path. -/
def armSuccess (t : Termination) (onSuccess : Bool) : Bool :=
  if t = .error then false else onSuccess

mutual

/-- **The walk of a node** in a frame. -/
def collectNode : PCFNNode → ℤ → Bool → Bool → OrderWalkResult → OrderWalkResult
  | ⟨k, op, cs, _, leaves, children, elseChildren, _, _, _⟩, frame, onSuccess, dominates, r =>
    match k with
    | .block => walkBlockOpt children frame onSuccess r
    | .ifThen =>
      let r := collectOpt leaves frame onSuccess false r
      let thenT := (firstTermination children).getD .fallthrough
      let elseT := (firstTermination elseChildren).getD .fallthrough
      let r := walkArm children "if-then" thenT frame onSuccess r
      walkArm elseChildren "if-else" elseT frame onSuccess r
    | .case => walkBranchesOpt children frame onSuccess (collectOpt leaves frame onSuccess false r)
    | .caseBranch => collectOpt children frame onSuccess false r
    | .whileDo | .forTo | .foreach =>
      let r := collectOpt leaves frame onSuccess false r
      collectFirst children r.nextFrameId onSuccess (pushFrame r frame "loop" none)
    | .repeatUntil =>
      let r := collectOpt leaves frame onSuccess false r
      walkBlockOpt children r.nextFrameId onSuccess (pushFrame r frame "loop" none)
    | .tryBlock =>
      collectOpt children r.nextFrameId onSuccess false (pushFrame r frame "try" none)
    | .op | .call =>
      assignLeaf op cs frame onSuccess dominates (collectOpt leaves frame onSuccess false r)
    | .error | .exit =>
      assignLeaf op cs frame onSuccess false (collectOpt leaves frame onSuccess false r)
    | .breakLoop | .continueLoop | .other =>
      collectOpt children frame onSuccess dominates (collectOpt leaves frame onSuccess false r)

/-- Nodes one after the other. -/
def collectOpt : Option (List PCFNNode) → ℤ → Bool → Bool → OrderWalkResult → OrderWalkResult
  | none, _, _, _, r => r
  | some ns, frame, onSuccess, dominates, r => collectNodes ns frame onSuccess dominates r

def collectNodes : List PCFNNode → ℤ → Bool → Bool → OrderWalkResult → OrderWalkResult
  | [], _, _, _, r => r
  | n :: ns, frame, onSuccess, dominates, r =>
    collectNodes ns frame onSuccess dominates (collectNode n frame onSuccess dominates r)

/-- The first node only. -/
def collectFirst : Option (List PCFNNode) → ℤ → Bool → OrderWalkResult → OrderWalkResult
  | none, _, _, r => r
  | some ns, frame, onSuccess, r => collectHead ns frame onSuccess r

def collectHead : List PCFNNode → ℤ → Bool → OrderWalkResult → OrderWalkResult
  | [], _, _, r => r
  | n :: _, frame, onSuccess, r => collectNode n frame onSuccess false r

/-- An arm of an `if`, its first node, in a frame of its own. -/
def walkArm : Option (List PCFNNode) → String → Termination → ℤ → Bool → OrderWalkResult →
    OrderWalkResult
  | none, _, _, _, _, r => r
  | some ns, kind, t, frame, onSuccess, r => walkArmHead ns kind t frame onSuccess r

def walkArmHead : List PCFNNode → String → Termination → ℤ → Bool → OrderWalkResult →
    OrderWalkResult
  | [], _, _, _, _, r => r
  | n :: _, kind, t, frame, onSuccess, r =>
    collectNode n r.nextFrameId (armSuccess t onSuccess) false
      (pushFrame r frame kind (some (branchInfo t)))

/-- The branches of a `case`, each in a frame of its own. -/
def walkBranchesOpt : Option (List PCFNNode) → ℤ → Bool → OrderWalkResult → OrderWalkResult
  | none, _, _, r => r
  | some ns, frame, onSuccess, r => walkBranches ns frame onSuccess r

def walkBranches : List PCFNNode → ℤ → Bool → OrderWalkResult → OrderWalkResult
  | [], _, _, r => r
  | ⟨_, _, _, _, _, children, _, _, _, _⟩ :: ns, frame, onSuccess, r =>
    let t := (firstTermination children).getD .fallthrough
    walkBranches ns frame onSuccess
      (collectOpt children r.nextFrameId (armSuccess t onSuccess) false
        (pushFrame r frame "case-branch" (some (branchInfo t))))

/-- The statements of a block that is not the root. -/
def walkBlockOpt : Option (List PCFNNode) → ℤ → Bool → OrderWalkResult → OrderWalkResult
  | none, _, _, r => r
  | some ns, frame, onSuccess, r => walkStmts ns frame onSuccess false true false r

/-- **The statements of a block** in order; `dominating` in the root block before any statement that
may return normally.  Behind an unconditional end nothing is on the success path. -/
def walkStmts : List PCFNNode → ℤ → Bool → Bool → Bool → Bool → OrderWalkResult → OrderWalkResult
  | [], _, _, _, _, _, r => r
  | n :: ns, frame, onSuccess, isRoot, reachable, returned, r =>
    if !reachable then
      walkStmts ns frame onSuccess isRoot false returned (collectNode n frame false false r)
    else
      match n.kind with
      | .error | .exit =>
        walkStmts ns frame onSuccess isRoot false returned (collectNode n frame onSuccess false r)
      | .ifThen =>
        walkStmts ns frame onSuccess isRoot (ifContinues n)
          (returned || isRoot && canNormalReturnBeforeAfter n) (collectNode n frame onSuccess false r)
      | .case =>
        walkStmts ns frame onSuccess isRoot true
          (returned || isRoot && canNormalReturnBeforeAfter n) (collectNode n frame onSuccess false r)
      | .whileDo | .forTo | .foreach | .repeatUntil =>
        walkStmts ns frame onSuccess isRoot true returned (collectNode n frame onSuccess false r)
      | _ =>
        walkStmts ns frame onSuccess isRoot true returned
          (collectNode n frame onSuccess (isRoot && !returned) r)

end

/-- The statements of a `block` node; any other node is its own single statement. -/
def stmtsOf (n : PCFNNode) : List PCFNNode := if n.kind = .block then n.body else [n]

/-- **The order of a routine**: a `TryFunction` and a routine without a body have none. -/
def computeOperationOrder (statementTree : Option PCFNNode) (attributesLc : List String) :
    OrderWalkResult :=
  if attributesLc.any (· == "tryfunction") then .empty
  else
    match statementTree with
    | none => .empty
    | some tree =>
      walkStmts (stmtsOf tree) 0 true true true false (pushFrame .empty (-1) "block" none)

end AlSem.Body
