/-
# Pending writes: the sites before a target

`sites_before` of `l5/pending_writes.rs`: which sites of a routine may run, in the open transaction,
before control reaches any of its targets, and whether a `Commit()` statement runs on the way to all of
them.  The effects the sites have (`pending_of`, `effects`) are not part of this.
-/
import AlSem.Body.OperationOrder
import Mathlib.Data.Finset.Lattice.Fold

namespace AlSem.L5.PendingWrites

open AlSem.Model AlSem.Body

/-! ## 1. The sites of a tree -/

/-- `is_site`: `n` is the site `t`. -/
def isSite (n : PCFNNode) (t : String) : Bool :=
  n.operationId == some t || n.callsiteId == some t

mutual

/-- `contains`: the tree of `n` has the site `t`. -/
def holdsSite : PCFNNode → String → Bool
  | ⟨_, op, cs, _, leaves, children, elseChildren, _, _, _⟩, t =>
    (op == some t || cs == some t) || anyHoldsOpt leaves t || anyHoldsOpt children t ||
      anyHoldsOpt elseChildren t

def anyHoldsOpt : Option (List PCFNNode) → String → Bool
  | none, _ => false
  | some ns, t => anyHolds ns t

def anyHolds : List PCFNNode → String → Bool
  | [], _ => false
  | n :: ns, t => holdsSite n t || anyHolds ns t

end

/-- `collect`: every site of the tree. -/
def collect (n : PCFNNode) : Finset String := n.treeIds.toFinset

/-- The kinds whose children are arms that a run may leave the routine by. -/
def hasArms (k : CfnKind) : Bool := k == .ifThen || k == .caseBranch

mutual

/-- `collect_reaching`: every site of the tree but those of an arm that always exits or raises. -/
def collectReaching : PCFNNode → Finset String
  | ⟨k, op, cs, _, leaves, children, elseChildren, _, _, _⟩ =>
    (op.toList ++ cs.toList).toFinset ∪ (reachingOpt false leaves ∪
      (reachingOpt (hasArms k) children ∪ reachingOpt (hasArms k) elseChildren))

def reachingOpt : Bool → Option (List PCFNNode) → Finset String
  | _, none => ∅
  | arms, some ns => reachingList arms ns

/-- The nodes of a list, with `arms` those that fall through only. -/
def reachingList : Bool → List PCFNNode → Finset String
  | _, [] => ∅
  | arms, n :: ns =>
    (if arms && terminates (branchTermination n) then ∅ else collectReaching n) ∪
      reachingList arms ns

end

/-! ## 2. The walk toward a target -/

/-- `is_commit`: a `Commit()` leaf, `commits` the ids of the commit sites. -/
def isCommit (commits : Finset String) (n : PCFNNode) : Bool :=
  n.operationId.any fun id => decide (id ∈ commits)

/-- The walk's accumulators: `out` and `cleared`. -/
structure Walked where
  out : Finset String
  cleared : Bool
  deriving DecidableEq

/-- The sites that may run and fall through are before the target too. -/
def Walked.add (w : Walked) (s : Finset String) : Walked := { w with out := w.out ∪ s }

/-- What a statement in front of the target's does to the accumulators: a `Commit()` ends the
transaction. -/
def Walked.pass (w : Walked) (commits : Finset String) (n : PCFNNode) : Walked :=
  if isCommit commits n then ⟨∅, true⟩ else w.add (collectReaching n)

/-- The kinds of a loop. -/
def isLoopKind (k : CfnKind) : Bool :=
  k == .forTo || k == .foreach || k == .whileDo || k == .repeatUntil

mutual

/-- `walk_list`: what runs before `t` in the statement list, `none` when `t` is not in it. -/
def walkList (commits : Finset String) (t : String) : List PCFNNode → Walked → Option Walked
  | [], _ => none
  | n :: ns, w =>
    if holdsSite n t then some (walkNode commits t n w)
    else walkList commits t ns (w.pass commits n)

def walkListOpt (commits : Finset String) (t : String) :
    Option (List PCFNNode) → Walked → Option Walked
  | none, _ => none
  | some ns, w => walkList commits t ns w

/-- `walk_node`: what runs before `t` inside `n`, which holds it. -/
def walkNode (commits : Finset String) (t : String) : PCFNNode → Walked → Walked
  | ⟨k, op, cs, _, leaves, children, elseChildren, _, _, _⟩, w =>
    match walkListOpt commits t leaves w with
    | some w' => w'
    | none =>
      let w := w.add (reachingOpt false leaves)
      if op == some t || cs == some t then w
      else if isLoopKind k then
        w.add (reachingOpt false children ∪ reachingOpt false elseChildren)
      else if k == .case then walkBranchOpt commits t children w
      else
        match walkListOpt commits t children w with
        | some w' => w'
        | none => (walkListOpt commits t elseChildren w).getD w

/-- A `case` runs one branch: the one that holds `t`. -/
def walkBranchOpt (commits : Finset String) (t : String) :
    Option (List PCFNNode) → Walked → Walked
  | none, w => w
  | some ns, w => walkBranch commits t ns w

def walkBranch (commits : Finset String) (t : String) : List PCFNNode → Walked → Walked
  | [], w => w
  | b :: bs, w => if holdsSite b t then walkNode commits t b w else walkBranch commits t bs w

end

/-! ## 3. The sites before the targets -/

/-- The sites of a routine that may run before its targets. -/
structure Before where
  sites : Finset String
  all : Bool
  committed : Bool
  deriving DecidableEq

/-- The ids of the routine's commit sites. -/
def commitSites (r : RoutineBody) : Finset String :=
  ((r.operationSites.filter fun o => o.kind == "commit").map POperationSite.id).toFinset

/-- The walks of the targets one after the other, `none` at the first that the tree does not hold. -/
def walkTargets (commits : Finset String) (tree : PCFNNode) :
    List String → Finset String × Bool → Option (Finset String × Bool)
  | [], acc => some acc
  | t :: ts, acc =>
    (walkList commits t [tree] ⟨∅, false⟩).bind fun w =>
      walkTargets commits tree ts (acc.1 ∪ w.out, acc.2 && w.cleared)

/-- Every site of the routine, where the order is not known. -/
def allSites (r : RoutineBody) : Finset String :=
  (r.statementTree.map collect).getD ∅ ∪
    ((r.callSites.map PCallSite.id).toFinset ∪ (r.operationSites.map POperationSite.id).toFinset)

/-- **`sites_before`**: the sites of `r` that may run, in the open transaction, before control reaches
any of `targets`, without the targets themselves. -/
def sitesBefore (r : RoutineBody) (targets : List String) (wholeBody : Bool) : Before :=
  let walked := if wholeBody then none else r.statementTree.bind fun tree =>
    walkTargets (commitSites r) tree targets (∅, !targets.isEmpty)
  match walked with
  | some (sites, committed) => ⟨sites \ targets.toFinset, false, committed⟩
  | none => ⟨allSites r \ targets.toFinset, true, false⟩

/-! ## 4. A checked run -/

/-- `is_checked_run`: the result of running a codeunit is used, so it runs in a transaction of its
own.  A codeunit variable's `Run` is one when it reaches the `OnRun` trigger. -/
def isCheckedRun (cs : PCallSite) (callee : Option ModelRoutine) : Bool :=
  match cs.callee with
  | .objectRun objectKind _ _ _ => objectKind == "Codeunit" && cs.objectRunReturnUsed == some true
  | .member _ method =>
    Text.eqIgnoreAsciiCase method "run" && !cs.inStatementPosition &&
      callee.any fun c => c.kind == "trigger" && Text.eqIgnoreAsciiCase c.name "OnRun"
  | _ => false

end AlSem.L5.PendingWrites
