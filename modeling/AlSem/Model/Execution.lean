/-
# Runs of a statement tree

What a routine body can do, as its statement tree tells it.  A run is the list of the nodes it
executes, each when its condition has been evaluated, with how it ends.  `sel n b` says what a run
may choose at `n`: the branch of an `if`, and, with `b` false, to skip a leaf that may not run and
to go on behind an `asserterror` that failed.  Every other choice is free: the branch of a `case`,
the number of rounds of a loop, and where the run fails.

The patterns of a `case` are not evaluated: the tree is built with no leaves for them, the branches
of a `case` have a body only.  `Runs` reads a tree that has them.
-/
import AlSem.Model.Cfn

namespace AlSem.Model

/-- How the run of a piece of code ends. -/
inductive Outcome where
  | normal
  | broke
  | continued
  /-- The routine was left. -/
  | exited
  /-- `Error` was called. -/
  | errored
  /-- Another error was raised, or the run is looked at no further. -/
  | failed
  deriving DecidableEq, Repr

/-- Control leaves every enclosing statement. -/
def Outcome.leaves (o : Outcome) : Prop := o = .exited ∨ o = .errored ∨ o = .failed

/-- Control goes to the end of the loop's round. -/
def Outcome.latches (o : Outcome) : Prop := o = .normal ∨ o = .continued

/-- A piece of code. -/
inductive Code where
  | node (n : PCFNNode)
  | list (ns : List PCFNNode)
  /-- The leaves of a condition. -/
  | leaves (ns : List PCFNNode)
  /-- A node behind its condition. -/
  | body (n : PCFNNode)
  /-- One round of a loop: the body, then the condition where the loop has one there. -/
  | round (n : PCFNNode)
  /-- Any number of rounds of a loop. -/
  | loop (n : PCFNNode)

namespace PCFNNode

/-- What a node evaluates before its body. -/
def before (n : PCFNNode) : List PCFNNode :=
  match n.kind with
  | .block | .caseBranch | .tryBlock | .breakLoop | .continueLoop | .repeatUntil => []
  | _ => n.leaves

/-- What a loop evaluates at the end of a round. -/
def again (n : PCFNNode) : List PCFNNode :=
  match n.kind with
  | .whileDo | .repeatUntil => n.leaves
  | _ => []

end PCFNNode

namespace CfnKind

/-- The statements that run their children in order. -/
def isSequence (k : CfnKind) : Prop :=
  k = .block ∨ k = .caseBranch ∨ k = .tryBlock ∨ k = .other

/-- The statements with nothing behind their condition. -/
def isLeaf (k : CfnKind) : Prop := k = .op ∨ k = .call

/-- The loops whose condition comes first. -/
def isHeadLoop (k : CfnKind) : Prop := k = .whileDo ∨ k = .forTo ∨ k = .foreach

end CfnKind

/-- **The runs of a piece of code.** -/
inductive Exec (sel : PCFNNode → Bool → Prop) : Code → List PCFNNode → Outcome → Prop
  /-- A run may fail anywhere. -/
  | fail (c : Code) : Exec sel c [] .failed
  | node {n t₁ t₂ o} : Exec sel (.leaves n.before) t₁ .normal → Exec sel (.body n) t₂ o →
      Exec sel (.node n) (t₁ ++ n :: t₂) o
  | nodeStop {n t o} : Exec sel (.leaves n.before) t o → o.leaves → Exec sel (.node n) t o
  | nil : Exec sel (.list []) [] .normal
  | cons {n ns t₁ t₂ o} : Exec sel (.node n) t₁ .normal → Exec sel (.list ns) t₂ o →
      Exec sel (.list (n :: ns)) (t₁ ++ t₂) o
  | stop {n ns t o} : Exec sel (.node n) t o → o ≠ .normal → Exec sel (.list (n :: ns)) t o
  | leavesNil : Exec sel (.leaves []) [] .normal
  | leavesCons {n ns t₁ t₂ o} : Exec sel (.node n) t₁ .normal → Exec sel (.leaves ns) t₂ o →
      Exec sel (.leaves (n :: ns)) (t₁ ++ t₂) o
  | leavesStop {n ns t o} : Exec sel (.node n) t o → o.leaves → Exec sel (.leaves (n :: ns)) t o
  /-- A leaf of one alternative of a ternary expression may not run. -/
  | leavesSkip {n ns t o} : n.pathHint = some .mayRun → sel n false →
      Exec sel (.leaves ns) t o → Exec sel (.leaves (n :: ns)) t o
  | leaf {n} : n.kind.isLeaf → Exec sel (.body n) [] .normal
  | exit {n} : n.kind = .exit → Exec sel (.body n) [] .exited
  | error {n} : n.kind = .error → Exec sel (.body n) [] .errored
  | breakLoop {n} : n.kind = .breakLoop → Exec sel (.body n) [] .broke
  | continueLoop {n} : n.kind = .continueLoop → Exec sel (.body n) [] .continued
  | sequence {n t o} : n.kind.isSequence → Exec sel (.list n.body) t o → Exec sel (.body n) t o
  /-- `asserterror` catches what fails inside. -/
  | caught {n t o} : n.kind = .other → n.pathHint = some .assertError → sel n false →
      Exec sel (.body n) t o → o = .errored ∨ o = .failed → Exec sel (.body n) t .normal
  | thenBranch {n t o} : n.kind = .ifThen → sel n true → Exec sel (.list n.body) t o →
      Exec sel (.body n) t o
  | elseBranch {n t o} : n.kind = .ifThen → sel n false → Exec sel (.list n.elseBody) t o →
      Exec sel (.body n) t o
  | branch {n b t o} : n.kind = .case → (∀ c ∈ n.body, c.kind = .caseBranch) → b ∈ n.body →
      Exec sel (.node b) t o → Exec sel (.body n) t o
  /-- No branch matches; an `else` branch always does. -/
  | noBranch {n} : n.kind = .case → (∀ c ∈ n.body, c.kind = .caseBranch ∧ c.isCaseElse = false) →
      Exec sel (.body n) [] .normal
  | headLoop {n t o} : n.kind.isHeadLoop → Exec sel (.loop n) t o → Exec sel (.body n) t o
  | tailLoop {n t₁ t₂ o} : n.kind = .repeatUntil → Exec sel (.round n) t₁ .normal →
      Exec sel (.loop n) t₂ o → Exec sel (.body n) (t₁ ++ t₂) o
  | tailBreak {n t} : n.kind = .repeatUntil → Exec sel (.round n) t .broke →
      Exec sel (.body n) t .normal
  | tailStop {n t o} : n.kind = .repeatUntil → Exec sel (.round n) t o → o.leaves →
      Exec sel (.body n) t o
  | round {n t₁ t₂ o₁ o} : Exec sel (.list n.body) t₁ o₁ → o₁.latches →
      Exec sel (.leaves n.again) t₂ o → Exec sel (.round n) (t₁ ++ t₂) o
  | roundStop {n t o} : Exec sel (.list n.body) t o → ¬ o.latches → Exec sel (.round n) t o
  | loopStop {n} : Exec sel (.loop n) [] .normal
  | loopRound {n t₁ t₂ o} : Exec sel (.round n) t₁ .normal → Exec sel (.loop n) t₂ o →
      Exec sel (.loop n) (t₁ ++ t₂) o
  | loopBreak {n t} : Exec sel (.round n) t .broke → Exec sel (.loop n) t .normal
  | loopLeave {n t o} : Exec sel (.round n) t o → o.leaves → Exec sel (.loop n) t o

/-- A node with no condition. -/
theorem Exec.unconditional {sel : PCFNNode → Bool → Prop} {n : PCFNNode} {t : List PCFNNode}
    {o : Outcome} (hn : n.before = []) (h : Exec sel (.body n) t o) :
    Exec sel (.node n) (n :: t) o := by
  have hl : Exec sel (.leaves n.before) [] .normal := by
    rw [hn]
    exact .leavesNil
  exact .node hl h

end AlSem.Model
