/-
# Runs that evaluate the patterns of a case

A second reading of what a routine body can do, for a question about order.  `Exec` lets a `case` pick a
branch; here the patterns are evaluated in order, branch by branch, up to the one that matches, and
when none does all of them have been.  Everything else is as `Exec` has it, and every choice is free.
-/
import AlSem.Model.Execution

namespace AlSem.Model

/-- **The runs of a piece of code, the patterns of a `case` in order.** -/
inductive Runs : Code → List PCFNNode → Outcome → Prop
  /-- A run may fail anywhere. -/
  | fail (c : Code) : Runs c [] .failed
  | node {n t₁ t₂ o} : Runs (.leaves n.before) t₁ .normal → Runs (.body n) t₂ o →
      Runs (.node n) (t₁ ++ n :: t₂) o
  | nodeStop {n t o} : Runs (.leaves n.before) t o → o.leaves → Runs (.node n) t o
  | nil : Runs (.list []) [] .normal
  | cons {n ns t₁ t₂ o} : Runs (.node n) t₁ .normal → Runs (.list ns) t₂ o →
      Runs (.list (n :: ns)) (t₁ ++ t₂) o
  | stop {n ns t o} : Runs (.node n) t o → o ≠ .normal → Runs (.list (n :: ns)) t o
  | leavesNil : Runs (.leaves []) [] .normal
  | leavesCons {n ns t₁ t₂ o} : Runs (.node n) t₁ .normal → Runs (.leaves ns) t₂ o →
      Runs (.leaves (n :: ns)) (t₁ ++ t₂) o
  | leavesStop {n ns t o} : Runs (.node n) t o → o.leaves → Runs (.leaves (n :: ns)) t o
  /-- A leaf of one alternative of a ternary expression may not run. -/
  | leavesSkip {n ns t o} : n.pathHint = some .mayRun → Runs (.leaves ns) t o →
      Runs (.leaves (n :: ns)) t o
  | leaf {n} : n.kind.isLeaf → Runs (.body n) [] .normal
  | exit {n} : n.kind = .exit → Runs (.body n) [] .exited
  | error {n} : n.kind = .error → Runs (.body n) [] .errored
  | breakLoop {n} : n.kind = .breakLoop → Runs (.body n) [] .broke
  | continueLoop {n} : n.kind = .continueLoop → Runs (.body n) [] .continued
  | sequence {n t o} : n.kind.isSequence → Runs (.list n.body) t o → Runs (.body n) t o
  /-- `asserterror` catches what fails inside. -/
  | caught {n t o} : n.kind = .other → n.pathHint = some .assertError → Runs (.body n) t o →
      o = .errored ∨ o = .failed → Runs (.body n) t .normal
  | thenBranch {n t o} : n.kind = .ifThen → Runs (.list n.body) t o → Runs (.body n) t o
  | elseBranch {n t o} : n.kind = .ifThen → Runs (.list n.elseBody) t o → Runs (.body n) t o
  /-- The patterns of the branches in front, then those of this one up to the match. -/
  | branch {n pre b post ls rest t₁ t₂ o} : n.kind = .case → n.body = pre ++ b :: post →
      b.kind = .caseBranch → b.leaves = ls ++ rest →
      Runs (.leaves (pre.flatMap PCFNNode.leaves ++ ls)) t₁ .normal →
      Runs (.list b.body) t₂ o → Runs (.body n) (t₁ ++ b :: t₂) o
  | noBranch {n t} : n.kind = .case → (∀ c ∈ n.body, c.isCaseElse = false) →
      Runs (.leaves (n.body.flatMap PCFNNode.leaves)) t .normal → Runs (.body n) t .normal
  | patternStop {n t o} : n.kind = .case → Runs (.leaves (n.body.flatMap PCFNNode.leaves)) t o →
      o.leaves → Runs (.body n) t o
  | headLoop {n t o} : n.kind.isHeadLoop → Runs (.loop n) t o → Runs (.body n) t o
  | tailLoop {n t₁ t₂ o} : n.kind = .repeatUntil → Runs (.round n) t₁ .normal →
      Runs (.loop n) t₂ o → Runs (.body n) (t₁ ++ t₂) o
  | tailBreak {n t} : n.kind = .repeatUntil → Runs (.round n) t .broke → Runs (.body n) t .normal
  | tailStop {n t o} : n.kind = .repeatUntil → Runs (.round n) t o → o.leaves →
      Runs (.body n) t o
  | round {n t₁ t₂ o₁ o} : Runs (.list n.body) t₁ o₁ → o₁.latches → Runs (.leaves n.again) t₂ o →
      Runs (.round n) (t₁ ++ t₂) o
  | roundStop {n t o} : Runs (.list n.body) t o → ¬ o.latches → Runs (.round n) t o
  | loopStop {n} : Runs (.loop n) [] .normal
  | loopRound {n t₁ t₂ o} : Runs (.round n) t₁ .normal → Runs (.loop n) t₂ o →
      Runs (.loop n) (t₁ ++ t₂) o
  | loopBreak {n t} : Runs (.round n) t .broke → Runs (.loop n) t .normal
  | loopLeave {n t o} : Runs (.round n) t o → o.leaves → Runs (.loop n) t o

end AlSem.Model
