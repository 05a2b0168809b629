/-
# The predicate evaluator

Three-valued evaluation of a policy predicate, from `gate/policy/predicate_evaluator.rs`, in its
two modes: `full` reads every field, `applicability` leaves a field undecided that needs a fact,
a write or a rule.

The applicability mode is a pre-filter: what it decides, the full mode decides the same way
whatever fact the context is given.  Its answers are ordered by information (`Refines`), the
three connectives are monotone in that order, the early returns of the folds change nothing
(`StopFold`), and a field the mode reads does not depend on the fact (`evaluateField_put`).
-/
import AlSem.Lib.StopFold
import AlSem.Lib.Text
import AlSem.Policy.PredicateFields

namespace AlSem.Policy

/-! ## 1. The three truth values -/

inductive Tristate where
  | «true» | «false» | unknown
  deriving DecidableEq, Repr

/-- All: false dominates, then unknown. -/
def kleeneAnd (a b : Tristate) : Tristate :=
  if a = .false ∨ b = .false then .false
  else if a = .unknown ∨ b = .unknown then .unknown
  else .true

/-- Any: true dominates, then unknown. -/
def kleeneOr (a b : Tristate) : Tristate :=
  if a = .true ∨ b = .true then .true
  else if a = .unknown ∨ b = .unknown then .unknown
  else .false

def kleeneNot : Tristate → Tristate
  | .true => .false
  | .false => .true
  | .unknown => .unknown

/-! ## 2. Operators and globs -/

inductive PredicateOperator where
  | eq | «in» | glob | globIn
  deriving DecidableEq, Repr

inductive PredicateValue where
  | str (s : String)
  | list (xs : List String)
  deriving DecidableEq, Repr

/-- The expression of one character that is no line terminator. -/
def NON_LT : String := "[^\\n\\r\\x\x7b2028\x7d\\x\x7b2029\x7d]"

/-- The characters a glob takes literally that an expression would not. -/
def regexMetachars : List Char :=
  ['.', '+', '^', '$', '\x7b', '\x7d', '(', ')', '|', '[', ']', '\\']

/-- The expression of one character of a glob, in lower case. -/
def compileGlobChar (c : Char) : String :=
  if c = '*' then NON_LT ++ "*"
  else if c = '?' then NON_LT
  else if regexMetachars.contains c then "\\" ++ String.singleton c.toLower
  else String.singleton c.toLower

/-- The anchored expression a glob is compiled to. -/
def compileGlob (pattern : String) : String :=
  "^" ++ String.join (pattern.toList.map compileGlobChar) ++ "$"

/-- Case-insensitive anchored glob.  A pattern past the expression size limit never matches. -/
def globMatch (regexMatch : String → String → Option Bool) (pattern value : String) : Bool :=
  (regexMatch (compileGlob pattern) (Text.toAsciiLowercase value)).getD false

/-- Strings pass through, lists join with a comma. -/
def actualToString : FieldValue → String
  | .knownStr s => s
  | .knownList xs => ",".intercalate xs
  | .unknown _ => ""

/-- Match an operator against the value of a field. -/
def matchOperator (regexMatch : String → String → Option Bool) (op : PredicateOperator)
    (actual : FieldValue) (expected : PredicateValue) : Bool :=
  match op, expected with
  | .eq, .str e =>
    match actual with
    | .knownStr a => a == e
    | _ => false
  | .in, .list list =>
    match actual with
    | .knownStr a => list.contains a
    | .knownList arr => arr.any fun a => list.contains a
    | .unknown _ => false
  | .glob, .str pat => globMatch regexMatch pat (actualToString actual)
  | .globIn, .list pats =>
    match actual with
    | .knownList arr => pats.any fun g => arr.any fun a => globMatch regexMatch g a
    | actual => pats.any fun g => globMatch regexMatch g (actualToString actual)
  | _, _ => false

/-! ## 3. Evaluation -/

inductive EvalMode where
  | full | applicability
  deriving DecidableEq, Repr

/-- A compiled predicate. -/
inductive Predicate where
  | field (field : String) (operator : PredicateOperator) (value : PredicateValue)
  | all (children : List Predicate)
  | any (children : List Predicate)
  | not (child : Predicate)

/-- A predicate over one field. -/
def fieldTristate (field : String) (operator : PredicateOperator) (value : PredicateValue)
    (ctx : FieldEvalContext) (mode : EvalMode) : Tristate :=
  match getFieldDef field with
  | none => .unknown
  | some row =>
    if mode = .applicability ∧ row.scope.needsFact = true then .unknown
    else
      match evaluateField row ctx with
      | .unknown _ => .unknown
      | known => if matchOperator ctx.indexes.regexMatch operator known value then .true else .false

mutual

/-- Evaluate a predicate. -/
def evalTristate (ctx : FieldEvalContext) (mode : EvalMode) : Predicate → Tristate
  | .field field operator value => fieldTristate field operator value ctx mode
  | .all children => evalAll ctx mode .true children
  | .any children => evalAny ctx mode .false children
  | .not child => kleeneNot (evalTristate ctx mode child)

/-- The loop over a conjunction's children, which ends at the first false. -/
def evalAll (ctx : FieldEvalContext) (mode : EvalMode) (acc : Tristate) :
    List Predicate → Tristate
  | [] => acc
  | c :: cs =>
    let acc := kleeneAnd acc (evalTristate ctx mode c)
    if acc = .false then .false else evalAll ctx mode acc cs

/-- The loop over a disjunction's children, which ends at the first true. -/
def evalAny (ctx : FieldEvalContext) (mode : EvalMode) (acc : Tristate) :
    List Predicate → Tristate
  | [] => acc
  | c :: cs =>
    let acc := kleeneOr acc (evalTristate ctx mode c)
    if acc = .true then .true else evalAny ctx mode acc cs

end

/-- Full evaluation. -/
def evaluateResult (p : Predicate) (ctx : FieldEvalContext) : Tristate := evalTristate ctx .full p

/-- Evaluation without a fact.  `false` says that no fact satisfies the predicate. -/
def evaluateApplicability (p : Predicate) (ctx : FieldEvalContext) : Tristate :=
  evalTristate ctx .applicability p

/-! ## 4. The information order -/

/-- `b` decides at least what `a` decides, the same way. -/
def Tristate.Refines (a b : Tristate) : Prop := a = .unknown ∨ a = b

theorem Tristate.Refines.refl (a : Tristate) : a.Refines a := Or.inr rfl

theorem Tristate.Refines.of_unknown (a : Tristate) : Tristate.unknown.Refines a := Or.inl rfl

/-- What the lower value decides, the higher decides the same way. -/
theorem Tristate.Refines.decided {a b : Tristate} (h : a.Refines b) (ha : a ≠ .unknown) :
    b = a := by
  rcases h with h | h
  · exact absurd h ha
  · exact h.symm

/-- A connective that answers the same on what is decided is monotone. -/
theorem kleeneAnd_refines {a a' b b' : Tristate} (ha : a.Refines a') (hb : b.Refines b') :
    (kleeneAnd a b).Refines (kleeneAnd a' b') := by
  rcases ha with rfl | rfl
  · rcases hb with rfl | rfl
    · exact .of_unknown _
    -- an undecided side leaves only `false` decided, and it dominates on both sides
    · cases b <;> cases a' <;> first | exact .of_unknown _ | exact .refl _
  · rcases hb with rfl | rfl
    · cases a <;> cases b' <;> first | exact .of_unknown _ | exact .refl _
    · exact .refl _

theorem kleeneOr_refines {a a' b b' : Tristate} (ha : a.Refines a') (hb : b.Refines b') :
    (kleeneOr a b).Refines (kleeneOr a' b') := by
  rcases ha with rfl | rfl
  · rcases hb with rfl | rfl
    · exact .of_unknown _
    · cases b <;> cases a' <;> first | exact .of_unknown _ | exact .refl _
  · rcases hb with rfl | rfl
    · cases a <;> cases b' <;> first | exact .of_unknown _ | exact .refl _
    · exact .refl _

theorem kleeneNot_refines {a a' : Tristate} (ha : a.Refines a') :
    (kleeneNot a).Refines (kleeneNot a') := by
  rcases ha with rfl | rfl
  · exact .of_unknown _
  · exact .refl _

/-- `false` stays false under `kleeneAnd`, which is why the loop may stop there. -/
theorem kleeneAnd_false (b : Tristate) : kleeneAnd .false b = .false := by cases b <;> rfl

/-- `true` stays true under `kleeneOr`. -/
theorem kleeneOr_true (b : Tristate) : kleeneOr .true b = .true := by cases b <;> rfl

/-! ## 5. The pre-filter -/

/-- The conjunction's loop is the fold of `kleeneAnd` over what its children evaluate to. -/
theorem evalAll_eq_foldl (ctx : FieldEvalContext) (mode : EvalMode) (acc : Tristate)
    (cs : List Predicate) :
    evalAll ctx mode acc cs = (cs.map (evalTristate ctx mode)).foldl kleeneAnd acc := by
  have hstop : evalAll ctx mode acc cs =
      StopFold.foldUntil (· = .false) kleeneAnd acc (cs.map (evalTristate ctx mode)) := by
    induction cs generalizing acc with
    | nil => rfl
    | cons c cs ih =>
      simp only [evalAll, List.map_cons, StopFold.foldUntil, decide_eq_true_eq]
      split
      · next h => exact h.symm
      · exact ih _
  rw [hstop]
  refine StopFold.foldUntil_eq_foldl (fun a ha b => ?_) _ _
  rw [of_decide_eq_true ha]
  exact kleeneAnd_false b

/-- The disjunction's loop is the fold of `kleeneOr` over what its children evaluate to. -/
theorem evalAny_eq_foldl (ctx : FieldEvalContext) (mode : EvalMode) (acc : Tristate)
    (cs : List Predicate) :
    evalAny ctx mode acc cs = (cs.map (evalTristate ctx mode)).foldl kleeneOr acc := by
  have hstop : evalAny ctx mode acc cs =
      StopFold.foldUntil (· = .true) kleeneOr acc (cs.map (evalTristate ctx mode)) := by
    induction cs generalizing acc with
    | nil => rfl
    | cons c cs ih =>
      simp only [evalAny, List.map_cons, StopFold.foldUntil, decide_eq_true_eq]
      split
      · next h => exact h.symm
      · exact ih _
  rw [hstop]
  refine StopFold.foldUntil_eq_foldl (fun a ha b => ?_) _ _
  rw [of_decide_eq_true ha]
  exact kleeneOr_true b

section PreFilter

variable (ctx : FieldEvalContext) (fact : Option FactRef) (write : Option WriteFact)
  (rule : Option RuleFact)

/-- A predicate over one field: undecided where the field needs a fact, and otherwise read from
what the fact does not touch. -/
theorem fieldTristate_refines (field : String) (operator : PredicateOperator)
    (value : PredicateValue) :
    (fieldTristate field operator value ctx .applicability).Refines
      (fieldTristate field operator value (ctx.put fact write rule) .full) := by
  unfold fieldTristate
  cases hrow : getFieldDef field with
  | none => exact .refl _
  | some row =>
    cases hscope : row.scope.needsFact with
    | true =>
      simp only [hscope, and_self, if_true]
      exact .of_unknown _
    | false =>
      have hput : evaluateField row (ctx.put fact write rule) = evaluateField row ctx :=
        evaluateField_put (getFieldDef_mem hrow) hscope ctx fact write rule
      simp only [hscope, hput, Bool.false_eq_true, and_false, if_false]
      exact .refl _

mutual

/-- **What the applicability mode decides, the full mode decides the same way**, whatever fact,
write and rule are put in the context. -/
theorem evalTristate_refines : ∀ p : Predicate,
    (evalTristate ctx .applicability p).Refines
      (evalTristate (ctx.put fact write rule) .full p)
  | .field field operator value => by
    simp only [evalTristate]
    exact fieldTristate_refines ctx fact write rule field operator value
  | .all children => by
    simp only [evalTristate, evalAll_eq_foldl]
    exact StopFold.foldl_rel kleeneAnd_refines (evalTristates_refine children) (.refl _)
  | .any children => by
    simp only [evalTristate, evalAny_eq_foldl]
    exact StopFold.foldl_rel kleeneOr_refines (evalTristates_refine children) (.refl _)
  | .not child => by
    simp only [evalTristate]
    exact kleeneNot_refines (evalTristate_refines child)

theorem evalTristates_refine : ∀ ps : List Predicate,
    List.Forall₂ Tristate.Refines (ps.map (evalTristate ctx .applicability))
      (ps.map (evalTristate (ctx.put fact write rule) .full))
  | [] => .nil
  | p :: ps => .cons (evalTristate_refines p) (evalTristates_refine ps)

end

end PreFilter

end AlSem.Policy
