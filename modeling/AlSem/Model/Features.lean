/-
# Body features

The rows of `program/body/features.rs` the solvers read: temp states, call sites with their
argument bindings, and field accesses.  Fields no modelled function reads are left out.
-/
import Mathlib.Data.Nat.Notation
import Mathlib.Algebra.Group.Nat.Defs

namespace AlSem.Model

/-- A place in a source file, lines and columns from zero. -/
structure PAnchor where
  startLine : ℕ := 0
  startColumn : ℕ := 0
  endLine : ℕ := 0
  endColumn : ℕ := 0
  deriving DecidableEq, Repr

/-- A temp state as the body walk writes it: a kind and its one payload. -/
structure PTempState where
  kind : String
  value : Option Bool := none
  parameterIndex : Option ℕ := none
  deriving DecidableEq, Repr

/-- The index a table method's implicit `Rec` has: `u32::MAX`. -/
def receiverParamIndex : ℕ := 2 ^ 32 - 1

/-- What a call passes to one parameter of its callee. -/
structure PCallArgumentBinding where
  parameterIndex : ℕ
  sourceKind : String
  sourceVariableName : Option String := none
  sourceRecordVariableId : Option String := none
  sourceParameterIndex : Option ℕ := none
  sourceTempState : Option PTempState := none
  callerSourceParameterIsVar : Option Bool := none
  deriving DecidableEq, Repr

/-- What a call site names: a routine of the same object, a member of a receiver, the run of an
object, or nothing the walk could classify. -/
inductive PCallee where
  | bare (name : String)
  | member (receiver method : String)
  | objectRun (objectKind targetType : String) (targetRef : Option String) (targetIsName : Bool)
  | unknown
  deriving DecidableEq, Repr

/-- A call site. -/
structure PCallSite where
  id : String
  operationId : String := ""
  callee : PCallee := .unknown
  objectRunReturnUsed : Option Bool := none
  inStatementPosition : Bool := false
  argumentTexts : List String := []
  argumentBindings : List PCallArgumentBinding := []
  receiverTempState : Option PTempState := none
  sourceAnchor : PAnchor := {}
  deriving DecidableEq, Repr

/-- The temp state bound to callee parameter `i`: an argument's, or the receiver's. -/
def PCallSite.sourceTempStateFor (cs : PCallSite) (i : ℕ) : Option PTempState :=
  if i = receiverParamIndex then cs.receiverTempState
  else
    match cs.argumentBindings.find? (fun b => b.parameterIndex = i) with
    | some b => b.sourceTempState
    | none => none

/-- An operation site: what is done there, by its kind. -/
structure POperationSite where
  id : String
  kind : String
  deriving DecidableEq, Repr

/-- A field read or written through a record variable. -/
structure PFieldAccess where
  recordVariableName : String
  fieldName : String
  sourceAnchor : PAnchor := {}
  deriving DecidableEq, Repr

end AlSem.Model
