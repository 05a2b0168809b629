/-
# Workspace rows

The routine row of `program/model/workspace.rs`, with the fields the solvers read.
-/
import AlSem.Lib.Text
import AlSem.Model.Features

namespace AlSem.Model

/-- A record variable of a routine. -/
structure ModelRecordVariable where
  id : String
  name : String
  tableId : Option String := none
  isParameter : Bool := false
  parameterIndex : Option ℕ := none
  tempState : PTempState
  deriving DecidableEq, Repr

/-- A record operation of a routine. -/
structure ModelRecordOperation where
  id : String
  op : String
  recordVariableName : String := ""
  recordVariableId : Option String := none
  tableId : Option String := none
  tempState : Option PTempState := none
  fieldArguments : Option (List String) := none
  sourceAnchor : PAnchor := {}
  deriving DecidableEq, Repr

/-- A declared parameter. -/
structure ModelParameter where
  index : ℕ
  name : String
  typeText : String := ""
  isVar : Bool := false
  isRecord : Bool := false
  deriving DecidableEq, Repr

/-- A routine of the workspace. -/
structure ModelRoutine where
  id : String
  stableRoutineId : String := ""
  name : String := ""
  kind : String := ""
  bodyAvailable : Bool := true
  parseIncomplete : Bool := false
  recordVariables : List ModelRecordVariable := []
  recordOperations : List ModelRecordOperation := []
  fieldAccesses : List PFieldAccess := []
  parameters : List ModelParameter := []
  callSites : List PCallSite := []
  deriving DecidableEq, Repr

/-- `unq`: a name without surrounding white space and quotes. -/
def unq (s : String) : String := Text.trimMatches '"' (Text.trim s)

/-- The one event-parameter name match: ASCII case, quotes and white space ignored. -/
def eventParamNamesMatch (a b : String) : Bool := Text.eqIgnoreAsciiCase (unq a) (unq b)

end AlSem.Model
