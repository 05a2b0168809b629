/-
# Base summaries and temp-state transfer

The part of `summary_runner.rs` the solvers start from: a routine's summary from its own body,
and the transfer of a parameter-dependent temp state from a callee's frame into its caller's,
edge by edge.

`toLowercase` stands for the standard library's Unicode lower-casing, which the field
resolution uses; nothing below depends on what it does.
-/
import AlSem.L4.CombinedGraph

namespace AlSem.L4

open AlSem.Model

/-! ## 1. Operations -/

/-- The operations that touch the database. -/
def isDbTouching (op : String) : Bool :=
  ["FindSet", "FindFirst", "FindLast", "Find", "Get", "Next", "Count", "CountApprox", "IsEmpty",
    "CalcFields", "CalcSums", "Modify", "ModifyAll", "Insert", "Delete", "DeleteAll", "Rename",
    "LockTable"].contains op

/-- What an operation does to the record it runs on. -/
def recordFlowRole (op : String) : String :=
  match op with
  | "Get" | "FindFirst" | "FindLast" | "FindSet" | "Find" | "Next" => "loadsFromDb"
  | "Init" => "initialises"
  | "Modify" | "Insert" | "Rename" => "persistsCurrent"
  | "ModifyAll" | "DeleteAll" => "setBasedWrite"
  | "Validate" => "validates"
  | "Copy" | "TransferFields" => "copiesInto"
  | "Reset" => "resetsFilter"
  | _ => "neutral"

/-! ## 2. Record roles from the body -/

/-- `(table, lower-cased field name) → field id`. -/
abbrev FieldIndex := String × String → Option String

section Roles

variable (toLowercase : String → String)

/-- The field a name denotes on a table, case-insensitively. -/
def resolveField (tableId fieldName : String) (fields : FieldIndex) : Option String :=
  if tableId = "unknown" then none else fields (tableId, toLowercase fieldName)

/-- The elements of a list, sorted, each once. -/
def sortedSet (l : List String) : List String := l.dedup.mergeSort

/-- Presence of a fact some operation of a list establishes. -/
def presenceIf (p : Bool) : EffectPresence := if p then .yes else .no

/-- The role of one record parameter, path facts unknown. -/
def recordRole (routine : ModelRoutine) (fields : FieldIndex) (param : ModelParameter)
    (recVar : ModelRecordVariable) : RecordRoleSummary :=
  let tableId := recVar.tableId.getD "unknown"
  let recVarNameLc := toLowercase recVar.name
  let accesses := routine.fieldAccesses.filter fun fa =>
    toLowercase fa.recordVariableName = recVarNameLc
  let ops := routine.recordOperations.filter fun op =>
    toLowercase op.recordVariableName = recVarNameLc
  let readsFields := accesses.filterMap fun fa => resolveField toLowercase tableId fa.fieldName fields
  let writesFields := (ops.filter fun op => op.op = "Validate").flatMap fun op =>
    (op.fieldArguments.getD []).filterMap fun arg => resolveField toLowercase tableId arg fields
  let anyOp (names : List String) : Bool := ops.any fun op => names.contains op.op
  let anyRole (role : String) : EffectPresence :=
    presenceIf (ops.any fun op => recordFlowRole op.op = role)
  let typeText := toLowercase param.typeText
  let mayUseRecordRef := Text.contains "recordref" typeText || Text.contains "fieldref" typeText ||
    Text.contains "variant" typeText
  let persists := anyRole "persistsCurrent"
  let validates := anyRole "validates"
  let copies := anyRole "copiesInto"
  { parameterIndex := param.index
    tableId := tableId
    readsFields := if mayUseRecordRef then .unknown else .known (sortedSet readsFields)
    writesFields := if mayUseRecordRef then .unknown else .known (sortedSet writesFields)
    mayResetFilters := anyOp ["Reset", "Copy"]
    mayChangeLoadFields := anyOp ["SetLoadFields", "AddLoadFields", "Reset"]
    mayAssignRecord := anyOp ["Copy", "TransferFields"]
    mayUseRecordRef := mayUseRecordRef
    requiresLoadedAtEntry := .unknown
    requiredLoadedFieldsAtEntry := .unknown
    mutatesBeforeLoad := .unknown
    persistsCurrentRecord := persists
    setBasedDbWrites := anyRole "setBasedWrite"
    validatesParam := validates
    copiesIntoParam := copies
    resetsFiltersOnParam := anyRole "resetsFilter"
    dirtyAtExit := .unknown
    currentLoadedFieldsAtExit := .unknown
    mutatesParam := joinPresence (joinPresence persists validates) copies
    loadsFromDbParam := anyRole "loadsFromDb"
    initialisesParam := anyRole "initialises" }

/-- The roles of a routine's record parameters, by parameter index. -/
def computeRecordRoles (routine : ModelRoutine) (fields : FieldIndex) : List RecordRoleSummary :=
  let roles := (routine.parameters.filter ModelParameter.isRecord).filterMap fun param =>
    (routine.recordVariables.find? fun rv =>
      rv.isParameter && decide (rv.parameterIndex = some param.index)).map fun recVar =>
        recordRole toLowercase routine fields param recVar
  roles.mergeSort fun a b => decide (a.parameterIndex ≤ b.parameterIndex)

/-! ## 3. The base summary -/

/-- The effect of one database operation of the body. -/
def baseEffect (op : ModelRecordOperation) : DbEffect :=
  let tableId := op.tableId.getD "unknown"
  let tempState := (op.tempState.map TempState.fromP).getD .unknown
  { effectKey := effectKeyOf op.op tableId op.id tempState.toKind
    operationId := op.id
    op := op.op
    tableId := tableId
    recordVariableId := op.recordVariableId
    tempState := tempState
    via := "direct" }

/-- A routine's summary from its own body: nothing seen of an opaque or unparsed one. -/
def baseIntraproceduralSummary (routine : ModelRoutine) (fields : FieldIndex) : RoutineSummary :=
  let parameterRoles := computeRecordRoles toLowercase routine fields
  let unseen (kind : String) : RoutineSummary :=
    { routineId := routine.id
      dbEffects := []
      inRecursiveCycle := false
      hasUnresolvedCalls := true
      uncertainties := [{ kind := kind, routineId := some routine.id }]
      parameterRoles := parameterRoles }
  if !routine.bodyAvailable then unseen "opaque-body"
  else if routine.parseIncomplete then unseen "parse-incomplete"
  else
    { routineId := routine.id
      dbEffects :=
        ((routine.recordOperations.filter fun op => isDbTouching op.op).map baseEffect).mergeSort
          fun a b => decide (a.effectKey ≤ b.effectKey)
      inRecursiveCycle := false
      hasUnresolvedCalls := false
      uncertainties := []
      parameterRoles := parameterRoles }

end Roles

/-! ## 4. Temp states across an edge -/

/-- The record operation `opId`.  Ids end in their ordinal, so the search starts there and walks
down; a miss scans from the start. -/
def recordOpById (routine : ModelRoutine) (opId : String) : Option ModelRecordOperation :=
  let ops := routine.recordOperations
  let hi :=
    match (Text.rsplitOnce "/op" opId).bind fun p => Text.parseU64 p.2 with
    | some n => min ops.length (min (n + 1) (2 ^ 64 - 1))
    | none => 0
  ((ops.take hi).reverse.find? fun op => op.id = opId).or (ops.find? fun op => op.id = opId)

/-- The temp state of the record an operation works on. -/
def opTempState (routine : ModelRoutine) (opId : String) : TempState :=
  match (recordOpById routine opId).bind ModelRecordOperation.tempState with
  | some ts => .fromP ts
  | none => .unknown

/-- What an `implicit-trigger` edge hands to the trigger's parameter: its `Rec` is the record of
the operation that fires it. -/
def triggerReceiverTempState (routine : ModelRoutine) (opId : String) (calleeParamIndex : ℕ) :
    TempState :=
  if calleeParamIndex ≠ receiverParamIndex then .unknown else opTempState routine opId

/-- What a `table-event` edge hands to the subscriber's parameter: each record parameter is the
record of the operation. -/
def tableEventParamTempState (routine : ModelRoutine) (opId : String)
    (subscriber : Option ModelRoutine) (calleeParamIndex : ℕ) : TempState :=
  let isRecord :=
    match subscriber with
    | some s => s.parameters.any fun p => decide (p.index = calleeParamIndex) && p.isRecord
    | none => false
  if !isRecord then .unknown else opTempState routine opId

/-- The publisher parameter an event subscriber's parameter binds to, by name. -/
def eventPublisherParam (publisher subscriber : ModelRoutine) (subParam : ℕ) :
    Option ModelParameter :=
  (subscriber.parameters.find? fun p => p.index = subParam).bind fun sub =>
    publisher.parameters.find? fun p => eventParamNamesMatch p.name sub.name

/-- The temp state an event subscriber's parameter has in its publisher's frame. -/
def eventParamTempState (publisher subscriber : ModelRoutine) (subParam : ℕ) : TempState :=
  match eventPublisherParam publisher subscriber subParam with
  | none => .unknown
  | some pp =>
    match publisher.recordVariables.find? fun rv =>
      rv.isParameter && decide (rv.parameterIndex = some pp.index) with
    | some rv => .fromP rv.tempState
    | none => .unknown

/-- What the caller hands to a callee parameter at a call site. -/
def pdTempStateAtCallsite (routine : ModelRoutine) (csId : String) (calleeParamIndex : ℕ) :
    TempState :=
  match routine.callSites.find? fun cs => cs.id = csId with
  | none => .unknown
  | some cs =>
    match cs.sourceTempStateFor calleeParamIndex with
    | some ts => .fromP ts
    | none => .unknown

/-- A callee's `parameterDependent` temp state, read in the caller's frame across one edge. -/
def substitutePdTempState (edge : CombinedEdge) (calleeParamIndex : ℕ) (routine : ModelRoutine)
    (callee : Option ModelRoutine) : TempState :=
  if edge.kind = "event-dispatch" then
    match callee with
    | some subscriber => eventParamTempState routine subscriber calleeParamIndex
    | none => .unknown
  else if edge.kind = "table-event" then
    match edge.operationId with
    | some op => tableEventParamTempState routine op callee calleeParamIndex
    | none => .unknown
  else
    match edge.callsiteId with
    | none => .unknown
    | some csId =>
      if !(["direct", "method", "implicit-trigger"].contains edge.kind) then .unknown
      else if edge.kind = "implicit-trigger" then
        triggerReceiverTempState routine csId calleeParamIndex
      else pdTempStateAtCallsite routine csId calleeParamIndex

/-! ## 5. A frame has finitely many parameter indices

Whatever index an edge hands up, it stands in the caller's own row. -/

/-- The parameter index of a temp state that depends on one. -/
def pdIndex : TempState → Option ℕ
  | .parameterDependent i => some i
  | _ => none

/-- Every temp state that stands in a routine's row. -/
def rowTempStates (routine : ModelRoutine) : List PTempState :=
  routine.recordOperations.filterMap ModelRecordOperation.tempState ++
    routine.recordVariables.map ModelRecordVariable.tempState ++
    routine.callSites.flatMap fun cs =>
      cs.receiverTempState.toList ++ cs.argumentBindings.filterMap (·.sourceTempState)

/-- The parameter indices that stand in a routine's row. -/
def rowPdIndices (routine : ModelRoutine) : List ℕ :=
  (rowTempStates routine).filterMap fun ts => pdIndex (.fromP ts)

theorem mem_rowPdIndices {routine : ModelRoutine} {ts : PTempState} {i : ℕ}
    (hts : ts ∈ rowTempStates routine) (h : TempState.fromP ts = .parameterDependent i) :
    i ∈ rowPdIndices routine :=
  List.mem_filterMap.mpr ⟨ts, hts, by rw [h]; rfl⟩

theorem recordOpById_mem {routine : ModelRoutine} {opId : String} {op : ModelRecordOperation}
    (h : recordOpById routine opId = some op) : op ∈ routine.recordOperations := by
  unfold recordOpById at h
  rcases Option.or_eq_some_iff.mp h with h | ⟨-, h⟩
  · exact List.mem_of_mem_take (List.mem_reverse.mp (List.mem_of_find?_eq_some h))
  · exact List.mem_of_find?_eq_some h

theorem opTempState_mem {routine : ModelRoutine} {opId : String} {i : ℕ}
    (h : opTempState routine opId = .parameterDependent i) : i ∈ rowPdIndices routine := by
  unfold opTempState at h
  split at h
  · rename_i ts hts
    obtain ⟨op, hop, hopts⟩ := Option.bind_eq_some_iff.mp hts
    refine mem_rowPdIndices ?_ h
    refine List.mem_append_left _ (List.mem_append_left _ ?_)
    exact List.mem_filterMap.mpr ⟨op, recordOpById_mem hop, hopts⟩
  · simp at h

theorem eventParamTempState_mem {publisher subscriber : ModelRoutine} {j i : ℕ}
    (h : eventParamTempState publisher subscriber j = .parameterDependent i) :
    i ∈ rowPdIndices publisher := by
  unfold eventParamTempState at h
  split at h
  · simp at h
  · split at h
    · rename_i rv hrv
      refine mem_rowPdIndices ?_ h
      refine List.mem_append_left _ (List.mem_append_right _ ?_)
      exact List.mem_map_of_mem (List.mem_of_find?_eq_some hrv)
    · simp at h

theorem sourceTempStateFor_mem {cs : PCallSite} {j : ℕ} {ts : PTempState}
    (h : cs.sourceTempStateFor j = some ts) :
    ts ∈ cs.receiverTempState.toList ++ cs.argumentBindings.filterMap (·.sourceTempState) := by
  unfold PCallSite.sourceTempStateFor at h
  split at h
  · exact List.mem_append_left _ (by simp [h])
  · split at h
    · rename_i b hb
      exact List.mem_append_right _
        (List.mem_filterMap.mpr ⟨b, List.mem_of_find?_eq_some hb, h⟩)
    · simp at h

theorem pdTempStateAtCallsite_mem {routine : ModelRoutine} {csId : String} {j i : ℕ}
    (h : pdTempStateAtCallsite routine csId j = .parameterDependent i) :
    i ∈ rowPdIndices routine := by
  unfold pdTempStateAtCallsite at h
  split at h
  · simp at h
  · rename_i cs hcs
    split at h
    · rename_i ts hts
      refine mem_rowPdIndices (List.mem_append_right _ ?_) h
      exact List.mem_flatMap.mpr ⟨cs, List.mem_of_find?_eq_some hcs, sourceTempStateFor_mem hts⟩
    · simp at h

theorem triggerReceiverTempState_mem {routine : ModelRoutine} {opId : String} {j i : ℕ}
    (h : triggerReceiverTempState routine opId j = .parameterDependent i) :
    i ∈ rowPdIndices routine := by
  unfold triggerReceiverTempState at h
  split at h
  · simp at h
  · exact opTempState_mem h

theorem tableEventParamTempState_mem {routine : ModelRoutine} {opId : String}
    {subscriber : Option ModelRoutine} {j i : ℕ}
    (h : tableEventParamTempState routine opId subscriber j = .parameterDependent i) :
    i ∈ rowPdIndices routine := by
  unfold tableEventParamTempState at h
  generalize hr : (match subscriber with
    | some s => s.parameters.any fun p => decide (p.index = j) && p.isRecord
    | none => false) = isRecord at h
  cases isRecord with
  | false => simp at h
  | true => exact opTempState_mem h

/-- **An edge hands up only indices of the caller's row.** -/
theorem substitutePdTempState_mem {edge : CombinedEdge} {j i : ℕ} {routine : ModelRoutine}
    {callee : Option ModelRoutine}
    (h : substitutePdTempState edge j routine callee = .parameterDependent i) :
    i ∈ rowPdIndices routine := by
  unfold substitutePdTempState at h
  split at h
  · split at h
    · exact eventParamTempState_mem h
    · simp at h
  · split at h
    · split at h
      · exact tableEventParamTempState_mem h
      · simp at h
    · split at h
      · simp at h
      · split at h
        · simp at h
        · split at h
          · exact triggerReceiverTempState_mem h
          · exact pdTempStateAtCallsite_mem h

end AlSem.L4
