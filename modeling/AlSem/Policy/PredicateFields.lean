/-
# Predicate fields

The field registry of `gate/policy/predicate_fields.rs`: the fields a policy predicate may name,
each with the scope that says what it is read from, and `evaluateField`, which reads one from an
evaluation context.  A fact is direct or inherited and is read through the accessors of
`l4/inherited_facts.rs`.
-/
import AlSem.L4.TypedEdges
import AlSem.Model.Workspace

namespace AlSem.Policy

open AlSem.L4 AlSem.Model

/-! ## 1. The rows a field reads -/

/-- What an inherited fact takes from the first hop it came through. -/
structure FirstHop where
  subject : String
  via : String
  callsite : Option String := none
  deriving DecidableEq, Repr

/-- A direct fact, or an inherited one: the callee's fact and the first hop. -/
inductive FactRef where
  | direct (fact : CapabilityFact)
  | inherited (rep : CapabilityFact) (hop : FirstHop)
  deriving DecidableEq, Repr

namespace FactRef

/-- The fact itself, or the callee's fact an inherited one stands for. -/
def rep : FactRef → CapabilityFact
  | .direct f => f
  | .inherited rep _ => rep

def op (f : FactRef) : String := f.rep.op

def resourceKind (f : FactRef) : String := f.rep.resourceKind

def resourceId (f : FactRef) : Option String := f.rep.resourceId

def confidence (f : FactRef) : String := f.rep.confidence

def provenance : FactRef → String
  | .direct f => f.provenance
  | .inherited _ _ => "inherited"

def via : FactRef → String
  | .direct f => f.via
  | .inherited _ hop => hop.via

def witnessOperationId (f : FactRef) : Option String := f.rep.witnessOperationId

def witnessCallsiteId : FactRef → Option String
  | .direct f => f.witnessCallsiteId
  | .inherited _ hop => hop.callsite

def extra (f : FactRef) : Option CapabilityExtra := f.rep.extra

end FactRef

/-- An anchor with the file it is in. -/
structure UnitAnchor extends PAnchor where
  sourceUnitId : String := ""
  deriving DecidableEq, Repr

/-- Is the position within the anchor, both ends included? -/
def UnitAnchor.contains (a : UnitAnchor) (line column : ℕ) : Bool :=
  (a.startLine < line || (a.startLine == line && a.startColumn ≤ column)) &&
    (line < a.endLine || (line == a.endLine && column ≤ a.endColumn))

/-- An object row. -/
structure ModelObject where
  id : String
  appGuid : String
  objectType : String
  name : String
  sourceAnchor : Option UnitAnchor := none
  deriving DecidableEq, Repr

/-- A routine row with what the routine fields read. -/
structure RoutineRow extends ModelRoutine where
  objectId : String
  accessModifier : Option String := none
  sourceAnchor : UnitAnchor := {}
  deriving DecidableEq, Repr

/-- Is `a` the strictly more inner of two anchors: the later start, then the earlier end? -/
def innerThan (a b : UnitAnchor) : Bool :=
  if b.startLine = a.startLine ∧ b.startColumn = a.startColumn then
    a.endLine < b.endLine || (a.endLine == b.endLine && a.endColumn < b.endColumn)
  else
    b.startLine < a.startLine || (b.startLine == a.startLine && b.startColumn < a.startColumn)

/-- The first of the innermost rows. -/
def innermost : List (ModelObject × UnitAnchor) → Option (ModelObject × UnitAnchor)
  | [] => none
  | x :: xs => some (xs.foldl (fun best y => if innerThan y.2 best.2 then y else best) x)

/-- The declaring row among one id's rows, in model order. -/
def pick (rows : List ModelObject) (r : RoutineRow) : Option ModelObject :=
  match rows with
  | [] => none
  | [first] => some first
  | _ =>
    let ra := r.sourceAnchor
    let anchored := rows.filterMap fun o => o.sourceAnchor.map fun a => (o, a)
    let inside := anchored.filter fun p =>
      p.2.sourceUnitId == ra.sourceUnitId && p.2.contains ra.startLine ra.startColumn
    ((innermost inside).map Prod.fst).or rows.getLast?

/-- `DeclaringObjects::of`: the object row that declares the routine. -/
def declaringOf (objects : List ModelObject) (r : RoutineRow) : Option ModelObject :=
  pick (objects.filter fun o => o.id == r.objectId) r

/-! ## 2. The evaluation context -/

/-- A pin's write fact: the names of the written table and field. -/
structure WriteFact where
  table : String
  field : String
  deriving DecidableEq, Repr

/-- One rule key a writer applies. -/
structure RuleFact where
  kind : String
  atoms : String
  deriving DecidableEq, Repr

/-- The lookups of one run, and the two library functions the evaluation calls: Unicode lower
casing, and whether a regular expression matches a text, `none` for an expression past the library's
size limit. -/
structure FieldIndexes where
  objects : List ModelObject
  rootKindsByRoutineId : String → Option (List String)
  /-- A table's name by its id. -/
  tablesById : String → Option String
  /-- An event's name by its id. -/
  eventsById : String → Option String
  toLowercase : String → String
  regexMatch : String → String → Option Bool

/-- What a predicate is evaluated over. -/
structure FieldEvalContext where
  routine : RoutineRow
  fact : Option FactRef := none
  write : Option WriteFact := none
  rule : Option RuleFact := none
  indexes : FieldIndexes

/-- The context with a fact, a write and a rule put in. -/
def FieldEvalContext.put (ctx : FieldEvalContext) (fact : Option FactRef)
    (write : Option WriteFact) (rule : Option RuleFact) : FieldEvalContext :=
  { ctx with fact := fact, write := write, rule := rule }

/-! ## 3. The registry -/

inductive FieldScope where
  | routine | fact | model | write | rule
  deriving DecidableEq, Repr

/-- Is the field read from what the context may lack: a fact, a write or a rule? -/
def FieldScope.needsFact : FieldScope → Bool
  | .fact => true
  | .write => true
  | .rule => true
  | .routine => false
  | .model => false

/-- A field definition: its name in a policy file and its scope. -/
structure PredicateFieldDef where
  name : String
  scope : FieldScope
  deriving DecidableEq, Repr

/-- The registry, in declaration order. -/
def PREDICATE_FIELDS : List PredicateFieldDef :=
  [⟨"root.kinds", .routine⟩, ⟨"routine.name", .routine⟩, ⟨"routine.kind", .routine⟩,
    ⟨"routine.accessModifier", .routine⟩, ⟨"object.name", .routine⟩, ⟨"object.kind", .routine⟩,
    ⟨"object.appGuid", .routine⟩, ⟨"capability.op", .fact⟩, ⟨"capability.resourceKind", .fact⟩,
    ⟨"capability.resource.table.name", .fact⟩, ⟨"capability.resource.event.name", .fact⟩,
    ⟨"capability.resource.http.method", .fact⟩, ⟨"capability.resource.ui.kind", .fact⟩,
    ⟨"capability.confidence", .fact⟩, ⟨"capability.origin", .fact⟩, ⟨"capability.via", .fact⟩,
    ⟨"write.table", .write⟩, ⟨"write.field", .write⟩, ⟨"rule.kind", .rule⟩,
    ⟨"rule.atoms", .rule⟩]

/-- Look up a field definition by name. -/
def getFieldDef (name : String) : Option PredicateFieldDef :=
  PREDICATE_FIELDS.find? fun f => f.name == name

/-! ## 4. Evaluating a field -/

/-- Why a field has no value. -/
inductive UnknownReason where
  | fieldNotApplicable | resourceIdUnresolved | noRootClassification | evaluatorError
  deriving DecidableEq, Repr

/-- What a field evaluates to.  An empty list is known. -/
inductive FieldValue where
  | knownStr (s : String)
  | knownList (xs : List String)
  | unknown (reason : UnknownReason)
  deriving DecidableEq, Repr

/-- The string, or the reason it is not known. -/
def FieldValue.ofOption (reason : UnknownReason) : Option String → FieldValue
  | some s => .knownStr s
  | none => .unknown reason

/-- The object that declares the context's routine. -/
def objectOf (ctx : FieldEvalContext) : Option ModelObject :=
  declaringOf ctx.indexes.objects ctx.routine

/-- A field of the fact: unknown without one. -/
def ofFact (ctx : FieldEvalContext) (read : FactRef → FieldValue) : FieldValue :=
  match ctx.fact with
  | some f => read f
  | none => .unknown .evaluatorError

/-- The name of the resource a fact of the given kind is on, looked up by its id. -/
def resourceName (ctx : FieldEvalContext) (kind : String) (byId : String → Option String) :
    FieldValue :=
  ofFact ctx fun f =>
    if f.resourceKind != kind then .unknown .fieldNotApplicable
    else
      match f.resourceId with
      | none => .unknown .resourceIdUnresolved
      | some id => .ofOption .resourceIdUnresolved (byId id)

/-- The HTTP method of an `http` fact. -/
def httpMethod (f : FactRef) : FieldValue :=
  if f.resourceKind != "http" then .unknown .fieldNotApplicable
  else
    match f.extra with
    | some (.http method _) => .knownStr method
    | _ => .unknown .fieldNotApplicable

/-- The dialog kind of a `ui` fact. -/
def uiKind (f : FactRef) : FieldValue :=
  if f.resourceKind != "ui" then .unknown .fieldNotApplicable
  else if f.op = "ui-confirm" then .knownStr "confirm"
  else if f.op = "ui-message" then .knownStr "message"
  else if f.op = "ui-error" then .knownStr "error"
  else .unknown .fieldNotApplicable

/-- Evaluate a field over the context, by its name. -/
def evaluateField (field : PredicateFieldDef) (ctx : FieldEvalContext) : FieldValue :=
  match field.name with
  | "root.kinds" =>
    .knownList ((ctx.indexes.rootKindsByRoutineId ctx.routine.id).getD [])
  | "routine.name" => .knownStr ctx.routine.name
  | "routine.kind" => .knownStr ctx.routine.kind
  | "routine.accessModifier" => .knownStr (ctx.routine.accessModifier.getD "public")
  | "object.name" => .ofOption .fieldNotApplicable ((objectOf ctx).map (·.name))
  | "object.kind" =>
    .ofOption .fieldNotApplicable
      ((objectOf ctx).map fun o => ctx.indexes.toLowercase o.objectType)
  | "object.appGuid" => .ofOption .fieldNotApplicable ((objectOf ctx).map (·.appGuid))
  | "capability.op" => ofFact ctx fun f => .knownStr f.op
  | "capability.resourceKind" => ofFact ctx fun f => .knownStr f.resourceKind
  | "capability.resource.table.name" => resourceName ctx "table" ctx.indexes.tablesById
  | "capability.resource.event.name" => resourceName ctx "event" ctx.indexes.eventsById
  | "capability.resource.http.method" => ofFact ctx httpMethod
  | "capability.resource.ui.kind" => ofFact ctx uiKind
  | "capability.confidence" => ofFact ctx fun f => .knownStr f.confidence
  | "capability.origin" => ofFact ctx fun f => .knownStr f.provenance
  | "capability.via" => ofFact ctx fun f => .knownStr f.via
  | "write.table" => .ofOption .evaluatorError (ctx.write.map (·.table))
  | "write.field" => .ofOption .evaluatorError (ctx.write.map (·.field))
  | "rule.kind" => .ofOption .evaluatorError (ctx.rule.map (·.kind))
  | "rule.atoms" => .ofOption .evaluatorError (ctx.rule.map (·.atoms))
  | _ => .unknown .evaluatorError

theorem getFieldDef_mem {name : String} {field : PredicateFieldDef}
    (h : getFieldDef name = some field) : field ∈ PREDICATE_FIELDS :=
  List.mem_of_find?_eq_some h

/-- **A field that needs no fact is read from the routine and the model alone**: whatever fact,
write and rule the context holds, it evaluates the same. -/
theorem evaluateField_put {field : PredicateFieldDef} (hmem : field ∈ PREDICATE_FIELDS)
    (hscope : field.scope.needsFact = false) (ctx : FieldEvalContext) (fact : Option FactRef)
    (write : Option WriteFact) (rule : Option RuleFact) :
    evaluateField field (ctx.put fact write rule) = evaluateField field ctx := by
  -- one case a row of the registry; the rows of the other scopes contradict `hscope`
  simp only [PREDICATE_FIELDS, List.mem_cons, List.not_mem_nil, or_false] at hmem
  rcases hmem with rfl | rfl | rfl | rfl | rfl | rfl | rfl | rfl | rfl | rfl | rfl | rfl | rfl |
    rfl | rfl | rfl | rfl | rfl | rfl | rfl
  all_goals first
    | exact absurd hscope (by decide)
    | rfl

end AlSem.Policy
