/-
# The control-flow walker

`cfg_walker.rs`: the path-aware facts of one record parameter.  The walk threads a state along the
statement tree, joins it where paths meet, and runs a loop body at most `loopBound` times before it
gives the state up.  What the source collects in shared vectors (the states at an `exit`, and at
the `break`s and `continue`s of the innermost loop) a walk returns here in the same order.

`toLowercase` stands for the standard library's Unicode lower-casing.
-/
import AlSem.L4.BaseSummary
import AlSem.Model.Cfn

namespace AlSem.L4

open AlSem.Model

/-! ## 1. States -/

/-- Whether the record is loaded. -/
inductive Loaded where
  | yes
  | no
  | unknown
  deriving DecidableEq, Repr

/-- Whether the record has changes that are not written. -/
inductive Dirty where
  | pristine
  | dirtyV
  | persisted
  | unknown
  deriving DecidableEq, Repr

/-- The fields that are loaded. -/
inductive LoadedFields where
  | list (fields : List String)
  | full
  | unknown
  deriving DecidableEq, Repr

/-- The fields the next load is narrowed to. -/
inductive PendingNarrow where
  | list (fields : List String)
  | none
  | unknown
  deriving DecidableEq, Repr

/-- The fields that must be loaded at entry. -/
inductive RequiredFields where
  | set (fields : List String)
  | unknown
  deriving DecidableEq, Repr

/-- The state threaded along control flow. -/
structure PerParamState where
  loaded : Loaded := .no
  dirty : Dirty := .pristine
  pendingNarrow : PendingNarrow := .none
  currentLoadedFields : LoadedFields := .full
  requiresLoadedAtEntry : EffectPresence := .no
  mutatesBeforeLoad : EffectPresence := .no
  requiredFields : RequiredFields := .set []
  deriving DecidableEq, Repr

/-- The state at entry. -/
def PerParamState.initial : PerParamState := {}

def joinLoaded (a b : Loaded) : Loaded := if a = b then a else .unknown

def joinDirty (a b : Dirty) : Dirty :=
  if a = b then a else if a = .dirtyV ∨ b = .dirtyV then .dirtyV else .unknown

def joinPending : PendingNarrow → PendingNarrow → PendingNarrow
  | .unknown, _ => .unknown
  | _, .unknown => .unknown
  | .none, .none => .none
  | .none, _ => .unknown
  | _, .none => .unknown
  | .list la, .list lb => if la = lb then .list la else .unknown

def joinLoadedFields : LoadedFields → LoadedFields → LoadedFields
  | .unknown, _ => .unknown
  | _, .unknown => .unknown
  | .full, .full => .full
  | .full, _ => .unknown
  | _, .full => .unknown
  | .list la, .list lb => if la = lb then .list la else .unknown

/-- Push what is not there yet. -/
def pushNew (l : List String) (f : String) : List String := if l.contains f then l else l ++ [f]

def joinRequiredFields : RequiredFields → RequiredFields → RequiredFields
  | .unknown, _ => .unknown
  | _, .unknown => .unknown
  | .set sa, .set sb => .set (sb.foldl pushNew sa).mergeSort

/-- The join where two paths meet. -/
def joinStates (a b : PerParamState) : PerParamState where
  loaded := joinLoaded a.loaded b.loaded
  dirty := joinDirty a.dirty b.dirty
  pendingNarrow := joinPending a.pendingNarrow b.pendingNarrow
  currentLoadedFields := joinLoadedFields a.currentLoadedFields b.currentLoadedFields
  requiresLoadedAtEntry := joinPresence a.requiresLoadedAtEntry b.requiresLoadedAtEntry
  mutatesBeforeLoad := joinPresence a.mutatesBeforeLoad b.mutatesBeforeLoad
  requiredFields := joinRequiredFields a.requiredFields b.requiredFields

/-- Give up what is decidable; what was found about the entry stays. -/
def saturateUnknown (s : PerParamState) : PerParamState where
  loaded := .unknown
  dirty := .unknown
  pendingNarrow := .unknown
  currentLoadedFields := .unknown
  requiresLoadedAtEntry := s.requiresLoadedAtEntry
  mutatesBeforeLoad := s.mutatesBeforeLoad
  requiredFields := .unknown

/-! ## 2. What the walk reads -/

/-- The state of an argument binding after the call is resolved. -/
inductive BindingResolution where
  | nonRecordArg
  | unresolvedCallee
  | resolved
  | ambiguous
  deriving DecidableEq, Repr

/-- An argument binding after the call is resolved. -/
structure UpgradedBinding where
  parameterIndex : ℕ
  calleeParameterIsVar : Bool
  bindingResolution : BindingResolution
  deriving DecidableEq, Repr

/-- One routine, one of its record parameters, and the callees' summaries. -/
structure WalkCtx where
  toLowercase : String → String
  routine : RoutineBody
  nameLc : String
  recVarId : Option String
  snapshot : HashMap String RoutineSummary
  finalMap : HashMap String RoutineSummary
  upgradedBindings : HashMap String (List UpgradedBinding)
  graph : PrimaryGraph
  bodyAvailById : HashMap String Bool

namespace WalkCtx

variable (ctx : WalkCtx)

/-- `op_by_id`: the last operation with the id. -/
def opById (id : String) : Option ModelRecordOperation :=
  ctx.routine.recordOperations.reverse.find? fun op => op.id = id

/-- `call_by_id`: the last call site with the id. -/
def callById (id : String) : Option PCallSite :=
  ctx.routine.callSites.reverse.find? fun cs => cs.id = id

def opAffectsParam (op : ModelRecordOperation) : Bool :=
  (ctx.recVarId.isSome && decide (ctx.recVarId = op.recordVariableId)) ||
    decide (ctx.toLowercase op.recordVariableName = ctx.nameLc)

/-- The role of callee parameter `i`; nothing when the callee, its body or the role is not
seen. -/
def calleeRole (calleeId : Option String) (i : ℕ) : Option RecordRoleSummary :=
  calleeId.bind fun id =>
    if (ctx.bodyAvailById.lookup id).getD false then
      ((ctx.snapshot.lookup id).or (ctx.finalMap.lookup id)).bind fun s =>
        s.parameterRoles.find? fun r => r.parameterIndex = i
    else none

/-- `site_pick`: the callee of a call site. -/
def siteCallee (csId : String) : Option String :=
  match ctx.graph.collidedSiteCallee.lookup csId with
  | some pick => pick
  | none => (ctx.graph.edgesByFrom.lookup ctx.routine.id).bind fun es =>
      (es.find? fun e => e.callsiteId = some csId).map fun e => e.to

end WalkCtx

/-- Where a call hands the parameter on. -/
structure CallTarget where
  callee : Option String
  parameterIndex : ℕ
  callerIsVar : Bool
  calleeIsVar : Bool
  deriving DecidableEq, Repr

/-- The first resolved binding of the call that forwards the parameter. -/
def callTarget (ctx : WalkCtx) (cs : PCallSite) : Option CallTarget :=
  let upgraded := ctx.upgradedBindings.lookup cs.id
  let forwards (b : PCallArgumentBinding × ℕ) : Bool :=
    let resolution : BindingResolution :=
      ((upgraded.bind fun ub => ub[b.2]?).map fun ub => ub.bindingResolution).getD .unresolvedCallee
    let byId := ctx.recVarId.isSome && decide (ctx.recVarId = b.1.sourceRecordVariableId)
    let byName := (b.1.sourceVariableName.map fun n =>
      decide (ctx.toLowercase n = ctx.nameLc)).getD false
    decide (resolution = .resolved) && (byId || byName)
  (cs.argumentBindings.zipIdx.find? forwards).map fun b =>
    { callee := ctx.siteCallee cs.id
      parameterIndex := b.1.parameterIndex
      callerIsVar := decide (b.1.callerSourceParameterIsVar = some true)
      calleeIsVar := ((upgraded.bind fun ub => ub[b.2]?).map fun ub =>
        ub.calleeParameterIsVar).getD false }

/-! ## 3. Operations, calls and field reads -/

/-- The elements of a list, each once, sorted. -/
def dedupSorted (l : List String) : List String := (l.foldl pushNew []).mergeSort

/-- A persisting or validating operation: when the record is not loaded, it must be at entry. -/
def requireLoaded (s : PerParamState) : PerParamState :=
  if s.loaded ≠ .yes then { s with requiresLoadedAtEntry := .yes, mutatesBeforeLoad := .yes }
  else s

def applyOp (ctx : WalkCtx) (s : PerParamState) (op : ModelRecordOperation) : PerParamState :=
  if !ctx.opAffectsParam op then s
  else
    match recordFlowRole op.op with
    | "loadsFromDb" =>
      { s with
        loaded := .yes
        currentLoadedFields :=
          match s.pendingNarrow with
          | .unknown => .unknown
          | .none => .full
          | .list l => .list l.mergeSort
        pendingNarrow := .none
        dirty := .pristine }
    | "initialises" =>
      { s with
        loaded := .yes, currentLoadedFields := .full, pendingNarrow := .none, dirty := .pristine }
    | "copiesInto" => { s with loaded := .yes, dirty := .pristine }
    | "persistsCurrent" => { requireLoaded s with dirty := .persisted }
    | "validates" =>
      let s := requireLoaded s
      if s.dirty = .pristine ∨ s.dirty = .unknown then { s with dirty := .dirtyV } else s
    | "resetsFilter" => { s with pendingNarrow := .none }
    | "neutral" =>
      if op.op = "SetLoadFields" then
        { s with pendingNarrow := .list (dedupSorted (op.fieldArguments.getD [])) }
      else if op.op = "AddLoadFields" then
        let additions := op.fieldArguments.getD []
        match s.pendingNarrow with
        | .unknown => s
        | .none => { s with pendingNarrow := .list (dedupSorted additions) }
        | .list existing =>
          { s with pendingNarrow := .list (additions.foldl pushNew existing).mergeSort }
      else s
    | _ => s

/-- The transfer of a callee with no visible role. -/
def opaqueTransfer (s : PerParamState) (callerIsVar calleeIsVar dispatch : Bool) :
    PerParamState :=
  let s :=
    if s.loaded ≠ .yes then
      { s with
        requiresLoadedAtEntry := joinPresence s.requiresLoadedAtEntry .unknown
        mutatesBeforeLoad := joinPresence s.mutatesBeforeLoad .unknown
        requiredFields := if dispatch then .unknown else s.requiredFields }
    else s
  if callerIsVar ∧ calleeIsVar then
    { s with
      loaded := .unknown, dirty := .unknown, pendingNarrow := .unknown
      currentLoadedFields := .unknown }
  else s

/-- The callee leaves the record loaded, initialised or copied into. -/
def RecordRoleSummary.putsInLoadedState (cr : RecordRoleSummary) : Bool :=
  decide (cr.loadsFromDbParam = .yes) || decide (cr.initialisesParam = .yes) ||
    decide (cr.copiesIntoParam = .yes)

/-- The callee's entry requirements, when the record is not loaded yet. -/
def entryTransfer (s : PerParamState) (cr : RecordRoleSummary) : PerParamState :=
  if s.loaded ≠ .yes then
    { s with
      requiresLoadedAtEntry := joinPresence s.requiresLoadedAtEntry cr.requiresLoadedAtEntry
      mutatesBeforeLoad := joinPresence s.mutatesBeforeLoad cr.mutatesBeforeLoad
      requiredFields :=
        match s.requiredFields, cr.requiredLoadedFieldsAtEntry with
        | .set _, .unknown => .unknown
        | .set set, .known fields => .set (fields.foldl pushNew set).mergeSort
        | required, _ => required }
  else s

def fieldListToLoaded : FieldList → LoadedFields
  | .unknown => .unknown
  | .full => .full
  | .known v => .list v

/-- The loaded state a `var` callee leaves. -/
def loadTransfer (s : PerParamState) (cr : RecordRoleSummary) (calleeIsVar : Bool) :
    PerParamState :=
  if !calleeIsVar then s
  else if cr.putsInLoadedState then
    { s with
      loaded := .yes
      currentLoadedFields := fieldListToLoaded cr.currentLoadedFieldsAtExit
      pendingNarrow := .none }
  else if cr.loadsFromDbParam = .unknown ∨ cr.initialisesParam = .unknown ∨
      cr.copiesIntoParam = .unknown then
    { s with loaded := .unknown, currentLoadedFields := .unknown, pendingNarrow := .unknown }
  else s

/-- The dirty state the callee leaves, its rules in order. -/
def exitDirty (d : Dirty) (cr : RecordRoleSummary) : Dirty :=
  let d := if cr.persistsCurrentRecord = .yes ∧ d = .pristine then .persisted else d
  let d :=
    if (cr.validatesParam = .yes ∨ cr.copiesIntoParam = .yes) ∧ (d = .pristine ∨ d = .unknown) then
      .dirtyV
    else d
  let d :=
    if (cr.persistsCurrentRecord = .unknown ∨ cr.validatesParam = .unknown ∨
        cr.copiesIntoParam = .unknown) ∧ (d = .pristine ∨ d = .persisted) then .unknown
    else d
  if cr.dirtyAtExit = .yes then .dirtyV else d

/-- The exit effects, when both sides are `var`. -/
def exitTransfer (s : PerParamState) (cr : RecordRoleSummary) (callerIsVar calleeIsVar : Bool) :
    PerParamState :=
  if callerIsVar ∧ calleeIsVar then
    { s with
      dirty := exitDirty s.dirty cr
      pendingNarrow := if cr.resetsFiltersOnParam = .yes then .none else s.pendingNarrow }
  else s

/-- The transfer of one call that passes the parameter on. -/
def applyCalleeRole (ctx : WalkCtx) (s : PerParamState) (t : CallTarget) (dispatch : Bool) :
    PerParamState :=
  match ctx.calleeRole t.callee t.parameterIndex with
  | none => opaqueTransfer s t.callerIsVar t.calleeIsVar dispatch
  | some cr =>
    exitTransfer (loadTransfer (entryTransfer s cr) cr t.calleeIsVar) cr t.callerIsVar
      t.calleeIsVar

def applyCall (ctx : WalkCtx) (s : PerParamState) (cs : PCallSite) : PerParamState :=
  match callTarget ctx cs with
  | none => s
  | some t => applyCalleeRole ctx s t false

def applyFieldRead (ctx : WalkCtx) (s : PerParamState) (fa : PFieldAccess) : PerParamState :=
  if ctx.toLowercase fa.recordVariableName ≠ ctx.nameLc then s
  else if s.loaded = .yes then s
  else
    { s with
      requiresLoadedAtEntry := .yes
      requiredFields :=
        match s.requiredFields with
        | .set set => .set (pushNew set fa.fieldName)
        | .unknown => .unknown }

/-! ## 4. Positions -/

/-- Lexicographic order of positions. -/
def posLe (a b : ℕ × ℕ) : Bool := decide (a.1 < b.1 ∨ a.1 = b.1 ∧ a.2 ≤ b.2)

def PAnchor.start (a : PAnchor) : ℕ × ℕ := (a.startLine, a.startColumn)

def PAnchor.finish (a : PAnchor) : ℕ × ℕ := (a.endLine, a.endColumn)

/-- The anchors a node refers to: its operation's and its call site's. -/
def nodeAnchors (ctx : WalkCtx) (n : PCFNNode) : List PAnchor :=
  ((n.operationId.bind ctx.opById).map fun op => op.sourceAnchor).toList ++
    ((n.callsiteId.bind ctx.callById).map fun cs => cs.sourceAnchor).toList

/-- The anchors a subtree refers to. -/
def leafAnchors (ctx : WalkCtx) (n : PCFNNode) : List PAnchor :=
  n.subtree.flatMap (nodeAnchors ctx)

/-- The first of the least positions. -/
def minPos (l : List (ℕ × ℕ)) : Option (ℕ × ℕ) :=
  l.foldl (fun best p => match best with
    | some cur => if posLe cur p then some cur else some p
    | none => some p) none

/-- The first of the greatest positions. -/
def maxPos (l : List (ℕ × ℕ)) : Option (ℕ × ℕ) :=
  l.foldl (fun best p => match best with
    | some cur => if posLe p cur then some cur else some p
    | none => some p) none

/-- A node's start: its own, or the least start of what its subtree refers to, or `u32::MAX`
twice. -/
def nodeStartPos (ctx : WalkCtx) (n : PCFNNode) : ℕ × ℕ :=
  match n.sourceRange with
  | some a => PAnchor.start a
  | none => (minPos ((leafAnchors ctx n).map PAnchor.start)).getD (2 ^ 32 - 1, 2 ^ 32 - 1)

/-- A node's range: its own, or that of what its subtree refers to. -/
def nodeRange (ctx : WalkCtx) (n : PCFNNode) : Option PAnchor :=
  match n.sourceRange with
  | some a => some a
  | none =>
    match minPos ((leafAnchors ctx n).map PAnchor.start),
      maxPos ((leafAnchors ctx n).map PAnchor.finish) with
    | some lo, some hi => some ⟨lo.1, lo.2, hi.1, hi.2⟩
    | _, _ => none

def childRecursesIntoFas (c : PCFNNode) : Bool :=
  match c.kind with
  | .op | .call | .exit | .error => false
  | .other => !c.body.isEmpty
  | _ => true

def fallsInRange (line col : ℕ) (r : PAnchor) : Bool :=
  !(decide (line < r.startLine) || decide (line > r.endLine)) &&
    !(decide (line = r.startLine) && decide (col < r.startColumn)) &&
    !(decide (line = r.endLine) && decide (col > r.endColumn))

/-- All field accesses on the parameter, by position. -/
def paramFieldAccesses (ctx : WalkCtx) : List PFieldAccess :=
  (ctx.routine.fieldAccesses.mergeSort fun a b =>
    posLe (PAnchor.start a.sourceAnchor) (PAnchor.start b.sourceAnchor)).filter fun fa =>
      decide (ctx.toLowercase fa.recordVariableName = ctx.nameLc)

/-- The field accesses in a block's range and in no range of a child that has its own. -/
def collectFieldAccessesInBlock (ctx : WalkCtx) (block : PCFNNode) (children : List PCFNNode) :
    List PFieldAccess :=
  let recursiveRanges := (children.filter childRecursesIntoFas).filterMap (nodeRange ctx)
  (paramFieldAccesses ctx).filter fun fa =>
    let line := fa.sourceAnchor.startLine
    let col := fa.sourceAnchor.startColumn
    (match nodeRange ctx block with
      | some r => fallsInRange line col r
      | none => true) &&
      !recursiveRanges.any fun r => fallsInRange line col r

/-! ## 5. Walks -/

/-- Whether a walk can fall through to what follows. -/
inductive Reach where
  | normal
  | abrupt
  deriving DecidableEq, Repr

/-- What a walk gives: the state behind the node, whether it is reached, and the states at the
`exit`s, and at the `break`s and `continue`s of the enclosing loop. -/
structure WalkResult where
  state : PerParamState
  reach : Reach := .normal
  exits : List PerParamState := []
  breaks : List PerParamState := []
  continues : List PerParamState := []

abbrev Transfer := PerParamState → WalkResult

/-- Go on behind `r`. -/
def WalkResult.andThen (r : WalkResult) (f : Transfer) : WalkResult :=
  let q := f r.state
  { state := q.state
    reach := q.reach
    exits := r.exits ++ q.exits
    breaks := r.breaks ++ q.breaks
    continues := r.continues ++ q.continues }

/-- The leaves of a condition in order. -/
def applyConditionLeaves : List Transfer → Transfer
  | [], s => { state := s }
  | f :: fs, s => (f s).andThen (applyConditionLeaves fs)

/-- What happens in a block: a statement or a field read. -/
inductive BlockEvent where
  | child (f : Transfer)
  | field (fa : PFieldAccess)

/-- The events of a block in order, up to the first statement that is not passed. -/
def runEvents (ctx : WalkCtx) : List BlockEvent → Transfer
  | [], s => { state := s }
  | .field fa :: es, s => runEvents ctx es (applyFieldRead ctx s fa)
  | .child f :: es, s =>
    let r := f s
    match r.reach with
    | .abrupt => r
    | .normal => r.andThen (runEvents ctx es)

/-- A block's statements and field reads, sorted by position. -/
def blockEvents (ctx : WalkCtx) (block : PCFNNode) (children : List PCFNNode)
    (transfers : List Transfer) : List BlockEvent :=
  let childEvents := (children.zip transfers).map fun c =>
    (nodeStartPos ctx c.1, BlockEvent.child c.2)
  let fieldEvents := (collectFieldAccessesInBlock ctx block children).map fun fa =>
    (PAnchor.start fa.sourceAnchor, BlockEvent.field fa)
  ((childEvents ++ fieldEvents).mergeSort fun a b => posLe a.1 b.1).map Prod.snd

/-- Both branches, joined where both fall through. -/
def walkIf (thenBranch elseBranch : Transfer) : Transfer := fun s =>
  let t := thenBranch s
  let e := elseBranch s
  { state :=
      match t.reach, e.reach with
      | .normal, .abrupt => t.state
      | .abrupt, .normal => e.state
      | _, _ => joinStates t.state e.state
    reach :=
      match t.reach, e.reach with
      | .abrupt, .abrupt => .abrupt
      | _, _ => .normal
    exits := t.exits ++ e.exits
    breaks := t.breaks ++ e.breaks
    continues := t.continues ++ e.continues }

/-- Every branch of a case; without an `else` the state before it joins. -/
def walkCase (hasElse : Bool) (branches : List Transfer) : Transfer := fun s =>
  let rs := branches.map fun f => f s
  let posts := (rs.filter fun r => r.reach = .normal).map WalkResult.state
  let fall : PerParamState × Reach :=
    match posts with
    | [] => (s, if hasElse then .abrupt else .normal)
    | p :: ps =>
      let a := ps.foldl joinStates p
      (if hasElse then a else joinStates a s, .normal)
  { state := fall.1
    reach := fall.2
    exits := rs.flatMap WalkResult.exits
    breaks := rs.flatMap WalkResult.breaks
    continues := rs.flatMap WalkResult.continues }

/-- A loop body runs at most this often. -/
def loopBound : ℕ := 3

/-- The state a round's condition is checked in: behind the body, and at each `continue`. -/
def foldContinueStates (reach : Reach) (post pre : PerParamState)
    (continues : List PerParamState) : PerParamState :=
  let live := (if reach = .normal then [post] else []) ++ continues
  match live with
  | [] => pre
  | m :: ms => ms.foldl joinStates m

/-- What the rounds of a loop give: the state behind the last, and the states collected. -/
structure LoopResult where
  state : PerParamState
  exits : List PerParamState := []
  breaks : List PerParamState := []

/-- At most `n` more rounds from the head state `pre`, up to the first that changes nothing. -/
def walkRounds (body cond : Transfer) : ℕ → PerParamState → LoopResult
  | 0, pre => { state := saturateUnknown pre }
  | n + 1, pre =>
    let b := body pre
    let c := cond (foldContinueStates b.reach b.state pre b.continues)
    let joined := joinStates pre c.state
    if joined = pre then
      { state := joined, exits := b.exits ++ c.exits, breaks := b.breaks ++ c.breaks }
    else
      let rest := walkRounds body cond n joined
      { state := rest.state
        exits := b.exits ++ (c.exits ++ rest.exits)
        breaks := b.breaks ++ (c.breaks ++ rest.breaks) }

/-- A loop: its rounds, and every `break` joined behind them. -/
def walkLoop (body cond : Transfer) : Transfer := fun s =>
  let r := walkRounds body cond loopBound s
  { state := r.breaks.foldl joinStates r.state, exits := r.exits }

/-- Behind this depth the state is given up. -/
def maxCfgWalkDepth : ℕ := 32

/-- What an operation node does. -/
def walkOp (ctx : WalkCtx) (n : PCFNNode) (s : PerParamState) : PerParamState :=
  match n.operationId.bind ctx.opById with
  | some op => applyOp ctx s op
  | none => s

/-- What a call node does. -/
def walkCall (ctx : WalkCtx) (n : PCFNNode) (s : PerParamState) : PerParamState :=
  match n.callsiteId.bind ctx.callById with
  | some cs => applyCall ctx s cs
  | none => s

/-- Walk a block at a depth of its own, as the body of a `repeat` is. -/
def walkBlockAt (ctx : WalkCtx) (depth : ℕ) (block : PCFNNode) (transfers : List Transfer) :
    Transfer := fun s =>
  if depth > maxCfgWalkDepth then { state := saturateUnknown s }
  else runEvents ctx (blockEvents ctx block block.body transfers) s

mutual

/-- **`walk_cfg`.** -/
def walkCfg (ctx : WalkCtx) : PCFNNode → ℕ → PerParamState → WalkResult
  | ⟨k, op, cs, g, leaves, children, elseChildren, els, range, hint⟩, depth, pre =>
    let node : PCFNNode := ⟨k, op, cs, g, leaves, children, elseChildren, els, range, hint⟩
    let cond := applyConditionLeaves (transfersOpt ctx leaves (depth + 1))
    let branches := transfersOpt ctx children (depth + 1)
    if depth > maxCfgWalkDepth then { state := saturateUnknown pre }
    else
      match k with
      | .block => runEvents ctx (blockEvents ctx node node.body branches) pre
      | .ifThen =>
        let orPass (l : List Transfer) : Transfer := l.head?.getD fun s => { state := s }
        (cond pre).andThen
          (walkIf (orPass branches) (orPass (transfersOpt ctx elseChildren (depth + 1))))
      | .case => (cond pre).andThen (walkCase (node.body.any fun c => c.isCaseElse) branches)
      | .caseBranch => runEvents ctx (branches.map .child) pre
      | .whileDo | .forTo | .foreach =>
        match branches with
        | [] => cond pre
        | body :: _ => (cond pre).andThen (walkLoop body cond)
      | .repeatUntil =>
        if node.body = [] then cond pre
        else
          -- the flat children in a block of their own, one level deeper
          let synthetic : PCFNNode := { kind := .block, children := children }
          walkLoop (walkBlockAt ctx (depth + 1) synthetic
            (transfersOpt ctx children (depth + 2))) cond pre
      | .breakLoop => { state := pre, reach := .abrupt, breaks := [pre] }
      | .continueLoop => { state := pre, reach := .abrupt, continues := [pre] }
      | .exit | .error => (cond pre).andThen fun s => { state := s, exits := [s] }
      | .op => (cond pre).andThen fun s => { state := walkOp ctx node s }
      | .call => (cond pre).andThen fun s => { state := walkCall ctx node s }
      | .tryBlock => { state := saturateUnknown pre, exits := [saturateUnknown pre] }
      | .other => (cond pre).andThen (runEvents ctx (branches.map .child))

def transfersOpt (ctx : WalkCtx) : Option (List PCFNNode) → ℕ → List Transfer
  | none, _ => []
  | some ns, depth => transfers ctx ns depth

/-- The walks of a list of nodes. -/
def transfers (ctx : WalkCtx) : List PCFNNode → ℕ → List Transfer
  | [], _ => []
  | n :: ns, depth => (fun s => walkCfg ctx n depth s) :: transfers ctx ns depth

end

/-! ## 6. The facts of a parameter -/

/-- One visible subscriber parameter bound to the publisher's. -/
structure ExactBinding where
  subscriber : String
  q : ℕ
  calleeIsVar : Bool
  pathOpaque : Bool
  deriving DecidableEq, Repr

inductive DispatchKind where
  | unseen
  | exact (bindings : List ExactBinding)
  deriving DecidableEq, Repr

/-- The event dispatch of a publisher's record parameter, with the runs the walker joins. -/
structure ParamDispatch where
  callerIsVar : Bool
  kind : DispatchKind
  sequences : List (List ℕ)
  deriving DecidableEq, Repr

/-- One run of subscribers, in order. -/
def applyRun (ctx : WalkCtx) (pd : ParamDispatch) (bindings : List ExactBinding) (run : List ℕ)
    (s : PerParamState) : PerParamState :=
  (run.filterMap fun i => bindings[i]?).foldl (fun s b =>
    applyCalleeRole ctx s ⟨some b.subscriber, b.q, pd.callerIsVar, b.calleeIsVar⟩ true) s

/-- An event publisher's dispatch of the parameter. -/
def applyDispatch (ctx : WalkCtx) (pd : ParamDispatch) (s : PerParamState) : PerParamState :=
  match pd.kind with
  | .unseen => opaqueTransfer s pd.callerIsVar true true
  | .exact bindings =>
    if bindings.any (·.pathOpaque) then
      opaqueTransfer s pd.callerIsVar (bindings.any (·.calleeIsVar)) true
    else
      match pd.sequences.map fun run => applyRun ctx pd bindings run s with
      | [] => s
      | a :: rest => rest.foldl joinStates a

/-- An event of the straight-line pass. -/
inductive FlatEvent where
  | op (op : ModelRecordOperation)
  | field (fa : PFieldAccess)
  | call (cs : PCallSite)

def FlatEvent.start : FlatEvent → ℕ × ℕ
  | .op o => PAnchor.start o.sourceAnchor
  | .field fa => PAnchor.start fa.sourceAnchor
  | .call cs => PAnchor.start cs.sourceAnchor

/-- The straight-line pass of a routine with no statement tree. -/
def walkFlat (ctx : WalkCtx) (pre : PerParamState) : PerParamState :=
  let ops := (ctx.routine.recordOperations.filter ctx.opAffectsParam).map FlatEvent.op
  let fields := (ctx.routine.fieldAccesses.filter fun fa =>
    decide (ctx.toLowercase fa.recordVariableName = ctx.nameLc)).map FlatEvent.field
  let calls := (ctx.routine.callSites.filter fun cs =>
    (callTarget ctx cs).isSome).map FlatEvent.call
  ((ops ++ (fields ++ calls)).mergeSort fun a b => posLe a.start b.start).foldl (fun s e =>
    match e with
    | .op op => applyOp ctx s op
    | .field fa => applyFieldRead ctx s fa
    | .call cs => applyCall ctx s cs) pre

/-- The path-aware facts of one record parameter. -/
structure PathAwareFacts where
  requiresLoadedAtEntry : EffectPresence
  mutatesBeforeLoad : EffectPresence
  requiredLoadedFieldsAtEntry : FieldList
  dirtyAtExit : EffectPresence
  currentLoadedFieldsAtExit : FieldList
  deriving DecidableEq, Repr

def computeDirtyAtExit (states : List PerParamState) : EffectPresence :=
  if states.any fun s => s.dirty = .dirtyV then .yes
  else if states.any fun s => s.dirty = .unknown then .unknown
  else .no

def loadedToFieldList : LoadedFields → FieldList
  | .unknown => .unknown
  | .full => .full
  | .list v => .known v

def computeCurrentLoadedAtExit : List PerParamState → FieldList
  | [] => .unknown
  | s :: ss => loadedToFieldList
      (ss.foldl (fun a s => joinLoadedFields a s.currentLoadedFields) s.currentLoadedFields)

/-- The states the facts are read off: at every exit, and behind the body. -/
def finalStates (ctx : WalkCtx) (dispatch : Option ParamDispatch) : List PerParamState :=
  let all :=
    match ctx.routine.statementTree with
    | some tree =>
      let r := walkCfg ctx tree 0 .initial
      r.exits ++ [r.state]
    | none => [walkFlat ctx .initial]
  match dispatch with
  | some pd => all.map (applyDispatch ctx pd)
  | none => all

/-- **`walk_param`.** -/
def walkParam (ctx : WalkCtx) (dispatch : Option ParamDispatch) : PathAwareFacts :=
  let all := finalStates ctx dispatch
  { requiresLoadedAtEntry :=
      all.foldl (fun a s => joinPresence a s.requiresLoadedAtEntry) .no
    mutatesBeforeLoad := all.foldl (fun a s => joinPresence a s.mutatesBeforeLoad) .no
    requiredLoadedFieldsAtEntry :=
      match all.foldl (fun a s => joinRequiredFields a s.requiredFields) (.set []) with
      | .unknown => .unknown
      | .set v => .known v.mergeSort
    dirtyAtExit := computeDirtyAtExit all
    currentLoadedFieldsAtExit := computeCurrentLoadedAtExit all }

end AlSem.L4
