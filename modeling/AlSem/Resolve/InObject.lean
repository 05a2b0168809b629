/-
# Resolving a call in an object

`resolve_in_object` of `program/resolve/resolver.rs`: the routines of an object a call of a name with some
arguments binds.  The overloads of the call's arity are narrowed to those the caller may see, then to those
of the call's build; of what is left one is picked by the types of the arguments, or the call stays
undecided between all of them.
-/
import AlSem.Resolve.ParamInfos
import Mathlib.Data.List.Dedup

namespace AlSem.Resolve

open Text

/-! ## 1. The graph -/

structure RoutineNodeId where
  object : ObjectNodeId
  nameLc : String
  enclosingMemberLc : Option String
  paramsCount : ℕ
  sigFp : ℕ
  deriving DecidableEq

inductive Access where
  | public'
  | local'
  | internal
  | protected'
  deriving DecidableEq

inductive TrustTier where
  | workspace
  | embeddedSource
  | localSourceVerified
  | localSourceApproximate
  | symbolOnly
  deriving DecidableEq

/-- The `#if` branches a place is in: each symbol with the value it has there. -/
abbrev BuildContext := List (String × Bool)

structure RoutineNode where
  id : RoutineNodeId
  isTrigger : Bool
  access : Access
  abiOverloadCollapsed : Bool
  sourceOverloadAliased : Bool
  preprocContext : BuildContext
  deriving DecidableEq

/-- What a resolution reads of the program.  The routines stand in one order; of several with one id,
`routine` reads some one. -/
structure ProgramGraph where
  routines : List RoutineNode
  routine : RoutineNodeId → Option RoutineNode
  routine_mem : ∀ {id node}, routine id = some node → node ∈ routines ∧ node.id = id
  routine_isSome : ∀ node ∈ routines, (routine node.id).isSome = true
  isFriend : ℕ → ℕ → Bool
  objectExtends : ObjectNodeId → ObjectNodeId → Bool
  surface : RoutineNodeId → Option RoutineMeta
  scopeOf : ObjectNodeId → FoldScope
  candidateParamInfosAbi : RoutineNodeId → Option Candidate
  routineMethodId : RoutineNode → Option ℤ

/-- A call, and where it stands. -/
structure Call where
  object : ObjectNodeId
  tier : TrustTier
  nameLc : String
  arity : ℕ
  fromObject : ObjectNodeId
  args : List ArgDispatchInfo
  build : BuildContext

namespace ProgramGraph

variable (g : ProgramGraph)

/-- `routines_named`. -/
def routinesNamed (object : ObjectNodeId) (nameLc : String) : List RoutineNode :=
  g.routines.filter fun r => r.id.object = object ∧ r.id.nameLc = nameLc

/-- `routines_with_id`. -/
def routinesWithId (rid : RoutineNodeId) : List RoutineNode := g.routines.filter fun r => r.id = rid

end ProgramGraph

/-! ## 2. Routes -/

inductive UnknownReason where
  | overloadAmbiguous
  | arityMismatch
  | abiCollapsedOverload
  | protectedNotVisible
  | localNotVisible
  | internalNotVisible
  | indexIntegrationGap
  deriving DecidableEq

inductive Evidence where
  | source
  | abi
  | abiOpaque
  | unknown (reason : UnknownReason)
  deriving DecidableEq

def Evidence.isUnknown : Evidence → Bool
  | .unknown _ => true
  | _ => false

inductive RouteTarget where
  | routine (rid : RoutineNodeId)
  | abiSymbol (rid : RoutineNodeId)
  | unresolved
  deriving DecidableEq

inductive Witness where
  | sourceSpan (file : String) (span : ℕ × ℕ)
  | abiSymbol (rid : RoutineNodeId)
  | none
  deriving DecidableEq

inductive Condition where
  | ambiguousDispatch
  deriving DecidableEq

structure Route where
  target : RouteTarget
  evidence : Evidence
  conditions : List Condition
  witness : Witness
  deriving DecidableEq

inductive DispatchShape where
  | exact
  | ambiguousOverload
  deriving DecidableEq

/-- `tier_evidence`. -/
def tierEvidence : TrustTier → Evidence
  | .symbolOnly => .abi
  | _ => .source

/-- `unresolved_route`. -/
def unresolvedRoute (reason : UnknownReason) : Route where
  target := .unresolved
  evidence := .unknown reason
  conditions := []
  witness := .none

namespace ProgramGraph

variable (g : ProgramGraph)

/-- `make_routine_route`.  Without a declaration there is a route only where there are symbols alone. -/
def makeRoutineRoute (tier : TrustTier) (rid : RoutineNodeId) : Route :=
  match g.surface rid with
  | some routine => {
      target := .routine rid
      evidence := tierEvidence tier
      conditions := []
      witness := .sourceSpan routine.virtualPath (routine.origin.1 % 2 ^ 32, routine.origin.2 % 2 ^ 32) }
  | none =>
    if tier = .symbolOnly then {
      target := .abiSymbol rid
      evidence := .abiOpaque
      conditions := []
      witness := .abiSymbol rid }
    else unresolvedRoute .indexIntegrationGap

/-- `routine_is_collapse_marked`. -/
def routineIsCollapseMarked (rid : RoutineNodeId) : Bool :=
  (g.routine rid).any (·.abiOverloadCollapsed)

/-- `routine_is_source_aliased`. -/
def routineIsSourceAliased (rid : RoutineNodeId) : Bool :=
  (g.routine rid).any (·.sourceOverloadAliased)

/-! ## 3. What a caller sees -/

/-- `internal_visible_across`. -/
def internalVisibleAcross (exposing caller : ℕ) : Bool := exposing == caller || g.isFriend exposing caller

/-- `object_access_visible_from`. -/
def objectAccessVisibleFrom (object : ObjectNodeId) (access : Option Access) (fromObject : ObjectNodeId) :
    Bool :=
  match access with
  | some .public' => true
  | some .local' => object = fromObject
  | some .internal => g.internalVisibleAcross object.app fromObject.app
  | some .protected' => object = fromObject || g.objectExtends fromObject object
  | none => false

/-- `lookup_routine_access`. -/
def lookupRoutineAccess (rid : RoutineNodeId) : Option Access := (g.routine rid).map (·.access)

/-- `routine_candidate_is_visible`. -/
def routineCandidateIsVisible (fromObject : ObjectNodeId) (rid : RoutineNodeId) : Bool :=
  g.objectAccessVisibleFrom rid.object (g.lookupRoutineAccess rid) fromObject

/-- Why a routine of the object is not seen. -/
def exclusionReason (object fromObject : ObjectNodeId) (rid : RoutineNodeId) : Option UnknownReason :=
  match g.lookupRoutineAccess rid with
  | some .local' => if object ≠ fromObject then some .localNotVisible else none
  | some .internal =>
    if !g.internalVisibleAcross object.app fromObject.app then some .internalNotVisible else none
  | some .protected' =>
    if object ≠ fromObject ∧ g.objectExtends fromObject object = false then some .protectedNotVisible
    else none
  | _ => none

/-- `access_exclusion_reason`. -/
def accessExclusionReason (call : Call) : Option UnknownReason :=
  (((g.routinesNamed call.object call.nameLc).map (·.id)).filter fun rid =>
    rid.paramsCount = call.arity).findSome? (g.exclusionReason call.object call.fromObject)

end ProgramGraph

/-! ## 4. Overloads -/

/-- `preproc_contradicts`: some symbol has different values. -/
def preprocContradicts (a b : BuildContext) : Bool :=
  a.any fun x => b.any fun y => x.1 = y.1 ∧ x.2 ≠ y.2

namespace ProgramGraph

variable (g : ProgramGraph)

def contexts (rid : RoutineNodeId) : List BuildContext := (g.routinesWithId rid).map (·.preprocContext)

/-- Two routines exist in no common build. -/
def buildAlternatives (a b : RoutineNodeId) : Bool :=
  !(g.contexts a).isEmpty && !(g.contexts b).isEmpty &&
    (g.contexts a).all fun x => (g.contexts b).all fun y => preprocContradicts x y

/-- `has_build_alternatives`. -/
def hasBuildAlternatives : List RoutineNodeId → Bool
  | [] => false
  | a :: rest => rest.any (g.buildAlternatives a) || hasBuildAlternatives rest

/-- `routine_outside_build`. -/
def routineOutsideBuild (build : BuildContext) (rid : RoutineNodeId) : Bool :=
  !(g.contexts rid).isEmpty && (g.contexts rid).all fun c => preprocContradicts c build

/-- The narrowing to the call's build, unless nothing is left. -/
def inBuild (build : BuildContext) (visible : List RoutineNodeId) : List RoutineNodeId :=
  if 1 < visible.length ∧ build ≠ [] then
    let left := visible.filter fun rid => !g.routineOutsideBuild build rid
    if left = [] then visible else left
  else visible

/-- `candidate_param_infos_either`. -/
def candidateParamInfosEither (rid : RoutineNodeId) : Except Stop (Option Candidate) :=
  match g.surface rid with
  | some routine => (g.scopeOf rid.object).candidateParamInfos routine
  | none => .ok (g.candidateParamInfosAbi rid)

/-- The parameters of every overload, up to the first that is unknown. -/
def allParamInfos : List RoutineNodeId → Except Stop (Option (List Candidate))
  | [] => .ok (some [])
  | rid :: rids => do
    match ← g.candidateParamInfosEither rid with
    | none => return none
    | some cand => return (← allParamInfos rids).map (cand :: ·)

/-- The overload the arguments pick. -/
def pickAmong (args : List ArgDispatchInfo) (visible : List RoutineNodeId) :
    Except Stop (Option RoutineNodeId) :=
  if args ≠ [] ∧ g.hasBuildAlternatives visible = false then do
    return (← g.allParamInfos visible).bind fun params => (pickCandidate args params).bind (visible[·]?)
  else .ok none

/-- Two overloads are one id, or one of them is marked as several. -/
def degraded (visible : List RoutineNodeId) : Bool :=
  decide (visible.dedup.length ≠ visible.length) ||
    visible.any fun rid => g.routineIsCollapseMarked rid || g.routineIsSourceAliased rid

/-! ## 5. The resolution -/

/-- What stays undecided. -/
def ambiguousOverload (tier : TrustTier) (visible : List RoutineNodeId) : DispatchShape × List Route :=
  let routes := visible.map (g.makeRoutineRoute tier)
  if routes.any fun r => r.evidence.isUnknown then (.exact, [unresolvedRoute .overloadAmbiguous])
  else (.ambiguousOverload,
    routes.map fun r => { r with conditions := r.conditions ++ [.ambiguousDispatch] })

/-- The resolution among the overloads left. -/
def resolveVisible (call : Call) : List RoutineNodeId → Except Stop (DispatchShape × List Route)
  | [] => .ok (.exact, [unresolvedRoute ((g.accessExclusionReason call).getD .indexIntegrationGap)])
  | [rid] =>
    if g.routineIsCollapseMarked rid then .ok (.exact, [unresolvedRoute .abiCollapsedOverload])
    else .ok (.exact, [g.makeRoutineRoute call.tier rid])
  | visible =>
    if g.degraded visible then .ok (.exact, [unresolvedRoute .overloadAmbiguous])
    else do
      match ← g.pickAmong call.args visible with
      | some rid => return (.exact, [g.makeRoutineRoute call.tier rid])
      | none => return g.ambiguousOverload call.tier visible

/-- `resolve_by_method_id`. -/
def resolveByMethodId (call : Call) (n : ℤ) : DispatchShape × List Route :=
  match g.routines.filter fun r =>
    r.id.object = call.object ∧ r.isTrigger = false ∧ g.routineMethodId r = some n with
  | [r] => (.exact, [g.makeRoutineRoute call.tier r.id])
  | [] => (.exact, [unresolvedRoute .indexIntegrationGap])
  | _ => (.exact, [unresolvedRoute .overloadAmbiguous])

/-- The routines a call by name can mean. -/
def candidates (call : Call) : List RoutineNodeId :=
  ((g.routinesNamed call.object call.nameLc).filter fun r => !r.isTrigger).map (·.id)

/-- Those of the call's arity. -/
def matched (call : Call) : List RoutineNodeId :=
  (g.candidates call).filter fun rid => rid.paramsCount = call.arity

/-- Those the caller may see. -/
def visible (call : Call) : List RoutineNodeId :=
  (g.matched call).filter (g.routineCandidateIsVisible call.fromObject)

end ProgramGraph

/-- `synthesized_call_id`: the method id a call's name carries. -/
def synthesizedCallId (name : String) : Option ℤ :=
  let n := (trimMatches '"' name).toList
  if lowerAscii (n.take 12) = "__alsem_mid_".toList then
    (parseI64 (n.drop 12)).filter fun v => decide (-2147483648 ≤ v ∧ v < 2147483648)
  else none

/-- **`resolve_in_object`.**  `none` when the object has no routine of the name. -/
def ProgramGraph.resolveInObject (g : ProgramGraph) (call : Call) :
    Except Stop (Option (DispatchShape × List Route)) :=
  match synthesizedCallId call.nameLc with
  | some n => .ok (some (g.resolveByMethodId call n))
  | none =>
    if g.candidates call = [] then .ok none
    else if g.matched call = [] then .ok (some (.exact, [unresolvedRoute .arityMismatch]))
    else (g.resolveVisible call (g.inBuild call.build (g.visible call))).map some

end AlSem.Resolve
