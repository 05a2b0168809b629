/-
# Effects and summaries

The effect lattice (`effect_lattice.rs`) and the summary rows (`summary.rs`) of the summary
engine: temp states, database effects with their keys and provenance, uncertainties, record
roles, and the routine summary that carries them.
-/
import AlSem.Model.Workspace
import Mathlib.Data.List.Sort

namespace AlSem.L4

open AlSem.Model

/-! ## 1. Temp states -/

/-- Whether an operation's record is temporary: known, as parameter `i` of its routine, or not
known. -/
inductive TempState where
  | known (value : Bool)
  | parameterDependent (index : ℕ)
  | unknown
  deriving DecidableEq, Repr, Inhabited

/-- The identity form of a temp state, as the interned effect carries it. -/
inductive TempStateKind where
  | known (value : Bool)
  | parameterDependent (index : ℕ)
  | unknown
  deriving DecidableEq, Repr, Inhabited

/-- A missing payload reads as `false` or `0`, an unknown kind as unknown. -/
def TempState.fromP (ts : PTempState) : TempState :=
  match ts.kind with
  | "known" => .known (ts.value.getD false)
  | "parameter-dependent" => .parameterDependent (ts.parameterIndex.getD 0)
  | _ => .unknown

/-- The inverse of `fromP`. -/
def TempState.toP : TempState → PTempState
  | .known v => { kind := "known", value := some v }
  | .parameterDependent i => { kind := "parameter-dependent", parameterIndex := some i }
  | .unknown => { kind := "unknown" }

def TempState.toKind : TempState → TempStateKind
  | .known v => .known v
  | .parameterDependent i => .parameterDependent i
  | .unknown => .unknown

@[simp] theorem TempState.fromP_toP (t : TempState) : TempState.fromP t.toP = t := by
  cases t <;> rfl

theorem TempState.toKind_injective : Function.Injective TempState.toKind := by
  intro a b h
  cases a <;> cases b <;> simp_all [TempState.toKind]

/-- The key fragment of a temp state. -/
def TempStateKind.keyFragment : TempStateKind → String
  | .known true => "t"
  | .known false => "f"
  | .parameterDependent i => "p" ++ toString i
  | .unknown => "u"

/-! ## 2. Presence and provenance -/

/-- `no < unknown < yes`. -/
inductive EffectPresence where
  | no
  | unknown
  | yes
  deriving DecidableEq, Repr

def EffectPresence.rank : EffectPresence → ℕ
  | .no => 0
  | .unknown => 1
  | .yes => 2

def EffectPresence.fromRank : ℕ → EffectPresence
  | 0 => .no
  | 1 => .unknown
  | _ => .yes

/-- The higher of two presences. -/
def joinPresence (a b : EffectPresence) : EffectPresence := .fromRank (max a.rank b.rank)

/-- The provenance callee effects inherit through an edge of this kind. -/
def viaForEdgeKind (kind : String) : String :=
  match kind with
  | "implicit-trigger" => "implicit-trigger"
  | "event-dispatch" | "table-event" => "event-subscriber"
  | "dynamic" => "dynamic"
  | _ => "inherited"

/-- The five provenance ranks, `inherited` lowest. -/
inductive ViaRank where
  | inherited
  | dynamic
  | eventSubscriber
  | implicitTrigger
  | direct
  deriving DecidableEq, Repr

def ViaRank.toNat : ViaRank → ℕ
  | .inherited => 0
  | .dynamic => 1
  | .eventSubscriber => 2
  | .implicitTrigger => 3
  | .direct => 4

/-- Any other text is `inherited`. -/
def ViaRank.fromStr (s : String) : ViaRank :=
  match s with
  | "direct" => .direct
  | "implicit-trigger" => .implicitTrigger
  | "event-subscriber" => .eventSubscriber
  | "dynamic" => .dynamic
  | _ => .inherited

/-- The key of an effect: operation, table, operation id and temp state, without provenance. -/
def effectKeyOf (op tableId operationId : String) (temp : TempStateKind) : String :=
  op ++ "|" ++ tableId ++ "|" ++ operationId ++ "|" ++ temp.keyFragment

/-! ## 3. Rows -/

/-- One database effect of a routine. -/
structure DbEffect where
  effectKey : String
  operationId : String
  op : String
  tableId : String
  recordVariableId : Option String
  tempState : TempState
  via : String
  deriving DecidableEq, Repr

/-- Something a routine's analysis could not see, with the one id it is reported at. -/
structure Uncertainty where
  kind : String
  callsiteId : Option String := none
  operationId : Option String := none
  routineId : Option String := none
  interfaceName : Option String := none
  deriving DecidableEq, Repr

/-- The id an uncertainty is reported at. -/
def uncertaintyAt (u : Uncertainty) : String :=
  match u.callsiteId, u.operationId with
  | some cs, _ => cs
  | none, some op => op
  | none, none => u.routineId.getD ""

/-- The stable key of an uncertainty. -/
def uncertaintyKey (u : Uncertainty) : String := u.kind ++ "|" ++ uncertaintyAt u

/-- Keep the last row of each run of equal keys. -/
def keepLastByKey : List Uncertainty → List Uncertainty
  | [] => []
  | [u] => [u]
  | u :: v :: us =>
    if uncertaintyKey u = uncertaintyKey v then keepLastByKey (v :: us)
    else u :: keepLastByKey (v :: us)

/-- De-duplicate by key, the last row of a key winning, in key order.  The source compares the
keys without building them (`cmp_uncertainty_key`), in the order of the built keys. -/
def dedupeUncertainties (list : List Uncertainty) : List Uncertainty :=
  keepLastByKey (list.mergeSort fun a b => decide (uncertaintyKey a ≤ uncertaintyKey b))

/-- A sorted list of field ids, or a sentinel. -/
inductive FieldList where
  | known (fields : List String)
  | unknown
  | full
  deriving DecidableEq, Repr

/-- What a routine does with one record parameter. -/
structure RecordRoleSummary where
  parameterIndex : ℕ
  tableId : String
  readsFields : FieldList
  writesFields : FieldList
  mayResetFilters : Bool
  mayChangeLoadFields : Bool
  mayAssignRecord : Bool
  mayUseRecordRef : Bool
  requiresLoadedAtEntry : EffectPresence
  requiredLoadedFieldsAtEntry : FieldList
  mutatesBeforeLoad : EffectPresence
  persistsCurrentRecord : EffectPresence
  setBasedDbWrites : EffectPresence
  validatesParam : EffectPresence
  copiesIntoParam : EffectPresence
  resetsFiltersOnParam : EffectPresence
  dirtyAtExit : EffectPresence
  currentLoadedFieldsAtExit : FieldList
  mutatesParam : EffectPresence
  loadsFromDbParam : EffectPresence
  initialisesParam : EffectPresence
  deriving DecidableEq, Repr

/-- A routine's summary. -/
structure RoutineSummary where
  routineId : String
  dbEffects : List DbEffect
  inRecursiveCycle : Bool
  hasUnresolvedCalls : Bool
  uncertainties : List Uncertainty
  parameterRoles : List RecordRoleSummary
  deriving DecidableEq, Repr

end AlSem.L4
