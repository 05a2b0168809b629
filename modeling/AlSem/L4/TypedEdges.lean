/-
# Capability facts and typed edges

The fact type of `capability_cone.rs`, and the typed-edge graph the cone and the producer solve
run over.
-/
import AlSem.Lib.HashMap
import AlSem.L4.Effects

namespace AlSem.L4

open AlSem.Model

/-! ## 1. Facts -/

/-- Where a value comes from. -/
inductive ValueSource where
  | literal (value : String)
  | enum (enumName : String) (member : Option String)
  | constantVar (varName : String) (initializer : ValueSource)
  | parameter (index : ℕ) (varName : String)
  | tableField (tableId fieldName : String)
  | expression
  | unknown
  deriving DecidableEq, Repr

/-- What a fact says beyond its resource. -/
inductive CapabilityExtra where
  | table (recordVariableId : Option String) (tempState : Option PTempState)
      (opSubtype : Option String)
  | dispatch (objectType : String) (modal : Option Bool)
  | event (eventClass : String) (includeSender : Option Bool)
  | http (method : String) (bodyArgSource : Option ValueSource)
  | storage (keyArgSource valueArgSource : Option ValueSource) (scope : Option String)
  deriving DecidableEq, Repr

/-- One capability fact, direct or inherited, in internal ids. -/
structure CapabilityFact where
  subject : String
  op : String
  resourceKind : String
  resourceId : Option String := none
  resourceArgSource : Option ValueSource := none
  confidence : String
  provenance : String
  via : String
  witnessOperationId : Option String := none
  witnessCallsiteId : Option String := none
  witnessFirstHopOperationId : Option String := none
  witnessFirstHopEventId : Option String := none
  extra : Option CapabilityExtra := none
  deriving DecidableEq, Repr

/-- The temp state a table fact carries. -/
def CapabilityFact.tableTempState (f : CapabilityFact) : Option PTempState :=
  match f.extra with
  | some (.table _ ts _) => ts
  | _ => none

/-- The parameter a table fact's temp state depends on. -/
def factPdIndex (f : CapabilityFact) : Option ℕ :=
  match f.tableTempState.map TempState.fromP with
  | some (.parameterDependent i) => some i
  | _ => none

/-! ## 2. Typed edges -/

/-- An out-edge of a routine.  `sortKey` is computed when the graph is built. -/
structure TypedOutEdge where
  «to» : String
  kind : String
  callsite : Option String := none
  eventId : Option String := none
  operationId : Option String := none
  sortKey : String
  deriving DecidableEq, Repr

/-- `kind|callsite|event|to`, and the operation id when there is one. -/
def edgeSortKey (target kind : String) (callsite eventId operationId : Option String) : String :=
  let key := kind ++ "|" ++ callsite.getD "" ++ "|" ++ eventId.getD "" ++ "|" ++ target
  match operationId with
  | some op => key ++ "|" ++ op
  | none => key

namespace TypedOutEdge

/-- An edge with its sort key. -/
def new (target kind : String) (callsite eventId operationId : Option String) : TypedOutEdge :=
  { «to» := target, kind, callsite, eventId, operationId,
    sortKey := edgeSortKey target kind callsite eventId operationId }

/-- The site the caller takes the edge at: its call site, else its operation. -/
def site (e : TypedOutEdge) : Option String := e.callsite.or e.operationId

end TypedOutEdge

/-- The nodes, the out-edges of each routine, and the routines with an unresolved object run. -/
structure TypedEdgeGraph where
  nodes : List String
  outgoing : HashMap String (List TypedOutEdge)
  unresolvedSources : List String := []

/-- The out-edges of a routine. -/
def TypedEdgeGraph.outEdges (g : TypedEdgeGraph) (id : String) : List TypedOutEdge :=
  g.outgoing.getList id

end AlSem.L4
