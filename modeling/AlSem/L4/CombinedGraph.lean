/-
# The combined graph

The primary payload of `combined_graph.rs`: the call edges of each routine, keyed by caller, and
the uncertainty edges of the call sites without a resolved target.
-/
import AlSem.Lib.HashMap
import AlSem.L4.Effects
import AlSem.L4.Scc

namespace AlSem.L4

/-- How an `event-dispatch` edge may run. -/
structure DispatchMeta where
  conditional : Bool
  isolated : Bool
  deriving DecidableEq, Repr

/-- A resolved edge from a routine to a routine. -/
structure CombinedEdge where
  «from» : String
  «to» : String
  kind : String
  callsiteId : Option String := none
  operationId : Option String := none
  eventId : Option String := none
  dispatch : Option DispatchMeta := none
  deriving DecidableEq, Repr

/-- An uncertainty attached to a routine whose call site had no resolved target. -/
structure UncertaintyEdge where
  «from» : String
  uncertainty : Uncertainty
  deriving DecidableEq, Repr

/-- The primary graph: sorted routine ids, and the sorted edge list of each caller. -/
structure PrimaryGraph where
  nodes : List String
  edgesByFrom : HashMap String (List CombinedEdge)
  uncertaintyEdges : List UncertaintyEdge := []
  collidedSiteCallee : HashMap String (Option String) := ∅

namespace PrimaryGraph

/-- The out-edges of a routine. -/
def outEdges (graph : PrimaryGraph) (id : String) : List CombinedEdge :=
  graph.edgesByFrom.getList id

end PrimaryGraph

/-- The adjacency `graph_scc` hands to Tarjan: every caller's targets. -/
def sccAdjacency (graph : PrimaryGraph) : SccInputGraph String where
  nodes := graph.nodes
  edgesByFrom :=
    ⟨graph.edgesByFrom.entries.map fun e => ⟨e.1, e.2.map CombinedEdge.to⟩, by
      have h := graph.edgesByFrom.nodupKeys
      unfold List.NodupKeys List.keys at h ⊢
      simpa [List.map_map, Function.comp_def] using h⟩

/-- Tarjan over the primary graph. -/
def graphScc (graph : PrimaryGraph) : SccResult String := tarjanScc (sccAdjacency graph)

/-- The children of a node in the adjacency are the targets of its out-edges. -/
theorem children_sccAdjacency (graph : PrimaryGraph) (v : String) :
    Tarjan.children (sccAdjacency graph) v = (graph.outEdges v).map CombinedEdge.to := by
  have hlook : ∀ l : List (Sigma fun _ : String => List CombinedEdge),
      List.dlookup v (l.map fun e => (⟨e.1, e.2.map CombinedEdge.to⟩ : Sigma fun _ => List String))
        = (List.dlookup v l).map (List.map CombinedEdge.to) := by
    intro l
    induction l with
    | nil => rfl
    | cons e l ih =>
      obtain ⟨k, es⟩ := e
      by_cases hk : v = k
      · subst hk; simp
      · simp [List.dlookup_cons_ne, hk, ih]
  unfold Tarjan.children PrimaryGraph.outEdges HashMap.getList AList.lookup
  rw [sccAdjacency, hlook]
  cases List.dlookup v graph.edgesByFrom.entries <;> rfl

end AlSem.L4
