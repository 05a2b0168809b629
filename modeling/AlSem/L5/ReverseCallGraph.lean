/-
# The reverse call graph

`l5/reverse_call_graph.rs`: the callers of each routine, from the edges of the primary graph.
-/
import AlSem.L4.CombinedGraph

namespace AlSem.L5

open AlSem.L4

/-- Each routine's edges as the callee. -/
abbrev ReverseCallGraph := HashMap String (List CombinedEdge)

/-- Invert the edges of the graph, node by node. -/
def buildReverseCallGraph (graph : PrimaryGraph) : ReverseCallGraph :=
  (graph.nodes.flatMap graph.outEdges).foldl (fun m e => HashMap.push m e.to e) ∅

/-- The resolved callers of a routine. -/
def callersOf (reverse : ReverseCallGraph) (routineId : String) : List CombinedEdge :=
  HashMap.getList reverse routineId

/-- **The callers of a routine are the edges into it.** -/
theorem mem_callersOf_build {graph : PrimaryGraph} {id : String} {e : CombinedEdge} :
    e ∈ callersOf (buildReverseCallGraph graph) id ↔
      e.to = id ∧ ∃ n ∈ graph.nodes, e ∈ graph.outEdges n := by
  rw [callersOf, buildReverseCallGraph,
    HashMap.mem_getList_foldl_push CombinedEdge.to fun e => e]
  simp only [HashMap.getList_empty, List.not_mem_nil, false_or, List.mem_flatMap]
  constructor
  · rintro ⟨b, hb, hto, rfl⟩
    exact ⟨hto, hb⟩
  · rintro ⟨hto, he⟩
    exact ⟨e, he, hto, rfl⟩

end AlSem.L5
