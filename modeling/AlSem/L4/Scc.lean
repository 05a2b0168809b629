/-
# Strongly connected components

`tarjan_scc` of `engine/l4/scc.rs`: the iterative Tarjan algorithm, with its explicit work
stack of frames.  A node is numbered when its frame is first on top (`visit`), each further
turn of a frame reads one more child (`advance`), and a frame whose children are all read is
settled (`settle`): when its node is a root, the nodes above it on the stack are one
component.  Components come out callees first.

The nodes are of any linearly ordered type; the source runs on routine ids.
-/
import AlSem.Lib.Loop
import AlSem.Lib.HashMap
import Mathlib.Data.List.Sort
import Mathlib.Algebra.Order.BigOperators.Group.List
import Mathlib.Data.String.Basic
import Mathlib.Algebra.GroupWithZero.Nat

namespace AlSem.L4

/-- The graph shape the algorithm reads: the nodes in order, and the targets of each node. -/
structure SccInputGraph (V : Type*) where
  nodes : List V
  edgesByFrom : HashMap V (List V)

/-- One component: its members sorted, and whether it is a cycle (more than one member, or a
self-edge). -/
structure Scc (V : Type*) where
  members : List V
  recursive : Bool
  deriving DecidableEq, Repr

/-- The components, callees before callers, and the component each node is in. -/
structure SccResult (V : Type*) where
  sccs : List (Scc V)
  sccIdByRoutine : V → Option ℕ

/-- One frame of the work stack: a node and the next child to read. -/
structure Frame (V : Type*) where
  node : V
  childIdx : ℕ
  deriving DecidableEq, Repr

/-- The variables of the two loops.  `stack` and `work` have their top first; `rawSccs` has
the components in the order they were found. -/
structure TarjanState (V : Type*) where
  nextIndex : ℕ
  index : V → Option ℕ
  lowlink : V → Option ℕ
  onStack : V → Bool
  stack : List V
  rawSccs : List (List V)
  work : List (Frame V)

namespace Tarjan

variable {V : Type*} [DecidableEq V]

/-- The children of a node, none when the graph has no entry for it. -/
def children (g : SccInputGraph V) (v : V) : List V := g.edgesByFrom.getList v

/-- Before anything is visited. -/
def initial : TarjanState V :=
  { nextIndex := 0, index := fun _ => none, lowlink := fun _ => none, onStack := fun _ => false,
    stack := [], rawSccs := [], work := [] }

/-- A frame's first turn: number its node and put it on the stack. -/
def visit (node : V) (s : TarjanState V) : TarjanState V :=
  { s with
    index := Function.update s.index node (some s.nextIndex)
    lowlink := Function.update s.lowlink node (some s.nextIndex)
    nextIndex := s.nextIndex + 1
    stack := node :: s.stack
    onStack := Function.update s.onStack node true }

/-- Lower the lowlink of `node` to `i`. -/
def lower (node : V) (i : ℕ) (s : TarjanState V) : TarjanState V :=
  { s with
    lowlink := Function.update s.lowlink node (some (min ((s.lowlink node).getD 0) i)) }

/-- Read one child of `node`: a new one gets a frame, one still on the stack lowers the
lowlink of `node`. -/
def advance (node child : V) (childIdx : ℕ) (rest : List (Frame V)) (s : TarjanState V) :
    TarjanState V :=
  let s := { s with work := ⟨node, childIdx + 1⟩ :: rest }
  if (s.index child).isNone then
    { s with work := ⟨child, 0⟩ :: s.work }
  else if s.onStack child then
    lower node ((s.index child).getD 0) s
  else
    s

/-- Pop the stack down to `node`: the nodes popped, and the stack that remains. -/
def popUntil (node : V) : List V → List V × List V
  | [] => ([], [])
  | w :: stack =>
    if w = node then ([w], stack)
    else
      let (members, rest) := popUntil node stack
      (w :: members, rest)

/-- Emit the component of the root `node`. -/
def emit (node : V) (s : TarjanState V) : TarjanState V :=
  let (members, rest) := popUntil node s.stack
  { s with
    stack := rest
    onStack := fun v => s.onStack v && !decide (v ∈ members)
    rawSccs := s.rawSccs ++ [members] }

/-- All children of `node` are read: emit its component when it is a root, drop its frame and
hand its lowlink to the parent. -/
def settle (node : V) (rest : List (Frame V)) (s : TarjanState V) : TarjanState V :=
  let s := if s.lowlink node = s.index node then emit node s else s
  let s := { s with work := rest }
  match rest with
  | [] => s
  | parent :: _ => lower parent.node ((s.lowlink node).getD 0) s

/-- One turn of the inner loop; `none` when the work stack is empty. -/
def step (g : SccInputGraph V) (s : TarjanState V) : Option (TarjanState V) :=
  match s.work with
  | [] => none
  | ⟨node, childIdx⟩ :: rest =>
    let s := if childIdx = 0 then visit node s else s
    match (children g node)[childIdx]? with
    | some child => some (advance node child childIdx rest s)
    | none => some (settle node rest s)

/-- Every node the algorithm can meet: the given ones and every target. -/
def allNodes (g : SccInputGraph V) : List V :=
  (g.nodes ++ g.edgesByFrom.entries.flatMap Sigma.snd).dedup

/-- Enough turns for any inner loop: each node is visited once and each edge read once. -/
def fuel (g : SccInputGraph V) : ℕ :=
  ((allNodes g).map fun v => (children g v).length + 1).sum + 1

/-- One round of the outer loop: search from `start` unless it is numbered already. -/
def search (g : SccInputGraph V) (start : V) (s : TarjanState V) : Option (TarjanState V) :=
  if (s.index start).isSome then some s
  else Loop.run (step g) (fuel g) { s with work := [⟨start, 0⟩] }

/-- The outer loop over the nodes. -/
def searchAll (g : SccInputGraph V) : List V → TarjanState V → Option (TarjanState V)
  | [], s => some s
  | start :: nodes, s => (search g start s).bind (searchAll g nodes)

/-- A component's surface form: members sorted, and the `recursive` flag. -/
def finishScc [LinearOrder V] (g : SccInputGraph V) (members : List V) : Scc V :=
  let sorted := members.mergeSort
  { members := sorted
    recursive := decide (1 < sorted.length) ||
      match sorted with
      | only :: _ => (children g only).contains only
      | [] => false }

/-- The member → component map: a later component overwrites an earlier one. -/
def sccIds (sccs : List (Scc V)) : V → Option ℕ :=
  (sccs.zipIdx).foldl
    (fun ids c => c.1.members.foldl (fun ids m => Function.update ids m (some c.2)) ids)
    (fun _ => none)

end Tarjan

open Tarjan in
/-- Tarjan's algorithm.  The inner loops end within their fuel (`Tarjan.searchAll_spec`), so the
fallback is never taken. -/
def tarjanScc {V : Type*} [LinearOrder V] (g : SccInputGraph V) : SccResult V :=
  let rawSccs := ((searchAll g g.nodes initial).getD initial).rawSccs
  let sccs := rawSccs.map (finishScc g)
  { sccs, sccIdByRoutine := sccIds sccs }

end AlSem.L4
