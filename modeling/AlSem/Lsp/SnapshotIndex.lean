/-
# The snapshot and its derived indexes

`lsp/snapshot.rs`: what each workspace file contributes to a published snapshot, its resolved edges
and its declarations, and the indexes built from them: who is called from where, each routine's
declaration, and how many files declare it.  A routine's id is a type parameter: it is compared and
sorted, and nothing else is read of it.
-/
import AlSem.Lib.HashMap

namespace AlSem.Lsp

/-! ## 1. The data -/

/-- A file's path in the workspace: built from path segments, it holds no NUL. -/
abbrev VirtualPath := { s : String // '\x00' ∉ s.toList }

/-- The reserved file name of the event edges: NUL-prefixed, so that no path collides with it. -/
def eventEdgesKey : String := "\x00events"

theorem VirtualPath.ne_eventEdgesKey (vp : VirtualPath) : vp.1 ≠ eventEdgesKey := by
  intro heq
  exact vp.2 (heq ▸ by decide)

/-- What an edge leads to. -/
inductive LspTarget (RoutineNodeId : Type) where
  | routine (id : RoutineNodeId)
  | abi (key : String)
  deriving DecidableEq

/-- An edge as the server keeps it; `routeCount` counts every route, with a target or not. -/
structure LspEdge (RoutineNodeId : Type) where
  «from» : RoutineNodeId
  targets : List (LspTarget RoutineNodeId)
  routeCount : ℕ
  deriving DecidableEq

/-- Where an edge stands: its file, or `eventEdgesKey`, and its index there. -/
structure EdgeRef where
  file : String
  idx : ℕ
  deriving DecidableEq

/-- A span of a source file. -/
structure Origin where
  kindText : String
  byte : ℕ × ℕ
  start : ℕ × ℕ
  stop : ℕ × ℕ
  deriving DecidableEq

/-- One routine declaration. -/
structure DeclEntry (RoutineNodeId : Type) where
  id : RoutineNodeId
  name : String
  origin : Origin
  nameOrigin : Origin
  virtualPath : String
  deriving DecidableEq

/-- The edges of every file. -/
abbrev EdgesByFile (RoutineNodeId : Type) := HashMap VirtualPath (List (LspEdge RoutineNodeId))

/-- The declarations of every file. -/
abbrev DeclsByFile (RoutineNodeId : Type) := HashMap VirtualPath (List (DeclEntry RoutineNodeId))

/-- **A published snapshot**: the files' contributions, the event edges, and the indexes. -/
structure LspSnapshot (RoutineNodeId : Type) where
  generation : ℕ
  edgesByFile : EdgesByFile RoutineNodeId
  wsEventEdges : List (LspEdge RoutineNodeId)
  wsIncoming : HashMap RoutineNodeId (List EdgeRef)
  wsPublisherFanout : HashMap RoutineNodeId ℕ
  declsByFile : DeclsByFile RoutineNodeId
  declById : HashMap RoutineNodeId (DeclEntry RoutineNodeId)

section Build

variable {RoutineNodeId : Type} [DecidableEq RoutineNodeId]

/-! ## 2. The indexes -/

/-- The routine targets of an edge. -/
def LspEdge.routineTargets (e : LspEdge RoutineNodeId) : List RoutineNodeId :=
  e.targets.filterMap fun t =>
    match t with
    | .routine id => some id
    | .abi _ => none

/-- The distinct routine targets of an edge. -/
def edgeTargets (e : LspEdge RoutineNodeId) : List RoutineNodeId :=
  e.routineTargets.foldl (fun seen t => if seen.contains t then seen else seen ++ [t]) []

/-- Push an edge under each of its targets. -/
def pushEdgeTargets (incoming : HashMap RoutineNodeId (List EdgeRef)) (e : LspEdge RoutineNodeId)
    (file : String) (idx : ℕ) : HashMap RoutineNodeId (List EdgeRef) :=
  (edgeTargets e).foldl (fun incoming t => incoming.push t { file, idx }) incoming

/-- Push every edge of a file. -/
def pushFile (incoming : HashMap RoutineNodeId (List EdgeRef)) (file : String)
    (edges : List (LspEdge RoutineNodeId)) : HashMap RoutineNodeId (List EdgeRef) :=
  edges.zipIdx.foldl (fun incoming e => pushEdgeTargets incoming e.1 file e.2) incoming

/-- Every target's edges, and every publisher's subscriber count. -/
def buildIncoming (edgesByFile : EdgesByFile RoutineNodeId) (eventEdges : List (LspEdge RoutineNodeId)) :
    HashMap RoutineNodeId (List EdgeRef) × HashMap RoutineNodeId ℕ :=
  let incoming := edgesByFile.entries.foldl (fun incoming f => pushFile incoming f.1.1 f.2) ∅
  let fanout := eventEdges.foldl
    (fun fanout e => if e.routeCount > 0 then HashMap.bump fanout e.from e.routeCount else fanout) ∅
  (pushFile incoming eventEdgesKey eventEdges, fanout)

/-- Every declared routine's declaration; where several declare it, the last one visited. -/
def buildDeclById (declsByFile : DeclsByFile RoutineNodeId) :
    HashMap RoutineNodeId (DeclEntry RoutineNodeId) :=
  declsByFile.entries.foldl (fun byId f => f.2.foldl (fun byId d => byId.insert d.id d) byId) ∅

/-- Count a file's ids, each once. -/
def countFile (mult : HashMap RoutineNodeId ℕ) (decls : List (DeclEntry RoutineNodeId)) :
    HashMap RoutineNodeId ℕ :=
  (decls.foldl
    (fun s d => if s.2.contains d.id then s else (HashMap.bump s.1 d.id 1, d.id :: s.2))
    (mult, [])).1

/-- How many files declare each routine. -/
def buildDeclMultiplicity (declsByFile : DeclsByFile RoutineNodeId) : HashMap RoutineNodeId ℕ :=
  declsByFile.entries.foldl (fun mult f => countFile mult f.2) ∅

end Build

end AlSem.Lsp
