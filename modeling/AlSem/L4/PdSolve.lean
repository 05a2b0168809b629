/-
# The transitive producer solve

`pd_solve.rs`: a producer is a direct table fact whose temp state depends on a parameter of its
owner.  Each producer is solved by a breadth-first search of product states over the incoming
typed edges; `finalize` puts what the searches found into rank order; and the seeded solve copies
the states of every producer the revision left untouched from the previous arena.

A graph edge is known by its address, the list it stands in and its position there.  Maps that are
only looked up are functions.
-/
import AlSem.Lib.Bfs
import AlSem.Lib.Ranking
import AlSem.Lib.Worklist
import AlSem.L4.BaseSummary
import AlSem.L4.ParamGuard
import AlSem.L4.TypedEdges

namespace AlSem.L4

open AlSem.Model

/-! ## 1. States, links, producers -/

/-- In the frame of `routine` the producer's write has temp state `t` and happens only under
`reqs`.  `links` is the range of the state's incoming links. -/
structure ConeState where
  producer : ℕ
  routine : String
  t : TempState
  reqs : List Req
  seed : Bool
  dist : ℕ
  links : ℕ × ℕ
  deriving DecidableEq, Repr

/-- The state is reached from `calleeState` across `edge`. -/
structure ConeLink where
  calleeState : ℕ
  edge : ℕ
  deriving DecidableEq, Repr

/-- A direct fact that depends on a parameter of its owner. -/
structure Producer where
  fact : CapabilityFact
  owner : String
  operationId : String
  pd : (factPdIndex fact).isSome = true
  deriving DecidableEq

/-- The whole solve in canonical order. -/
structure ConeArena where
  producers : List Producer
  states : List ConeState
  links : List ConeLink
  edges : List TypedOutEdge
  byRoutine : String → List ℕ

/-- One state placed at its routine: its representative fact, its distance, its first hop. -/
structure ResolvedEntry where
  state : ℕ
  rep : CapabilityFact
  dist : ℕ
  firstHop : TypedOutEdge
  deriving DecidableEq, Repr

/-- Routine to its resolved entries. -/
abbrev ResolvedByRoutine := String → List ResolvedEntry

namespace ConeArena

/-- The arena of no producers. -/
def empty : ConeArena :=
  { producers := [], states := [], links := [], edges := [], byRoutine := fun _ => [] }

/-- A state's links. -/
def linksOf (a : ConeArena) (s : ConeState) : List ConeLink :=
  (a.links.drop s.links.1).take (s.links.2 - s.links.1)

end ConeArena

/-! ## 2. The revision a solve reads -/

/-- The typed graph, the routine rows and the guard frames. -/
structure PdRevision where
  graph : TypedEdgeGraph
  routinesById : String → Option ModelRoutine
  frames : String → Option FrameGuards

/-- An edge of the graph by its address. -/
structure GraphEdge where
  «from» : String
  pos : ℕ
  edge : TypedOutEdge
  deriving DecidableEq, Repr

/-- Every edge of the graph. -/
def graphEdges (g : TypedEdgeGraph) : List GraphEdge :=
  g.outgoing.entries.flatMap fun e =>
    e.2.zipIdx.map fun p => { «from» := e.1, pos := p.2, edge := p.1 }

/-- Incoming edges are read in `(sort key, caller)` order. -/
def GraphEdge.le (a b : GraphEdge) : Bool :=
  (compareLex (compareOn fun e : GraphEdge => e.edge.sortKey) (compareOn fun e => e.from) a b).isLE

/-- The edges into a routine. -/
def incoming (g : TypedEdgeGraph) (c : String) : List GraphEdge :=
  ((graphEdges g).filter fun ge => ge.edge.to = c).mergeSort GraphEdge.le

/-! ## 3. Crossing an edge -/

/-- Publisher and subscriber of an event-dispatch edge whose ends are both known. -/
def eventPair (edge : TypedOutEdge) (caller callee : Option ModelRoutine) :
    Option (ModelRoutine × ModelRoutine) :=
  match edge.kind, caller, callee with
  | "event-dispatch", some publisher, some subscriber => some (publisher, subscriber)
  | _, _, _ => none

/-- Where an edge binds the callee's parameters: a call site, or the operation that fires a
trigger. -/
inductive BoundSite where
  | call (site : String)
  | op (id : String)
  deriving DecidableEq, Repr

/-- The bound site of an edge, with the caller's row. -/
def boundSite (edge : TypedOutEdge) (caller : Option ModelRoutine) :
    Option (BoundSite × ModelRoutine) :=
  match caller with
  | none => none
  | some caller =>
    match edge.kind with
    | "direct-call" | "variable-typed-call" => edge.callsite.map fun cs => (.call cs, caller)
    | "implicit-trigger" => edge.operationId.map fun op => (.op op, caller)
    | _ => none

/-- One requirement of a subscriber, on the publisher's same-named parameter. -/
def carryEventReq (publisher subscriber : ModelRoutine) (callerFrame : Option FrameGuards)
    (out : List Req) (r : Req) : Option (List Req) :=
  let mapped := ((eventPublisherParam publisher subscriber r.1).map ModelParameter.index).filter
    fun i => callerFrame.any fun f => f.usable.contains i
  match mapped with
  | some i => conjoin out [(i, r.2)]
  | none => some out

/-- Carry a callee's requirements into the caller's frame and add the edge's own. -/
def carryReqs (reqs : List Req) (edge : TypedOutEdge) (caller callee : Option ModelRoutine)
    (callerFrame : Option FrameGuards) (edgeReqs : List Req) : Option (List Req) :=
  let carried : Option (List Req) :=
    match eventPair edge caller callee with
    | some (publisher, subscriber) =>
      reqs.foldlM (carryEventReq publisher subscriber callerFrame) []
    | none =>
      match boundSite edge caller with
      | some (.call cs, caller) =>
        match caller.callSites.find? fun c => c.id = cs with
        | some site => acrossEdge reqs site callerFrame
        | none => some []
      | some (.op _, _) => some []
      | none => some []
  carried.bind fun out => conjoin out edgeReqs

/-- The temp state a callee's parameter has in the caller's frame. -/
def crossIndex (i : ℕ) (edge : TypedOutEdge) (caller callee : Option ModelRoutine) : TempState :=
  match eventPair edge caller callee, boundSite edge caller with
  | some (publisher, subscriber), _ => eventParamTempState publisher subscriber i
  | none, some (.call cs, caller) => pdTempStateAtCallsite caller cs i
  | none, some (.op op, caller) => triggerReceiverTempState caller op i
  | none, none =>
    if edge.kind = "table-event" then
      match caller, edge.operationId with
      | some caller, some op => tableEventParamTempState caller op callee i
      | _, _ => .unknown
    else .unknown

/-- The transition over an edge: a known or unknown temp state transfers unchanged. -/
def crossEdge (t : TempState) (reqs : List Req) (edge : TypedOutEdge)
    (caller callee : Option ModelRoutine) (callerFrame : Option FrameGuards)
    (edgeReqs : List Req) : Option (TempState × List Req) :=
  let t :=
    match t with
    | .parameterDependent i => crossIndex i edge caller callee
    | other => other
  (carryReqs reqs edge caller callee callerFrame edgeReqs).map fun reqs => (t, reqs)

/-! ## 4. One producer's search -/

/-- Routine, temp state, requirements. -/
abbrev PdKey := String × TempState × List Req

/-- The requirements under which a fact's site runs: its operation's, else its call site's. -/
def siteReqs (fg : FrameGuards) (f : CapabilityFact) : Option (List Req) :=
  (f.witnessOperationId.toList ++ f.witnessCallsiteId.toList).findSome? fg.bySite.lookup

namespace PdRevision

variable (rev : PdRevision)

/-- The requirements under which the caller takes an edge. -/
def edgeReqs (ge : GraphEdge) : List Req :=
  match rev.frames ge.from, ge.edge.site with
  | some fg, some site => fg.site site
  | _, _ => []

/-- Cross a graph edge out of a state. -/
def crossing (key : PdKey) (ge : GraphEdge) : Option PdKey :=
  (crossEdge key.2.1 key.2.2 ge.edge (rev.routinesById ge.from) (rev.routinesById key.1)
    (rev.frames ge.from) (rev.edgeReqs ge)).map fun r => (ge.from, r.1, r.2)

/-- The states an incoming edge leads to. -/
def succ (key : PdKey) : List (GraphEdge × PdKey) :=
  (incoming rev.graph key.1).filterMap fun ge => (rev.crossing key ge).map fun k => (ge, k)

/-- A producer's seed. -/
def seedOf (prod : Producer) : PdKey :=
  (prod.owner, .parameterDependent ((factPdIndex prod.fact).get prod.pd),
    ((rev.frames prod.owner).bind fun fg => siteReqs fg prod.fact).getD [])

/-- The callers of the graph. -/
def callers : List String := rev.graph.outgoing.keys

/-- The temp states a caller's frame can hand up. -/
def callerTemps : List TempState :=
  [.known true, .known false, .unknown] ++
    rev.callers.flatMap fun id =>
      (((rev.routinesById id).map rowPdIndices).getD []).map .parameterDependent

/-- The requirements the callers' frames can state. -/
def callerLiterals : List Req :=
  rev.callers.flatMap fun id => ((rev.frames id).map FrameGuards.literals).getD []

/-- More turns than there are product states. -/
def fuel : ℕ :=
  rev.callers.length * (rev.callerTemps.length * (rev.callerLiterals.length + 1) ^ maxReqs) + 2

end PdRevision

/-- One fresh producer's solve, in its own indices. -/
structure FreshSolve where
  states : List ConeState
  rawLinks : List (List ConeLink)
  edges : List GraphEdge

/-- Read a finished search as the solve of producer `p`; the seed is the first state. -/
def freshOf (p : ℕ) (s : Bfs.Search PdKey GraphEdge) : FreshSolve where
  states := s.found.zipIdx.map fun f =>
    { producer := p, routine := f.1.1.1, t := f.1.1.2.1, reqs := f.1.1.2.2,
      seed := decide (f.2 = 0), dist := f.1.2, links := (0, 0) }
  rawLinks := s.links.map fun ls => ls.map fun k => { calleeState := k.callee, edge := k.label }
  edges := s.labels

/-- One producer's breadth-first search. -/
def solveProducer (rev : PdRevision) (p : ℕ) (prod : Producer) : Option FreshSolve :=
  (Bfs.run rev.succ rev.fuel (rev.seedOf prod)).map (freshOf p)

/-! ## 5. Ranks -/

/-- An operation id `"{routine}/opN"` in its parts. -/
def opIdSplit (id : String) : Option (String × ℕ) :=
  (Text.rsplitOnce "/op" id).bind fun p => (Text.parseU64 p.2).map fun n => (p.1, n)

/-- Operation ids: two with an ordinal by routine, ordinal and text, any others by text. -/
def opIdCmp (a b : String) : Ordering :=
  match opIdSplit a, opIdSplit b with
  | some x, some y => ((compare x.1 y.1).then (compare x.2 y.2)).then (compare a b)
  | _, _ => compare a b

/-- Producer rank: owner, then operation id. -/
def producerCmp (a b : Producer) : Ordering :=
  (compare a.owner b.owner).then (opIdCmp a.operationId b.operationId)

/-- Edge rank: the whole identity, `from` and the sort key first. -/
def edgeCmp : String × TypedOutEdge → String × TypedOutEdge → Ordering :=
  compareLex (compareOn fun p => p.1) <| compareLex (compareOn fun p => p.2.sortKey) <|
    compareLex (compareOn fun p => p.2.kind) <| compareLex (compareOn fun p => p.2.to) <|
      compareLex (compareOn fun p => p.2.callsite) <|
        compareLex (compareOn fun p => p.2.eventId) (compareOn fun p => p.2.operationId)

/-- The variant of a temp state, in declaration order. -/
def TempState.variant : TempState → ℕ
  | .known _ => 0
  | .parameterDependent _ => 1
  | .unknown => 2

/-- The payload of a temp state. -/
def TempState.payload : TempState → ℕ
  | .known v => v.toNat
  | .parameterDependent i => i
  | .unknown => 0

/-- `Known < ParameterDependent < Unknown`, then by payload. -/
def tempCmp : TempState → TempState → Ordering :=
  compareLex (compareOn TempState.variant) (compareOn TempState.payload)

/-- `(u32, bool)` order on requirements. -/
def reqCmp : Req → Req → Ordering :=
  compareLex (compareOn fun r => r.1) (compareOn fun r => r.2)

/-- State rank, the producer already ranked: producer, distance, routine, temp state,
requirements. -/
def stateCmp : ConeState → ConeState → Ordering :=
  compareLex (compareOn ConeState.producer) <| compareLex (compareOn ConeState.dist) <|
    compareLex (compareOn ConeState.routine) <|
      compareLex (fun a b => tempCmp a.t b.t) fun a b => List.compareLex reqCmp a.reqs b.reqs

/-- Link rank: edge, then callee state. -/
def linkCmp : ConeLink → ConeLink → Ordering :=
  compareLex (compareOn ConeLink.edge) (compareOn ConeLink.calleeState)

def producerLe (a b : Producer) : Bool := (producerCmp a b).isLE
def edgeLe (a b : String × TypedOutEdge) : Bool := (edgeCmp a b).isLE
def stateLe (a b : ConeState) : Bool := (stateCmp a b).isLE
def linkLe (a b : ConeLink) : Bool := (linkCmp a b).isLE

/-! ## 6. The canonical form -/

/-- What a solve found, in the order it found it: each state's links, and the graph edges the
links cross. -/
structure RawSolve where
  producers : List Producer
  states : List ConeState
  rawLinks : List (List ConeLink)
  edges : List GraphEdge

/-- The identity of a graph edge, its address left out. -/
def GraphEdge.identity (ge : GraphEdge) : String × TypedOutEdge := (ge.from, ge.edge)

namespace RawSolve

variable (raw : RawSolve)

def producerRank (old : ℕ) : ℕ := Ranking.rank producerLe raw.producers old

/-- The edge identities in rank order, each once. -/
def canonEdges : List (String × TypedOutEdge) :=
  Ranking.dropRepeats (Ranking.place edgeLe (raw.edges.map GraphEdge.identity))

/-- The rank of an edge of the table: its identity's place. -/
def edgeRank (old : ℕ) : ℕ :=
  match raw.edges[old]? with
  | some ge => raw.canonEdges.idxOf ge.identity
  | none => raw.canonEdges.length

/-- The states with their producers ranked. -/
def rankedStates : List ConeState :=
  raw.states.map fun s => { s with producer := raw.producerRank s.producer }

def stateRank (old : ℕ) : ℕ := Ranking.rank stateLe raw.rankedStates old

/-- One state's links in ranks, sorted, each once. -/
def rankedLinks (old : ℕ) : List ConeLink :=
  Ranking.dropRepeats (((raw.rawLinks.getD old []).map fun l =>
    { calleeState := raw.stateRank l.calleeState, edge := raw.edgeRank l.edge }).mergeSort linkLe)

/-- The link lists in state rank order. -/
def placedLinks : List (List ConeLink) :=
  ((Ranking.order stateLe raw.rankedStates).map Fin.val).map raw.rankedLinks

end RawSolve

/-- The states with the ranges of their links, the lists laid out one after the other from
`start`. -/
def layOut : ℕ → List ConeState → List (List ConeLink) → List ConeState
  | start, s :: states, ls :: links =>
    { s with links := (start, start + ls.length) } :: layOut (start + ls.length) states links
  | _, _, _ => []

/-- The producer's fact with its temp state set to `t`. -/
def repFor (fact : CapabilityFact) (t : TempState) : CapabilityFact :=
  match fact.extra with
  | some (.table rv _ sub) => { fact with extra := some (.table rv (some t.toP) sub) }
  | _ => fact

/-- The arena made of ranked parts. -/
def assembleArena (producers : List Producer) (edges : List (String × TypedOutEdge))
    (states : List ConeState) (links : List (List ConeLink)) : ConeArena :=
  let states := layOut 0 states links
  { producers
    states
    links := links.flatten
    edges := edges.map Prod.snd
    byRoutine := fun r => (states.zipIdx.filter fun s => s.1.routine = r).map Prod.snd }

namespace ConeArena

/-- A state's lowest-ranked link to a state at `dist - 1`. -/
def firstHopLink (a : ConeArena) (s : ConeState) : Option ConeLink :=
  (a.linksOf s).find? fun l => (a.states[l.calleeState]?).any fun c => c.dist + 1 = s.dist

/-- The resolved entry of the state at `ix`, none for a seed. -/
def entryAt (a : ConeArena) (s : ConeState) (ix : ℕ) : Option ResolvedEntry :=
  if s.seed then none
  else
    match a.firstHopLink s, a.producers[s.producer]? with
    | some l, some p =>
      (a.edges[l.edge]?).map fun hop =>
        { state := ix, rep := repFor p.fact s.t, dist := s.dist, firstHop := hop }
    | _, _ => none

/-- The resolved entries, in state order. -/
def resolved (a : ConeArena) : ResolvedByRoutine := fun r =>
  (a.states.zipIdx.filter fun s => s.1.routine = r).filterMap fun s => a.entryAt s.1 s.2

end ConeArena

/-- **The canonical arena**: everything in rank order, every index remapped. -/
def finalize (raw : RawSolve) : ConeArena × ResolvedByRoutine :=
  let arena := assembleArena (Ranking.place producerLe raw.producers) raw.canonEdges
    (Ranking.place stateLe raw.rankedStates) raw.placedLinks
  (arena, arena.resolved)

/-! ## 7. What may be reused -/

/-- The previous revision's arena, and the per-routine digests of both revisions. -/
structure PdReuse (D : Type) where
  old : ConeArena
  oldDigests : HashMap String D
  newDigests : HashMap String D

section Reuse

variable {D : Type} [DecidableEq D]

/-- The routines whose digest changed, appeared or vanished. -/
def pdDelta (reuse : PdReuse D) : List String :=
  (reuse.newDigests.entries.filter fun e => reuse.oldDigests.lookup e.1 ≠ some e.2).map Sigma.fst ++
    reuse.oldDigests.keys.filter fun id => (reuse.newDigests.lookup id).isNone

/-- The routines reachable from some routines, callers to callees. -/
def forwardReach (g : TypedEdgeGraph) (delta : List String) : Option (List String) :=
  (Worklist.solve (τ := Empty) (fun r => (g.outEdges r).map fun e => .inl e.to)
    (delta.length + (g.outgoing.entries.flatMap Sigma.snd).length + 1) (delta.map .inl)).map
      Worklist.Work.visited

/-- The old index of a producer's identity, the last one. -/
def oldIndex (old : ConeArena) (p : Producer) : Option ℕ :=
  (old.producers.zipIdx.reverse.find? fun o =>
    decide (o.1.owner = p.owner ∧ o.1.operationId = p.operationId)).map Prod.snd

/-- For each producer, the old index its states may be copied from, and the number of changed
routines. -/
def reusable (producers : List Producer) (g : TypedEdgeGraph) (reuse : PdReuse D) :
    Option (List (Option ℕ) × ℕ) :=
  let delta := pdDelta reuse
  (forwardReach g delta).map fun reach =>
    let oldHit := delta.flatMap fun r =>
      (reuse.old.byRoutine r).filterMap fun s => (reuse.old.states[s]?).map ConeState.producer
    (producers.map fun p =>
      if reach.contains p.owner then none
      else
        (oldIndex reuse.old p).bind fun o =>
          if !oldHit.contains o && decide ((reuse.old.producers[o]?).map Producer.fact = some p.fact)
          then some o else none,
      delta.length)

end Reuse

/-! ## 8. Copying -/

/-- The solve while it is put together: the old edges re-found so far (`some none` for one that is
missing), and the producers really copied. -/
structure CopyState where
  states : List ConeState
  rawLinks : List (List ConeLink)
  edges : List GraphEdge
  newEdge : ℕ → Option (Option ℕ)
  copied : List (Option ℕ)

section Copy

variable (g : TypedEdgeGraph) (old : ConeArena)

/-- The current edge with the identity of an old one. -/
def findEdge (src : String) (e : TypedOutEdge) : Option GraphEdge :=
  ((graphEdges g).filter fun ge => ge.from = src && ge.edge.sortKey = e.sortKey).find? fun ge =>
    edgeCmp ge.identity (src, e) = .eq

/-- The table index of an old edge in the current graph; each old edge is looked for once. -/
def mapEdge (src : String) (oe : ℕ) (st : CopyState) : CopyState × Option ℕ :=
  match st.newEdge oe with
  | some r => (st, r)
  | none =>
    match (old.edges[oe]?).bind (findEdge g src) with
    | none => ({ st with newEdge := Function.update st.newEdge oe (some none) }, none)
    | some ge =>
      let (edges, k) := Bfs.indexOf st.edges ge
      ({ st with edges, newEdge := Function.update st.newEdge oe (some (some k)) }, some k)

/-- Map the links of one state; `false` at the first missing edge. -/
def mapLinks (src : String) : List ConeLink → CopyState → CopyState × Bool
  | [], st => (st, true)
  | l :: ls, st =>
    match mapEdge g old src l.edge st with
    | (st, some _) => mapLinks src ls st
    | (st, none) => (st, false)

/-- Map the links of some states; `false` at the first missing edge. -/
def mapStates : List ConeState → CopyState → CopyState × Bool
  | [], st => (st, true)
  | s :: ss, st =>
    match mapLinks g old s.routine (old.linksOf s) st with
    | (st, true) => mapStates ss st
    | (st, false) => (st, false)

/-- Copy one link: its callee shifted to the new base, its edge re-found. -/
def copyLink (src : String) (base s0 : ℕ) (acc : CopyState × List ConeLink) (l : ConeLink) :
    CopyState × List ConeLink :=
  match mapEdge g old src l.edge acc.1 with
  | (st, some k) => (st, acc.2 ++ [{ calleeState := base + (l.calleeState - s0), edge := k }])
  | (st, none) => (st, acc.2)

/-- Copy one state of the old arena for producer `p`. -/
def copyState (p base s0 : ℕ) (st : CopyState) (s : ConeState) : CopyState :=
  let (st, links) := (old.linksOf s).foldl (copyLink g old s.routine base s0) (st, [])
  { st with
    states := st.states ++ [{ s with producer := p, links := (0, 0) }]
    rawLinks := st.rawLinks ++ [links] }

/-- The index range of an old producer's states. -/
def producerRange (o : ℕ) : ℕ × ℕ :=
  let ixs := (old.states.zipIdx.filter fun s => s.1.producer = o).map Prod.snd
  (ixs.head?.getD 0, (ixs.getLast?.map (· + 1)).getD 0)

/-- Copy one producer's states, unless one of their edges is missing. -/
def copyProducer (st : CopyState) (p : Option ℕ × ℕ) : CopyState :=
  match p.1 with
  | none => { st with copied := st.copied ++ [none] }
  | some o =>
    let (s0, s1) := producerRange old o
    let slice := (old.states.drop s0).take (s1 - s0)
    match mapStates g old slice st with
    | (st, false) => { st with copied := st.copied ++ [none] }
    | (st, true) =>
      let st := slice.foldl (copyState g old p.2 st.states.length s0) st
      { st with copied := st.copied ++ [some o] }

end Copy

/-! ## 9. The solve -/

/-- Append one fresh producer's states, its local indices shifted and its edges interned. -/
def concatFresh (st : CopyState) (f : FreshSolve) : CopyState :=
  let base := st.states.length
  let (edges, toSolve) := f.edges.foldl (fun acc ge =>
    let (edges, k) := Bfs.indexOf acc.1 ge
    (edges, acc.2 ++ [k])) (st.edges, ([] : List ℕ))
  { st with
    edges
    states := st.states ++ f.states
    rawLinks := st.rawLinks ++ f.rawLinks.map fun ls => ls.map fun l =>
      { calleeState := l.calleeState + base, edge := toSolve.getD l.edge 0 } }

/-- What a solve reused. -/
structure PdSolveReport where
  producers : ℕ
  reused : ℕ
  deltaRoutines : ℕ
  reusedStates : ℕ
  deriving DecidableEq, Repr

/-- The result of a solve: arena, entries, report, and the identities of the producers solved
afresh. -/
structure PdSolved where
  arena : ConeArena
  resolved : ResolvedByRoutine
  report : PdSolveReport
  fresh : List (String × String)

section Solve

variable {D : Type} [DecidableEq D] (rev : PdRevision)

/-- Before anything is copied. -/
def CopyState.start : CopyState :=
  { states := [], rawLinks := [], edges := [], newEdge := fun _ => none, copied := [] }

/-- The producers' states that are copied. -/
def copyReused (producers : List Producer) : Option (PdReuse D) → Option (CopyState × ℕ)
  | none => some ({ CopyState.start with copied := producers.map fun _ => none }, 0)
  | some reuse =>
    (reusable producers rev.graph reuse).map fun r =>
      (r.1.zipIdx.foldl (copyProducer rev.graph reuse.old) CopyState.start, r.2)

/-- Solve the producers that were not copied, in order. -/
def solveFresh (copied : List (Option ℕ)) : List (Producer × ℕ) → CopyState → Option CopyState
  | [], st => some st
  | (prod, p) :: rest, st =>
    if (copied.getD p none).isSome then solveFresh copied rest st
    else (solveProducer rev p prod).bind fun f => solveFresh copied rest (concatFresh st f)

/-- Copy what may be copied, solve the rest, put the whole in canonical order. -/
def solveCore (producers : List Producer) (reuse : Option (PdReuse D)) : Option PdSolved :=
  (copyReused rev producers reuse).bind fun c =>
    (solveFresh rev c.1.copied producers.zipIdx c.1).map fun st =>
      let out := finalize
        { producers, states := st.states, rawLinks := st.rawLinks, edges := st.edges }
      { arena := out.1
        resolved := out.2
        report :=
          { producers := producers.length
            reused := (c.1.copied.filter Option.isSome).length
            deltaRoutines := c.2
            reusedStates := c.1.states.length }
        fresh := (producers.zipIdx.filter fun p => (c.1.copied.getD p.2 none).isNone).map fun p =>
          (p.1.owner, p.1.operationId) }

/-- The solve, seeded or not; no producers, nothing to do. -/
def solveSeededFresh (producers : List Producer) (reuse : Option (PdReuse D)) : Option PdSolved :=
  if producers.isEmpty then
    some
      { arena := ConeArena.empty
        resolved := fun _ => []
        report := { producers := 0, reused := 0, deltaRoutines := 0, reusedStates := 0 }
        fresh := [] }
  else solveCore rev producers reuse

end Solve

end AlSem.L4
