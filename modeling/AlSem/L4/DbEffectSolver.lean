/-
# The database-effect solver

`db_effect_solver.rs`: effective SCCs, parameter-dependent reachability, the closed-form union,
provenance, side facts, and the per-component assembly that records one row a routine.

Maps that are only looked up are functions.  A routine the interner does not know, and an effect
id the universe does not know, make the source panic; here they contribute nothing, and
`DbEffectLfp` shows that the solver meets neither.
-/
import AlSem.Lib.Worklist
import AlSem.L4.BaseSummary
import AlSem.L4.EffectStore

namespace AlSem.L4

open AlSem.Model

/-! ## 1. Effective components -/

/-- The edges between the kept members of a component. -/
def inducedAdjacency (graph : PrimaryGraph) (nodes : List String) : SccInputGraph String where
  nodes := nodes
  edgesByFrom :=
    ⟨nodes.dedup.map fun m =>
        ⟨m, ((graph.outEdges m).map CombinedEdge.to).filter fun t => nodes.contains t⟩, by
      unfold List.NodupKeys List.keys
      simpa [List.map_map, Function.comp_def] using nodes.nodup_dedup⟩

/-- The components of the subgraph a component's recomputed members induce, callees first. -/
def effectiveSccs (sccEntry : Scc String) (graph : PrimaryGraph) (isRecomputed : String → Bool) :
    List (Scc String) :=
  let nodes := sccEntry.members.filter isRecomputed
  if nodes.isEmpty then [] else (tarjanScc (inducedAdjacency graph nodes)).sccs

/-! ## 2. What the solver reads -/

/-- `(op, table id, operation id)`. -/
abbrev BaseId := String × String × String

/-- The effect a base identity and a temp state make. -/
def effectOf (base : BaseId) (temp : TempStateKind) : EffectIdentity :=
  { op := base.1, tableId := base.2.1, operationId := base.2.2, temp }

/-- The base identity of an effect. -/
def EffectIdentity.base (k : EffectIdentity) : BaseId := (k.op, k.tableId, k.operationId)

@[simp] theorem effectOf_base (k : EffectIdentity) : effectOf k.base k.temp = k := rfl

/-- The workspace-wide inputs of every component's solve. -/
structure SolverInput where
  graph : PrimaryGraph
  routinesById : String → Option ModelRoutine
  baseSummaries : String → Option RoutineSummary
  uncertaintyEdgesByFrom : String → List ℕ
  bodyAvailById : String → Option Bool
  interner : RoutineInterner
  toLowercase : String → String

/-- The field index of a reader of effects only. -/
def emptyFields : FieldIndex := fun _ => none

namespace SolverInput

variable (ctx : SolverInput)

/-- A routine's summary from its own body, with no field resolved. -/
def ownSummary (m : String) : Option RoutineSummary :=
  (ctx.routinesById m).map fun r => baseIntraproceduralSummary ctx.toLowercase r emptyFields

/-- The base summary of a member: the recorded one, else its own. -/
def baseOf (m : String) : Option RoutineSummary := (ctx.baseSummaries m).or (ctx.ownSummary m)

/-! ## 3. Parameter-dependent reachability -/

end SolverInput

/-- A terminal effect a parameter-dependent chain ended in, at one member. -/
structure TerminalEmission where
  routineId : String
  base : BaseId
  temp : TempStateKind
  deriving DecidableEq, Repr

/-- A parameter-dependent effect of a member, at the member's own parameter. -/
structure PdFact where
  routineId : String
  base : BaseId
  paramIndex : ℕ
  deriving DecidableEq, Repr

/-- One product state: routine, base identity, parameter. -/
abbrev PdState := ℕ × BaseId × ℕ

/-- What a substitution's outcome offers at a routine: a product state, or a terminal effect. -/
def applyPdTransition (interner : RoutineInterner) (atRoutine : ℕ) (base : BaseId)
    (outcome : TempState) : List (PdState ⊕ TerminalEmission) :=
  match outcome with
  | .parameterDependent j => [.inl (atRoutine, base, j)]
  | .known v => (interner.name atRoutine).toList.map fun r => .inr ⟨r, base, .known v⟩
  | .unknown => (interner.name atRoutine).toList.map fun r => .inr ⟨r, base, .unknown⟩

/-- Ascending `(routine, base, parameter)`. -/
def PdFact.le (a b : PdFact) : Bool :=
  ((compare a.routineId b.routineId).then ((compare a.base.1 b.base.1).then
    ((compare a.base.2.1 b.base.2.1).then ((compare a.base.2.2 b.base.2.2).then
      (compare a.paramIndex b.paramIndex))))).isLE

/-- Ascending `(routine, base, key fragment of the temp state)`. -/
def TerminalEmission.le (a b : TerminalEmission) : Bool :=
  ((compare a.routineId b.routineId).then ((compare a.base.1 b.base.1).then
    ((compare a.base.2.1 b.base.2.1).then ((compare a.base.2.2 b.base.2.2).then
      (compare a.temp.keyFragment b.temp.keyFragment))))).isLE

section Reachability

variable (ctx : SolverInput) (members : List String)

/-- The edges from a member to the member `w`. -/
def callersOf (w : String) : List (String × CombinedEdge) :=
  members.flatMap fun v =>
    ((ctx.graph.outEdges v).filter fun e => members.contains e.to && decide (e.to = w)).map (v, ·)

/-- The out-edges of a member that leave the component. -/
def outerEdges (m : String) : List CombinedEdge :=
  (ctx.graph.outEdges m).filter fun e => !members.contains e.to

/-- Seed 1: a member's own parameter-dependent effects. -/
def ownPdSeeds (m : String) : List (PdState ⊕ TerminalEmission) :=
  match ctx.ownSummary m, ctx.interner.get m with
  | some base, some mIx =>
    base.dbEffects.filterMap fun e =>
      match e.tempState with
      | .parameterDependent i => some (.inl (mIx, (e.op, e.tableId, e.operationId), i))
      | _ => none
  | _, _ => []

/-- What one parameter-dependent effect of a settled target offers at the caller. -/
def substituteSettled (universe_ : GrowingEffectUniverse) (routine : ModelRoutine) (mIx : ℕ)
    (e : CombinedEdge) (calleeId : ℕ) : List (PdState ⊕ TerminalEmission) :=
  match universe_.identity calleeId with
  | some k =>
    match k.temp with
    | .parameterDependent j =>
      applyPdTransition ctx.interner mIx k.base
        (substitutePdTempState e j routine (ctx.routinesById e.to))
    | _ => []
  | none => []

/-- Seed 2: the images of the settled targets' parameter-dependent effects. -/
def settledPdSeeds (settledDb : SummaryBundleBuilder) (universe_ : GrowingEffectUniverse)
    (m : String) : List (PdState ⊕ TerminalEmission) :=
  match ctx.routinesById m, ctx.interner.get m with
  | some routine, some mIx =>
    (outerEdges ctx members m).flatMap fun e =>
      match ctx.interner.get e.to with
      | some toIx =>
        if settledDb.hasRow toIx then
          (settledDb.pdIds toIx).flatMap (substituteSettled ctx universe_ routine mIx e)
        else []
      | none => []
  | _, _ => []

/-- All seeds, members in order. -/
def pdSeeds (settledDb : SummaryBundleBuilder) (universe_ : GrowingEffectUniverse) :
    List (PdState ⊕ TerminalEmission) :=
  members.flatMap (ownPdSeeds ctx) ++
    members.flatMap (settledPdSeeds ctx members settledDb universe_)

/-- What a product state offers the callers of its routine. -/
def expandPd (s : PdState) : List (PdState ⊕ TerminalEmission) :=
  match ctx.interner.name s.1 with
  | some w =>
    (callersOf ctx members w).flatMap fun c =>
      match ctx.routinesById c.1, ctx.interner.get c.1 with
      | some callerRoutine, some vIx =>
        applyPdTransition ctx.interner vIx s.2.1
          (substitutePdTempState c.2 s.2.2 callerRoutine (ctx.routinesById c.2.to))
      | _, _ => []
  | none => []

/-- The product states some offers name. -/
def offeredStates (offers : List (PdState ⊕ TerminalEmission)) : List PdState :=
  offers.filterMap Sum.getLeft?

/-- The parameters a product state of the component can have: a seed's, or one that stands in a
member's row. -/
def pdIndices (seeds : List (PdState ⊕ TerminalEmission)) : List ℕ :=
  (offeredStates seeds).map (·.2.2) ++
    members.flatMap fun m => ((ctx.routinesById m).map rowPdIndices).getD []

/-- More turns than there are product states. -/
def pdFuel (seeds : List (PdState ⊕ TerminalEmission)) : ℕ :=
  members.length *
    ((offeredStates seeds).length * (pdIndices ctx members seeds).length) + 1

/-- Substitution as reachability: the parameter-dependent facts of every member, and the terminal
effects the chains end in. -/
def solvePdReachability (settledDb : SummaryBundleBuilder) (universe_ : GrowingEffectUniverse) :
    Option (List PdFact × List TerminalEmission) :=
  let seeds := pdSeeds ctx members settledDb universe_
  (Worklist.solve (expandPd ctx members) (pdFuel ctx members seeds) seeds).map fun w =>
    ((w.visited.filterMap fun s => (ctx.interner.name s.1).map fun r => ⟨r, s.2.1, s.2.2⟩).mergeSort
        PdFact.le,
      w.out.mergeSort TerminalEmission.le)

end Reachability

/-! ## 4. The closed-form union -/

/-- The presence of one component: the terminal effects all members share, and each member's
own parameter-dependent effects. -/
structure SccPresence where
  terminalUnion : Bits
  pdByMember : ℕ → Option Bits

namespace SccPresence

def memberPresent (p : SccPresence) (m id : ℕ) : Bool :=
  hasBit p.terminalUnion id || (p.pdByMember m).any fun pd => hasBit pd id

/-- The terminal ids, then the member's own, each ascending. -/
def memberPresentIds (p : SccPresence) (m : ℕ) : List ℕ :=
  iterSetBits p.terminalUnion ++ ((p.pdByMember m).map iterSetBits).getD []

end SccPresence

/-- Intern an effect and set its bit. -/
def internBit (s : GrowingEffectUniverse × Bits) (k : EffectIdentity) :
    GrowingEffectUniverse × Bits :=
  let (universe_, id) := s.1.intern k
  (universe_, setBit s.2 id)

/-- Intern a terminal effect and set its bit; a parameter-dependent one is skipped. -/
def internTerminalDbEffect (s : GrowingEffectUniverse × Bits) (e : DbEffect) :
    GrowingEffectUniverse × Bits :=
  match e.tempState with
  | .parameterDependent _ => s
  | _ => internBit s e.identity

section Union

variable (ctx : SolverInput) (members : List String)

/-- Source 2, one edge: the settled target's terminal set. -/
def orSettled (settledDb : SummaryBundleBuilder) (bits : Bits) (e : CombinedEdge) : Bits :=
  match ctx.interner.get e.to with
  | some toIx => if settledDb.hasRow toIx then orBits bits (settledDb.terminalBits toIx) else bits
  | none => bits

/-- The terminal effects all members share: their own, their settled targets', and those the
parameter-dependent chains end in. -/
def terminalUnionOf (settledDb : SummaryBundleBuilder) (terminalEmissions : List TerminalEmission)
    (universe_ : GrowingEffectUniverse) : GrowingEffectUniverse × Bits :=
  let own := (members.flatMap fun m => ((ctx.baseOf m).map RoutineSummary.dbEffects).getD []).foldl
    internTerminalDbEffect (universe_, [])
  let settled := (members.flatMap (outerEdges ctx members)).foldl (orSettled ctx settledDb) own.2
  terminalEmissions.foldl (fun s t => internBit s (effectOf t.base t.temp)) (own.1, settled)

/-- One member's parameter-dependent bits. -/
def internMemberPd (pdFacts : List PdFact) (s : GrowingEffectUniverse × (ℕ → Option Bits))
    (m : String) : GrowingEffectUniverse × (ℕ → Option Bits) :=
  match ctx.interner.get m with
  | some mIx =>
    let (universe_, bits) := (pdFacts.filter fun f => f.routineId = m).foldl
      (fun s f => internBit s (effectOf f.base (.parameterDependent f.paramIndex))) (s.1, [])
    (universe_, Function.update s.2 mIx (some bits))
  | none => s

/-- The presence sets of one component, and the universe with their effects interned. -/
def closedFormUnion (settledDb : SummaryBundleBuilder) (pdFacts : List PdFact)
    (terminalEmissions : List TerminalEmission) (universe_ : GrowingEffectUniverse) :
    GrowingEffectUniverse × SccPresence :=
  let (universe_, terminalUnion) :=
    terminalUnionOf ctx members settledDb terminalEmissions universe_
  let (universe_, pdByMember) :=
    members.foldl (internMemberPd ctx pdFacts) (universe_, fun _ => none)
  (universe_, { terminalUnion, pdByMember })

end Union

/-! ## 5. Provenance -/

/-- `(solve index, effect id) → provenance`. -/
abbrev ViaMap := ℕ → ℕ → Option ViaRank

def ViaMap.insert (viaMap : ViaMap) (member id : ℕ) (via : ViaRank) : ViaMap :=
  Function.update viaMap member (Function.update (viaMap member) id (some via))

/-- Keep the higher provenance. -/
def mergeViaInto (viaMap : ViaMap) (member id : ℕ) (via : ViaRank) : ViaMap :=
  match viaMap member id with
  | some existing =>
    if via.toNat ≤ existing.toNat then viaMap.insert member id existing
    else viaMap.insert member id via
  | none => viaMap.insert member id via

/-- The ranks an effect is looked up in, highest first; `inherited` is the default. -/
def rankedVias : List ViaRank := [.direct, .implicitTrigger, .eventSubscriber, .dynamic]

section Via

variable (ctx : SolverInput) (members : List String)

/-- What one edge adds to the rank groups of its caller. -/
def foldEdgeVia (settledDb : SummaryBundleBuilder) (presence : SccPresence)
    (rankBits : ViaRank → Bits) (edge : CombinedEdge) : ViaRank → Bits :=
  let via := ViaRank.fromStr (viaForEdgeKind edge.kind)
  if via = .inherited then rankBits
  else if members.contains edge.to then
    Function.update rankBits via (orBits (rankBits via) presence.terminalUnion)
  else
    match ctx.interner.get edge.to with
    | some toIx =>
      if settledDb.hasRow toIx then
        Function.update rankBits via (orBits (rankBits via) (settledDb.terminalBits toIx))
      else rankBits
    | none => rankBits

/-- The rank groups of a member: its own effects are direct, an edge gives its target's terminal
effects its own rank. -/
def memberRankBits (settledDb : SummaryBundleBuilder) (universe_ : GrowingEffectUniverse)
    (presence : SccPresence) (m : String) : ViaRank → Bits :=
  let direct := (((ctx.baseSummaries m).map RoutineSummary.dbEffects).getD []).foldl
    (fun bits e =>
      match universe_.get e.identity with
      | some id => setBit bits id
      | none => bits) []
  (ctx.graph.outEdges m).foldl (foldEdgeVia ctx members settledDb presence)
    (Function.update (fun _ => []) .direct direct)

/-- The provenance of the members' own effects and of the terminal effects they inherit. -/
def reconstructVia (settledDb : SummaryBundleBuilder) (universe_ : GrowingEffectUniverse)
    (presence : SccPresence) : ViaMap :=
  members.foldl (fun viaMap m =>
    match ctx.interner.get m with
    | some mIx =>
      let rankBits := memberRankBits ctx members settledDb universe_ presence m
      (presence.memberPresentIds mIx).foldl (fun viaMap id =>
        match rankedVias.find? fun r => hasBit (rankBits r) id with
        | some via => viaMap.insert mIx id via
        | none => viaMap) viaMap
    | none => viaMap) fun _ _ => none

/-- The parameter-dependent effects an edge's target hands over. -/
def calleePd (settledDb : SummaryBundleBuilder) (universe_ : GrowingEffectUniverse)
    (presence : SccPresence) (edge : CombinedEdge) : List (BaseId × ℕ) :=
  let ids :=
    match ctx.interner.get edge.to with
    | some toIx =>
      if members.contains edge.to then ((presence.pdByMember toIx).map iterSetBits).getD []
      else if settledDb.hasRow toIx then settledDb.pdIds toIx else []
    | none => []
  ids.filterMap fun id =>
    match universe_.identity id with
    | some k =>
      match k.temp with
      | .parameterDependent i => some (k.base, i)
      | _ => none
    | none => none

/-- Give the images of parameter-dependent effects their edge's provenance. -/
def attributePdSubstitutedVia (settledDb : SummaryBundleBuilder)
    (universe_ : GrowingEffectUniverse) (presence : SccPresence) (viaMap : ViaMap) : ViaMap :=
  members.foldl (fun viaMap m =>
    match ctx.interner.get m, ctx.routinesById m with
    | some mIx, some callerRoutine =>
      (ctx.graph.outEdges m).foldl (fun viaMap edge =>
        let via := ViaRank.fromStr (viaForEdgeKind edge.kind)
        (calleePd ctx members settledDb universe_ presence edge).foldl (fun viaMap pd =>
          let outcome := substitutePdTempState edge pd.2 callerRoutine (ctx.routinesById edge.to)
          match universe_.get (effectOf pd.1 outcome.toKind) with
          | some pid =>
            if presence.memberPresent mIx pid then mergeViaInto viaMap mIx pid via else viaMap
          | none => viaMap) viaMap) viaMap
    | _, _ => viaMap) viaMap

end Via

/-! ## 6. Side facts -/

/-- The kinds that describe one call site and stay with its owner. -/
def isCallsiteLocalKind (kind : String) : Bool :=
  ["member-not-found", "external-target", "ambiguous-overload", "interface-open-world"].contains kind

/-- The uncertainties by key, in the order the keys came up. -/
abbrev SharedUncertainties := List (String × Uncertainty)

/-- Fold an uncertainty in under its key, the last write winning. -/
def foldShared (shared : SharedUncertainties) (u : Uncertainty) : SharedUncertainties :=
  if shared.any fun p => p.1 = uncertaintyKey u then
    shared.map fun p => if p.1 = uncertaintyKey u then (p.1, u) else p
  else shared ++ [(uncertaintyKey u, u)]

/-- Fold in an uncertainty that may leave its owner. -/
def foldPropagatable (shared : SharedUncertainties) (u : Uncertainty) : SharedUncertainties :=
  if isCallsiteLocalKind u.kind then shared else foldShared shared u

/-- Per member: the uncertainties, and whether a call is unresolved. -/
structure SideFacts where
  uncertainties : ℕ → Option (List Uncertainty)
  hasUnresolved : ℕ → Option Bool

/-- What one component's pass over its members collects: the member's own entries, the shared
ones, the member's and the component's unresolved flags. -/
structure SideFold where
  own : List Uncertainty
  shared : SharedUncertainties
  localHu : Bool
  sharedHu : Bool

section SideFacts

variable (ctx : SolverInput) (members : List String)

/-- Whether a call along the edge is opaque to its caller. -/
def opaqueEdge (edge : CombinedEdge) : Bool :=
  edge.kind = "interface" || edge.kind = "dynamic" || !(ctx.bodyAvailById edge.to).getD false

/-- An opaque call: an uncertainty at its call site, shared by the component. -/
def foldOpaque (acc : SideFold) (edge : CombinedEdge) : SideFold :=
  if opaqueEdge ctx edge then
    match edge.callsiteId with
    | some csId =>
      let u : Uncertainty := { kind := "opaque-callee", callsiteId := some csId }
      { acc with shared := foldShared acc.shared u, own := acc.own ++ [u], localHu := true }
    | none => { acc with localHu := true }
  else acc

/-- One out-edge: what a settled target passes on, then the opacity of the call.  A target that
is neither a member nor settled only leaves the call unresolved. -/
def foldSideEdge (settled : String → Option RoutineSummary) (acc : SideFold)
    (edge : CombinedEdge) : SideFold :=
  if members.contains edge.to then foldOpaque ctx acc edge
  else
    match settled edge.to with
    | none => { acc with localHu := true }
    | some callee =>
      foldOpaque ctx
        { acc with
          shared := callee.uncertainties.foldl foldPropagatable acc.shared
          sharedHu := acc.sharedHu || callee.hasUnresolvedCalls } edge

/-- One member: its base entries, its edges, its uncertainty edges. -/
def foldSideMember (settled : String → Option RoutineSummary)
    (acc : SharedUncertainties × Bool × (ℕ → Option (List Uncertainty))) (m : String) :
    SharedUncertainties × Bool × (ℕ → Option (List Uncertainty)) :=
  match ctx.baseOf m with
  | none => acc
  | some base =>
    let s : SideFold :=
      { own := base.uncertainties
        shared := base.uncertainties.foldl foldPropagatable acc.1
        localHu := base.hasUnresolvedCalls
        sharedHu := acc.2.1 }
    let s := (ctx.graph.outEdges m).foldl (foldSideEdge ctx members settled) s
    let edges := (ctx.uncertaintyEdgesByFrom m).filterMap fun i =>
      (ctx.graph.uncertaintyEdges[i]?).map UncertaintyEdge.uncertainty
    let shared := edges.foldl foldPropagatable s.shared
    let localHu := s.localHu || !(ctx.uncertaintyEdgesByFrom m).isEmpty
    (shared, s.sharedHu || localHu,
      match ctx.interner.get m with
      | some mIx => Function.update acc.2.2 mIx (some (s.own ++ edges))
      | none => acc.2.2)

/-- The uncertainties and the unresolved flag of every member. -/
def solveSideFacts (settled : String → Option RoutineSummary) : SideFacts :=
  let (shared, sharedHu, own) :=
    members.foldl (foldSideMember ctx members settled) ([], false, fun _ => none)
  members.foldl (fun side m =>
    match ctx.interner.get m with
    | some mIx =>
      { uncertainties := Function.update side.uncertainties mIx
          (some (dedupeUncertainties (shared.map Prod.snd ++ (own mIx).getD [])))
        hasUnresolved := Function.update side.hasUnresolved mIx (some sharedHu) }
    | none => side) { uncertainties := fun _ => none, hasUnresolved := fun _ => none }

end SideFacts

/-! ## 7. Solving a component -/

/-- What is threaded through the run: the interned effects and the rows. -/
structure SolveState where
  effects : GrowingEffectUniverse
  bundle : SummaryBundleBuilder

/-- Record one member's row: the shared terminal set, and its own parameter-dependent ids. -/
def materializeMemberRow (presence : SccPresence) (viaMap : ViaMap) (terminalSet : ℕ)
    (bundle : SummaryBundleBuilder) (memberIx : ℕ) : SummaryBundleBuilder :=
  let viaOf (id : ℕ) : ViaRank := (viaMap memberIx id).getD .inherited
  let pdDelta := ((presence.pdByMember memberIx).map iterSetBits).getD []
  bundle.pushRow memberIx terminalSet ((iterSetBits presence.terminalUnion).map viaOf) pdDelta
    (pdDelta.map viaOf)

/-- The side results of a solve, by routine. -/
abbrev SideResults := String → Option (List Uncertainty × Bool)

section Component

variable (ctx : SolverInput)

/-- The side facts by routine id. -/
def sideResults (members : List String) (side : SideFacts) : SideResults :=
  members.foldl (fun out m =>
    match ctx.interner.get m with
    | some mIx =>
      Function.update out m
        (some ((side.uncertainties mIx).getD [], (side.hasUnresolved mIx).getD false))
    | none => out) fun _ => none

/-- Solve one effective component: rows into the bundle, side facts as the answer. -/
def solveOneEffectiveScc (eff : Scc String) (settled : String → Option RoutineSummary)
    (s : SolveState) : Option (SolveState × SideResults) :=
  let members := eff.members
  (solvePdReachability ctx members s.bundle s.effects).map fun pd =>
    let (effects, presence) := closedFormUnion ctx members s.bundle pd.1 pd.2 s.effects
    let viaMap := reconstructVia ctx members s.bundle effects presence
    let viaMap := attributePdSubstitutedVia ctx members s.bundle effects presence viaMap
    let side := solveSideFacts ctx members settled
    let (bundle, terminalSet) := s.bundle.pushTerminalSet presence.terminalUnion
    let bundle := (members.filterMap ctx.interner.get).foldl
      (materializeMemberRow presence viaMap terminalSet) bundle
    ({ effects, bundle }, sideResults ctx members side)

/-- The settled view a later sibling reads: the side facts of the members just solved. -/
def settleSide (sccEntry : Scc String) (settled : String → Option RoutineSummary)
    (solved : SideResults) : String → Option RoutineSummary := fun id =>
  match solved id with
  | some (uncertainties, hasUnresolved) =>
    some
      { routineId := id, dbEffects := [], inRecursiveCycle := sccEntry.recursive,
        hasUnresolvedCalls := hasUnresolved, uncertainties, parameterRoles := [] }
  | none => settled id

/-- Solve the effective components of one Tarjan component in order, each result visible to the
next. -/
def solveEffectives (sccEntry : Scc String) : List (Scc String) →
    (String → Option RoutineSummary) → SolveState → Option (SolveState × SideResults)
  | [], _, s => some (s, fun _ => none)
  | eff :: effs, settled, s =>
    (solveOneEffectiveScc ctx eff settled s).bind fun r =>
      (solveEffectives sccEntry effs (settleSide sccEntry settled r.2) r.1).map fun rest =>
        (rest.1, fun id => (rest.2 id).or (r.2 id))

/-- Solve one Tarjan component. -/
def solveSccDbEffects (isRecomputed : String → Bool) (sccEntry : Scc String)
    (settled : String → Option RoutineSummary) (s : SolveState) :
    Option (SolveState × SideResults) :=
  solveEffectives ctx sccEntry (effectiveSccs sccEntry ctx.graph isRecomputed) settled s

end Component

/-! ## 8. Seeding rows -/

/-- One step of `seed_row`: intern, split by temp state, remember the provenance. -/
def seedEffect (acc : GrowingEffectUniverse × Bits × Bits × (ℕ → Option ViaRank))
    (e : EffectIdentity × ViaRank) :
    GrowingEffectUniverse × Bits × Bits × (ℕ → Option ViaRank) :=
  let (effects, eid) := acc.1.intern e.1
  let viaOf := Function.update acc.2.2.2 eid (some e.2)
  match e.1.temp with
  | .parameterDependent _ => (effects, acc.2.1, setBit acc.2.2.1 eid, viaOf)
  | _ => (effects, setBit acc.2.1 eid, acc.2.2.1, viaOf)

/-- Record a routine's row from its settled effects, each with its own provenance. -/
def seedRow (ix : ℕ) (effects : List (EffectIdentity × ViaRank)) (s : SolveState) : SolveState :=
  let (universe_, terminalBits, pdBits, viaOf) :=
    effects.foldl seedEffect (s.effects, [], [], fun _ => none)
  let viaLookup (eid : ℕ) : ViaRank := (viaOf eid).getD .inherited
  let (bundle, setRef) := s.bundle.pushTerminalSet terminalBits
  { effects := universe_
    bundle := bundle.pushRow ix setRef ((iterSetBits terminalBits).map viaLookup)
      (iterSetBits pdBits) ((iterSetBits pdBits).map viaLookup) }

/-- Record the row of every fixed leaf the interner knows. -/
def seedFixedLeafRows (interner : RoutineInterner) (leafSummaries : HashMap String RoutineSummary)
    (s : SolveState) : SolveState :=
  leafSummaries.entries.foldl (fun s e =>
    match interner.get e.1 with
    | some ix => seedRow ix (e.2.dbEffects.map fun d => (d.identity, ViaRank.fromStr d.via)) s
    | none => s) s

/-! ## 9. The run over the graph -/

/-- Solve the components in order.  `assemble` is the caller's: it enters a component's side
results into the settled map. -/
def solveDbEffects (ctx : SolverInput) (isRecomputed : String → Bool)
    (assemble : Scc String → SideResults → (String → Option RoutineSummary) →
      (String → Option RoutineSummary)) :
    List (Scc String) → (String → Option RoutineSummary) → SolveState → Option SolveState
  | [], _, s => some s
  | sccEntry :: sccs, settled, s =>
    (solveSccDbEffects ctx isRecomputed sccEntry settled s).bind fun r =>
      solveDbEffects ctx isRecomputed assemble sccs (assemble sccEntry r.2 settled) r.1

end AlSem.L4
