/-
# Transaction spans: the members

`backward_cone` of `l5/transaction_spans.rs`: the routines a Commit's transaction may have been entered
through, found backward over the reverse call graph.  A routine is reached with what its parameters must
be for the Commit to run; reached again with other requirements it keeps none.

The caches of guard frames and of `closes_span` are left out: each holds what the function under it
computes.  What a span aggregates over its members is not part of this.
-/
import AlSem.L4.GuardFrame
import AlSem.L5.PendingWrites
import AlSem.L5.ReverseCallGraph
import AlSem.Lib.Weakening

namespace AlSem.L5

open AlSem.Model AlSem.L4

/-! ## 1. The inputs -/

/-- What the walk of the members reads. -/
structure SpanInputs where
  commitsByRoutine : HashMap String (List String)
  reverse : ReverseCallGraph
  routineById : HashMap String RoutineBody

/-- The site of an edge: its call site, or the operation of an implicit trigger. -/
def edgeSite (e : CombinedEdge) : Option String := e.callsiteId.or e.operationId

/-- Each caller's out-edges, the site and the callee. -/
abbrev ForwardSites := HashMap String (List (Option String × String))

/-- `forward_sites`. -/
def forwardSites (reverse : ReverseCallGraph) : ForwardSites :=
  (reverse.entries.flatMap fun en => en.2.map fun e => (e, en.1)).foldl
    (fun m p => HashMap.push m p.1.from (edgeSite p.1, p.2)) ∅

namespace SpanInputs

variable (inputs : SpanInputs)

/-- The routines a call site of `r` reaches. -/
def calleesAt (r csId : String) : List String :=
  (((forwardSites inputs.reverse).getList r).filter fun p => p.1 == some csId).map Prod.snd

/-- The name a call site calls by, folded. -/
def calleeName (r : RoutineBody) (csId : String) : String :=
  ((r.callSites.find? fun c => c.id == csId).map fun c =>
    match c.callee with
    | .bare name => Text.toAsciiLowercase name
    | .member _ method => Text.toAsciiLowercase method
    | _ => "").getD ""

/-- The predicate of `frame_guards_over`: every callee takes the argument by value.  Of what a call
reaches nothing by, `Evaluate` and `Clear` write their argument. -/
def passesByValue (r : RoutineBody) (csId : String) (arg : ℕ) : Bool :=
  let targets := inputs.calleesAt r.id csId
  if targets.isEmpty then !(calleeName r csId == "evaluate" || calleeName r csId == "clear")
  else targets.all fun target =>
    ((inputs.routineById.lookup target).bind fun callee =>
      callee.parameters.find? fun p => p.index == arg).any fun p => !p.isVar

/-- `frame_guards_over`. -/
def frameGuardsOver (r : RoutineBody) : Option FrameGuards := frameGuards r (inputs.passesByValue r)

/-! ## 2. A call toward the Commit -/

/-- `closes_span`: the call is reached only after a Commit of the caller's own.  Where the order is not
known any Commit of the caller counts. -/
def closesSpan (caller : String) (site : Option String) : Bool :=
  if (inputs.commitsByRoutine.lookup caller).isNone then false
  else
    match inputs.routineById.lookup caller, site with
    | some r, some site =>
      let before := PendingWrites.sitesBefore r [site] false
      before.all || before.committed
    | _, _ => true

/-- The call site of an edge, in the caller's row. -/
def callSiteOf (e : CombinedEdge) : Option PCallSite :=
  e.callsiteId.bind fun csId =>
    (inputs.routineById.lookup e.from).bind fun r => r.callSites.find? fun c => c.id == csId

/-- A checked run of the callee. -/
def isCheckedEdge (callee : String) (e : CombinedEdge) : Bool :=
  (inputs.callSiteOf e).any fun cs =>
    PendingWrites.isCheckedRun cs ((inputs.routineById.lookup callee).map RoutineBody.toModelRoutine)

/-- The guard frame of an edge's caller. -/
def frameOf (e : CombinedEdge) : Option FrameGuards :=
  (inputs.routineById.lookup e.from).bind inputs.frameGuardsOver

/-- What the site of an edge requires of its caller. -/
def edgeReqs (e : CombinedEdge) : List Req :=
  match inputs.frameOf e, e.callsiteId with
  | some f, some csId => f.site csId
  | _, _ => []

/-- The requirements of a callee in the caller's frame, with those of the call's own site; `none` when
they contradict. -/
def carryEdge (reqs : List Req) (e : CombinedEdge) : Option (List Req) :=
  let across := match inputs.callSiteOf e with
    | some cs => acrossEdge reqs cs (inputs.frameOf e)
    | none => some []
  across.bind fun a => conjoin a (inputs.edgeReqs e)

/-! ## 3. The members -/

/-- No span reaches back over more calls than these. -/
def maxDepth : ℕ := 50

/-- **The walk toward the callers**, as a search with labels: the requirements, weakest when there are
none.  A checked run is no call of this transaction. -/
def spanSystem : Weakening.System String CombinedEdge (List Req) where
  callers := callersOf inputs.reverse
  source := CombinedEdge.from
  carry callee reqs e := if inputs.isCheckedEdge callee e then none else inputs.carryEdge reqs e
  closed e := inputs.closesSpan e.from (edgeSite e)
  weak := []
  depth := maxDepth

/-- **`backward_cone`**: the members, `none` when the fuel runs out.  With `seedOpen` false the
transaction starts in the seed. -/
def backwardCone (fuel : ℕ) (seed : String) (seedReqs : List Req) (seedOpen : Bool) :
    Option (Finset String) :=
  if !seedOpen then some {seed}
  else (Weakening.run inputs.spanSystem fuel seed seedReqs).map fun s => s.reached.keys.toFinset

end SpanInputs

end AlSem.L5
