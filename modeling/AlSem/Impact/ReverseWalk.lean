/-
# Reverse walks

`reverse.rs`: who reaches a routine.  A walk goes level by level over the reversed sites from one
root or many, keeps the shortest hop count of every state, and hands each state to its visitor
when it is first reached.  Visited states are bits of one word per node, with a hash set for the
states that do not fit; the scratch that holds them is cleared at the next walk's start.

A visitor is known by what it answers: `step` may look at every call the walk has made so far.
-/
import AlSem.Lib.Loop
import AlSem.Lib.Ranking
import AlSem.Impact.SitedGraph

namespace AlSem.Impact

/-! ## 1. States -/

/-- How a path reaches a state, best first. -/
inductive Tier where
  | «local»
  | throughDependency
  | onlyOpen
  deriving DecidableEq, Repr

/-- The discriminant of a tier. -/
def Tier.rank : Tier → ℕ
  | .local => 0
  | .throughDependency => 1
  | .onlyOpen => 2

/-- The worse of two tiers. -/
def Tier.max (a b : Tier) : Tier := if a.rank ≤ b.rank then b else a

/-- One state of a walk: `ext` is the consumer's bits, `guard` the walk's own table-event bits. -/
structure WalkState where
  node : ℕ
  tier : Tier
  crossedEvent : Bool
  ext : UInt8
  guard : UInt8
  deriving DecidableEq

/-- States in the order of their fields. -/
def stateCmp : WalkState → WalkState → Ordering :=
  compareLex (compareOn WalkState.node) <| compareLex (compareOn fun s => s.tier.rank) <|
    compareLex (compareOn WalkState.crossedEvent) <|
      compareLex (compareOn fun s => s.ext.toNat) (compareOn fun s => s.guard.toNat)

/-- How a state was first reached. -/
inductive Via where
  | root (i : ℕ)
  | site (site : ℕ)
  | universal
  deriving DecidableEq, Repr

/-- A way a node may run that no site shows. -/
inductive HiddenChannel where
  | universal
  | flag (name : String)
  deriving DecidableEq, Repr

/-- What a source declares as a way to start a run, in print order. -/
inductive EntryKind where
  | pageAction
  | apiPage
  | webServiceExposed
  | jobQueueEntrypoint
  | backgroundStart
  | reportTrigger
  | triggerPage
  | triggerTable
  | eventSubscriber
  | installCodeunit
  | upgradeCodeunit
  | onrunCodeunit
  | testProcedure
  deriving DecidableEq, Repr

namespace EntryKind

/-- Every kind, in print order. -/
def all : List EntryKind :=
  [.pageAction, .apiPage, .webServiceExposed, .jobQueueEntrypoint, .backgroundStart, .reportTrigger,
    .triggerPage, .triggerTable, .eventSubscriber, .installCodeunit, .upgradeCodeunit, .onrunCodeunit,
    .testProcedure]

/-- A kind's name. -/
def asStr : EntryKind → String
  | .pageAction => "page-action"
  | .apiPage => "api-page"
  | .webServiceExposed => "web-service-exposed"
  | .jobQueueEntrypoint => "job-queue-entrypoint"
  | .backgroundStart => "background-start"
  | .reportTrigger => "report-trigger"
  | .triggerPage => "trigger-page"
  | .triggerTable => "trigger-table"
  | .eventSubscriber => "event-subscriber"
  | .installCodeunit => "install-codeunit"
  | .upgradeCodeunit => "upgrade-codeunit"
  | .onrunCodeunit => "onrun-codeunit"
  | .testProcedure => "test-procedure"

/-- The root kinds, a mask's bits low to high. -/
def rootKindValues : List String :=
  ["trigger-table", "trigger-page", "page-action", "report-trigger", "event-subscriber",
    "install-codeunit", "upgrade-codeunit", "api-page", "web-service-exposed",
    "job-queue-entrypoint", "public-procedure", "test-procedure", "onrun-codeunit"]

/-- The names of a root-kind mask. -/
def rootKindsOfMask (mask : UInt16) : List String :=
  (rootKindValues.zipIdx.filter fun k => mask.toNat.testBit k.2).map Prod.fst

/-- The entry kinds of a root-kind mask, in print order; a public procedure is none. -/
def ofRootKinds (mask : UInt16) : List EntryKind :=
  all.filter fun k => (rootKindsOfMask mask).contains k.asStr

/-- Sorted, each once. -/
def sorted (kinds : List EntryKind) : List EntryKind := all.filter fun k => kinds.contains k

end EntryKind

/-- Why apps outside the program may call a node. -/
inductive ExternalWhy where
  | «public»
  | «protected»
  | friend
  deriving DecidableEq, Repr

/-- A cap that stopped a walk. -/
inductive Limit where
  | stateBudget (n : ℕ)
  | cancelled
  deriving DecidableEq, Repr

/-- A call of the visitor. -/
inductive Call where
  | reach (root : ℕ) (s : WalkState) (hops : ℕ) (via : Via) (source : Option WalkState)
  | hidden (root n : ℕ) (channel : HiddenChannel)
  | entry (root n : ℕ) (kinds : List EntryKind) (s : WalkState) (hops : ℕ)
  | external (root n : ℕ) (why : ExternalWhy) (s : WalkState) (hops : ℕ)
  | source (root : ℕ) (s : WalkState) (hops : ℕ)
  | limit (l : Limit)
  | step (s : WalkState) (site : ℕ)
  deriving DecidableEq

/-- **A visitor**: what it answers to a `step`, the calls before given. -/
abbrev ConeVisitor := List Call → WalkState → ℕ → Option UInt8

/-- How a walk runs.  `cancel` answers the poll, the calls before given. -/
structure WalkOptions where
  followOpen : Bool
  assumeNoDependents : Bool
  stateBudget : ℕ
  cancel : Option (List Call → Bool)
  extraEntries : Option (HashMap ℕ UInt16)

/-- What the dense visited set holds of the consumer bits: `ext` below it. -/
def denseExt : ℕ := 8

/-- How often the cancellation is polled. -/
def cancelEvery : ℕ := 4096

/-- What a walk did. -/
structure WalkStats where
  states : ℕ
  maxHops : ℕ
  limited : Bool
  deriving DecidableEq, Repr

/-! ## 2. The scratch -/

/-- A queued state: its root, the state it was reached from, and how. -/
structure Queued where
  root : ℕ
  state : WalkState
  source : Option WalkState
  via : Via
  deriving DecidableEq

/-- The visited states and the level queues. -/
structure WalkScratch where
  seen : List (BitVec 64) := []
  seenExt : List WalkState := []
  touched : List ℕ := []
  actionEntries : List WalkState := []
  hiddenDone : List ℕ := []
  level : List Queued := []
  next : List Queued := []

/-- The bit of a dense state in its node's word. -/
def denseBit (s : WalkState) : ℕ := (s.ext.toNat * 3 + s.tier.rank) * 2 + s.crossedEvent.toNat

/-- The state has a bit in its node's word. -/
def WalkState.isDense (s : WalkState) : Bool := s.ext.toNat < denseExt && s.guard == 0

namespace WalkScratch

/-- Clear the words that are set; a graph of another size gets new ones. -/
def reset (sc : WalkScratch) (nodes : ℕ) : WalkScratch where
  seen :=
    if sc.seen.length ≠ nodes then List.replicate nodes 0
    else sc.touched.foldl (fun seen n => seen.set n 0) sc.seen

/-- Mark a state visited; `false` when it already was. -/
def insert (sc : WalkScratch) (s : WalkState) : WalkScratch × Bool :=
  if s.isDense then
    let bit := BitVec.twoPow 64 (denseBit s)
    let slot := sc.seen.getD s.node 0
    if slot &&& bit ≠ 0 then (sc, false)
    else
      let touched := if slot = 0 then sc.touched ++ [s.node] else sc.touched
      ({ sc with touched, seen := sc.seen.set s.node (slot ||| bit) }, true)
  else if sc.seenExt.contains s then (sc, false)
  else ({ sc with seenExt := s :: sc.seenExt }, true)

end WalkScratch

/-! ## 3. Crossing a site backwards -/

namespace SitedGraph

variable (g : SitedGraph)

/-- The tier of a path that reaches a node over a site from a path of a tier. -/
def tierAt (node : ℕ) (tier : Tier) (isOpen : Bool) : Tier :=
  tier.max <|
    if isOpen || g.hasFlag node Flag.hub then .onlyOpen
    else if !g.hasFlag node Flag.isLocal then .throughDependency
    else .local

/-- The state a root starts in. -/
def rootState (r : ℕ) : WalkState :=
  { node := r, tier := g.tierAt r .local false, crossedEvent := false, ext := 0, guard := 0 }

/-- The guard behind a site: an event flow carries its own; a raising site that proves the state's
guard is not crossed. -/
def guardOver (s : WalkState) (st : Site) : Option UInt8 :=
  match st.via with
  | "eventFlow" => some st.guard
  | _ => if s.guard &&& st.guard != 0 then none else some 0

/-- The state behind a site. -/
def behind (s : WalkState) (st : Site) (ext guard : UInt8) : WalkState :=
  { node := st.from, tier := g.tierAt st.from s.tier st.isOpen
    crossedEvent := s.crossedEvent || decide (st.boundary = .eventDispatch), ext, guard }

/-- The root kinds of a node, the overlay's among them. -/
def entryKinds (opts : WalkOptions) (n : ℕ) : List EntryKind :=
  let kinds := EntryKind.ofRootKinds
    (g.rootKinds n ||| (opts.extraEntries.bind fun m => m.lookup n).getD 0)
  if g.isBackgroundTarget n then EntryKind.sorted (kinds ++ [.backgroundStart]) else kinds

end SitedGraph

/-- The state of the universal hub. -/
def hubState (u : ℕ) : WalkState :=
  { node := u, tier := .onlyOpen, crossedEvent := false, ext := 0, guard := 0 }

/-! ## 4. The walk -/

/-- A walk under way. -/
structure WalkRun where
  scratch : WalkScratch
  stats : WalkStats
  hops : ℕ
  calls : List Call

section Walk

variable (g : SitedGraph) (opts : WalkOptions) (v : ConeVisitor)

/-- The reports of a node no site shows: once per node. -/
def hiddenCalls (root n : ℕ) : List Call :=
  (if g.hasFlag n Flag.universal then [.hidden root n .universal] else []) ++
    (g.hiddenCallers n).map fun ch => .hidden root n (.flag ch)

/-- The flags of external callers, in report order. -/
def externalFlags : List (UInt8 × ExternalWhy) :=
  [(Flag.extPublic, .public), (Flag.extProtected, .protected), (Flag.extFriend, .friend)]

/-- The reports of a state behind its `reach` and its node's hidden channels. -/
def stateCalls (q : Queued) (hops : ℕ) : List Call :=
  let n := q.state.node
  let kinds := g.entryKinds opts n
  (if kinds.isEmpty then [] else [.entry q.root n kinds q.state hops]) ++
    (if opts.assumeNoDependents then []
      else (externalFlags.filter fun f => g.hasFlag n f.1).map fun f =>
        .external q.root n f.2 q.state hops) ++
    if (g.sitesInto n).isEmpty && !g.hasFlag n Flag.universal then [.source q.root q.state hops]
    else []

/-- The per-state reports of one state. -/
def report (q : Queued) (w : WalkRun) : WalkRun :=
  let n := q.state.node
  let isNew := !w.scratch.hiddenDone.contains n
  { w with
    scratch := { w.scratch with
      hiddenDone := if isNew then n :: w.scratch.hiddenDone else w.scratch.hiddenDone }
    calls := w.calls ++ .reach q.root q.state w.hops q.via q.source ::
      ((if isNew then hiddenCalls g q.root n else []) ++ stateCalls g opts q w.hops) }

/-- A page action's run makes the page an entry, once per state. -/
def reportAction (q : Queued) (site : ℕ) (n : WalkState) (w : WalkRun) : WalkRun :=
  if g.isActionRun site && !w.scratch.actionEntries.contains n then
    { w with
      scratch := { w.scratch with actionEntries := n :: w.scratch.actionEntries }
      calls := w.calls ++ [.entry q.root n.node [.pageAction] n (w.hops + 1)] }
  else w

/-- Queue a state for the next level unless it was visited. -/
def enqueue (q : Queued) (w : WalkRun) : WalkRun :=
  match w.scratch.insert q.state with
  | (sc, true) => { w with scratch := { sc with next := sc.next ++ [q] } }
  | (sc, false) => { w with scratch := sc }

/-- Cross one site backwards out of a state. -/
def crossSite (q : Queued) (w : WalkRun) (site : ℕ) : WalkRun :=
  match g.sites[site]? with
  | none => w
  | some st =>
    if st.isOpen && !opts.followOpen then w
    else
      match SitedGraph.guardOver q.state st with
      | none => w
      | some guard =>
        let answer := v w.calls q.state site
        let w := { w with calls := w.calls ++ [.step q.state site] }
        match answer with
        | none => w
        | some ext =>
          let n := g.behind q.state st ext guard
          enqueue ⟨q.root, n, some q.state, .site site⟩ (reportAction g q site n w)

/-- Stop the walk. -/
def stopWith (l : Limit) (states : ℕ) (w : WalkRun) : WalkRun :=
  { w with calls := w.calls ++ [.limit l], stats := { w.stats with states, limited := true } }

/-- Visit one state of a level: the budget, the poll, the reports, the sites. -/
def visit (q : Queued) (w : WalkRun) : WalkRun :=
  if w.stats.states ≥ opts.stateBudget then stopWith (.stateBudget opts.stateBudget) w.stats.states w
  else
    let states := w.stats.states + 1
    if states % cancelEvery = 0 && opts.cancel.any fun c => c w.calls then stopWith .cancelled states w
    else
      (g.sitesInto q.state.node).foldl (crossSite g opts v q)
        (report g opts q { w with stats := { w.stats with states, maxHops := w.hops } })

/-- Visit the states of a level until a cap fires. -/
def expand : List Queued → WalkRun → WalkRun
  | [], w => w
  | q :: qs, w =>
    let w := visit g opts v q w
    if w.stats.limited then w else expand qs w

/-- The level in `(root label, state)` order. -/
def sortLevel (level : List Queued) : List Queued :=
  level.mergeSort fun a b =>
    (compareLex (compareOn Queued.root) (fun a b => stateCmp a.state b.state) a b).isLE

/-- Queue the universal hub, one hop from every root. -/
def seedHub (universal : Option ℕ) (w : WalkRun) : WalkRun :=
  match universal with
  | none => w
  | some u => enqueue ⟨0, hubState u, none, .universal⟩ w

/-- One turn of the loop: the whole level, then the next one takes its place. -/
def turn (universal : Option ℕ) (w : WalkRun) : Option WalkRun :=
  if w.stats.limited || w.scratch.level.isEmpty then none
  else
    let level := sortLevel w.scratch.level
    let w := expand g opts v level { w with scratch := { w.scratch with level := [] } }
    if w.stats.limited then some { w with scratch := { w.scratch with level } }
    else
      let w := if w.hops = 0 then seedHub universal w else w
      some { w with
        scratch := { w.scratch with level := w.scratch.next, next := [] }
        hops := w.hops + 1 }

/-- Queue root number `i`. -/
def seedRoot (sc : WalkScratch) (r : ℕ × ℕ) : WalkScratch :=
  match sc.insert (g.rootState r.1) with
  | (sc, true) => { sc with level := sc.level ++ [⟨r.2, g.rootState r.1, none, .root r.2⟩] }
  | (sc, false) => sc

/-- Before the first level. -/
def start (roots : List ℕ) (scratch : WalkScratch) : WalkRun where
  scratch := roots.zipIdx.foldl (seedRoot g) (scratch.reset g.nodeCount)
  stats := { states := 0, maxHops := 0, limited := false }
  hops := 0
  calls := []

/-- The universal hub, when the walk follows it. -/
def universal (roots : List ℕ) : Option ℕ :=
  g.universalHub.filter fun u => opts.followOpen && !(g.sitesInto u).isEmpty && !roots.isEmpty

/-- More turns than there are states: three tiers, two values of the flag, and two bytes. -/
def fuel : ℕ := g.nodeCount * (3 * 2 * 256 * 256) + 2

/-- **`walk_multi`**: one breadth-first walk from every root at once. -/
def walkMulti (roots : List ℕ) (scratch : WalkScratch) : Option WalkRun :=
  Loop.run (turn g opts v (universal g opts roots)) (fuel g) (start g roots scratch)

/-- `walk_one`: the walk of one root. -/
def walkOne (root : ℕ) (scratch : WalkScratch) : Option WalkRun := walkMulti g opts v [root] scratch

end Walk

end AlSem.Impact
