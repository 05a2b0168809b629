/-
# Test selection

`test_select/select.rs`: the changed roots are looked up in a test universe's sited graph and
walked backwards; the tests the walk reaches are ranked, and each root gets its status.  Up to
`perRootWalks` roots have a walk of their own; with more, a root's tests are those labelled with it
by the walk of every root, and a root without one has a walk that stops at a test.

Paths, the sameness of dependency tests, probes and what is only printed are left out.
-/
import Mathlib.Data.Finset.Insert
import Mathlib.Data.Prod.Lex
import AlSem.Impact.ReverseWalk
import Mathlib.Algebra.Group.Int.Defs

namespace AlSem.TestSelect

open Impact

/-! ## 1. The universe -/

/-- **A test universe's graph**, with what the selection reads of a node's names.  The node flagged
universal is the universal hub. -/
structure TestUniverse extends SitedGraph where
  nodesWithStableId : String → List ℕ
  display : ℕ → String
  objectNumber : ℕ → Option ℤ
  isPlatformPublisher : ℕ → Bool
  stable_lt : ∀ id, ∀ n ∈ nodesWithStableId id, n < nodeCount
  universal_iff : ∀ n < nodeCount, toSitedGraph.hasFlag n Flag.universal = true ↔
    universalHub = some n

namespace TestUniverse

variable (u : TestUniverse)

/-- The nodes of a root that have a body. -/
def loaded (id : String) : List ℕ :=
  (u.nodesWithStableId id).filter fun n => !u.hasFlag n Flag.symbolOnly

/-- A hidden channel's class, whether it is selection-relevant, and why. -/
def hiddenClass (n : ℕ) (ch : String) : String × Bool × String :=
  match ch with
  | "unraisedPublisher" =>
    if u.isPlatformPublisher n then
      ("platform-table-event", true,
        "a platform-raised table event no record operation in the graph raises: its table's writes are outside the loaded code, so it is not shown covered")
    else
      ("unraised-publisher", true,
        "a publisher no site raises: its raiser may be a test no edge shows")
  | "unboundSubscriber" =>
    ("unbound-subscriber", true,
      "a subscriber no event edge reaches: its publisher may be raised by a test")
  | "unmodeledRecordTrigger" =>
    ("unmodeled-record-trigger", true,
      "a record trigger no operation site is modelled for")
  | _ => ("other", true, "a way to run no site shows")

/-- Every channel can add a caller that no edge shows. -/
theorem hiddenClass_relevant (n : ℕ) (ch : String) : (u.hiddenClass n ch).2.1 = true := by
  unfold hiddenClass
  split
  · split <;> rfl
  all_goals rfl

end TestUniverse

/-! ## 2. The visitor -/

/-- A test's best state: its tier, its hops and the label of the root it was reached from. -/
structure Hit where
  tier : Tier
  hops : ℕ
  state : WalkState
  root : ℕ
  deriving DecidableEq

/-- Tiers and hop counts, best first. -/
def tierHops (p : Tier × ℕ) : ℕ ×ₗ ℕ := toLex (p.1.rank, p.2)

/-- The rank of a hit. -/
def Hit.tierHops (h : Hit) : ℕ ×ₗ ℕ := TestSelect.tierHops (h.tier, h.hops)

/-- **What the visitor keeps**: every node's best tier, the hidden nodes, every test's best state.
One of a status walk stops the walk at a test, and the cap is then not a limit. -/
structure Sel where
  best : HashMap ℕ (Tier × ℕ) := ∅
  hidden : HashMap ℕ (Finset String) := ∅
  universal : Bool := false
  tests : HashMap ℕ Hit := ∅
  limited : Bool := false
  stopAtTest : Bool
  foundTest : Bool := false

section Visitor

variable (u : TestUniverse)

/-- A state, the first time it is reached. -/
def Sel.reach (sel : Sel) (root : ℕ) (s : WalkState) (hops : ℕ) : Sel :=
  let best := HashMap.improve tierHops sel.best s.node (s.tier, hops)
  if u.hasFlag s.node Flag.test then
    { sel with
      best
      foundTest := true
      tests := HashMap.improve Hit.tierHops sel.tests s.node ⟨s.tier, hops, s, root⟩ }
  else { sel with best }

/-- A node with a way to run that no site shows. -/
def Sel.hide (sel : Sel) (n : ℕ) (ch : HiddenChannel) : Sel :=
  match ch with
  | .universal => { sel with universal := true }
  | .flag f => { sel with hidden := sel.hidden.insert n (insert f ((sel.hidden.lookup n).getD ∅)) }

/-- A cap fired. -/
def Sel.limit (sel : Sel) (l : Limit) : Sel :=
  let ours := sel.stopAtTest && sel.foundTest && l == .cancelled
  if !ours then { sel with limited := true } else sel

/-- One call of the walk. -/
def Sel.call (sel : Sel) (c : Call) : Sel :=
  match c with
  | .reach root s hops _ _ => sel.reach u root s hops
  | .hidden _ n ch => sel.hide n ch
  | .limit l => sel.limit l
  | _ => sel

/-- The visitor after a walk's calls. -/
def selOf (stopAtTest : Bool) (calls : List Call) : Sel :=
  calls.foldl (Sel.call u) { stopAtTest }

/-- A test cannot raise a control add-in's event. -/
def testStep (s : WalkState) (site : ℕ) : Option UInt8 :=
  match u.sites[site]? with
  | some st => if st.via ≠ "clientEvent" then some s.ext else none
  | none => none

/-- The cone holds the universal hub, or a selection-relevant hidden channel in its resolved
part. -/
def Sel.relevantHidden (sel : Sel) : Bool :=
  sel.universal ||
    sel.hidden.entries.any fun e =>
      ((sel.best.lookup e.1).any fun b => b.1.rank ≤ Tier.throughDependency.rank) &&
        decide (∃ c ∈ e.2, (u.hiddenClass e.1 c).2.1 = true)

/-- How the walks run. -/
def selectOptions : WalkOptions where
  followOpen := true
  assumeNoDependents := true
  stateBudget := 2000000
  cancel := none
  extraEntries := none

/-- How a status walk runs: it stops once a test is reached. -/
def statusOptions : WalkOptions :=
  { selectOptions with cancel := some fun calls => (selOf u true calls).foundTest }

/-- One walk: what the visitor keeps of it, and what it did. -/
def walkSel (opts : WalkOptions) (stopAtTest : Bool) (roots : List ℕ) : Option (Sel × WalkStats) :=
  (walkMulti u.toSitedGraph opts (fun _ => testStep u) roots {}).map fun w =>
    (selOf u stopAtTest w.calls, w.stats)

end Visitor

/-! ## 3. The selection -/

/-- A root's status. -/
inductive RootStatus where
  | reached
  | noKnownPath
  | analysisIncomplete
  | notInProjection
  | notLoaded
  deriving DecidableEq, Repr

/-- How many tests of each tier. -/
structure TierCounts where
  «local» : ℕ
  throughDependency : ℕ
  onlyOpen : ℕ
  deriving DecidableEq, Repr

/-- A root's answer; `own` is the walk of its own its status was read from. -/
structure RootAnswer where
  stableId : String
  status : RootStatus
  nodes : ℕ
  tests : TierCounts
  nearest : Option (String × Tier × ℕ)
  own : Option Sel

/-- **The selection**: the roots' answers in their order, the ranked tests, each with the index of
the root it was labelled with, and the walk of every root. -/
structure Selection where
  roots : List RootAnswer
  tests : List (ℕ × Hit)
  byTier : TierCounts
  sel : Sel
  limited : Bool

/-- Up to this many roots each has a walk of its own. -/
def perRootWalks : ℕ := 32

/-- What an object without a number sorts as: `i64::MAX`. -/
def noNumber : ℤ := 2 ^ 63 - 1

/-- The tests of each tier. -/
def countTiers (tests : List (ℕ × Hit)) : TierCounts :=
  let count (t : Tier) : ℕ := (tests.filter fun x => x.2.tier = t).length
  { «local» := count .local, throughDependency := count .throughDependency
    onlyOpen := count .onlyOpen }

section Select

variable (u : TestUniverse)

/-- Tests in print order: tier, hops, object number, name. -/
def testCmp : ℕ × Hit → ℕ × Hit → Ordering :=
  compareLex (compareOn fun t => t.2.tier.rank) <| compareLex (compareOn fun t => t.2.hops) <|
    compareLex (compareOn fun t => (u.objectNumber t.1).getD noNumber)
      (compareOn fun t => u.display t.1)

/-- The tests of a map in print order. -/
def rankTests (tests : HashMap ℕ Hit) (label : ℕ → ℕ) : List (ℕ × Hit) :=
  (tests.entries.map fun e => (e.1, { e.2 with root := label e.2.root })).mergeSort fun a b =>
    (testCmp u a b).isLE

/-- A root with loaded nodes, as answered. -/
def answer (id : String) (nodes : List ℕ) (status : RootStatus) (mine : List (ℕ × Hit))
    (own : Option Sel) : RootAnswer where
  stableId := id
  status := status
  nodes := nodes.length
  tests := countTiers mine
  nearest := mine.head?.map fun t => (u.display t.1, t.2.tier, t.2.hops)
  own := own

/-- A root with a walk of its own. -/
def answerFew (id : String) (nodes : List ℕ) : Option RootAnswer :=
  (walkSel u selectOptions false nodes).map fun (own, _) =>
    let mine := rankTests u own.tests fun l => l
    let status :=
      if !mine.isEmpty then .reached
      else if own.limited || own.relevantHidden u then .analysisIncomplete
      else .noKnownPath
    answer u id nodes status mine (some own)

/-- A root among many: its labelled tests, or else a walk that stops at a test. -/
def answerMany (id : String) (nodes : List ℕ) (mine : List (ℕ × Hit)) (limited : Bool) :
    Option RootAnswer :=
  if !mine.isEmpty then some (answer u id nodes .reached mine none)
  else
    (walkSel u (statusOptions u) true nodes).map fun (own, _) =>
      let status :=
        if own.foundTest then .reached
        else if own.limited || limited || own.relevantHidden u then .analysisIncomplete
        else .noKnownPath
      answer u id nodes status mine (some own)

/-- Root number `i`. -/
def answerRoot (few : Bool) (tests : List (ℕ × Hit)) (limited : Bool) (root : String × ℕ) :
    Option RootAnswer :=
  let nodes := u.loaded root.1
  if nodes.isEmpty then
    some
      { stableId := root.1
        status := if (u.nodesWithStableId root.1).isEmpty then .notInProjection else .notLoaded
        nodes := 0
        tests := ⟨0, 0, 0⟩
        nearest := none
        own := none }
  else if few then answerFew u root.1 nodes
  else answerMany u root.1 nodes (tests.filter fun t => t.2.root = root.2) limited

/-- The walk's roots: each loaded node with the index of its root. -/
def walkRoots (roots : List String) : List (ℕ × ℕ) :=
  roots.zipIdx.flatMap fun root => (u.loaded root.1).map fun n => (n, root.2)

/-- **`select`**, with the number of roots up to which each has its own walk. -/
def selectWith (few : ℕ) (roots : List String) : Option Selection := do
  let labelled := walkRoots u roots
  let (sel, stats) ← walkSel u selectOptions false (labelled.map Prod.fst)
  let tests := rankTests u sel.tests fun l => (labelled.map Prod.snd).getD l 0
  let answers ← roots.zipIdx.mapM (answerRoot u (roots.length ≤ few) tests stats.limited)
  some { roots := answers, tests, byTier := countTiers tests, sel, limited := stats.limited }

/-- `select`. -/
def select (roots : List String) : Option Selection := selectWith u perRootWalks roots

end Select

end AlSem.TestSelect
