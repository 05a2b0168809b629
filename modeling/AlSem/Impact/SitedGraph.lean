/-
# The sited graph

`sited.rs`: the may-execute graph with one edge per site, as the reverse walks read it.  Of a node
and a site those fields stand here that a walk reads; the strings a node prints by, the anchors
and the configured-dispatch labels are left out.
-/
import AlSem.Lib.HashMap

namespace AlSem.Impact

/-! ## 1. Sites -/

/-- How sure an edge is, strongest first. -/
inductive Conf where
  | resolved
  | overApprox
  | «open»
  deriving DecidableEq, Repr

/-- What kind of execution a site enters. -/
inductive Boundary where
  | sync
  | run
  | background
  | eventDispatch
  | triggerOf (op : Option ℕ)
  | lifecycle
  | testHandler
  | testRunner
  | «open»
  deriving DecidableEq, Repr

/-- Every `via` the builder writes. -/
def vias : List String :=
  ["call", "interface", "run", "implicitTrigger", "eventFlow", "lifecycle", "testRunner",
    "testHandler", "declaredRunnable", "parseRecovered", "coverageMiss", "hubExpansion", "opaqueBody",
    "dynamic", "unresolved", "dispatchingBuiltin", "backgroundStart", "clientEvent", "tableEvent"]

/-- One edge the builder added.  On an event-flow site `guard` is what the subscriber exits on; on
a raising site, what the operation proves. -/
structure Site where
  «from» : ℕ
  «to» : ℕ
  conf : Conf
  viaIx : Fin vias.length
  boundary : Boundary
  guard : UInt8
  deriving DecidableEq

/-- A site's `via`. -/
def Site.via (st : Site) : String := vias.get st.viaIx

/-- The site is an open one. -/
def Site.isOpen (st : Site) : Bool := st.conf = .open

/-! ## 2. Nodes -/

namespace Flag

/-- The workspace app or an app loaded from local source. -/
def isLocal : UInt8 := 1
/-- A hub: an open site's bounded stand-in. -/
def hub : UInt8 := 2
/-- The universal hub, a caller of every node. -/
def universal : UInt8 := 4
/-- A routine carrying `[Test]`. -/
def test : UInt8 := 8
/-- Public access on an object that is not internal. -/
def extPublic : UInt8 := 16
/-- `protected`, on an object that is not internal. -/
def extProtected : UInt8 := 32
/-- Only the app's friends may call it from outside. -/
def extFriend : UInt8 := 64
/-- A node known by its symbol only. -/
def symbolOnly : UInt8 := 128

end Flag

/-- **The sited graph**: a site's id is its index, and every site's ends are nodes. -/
structure SitedGraph where
  nodeCount : ℕ
  sites : List Site
  flags : ℕ → UInt8
  rootKinds : ℕ → UInt16
  hidden : HashMap ℕ (List String)
  actionRunSites : List ℕ
  universalHub : Option ℕ
  from_lt : ∀ st ∈ sites, st.from < nodeCount
  to_lt : ∀ st ∈ sites, st.to < nodeCount
  hub_lt : ∀ u ∈ universalHub, u < nodeCount

namespace SitedGraph

variable (g : SitedGraph)

/-- The node has a flag. -/
def hasFlag (n : ℕ) (bit : UInt8) : Bool := g.flags n &&& bit != 0

/-- The sites into a node, ascending. -/
def sitesInto (n : ℕ) : List ℕ :=
  (List.range g.sites.length).filter fun j => (g.sites[j]?).any fun st => st.to = n

/-- A background site enters the node. -/
def isBackgroundTarget (n : ℕ) : Bool :=
  (g.sitesInto n).any fun j => (g.sites[j]?).any fun st => st.boundary = .background

/-- The site is a page action's `RunObject` run. -/
def isActionRun (site : ℕ) : Bool := g.actionRunSites.contains site

/-- The `hiddenCallers` flags of a node. -/
def hiddenCallers (n : ℕ) : List String := g.hidden.getList n

theorem mem_sitesInto {n site : ℕ} :
    site ∈ g.sitesInto n ↔ ∃ st, g.sites[site]? = some st ∧ st.to = n := by
  unfold sitesInto
  rw [List.mem_filter, List.mem_range]
  constructor
  · rintro ⟨hlt, hto⟩
    rw [List.getElem?_eq_getElem hlt] at hto
    exact ⟨_, List.getElem?_eq_getElem hlt, by simpa using hto⟩
  · rintro ⟨st, hst, hto⟩
    refine ⟨(List.getElem?_eq_some_iff.mp hst).1, ?_⟩
    rw [hst]
    simpa using hto

end SitedGraph

end AlSem.Impact
