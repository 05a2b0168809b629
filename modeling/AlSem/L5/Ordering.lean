/-
# Happens-before in one routine

`l5/ordering.rs`: the predicates on two operations of one routine, read off their order ids and frame
chains, and the happens-before test on demand, which answers what the materialized edge list says.
-/
import AlSem.Body.OperationOrder

namespace AlSem.L5

open AlSem.Body

/-! ## 1. Operations with their order -/

/-- An operation occurrence with its order data; the frame chain is root first. -/
structure OrderedOp where
  occurrenceId : String
  orderId : ℕ
  onSuccessPath : Bool
  frameChain : List ScopeFrame
  dominatesSuccessReturn : Bool
  deriving DecidableEq, Repr

inductive Quantifier where
  | mustAllPaths
  | maySomePath
  deriving DecidableEq, Repr

/-- A directed happens-before edge. -/
structure HBEdge where
  source : String
  target : String
  quantifier : Quantifier
  coverage : String
  deriving DecidableEq, Repr

/-! ## 2. The predicates -/

def isSelectorKind (kind : String) : Bool :=
  kind == "if-then" || kind == "if-else" || kind == "case-branch"

/-- The length of the common prefix of two chains, by frame id. -/
def commonPrefixLength : List ScopeFrame → List ScopeFrame → ℕ
  | a :: as, b :: bs => if a.frameId = b.frameId then commonPrefixLength as bs + 1 else 0
  | _, _ => 0

/-- A selector frame control does not fall out of, which the other chain is not in. -/
def excludes (as bs : List ScopeFrame) : Bool :=
  as.any fun f => isSelectorKind f.kind && f.branchMayFallThrough == some false &&
    !(bs.map ScopeFrame.frameId).contains f.frameId

/-- **Can both execute on one run?** -/
def mayCoExecute (a b : OrderedOp) : Bool :=
  if a.occurrenceId = b.occurrenceId then false
  else
    let n := commonPrefixLength a.frameChain b.frameChain
    let diverging :=
      match a.frameChain[n]?, b.frameChain[n]? with
      | some f, some g => isSelectorKind f.kind && isSelectorKind g.kind
      | _, _ => false
    if diverging then false
    else !excludes a.frameChain b.frameChain && !excludes b.frameChain a.frameChain

/-- **`a` is sequentially before `b`**, not loop-carried. -/
def orderedBefore (a b : OrderedOp) : Bool :=
  if b.orderId ≤ a.orderId then false
  else if a.occurrenceId = b.occurrenceId then false
  else !b.frameChain.any fun f =>
    f.kind == "loop" && (a.frameChain.map ScopeFrame.frameId).contains f.frameId

/-- **Does `a` dominate `b`?** -/
def dom (a b : OrderedOp) : Bool :=
  if b.orderId ≤ a.orderId then false
  else if a.occurrenceId = b.occurrenceId then false
  else if b.frameChain.length < a.frameChain.length then false
  else if (a.frameChain.map ScopeFrame.frameId) ≠
      (b.frameChain.take a.frameChain.length).map ScopeFrame.frameId then false
  else !(b.frameChain.drop a.frameChain.length).any fun f =>
    isSelectorKind f.kind || f.kind == "loop"

def dominatesReturn (a : OrderedOp) : Bool := a.dominatesSuccessReturn

def mayPrecedeSuccessReturn (a : OrderedOp) : Bool := a.onSuccessPath

def edgeQuantifier (a b : OrderedOp) : Quantifier :=
  if dom a b then .mustAllPaths else .maySomePath

/-! ## 3. The edge list -/

/-- The edge from `a` to `b`. -/
def edgeOf (a b : OrderedOp) : HBEdge :=
  ⟨a.occurrenceId, b.occurrenceId, edgeQuantifier a b, "resolved"⟩

/-- The edge of two operations, `a` at the earlier position. -/
def pairEdge (a b : OrderedOp) : Option HBEdge :=
  if orderedBefore a b && mayCoExecute a b then some (edgeOf a b)
  else if orderedBefore b a && mayCoExecute b a then some (edgeOf b a)
  else none

/-- **The full list of happens-before edges**: each operation with each later one. -/
def buildHbEdges : List OrderedOp → List HBEdge
  | [] => []
  | a :: ops => ops.filterMap (pairEdge a) ++ buildHbEdges ops

/-! ## 4. The test on demand -/

/-- The groups, and every (group, position) of an occurrence id. -/
structure HbIndex where
  groups : List (List OrderedOp)
  positions : HashMap String (List (ℕ × ℕ))

/-- The operations of all groups with their group and position. -/
def placed (groups : List (List OrderedOp)) : List ((ℕ × ℕ) × OrderedOp) :=
  groups.zipIdx.flatMap fun g => g.1.zipIdx.map fun op => ((g.2, op.2), op.1)

def HbIndex.new (groups : List (List OrderedOp)) : HbIndex where
  groups := groups
  positions := (placed groups).foldl (fun m p => m.push p.2.occurrenceId p.1) ∅

/-- The operation at a place. -/
def HbIndex.opAt (ix : HbIndex) (p : ℕ × ℕ) : Option OrderedOp :=
  ix.groups[p.1]?.bind fun ops => ops[p.2]?

/-- **Is there a happens-before edge?** -/
def HbIndex.hasEdge (ix : HbIndex) (x y : String) : Bool :=
  (ix.positions.getList x).any fun px => (ix.positions.getList y).any fun py =>
    px.1 == py.1 && px.2 != py.2 &&
      match ix.opAt px, ix.opAt py with
      | some a, some b => orderedBefore a b && mayCoExecute a b
      | _, _ => false

/-! ## 5. The test answers the list -/

theorem orderedBefore_lt {a b : OrderedOp} (h : orderedBefore a b = true) : a.orderId < b.orderId := by
  unfold orderedBefore at h
  by_cases hle : b.orderId ≤ a.orderId
  · rw [if_pos hle] at h
    cases h
  · exact Nat.lt_of_not_le hle

theorem orderedBefore_asymm {a b : OrderedOp} (h : orderedBefore a b = true) :
    orderedBefore b a = false := by
  have hlt := orderedBefore_lt h
  rw [← Bool.not_eq_true]
  exact fun h' => absurd (orderedBefore_lt h') (Nat.lt_asymm hlt)

/-- What an edge from `a` to `b` asks. -/
def Before (a b : OrderedOp) : Prop := orderedBefore a b = true ∧ mayCoExecute a b = true

/-- **The edge of a pair is the one its order gives**, at whichever position each is. -/
theorem pairEdge_iff {a b : OrderedOp} {e : HBEdge} :
    pairEdge a b = some e ↔ Before a b ∧ e = edgeOf a b ∨ Before b a ∧ e = edgeOf b a := by
  unfold pairEdge Before
  by_cases hab : (orderedBefore a b && mayCoExecute a b) = true
  · rw [if_pos hab]
    rw [Bool.and_eq_true] at hab
    constructor
    · rintro h
      exact .inl ⟨hab, (Option.some.inj h).symm⟩
    · rintro (⟨_, rfl⟩ | ⟨hba, _⟩)
      · rfl
      · rw [orderedBefore_asymm hab.1] at hba
        cases hba.1
  · rw [if_neg hab]
    rw [Bool.and_eq_true] at hab
    by_cases hba : (orderedBefore b a && mayCoExecute b a) = true
    · rw [if_pos hba]
      rw [Bool.and_eq_true] at hba
      constructor
      · rintro h
        exact .inr ⟨hba, (Option.some.inj h).symm⟩
      · rintro (⟨hab', _⟩ | ⟨_, rfl⟩)
        · exact absurd hab' hab
        · rfl
    · rw [if_neg hba]
      rw [Bool.and_eq_true] at hba
      constructor
      · intro h
        cases h
      · rintro (⟨hab', _⟩ | ⟨hba', _⟩)
        · exact absurd hab' hab
        · exact absurd hba' hba

/-- **An edge of the list** joins two operations at different positions. -/
theorem mem_buildHbEdges {ops : List OrderedOp} {e : HBEdge} :
    e ∈ buildHbEdges ops ↔ ∃ (i j : ℕ) (a b : OrderedOp), i ≠ j ∧ ops[i]? = some a ∧ ops[j]? = some b ∧ Before a b ∧
      e = edgeOf a b := by
  induction ops with
  | nil =>
    constructor
    · exact fun h => absurd h List.not_mem_nil
    · rintro ⟨i, j, a, b, _, hi, _⟩
      cases hi
  | cons c ops ih =>
    unfold buildHbEdges
    rw [List.mem_append, ih, List.mem_filterMap]
    constructor
    · rintro (⟨d, hd, hpair⟩ | ⟨i, j, a, b, hne, hi, hj, hbefore⟩)
      · obtain ⟨k, hk⟩ := List.mem_iff_getElem?.mp hd
        rcases pairEdge_iff.mp hpair with hbefore | hbefore
        · exact ⟨0, k + 1, c, d, Nat.succ_ne_zero k |>.symm, rfl, hk, hbefore⟩
        · exact ⟨k + 1, 0, d, c, Nat.succ_ne_zero k, hk, rfl, hbefore⟩
      · exact ⟨i + 1, j + 1, a, b, fun h => hne (Nat.succ.inj h), hi, hj, hbefore⟩
    · rintro ⟨i, j, a, b, hne, hi, hj, hbefore⟩
      cases i with
      | zero =>
        obtain rfl := Option.some.inj hi
        cases j with
        | zero => exact absurd rfl hne
        | succ j => exact .inl ⟨b, List.mem_of_getElem? hj, pairEdge_iff.mpr (.inl hbefore)⟩
      | succ i =>
        cases j with
        | zero =>
          obtain rfl := Option.some.inj hj
          exact .inl ⟨a, List.mem_of_getElem? hi, pairEdge_iff.mpr (.inr hbefore)⟩
        | succ j => exact .inr ⟨i, j, a, b, fun h => hne (congrArg Nat.succ h), hi, hj, hbefore⟩

/-- The places of an id are where its operations stand. -/
theorem mem_positions {groups : List (List OrderedOp)} {x : String} {g p : ℕ} :
    (g, p) ∈ (HbIndex.new groups).positions.getList x ↔
      ∃ ops op, groups[g]? = some ops ∧ ops[p]? = some op ∧ op.occurrenceId = x := by
  unfold HbIndex.new
  dsimp only
  rw [HashMap.mem_getList_foldl_push (fun p : (ℕ × ℕ) × OrderedOp => p.2.occurrenceId) Prod.fst,
    HashMap.getList_empty]
  constructor
  · rintro (h | ⟨⟨place, op⟩, hplaced, rfl, hplace⟩)
    · cases h
    · obtain ⟨⟨ops, g'⟩, hg, hop⟩ := List.mem_flatMap.mp hplaced
      obtain ⟨⟨op', p'⟩, hp, heq⟩ := List.mem_map.mp hop
      obtain ⟨hplace', rfl⟩ := Prod.mk.inj heq
      obtain ⟨rfl, rfl⟩ := Prod.mk.inj (hplace'.trans hplace)
      exact ⟨ops, op', List.mem_zipIdx_iff_getElem?.mp hg, List.mem_zipIdx_iff_getElem?.mp hp, rfl⟩
  · rintro ⟨ops, op, hg, hp, rfl⟩
    refine .inr ⟨((g, p), op), List.mem_flatMap.mpr ⟨(ops, g), ?_, ?_⟩, rfl, rfl⟩
    · exact List.mem_zipIdx_iff_getElem?.mpr hg
    · exact List.mem_map.mpr ⟨(op, p), List.mem_zipIdx_iff_getElem?.mpr hp, rfl⟩

theorem opAt_new {groups : List (List OrderedOp)} {g p : ℕ} {ops : List OrderedOp}
    (hg : groups[g]? = some ops) : (HbIndex.new groups).opAt (g, p) = ops[p]? := by
  unfold HbIndex.opAt HbIndex.new
  rw [hg]
  rfl

/-- **The test on demand equals the edge list**: for any groups, whatever ids are repeated in them,
there is an edge from `x` to `y` when the list of some group has one. -/
theorem hasEdge_iff_buildHbEdges (groups : List (List OrderedOp)) (x y : String) :
    (HbIndex.new groups).hasEdge x y = true ↔
      ∃ ops ∈ groups, ∃ e ∈ buildHbEdges ops, e.source = x ∧ e.target = y := by
  unfold HbIndex.hasEdge
  rw [List.any_eq_true]
  constructor
  · rintro ⟨⟨g, p⟩, hx, hany⟩
    obtain ⟨⟨g', q⟩, hy, htest⟩ := List.any_eq_true.mp hany
    obtain ⟨ops, a, hg, hp, rfl⟩ := mem_positions.mp hx
    obtain ⟨ops', b, hg', hq, rfl⟩ := mem_positions.mp hy
    rw [opAt_new hg, opAt_new hg', hp, hq, Bool.and_eq_true, Bool.and_eq_true, beq_iff_eq,
      bne_iff_ne] at htest
    obtain ⟨⟨hgroup, hne⟩, hbefore⟩ := htest
    dsimp only at hgroup hne
    subst hgroup
    obtain rfl := Option.some.inj (hg.symm.trans hg')
    exact ⟨ops, List.mem_of_getElem? hg, edgeOf a b, mem_buildHbEdges.mpr
      ⟨p, q, a, b, hne, hp, hq, (Bool.and_eq_true _ _).mp hbefore, rfl⟩, rfl, rfl⟩
  · rintro ⟨ops, hops, e, he, rfl, rfl⟩
    obtain ⟨g, hg⟩ := List.mem_iff_getElem?.mp hops
    obtain ⟨p, q, a, b, hne, hp, hq, hbefore, rfl⟩ := mem_buildHbEdges.mp he
    refine ⟨(g, p), mem_positions.mpr ⟨ops, a, hg, hp, rfl⟩, List.any_eq_true.mpr
      ⟨(g, q), mem_positions.mpr ⟨ops, b, hg, hq, rfl⟩, ?_⟩⟩
    rw [opAt_new hg, opAt_new hg, hp, hq, Bool.and_eq_true, Bool.and_eq_true, beq_iff_eq, bne_iff_ne]
    exact ⟨⟨rfl, hne⟩, (Bool.and_eq_true _ _).mpr hbefore⟩

end AlSem.L5
