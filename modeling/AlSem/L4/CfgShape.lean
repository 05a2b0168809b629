/-
# Trees the walker takes apart

The walk of a node is the walk of its condition, then of what is behind it, where the tree has the
shape the body walk gives it and fits the depth budget.  A block's events hold its statements in
their order.
-/
import AlSem.L4.CfgWalker
import AlSem.Model.Execution

namespace AlSem.L4

open AlSem.Model

variable {ctx : WalkCtx}

/-! ## 1. The walk, node by node -/

theorem transfers_eq (ns : List PCFNNode) (d : ℕ) :
    transfers ctx ns d = ns.map fun n s => walkCfg ctx n d s := by
  induction ns with
  | nil => simp [transfers]
  | cons n ns ih => simp [transfers, ih]

theorem transfersOpt_eq (ns : Option (List PCFNNode)) (d : ℕ) :
    transfersOpt ctx ns d = (ns.getD []).map fun n s => walkCfg ctx n d s := by
  cases ns <;> simp [transfersOpt, transfers_eq]

/-- The walks of a list of nodes. -/
abbrev walks (ctx : WalkCtx) (ns : List PCFNNode) (d : ℕ) : List Transfer :=
  ns.map fun n s => walkCfg ctx n d s

/-- The body of a loop as the loop walks it. -/
def loopBody (ctx : WalkCtx) (n : PCFNNode) (d : ℕ) : Transfer :=
  if n.kind = .repeatUntil then
    walkBlockAt ctx (d + 1) { kind := .block, children := n.children } (walks ctx n.body (d + 2))
  else runEvents ctx ((walks ctx n.body (d + 1)).map .child)

/-- The condition of a loop. -/
def loopCond (ctx : WalkCtx) (n : PCFNNode) (d : ℕ) : Transfer :=
  applyConditionLeaves (walks ctx n.leaves (d + 1))

/-- The walk of a node behind its condition. -/
def walkBody (ctx : WalkCtx) (n : PCFNNode) (d : ℕ) : Transfer :=
  match n.kind with
  | .block => runEvents ctx (blockEvents ctx n n.body (walks ctx n.body (d + 1)))
  | .ifThen =>
    walkIf (runEvents ctx ((walks ctx n.body (d + 1)).map .child))
      (runEvents ctx ((walks ctx n.elseBody (d + 1)).map .child))
  | .case => walkCase (n.body.any fun c => c.isCaseElse) (walks ctx n.body (d + 1))
  | .caseBranch | .other => runEvents ctx ((walks ctx n.body (d + 1)).map .child)
  | .whileDo | .forTo | .foreach => walkLoop (loopBody ctx n d) (loopCond ctx n d)
  | .repeatUntil =>
    if n.body = [] then loopCond ctx n d else walkLoop (loopBody ctx n d) (loopCond ctx n d)
  | .breakLoop => fun s => { state := s, reach := .abrupt, breaks := [s] }
  | .continueLoop => fun s => { state := s, reach := .abrupt, continues := [s] }
  | .exit | .error => fun s => { state := s, exits := [s] }
  | .op => fun s => { state := walkOp ctx n s }
  | .call => fun s => { state := walkCall ctx n s }
  | .tryBlock => fun s => { state := saturateUnknown s, exits := [saturateUnknown s] }

@[simp] theorem andThen_start (s : PerParamState) (f : Transfer) :
    WalkResult.andThen { state := s } f = f s := by
  simp [WalkResult.andThen]

theorem runEvents_single (f : Transfer) (s : PerParamState) :
    runEvents ctx [.child f] s = f s := by
  simp only [runEvents]
  split
  · rfl
  · rename_i h
    simp only [WalkResult.andThen, List.append_nil, ← h]

/-! ## 2. Trees as they are built -/

/-- What `ir_walk.rs` promises of every node: a branch and a loop body are one block, a `repeat`
and a block hold their statements in source order, a condition's leaves are operations and calls.
`try` is left out. -/
structure NodeShape (ctx : WalkCtx) (n : PCFNNode) : Prop where
  noTry : n.kind ≠ .tryBlock
  leafKinds : ∀ l ∈ n.leaves, l.kind = .op ∨ l.kind = .call ∨ l.kind = .error
  inOrder : n.kind = .block ∨ n.kind = .repeatUntil →
    n.body.Pairwise fun a b => posLe (nodeStartPos ctx a) (nodeStartPos ctx b) = true
  oneBranch : n.kind = .ifThen → n.body.length ≤ 1 ∧ n.elseBody.length ≤ 1
  oneBody : n.kind.isHeadLoop → n.body.length = 1

/-- Every node of the tree has its shape. -/
def Shaped (ctx : WalkCtx) (n : PCFNNode) : Prop := ∀ m ∈ n.subtree, NodeShape ctx m

/-- The promises of `NodeShape` that a tree with `try` keeps. -/
structure NodeForm (ctx : WalkCtx) (n : PCFNNode) : Prop where
  leafKinds : ∀ l ∈ n.leaves, l.kind = .op ∨ l.kind = .call ∨ l.kind = .error
  inOrder : n.kind = .block ∨ n.kind = .repeatUntil →
    n.body.Pairwise fun a b => posLe (nodeStartPos ctx a) (nodeStartPos ctx b) = true
  oneBranch : n.kind = .ifThen → n.body.length ≤ 1 ∧ n.elseBody.length ≤ 1
  oneBody : n.kind.isHeadLoop → n.body.length = 1

theorem NodeShape.form {n : PCFNNode} (h : NodeShape ctx n) : NodeForm ctx n :=
  ⟨h.leafKinds, h.inOrder, h.oneBranch, h.oneBody⟩

/-- Every node of the tree has its form. -/
def Formed (ctx : WalkCtx) (n : PCFNNode) : Prop := ∀ m ∈ n.subtree, NodeForm ctx m

theorem Shaped.formed {n : PCFNNode} (h : Shaped ctx n) : Formed ctx n :=
  fun m hm => (h m hm).form

theorem Formed.node {n : PCFNNode} (h : Formed ctx n) : NodeForm ctx n :=
  h n n.mem_subtree_self

theorem Formed.part {n c : PCFNNode} (h : Formed ctx n) (hc : c ∈ n.parts) : Formed ctx c :=
  fun m hm => h m (PCFNNode.subtree_subset hc hm)

mutual

/-- How many levels the walk goes below a node; the body of a `repeat` is two levels down. -/
def nesting : PCFNNode → ℕ
  | ⟨k, _, _, _, leaves, children, elseChildren, _, _, _⟩ =>
    max (nestingOpt 1 leaves)
      (max (nestingOpt (if k = .repeatUntil then 2 else 1) children) (nestingOpt 1 elseChildren))

def nestingOpt (step : ℕ) : Option (List PCFNNode) → ℕ
  | none => 0
  | some ns => nestings step ns

/-- The levels of a list of nodes that are `step` levels down. -/
def nestings (step : ℕ) : List PCFNNode → ℕ
  | [] => 0
  | n :: ns => max (nesting n + step) (nestings step ns)

end

theorem nestingOpt_eq (step : ℕ) (ns : Option (List PCFNNode)) :
    nestingOpt step ns = nestings step (ns.getD []) := by
  cases ns <;> simp [nestingOpt, nestings]

theorem nesting_eq (n : PCFNNode) :
    nesting n = max (nestings 1 n.leaves)
      (max (nestings (if n.kind = .repeatUntil then 2 else 1) n.body)
        (nestings 1 n.elseBody)) := by
  cases n
  simp only [nesting, nestingOpt_eq, PCFNNode.leaves, PCFNNode.body, PCFNNode.elseBody]

theorem le_nestings (step : ℕ) {ns : List PCFNNode} {c : PCFNNode} (hc : c ∈ ns) :
    nesting c + step ≤ nestings step ns := by
  induction ns with
  | nil => simp at hc
  | cons n ns ih =>
    rw [nestings]
    rcases List.mem_cons.mp hc with rfl | hc
    · exact Nat.le_max_left _ _
    · exact Nat.le_trans (ih hc) (Nat.le_max_right _ _)

/-- The walk of the node fits the depth budget. -/
def Fits (d : ℕ) (n : PCFNNode) : Prop := d + nesting n ≤ maxCfgWalkDepth

theorem Fits.leaf {d : ℕ} {n c : PCFNNode} (h : Fits d n) (hc : c ∈ n.leaves) :
    Fits (d + 1) c := by
  have hle := le_nestings 1 hc
  have hmax : nestings 1 n.leaves ≤ nesting n := by
    rw [nesting_eq]
    exact Nat.le_max_left _ _
  unfold Fits at h ⊢
  omega

theorem Fits.body {d : ℕ} {n c : PCFNNode} (h : Fits d n) (hc : c ∈ n.body) :
    Fits (d + if n.kind = .repeatUntil then 2 else 1) c := by
  have hle := le_nestings (if n.kind = .repeatUntil then 2 else 1) hc
  have hmax : nestings (if n.kind = .repeatUntil then 2 else 1) n.body ≤ nesting n := by
    rw [nesting_eq]
    exact Nat.le_trans (Nat.le_max_left _ _) (Nat.le_max_right _ _)
  unfold Fits at h ⊢
  omega

theorem Fits.elseBody {d : ℕ} {n c : PCFNNode} (h : Fits d n) (hc : c ∈ n.elseBody) :
    Fits (d + 1) c := by
  have hle := le_nestings 1 hc
  have hmax : nestings 1 n.elseBody ≤ nesting n := by
    rw [nesting_eq]
    exact Nat.le_trans (Nat.le_max_right _ _) (Nat.le_max_right _ _)
  unfold Fits at h ⊢
  omega

theorem runEvents_atMostOne {l : List Transfer} (h : l.length ≤ 1) (s : PerParamState) :
    (l.head?.getD fun s => { state := s }) s = runEvents ctx (l.map .child) s := by
  match l, h with
  | [], _ => rfl
  | [f], _ => exact (runEvents_single f s).symm

theorem runEvents_ofSingle (l : List Transfer) (cond : Transfer) (s : PerParamState) :
    l.length = 1 →
      (match l with
        | [] => cond s
        | body :: _ => (cond s).andThen (walkLoop body cond)) =
        (cond s).andThen (walkLoop (runEvents ctx (l.map .child)) cond) := by
  intro h
  obtain ⟨f, rfl⟩ := List.length_eq_one_iff.mp h
  have hf : runEvents ctx [.child f] = f := funext (runEvents_single f)
  simp only [List.map_cons, List.map_nil, hf]

/-- **A node's walk is the walk of its condition, then of what is behind it.** -/
theorem walkCfg_eq {n : PCFNNode} {d : ℕ} (hn : NodeForm ctx n) (hd : d ≤ maxCfgWalkDepth)
    (s : PerParamState) :
    walkCfg ctx n d s =
      (applyConditionLeaves (walks ctx n.before (d + 1)) s).andThen (walkBody ctx n d) := by
  have hdepth : ¬ d > maxCfgWalkDepth := Nat.not_lt.mpr hd
  obtain ⟨k, op, cs, g, leaves, children, elseChildren, els, range, hint⟩ := n
  have hone := hn.oneBranch
  have hbody := hn.oneBody
  simp only [PCFNNode.body, PCFNNode.elseBody, CfnKind.isHeadLoop] at hone hbody
  cases k <;>
    simp only [walkCfg, if_neg hdepth, transfersOpt_eq, PCFNNode.before, PCFNNode.leaves,
      PCFNNode.body, PCFNNode.elseBody, walkBody, loopBody, loopCond, applyConditionLeaves,
      andThen_start, List.map_nil, walks]
  case ifThen =>
    have hthen : (walks ctx (children.getD []) (d + 1)).length ≤ 1 := by
      simpa using (hone rfl).1
    have helse : (walks ctx (elseChildren.getD []) (d + 1)).length ≤ 1 := by
      simpa using (hone rfl).2
    rw [← funext (runEvents_atMostOne hthen), ← funext (runEvents_atMostOne helse)]
  case whileDo =>
    have hone : (walks ctx (children.getD []) (d + 1)).length = 1 := by simpa using hbody
    exact runEvents_ofSingle _ _ s hone
  case forTo =>
    have hone : (walks ctx (children.getD []) (d + 1)).length = 1 := by simpa using hbody
    exact runEvents_ofSingle _ _ s hone
  case foreach =>
    have hone : (walks ctx (children.getD []) (d + 1)).length = 1 := by simpa using hbody
    exact runEvents_ofSingle _ _ s hone
  case repeatUntil =>
    by_cases hempty : children.getD [] = []
    · rw [if_pos hempty, if_pos hempty]
    · rw [if_neg hempty, if_neg hempty]
      rfl

/-! ## 3. Subtrees given up -/

/-- A walk that is too deep gives the state up. -/
theorem walkCfg_deep {n : PCFNNode} {d : ℕ} (hd : maxCfgWalkDepth < d) (s : PerParamState) :
    walkCfg ctx n d s = { state := saturateUnknown s } := by
  obtain ⟨k, op, cs, g, leaves, children, elseChildren, els, range, hint⟩ := n
  simp only [walkCfg, if_pos hd]

/-- A `try` gives the state up, and keeps it as one at an `exit`. -/
theorem walkCfg_try {n : PCFNNode} {d : ℕ} (hd : d ≤ maxCfgWalkDepth) (hk : n.kind = .tryBlock)
    (s : PerParamState) :
    walkCfg ctx n d s = { state := saturateUnknown s, exits := [saturateUnknown s] } := by
  have hdepth : ¬ d > maxCfgWalkDepth := Nat.not_lt.mpr hd
  obtain ⟨k, op, cs, g, leaves, children, elseChildren, els, range, hint⟩ := n
  subst hk
  simp only [walkCfg, if_neg hdepth]

/-- How many levels a node's statements are below it; the body of a `repeat` is two down. -/
def PCFNNode.bodyStep (n : PCFNNode) : ℕ := if n.kind = .repeatUntil then 2 else 1

mutual

/-- The subtrees that the walk of a node gives up, each with whether it is too deep. -/
def givenUp : PCFNNode → ℕ → List (PCFNNode × Bool)
  | ⟨k, op, cs, g, leaves, children, elseChildren, els, range, hint⟩, d =>
    let node : PCFNNode := ⟨k, op, cs, g, leaves, children, elseChildren, els, range, hint⟩
    if maxCfgWalkDepth < d then [(node, true)]
    else if k = .tryBlock then [(node, false)]
    else
      givenUpOpt leaves (d + 1) ++
        (givenUpOpt children (d + PCFNNode.bodyStep node) ++ givenUpOpt elseChildren (d + 1))

def givenUpOpt : Option (List PCFNNode) → ℕ → List (PCFNNode × Bool)
  | none, _ => []
  | some ns, d => givenUps ns d

/-- The subtrees given up below a list of nodes. -/
def givenUps : List PCFNNode → ℕ → List (PCFNNode × Bool)
  | [], _ => []
  | n :: ns, d => givenUp n d ++ givenUps ns d

end

theorem givenUps_eq (ns : List PCFNNode) (d : ℕ) :
    givenUps ns d = ns.flatMap fun n => givenUp n d := by
  induction ns with
  | nil => rfl
  | cons n ns ih => rw [givenUps, ih, List.flatMap_cons]

theorem givenUpOpt_eq (ns : Option (List PCFNNode)) (d : ℕ) :
    givenUpOpt ns d = (ns.getD []).flatMap fun n => givenUp n d := by
  cases ns with
  | none => rfl
  | some ns => rw [givenUpOpt, givenUps_eq, Option.getD_some]

theorem givenUp_deep {n : PCFNNode} {d : ℕ} (hd : maxCfgWalkDepth < d) :
    givenUp n d = [(n, true)] := by
  obtain ⟨k, op, cs, g, leaves, children, elseChildren, els, range, hint⟩ := n
  simp only [givenUp, if_pos hd]

theorem givenUp_try {n : PCFNNode} {d : ℕ} (hd : d ≤ maxCfgWalkDepth) (hk : n.kind = .tryBlock) :
    givenUp n d = [(n, false)] := by
  obtain ⟨k, op, cs, g, leaves, children, elseChildren, els, range, hint⟩ := n
  subst hk
  simp only [givenUp, if_neg (Nat.not_lt.mpr hd), if_true]

/-- Any other node gives up what its parts give up. -/
theorem givenUp_parts {n : PCFNNode} {d : ℕ} (hd : d ≤ maxCfgWalkDepth)
    (hk : n.kind ≠ .tryBlock) :
    givenUp n d = (n.leaves.flatMap fun c => givenUp c (d + 1)) ++
      ((n.body.flatMap fun c => givenUp c (d + PCFNNode.bodyStep n)) ++
        n.elseBody.flatMap fun c => givenUp c (d + 1)) := by
  obtain ⟨k, op, cs, g, leaves, children, elseChildren, els, range, hint⟩ := n
  simp only [givenUp, if_neg (Nat.not_lt.mpr hd), if_neg hk, givenUpOpt_eq, PCFNNode.leaves,
    PCFNNode.body, PCFNNode.elseBody]

/-- **A tree without `try` that fits the budget is walked whole.** -/
theorem givenUp_eq_nil (n : PCFNNode) : ∀ {d : ℕ}, Fits d n →
    (∀ m ∈ n.subtree, m.kind ≠ .tryBlock) → givenUp n d = [] := by
  induction n using PCFNNode.induct with
  | step n ih =>
    intro d hd htry
    have hdepth : d ≤ maxCfgWalkDepth := by
      unfold Fits at hd
      omega
    have hpart : ∀ c ∈ n.parts, ∀ m ∈ c.subtree, m.kind ≠ .tryBlock :=
      fun c hc m hm => htry m (PCFNNode.subtree_subset hc hm)
    have hleaves : ∀ c ∈ n.leaves, givenUp c (d + 1) = [] := fun c hc =>
      have hmem : c ∈ n.parts := List.mem_append_left _ hc
      ih c hmem (hd.leaf hc) (hpart c hmem)
    have hbody : ∀ c ∈ n.body, givenUp c (d + PCFNNode.bodyStep n) = [] := fun c hc =>
      have hmem : c ∈ n.parts := List.mem_append_right _ (List.mem_append_left _ hc)
      ih c hmem (hd.body hc) (hpart c hmem)
    have helse : ∀ c ∈ n.elseBody, givenUp c (d + 1) = [] := fun c hc =>
      have hmem : c ∈ n.parts := List.mem_append_right _ (List.mem_append_right _ hc)
      ih c hmem (hd.elseBody hc) (hpart c hmem)
    rw [givenUp_parts hdepth (htry n n.mem_subtree_self),
      List.flatMap_eq_nil_iff.mpr hleaves, List.flatMap_eq_nil_iff.mpr hbody,
      List.flatMap_eq_nil_iff.mpr helse]
    rfl

/-! ## 4. Blocks in source order -/

/-- The statements among the events. -/
def childrenOf : List BlockEvent → List Transfer
  | [] => []
  | .child f :: es => f :: childrenOf es
  | .field _ :: es => childrenOf es

@[simp] theorem childrenOf_children (l : List Transfer) : childrenOf (l.map .child) = l := by
  induction l with
  | nil => rfl
  | cons f l ih => simp [childrenOf, ih]

/-- A block's child. -/
def BlockEvent.isChild : BlockEvent → Bool
  | .child _ => true
  | .field _ => false

theorem childrenOf_filter (es : List BlockEvent) :
    childrenOf (es.filter BlockEvent.isChild) = childrenOf es := by
  induction es with
  | nil => rfl
  | cons e es ih =>
    cases e with
    | child f => rw [List.filter_cons_of_pos rfl, childrenOf, childrenOf, ih]
    | field fa => rw [List.filter_cons_of_neg (by simp [BlockEvent.isChild]), childrenOf, ih]

theorem posLe_trans (a b c : ℕ × ℕ) (hab : posLe a b = true) (hbc : posLe b c = true) :
    posLe a c = true := by
  simp only [posLe, decide_eq_true_eq] at *
  omega

theorem posLe_total (a b : ℕ × ℕ) : (posLe a b || posLe b a) = true := by
  simp only [posLe, Bool.or_eq_true, decide_eq_true_eq]
  omega

/-- **A block's events hold its statements in their order**, when the statements are in source
order: the sort is stable. -/
theorem childrenOf_blockEvents {block : PCFNNode} {ns : List PCFNNode} {g : PCFNNode → Transfer}
    (hsorted : ns.Pairwise fun a b => posLe (nodeStartPos ctx a) (nodeStartPos ctx b) = true) :
    childrenOf (blockEvents ctx block ns (ns.map g)) = ns.map g := by
  have hzip : (ns.zip (ns.map g)).map (fun c : PCFNNode × Transfer =>
      (nodeStartPos ctx c.1, BlockEvent.child c.2)) =
      ns.map fun n => (nodeStartPos ctx n, BlockEvent.child (g n)) := by
    clear hsorted
    induction ns with
    | nil => rfl
    | cons n ns ih => rw [List.map_cons, List.zip_cons_cons, List.map_cons, ih, List.map_cons]
  unfold blockEvents
  dsimp only
  rw [hzip]
  generalize hf : ((collectFieldAccessesInBlock ctx block ns).map fun fa =>
    (PAnchor.start fa.sourceAnchor, BlockEvent.field fa)) = fields
  generalize hc : (ns.map fun n => (nodeStartPos ctx n, BlockEvent.child (g n))) = children
  have hchild : ∀ e ∈ children, e.2.isChild = true := by
    rw [← hc]
    intro e he
    obtain ⟨n, -, rfl⟩ := List.mem_map.mp he
    rfl
  have hfield : ∀ e ∈ fields, e.2.isChild = false := by
    rw [← hf]
    intro e he
    obtain ⟨fa, -, rfl⟩ := List.mem_map.mp he
    rfl
  have hpair : children.Pairwise fun a b => posLe a.1 b.1 = true := by
    rw [← hc]
    exact List.pairwise_map.mpr hsorted
  -- the statements are a sublist of the sorted events, as long as its statements
  have hsub : children.Sublist ((children ++ fields).mergeSort fun a b => posLe a.1 b.1) :=
    List.sublist_mergeSort (fun a b c => posLe_trans a.1 b.1 c.1) (fun a b => posLe_total a.1 b.1)
      hpair (List.sublist_append_left _ _)
  have hfilter : ((children ++ fields).mergeSort fun a b => posLe a.1 b.1).filter
      (fun e => e.2.isChild) = children := by
    have hall : children.filter (fun e => e.2.isChild) = children :=
      List.filter_eq_self.mpr hchild
    have hnone : fields.filter (fun e => e.2.isChild) = [] :=
      List.filter_eq_nil_iff.mpr fun e he => by simp [hfield e he]
    have hsub' := hsub.filter (fun e => e.2.isChild)
    rw [hall] at hsub'
    refine (hsub'.eq_of_length ?_).symm
    have hperm := (List.mergeSort_perm (children ++ fields) fun a b => posLe a.1 b.1).filter
      (fun e => e.2.isChild)
    rw [hperm.length_eq, List.filter_append, hall, hnone, List.append_nil]
  rw [← childrenOf_filter, List.filter_map]
  have hcomp : (BlockEvent.isChild ∘ Prod.snd : (ℕ × ℕ) × BlockEvent → Bool) =
      fun e => e.2.isChild := rfl
  rw [hcomp, hfilter, ← hc, List.map_map]
  exact childrenOf_children (ns.map g) ▸ by rw [List.map_map]; rfl

end AlSem.L4
