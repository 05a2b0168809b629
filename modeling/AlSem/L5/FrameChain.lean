/-
# Frame chains

`reconstruct_frame_chain` of `l5/ordering_inter.rs`, which follows the parents of a frame up to the
root, and the ordered operations that `l5/ordering_engine.rs` builds with it.  On the table that the
walk of a routine leaves, the climb ends, and an operation has the position and the frames of its
leaf in the routine's outline.

The climb has no bound in the source, and a table with a cycle would keep it going; `none` is a
climb that is not over after as many steps as the table has frames.
-/
import AlSem.Body.Outline
import AlSem.L5.Ordering
import Mathlib.Data.List.Induction

namespace AlSem.L5

open AlSem.Model AlSem.Body Outline

/-! ## 1. The reconstruction -/

/-- `by_id`: the last frame of an id stays. -/
def framesById (frames : List ScopeFrame) : HashMap ℤ ScopeFrame :=
  frames.foldl (fun m f => m.insert f.frameId f) ∅

/-- From a frame up, innermost first. -/
def climb (byId : HashMap ℤ ScopeFrame) : ℕ → Option ScopeFrame → Option (List ScopeFrame)
  | _, none => some []
  | 0, some _ => none
  | fuel + 1, some c =>
    if c.parentFrameId = -1 then some [c]
    else (climb byId fuel (byId.lookup c.parentFrameId)).map (c :: ·)

/-- **The chain of a frame**, root first. -/
def reconstructFrameChain (frameId : ℤ) (frames : Option (List ScopeFrame)) :
    Option (List ScopeFrame) :=
  match frames with
  | none => some []
  | some frames =>
    if frames.isEmpty then some []
    else (climb (framesById frames) frames.length ((framesById frames).lookup frameId)).map
      List.reverse

/-- The operation of an order, if its chain is not empty. -/
def orderedOpAt (occurrenceId : String) (frames : List ScopeFrame) (o : OperationOrder) :
    Option OrderedOp :=
  match reconstructFrameChain o.frameId (some frames) with
  | some (f :: chain) =>
    some ⟨occurrenceId, o.orderId, o.onSuccessPath, f :: chain, o.dominatesSuccessReturn⟩
  | _ => none

/-- **The ordered operation of a leaf**: by its operation's order, else by its call site's. -/
def orderedOp (r : OrderWalkResult) (occurrenceId : String) (n : PCFNNode) : Option OrderedOp :=
  ((n.operationId.bind r.byOperation.lookup).bind (orderedOpAt occurrenceId r.scopeFrames)).orElse
    fun _ => (n.callsiteId.bind r.byCallsite.lookup).bind (orderedOpAt occurrenceId r.scopeFrames)

/-! ## 2. The frames of a chain -/

/-- The frame records of a chain below `parent`. -/
def chainFrames : ℤ → List (ℤ × Scope) → List ScopeFrame
  | _, [] => []
  | parent, (i, s) :: c => makeFrame i parent s.kind s.info :: chainFrames i c

theorem chainFrames_concat (parent : ℤ) (c : List (ℤ × Scope)) (p : ℤ × Scope) :
    chainFrames parent (c ++ [p]) =
      chainFrames parent c ++
        [makeFrame p.1 ((c.getLast?.map Prod.fst).getD parent) p.2.kind p.2.info] := by
  induction c generalizing parent with
  | nil => rfl
  | cons q c ih =>
    rw [List.cons_append, chainFrames, ih, chainFrames, List.cons_append]
    cases c with
    | nil => rfl
    | cons q' c => rw [List.getLast?_cons_cons, List.getLast?_cons]; rfl

@[simp] theorem chainFrames_length (parent : ℤ) (c : List (ℤ × Scope)) :
    (chainFrames parent c).length = c.length := by
  induction c generalizing parent with
  | nil => rfl
  | cons q c ih => simp [chainFrames, ih]

@[simp] theorem chainFrames_ids (parent : ℤ) (c : List (ℤ × Scope)) :
    (chainFrames parent c).map ScopeFrame.frameId = c.map Prod.fst := by
  induction c generalizing parent with
  | nil => rfl
  | cons q c ih => simp [chainFrames, ih, makeFrame]

@[simp] theorem chainFrames_kinds (parent : ℤ) (c : List (ℤ × Scope)) :
    (chainFrames parent c).map ScopeFrame.kind = c.map fun p => p.2.kind := by
  induction c generalizing parent with
  | nil => rfl
  | cons q c ih => simp [chainFrames, ih, makeFrame]

theorem climb_root {byId : HashMap ℤ ScopeFrame} {fuel : ℕ} {c : ScopeFrame}
    (h : c.parentFrameId = -1) : climb byId (fuel + 1) (some c) = some [c] := by
  rw [climb, if_pos h]

theorem climb_parent {byId : HashMap ℤ ScopeFrame} {fuel : ℕ} {c : ScopeFrame} {i : ℤ}
    (h : c.parentFrameId = i) (hi : i ≠ -1) :
    climb byId (fuel + 1) (some c) = (climb byId fuel (byId.lookup i)).map (c :: ·) := by
  rw [climb, h, if_neg hi]

/-- A chain's innermost frame is found under its id. -/
theorem lookup_last {byId : HashMap ℤ ScopeFrame} {c : List (ℤ × Scope)} {p : ℤ × Scope}
    (hby : ∀ f ∈ chainFrames (-1) (c ++ [p]), byId.lookup f.frameId = some f) :
    byId.lookup p.1 = (chainFrames (-1) (c ++ [p])).getLast? := by
  rw [chainFrames_concat] at hby ⊢
  rw [List.getLast?_concat]
  exact hby _ (List.mem_append_right _ List.mem_cons_self)

/-- **The climb from a chain's innermost frame** goes through the chain. -/
theorem climb_chain {byId : HashMap ℤ ScopeFrame} : ∀ (c : List (ℤ × Scope)) {fuel : ℕ},
    (∀ f ∈ chainFrames (-1) c, byId.lookup f.frameId = some f) → (∀ p ∈ c, p.1 ≠ -1) →
    c.length ≤ fuel →
    climb byId fuel (chainFrames (-1) c).getLast? = some (chainFrames (-1) c).reverse := by
  intro c
  induction c using List.reverseRecOn with
  | nil =>
    intro fuel _ _ _
    cases fuel <;> rfl
  | append_singleton c p ih =>
    intro fuel hby hne hlen
    rw [List.length_append, List.length_singleton] at hlen
    obtain ⟨fuel, rfl⟩ := Nat.exists_eq_add_of_le' (Nat.le_trans (Nat.le_add_left 1 _) hlen)
    rw [chainFrames_concat, List.getLast?_concat, List.reverse_append]
    cases hc : c.getLast? with
    | none =>
      obtain rfl := List.getLast?_eq_none_iff.mp hc
      exact climb_root rfl
    | some q =>
      have hby' : ∀ f ∈ chainFrames (-1) c, byId.lookup f.frameId = some f := by
        intro f hf
        refine hby f ?_
        rw [chainFrames_concat]
        exact List.mem_append_left _ hf
      have hne' : ∀ p ∈ c, p.1 ≠ -1 := fun p hp => hne p (List.mem_append_left _ hp)
      have hlast : byId.lookup q.1 = (chainFrames (-1) c).getLast? := by
        obtain ⟨c', rfl⟩ := List.getLast?_eq_some_iff.mp hc
        exact lookup_last hby'
      have hstep := @climb_parent byId fuel (makeFrame p.1 q.1 p.2.kind p.2.info) q.1 rfl
        (hne' q (List.mem_of_getLast? hc))
      rw [hlast, ih hby' hne' (by omega)] at hstep
      exact hstep

/-! ## 3. The walk's table -/

/-- Distinct frames are found under their ids. -/
theorem lookup_framesById {frames : List ScopeFrame}
    (h : (frames.map ScopeFrame.frameId).Nodup) {f : ScopeFrame} (hf : f ∈ frames) :
    (framesById frames).lookup f.frameId = some f := by
  unfold framesById
  induction frames using List.reverseRecOn with
  | nil => simp at hf
  | append_singleton frames g ih =>
    rw [List.map_append, List.nodup_append] at h
    rw [List.foldl_append, List.foldl_cons, List.foldl_nil]
    rcases List.mem_append.mp hf with hf | hf
    · have hne : f.frameId ≠ g.frameId :=
        h.2.2 f.frameId (List.mem_map_of_mem hf) g.frameId List.mem_cons_self
      rw [AList.lookup_insert_ne hne]
      exact ih h.1 hf
    · obtain rfl := List.mem_singleton.mp hf
      exact AList.lookup_insert _

mutual

theorem itemTable_ids : ∀ (x : Item OrderLeaf Scope) (parent f : ℤ),
    (itemTable x parent f).map ScopeFrame.frameId =
      (List.range x.frames).map fun i : ℕ => f + i
  | .leaf _, _, _ => rfl
  | .frame s items, parent, f => by
    rw [itemTable, List.map_cons, frameTable_ids items, Item.frames, List.range_succ_eq_map,
      List.map_cons, List.map_map]
    simp only [makeFrame, Function.comp_def, Nat.cast_zero, add_zero, Nat.cast_succ,
      List.cons.injEq, true_and]
    refine List.map_congr_left fun i _ => ?_
    omega

/-- The table's ids count up. -/
theorem frameTable_ids : ∀ (xs : List (Item OrderLeaf Scope)) (parent f : ℤ),
    (frameTable xs parent f).map ScopeFrame.frameId =
      (List.range (frames xs)).map fun i : ℕ => f + i
  | [], _, _ => rfl
  | x :: xs, parent, f => by
    rw [frameTable, List.map_append, itemTable_ids x, frameTable_ids xs, frames, List.range_add,
      List.map_append, List.map_map]
    refine congrArg _ (List.map_congr_left fun i _ => ?_)
    simp only [Function.comp_apply, Nat.cast_add]
    omega

end

mutual

theorem chainFrames_subset_item : ∀ (x : Item OrderLeaf Scope) {chain : List (ℤ × Scope)} {k : ℕ}
    {f : ℤ} {e : Entry OrderLeaf Scope} {d : List (ℤ × Scope)}, e ∈ x.entries chain k f →
    e.chain = chain ++ d → chainFrames (Body.lastFrame chain) d ⊆ itemTable x (Body.lastFrame chain) f
  | .leaf l, chain, k, f, e, d, he, hd => by
    rw [Item.entries, List.mem_singleton] at he
    rw [he] at hd
    simp only [List.self_eq_append_right] at hd
    rw [hd]
    exact List.nil_subset _
  | .frame s items, chain, k, f, e, d, he, hd => by
    rw [Item.entries] at he
    obtain ⟨d', hd', -⟩ := entries_chain items he
    obtain rfl : d = (f, s) :: d' := by
      rw [hd', List.append_assoc, List.append_cancel_left_eq] at hd
      exact hd.symm
    have hsub := chainFrames_subset_table items he hd'
    rw [lastFrame_concat] at hsub
    rw [chainFrames, itemTable]
    exact List.cons_subset_cons _ hsub

/-- **The frames around a leaf are in the table**, each below the one before it. -/
theorem chainFrames_subset_table : ∀ (xs : List (Item OrderLeaf Scope)) {chain : List (ℤ × Scope)}
    {k : ℕ} {f : ℤ} {e : Entry OrderLeaf Scope} {d : List (ℤ × Scope)},
    e ∈ entries xs chain k f → e.chain = chain ++ d →
    chainFrames (Body.lastFrame chain) d ⊆ frameTable xs (Body.lastFrame chain) f
  | [], chain, k, f, e, d, he, _ => by simp [entries] at he
  | x :: xs, chain, k, f, e, d, he, hd => by
    rw [entries] at he
    rw [frameTable]
    rcases List.mem_append.mp he with he | he
    · exact List.Subset.trans (chainFrames_subset_item x he hd) (List.subset_append_left _ _)
    · exact List.Subset.trans (chainFrames_subset_table xs he hd) (List.subset_append_right _ _)

end

/-- The frame table of a routine. -/
def routineFrames (tree : PCFNNode) : List ScopeFrame :=
  makeFrame 0 (-1) "block" none :: frameTable (routineOutline tree) 0 1

theorem scopeFrames_routine (tree : PCFNNode) :
    (filled (routineOutline tree) rootChain (pushFrame .empty (-1) "block" none)).scopeFrames =
      routineFrames tree := rfl

theorem routineFrames_ids (tree : PCFNNode) :
    (routineFrames tree).map ScopeFrame.frameId =
      (List.range (frames (routineOutline tree) + 1)).map fun i : ℕ => (i : ℤ) := by
  rw [routineFrames, List.map_cons, frameTable_ids, List.range_succ_eq_map, List.map_cons,
    List.map_map]
  simp only [makeFrame, Function.comp_def, Nat.cast_zero, Nat.cast_succ, List.cons.injEq, true_and]
  refine List.map_congr_left fun i _ => ?_
  omega

theorem routineFrames_nodup (tree : PCFNNode) :
    ((routineFrames tree).map ScopeFrame.frameId).Nodup := by
  rw [routineFrames_ids]
  exact List.Nodup.map Nat.cast_injective List.nodup_range

theorem chainFrames_subset_routine {tree : PCFNNode} {e : Entry OrderLeaf Scope}
    (he : e ∈ routineEntries tree) : chainFrames (-1) e.chain ⊆ routineFrames tree := by
  obtain ⟨d, hd, -⟩ := entries_chain _ he
  have hsub := chainFrames_subset_table _ he hd
  rw [hd, rootChain, List.singleton_append, chainFrames]
  exact List.cons_subset_cons _ hsub

/-! ## 4. The operations of a routine -/

/-- **On the walk's table the climb ends** and gives the frames around the leaf. -/
theorem reconstructFrameChain_entry {tree : PCFNNode} {e : Entry OrderLeaf Scope}
    (he : e ∈ routineEntries tree) :
    reconstructFrameChain (Body.lastFrame e.chain) (some (routineFrames tree)) =
      some (chainFrames (-1) e.chain) := by
  have hsub := chainFrames_subset_routine he
  have hnodup := routineFrames_nodup tree
  have hby : ∀ f ∈ chainFrames (-1) e.chain,
      (framesById (routineFrames tree)).lookup f.frameId = some f :=
    fun f hf => lookup_framesById hnodup (hsub hf)
  have hnonneg : ∀ p ∈ e.chain, p.1 ≠ -1 := by
    intro p hp
    have hid : p.1 ∈ (chainFrames (-1) e.chain).map ScopeFrame.frameId := by
      rw [chainFrames_ids]
      exact List.mem_map_of_mem hp
    obtain ⟨g, hg, hgid⟩ := List.mem_map.mp hid
    have hmem : g.frameId ∈ (routineFrames tree).map ScopeFrame.frameId :=
      List.mem_map_of_mem (hsub hg)
    rw [routineFrames_ids] at hmem
    obtain ⟨i, -, hi⟩ := List.mem_map.mp hmem
    omega
  have hlen : e.chain.length ≤ (routineFrames tree).length := by
    have hdepth := entries_depth _ he
    have hcount := congrArg List.length (routineFrames_ids tree)
    simp only [List.length_map, List.length_range] at hcount
    rw [hcount]
    simp only [rootChain, List.length_singleton] at hdepth
    omega
  have hlast : (framesById (routineFrames tree)).lookup (Body.lastFrame e.chain) =
      (chainFrames (-1) e.chain).getLast? := by
    rcases List.eq_nil_or_concat e.chain with hnil | ⟨c, p, hcp⟩
    · obtain ⟨d, hd, -⟩ := entries_chain _ he
      rw [hd] at hnil
      cases hnil
    · rw [List.concat_eq_append] at hcp
      rw [hcp] at hby ⊢
      rw [lastFrame_concat]
      exact lookup_last hby
  have hclimb := climb_chain e.chain hby hnonneg hlen
  rw [reconstructFrameChain, if_neg (by simp [routineFrames]), hlast, hclimb]
  simp

/-- The operation of an entry. -/
def entryOp (occurrenceId : String) (e : Entry OrderLeaf Scope) : OrderedOp where
  occurrenceId := occurrenceId
  orderId := e.order
  onSuccessPath := e.leaf.onSuccess
  frameChain := chainFrames (-1) e.chain
  dominatesSuccessReturn := e.leaf.dominates

theorem orderedOpAt_entry {tree : PCFNNode} {e : Entry OrderLeaf Scope}
    (he : e ∈ routineEntries tree) (occurrenceId : String) :
    orderedOpAt occurrenceId (routineFrames tree) (entryOrder e) =
      some (entryOp occurrenceId e) := by
  have hchain := reconstructFrameChain_entry he
  unfold orderedOpAt
  have hframe : (entryOrder e).frameId = Body.lastFrame e.chain := rfl
  rw [hframe, hchain]
  cases hc : chainFrames (-1) e.chain with
  | nil =>
    obtain ⟨d, hd, -⟩ := entries_chain _ he
    rw [hd, rootChain, List.singleton_append, chainFrames] at hc
    cases hc
  | cons f chain =>
    simp only [entryOp, hc]
    rfl

/-- **The operation of a leaf** has the position, the frames and the flags of its entry. -/
theorem orderedOp_entry {tree : PCFNNode} {attributesLc : List String}
    (hids : tree.treeIds.Nodup) {n : PCFNNode} (hn : n ∈ tree.subtree) {occurrenceId : String}
    {x : OrderedOp}
    (h : orderedOp (computeOperationOrder (some tree) attributesLc) occurrenceId n = some x) :
    ∃ e ∈ routineEntries tree, e.leaf.node = n ∧ x = entryOp occurrenceId e := by
  have horder : ∃ o, HasOrder (computeOperationOrder (some tree) attributesLc) n o ∧
      orderedOpAt occurrenceId (computeOperationOrder (some tree) attributesLc).scopeFrames o =
        some x := by
    unfold orderedOp at h
    cases hop : (n.operationId.bind
        (computeOperationOrder (some tree) attributesLc).byOperation.lookup).bind
        (orderedOpAt occurrenceId (computeOperationOrder (some tree) attributesLc).scopeFrames) with
    | some y =>
      rw [hop, Option.orElse_some] at h
      obtain ⟨o, ho, hx⟩ := Option.bind_eq_some_iff.mp (hop.trans h)
      obtain ⟨id, hid, hlook⟩ := Option.bind_eq_some_iff.mp ho
      exact ⟨o, Or.inl ⟨id, hid, hlook⟩, hx⟩
    | none =>
      rw [hop, Option.orElse_none] at h
      obtain ⟨o, ho, hx⟩ := Option.bind_eq_some_iff.mp h
      obtain ⟨id, hid, hlook⟩ := Option.bind_eq_some_iff.mp ho
      exact ⟨o, Or.inr ⟨id, hid, hlook⟩, hx⟩
  obtain ⟨o, ho, hx⟩ := horder
  obtain ⟨e, he, hnode, rfl, htry⟩ := entry_of_hasOrder hids hn ho
  rw [computeOperationOrder_eq tree htry, scopeFrames_routine, orderedOpAt_entry he] at hx
  exact ⟨e, he, hnode, (Option.some.inj hx).symm⟩

/-- A leaf with an operation has an id. -/
theorem siteIds_of_orderedOp {r : OrderWalkResult} {occurrenceId : String} {n : PCFNNode}
    {x : OrderedOp} (h : orderedOp r occurrenceId n = some x) : n.siteIds ≠ [] := by
  cases hop : n.operationId with
  | some id => exact List.ne_nil_of_mem (mem_siteIds_operation hop)
  | none =>
    cases hcs : n.callsiteId with
    | some id => exact List.ne_nil_of_mem (mem_siteIds_callsite hcs)
    | none =>
      rw [orderedOp, hop, hcs] at h
      cases h

end AlSem.L5
