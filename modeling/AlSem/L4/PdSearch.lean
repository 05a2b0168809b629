/-
# What a producer's search finds

The search crosses the edges of the graph by address.  Here its crossings are told by identity:
`Hop rev a id b` is a crossing out of state `a` across an edge of identity `id` into state `b`.

`bfs_solved`: every producer's search ends, because the requirements a caller's frame can state
and the parameters its row can name bound the states.
-/
import AlSem.L4.PdSolve

namespace AlSem.L4

open AlSem.Model

/-! ## 1. Hops -/

/-- A graph edge stands at its address. -/
theorem mem_graphEdges {g : TypedEdgeGraph} {ge : GraphEdge} :
    ge ∈ graphEdges g ↔ ∃ l, g.outgoing.lookup ge.from = some l ∧ l[ge.pos]? = some ge.edge := by
  unfold graphEdges
  rw [List.mem_flatMap]
  constructor
  · rintro ⟨⟨src, l⟩, hmem, hge⟩
    obtain ⟨⟨e, pos⟩, hp, rfl⟩ := List.mem_map.mp hge
    exact ⟨l, AList.mem_lookup_iff.mpr hmem, List.mem_zipIdx_iff_getElem?.mp hp⟩
  · rintro ⟨l, hl, hpos⟩
    refine ⟨⟨ge.from, l⟩, AList.mem_lookup_iff.mp hl, List.mem_map.mpr ⟨(ge.edge, ge.pos), ?_, rfl⟩⟩
    exact List.mem_zipIdx_iff_getElem?.mpr hpos

/-- The out-edges of a routine are the graph edges from it. -/
theorem mem_outEdges {g : TypedEdgeGraph} {src : String} {e : TypedOutEdge} :
    e ∈ g.outEdges src ↔ ∃ pos, (⟨src, pos, e⟩ : GraphEdge) ∈ graphEdges g := by
  unfold TypedEdgeGraph.outEdges HashMap.getList
  constructor
  · intro he
    cases hl : g.outgoing.lookup src with
    | none => simp [hl] at he
    | some l =>
      rw [hl] at he
      obtain ⟨pos, hpos⟩ := List.mem_iff_getElem?.mp he
      exact ⟨pos, mem_graphEdges.mpr ⟨l, hl, hpos⟩⟩
  · rintro ⟨pos, hpos⟩
    obtain ⟨l, hl, he⟩ := mem_graphEdges.mp hpos
    rw [show g.outgoing.lookup src = some l from hl]
    exact List.mem_of_getElem? he

/-- **A crossing by identity**: an edge into the routine of `a`, crossed out of `a` into `b`. -/
def Hop (rev : PdRevision) (a : PdKey) (id : String × TypedOutEdge) (b : PdKey) : Prop :=
  id.2 ∈ rev.graph.outEdges id.1 ∧ id.2.to = a.1 ∧
    rev.crossing a { «from» := id.1, pos := 0, edge := id.2 } = some b

namespace PdRevision

variable {rev : PdRevision}

theorem mem_succ {a b : PdKey} {ge : GraphEdge} :
    (ge, b) ∈ rev.succ a ↔ ge ∈ graphEdges rev.graph ∧ Hop rev a ge.identity b := by
  have hmem : ge ∈ incoming rev.graph a.1 ↔ ge ∈ graphEdges rev.graph ∧ ge.edge.to = a.1 := by
    unfold incoming
    rw [(List.mergeSort_perm _ _).mem_iff, List.mem_filter, decide_eq_true_iff]
  unfold succ
  rw [List.mem_filterMap]
  constructor
  · rintro ⟨ge', hge', hcross⟩
    obtain ⟨b', hb', heq⟩ := Option.map_eq_some_iff.mp hcross
    obtain ⟨rfl, rfl⟩ := Prod.mk.inj heq
    obtain ⟨hin, hto⟩ := hmem.mp hge'
    exact ⟨hin, mem_outEdges.mpr ⟨_, hin⟩, hto, hb'⟩
  · rintro ⟨hin, -, hto, hcross⟩
    refine ⟨ge, hmem.mpr ⟨hin, hto⟩, Option.map_eq_some_iff.mpr ⟨b, hcross, rfl⟩⟩

/-- Every hop is made across some graph edge. -/
theorem exists_mem_succ {a b : PdKey} {id : String × TypedOutEdge} (h : Hop rev a id b) :
    ∃ ge, ge.identity = id ∧ (ge, b) ∈ rev.succ a := by
  obtain ⟨pos, hpos⟩ := mem_outEdges.mp h.1
  exact ⟨⟨id.1, pos, id.2⟩, rfl, mem_succ.mpr ⟨hpos, h⟩⟩

end PdRevision

/-- A hop leads to the routine its edge leaves. -/
theorem Hop.source {rev : PdRevision} {a b : PdKey} {id : String × TypedOutEdge}
    (h : Hop rev a id b) : b.1 = id.1 := by
  obtain ⟨r, -, rfl⟩ := Option.map_eq_some_iff.mp h.2.2
  rfl

/-! ## 2. The states are bounded -/

/-- The lists over `L` of length at most `n`. -/
def listsUpTo {α : Type} (L : List α) : ℕ → List (List α)
  | 0 => [[]]
  | n + 1 => [] :: L.flatMap fun x => (listsUpTo L n).map (x :: ·)

theorem mem_listsUpTo {α : Type} {L : List α} : ∀ {n : ℕ} {l : List α},
    l.length ≤ n → l ⊆ L → l ∈ listsUpTo L n
  | 0, [], _, _ => List.mem_singleton.mpr rfl
  | 0, _ :: _, h, _ => absurd h (by simp)
  | n + 1, [], _, _ => List.mem_cons_self
  | n + 1, x :: l, hlen, hsub => by
    obtain ⟨hx, hl⟩ := List.cons_subset.mp hsub
    refine List.mem_cons_of_mem _ (List.mem_flatMap.mpr ⟨x, hx, List.mem_map.mpr ⟨l, ?_, rfl⟩⟩)
    exact mem_listsUpTo (Nat.le_of_succ_le_succ hlen) hl

theorem length_listsUpTo {α : Type} (L : List α) : ∀ n, (listsUpTo L n).length ≤ (L.length + 1) ^ n
  | 0 => le_rfl
  | n + 1 => by
    have ih := length_listsUpTo L n
    have hlen : (listsUpTo L (n + 1)).length = 1 + L.length * (listsUpTo L n).length := by
      simp [listsUpTo, List.length_flatMap, List.map_const', List.sum_replicate]
      omega
    have hpos : 1 ≤ (L.length + 1) ^ n := Nat.one_le_pow _ _ (Nat.succ_pos _)
    have hmul : L.length * (listsUpTo L n).length ≤ L.length * (L.length + 1) ^ n :=
      Nat.mul_le_mul_left _ ih
    rw [hlen, Nat.pow_succ, Nat.mul_add, Nat.mul_one, Nat.mul_comm _ L.length]
    omega

theorem carryEventReq_subset {publisher subscriber : ModelRoutine} {frame : Option FrameGuards}
    {L out out' : List Req} {r : Req} (hL : ∀ f, frame = some f → f.literals ⊆ L) (hout : out ⊆ L)
    (h : carryEventReq publisher subscriber frame out r = some out') : out' ⊆ L := by
  unfold carryEventReq at h
  dsimp only at h
  split at h
  · rename_i i hi
    obtain ⟨-, hus⟩ := Option.filter_eq_some_iff.mp hi
    intro x hx
    rcases List.mem_append.mp ((conjoin_spec h).2 hx) with hx | hx
    · exact hout hx
    · rw [List.mem_singleton] at hx
      subst hx
      cases hf : frame with
      | none => simp [hf] at hus
      | some f =>
        rw [hf] at hus
        exact hL f hf (f.mem_literals_of_usable (List.contains_iff_mem.mp (by simpa using hus)) _)
  · obtain rfl := Option.some.inj h
    exact hout

/-- **What a crossing requires is short and stated by the caller's frame.** -/
theorem carryReqs_spec {reqs out edgeReqs : List Req} {edge : TypedOutEdge}
    {caller callee : Option ModelRoutine} {frame : Option FrameGuards} {L : List Req}
    (hL : ∀ f, frame = some f → f.literals ⊆ L) (hedge : edgeReqs ⊆ L)
    (h : carryReqs reqs edge caller callee frame edgeReqs = some out) :
    out.length ≤ maxReqs ∧ out ⊆ L := by
  have hevent : ∀ (publisher subscriber : ModelRoutine) (reqs : List Req) {acc out : List Req},
      acc ⊆ L → reqs.foldlM (carryEventReq publisher subscriber frame) acc = some out → out ⊆ L := by
    intro publisher subscriber reqs
    induction reqs with
    | nil =>
      intro acc out hacc h
      obtain rfl : acc = out := Option.some.inj h
      exact hacc
    | cons r reqs ih =>
      intro acc out hacc h
      rw [List.foldlM_cons] at h
      obtain ⟨mid, hmid, hrest⟩ := Option.bind_eq_some_iff.mp h
      exact ih (carryEventReq_subset hL hacc hmid) hrest
  unfold carryReqs at h
  obtain ⟨carried, hcarried, hconj⟩ := Option.bind_eq_some_iff.mp h
  have hsub : carried ⊆ L := by
    split at hcarried
    · exact hevent _ _ _ (List.nil_subset _) hcarried
    · split at hcarried
      · split at hcarried
        · exact acrossEdge_subset hL hcarried
        · obtain rfl := Option.some.inj hcarried
          exact List.nil_subset _
      · obtain rfl := Option.some.inj hcarried
        exact List.nil_subset _
      · obtain rfl := Option.some.inj hcarried
        exact List.nil_subset _
  obtain ⟨hlen, hout⟩ := conjoin_spec hconj
  exact ⟨hlen, List.Subset.trans hout (List.append_subset.mpr ⟨hsub, hedge⟩)⟩

/-- **What a crossing substitutes is a parameter the caller's row names.** -/
theorem crossIndex_mem {i j : ℕ} {edge : TypedOutEdge} {caller callee : Option ModelRoutine}
    (h : crossIndex i edge caller callee = .parameterDependent j) :
    ∃ row, caller = some row ∧ j ∈ rowPdIndices row := by
  have hsite : ∀ {s : BoundSite} {row : ModelRoutine}, boundSite edge caller = some (s, row) →
      caller = some row := by
    intro s row hb
    unfold boundSite at hb
    split at hb
    · simp at hb
    · split at hb
      · obtain ⟨_, _, heq⟩ := Option.map_eq_some_iff.mp hb
        rw [(Prod.mk.inj heq).2]
      · obtain ⟨_, _, heq⟩ := Option.map_eq_some_iff.mp hb
        rw [(Prod.mk.inj heq).2]
      · obtain ⟨_, _, heq⟩ := Option.map_eq_some_iff.mp hb
        rw [(Prod.mk.inj heq).2]
      · simp at hb
  unfold crossIndex at h
  split at h
  · rename_i publisher subscriber hev
    have hpub : caller = some publisher := by
      unfold eventPair at hev
      split at hev
      · rw [(Prod.mk.inj (Option.some.inj hev)).1]
      · simp at hev
    exact ⟨publisher, hpub, eventParamTempState_mem h⟩
  · rename_i hb
    exact ⟨_, hsite hb, pdTempStateAtCallsite_mem h⟩
  · rename_i hb
    exact ⟨_, hsite hb, triggerReceiverTempState_mem h⟩
  · split at h
    · split at h
      · exact ⟨_, rfl, tableEventParamTempState_mem h⟩
      · simp at h
    · simp at h

namespace PdRevision

variable {rev : PdRevision}

/-- The states a producer's search can find. -/
def allStates (rev : PdRevision) (prod : Producer) : Finset PdKey :=
  (rev.seedOf prod :: rev.callers.flatMap fun id => rev.callerTemps.flatMap fun t =>
    (listsUpTo rev.callerLiterals maxReqs).map fun reqs => (id, t, reqs)).toFinset

theorem card_allStates (prod : Producer) : (rev.allStates prod).card < rev.fuel := by
  refine lt_of_le_of_lt (List.toFinset_card_le _) ?_
  have hlen := length_listsUpTo rev.callerLiterals maxReqs
  have hprod : rev.callers.length * (rev.callerTemps.length *
      (listsUpTo rev.callerLiterals maxReqs).length) ≤ rev.callers.length *
      (rev.callerTemps.length * (rev.callerLiterals.length + 1) ^ maxReqs) :=
    Nat.mul_le_mul_left _ (Nat.mul_le_mul_left _ hlen)
  simp only [List.length_cons, List.length_flatMap, List.length_map, List.map_const',
    List.sum_replicate, Nat.nsmul_eq_mul]
  unfold fuel
  omega

/-- **A crossing stays among the states a search can find.** -/
theorem allStates_closed {prod : Producer} {a b : PdKey} {ge : GraphEdge}
    (h : (ge, b) ∈ rev.succ a) : b ∈ rev.allStates prod := by
  obtain ⟨hin, hhop⟩ := mem_succ.mp h
  obtain ⟨l, hl, -⟩ := mem_graphEdges.mp hin
  have hcaller : ge.from ∈ rev.callers := AList.mem_keys.mpr (AList.lookup_isSome.mp (by rw [hl]; rfl))
  obtain ⟨⟨t, reqs⟩, hcross, rfl⟩ := Option.map_eq_some_iff.mp hhop.2.2
  obtain ⟨reqs', hreqs, heq⟩ := Option.map_eq_some_iff.mp hcross
  obtain ⟨ht, rfl⟩ := Prod.mk.inj heq
  have hL : ∀ f, rev.frames ge.from = some f → f.literals ⊆ rev.callerLiterals := by
    intro f hf r hr
    exact List.mem_flatMap.mpr ⟨ge.from, hcaller, by simpa [hf] using hr⟩
  have hedge : rev.edgeReqs ge ⊆ rev.callerLiterals := by
    unfold edgeReqs
    split
    · rename_i fg site hfg _
      exact List.Subset.trans (fg.site_subset site) (hL fg hfg)
    · exact List.nil_subset _
  obtain ⟨hlen, hsub⟩ := carryReqs_spec hL hedge hreqs
  have htemp : t ∈ rev.callerTemps := by
    have hconst : ∀ t', (t' = .known true ∨ t' = .known false ∨ t' = .unknown) →
        t' ∈ rev.callerTemps := by
      intro t' ht'
      refine List.mem_append_left _ ?_
      simpa using ht'
    have hpd : ∀ j, (∃ row, rev.routinesById ge.from = some row ∧ j ∈ rowPdIndices row) →
        TempState.parameterDependent j ∈ rev.callerTemps := by
      rintro j ⟨row, hrow, hj⟩
      refine List.mem_append_right _ (List.mem_flatMap.mpr ⟨ge.from, hcaller, ?_⟩)
      simpa [hrow] using hj
    have hcases : ∀ t', (∀ j, t' = .parameterDependent j →
        ∃ row, rev.routinesById ge.from = some row ∧ j ∈ rowPdIndices row) → t' ∈ rev.callerTemps := by
      intro t' ht'
      cases t' with
      | known v => cases v <;> exact hconst _ (by simp)
      | unknown => exact hconst _ (by simp)
      | parameterDependent j => exact hpd j (ht' j rfl)
    subst ht
    split
    · exact hcases _ fun j hj => crossIndex_mem hj
    · rename_i hnot
      exact hcases _ fun j hj => absurd hj (hnot j)
  refine List.mem_toFinset.mpr (List.mem_cons_of_mem _ ?_)
  exact List.mem_flatMap.mpr ⟨ge.from, hcaller, List.mem_flatMap.mpr ⟨t, htemp,
    List.mem_map.mpr ⟨reqs', mem_listsUpTo hlen hsub, rfl⟩⟩⟩

/-- **Every producer's search ends**, having found what is reachable from the seed. -/
theorem bfs_solved (rev : PdRevision) (prod : Producer) :
    ∃ s, Bfs.run rev.succ rev.fuel (rev.seedOf prod) = some s ∧
      Bfs.Solved rev.succ (rev.seedOf prod) s :=
  Bfs.run_spec (rev.allStates prod) (List.mem_toFinset.mpr List.mem_cons_self)
    (fun _ _ _ _ hb => allStates_closed hb) (card_allStates prod)

end PdRevision

end AlSem.L4
