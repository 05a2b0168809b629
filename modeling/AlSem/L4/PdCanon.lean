/-
# The canonical arena

`finalize` forgets the order a solve found things in: two solves that cover the same searches,
their producers placed alike, have one canonical form (`finalize_eq`), and `Canonical` says what
stands in it.
-/
import AlSem.L4.PdCover

namespace AlSem.L4

/-! ## 1. The ranks tell apart -/

instance : Std.TransCmp edgeCmp := by
  unfold edgeCmp
  infer_instance

instance : Std.TransCmp tempCmp := by
  unfold tempCmp
  infer_instance

instance : Std.TransCmp reqCmp := by
  unfold reqCmp
  infer_instance

instance : Std.TransCmp stateCmp := by
  have := Ranking.transCmp_comap tempCmp ConeState.t
  have := Ranking.transCmp_comap (List.compareLex reqCmp) ConeState.reqs
  unfold stateCmp
  infer_instance

instance : Std.TransCmp linkCmp := by
  unfold linkCmp
  infer_instance

theorem edgeCmp_eq {a b : String × TypedOutEdge} (h : edgeCmp a b = .eq) : a = b := by
  simp only [edgeCmp, compareLex_eq_eq, compareOn, Std.LawfulEqOrd.compare_eq_iff_eq] at h
  obtain ⟨af, a⟩ := a
  obtain ⟨bf, b⟩ := b
  cases a
  cases b
  simp only at h
  obtain ⟨rfl, rfl, rfl, rfl, rfl, rfl, rfl⟩ := h
  rfl

theorem tempCmp_eq {a b : TempState} (h : tempCmp a b = .eq) : a = b := by
  simp only [tempCmp, compareLex_eq_eq, compareOn, Std.LawfulEqOrd.compare_eq_iff_eq] at h
  obtain ⟨hv, hp⟩ := h
  cases a <;> cases b <;> simp [TempState.variant, TempState.payload] at hv hp ⊢
  · rename_i v w
    revert hp
    cases v <;> cases w <;> decide
  · exact hp

theorem reqCmp_eq {a b : Req} (h : reqCmp a b = .eq) : a = b := by
  simp only [reqCmp, compareLex_eq_eq, compareOn, Std.LawfulEqOrd.compare_eq_iff_eq] at h
  exact Prod.ext h.1 h.2

instance : Std.LawfulEqCmp reqCmp := ⟨reqCmp_eq⟩

theorem linkCmp_eq {a b : ConeLink} (h : linkCmp a b = .eq) : a = b := by
  simp only [linkCmp, compareLex_eq_eq, compareOn, Std.LawfulEqOrd.compare_eq_iff_eq] at h
  cases a
  cases b
  simp only at h
  obtain ⟨rfl, rfl⟩ := h
  rfl

/-- The rank of a state reads its producer, its distance and its key. -/
theorem stateCmp_eq {a b : ConeState} (h : stateCmp a b = .eq) :
    a.producer = b.producer ∧ a.dist = b.dist ∧ a.pdKey = b.pdKey := by
  simp only [stateCmp, compareLex_eq_eq, compareOn, Std.LawfulEqOrd.compare_eq_iff_eq] at h
  obtain ⟨hp, hd, hr, ht, hreqs⟩ := h
  have ht' := tempCmp_eq ht
  have hreqs' := Std.LawfulEqCmp.eq_of_compare hreqs
  exact ⟨hp, hd, by simp only [ConeState.pdKey, hr, ht', hreqs']⟩

/-- States of one solve are told apart by their rank. -/
theorem eq_of_stateCmp_eq {rev : PdRevision} {P : List Producer} {a b : ConeState}
    (ha : IsState rev P a) (hb : IsState rev P b) (h : stateCmp a b = .eq) : a = b := by
  obtain ⟨hp, hd, hk⟩ := stateCmp_eq h
  obtain ⟨-, n, key, -, -, ha⟩ := ha
  obtain ⟨-, m, key', -, -, hb⟩ := hb
  rw [ha, hb] at hk hd ⊢
  simp only [stateOf_pdKey, stateOf_dist] at hk hd
  rw [hk, hd, hp]

/-! ## 2. The parts in rank order -/

/-- The solve covers the searches of all its producers. -/
def RawSolve.Covers (rev : PdRevision) (raw : RawSolve) : Prop :=
  Covered rev raw.producers Set.univ raw.states raw.rawLinks raw.edges

namespace RawSolve

variable {rev : PdRevision} {raw raw' : RawSolve}

/-- The producers in rank order. -/
def placed (raw : RawSolve) : List Producer := Ranking.place producerLe raw.producers

/-- The states in rank order. -/
def placedStates (raw : RawSolve) : List ConeState := Ranking.place stateLe raw.rankedStates

theorem state_producer_lt (h : raw.Covers rev) {s : ConeState} (hs : s ∈ raw.states) :
    s.producer < raw.producers.length := by
  obtain ⟨-, prod, -, -, hprod, -⟩ := (h.state s).mp hs
  exact (List.getElem?_eq_some_iff.mp hprod).1

theorem mem_rankedStates (h : raw.Covers rev) {s : ConeState} :
    s ∈ raw.rankedStates ↔ IsState rev raw.placed s := by
  unfold rankedStates
  rw [List.mem_map]
  constructor
  · rintro ⟨s, hs, rfl⟩
    obtain ⟨-, prod, n, key, hprod, hf, heq⟩ := (h.state s).mp hs
    refine ⟨prod, n, key, ?_, hf, by rw [heq]; rfl⟩
    show (Ranking.place producerLe raw.producers)[raw.producerRank s.producer]? = _
    rw [producerRank, Ranking.place_rank (state_producer_lt h hs)]
    exact hprod
  · rintro ⟨prod, n, key, hprod, hf, heq⟩
    have hlt := (List.getElem?_eq_some_iff.mp hprod).1
    rw [placed, Ranking.length_place] at hlt
    obtain ⟨i, hi, hrank⟩ := Ranking.exists_rank producerLe hlt
    rw [placed, ← hrank, Ranking.place_rank hi] at hprod
    refine ⟨stateOf i key n, (h.state _).mpr ⟨Set.mem_univ _, prod, n, key, hprod, hf, rfl⟩, ?_⟩
    rw [heq, ← hrank]
    rfl

theorem nodup_rankedStates (h : raw.Covers rev) : raw.rankedStates.Nodup := by
  refine List.Nodup.map_on (fun a ha b hb heq => ?_) h.nodup
  have hrank := congrArg ConeState.producer heq
  have hprod := Ranking.rank_inj (state_producer_lt h ha) (state_producer_lt h hb) hrank
  obtain ⟨-, -, n, key, -, -, ha⟩ := (h.state a).mp ha
  obtain ⟨-, -, m, key', -, -, hb⟩ := (h.state b).mp hb
  have hkey := congrArg ConeState.pdKey heq
  have hdist := congrArg ConeState.dist heq
  rw [ha, hb] at hkey hdist ⊢
  simp only [stateOf_producer] at *
  obtain rfl : key = key' := hkey
  obtain rfl : n = m := hdist
  rw [hprod]

theorem mem_placedStates (h : raw.Covers rev) {s : ConeState} :
    s ∈ raw.placedStates ↔ IsState rev raw.placed s :=
  (Ranking.place_perm _ _).mem_iff.trans (mem_rankedStates h)

theorem placedStates_lt (h : raw.Covers rev) :
    raw.placedStates.Pairwise fun a b => stateCmp a b = .lt :=
  Ranking.place_lt (nodup_rankedStates h) fun _ ha _ hb =>
    eq_of_stateCmp_eq ((mem_rankedStates h).mp ha) ((mem_rankedStates h).mp hb)

theorem canonEdges_lt : raw.canonEdges.Pairwise fun a b => edgeCmp a b = .lt := by
  refine Ranking.dropRepeats_lt (fun _ _ => edgeCmp_eq) ?_
  exact Ranking.place_pairwise (fun a _ b _ c _ => Std.TransCmp.isLE_trans) fun a _ b _ =>
    Ranking.isLE_total a b

theorem mem_canonEdges {id : String × TypedOutEdge} :
    id ∈ raw.canonEdges ↔ ∃ ge ∈ raw.edges, ge.identity = id := by
  unfold canonEdges
  rw [Ranking.mem_dropRepeats, (Ranking.place_perm _ _).mem_iff, List.mem_map]

/-- The state at an index, its producer ranked. -/
theorem rankedStates_getElem? (j : ℕ) : raw.rankedStates[j]? =
    (raw.states[j]?).map fun s => { s with producer := raw.producerRank s.producer } :=
  List.getElem?_map

/-- Every state of the solve, its producer ranked, is at some index. -/
theorem exists_index (h : raw.Covers rev) {s : ConeState} (hs : IsState rev raw.placed s) :
    ∃ (j : ℕ) (s₀ : ConeState), raw.states[j]? = some s₀ ∧ raw.rankedStates[j]? = some s ∧
      s = { s₀ with producer := raw.producerRank s₀.producer } := by
  obtain ⟨j, hj⟩ := List.mem_iff_getElem?.mp ((mem_rankedStates h).mpr hs)
  have hj' := hj
  rw [rankedStates_getElem?, Option.map_eq_some_iff] at hj'
  obtain ⟨s₀, hs₀, heq⟩ := hj'
  exact ⟨j, s₀, hs₀, hj, heq.symm⟩

theorem producerRank_inj (h : raw.Covers rev) {a b : ConeState} {i j : ℕ}
    (ha : raw.states[i]? = some a) (hb : raw.states[j]? = some b)
    (heq : raw.producerRank a.producer = raw.producerRank b.producer) : a.producer = b.producer :=
  Ranking.rank_inj (state_producer_lt h (List.mem_of_getElem? ha))
    (state_producer_lt h (List.mem_of_getElem? hb)) heq

/-- The state at an index stands at the index's rank. -/
theorem placedStates_stateRank {j : ℕ} {s : ConeState} (hj : raw.rankedStates[j]? = some s) :
    raw.placedStates[raw.stateRank j]? = some s := by
  rw [placedStates, stateRank, Ranking.place_rank (List.getElem?_eq_some_iff.mp hj).1]
  exact hj

/-- The canonical edges are those some hop between two states of one producer crosses. -/
theorem mem_canonEdges_iff (h : raw.Covers rev) {id : String × TypedOutEdge} :
    id ∈ raw.canonEdges ↔ ∃ c s, IsState rev raw.placed c ∧ IsState rev raw.placed s ∧
      c.producer = s.producer ∧ Hop rev c.pdKey id s.pdKey := by
  rw [mem_canonEdges]
  constructor
  · rintro ⟨ge, hge, rfl⟩
    obtain ⟨c, hc, s, hs, hprods, hhop⟩ := h.used ge hge
    exact ⟨_, _, (mem_rankedStates h).mp (List.mem_map_of_mem hc),
      (mem_rankedStates h).mp (List.mem_map_of_mem hs), congrArg raw.producerRank hprods, hhop⟩
  · rintro ⟨c, s, hc, hs, hprods, hhop⟩
    obtain ⟨i, c₀, hc₀, -, rfl⟩ := exists_index h hc
    obtain ⟨j, s₀, hs₀, -, rfl⟩ := exists_index h hs
    obtain ⟨k, -, -, hid⟩ := (h.link j s₀ hs₀ i id).mpr
      ⟨c₀, hc₀, producerRank_inj h hc₀ hs₀ hprods, hhop⟩
    obtain ⟨ge, hge, rfl⟩ := Option.map_eq_some_iff.mp hid
    exact ⟨ge, List.mem_of_getElem? hge, rfl⟩

/-- The rank of an edge is the place of its identity. -/
theorem edgeRank_iff {k n : ℕ} {ge : GraphEdge} (hk : raw.edges[k]? = some ge) :
    raw.edgeRank k = n ↔ raw.canonEdges[n]? = some ge.identity := by
  have hmem : ge.identity ∈ raw.canonEdges :=
    mem_canonEdges.mpr ⟨ge, List.mem_of_getElem? hk, rfl⟩
  have hat : raw.canonEdges[raw.canonEdges.idxOf ge.identity]? = some ge.identity := by
    rw [List.getElem?_eq_getElem (List.idxOf_lt_length_of_mem hmem), List.getElem_idxOf]
  have hrank : raw.edgeRank k = raw.canonEdges.idxOf ge.identity := by
    unfold edgeRank
    rw [hk]
  rw [hrank]
  constructor
  · rintro rfl
    exact hat
  · exact Bfs.index_unique (Ranking.nodup_of_lt canonEdges_lt) hat

end RawSolve

/-- `l` links a state from a state of its producer across an edge, by rank. -/
def IsLink (rev : PdRevision) (states : List ConeState) (ids : List (String × TypedOutEdge))
    (s : ConeState) (l : ConeLink) : Prop :=
  ∃ c id, states[l.calleeState]? = some c ∧ ids[l.edge]? = some id ∧ c.producer = s.producer ∧
    Hop rev c.pdKey id s.pdKey

namespace RawSolve

variable {rev : PdRevision} {raw raw' : RawSolve}

/-- **The links of a state in ranks.** -/
theorem mem_rankedLinks (h : raw.Covers rev) {j : ℕ} {s : ConeState}
    (hj : raw.rankedStates[j]? = some s) (l : ConeLink) :
    l ∈ raw.rankedLinks j ↔ IsLink rev raw.placedStates raw.canonEdges s l := by
  have hj' := hj
  rw [rankedStates_getElem?, Option.map_eq_some_iff] at hj'
  obtain ⟨s₀, hs₀, rfl⟩ := hj'
  unfold rankedLinks
  rw [Ranking.mem_dropRepeats, (List.mergeSort_perm _ _).mem_iff, List.mem_map]
  constructor
  · rintro ⟨k, hk, rfl⟩
    obtain ⟨ge, hge⟩ : ∃ ge, raw.edges[k.edge]? = some ge :=
      ⟨_, List.getElem?_eq_getElem (h.linkEdge j k hk)⟩
    obtain ⟨c₀, hc₀, hprods, hhop⟩ := (h.link j s₀ hs₀ k.calleeState ge.identity).mp
      ⟨k, hk, rfl, by rw [hge]; rfl⟩
    have hranked : raw.rankedStates[k.calleeState]? =
        some { c₀ with producer := raw.producerRank c₀.producer } := by
      rw [rankedStates_getElem?, hc₀]
      rfl
    exact ⟨_, ge.identity, placedStates_stateRank hranked, (edgeRank_iff hge).mp rfl,
      congrArg raw.producerRank hprods, hhop⟩
  · rintro ⟨c, id, hc, hid, hprods, hhop⟩
    have hlt := (List.getElem?_eq_some_iff.mp hc).1
    rw [placedStates, Ranking.length_place] at hlt
    obtain ⟨i, hi, hrank⟩ := Ranking.exists_rank stateLe hlt
    have hci : raw.rankedStates[i]? = some c := by
      rw [← hc, placedStates, ← hrank, Ranking.place_rank hi]
    have hci' := hci
    rw [rankedStates_getElem?, Option.map_eq_some_iff] at hci'
    obtain ⟨c₀, hc₀, rfl⟩ := hci'
    obtain ⟨k, hk, hki, hkid⟩ := (h.link j s₀ hs₀ i id).mpr
      ⟨c₀, hc₀, producerRank_inj h hc₀ hs₀ hprods, hhop⟩
    obtain ⟨ge, hge, rfl⟩ := Option.map_eq_some_iff.mp hkid
    refine ⟨k, hk, ?_⟩
    rw [hki, (edgeRank_iff hge).mpr hid]
    show ConeLink.mk (Ranking.rank stateLe raw.rankedStates i) l.edge = l
    rw [hrank]

theorem rankedLinks_lt (j : ℕ) : (raw.rankedLinks j).Pairwise fun a b => linkCmp a b = .lt := by
  refine Ranking.dropRepeats_lt (fun _ _ => linkCmp_eq) ?_
  exact List.pairwise_mergeSort (fun a b c => Std.TransCmp.isLE_trans)
    (fun a b => Ranking.isLE_total a b) _

/-- **The link list at a place** is that of the state there. -/
theorem placedLinks_spec (h : raw.Covers rev) {n : ℕ} {ls : List ConeLink}
    (hls : raw.placedLinks[n]? = some ls) : ∃ s, raw.placedStates[n]? = some s ∧
      (∀ l, l ∈ ls ↔ IsLink rev raw.placedStates raw.canonEdges s l) ∧
      ls.Pairwise fun a b => linkCmp a b = .lt := by
  unfold placedLinks at hls
  rw [List.getElem?_map, Option.map_eq_some_iff] at hls
  obtain ⟨j, hj, rfl⟩ := hls
  obtain ⟨hlt, hrank⟩ := Ranking.order_getElem hj
  have hs := List.getElem?_eq_getElem hlt
  exact ⟨_, hrank ▸ placedStates_stateRank hs, mem_rankedLinks h hs, rankedLinks_lt j⟩

theorem length_placedLinks : raw.placedLinks.length = raw.placedStates.length := by
  unfold placedLinks placedStates
  rw [List.length_map, List.length_map, Ranking.length_order, Ranking.length_place]

/-! ## 3. One canonical form -/

/-- **The canonical form forgets the order of the solve**: it reads the searches covered and the
producers in rank order. -/
theorem finalize_eq (h : raw.Covers rev) (h' : raw'.Covers rev) (hP : raw.placed = raw'.placed) :
    finalize raw = finalize raw' := by
  have hQ : raw.placedStates = raw'.placedStates := by
    refine Ranking.eq_of_lt (placedStates_lt h) (placedStates_lt h') fun s => ?_
    rw [mem_placedStates h, mem_placedStates h', hP]
  have hE : raw.canonEdges = raw'.canonEdges := by
    refine Ranking.eq_of_lt canonEdges_lt canonEdges_lt fun id => ?_
    rw [mem_canonEdges_iff h, mem_canonEdges_iff h', hP]
  have hL : raw.placedLinks = raw'.placedLinks := by
    refine List.ext_getElem? fun n => ?_
    by_cases hn : n < raw.placedLinks.length
    · have hn' : n < raw'.placedLinks.length := by
        rw [length_placedLinks, ← hQ, ← length_placedLinks]
        exact hn
      obtain ⟨s, hs, hmem, hlt⟩ := placedLinks_spec h (List.getElem?_eq_getElem hn)
      obtain ⟨s', hs', hmem', hlt'⟩ := placedLinks_spec h' (List.getElem?_eq_getElem hn')
      rw [hQ, hs', Option.some.injEq] at hs
      subst hs
      rw [List.getElem?_eq_getElem hn, List.getElem?_eq_getElem hn']
      congr 1
      refine Ranking.eq_of_lt hlt hlt' fun l => ?_
      rw [hmem, hmem', hQ, hE]
    · have hn' : ¬ n < raw'.placedLinks.length := by
        rw [length_placedLinks, ← hQ, ← length_placedLinks]
        exact hn
      rw [List.getElem?_eq_none_iff.mpr (Nat.not_lt.mp hn),
        List.getElem?_eq_none_iff.mpr (Nat.not_lt.mp hn')]
  unfold finalize
  unfold placed at hP
  unfold placedStates at hQ
  rw [hP, hQ, hE, hL]

end RawSolve

/-! ## 4. What stands in a canonical arena -/

/-- A state without the range of its links. -/
def ConeState.bare (s : ConeState) : ConeState := { s with links := (0, 0) }

/-- What a state is that a search finds. -/
theorem eq_of_bare_eq {s : ConeState} {p n : ℕ} {key : PdKey} (h : s.bare = stateOf p key n) :
    s.producer = p ∧ s.pdKey = key ∧ s.dist = n ∧ s.seed = decide (n = 0) :=
  ⟨congrArg ConeState.producer h, congrArg ConeState.pdKey h, congrArg ConeState.dist h,
    congrArg ConeState.seed h⟩

/-- **The canonical arena of the searches of its producers**, `ids` the identities of its edges. -/
structure Canonical (rev : PdRevision) (ids : List (String × TypedOutEdge)) (a : ConeArena) : Prop where
  edges : a.edges = ids.map Prod.snd
  edgesLt : ids.Pairwise fun x y => edgeCmp x y = .lt
  used : ∀ id, id ∈ ids ↔ ∃ c s, IsState rev a.producers c ∧ IsState rev a.producers s ∧
    c.producer = s.producer ∧ Hop rev c.pdKey id s.pdKey
  state : ∀ s, s ∈ a.states.map ConeState.bare ↔ IsState rev a.producers s
  statesLt : a.states.Pairwise fun x y => stateCmp x y = .lt
  link : ∀ s ∈ a.states, ∀ l, l ∈ a.linksOf s ↔ IsLink rev a.states ids s l
  linksLt : ∀ s ∈ a.states, (a.linksOf s).Pairwise fun x y => linkCmp x y = .lt
  byRoutine : ∀ r, a.byRoutine r = (a.states.zipIdx.filter fun s => s.1.routine = r).map Prod.snd

/-- Laying out keeps the states. -/
theorem map_bare_layOut : ∀ (start : ℕ) {states : List ConeState} {links : List (List ConeLink)},
    states.length = links.length → (∀ s ∈ states, s.bare = s) →
    (layOut start states links).map ConeState.bare = states
  | _, [], [], _, _ => rfl
  | start, s :: states, ls :: links, hlen, hbare => by
    have hs : s.bare = s := hbare s List.mem_cons_self
    unfold layOut
    rw [List.map_cons, map_bare_layOut _ (Nat.succ.inj hlen) fun s hs =>
      hbare s (List.mem_cons_of_mem _ hs)]
    exact congrArg (· :: states) hs

/-- Laying out gives each state the range of its own links. -/
theorem layOut_links : ∀ (pre : List ConeLink) {states : List ConeState}
    {links : List (List ConeLink)} {n : ℕ} {s : ConeState},
    (layOut pre.length states links)[n]? = some s →
    ∃ ls, links[n]? = some ls ∧
      ((pre ++ links.flatten).drop s.links.1).take (s.links.2 - s.links.1) = ls
  | _, [], _, n, s, h => by simp [layOut] at h
  | _, _ :: _, [], n, s, h => by simp [layOut] at h
  | pre, s₀ :: states, ls :: links, 0, s, h => by
    obtain rfl := Option.some.inj h
    refine ⟨ls, rfl, ?_⟩
    simp
  | pre, s₀ :: states, ls :: links, n + 1, s, h => by
    have hlen : pre.length + ls.length = (pre ++ ls).length := List.length_append.symm
    unfold layOut at h
    rw [List.getElem?_cons_succ, hlen] at h
    obtain ⟨ls', hls', htake⟩ := layOut_links (pre ++ ls) h
    refine ⟨ls', hls', ?_⟩
    rw [List.flatten_cons, ← List.append_assoc]
    exact htake

namespace RawSolve

variable {rev : PdRevision} {raw : RawSolve}

theorem map_bare_finalize (h : raw.Covers rev) :
    (finalize raw).1.states.map ConeState.bare = raw.placedStates := by
  refine map_bare_layOut 0 length_placedLinks.symm fun s hs => ?_
  obtain ⟨-, n, key, -, -, heq⟩ := (mem_placedStates h).mp hs
  rw [heq]
  rfl

/-- The states of the arena are linked as the placed states are. -/
theorem isLink_finalize (h : raw.Covers rev) {s : ConeState} {l : ConeLink}
    {ids : List (String × TypedOutEdge)} :
    IsLink rev (finalize raw).1.states ids s l ↔ IsLink rev raw.placedStates ids s.bare l := by
  unfold IsLink
  rw [← map_bare_finalize h, List.getElem?_map]
  constructor
  · rintro ⟨c, id, hc, hid, hprods, hhop⟩
    exact ⟨c.bare, id, by rw [hc]; rfl, hid, hprods, hhop⟩
  · rintro ⟨c, id, hc, hid, hprods, hhop⟩
    obtain ⟨c, hc', rfl⟩ := Option.map_eq_some_iff.mp hc
    exact ⟨c, id, hc', hid, hprods, hhop⟩

/-- The links of a state of the arena are those at its place. -/
theorem linksOf_finalize (h : raw.Covers rev) {s : ConeState} (hs : s ∈ (finalize raw).1.states) :
    (∀ l, l ∈ (finalize raw).1.linksOf s ↔ IsLink rev raw.placedStates raw.canonEdges s.bare l) ∧
      ((finalize raw).1.linksOf s).Pairwise fun a b => linkCmp a b = .lt := by
  obtain ⟨n, hn⟩ := List.mem_iff_getElem?.mp hs
  obtain ⟨ls, hls, hlinks⟩ := layOut_links [] hn
  have hbare : raw.placedStates[n]? = some s.bare := by
    rw [← map_bare_finalize h, List.getElem?_map, hn]
    rfl
  obtain ⟨s', hs', hmem, hlt⟩ := placedLinks_spec h hls
  obtain rfl := Option.some.inj (hbare.symm.trans hs')
  have heq : (finalize raw).1.linksOf s = ls := by
    rw [← hlinks]
    rfl
  rw [heq]
  exact ⟨hmem, hlt⟩

/-- **The canonical form is canonical.** -/
theorem finalize_canonical (h : raw.Covers rev) :
    Canonical rev raw.canonEdges (finalize raw).1 where
  edges := rfl
  edgesLt := canonEdges_lt
  used := fun _ => mem_canonEdges_iff h
  state := fun s => by
    rw [map_bare_finalize h]
    exact mem_placedStates h
  statesLt := by
    have hlt := placedStates_lt h
    rw [← map_bare_finalize h, List.pairwise_map] at hlt
    exact hlt
  link := fun s hs l => ((linksOf_finalize h hs).1 l).trans (isLink_finalize h).symm
  linksLt := fun s hs => (linksOf_finalize h hs).2
  byRoutine := fun _ => rfl

end RawSolve

end AlSem.L4
