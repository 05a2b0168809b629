/-
# The order of the input

The canonical arena reads neither the order of the producers nor that of the graph, as far as the
producer rank is an order.  It is one except where two operation ids with an ordinal stand, as
strings, on both sides of one without, in the reverse of the order of their ordinals: `Straddles`.

`solve_orderFree_iff`: the solve is independent of the order of its input, its ranks all strictly
increasing, exactly when no three producers of one owner do.
-/
import AlSem.L4.PdSeeded

namespace AlSem.L4

open AlSem.Model

/-! ## 1. The producer rank -/

theorem opIdCmp_swap (a b : String) : opIdCmp b a = (opIdCmp a b).swap := by
  have htext : compare b a = (compare a b).swap := Std.OrientedCmp.eq_swap
  unfold opIdCmp
  cases opIdSplit a <;> cases opIdSplit b <;> try exact htext
  rename_i x y
  have h₁ : compare y.1 x.1 = (compare x.1 y.1).swap := Std.OrientedCmp.eq_swap
  have h₂ : compare y.2 x.2 = (compare x.2 y.2).swap := Std.OrientedCmp.eq_swap
  dsimp only
  rw [h₁, h₂, htext, Ordering.swap_then, Ordering.swap_then]

theorem opIdCmp_eq {a b : String} (h : opIdCmp a b = .eq) : a = b := by
  unfold opIdCmp at h
  split at h
  · exact Std.LawfulEqOrd.eq_of_compare (Ordering.then_eq_eq.mp h).2
  · exact Std.LawfulEqOrd.eq_of_compare h

/-- Two ids, one of them without an ordinal, compare as strings. -/
theorem opIdCmp_of_none {a b : String} (h : opIdSplit a = none ∨ opIdSplit b = none) :
    opIdCmp a b = compare a b := by
  unfold opIdCmp
  rcases h with h | h <;> rw [h]
  cases opIdSplit a <;> rfl

/-- Ids with ordinals compare transitively. -/
theorem opIdCmp_trans_of_some {a b c : String} {x y z : String × ℕ} (ha : opIdSplit a = some x)
    (hb : opIdSplit b = some y) (hc : opIdSplit c = some z) (hab : (opIdCmp a b).isLE = true)
    (hbc : (opIdCmp b c).isLE = true) : (opIdCmp a c).isLE = true := by
  let cmp : (String × ℕ) × String → (String × ℕ) × String → Ordering :=
    compareLex (compareLex (compareOn fun p => p.1.1) (compareOn fun p => p.1.2))
      (compareOn fun p => p.2)
  have htrans : Std.TransCmp cmp := inferInstance
  have hcmp : ∀ {a b : String} {x y : String × ℕ}, opIdSplit a = some x → opIdSplit b = some y →
      opIdCmp a b = cmp (x, a) (y, b) := by
    intro a b x y ha hb
    unfold opIdCmp
    rw [ha, hb]
    rfl
  rw [hcmp ha hb] at hab
  rw [hcmp hb hc] at hbc
  rw [hcmp ha hc]
  exact htrans.isLE_trans hab hbc

/-- **Two ids with an ordinal on both sides of one without**, in the reverse of the order of their
ordinals. -/
def StraddlesId (a b u : String) : Prop :=
  ∃ x y, opIdSplit a = some x ∧ opIdSplit b = some y ∧ opIdSplit u = none ∧
    (compare x.1 y.1).then (compare x.2 y.2) = .lt ∧ compare b u = .lt ∧ compare u a = .lt

/-- Three producers of one owner whose ids straddle. -/
def Straddles (p q u : Producer) : Prop :=
  p.owner = q.owner ∧ u.owner = q.owner ∧ StraddlesId p.operationId q.operationId u.operationId

/-- No three producers of a list straddle. -/
def NoStraddle (producers : List Producer) : Prop :=
  ∀ p ∈ producers, ∀ q ∈ producers, ∀ u ∈ producers, ¬ Straddles p q u

/-- Ids that differ in having an ordinal are ordered strictly. -/
theorem lt_of_isLE_of_split {a b : String} (hne : opIdSplit a ≠ opIdSplit b)
    (h : (compare a b).isLE = true) : compare a b = .lt := by
  rcases Ordering.isLE_iff_eq_lt_or_eq_eq.mp h with hlt | heq
  · exact hlt
  · exact absurd (congrArg opIdSplit (Std.LawfulEqOrd.eq_of_compare heq)) hne

/-- What breaks the order is a straddle. -/
theorem straddlesId_of_isLE {a b u : String} {x y : String × ℕ} (ha : opIdSplit a = some x)
    (hb : opIdSplit b = some y) (hu : opIdSplit u = none) (hab : (opIdCmp a b).isLE = true)
    (hbu : (compare b u).isLE = true) (hua : (compare u a).isLE = true) : StraddlesId a b u := by
  have hbu' : compare b u = .lt := lt_of_isLE_of_split (by rw [hb, hu]; simp) hbu
  have hua' : compare u a = .lt := lt_of_isLE_of_split (by rw [hu, ha]; simp) hua
  have hba : compare b a = .lt := Std.TransCmp.lt_trans hbu' hua'
  refine ⟨x, y, ha, hb, hu, ?_, hbu', hua'⟩
  have hswap : compare a b = (compare b a).swap := Std.OrientedCmp.eq_swap
  simp only [opIdCmp, ha, hb, hswap, hba] at hab
  revert hab
  generalize (compare x.1 y.1).then (compare x.2 y.2) = o
  cases o <;> decide

/-- **Operation ids compare transitively** unless they straddle. -/
theorem opIdCmp_trans {a b c : String} (h₁ : ¬ StraddlesId b c a) (h₂ : ¬ StraddlesId c a b)
    (h₃ : ¬ StraddlesId a b c) (hab : (opIdCmp a b).isLE = true) (hbc : (opIdCmp b c).isLE = true) :
    (opIdCmp a c).isLE = true := by
  have hswap : opIdCmp c a = (opIdCmp a c).swap := opIdCmp_swap a c
  have hnot : (opIdCmp c a).isLE = false → (opIdCmp a c).isLE = true := by
    rw [hswap]
    cases opIdCmp a c <;> decide
  cases ha : opIdSplit a with
  | none =>
    cases hb : opIdSplit b with
    | none =>
      rw [opIdCmp_of_none (Or.inl ha)] at hab ⊢
      rw [opIdCmp_of_none (Or.inl hb)] at hbc
      exact Std.TransCmp.isLE_trans hab hbc
    | some y =>
      cases hc : opIdSplit c with
      | none =>
        rw [opIdCmp_of_none (Or.inl ha)] at hab ⊢
        rw [opIdCmp_of_none (Or.inr hc)] at hbc
        exact Std.TransCmp.isLE_trans hab hbc
      | some z =>
        refine hnot (Bool.eq_false_iff.mpr fun hca => h₁ ?_)
        rw [opIdCmp_of_none (Or.inl ha)] at hab
        rw [opIdCmp_of_none (Or.inr ha)] at hca
        exact straddlesId_of_isLE hb hc ha hbc hca hab
  | some x =>
    cases hb : opIdSplit b with
    | none =>
      rw [opIdCmp_of_none (Or.inr hb)] at hab
      rw [opIdCmp_of_none (Or.inl hb)] at hbc
      cases hc : opIdSplit c with
      | none =>
        rw [opIdCmp_of_none (Or.inr hc)]
        exact Std.TransCmp.isLE_trans hab hbc
      | some z =>
        exact hnot (Bool.eq_false_iff.mpr fun hca => h₂ (straddlesId_of_isLE hc ha hb hca hab hbc))
    | some y =>
      cases hc : opIdSplit c with
      | none =>
        refine hnot (Bool.eq_false_iff.mpr fun hca => h₃ ?_)
        rw [opIdCmp_of_none (Or.inr hc)] at hbc
        rw [opIdCmp_of_none (Or.inl hc)] at hca
        exact straddlesId_of_isLE ha hb hc hab hbc hca
      | some z => exact opIdCmp_trans_of_some ha hb hc hab hbc

theorem producerCmp_swap (p q : Producer) : producerCmp q p = (producerCmp p q).swap := by
  have howner : compare q.owner p.owner = (compare p.owner q.owner).swap := Std.OrientedCmp.eq_swap
  rw [producerCmp, producerCmp, howner, opIdCmp_swap p.operationId, Ordering.swap_then]

theorem producerCmp_eq {p q : Producer} (h : producerCmp p q = .eq) :
    p.owner = q.owner ∧ p.operationId = q.operationId := by
  obtain ⟨howner, hop⟩ := Ordering.then_eq_eq.mp h
  exact ⟨Std.LawfulEqOrd.eq_of_compare howner, opIdCmp_eq hop⟩

theorem producerLe_total (p q : Producer) : (producerLe p q || producerLe q p) = true := by
  rw [producerLe, producerLe, producerCmp_swap p q]
  cases producerCmp p q <;> rfl

/-- **The producer rank is transitive** where nothing straddles. -/
theorem producerLe_trans {producers : List Producer} (h : NoStraddle producers) :
    ∀ p ∈ producers, ∀ q ∈ producers, ∀ u ∈ producers, producerLe p q = true →
      producerLe q u = true → producerLe p u = true := by
  intro p hp q hq u hu hpq hqu
  unfold producerLe producerCmp at hpq hqu ⊢
  rw [Ordering.isLE_then_iff_or] at hpq hqu ⊢
  rcases hpq with hpq | ⟨hpq, hop⟩
  · refine Or.inl ?_
    rcases hqu with hqu | ⟨hqu, -⟩
    · exact Std.TransCmp.lt_trans hpq hqu
    · rw [← Std.LawfulEqOrd.eq_of_compare hqu]
      exact hpq
  · have hpq' := Std.LawfulEqOrd.eq_of_compare hpq
    rcases hqu with hqu | ⟨hqu, hop'⟩
    · rw [hpq']
      exact Or.inl hqu
    · have hqu' := Std.LawfulEqOrd.eq_of_compare hqu
      refine Or.inr ⟨by rw [hpq', hqu']; exact Std.ReflCmp.compare_self, ?_⟩
      refine opIdCmp_trans ?_ ?_ ?_ hop hop'
      · exact fun hs => h q hq u hu p hp ⟨hqu', hpq'.trans hqu', hs⟩
      · exact fun hs => h u hu p hp q hq ⟨(hpq'.trans hqu').symm, hpq'.symm, hs⟩
      · exact fun hs => h p hp q hq u hu ⟨hpq', hqu'.symm, hs⟩

/-- The identity of a producer. -/
def Producer.identity (p : Producer) : String × String := (p.owner, p.operationId)

/-- The rank tells producers apart, as their identities do. -/
theorem eq_of_producerLe {producers : List Producer} (hids : (producers.map Producer.identity).Nodup) :
    ∀ p ∈ producers, ∀ q ∈ producers, producerLe p q = true → producerLe q p = true → p = q := by
  intro p hp q hq hpq hqp
  have heq : producerCmp p q = .eq := by
    unfold producerLe at hpq hqp
    rw [producerCmp_swap p q] at hqp
    revert hpq hqp
    cases producerCmp p q <;> decide
  obtain ⟨howner, hop⟩ := producerCmp_eq heq
  exact List.inj_on_of_nodup_map hids hp hq (Prod.ext howner hop)

/-! ## 2. Reordered inputs -/

/-- **The same input in another order**: the producers, the hash map of the graph and each out-edge
list are permuted. -/
structure Reordered (rev rev' : PdRevision) (producers producers' : List Producer) : Prop where
  producers : producers.Perm producers'
  edges : ∀ id, (rev.graph.outEdges id).Perm (rev'.graph.outEdges id)
  routinesById : rev.routinesById = rev'.routinesById
  frames : rev.frames = rev'.frames

theorem Reordered.refl (rev : PdRevision) (producers : List Producer) :
    Reordered rev rev producers producers :=
  ⟨List.Perm.refl _, fun _ => List.Perm.refl _, rfl, rfl⟩

namespace Reordered

variable {rev rev' : PdRevision} {producers producers' : List Producer}

theorem sameInputs (h : Reordered rev rev' producers producers') (id : String) :
    SameInputs rev rev' id :=
  ⟨congrFun h.routinesById id, by rw [h.frames]; exact ⟨rfl, fun _ => rfl⟩,
    fun _ => (h.edges id).mem_iff⟩

/-- What covers the searches of one covers those of the other. -/
theorem covers (h : Reordered rev rev' producers producers') {raw : RawSolve}
    (hraw : raw.Covers rev') : raw.Covers rev := by
  have hsame := h.sameInputs
  have hhop : ∀ a id b, Hop rev a id b ↔ Hop rev' a id b := fun a id b =>
    SameInputs.hop_iff (hsame id.1) (hsame a.1)
  have hfound : ∀ prod n key, Found rev prod n key ↔ Found rev' prod n key := fun prod n key =>
    (Untouched.mk (hsame prod.owner) (fun _ a _ => hsame a.1) fun _ a _ => hsame a.1).found_iff
  unfold RawSolve.Covers at hraw ⊢
  refine { hraw with state := fun s => ?_, link := fun j s hj i id => ?_, used := fun ge hge => ?_ }
  · rw [hraw.state]
    unfold IsState
    simp only [hfound]
  · rw [hraw.link j s hj]
    simp only [hhop]
  · obtain ⟨c, hc, s, hs, hprods, hhop'⟩ := hraw.used ge hge
    exact ⟨c, hc, s, hs, hprods, (hhop _ _ _).mpr hhop'⟩

end Reordered

/-! ## 3. Ranks and first hops -/

/-- A link to a state one step nearer the seed. -/
def Shortest (a : ConeArena) (s : ConeState) (l : ConeLink) : Prop :=
  ∃ c, a.states[l.calleeState]? = some c ∧ c.dist + 1 = s.dist

/-- **The lowest-ranked shortest link** of a state. -/
structure IsFirstHop (a : ConeArena) (s : ConeState) (l : ConeLink) : Prop where
  mem : l ∈ a.linksOf s
  shortest : Shortest a s l
  lowest : ∀ l' ∈ a.linksOf s, Shortest a s l' → l' = l ∨ linkCmp l l' = .lt

/-- **Every rank strictly increases**, and each state but a seed has one entry, whose first hop is
the edge of its lowest-ranked shortest link. -/
structure Ranked (out : PdSolved) : Prop where
  producers : out.arena.producers.Pairwise fun p q => producerCmp p q = .lt
  edges : ∃ ids : List (String × TypedOutEdge), out.arena.edges = ids.map Prod.snd ∧
    (ids.Pairwise fun x y => edgeCmp x y = .lt) ∧
    ∀ s ∈ out.arena.states, ∀ l ∈ out.arena.linksOf s, ∃ e, ids[l.edge]? = some (s.routine, e)
  states : out.arena.states.Pairwise fun x y => stateCmp x y = .lt
  links : ∀ s ∈ out.arena.states, (out.arena.linksOf s).Pairwise fun x y => linkCmp x y = .lt
  firstHop : ∀ n s, out.arena.states[n]? = some s → s.seed = false →
    ∃ l hop, IsFirstHop out.arena s l ∧ out.arena.edges[l.edge]? = some hop ∧
      ∃ entry ∈ out.resolved s.routine, entry.state = n ∧ entry.dist = s.dist ∧ entry.firstHop = hop
  entries : ∀ r, ∀ entry ∈ out.resolved r, ∃ s, out.arena.states[entry.state]? = some s ∧
    s.routine = r ∧ s.seed = false

section Ranks

variable {rev : PdRevision} {ids : List (String × TypedOutEdge)} {a : ConeArena}

/-- **A state that is no seed has a shortest link.** -/
theorem Canonical.exists_shortest (h : Canonical rev ids a) {s : ConeState} (hs : s ∈ a.states)
    (hseed : s.seed = false) : ∃ l ∈ a.linksOf s, Shortest a s l := by
  have hstate := (h.state s.bare).mp (List.mem_map_of_mem hs)
  obtain ⟨prod, n, key, hprod, hf, hbare⟩ := hstate
  have hkey : s.pdKey = key := congrArg ConeState.pdKey hbare
  have hdist : s.dist = n := congrArg ConeState.dist hbare
  have hzero : s.seed = decide (n = 0) := congrArg ConeState.seed hbare
  obtain ⟨hwalk, hmin⟩ := hf
  cases hwalk with
  | seed => simp [hzero] at hseed
  | @step m b _ ge hb hsucc =>
    -- the walk's last crossing starts from a state at the distance before
    obtain ⟨m', hm'⟩ := Bfs.exists_isDist hb
    have hle : m' ≤ m := hm'.2 m hb
    have hge : m + 1 ≤ m' + 1 := hmin _ (.step hm'.1 hsucc)
    obtain rfl : m' = m := by omega
    obtain ⟨c, hc, hcbare⟩ := h.mem_states hprod hm'
    have hhop : Hop rev c.pdKey ge.identity s.pdKey := by
      rw [show c.pdKey = b from congrArg ConeState.pdKey hcbare, hkey]
      exact (PdRevision.mem_succ.mp hsucc).2
    have hprods : c.producer = s.producer := by
      show c.bare.producer = s.producer
      rw [hcbare]
      rfl
    obtain ⟨i, hi⟩ := List.mem_iff_getElem?.mp hc
    obtain ⟨oe, hoe⟩ := List.mem_iff_getElem?.mp ((h.used ge.identity).mpr
      ⟨c.bare, s.bare, (h.state _).mp (List.mem_map_of_mem hc),
        (h.state _).mp (List.mem_map_of_mem hs), hprods, hhop⟩)
    refine ⟨⟨i, oe⟩, (h.link s hs _).mpr ⟨c, ge.identity, hi, hoe, hprods, hhop⟩, c, hi, ?_⟩
    rw [show c.dist = m' from congrArg ConeState.dist hcbare, hdist]

/-- **The first hop found** is the lowest-ranked shortest link. -/
theorem Canonical.firstHopLink_spec (h : Canonical rev ids a) {s : ConeState} (hs : s ∈ a.states)
    (hseed : s.seed = false) : ∃ l, a.firstHopLink s = some l ∧ IsFirstHop a s l := by
  have hpred : ∀ l, ((a.states[l.calleeState]?).any fun c => c.dist + 1 = s.dist) = true ↔
      Shortest a s l := by
    intro l
    unfold Shortest
    cases a.states[l.calleeState]? <;> simp
  obtain ⟨l₀, hl₀, hshort₀⟩ := h.exists_shortest hs hseed
  have hsome : (a.firstHopLink s).isSome = true := by
    unfold ConeArena.firstHopLink
    rw [List.find?_isSome]
    exact ⟨l₀, hl₀, (hpred l₀).mpr hshort₀⟩
  obtain ⟨l, hl⟩ := Option.isSome_iff_exists.mp hsome
  obtain ⟨hp, before, after, hsplit, hbefore⟩ := List.find?_eq_some_iff_append.mp hl
  refine ⟨l, hl, List.mem_of_find?_eq_some hl, (hpred l).mp hp, fun l' hl' hshort => ?_⟩
  have hlt := h.linksLt s hs
  rw [hsplit] at hl' hlt
  rcases List.mem_append.mp hl' with hl' | hl'
  · have := hbefore l' hl'
    rw [(hpred l').mpr hshort] at this
    cases this
  · rcases List.mem_cons.mp hl' with rfl | hl'
    · exact Or.inl rfl
    · exact Or.inr ((List.pairwise_cons.mp (List.pairwise_append.mp hlt).2.1).1 l' hl')

/-- The entry of a state at its index. -/
theorem Canonical.entryAt_spec (h : Canonical rev ids a) {n : ℕ} {s : ConeState}
    (hn : a.states[n]? = some s) (hseed : s.seed = false) :
    ∃ l hop, IsFirstHop a s l ∧ a.edges[l.edge]? = some hop ∧
      ∃ entry, a.entryAt s n = some entry ∧ entry.state = n ∧ entry.dist = s.dist ∧
        entry.firstHop = hop := by
  have hs := List.mem_of_getElem? hn
  obtain ⟨l, hl, hfirst⟩ := h.firstHopLink_spec hs hseed
  obtain ⟨-, id, -, hid, -, -⟩ := (h.link s hs l).mp hfirst.mem
  obtain ⟨prod, -, -, hprod, -, -⟩ := (h.state s.bare).mp (List.mem_map_of_mem hs)
  have hprod' : a.producers[s.producer]? = some prod := hprod
  have hedge : a.edges[l.edge]? = some id.2 := by
    rw [h.edges, List.getElem?_map, hid]
    rfl
  refine ⟨l, id.2, hfirst, hedge,
    { state := n, rep := repFor prod.fact s.t, dist := s.dist, firstHop := id.2 }, ?_, rfl, rfl, rfl⟩
  simp only [ConeArena.entryAt, hseed, hl, hprod', hedge]
  rfl

/-- **A canonical solve is ranked** when its producers are. -/
theorem EndsIn.ranked {producers : List Producer} {out : PdSolved} (hend : EndsIn rev producers out)
    (hproducers : (Ranking.place producerLe producers).Pairwise fun p q => producerCmp p q = .lt) :
    Ranked out := by
  obtain ⟨raw, hraw, hcov, heq⟩ := hend.exists_raw
  have harena : out.arena = (finalize raw).1 := congrArg Prod.fst heq
  have h := RawSolve.finalize_canonical hcov
  have hres : out.resolved = out.arena.resolved := by
    rw [harena]
    exact congrArg Prod.snd heq
  rw [← harena] at h
  have hat : ∀ {n : ℕ} {s : ConeState} {r : String},
      (s, n) ∈ out.arena.states.zipIdx.filter (fun s => s.1.routine = r) ↔
        out.arena.states[n]? = some s ∧ s.routine = r := by
    intro n s r
    rw [List.mem_filter, List.mem_zipIdx_iff_getElem?, decide_eq_true_iff]
  refine ⟨?_, ⟨raw.canonEdges, h.edges, h.edgesLt, fun s hs l hl => ?_⟩, h.statesLt, h.linksLt,
    fun n s hn hseed => ?_, fun r entry hentry => ?_⟩
  · rw [harena]
    show (Ranking.place producerLe raw.producers).Pairwise _
    rw [hraw]
    exact hproducers
  · obtain ⟨c, ⟨src, e⟩, -, hid, -, hhop⟩ := (h.link s hs l).mp hl
    exact ⟨e, by rw [hid, show s.routine = src from hhop.source]⟩
  · obtain ⟨l, hop, hfirst, hedge, entry, hentry, hstate, hdist, hhop⟩ := h.entryAt_spec hn hseed
    refine ⟨l, hop, hfirst, hedge, entry, ?_, hstate, hdist, hhop⟩
    rw [hres]
    exact List.mem_filterMap.mpr ⟨(s, n), hat.mpr ⟨hn, rfl⟩, hentry⟩
  · rw [hres] at hentry
    obtain ⟨⟨s, n⟩, hmem, hsome⟩ := List.mem_filterMap.mp hentry
    obtain ⟨hn, hr⟩ := hat.mp hmem
    have hseed : s.seed = false := by
      by_contra hne
      have hnone : out.arena.entryAt s n = none := by
        unfold ConeArena.entryAt
        rw [if_pos (Bool.not_eq_false _ ▸ hne)]
      rw [hnone] at hsome
      cases hsome
    obtain ⟨-, -, -, -, entry', hentry', hstate, -, -⟩ := h.entryAt_spec hn hseed
    obtain rfl : entry' = entry := Option.some.inj (hentry'.symm.trans hsome)
    exact ⟨s, hstate ▸ hn, hr, hseed⟩

end Ranks

/-! ## 4. Independence of the order -/

/-- `solve`: nothing to reuse. -/
def solve (rev : PdRevision) (producers : List Producer) : Option PdSolved :=
  solveSeededFresh rev producers (none : Option (PdReuse Unit))

/-- **The solve does not depend on the order of its input**: every reordering gives the same arena
and the same entries, in ranks that strictly increase. -/
def OrderFree (rev : PdRevision) (producers : List Producer) : Prop :=
  ∀ rev' producers', Reordered rev rev' producers producers' →
    ∃ out out', solve rev producers = some out ∧ solve rev' producers' = some out' ∧
      out.arena = out'.arena ∧ out.resolved = out'.resolved ∧ Ranked out'

theorem EndsIn.producers {rev : PdRevision} {producers : List Producer} {out : PdSolved}
    (h : EndsIn rev producers out) : out.arena.producers = Ranking.place producerLe producers := by
  obtain ⟨raw, hraw, -, heq⟩ := h.exists_raw
  rw [(Prod.mk.inj heq).1, ← hraw]
  rfl

/-- The producers are placed in increasing order where nothing straddles. -/
theorem placed_lt {producers : List Producer} (hids : (producers.map Producer.identity).Nodup)
    (h : NoStraddle producers) :
    (Ranking.place producerLe producers).Pairwise fun p q => producerCmp p q = .lt := by
  have hsorted := Ranking.place_pairwise (producerLe_trans h) fun p _ q _ => producerLe_total p q
  have hnd : (Ranking.place producerLe producers).Nodup :=
    (Ranking.place_perm _ _).nodup_iff.mpr hids.of_map
  refine List.Pairwise.imp_of_mem ?_ (hsorted.and hnd)
  rintro p q hp hq ⟨hle, hne⟩
  rcases Ordering.isLE_iff_eq_lt_or_eq_eq.mp hle with hlt | heq
  · exact hlt
  · have hge : producerLe q p = true := by
      rw [producerLe, producerCmp_swap p q, heq]
      rfl
    exact absurd (eq_of_producerLe hids p ((Ranking.place_perm _ _).mem_iff.mp hp) q
      ((Ranking.place_perm _ _).mem_iff.mp hq) hle hge) hne

/-- **Increasing producers do not straddle.** -/
theorem noStraddle_of_lt {placed : List Producer}
    (h : placed.Pairwise fun p q => producerCmp p q = .lt) : NoStraddle placed := by
  rintro p hp q hq u hu ⟨hpq, huq, x, y, hx, hy, hnone, hlt, hqu, hup⟩
  have hbefore : ∀ {a b : Producer}, a.owner = b.owner →
      opIdCmp a.operationId b.operationId = .lt → ∀ {i j : ℕ}, placed[i]? = some a →
      placed[j]? = some b → i < j := by
    intro a b howner hcmp i j hi hj
    have hab : producerCmp a b = .lt := by
      have hself : compare a.owner b.owner = .eq := by
        rw [howner]
        exact Std.ReflCmp.compare_self
      rw [producerCmp, hself, hcmp]
      rfl
    obtain ⟨hilt, rfl⟩ := List.getElem?_eq_some_iff.mp hi
    obtain ⟨hjlt, rfl⟩ := List.getElem?_eq_some_iff.mp hj
    rcases Nat.lt_trichotomy i j with hlt' | rfl | hgt
    · exact hlt'
    · have hself := producerCmp_swap placed[i] placed[i]
      rw [hab] at hself
      cases hself
    · have hba := List.pairwise_iff_getElem.mp h j i hjlt hilt hgt
      rw [producerCmp_swap, hab] at hba
      cases hba
  have hpq' : opIdCmp p.operationId q.operationId = .lt := by
    unfold opIdCmp
    rw [hx, hy]
    show ((compare x.1 y.1).then (compare x.2 y.2)).then _ = _
    rw [hlt]
    rfl
  have hqu' : opIdCmp q.operationId u.operationId = .lt := by
    rw [opIdCmp_of_none (Or.inr hnone)]
    exact hqu
  have hup' : opIdCmp u.operationId p.operationId = .lt := by
    rw [opIdCmp_of_none (Or.inl hnone)]
    exact hup
  obtain ⟨i, hi⟩ := List.mem_iff_getElem?.mp hp
  obtain ⟨j, hj⟩ := List.mem_iff_getElem?.mp hq
  obtain ⟨k, hk⟩ := List.mem_iff_getElem?.mp hu
  have h₁ := hbefore hpq hpq' hi hj
  have h₂ := hbefore huq.symm hqu' hj hk
  have h₃ := hbefore (huq.trans hpq.symm) hup' hk hi
  omega

/-- **Independent of the order exactly when nothing straddles.** -/
theorem solve_orderFree_iff (rev : PdRevision) (producers : List Producer)
    (hids : (producers.map Producer.identity).Nodup) :
    OrderFree rev producers ↔ NoStraddle producers := by
  constructor
  · intro h
    obtain ⟨-, out, -, hsolve, -, -, hranked⟩ := h rev producers (.refl rev producers)
    obtain ⟨out', hout', hend⟩ := solveSeededFresh_cold Unit rev producers
    obtain rfl : out = out' := Option.some.inj (hsolve.symm.trans hout')
    have hlt := hranked.producers
    rw [hend.producers] at hlt
    intro p hp q hq u hu
    have hmem : ∀ x ∈ producers, x ∈ Ranking.place producerLe producers := fun x hx =>
      (Ranking.place_perm _ _).mem_iff.mpr hx
    exact noStraddle_of_lt hlt p (hmem p hp) q (hmem q hq) u (hmem u hu)
  · intro hno rev' producers' hre
    obtain ⟨out, hout, hend⟩ := solveSeededFresh_cold Unit rev producers
    obtain ⟨out', hout', hend'⟩ := solveSeededFresh_cold Unit rev' producers'
    have hplace : Ranking.place producerLe producers = Ranking.place producerLe producers' :=
      Ranking.place_eq_of_perm hre.producers (producerLe_trans hno)
        (fun p _ q _ => producerLe_total p q) (eq_of_producerLe hids)
    have hranked := hend'.ranked (hplace ▸ placed_lt hids hno)
    obtain ⟨raw, hraw, hcov, heq⟩ := hend.exists_raw
    obtain ⟨raw', hraw', hcov', heq'⟩ := hend'.exists_raw
    have hfin := RawSolve.finalize_eq hcov (hre.covers hcov') (by
      unfold RawSolve.placed
      rw [hraw, hraw', hplace])
    rw [← heq, ← heq'] at hfin
    obtain ⟨harena, hresolved⟩ := Prod.mk.inj hfin
    exact ⟨out, out', hout, hout', harena, hresolved, hranked⟩

/-- A table fact of operation `op` of routine `r`. -/
def opProducer (op : String) : Producer where
  fact :=
    { subject := "r", op := "modify", resourceKind := "table", resourceId := some "T"
      confidence := "high", provenance := "direct", via := "direct", witnessOperationId := some op
      extra := some (.table none
        (some { kind := "parameter-dependent", parameterIndex := some 0 }) none) }
  owner := "r"
  operationId := op
  pd := rfl

/-- No graph, no rows, no frames. -/
def bareRevision : PdRevision where
  graph := { nodes := ["r"], outgoing := ∅ }
  routinesById := fun _ => none
  frames := fun _ => none

/-- Ids that straddle are placed as they come. -/
theorem straddling_not_orderFree :
    (([opProducer "r/op9", opProducer "r/op10", opProducer "r/op1x"].map
      Producer.identity).Nodup) ∧
    ¬ OrderFree bareRevision [opProducer "r/op9", opProducer "r/op10", opProducer "r/op1x"] := by
  refine ⟨by decide, fun h => ?_⟩
  obtain ⟨out, out', hout, hout', harena, -, -⟩ := h bareRevision
    [opProducer "r/op10", opProducer "r/op1x", opProducer "r/op9"]
    ⟨by decide, fun _ => List.Perm.refl _, rfl, rfl⟩
  obtain ⟨o, ho, hend⟩ := solveSeededFresh_cold Unit bareRevision
    [opProducer "r/op9", opProducer "r/op10", opProducer "r/op1x"]
  obtain ⟨o', ho', hend'⟩ := solveSeededFresh_cold Unit bareRevision
    [opProducer "r/op10", opProducer "r/op1x", opProducer "r/op9"]
  obtain rfl : out = o := Option.some.inj (hout.symm.trans ho)
  obtain rfl : out' = o' := Option.some.inj (hout'.symm.trans ho')
  have hplace := congrArg ConeArena.producers harena
  rw [hend.producers, hend'.producers] at hplace
  have hops := congrArg (List.map Producer.operationId) hplace
  revert hops
  decide

/-- `a` calls `r` twice, and `b`, which calls `r`. -/
def calledRevision : PdRevision where
  graph :=
    { nodes := ["a", "b", "r"]
      outgoing := (AList.insert "a"
          [TypedOutEdge.new "r" "direct-call" (some "a/cs1") none none,
            TypedOutEdge.new "b" "direct-call" (some "a/cs2") none none,
            TypedOutEdge.new "r" "direct-call" (some "a/cs0") none none]
        (AList.insert "b" [TypedOutEdge.new "r" "direct-call" (some "b/cs0") none none] ∅)) }
  routinesById := fun _ => none
  frames := fun _ => none

/-- Ids as they are minted all have an ordinal. -/
theorem ordinals_orderFree :
    OrderFree calledRevision [opProducer "r/op10", opProducer "r/op9", opProducer "r/op2"] := by
  refine (solve_orderFree_iff calledRevision
    [opProducer "r/op10", opProducer "r/op9", opProducer "r/op2"] (by decide)).mpr ?_
  rintro p - q - u hu ⟨-, -, x, y, -, -, hnone, -⟩
  simp only [List.mem_cons, List.not_mem_nil, or_false] at hu
  rcases hu with rfl | rfl | rfl <;> exact absurd hnone (by decide)

end AlSem.L4
