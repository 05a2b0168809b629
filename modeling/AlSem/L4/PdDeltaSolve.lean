/-
# The delta of a re-solve

What the delta asks of its arenas the solves give: their arenas are finalized, and a producer the
seeded solve does not list as fresh has in both arenas the same states with the same first hops
(`solve_copiedUnchanged`).  So the rows left unfolded after a re-solve are right
(`solve_delta_covers`).
-/
import AlSem.L4.PdDelta

namespace AlSem.L4

/-! ## 1. Canonical arenas are finalized -/

section Canon

variable {rev : PdRevision} {ids : List (String × TypedOutEdge)} {a : ConeArena}

/-- A seed has no first hop. -/
theorem firstHop_of_dist_zero {s : ConeState} (h : s.dist = 0) : a.firstHop s = none := by
  have hlink : a.firstHopLink s = none := by
    unfold ConeArena.firstHopLink
    rw [List.find?_eq_none]
    intro l _
    cases a.states[l.calleeState]? with
    | none => simp
    | some c => simp [h]
  unfold ConeArena.firstHop
  rw [hlink]
  rfl

/-- **The first hop of a state that is no seed**: a hop out of a state one step nearer. -/
theorem Canonical.firstHop_spec (h : Canonical rev ids a) {s : ConeState} (hs : s ∈ a.states)
    (hseed : s.seed = false) : ∃ l id, IsFirstHop a s l ∧ ids[l.edge]? = some id ∧
      a.firstHop s = some id.2 := by
  obtain ⟨l, hl, hfirst⟩ := h.firstHopLink_spec hs hseed
  obtain ⟨-, id, -, hid, -, -⟩ := (h.link s hs l).mp hfirst.mem
  refine ⟨l, id, hfirst, hid, ?_⟩
  unfold ConeArena.firstHop
  rw [hl, Option.bind_some, h.edges, List.getElem?_map, hid]
  rfl

/-- **A canonical arena over a built graph is finalized**, its producers in strict rank. -/
theorem Canonical.finalized (h : Canonical rev ids a)
    (hproducers : a.producers.Pairwise fun p q => producerCmp p q = .lt)
    (hgraph : ∀ src, ∀ e ∈ rev.graph.outEdges src, e.Built) : Finalized a where
  producersLt := hproducers
  statesLt := h.statesLt
  producer := by
    intro s hs
    obtain ⟨prod, -, -, hprod, -⟩ := (h.state s.bare).mp (List.mem_map_of_mem hs)
    exact ⟨prod, hprod⟩
  firstHop := by
    intro s hs hseed
    obtain ⟨l, id, -, -, hhop⟩ := h.firstHop_spec hs hseed
    exact ⟨id.2, hhop⟩
  byRoutine := h.byRoutine
  built := by
    intro e he
    rw [h.edges] at he
    obtain ⟨id, hid, rfl⟩ := List.mem_map.mp he
    obtain ⟨c, s, -, -, -, hhop⟩ := (h.used id).mp hid
    exact hgraph id.1 id.2 hhop.1

/-- The entries read back are those the solve handed out. -/
theorem Canonical.resolvedEntriesOf_eq (h : Canonical rev ids a) (r : String) :
    a.resolvedEntriesOf r = a.resolved r := by
  unfold ConeArena.resolvedEntriesOf ConeArena.resolved
  rw [h.byRoutine, List.filterMap_map]
  refine List.filterMap_congr fun e he => ?_
  have hat := List.mem_zipIdx_iff_getElem?.mp (List.mem_filter.mp he).1
  simp only [Function.comp_apply, hat, Option.bind_some]

end Canon

/-! ## 2. An untouched producer in both arenas -/

section Cells

variable {rev rev' : PdRevision} {ids ids' : List (String × TypedOutEdge)} {a b : ConeArena}

/-- States in the order of one producer's arena. -/
def cellCmp (c d : StateCell) : Ordering :=
  (compare c.dist d.dist).then <| (compare c.routine d.routine).then <|
    (tempCmp c.t d.t).then (List.compareLex reqCmp c.reqs d.reqs)

instance : Std.OrientedCmp cellCmp where
  eq_swap := by
    intro c d
    have hdist : compare c.dist d.dist = (compare d.dist c.dist).swap := Std.OrientedCmp.eq_swap
    have hroutine : compare c.routine d.routine = (compare d.routine c.routine).swap :=
      Std.OrientedCmp.eq_swap
    have ht : tempCmp c.t d.t = (tempCmp d.t c.t).swap := Std.OrientedCmp.eq_swap
    have hreqs : List.compareLex reqCmp c.reqs d.reqs =
        (List.compareLex reqCmp d.reqs c.reqs).swap := Std.OrientedCmp.eq_swap
    simp only [cellCmp, Ordering.swap_then]
    rw [hdist, hroutine, ht, hreqs]

theorem Canonical.cells_lt (h : Canonical rev ids a) (i : ℕ) :
    (a.cells i).Pairwise fun c d => cellCmp c d = .lt := by
  unfold ConeArena.cells
  rw [List.pairwise_map]
  refine List.Pairwise.imp_of_mem ?_ (h.statesLt.filter _)
  intro x y hx hy hlt
  have hproducer : x.producer = y.producer := by
    have hxi := (List.mem_filter.mp hx).2
    have hyi := (List.mem_filter.mp hy).2
    rw [of_decide_eq_true hxi, of_decide_eq_true hyi]
  simp only [stateCmp, compareLex, compareOn, hproducer, Std.ReflCmp.compare_self,
    Ordering.eq_then] at hlt
  exact hlt

/-- The states of producer `i`, by what its search finds. -/
theorem Canonical.mem_cells (h : Canonical rev ids a) {i : ℕ} {p : Producer}
    (hp : a.producers[i]? = some p) {c : StateCell} : c ∈ a.cells i ↔
      ∃ s ∈ a.states, s.producer = i ∧ Found rev p s.dist s.pdKey ∧ s.seed = decide (s.dist = 0) ∧
        a.cell s = c := by
  unfold ConeArena.cells
  rw [List.mem_map]
  constructor
  · rintro ⟨s, hs, rfl⟩
    obtain ⟨hs, hi⟩ := List.mem_filter.mp hs
    have hi := of_decide_eq_true hi
    obtain ⟨prod, n, key, hprod, hf, hbare⟩ := (h.state s.bare).mp (List.mem_map_of_mem hs)
    obtain ⟨-, hkey, hdist, hseed⟩ := eq_of_bare_eq hbare
    have hsame : prod = p := by
      rw [show s.bare.producer = i from hi, hp] at hprod
      exact (Option.some.inj hprod).symm
    refine ⟨s, hs, hi, ?_, by rw [hseed, hdist], rfl⟩
    rw [hkey, hdist, ← hsame]
    exact hf
  · rintro ⟨s, hs, hi, -, -, rfl⟩
    exact ⟨s, List.mem_filter.mpr ⟨hs, decide_eq_true hi⟩, rfl⟩

/-- **The other arena's first hop ranks no higher**, where every hop of this one is one of the
other. -/
theorem Canonical.firstHop_le (ha : Canonical rev ids a) (hb : Canonical rev' ids' b) {i j : ℕ}
    {p : Producer} (hp : a.producers[i]? = some p) (hq : b.producers[j]? = some p) {s s' : ConeState}
    (hs : s ∈ a.states) (hs' : s' ∈ b.states) (hi : s.producer = i) (hj : s'.producer = j)
    (hdist : s.dist = s'.dist)
    (htransfer : ∀ n key id, Found rev p n key → Hop rev key id s.pdKey →
      Found rev' p n key ∧ Hop rev' key id s'.pdKey)
    {l l' : ConeLink} {id id' : String × TypedOutEdge} (hl : IsFirstHop a s l)
    (hid : ids[l.edge]? = some id) (hl' : IsFirstHop b s' l') (hid' : ids'[l'.edge]? = some id') :
    (edgeCmp id' id).isLE = true := by
  obtain ⟨c, id₀, hc, hid₀, hprods, hhop⟩ := (ha.link s hs l).mp hl.mem
  obtain rfl : id₀ = id := Option.some.inj (hid₀.symm.trans hid)
  obtain ⟨c₀, hc₀, hstep⟩ := hl.shortest
  obtain rfl : c₀ = c := Option.some.inj (hc₀.symm.trans hc)
  have hfound : Found rev p c₀.dist c₀.pdKey := by
    obtain ⟨s₀, hs₀, -, hf, -, heq⟩ := (ha.mem_cells hp).mp (List.mem_map_of_mem
      (List.mem_filter.mpr ⟨List.mem_of_getElem? hc, decide_eq_true (hprods.trans hi)⟩))
    obtain ⟨hr, ht, hreqs, -, hd, -⟩ := StateCell.mk.inj heq
    have hkey : s₀.pdKey = c₀.pdKey := by
      unfold ConeState.pdKey
      rw [hr, ht, hreqs]
    rw [← hkey, ← hd]
    exact hf
  obtain ⟨hfound', hhop'⟩ := htransfer _ _ _ hfound hhop
  -- the same hop is a shortest link of the other arena
  obtain ⟨d, hd, hdbare⟩ := hb.mem_states hq hfound'
  obtain ⟨hdprod, hdkey, hddist, -⟩ := eq_of_bare_eq hdbare
  obtain ⟨m, hm⟩ := List.mem_iff_getElem?.mp hd
  have hused : id₀ ∈ ids' := (hb.used id₀).mpr ⟨d.bare, s'.bare,
    (hb.state _).mp (List.mem_map_of_mem hd), (hb.state _).mp (List.mem_map_of_mem hs'),
    hdprod.trans hj.symm, hdkey ▸ hhop'⟩
  obtain ⟨oe, hoe⟩ := List.mem_iff_getElem?.mp hused
  have hlink : ({ calleeState := m, edge := oe } : ConeLink) ∈ b.linksOf s' :=
    (hb.link s' hs' _).mpr ⟨d, id₀, hm, hoe, hdprod.trans hj.symm, hdkey ▸ hhop'⟩
  have hle : l'.edge ≤ oe := by
    rcases hl'.lowest _ hlink ⟨d, hm, by rw [hddist, hstep, hdist]⟩ with heq | hlt
    · rw [← heq]
    · have hcmp : (linkCmp l' { calleeState := m, edge := oe }).isLE = true := by rw [hlt]; rfl
      exact Nat.isLE_compare.mp (Ordering.isLE_left_of_isLE_then hcmp)
  obtain ⟨hlt', rfl⟩ := List.getElem?_eq_some_iff.mp hid'
  obtain ⟨hlt, rfl⟩ := List.getElem?_eq_some_iff.mp hoe
  rcases Nat.eq_or_lt_of_le hle with heq | hlt''
  · subst heq
    exact congrArg Ordering.isLE Std.ReflCmp.compare_self
  · rw [List.pairwise_iff_getElem.mp hb.edgesLt _ _ hlt' hlt hlt'']
    rfl

/-- What one search finds the other finds, with the same hops into it. -/
structure SameSearch (rev rev' : PdRevision) (p : Producer) : Prop where
  found : ∀ n key, Found rev p n key ↔ Found rev' p n key
  hop : ∀ n m key key' id, Found rev p n key → Found rev p m key' →
    (Hop rev key id key' ↔ Hop rev' key id key')

theorem SameSearch.symm {p : Producer} (h : SameSearch rev rev' p) : SameSearch rev' rev p where
  found n key := (h.found n key).symm
  hop n m key key' id hf hf' := (h.hop n m key key' id ((h.found n key).mpr hf)
    ((h.found m key').mpr hf')).symm

theorem Untouched.sameSearch {p : Producer} (h : Untouched rev rev' p) : SameSearch rev rev' p where
  found _ _ := h.found_iff
  hop _ _ _ _ _ hf hf' := h.hop_iff hf.1 hf'.1

/-- **The first hop of a state is the same** in both arenas. -/
theorem SameSearch.firstHop_eq {p : Producer} (h : SameSearch rev rev' p) (ha : Canonical rev ids a)
    (hb : Canonical rev' ids' b) {i j : ℕ} (hp : a.producers[i]? = some p)
    (hq : b.producers[j]? = some p) {s s' : ConeState} (hs : s ∈ a.states) (hs' : s' ∈ b.states)
    (hi : s.producer = i) (hj : s'.producer = j) (hf : Found rev p s.dist s.pdKey)
    (hkey : s.pdKey = s'.pdKey) (hdist : s.dist = s'.dist)
    (hseed : s.seed = decide (s.dist = 0)) (hseed' : s'.seed = decide (s'.dist = 0)) :
    a.firstHop s = b.firstHop s' := by
  by_cases hzero : s.dist = 0
  · rw [firstHop_of_dist_zero hzero, firstHop_of_dist_zero (hdist ▸ hzero)]
  · have hns : s.seed = false := by rw [hseed]; exact decide_eq_false hzero
    have hns' : s'.seed = false := by rw [hseed']; exact decide_eq_false (hdist ▸ hzero)
    obtain ⟨l, id, hl, hid, hhop⟩ := ha.firstHop_spec hs hns
    obtain ⟨l', id', hl', hid', hhop'⟩ := hb.firstHop_spec hs' hns'
    have hle := ha.firstHop_le hb hp hq hs hs' hi hj hdist
      (fun n key id hn hh => ⟨(h.found n key).mp hn, hkey ▸ (h.hop n _ key _ id hn hf).mp hh⟩)
      hl hid hl' hid'
    have hf' : Found rev' p s'.dist s'.pdKey := hkey ▸ hdist ▸ (h.found _ _).mp hf
    have hge := hb.firstHop_le ha hq hp hs' hs hj hi hdist.symm
      (fun n key id hn hh =>
        ⟨(h.found n key).mpr hn, hkey.symm ▸ (h.symm.hop n _ key _ id hn hf').mp hh⟩)
      hl' hid' hl hid
    have hsame : id = id' := by
      refine edgeCmp_eq (Std.OrientedCmp.isLE_antisymm hge hle)
    rw [hhop, hhop', hsame]

/-- **A producer whose search is the same has the same cells.** -/
theorem SameSearch.cells_eq {p : Producer} (h : SameSearch rev rev' p) (ha : Canonical rev ids a)
    (hb : Canonical rev' ids' b) {i j : ℕ} (hp : a.producers[i]? = some p)
    (hq : b.producers[j]? = some p) : a.cells i = b.cells j := by
  have hsub : ∀ {rev rev' : PdRevision} {ids ids' : List (String × TypedOutEdge)} {a b : ConeArena}
      {i j : ℕ}, SameSearch rev rev' p → Canonical rev ids a → Canonical rev' ids' b →
      a.producers[i]? = some p → b.producers[j]? = some p → ∀ c ∈ a.cells i, c ∈ b.cells j := by
    intro rev rev' ids ids' a b i j h ha hb hp hq c hc
    obtain ⟨s, hs, hi, hf, hseed, rfl⟩ := (ha.mem_cells hp).mp hc
    obtain ⟨s', hs', hbare⟩ := hb.mem_states hq ((h.found _ _).mp hf)
    obtain ⟨hj, hkey, hdist, hseed'⟩ := eq_of_bare_eq hbare
    have hhop := h.firstHop_eq ha hb hp hq hs hs' hi hj hf hkey.symm hdist.symm hseed (hdist ▸ hseed')
    refine List.mem_map.mpr ⟨s', List.mem_filter.mpr ⟨hs', decide_eq_true hj⟩, ?_⟩
    obtain ⟨hr, ht, hreqs⟩ : s'.routine = s.routine ∧ s'.t = s.t ∧ s'.reqs = s.reqs := by
      simpa only [ConeState.pdKey, Prod.mk.injEq] using hkey
    unfold ConeArena.cell
    rw [hr, ht, hreqs, hdist, hhop, hseed', hseed]
  exact Ranking.eq_of_lt (ha.cells_lt i) (hb.cells_lt j) fun c =>
    ⟨hsub h ha hb hp hq c, hsub h.symm hb ha hq hp c⟩

end Cells

/-! ## 3. The seeded solve -/

section Solve

variable {D : Type} [DecidableEq D] {old new : PdRevision} {ids : List (String × TypedOutEdge)}
  {producers : List Producer} {reuse : PdReuse D} {out : PdSolved}

/-- **What the seeded solve does not list as fresh is as it was.** -/
theorem solve_copiedUnchanged (hcanon : Canonical old ids reuse.old) (hdig : DigestsMatch old new reuse)
    (hsolve : solveSeededFresh new producers (some reuse) = some out) :
    CopiedUnchanged reuse.old out.arena out.fresh := by
  obtain ⟨out', hout', hend⟩ := solveSeededFresh_seeded hcanon hdig producers
  obtain rfl : out' = out := Option.some.inj (hout'.symm.trans hsolve)
  obtain ⟨ids', hcanon'⟩ := hend.canonical
  intro j p hp hfresh
  have hmem : p ∈ producers := by
    rw [hend.producers] at hp
    exact (Ranking.place_perm _ _).mem_iff.mp (List.mem_of_getElem? hp)
  obtain ⟨st, n, S, hcopied, -, -, huse⟩ := copyReused_covers hcanon hdig producers
  obtain ⟨k, hk⟩ := List.mem_iff_getElem?.mp hmem
  have hne : producers.isEmpty = false := by
    cases producers with
    | nil => simp at hmem
    | cons _ _ => rfl
  unfold solveSeededFresh at hsolve
  rw [hne, if_neg Bool.false_ne_true] at hsolve
  unfold solveCore at hsolve
  rw [hcopied, Option.bind_some] at hsolve
  obtain ⟨st', -, rfl⟩ := Option.map_eq_some_iff.mp hsolve
  obtain ⟨o, ho⟩ : ∃ o, st.copied.getD k none = some o := by
    refine Option.isSome_iff_exists.mp ?_
    by_contra hnone
    refine hfresh (List.mem_map.mpr ⟨(p, k), List.mem_filter.mpr ⟨?_, ?_⟩, rfl⟩)
    · exact List.mem_zipIdx_iff_getElem?.mpr hk
    · simpa using hnone
  obtain ⟨prod, hprod, hold, hunt⟩ := huse k o ho
  obtain rfl : prod = p := Option.some.inj (hprod.symm.trans hk)
  exact ⟨o, hold, hunt.sameSearch.cells_eq hcanon hcanon' hold hp⟩

/-- **The routines outside a re-solve's delta keep their entries.** -/
theorem solve_delta_covers (hold : SolvedArena D old reuse.old) (hdig : DigestsMatch old new reuse)
    (hsolve : solveSeededFresh new producers (some reuse) = some out)
    (holdLt : reuse.old.producers.Pairwise fun p q => producerCmp p q = .lt)
    (hnewLt : (Ranking.place producerLe producers).Pairwise fun p q => producerCmp p q = .lt)
    (holdGraph : ∀ src, ∀ e ∈ old.graph.outEdges src, e.Built)
    (hnewGraph : ∀ src, ∀ e ∈ new.graph.outEdges src, e.Built) {r : String}
    (hr : r ∉ pdOutputDelta reuse.old out.arena out.fresh) :
    reuse.old.entryViews r = out.arena.entryViews r := by
  obtain ⟨ids, hcanon⟩ := hold.canonical
  obtain ⟨out', hout', hend⟩ := solveSeededFresh_seeded hcanon hdig producers
  obtain rfl : out' = out := Option.some.inj (hout'.symm.trans hsolve)
  obtain ⟨ids', hcanon'⟩ := hend.canonical
  have hproducers := hend.producers.symm ▸ hnewLt
  have hfin := hcanon.finalized holdLt holdGraph
  have hfin' := hcanon'.finalized hproducers hnewGraph
  have hviews := Ranking.eq_of_lt (hfin.viewsAt_lt r) (hfin'.viewsAt_lt r)
    (mem_viewsAt_iff hfin hfin' (solve_copiedUnchanged hcanon hdig hsolve) hr)
  rw [hfin.entryViews_eq, hfin'.entryViews_eq, hviews]

end Solve

end AlSem.L4
