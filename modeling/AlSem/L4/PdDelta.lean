/-
# The routine delta of two arenas

`pd_output_delta`: after a re-solve only the rows of the routines whose resolved entries changed
are folded again.  The delta compares, routine by routine, projections restricted to the producers
that were solved afresh or are gone, and names a first hop by its sort key.  `pdOutputDelta_covers`
says that neither restriction loses a difference between two finalized arenas; that the solves'
arenas are finalized, and copy what they do not list as fresh, is `solve_delta_covers`.
-/
import AlSem.L4.PdOrder
import AlSem.L4.TypedGraph

namespace AlSem.L4

/-! ## 1. The entries of a routine -/

namespace ConeArena

/-- **`resolved_entries_of`**: a routine's entries read back from the arena, in state order. -/
def resolvedEntriesOf (a : ConeArena) (r : String) : List ResolvedEntry :=
  (a.byRoutine r).filterMap fun ix => (a.states[ix]?).bind fun s => a.entryAt s ix

/-- The first hop of a state. -/
def firstHop (a : ConeArena) (s : ConeState) : Option TypedOutEdge :=
  (a.firstHopLink s).bind fun l => a.edges[l.edge]?

end ConeArena

/-- What an entry says, whatever the arena's numbering: its state is named by producer, temp state
and requirements. -/
structure EntryView where
  producer : Producer
  rep : CapabilityFact
  t : TempState
  reqs : List Req
  dist : ℕ
  firstHop : TypedOutEdge
  deriving DecidableEq

namespace ConeArena

/-- Read an entry's state. -/
def view (a : ConeArena) (e : ResolvedEntry) : Option EntryView :=
  (a.states[e.state]?).bind fun s => (a.producers[s.producer]?).map fun p =>
    { producer := p, rep := e.rep, t := s.t, reqs := s.reqs, dist := e.dist, firstHop := e.firstHop }

/-- **What the entries of a routine say**, in order. -/
def entryViews (a : ConeArena) (r : String) : List (Option EntryView) :=
  (a.resolvedEntriesOf r).map a.view

end ConeArena

/-! ## 2. The delta -/

/-- What the delta compares of a state. -/
structure Proj where
  owner : String
  operationId : String
  fact : CapabilityFact
  t : TempState
  reqs : List Req
  seed : Bool
  dist : ℕ
  firstHop : Option String
  deriving DecidableEq

namespace ConeArena

/-- A state's projection, the first hop by its sort key. -/
def projOf (a : ConeArena) (s : ConeState) : Option Proj :=
  (a.producers[s.producer]?).map fun p =>
    { owner := p.owner, operationId := p.operationId, fact := p.fact, t := s.t, reqs := s.reqs
      seed := s.seed, dist := s.dist
      firstHop := if s.seed then none else (a.firstHop s).map TypedOutEdge.sortKey }

/-- The projections of the affected producers' states, by routine. -/
def project (a : ConeArena) (affected : List Bool) : HashMap String (List Proj) :=
  ((a.states.filter fun s => affected.getD s.producer false).filterMap fun s =>
    (a.projOf s).map fun p => (s.routine, p)).foldl (fun out e => out.push e.1 e.2) ∅

end ConeArena

/-- The old producers that were solved afresh or are gone. -/
def affectedOld (old new : ConeArena) (fresh : List (String × String)) : List Bool :=
  let newIds := new.producers.map Producer.identity
  old.producers.map fun p => fresh.contains p.identity || !newIds.contains p.identity

/-- The producers solved afresh. -/
def affectedNew (new : ConeArena) (fresh : List (String × String)) : List Bool :=
  new.producers.map fun p => fresh.contains p.identity

/-- **`pd_output_delta`**: the routines whose projections differ. -/
def pdOutputDelta (old new : ConeArena) (fresh : List (String × String)) : List String :=
  let po := old.project (affectedOld old new fresh)
  let pn := new.project (affectedNew new fresh)
  (po.keys ++ pn.keys).filter fun r => po.lookup r ≠ pn.lookup r

/-! ## 3. Arenas and copies -/

/-- **A finalized arena**: producers and states in strictly increasing rank, indices in range, a
shortest link at every state but a seed, the edges of a built graph. -/
structure Finalized (a : ConeArena) : Prop where
  producersLt : a.producers.Pairwise fun p q => producerCmp p q = .lt
  statesLt : a.states.Pairwise fun x y => stateCmp x y = .lt
  producer : ∀ s ∈ a.states, ∃ p, a.producers[s.producer]? = some p
  firstHop : ∀ s ∈ a.states, s.seed = false → ∃ hop, a.firstHop s = some hop
  byRoutine : ∀ r, a.byRoutine r = (a.states.zipIdx.filter fun s => s.1.routine = r).map Prod.snd
  built : ∀ e ∈ a.edges, e.Built

/-- What copying keeps of a state. -/
structure StateCell where
  routine : String
  t : TempState
  reqs : List Req
  seed : Bool
  dist : ℕ
  firstHop : Option TypedOutEdge
  deriving DecidableEq

/-- A state's cell. -/
def ConeArena.cell (a : ConeArena) (s : ConeState) : StateCell :=
  { routine := s.routine, t := s.t, reqs := s.reqs, seed := s.seed, dist := s.dist
    firstHop := a.firstHop s }

/-- The cells of one producer's states. -/
def ConeArena.cells (a : ConeArena) (i : ℕ) : List StateCell :=
  (a.states.filter fun s => s.producer = i).map a.cell

/-- **Every producer outside `fresh` was copied unchanged**: it stands in the old arena with the
same fact, and its states are the same. -/
def CopiedUnchanged (old new : ConeArena) (fresh : List (String × String)) : Prop :=
  ∀ j p, new.producers[j]? = some p → p.identity ∉ fresh →
    ∃ i, old.producers[i]? = some p ∧ old.cells i = new.cells j

/-! ## 4. A routine's states in order -/

/-- What the entry of a state says. -/
def ConeArena.viewAt (a : ConeArena) (s : ConeState) : Option EntryView :=
  if s.seed then none
  else
    match a.producers[s.producer]?, a.firstHop s with
    | some p, some hop =>
      some { producer := p, rep := repFor p.fact s.t, t := s.t, reqs := s.reqs, dist := s.dist
             firstHop := hop }
    | _, _ => none

/-- The views of a routine's states, in state order. -/
def ConeArena.viewsAt (a : ConeArena) (r : String) : List EntryView :=
  (a.states.filter fun s => s.routine = r).filterMap a.viewAt

/-- Entries in producer rank, then distance, temp state and requirements. -/
def viewCmp (v w : EntryView) : Ordering :=
  (producerCmp v.producer w.producer).then <| (compare v.dist w.dist).then <|
    (tempCmp v.t w.t).then (List.compareLex reqCmp v.reqs w.reqs)

instance : Std.OrientedCmp viewCmp where
  eq_swap := by
    intro v w
    have hdist : compare v.dist w.dist = (compare w.dist v.dist).swap := Std.OrientedCmp.eq_swap
    have ht : tempCmp v.t w.t = (tempCmp w.t v.t).swap := Std.OrientedCmp.eq_swap
    have hreqs : List.compareLex reqCmp v.reqs w.reqs =
        (List.compareLex reqCmp w.reqs v.reqs).swap := Std.OrientedCmp.eq_swap
    simp only [viewCmp, Ordering.swap_then]
    rw [producerCmp_swap w.producer v.producer, hdist, ht, hreqs]

theorem producerCmp_self (p : Producer) : producerCmp p p = .eq := by
  have hswap := producerCmp_swap p p
  revert hswap
  cases producerCmp p p <;> decide

section Views

variable {a : ConeArena}

theorem viewAt_eq_some {s : ConeState} {v : EntryView} : a.viewAt s = some v ↔
    ∃ p hop, s.seed = false ∧ a.producers[s.producer]? = some p ∧ a.firstHop s = some hop ∧
      v = { producer := p, rep := repFor p.fact s.t, t := s.t, reqs := s.reqs, dist := s.dist
            firstHop := hop } := by
  unfold ConeArena.viewAt
  cases hseed : s.seed with
  | true => simp
  | false =>
    cases hp : a.producers[s.producer]? with
    | none => simp
    | some p =>
      cases hhop : a.firstHop s with
      | none => simp
      | some hop => simp [eq_comm]

/-- The entry of a state, read back. -/
theorem bind_entryAt_view {s : ConeState} {n : ℕ} (hn : a.states[n]? = some s) :
    (a.entryAt s n).map a.view = (a.viewAt s).map some := by
  unfold ConeArena.entryAt ConeArena.viewAt ConeArena.firstHop
  cases s.seed with
  | true => rfl
  | false =>
    cases hl : a.firstHopLink s with
    | none => cases a.producers[s.producer]? <;> rfl
    | some l =>
      cases hp : a.producers[s.producer]? with
      | none => rfl
      | some p =>
        cases he : a.edges[l.edge]? with
        | none => simp [he]
        | some e => simp [he, ConeArena.view, hn, hp]

/-- **The entries of a routine are its states' views.** -/
theorem Finalized.entryViews_eq (h : Finalized a) (r : String) :
    a.entryViews r = (a.viewsAt r).map some := by
  unfold ConeArena.entryViews ConeArena.resolvedEntriesOf ConeArena.viewsAt
  have hpairs : ∀ l : List (ConeState × ℕ), (∀ e ∈ l, a.states[e.2]? = some e.1) →
      (((l.filter fun s => s.1.routine = r).map Prod.snd).filterMap fun ix =>
        (a.states[ix]?).bind fun s => a.entryAt s ix).map a.view =
      (((l.map Prod.fst).filter fun s => s.routine = r).filterMap a.viewAt).map some := by
    intro l
    induction l with
    | nil => intro _; rfl
    | cons e l ih =>
      intro hl
      have ih := ih fun e he => hl e (List.mem_cons_of_mem _ he)
      obtain ⟨s, n⟩ := e
      have hn : a.states[n]? = some s := hl (s, n) List.mem_cons_self
      by_cases hr : s.routine = r
      · have hview := bind_entryAt_view hn
        simp only [List.map_cons, List.filter_cons, hr, decide_true, if_true, List.filterMap_cons, hn,
          Option.bind_some]
        cases hentry : a.entryAt s n with
        | none =>
          rw [hentry] at hview
          have hnone : a.viewAt s = none := by simpa using hview.symm
          simpa [hnone] using ih
        | some e =>
          rw [hentry] at hview
          obtain ⟨v, hv, hve⟩ := Option.map_eq_some_iff.mp hview.symm
          simp only [hv, List.map_cons, hve.symm]
          rw [ih]
      · simpa [List.filter_cons, hr] using ih
  have hall := hpairs a.states.zipIdx fun e he => List.mem_zipIdx_iff_getElem?.mp he
  rw [List.zipIdx_map_fst] at hall
  rw [h.byRoutine]
  exact hall

/-- **The views of a routine increase.** -/
theorem Finalized.viewsAt_lt (h : Finalized a) (r : String) :
    (a.viewsAt r).Pairwise fun v w => viewCmp v w = .lt := by
  unfold ConeArena.viewsAt
  rw [List.pairwise_filterMap]
  refine List.Pairwise.imp_of_mem ?_ (h.statesLt.filter _)
  intro x y hx hy hlt v hv w hw
  have hroutine : x.routine = y.routine := by
    have hxr := (List.mem_filter.mp hx).2
    have hyr := (List.mem_filter.mp hy).2
    rw [of_decide_eq_true hxr, of_decide_eq_true hyr]
  obtain ⟨p, hop, -, hp, -, rfl⟩ := viewAt_eq_some.mp hv
  obtain ⟨q, hop', -, hq, -, rfl⟩ := viewAt_eq_some.mp hw
  simp only [stateCmp, compareLex, compareOn, hroutine, Std.ReflCmp.compare_self,
    Ordering.eq_then] at hlt
  unfold viewCmp
  rcases Ordering.then_eq_lt.mp hlt with hlt | ⟨heq, hlt⟩
  · -- an earlier producer
    have hproducers : producerCmp p q = .lt := by
      obtain ⟨hi, rfl⟩ := List.getElem?_eq_some_iff.mp hp
      obtain ⟨hj, rfl⟩ := List.getElem?_eq_some_iff.mp hq
      exact List.pairwise_iff_getElem.mp h.producersLt _ _ hi hj (Nat.compare_eq_lt.mp hlt)
    rw [hproducers]
    rfl
  · have hsame : p = q := by
      rw [Nat.compare_eq_eq.mp heq, hq] at hp
      exact (Option.some.inj hp).symm
    rw [hsame, producerCmp_self, Ordering.eq_then]
    exact hlt

/-- A producer's identity gives its place. -/
theorem Finalized.index_unique (h : Finalized a) {i j : ℕ} {p q : Producer}
    (hp : a.producers[i]? = some p) (hq : a.producers[j]? = some q) (hid : p.identity = q.identity) :
    i = j := by
  have heq : ∀ {p q : Producer}, p.identity = q.identity → producerCmp p q = .eq := by
    intro p q hid
    obtain ⟨howner, hop⟩ := Prod.mk.inj hid
    have hself := producerCmp_self q
    unfold producerCmp at hself ⊢
    rw [howner, hop]
    exact hself
  obtain ⟨hi, rfl⟩ := List.getElem?_eq_some_iff.mp hp
  obtain ⟨hj, rfl⟩ := List.getElem?_eq_some_iff.mp hq
  rcases Nat.lt_trichotomy i j with hlt | hij | hgt
  · have hcmp := List.pairwise_iff_getElem.mp h.producersLt i j hi hj hlt
    rw [heq hid] at hcmp
    cases hcmp
  · exact hij
  · have hcmp := List.pairwise_iff_getElem.mp h.producersLt j i hj hi hgt
    rw [heq hid.symm] at hcmp
    cases hcmp

theorem mem_viewsAt {r : String} {v : EntryView} :
    v ∈ a.viewsAt r ↔ ∃ s ∈ a.states, s.routine = r ∧ a.viewAt s = some v := by
  unfold ConeArena.viewsAt
  simp only [List.mem_filterMap, List.mem_filter, decide_eq_true_eq, and_assoc]

theorem mem_project {affected : List Bool} {r : String} {x : Proj} :
    x ∈ (a.project affected).getList r ↔
      ∃ s ∈ a.states, affected.getD s.producer false = true ∧ s.routine = r ∧ a.projOf s = some x := by
  unfold ConeArena.project
  rw [HashMap.mem_getList_foldl_push Prod.fst Prod.snd]
  simp only [HashMap.getList_empty, List.not_mem_nil, false_or, List.mem_filterMap, List.mem_filter,
    Option.map_eq_some_iff]
  constructor
  · rintro ⟨e, ⟨s, ⟨hs, haff⟩, p, hp, rfl⟩, hr, rfl⟩
    exact ⟨s, hs, haff, hr, hp⟩
  · rintro ⟨s, hs, haff, hr, hp⟩
    exact ⟨(s.routine, x), ⟨s, ⟨hs, haff⟩, x, hp, rfl⟩, hr, rfl⟩

end Views

/-! ## 5. Nothing is lost -/

section Delta

variable {old new : ConeArena} {fresh : List (String × String)}

/-- Outside the delta the projections agree. -/
theorem project_eq_of_notMem {r : String} (h : r ∉ pdOutputDelta old new fresh) :
    (old.project (affectedOld old new fresh)).getList r =
      (new.project (affectedNew new fresh)).getList r := by
  unfold pdOutputDelta at h
  dsimp only at h
  rw [List.mem_filter, List.mem_append, decide_eq_true_eq, not_and_or, not_or, not_not] at h
  unfold HashMap.getList
  rcases h with ⟨ho, hn⟩ | heq
  · rw [AList.lookup_eq_none.mpr ho, AList.lookup_eq_none.mpr hn]
  · rw [heq]

/-- A first hop is an edge of the arena. -/
theorem Finalized.firstHop_built {a : ConeArena} (h : Finalized a) {s : ConeState} {hop : TypedOutEdge}
    (hhop : a.firstHop s = some hop) : hop.Built := by
  obtain ⟨l, -, he⟩ := Option.bind_eq_some_iff.mp hhop
  exact h.built hop (List.mem_of_getElem? he)

/-- **States that project alike read alike**: the key loses nothing. -/
theorem viewAt_of_projOf {a b : ConeArena} (ha : Finalized a) (hb : Finalized b) {s s' : ConeState}
    (hs' : s' ∈ b.states) {x : Proj} (hx : a.projOf s = some x) (hx' : b.projOf s' = some x)
    {v : EntryView} (hv : a.viewAt s = some v) : b.viewAt s' = some v := by
  obtain ⟨p, hop, hseed, hp, hhop, rfl⟩ := viewAt_eq_some.mp hv
  obtain ⟨q, hq, hproj⟩ := Option.map_eq_some_iff.mp hx'
  unfold ConeArena.projOf at hx
  rw [hp, Option.map_some, Option.some.injEq, ← hproj, Proj.mk.injEq] at hx
  obtain ⟨howner, hop', hfact, ht, hreqs, hseed', hdist, hkey⟩ := hx
  have hsame : q = p := by
    cases p
    cases q
    simp only at howner hop' hfact
    subst howner hop' hfact
    rfl
  have hseed'' : s'.seed = false := hseed' ▸ hseed
  obtain ⟨hop'', hhop''⟩ := hb.firstHop s' hs' hseed''
  have hhops : hop'' = hop := by
    rw [hseed, hseed'', hhop, hhop''] at hkey
    exact ((ha.firstHop_built hhop).sortKey_inj (hb.firstHop_built hhop'')
      (Option.some.inj hkey)).symm
  refine viewAt_eq_some.mpr ⟨p, hop, hseed'', hsame ▸ hq, hhops ▸ hhop'', ?_⟩
  rw [ht, hreqs, hdist]

/-- States of one producer with one cell read alike. -/
theorem viewAt_of_cell {a b : ConeArena} {s s' : ConeState} {p : Producer}
    (hp : a.producers[s.producer]? = some p) (hp' : b.producers[s'.producer]? = some p)
    (hcell : a.cell s = b.cell s') : b.viewAt s' = a.viewAt s := by
  obtain ⟨-, ht, hreqs, hseed, hdist, hhop⟩ := StateCell.mk.inj hcell
  unfold ConeArena.viewAt
  rw [hp, hp', ht, hreqs, hseed, hdist, hhop]

/-- The state of a copied producer, in the other arena. -/
theorem exists_of_cells {a b : ConeArena} {i j : ℕ} (hcells : a.cells i = b.cells j) {s : ConeState}
    (hs : s ∈ a.states) (hi : s.producer = i) :
    ∃ s' ∈ b.states, s'.producer = j ∧ a.cell s = b.cell s' := by
  have hmem : a.cell s ∈ a.cells i :=
    List.mem_map_of_mem (List.mem_filter.mpr ⟨hs, decide_eq_true hi⟩)
  rw [hcells] at hmem
  obtain ⟨s', hs', heq⟩ := List.mem_map.mp hmem
  obtain ⟨hs', hj⟩ := List.mem_filter.mp hs'
  exact ⟨s', hs', of_decide_eq_true hj, heq.symm⟩

theorem affectedNew_iff {j : ℕ} {p : Producer} (hp : new.producers[j]? = some p) :
    (affectedNew new fresh).getD j false = true ↔ p.identity ∈ fresh := by
  unfold affectedNew
  rw [List.getD_eq_getElem?_getD, List.getElem?_map, hp]
  exact List.contains_iff_mem

theorem affectedOld_iff {i : ℕ} {p : Producer} (hp : old.producers[i]? = some p) :
    (affectedOld old new fresh).getD i false = true ↔
      p.identity ∈ fresh ∨ p.identity ∉ new.producers.map Producer.identity := by
  unfold affectedOld
  rw [List.getD_eq_getElem?_getD, List.getElem?_map, hp]
  simp

/-- **The two arenas have the same views of a routine outside the delta**: of an affected producer
by its projection, of any other by its copy. -/
theorem mem_viewsAt_iff (hold : Finalized old) (hnew : Finalized new)
    (hcopied : CopiedUnchanged old new fresh) {r : String} (hr : r ∉ pdOutputDelta old new fresh)
    (v : EntryView) : v ∈ old.viewsAt r ↔ v ∈ new.viewsAt r := by
  have hproj := project_eq_of_notMem hr
  rw [mem_viewsAt, mem_viewsAt]
  constructor
  · rintro ⟨s, hs, hsr, hv⟩
    obtain ⟨p, hp⟩ := hold.producer s hs
    by_cases haff : (affectedOld old new fresh).getD s.producer false = true
    · obtain ⟨x, hx⟩ : ∃ x, old.projOf s = some x := by
        unfold ConeArena.projOf
        rw [hp]
        exact ⟨_, rfl⟩
      have hmem := mem_project.mpr ⟨s, hs, haff, hsr, hx⟩
      rw [hproj] at hmem
      obtain ⟨s', hs', -, hsr', hx'⟩ := mem_project.mp hmem
      exact ⟨s', hs', hsr', viewAt_of_projOf hold hnew hs' hx hx' hv⟩
    · rw [affectedOld_iff hp, not_or, not_not] at haff
      obtain ⟨hfresh, hkept⟩ := haff
      obtain ⟨q, hq, hid⟩ := List.mem_map.mp hkept
      obtain ⟨j, hj⟩ := List.mem_iff_getElem?.mp hq
      obtain ⟨i, hi, hcells⟩ := hcopied j q hj (hid ▸ hfresh)
      have hplace := hold.index_unique hp hi hid.symm
      obtain ⟨s', hs', hj', hcell⟩ := exists_of_cells hcells hs hplace
      have hpq : p = q := by
        rw [hplace, hi] at hp
        exact (Option.some.inj hp).symm
      refine ⟨s', hs', (congrArg StateCell.routine hcell).symm.trans hsr, ?_⟩
      rw [viewAt_of_cell (hpq ▸ hp) (hj' ▸ hj) hcell]
      exact hv
  · rintro ⟨s, hs, hsr, hv⟩
    obtain ⟨p, hp⟩ := hnew.producer s hs
    by_cases hfresh : p.identity ∈ fresh
    · obtain ⟨x, hx⟩ : ∃ x, new.projOf s = some x := by
        unfold ConeArena.projOf
        rw [hp]
        exact ⟨_, rfl⟩
      have hmem := mem_project.mpr ⟨s, hs, (affectedNew_iff hp).mpr hfresh, hsr, hx⟩
      rw [← hproj] at hmem
      obtain ⟨s', hs', -, hsr', hx'⟩ := mem_project.mp hmem
      exact ⟨s', hs', hsr', viewAt_of_projOf hnew hold hs' hx hx' hv⟩
    · obtain ⟨i, hi, hcells⟩ := hcopied s.producer p hp hfresh
      obtain ⟨s', hs', hi', hcell⟩ := exists_of_cells hcells.symm hs rfl
      refine ⟨s', hs', (congrArg StateCell.routine hcell).symm.trans hsr, ?_⟩
      rw [viewAt_of_cell hp (hi' ▸ hi) hcell]
      exact hv

/-- **The delta misses nothing**: a routine whose entries differ, in any field or in their order, is
in it. -/
theorem pdOutputDelta_covers (hold : Finalized old) (hnew : Finalized new)
    (hcopied : CopiedUnchanged old new fresh) (r : String)
    (hdiff : old.entryViews r ≠ new.entryViews r) : r ∈ pdOutputDelta old new fresh := by
  by_contra hr
  refine hdiff ?_
  have hviews : old.viewsAt r = new.viewsAt r :=
    Ranking.eq_of_lt (hold.viewsAt_lt r) (hnew.viewsAt_lt r) (mem_viewsAt_iff hold hnew hcopied hr)
  rw [hold.entryViews_eq, hnew.entryViews_eq, hviews]

end Delta

/-! ## 6. A call site that moved -/

/-- `a/1` modifies the record it is passed. -/
def modifier : Producer where
  fact :=
    { subject := "a/1", op := "modify", resourceKind := "table", resourceId := some "T"
      confidence := "high", provenance := "direct", via := "direct"
      witnessOperationId := some "a/1/op0"
      extra := some (.table none
        (some { kind := "parameter-dependent", parameterIndex := some 0 }) none) }
  owner := "a/1"
  operationId := "a/1/op0"
  pd := rfl

/-- `b/2` calls `a/1` at its call site `n`, with a record of its own. -/
def calledAt (n : ℕ) : TypedEdge :=
  { kind := "direct-call", «from» := "b/2", «to» := some "a/1"
    callsiteId := some ("b/2" ++ "/cs" ++ toString n) }

/-- The arena of the one call. -/
def oneCall (n : ℕ) : ConeArena :=
  assembleArena [modifier] [("b/2", (calledAt n).outEdge "a/1")]
    [{ producer := 0, routine := "a/1", t := .parameterDependent 0, reqs := [], seed := true, dist := 0
       links := (0, 0) },
     { producer := 0, routine := "b/2", t := .unknown, reqs := [], seed := false, dist := 1
       links := (0, 0) }]
    [[], [{ calleeState := 0, edge := 0 }]]

theorem calledAt_emitted (n : ℕ) : (calledAt n).Emitted := by
  have ha : IsRoutineId "a/1" := ⟨"a", "1", rfl, by simp [isLowerHex]⟩
  have hb : IsRoutineId "b/2" := ⟨"b", "2", rfl, by simp [isLowerHex]⟩
  exact .call (by decide) ha ⟨"b/2", n, hb, rfl⟩

theorem oneCall_finalized (n : ℕ) : Finalized (oneCall n) where
  producersLt := List.pairwise_singleton _ _
  statesLt := by
    refine List.pairwise_cons.mpr ⟨fun s hs => ?_, List.pairwise_singleton _ _⟩
    obtain rfl := List.mem_singleton.mp hs
    rfl
  producer := by
    intro s hs
    rcases List.mem_cons.mp hs with rfl | hs
    · exact ⟨modifier, rfl⟩
    · obtain rfl := List.mem_singleton.mp hs
      exact ⟨modifier, rfl⟩
  firstHop := by
    intro s hs hseed
    rcases List.mem_cons.mp hs with rfl | hs
    · cases hseed
    · obtain rfl := List.mem_singleton.mp hs
      exact ⟨(calledAt n).outEdge "a/1", rfl⟩
  byRoutine := fun _ => rfl
  built := by
    intro e he
    obtain rfl := List.mem_singleton.mp he
    exact ⟨calledAt n, "a/1", calledAt_emitted n, rfl, rfl⟩

/-- The caller's entry differs only in the call site of its first hop. -/
theorem pdOutputDelta_covers_moved :
    "b/2" ∈ pdOutputDelta (oneCall 0) (oneCall 1) [("a/1", "a/1/op0")] := by
  refine pdOutputDelta_covers (oneCall_finalized 0) (oneCall_finalized 1) (fun j p hp hfresh => ?_)
    "b/2" (by decide)
  obtain rfl : p = modifier := List.mem_singleton.mp (List.mem_of_getElem? hp)
  exact absurd List.mem_cons_self hfresh

end AlSem.L4
