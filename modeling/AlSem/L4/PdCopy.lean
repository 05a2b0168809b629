/-
# Copying a producer's states

The states of an untouched producer are one range of the old arena, every edge their links cross
is found again in the new graph, and what is copied is the block a fresh search would add
(`copyProducer_covers`).
-/
import AlSem.L4.PdReuse

namespace AlSem.L4

/-! ## 1. A producer's range of states -/

section Range

variable {old : PdRevision} {ids : List (String × TypedOutEdge)} {a : ConeArena}

/-- The states are producer-major. -/
theorem Canonical.producer_mono (h : Canonical old ids a) {i j : ℕ} {x y : ConeState}
    (hx : a.states[i]? = some x) (hy : a.states[j]? = some y) (hij : i ≤ j) :
    x.producer ≤ y.producer := by
  rcases Nat.lt_or_eq_of_le hij with hlt | rfl
  · obtain ⟨hi, rfl⟩ := List.getElem?_eq_some_iff.mp hx
    obtain ⟨hj, rfl⟩ := List.getElem?_eq_some_iff.mp hy
    have hcmp := List.pairwise_iff_getElem.mp h.statesLt i j hi hj hlt
    have hle : (stateCmp a.states[i] a.states[j]).isLE = true := by rw [hcmp]; rfl
    have hfst := Ordering.isLE_left_of_isLE_then hle
    exact Nat.isLE_compare.mp hfst
  · rw [hx] at hy
    rw [Option.some.inj hy]

/-- **A producer's states are one range.** -/
theorem producerRange_spec (h : Canonical old ids a) (o : ℕ) {j : ℕ} {s : ConeState}
    (hs : a.states[j]? = some s) :
    s.producer = o ↔ (producerRange a o).1 ≤ j ∧ j < (producerRange a o).2 := by
  unfold producerRange
  dsimp only
  have hmem : ∀ i, i ∈ (a.states.zipIdx.filter fun s => s.1.producer = o).map Prod.snd ↔
      ∃ x, a.states[i]? = some x ∧ x.producer = o := by
    intro i
    rw [List.mem_map]
    constructor
    · rintro ⟨⟨x, i⟩, hx, rfl⟩
      obtain ⟨hx, hp⟩ := List.mem_filter.mp hx
      exact ⟨x, List.mem_zipIdx_iff_getElem?.mp hx, by simpa using hp⟩
    · rintro ⟨x, hx, hp⟩
      exact ⟨(x, i), List.mem_filter.mpr ⟨List.mem_zipIdx_iff_getElem?.mpr hx, by simpa using hp⟩, rfl⟩
  have hsorted : ((a.states.zipIdx.filter fun s => s.1.producer = o).map Prod.snd).Pairwise (· < ·) := by
    have hall : (a.states.zipIdx.map Prod.snd).Pairwise (· < ·) := by
      rw [List.zipIdx_map_snd]
      exact List.pairwise_lt_range'
    exact hall.sublist (List.filter_sublist.map _)
  generalize (a.states.zipIdx.filter fun s => s.1.producer = o).map Prod.snd = ixs at hmem hsorted
  cases hixs : ixs with
  | nil =>
    subst hixs
    simp only [List.head?_nil, List.getLast?_nil, Option.getD_none, Option.map_none]
    constructor
    · intro hp
      exact absurd ((hmem j).mpr ⟨s, hs, hp⟩) (by simp)
    · rintro ⟨-, hj⟩
      omega
  | cons first rest =>
    have hne : ixs ≠ [] := by rw [hixs]; simp
    rw [← hixs]
    have hfirst : ixs.head? = some first := by rw [hixs]; rfl
    rw [hfirst, List.getLast?_eq_getLast_of_ne_nil hne]
    simp only [Option.getD_some, Option.map_some]
    have hle : ∀ i ∈ ixs, first ≤ i ∧ i ≤ ixs.getLast hne := by
      intro i hi
      have hle : ixs.Pairwise (· ≤ ·) := hsorted.imp Nat.le_of_lt
      refine ⟨?_, hle.rel_getLast hi⟩
      rw [hixs] at hle hi
      rcases List.mem_cons.mp hi with rfl | hi
      · exact le_rfl
      · exact (List.pairwise_cons.mp hle).1 i hi
    constructor
    · intro hp
      obtain ⟨h₁, h₂⟩ := hle j ((hmem j).mpr ⟨s, hs, hp⟩)
      omega
    · rintro ⟨h₁, h₂⟩
      obtain ⟨x, hx, hxp⟩ := (hmem first).mp (List.mem_of_head? hfirst)
      obtain ⟨y, hy, hyp⟩ := (hmem (ixs.getLast hne)).mp (List.getLast_mem hne)
      have hlow := h.producer_mono hx hs h₁
      have hhigh := h.producer_mono hs hy (by omega)
      omega

/-- The states of producer `o`. -/
def slice (a : ConeArena) (o : ℕ) : List ConeState :=
  (a.states.drop (producerRange a o).1).take ((producerRange a o).2 - (producerRange a o).1)

theorem slice_getElem? (h : Canonical old ids a) {o i : ℕ} {s : ConeState} :
    (slice a o)[i]? = some s ↔
      a.states[(producerRange a o).1 + i]? = some s ∧ s.producer = o := by
  unfold slice
  rw [List.getElem?_take]
  constructor
  · intro hs
    split at hs
    · rw [List.getElem?_drop] at hs
      exact ⟨hs, (producerRange_spec h o hs).mpr ⟨by omega, by omega⟩⟩
    · simp at hs
  · rintro ⟨hs, hp⟩
    have := ((producerRange_spec h o hs).mp hp).2
    rw [if_pos (by omega), List.getElem?_drop]
    exact hs

theorem mem_slice (h : Canonical old ids a) {o : ℕ} {s : ConeState} :
    s ∈ slice a o ↔ s ∈ a.states ∧ s.producer = o := by
  constructor
  · intro hs
    obtain ⟨i, hi⟩ := List.mem_iff_getElem?.mp hs
    obtain ⟨hs, hp⟩ := (slice_getElem? h).mp hi
    exact ⟨List.mem_of_getElem? hs, hp⟩
  · rintro ⟨hs, hp⟩
    obtain ⟨j, hj⟩ := List.mem_iff_getElem?.mp hs
    have hlow := ((producerRange_spec h o hj).mp hp).1
    refine List.mem_of_getElem? (i := j - (producerRange a o).1) ((slice_getElem? h).mpr ⟨?_, hp⟩)
    rw [Nat.add_sub_cancel' hlow]
    exact hj

end Range

/-! ## 2. Finding the edges again -/

/-- What is remembered of the old edges is where each stands in the new table. -/
structure Remembers (ids : List (String × TypedOutEdge)) (st : CopyState) : Prop where
  nodup : st.edges.Nodup
  newEdge : ∀ oe r, st.newEdge oe = some r →
    ∃ k ge, r = some k ∧ st.edges[k]? = some ge ∧ ids[oe]? = some ge.identity

/-- Old edges were looked for: the table has grown by edges of identities in `E`, nothing else has
changed. -/
structure Looked (ids : List (String × TypedOutEdge)) (E : Set (String × TypedOutEdge))
    (st st' : CopyState) : Prop where
  states : st'.states = st.states
  rawLinks : st'.rawLinks = st.rawLinks
  copied : st'.copied = st.copied
  remembers : Remembers ids st'
  edges : ∃ ext, st'.edges = st.edges ++ ext ∧ ∀ ge ∈ ext, ge.identity ∈ E

namespace Looked

variable {ids : List (String × TypedOutEdge)} {E : Set (String × TypedOutEdge)}

theorem refl {st : CopyState} (h : Remembers ids st) : Looked ids E st st :=
  ⟨rfl, rfl, rfl, h, [], by simp, by simp⟩

theorem trans {st₁ st₂ st₃ : CopyState} (h₁ : Looked ids E st₁ st₂) (h₂ : Looked ids E st₂ st₃) :
    Looked ids E st₁ st₃ := by
  obtain ⟨ext₁, hext₁, hall₁⟩ := h₁.edges
  obtain ⟨ext₂, hext₂, hall₂⟩ := h₂.edges
  refine ⟨h₂.states.trans h₁.states, h₂.rawLinks.trans h₁.rawLinks, h₂.copied.trans h₁.copied,
    h₂.remembers, ext₁ ++ ext₂, by rw [hext₂, hext₁, List.append_assoc], fun ge hge => ?_⟩
  exact (List.mem_append.mp hge).elim (hall₁ ge) (hall₂ ge)

/-- The table keeps what it had. -/
theorem getElem? {st st' : CopyState} (h : Looked ids E st st') {k : ℕ} {ge : GraphEdge}
    (hk : st.edges[k]? = some ge) : st'.edges[k]? = some ge := by
  obtain ⟨ext, hext, -⟩ := h.edges
  rw [hext, List.getElem?_append_left (List.getElem?_eq_some_iff.mp hk).1]
  exact hk

end Looked

section Edges

variable {g : TypedEdgeGraph} {a : ConeArena} {ids : List (String × TypedOutEdge)}
  {E : Set (String × TypedOutEdge)}

/-- An edge of the graph is found by its identity. -/
theorem findEdge_spec {src : String} {e : TypedOutEdge} (he : e ∈ g.outEdges src) :
    ∃ ge, findEdge g src e = some ge ∧ ge.identity = (src, e) := by
  obtain ⟨pos, hpos⟩ := mem_outEdges.mp he
  have hself : edgeCmp (src, e) (src, e) = .eq := Std.ReflCmp.compare_self
  have hsome : (findEdge g src e).isSome = true := by
    unfold findEdge
    rw [List.find?_isSome]
    exact ⟨_, List.mem_filter.mpr ⟨hpos, by simp⟩, decide_eq_true hself⟩
  obtain ⟨ge, hge⟩ := Option.isSome_iff_exists.mp hsome
  have hfound := List.find?_some hge
  exact ⟨ge, hge, edgeCmp_eq (of_decide_eq_true hfound)⟩

/-- Old edge `oe`, an edge out of `src`, is in the new graph, its identity in `E`. -/
def Crossable (g : TypedEdgeGraph) (ids : List (String × TypedOutEdge))
    (E : Set (String × TypedOutEdge)) (src : String) (oe : ℕ) : Prop :=
  ∃ e, ids[oe]? = some (src, e) ∧ e ∈ g.outEdges src ∧ (src, e) ∈ E

/-- **An old edge is found again** where its identity stands in the new table. -/
theorem mapEdge_spec (hids : a.edges = ids.map Prod.snd) {st : CopyState} (h : Remembers ids st)
    {src : String} {oe : ℕ} (hoe : Crossable g ids E src oe) :
    Looked ids E st (mapEdge g a src oe st).1 ∧ ∃ k ge, (mapEdge g a src oe st).2 = some k ∧
      (mapEdge g a src oe st).1.edges[k]? = some ge ∧ ids[oe]? = some ge.identity := by
  obtain ⟨e, hat, he, hE⟩ := hoe
  unfold mapEdge
  cases hnew : st.newEdge oe with
  | some r =>
    obtain ⟨k, ge, rfl, hk, hid⟩ := h.newEdge oe r hnew
    exact ⟨.refl h, k, ge, rfl, hk, hid⟩
  | none =>
    obtain ⟨ge, hfind, hge⟩ := findEdge_spec he
    have hedge : (a.edges[oe]?).bind (findEdge g src) = some ge := by
      rw [hids, List.getElem?_map, hat]
      exact hfind
    rw [hedge]
    obtain ⟨hnd, hget, ext, hext, hall⟩ := Bfs.indexOf_spec h.nodup ge
    dsimp only
    generalize Bfs.indexOf st.edges ge = r at hnd hget hext ⊢
    obtain ⟨edges, k⟩ := r
    dsimp only at hnd hget hext ⊢
    subst hext
    refine ⟨⟨rfl, rfl, rfl, ⟨hnd, fun oe' r hr => ?_⟩, ext, rfl, fun x hx => ?_⟩, k, ge, rfl, hget,
      by rw [hat, hge]⟩
    · replace hr : Function.update st.newEdge oe (some (some k)) oe' = some r := hr
      by_cases heq : oe' = oe
      · subst heq
        rw [Function.update_self, Option.some.injEq] at hr
        exact ⟨k, ge, hr.symm, hget, by rw [hat, hge]⟩
      · rw [Function.update_of_ne heq] at hr
        obtain ⟨k', ge', hr, hk', hid⟩ := h.newEdge oe' r hr
        refine ⟨k', ge', hr, ?_, hid⟩
        rw [List.getElem?_append_left (List.getElem?_eq_some_iff.mp hk').1]
        exact hk'
    · rw [hall x hx, hge]
      exact hE

/-- The links of one state are all found. -/
theorem mapLinks_spec (hids : a.edges = ids.map Prod.snd) {src : String} :
    ∀ (links : List ConeLink) {st : CopyState}, Remembers ids st →
      (∀ l ∈ links, Crossable g ids E src l.edge) →
      Looked ids E st (mapLinks g a src links st).1 ∧ (mapLinks g a src links st).2 = true
  | [], st, h, _ => ⟨.refl h, rfl⟩
  | l :: links, st, h, hl => by
    obtain ⟨hlook, k, ge, hk, -, -⟩ := mapEdge_spec hids h (hl l List.mem_cons_self)
    unfold mapLinks
    generalize mapEdge g a src l.edge st = r at hlook hk
    obtain ⟨st₁, res⟩ := r
    dsimp only at hlook hk ⊢
    subst hk
    obtain ⟨hlook', hall⟩ := mapLinks_spec hids links hlook.remembers
      fun l hl' => hl l (List.mem_cons_of_mem _ hl')
    exact ⟨hlook.trans hlook', hall⟩

/-- The links of all states are found. -/
theorem mapStates_spec (hids : a.edges = ids.map Prod.snd) :
    ∀ (ss : List ConeState) {st : CopyState}, Remembers ids st →
      (∀ s ∈ ss, ∀ l ∈ a.linksOf s, Crossable g ids E s.routine l.edge) →
      Looked ids E st (mapStates g a ss st).1 ∧ (mapStates g a ss st).2 = true
  | [], st, h, _ => ⟨.refl h, rfl⟩
  | s :: ss, st, h, hs => by
    obtain ⟨hlook, hall⟩ := mapLinks_spec hids (a.linksOf s) h (hs s List.mem_cons_self)
    unfold mapStates
    generalize mapLinks g a s.routine (a.linksOf s) st = r at hlook hall
    obtain ⟨st₁, res⟩ := r
    dsimp only at hlook hall ⊢
    subst hall
    obtain ⟨hlook', hall'⟩ := mapStates_spec hids ss hlook.remembers
      fun s hs' => hs s (List.mem_cons_of_mem _ hs')
    exact ⟨hlook.trans hlook', hall'⟩

/-! ## 3. Copying states -/

/-- `n` is the copy of old link `l`, states shifted from `s0` to `base`. -/
def CopiedLink (ids : List (String × TypedOutEdge)) (base s0 : ℕ) (edges : List GraphEdge)
    (l n : ConeLink) : Prop :=
  n.calleeState = base + (l.calleeState - s0) ∧
    ∃ ge, edges[n.edge]? = some ge ∧ ids[l.edge]? = some ge.identity

theorem CopiedLink.mono {base s0 : ℕ} {st st' : CopyState} (h : Looked ids E st st') {l n : ConeLink}
    (hl : CopiedLink ids base s0 st.edges l n) : CopiedLink ids base s0 st'.edges l n := by
  obtain ⟨hc, ge, hge, hid⟩ := hl
  exact ⟨hc, ge, h.getElem? hge, hid⟩

theorem foldl_copyLink_spec (hids : a.edges = ids.map Prod.snd) {src : String} (base s0 : ℕ) :
    ∀ (links : List ConeLink) {st : CopyState} (acc : List ConeLink), Remembers ids st →
      (∀ l ∈ links, Crossable g ids E src l.edge) →
      ∃ st' new, links.foldl (copyLink g a src base s0) (st, acc) = (st', acc ++ new) ∧
        Looked ids E st st' ∧ List.Forall₂ (CopiedLink ids base s0 st'.edges) links new
  | [], st, acc, h, _ => ⟨st, [], by simp, .refl h, .nil⟩
  | l :: links, st, acc, h, hl => by
    obtain ⟨hlook, k, ge, hk, hge, hid⟩ := mapEdge_spec hids h (hl l List.mem_cons_self)
    obtain ⟨st', new, hfold, hlook', hnew⟩ := foldl_copyLink_spec hids base s0 links
      (acc ++ [{ calleeState := base + (l.calleeState - s0), edge := k }]) hlook.remembers
      fun l hl' => hl l (List.mem_cons_of_mem _ hl')
    have hcopied : CopiedLink ids base s0 (mapEdge g a src l.edge st).1.edges l
        { calleeState := base + (l.calleeState - s0), edge := k } := ⟨rfl, ge, hge, hid⟩
    refine ⟨st', _ :: new, ?_, hlook.trans hlook', .cons (hcopied.mono hlook') hnew⟩
    rw [List.foldl_cons]
    have hstep : copyLink g a src base s0 (st, acc) l = ((mapEdge g a src l.edge st).1,
        acc ++ [{ calleeState := base + (l.calleeState - s0), edge := k }]) := by
      unfold copyLink
      generalize mapEdge g a src l.edge st = r at hk
      obtain ⟨st₁, res⟩ := r
      dsimp only at hk ⊢
      subst hk
      rfl
    rw [hstep, hfold, List.append_assoc]
    rfl

/-- A state of the old arena, copied for producer `p`. -/
def copyOf (p : ℕ) (s : ConeState) : ConeState := { s with producer := p, links := (0, 0) }

/-- **Copying states** appends their copies and the copies of their links. -/
theorem foldl_copyState_spec (hids : a.edges = ids.map Prod.snd) (p base s0 : ℕ) :
    ∀ (ss : List ConeState) (st : CopyState), Remembers ids st →
      (∀ s ∈ ss, ∀ l ∈ a.linksOf s, Crossable g ids E s.routine l.edge) →
      ∃ bl ext, let st' := ss.foldl (copyState g a p base s0) st
        st'.states = st.states ++ ss.map (copyOf p) ∧ st'.rawLinks = st.rawLinks ++ bl ∧
        st'.copied = st.copied ∧ Remembers ids st' ∧ st'.edges = st.edges ++ ext ∧
        (∀ ge ∈ ext, ge.identity ∈ E) ∧
        List.Forall₂ (fun s ls => List.Forall₂ (CopiedLink ids base s0 st'.edges) (a.linksOf s) ls) ss bl
  | [], st, h, _ => ⟨[], [], by simp, by simp, rfl, h, by simp, by simp, .nil⟩
  | s :: ss, st, h, hs => by
    obtain ⟨st₁, new, hfold, hlook, hnew⟩ := foldl_copyLink_spec hids base s0
      (a.linksOf s) [] h (hs s List.mem_cons_self)
    have hstep : copyState g a p base s0 st s = { st₁ with
        states := st₁.states ++ [copyOf p s], rawLinks := st₁.rawLinks ++ [new] } := by
      unfold copyState
      rw [hfold]
      rfl
    obtain ⟨bl, ext, hstates, hlinks, hcopied, hrem, hedges, hall, hbl⟩ :=
      foldl_copyState_spec hids p base s0 ss
        ({ st₁ with
          states := st₁.states ++ [copyOf p s], rawLinks := st₁.rawLinks ++ [new] })
        ⟨hlook.remembers.nodup, hlook.remembers.newEdge⟩
        fun s hs' => hs s (List.mem_cons_of_mem _ hs')
    obtain ⟨ext₁, hext₁, hall₁⟩ := hlook.edges
    refine ⟨new :: bl, ext₁ ++ ext, ?_⟩
    rw [List.foldl_cons, hstep]
    dsimp only at hstates hlinks hcopied hedges hbl ⊢
    refine ⟨by rw [hstates, hlook.states]; simp, by rw [hlinks, hlook.rawLinks]; simp,
      hcopied.trans hlook.copied, hrem, by rw [hedges, hext₁, List.append_assoc], ?_, .cons ?_ hbl⟩
    · intro ge hge
      exact (List.mem_append.mp hge).elim (hall₁ ge) (hall ge)
    · refine hnew.imp fun l n hl => ?_
      obtain ⟨hc, ge, hge, hid⟩ := hl
      refine ⟨hc, ge, ?_, hid⟩
      rw [hedges, List.getElem?_append_left (List.getElem?_eq_some_iff.mp hge).1]
      exact hge

end Edges

/-! ## 4. A copied producer is a block -/

/-- Related lists are related place by place. -/
theorem forall₂_getElem? {α β : Type} {R : α → β → Prop} {l : List α} {l' : List β}
    (h : List.Forall₂ R l l') {i : ℕ} {x : α} (hx : l[i]? = some x) : ∃ y, l'[i]? = some y ∧ R x y := by
  obtain ⟨hlen, hget⟩ := List.forall₂_iff_get.mp h
  obtain ⟨hi, rfl⟩ := List.getElem?_eq_some_iff.mp hx
  exact ⟨_, List.getElem?_eq_getElem (hlen ▸ hi), hget i hi (hlen ▸ hi)⟩

section Copied

variable {old new : PdRevision} {ids : List (String × TypedOutEdge)} {a : ConeArena} {o : ℕ}
  {prod : Producer}

/-- The identities the links of producer `o` cross. -/
def crossedBy (a : ConeArena) (ids : List (String × TypedOutEdge)) (o : ℕ) :
    Set (String × TypedOutEdge) :=
  {id | ∃ s ∈ slice a o, ∃ l ∈ a.linksOf s, ids[l.edge]? = some id}

/-- A state of the slice is what the old search found. -/
theorem bare_of_mem_slice (hcanon : Canonical old ids a) (hprod : a.producers[o]? = some prod)
    {s : ConeState} (hs : s ∈ slice a o) :
    ∃ n, Found old prod n s.pdKey ∧ s.bare = stateOf o s.pdKey n := by
  obtain ⟨hmem, rfl⟩ := (mem_slice hcanon).mp hs
  obtain ⟨prod', n, key, hprod', hf, heq⟩ := (hcanon.state s.bare).mp (List.mem_map_of_mem hmem)
  have hkey : s.pdKey = key := congrArg ConeState.pdKey heq
  have hp : prod' = prod := Option.some.inj (hprod'.symm.trans hprod)
  rw [hkey, ← hp]
  exact ⟨n, hf, heq⟩

/-- A link of a slice state comes from a slice state, across the same hop in both revisions. -/
theorem link_of_mem_slice (hcanon : Canonical old ids a) (hprod : a.producers[o]? = some prod)
    (hunt : Untouched old new prod) {s : ConeState} (hs : s ∈ slice a o) {l : ConeLink}
    (hl : l ∈ a.linksOf s) : ∃ c id, a.states[l.calleeState]? = some c ∧ c ∈ slice a o ∧
      ids[l.edge]? = some id ∧ Hop new c.pdKey id s.pdKey := by
  obtain ⟨hmem, hp⟩ := (mem_slice hcanon).mp hs
  obtain ⟨c, id, hc, hid, hprods, hhop⟩ := (hcanon.link s hmem l).mp hl
  have hcs : c ∈ slice a o := (mem_slice hcanon).mpr ⟨List.mem_of_getElem? hc, hprods.trans hp⟩
  obtain ⟨n, hfc, -⟩ := bare_of_mem_slice hcanon hprod hcs
  obtain ⟨m, hfs, -⟩ := bare_of_mem_slice hcanon hprod hs
  exact ⟨c, id, hc, hcs, hid, (hunt.hop_iff hfc.1 hfs.1).mp hhop⟩

/-- **Every edge of an untouched producer is in the new graph.** -/
theorem crossable_of_mem_slice (hcanon : Canonical old ids a) (hprod : a.producers[o]? = some prod)
    (hunt : Untouched old new prod) {s : ConeState} (hs : s ∈ slice a o) {l : ConeLink}
    (hl : l ∈ a.linksOf s) : Crossable new.graph ids (crossedBy a ids o) s.routine l.edge := by
  obtain ⟨c, ⟨src, e⟩, -, -, hid, hhop⟩ := link_of_mem_slice hcanon hprod hunt hs hl
  obtain rfl : s.routine = src := hhop.source
  exact ⟨e, hid, hhop.1, s, hs, l, hl, hid⟩

/-- Copies of slice states are told apart as the states are. -/
theorem nodup_copies (hcanon : Canonical old ids a) (p : ℕ) : ((slice a o).map (copyOf p)).Nodup := by
  have hbare : ((slice a o).map ConeState.bare).Nodup := by
    have hlt : (a.states.map ConeState.bare).Pairwise fun x y => stateCmp x y = .lt :=
      List.pairwise_map.mpr hcanon.statesLt
    refine (Ranking.nodup_of_lt hlt).sublist (List.Sublist.map _ ?_)
    exact (List.take_sublist _ _).trans (List.drop_sublist _ _)
  refine List.Nodup.map_on (fun x hx y hy heq => ?_) hbare.of_map
  refine List.inj_on_of_nodup_map hbare hx hy ?_
  have hpx := ((mem_slice hcanon).mp hx).2
  have hpy := ((mem_slice hcanon).mp hy).2
  cases x
  cases y
  simp only [copyOf, ConeState.bare, ConeState.mk.injEq] at heq hpx hpy ⊢
  exact ⟨hpx.trans hpy.symm, heq.2⟩

/-- **What is copied is the block** of the producer's search in the new revision. -/
theorem copies_block (hcanon : Canonical old ids a) (hprod : a.producers[o]? = some prod)
    (hunt : Untouched old new prod) (p base : ℕ) {edges : List GraphEdge}
    (ext : List GraphEdge) {bl : List (List ConeLink)}
    (hext : ∀ ge ∈ ext, ge.identity ∈ crossedBy a ids o)
    (hbl : List.Forall₂ (fun s ls => List.Forall₂
      (CopiedLink ids base (producerRange a o).1 edges) (a.linksOf s) ls) (slice a o) bl) :
    Block new prod p base edges ext ((slice a o).map (copyOf p)) bl := by
  -- the copied links of slice state `j`
  have hlinks : ∀ (j : ℕ) (k : ConeLink), k ∈ bl.getD j [] → ∃ s, (slice a o)[j]? = some s ∧
      ∃ l ∈ a.linksOf s, CopiedLink ids base (producerRange a o).1 edges l k := by
    intro j k hk
    have hlt : j < bl.length := by
      by_contra hge
      rw [List.getD_eq_getElem?_getD, List.getElem?_eq_none_iff.mpr (by omega)] at hk
      simp at hk
    obtain ⟨s, hs, hrel⟩ := forall₂_getElem? hbl.flip (List.getElem?_eq_getElem hlt)
    rw [List.getD_eq_getElem?_getD, List.getElem?_eq_getElem hlt] at hk
    obtain ⟨i, hi⟩ := List.mem_iff_getElem?.mp hk
    obtain ⟨l, hl, hcopied⟩ := forall₂_getElem? (List.Forall₂.flip hrel) hi
    exact ⟨s, hs, l, List.mem_of_getElem? hl, hcopied⟩
  have hcopies : ∀ (j : ℕ) (s : ConeState), (slice a o)[j]? = some s → ∀ l ∈ a.linksOf s,
      ∃ k ∈ bl.getD j [], CopiedLink ids base (producerRange a o).1 edges l k := by
    intro j s hs l hl
    obtain ⟨ls, hls, hrel⟩ := forall₂_getElem? hbl hs
    obtain ⟨i, hi⟩ := List.mem_iff_getElem?.mp hl
    obtain ⟨k, hk, hcopied⟩ := forall₂_getElem? hrel hi
    refine ⟨k, ?_, hcopied⟩
    rw [List.getD_eq_getElem?_getD, hls]
    exact List.mem_of_getElem? hk
  have hstate : ∀ (i : ℕ) (c : ConeState), ((slice a o).map (copyOf p))[i]? = some c →
      ∃ s, (slice a o)[i]? = some s ∧ c = copyOf p s := by
    intro i c hc
    rw [List.getElem?_map, Option.map_eq_some_iff] at hc
    obtain ⟨s, hs, rfl⟩ := hc
    exact ⟨s, hs, rfl⟩
  refine ⟨?_, nodup_copies hcanon p, fun s => ?_, fun j s hj i id => ?_, fun j k hk => ?_,
    fun ge hge => ?_⟩
  · rw [List.length_map]
    exact hbl.length_eq.symm
  · rw [List.mem_map]
    constructor
    · rintro ⟨s, hs, rfl⟩
      obtain ⟨n, hf, hbare⟩ := bare_of_mem_slice hcanon hprod hs
      refine ⟨n, s.pdKey, hunt.found_iff.mp hf, ?_⟩
      show ({ s.bare with producer := p } : ConeState) = _
      rw [hbare]
      rfl
    · rintro ⟨n, key, hf, rfl⟩
      obtain ⟨s, hs, hbare⟩ := hcanon.mem_states hprod (hunt.found_iff.mpr hf)
      refine ⟨s, (mem_slice hcanon).mpr ⟨hs, congrArg ConeState.producer hbare⟩, ?_⟩
      show ({ s.bare with producer := p } : ConeState) = _
      rw [hbare]
      rfl
  · obtain ⟨s, hs, rfl⟩ := hstate j s hj
    have hsm := List.mem_of_getElem? hs
    constructor
    · rintro ⟨k, hk, rfl, hkid⟩
      obtain ⟨s', hs', l, hl, hcallee, ge, hge, hid⟩ := hlinks j k hk
      obtain rfl := Option.some.inj (hs.symm.trans hs')
      rw [hge, Option.map_some, Option.some.injEq] at hkid
      subst hkid
      obtain ⟨c, id, hc, hcs, hid', hhop⟩ := link_of_mem_slice hcanon hprod hunt hsm hl
      obtain rfl := Option.some.inj (hid.symm.trans hid')
      have hcp := ((mem_slice hcanon).mp hcs).2
      have hlow := ((producerRange_spec hcanon o hc).mp hcp).1
      refine ⟨_, copyOf p c, hcallee, ?_, hhop⟩
      rw [List.getElem?_map, (slice_getElem? hcanon (s := c)).mpr ⟨?_, hcp⟩]
      · rfl
      · rw [Nat.add_sub_cancel' hlow]
        exact hc
    · rintro ⟨i', c, rfl, hc, hhop⟩
      obtain ⟨c, hcs, rfl⟩ := hstate i' c hc
      obtain ⟨hcat, hcp⟩ := (slice_getElem? hcanon).mp hcs
      obtain ⟨n, hfc, -⟩ := bare_of_mem_slice hcanon hprod (List.mem_of_getElem? hcs)
      obtain ⟨m, hfs, -⟩ := bare_of_mem_slice hcanon hprod hsm
      have hold : Hop old c.pdKey id s.pdKey := (hunt.hop_iff hfc.1 hfs.1).mpr hhop
      obtain ⟨hsa, hsp⟩ := (mem_slice hcanon).mp hsm
      have hbare : ∀ x ∈ a.states, IsState old a.producers x.bare := fun x hx =>
        (hcanon.state _).mp (List.mem_map_of_mem hx)
      obtain ⟨oe, hoe⟩ := List.mem_iff_getElem?.mp ((hcanon.used id).mpr
        ⟨c.bare, s.bare, hbare c (List.mem_of_getElem? hcat), hbare s hsa, hcp.trans hsp.symm, hold⟩)
      have hl : (⟨(producerRange a o).1 + i', oe⟩ : ConeLink) ∈ a.linksOf s :=
        (hcanon.link s hsa _).mpr ⟨c, id, hcat, hoe, hcp.trans hsp.symm, hold⟩
      obtain ⟨k, hk, hcallee, ge, hge, hid⟩ := hcopies j s hs _ hl
      refine ⟨k, hk, by rw [hcallee, Nat.add_sub_cancel_left], ?_⟩
      rw [hge, Option.map_some, ← hid]
      exact hoe
  · obtain ⟨-, -, -, -, -, ge, hge, -⟩ := hlinks j k hk
    exact (List.getElem?_eq_some_iff.mp hge).1
  · obtain ⟨s, hs, l, hl, hid⟩ := hext ge hge
    obtain ⟨c, id, -, hcs, hid', hhop⟩ := link_of_mem_slice hcanon hprod hunt hs hl
    obtain rfl := Option.some.inj (hid.symm.trans hid')
    exact ⟨copyOf p c, List.mem_map_of_mem hcs, copyOf p s, List.mem_map_of_mem hs, hhop⟩

/-! ## 5. Copying what is reused -/

/-- **Copying a producer** adds its block. -/
theorem copyProducer_covers {producers : List Producer} {S : Set ℕ} {st : CopyState} {p : ℕ}
    (hcanon : Canonical old ids a) (hprod : a.producers[o]? = some prod)
    (hunt : Untouched old new prod) (h : st.Covers new producers S) (hrem : Remembers ids st)
    (hp : p ∉ S) (hat : producers[p]? = some prod) :
    (copyProducer new.graph a st (some o, p)).Covers new producers (insert p S) ∧
      Remembers ids (copyProducer new.graph a st (some o, p)) ∧
      (copyProducer new.graph a st (some o, p)).copied = st.copied ++ [some o] := by
  have hcross : ∀ s ∈ slice a o, ∀ l ∈ a.linksOf s,
      Crossable new.graph ids (crossedBy a ids o) s.routine l.edge :=
    fun s hs l hl => crossable_of_mem_slice hcanon hprod hunt hs hl
  obtain ⟨hlook, hfound⟩ := mapStates_spec hcanon.edges (slice a o) hrem hcross
  have hstep : copyProducer new.graph a st (some o, p) =
      let st₁ := (mapStates new.graph a (slice a o) st).1
      let st₂ := (slice a o).foldl
        (copyState new.graph a p st₁.states.length (producerRange a o).1) st₁
      { st₂ with copied := st₂.copied ++ [some o] } := by
    unfold copyProducer
    dsimp only
    rw [show (a.states.drop (producerRange a o).1).take
      ((producerRange a o).2 - (producerRange a o).1) = slice a o from rfl]
    generalize mapStates new.graph a (slice a o) st = r at hfound
    obtain ⟨st₁, res⟩ := r
    dsimp only at hfound ⊢
    subst hfound
    rfl
  rw [hstep]
  generalize (mapStates new.graph a (slice a o) st).1 = st₁ at hlook
  obtain ⟨ext₁, hext₁, hall₁⟩ := hlook.edges
  obtain ⟨bl, ext₂, hstates, hlinks, hcopied, hrem₂, hedges, hall₂, hbl⟩ :=
    foldl_copyState_spec hcanon.edges p st₁.states.length (producerRange a o).1 (slice a o) _ hlook.remembers hcross
  dsimp only
  generalize (slice a o).foldl (copyState new.graph a p st₁.states.length (producerRange a o).1) st₁ =
    st₂ at hstates hlinks hcopied hrem₂ hedges hbl
  have hgrown : st₂.edges = st.edges ++ (ext₁ ++ ext₂) := by
    rw [hedges, hext₁, List.append_assoc]
  refine ⟨?_, ⟨hrem₂.nodup, hrem₂.newEdge⟩, by rw [hcopied, hlook.copied]⟩
  rw [hgrown] at hbl
  have hnd := hrem₂.nodup
  rw [hgrown] at hnd
  rw [hlook.states] at hbl
  have hblock := copies_block hcanon hprod hunt p st.states.length (ext₁ ++ ext₂)
    (fun ge hge => (List.mem_append.mp hge).elim (hall₁ ge) (hall₂ ge)) hbl
  unfold CopyState.Covers
  dsimp only
  rw [hstates, hlinks, hgrown, hlook.states, hlook.rawLinks]
  exact Covered.append h hblock hp hat hnd

end Copied

section Reused

variable {D : Type} [DecidableEq D] {old new : PdRevision} {ids : List (String × TypedOutEdge)}

/-- **Copying the reused producers**, one after the other. -/
theorem foldl_copyProducer_covers {a : ConeArena} {producers : List Producer}
    (hcanon : Canonical old ids a) : ∀ (ps : List (Option ℕ × ℕ)) {S : Set ℕ} (st : CopyState),
    st.Covers new producers S → Remembers ids st → (ps.map Prod.snd).Nodup →
    (∀ p ∈ ps, p.2 ∉ S) →
    (∀ p ∈ ps, ∀ o, p.1 = some o → ∃ prod, producers[p.2]? = some prod ∧
      a.producers[o]? = some prod ∧ Untouched old new prod) →
    (ps.foldl (copyProducer new.graph a) st).Covers new producers
        (S ∪ {p | ∃ o, (some o, p) ∈ ps}) ∧
      (ps.foldl (copyProducer new.graph a) st).copied = st.copied ++ ps.map Prod.fst
  | [], S, st, h, _, _, _, _ => ⟨by simpa using h, by simp⟩
  | (none, p) :: ps, S, st, h, hrem, hnd, hS, hps => by
    obtain ⟨hcov, hcopied⟩ := foldl_copyProducer_covers hcanon ps (S := S)
      { st with copied := st.copied ++ [none] } h ⟨hrem.nodup, hrem.newEdge⟩
      (List.nodup_cons.mp hnd).2 (fun q hq => hS q (List.mem_cons_of_mem _ hq))
      fun q hq => hps q (List.mem_cons_of_mem _ hq)
    refine ⟨?_, ?_⟩
    · have hset : {q | ∃ o, (some o, q) ∈ (none, p) :: ps} = {q | ∃ o, (some o, q) ∈ ps} := by
        ext q
        simp
      rw [hset]
      exact hcov
    · rw [List.foldl_cons, List.map_cons]
      exact hcopied.trans (by simp)
  | (some o, p) :: ps, S, st, h, hrem, hnd, hS, hps => by
    obtain ⟨prod, hat, hprod, hunt⟩ := hps (some o, p) List.mem_cons_self o rfl
    obtain ⟨hpn, hnd⟩ := List.nodup_cons.mp hnd
    obtain ⟨hcov₁, hrem₁, hcopied₁⟩ := copyProducer_covers hcanon hprod hunt h hrem
      (hS (some o, p) List.mem_cons_self) hat
    obtain ⟨hcov, hcopied⟩ := foldl_copyProducer_covers hcanon ps _ hcov₁ hrem₁ hnd
      (fun q hq hmem => by
        rcases hmem with rfl | hmem
        · exact hpn (List.mem_map.mpr ⟨q, hq, rfl⟩)
        · exact hS q (List.mem_cons_of_mem _ hq) hmem)
      fun q hq => hps q (List.mem_cons_of_mem _ hq)
    refine ⟨?_, ?_⟩
    · have hset : insert p S ∪ {q | ∃ o, (some o, q) ∈ ps} =
          S ∪ {q | ∃ o', (some o', q) ∈ (some o, p) :: ps} := by
        ext q
        simp only [Set.mem_union, Set.mem_insert_iff, Set.mem_ofPred_eq, List.mem_cons, Prod.mk.injEq]
        constructor
        · rintro ((rfl | hq) | ⟨o', hq⟩)
          · exact Or.inr ⟨o, Or.inl ⟨rfl, rfl⟩⟩
          · exact Or.inl hq
          · exact Or.inr ⟨o', Or.inr hq⟩
        · rintro (hq | ⟨o', ⟨-, rfl⟩ | hq⟩)
          · exact Or.inl (Or.inr hq)
          · exact Or.inl (Or.inl rfl)
          · exact Or.inr ⟨o', hq⟩
      rw [← hset]
      exact hcov
    · rw [List.foldl_cons, hcopied, hcopied₁, List.append_assoc]
      rfl

/-- **What the solve copies covers the producers it counts as copied.** -/
theorem copyReused_covers {reuse : PdReuse D} (hcanon : Canonical old ids reuse.old)
    (hdig : DigestsMatch old new reuse) (producers : List Producer) :
    ∃ st n S, copyReused new producers (some reuse) = some (st, n) ∧
      st.Covers new producers S ∧
      (∀ p < producers.length, (st.copied.getD p none).isSome = true ↔ p ∈ S) ∧
      ∀ p o : ℕ, st.copied.getD p none = some o → ∃ prod, producers[p]? = some prod ∧
        reuse.old.producers[o]? = some prod ∧ Untouched old new prod := by
  obtain ⟨copyFrom, n, hreuse, hlen, huse⟩ := reusable_spec hcanon hdig producers
  obtain ⟨hcov, hcopied⟩ := foldl_copyProducer_covers hcanon copyFrom.zipIdx (S := ∅)
    CopyState.start (Covered.start new producers)
    ⟨List.nodup_nil, by simp [CopyState.start]⟩
    (by rw [List.zipIdx_map_snd]; exact List.nodup_range') (by simp)
    (fun p hp o ho => huse p.2 o (by rw [← ho]; exact List.mem_zipIdx_iff_getElem?.mp hp))
  rw [List.zipIdx_map_fst] at hcopied
  refine ⟨_, n, _, by rw [copyReused, hreuse]; rfl, hcov, fun p hp => ?_, fun p o ho => ?_⟩
  · rw [hcopied]
    show ((copyFrom.getD p none).isSome = true) ↔ _
    simp only [Set.empty_union, Set.mem_ofPred_eq]
    rw [List.getD_eq_getElem?_getD, List.getElem?_eq_getElem (hlen ▸ hp), Option.getD_some,
      Option.isSome_iff_exists]
    refine exists_congr fun o => ?_
    rw [List.mem_zipIdx_iff_getElem?, List.getElem?_eq_getElem (hlen ▸ hp), Option.some.injEq]
  · rw [hcopied] at ho
    replace ho : copyFrom.getD p none = some o := ho
    rw [List.getD_eq_getElem?_getD] at ho
    cases hp : copyFrom[p]? with
    | none => simp [hp] at ho
    | some c =>
      rw [hp, Option.getD_some] at ho
      exact huse p o (by rw [hp, ho])

end Reused

end AlSem.L4
