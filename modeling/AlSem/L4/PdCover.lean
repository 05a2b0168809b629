/-
# What a solve has found

The states, links and edges of a solve are put together producer by producer.  `Covered S` says
that they are exactly those of the producers in `S`; a producer is added as one `Block`, whether
its states were searched for or copied.  A fresh search is a block (`freshOf_block`), so a solve
that copies nothing covers every producer (`solveFresh_covered`).
-/
import AlSem.L4.PdSearch
import Mathlib.Data.Set.Insert

namespace AlSem.L4

/-! ## 1. States and links by identity -/

/-- A state's place in its producer's search. -/
def ConeState.pdKey (s : ConeState) : PdKey := (s.routine, s.t, s.reqs)

/-- The state of producer `p` that its search finds at distance `n`, its links not laid out. -/
def stateOf (p : ℕ) (key : PdKey) (n : ℕ) : ConeState :=
  { producer := p, routine := key.1, t := key.2.1, reqs := key.2.2, seed := decide (n = 0), dist := n,
    links := (0, 0) }

@[simp] theorem stateOf_pdKey (p : ℕ) (key : PdKey) (n : ℕ) : (stateOf p key n).pdKey = key := rfl
@[simp] theorem stateOf_producer (p : ℕ) (key : PdKey) (n : ℕ) : (stateOf p key n).producer = p := rfl
@[simp] theorem stateOf_dist (p : ℕ) (key : PdKey) (n : ℕ) : (stateOf p key n).dist = n := rfl

/-- `n` is the distance of a key in the search of a producer. -/
def Found (rev : PdRevision) (prod : Producer) (n : ℕ) (key : PdKey) : Prop :=
  Bfs.IsDist rev.succ (rev.seedOf prod) n key

/-- **A state of the solve**: its producer's search finds it. -/
def IsState (rev : PdRevision) (producers : List Producer) (s : ConeState) : Prop :=
  ∃ prod n key, producers[s.producer]? = some prod ∧ Found rev prod n key ∧
    s = stateOf s.producer key n

/-- Some link of state `j` comes from state `i` across an edge of identity `id`. -/
def Linked (rawLinks : List (List ConeLink)) (edges : List GraphEdge) (j i : ℕ)
    (id : String × TypedOutEdge) : Prop :=
  ∃ k ∈ rawLinks.getD j [], k.calleeState = i ∧ (edges[k.edge]?).map GraphEdge.identity = some id

/-! ## 2. Covered producers and blocks -/

/-- **What was found so far** is exactly what the searches of the producers in `S` find. -/
structure Covered (rev : PdRevision) (producers : List Producer) (S : Set ℕ)
    (states : List ConeState) (rawLinks : List (List ConeLink)) (edges : List GraphEdge) : Prop where
  lengths : rawLinks.length = states.length
  edgesNodup : edges.Nodup
  nodup : states.Nodup
  state : ∀ s, s ∈ states ↔ s.producer ∈ S ∧ IsState rev producers s
  link : ∀ j s, states[j]? = some s → ∀ i id, Linked rawLinks edges j i id ↔
    ∃ c, states[i]? = some c ∧ c.producer = s.producer ∧ Hop rev c.pdKey id s.pdKey
  linkEdge : ∀ j, ∀ k ∈ rawLinks.getD j [], k.edge < edges.length
  used : ∀ ge ∈ edges, ∃ c ∈ states, ∃ s ∈ states, c.producer = s.producer ∧
    Hop rev c.pdKey ge.identity s.pdKey

/-- The states and links of producer `p` alone, its first state at index `base`, its links reading
the edge table `edges`, of which `ext` is new. -/
structure Block (rev : PdRevision) (prod : Producer) (p base : ℕ) (edges ext : List GraphEdge)
    (bs : List ConeState) (bl : List (List ConeLink)) : Prop where
  lengths : bl.length = bs.length
  nodup : bs.Nodup
  state : ∀ s, s ∈ bs ↔ ∃ n key, Found rev prod n key ∧ s = stateOf p key n
  link : ∀ j s, bs[j]? = some s → ∀ i id, Linked bl edges j i id ↔
    ∃ i' c, i = base + i' ∧ bs[i']? = some c ∧ Hop rev c.pdKey id s.pdKey
  linkEdge : ∀ j, ∀ k ∈ bl.getD j [], k.edge < edges.length
  used : ∀ ge ∈ ext, ∃ c ∈ bs, ∃ s ∈ bs, Hop rev c.pdKey ge.identity s.pdKey

theorem Block.producer {rev : PdRevision} {prod : Producer} {p base : ℕ} {edges ext : List GraphEdge}
    {bs : List ConeState} {bl : List (List ConeLink)} (hb : Block rev prod p base edges ext bs bl)
    {s : ConeState} (hs : s ∈ bs) : s.producer = p := by
  obtain ⟨n, key, -, rfl⟩ := (hb.state s).mp hs
  rfl

namespace Covered

variable {rev : PdRevision} {producers : List Producer} {S : Set ℕ} {states : List ConeState}
  {rawLinks : List (List ConeLink)} {edges : List GraphEdge}

theorem start (rev : PdRevision) (producers : List Producer) : Covered rev producers ∅ [] [] [] where
  lengths := rfl
  edgesNodup := List.nodup_nil
  nodup := List.nodup_nil
  state := by simp
  link := by simp
  linkEdge := by simp
  used := by simp

/-- What the links of an earlier state say is kept when links and edges are appended. -/
theorem linked_append_left (h : Covered rev producers S states rawLinks edges) {j : ℕ}
    (hj : j < states.length) (bl : List (List ConeLink)) (ext : List GraphEdge) (i : ℕ)
    (id : String × TypedOutEdge) :
    Linked (rawLinks ++ bl) (edges ++ ext) j i id ↔ Linked rawLinks edges j i id := by
  unfold Linked
  rw [List.getD_append _ _ _ _ (by rw [h.lengths]; exact hj)]
  refine exists_congr fun k => and_congr_right fun hk => and_congr_right fun _ => ?_
  rw [List.getElem?_append_left (h.linkEdge j k hk)]

/-- **Adding one producer's block.** -/
theorem append {prod : Producer} {p : ℕ} {ext : List GraphEdge} {bs : List ConeState}
    {bl : List (List ConeLink)} (h : Covered rev producers S states rawLinks edges)
    (hb : Block rev prod p states.length (edges ++ ext) ext bs bl) (hp : p ∉ S)
    (hprod : producers[p]? = some prod) (hnd : (edges ++ ext).Nodup) :
    Covered rev producers (insert p S) (states ++ bs) (rawLinks ++ bl) (edges ++ ext) := by
  have hold : ∀ s ∈ states, s.producer ≠ p := fun s hs heq => hp (heq ▸ ((h.state s).mp hs).1)
  refine ⟨by simp [h.lengths, hb.lengths], hnd, ?_, fun s => ?_, ?_, fun j k hk => ?_, ?_⟩
  · refine List.nodup_append.mpr ⟨h.nodup, hb.nodup, ?_⟩
    rintro s hs s' hs' rfl
    exact hold s hs (hb.producer hs')
  · rw [List.mem_append, h.state, hb.state, Set.mem_insert_iff]
    constructor
    · rintro (⟨hS, hst⟩ | ⟨n, key, hf, rfl⟩)
      · exact ⟨Or.inr hS, hst⟩
      · exact ⟨Or.inl rfl, prod, n, key, hprod, hf, rfl⟩
    · rintro ⟨hS | hS, hst⟩
      · obtain ⟨prod', n, key, hprod', hf, heq⟩ := hst
        rw [hS, hprod] at hprod'
        obtain rfl := Option.some.inj hprod'
        exact Or.inr ⟨n, key, hf, by rw [← hS]; exact heq⟩
      · exact Or.inl ⟨hS, hst⟩
  · intro j s hj i id
    by_cases hlt : j < states.length
    · rw [List.getElem?_append_left hlt] at hj
      rw [h.linked_append_left hlt, h.link j s hj]
      refine exists_congr fun c => ?_
      by_cases hi : i < states.length
      · rw [List.getElem?_append_left hi]
      · rw [List.getElem?_eq_none_iff.mpr (Nat.not_lt.mp hi),
          List.getElem?_append_right (Nat.not_lt.mp hi)]
        constructor
        · rintro ⟨hc, -⟩
          simp at hc
        · rintro ⟨hc, hprods, -⟩
          rw [hb.producer (List.mem_of_getElem? hc)] at hprods
          exact absurd hprods.symm (hold s (List.mem_of_getElem? hj))
    · rw [List.getElem?_append_right (by omega)] at hj
      have hs : s.producer = p := hb.producer (List.mem_of_getElem? hj)
      have hlink : Linked (rawLinks ++ bl) (edges ++ ext) j i id ↔
          Linked bl (edges ++ ext) (j - states.length) i id := by
        unfold Linked
        rw [List.getD_append_right _ _ _ _ (by rw [h.lengths]; omega), h.lengths]
      rw [hlink, hb.link _ s hj]
      constructor
      · rintro ⟨i', c, rfl, hc, hhop⟩
        refine ⟨c, ?_, (hb.producer (List.mem_of_getElem? hc)).trans hs.symm, hhop⟩
        rw [List.getElem?_append_right (by omega), Nat.add_sub_cancel_left]
        exact hc
      · rintro ⟨c, hc, hprods, hhop⟩
        by_cases hi : i < states.length
        · rw [List.getElem?_append_left hi] at hc
          exact absurd (hprods.trans hs) (hold c (List.mem_of_getElem? hc))
        · rw [List.getElem?_append_right (by omega)] at hc
          exact ⟨i - states.length, c, by omega, hc, hhop⟩
  · by_cases hlt : j < rawLinks.length
    · rw [List.getD_append _ _ _ _ hlt] at hk
      have := h.linkEdge j k hk
      rw [List.length_append]
      omega
    · rw [List.getD_append_right _ _ _ _ (by omega)] at hk
      exact hb.linkEdge _ k hk
  · intro ge hge
    rcases List.mem_append.mp hge with hge | hge
    · obtain ⟨c, hc, s, hs, hprods, hhop⟩ := h.used ge hge
      exact ⟨c, List.mem_append_left _ hc, s, List.mem_append_left _ hs, hprods, hhop⟩
    · obtain ⟨c, hc, s, hs, hhop⟩ := hb.used ge hge
      exact ⟨c, List.mem_append_right _ hc, s, List.mem_append_right _ hs,
        (hb.producer hc).trans (hb.producer hs).symm, hhop⟩

end Covered

/-! ## 3. A fresh search is a block -/

/-- The states of a finished search, its seed the only one at distance zero. -/
theorem freshOf_states {succ : PdKey → List (GraphEdge × PdKey)} {seed : PdKey}
    {s : Bfs.Search PdKey GraphEdge} (h : Bfs.Solved succ seed s) (p : ℕ) :
    (freshOf p s).states = s.found.map fun f => stateOf p f.1 f.2 := by
  refine List.ext_getElem? fun i => ?_
  unfold freshOf
  rw [List.getElem?_map, List.getElem?_map, List.getElem?_zipIdx]
  cases hf : s.found[i]? with
  | none => rfl
  | some f =>
    have hzero : i = 0 ↔ f.2 = 0 := by
      constructor
      · rintro rfl
        rw [h.head] at hf
        rw [← Option.some.inj hf]
      · intro hd
        have hwalk := ((h.dist f.1 f.2).mp (List.mem_of_getElem? hf)).1
        rw [hd] at hwalk
        have hseed : f.1 = seed := by
          cases hwalk with
          | seed => rfl
        refine Bfs.index_unique h.nodup (x := seed) ?_ ?_
        · rw [← hseed]
          exact Bfs.keys_getElem? hf
        · exact Bfs.keys_getElem? h.head
    simp only [Option.map_some, stateOf, Nat.zero_add, hzero]

/-- Interning a table's edges in another grows it by edges of the table, and gives each edge its
index there. -/
theorem foldl_indexOf_spec : ∀ (es : List GraphEdge) {edges : List GraphEdge} (ixs : List ℕ),
    edges.Nodup →
    ∃ ext new, es.foldl (fun acc ge =>
        let (edges, k) := Bfs.indexOf acc.1 ge
        (edges, acc.2 ++ [k])) (edges, ixs) = (edges ++ ext, ixs ++ new) ∧
      (edges ++ ext).Nodup ∧ (∀ ge ∈ ext, ge ∈ es) ∧
      ∀ i ge, es[i]? = some ge → (edges ++ ext)[new.getD i 0]? = some ge
  | [], edges, ixs, hnd => ⟨[], [], by simp, by simpa using hnd, by simp, by simp⟩
  | ge :: es, edges, ixs, hnd => by
    obtain ⟨hnd₁, hget, ext₁, hext₁, hall₁⟩ := Bfs.indexOf_spec hnd ge
    rw [List.foldl_cons]
    generalize Bfs.indexOf edges ge = r at hnd₁ hget hext₁
    obtain ⟨edges₁, k⟩ := r
    dsimp only at hnd₁ hget hext₁ ⊢
    subst hext₁
    obtain ⟨ext₂, new, hfold, hnd₂, hall₂, hat⟩ :=
      foldl_indexOf_spec es (ixs ++ [k]) hnd₁
    refine ⟨ext₁ ++ ext₂, k :: new, by rw [hfold]; simp, by rwa [← List.append_assoc], ?_,
      fun i ge' hi => ?_⟩
    · intro x hx
      rcases List.mem_append.mp hx with hx | hx
      · exact List.mem_cons.mpr (Or.inl (hall₁ x hx))
      · exact List.mem_cons_of_mem _ (hall₂ x hx)
    · rw [← List.append_assoc]
      cases i with
      | zero =>
        obtain rfl := Option.some.inj hi
        rw [List.getD_cons_zero, List.getElem?_append_left (List.getElem?_eq_some_iff.mp hget).1]
        exact hget
      | succ i => exact hat i ge' hi

/-- **A fresh search is a block** once its edges are interned. -/
theorem freshOf_block {rev : PdRevision} {prod : Producer} {s : Bfs.Search PdKey GraphEdge}
    (h : Bfs.Solved rev.succ (rev.seedOf prod) s) (p base : ℕ) {edges ext : List GraphEdge}
    {new : List ℕ} (hext : ∀ ge ∈ ext, ge ∈ s.labels)
    (hnew : ∀ i ge, s.labels[i]? = some ge → edges[new.getD i 0]? = some ge) :
    Block rev prod p base edges ext (freshOf p s).states
      ((freshOf p s).rawLinks.map fun ls => ls.map fun l =>
        { calleeState := l.calleeState + base, edge := new.getD l.edge 0 }) := by
  have hstates := freshOf_states h p
  have hkeys : ∀ (i : ℕ) (c : ConeState), (freshOf p s).states[i]? = some c →
      s.keys[i]? = some c.pdKey := by
    intro i c hc
    rw [hstates, List.getElem?_map] at hc
    obtain ⟨f, hf, rfl⟩ := Option.map_eq_some_iff.mp hc
    exact Bfs.keys_getElem? hf
  have hstate : ∀ (i : ℕ) (a : PdKey), s.keys[i]? = some a → ∃ c : ConeState, (freshOf p s).states[i]? = some c ∧
      c.pdKey = a := by
    intro i a ha
    rw [Bfs.Search.keys, List.getElem?_map] at ha
    obtain ⟨f, hf, rfl⟩ := Option.map_eq_some_iff.mp ha
    exact ⟨stateOf p f.1 f.2, by rw [hstates, List.getElem?_map, hf]; rfl, rfl⟩
  have hlinks : ∀ j k, k ∈ ((freshOf p s).rawLinks.map fun ls => ls.map fun l =>
        ({ calleeState := l.calleeState + base, edge := new.getD l.edge 0 } : ConeLink)).getD j [] ↔
      ∃ l ∈ s.links.getD j [], k = { calleeState := l.callee + base, edge := new.getD l.label 0 } := by
    intro j k
    simp only [freshOf, List.getD_eq_getElem?_getD, List.getElem?_map, Option.map_map]
    cases s.links[j]? with
    | none => simp
    | some ls => simp [eq_comm]
  -- a link's label is one of the table
  have hlabel : ∀ j, ∀ l ∈ s.links.getD j [], ∃ ge, s.labels[l.label]? = some ge := by
    intro j l hl
    have hj : j < s.links.length := by
      by_contra hge
      rw [List.getD_eq_getElem?_getD, List.getElem?_eq_none_iff.mpr (by omega)] at hl
      simp at hl
    have hjk : j < s.keys.length := by
      rw [h.lengths] at hj
      simpa [Bfs.Search.keys] using hj
    obtain ⟨a, ge, -, hge, -⟩ := (h.link j _ (List.getElem?_eq_getElem hjk) l).mp hl
    exact ⟨ge, hge⟩
  refine ⟨by simp [freshOf, h.lengths], ?_, fun st => ?_, fun j st hj i id => ?_,
    fun j k hk => ?_, fun ge hge => ?_⟩
  · rw [hstates]
    refine List.Nodup.of_map ConeState.pdKey ?_
    rw [List.map_map]
    exact h.nodup
  · rw [hstates, List.mem_map]
    constructor
    · rintro ⟨f, hf, rfl⟩
      exact ⟨f.2, f.1, (h.dist _ _).mp hf, rfl⟩
    · rintro ⟨n, key, hf, rfl⟩
      exact ⟨(key, n), (h.dist _ _).mpr hf, rfl⟩
  · constructor
    · rintro ⟨k, hk, rfl, hid⟩
      obtain ⟨l, hl, rfl⟩ := (hlinks j k).mp hk
      obtain ⟨a, ge, ha, hge, hsucc⟩ := (h.link j _ (hkeys j st hj) l).mp hl
      rw [hnew _ _ hge, Option.map_some, Option.some.injEq] at hid
      obtain ⟨c, hc, rfl⟩ := hstate _ _ ha
      exact ⟨l.callee, c, Nat.add_comm _ _, hc, hid ▸ (PdRevision.mem_succ.mp hsucc).2⟩
    · rintro ⟨i', c, rfl, hc, hhop⟩
      obtain ⟨ge, rfl, hsucc⟩ := PdRevision.exists_mem_succ hhop
      have hkc := hkeys i' c hc
      obtain ⟨lab, hlab⟩ := List.mem_iff_getElem?.mp
        ((h.used ge).mpr ⟨c.pdKey, st.pdKey, List.mem_of_getElem? hkc, hsucc⟩)
      have hl : (⟨i', lab⟩ : Bfs.Link) ∈ s.links.getD j [] :=
        (h.link j _ (hkeys j st hj) _).mpr ⟨c.pdKey, ge, hkc, hlab, hsucc⟩
      refine ⟨_, (hlinks j _).mpr ⟨_, hl, rfl⟩, Nat.add_comm _ _, ?_⟩
      rw [hnew _ _ hlab]
      rfl
  · obtain ⟨l, hl, rfl⟩ := (hlinks j k).mp hk
    obtain ⟨ge, hge⟩ := hlabel j l hl
    exact (List.getElem?_eq_some_iff.mp (hnew _ _ hge)).1
  · obtain ⟨a, b, ha, hsucc⟩ := (h.used ge).mp (hext ge hge)
    obtain ⟨i, hi⟩ := List.mem_iff_getElem?.mp ha
    obtain ⟨j, hj⟩ := List.mem_iff_getElem?.mp (h.mem_of_succ ha hsucc)
    obtain ⟨c, hc, rfl⟩ := hstate i a hi
    obtain ⟨st, hst, rfl⟩ := hstate j b hj
    exact ⟨c, List.mem_of_getElem? hc, st, List.mem_of_getElem? hst,
      (PdRevision.mem_succ.mp hsucc).2⟩

/-! ## 4. Solving the producers that were not copied -/

/-- The states, links and edges put together so far cover the producers in `S`. -/
def CopyState.Covers (rev : PdRevision) (producers : List Producer) (S : Set ℕ) (st : CopyState) :
    Prop :=
  Covered rev producers S st.states st.rawLinks st.edges

section Fresh

variable {rev : PdRevision} {producers : List Producer} {S : Set ℕ}

theorem concatFresh_covers {st : CopyState} {prod : Producer} {p : ℕ}
    {s : Bfs.Search PdKey GraphEdge} (h : st.Covers rev producers S)
    (hs : Bfs.Solved rev.succ (rev.seedOf prod) s) (hp : p ∉ S)
    (hprod : producers[p]? = some prod) :
    (concatFresh st (freshOf p s)).Covers rev producers (insert p S) := by
  obtain ⟨ext, new, hfold, hnd, hext, hnew⟩ :=
    foldl_indexOf_spec (freshOf p s).edges [] h.edgesNodup
  unfold CopyState.Covers concatFresh
  rw [hfold, List.nil_append]
  exact h.append (freshOf_block hs p st.states.length hext hnew) hp hprod hnd

/-- **Solving the rest** adds each producer that was not copied. -/
theorem solveFresh_covers {copied : List (Option ℕ)} : ∀ (rest : List (Producer × ℕ))
    {st : CopyState} {S : Set ℕ}, st.Covers rev producers S →
    (∀ x ∈ rest, producers[x.2]? = some x.1) → (rest.map Prod.snd).Nodup →
    (∀ x ∈ rest, (copied.getD x.2 none).isSome = true ↔ x.2 ∈ S) →
    ∃ st', solveFresh rev copied rest st = some st' ∧
      st'.Covers rev producers (S ∪ {p | p ∈ rest.map Prod.snd})
  | [], st, S, h, _, _, _ => ⟨st, rfl, by simpa using h⟩
  | (prod, p) :: rest, st, S, h, hat, hnd, hcopied => by
    obtain ⟨hpn, hnd⟩ := List.nodup_cons.mp hnd
    have hset : ∀ T : Set ℕ, (T = S ∨ T = insert p S) → p ∈ T →
        T ∪ {q | q ∈ rest.map Prod.snd} = S ∪ {q | q ∈ ((prod, p) :: rest).map Prod.snd} := by
      intro T hT hpT
      ext q
      simp only [Set.mem_union, Set.mem_ofPred_eq, List.map_cons, List.mem_cons]
      rcases hT with rfl | rfl
      · constructor
        · tauto
        · rintro (hq | rfl | hq)
          · exact Or.inl hq
          · exact Or.inl hpT
          · exact Or.inr hq
      · rw [Set.mem_insert_iff]
        tauto
    have hne : ∀ x ∈ rest, x.2 ≠ p := by
      rintro x hx rfl
      exact hpn (List.mem_map.mpr ⟨x, hx, rfl⟩)
    unfold solveFresh
    split
    · rename_i hsome
      have hpS := (hcopied (prod, p) List.mem_cons_self).mp hsome
      obtain ⟨st', hst', hcov⟩ := solveFresh_covers rest h
        (fun x hx => hat x (List.mem_cons_of_mem _ hx)) hnd
        (fun x hx => hcopied x (List.mem_cons_of_mem _ hx))
      exact ⟨st', hst', hset S (Or.inl rfl) hpS ▸ hcov⟩
    · rename_i hnone
      have hpS : p ∉ S := fun hp => hnone ((hcopied (prod, p) List.mem_cons_self).mpr hp)
      obtain ⟨s, hrun, hsolved⟩ := rev.bfs_solved prod
      have hcov₁ := concatFresh_covers h hsolved hpS (hat (prod, p) List.mem_cons_self)
      obtain ⟨st', hst', hcov⟩ := solveFresh_covers rest hcov₁
        (fun x hx => hat x (List.mem_cons_of_mem _ hx)) hnd
        (fun x hx => by
          rw [hcopied x (List.mem_cons_of_mem _ hx), Set.mem_insert_iff]
          exact ⟨Or.inr, fun hx' => hx'.resolve_left (hne x hx)⟩)
      refine ⟨st', ?_, hset _ (Or.inr rfl) (Set.mem_insert _ _) ▸ hcov⟩
      rw [solveProducer, hrun]
      exact hst'

/-- **Whatever was copied, solving the rest covers every producer.** -/
theorem solveFresh_covers_univ {st : CopyState} (h : st.Covers rev producers S)
    (hcopied : ∀ p < producers.length, (st.copied.getD p none).isSome = true ↔ p ∈ S) :
    ∃ st', solveFresh rev st.copied producers.zipIdx st = some st' ∧
      st'.Covers rev producers Set.univ := by
  have hlt : ∀ x ∈ producers.zipIdx, producers[x.2]? = some x.1 := fun x hx =>
    List.mem_zipIdx_iff_getElem?.mp hx
  obtain ⟨st', hst', hcov⟩ := solveFresh_covers producers.zipIdx h hlt
    (by rw [List.zipIdx_map_snd]; exact List.nodup_range')
    (fun x hx => hcopied x.2 (List.getElem?_eq_some_iff.mp (hlt x hx)).1)
  refine ⟨st', hst', { hcov with state := fun s => ?_ }⟩
  rw [hcov.state]
  refine ⟨fun hs => ⟨Set.mem_univ _, hs.2⟩, fun hs => ⟨?_, hs.2⟩⟩
  obtain ⟨prod, -, -, hprod, -⟩ := hs.2
  refine Or.inr ?_
  show s.producer ∈ producers.zipIdx.map Prod.snd
  rw [List.zipIdx_map_snd, List.mem_range'_1]
  have := (List.getElem?_eq_some_iff.mp hprod).1
  omega

end Fresh

end AlSem.L4
