/-
# What the finished store lists

A routine's row goes into the bundle's pools and comes out again through the set's sorted
permutation, merged with the routine's own effects.  `Represents` says what the bundle holds of a
row, `finishRow` establishes it (`finishRow_spec`) and later rows leave it (`Represents.mono`),
and from it `project_row` lists the row's effects (`projectRow_spec`).

* `finishRows_spec`: the finished bundle represents every row.
* `projectRow_spec`: what a represented row lists.
-/
import AlSem.Lib.ListOption
import AlSem.L4.EffectInterning

namespace AlSem.L4

/-! ## 1. Pools -/

theorem slice_append {α : Type} {s : Span} {pool xs : List α} (ys : List α)
    (h : s.slice pool = some xs) : s.slice (pool ++ ys) = some xs := by
  unfold Span.slice at *
  by_cases hs : s.start ≤ s.stop ∧ s.stop ≤ pool.length
  · rw [if_pos hs] at h
    rw [if_pos ⟨hs.1, by rw [List.length_append]; omega⟩, List.take_append_of_le_length hs.2]
    exact h
  · rw [if_neg hs] at h
    cases h

/-- What was pushed is what the span gives. -/
theorem slice_pushAll {α : Type} (pool xs : List α) :
    (pushAll pool xs).1.slice (pushAll pool xs).2 = some xs := by
  unfold pushAll Span.slice
  dsimp only
  rw [if_pos ⟨by omega, by rw [List.length_append]⟩, ← List.length_append, List.take_length,
    List.drop_left]

/-! ## 2. Ranks -/

namespace FrozenEffectUniverse

variable (u : FrozenEffectUniverse)

theorem rankLe_trans (a b c : ℕ) (hab : u.rankLe a b = true) (hbc : u.rankLe b c = true) :
    u.rankLe a c = true := by
  unfold rankLe at *
  rw [decide_eq_true_iff] at *
  exact le_trans hab hbc

theorem rankLe_total (a b : ℕ) : (u.rankLe a b || u.rankLe b a) = true := by
  unfold rankLe
  rw [Bool.or_eq_true, decide_eq_true_iff, decide_eq_true_iff]
  exact le_total _ _

theorem rankLe_iff {a b : ℕ} (ha : a < u.len) (hb : b < u.len) :
    u.rankLe a b = true ↔
      Ranking.rank keyLe u.sortKeys a ≤ Ranking.rank keyLe u.sortKeys b := by
  unfold rankLe
  rw [u.keyRankOf_eq ha, u.keyRankOf_eq hb, decide_eq_true_iff]
  rfl

end FrozenEffectUniverse

/-! ## 3. What the bundle holds of a row -/

/-- The builder's rows keep to what `push_row` asks: provenances beside the ids of the terminal
set, and effects of its own, each once, that are not among them. -/
structure RawRow.Parallel (arena : List Bits) (raw : RawRow) : Prop where
  terminal : ∃ bits, arena[raw.terminalSet]? = some bits ∧
    raw.baseVia.length = (iterSetBits bits).length ∧ ∀ id ∈ raw.pdDelta, id ∉ iterSetBits bits
  nodup : raw.pdDelta.Nodup
  deltaVia : raw.deltaVia.length = raw.pdDelta.length

/-- The bundle's row holds the effects of the builder's: the set's ids with the provenances in
their order, and the row's own effects with theirs, by rank. -/
structure SummaryBundle.Represents (b : SummaryBundle) (row : CompactRoutineSummary)
    (ids : List ℕ) (raw : RawRow) : Prop where
  terminal : ∃ set, b.effects.sets[row.terminalBase]? = some set ∧ set.iter = ids
  baseVia : row.baseVia.slice b.viaPool = some raw.baseVia
  delta : ∃ pdIds pdVia, row.pdDelta.slice b.deltaPool = some pdIds ∧
    row.deltaVia.slice b.viaPool = some pdVia ∧ pdIds.length = pdVia.length ∧
    (pdIds.zip pdVia).Perm (raw.pdDelta.zip raw.deltaVia) ∧
    (pdIds.zip pdVia).Pairwise fun x y => b.effects.effectUniverse.rankLe x.1 y.1 = true

/-- The pools only grow, and the sets stay. -/
def SummaryBundle.Extends (b b' : SummaryBundle) : Prop :=
  b'.effects = b.effects ∧ b'.rvidByOpid = b.rvidByOpid ∧
    (∃ vias, b'.viaPool = b.viaPool ++ vias) ∧ ∃ ids, b'.deltaPool = b.deltaPool ++ ids

theorem SummaryBundle.Extends.refl (b : SummaryBundle) : b.Extends b :=
  ⟨rfl, rfl, ⟨[], (List.append_nil _).symm⟩, ⟨[], (List.append_nil _).symm⟩⟩

theorem SummaryBundle.Extends.trans {b b' b'' : SummaryBundle} (h : b.Extends b')
    (h' : b'.Extends b'') : b.Extends b'' := by
  obtain ⟨heff, hrvid, ⟨vias, hvias⟩, ids, hids⟩ := h
  obtain ⟨heff', hrvid', ⟨vias', hvias'⟩, ids', hids'⟩ := h'
  refine ⟨heff'.trans heff, hrvid'.trans hrvid, ⟨vias ++ vias', ?_⟩, ids ++ ids', ?_⟩
  · rw [hvias', hvias, List.append_assoc]
  · rw [hids', hids, List.append_assoc]

/-- Later rows leave what an earlier one left. -/
theorem SummaryBundle.Represents.mono {b b' : SummaryBundle} {row : CompactRoutineSummary}
    {ids : List ℕ} {raw : RawRow} (h : b.Represents row ids raw) (hext : b.Extends b') :
    b'.Represents row ids raw := by
  obtain ⟨heff, -, ⟨vias, hvias⟩, dids, hdids⟩ := hext
  obtain ⟨hterminal, hbase, pdIds, pdVia, hpd, hvia, hlen, hperm, hsorted⟩ := h
  refine ⟨by rw [heff]; exact hterminal, by rw [hvias]; exact slice_append vias hbase, pdIds, pdVia,
    by rw [hdids]; exact slice_append dids hpd, by rw [hvias]; exact slice_append vias hvia, hlen,
    hperm, by rw [heff]; exact hsorted⟩

/-! ## 4. Building the bundle -/

/-- **The row's own effects by rank.** -/
theorem sortPdByKeyRank_spec {u : FrozenEffectUniverse} {pdDelta : List ℕ}
    {deltaVia : List ViaRank} (hids : ∀ id ∈ pdDelta, id < u.len) :
    ∃ pdIds pdVia, sortPdByKeyRank u pdDelta deltaVia = some (pdIds, pdVia) ∧
      pdIds.length = pdVia.length ∧ (pdIds.zip pdVia).Perm (pdDelta.zip deltaVia) ∧
      (pdIds.zip pdVia).Pairwise fun x y => u.rankLe x.1 y.1 = true := by
  have hrank : ∀ p ∈ pdDelta.zip deltaVia,
      (u.keyRankOf p.1).map (fun r => (r, p)) = some ((u.keyRankOf p.1).getD 0, p) := by
    intro p hp
    rw [u.keyRankOf_eq (hids p.1 (List.of_mem_zip hp).1)]
    rfl
  have hmap := ListOption.mapM_map_eq (f := fun p : ℕ × ViaRank => (u.keyRankOf p.1).map fun r => (r, p))
    (g := id) (v := fun p => ((u.keyRankOf p.1).getD 0, p)) hrank
  rw [List.map_id] at hmap
  let le : ℕ × ℕ × ViaRank → ℕ × ℕ × ViaRank → Bool := fun a b => decide (a.1 ≤ b.1)
  let triples := (pdDelta.zip deltaVia).map fun p => ((u.keyRankOf p.1).getD 0, p)
  let sorted := Ranking.place le triples
  have hperm : sorted.Perm triples := Ranking.place_perm le triples
  have hsorted : sorted.Pairwise fun a b => le a b = true := by
    refine Ranking.place_pairwise (fun a _ b _ c _ hab hbc => ?_) fun a _ b _ => ?_
    · rw [decide_eq_true_iff] at *
      exact le_trans hab hbc
    · rw [Bool.or_eq_true, decide_eq_true_iff, decide_eq_true_iff]
      exact le_total _ _
  have hzip : (sorted.map fun t => t.2.1).zip (sorted.map fun t => t.2.2) =
      sorted.map fun t => t.2 := List.zip_map'
  refine ⟨sorted.map fun t => t.2.1, sorted.map fun t => t.2.2, ?_, ?_, ?_, ?_⟩
  · show (((pdDelta.zip deltaVia).mapM fun p => (u.keyRankOf p.1).map fun r => (r, p)) >>= _) = _
    rw [hmap]
    rfl
  · rw [List.length_map, List.length_map]
  · rw [hzip]
    have hsnd : triples.map (fun t => t.2) = pdDelta.zip deltaVia := by
      show ((pdDelta.zip deltaVia).map _).map _ = _
      rw [List.map_map]
      exact List.map_id _
    have hback := hperm.map fun t => t.2
    rwa [hsnd] at hback
  · rw [hzip, List.pairwise_map]
    refine hsorted.imp_of_mem fun {a b} ha hb hab => ?_
    obtain ⟨p, -, rfl⟩ := List.mem_map.mp (hperm.mem_iff.mp ha)
    obtain ⟨q, -, rfl⟩ := List.mem_map.mp (hperm.mem_iff.mp hb)
    exact hab

/-- A row that can be finished: its terminal set has a place, its own ids are the universe's. -/
structure Placed (arena : List Bits) (setIds : List ℕ) (store : EffectStore) (raw : RawRow) :
    Prop where
  row : raw.Parallel arena
  sets : ∀ (i : ℕ) (bits : Bits), arena[i]? = some bits →
    ∃ id, setIds[i]? = some id ∧ store.Stores id bits
  own : ∀ id ∈ raw.pdDelta, id < store.effectUniverse.len

/-- **One row of `finish`.** -/
theorem finishRow_spec {arena : List Bits} {setIds : List ℕ} {b : SummaryBundle} {ix : ℕ}
    {raw : RawRow} (h : Placed arena setIds b.effects raw) :
    ∃ b' row bits, SummaryBundleBuilder.finishRow setIds b (ix, raw) = some b' ∧ b.Extends b' ∧
      b'.summaries = b.summaries.insert ix row ∧ arena[raw.terminalSet]? = some bits ∧
      setIds[raw.terminalSet]? = some row.terminalBase ∧
      b'.Represents row (iterSetBits bits) raw := by
  obtain ⟨bits, hbits, hvia, hdisjoint⟩ := h.row.terminal
  obtain ⟨id, hid, hstores⟩ := h.sets raw.terminalSet bits hbits
  obtain ⟨pdIds, pdVia, hsort, hlen, hperm, hsorted⟩ := sortPdByKeyRank_spec h.own
  let pools := pushAll b.viaPool raw.baseVia
  let own := pushAll b.deltaPool pdIds
  let vias := pushAll pools.2 pdVia
  let row : CompactRoutineSummary :=
    { terminalBase := id, baseVia := pools.1, pdDelta := own.1, deltaVia := vias.1 }
  refine ⟨{ b with
    viaPool := vias.2
    deltaPool := own.2
    summaries := b.summaries.insert ix row }, row, bits, ?_, ?_, rfl, hbits, hid, ?_⟩
  · show (setIds[raw.terminalSet]? >>= _) = _
    rw [hid]
    show (sortPdByKeyRank b.effects.effectUniverse raw.pdDelta raw.deltaVia >>= _) = _
    rw [hsort]
    rfl
  · exact ⟨rfl, rfl, ⟨raw.baseVia ++ pdVia, List.append_assoc _ _ _⟩, pdIds, rfl⟩
  · exact ⟨hstores, slice_append pdVia (slice_pushAll b.viaPool raw.baseVia), pdIds, pdVia,
      slice_pushAll b.deltaPool pdIds, slice_pushAll pools.2 pdVia, hlen, hperm, hsorted⟩

/-- **The rows of `finish`, one after the other.**  Every row of the walk is in the bundle and
stays represented, and the bundle has no others than it had. -/
theorem finishRows_spec {arena : List Bits} {setIds : List ℕ} : ∀ {entries : List (ℕ × RawRow)}
    {b : SummaryBundle}, (∀ e ∈ entries, Placed arena setIds b.effects e.2) →
    (entries.map Prod.fst).Nodup →
    ∃ b', entries.foldlM (SummaryBundleBuilder.finishRow setIds) b = some b' ∧ b.Extends b' ∧
      (∀ r, r ∉ entries.map Prod.fst → b'.summaries.lookup r = b.summaries.lookup r) ∧
      ∀ e ∈ entries, ∃ row bits, b'.summaries.lookup e.1 = some row ∧
        arena[e.2.terminalSet]? = some bits ∧
        setIds[e.2.terminalSet]? = some row.terminalBase ∧
        b'.Represents row (iterSetBits bits) e.2 := by
  intro entries
  induction entries with
  | nil =>
    intro b _ _
    exact ⟨b, rfl, SummaryBundle.Extends.refl b, fun _ _ => rfl, fun e he => absurd he List.not_mem_nil⟩
  | cons e entries ih =>
    intro b hplaced hnodup
    obtain ⟨hfresh, hnodup⟩ := List.nodup_cons.mp hnodup
    obtain ⟨mid, row, bits, hmid, hext, hsum, hbits, hbase, hrep⟩ :=
      finishRow_spec (hplaced e List.mem_cons_self)
    have hplaced' : ∀ e' ∈ entries, Placed arena setIds mid.effects e'.2 := by
      intro e' he'
      rw [hext.1]
      exact hplaced e' (List.mem_cons_of_mem _ he')
    obtain ⟨b', hb', hext', hother, hrows⟩ := ih hplaced' hnodup
    refine ⟨b', ?_, hext.trans hext', fun r hr => ?_, fun e' he' => ?_⟩
    · rw [List.foldlM_cons, hmid]
      exact hb'
    · rw [List.map_cons, List.mem_cons, not_or] at hr
      rw [hother r hr.2, hsum, AList.lookup_insert_ne hr.1]
    · rcases List.mem_cons.mp he' with rfl | he'
      · refine ⟨row, bits, ?_, hbits, hbase, hrep.mono hext'⟩
        rw [hother e'.1 hfresh, hsum, AList.lookup_insert]
      · exact hrows e' he'

/-! ## 5. Listing a row -/

/-- An effect of the list is the effect of an id, with its provenance. -/
def SummaryBundle.Shows (b : SummaryBundle) (p : ℕ × ViaRank) (e : DbEffectRef) : Prop :=
  b.effects.effectUniverse.identity p.1 = some e.identity ∧ e.effectKey = e.identity.effectKey ∧
    e.via = p.2

theorem makeRef_shows (b : SummaryBundle) {p : ℕ × ViaRank}
    (h : p.1 < b.effects.effectUniverse.len) : ∃ e, b.makeRef p = some e ∧ b.Shows p e := by
  obtain ⟨i, hi⟩ := b.effects.effectUniverse.identity_isSome h
  have hkey : b.effects.effectUniverse.effectKeyCached p.1 = some i.effectKey := by
    rw [b.effects.effectUniverse.effectKeyCached_eq, hi]
    rfl
  unfold SummaryBundle.makeRef
  rw [hi, hkey]
  exact ⟨_, rfl, hi, rfl, rfl⟩

/-- The base run: the set's ids by rank, each with its own provenance. -/
theorem baseRun_spec (u : FrozenEffectUniverse) {ids : List ℕ} {baseVia : List ViaRank}
    (hlen : baseVia.length = ids.length) :
    ∃ base, SummaryBundle.baseRun (Ranking.place u.rankLe ids)
        ((Ranking.order u.rankLe ids).map Fin.val) baseVia = some base ∧
      base.Perm (ids.zip baseVia) ∧ base.Pairwise fun x y => u.rankLe x.1 y.1 = true := by
  let at_ : Fin ids.length → ℕ × ViaRank := fun i => (ids.get i, baseVia.get (i.cast hlen.symm))
  have hread : ∀ i ∈ Ranking.order u.rankLe ids,
      (baseVia[(i : ℕ)]?).map (fun via => (ids.get i, via)) = some (at_ i) := by
    intro i _
    rw [List.getElem?_eq_getElem (by rw [hlen]; exact i.isLt)]
    rfl
  have hzip : (Ranking.place u.rankLe ids).zip ((Ranking.order u.rankLe ids).map Fin.val) =
      (Ranking.order u.rankLe ids).map fun i => (ids.get i, (i : ℕ)) := List.zip_map'
  have hmap := ListOption.mapM_map_eq
    (f := fun k : ℕ × ℕ => (baseVia[k.2]?).map fun via => (k.1, via))
    (g := fun i : Fin ids.length => (ids.get i, (i : ℕ))) (v := at_) hread
  refine ⟨(Ranking.order u.rankLe ids).map at_, ?_, ?_, ?_⟩
  · unfold SummaryBundle.baseRun
    rw [hzip]
    exact hmap
  · have hall : (List.finRange ids.length).map at_ = ids.zip baseVia := by
      refine List.ext_getElem (by simp [hlen]) fun n h₁ h₂ => ?_
      simp [at_]
    rw [← hall]
    exact (Ranking.order_perm u.rankLe ids).map at_
  · have hplace := @Ranking.place_pairwise _ u.rankLe ids
      (fun a _ c _ d _ => u.rankLe_trans a c d) fun a _ c _ => u.rankLe_total a c
    unfold Ranking.place at hplace
    rw [List.pairwise_map] at hplace ⊢
    exact hplace

/-- **What `project_row` lists**: the row's effects, each once, by rank. -/
theorem projectRow_spec {b : SummaryBundle} (hinv : b.effects.Inv) {row : CompactRoutineSummary}
    {ids : List ℕ} {raw : RawRow} (hrep : b.Represents row ids raw)
    (hlen : raw.baseVia.length = ids.length)
    (hown : ∀ id ∈ raw.pdDelta, id < b.effects.effectUniverse.len) :
    ∃ out refs, b.projectRow row = some refs ∧ List.Forall₂ b.Shows out refs ∧
      out.Perm (ids.zip raw.baseVia ++ raw.pdDelta.zip raw.deltaVia) ∧
      out.Pairwise fun x y => b.effects.effectUniverse.rankLe x.1 y.1 = true := by
  obtain ⟨⟨set, hset, rfl⟩, hbaseVia, pdIds, pdVia, hpd, hvia, -, hperm, hsorted⟩ := hrep
  obtain ⟨base, hbase, hbperm, hbsorted⟩ := baseRun_spec b.effects.effectUniverse hlen
  have hvalid := hinv.valid set (List.mem_of_getElem? hset)
  let out := List.merge base (pdIds.zip pdVia) fun x y => b.effects.effectUniverse.rankLe x.1 y.1
  have houtperm : out.Perm (set.iter.zip raw.baseVia ++ raw.pdDelta.zip raw.deltaVia) :=
    List.Perm.trans (List.merge_perm_append _) (hbperm.append hperm)
  have hlt : ∀ p ∈ out, p.1 < b.effects.effectUniverse.len := by
    intro p hp
    rcases List.mem_append.mp (houtperm.mem_iff.mp hp) with hp | hp
    · exact hvalid.2 p.1 (List.of_mem_zip hp).1
    · exact hown p.1 (List.of_mem_zip hp).1
  obtain ⟨refs, hrefs, hshows⟩ := ListOption.mapM_forall₂ fun p hp => makeRef_shows b (hlt p hp)
  refine ⟨out, refs, ?_, hshows, houtperm, ?_⟩
  · have hordered : b.effects.ordered[row.terminalBase]? =
        some (Ranking.place b.effects.effectUniverse.rankLe set.iter) := by
      rw [hinv.ordered, List.getElem?_map, hset]
      rfl
    have hord : b.effects.orderedStorageOrd[row.terminalBase]? =
        some ((Ranking.order b.effects.effectUniverse.rankLe set.iter).map Fin.val) := by
      rw [hinv.storageOrd, List.getElem?_map, hset]
      rfl
    unfold SummaryBundle.projectRow
    rw [hordered, hord, hbaseVia, hpd, hvia]
    show (SummaryBundle.baseRun _ _ _ >>= _) = _
    rw [hbase]
    exact hrefs
  · exact List.pairwise_merge (fun x y z => b.effects.effectUniverse.rankLe_trans x.1 y.1 z.1)
      (fun x y => b.effects.effectUniverse.rankLe_total x.1 y.1) _ _ hbsorted hsorted

end AlSem.L4
