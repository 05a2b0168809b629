/-
# Runs of the builder

The solver pushes terminal sets and rows, and `finish` turns what was pushed into a bundle.  For
every run whose rows keep to `push_row`'s terms, every frozen universe that covers the ids and
every order the rows are walked in, the bundle lists each routine's effects, each once, by rank
(`summaryBundle_faithful`).

The rank follows `(effect_key, operation_id)`.  Two effects can agree in both when an operation's
name has the separator in it (`summaryBundle_not_strict`); the operations of the language have
none.
-/
import AlSem.L4.BundleProjection

namespace AlSem.L4

/-! ## 1. Runs -/

/-- What the solver does to the builder. -/
inductive Push where
  | terminalSet (bits : Bits)
  | row (routineIx terminalSet : ℕ) (baseVia : List ViaRank) (pdDelta : List ℕ)
      (deltaVia : List ViaRank)

def Push.apply (b : SummaryBundleBuilder) : Push → SummaryBundleBuilder
  | .terminalSet bits => (b.pushTerminalSet bits).1
  | .row ix set baseVia pdDelta deltaVia => b.pushRow ix set baseVia pdDelta deltaVia

def build (pushes : List Push) : SummaryBundleBuilder :=
  pushes.foldl Push.apply SummaryBundleBuilder.new

/-- A row names a set already pushed and keeps to its terms. -/
def Push.Fits (b : SummaryBundleBuilder) : Push → Prop
  | .terminalSet _ => True
  | .row _ set baseVia pdDelta deltaVia =>
    RawRow.Parallel b.arena { terminalSet := set, baseVia, pdDelta, deltaVia }

/-- Every push fits the builder it is made on. -/
def PushesFit (b : SummaryBundleBuilder) : List Push → Prop
  | [] => True
  | p :: pushes => p.Fits b ∧ PushesFit (p.apply b) pushes

/-- All rows keep to their terms. -/
def SummaryBundleBuilder.Parallel (b : SummaryBundleBuilder) : Prop :=
  ∀ r raw, b.rows r = some raw → raw.Parallel b.arena

/-- A row keeps to its terms when sets are pushed later. -/
theorem RawRow.Parallel.mono {arena : List Bits} {raw : RawRow} (h : raw.Parallel arena)
    (bits : Bits) : raw.Parallel (arena ++ [bits]) := by
  obtain ⟨⟨set, hset, hrest⟩, hown, hvia⟩ := h
  refine ⟨⟨set, ?_, hrest⟩, hown, hvia⟩
  rw [List.getElem?_append_left (List.getElem?_eq_some_iff.mp hset).1]
  exact hset

/-- One push keeps the rows to their terms. -/
theorem Push.parallel {b : SummaryBundleBuilder} (h : b.Parallel) {p : Push} (hp : p.Fits b) :
    (p.apply b).Parallel := by
  cases p with
  | terminalSet bits => exact fun r raw hr => (h r raw hr).mono bits
  | row ix set baseVia pdDelta deltaVia =>
    intro r raw hr
    by_cases hix : r = ix
    · subst hix
      have hraw : some { terminalSet := set, baseVia, pdDelta, deltaVia } = some raw := by
        rw [← hr]
        exact (Function.update_self r _ b.rows).symm
      rw [← Option.some.inj hraw]
      exact hp
    · refine h r raw ?_
      rw [← hr]
      exact (Function.update_of_ne hix _ b.rows).symm

/-- **After a run whose pushes fit, all rows keep to their terms.** -/
theorem build_parallel : ∀ {pushes : List Push} {b : SummaryBundleBuilder}, b.Parallel →
    PushesFit b pushes → (pushes.foldl Push.apply b).Parallel := by
  intro pushes
  induction pushes with
  | nil => exact fun h _ => h
  | cons p pushes ih => exact fun h hfit => ih (Push.parallel h hfit.1) hfit.2

/-- The universe has the ids of the sets and of the rows. -/
structure SummaryBundleBuilder.CoveredBy (b : SummaryBundleBuilder) (u : FrozenEffectUniverse) :
    Prop where
  sets : ∀ bits ∈ b.arena, EffectStore.Covers u bits
  rows : ∀ r raw, b.rows r = some raw → ∀ id ∈ raw.pdDelta, id < u.len

/-! ## 2. The finished bundle -/

/-- The stored set that each set of the arena became. -/
def SummaryBundleBuilder.setIds (b : SummaryBundleBuilder) (u : FrozenEffectUniverse) : List ℕ :=
  ((EffectStore.new u).internArena b.arena).2

/-- **The finished bundle represents every row, and has no other.** -/
theorem finish_spec {b : SummaryBundleBuilder} (hb : b.Parallel) {u : FrozenEffectUniverse}
    (hcover : b.CoveredBy u) (walk : b.Walk) (rvidByOpid : HashMap String (Option String)) :
    ∃ bundle, b.finish walk u rvidByOpid = some bundle ∧ bundle.effects.effectUniverse = u ∧
      bundle.effects.Inv ∧
      (∀ r, b.rows r = none → bundle.summaries.lookup r = none) ∧
      ∀ r raw, b.rows r = some raw → ∃ row bits, bundle.summaries.lookup r = some row ∧
        b.arena[raw.terminalSet]? = some bits ∧
        (b.setIds u)[raw.terminalSet]? = some row.terminalBase ∧
        bundle.Represents row (iterSetBits bits) raw := by
  obtain ⟨hinv, hext, hstores⟩ := EffectStore.internArena_spec (EffectStore.inv_new u) hcover.sets
  have hplaced : ∀ e ∈ walk.entries, Placed b.arena (b.setIds u)
      ((EffectStore.new u).internArena b.arena).1 e.2 := by
    intro e he
    have hrow := (walk.mem_iff e.1 e.2).mp he
    refine ⟨hb e.1 e.2 hrow, hstores, ?_⟩
    rw [hext.1]
    exact hcover.rows e.1 e.2 hrow
  obtain ⟨bundle, hrun, hgrow, hother, hrows⟩ := finishRows_spec
    (b :=
      { summaries := ∅
        effects := ((EffectStore.new u).internArena b.arena).1
        viaPool := []
        deltaPool := []
        rvidByOpid }) hplaced walk.nodup
  refine ⟨bundle, hrun, ?_, ?_, fun r hr => ?_, fun r raw hr => ?_⟩
  · rw [hgrow.1]
    exact hext.1
  · rw [hgrow.1]
    exact hinv
  · rw [hother r]
    · rfl
    · intro hmem
      obtain ⟨e, he, rfl⟩ := List.mem_map.mp hmem
      rw [(walk.mem_iff e.1 e.2).mp he] at hr
      cases hr
  · exact hrows (r, raw) ((walk.mem_iff r raw).mpr hr)

/-! ## 3. The order of a list -/

/-- No id comes twice in a row. -/
theorem rowEffects_nodup {ids : List ℕ} (hids : ids.Pairwise (· < ·)) {raw : RawRow}
    (hbase : raw.baseVia.length = ids.length) (hdelta : raw.deltaVia.length = raw.pdDelta.length)
    (hown : raw.pdDelta.Nodup) (hdisjoint : ∀ id ∈ raw.pdDelta, id ∉ ids) :
    ((ids.zip raw.baseVia ++ raw.pdDelta.zip raw.deltaVia).map Prod.fst).Nodup := by
  rw [List.map_append, List.map_fst_zip (Nat.le_of_eq hbase.symm),
    List.map_fst_zip (Nat.le_of_eq hdelta.symm), List.nodup_append]
  refine ⟨hids.imp Nat.ne_of_lt, hown, ?_⟩
  rintro x hx y hy rfl
  exact hdisjoint x hy hx

/-- Strictly before. -/
def keyLt (a b : String × String) : Prop := keyLe a b = true ∧ a ≠ b

theorem exists_of_mem_right {α β : Type} {R : α → β → Prop} {l : List α} {l' : List β}
    (h : List.Forall₂ R l l') {b : β} (hb : b ∈ l') : ∃ a ∈ l, R a b := by
  induction h with
  | nil => exact absurd hb List.not_mem_nil
  | @cons a b' l l' hab hrest ih =>
    rcases List.mem_cons.mp hb with rfl | hb
    · exact ⟨a, List.mem_cons_self, hab⟩
    · obtain ⟨a', ha', hab'⟩ := ih hb
      exact ⟨a', List.mem_cons_of_mem _ ha', hab'⟩

/-- The effects of a list, ordered by a relation of their ids. -/
theorem pairwise_of_shows {b : SummaryBundle} {P : ℕ → ℕ → Prop}
    {Q : DbEffectRef → DbEffectRef → Prop} {out : List (ℕ × ViaRank)} {refs : List DbEffectRef}
    (hshows : List.Forall₂ b.Shows out refs) (hout : out.Pairwise fun x y => P x.1 y.1)
    (h : ∀ x y e e', P x.1 y.1 → e ∈ refs → e' ∈ refs → b.Shows x e → b.Shows y e' → Q e e') :
    refs.Pairwise Q := by
  induction hshows with
  | nil => exact List.Pairwise.nil
  | @cons x e out refs hxe hshows ih =>
    obtain ⟨hhead, htail⟩ := List.pairwise_cons.mp hout
    refine List.pairwise_cons.mpr ⟨fun e' he' => ?_, ih htail fun x y e e' hP he he' =>
      h x y e e' hP (List.mem_cons_of_mem _ he) (List.mem_cons_of_mem _ he')⟩
    obtain ⟨y, hy, hye⟩ := exists_of_mem_right hshows he'
    exact h x y e e' (hhead y hy) List.mem_cons_self (List.mem_cons_of_mem _ he') hxe hye

/-- Ranked strictly before. -/
def FrozenEffectUniverse.rankLt (u : FrozenEffectUniverse) (a b : ℕ) : Prop :=
  ∃ ra rb, u.keyRankOf a = some ra ∧ u.keyRankOf b = some rb ∧ ra < rb

theorem rankLt_of_rankLe {u : FrozenEffectUniverse} {a b : ℕ} (ha : a < u.len) (hb : b < u.len)
    (hle : u.rankLe a b = true) (hne : a ≠ b) : u.rankLt a b := by
  refine ⟨_, _, u.keyRankOf_eq ha, u.keyRankOf_eq hb, ?_⟩
  have hrank := (u.rankLe_iff ha hb).mp hle
  refine lt_of_le_of_ne hrank fun heq => hne ?_
  rw [← u.length_sortKeys] at ha hb
  exact Ranking.rank_inj ha hb heq

theorem keyLe_of_rankLt {u : FrozenEffectUniverse} {a b : ℕ} {ia ib : EffectIdentity}
    (ha : u.identity a = some ia) (hb : u.identity b = some ib) (h : u.rankLt a b) :
    keyLe ia.sortKey ib.sortKey = true := by
  obtain ⟨ra, rb, hra, hrb, hlt⟩ := h
  rw [u.keyRankOf_eq (u.lt_of_identity ha)] at hra
  rw [u.keyRankOf_eq (u.lt_of_identity hb)] at hrb
  refine u.keyLe_of_rank ha hb (Nat.le_of_lt ?_)
  rwa [Option.some.inj hra, Option.some.inj hrb]

/-- What an effect of a list is ordered by. -/
def DbEffectRef.sortKey (e : DbEffectRef) : String × String := (e.effectKey, e.operationId)

theorem sortKey_of_shows {b : SummaryBundle} {x : ℕ × ViaRank} {e : DbEffectRef}
    (h : b.Shows x e) : e.sortKey = e.identity.sortKey := Prod.ext h.2.1 rfl

/-- The list of a routine: the pairs of its row, each once, by rank, shown one by one. -/
structure SummaryBundle.Lists (b : SummaryBundle) (effects out : List (ℕ × ViaRank))
    (refs : List DbEffectRef) : Prop where
  shown : List.Forall₂ b.Shows out refs
  perm : out.Perm effects
  nodup : (out.map Prod.fst).Nodup
  ranked : out.Pairwise fun x y => b.effects.effectUniverse.rankLt x.1 y.1

/-- **The list of a represented row.** -/
theorem projectRow_lists {arena : List Bits} {b : SummaryBundle} (hinv : b.effects.Inv)
    {row : CompactRoutineSummary} {raw : RawRow} {bits : Bits} (hraw : raw.Parallel arena)
    (hbits : arena[raw.terminalSet]? = some bits)
    (hrep : b.Represents row (iterSetBits bits) raw)
    (hown : ∀ id ∈ raw.pdDelta, id < b.effects.effectUniverse.len) :
    ∃ out refs, b.projectRow row = some refs ∧
      b.Lists ((iterSetBits bits).zip raw.baseVia ++ raw.pdDelta.zip raw.deltaVia) out refs := by
  obtain ⟨bits', hbits', hlen, hdisjoint⟩ := hraw.terminal
  rw [hbits] at hbits'
  obtain rfl := Option.some.inj hbits'
  obtain ⟨out, refs, hproject, hshows, hperm, hranked⟩ := projectRow_spec hinv hrep hlen hown
  have hnodup : (out.map Prod.fst).Nodup := by
    rw [(hperm.map Prod.fst).nodup_iff]
    exact rowEffects_nodup (iterSetBits_pairwise bits) hlen hraw.deltaVia hraw.nodup hdisjoint
  have hlt : ∀ x ∈ out, x.1 < b.effects.effectUniverse.len := by
    intro x hx
    obtain ⟨set, hset, hiter⟩ := hrep.terminal
    rcases List.mem_append.mp (hperm.mem_iff.mp hx) with hx | hx
    · have hid := (List.of_mem_zip hx).1
      rw [← hiter] at hid
      exact (hinv.valid set (List.mem_of_getElem? hset)).2 x.1 hid
    · exact hown x.1 (List.of_mem_zip hx).1
  have hne : out.Pairwise fun x y => x.1 ≠ y.1 := by
    rwa [List.Nodup, List.pairwise_map] at hnodup
  refine ⟨out, refs, hproject, hshows, hperm, hnodup, ?_⟩
  refine List.Pairwise.imp_of_mem ?_ (hranked.and hne)
  intro x y hx hy hxy
  exact rankLt_of_rankLe (hlt x hx) (hlt y hy) hxy.1 hxy.2

/-- Ranked pairs show effects in key order. -/
theorem SummaryBundle.Lists.keyLe {b : SummaryBundle} {effects out : List (ℕ × ViaRank)}
    {refs : List DbEffectRef} (h : b.Lists effects out refs) :
    refs.Pairwise fun e e' => AlSem.L4.keyLe e.sortKey e'.sortKey = true := by
  refine pairwise_of_shows h.shown h.ranked fun x y e e' hlt _ _ hx hy => ?_
  rw [sortKey_of_shows hx, sortKey_of_shows hy]
  exact keyLe_of_rankLt hx.1 hy.1 hlt

/-- No two of them have one key, when no operation's name has the separator. -/
theorem SummaryBundle.Lists.keyLt {b : SummaryBundle} {effects out : List (ℕ × ViaRank)}
    {refs : List DbEffectRef} (h : b.Lists effects out refs)
    (hbar : ∀ e ∈ refs, '|' ∉ e.op.toList) :
    refs.Pairwise fun e e' => AlSem.L4.keyLt e.sortKey e'.sortKey := by
  refine pairwise_of_shows h.shown h.ranked fun x y e e' hlt he he' hx hy => ?_
  rw [sortKey_of_shows hx, sortKey_of_shows hy]
  refine ⟨keyLe_of_rankLt hx.1 hy.1 hlt, fun heq => ?_⟩
  have hid : e.identity = e'.identity := effectKey_inj (hbar e he) (hbar e' he') heq
  have hx' := hx.1
  rw [hid] at hx'
  have hxy : x.1 = y.1 := Interner.value_inj hx' hy.1
  obtain ⟨ra, rb, hra, hrb, hltr⟩ := hlt
  rw [hxy, hrb] at hra
  rw [Option.some.inj hra] at hltr
  exact absurd hltr (lt_irrefl _)

/-! ## 4. The store is faithful -/

/-- **The compact store loses and mixes nothing.**  After every run whose pushes fit, under every
universe that covers them and every walk of the rows: a routine's list has the pairs of its row,
each once, by rank, so in `(effect_key, operation_id)` order, strictly when no operation's name
has the separator; two sets of the arena are one stored set exactly when they hold the same ids;
and the provenance of an id of a row's set is at the id's ordinal. -/
theorem summaryBundle_faithful (pushes : List Push)
    (hfit : PushesFit SummaryBundleBuilder.new pushes) (u : FrozenEffectUniverse)
    (hcover : (build pushes).CoveredBy u) (walk : (build pushes).Walk)
    (rvidByOpid : HashMap String (Option String)) :
    ∃ bundle, (build pushes).finish walk u rvidByOpid = some bundle ∧
      bundle.effects.effectUniverse = u ∧
      (∀ r, (build pushes).rowEffects r = none → bundle.dbEffects r = some []) ∧
      (∀ r effects, (build pushes).rowEffects r = some effects →
        ∃ out refs, bundle.dbEffects r = some refs ∧ bundle.Lists effects out refs ∧
          (refs.Pairwise fun e e' => keyLe e.sortKey e'.sortKey = true) ∧
          ((∀ e ∈ refs, '|' ∉ e.op.toList) →
            refs.Pairwise fun e e' => keyLt e.sortKey e'.sortKey)) ∧
      (∀ (i j : ℕ) (a b : Bits), (build pushes).arena[i]? = some a →
        (build pushes).arena[j]? = some b →
        ∃ p q, ((build pushes).setIds u)[i]? = some p ∧ ((build pushes).setIds u)[j]? = some q ∧
          (p = q ↔ iterSetBits a = iterSetBits b)) ∧
      (∀ (r : ℕ) (raw : RawRow) (bits : Bits), (build pushes).rows r = some raw →
        (build pushes).arena[raw.terminalSet]? = some bits →
        ∃ row set baseVia, bundle.summaries.lookup r = some row ∧
          ((build pushes).setIds u)[raw.terminalSet]? = some row.terminalBase ∧
          bundle.effects.sets[row.terminalBase]? = some set ∧ set.iter = iterSetBits bits ∧
          row.baseVia.slice bundle.viaPool = some baseVia ∧
          ∀ id via, (id, via) ∈ (iterSetBits bits).zip raw.baseVia →
            ∃ k, set.ordinalOf id = some k ∧ baseVia[k]? = some via) := by
  have hpar : (build pushes).Parallel :=
    build_parallel (fun r raw h => absurd h.symm (Option.some_ne_none raw)) hfit
  obtain ⟨bundle, hfinish, hu, hinv, hnone, hrows⟩ := finish_spec hpar hcover walk rvidByOpid
  refine ⟨bundle, hfinish, hu, fun r hr => ?_, fun r effects hr => ?_, fun i j a b hi hj => ?_,
    fun r raw bits hr hbits => ?_⟩
  · have hrow := hnone r (Option.map_eq_none_iff.mp hr)
    unfold SummaryBundle.dbEffects
    rw [hrow]
  · obtain ⟨raw, hraw, heffects⟩ := Option.map_eq_some_iff.mp hr
    obtain ⟨row, bits, hrow, hbits, -, hrep⟩ := hrows r raw hraw
    have hown : ∀ id ∈ raw.pdDelta, id < bundle.effects.effectUniverse.len := by
      rw [hu]
      exact hcover.rows r raw hraw
    obtain ⟨out, refs, hproject, hlists⟩ :=
      projectRow_lists hinv (hpar r raw hraw) hbits hrep hown
    have hget : (build pushes).arena.getD raw.terminalSet [] = bits := by
      rw [List.getD_eq_getElem?_getD, hbits]
      rfl
    rw [hget] at heffects
    rw [heffects] at hlists
    refine ⟨out, refs, ?_, hlists, hlists.keyLe, hlists.keyLt⟩
    unfold SummaryBundle.dbEffects
    rw [hrow]
    exact hproject
  · obtain ⟨-, -, hstores⟩ := EffectStore.internArena_spec (EffectStore.inv_new u) hcover.sets
    obtain ⟨p, hp, -⟩ := hstores i a hi
    obtain ⟨q, hq, -⟩ := hstores j b hj
    exact ⟨p, q, hp, hq, EffectStore.internArena_inj hcover.sets hi hj hp hq⟩
  · obtain ⟨row, bits', hrow, hbits', hset, hrep⟩ := hrows r raw hr
    rw [hbits] at hbits'
    obtain rfl := Option.some.inj hbits'
    obtain ⟨set, hstored, hiter⟩ := hrep.terminal
    refine ⟨row, set, raw.baseVia, hrow, hset, hstored, hiter, hrep.baseVia, fun id via hmem => ?_⟩
    obtain ⟨k, hk⟩ := List.mem_iff_getElem?.mp hmem
    obtain ⟨hid, hvia⟩ := List.getElem?_zip_eq_some.mp hk
    have hvalid := (hinv.valid set (List.mem_of_getElem? hstored)).1
    refine ⟨k, (HybridEffectSet.ordinalOf_eq_some hvalid id k).mpr ?_, hvia⟩
    rw [hiter]
    exact hid

/-! ## 5. One key for two effects -/

/-- Two effects with one key and one operation id: the separator is in the first one's name. -/
def clashUniverse : FrozenEffectUniverse :=
  GrowingEffectUniverse.freeze
    (((Interner.new.intern ⟨"a|b", "c", "o", .known true⟩).1.intern
      ⟨"a", "b|c", "o", .known true⟩).1)

/-- A routine that has both. -/
def clashPushes : List Push :=
  [.terminalSet [3], .row 0 0 [.direct, .direct] [] []]

def clashRow : RawRow :=
  { terminalSet := 0, baseVia := [.direct, .direct], pdDelta := [], deltaVia := [] }

def clashWalk : (build clashPushes).Walk where
  entries := [(0, clashRow)]
  nodup := List.nodup_singleton _
  mem_iff := by
    intro r raw
    rw [List.mem_singleton, Prod.mk.injEq]
    by_cases hr : r = 0
    · subst hr
      show _ ↔ some clashRow = some raw
      rw [Option.some.injEq, eq_comm (a := raw)]
      exact ⟨fun h => h.2, fun h => ⟨rfl, h⟩⟩
    · have hrow : (build clashPushes).rows r = none := Function.update_of_ne hr _ _
      rw [hrow]
      exact ⟨fun h => absurd h.1 hr, fun h => absurd h.symm (Option.some_ne_none raw)⟩

theorem clash_fits : PushesFit SummaryBundleBuilder.new clashPushes := by
  refine ⟨trivial, ⟨⟨[3], rfl, rfl, fun id hid => absurd hid List.not_mem_nil⟩,
    List.nodup_nil, rfl⟩, trivial⟩

theorem clash_covered : (build clashPushes).CoveredBy clashUniverse where
  sets := by
    intro bits hbits id hid
    have hb : bits = [3] := List.mem_singleton.mp hbits
    have hids : iterSetBits [3] = [0, 1] := by decide
    rw [hb, hids] at hid
    have hlen : clashUniverse.len = 2 := by decide
    rw [hlen]
    rcases List.mem_cons.mp hid with rfl | hid
    · decide
    · rw [List.mem_singleton.mp hid]
      decide
  rows := by
    intro r raw hr id hid
    have hmem := List.mem_singleton.mp ((clashWalk.mem_iff r raw).mpr hr)
    have hraw : raw = clashRow := congrArg Prod.snd hmem
    rw [hraw] at hid
    exact absurd hid List.not_mem_nil

/-- **Key and operation id need not be strictly increasing.** -/
theorem summaryBundle_not_strict :
    ∃ bundle refs, PushesFit SummaryBundleBuilder.new clashPushes ∧
      (build clashPushes).CoveredBy clashUniverse ∧
      (build clashPushes).finish clashWalk clashUniverse ∅ = some bundle ∧
      bundle.dbEffects 0 = some refs ∧
      ¬ refs.Pairwise fun e e' => keyLt e.sortKey e'.sortKey := by
  have hpar : (build clashPushes).Parallel :=
    build_parallel (fun r raw h => absurd h.symm (Option.some_ne_none raw)) clash_fits
  obtain ⟨bundle, hfinish, hu, hinv, -, hrows⟩ := finish_spec hpar clash_covered clashWalk ∅
  obtain ⟨row, bits, hrow, hbits, -, hrep⟩ := hrows 0 _ rfl
  obtain ⟨out, refs, hproject, hlists⟩ := projectRow_lists hinv (hpar 0 _ rfl) hbits hrep
    (fun id hid => absurd hid List.not_mem_nil)
  refine ⟨bundle, refs, clash_fits, clash_covered, hfinish, ?_, fun hstrict => ?_⟩
  · unfold SummaryBundle.dbEffects
    rw [hrow]
    exact hproject
  · have hb : bits = [3] := (Option.some.inj hbits).symm
    subst hb
    have hids : iterSetBits [3] = [0, 1] := by decide
    have hperm := hlists.perm
    rw [hids] at hperm
    have hlen : refs.length = 2 := by
      rw [← hlists.shown.length_eq]
      exact hperm.length_eq
    have hkey : ∀ e ∈ refs, e.sortKey = ("a|b|c|o|t", "o") := by
      intro e he
      obtain ⟨x, hx, hshow⟩ := exists_of_mem_right hlists.shown he
      rw [sortKey_of_shows hshow]
      have hid := hshow.1
      rw [hu] at hid
      rcases List.mem_cons.mp (hperm.mem_iff.mp hx) with rfl | hx
      · rw [← Option.some.inj hid]
        rfl
      · rw [List.mem_singleton.mp hx] at hid
        rw [← Option.some.inj hid]
        rfl
    match refs, hlen with
    | [e, e'], _ =>
      have hlt := (List.pairwise_cons.mp hstrict).1 e' (List.mem_singleton_self e')
      exact hlt.2 ((hkey e List.mem_cons_self).trans (hkey e' (by simp)).symm)

/-! ## 6. A set of words -/

/-- The effects of the shared set: as many as make a stored set dense. -/
def sharedEffect (k : ℕ) : EffectIdentity := ⟨"Modify", "C", Nat.repr k, .known true⟩

/-- An effect that depends on its routine's parameter. -/
def ownEffect : EffectIdentity := ⟨"Modify", "D", "own", .parameterDependent 0⟩

def wideEffects : List EffectIdentity :=
  (List.range sparseThreshold).map sharedEffect ++ [ownEffect]

def wideUniverse : FrozenEffectUniverse :=
  GrowingEffectUniverse.freeze (wideEffects.foldl (fun u e => (u.intern e).1) Interner.new)

/-- Full words: the ids of the shared effects. -/
def wideBits : Bits := List.replicate 4 (BitVec.allOnes 64)

/-- A routine that has the shared effects and one of its own. -/
def owningRow : RawRow :=
  { terminalSet := 0
    baseVia := List.replicate sparseThreshold .direct
    pdDelta := [sparseThreshold]
    deltaVia := [.direct] }

/-- Its caller, whose argument is no parameter: it inherits the shared effects alone. -/
def inheritingRow : RawRow :=
  { terminalSet := 0
    baseVia := List.replicate sparseThreshold .inherited
    pdDelta := []
    deltaVia := [] }

def widePushes : List Push :=
  [.terminalSet wideBits,
    .row 0 owningRow.terminalSet owningRow.baseVia owningRow.pdDelta owningRow.deltaVia,
    .row 1 inheritingRow.terminalSet inheritingRow.baseVia inheritingRow.pdDelta
      inheritingRow.deltaVia]

theorem wideEffects_nodup : wideEffects.Nodup := by
  refine List.Nodup.append ?_ (List.nodup_singleton _) ?_
  · refine List.Nodup.map (fun a b h => ?_) List.nodup_range
    exact repr_inj (congrArg EffectIdentity.operationId h)
  · rw [List.disjoint_singleton]
    intro hmem
    obtain ⟨k, -, hk⟩ := List.mem_map.mp hmem
    have htable : "C" = "D" := congrArg EffectIdentity.tableId hk
    exact absurd htable (by decide)

theorem wideUniverse_byId : wideUniverse.interned.byId = wideEffects :=
  Interner.byId_foldl_intern wideEffects Interner.new wideEffects_nodup

theorem wideUniverse_len : wideUniverse.len = sparseThreshold + 1 := by
  show wideUniverse.interned.byId.length = _
  rw [wideUniverse_byId]
  simp [wideEffects]

theorem wideUniverse_own : wideUniverse.identity sparseThreshold = some ownEffect := by
  show wideUniverse.interned.byId[sparseThreshold]? = _
  rw [wideUniverse_byId]
  simp [wideEffects]

theorem wideUniverse_shared {k : ℕ} (h : k < sparseThreshold) :
    wideUniverse.identity k = some (sharedEffect k) := by
  show wideUniverse.interned.byId[k]? = _
  rw [wideUniverse_byId, wideEffects, List.getElem?_append_left (by simpa using h),
    List.getElem?_map, List.getElem?_range h]
  rfl

theorem iterSetBits_wideBits : iterSetBits wideBits = List.range sparseThreshold :=
  iterSetBits_replicate 4

theorem wide_rows (r : ℕ) : (build widePushes).rows r =
    if r = 1 then some inheritingRow else if r = 0 then some owningRow else none := by
  show Function.update (Function.update (fun _ => none) 0 (some owningRow)) 1
    (some inheritingRow) r = _
  rw [Function.update_apply, Function.update_apply]

def wideWalk : (build widePushes).Walk where
  entries := [(1, inheritingRow), (0, owningRow)]
  nodup := by decide
  mem_iff := by
    intro r raw
    rw [wide_rows]
    by_cases h1 : r = 1
    · subst h1
      simp [eq_comm]
    · by_cases h0 : r = 0
      · subst h0
        simp [eq_comm]
      · simp [h0, h1]

theorem wide_fits : PushesFit SummaryBundleBuilder.new widePushes := by
  have hlen : ∀ via : ViaRank,
      (List.replicate sparseThreshold via).length = (iterSetBits wideBits).length := by
    intro via
    rw [iterSetBits_wideBits, List.length_replicate, List.length_range]
  refine ⟨trivial, ⟨⟨wideBits, rfl, hlen _, fun id hid => ?_⟩, List.nodup_singleton _, rfl⟩,
    ⟨⟨wideBits, rfl, hlen _, fun id hid => absurd hid List.not_mem_nil⟩, List.nodup_nil, rfl⟩,
    trivial⟩
  rw [List.mem_singleton.mp hid, iterSetBits_wideBits]
  exact List.not_mem_range_self

theorem wide_covered : (build widePushes).CoveredBy wideUniverse where
  sets := by
    intro bits hbits id hid
    rw [List.mem_singleton.mp hbits, iterSetBits_wideBits, List.mem_range] at hid
    rw [wideUniverse_len]
    exact Nat.lt_succ_of_lt hid
  rows := by
    intro r raw hr id hid
    rcases List.mem_cons.mp ((wideWalk.mem_iff r raw).mpr hr) with heq | hmem
    · obtain ⟨-, rfl⟩ := Prod.mk.inj heq
      exact absurd hid List.not_mem_nil
    · obtain ⟨-, rfl⟩ := Prod.mk.inj (List.mem_singleton.mp hmem)
      rw [List.mem_singleton.mp hid, wideUniverse_len]
      exact Nat.lt_succ_self _

/-- The ids of the two rows: the shared ones, and in the first row one more. -/
theorem wide_rowIds {r : ℕ} {raw : RawRow} (hr : (build widePushes).rows r = some raw)
    (hset : raw.terminalSet = 0) (hbase : raw.baseVia.length = sparseThreshold)
    (hdelta : raw.deltaVia.length = raw.pdDelta.length) :
    ∃ effects, (build widePushes).rowEffects r = some effects ∧
      effects.map Prod.fst = List.range sparseThreshold ++ raw.pdDelta := by
  unfold SummaryBundleBuilder.rowEffects
  rw [hr]
  refine ⟨_, rfl, ?_⟩
  have harena : (build widePushes).arena.getD 0 [] = wideBits := rfl
  dsimp only
  rw [hset, harena, iterSetBits_wideBits, List.map_append,
    List.map_fst_zip (by rw [hbase, List.length_range]), List.map_fst_zip (Nat.le_of_eq hdelta.symm)]

theorem owning_rowIds : ∃ effects, (build widePushes).rowEffects 0 = some effects ∧
    effects.map Prod.fst = List.range sparseThreshold ++ owningRow.pdDelta := by
  have hrow : (build widePushes).rows 0 = some owningRow := wide_rows 0
  have hbase : owningRow.baseVia.length = sparseThreshold := List.length_replicate
  exact wide_rowIds hrow rfl hbase rfl

theorem inheriting_rowIds : ∃ effects, (build widePushes).rowEffects 1 = some effects ∧
    effects.map Prod.fst = List.range sparseThreshold ++ inheritingRow.pdDelta := by
  have hrow : (build widePushes).rows 1 = some inheritingRow := wide_rows 1
  have hbase : inheritingRow.baseVia.length = sparseThreshold := List.length_replicate
  exact wide_rowIds hrow rfl hbase rfl

/-- The shared set is stored in words. -/
theorem fromBits_wideBits : ∃ words rankLut,
    HybridEffectSet.fromBits wideBits wideUniverse.len =
      .dense words rankLut sparseThreshold := by
  have hcovers : EffectStore.Covers wideUniverse wideBits :=
    wide_covered.sets wideBits List.mem_cons_self
  have hcard : popcount (canonicalWords wideBits wideUniverse.len) = sparseThreshold := by
    rw [← length_iterSetBits, ← HybridEffectSet.iter_fromBits,
      HybridEffectSet.iter_fromBits_of_covered hcovers, iterSetBits_wideBits, List.length_range]
  refine ⟨canonicalWords wideBits wideUniverse.len,
    buildRankLut (canonicalWords wideBits wideUniverse.len), ?_⟩
  unfold HybridEffectSet.fromBits
  dsimp only
  rw [hcard, if_neg (lt_irrefl _)]

/-- Two routines share a dense set, each with its provenance, and one has an effect of its
own. -/
theorem summaryBundle_faithful_wide :
    (∃ words rankLut, HybridEffectSet.fromBits wideBits wideUniverse.len =
        .dense words rankLut sparseThreshold) ∧
      ∃ bundle owning inheriting,
        (build widePushes).finish wideWalk wideUniverse ∅ = some bundle ∧
        bundle.dbEffects 0 = some owning ∧ owning.length = sparseThreshold + 1 ∧
        (∃ e ∈ owning, e.identity = ownEffect) ∧
        bundle.dbEffects 1 = some inheriting ∧ inheriting.length = sparseThreshold ∧
        ∀ e ∈ inheriting, e.via = .inherited := by
  refine ⟨fromBits_wideBits, ?_⟩
  obtain ⟨bundle, hfinish, hu, -, hrows, -⟩ :=
    summaryBundle_faithful widePushes wide_fits wideUniverse wide_covered wideWalk ∅
  obtain ⟨effects, heffects, hids⟩ := owning_rowIds
  obtain ⟨effects', heffects', hids'⟩ := inheriting_rowIds
  obtain ⟨out, owning, howning, hlists, -⟩ := hrows 0 effects heffects
  obtain ⟨out', inheriting, hinheriting, hlists', -⟩ := hrows 1 effects' heffects'
  refine ⟨bundle, owning, inheriting, hfinish, howning, ?_, ?_, hinheriting, ?_, ?_⟩
  · rw [← hlists.shown.length_eq, hlists.perm.length_eq, ← List.length_map Prod.fst, hids,
      List.length_append, List.length_range]
    rfl
  · have hown : sparseThreshold ∈ effects.map Prod.fst := by
      rw [hids]
      exact List.mem_append_right _ List.mem_cons_self
    obtain ⟨x, hx, hfst⟩ := List.mem_map.mp hown
    obtain ⟨e, he, hshow⟩ :=
      exists_of_mem_right hlists.shown.flip (hlists.perm.mem_iff.mpr hx)
    refine ⟨e, he, ?_⟩
    have hid := hshow.1
    rw [hu, hfst, wideUniverse_own] at hid
    exact (Option.some.inj hid).symm
  · rw [← hlists'.shown.length_eq, hlists'.perm.length_eq, ← List.length_map Prod.fst, hids',
      List.length_append, List.length_range]
    rfl
  · intro e he
    obtain ⟨x, hx, hshow⟩ := exists_of_mem_right hlists'.shown he
    have hrow : some effects' = some ((iterSetBits wideBits).zip inheritingRow.baseVia ++ []) :=
      heffects'.symm
    rw [hlists'.perm.mem_iff, Option.some.inj hrow, List.append_nil] at hx
    exact hshow.2.2.trans (List.eq_of_mem_replicate (List.of_mem_zip hx).2)

end AlSem.L4
