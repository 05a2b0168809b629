/-
# The compact effect store

`SummaryBundleBuilder::finish` freezes the solved rows (`effect_store.rs`): terminal sets with the
same ids become one stored set, provenances and parameter-dependent effects go into pools, and
`db_effects` puts a row together again in output order.  A row's provenances stay in id order and
are found through the set's sorted permutation.

The hash maps that `finish` walks have no order of their own: a walk is any list of their
entries.
-/
import AlSem.Lib.HashMap
import AlSem.L4.EffectUniverse
import AlSem.L4.EffectSet

namespace AlSem.L4

/-! ## 1. The hash-consed sets -/

/-- `id.to_le_bytes`. -/
def leBytes (id : ℕ) : List ℕ := [id % 256, id / 256 % 256, id / 65536 % 256, id / 16777216 % 256]

/-- FNV-1a over the ids of a set, in order. -/
def hashIds (ids : List ℕ) : UInt64 :=
  ids.foldl (fun h id =>
    (leBytes id).foldl (fun h b => (h ^^^ UInt64.ofNat b) * 0x100000001b3) h) 0xcbf29ce484222325

def contentHash (bits : Bits) : UInt64 := hashIds (iterSetBits bits)

/-- The order of `sort_by_key(key_rank)`, on ids of the universe. -/
def FrozenEffectUniverse.rankLe (u : FrozenEffectUniverse) (a b : ℕ) : Bool :=
  decide ((u.keyRankOf a).getD 0 ≤ (u.keyRankOf b).getD 0)

/-- The stored sets, each with its ids in output order (`ordered`) and, beside it, the place each
of these has in id order (`orderedStorageOrd`); `dedup` finds the sets with a hash. -/
structure EffectStore where
  effectUniverse : FrozenEffectUniverse
  sets : List HybridEffectSet
  ordered : List (List ℕ)
  orderedStorageOrd : List (List ℕ)
  dedup : HashMap UInt64 (List ℕ)

namespace EffectStore

def new (u : FrozenEffectUniverse) : EffectStore :=
  { effectUniverse := u, sets := [], ordered := [], orderedStorageOrd := [], dedup := ∅ }

/-- Whether a stored set has the ids of the bits. -/
def setEqBits (s : EffectStore) (bits : Bits) (id : ℕ) : Bool :=
  match s.sets[id]? with
  | some set => set.card == popcount bits && set.iter == iterSetBits bits
  | none => false

/-- `intern_set`: the stored set with these ids, a new one when there is none. -/
def internSet (s : EffectStore) (bits : Bits) : EffectStore × ℕ :=
  let hash := contentHash bits
  match (s.dedup.getList hash).find? (s.setEqBits bits) with
  | some cand => (s, cand)
  | none =>
    let id := s.sets.length
    let set := HybridEffectSet.fromBits bits s.effectUniverse.len
    let storageIds := set.iter
    let perm := (Ranking.order s.effectUniverse.rankLe storageIds).map Fin.val
    let ordered := Ranking.place s.effectUniverse.rankLe storageIds
    ({ s with
        sets := s.sets ++ [set]
        ordered := s.ordered ++ [ordered]
        orderedStorageOrd := s.orderedStorageOrd ++ [perm]
        dedup := s.dedup.insert hash (s.dedup.getList hash ++ [id]) }, id)

/-- The arena's sets stored one by one, with the set each became. -/
def internArena (s : EffectStore) : List Bits → EffectStore × List ℕ
  | [] => (s, [])
  | bits :: arena =>
    let (s, id) := s.internSet bits
    let (s, ids) := s.internArena arena
    (s, id :: ids)

end EffectStore

/-! ## 2. Rows -/

/-- `start..stop` of a pool. -/
structure Span where
  start : ℕ
  stop : ℕ
  deriving DecidableEq, Repr

/-- The elements of a span, `none` where the source panics. -/
def Span.slice {α : Type} (s : Span) (pool : List α) : Option (List α) :=
  if s.start ≤ s.stop ∧ s.stop ≤ pool.length then some ((pool.take s.stop).drop s.start) else none

/-- `push_via`, `push_ids`. -/
def pushAll {α : Type} (pool xs : List α) : Span × List α :=
  (⟨pool.length, pool.length + xs.length⟩, pool ++ xs)

structure CompactRoutineSummary where
  terminalBase : ℕ
  baseVia : Span
  pdDelta : Span
  deltaVia : Span
  deriving DecidableEq, Repr

/-- `sort_pd_by_key_rank`; `none` where `key_rank` panics. -/
def sortPdByKeyRank (u : FrozenEffectUniverse) (pdDelta : List ℕ) (deltaVia : List ViaRank) :
    Option (List ℕ × List ViaRank) := do
  let triples ← (pdDelta.zip deltaVia).mapM fun p => (u.keyRankOf p.1).map fun r => (r, p)
  let sorted := Ranking.place (fun a b => decide (a.1 ≤ b.1)) triples
  some (sorted.map fun t => t.2.1, sorted.map fun t => t.2.2)

/-- The finished store. -/
structure SummaryBundle where
  summaries : HashMap ℕ CompactRoutineSummary
  effects : EffectStore
  viaPool : List ViaRank
  deltaPool : List ℕ
  rvidByOpid : HashMap String (Option String)

namespace SummaryBundleBuilder

/-- A walk over the builder's rows: their entries in any order. -/
structure Walk (b : SummaryBundleBuilder) where
  entries : List (ℕ × RawRow)
  nodup : (entries.map Prod.fst).Nodup
  mem_iff : ∀ r raw, (r, raw) ∈ entries ↔ b.rows r = some raw

/-- One step of `finish`: a row into the bundle. -/
def finishRow (setIds : List ℕ) (bundle : SummaryBundle) (entry : ℕ × RawRow) :
    Option SummaryBundle := do
  let (ix, raw) := entry
  let terminalBase ← setIds[raw.terminalSet]?
  let (baseVia, viaPool) := pushAll bundle.viaPool raw.baseVia
  let (pdSorted, deltaViaSorted) ←
    sortPdByKeyRank bundle.effects.effectUniverse raw.pdDelta raw.deltaVia
  let (pdDelta, deltaPool) := pushAll bundle.deltaPool pdSorted
  let (deltaVia, viaPool) := pushAll viaPool deltaViaSorted
  some { bundle with
    viaPool
    deltaPool
    summaries := bundle.summaries.insert ix { terminalBase, baseVia, pdDelta, deltaVia } }

/-- `finish`, `none` where it panics. -/
def finish (b : SummaryBundleBuilder) (walk : b.Walk) (u : FrozenEffectUniverse)
    (rvidByOpid : HashMap String (Option String)) : Option SummaryBundle :=
  let (store, setIds) := (EffectStore.new u).internArena b.arena
  walk.entries.foldlM (finishRow setIds)
    { summaries := ∅, effects := store, viaPool := [], deltaPool := [], rvidByOpid }

/-- `row_effects`: a row's effects with their provenances, terminal ones first. -/
def rowEffects (b : SummaryBundleBuilder) (r : ℕ) : Option (List (ℕ × ViaRank)) :=
  (b.rows r).map fun row =>
    (iterSetBits (b.arena.getD row.terminalSet [])).zip row.baseVia ++ row.pdDelta.zip row.deltaVia

end SummaryBundleBuilder

/-! ## 3. Effects of a routine -/

/-- `DbEffectRef`: one effect of a routine. -/
structure DbEffectRef where
  effectKey : String
  operationId : String
  op : String
  tableId : String
  recordVariableId : Option String
  tempState : TempStateKind
  via : ViaRank
  deriving DecidableEq, Repr

/-- The identity an effect borrows from. -/
def DbEffectRef.identity (e : DbEffectRef) : EffectIdentity :=
  { op := e.op, tableId := e.tableId, operationId := e.operationId, temp := e.tempState }

namespace SummaryBundle

/-- `make_ref`, `none` where it panics. -/
def makeRef (b : SummaryBundle) (p : ℕ × ViaRank) : Option DbEffectRef := do
  let identity ← b.effects.effectUniverse.identity p.1
  let effectKey ← b.effects.effectUniverse.effectKeyCached p.1
  some
    { effectKey
      operationId := identity.operationId
      op := identity.op
      tableId := identity.tableId
      recordVariableId := (b.rvidByOpid.lookup identity.operationId).join
      tempState := identity.temp
      via := p.2 }

/-- The base run of a row: its set's ids in output order, each with the provenance at its place
in id order. -/
def baseRun (baseIds baseStorageOrd : List ℕ) (baseVia : List ViaRank) :
    Option (List (ℕ × ViaRank)) :=
  (baseIds.zip baseStorageOrd).mapM fun k => (baseVia[k.2]?).map fun via => (k.1, via)

/-- `project_row`: the base run and the row's own run merged by rank. -/
def projectRow (b : SummaryBundle) (row : CompactRoutineSummary) : Option (List DbEffectRef) := do
  let baseIds ← b.effects.ordered[row.terminalBase]?
  let baseStorageOrd ← b.effects.orderedStorageOrd[row.terminalBase]?
  let baseVia ← row.baseVia.slice b.viaPool
  let pdIds ← row.pdDelta.slice b.deltaPool
  let pdVia ← row.deltaVia.slice b.viaPool
  let base ← baseRun baseIds baseStorageOrd baseVia
  let out := List.merge base (pdIds.zip pdVia) fun x y => b.effects.effectUniverse.rankLe x.1 y.1
  out.mapM b.makeRef

/-- `db_effects`, `none` where it panics. -/
def dbEffects (b : SummaryBundle) (r : ℕ) : Option (List DbEffectRef) :=
  match b.summaries.lookup r with
  | some row => b.projectRow row
  | none => some []

def terminalBase (b : SummaryBundle) (r : ℕ) : Option ℕ :=
  (b.summaries.lookup r).map CompactRoutineSummary.terminalBase

/-- `pd_delta_ids`; the row's span is inside the pool. -/
def pdDeltaIds (b : SummaryBundle) (r : ℕ) : List ℕ :=
  match b.summaries.lookup r with
  | some row => (row.pdDelta.slice b.deltaPool).getD []
  | none => []

/-- `routines_with_rows`, in the order the map has. -/
def routinesWithRows (b : SummaryBundle) : List ℕ := b.summaries.keys

end SummaryBundle

end AlSem.L4
