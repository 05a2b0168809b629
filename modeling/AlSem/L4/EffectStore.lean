/-
# The effect store, while solving

Interned effects (`effect_universe.rs`), interned routines (`routine_interner.rs`), and the
solve-time half of `effect_store.rs`: presence bitsets over effect ids, and the builder that
records one row a routine and feeds it forward to its callers.

Ids are natural numbers: nothing below depends on their width.
-/
import AlSem.Lib.Interner
import AlSem.L4.Effects
import Mathlib.Data.List.GetD

namespace AlSem.L4

/-! ## 1. Interned effects -/

/-- The interned key of an effect: everything but its provenance and record variable. -/
structure EffectIdentity where
  op : String
  tableId : String
  operationId : String
  temp : TempStateKind
  deriving DecidableEq, Repr

/-- The identity of a summary's effect. -/
def DbEffect.identity (e : DbEffect) : EffectIdentity :=
  { op := e.op, tableId := e.tableId, operationId := e.operationId, temp := e.tempState.toKind }

/-- `EffectIdentity ↔ EffectId`, growing while effects are discovered. -/
abbrev GrowingEffectUniverse := Interner EffectIdentity

/-- The identity of an id, `none` where the source panics: an id of another universe. -/
abbrev GrowingEffectUniverse.identity (u : GrowingEffectUniverse) (id : ℕ) :
    Option EffectIdentity := Interner.value u id

/-! ## 2. Interned routines -/

/-- Routine id ↔ solve index. -/
abbrev RoutineInterner := Interner String

namespace RoutineInterner

/-- The routine of an index, `none` where the source panics. -/
abbrev name (i : RoutineInterner) (ix : ℕ) : Option String := Interner.value i ix

/-- Intern `(routine id, stable id)` pairs in ascending `(stable id, routine id)` order. -/
def buildCanonical (entries : List (String × String)) : RoutineInterner :=
  let sorted := entries.mergeSort fun a b => decide (a.2 < b.2 ∨ a.2 = b.2 ∧ a.1 ≤ b.1)
  (sorted.map Prod.fst).foldl (fun i r => (i.intern r).1) Interner.new

/-- **The canonical interner knows exactly the routines it was given.** -/
theorem isSome_get_buildCanonical (entries : List (String × String)) (r : String) :
    ((buildCanonical entries).get r).isSome ↔ ∃ e ∈ entries, e.1 = r := by
  unfold buildCanonical
  dsimp only
  rw [Interner.isSome_get_foldl_intern]
  simp [Interner.new, Interner.get, (List.mergeSort_perm entries _).mem_iff]

end RoutineInterner

/-! ## 3. Presence bitsets -/

/-- Word `n / 64`, bit `n % 64` says whether effect `n` is present. -/
abbrev Bits := List (BitVec 64)

/-- Words of zeros until there are `len` of them. -/
def growTo (bits : Bits) (len : ℕ) : Bits := bits ++ List.replicate (len - bits.length) 0

def setBit (bits : Bits) (id : ℕ) : Bits :=
  let word := id / 64
  let bits := growTo bits (word + 1)
  bits.set word (bits.getD word 0 ||| BitVec.twoPow 64 (id % 64))

def hasBit (bits : Bits) (id : ℕ) : Bool :=
  let word := id / 64
  decide (word < bits.length) && (bits.getD word 0 &&& BitVec.twoPow 64 (id % 64) != 0)

/-- OR `src` into `dst`, word by word. -/
def orBits (dst src : Bits) : Bits :=
  let dst := growTo dst src.length
  List.zipWith (· ||| ·) dst src ++ dst.drop src.length

/-- The set bits of a word, ascending. -/
def wordBits (word : BitVec 64) : List ℕ := (List.range 64).filter word.getLsbD

/-- The present ids, ascending. -/
def iterSetBits (bits : Bits) : List ℕ :=
  bits.zipIdx.flatMap fun w => (wordBits w.1).map fun bit => w.2 * 64 + bit

/-- A bitset reads as its words' bits. -/
theorem hasBit_eq (bits : Bits) (id : ℕ) :
    hasBit bits id = (bits.getD (id / 64) 0).getLsbD (id % 64) := by
  have hlt : id % 64 < 64 := Nat.mod_lt _ (by decide)
  have hword : ∀ w : BitVec 64,
      (w &&& BitVec.twoPow 64 (id % 64) != 0) = w.getLsbD (id % 64) := by
    intro w
    rw [BitVec.and_twoPow]
    cases hb : w.getLsbD (id % 64) with
    | false => simp
    | true =>
      rw [if_pos rfl, bne_iff_ne]
      intro hz
      have hbit := congrArg (fun v : BitVec 64 => v.getLsbD (id % 64)) hz
      simp [hlt] at hbit
  unfold hasBit
  dsimp only
  rw [hword]
  by_cases hlen : id / 64 < bits.length
  · simp [hlen]
  · rw [List.getD_eq_default _ _ (by omega)]
    simp [hlen]

@[simp] theorem hasBit_nil (id : ℕ) : hasBit [] id = false := by simp [hasBit]

/-- Growing a bitset adds no id. -/
theorem getD_growTo (bits : Bits) (len n : ℕ) : (growTo bits len).getD n 0 = bits.getD n 0 := by
  unfold growTo
  by_cases hn : n < bits.length
  · rw [List.getD_append _ _ _ _ hn]
  · rw [List.getD_append_right _ _ _ _ (by omega), List.getD_eq_default bits _ (by omega)]
    by_cases hm : n - bits.length < len - bits.length
    · rw [List.getD_eq_getElem _ _ (by simpa using hm)]
      simp
    · rw [List.getD_eq_default _ _ (by simpa using hm)]

theorem length_growTo (bits : Bits) (len : ℕ) : (growTo bits len).length = max bits.length len := by
  simp only [growTo, List.length_append, List.length_replicate]
  omega

@[simp] theorem hasBit_setBit (bits : Bits) (id n : ℕ) :
    hasBit (setBit bits id) n = (decide (n = id) || hasBit bits n) := by
  rw [hasBit_eq, hasBit_eq]
  unfold setBit
  dsimp only
  have hlen : id / 64 < (growTo bits (id / 64 + 1)).length := by
    rw [length_growTo]; omega
  have hmod : n % 64 < 64 := Nat.mod_lt _ (by decide)
  by_cases hw : n / 64 = id / 64
  · rw [hw, List.getD_eq_getElem _ _ (by simpa using hlen), List.getElem_set_self,
      BitVec.getLsbD_or, BitVec.getLsbD_twoPow, getD_growTo]
    by_cases hid : n = id
    · subst hid; simp [hmod]
    · have hne : id % 64 ≠ n % 64 := by omega
      simp [hid, hne]
  · have hid : n ≠ id := fun h => hw (by rw [h])
    have hset : ((growTo bits (id / 64 + 1)).set (id / 64)
        ((growTo bits (id / 64 + 1)).getD (id / 64) 0 ||| BitVec.twoPow 64 (id % 64))).getD
          (n / 64) 0 = (growTo bits (id / 64 + 1)).getD (n / 64) 0 := by
      simp only [List.getD_eq_getElem?_getD, List.getElem?_set_ne (Ne.symm hw)]
    rw [hset, getD_growTo]
    simp [hid]

@[simp] theorem hasBit_orBits (dst src : Bits) (n : ℕ) :
    hasBit (orBits dst src) n = (hasBit dst n || hasBit src n) := by
  rw [hasBit_eq, hasBit_eq, hasBit_eq]
  unfold orBits
  dsimp only
  have hlen : src.length ≤ (growTo dst src.length).length := by
    rw [length_growTo]; omega
  rw [← getD_growTo dst src.length]
  generalize growTo dst src.length = d at hlen
  have hz : (List.zipWith (· ||| ·) d src).length = src.length := by
    rw [List.length_zipWith]; omega
  by_cases hn : n / 64 < src.length
  · rw [List.getD_append _ _ _ _ (by omega), List.getD_eq_getElem _ _ (by omega),
      List.getElem_zipWith, BitVec.getLsbD_or, List.getD_eq_getElem _ _ (by omega),
      List.getD_eq_getElem _ _ hn]
  · rw [List.getD_append_right _ _ _ _ (by omega), hz, List.getD_eq_default src _ (by omega)]
    have hadd : src.length + (n / 64 - src.length) = n / 64 := by omega
    simp only [List.getD_eq_getElem?_getD, List.getElem?_drop, hadd]
    simp

@[simp] theorem mem_iterSetBits (bits : Bits) (n : ℕ) : n ∈ iterSetBits bits ↔ hasBit bits n = true := by
  rw [hasBit_eq]
  unfold iterSetBits
  simp only [List.mem_flatMap, List.mem_map, wordBits, List.mem_filter, List.mem_range]
  constructor
  · rintro ⟨⟨w, i⟩, hwi, bit, ⟨hbit, hget⟩, rfl⟩
    rw [List.mk_mem_zipIdx_iff_getElem?] at hwi
    have hdiv : (i * 64 + bit) / 64 = i := by omega
    have hmod : (i * 64 + bit) % 64 = bit := by omega
    rw [hdiv, hmod, List.getD_eq_getElem?_getD, hwi]
    exact hget
  · intro hget
    have hlen : n / 64 < bits.length := by
      by_contra hge
      rw [List.getD_eq_default _ _ (by omega)] at hget
      simp at hget
    refine ⟨(bits[n / 64], n / 64), ?_, n % 64, ⟨by omega, ?_⟩, by simp only; omega⟩
    · rw [List.mk_mem_zipIdx_iff_getElem?]
      exact List.getElem?_eq_getElem hlen
    · rw [List.getD_eq_getElem _ _ hlen] at hget
      exact hget

/-! ## 4. The bundle under construction -/

/-- One routine's row: a shared terminal set, and its own parameter-dependent effects, each with
its provenance. -/
structure RawRow where
  terminalSet : ℕ
  baseVia : List ViaRank
  pdDelta : List ℕ
  deltaVia : List ViaRank
  deriving DecidableEq, Repr

/-- The shared terminal sets and the rows recorded so far. -/
structure SummaryBundleBuilder where
  arena : List Bits
  rows : ℕ → Option RawRow

namespace SummaryBundleBuilder

def new : SummaryBundleBuilder := { arena := [], rows := fun _ => none }

def pushTerminalSet (b : SummaryBundleBuilder) (bits : Bits) : SummaryBundleBuilder × ℕ :=
  ({ b with arena := b.arena ++ [bits] }, b.arena.length)

def pushRow (b : SummaryBundleBuilder) (routineIx terminalSet : ℕ) (baseVia : List ViaRank)
    (pdDelta : List ℕ) (deltaVia : List ViaRank) : SummaryBundleBuilder :=
  { b with
    rows := Function.update b.rows routineIx (some { terminalSet, baseVia, pdDelta, deltaVia }) }

def hasRow (b : SummaryBundleBuilder) (r : ℕ) : Bool := (b.rows r).isSome

/-- A settled routine's terminal set, empty without a row. -/
def terminalBits (b : SummaryBundleBuilder) (r : ℕ) : Bits :=
  match b.rows r with
  | some row => b.arena.getD row.terminalSet []
  | none => []

/-- A settled routine's parameter-dependent effects, none without a row. -/
def pdIds (b : SummaryBundleBuilder) (r : ℕ) : List ℕ :=
  match b.rows r with
  | some row => row.pdDelta
  | none => []

end SummaryBundleBuilder

end AlSem.L4
