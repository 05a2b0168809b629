/-
# Stored effect sets

A frozen set of effect ids (`HybridEffectSet`): an ascending list below a size, words with a
table of running counts from there on.  Both iterate in ascending order, and the place of an id
in that order is read off the list by search and off the words by the table and two counts
(`ordinalOf_eq_some`).
-/
import AlSem.L4.EffectStore
import Mathlib.Data.List.Sort
import Mathlib.Algebra.GroupWithZero.Nat

namespace AlSem.L4

/-! ## 1. Bits in order -/

/-- `count_ones`. -/
def countOnes (word : BitVec 64) : ℕ := (wordBits word).length

/-- The number of ids in a bitset. -/
def popcount (bits : Bits) : ℕ := (bits.map countOnes).sum

/-- `(1 << n) - 1`. -/
def lowMask (n : ℕ) : BitVec 64 := BitVec.ofNat 64 (2 ^ n - 1)

theorem getLsbD_lowMask {n i : ℕ} (hi : i < 64) : (lowMask n).getLsbD i = decide (i < n) := by
  rw [lowMask, BitVec.getLsbD_ofNat, Nat.testBit_two_pow_sub_one]
  simp [hi]

theorem wordBits_lt {word : BitVec 64} {n : ℕ} (h : n ∈ wordBits word) : n < 64 :=
  List.mem_range.mp (List.mem_of_mem_filter h)

theorem wordBits_pairwise (word : BitVec 64) : (wordBits word).Pairwise (· < ·) :=
  List.pairwise_lt_range.filter _

/-- The ids of words numbered from `k`. -/
theorem flatMap_zipIdx_succ (bits : Bits) (k : ℕ) :
    ((bits.zipIdx k).flatMap fun w => (wordBits w.1).map fun bit => w.2 * 64 + bit) =
      (iterSetBits bits).map (k * 64 + ·) := by
  induction bits generalizing k with
  | nil => rfl
  | cons w bits ih =>
    have hhead : iterSetBits (w :: bits) =
        (wordBits w).map (0 * 64 + ·) ++ (iterSetBits bits).map (1 * 64 + ·) := by
      rw [← ih 1]
      rfl
    rw [List.zipIdx_cons, List.flatMap_cons, ih (k + 1), hhead, List.map_append, List.map_map,
      List.map_map]
    congr 1
    · refine List.map_congr_left fun bit _ => ?_
      simp
    · refine List.map_congr_left fun bit _ => ?_
      simp only [Function.comp_apply]
      omega

theorem iterSetBits_append (a b : Bits) :
    iterSetBits (a ++ b) = iterSetBits a ++ (iterSetBits b).map (a.length * 64 + ·) := by
  rw [← flatMap_zipIdx_succ b]
  unfold iterSetBits
  rw [List.zipIdx_append, List.flatMap_append, Nat.zero_add]

theorem iterSetBits_cons (w : BitVec 64) (bits : Bits) :
    iterSetBits (w :: bits) = wordBits w ++ (iterSetBits bits).map (64 + ·) := by
  have h := iterSetBits_append [w] bits
  have hone : iterSetBits [w] = wordBits w := by simp [iterSetBits]
  rw [hone] at h
  simpa using h

/-- **The bit scan is ascending.** -/
theorem iterSetBits_pairwise (bits : Bits) : (iterSetBits bits).Pairwise (· < ·) := by
  induction bits with
  | nil => exact List.Pairwise.nil
  | cons w bits ih =>
    rw [iterSetBits_cons, List.pairwise_append]
    refine ⟨wordBits_pairwise w, ?_, fun a ha b hb => ?_⟩
    · rw [List.pairwise_map]
      exact ih.imp fun h => Nat.add_lt_add_left h 64
    · obtain ⟨n, -, rfl⟩ := List.mem_map.mp hb
      have := wordBits_lt ha
      omega

theorem length_iterSetBits (bits : Bits) : (iterSetBits bits).length = popcount bits := by
  induction bits with
  | nil => rfl
  | cons w bits ih =>
    rw [iterSetBits_cons, List.length_append, List.length_map, ih]
    rfl

/-- Full words hold all ids below their end. -/
theorem iterSetBits_replicate (n : ℕ) :
    iterSetBits (List.replicate n (BitVec.allOnes 64)) = List.range (64 * n) := by
  induction n with
  | zero => rfl
  | succ n ih =>
    have hword : wordBits (BitVec.allOnes 64) = List.range 64 := by
      refine List.filter_eq_self.mpr fun i hi => ?_
      rw [BitVec.getLsbD_allOnes]
      exact decide_eq_true (List.mem_range.mp hi)
    rw [List.replicate_succ, iterSetBits_cons, ih, hword, Nat.mul_succ, Nat.add_comm,
      List.range_add]

/-- Bitsets with the same ids have the same scan. -/
theorem iterSetBits_congr {a b : Bits} (h : ∀ n, hasBit a n = hasBit b n) :
    iterSetBits a = iterSetBits b := by
  refine List.Pairwise.eq_of_mem_iff (iterSetBits_pairwise a) (iterSetBits_pairwise b) fun n => ?_
  rw [mem_iterSetBits, mem_iterSetBits, h n]

/-- The place of a bit among a word's bits is the count of the bits below it. -/
theorem wordBits_getElem {word : BitVec 64} {n : ℕ} (hn : n < 64) (h : word.getLsbD n = true) :
    (wordBits word)[countOnes (word &&& lowMask n)]? = some n := by
  have hsplit : List.range 64 = List.range n ++ n :: (List.range' (n + 1) (63 - n)) := by
    have happ := List.range'_append_1 (s := 0) (m := n) (n := 63 - n + 1)
    have hlen : n + (63 - n + 1) = 64 := by omega
    rw [Nat.zero_add, List.range'_succ, hlen] at happ
    rw [List.range_eq_range', List.range_eq_range', happ]
  have hcount : countOnes (word &&& lowMask n) = ((List.range n).filter word.getLsbD).length := by
    unfold countOnes wordBits
    rw [hsplit, List.filter_append, List.length_append]
    have hlow : (List.range n).filter (word &&& lowMask n).getLsbD =
        (List.range n).filter word.getLsbD := by
      refine List.filter_congr fun i hi => ?_
      have hin : i < n := List.mem_range.mp hi
      rw [BitVec.getLsbD_and, getLsbD_lowMask (by omega)]
      simp [hin]
    have hhigh : (n :: List.range' (n + 1) (63 - n)).filter (word &&& lowMask n).getLsbD = [] := by
      rw [List.filter_eq_nil_iff]
      intro i hi
      have hge : n ≤ i ∧ i < 64 := by
        rcases List.mem_cons.mp hi with rfl | hi
        · exact ⟨le_refl _, hn⟩
        · rw [List.mem_range'_1] at hi
          omega
      rw [BitVec.getLsbD_and, getLsbD_lowMask hge.2]
      simp [Nat.not_lt.mpr hge.1]
    rw [hlow, hhigh, List.length_nil, Nat.add_zero]
  rw [hcount]
  unfold wordBits
  rw [hsplit, List.filter_append, List.filter_cons_of_pos h,
    List.getElem?_append_right (le_refl _), Nat.sub_self]
  rfl

/-- **The place of an id in the scan**: the ids of the words before, and the bits below. -/
theorem iterSetBits_getElem {bits : Bits} {id : ℕ} (h : hasBit bits id = true) :
    (iterSetBits bits)[popcount (bits.take (id / 64)) +
      countOnes (bits.getD (id / 64) 0 &&& lowMask (id % 64))]? = some id := by
  have hlen : id / 64 < bits.length := by
    unfold hasBit at h
    simp only [Bool.and_eq_true, decide_eq_true_eq] at h
    exact h.1
  rw [hasBit_eq] at h
  have hsplit : bits = bits.take (id / 64) ++
      (bits.getD (id / 64) 0 :: bits.drop (id / 64 + 1)) := by
    rw [List.getD_eq_getElem _ _ hlen, List.getElem_cons_drop, List.take_append_drop]
  have hplace := wordBits_getElem (Nat.mod_lt id (by decide)) h
  have hbound := (List.getElem?_eq_some_iff.mp hplace).1
  have htake : (bits.take (id / 64)).length = id / 64 := by
    rw [List.length_take]
    omega
  generalize bits.getD (id / 64) 0 = w at *
  generalize bits.take (id / 64) = front at *
  rw [hsplit, iterSetBits_append, ← length_iterSetBits, List.getElem?_append_right (by omega),
    Nat.add_sub_cancel_left, List.getElem?_map, iterSetBits_cons,
    List.getElem?_append_left hbound, hplace, htake]
  show some (id / 64 * 64 + id % 64) = some id
  rw [Nat.div_add_mod']

/-! ## 2. Stored sets -/

/-- A set of ids: sparse below `sparseThreshold`, dense from there on. -/
inductive HybridEffectSet where
  /-- Ascending ids. -/
  | sparse (ids : List ℕ)
  /-- Words, the count of ids before every `rankLutBlock`-th word, and the number of ids. -/
  | dense (words : Bits) (rankLut : List ℕ) (cardinality : ℕ)
  deriving DecidableEq, Repr

def sparseThreshold : ℕ := 256

def rankLutBlock : ℕ := 8

/-- `binary_search` on an ascending list. -/
def binarySearch (ids : List ℕ) (id : ℕ) : Option ℕ := ids.idxOf? id

theorem binarySearch_eq_some {ids : List ℕ} (h : ids.Pairwise (· < ·)) {id k : ℕ} :
    binarySearch ids id = some k ↔ ids[k]? = some id := by
  have hnodup : ids.Nodup := h.imp Nat.ne_of_lt
  unfold binarySearch
  rw [List.idxOf?_eq_some_iff, List.getElem?_eq_some_iff]
  refine ⟨fun ⟨hk, hget, _⟩ => ⟨hk, hget⟩, fun ⟨hk, hget⟩ => ⟨hk, hget, fun j hj => ?_⟩⟩
  intro heq
  have hjk := (List.Nodup.getElem_inj_iff hnodup).mp (heq.trans hget.symm)
  omega

/-- The words a frozen universe has room for, the last one masked. -/
def canonicalWords (bits : Bits) (frozenLen : ℕ) : Bits :=
  let nWords := (frozenLen + 63) / 64
  let words := growTo (bits.take nWords) nWords
  let tail := frozenLen % 64
  if tail ≠ 0 ∧ 0 < nWords then words.modify (nWords - 1) (· &&& lowMask tail) else words

/-- The running counts behind each block of words. -/
def rankLutLoop (acc : ℕ) (words : Bits) : List ℕ :=
  if words = [] then []
  else
    let acc := acc + popcount (words.take rankLutBlock)
    acc :: rankLutLoop acc (words.drop rankLutBlock)
termination_by words.length
decreasing_by
  have hpos : 0 < words.length := List.length_pos_of_ne_nil (by assumption)
  rw [List.length_drop]
  unfold rankLutBlock
  omega

def buildRankLut (words : Bits) : List ℕ := 0 :: rankLutLoop 0 words

namespace HybridEffectSet

def fromBits (bits : Bits) (frozenLen : ℕ) : HybridEffectSet :=
  let words := canonicalWords bits frozenLen
  let card := popcount words
  if card < sparseThreshold then sparse (iterSetBits words)
  else dense words (buildRankLut words) card

def card : HybridEffectSet → ℕ
  | sparse ids => ids.length
  | dense _ _ cardinality => cardinality

def contains (s : HybridEffectSet) (id : ℕ) : Bool :=
  match s with
  | sparse ids => (binarySearch ids id).isSome
  | dense words _ _ => hasBit words id

/-- The ids, ascending. -/
def iter : HybridEffectSet → List ℕ
  | sparse ids => ids
  | dense words _ _ => iterSetBits words

/-- The place of an id in the ids; `rank_lut` has an entry for every block there is. -/
def ordinalOf (s : HybridEffectSet) (id : ℕ) : Option ℕ :=
  match s with
  | sparse ids => binarySearch ids id
  | dense words rankLut _ =>
    if hasBit words id then
      let word := id / 64
      let block := word / rankLutBlock
      let ord := rankLut.getD block 0
      let ord := ord + popcount ((words.take word).drop (block * rankLutBlock))
      let below := words.getD word 0 &&& lowMask (id % 64)
      some (ord + countOnes below)
    else none

end HybridEffectSet

/-! ## 3. What freezing keeps -/

theorem popcount_append (a b : Bits) : popcount (a ++ b) = popcount a + popcount b := by
  simp [popcount]

/-- **A frozen set has the ids below the universe's length.** -/
theorem hasBit_canonicalWords (bits : Bits) (frozenLen id : ℕ) :
    hasBit (canonicalWords bits frozenLen) id = (decide (id < frozenLen) && hasBit bits id) := by
  have hwords : ∀ n, (growTo (bits.take ((frozenLen + 63) / 64)) ((frozenLen + 63) / 64)).getD n 0 =
      if n < (frozenLen + 63) / 64 then bits.getD n 0 else 0 := by
    intro n
    rw [getD_growTo]
    split
    · rename_i hn
      simp [List.getD_eq_getElem?_getD, hn]
    · rename_i hn
      simp [List.getD_eq_getElem?_getD, hn]
  have hlen : (growTo (bits.take ((frozenLen + 63) / 64)) ((frozenLen + 63) / 64)).length =
      (frozenLen + 63) / 64 := by
    rw [length_growTo, List.length_take]
    omega
  have hmod : id % 64 < 64 := Nat.mod_lt _ (by decide)
  rw [hasBit_eq, hasBit_eq]
  unfold canonicalWords
  dsimp only
  generalize growTo (bits.take ((frozenLen + 63) / 64)) ((frozenLen + 63) / 64) = words at *
  by_cases htail : frozenLen % 64 ≠ 0 ∧ 0 < (frozenLen + 63) / 64
  · rw [if_pos htail]
    by_cases hlast : id / 64 = (frozenLen + 63) / 64 - 1
    · -- The last word, masked.
      have hin : (frozenLen + 63) / 64 - 1 < words.length := by omega
      have hget : (words.modify ((frozenLen + 63) / 64 - 1) (· &&& lowMask (frozenLen % 64))).getD
          ((frozenLen + 63) / 64 - 1) 0 =
          words.getD ((frozenLen + 63) / 64 - 1) 0 &&& lowMask (frozenLen % 64) := by
        rw [List.getD_eq_getElem _ _ (by rwa [List.length_modify]), List.getElem_modify_eq,
          List.getD_eq_getElem _ _ hin]
      rw [hlast, hget, BitVec.getLsbD_and, getLsbD_lowMask hmod, hwords,
        if_pos (by omega : (frozenLen + 63) / 64 - 1 < _), ← hlast, Bool.and_comm]
      congr 1
      rw [decide_eq_decide]
      omega
    · have hget : (words.modify ((frozenLen + 63) / 64 - 1) (· &&& lowMask (frozenLen % 64))).getD
          (id / 64) 0 = words.getD (id / 64) 0 := by
        simp only [List.getD_eq_getElem?_getD]
        rw [List.getElem?_modify_ne _ _ (Ne.symm hlast)]
      rw [hget, hwords]
      split
      · have hlt : id < frozenLen := by omega
        simp [hlt]
      · have hge : ¬ id < frozenLen := by omega
        simp [hge]
  · rw [if_neg htail, hwords]
    split
    · have hlt : id < frozenLen := by omega
      simp [hlt]
    · have hge : ¬ id < frozenLen := by omega
      simp [hge]

/-- **The running counts**: before block `b` are the ids of the words in front of it. -/
theorem rankLut_getElem (b : ℕ) : ∀ (acc : ℕ) (words : Bits), b * rankLutBlock ≤ words.length →
    (acc :: rankLutLoop acc words)[b]? = some (acc + popcount (words.take (b * rankLutBlock))) := by
  induction b with
  | zero =>
    intro acc words _
    simp [popcount]
  | succ b ih =>
    intro acc words hlen
    have hlong : b * rankLutBlock + rankLutBlock ≤ words.length := by
      rwa [Nat.succ_mul] at hlen
    have hne : words ≠ [] := by
      rintro rfl
      exact absurd hlong (by simp [rankLutBlock])
    have hrest : b * rankLutBlock ≤ (words.drop rankLutBlock).length := by
      rw [List.length_drop]
      omega
    have htake : words.take ((b + 1) * rankLutBlock) =
        words.take rankLutBlock ++ (words.drop rankLutBlock).take (b * rankLutBlock) := by
      rw [Nat.succ_mul, Nat.add_comm, List.take_add]
    rw [List.getElem?_cons_succ, rankLutLoop, if_neg hne]
    dsimp only
    rw [ih _ _ hrest, htake, popcount_append, Nat.add_assoc]

/-! ## 4. What a stored set says -/

namespace HybridEffectSet

/-- The parts of a stored set fit together. -/
def Valid : HybridEffectSet → Prop
  | sparse ids => ids.Pairwise (· < ·)
  | dense words rankLut cardinality =>
    rankLut = buildRankLut words ∧ cardinality = popcount words

theorem fromBits_valid (bits : Bits) (frozenLen : ℕ) : (fromBits bits frozenLen).Valid := by
  unfold fromBits
  dsimp only
  split
  · exact iterSetBits_pairwise _
  · exact ⟨rfl, rfl⟩

theorem iter_fromBits (bits : Bits) (frozenLen : ℕ) :
    (fromBits bits frozenLen).iter = iterSetBits (canonicalWords bits frozenLen) := by
  unfold fromBits
  dsimp only
  split <;> rfl

/-- Freezing loses nothing of a set the universe covers. -/
theorem iter_fromBits_of_covered {bits : Bits} {frozenLen : ℕ}
    (h : ∀ id ∈ iterSetBits bits, id < frozenLen) :
    (fromBits bits frozenLen).iter = iterSetBits bits := by
  rw [iter_fromBits]
  refine iterSetBits_congr fun n => ?_
  rw [hasBit_canonicalWords]
  cases hn : hasBit bits n with
  | false => simp
  | true =>
    have hlt := h n ((mem_iterSetBits bits n).mpr hn)
    simp [hlt]

variable {s : HybridEffectSet}

theorem iter_pairwise (hs : s.Valid) : s.iter.Pairwise (· < ·) := by
  cases s with
  | sparse ids => exact hs
  | dense words rankLut cardinality => exact iterSetBits_pairwise words

theorem card_eq (hs : s.Valid) : s.card = s.iter.length := by
  cases s with
  | sparse ids => rfl
  | dense words rankLut cardinality => exact hs.2.trans (length_iterSetBits words).symm

/-- The ordinal of an id of a dense set, off the table and two counts. -/
theorem dense_ordinalOf {words : Bits} {cardinality id : ℕ} (hbit : hasBit words id = true) :
    (dense words (buildRankLut words) cardinality).ordinalOf id =
      some (popcount (words.take (id / 64)) +
        countOnes (words.getD (id / 64) 0 &&& lowMask (id % 64))) := by
  have hlen : id / 64 < words.length := by
    unfold hasBit at hbit
    simp only [Bool.and_eq_true, decide_eq_true_eq] at hbit
    exact hbit.1
  have hblock : id / 64 / rankLutBlock * rankLutBlock ≤ id / 64 := Nat.div_mul_le_self _ _
  have hlut := rankLut_getElem (id / 64 / rankLutBlock) 0 words (by omega)
  have hfront : popcount (words.take (id / 64 / rankLutBlock * rankLutBlock)) +
      popcount ((words.take (id / 64)).drop (id / 64 / rankLutBlock * rankLutBlock)) =
      popcount (words.take (id / 64)) := by
    rw [← popcount_append]
    congr 1
    have htake := List.take_append_drop (id / 64 / rankLutBlock * rankLutBlock)
      (words.take (id / 64))
    rwa [List.take_take, Nat.min_eq_left hblock] at htake
  rw [ordinalOf, if_pos hbit]
  dsimp only
  rw [buildRankLut, List.getD_eq_getElem?_getD, hlut, Option.getD_some, Nat.zero_add, hfront]

/-- **The ordinal of an id is its place in the ids**, for both kinds of set. -/
theorem ordinalOf_eq_some (hs : s.Valid) (id k : ℕ) :
    s.ordinalOf id = some k ↔ s.iter[k]? = some id := by
  cases s with
  | sparse ids => exact binarySearch_eq_some hs
  | dense words rankLut cardinality =>
    obtain ⟨rfl, -⟩ := hs
    have hnodup : (iterSetBits words).Nodup := (iterSetBits_pairwise words).imp Nat.ne_of_lt
    show _ ↔ (iterSetBits words)[k]? = some id
    by_cases hbit : hasBit words id = true
    · have hplace := iterSetBits_getElem hbit
      rw [dense_ordinalOf hbit, Option.some_inj]
      constructor
      · rintro rfl
        exact hplace
      · intro h
        obtain ⟨hlt, heq⟩ := List.getElem?_eq_some_iff.mp h
        obtain ⟨hlt', heq'⟩ := List.getElem?_eq_some_iff.mp hplace
        exact (List.Nodup.getElem_inj_iff hnodup).mp (heq'.trans heq.symm)
    · rw [ordinalOf, if_neg hbit]
      refine ⟨fun h => absurd h.symm (Option.some_ne_none k), fun h => ?_⟩
      exact absurd ((mem_iterSetBits words id).mp (List.mem_of_getElem? h)) hbit

/-- Membership is read off both kinds of set. -/
theorem contains_iff (hs : s.Valid) (id : ℕ) : s.contains id = true ↔ id ∈ s.iter := by
  cases s with
  | sparse ids => exact List.isSome_idxOf?
  | dense words rankLut cardinality => exact (mem_iterSetBits words id).symm

end HybridEffectSet

end AlSem.L4
