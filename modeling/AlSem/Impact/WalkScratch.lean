/-
# The visited set

What a scratch holds as visited, dense bits and hash set taken together (`Has`).  Marking a state
adds it and nothing else (`insert_spec`), and a reset leaves nothing of an earlier walk, whatever
the size of its graph and wherever it was cut (`reset_spec`): all that is asked of the scratch is
that every word that is set is on the reset list (`Clean`).
-/
import AlSem.Impact.ReverseWalk

namespace AlSem.Impact

/-! ## 1. The bits of a word -/

theorem Tier.rank_lt (t : Tier) : t.rank < 3 := by cases t <;> decide

theorem Tier.rank_inj {a b : Tier} (h : a.rank = b.rank) : a = b := by
  cases a <;> cases b <;> first | rfl | (simp [Tier.rank] at h)

theorem denseBit_lt {s : WalkState} (h : s.isDense = true) : denseBit s < 64 := by
  have hext : s.ext.toNat < 8 := by
    simp only [WalkState.isDense, Bool.and_eq_true, decide_eq_true_eq] at h
    exact h.1
  have htier := s.tier.rank_lt
  have hcrossed := Bool.toNat_lt s.crossedEvent
  unfold denseBit
  omega

/-- **The bits tell the dense states of a node apart.** -/
theorem denseBit_inj {s t : WalkState} (hs : s.isDense = true) (ht : t.isDense = true)
    (hnode : s.node = t.node) (h : denseBit s = denseBit t) : s = t := by
  simp only [WalkState.isDense, Bool.and_eq_true, decide_eq_true_eq, beq_iff_eq] at hs ht
  have htier := s.tier.rank_lt
  have htier' := t.tier.rank_lt
  have hcrossed := Bool.toNat_lt s.crossedEvent
  have hcrossed' := Bool.toNat_lt t.crossedEvent
  unfold denseBit at h
  have hext : s.ext.toNat = t.ext.toNat := by omega
  have hrank : s.tier.rank = t.tier.rank := by omega
  have hflag : s.crossedEvent.toNat = t.crossedEvent.toNat := by omega
  have hevent : s.crossedEvent = t.crossedEvent := by
    revert hflag
    cases s.crossedEvent <;> cases t.crossedEvent <;> decide
  cases s
  cases t
  simp only at hnode hs ht hext hrank hevent
  obtain rfl := UInt8.toNat.inj hext
  obtain rfl := Tier.rank_inj hrank
  rw [hnode, hevent, hs.2, ht.2]

/-- A word has the bit. -/
theorem and_twoPow_ne_zero {w : BitVec 64} {k : ℕ} (hk : k < 64) :
    w &&& BitVec.twoPow 64 k ≠ 0 ↔ w.getLsbD k = true := by
  rw [BitVec.and_twoPow]
  cases hb : w.getLsbD k with
  | false => simp
  | true =>
    simp only [if_true, iff_true]
    intro hz
    have hbit := congrArg (fun v : BitVec 64 => v.getLsbD k) hz
    simp [hk] at hbit

namespace WalkScratch

/-! ## 2. What is visited -/

/-- **The state is visited**: its bit is set, or it is in the hash set. -/
def Has (sc : WalkScratch) (s : WalkState) : Prop :=
  if s.isDense then (sc.seen.getD s.node 0).getLsbD (denseBit s) = true else s ∈ sc.seenExt

/-- **Every word that is set is on the reset list.** -/
def Clean (sc : WalkScratch) : Prop := ∀ n, sc.seen.getD n 0 ≠ 0 → n ∈ sc.touched

/-- Everything but the visited set is the same. -/
structure SameQueues (sc sc' : WalkScratch) : Prop where
  words : sc'.seen.length = sc.seen.length
  actionEntries : sc'.actionEntries = sc.actionEntries
  hiddenDone : sc'.hiddenDone = sc.hiddenDone
  level : sc'.level = sc.level
  next : sc'.next = sc.next

theorem getD_set (seen : List (BitVec 64)) (n k : ℕ) (w : BitVec 64) :
    (seen.set n w).getD k 0 = if n = k ∧ n < seen.length then w else seen.getD k 0 := by
  rw [List.getD_eq_getElem?_getD, List.getElem?_set, List.getD_eq_getElem?_getD]
  by_cases hnk : n = k
  · subst hnk
    by_cases hlt : n < seen.length
    · simp [hlt]
    · simp [hlt]
  · simp [hnk]

/-- **Marking a state** adds it, and says whether it was new. -/
theorem insert_spec (sc : WalkScratch) {s : WalkState} (hs : s.node < sc.seen.length) :
    ((sc.insert s).2 = true ↔ ¬ sc.Has s) ∧ (∀ t, (sc.insert s).1.Has t ↔ sc.Has t ∨ t = s) ∧
      SameQueues sc (sc.insert s).1 := by
  unfold insert
  by_cases hd : s.isDense = true
  · have hk := denseBit_lt hd
    have hbit := @and_twoPow_ne_zero (sc.seen.getD s.node 0) _ hk
    have hhas : sc.Has s ↔ (sc.seen.getD s.node 0).getLsbD (denseBit s) = true := by
      unfold Has
      rw [if_pos hd]
    simp only [hd, if_true]
    by_cases hset : sc.seen.getD s.node 0 &&& BitVec.twoPow 64 (denseBit s) ≠ 0
    · have hin := hhas.mpr (hbit.mp hset)
      rw [if_pos hset]
      refine ⟨by simp [hin], fun t => ⟨Or.inl, ?_⟩, ⟨rfl, rfl, rfl, rfl, rfl⟩⟩
      rintro (h | rfl)
      · exact h
      · exact hin
    · have hout : ¬ sc.Has s := fun h => hset (hbit.mpr (hhas.mp h))
      rw [if_neg hset]
      refine ⟨by simp [hout], fun t => ?_, ⟨List.length_set, rfl, rfl, rfl, rfl⟩⟩
      unfold Has
      by_cases ht : t.isDense = true
      · simp only [ht, if_true, getD_set]
        by_cases hnode : s.node = t.node
        · rw [if_pos ⟨hnode, hs⟩, BitVec.getLsbD_or, BitVec.getLsbD_twoPow, ← hnode, Bool.or_eq_true]
          refine or_congr Iff.rfl ⟨fun h => ?_, ?_⟩
          · have heq : denseBit s = denseBit t := by
              rw [Bool.and_eq_true, decide_eq_true_eq, decide_eq_true_eq] at h
              exact h.2
            exact (denseBit_inj hd ht hnode heq).symm
          · rintro rfl
            simp [hk]
        · rw [if_neg fun h => hnode h.1]
          refine ⟨Or.inl, ?_⟩
          rintro (h | rfl)
          · exact h
          · exact absurd rfl hnode
      · simp only [ht, Bool.false_eq_true, if_false]
        refine ⟨Or.inl, ?_⟩
        rintro (h | rfl)
        · exact h
        · exact absurd hd ht
  · have hhas : sc.Has s ↔ s ∈ sc.seenExt := by
      unfold Has
      rw [if_neg hd]
    rw [if_neg hd]
    by_cases hin : s ∈ sc.seenExt
    · rw [if_pos (List.contains_iff_mem.mpr hin)]
      refine ⟨by simp [hhas.mpr hin], fun t => ⟨Or.inl, ?_⟩, ⟨rfl, rfl, rfl, rfl, rfl⟩⟩
      rintro (h | rfl)
      · exact h
      · exact hhas.mpr hin
    · rw [if_neg fun h => hin (List.contains_iff_mem.mp h)]
      refine ⟨by simp [hhas, hin], fun t => ?_, ⟨rfl, rfl, rfl, rfl, rfl⟩⟩
      unfold Has
      by_cases ht : t.isDense = true
      · simp only [ht, if_true]
        refine ⟨Or.inl, ?_⟩
        rintro (h | rfl)
        · exact h
        · exact absurd ht hd
      · simp only [ht, Bool.false_eq_true, if_false, List.mem_cons]
        exact or_comm

/-- Marking a state keeps the reset list. -/
theorem insert_clean {sc : WalkScratch} (h : sc.Clean) (s : WalkState) : (sc.insert s).1.Clean := by
  unfold insert
  split
  · dsimp only
    split
    · exact h
    · intro n hn
      replace hn : (sc.seen.set s.node _).getD n 0 ≠ 0 := hn
      rw [getD_set] at hn
      show n ∈ if sc.seen.getD s.node 0 = 0 then sc.touched ++ [s.node] else sc.touched
      by_cases hnode : s.node = n
      · subst hnode
        split
        · simp
        · rename_i hne
          exact h _ hne
      · rw [if_neg fun h => hnode h.1] at hn
        split
        · exact List.mem_append_left _ (h n hn)
        · exact h n hn
  · split <;> exact h

/-! ## 3. The reset -/

theorem foldl_set_zero (touched : List ℕ) : ∀ seen : List (BitVec 64),
    (touched.foldl (fun seen n => seen.set n 0) seen).length = seen.length ∧
      ∀ k, (touched.foldl (fun seen n => seen.set n 0) seen).getD k 0 =
        if k ∈ touched then 0 else seen.getD k 0 := by
  induction touched with
  | nil => intro seen; simp
  | cons n touched ih =>
    intro seen
    obtain ⟨hlen, hget⟩ := ih (seen.set n 0)
    refine ⟨by rw [List.foldl_cons, hlen, List.length_set], fun k => ?_⟩
    rw [List.foldl_cons, hget, getD_set]
    by_cases hk : k ∈ touched
    · simp [hk]
    · by_cases hnk : n = k
      · subst hnk
        by_cases hlt : n < seen.length
        · simp [hlt]
        · simp [hlt]
      · simp [hk, hnk, Ne.symm hnk]

/-- **After a reset nothing is visited**, for a graph of any size. -/
theorem reset_spec {sc : WalkScratch} (h : sc.Clean) (nodes : ℕ) :
    (sc.reset nodes).seen.length = nodes ∧ (∀ s, ¬ (sc.reset nodes).Has s) ∧
      (sc.reset nodes).Clean := by
  have hwords : (sc.reset nodes).seen.length = nodes ∧
      ∀ k, (sc.reset nodes).seen.getD k 0 = 0 := by
    unfold reset
    dsimp only
    split
    · refine ⟨List.length_replicate, fun k => ?_⟩
      rw [List.getD_eq_getElem?_getD, List.getElem?_replicate]
      split <;> rfl
    · rename_i hlen
      obtain ⟨hlen', hget⟩ := foldl_set_zero sc.touched sc.seen
      refine ⟨hlen'.trans (not_not.mp hlen), fun k => ?_⟩
      rw [hget]
      split
      · rfl
      · rename_i hk
        exact not_not.mp fun hne => hk (h k hne)
  refine ⟨hwords.1, fun s => ?_, fun n hn => absurd (hwords.2 n) hn⟩
  unfold Has
  split
  · rw [hwords.2]
    simp
  · exact List.not_mem_nil

end WalkScratch

end AlSem.Impact
