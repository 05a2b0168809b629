/-
# Breadth-first search

The search of a labelled graph from one seed.  The list of the states found is its own queue;
each state carries its distance and the links it was reached by, every one of them, a link being
the index of the state it came from and the index of the label it crossed in a table that holds
each label once.

`run_spec`: when the states stay in a finite set the search ends, and what it found is exactly
what is reachable, at its shortest distance, with exactly the crossings between found states as
links.
-/
import AlSem.Lib.Loop
import Mathlib.Data.Finset.Card
import Mathlib.Data.Finset.Dedup
import Mathlib.Data.List.GetD
import Mathlib.Data.Nat.Find

namespace Bfs

variable {α L : Type*}

/-- Reached from state `callee` across label `label`. -/
structure Link where
  callee : ℕ
  label : ℕ
  deriving DecidableEq, Repr

/-- The states found with their distances, the links of each, the labels, and the next state to
expand. -/
structure Search (α L : Type*) where
  found : List (α × ℕ)
  links : List (List Link)
  labels : List L
  next : ℕ

namespace Search

/-- The states found. -/
def keys (s : Search α L) : List α := s.found.map Prod.fst

end Search

section Run

variable [DecidableEq α] [DecidableEq L]

/-- A label's index in a table, the next one on first sight. -/
def indexOf (labels : List L) (l : L) : List L × ℕ :=
  if l ∈ labels then (labels, labels.idxOf l) else (labels ++ [l], labels.length)

/-- The state `b`, found at distance `d` unless it was found before. -/
def discover (d : ℕ) (s : Search α L) (b : α) : Search α L :=
  if b ∈ s.keys then s else { s with found := s.found ++ [(b, d)], links := s.links ++ [[]] }

/-- Cross one label out of state `i`: discover the target and add the link. -/
def cross (i d : ℕ) (s : Search α L) (o : L × α) : Search α L :=
  let s := discover d s o.2
  let (labels, label) := indexOf s.labels o.1
  { s with labels, links := s.links.modify (s.keys.idxOf o.2) (· ++ [⟨i, label⟩]) }

/-- Expand the next state. -/
def step (succ : α → List (L × α)) (s : Search α L) : Option (Search α L) :=
  match s.found[s.next]? with
  | none => none
  | some (a, d) => some { (succ a).foldl (cross s.next (d + 1)) s with next := s.next + 1 }

/-- Before anything is expanded. -/
def initial (seed : α) : Search α L :=
  { found := [(seed, 0)], links := [[]], labels := [], next := 0 }

/-- The whole search. -/
def run (succ : α → List (L × α)) (fuel : ℕ) (seed : α) : Option (Search α L) :=
  Loop.run (step succ) fuel (initial seed)

/-! ## 1. Walks and distances -/

/-- A walk of `n` crossings from the seed. -/
inductive Walk (succ : α → List (L × α)) (seed : α) : ℕ → α → Prop
  | seed : Walk succ seed 0 seed
  | step {n : ℕ} {a b : α} {l : L} : Walk succ seed n a → (l, b) ∈ succ a → Walk succ seed (n + 1) b

/-- `n` is the distance of `a` from the seed. -/
def IsDist (succ : α → List (L × α)) (seed : α) (n : ℕ) (a : α) : Prop :=
  Walk succ seed n a ∧ ∀ m, Walk succ seed m a → n ≤ m

/-- What a finished search holds. -/
structure Solved (succ : α → List (L × α)) (seed : α) (s : Search α L) : Prop where
  nodup : s.keys.Nodup
  lengths : s.links.length = s.found.length
  dist : ∀ a n, (a, n) ∈ s.found ↔ IsDist succ seed n a
  head : s.found[0]? = some (seed, 0)
  labels : s.labels.Nodup
  link : ∀ j b, s.keys[j]? = some b → ∀ k, k ∈ s.links.getD j [] ↔
    ∃ a l, s.keys[k.callee]? = some a ∧ s.labels[k.label]? = some l ∧ (l, b) ∈ succ a
  used : ∀ l, l ∈ s.labels ↔ ∃ a b, a ∈ s.keys ∧ (l, b) ∈ succ a

omit [DecidableEq α] [DecidableEq L] in
/-- What a walk reaches has a distance. -/
theorem exists_isDist {succ : α → List (L × α)} {seed a : α} {n : ℕ} (h : Walk succ seed n a) :
    ∃ m, IsDist succ seed m a := by
  classical
  have hex : ∃ n, Walk succ seed n a := ⟨n, h⟩
  exact ⟨Nat.find hex, Nat.find_spec hex, fun m hm => Nat.find_min' hex hm⟩

omit [DecidableEq α] [DecidableEq L] in
/-- **Walks agree** where the crossings out of what is walked agree, labels apart. -/
theorem Walk.transfer {L' : Type*} {succ : α → List (L × α)} {succ' : α → List (L' × α)} {seed : α}
    (hcross : ∀ n a, Walk succ seed n a → ∀ l b, (l, b) ∈ succ a → ∃ l', (l', b) ∈ succ' a) {n : ℕ}
    {a : α} (h : Walk succ seed n a) : Walk succ' seed n a := by
  induction h with
  | seed => exact .seed
  | step hw hl ih =>
    obtain ⟨l', hl'⟩ := hcross _ _ hw _ _ hl
    exact .step ih hl'

omit [DecidableEq α] [DecidableEq L] in
/-- A crossing out of what was found leads to what was found. -/
theorem Solved.mem_of_succ {succ : α → List (L × α)} {seed : α} {s : Search α L}
    (h : Solved succ seed s) {a b : α} {l : L} (ha : a ∈ s.keys) (hb : (l, b) ∈ succ a) :
    b ∈ s.keys := by
  obtain ⟨⟨a', n⟩, hmem, rfl⟩ := List.mem_map.mp ha
  obtain ⟨m, hm⟩ := exists_isDist (.step ((h.dist _ _).mp hmem).1 hb)
  exact List.mem_map.mpr ⟨(b, m), (h.dist _ _).mpr hm, rfl⟩

/-! ## 2. The crossings made so far -/

/-- The links say exactly which crossings `C i l b` (out of state `i`, across `l`, into `b`) were
made. -/
structure Crossed (s : Search α L) (C : ℕ → L → α → Prop) : Prop where
  nodup : s.keys.Nodup
  lengths : s.links.length = s.found.length
  labels : s.labels.Nodup
  target : ∀ i l b, C i l b → b ∈ s.keys
  used : ∀ l, l ∈ s.labels ↔ ∃ i b, C i l b
  link : ∀ j b, s.keys[j]? = some b → ∀ k, k ∈ s.links.getD j [] ↔
    ∃ l, s.labels[k.label]? = some l ∧ C k.callee l b

omit [DecidableEq α] [DecidableEq L] in
theorem Crossed.congr {s : Search α L} {C C' : ℕ → L → α → Prop} (h : Crossed s C)
    (hC : ∀ i l b, C' i l b ↔ C i l b) : Crossed s C' := by
  have heq : C' = C := by
    funext i l b
    exact propext (hC i l b)
  rw [heq]
  exact h

omit [DecidableEq L] in
/-- A discovery appends the state, at the distance given, when it is new. -/
theorem discover_spec {s : Search α L} {C : ℕ → L → α → Prop} (h : Crossed s C) (d : ℕ) (b : α) :
    Crossed (discover d s b) C ∧ b ∈ (discover d s b).keys ∧ (discover d s b).next = s.next ∧
      ∃ ext, (discover d s b).found = s.found ++ ext ∧ ∀ p ∈ ext, p = (b, d) := by
  unfold discover
  split
  · rename_i hb
    exact ⟨h, hb, rfl, [], by simp, by simp⟩
  · rename_i hb
    have hkeys : ({ s with found := s.found ++ [(b, d)], links := s.links ++ [[]] } :
        Search α L).keys = s.keys ++ [b] := by simp [Search.keys]
    have hlen : s.links.length = s.keys.length := by rw [h.lengths]; simp [Search.keys]
    refine ⟨⟨?_, by simp [h.lengths], h.labels, fun i l c hc => ?_, h.used, fun j c hj k => ?_⟩,
      by rw [hkeys]; simp, rfl, [(b, d)], rfl, by simp⟩
    · rw [hkeys]
      refine List.nodup_append.mpr ⟨h.nodup, by simp, ?_⟩
      rintro a ha c hc rfl
      rw [List.mem_singleton] at hc
      exact hb (hc ▸ ha)
    · rw [hkeys]
      exact List.mem_append_left _ (h.target i l c hc)
    · rw [hkeys] at hj
      by_cases hlt : j < s.keys.length
      · rw [List.getElem?_append_left hlt] at hj
        show k ∈ (s.links ++ [[]]).getD j [] ↔ _
        rw [List.getD_append _ _ _ _ (by omega)]
        exact h.link j c hj k
      · rw [List.getElem?_append_right (by omega)] at hj
        have hjlt := (List.getElem?_eq_some_iff.mp hj).1
        simp only [List.length_singleton] at hjlt
        obtain rfl : j = s.keys.length := by omega
        simp only [Nat.sub_self, List.getElem?_cons_zero, Option.some.injEq] at hj
        subst hj
        show k ∈ (s.links ++ [[]]).getD s.keys.length [] ↔ _
        rw [List.getD_append_right _ _ _ _ (by omega), hlen, Nat.sub_self]
        constructor
        · intro hk
          simp at hk
        · rintro ⟨l, -, hC⟩
          exact absurd (h.target _ _ _ hC) hb

theorem indexOf_spec {labels : List L} (hnd : labels.Nodup) (l : L) :
    (indexOf labels l).1.Nodup ∧ (indexOf labels l).1[(indexOf labels l).2]? = some l ∧
      ∃ ext, (indexOf labels l).1 = labels ++ ext ∧ ∀ x ∈ ext, x = l := by
  unfold indexOf
  split
  · rename_i hl
    have hlt := List.idxOf_lt_length_of_mem hl
    exact ⟨hnd, by rw [List.getElem?_eq_getElem hlt, List.getElem_idxOf hlt], [], by simp, by simp⟩
  · rename_i hl
    refine ⟨List.nodup_append.mpr ⟨hnd, by simp, ?_⟩, by simp, [l], rfl, by simp⟩
    rintro a ha c hc rfl
    rw [List.mem_singleton] at hc
    exact hl (hc ▸ ha)

omit [DecidableEq L] in
/-- Growing a table changes no old label's index. -/
theorem getElem?_grown {labels ext : List L} (hnd : (labels ++ ext).Nodup) {l : L}
    (hl : l ∈ labels) (e : ℕ) : (labels ++ ext)[e]? = some l ↔ labels[e]? = some l := by
  constructor
  · intro he
    by_cases hlt : e < labels.length
    · rwa [List.getElem?_append_left hlt] at he
    · rw [List.getElem?_append_right (by omega)] at he
      exact absurd rfl ((List.nodup_append.mp hnd).2.2 l hl l (List.mem_of_getElem? he))
  · intro he
    rw [List.getElem?_append_left (List.getElem?_eq_some_iff.mp he).1]
    exact he

/-- Two places of one value are one place. -/
theorem index_unique {β : Type*} {l : List β} (hnd : l.Nodup) {i j : ℕ} {x : β}
    (hi : l[i]? = some x) (hj : l[j]? = some x) : i = j := by
  have hlt := (List.getElem?_eq_some_iff.mp hi).1
  exact (List.Nodup.getElem_inj_iff hnd).mp
    ((List.getElem?_eq_some_iff.mp hi).2.trans (List.getElem?_eq_some_iff.mp hj).2.symm)

/-- **One crossing** adds itself, and at most its target. -/
theorem cross_spec {s : Search α L} {C : ℕ → L → α → Prop} (h : Crossed s C) (i d : ℕ) (l : L)
    (b : α) :
    Crossed (cross i d s (l, b)) (fun i' l' b' => C i' l' b' ∨ i' = i ∧ l' = l ∧ b' = b) ∧
      (cross i d s (l, b)).next = s.next ∧
      ∃ ext, (cross i d s (l, b)).found = s.found ++ ext ∧ ∀ p ∈ ext, p = (b, d) := by
  obtain ⟨h₁, hb, hnext, ext, hext, hall⟩ := discover_spec h d b
  unfold cross
  dsimp only
  generalize discover d s b = s₁ at h₁ hb hnext hext
  obtain ⟨hnd, hget, lext, hlext, hlall⟩ := indexOf_spec h₁.labels l
  generalize indexOf s₁.labels l = r at hnd hget hlext
  obtain ⟨labels, label⟩ := r
  dsimp only at hnd hget hlext ⊢
  subst hlext
  have hbix : s₁.keys.idxOf b < s₁.keys.length := List.idxOf_lt_length_of_mem hb
  have hbat : s₁.keys[s₁.keys.idxOf b]? = some b := by
    rw [List.getElem?_eq_getElem hbix, List.getElem_idxOf hbix]
  have hlen : s₁.links.length = s₁.keys.length := by rw [h₁.lengths]; simp [Search.keys]
  refine ⟨⟨h₁.nodup, by simpa using h₁.lengths, hnd, ?_, fun l' => ?_, fun j c hj k => ?_⟩, hnext,
    ext, hext, hall⟩
  · rintro i' l' b' (hC | ⟨-, -, rfl⟩)
    · exact h₁.target i' l' b' hC
    · exact hb
  · constructor
    · intro hl'
      rcases List.mem_append.mp hl' with hl' | hl'
      · obtain ⟨i', b', hC⟩ := (h₁.used l').mp hl'
        exact ⟨i', b', Or.inl hC⟩
      · exact ⟨i, b, Or.inr ⟨rfl, hlall l' hl', rfl⟩⟩
    · rintro ⟨i', b', hC | ⟨-, rfl, -⟩⟩
      · exact List.mem_append_left _ ((h₁.used l').mpr ⟨i', b', hC⟩)
      · exact List.mem_of_getElem? hget
  · replace hj : s₁.keys[j]? = some c := hj
    have hjlt : j < s₁.links.length := by
      rw [hlen]
      exact (List.getElem?_eq_some_iff.mp hj).1
    -- what the links held before, read through the grown table
    have hbefore : k ∈ s₁.links.getD j [] ↔
        ∃ l', (s₁.labels ++ lext)[k.label]? = some l' ∧ C k.callee l' c := by
      rw [h₁.link j c hj k]
      refine exists_congr fun l' => and_congr_left fun hC => ?_
      exact (getElem?_grown hnd ((h₁.used l').mpr ⟨_, _, hC⟩) _).symm
    have hmodify : (s₁.links.modify (s₁.keys.idxOf b) (· ++ [⟨i, label⟩])).getD j [] =
        if j = s₁.keys.idxOf b then s₁.links.getD j [] ++ [⟨i, label⟩] else s₁.links.getD j [] := by
      rw [List.getD_eq_getElem?_getD, List.getElem?_modify, List.getD_eq_getElem?_getD,
        List.getElem?_eq_getElem hjlt]
      by_cases hjb : j = s₁.keys.idxOf b
      · simp [hjb]
      · simp [hjb, Ne.symm hjb]
    show k ∈ (s₁.links.modify (s₁.keys.idxOf b) (· ++ [⟨i, label⟩])).getD j [] ↔ _
    rw [hmodify]
    have hjb : j = s₁.keys.idxOf b ↔ c = b :=
      ⟨fun heq => by rw [heq, hbat] at hj; exact (Option.some.inj hj).symm,
        fun heq => index_unique h₁.nodup (heq ▸ hj) hbat⟩
    constructor
    · intro hk
      have hcases : k ∈ s₁.links.getD j [] ∨ c = b ∧ k = ⟨i, label⟩ := by
        split at hk
        · rename_i heq
          rcases List.mem_append.mp hk with hk | hk
          · exact Or.inl hk
          · exact Or.inr ⟨hjb.mp heq, List.mem_singleton.mp hk⟩
        · exact Or.inl hk
      rcases hcases with hk | ⟨rfl, rfl⟩
      · obtain ⟨l', hl', hC⟩ := hbefore.mp hk
        exact ⟨l', hl', Or.inl hC⟩
      · exact ⟨l, hget, Or.inr ⟨rfl, rfl, rfl⟩⟩
    · rintro ⟨l', hl', hC | ⟨hi, rfl, rfl⟩⟩
      · have hk := hbefore.mpr ⟨l', hl', hC⟩
        split
        · exact List.mem_append_left _ hk
        · exact hk
      · have hlab : k.label = label := index_unique hnd hl' hget
        have hk : k = ⟨i, label⟩ := by
          cases k
          simp only at hi hlab
          rw [hi, hlab]
        rw [if_pos (hjb.mpr rfl), hk]
        simp

/-- **One expansion** adds its crossings, and at most their targets, all at one distance. -/
theorem foldl_cross_spec (i d : ℕ) : ∀ (os : List (L × α)) {s : Search α L}
    {C : ℕ → L → α → Prop}, Crossed s C →
    Crossed (os.foldl (cross i d) s) (fun i' l b => C i' l b ∨ i' = i ∧ (l, b) ∈ os) ∧
      (os.foldl (cross i d) s).next = s.next ∧
      ∃ ext, (os.foldl (cross i d) s).found = s.found ++ ext ∧
        ∀ p ∈ ext, p.2 = d ∧ ∃ l, (l, p.1) ∈ os
  | [], s, C, h => ⟨h.congr (by simp), rfl, [], by simp, by simp⟩
  | (l, b) :: os, s, C, h => by
    obtain ⟨h₁, hnext₁, ext₁, hext₁, hall₁⟩ := cross_spec h i d l b
    obtain ⟨h₂, hnext₂, ext₂, hext₂, hall₂⟩ := foldl_cross_spec i d os h₁
    rw [List.foldl_cons]
    refine ⟨h₂.congr fun i' l' b' => ?_, hnext₂.trans hnext₁, ext₁ ++ ext₂,
      by rw [hext₂, hext₁, List.append_assoc], fun p hp => ?_⟩
    · simp only [List.mem_cons, Prod.mk.injEq]
      tauto
    · rcases List.mem_append.mp hp with hp | hp
      · obtain rfl := hall₁ p hp
        exact ⟨rfl, l, List.mem_cons_self⟩
      · obtain ⟨hd, l', hl'⟩ := hall₂ p hp
        exact ⟨hd, l', List.mem_cons_of_mem _ hl'⟩

/-! ## 3. The invariant -/

/-- What holds between two expansions. -/
structure Inv (succ : α → List (L × α)) (seed : α) (U : Finset α) (s : Search α L) : Prop where
  head : s.found[0]? = some (seed, 0)
  next : s.next ≤ s.found.length
  bound : ∀ a ∈ s.keys, a ∈ U
  walk : ∀ p ∈ s.found, Walk succ seed p.2 p.1
  mono : s.found.Pairwise fun p q => p.2 ≤ q.2
  window : ∀ p, s.found[s.next]? = some p → ∀ q ∈ s.found, q.2 ≤ p.2 + 1
  expanded : ∀ i, i < s.next → ∀ p, s.found[i]? = some p → ∀ l b, (l, b) ∈ succ p.1 →
    ∃ m, m ≤ p.2 + 1 ∧ (b, m) ∈ s.found
  crossed : Crossed s fun i l b => i < s.next ∧ ∃ a, s.keys[i]? = some a ∧ (l, b) ∈ succ a

variable {succ : α → List (L × α)} {seed : α} {U : Finset α}

omit [DecidableEq α] [DecidableEq L] in
theorem keys_getElem? {s : Search α L} {i : ℕ} {p : α × ℕ} (h : s.found[i]? = some p) :
    s.keys[i]? = some p.1 := by simp [Search.keys, h]

omit [DecidableEq L] in
theorem Inv.length_le {s : Search α L} (h : Inv succ seed U s) : s.found.length ≤ U.card := by
  have hlen : s.found.length = s.keys.length := by simp [Search.keys]
  rw [hlen, ← List.toFinset_card_of_nodup h.crossed.nodup]
  exact Finset.card_le_card fun a ha => h.bound a (List.mem_toFinset.mp ha)

omit [DecidableEq α] [DecidableEq L] in
theorem initial_inv (hseed : seed ∈ U) : Inv succ seed U (initial seed : Search α L) := by
  refine ⟨rfl, Nat.zero_le _, ?_, ?_, by simp [initial], ?_, ?_, ?_⟩
  · simpa [initial, Search.keys] using hseed
  · simpa [initial] using Walk.seed
  · simp [initial]
  · intro i hi
    exact absurd hi (Nat.not_lt_zero _)
  · refine ⟨by simp [initial, Search.keys], rfl, List.nodup_nil, ?_, ?_, ?_⟩
    · rintro i l b ⟨hi, -⟩
      exact absurd hi (Nat.not_lt_zero _)
    · intro l
      simp [initial]
    · intro j b hj k
      constructor
      · intro hk
        have hj0 : j = 0 := by
          have := (List.getElem?_eq_some_iff.mp hj).1
          simp only [initial, Search.keys, List.map_cons, List.map_nil, List.length_singleton] at this
          omega
        subst hj0
        simp [initial] at hk
      · rintro ⟨l, hl, -⟩
        simp [initial] at hl

/-- **Step**: expanding the next state keeps the invariant. -/
theorem step_inv (hU : ∀ a ∈ U, ∀ l b, (l, b) ∈ succ a → b ∈ U) {s s' : Search α L}
    (h : Inv succ seed U s) (hst : step succ s = some s') :
    Inv succ seed U s' ∧ s'.next = s.next + 1 := by
  unfold step at hst
  split at hst
  · simp at hst
  · rename_i a d hat
    obtain rfl := Option.some.inj hst
    obtain ⟨hcross, -, ext, hext, hall⟩ :=
      foldl_cross_spec s.next (d + 1) (succ a) h.crossed
    generalize (succ a).foldl (cross s.next (d + 1)) s = t at hcross hext
    have hlt : s.next < s.found.length := (List.getElem?_eq_some_iff.mp hat).1
    have hkeys : t.keys = s.keys ++ ext.map Prod.fst := by simp [Search.keys, hext]
    have hold : ∀ i, i ≤ s.next → t.found[i]? = s.found[i]? := by
      intro i hi
      rw [hext, List.getElem?_append_left (by omega)]
    have hkold : ∀ i, i ≤ s.next → t.keys[i]? = s.keys[i]? := by
      intro i hi
      simp only [Search.keys, List.getElem?_map, hold i hi]
    have hamem : a ∈ U := h.bound a (List.mem_of_getElem? (keys_getElem? hat))
    have hwalk : Walk succ seed d a := h.walk (a, d) (List.mem_of_getElem? hat)
    refine ⟨⟨by rw [hold 0 (Nat.zero_le _)]; exact h.head, ?_, ?_, ?_, ?_, ?_, ?_, ?_⟩, rfl⟩
    · show s.next + 1 ≤ t.found.length
      rw [hext, List.length_append]
      omega
    · intro b hb
      rw [show ({ t with next := s.next + 1 } : Search α L).keys = t.keys from rfl, hkeys] at hb
      rcases List.mem_append.mp hb with hb | hb
      · exact h.bound b hb
      · obtain ⟨p, hp, rfl⟩ := List.mem_map.mp hb
        obtain ⟨-, l, hl⟩ := hall p hp
        exact hU a hamem l p.1 hl
    · intro p hp
      rw [show ({ t with next := s.next + 1 } : Search α L).found = t.found from rfl, hext] at hp
      rcases List.mem_append.mp hp with hp | hp
      · exact h.walk p hp
      · obtain ⟨hd, l, hl⟩ := hall p hp
        rw [hd]
        exact .step hwalk hl
    · show t.found.Pairwise fun p q => p.2 ≤ q.2
      rw [hext]
      refine List.pairwise_append.mpr ⟨h.mono, ?_, ?_⟩
      · refine List.pairwise_of_forall_mem_list fun p hp q hq => ?_
        rw [(hall p hp).1, (hall q hq).1]
      · intro p hp q hq
        rw [(hall q hq).1]
        exact h.window (a, d) hat p hp
    · intro p hp q hq
      replace hp : t.found[s.next + 1]? = some p := hp
      replace hq : q ∈ t.found := hq
      -- the next state is not nearer than the one expanded
      have hdp : d ≤ p.2 := by
        rw [hext] at hp
        by_cases hlt' : s.next + 1 < s.found.length
        · rw [List.getElem?_append_left hlt'] at hp
          have hpair := List.pairwise_iff_getElem.mp h.mono s.next (s.next + 1) hlt hlt' (by omega)
          rw [(List.getElem?_eq_some_iff.mp hat).2, (List.getElem?_eq_some_iff.mp hp).2] at hpair
          exact hpair
        · rw [List.getElem?_append_right (by omega)] at hp
          rw [(hall p (List.mem_of_getElem? hp)).1]
          omega
      rw [hext] at hq
      rcases List.mem_append.mp hq with hq | hq
      · have := h.window (a, d) hat q hq
        simp only at this
        omega
      · rw [(hall q hq).1]
        omega
    · intro i hi p hp l b hb
      replace hi : i < s.next + 1 := hi
      replace hp : t.found[i]? = some p := hp
      rw [hold i (by omega)] at hp
      by_cases hin : i < s.next
      · obtain ⟨m, hm, hmem⟩ := h.expanded i hin p hp l b hb
        refine ⟨m, hm, ?_⟩
        show (b, m) ∈ t.found
        rw [hext]
        exact List.mem_append_left _ hmem
      · obtain rfl : i = s.next := by omega
        rw [hat] at hp
        obtain rfl := Option.some.inj hp
        have hbk : b ∈ t.keys := hcross.target s.next l b (Or.inr ⟨rfl, hb⟩)
        obtain ⟨⟨b', m⟩, hmem, rfl⟩ := List.mem_map.mp hbk
        refine ⟨m, ?_, hmem⟩
        rw [hext] at hmem
        rcases List.mem_append.mp hmem with hmem | hmem
        · exact h.window (a, d) hat _ hmem
        · exact (hall _ hmem).1.le
    · have hcross' : Crossed ({ t with next := s.next + 1 } : Search α L)
          (fun i' l b => (i' < s.next ∧ ∃ a, s.keys[i']? = some a ∧ (l, b) ∈ succ a) ∨
            i' = s.next ∧ (l, b) ∈ succ a) :=
        ⟨hcross.nodup, hcross.lengths, hcross.labels, hcross.target, hcross.used, hcross.link⟩
      refine hcross'.congr fun i l b => ?_
      show (i < s.next + 1 ∧ ∃ a, t.keys[i]? = some a ∧ (l, b) ∈ succ a) ↔ _
      constructor
      · rintro ⟨hi, a', ha', hb⟩
        rw [hkold i (by omega)] at ha'
        by_cases hin : i < s.next
        · exact Or.inl ⟨hin, a', ha', hb⟩
        · obtain rfl : i = s.next := by omega
          rw [keys_getElem? hat] at ha'
          obtain rfl := Option.some.inj ha'
          exact Or.inr ⟨rfl, hb⟩
      · rintro (⟨hi, a', ha', hb⟩ | ⟨rfl, hb⟩)
        · exact ⟨by omega, a', by rw [hkold i (by omega)]; exact ha', hb⟩
        · exact ⟨by omega, a, by rw [hkold _ le_rfl]; exact keys_getElem? hat, hb⟩

/-- **What a search finds**, when its states stay in a finite set. -/
theorem run_spec (U : Finset α) (hseed : seed ∈ U)
    (hU : ∀ a ∈ U, ∀ l b, (l, b) ∈ succ a → b ∈ U) {fuel : ℕ} (hfuel : U.card < fuel) :
    ∃ s, run succ fuel seed = some s ∧ Solved succ seed s := by
  obtain ⟨s, hrun, h, hend⟩ := Loop.run_spec (step succ) (Inv succ seed U)
    (fun s => U.card - s.next) (fun s s' hs hst => (step_inv hU hs hst).1)
    (fun s s' hs hst => by
      obtain ⟨hinv, hnext⟩ := step_inv hU hs hst
      have := hinv.length_le
      have := hinv.next
      omega)
    fuel (initial seed) (initial_inv hseed) (by show U.card - 0 < fuel; omega)
  have hall : s.next = s.found.length := by
    have hnone : s.found[s.next]? = none := by
      unfold step at hend
      split at hend
      · assumption
      · simp at hend
    have := List.getElem?_eq_none_iff.mp hnone
    have := h.next
    omega
  have hexp : ∀ p ∈ s.found, ∀ l b, (l, b) ∈ succ p.1 → ∃ m, m ≤ p.2 + 1 ∧ (b, m) ∈ s.found := by
    intro p hp l b hb
    obtain ⟨i, hi⟩ := List.mem_iff_getElem?.mp hp
    exact h.expanded i (by rw [hall]; exact (List.getElem?_eq_some_iff.mp hi).1) p hi l b hb
  -- every walk's end is found, no farther than the walk is long
  have hnear : ∀ n a, Walk succ seed n a → ∃ m, m ≤ n ∧ (a, m) ∈ s.found := by
    intro n a hw
    induction hw with
    | seed => exact ⟨0, le_rfl, List.mem_of_getElem? h.head⟩
    | step _ hl ih =>
      obtain ⟨m, hm, hmem⟩ := ih
      obtain ⟨m', hm', hmem'⟩ := hexp _ hmem _ _ hl
      simp only at hm'
      exact ⟨m', by omega, hmem'⟩
  have hunique : ∀ a m m', (a, m) ∈ s.found → (a, m') ∈ s.found → m = m' := by
    intro a m m' hm hm'
    obtain ⟨i, hi⟩ := List.mem_iff_getElem?.mp hm
    obtain ⟨j, hj⟩ := List.mem_iff_getElem?.mp hm'
    obtain rfl := index_unique h.crossed.nodup (x := a) (keys_getElem? hi) (keys_getElem? hj)
    rw [hi] at hj
    exact congrArg Prod.snd (Option.some.inj hj)
  refine ⟨s, hrun, h.crossed.nodup, h.crossed.lengths, fun a n => ⟨fun hmem => ?_, ?_⟩, h.head,
    h.crossed.labels, fun j b hj k => ?_, fun l => ?_⟩
  · refine ⟨h.walk _ hmem, fun m hw => ?_⟩
    obtain ⟨m', hm', hmem'⟩ := hnear m a hw
    rw [hunique a n m' hmem hmem']
    exact hm'
  · rintro ⟨hw, hmin⟩
    obtain ⟨m, hm, hmem⟩ := hnear n a hw
    obtain rfl : n = m := le_antisymm (hmin m (h.walk _ hmem)) hm
    exact hmem
  · rw [h.crossed.link j b hj k]
    constructor
    · rintro ⟨l, hl, -, a, ha, hb⟩
      exact ⟨a, l, ha, hl, hb⟩
    · rintro ⟨a, l, ha, hl, hb⟩
      refine ⟨l, hl, ?_, a, ha, hb⟩
      have := (List.getElem?_eq_some_iff.mp ha).1
      rw [hall]
      simpa [Search.keys] using this
  · rw [h.crossed.used l]
    constructor
    · rintro ⟨i, b, -, a, ha, hb⟩
      exact ⟨a, b, List.mem_of_getElem? ha, hb⟩
    · rintro ⟨a, b, ha, hb⟩
      obtain ⟨i, hi⟩ := List.mem_iff_getElem?.mp ha
      have hlt := (List.getElem?_eq_some_iff.mp hi).1
      exact ⟨i, b, by rw [hall]; simpa [Search.keys] using hlt, a, hi, hb⟩

end Run

end Bfs
