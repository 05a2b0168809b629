/-
# Hash-consed sets

What interning a set keeps (`EffectStore.Inv`): a stored set has its caches, can be found by its
hash, and no two stored sets have the same ids.  So two sets of the arena become one stored set
exactly when they hold the same ids (`internArena_inj`), whatever the hash does.
-/
import AlSem.L4.SummaryBundle

namespace AlSem.L4

namespace EffectStore

/-! ## 1. The invariant -/

/-- The store's parts fit together, and it holds no set twice. -/
structure Inv (s : EffectStore) : Prop where
  ordered : s.ordered = s.sets.map fun set => Ranking.place s.effectUniverse.rankLe set.iter
  storageOrd : s.orderedStorageOrd =
    s.sets.map fun set => (Ranking.order s.effectUniverse.rankLe set.iter).map Fin.val
  valid : ∀ set ∈ s.sets, set.Valid ∧ ∀ id ∈ set.iter, id < s.effectUniverse.len
  inside : ∀ hash, ∀ cand ∈ s.dedup.getList hash, cand < s.sets.length
  found : ∀ (i : ℕ) (set : HybridEffectSet), s.sets[i]? = some set → i ∈ s.dedup.getList (hashIds set.iter)
  distinct : ∀ (i j : ℕ) (a b : HybridEffectSet), s.sets[i]? = some a → s.sets[j]? = some b → a.iter = b.iter → i = j

/-- Nothing is stored at first. -/
theorem inv_new (u : FrozenEffectUniverse) : (new u).Inv where
  ordered := rfl
  storageOrd := rfl
  valid := fun set h => absurd h List.not_mem_nil
  inside := fun hash cand h => absurd h List.not_mem_nil
  found := fun i set h => by simp [new] at h
  distinct := fun i j a b h => by simp [new] at h

/-- The bits' ids are the universe's. -/
def Covers (u : FrozenEffectUniverse) (bits : Bits) : Prop := ∀ id ∈ iterSetBits bits, id < u.len

/-- `id` is the place of a stored set with the ids of the bits. -/
def Stores (s : EffectStore) (id : ℕ) (bits : Bits) : Prop :=
  ∃ set, s.sets[id]? = some set ∧ set.iter = iterSetBits bits

theorem setEqBits_iff {s : EffectStore} (h : s.Inv) (bits : Bits) (id : ℕ) :
    s.setEqBits bits id = true ↔ s.Stores id bits := by
  unfold setEqBits Stores
  cases hset : s.sets[id]? with
  | none => simp
  | some set =>
    have hvalid := (h.valid set (List.mem_of_getElem? hset)).1
    simp only [Bool.and_eq_true, beq_iff_eq, Option.some.injEq, exists_eq_left']
    constructor
    · exact fun hboth => hboth.2
    · intro hiter
      refine ⟨?_, hiter⟩
      rw [HybridEffectSet.card_eq hvalid, hiter, length_iterSetBits]

/-- A set stored earlier keeps its place. -/
def Extends (s t : EffectStore) : Prop :=
  t.effectUniverse = s.effectUniverse ∧
    ∀ (i : ℕ) (set : HybridEffectSet), s.sets[i]? = some set → t.sets[i]? = some set

theorem Extends.refl (s : EffectStore) : s.Extends s := ⟨rfl, fun _ _ h => h⟩

theorem Extends.trans {s t v : EffectStore} (h : s.Extends t) (h' : t.Extends v) : s.Extends v :=
  ⟨h'.1.trans h.1, fun i set hi => h'.2 i set (h.2 i set hi)⟩

theorem Stores.mono {s t : EffectStore} {id : ℕ} {bits : Bits} (h : s.Stores id bits)
    (hst : s.Extends t) : t.Stores id bits := by
  obtain ⟨set, hset, hiter⟩ := h
  exact ⟨set, hst.2 id set hset, hiter⟩

/-! ## 2. Interning one set -/

/-- A set that no stored set has the ids of gets the next place. -/
theorem inv_push {s : EffectStore} (h : s.Inv) {bits : Bits} (hbits : Covers s.effectUniverse bits)
    (hnew : ∀ id, ¬ s.Stores id bits) {t : EffectStore}
    (ht : t =
      { s with
        sets := s.sets ++ [HybridEffectSet.fromBits bits s.effectUniverse.len]
        ordered := s.ordered ++ [Ranking.place s.effectUniverse.rankLe
          (HybridEffectSet.fromBits bits s.effectUniverse.len).iter]
        orderedStorageOrd := s.orderedStorageOrd ++ [(Ranking.order s.effectUniverse.rankLe
          (HybridEffectSet.fromBits bits s.effectUniverse.len).iter).map Fin.val]
        dedup := s.dedup.insert (contentHash bits)
          (s.dedup.getList (contentHash bits) ++ [s.sets.length]) }) :
    t.Inv ∧ s.Extends t ∧ t.Stores s.sets.length bits := by
  have hiter := HybridEffectSet.iter_fromBits_of_covered hbits
  have hvalid := HybridEffectSet.fromBits_valid bits s.effectUniverse.len
  generalize HybridEffectSet.fromBits bits s.effectUniverse.len = new at hiter hvalid ht
  subst ht
  -- A place of the longer list is an old one or the new one.
  have hcases : ∀ {i : ℕ} {set : HybridEffectSet}, (s.sets ++ [new])[i]? = some set →
      s.sets[i]? = some set ∨ i = s.sets.length ∧ set = new := by
    intro i set hi
    rcases Nat.lt_trichotomy i s.sets.length with hlt | heq | hgt
    · rw [List.getElem?_append_left hlt] at hi
      exact Or.inl hi
    · subst heq
      rw [List.getElem?_concat_length] at hi
      exact Or.inr ⟨rfl, (Option.some.inj hi).symm⟩
    · rw [List.getElem?_eq_none (by rw [List.length_append, List.length_singleton]; omega)] at hi
      cases hi
  have hlookup : ∀ hash, HashMap.getList (s.dedup.insert (contentHash bits)
      (s.dedup.getList (contentHash bits) ++ [s.sets.length])) hash =
      s.dedup.getList hash ++ if hash = contentHash bits then [s.sets.length] else [] := by
    intro hash
    unfold HashMap.getList
    by_cases heq : hash = contentHash bits
    · rw [heq, AList.lookup_insert, if_pos rfl]
      rfl
    · rw [AList.lookup_insert_ne heq, if_neg heq, List.append_nil]
  refine ⟨⟨?_, ?_, ?_, ?_, ?_, ?_⟩, ⟨rfl, fun i set hi => ?_⟩, new, ?_, hiter⟩
  · simp [h.ordered]
  · simp [h.storageOrd]
  · intro set hset
    rcases List.mem_append.mp hset with hset | hset
    · exact h.valid set hset
    · rw [List.mem_singleton.mp hset]
      refine ⟨hvalid, fun id hid => hbits id ?_⟩
      rwa [← hiter]
  · intro hash cand hcand
    rw [hlookup] at hcand
    show cand < (s.sets ++ [new]).length
    rw [List.length_append, List.length_singleton]
    rcases List.mem_append.mp hcand with hcand | hcand
    · have := h.inside hash cand hcand
      omega
    · by_cases heq : hash = contentHash bits
      · rw [if_pos heq] at hcand
        have := List.mem_singleton.mp hcand
        omega
      · rw [if_neg heq] at hcand
        exact absurd hcand List.not_mem_nil
  · intro i set hi
    rw [hlookup]
    rcases hcases hi with hold | ⟨rfl, rfl⟩
    · exact List.mem_append_left _ (h.found i set hold)
    · refine List.mem_append_right _ ?_
      rw [if_pos (by rw [contentHash, hiter])]
      exact List.mem_singleton_self _
  · intro i j a b hi hj hab
    rcases hcases hi with hoi | ⟨rfl, rfl⟩ <;> rcases hcases hj with hoj | ⟨rfl, rfl⟩
    · exact h.distinct i j a b hoi hoj hab
    · exact absurd ⟨a, hoi, hab.trans hiter⟩ (hnew i)
    · exact absurd ⟨b, hoj, hab.symm.trans hiter⟩ (hnew j)
    · rfl
  · have hlt := (List.getElem?_eq_some_iff.mp hi).1
    show (s.sets ++ [new])[i]? = some set
    rw [List.getElem?_append_left hlt]
    exact hi
  · exact List.getElem?_concat_length

/-- **Interning a set** gives a place that stores its ids, and keeps the invariant. -/
theorem internSet_spec {s : EffectStore} (h : s.Inv) {bits : Bits}
    (hbits : Covers s.effectUniverse bits) :
    (s.internSet bits).1.Inv ∧ s.Extends (s.internSet bits).1 ∧
      (s.internSet bits).1.Stores (s.internSet bits).2 bits := by
  unfold internSet
  dsimp only
  cases hfind : (s.dedup.getList (contentHash bits)).find? (s.setEqBits bits) with
  | some cand =>
    have hstores := (setEqBits_iff h bits cand).mp (List.find?_some hfind)
    exact ⟨h, Extends.refl s, hstores⟩
  | none =>
    refine inv_push h hbits (fun id hstores => ?_) rfl
    obtain ⟨set, hset, hiter⟩ := hstores
    have hmem := h.found id set hset
    rw [hiter] at hmem
    have hno := List.find?_eq_none.mp hfind id hmem
    exact hno ((setEqBits_iff h bits id).mpr ⟨set, hset, hiter⟩)

/-! ## 3. Interning the arena -/

/-- **Interning the arena**: every set of it has a place that stores its ids. -/
theorem internArena_spec {arena : List Bits} : ∀ {s : EffectStore}, s.Inv →
    (∀ bits ∈ arena, Covers s.effectUniverse bits) →
    (s.internArena arena).1.Inv ∧ s.Extends (s.internArena arena).1 ∧
      ∀ (i : ℕ) (bits : Bits), arena[i]? = some bits →
        ∃ id, (s.internArena arena).2[i]? = some id ∧ (s.internArena arena).1.Stores id bits := by
  induction arena with
  | nil =>
    intro s h _
    exact ⟨h, Extends.refl s, fun i bits hi => by simp at hi⟩
  | cons head arena ih =>
    intro s h hcovers
    obtain ⟨hinv, hext, hstores⟩ := internSet_spec h (hcovers head List.mem_cons_self)
    have hrest : ∀ bits ∈ arena, Covers (s.internSet head).1.effectUniverse bits := by
      intro bits hbits
      rw [hext.1]
      exact hcovers bits (List.mem_cons_of_mem _ hbits)
    obtain ⟨hinv', hext', hstores'⟩ := ih hinv hrest
    refine ⟨hinv', hext.trans hext', fun i bits hi => ?_⟩
    cases i with
    | zero =>
      have heq : head = bits := Option.some.inj hi
      subst heq
      exact ⟨(s.internSet head).2, rfl, hstores.mono hext'⟩
    | succ i => exact hstores' i bits hi

/-- **One place for the same ids, two for others.** -/
theorem internArena_inj {arena : List Bits} {u : FrozenEffectUniverse}
    (hcovers : ∀ bits ∈ arena, Covers u bits) {i j p q : ℕ} {a b : Bits}
    (hi : arena[i]? = some a) (hj : arena[j]? = some b)
    (hp : ((new u).internArena arena).2[i]? = some p)
    (hq : ((new u).internArena arena).2[j]? = some q) :
    p = q ↔ iterSetBits a = iterSetBits b := by
  obtain ⟨hinv, -, hstores⟩ := internArena_spec (inv_new u) hcovers
  obtain ⟨p', hp', seta, hseta, hia⟩ := hstores i a hi
  obtain ⟨q', hq', setb, hsetb, hib⟩ := hstores j b hj
  rw [hp] at hp'
  rw [hq] at hq'
  rw [← Option.some.inj hp'] at hseta
  rw [← Option.some.inj hq'] at hsetb
  constructor
  · rintro rfl
    rw [hseta] at hsetb
    rw [← hia, ← hib, Option.some.inj hsetb]
  · intro h
    exact hinv.distinct p q seta setb hseta hsetb (by rw [hia, hib, h])

end EffectStore

end AlSem.L4
