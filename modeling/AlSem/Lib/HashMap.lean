/-
# Hash maps

A hash map is Mathlib's association list with distinct keys, its entries in the map's
iteration order: what reads only `lookup` cannot see that order, and what iterates over the
map shows that it does.
-/
import Mathlib.Data.List.AList
import Mathlib.Order.Lattice

/-- A map from `κ` to `α` with its entries in iteration order. -/
abbrev HashMap (κ α : Type*) := AList (fun _ : κ => α)

namespace HashMap

variable {κ α : Type*} [DecidableEq κ]

/-- The list stored at `k`, the empty one when `k` is absent. -/
def getList (m : HashMap κ (List α)) (k : κ) : List α := (m.lookup k).getD []

/-- A stored list is one of the map's values. -/
theorem mem_of_mem_getList {m : HashMap κ (List α)} {k : κ} {a : α} (h : a ∈ m.getList k) :
    ∃ e ∈ m.entries, e.1 = k ∧ a ∈ e.2 := by
  unfold getList at h
  cases hl : m.lookup k with
  | none => simp [hl] at h
  | some l =>
    rw [hl] at h
    exact ⟨⟨k, l⟩, AList.mem_lookup_iff.mp hl, rfl, h⟩

/-- `entry(k).or_default().push(a)`. -/
def push (m : HashMap κ (List α)) (k : κ) (a : α) : HashMap κ (List α) :=
  m.insert k (m.getList k ++ [a])

@[simp] theorem mem_getList_push (m : HashMap κ (List α)) (k k' : κ) (a x : α) :
    x ∈ getList (push m k a) k' ↔ x ∈ getList m k' ∨ k' = k ∧ x = a := by
  unfold push getList
  by_cases h : k' = k
  · subst h
    rw [AList.lookup_insert]
    simp
  · rw [AList.lookup_insert_ne h]
    simp [h]

/-- **What a loop of pushes leaves under a key.** -/
theorem mem_getList_foldl_push {β : Type*} (key : β → κ) (val : β → α) {l : List β} :
    ∀ {m : HashMap κ (List α)} (k : κ) (x : α),
      x ∈ getList (l.foldl (fun m b => push m (key b) (val b)) m) k ↔
        x ∈ getList m k ∨ ∃ b ∈ l, key b = k ∧ val b = x := by
  induction l with
  | nil => intro m k x; simp
  | cons b l ih =>
    intro m k x
    rw [List.foldl_cons, ih, mem_getList_push]
    simp only [List.mem_cons, exists_eq_or_imp, or_assoc, eq_comm (a := k), eq_comm (a := x)]

@[simp] theorem getList_empty (k : κ) : getList (∅ : HashMap κ (List α)) k = [] := rfl

/-- The same keys, each value through `f`. -/
def mapValues {β : Type*} (f : α → β) (m : HashMap κ α) : HashMap κ β where
  entries := m.entries.map fun e => ⟨e.1, f e.2⟩
  nodupKeys := by
    have hkeys : (m.entries.map fun e => (⟨e.1, f e.2⟩ : Sigma fun _ : κ => β)).keys =
        m.entries.keys := by
      simp [List.keys, Function.comp_def]
    unfold List.NodupKeys
    rw [hkeys]
    exact m.nodupKeys

theorem lookup_mapValues {β : Type*} (f : α → β) (m : HashMap κ α) (k : κ) :
    (mapValues f m).lookup k = (m.lookup k).map f := by
  unfold AList.lookup mapValues
  dsimp only
  generalize m.entries = l
  induction l with
  | nil => rfl
  | cons e l ih =>
    obtain ⟨k', v⟩ := e
    by_cases h : k = k'
    · subst h
      simp
    · rw [List.map_cons, List.dlookup_cons_ne _ _ h, List.dlookup_cons_ne _ _ h]
      exact ih

/-- The keys whose value `f` keeps, each with what `f` makes of it. -/
def filterMapValues {β : Type*} (f : α → Option β) (m : HashMap κ α) : HashMap κ β where
  entries := m.entries.filterMap fun e => (f e.2).map fun b => ⟨e.1, b⟩
  nodupKeys := by
    have hsub : (m.entries.filterMap fun e =>
        (f e.2).map fun b => (⟨e.1, b⟩ : Sigma fun _ : κ => β)).keys.Sublist m.entries.keys := by
      generalize m.entries = l
      induction l with
      | nil => exact List.Sublist.refl _
      | cons e l ih =>
        cases h : f e.2 with
        | none => simpa [List.keys, h] using ih.cons e.1
        | some b => simpa [List.keys, h] using ih.cons_cons e.1
    exact List.Nodup.sublist hsub m.nodupKeys

theorem lookup_filterMapValues {β : Type*} (f : α → Option β) (m : HashMap κ α) (k : κ) :
    (filterMapValues f m).lookup k = (m.lookup k).bind f := by
  have hnd := m.nodupKeys
  unfold AList.lookup filterMapValues
  dsimp only
  generalize m.entries = l at hnd
  induction l with
  | nil => rfl
  | cons e l ih =>
    obtain ⟨k', v⟩ := e
    obtain ⟨hnot, hrest⟩ := List.nodupKeys_cons.mp hnd
    by_cases h : k = k'
    · subst h
      cases hf : f v with
      | none =>
        have hk : List.dlookup k l = none := List.dlookup_eq_none.mpr hnot
        rw [List.filterMap_cons_none (by simp [hf]), ih hrest, hk, List.dlookup_cons_eq]
        simp [hf]
      | some b =>
        rw [List.filterMap_cons_some (b := ⟨k, b⟩) (by simp [hf]), List.dlookup_cons_eq,
          List.dlookup_cons_eq]
        exact hf.symm
    · rw [List.dlookup_cons_ne _ _ h, ← ih hrest]
      cases hf : f v with
      | none => rw [List.filterMap_cons_none (by simp [hf])]
      | some b =>
        rw [List.filterMap_cons_some (b := ⟨k', b⟩) (by simp [hf]), List.dlookup_cons_ne _ _ h]

/-! ## Entries -/

/-- Erasing a key drops its entry and no other. -/
theorem entries_erase (m : HashMap κ α) (k : κ) :
    (m.erase k).entries = m.entries.filter fun e => e.1 ≠ k := by
  have hnd := m.nodupKeys
  unfold AList.erase
  dsimp only
  generalize m.entries = l at hnd
  induction l with
  | nil => rfl
  | cons e l ih =>
    obtain ⟨hnot, hnd⟩ := List.nodupKeys_cons.mp hnd
    by_cases he : k = e.1
    · rw [List.kerase_cons_eq he, List.filter_cons_of_neg (by simp [he])]
      have hne : ∀ e' ∈ l, e'.1 ≠ k := fun e' he' heq =>
        hnot (he ▸ heq ▸ List.mem_map_of_mem he')
      exact (List.filter_eq_self.mpr fun e' he' => by simp [hne e' he']).symm
    · rw [List.kerase_cons_ne he, List.filter_cons_of_pos (by simp [Ne.symm he]), ih hnd]

/-- The entries with one key's entry in front. -/
theorem entries_perm_of_lookup {m : HashMap κ α} {k : κ} {a : α} (h : m.lookup k = some a) :
    m.entries.Perm (⟨k, a⟩ :: (m.erase k).entries) := by
  have hmem : k ∈ m.entries.keys := List.mem_keys_of_mem (AList.mem_lookup_iff.mp h)
  obtain ⟨b, l₁, l₂, -, heq, herase⟩ := List.exists_of_kerase hmem
  have hb : m.lookup k = some b := AList.mem_lookup_iff.mpr (heq ▸ by simp)
  obtain rfl := Option.some.inj (h.symm.trans hb)
  have hentries : (m.erase k).entries = l₁ ++ l₂ := herase
  rw [heq, hentries]
  exact List.perm_middle

theorem entries_erase_of_lookup {m : HashMap κ α} {k : κ} (h : m.lookup k = none) :
    (m.erase k).entries = m.entries :=
  List.kerase_of_notMem_keys (AList.lookup_eq_none.mp h)

/-- How many entries hold of `p`. -/
def count (p : α → Bool) (m : HashMap κ α) : ℕ := m.entries.countP fun e => p e.2

theorem count_insert (p : α → Bool) (m : HashMap κ α) (k : κ) (a : α) :
    count p (m.insert k a) = count p (m.erase k) + if p a then 1 else 0 := by
  unfold count
  rw [AList.entries_insert, List.countP_cons]
  rfl

/-- The entries less one key's. -/
theorem count_eq_erase (p : α → Bool) (m : HashMap κ α) (k : κ) :
    count p m = count p (m.erase k) + if (m.lookup k).any p then 1 else 0 := by
  cases h : m.lookup k with
  | none =>
    unfold count
    rw [entries_erase_of_lookup h]
    rfl
  | some a =>
    unfold count
    rw [(entries_perm_of_lookup h).countP_eq, List.countP_cons]
    rfl

theorem count_pos_iff {p : α → Bool} {m : HashMap κ α} :
    0 < count p m ↔ ∃ k a, m.lookup k = some a ∧ p a = true := by
  unfold count
  rw [List.countP_pos_iff]
  constructor
  · rintro ⟨e, he, hp⟩
    exact ⟨e.1, e.2, AList.mem_lookup_iff.mpr he, hp⟩
  · rintro ⟨k, a, hk, hp⟩
    exact ⟨⟨k, a⟩, AList.mem_lookup_iff.mp hk, hp⟩

/-! ## Lists under keys, less some elements -/

/-- No key holds the empty list. -/
def NoEmpty (m : HashMap κ (List α)) : Prop := ∀ k, m.lookup k ≠ some []

theorem noEmpty_empty : NoEmpty (∅ : HashMap κ (List α)) := by
  intro k h
  cases h

/-- Keep of a key's list what `p` holds of; a list that runs empty goes. -/
def retain (m : HashMap κ (List α)) (k : κ) (p : α → Bool) : HashMap κ (List α) :=
  match m.lookup k with
  | none => m
  | some l => if (l.filter p).isEmpty then m.erase k else m.insert k (l.filter p)

theorem getList_push (m : HashMap κ (List α)) (k k' : κ) (a : α) :
    getList (push m k a) k' = if k' = k then getList m k ++ [a] else getList m k' := by
  unfold push getList
  split
  · rename_i h
    rw [h, AList.lookup_insert]
    rfl
  · rename_i h
    rw [AList.lookup_insert_ne h]

theorem NoEmpty.push {m : HashMap κ (List α)} (h : NoEmpty m) (k : κ) (a : α) :
    NoEmpty (push m k a) := by
  intro k'
  unfold HashMap.push
  by_cases hk : k' = k
  · subst hk
    rw [AList.lookup_insert]
    simp
  · rw [AList.lookup_insert_ne hk]
    exact h k'

theorem getList_retain (m : HashMap κ (List α)) (k k' : κ) (p : α → Bool) :
    getList (retain m k p) k' = if k' = k then (getList m k).filter p else getList m k' := by
  unfold retain getList
  cases hl : m.lookup k with
  | none =>
    dsimp only
    split
    · rename_i h
      rw [h, hl]
      rfl
    · rfl
  | some l =>
    dsimp only
    by_cases hk : k' = k
    · rw [if_pos hk, hk]
      split
      · rename_i hempty
        rw [AList.lookup_erase, Option.getD_some, List.isEmpty_iff.mp hempty]
        rfl
      · rw [AList.lookup_insert]
        rfl
    · rw [if_neg hk]
      split
      · rw [AList.lookup_erase_ne hk]
      · rw [AList.lookup_insert_ne hk]

theorem NoEmpty.retain {m : HashMap κ (List α)} (h : NoEmpty m) (k : κ) (p : α → Bool) :
    NoEmpty (retain m k p) := by
  intro k'
  unfold HashMap.retain
  split
  · exact h k'
  · split
    · by_cases hk : k' = k
      · rw [hk, AList.lookup_erase]
        simp
      · rw [AList.lookup_erase_ne hk]
        exact h k'
    · rename_i hne
      by_cases hk : k' = k
      · rw [hk, AList.lookup_insert]
        intro heq
        exact hne (List.isEmpty_iff.mpr (Option.some.inj heq))
      · rw [AList.lookup_insert_ne hk]
        exact h k'

/-- Without empty lists a key's list tells its entry. -/
theorem NoEmpty.lookup_eq {m m' : HashMap κ (List α)} (h : NoEmpty m) (h' : NoEmpty m') {k : κ}
    (heq : getList m k = getList m' k) : m.lookup k = m'.lookup k := by
  unfold getList at heq
  have hk := h k
  have hk' := h' k
  cases hl : m.lookup k <;> cases hl' : m'.lookup k <;> simp_all

/-! ## Counters -/

/-- `*entry(k).or_insert(0) += n`. -/
def bump (m : HashMap κ ℕ) (k : κ) (n : ℕ) : HashMap κ ℕ := m.insert k ((m.lookup k).getD 0 + n)

theorem getD_bump (m : HashMap κ ℕ) (k k' : κ) (n : ℕ) :
    ((bump m k n).lookup k').getD 0 = (m.lookup k').getD 0 + if k' = k then n else 0 := by
  unfold bump
  split
  · rename_i h
    rw [h, AList.lookup_insert]
    rfl
  · rename_i h
    rw [AList.lookup_insert_ne h]
    rfl

/-! ## The best entry of every key -/

section Least

variable {ρ : Type*} [LinearOrder ρ] (rank : α → ρ)

/-- Keep the better entry: the one already there unless `a` ranks strictly below it. -/
def improve (m : HashMap κ α) (k : κ) (a : α) : HashMap κ α :=
  match m.lookup k with
  | none => m.insert k a
  | some b => if rank a < rank b then m.insert k a else m

/-- **Every key holds one of its items, of least rank.** -/
structure Least (items : List (κ × α)) (m : HashMap κ α) : Prop where
  mem : ∀ k a, m.lookup k = some a → (k, a) ∈ items
  le : ∀ k a b, m.lookup k = some a → (k, b) ∈ items → rank a ≤ rank b
  bound : ∀ k b, (k, b) ∈ items → ∃ a, m.lookup k = some a

variable {rank}

theorem Least.nil : Least rank [] (∅ : HashMap κ α) :=
  ⟨fun _ _ h => (nomatch h), fun _ _ _ _ h => absurd h List.not_mem_nil,
    fun _ _ h => absurd h List.not_mem_nil⟩

/-- One more item. -/
theorem Least.improve {items : List (κ × α)} {m : HashMap κ α} (h : Least rank items m) (k : κ)
    (a : α) : Least rank (items ++ [(k, a)]) (improve rank m k a) := by
  have hinsert : (∀ b, m.lookup k = some b → rank a ≤ rank b) →
      Least rank (items ++ [(k, a)]) (m.insert k a) := by
    intro hless
    refine ⟨fun k' c hc => ?_, fun k' c b hc hb => ?_, fun k' b hb => ?_⟩
    · by_cases hk : k' = k
      · subst hk
        rw [AList.lookup_insert] at hc
        simp [Option.some.inj hc]
      · rw [AList.lookup_insert_ne hk] at hc
        exact List.mem_append_left _ (h.mem _ _ hc)
    · by_cases hk : k' = k
      · subst hk
        rw [AList.lookup_insert] at hc
        obtain rfl := Option.some.inj hc
        rcases List.mem_append.mp hb with hb | hb
        · obtain ⟨old, hold⟩ := h.bound _ _ hb
          exact le_trans (hless old hold) (h.le _ _ _ hold hb)
        · exact le_of_eq (congrArg rank (Prod.mk.inj (List.mem_singleton.mp hb)).2.symm)
      · rw [AList.lookup_insert_ne hk] at hc
        refine h.le _ _ _ hc ((List.mem_append.mp hb).resolve_right fun heq => hk ?_)
        exact congrArg Prod.fst (List.mem_singleton.mp heq)
    · by_cases hk : k' = k
      · exact ⟨a, by rw [hk, AList.lookup_insert]⟩
      · rw [AList.lookup_insert_ne hk]
        refine h.bound _ b ((List.mem_append.mp hb).resolve_right fun heq => hk ?_)
        exact congrArg Prod.fst (List.mem_singleton.mp heq)
  unfold HashMap.improve
  cases hk : m.lookup k with
  | none => exact hinsert fun b hb => by rw [hk] at hb; cases hb
  | some old =>
    dsimp only
    split
    · rename_i hlt
      exact hinsert fun b hb => by
        obtain rfl := Option.some.inj (hk.symm.trans hb)
        exact le_of_lt hlt
    · rename_i hge
      refine ⟨fun k' c hc => List.mem_append_left _ (h.mem _ _ hc), fun k' c b hc hb => ?_,
        fun k' b hb => ?_⟩
      · rcases List.mem_append.mp hb with hb | hb
        · exact h.le _ _ _ hc hb
        · obtain ⟨rfl, rfl⟩ := Prod.mk.inj (List.mem_singleton.mp hb)
          obtain rfl := Option.some.inj (hk.symm.trans hc)
          exact le_of_not_gt hge
      · rcases List.mem_append.mp hb with hb | hb
        · exact h.bound _ _ hb
        · obtain ⟨rfl, rfl⟩ := Prod.mk.inj (List.mem_singleton.mp hb)
          exact ⟨old, hk⟩

end Least

end HashMap
