/-
# Insertion-ordered maps

A map that keeps its entries in the order their keys first came: the list of its entries.  A key
that comes again keeps its place and takes the new value.

`mapValues` goes through every operation, so two loops over the same keys whose values correspond
build maps that correspond (`ofEntries_map`, `groupEntries_map`).
-/
import Mathlib.Data.List.Induction
import Mathlib.Data.List.Nodup

/-- A map from `κ` to `α` with its entries in insertion order. -/
abbrev IndexMap (κ α : Type*) := List (κ × α)

namespace IndexMap

variable {κ α β γ : Type*} [DecidableEq κ]

/-! ## Operations -/

/-- The value of a key. -/
def get (m : IndexMap κ α) (k : κ) : Option α := List.lookup k m

/-- The key is there. -/
def containsKey (m : IndexMap κ α) (k : κ) : Bool := (get m k).isSome

/-- `insert`: the value replaces the key's old one in its place, or comes last. -/
def insert (m : IndexMap κ α) (k : κ) (a : α) : IndexMap κ α :=
  match m with
  | [] => [(k, a)]
  | e :: m => if e.1 = k then (e.1, a) :: m else e :: insert m k a

/-- `entry(k).or_insert(a)`. -/
def insertNew (m : IndexMap κ α) (k : κ) (a : α) : IndexMap κ α :=
  if containsKey m k then m else insert m k a

/-- `entry(k).or_default().push(a)`. -/
def push (m : IndexMap κ (List α)) (k : κ) (a : α) : IndexMap κ (List α) :=
  insert m k ((get m k).getD [] ++ [a])

/-- The map of a list of entries: the last of a key. -/
def ofEntries (l : List (κ × α)) : IndexMap κ α := l.foldl (fun m e => insert m e.1 e.2) []

/-- The items of a list by their key, in order. -/
def groupEntries (l : List (κ × α)) : IndexMap κ (List α) := l.foldl (fun m e => push m e.1 e.2) []

/-- The same keys, each value through `f`. -/
def mapValues (f : α → β) (m : IndexMap κ α) : IndexMap κ β := m.map fun e => (e.1, f e.2)

/-- The value of a key through `f`. -/
def modify (m : IndexMap κ α) (k : κ) (f : α → α) : IndexMap κ α :=
  match m with
  | [] => []
  | e :: m => if e.1 = k then (e.1, f e.2) :: m else e :: modify m k f

/-! ## Looking up -/

@[simp] theorem get_nil (k : κ) : get ([] : IndexMap κ α) k = none := rfl

theorem get_cons (e : κ × α) (m : IndexMap κ α) (k : κ) :
    get (e :: m) k = if k = e.1 then some e.2 else get m k := by
  unfold get
  rw [List.lookup_cons]
  by_cases h : k = e.1
  · simp [h]
  · have hbeq : (k == e.1) = false := by simpa using h
    rw [hbeq, if_neg h]

theorem get_insert (m : IndexMap κ α) (k k' : κ) (a : α) :
    get (insert m k a) k' = if k' = k then some a else get m k' := by
  induction m with
  | nil =>
    rw [insert, get_cons]
  | cons e m ih =>
    rw [insert]
    by_cases he : e.1 = k
    · rw [if_pos he, get_cons, get_cons, he]
      by_cases h : k' = k <;> simp [h]
    · rw [if_neg he, get_cons, get_cons, ih]
      by_cases h : k' = e.1
      · rw [if_pos h, if_neg (fun hk => he (h.symm.trans hk)), if_pos h]
      · rw [if_neg h, if_neg h]

theorem get_push (m : IndexMap κ (List α)) (k k' : κ) (a : α) :
    (get (push m k a) k').getD [] = (get m k').getD [] ++ if k' = k then [a] else [] := by
  unfold push
  rw [get_insert]
  by_cases h : k' = k
  · subst h
    simp
  · simp [h]

theorem get_mapValues (f : α → β) (m : IndexMap κ α) (k : κ) :
    get (mapValues f m) k = (get m k).map f := by
  induction m with
  | nil => rfl
  | cons e m ih =>
    rw [mapValues, List.map_cons, get_cons, get_cons]
    by_cases h : k = e.1
    · rw [if_pos h, if_pos h, Option.map_some]
    · rw [if_neg h, if_neg h]
      exact ih

theorem containsKey_mapValues (f : α → β) (m : IndexMap κ α) (k : κ) :
    containsKey (mapValues f m) k = containsKey m k := by
  unfold containsKey
  rw [get_mapValues, Option.isSome_map]

theorem get_modify (m : IndexMap κ α) (k k' : κ) (f : α → α) :
    get (modify m k f) k' = if k' = k then (get m k).map f else get m k' := by
  induction m with
  | nil => simp [modify]
  | cons e m ih =>
    rw [modify]
    by_cases he : e.1 = k
    · rw [if_pos he, get_cons, get_cons, get_cons, if_pos he.symm, he]
      by_cases h : k' = k <;> simp [h]
    · rw [if_neg he, get_cons, get_cons, get_cons, ih, if_neg (Ne.symm he)]
      by_cases h : k' = e.1
      · rw [if_pos h, if_neg (fun hk => he (h.symm.trans hk)), if_pos h]
      · rw [if_neg h, if_neg h]

theorem mem_of_get {m : IndexMap κ α} {k : κ} {a : α} (h : get m k = some a) : (k, a) ∈ m := by
  induction m with
  | nil => cases h
  | cons e m ih =>
    rw [get_cons] at h
    by_cases hk : k = e.1
    · rw [if_pos hk] at h
      obtain rfl := Option.some.inj h
      rw [hk]
      exact List.mem_cons_self
    · rw [if_neg hk] at h
      exact List.mem_cons_of_mem _ (ih h)

/-- The keys are those of the entries. -/
theorem containsKey_iff {m : IndexMap κ α} {k : κ} : containsKey m k = true ↔ ∃ a, (k, a) ∈ m := by
  constructor
  · intro h
    obtain ⟨a, ha⟩ := Option.isSome_iff_exists.mp h
    exact ⟨a, mem_of_get ha⟩
  · rintro ⟨a, ha⟩
    induction m with
    | nil => cases ha
    | cons e m ih =>
      unfold containsKey
      rw [get_cons]
      by_cases hk : k = e.1
      · rw [if_pos hk]
        rfl
      · rw [if_neg hk]
        rcases List.mem_cons.mp ha with rfl | ha
        · exact absurd rfl hk
        · exact ih ha

/-- With distinct keys an entry is what its key leads to. -/
theorem get_of_mem {m : IndexMap κ α} (hm : (m.map Prod.fst).Nodup) {e : κ × α} (h : e ∈ m) :
    get m e.1 = some e.2 := by
  obtain ⟨a, ha⟩ := Option.isSome_iff_exists.mp (containsKey_iff.mpr ⟨e.2, h⟩)
  have heq : (e.1, a) = e :=
    List.inj_on_of_nodup_map hm (mem_of_get ha) h rfl
  rw [ha, ← heq]

/-! ## Distinct keys -/

theorem keys_insert (m : IndexMap κ α) (k : κ) (a : α) :
    (insert m k a).map Prod.fst =
      if k ∈ m.map Prod.fst then m.map Prod.fst else m.map Prod.fst ++ [k] := by
  induction m with
  | nil => rfl
  | cons e m ih =>
    rw [insert]
    by_cases he : e.1 = k
    · simp [he]
    · rw [if_neg he, List.map_cons, ih]
      by_cases hk : k ∈ m.map Prod.fst
      · simp [hk]
      · simp [hk, Ne.symm he]

theorem nodup_insert {m : IndexMap κ α} (hm : (m.map Prod.fst).Nodup) (k : κ) (a : α) :
    ((insert m k a).map Prod.fst).Nodup := by
  rw [keys_insert]
  by_cases hk : k ∈ m.map Prod.fst
  · rw [if_pos hk]
    exact hm
  · rw [if_neg hk]
    exact List.nodup_append.mpr ⟨hm, List.nodup_singleton k, by
      intro x hx y hy heq
      rw [List.mem_singleton.mp hy] at heq
      exact hk (heq ▸ hx)⟩

theorem nodup_ofEntries (l : List (κ × α)) : ((ofEntries l).map Prod.fst).Nodup := by
  unfold ofEntries
  induction l using List.reverseRecOn with
  | nil => exact List.nodup_nil
  | append_singleton l e ih =>
    rw [List.foldl_append, List.foldl_cons, List.foldl_nil]
    exact nodup_insert ih _ _

theorem nodup_groupEntries (l : List (κ × α)) : ((groupEntries l).map Prod.fst).Nodup := by
  unfold groupEntries
  induction l using List.reverseRecOn with
  | nil => exact List.nodup_nil
  | append_singleton l e ih =>
    rw [List.foldl_append, List.foldl_cons, List.foldl_nil]
    exact nodup_insert ih _ _

/-! ## Loops -/

theorem insert_mapValues (f : α → β) (m : IndexMap κ α) (k : κ) (a : α) :
    insert (mapValues f m) k (f a) = mapValues f (insert m k a) := by
  induction m with
  | nil => rfl
  | cons e m ih =>
    rw [mapValues, List.map_cons, insert, insert]
    by_cases h : e.1 = k
    · rw [if_pos h, if_pos h]
      rfl
    · rw [if_neg h, if_neg h]
      exact congrArg _ ih

theorem push_mapValues (f : α → β) (m : IndexMap κ (List α)) (k : κ) (a : α) :
    push (mapValues (List.map f) m) k (f a) = mapValues (List.map f) (push m k a) := by
  unfold push
  rw [get_mapValues, ← insert_mapValues]
  congr 1
  cases get m k <;> simp

/-- **Corresponding entries give corresponding maps.** -/
theorem ofEntries_map (f : α → β) (l : List (κ × α)) :
    ofEntries (l.map fun e => (e.1, f e.2)) = mapValues f (ofEntries l) := by
  unfold ofEntries
  induction l using List.reverseRecOn with
  | nil => rfl
  | append_singleton l e ih =>
    rw [List.map_append, List.foldl_append, List.foldl_append, ih]
    exact insert_mapValues f _ _ _

/-- **Corresponding entries give corresponding groups.** -/
theorem groupEntries_map (f : α → β) (l : List (κ × α)) :
    groupEntries (l.map fun e => (e.1, f e.2)) = mapValues (List.map f) (groupEntries l) := by
  unfold groupEntries
  induction l using List.reverseRecOn with
  | nil => rfl
  | append_singleton l e ih =>
    rw [List.map_append, List.foldl_append, List.foldl_append, ih]
    exact push_mapValues f _ _ _

/-- An entry after an insertion was there or has the new value. -/
theorem mem_insert {m : IndexMap κ α} {k : κ} {a : α} {e : κ × α} (h : e ∈ insert m k a) :
    e ∈ m ∨ e.2 = a := by
  induction m with
  | nil =>
    rw [List.mem_singleton.mp h]
    exact Or.inr rfl
  | cons c m ih =>
    rw [insert] at h
    by_cases hc : c.1 = k
    · rw [if_pos hc] at h
      rcases List.mem_cons.mp h with rfl | h
      · exact Or.inr rfl
      · exact Or.inl (List.mem_cons_of_mem _ h)
    · rw [if_neg hc] at h
      rcases List.mem_cons.mp h with rfl | h
      · exact Or.inl List.mem_cons_self
      · rcases ih h with h | h
        · exact Or.inl (List.mem_cons_of_mem _ h)
        · exact Or.inr h

/-- The entries of the map are among those it was made of. -/
theorem mem_ofEntries {l : List (κ × α)} {e : κ × α} (h : e ∈ ofEntries l) : e ∈ l := by
  have hget := get_of_mem (nodup_ofEntries l) h
  clear h
  unfold ofEntries at hget
  induction l using List.reverseRecOn with
  | nil => cases hget
  | append_singleton l c ih =>
    rw [List.foldl_append, List.foldl_cons, List.foldl_nil, get_insert] at hget
    by_cases hk : e.1 = c.1
    · rw [if_pos hk] at hget
      have heq : e = c := Prod.ext hk (Option.some.inj hget).symm
      rw [heq]
      exact List.mem_append_right _ (List.mem_singleton_self c)
    · rw [if_neg hk] at hget
      exact List.mem_append_left _ (ih hget)

/-- The keys of the map are those of its entries. -/
theorem containsKey_ofEntries {l : List (κ × α)} {k : κ} :
    containsKey (ofEntries l) k = true ↔ ∃ a, (k, a) ∈ l := by
  constructor
  · intro h
    obtain ⟨a, ha⟩ := containsKey_iff.mp h
    exact ⟨a, mem_ofEntries ha⟩
  · rintro ⟨a, ha⟩
    unfold ofEntries
    induction l using List.reverseRecOn with
    | nil => cases ha
    | append_singleton l c ih =>
      rw [List.foldl_append, List.foldl_cons, List.foldl_nil]
      unfold containsKey
      rw [get_insert]
      by_cases hk : k = c.1
      · rw [if_pos hk]
        rfl
      · rw [if_neg hk]
        rcases List.mem_append.mp ha with ha | ha
        · exact ih ha
        · rw [← List.mem_singleton.mp ha] at hk
          exact absurd rfl hk

/-- **The items of a key, in order.** -/
theorem get_groupEntries (l : List (κ × α)) (k : κ) :
    (get (groupEntries l) k).getD [] = (l.filter fun e => e.1 = k).map Prod.snd := by
  unfold groupEntries
  induction l using List.reverseRecOn with
  | nil => rfl
  | append_singleton l c ih =>
    rw [List.foldl_append, List.foldl_cons, List.foldl_nil, get_push, ih, List.filter_append,
      List.map_append]
    congr 1
    by_cases hk : k = c.1
    · simp [hk]
    · simp [hk, Ne.symm hk]

theorem mem_get_groupEntries {l : List (κ × α)} {k : κ} {a : α} :
    a ∈ (get (groupEntries l) k).getD [] ↔ (k, a) ∈ l := by
  rw [get_groupEntries]
  constructor
  · intro h
    obtain ⟨e, he, rfl⟩ := List.mem_map.mp h
    obtain ⟨hmem, hk⟩ := List.mem_filter.mp he
    obtain rfl : e.1 = k := by simpa using hk
    exact hmem
  · intro h
    exact List.mem_map.mpr ⟨(k, a), List.mem_filter.mpr ⟨h, by simp⟩, rfl⟩

/-- An item of a group was filed under its key. -/
theorem mem_groupEntries {l : List (κ × α)} {e : κ × List α} (h : e ∈ groupEntries l) {a : α}
    (ha : a ∈ e.2) : (e.1, a) ∈ l := by
  refine mem_get_groupEntries.mp ?_
  rw [get_of_mem (nodup_groupEntries l) h]
  exact ha

/-- A key with an item is there. -/
theorem containsKey_groupEntries {l : List (κ × α)} {k : κ} {a : α} (h : (k, a) ∈ l) :
    containsKey (groupEntries l) k = true := by
  have hmem := mem_get_groupEntries.mpr h
  unfold containsKey
  cases hget : get (groupEntries l) k with
  | none =>
    rw [hget] at hmem
    cases hmem
  | some items => rfl

end IndexMap
