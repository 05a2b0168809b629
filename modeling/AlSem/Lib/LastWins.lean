/-
# Last write wins

A list of writes, each under a key: what counts is the last write of every key, in key order.

`lastOf l x` is the last write under `x`.  A list is the last writes of `l` (`IsDedup`) when it is strictly
sorted by key and holds the last write of every key, and there is one such list (`IsDedup.unique`).  Two
ways to get it: a stable sort with a pass that keeps the last of every run (`isDedup_keepLast`), and a
sorted map that overwrites (`isDedup_insertAll`).  Where whole blocks of writes repeat, the earlier ones
can be dropped first (`lastOf_flatMap_keepLastBlocks`).
-/
import Mathlib.Data.List.Nodup
import Mathlib.Data.List.Induction

namespace LastWins

variable {α β κ : Type*}

/-! ## 1. The last write of a key -/

section LastOf

variable [DecidableEq κ] {key : α → κ}

/-- The last write under a key. -/
def lastOf (key : α → κ) (l : List α) (x : κ) : Option α := (l.filter fun a => key a = x).getLast?

theorem lastOf_append (l m : List α) (x : κ) :
    lastOf key (l ++ m) x = (lastOf key m x).or (lastOf key l x) := by
  unfold lastOf
  rw [List.filter_append, List.getLast?_append]

theorem lastOf_cons (a : α) (l : List α) (x : κ) :
    lastOf key (a :: l) x = (lastOf key l x).or (if key a = x then some a else none) := by
  have h := @lastOf_append _ _ _ key [a] l x
  rw [List.singleton_append] at h
  rw [h]
  congr 1
  unfold lastOf
  by_cases hx : key a = x <;> simp [hx]

theorem lastOf_eq_none_iff {l : List α} {x : κ} : lastOf key l x = none ↔ ∀ a ∈ l, key a ≠ x := by
  simp [lastOf]

theorem lastOf_mem {l : List α} {x : κ} {a : α} (h : lastOf key l x = some a) :
    a ∈ l ∧ key a = x := by
  have hmem := List.mem_of_getLast? h
  rw [List.mem_filter, decide_eq_true_eq] at hmem
  exact hmem

theorem lastOf_map {γ : Type*} {key' : γ → κ} {f : α → γ} {l : List α}
    (hf : ∀ a ∈ l, key' (f a) = key a) (x : κ) :
    lastOf key' (l.map f) x = (lastOf key l x).map f := by
  unfold lastOf
  rw [List.filter_map, List.getLast?_map]
  have hcomp : l.filter ((fun c => decide (key' c = x)) ∘ f) = l.filter fun a => decide (key a = x) :=
    List.filter_congr fun a ha => by rw [Function.comp_apply, hf a ha]
  rw [hcomp]

end LastOf

/-! ## 2. The last writes of a list -/

section Order

variable [Ord κ] {key : α → κ}

/-- The keys increase. -/
def Increasing (key : α → κ) (r : List α) : Prop :=
  r.Pairwise fun a b => compare (key a) (key b) = .lt

/-- **The last writes of a list**, in key order. -/
structure IsDedup [DecidableEq κ] (key : α → κ) (r l : List α) : Prop where
  increasing : Increasing key r
  mem : ∀ a, a ∈ r ↔ lastOf key l (key a) = some a

variable [Std.TransOrd κ]

/-- Two increasing lists with the same entries are equal. -/
theorem Increasing.unique {r s : List α} (hr : Increasing key r) (hs : Increasing key s)
    (h : ∀ a, a ∈ r ↔ a ∈ s) : r = s := by
  have hirr : ∀ a : α, compare (key a) (key a) ≠ .lt := fun a => by
    rw [Std.ReflOrd.compare_self]
    exact nofun
  have hnodup : ∀ {t : List α}, Increasing key t → t.Nodup := fun {t} ht => by
    refine List.Pairwise.imp (fun {a b} hab => ?_) ht
    rintro rfl
    exact hirr a hab
  have hperm : r.Perm s := (List.perm_ext_iff_of_nodup (hnodup hr) (hnodup hs)).mpr h
  refine hperm.eq_of_pairwise (fun a b _ _ hab hba => ?_) hr hs
  have hgt := Std.OrientedOrd.eq_swap (a := key a) (b := key b)
  rw [hba, hab] at hgt
  cases hgt

variable [DecidableEq κ]

/-- **There is one such list**, whatever the writes that are overwritten. -/
theorem IsDedup.unique {r s l m : List α} (hr : IsDedup key r l) (hs : IsDedup key s m)
    (h : ∀ x, lastOf key l x = lastOf key m x) : r = s :=
  hr.increasing.unique hs.increasing fun a => by rw [hr.mem, hs.mem, h]

omit [Std.TransOrd κ] in
theorem IsDedup.subset {r l : List α} (h : IsDedup key r l) : r ⊆ l :=
  fun a ha => (lastOf_mem ((h.mem a).mp ha)).1

omit [Std.TransOrd κ] in
/-- The last writes under another name. -/
theorem IsDedup.map {γ : Type*} {key' : γ → κ} {f : α → γ} {r l : List α} (h : IsDedup key r l)
    (hf : ∀ a ∈ l, key' (f a) = key a) : IsDedup key' (r.map f) (l.map f) := by
  constructor
  · unfold Increasing
    rw [List.pairwise_map]
    refine h.increasing.imp_of_mem fun {a b} ha hb hab => ?_
    rwa [hf a (h.subset ha), hf b (h.subset hb)]
  · intro c
    rw [lastOf_map hf, Option.map_eq_some_iff, List.mem_map]
    constructor
    · rintro ⟨a, ha, rfl⟩
      exact ⟨a, by rw [hf a (h.subset ha)]; exact (h.mem a).mp ha, rfl⟩
    · rintro ⟨a, ha, rfl⟩
      rw [hf a (lastOf_mem ha).1] at ha
      exact ⟨a, (h.mem a).mpr ha, rfl⟩

/-! ## 3. A sort and a pass -/

/-- Keep the last of every run of equal keys: `last` is the entry kept so far. -/
def keepLast (same : α → α → Bool) : α → List α → List α
  | last, [] => [last]
  | last, a :: as => if same a last then keepLast same a as else last :: keepLast same a as

omit [Ord κ] [Std.TransOrd κ] in
theorem lastOf_keepLast {same : α → α → Bool} (hsame : ∀ a b, same a b = true ↔ key a = key b)
    (a : α) (l : List α) (x : κ) : lastOf key (keepLast same a l) x = lastOf key (a :: l) x := by
  induction l generalizing a with
  | nil => rfl
  | cons b l ih =>
    rw [keepLast]
    split
    · rename_i hs
      -- the entry dropped has the key of the next one
      have hkey := (hsame b a).mp hs
      rw [ih, lastOf_cons a (b :: l)]
      by_cases hx : key a = x
      · have hmem : lastOf key (b :: l) x ≠ none := fun hnone =>
          lastOf_eq_none_iff.mp hnone b List.mem_cons_self (hkey.trans hx)
        obtain ⟨c, hc⟩ := Option.ne_none_iff_exists'.mp hmem
        rw [hc]
        rfl
      · rw [if_neg hx, Option.or_none]
    · rw [lastOf_cons, ih, lastOf_cons a]

omit [DecidableEq κ] in
/-- The pass over a sorted list leaves increasing keys. -/
theorem keepLast_increasing [Std.LawfulEqOrd κ] {same : α → α → Bool} (hsame : ∀ a b, same a b = true ↔ key a = key b)
    {a : α} {l : List α} (hsorted : (a :: l).Pairwise fun a b => (compare (key a) (key b)).isLE) :
    Increasing key (keepLast same a l) ∧
      ∀ b ∈ keepLast same a l, (compare (key a) (key b)).isLE := by
  induction l generalizing a with
  | nil =>
    refine ⟨List.pairwise_singleton _ _, fun b hb => ?_⟩
    rw [List.mem_singleton.mp hb, Std.ReflOrd.compare_self]
    rfl
  | cons b l ih =>
    rw [List.pairwise_cons] at hsorted
    obtain ⟨hinc, hle⟩ := ih hsorted.2
    have hab := hsorted.1 b List.mem_cons_self
    rw [keepLast]
    split
    · exact ⟨hinc, fun c hc => Std.TransOrd.isLE_trans hab (hle c hc)⟩
    · rename_i hs
      refine ⟨List.pairwise_cons.mpr ⟨fun c hc => ?_, hinc⟩, ?_⟩
      · -- the next key is another one, so it is greater
        have hlt : compare (key a) (key b) = .lt := by
          rcases Ordering.isLE_iff_eq_lt_or_eq_eq.mp hab with h | h
          · exact h
          · exact absurd ((hsame b a).mpr (Std.LawfulEqOrd.eq_of_compare h).symm) hs
        exact Std.TransCmp.lt_of_lt_of_isLE hlt (hle c hc)
      · rintro c (_ | ⟨_, hc⟩)
        · rw [Std.ReflOrd.compare_self]
          rfl
        · exact Std.TransOrd.isLE_trans hab (hle c hc)

/-- An increasing list is its own last writes. -/
theorem Increasing.mem_iff {r : List α} (h : Increasing key r) (a : α) :
    a ∈ r ↔ lastOf key r (key a) = some a := by
  refine ⟨fun ha => ?_, fun ha => (lastOf_mem ha).1⟩
  induction r with
  | nil => exact absurd ha List.not_mem_nil
  | cons b r ih =>
    rw [Increasing, List.pairwise_cons] at h
    rw [lastOf_cons]
    rcases List.mem_cons.mp ha with rfl | ha
    · have hnone : lastOf key r (key a) = none := lastOf_eq_none_iff.mpr fun c hc heq => by
        have := h.1 c hc
        rw [heq, Std.ReflOrd.compare_self] at this
        cases this
      rw [hnone, if_pos rfl]
      rfl
    · rw [ih h.2 ha]
      rfl

/-- A stable sort keeps the order of the writes of a key. -/
theorem lastOf_mergeSort {le : α → α → Bool} (hle : ∀ a b, le a b = (compare (key a) (key b)).isLE)
    (l : List α) (x : κ) : lastOf key (l.mergeSort le) x = lastOf key l x := by
  have hsub : (l.filter fun a => key a = x).Sublist (l.mergeSort le) := by
    refine List.sublist_mergeSort (fun a b c hab hbc => ?_) (fun a b => ?_) ?_ List.filter_sublist
    · rw [hle] at *
      exact Std.TransOrd.isLE_trans hab hbc
    · rw [hle, hle, Bool.or_eq_true]
      have hswap := Std.OrientedOrd.eq_swap (a := key a) (b := key b)
      rw [hswap]
      cases compare (key b) (key a) <;> simp
    · refine List.Pairwise.imp_of_mem (fun {a b} ha hb _ => ?_) (List.pairwise_of_forall fun _ _ => trivial)
      rw [List.mem_filter, decide_eq_true_eq] at ha hb
      rw [hle, ha.2, hb.2, Std.ReflOrd.compare_self]
      rfl
  unfold lastOf
  have hself : (l.filter fun a => key a = x).filter (fun a => key a = x) = l.filter fun a => key a = x := by
    rw [List.filter_filter]
    simp
  have hsub' := hsub.filter fun a => decide (key a = x)
  rw [hself] at hsub'
  have hlen := ((List.mergeSort_perm l le).filter fun a => decide (key a = x)).length_eq
  rw [hsub'.eq_of_length hlen.symm]

/-- Sort, then keep the last of every run. -/
def sortKeepLast (le same : α → α → Bool) (l : List α) : List α :=
  match l.mergeSort le with
  | [] => []
  | a :: as => keepLast same a as

/-- **A stable sort and a pass give the last writes.** -/
theorem isDedup_keepLast [Std.LawfulEqOrd κ] {le same : α → α → Bool}
    (hle : ∀ a b, le a b = (compare (key a) (key b)).isLE)
    (hsame : ∀ a b, same a b = true ↔ key a = key b) (l : List α) :
    IsDedup key (sortKeepLast le same l) l := by
  have hsorted : (l.mergeSort le).Pairwise fun a b => (compare (key a) (key b)).isLE := by
    have h := @List.pairwise_mergeSort _ le (fun a b c hab hbc => ?_) (fun a b => ?_) l
    · exact h.imp fun hab => by rwa [hle] at hab
    · rw [hle] at *
      exact Std.TransOrd.isLE_trans hab hbc
    · rw [hle, hle, Bool.or_eq_true]
      have hswap := Std.OrientedOrd.eq_swap (a := key a) (b := key b)
      rw [hswap]
      cases compare (key b) (key a) <;> simp
  have hlast := fun x => lastOf_mergeSort hle l x
  unfold sortKeepLast
  generalize l.mergeSort le = m at hsorted hlast
  cases m with
  | nil =>
    refine ⟨List.Pairwise.nil, fun a => ?_⟩
    rw [← hlast]
    simp [lastOf]
  | cons a as =>
    have hinc := (keepLast_increasing hsame hsorted).1
    refine ⟨hinc, fun b => ?_⟩
    rw [← hlast, ← lastOf_keepLast hsame]
    exact hinc.mem_iff b

/-! ## 4. A sorted map -/

/-- Write into a map kept sorted by key: an entry of the key is overwritten. -/
def insert (key : α → κ) (a : α) : List α → List α
  | [] => [a]
  | b :: r =>
    match compare (key a) (key b) with
    | .lt => a :: b :: r
    | .eq => a :: r
    | .gt => b :: insert key a r

omit [Std.TransOrd κ] [DecidableEq κ] in
theorem mem_insert {a b : α} {r : List α} (h : b ∈ insert key a r) : b = a ∨ b ∈ r := by
  induction r with
  | nil => exact Or.inl (List.mem_singleton.mp h)
  | cons c r ih =>
    rw [insert] at h
    split at h
    · exact List.mem_cons.mp h
    · exact (List.mem_cons.mp h).imp id (List.mem_cons_of_mem _)
    · rcases List.mem_cons.mp h with rfl | h
      · exact Or.inr List.mem_cons_self
      · exact (ih h).imp id (List.mem_cons_of_mem _)

variable [Std.LawfulEqOrd κ]

omit [DecidableEq κ] in
theorem Increasing.insert {r : List α} (h : Increasing key r) (a : α) :
    Increasing key (insert key a r) := by
  induction r with
  | nil => exact List.pairwise_singleton _ _
  | cons b r ih =>
    rw [Increasing, List.pairwise_cons] at h
    rw [LastWins.insert]
    split
    · rename_i hab
      refine List.pairwise_cons.mpr ⟨?_, List.pairwise_cons.mpr h⟩
      rintro c (_ | ⟨_, hc⟩)
      · exact hab
      · exact Std.TransCmp.lt_trans hab (h.1 c hc)
    · rename_i hab
      refine List.pairwise_cons.mpr ⟨fun c hc => ?_, h.2⟩
      rw [Std.LawfulEqOrd.eq_of_compare hab]
      exact h.1 c hc
    · rename_i hab
      refine List.pairwise_cons.mpr ⟨fun c hc => ?_, ih h.2⟩
      rcases mem_insert hc with rfl | hc
      · exact Std.OrientedCmp.lt_of_gt hab
      · exact h.1 c hc

theorem lastOf_insert {r : List α} (h : Increasing key r) (a : α) (x : κ) :
    lastOf key (insert key a r) x = if key a = x then some a else lastOf key r x := by
  induction r with
  | nil =>
    rw [insert, lastOf_cons]
    simp [lastOf]
  | cons b r ih =>
    rw [Increasing, List.pairwise_cons] at h
    rw [insert]
    split
    · rename_i hab
      rw [lastOf_cons a]
      split
      · rename_i hx
        -- every other key is greater
        have hnone : lastOf key (b :: r) x = none := by
          refine lastOf_eq_none_iff.mpr fun c hc heq => ?_
          have hlt : compare (key a) (key c) = .lt := by
            rcases List.mem_cons.mp hc with rfl | hc
            · exact hab
            · exact Std.TransCmp.lt_trans hab (h.1 c hc)
          rw [heq, hx, Std.ReflOrd.compare_self] at hlt
          cases hlt
        rw [hnone]
        rfl
      · rw [Option.or_none]
    · rename_i hab
      have hkey := Std.LawfulEqOrd.eq_of_compare hab
      rw [lastOf_cons, lastOf_cons b]
      by_cases hx : key a = x
      · have hnone : lastOf key r x = none := by
          refine lastOf_eq_none_iff.mpr fun c hc heq => ?_
          have hlt := h.1 c hc
          rw [heq, ← hkey, hx, Std.ReflOrd.compare_self] at hlt
          cases hlt
        rw [hnone, if_pos hx, if_pos hx]
        rfl
      · have hx' : key b ≠ x := fun h => hx (hkey.trans h)
        rw [if_neg hx, if_neg hx', if_neg hx, Option.or_none]
    · rename_i hab
      rw [lastOf_cons, ih h.2, lastOf_cons b]
      by_cases hx : key a = x
      · rw [if_pos hx, if_pos hx]
        rfl
      · rw [if_neg hx, if_neg hx]

/-- All the writes, one after the other. -/
def insertAll (key : α → κ) (l : List α) : List α := l.foldl (fun r a => insert key a r) []

/-- **A sorted map that overwrites holds the last writes.** -/
theorem isDedup_insertAll (l : List α) : IsDedup key (insertAll key l) l := by
  have h : Increasing key (insertAll key l) ∧
      ∀ x, lastOf key (insertAll key l) x = lastOf key l x := by
    unfold insertAll
    induction l using List.reverseRecOn with
    | nil => exact ⟨List.Pairwise.nil, fun _ => rfl⟩
    | append_singleton l a ih =>
      rw [List.foldl_concat]
      refine ⟨ih.1.insert a, fun x => ?_⟩
      rw [lastOf_insert ih.1, lastOf_append, ih.2, lastOf_cons]
      by_cases hx : key a = x <;> simp [hx, lastOf]
  exact ⟨h.1, fun a => by rw [h.1.mem_iff, h.2]⟩

end Order

/-! ## 5. Repeated blocks -/

/-- Drop every block that comes again. -/
def keepLastBlocks [DecidableEq β] : List β → List β
  | [] => []
  | b :: bs => if b ∈ bs then keepLastBlocks bs else b :: keepLastBlocks bs

/-- **A block that comes again decides nothing.** -/
theorem lastOf_flatMap_keepLastBlocks [DecidableEq β] [DecidableEq κ] {key : α → κ} (writes : β → List α) (bs : List β) (x : κ) :
    lastOf key ((keepLastBlocks bs).flatMap writes) x = lastOf key (bs.flatMap writes) x := by
  induction bs with
  | nil => rfl
  | cons b bs ih =>
    rw [keepLastBlocks]
    split
    · rename_i hb
      rw [ih, List.flatMap_cons, lastOf_append]
      cases hrest : lastOf key (bs.flatMap writes) x with
      | some a => rfl
      | none =>
        have hnone : lastOf key (writes b) x = none := lastOf_eq_none_iff.mpr fun a ha =>
          lastOf_eq_none_iff.mp hrest a (List.mem_flatMap.mpr ⟨b, hb, ha⟩)
        rw [hnone]
        rfl
    · rw [List.flatMap_cons, List.flatMap_cons, lastOf_append, lastOf_append, ih]

end LastWins
