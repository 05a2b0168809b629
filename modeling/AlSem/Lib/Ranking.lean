/-
# Ranking

Sorting the indices of a list by what stands there, as programs do that must remap indices
afterwards: `order` is the sorted index list, `rank` the place an index gets, and `place` the
list in the new order.

`place` has at the rank of an index what the list had at the index, and two permutations of one
list are placed alike when the order is total on their elements.
-/
import Mathlib.Data.List.Sort
import Mathlib.Data.List.FinRange

namespace Ranking

variable {α : Type*}

/-- The indices of a list, sorted by element, by insertion.  Any sort gives this list when the order
is total on the elements and tells them apart. -/
def order (le : α → α → Bool) (l : List α) : List (Fin l.length) :=
  (List.finRange l.length).insertionSort fun a b => le (l.get a) (l.get b) = true

/-- The place of an old index. -/
def rank (le : α → α → Bool) (l : List α) (old : ℕ) : ℕ := ((order le l).map Fin.val).idxOf old

/-- The list in the new order. -/
def place (le : α → α → Bool) (l : List α) : List α := (order le l).map l.get

section Order

variable (le : α → α → Bool) (l : List α)

theorem order_perm : (order le l).Perm (List.finRange l.length) := List.perm_insertionSort _ _

theorem place_perm : (place le l).Perm l := by
  unfold place
  have h := (order_perm le l).map l.get
  simpa using h

theorem length_order : (order le l).length = l.length := by
  simpa using (order_perm le l).length_eq

theorem length_place : (place le l).length = l.length := (place_perm le l).length_eq

theorem nodup_order : ((order le l).map Fin.val).Nodup := by
  refine List.Nodup.map Fin.val_injective ?_
  exact (order_perm le l).nodup_iff.mpr (List.nodup_finRange _)

theorem mem_order (i : ℕ) : i ∈ (order le l).map Fin.val ↔ i < l.length := by
  rw [List.mem_map]
  constructor
  · rintro ⟨x, -, rfl⟩
    exact x.isLt
  · intro hi
    exact ⟨⟨i, hi⟩, (order_perm le l).mem_iff.mpr (List.mem_finRange _), rfl⟩

variable {l}

/-- The old index that got a place. -/
theorem order_rank {i : ℕ} (hi : i < l.length) :
    ((order le l).map Fin.val)[rank le l i]? = some i := by
  have hlt := List.idxOf_lt_length_of_mem ((mem_order le l i).mpr hi)
  rw [rank, List.getElem?_eq_getElem hlt, List.getElem_idxOf hlt]

variable {le}

theorem rank_inj {i j : ℕ} (hi : i < l.length) (hj : j < l.length)
    (h : rank le l i = rank le l j) : i = j := by
  have h₁ := order_rank le hi
  rw [h, order_rank le hj] at h₁
  exact (Option.some.inj h₁).symm

/-- **At the rank of an index stands what stood at the index.** -/
theorem place_rank {i : ℕ} (hi : i < l.length) : (place le l)[rank le l i]? = l[i]? := by
  have h := order_rank le hi
  rw [List.getElem?_map, Option.map_eq_some_iff] at h
  obtain ⟨x, hx, rfl⟩ := h
  rw [place, List.getElem?_map, hx, Option.map_some, List.get_eq_getElem,
    List.getElem?_eq_getElem x.isLt]

variable (le) in
/-- Every place is the rank of an index. -/
theorem exists_rank {n : ℕ} (hn : n < l.length) : ∃ i, i < l.length ∧ rank le l i = n := by
  have hlen : n < (order le l).length := by rw [length_order]; exact hn
  refine ⟨((order le l)[n]).val, ((order le l)[n]).isLt, ?_⟩
  have hmap : n < ((order le l).map Fin.val).length := by rw [List.length_map]; exact hlen
  have h := (nodup_order le l).idxOf_getElem n hmap
  rw [List.getElem_map] at h
  exact h

/-- The old index at a place, and the place's element. -/
theorem order_getElem {n i : ℕ} (h : ((order le l).map Fin.val)[n]? = some i) :
    i < l.length ∧ rank le l i = n := by
  have hi : i < l.length := (mem_order le l i).mp (List.mem_of_getElem? h)
  refine ⟨hi, ?_⟩
  have hn := (List.getElem?_eq_some_iff.mp h).1
  have hidx := (nodup_order le l).idxOf_getElem n hn
  rw [(List.getElem?_eq_some_iff.mp h).2] at hidx
  exact hidx

end Order

variable {le : α → α → Bool} {l : List α}

/-- A total order on the elements places them in order. -/
theorem place_pairwise (htrans : ∀ a ∈ l, ∀ b ∈ l, ∀ c ∈ l, le a b = true → le b c = true → le a c = true)
    (htotal : ∀ a ∈ l, ∀ b ∈ l, (le a b || le b a) = true) :
    (place le l).Pairwise fun a b => le a b = true := by
  unfold place order
  rw [List.pairwise_map]
  have : IsTrans (Fin l.length) fun a b => le (l.get a) (l.get b) = true :=
    ⟨fun a b c => htrans _ (List.get_mem _ _) _ (List.get_mem _ _) _ (List.get_mem _ _)⟩
  have : Std.Total fun a b : Fin l.length => le (l.get a) (l.get b) = true :=
    ⟨fun a b => by
      simpa only [Bool.or_eq_true] using htotal _ (List.get_mem _ a) _ (List.get_mem _ b)⟩
  exact List.pairwise_insertionSort _ _

/-- What ranks lower is before. -/
theorem le_of_rank_le (htrans : ∀ a b c, le a b = true → le b c = true → le a c = true)
    (htotal : ∀ a b, (le a b || le b a) = true) {i j : ℕ} (hi : i < l.length) (hj : j < l.length)
    (hij : rank le l i ≤ rank le l j) {a b : α} (ha : l[i]? = some a) (hb : l[j]? = some b) :
    le a b = true := by
  have hpi : (place le l)[rank le l i]? = some a := by rw [place_rank hi, ha]
  have hpj : (place le l)[rank le l j]? = some b := by rw [place_rank hj, hb]
  rcases Nat.eq_or_lt_of_le hij with heq | hlt
  · rw [heq, hpj] at hpi
    have hself := htotal a a
    rw [Bool.or_self] at hself
    rw [Option.some.inj hpi]
    exact hself
  · have hsorted := @place_pairwise _ le l (fun a _ b _ c _ => htrans a b c)
      fun a _ b _ => htotal a b
    obtain ⟨hleni, rfl⟩ := List.getElem?_eq_some_iff.mp hpi
    obtain ⟨hlenj, rfl⟩ := List.getElem?_eq_some_iff.mp hpj
    exact List.pairwise_iff_getElem.mp hsorted _ _ hleni hlenj hlt

/-- **Permutations of one list are placed alike**, under an order total on its elements. -/
theorem place_eq_of_perm {l' : List α} (hperm : l.Perm l')
    (htrans : ∀ a ∈ l, ∀ b ∈ l, ∀ c ∈ l, le a b = true → le b c = true → le a c = true)
    (htotal : ∀ a ∈ l, ∀ b ∈ l, (le a b || le b a) = true)
    (hanti : ∀ a ∈ l, ∀ b ∈ l, le a b = true → le b a = true → a = b) :
    place le l = place le l' := by
  have hmem : ∀ a, a ∈ l' ↔ a ∈ l := fun a => hperm.symm.mem_iff
  refine List.Perm.eq_of_pairwise (fun a b ha hb => ?_) (place_pairwise htrans htotal)
    (place_pairwise ?_ ?_) ((place_perm le l).trans (hperm.trans (place_perm le l').symm))
  · exact hanti a ((place_perm _ _).mem_iff.mp ha) b ((hmem b).mp ((place_perm _ _).mem_iff.mp hb))
  · simpa only [hmem] using htrans
  · simpa only [hmem] using htotal

/-! ## Comparison functions -/

section Cmp

variable {cmp : α → α → Ordering}

theorem isLE_total [Std.OrientedCmp cmp] (a b : α) : ((cmp a b).isLE || (cmp b a).isLE) = true := by
  have hswap : cmp b a = (cmp a b).swap := Std.OrientedCmp.eq_swap
  rw [hswap]
  cases cmp a b <;> rfl

/-- A comparison of images. -/
theorem transCmp_comap {β : Type*} (cmp : α → α → Ordering) [Std.TransCmp cmp] (f : β → α) :
    Std.TransCmp fun a b => cmp (f a) (f b) where
  eq_swap := Std.OrientedCmp.eq_swap
  isLE_trans := Std.TransCmp.isLE_trans

theorem nodup_of_lt [Std.OrientedCmp cmp] (h : l.Pairwise fun a b => cmp a b = .lt) : l.Nodup := by
  refine h.imp ?_
  rintro a b hab rfl
  have hself : cmp a a = .eq := Std.ReflCmp.compare_self
  rw [hself] at hab
  cases hab

/-- **Increasing lists of the same elements are equal.** -/
theorem eq_of_lt [Std.OrientedCmp cmp] {l' : List α} (h : l.Pairwise fun a b => cmp a b = .lt)
    (h' : l'.Pairwise fun a b => cmp a b = .lt) (hmem : ∀ a, a ∈ l ↔ a ∈ l') : l = l' := by
  have hperm : l.Perm l' :=
    (List.perm_ext_iff_of_nodup (nodup_of_lt h) (nodup_of_lt h')).mpr hmem
  refine List.Perm.eq_of_pairwise (fun a b _ _ hab hba => ?_) h h' hperm
  have hswap : cmp a b = (cmp b a).swap := Std.OrientedCmp.eq_swap
  rw [hswap, hba] at hab
  cases hab

/-- A list whose elements the comparison tells apart is placed in increasing order. -/
theorem place_lt [Std.TransCmp cmp] (hnd : l.Nodup) (hanti : ∀ a ∈ l, ∀ b ∈ l, cmp a b = .eq → a = b) :
    (place (fun a b => (cmp a b).isLE) l).Pairwise fun a b => cmp a b = .lt := by
  have hsorted : (place (fun a b => (cmp a b).isLE) l).Pairwise fun a b => (cmp a b).isLE = true := by
    exact place_pairwise (fun a _ b _ c _ => Std.TransCmp.isLE_trans) fun a _ b _ => isLE_total a b
  refine List.Pairwise.imp_of_mem ?_ (hsorted.and ((place_perm _ _).nodup_iff.mpr hnd))
  rintro a b ha hb ⟨hle, hne⟩
  rcases Ordering.isLE_iff_eq_lt_or_eq_eq.mp hle with hlt | heq
  · exact hlt
  · exact absurd (hanti a ((place_perm _ _).mem_iff.mp ha) b ((place_perm _ _).mem_iff.mp hb) heq) hne

end Cmp

/-! ## Equal neighbours -/

/-- Drop each element equal to the one before it. -/
def dropRepeats [DecidableEq α] : List α → List α
  | [] => []
  | [a] => [a]
  | a :: b :: l => if a = b then dropRepeats (b :: l) else a :: dropRepeats (b :: l)

theorem mem_dropRepeats [DecidableEq α] {x : α} : ∀ {l : List α}, x ∈ dropRepeats l ↔ x ∈ l
  | [] => Iff.rfl
  | [a] => Iff.rfl
  | a :: b :: l => by
    have ih := mem_dropRepeats (x := x) (l := b :: l)
    unfold dropRepeats
    split
    · rename_i hab
      rw [ih, List.mem_cons (a := x) (b := a), hab]
      exact ⟨Or.inr, fun h => h.elim (fun hx => hx ▸ List.mem_cons_self) id⟩
    · rw [List.mem_cons, ih, List.mem_cons (b := a)]

/-- **A sorted list without its repeats is increasing.** -/
theorem dropRepeats_lt [DecidableEq α] {cmp : α → α → Ordering} (hanti : ∀ a b, cmp a b = .eq → a = b)
    [Std.TransCmp cmp] : ∀ {l : List α}, (l.Pairwise fun a b => (cmp a b).isLE = true) →
    (dropRepeats l).Pairwise fun a b => cmp a b = .lt
  | [], _ => List.Pairwise.nil
  | [a], _ => List.pairwise_singleton _ _
  | a :: b :: l, h => by
    obtain ⟨hab, hbl⟩ := List.pairwise_cons.mp h
    have ih := dropRepeats_lt hanti hbl
    unfold dropRepeats
    split
    · exact ih
    · rename_i hne
      refine List.pairwise_cons.mpr ⟨fun c hc => ?_, ih⟩
      have hlt : cmp a b = .lt := by
        rcases Ordering.isLE_iff_eq_lt_or_eq_eq.mp (hab b List.mem_cons_self) with hlt | heq
        · exact hlt
        · exact absurd (hanti a b heq) hne
      rcases List.mem_cons.mp (mem_dropRepeats.mp hc) with rfl | hc
      · exact hlt
      · exact Std.TransCmp.lt_of_lt_of_isLE hlt ((List.pairwise_cons.mp hbl).1 c hc)

end Ranking
