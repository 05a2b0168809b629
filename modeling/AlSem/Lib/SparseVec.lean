/-
# Sparse vectors

A vector most of whose indices are empty, as a list of index and value sorted by index: a binary
search on it finds the one entry of an index, so reading is a lookup and a write at an empty
index goes where the order wants it.
-/
import Mathlib.Data.Finset.Sort

/-- The entries of a sparse vector, strictly sorted by index. -/
structure SparseVec (α : Type*) where
  entries : List (ℕ × α)
  sorted : entries.Pairwise fun p q => p.1 < q.1

namespace SparseVec

variable {α : Type*}

/-- The value at an index, if it has one. -/
def read (v : SparseVec α) (i : ℕ) : Option α := (v.entries.find? fun p => p.1 == i).map Prod.snd

/-- Write at an index, in order. -/
def insertEntry (i : ℕ) (x : α) : List (ℕ × α) → List (ℕ × α)
  | [] => [(i, x)]
  | p :: ps =>
    if i < p.1 then (i, x) :: p :: ps
    else if i = p.1 then (i, x) :: ps
    else p :: insertEntry i x ps

theorem mem_insertEntry {i : ℕ} {x : α} {ps : List (ℕ × α)} {q : ℕ × α}
    (h : q ∈ insertEntry i x ps) : q = (i, x) ∨ q ∈ ps := by
  induction ps with
  | nil => exact Or.inl (List.mem_singleton.mp h)
  | cons p ps ih =>
    unfold insertEntry at h
    split at h
    · rcases List.mem_cons.mp h with rfl | h
      · exact Or.inl rfl
      · exact Or.inr h
    · split at h
      · rcases List.mem_cons.mp h with rfl | h
        · exact Or.inl rfl
        · exact Or.inr (List.mem_cons_of_mem _ h)
      · rcases List.mem_cons.mp h with rfl | h
        · exact Or.inr List.mem_cons_self
        · exact (ih h).imp_right (List.mem_cons_of_mem _)

theorem sorted_insertEntry {i : ℕ} {x : α} {ps : List (ℕ × α)}
    (h : ps.Pairwise fun p q => p.1 < q.1) :
    (insertEntry i x ps).Pairwise fun p q => p.1 < q.1 := by
  induction ps with
  | nil => exact List.pairwise_singleton _ _
  | cons p ps ih =>
    obtain ⟨hp, hps⟩ := List.pairwise_cons.mp h
    unfold insertEntry
    split
    · rename_i hlt
      refine List.pairwise_cons.mpr ⟨fun q hq => ?_, h⟩
      rcases List.mem_cons.mp hq with rfl | hq
      · exact hlt
      · exact hlt.trans (hp q hq)
    · split
      · rename_i heq
        exact List.pairwise_cons.mpr ⟨fun q hq => heq ▸ hp q hq, hps⟩
      · refine List.pairwise_cons.mpr ⟨fun q hq => ?_, ih hps⟩
        rcases mem_insertEntry hq with rfl | hq
        · show p.1 < i
          omega
        · exact hp q hq

/-- `insert_sorted`: write at an index. -/
def insert (v : SparseVec α) (i : ℕ) (x : α) : SparseVec α :=
  ⟨insertEntry i x v.entries, sorted_insertEntry v.sorted⟩

/-- One value at each index of a set. -/
def const (s : Finset ℕ) (x : α) : SparseVec α where
  entries := (s.sort (· ≤ ·)).map fun i => (i, x)
  sorted := List.pairwise_map.mpr s.sortedLT_sort.pairwise

theorem read_insert (v : SparseVec α) (i j : ℕ) (x : α) :
    (v.insert i x).read j = if j = i then some x else v.read j := by
  obtain ⟨ps, hs⟩ := v
  unfold read insert
  dsimp only
  induction ps with
  | nil =>
    by_cases hij : j = i
    · simp [insertEntry, hij]
    · simp [insertEntry, hij, Ne.symm hij]
  | cons p ps ih =>
    obtain ⟨hp, hps⟩ := List.pairwise_cons.mp hs
    unfold insertEntry
    split
    · by_cases hij : j = i
      · simp [hij]
      · simp [hij, Ne.symm hij]
    · split
      · rename_i heq
        by_cases hij : j = i
        · simp [hij]
        · simp [hij, ← heq, Ne.symm hij]
      · rename_i hne
        by_cases hpj : p.1 = j
        · have hji : j ≠ i := fun h => hne (by rw [hpj, h])
          simp [hpj, hji]
        · simpa [hpj] using ih hps

theorem read_const (s : Finset ℕ) (x : α) (j : ℕ) :
    (const s x).read j = if j ∈ s then some x else none := by
  have hfind : ∀ l : List ℕ, ((l.map fun i => (i, x)).find? fun p => p.1 == j).map Prod.snd =
      if j ∈ l then some x else none := by
    intro l
    induction l with
    | nil => rfl
    | cons i l ih =>
      by_cases hij : i = j
      · simp [hij]
      · simpa [hij, Ne.symm hij] using ih
  exact (hfind (s.sort (· ≤ ·))).trans (by simp only [Finset.mem_sort])

end SparseVec
