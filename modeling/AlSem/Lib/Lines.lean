/-
# Lines of a stream

A stream of symbols is cut into lines after each separator; a last line without one counts when it
is not empty.  `firstLine` is the line a stream starts with, `lines` the list of them, and
`lines_eq_cons` reads the list line by line.
-/
import Mathlib.Data.List.Basic

namespace Lines

variable {α : Type*} [DecidableEq α] (sep : α)

/-- The symbols up to the first separator, it included, or all of them. -/
def firstLine : List α → List α
  | [] => []
  | a :: as => if a = sep then [a] else a :: firstLine as

/-- **The lines of a stream**, each with its separator. -/
def lines : List α → List (List α)
  | [] => []
  | a :: as =>
    if a = sep then [a] :: lines as
    else
      match lines as with
      | [] => [[a]]
      | l :: ls => (a :: l) :: ls

/-! ## 1. The first line -/

@[simp] theorem firstLine_nil : firstLine sep [] = [] := rfl

theorem firstLine_append_rest : ∀ as : List α, as = firstLine sep as ++ as.drop (firstLine sep as).length
  | [] => rfl
  | a :: as => by
    by_cases ha : a = sep
    · simp [firstLine, ha]
    · have ih := firstLine_append_rest as
      simp only [firstLine, ha, if_false, List.cons_append, List.length_cons, List.drop_succ_cons]
      rw [← ih]

theorem firstLine_length_le (as : List α) : (firstLine sep as).length ≤ as.length := by
  have h := congrArg List.length (firstLine_append_rest sep as)
  rw [List.length_append] at h
  omega

theorem firstLine_ne_nil {as : List α} (h : as ≠ []) : firstLine sep as ≠ [] := by
  cases as with
  | nil => exact absurd rfl h
  | cons a as =>
    rw [firstLine]
    split <;> simp

/-- Where a chunk holds no separator the line goes on behind it. -/
theorem firstLine_append_of_notMem : ∀ {as : List α} (bs : List α), sep ∉ as →
    firstLine sep (as ++ bs) = as ++ firstLine sep bs
  | [], _, _ => rfl
  | a :: as, bs, h => by
    rw [List.mem_cons, not_or] at h
    rw [List.cons_append, firstLine, if_neg (Ne.symm h.1), firstLine_append_of_notMem bs h.2,
      List.cons_append]

/-- Where a chunk holds the separator at `i` the line ends there. -/
theorem firstLine_append_of_index : ∀ {as : List α} {i : ℕ} (bs : List α),
    as.findIdx? (fun a => decide (a = sep)) = some i → firstLine sep (as ++ bs) = as.take (i + 1)
  | [], _, _, h => by simp at h
  | a :: as, i, bs, h => by
    rw [List.findIdx?_cons] at h
    by_cases ha : a = sep
    · obtain rfl : 0 = i := by simpa [ha] using h
      simp [firstLine, ha]
    · simp only [ha, decide_false, Bool.false_eq_true, if_false, Option.map_eq_some_iff] at h
      obtain ⟨j, hj, rfl⟩ := h
      rw [List.cons_append, firstLine, if_neg ha, firstLine_append_of_index bs hj]
      rfl

/-- A separator stands only at the end of a line. -/
theorem firstLine_dropLast : ∀ as : List α, sep ∉ (firstLine sep as).dropLast
  | [] => by simp
  | a :: as => by
    by_cases ha : a = sep
    · simp [firstLine, ha]
    · have ih := firstLine_dropLast as
      rw [firstLine, if_neg ha]
      cases hl : firstLine sep as with
      | nil => simp
      | cons b bs =>
        rw [hl] at ih
        rw [List.dropLast_cons_of_ne_nil (by simp), List.mem_cons, not_or]
        exact ⟨Ne.symm ha, ih⟩

/-- Behind a cut inside a line stands the rest of the line. -/
theorem firstLine_drop : ∀ (as : List α) (n : ℕ), n ≤ (firstLine sep as).length →
    ¬ ((firstLine sep as).length = n ∧ (firstLine sep as).getLast? = some sep) →
    firstLine sep (as.drop n) = (firstLine sep as).drop n
  | _, 0, _, _ => rfl
  | [], n + 1, h, _ => by simp at h
  | a :: as, n + 1, h, hend => by
    by_cases ha : a = sep
    · subst ha
      obtain rfl : n = 0 := by
        simp [firstLine] at h
        omega
      simp [firstLine] at hend
    · rw [firstLine, if_neg ha] at h hend ⊢
      rw [List.drop_succ_cons, List.drop_succ_cons]
      have hle : n ≤ (firstLine sep as).length := by simpa using h
      refine firstLine_drop as n hle fun ⟨hlen, hlast⟩ => hend ⟨by simp [hlen], ?_⟩
      rw [List.getLast?_cons, hlast]
      rfl

/-! ## 2. All lines -/

@[simp] theorem lines_nil : lines sep [] = [] := rfl

/-- **A stream is its first line and the lines behind it.** -/
theorem lines_eq_cons : ∀ {as : List α}, as ≠ [] →
    lines sep as = firstLine sep as :: lines sep (as.drop (firstLine sep as).length)
  | [], h => absurd rfl h
  | a :: as, _ => by
    by_cases ha : a = sep
    · simp [lines, firstLine, ha]
    · rw [lines, if_neg ha, firstLine, if_neg ha]
      by_cases hnil : as = []
      · subst hnil
        simp
      · rw [lines_eq_cons hnil]
        simp

theorem lines_flatten : ∀ as : List α, (lines sep as).flatten = as
  | [] => rfl
  | a :: as => by
    have ih := lines_flatten as
    rw [lines]
    split
    · simp [ih]
    · cases hl : lines sep as with
      | nil => simpa [hl] using ih
      | cons l ls => simpa [hl] using ih

/-- **A line** is not empty and holds the separator at its end only. -/
theorem line_of_mem : ∀ {as : List α}, ∀ l ∈ lines sep as, l ≠ [] ∧ sep ∉ l.dropLast
  | [], _, h => by simp at h
  | a :: as, l, h => by
    have ih : ∀ l ∈ lines sep as, l ≠ [] ∧ sep ∉ l.dropLast := line_of_mem
    rw [lines] at h
    split at h
    · rcases List.mem_cons.mp h with rfl | h
      · simp
      · exact ih l h
    · rename_i ha
      cases hl : lines sep as with
      | nil =>
        rw [hl] at h
        obtain rfl := List.mem_singleton.mp h
        simp
      | cons m ms =>
        rw [hl] at h ih
        rcases List.mem_cons.mp h with rfl | h
        · obtain ⟨hne, hm⟩ := ih m List.mem_cons_self
          refine ⟨by simp, ?_⟩
          rw [List.dropLast_cons_of_ne_nil hne, List.mem_cons, not_or]
          exact ⟨Ne.symm ha, hm⟩
        · exact ih l (List.mem_cons_of_mem _ h)

/-! ## 3. Joined fields -/

omit [DecidableEq α] in
/-- What stands before the first separator is read back. -/
theorem eq_of_append_sep {a b as bs : List α} (ha : sep ∉ a) (hb : sep ∉ b)
    (h : a ++ sep :: as = b ++ sep :: bs) : a = b ∧ as = bs := by
  induction a generalizing b with
  | nil =>
    cases b with
    | nil => exact ⟨rfl, (List.cons.inj h).2⟩
    | cons x b => exact absurd (List.cons.inj h).1 fun hx => hb (hx ▸ List.mem_cons_self)
  | cons x a ih =>
    cases b with
    | nil => exact absurd (List.cons.inj h).1 fun hx => ha (hx ▸ List.mem_cons_self)
    | cons y b =>
      obtain ⟨rfl, hrest⟩ := List.cons.inj h
      obtain ⟨rfl, rfl⟩ := ih (fun hx => ha (List.mem_cons_of_mem _ hx))
        (fun hx => hb (List.mem_cons_of_mem _ hx)) hrest
      exact ⟨rfl, rfl⟩

omit [DecidableEq α] in
/-- What stands behind the last separator is read back. -/
theorem eq_of_sep_append {a b as bs : List α} (ha : sep ∉ a) (hb : sep ∉ b)
    (h : as ++ sep :: a = bs ++ sep :: b) : as = bs ∧ a = b := by
  have hrev := congrArg List.reverse h
  simp only [List.reverse_append, List.reverse_cons, List.append_assoc, List.singleton_append] at hrev
  obtain ⟨hlast, hfront⟩ := eq_of_append_sep sep (fun hx => ha (List.mem_reverse.mp hx))
    (fun hx => hb (List.mem_reverse.mp hx)) hrev
  exact ⟨List.reverse_inj.mp hfront, List.reverse_inj.mp hlast⟩

end Lines
