/-
# Splitting at a doubled separator

`split c` cuts a list at every `c c`, taken from the left: `c c c` is a cut and then a `c`.  Joining
the parts gives the list back; splitting a join gives the parts back when no part but the last ends
in `c` (`split_join`), and every list splits into such parts.  A list all of whose parts are `Clean`
can therefore stand in front of any other (`split_append`).
-/
import Mathlib.Data.List.Basic

namespace PairSplit

variable {α : Type*} [DecidableEq α]

/-! ## Splitting and joining -/

/-- One more element before the first part. -/
def prepend (a : α) : List (List α) → List (List α)
  | [] => [[a]]
  | p :: ps => (a :: p) :: ps

/-- The parts between the separators `c c`. -/
def split (c : α) : List α → List (List α)
  | [] => [[]]
  | [a] => [[a]]
  | a :: b :: rest =>
    if a = c ∧ b = c then [] :: split c rest else prepend a (split c (b :: rest))

/-- The parts with `c c` between them. -/
def join (c : α) : List (List α) → List α
  | [] => []
  | [p] => p
  | p :: q :: ps => p ++ c :: c :: join c (q :: ps)

/-- What is before the first separator, and what is after it. -/
def splitFirst (c : α) : List α → List α × List α
  | [] => ([], [])
  | [a] => ([a], [])
  | a :: b :: rest =>
    if a = c ∧ b = c then ([], rest)
    else (a :: (splitFirst c (b :: rest)).1, (splitFirst c (b :: rest)).2)

/-- It does not end in `c`. -/
def Clean (c : α) (p : List α) : Prop := p.getLast? ≠ some c

instance (c : α) (p : List α) : Decidable (Clean c p) :=
  inferInstanceAs (Decidable (p.getLast? ≠ some c))

/-- There is no separator in it. -/
def Whole (c : α) (p : List α) : Prop := split c p = [p]

variable {c : α}

theorem split_cons_cons (a b : α) (rest : List α) : split c (a :: b :: rest) =
    if a = c ∧ b = c then [] :: split c rest else prepend a (split c (b :: rest)) := rfl

theorem split_ne_nil (s : List α) : split c s ≠ [] := by
  induction s using split.induct c with
  | case1 => exact List.cons_ne_nil _ _
  | case2 a => exact List.cons_ne_nil _ _
  | case3 a b rest h _ =>
    rw [split_cons_cons, if_pos h]
    exact List.cons_ne_nil _ _
  | case4 a b rest h _ =>
    rw [split_cons_cons, if_neg h]
    cases split c (b :: rest) <;> exact List.cons_ne_nil _ _

omit [DecidableEq α] in
theorem join_cons (p : List α) {ps : List (List α)} (h : ps ≠ []) :
    join c (p :: ps) = p ++ c :: c :: join c ps := by
  cases ps with
  | nil => exact absurd rfl h
  | cons q ps => rfl

omit [DecidableEq α] in
theorem join_prepend (a : α) {ps : List (List α)} (h : ps ≠ []) :
    join c (prepend a ps) = a :: join c ps := by
  cases ps with
  | nil => exact absurd rfl h
  | cons p ps =>
    cases ps with
    | nil => rfl
    | cons q ps => rfl

/-- **Joining the parts gives the list back.** -/
theorem join_split (s : List α) : join c (split c s) = s := by
  induction s using split.induct c with
  | case1 => rfl
  | case2 a => rfl
  | case3 a b rest h ih =>
    rw [split_cons_cons, if_pos h, join_cons _ (split_ne_nil rest), ih, h.1, h.2]
    rfl
  | case4 a b rest h ih =>
    rw [split_cons_cons, if_neg h, join_prepend _ (split_ne_nil _), ih]

theorem split_injective {s t : List α} (h : split c s = split c t) : s = t := by
  rw [← join_split (c := c) s, h, join_split]

/-! ## The parts -/

theorem Whole.of_cons {a : α} {p : List α} (h : Whole c (a :: p)) : Whole c p := by
  cases p with
  | nil => rfl
  | cons b p =>
    unfold Whole at h ⊢
    rw [split_cons_cons] at h
    by_cases hab : a = c ∧ b = c
    · rw [if_pos hab] at h
      cases h
    · rw [if_neg hab] at h
      cases hs : split c (b :: p) with
      | nil => exact absurd hs (split_ne_nil _)
      | cons q qs =>
        rw [hs, prepend] at h
        obtain ⟨hq, hqs⟩ := List.cons.inj h
        rw [(List.cons.inj hq).2, hqs]

theorem Whole.not_pair {a b : α} {p : List α} (h : Whole c (a :: b :: p)) : ¬(a = c ∧ b = c) := by
  intro hab
  unfold Whole at h
  rw [split_cons_cons, if_pos hab] at h
  cases h

omit [DecidableEq α] in
theorem Clean.of_cons {a b : α} {p : List α} (h : Clean c (a :: b :: p)) : Clean c (b :: p) := by
  unfold Clean at h ⊢
  rwa [List.getLast?_cons_cons] at h

/-- A part that ends in no `c` is cut off whole. -/
theorem split_part {p : List α} (hw : Whole c p) (hc : Clean c p) (s : List α) :
    split c (p ++ c :: c :: s) = p :: split c s := by
  induction p with
  | nil =>
    rw [List.nil_append, split_cons_cons, if_pos ⟨rfl, rfl⟩]
  | cons a p ih =>
    cases p with
    | nil =>
      have ha : a ≠ c := fun h => hc (congrArg some h)
      rw [List.singleton_append, split_cons_cons, if_neg (fun h => ha h.1), split_cons_cons,
        if_pos ⟨rfl, rfl⟩, prepend]
    | cons b p =>
      rw [List.cons_append, List.cons_append, split_cons_cons, if_neg hw.not_pair, ← List.cons_append,
        ih hw.of_cons hc.of_cons, prepend]

/-- Every part is whole. -/
theorem whole_of_mem_split {s p : List α} (h : p ∈ split c s) : Whole c p := by
  induction s using split.induct c generalizing p with
  | case1 =>
    rw [List.mem_singleton.mp h]
    rfl
  | case2 a =>
    rw [List.mem_singleton.mp h]
    rfl
  | case3 a b rest hab ih =>
    rw [split_cons_cons, if_pos hab] at h
    rcases List.mem_cons.mp h with rfl | h
    · rfl
    · exact ih h
  | case4 a b rest hab ih =>
    rw [split_cons_cons, if_neg hab] at h
    cases hs : split c (b :: rest) with
    | nil => exact absurd hs (split_ne_nil _)
    | cons q qs =>
      rw [hs, prepend] at h
      rcases List.mem_cons.mp h with rfl | h
      · -- the first part begins as the list does: no separator at its front
        have hq : Whole c q := ih (by rw [hs]; exact List.mem_cons_self)
        cases q with
        | nil => rfl
        | cons b' q =>
          have hb : b' = b := by
            have hjoin := join_split (c := c) (b :: rest)
            rw [hs] at hjoin
            cases qs with
            | nil => exact (List.cons.inj hjoin).1
            | cons r qs => exact (List.cons.inj hjoin).1
          unfold Whole
          rw [split_cons_cons, hb, if_neg hab, ← hb, hq]
          rfl
      · exact ih (by rw [hs]; exact List.mem_cons_of_mem _ h)

/-- No part but the last ends in `c`. -/
theorem clean_of_mem_dropLast {s p : List α} (h : p ∈ (split c s).dropLast) : Clean c p := by
  induction s using split.induct c generalizing p with
  | case1 => cases h
  | case2 a => cases h
  | case3 a b rest hab ih =>
    rw [split_cons_cons, if_pos hab, List.dropLast_cons_of_ne_nil (split_ne_nil rest)] at h
    rcases List.mem_cons.mp h with rfl | h
    · intro hc
      cases hc
    · exact ih h
  | case4 a b rest hab ih =>
    rw [split_cons_cons, if_neg hab] at h
    cases hs : split c (b :: rest) with
    | nil => exact absurd hs (split_ne_nil _)
    | cons q qs =>
      rw [hs, prepend] at h
      rw [hs] at ih
      cases qs with
      | nil => cases h
      | cons r qs =>
        rw [List.dropLast_cons_of_ne_nil (List.cons_ne_nil r qs)] at h ih
        rcases List.mem_cons.mp h with rfl | h
        · have hq : Clean c q := ih List.mem_cons_self
          cases q with
          | nil =>
            -- the rest begins with the separator, so `a` is no `c`
            have hjoin := join_split (c := c) (b :: rest)
            rw [hs, join_cons _ (List.cons_ne_nil r qs)] at hjoin
            have hb : b = c := (List.cons.inj hjoin).1.symm
            intro hlast
            exact hab ⟨Option.some.inj hlast, hb⟩
          | cons b' q =>
            unfold Clean
            rwa [List.getLast?_cons_cons]
        · exact ih (List.mem_cons_of_mem _ h)

/-- **Splitting a join.** -/
theorem split_join {ps : List (List α)} (hne : ps ≠ []) (hw : ∀ p ∈ ps, Whole c p)
    (hc : ∀ p ∈ ps.dropLast, Clean c p) : split c (join c ps) = ps := by
  induction ps with
  | nil => exact absurd rfl hne
  | cons p ps ih =>
    cases ps with
    | nil => exact hw p List.mem_cons_self
    | cons q ps =>
      rw [List.dropLast_cons_of_ne_nil (List.cons_ne_nil q ps)] at hc
      rw [join_cons _ (List.cons_ne_nil q ps),
        split_part (hw p List.mem_cons_self) (hc p List.mem_cons_self),
        ih (List.cons_ne_nil q ps) (fun r hr => hw r (List.mem_cons_of_mem _ hr))
          fun r hr => hc r (List.mem_cons_of_mem _ hr)]

/-- **A list of clean parts in front of another.** -/
theorem split_append {t : List α} (h : ∀ p ∈ split c t, Clean c p) (s : List α) :
    split c (t ++ c :: c :: s) = split c t ++ split c s := by
  have hgo : ∀ ps : List (List α), ps ≠ [] → (∀ p ∈ ps, Whole c p) → (∀ p ∈ ps, Clean c p) →
      split c (join c ps ++ c :: c :: s) = ps ++ split c s := by
    intro ps hne hw hc
    induction ps with
    | nil => exact absurd rfl hne
    | cons p ps ih =>
      have hp := split_part (hw p List.mem_cons_self) (hc p List.mem_cons_self)
      cases ps with
      | nil => exact hp s
      | cons q ps =>
        rw [join_cons _ (List.cons_ne_nil q ps), List.append_assoc, List.cons_append,
          List.cons_append, hp, ih (List.cons_ne_nil q ps)
            (fun r hr => hw r (List.mem_cons_of_mem _ hr))
            fun r hr => hc r (List.mem_cons_of_mem _ hr)]
        rfl
  rw [← hgo _ (split_ne_nil t) (fun p hp => whole_of_mem_split hp) h, join_split]

/-- A list that does not end in `c` has clean parts only. -/
theorem clean_parts {t : List α} (h : Clean c t) : ∀ p ∈ split c t, Clean c p := by
  intro p hp
  rw [← List.dropLast_append_getLast (split_ne_nil t)] at hp
  rcases List.mem_append.mp hp with hp | hp
  · exact clean_of_mem_dropLast hp
  · rw [List.mem_singleton.mp hp]
    intro hlast
    apply h
    have hgo : ∀ ps : List (List α), (hne : ps ≠ []) →
        (ps.getLast hne).getLast? = some c → (join c ps).getLast? = some c := by
      intro ps hne hl
      induction ps with
      | nil => exact absurd rfl hne
      | cons q ps ih =>
        cases ps with
        | nil => exact hl
        | cons r ps =>
          rw [List.getLast_cons (List.cons_ne_nil r ps)] at hl
          have hrest := ih (List.cons_ne_nil r ps) hl
          rw [join_cons _ (List.cons_ne_nil r ps), List.getLast?_append, List.getLast?_cons,
            List.getLast?_cons, hrest]
          rfl
    have hjoin := hgo _ (split_ne_nil t) hlast
    rwa [join_split] at hjoin

end PairSplit
