/-
# Brackets and separators

Texts with an opening and a closing bracket, and their split at the separators outside brackets.

A text is read with the number of brackets open so far (`depthAfter`), which is undefined once a bracket
closes that none opened; it is balanced when it can be read from 0 to 0.  A balanced text is in one way a
sequence of pieces, each balanced and without a separator outside its brackets (`split_eq_some_iff`), and
a text that starts with a bracket goes on behind the one that matches it (`exists_match`).
-/
import Mathlib.Data.List.Basic

namespace Brackets

variable {α : Type*} [DecidableEq α] (o c s : α)

/-! ## 1. The depth -/

/-- How many brackets are open behind a text that starts with `d` of them open. -/
def depthAfter : ℕ → List α → Option ℕ
  | d, [] => some d
  | d, x :: xs =>
    if x = o then depthAfter (d + 1) xs
    else if x = c then if d = 0 then none else depthAfter (d - 1) xs
    else depthAfter d xs

/-- Every bracket is closed, and none closes that was not open. -/
def Balanced (xs : List α) : Prop := depthAfter o c 0 xs = some 0

instance (xs : List α) : Decidable (Balanced o c xs) :=
  inferInstanceAs (Decidable (depthAfter o c 0 xs = some 0))

variable {o c s}

theorem depthAfter_append (d : ℕ) (xs ys : List α) :
    depthAfter o c d (xs ++ ys) = (depthAfter o c d xs).bind fun e => depthAfter o c e ys := by
  induction xs generalizing d with
  | nil => rfl
  | cons x xs ih =>
    rw [List.cons_append, depthAfter, depthAfter]
    split
    · exact ih _
    · split
      · split
        · rfl
        · exact ih _
      · exact ih _

/-- More brackets around a text stay open. -/
theorem depthAfter_add {d e : ℕ} {xs : List α} (h : depthAfter o c d xs = some e) (k : ℕ) :
    depthAfter o c (d + k) xs = some (e + k) := by
  induction xs generalizing d with
  | nil =>
    obtain rfl : d = e := Option.some.inj h
    rfl
  | cons x xs ih =>
    rw [depthAfter] at h ⊢
    split
    · rename_i hx
      rw [if_pos hx] at h
      rw [Nat.add_right_comm]
      exact ih h
    · rename_i hx
      rw [if_neg hx] at h
      split
      · rename_i hc
        rw [if_pos hc] at h
        split at h
        · cases h
        · rename_i hd
          rw [if_neg (by omega), Nat.sub_add_comm (by omega)]
          exact ih h
      · rename_i hc
        rw [if_neg hc] at h
        exact ih h

theorem balanced_nil : Balanced o c ([] : List α) := rfl

theorem Balanced.append {xs ys : List α} (hx : Balanced o c xs) (hy : Balanced o c ys) :
    Balanced o c (xs ++ ys) := by
  unfold Balanced at *
  rw [depthAfter_append, hx]
  exact hy

/-- A balanced text leaves the depth as it is. -/
theorem Balanced.depthAfter {xs : List α} (h : Balanced o c xs) (d : ℕ) :
    depthAfter o c d xs = some d := by
  have := depthAfter_add h d
  rwa [Nat.zero_add] at this

theorem balanced_of_notMem {xs : List α} (ho : o ∉ xs) (hc : c ∉ xs) : Balanced o c xs := by
  unfold Balanced
  induction xs with
  | nil => rfl
  | cons x xs ih =>
    rw [List.mem_cons, not_or] at ho hc
    rw [Brackets.depthAfter, if_neg (Ne.symm ho.1), if_neg (Ne.symm hc.1)]
    exact ih ho.2 hc.2

/-- A bracket around a balanced text. -/
theorem Balanced.wrap (hoc : c ≠ o) {xs : List α} (h : Balanced o c xs) :
    Balanced o c (o :: (xs ++ [c])) := by
  unfold Balanced
  rw [Brackets.depthAfter, if_pos rfl, depthAfter_append, h.depthAfter]
  simp [Brackets.depthAfter, hoc]

/-! ## 2. The split -/

variable (o c s)

/-- The pieces between the separators outside brackets, `d` brackets deep. -/
def split : ℕ → List α → Option (List α × List (List α))
  | d, [] => if d = 0 then some ([], []) else none
  | d, x :: xs =>
    if x = o then (split (d + 1) xs).map fun p => (x :: p.1, p.2)
    else if x = c then if d = 0 then none else (split (d - 1) xs).map fun p => (x :: p.1, p.2)
    else if x = s ∧ d = 0 then (split d xs).map fun p => ([], p.1 :: p.2)
    else (split d xs).map fun p => (x :: p.1, p.2)

/-- A text read from depth `d` to depth 0, without a separator at depth 0. -/
structure Piece (d : ℕ) (xs : List α) : Prop where
  ends : depthAfter o c d xs = some 0
  whole : ∀ u v, xs = u ++ s :: v → depthAfter o c d u ≠ some 0

/-- The pieces of a text. -/
structure IsSplit (parts : List (List α)) (xs : List α) : Prop where
  nonempty : parts ≠ []
  joined : xs = [s].intercalate parts
  piece : ∀ q ∈ parts, Piece o c s 0 q

variable {o c s}

theorem split_isSome_iff (d : ℕ) (xs : List α) :
    (split o c s d xs).isSome = true ↔ depthAfter o c d xs = some 0 := by
  induction xs generalizing d with
  | nil =>
    by_cases hd : d = 0 <;> simp [split, depthAfter, hd]
  | cons x xs ih =>
    rw [split, depthAfter]
    split
    · rw [Option.isSome_map]
      exact ih _
    · split
      · split
        · simp
        · rw [Option.isSome_map]
          exact ih _
      · split <;> (rw [Option.isSome_map]; exact ih _)

theorem piece_nil : Piece o c s 0 ([] : List α) :=
  ⟨rfl, fun u v h => by simp at h⟩

theorem Piece.balanced {xs : List α} (h : Piece o c s 0 xs) : Balanced o c xs := h.ends

/-- A text without brackets and separators. -/
theorem piece_of_notMem {xs : List α} (ho : o ∉ xs) (hc : c ∉ xs) (hs : s ∉ xs) : Piece o c s 0 xs :=
  ⟨balanced_of_notMem ho hc, fun u v h => absurd (h ▸ by simp) hs⟩

theorem Piece.append {xs ys : List α} (hx : Piece o c s 0 xs) (hy : Piece o c s 0 ys) :
    Piece o c s 0 (xs ++ ys) := by
  refine ⟨Balanced.append hx.ends hy.ends, fun u v h => ?_⟩
  rcases List.append_eq_append_iff.mp h.symm with ⟨m, rfl, hm⟩ | ⟨m, rfl, hm⟩
  · cases m with
    | nil =>
      have := hy.whole [] v (by simpa using hm.symm)
      exact absurd rfl this
    | cons y m =>
      obtain ⟨rfl, -⟩ := List.cons.inj hm
      exact hx.whole u m rfl
  · rw [depthAfter_append, hx.ends]
    exact hy.whole m v hm

/-- A bracket pair, whatever is inside. -/
theorem Balanced.piece (hoc : c ≠ o) (hso : s ≠ o) (hsc : s ≠ c) {xs : List α}
    (h : Balanced o c xs) : Piece o c s 0 (o :: (xs ++ [c])) := by
  refine ⟨h.wrap hoc, fun u v huv => ?_⟩
  cases u with
  | nil => exact absurd (List.cons.inj huv).1.symm hso
  | cons y u =>
    obtain ⟨rfl, htail⟩ := List.cons.inj huv
    obtain ⟨w, rfl⟩ : ∃ w, xs = u ++ s :: w := by
      rcases List.append_eq_append_iff.mp htail with ⟨m, rfl, hm⟩ | ⟨m, rfl, hm⟩
      · cases m with
        | nil =>
          obtain ⟨h', -⟩ := List.cons.inj hm
          exact absurd h'.symm hsc
        | cons y m =>
          have := congrArg List.length hm
          simp at this
      · cases m with
        | nil =>
          obtain ⟨h', -⟩ := List.cons.inj hm
          exact absurd h' hsc
        | cons y m =>
          obtain ⟨rfl, -⟩ := List.cons.inj hm
          exact ⟨m, rfl⟩
    -- inside the pair one bracket more is open
    unfold Balanced at h
    rw [depthAfter_append] at h
    obtain ⟨e, he, -⟩ := Option.bind_eq_some_iff.mp h
    rw [Brackets.depthAfter, if_pos rfl, depthAfter_add he 1]
    simp

theorem isSplit_singleton {q : List α} (h : Piece o c s 0 q) : IsSplit o c s [q] q :=
  ⟨List.cons_ne_nil _ _, by simp [List.intercalate], fun r hr => by rwa [List.mem_singleton.mp hr]⟩

theorem IsSplit.cons {q xs : List α} {parts : List (List α)} (hq : Piece o c s 0 q)
    (h : IsSplit o c s parts xs) : IsSplit o c s (q :: parts) (q ++ s :: xs) := by
  obtain ⟨hne, rfl, hpiece⟩ := h
  refine ⟨List.cons_ne_nil _ _, ?_, ?_⟩
  · cases parts with
    | nil => exact absurd rfl hne
    | cons p ps => simp [List.intercalate]
  · rintro r (_ | ⟨_, hr⟩)
    · exact hq
    · exact hpiece r hr

/-- More in front of the first piece. -/
theorem IsSplit.pad {b p xs : List α} {ps : List (List α)} (hb : Piece o c s 0 b)
    (h : IsSplit o c s (p :: ps) xs) : IsSplit o c s ((b ++ p) :: ps) (b ++ xs) := by
  obtain ⟨-, rfl, hpiece⟩ := h
  refine ⟨List.cons_ne_nil _ _, ?_, ?_⟩
  · cases ps <;> simp [List.intercalate]
  · rintro r (_ | ⟨_, hr⟩)
    · exact hb.append (hpiece p List.mem_cons_self)
    · exact hpiece r (List.mem_cons_of_mem _ hr)

theorem IsSplit.isInfix {q xs : List α} {parts : List (List α)} (h : IsSplit o c s parts xs)
    (hq : q ∈ parts) : q <:+: xs := by
  obtain ⟨-, rfl, -⟩ := h
  induction parts with
  | nil => exact absurd hq List.not_mem_nil
  | cons p ps ih =>
    cases ps with
    | nil =>
      rw [List.mem_singleton.mp hq]
      exact ⟨[], [], by simp [List.intercalate]⟩
    | cons r rs =>
      have hjoin : [s].intercalate (p :: r :: rs) = p ++ s :: [s].intercalate (r :: rs) := by
        simp [List.intercalate]
      rw [hjoin]
      rcases List.mem_cons.mp hq with rfl | hq
      · exact (List.prefix_append q _).isInfix
      · exact (ih hq).trans ⟨p ++ [s], [], by simp⟩

theorem IsSplit.length_le {q xs : List α} {parts : List (List α)} (h : IsSplit o c s parts xs)
    (hq : q ∈ parts) : q.length ≤ xs.length := (h.isInfix hq).length_le

/-- A piece goes up to the next separator, or to the end. -/
theorem split_piece (hso : s ≠ o) (hsc : s ≠ c) {d : ℕ} {xs : List α} (h : Piece o c s d xs)
    (rest : List α) :
    split o c s d (xs ++ rest) = (split o c s 0 rest).map fun p => (xs ++ p.1, p.2) := by
  induction xs generalizing d with
  | nil =>
    obtain rfl : d = 0 := Option.some.inj h.ends
    cases hs : split o c s 0 rest <;> simp [hs]
  | cons x xs ih =>
    have hends := h.ends
    rw [depthAfter] at hends
    have hwhole : ∀ e, (∀ u, depthAfter o c d (x :: u) = depthAfter o c e u) → ∀ u v,
        xs = u ++ s :: v → depthAfter o c e u ≠ some 0 := fun e he u v huv => by
      rw [← he]
      exact h.whole (x :: u) v (by rw [huv]; rfl)
    rw [List.cons_append, split]
    split
    · rename_i hx
      rw [if_pos hx] at hends
      rw [ih ⟨hends, hwhole (d + 1) fun u => by rw [depthAfter, if_pos hx]⟩, Option.map_map]
      rfl
    · rename_i hx
      rw [if_neg hx] at hends
      split
      · rename_i hc
        rw [if_pos hc] at hends
        split
        · rename_i hd
          rw [if_pos hd] at hends
          cases hends
        · rename_i hd
          rw [if_neg hd] at hends
          rw [ih ⟨hends, hwhole (d - 1) fun u => by rw [depthAfter, if_neg hx, if_pos hc, if_neg hd]⟩,
            Option.map_map]
          rfl
      · rename_i hc
        rw [if_neg hc] at hends
        rw [if_neg, ih ⟨hends, hwhole d fun u => by rw [depthAfter, if_neg hx, if_neg hc]⟩,
          Option.map_map]
        · rfl
        · rintro ⟨rfl, rfl⟩
          exact h.whole [] xs rfl rfl

/-- **The pieces are what the split finds.** -/
theorem split_of_isSplit (hso : s ≠ o) (hsc : s ≠ c) {p : List α} {ps : List (List α)} {xs : List α}
    (h : IsSplit o c s (p :: ps) xs) : split o c s 0 xs = some (p, ps) := by
  obtain ⟨-, rfl, hpiece⟩ := h
  induction ps generalizing p with
  | nil =>
    have hp := split_piece hso hsc (hpiece p List.mem_cons_self) []
    simpa [split] using hp
  | cons q ps ih =>
    have hjoin : [s].intercalate (p :: q :: ps) = p ++ (s :: [s].intercalate (q :: ps)) := by
      simp [List.intercalate]
    rw [hjoin, split_piece hso hsc (hpiece p List.mem_cons_self), split, if_neg hso, if_neg hsc,
      if_pos ⟨rfl, rfl⟩, ih fun r hr => hpiece r (List.mem_cons_of_mem _ hr)]
    simp

/-- What the split finds are the pieces. -/
theorem isSplit_of_split (hso : s ≠ o) {d : ℕ} {p : List α} {ps : List (List α)} {xs : List α}
    (h : split o c s d xs = some (p, ps)) :
    xs = [s].intercalate (p :: ps) ∧ Piece o c s d p ∧ ∀ q ∈ ps, Piece o c s 0 q := by
  induction xs generalizing d p ps with
  | nil =>
    rw [split] at h
    split at h
    · rename_i hd
      obtain ⟨rfl, rfl⟩ := Prod.mk.inj (Option.some.inj h)
      subst hd
      exact ⟨rfl, piece_nil, fun q hq => absurd hq List.not_mem_nil⟩
    · cases h
  | cons x xs ih =>
    have hcons : ∀ e : ℕ, (∀ u, depthAfter o c d (x :: u) = depthAfter o c e u) → ¬ (x = s ∧ d = 0) →
        (split o c s e xs).map (fun p => (x :: p.1, p.2)) = some (p, ps) →
        x :: xs = [s].intercalate (p :: ps) ∧ Piece o c s d p ∧ ∀ q ∈ ps, Piece o c s 0 q := by
      intro e he hx hmap
      obtain ⟨⟨q, qs⟩, hq, heq⟩ := Option.map_eq_some_iff.mp hmap
      obtain ⟨rfl, rfl⟩ := Prod.mk.inj heq
      obtain ⟨hjoin, hpiece, hps⟩ := ih hq
      refine ⟨?_, ⟨by rw [he]; exact hpiece.ends, fun u v huv => ?_⟩, hps⟩
      · rw [hjoin]
        cases qs <;> simp [List.intercalate]
      · cases u with
        | nil =>
          obtain ⟨rfl, -⟩ := List.cons.inj huv
          intro h0
          exact hx ⟨rfl, Option.some.inj h0⟩
        | cons y u =>
          obtain ⟨rfl, htail⟩ := List.cons.inj huv
          rw [he]
          exact hpiece.whole u v htail
    rw [split] at h
    split at h
    · rename_i hx
      have hs : ¬ (x = s ∧ d = 0) := by
        rintro ⟨rfl, -⟩
        exact hso hx
      exact hcons (d + 1) (fun u => by rw [depthAfter, if_pos hx]) hs h
    · rename_i hx
      split at h
      · rename_i hc
        split at h
        · cases h
        · rename_i hd
          exact hcons (d - 1) (fun u => by rw [depthAfter, if_neg hx, if_pos hc, if_neg hd])
            (fun hs => hd hs.2) h
      · rename_i hc
        split at h
        · rename_i hs
          obtain ⟨rfl, rfl⟩ := hs
          obtain ⟨⟨q, qs⟩, hq, heq⟩ := Option.map_eq_some_iff.mp h
          obtain ⟨rfl, rfl⟩ := Prod.mk.inj heq
          obtain ⟨hjoin, hpiece, hps⟩ := ih hq
          refine ⟨?_, piece_nil, ?_⟩
          · rw [hjoin]
            simp [List.intercalate]
          · rintro r (_ | ⟨_, hr⟩)
            · exact hpiece
            · exact hps r hr
        · rename_i hs
          exact hcons d (fun u => by rw [depthAfter, if_neg hx, if_neg hc]) hs h

/-- **A text splits in one way**, where its brackets are balanced. -/
theorem split_eq_some_iff (hso : s ≠ o) (hsc : s ≠ c) {p : List α} {ps : List (List α)} {xs : List α} :
    split o c s 0 xs = some (p, ps) ↔ IsSplit o c s (p :: ps) xs := by
  refine ⟨fun h => ?_, split_of_isSplit hso hsc⟩
  obtain ⟨hjoin, hp, hps⟩ := isSplit_of_split hso h
  refine ⟨List.cons_ne_nil _ _, hjoin, ?_⟩
  rintro q (_ | ⟨_, hq⟩)
  · exact hp
  · exact hps q hq

/-- A balanced text has pieces. -/
theorem exists_isSplit (hso : s ≠ o) (hsc : s ≠ c) {xs : List α} (h : Balanced o c xs) :
    ∃ parts, IsSplit o c s parts xs := by
  obtain ⟨p, hp⟩ := Option.isSome_iff_exists.mp ((split_isSome_iff 0 xs).mpr h)
  exact ⟨p.1 :: p.2, (split_eq_some_iff hso hsc).mp hp⟩

theorem IsSplit.balanced (hso : s ≠ o) (hsc : s ≠ c) {xs : List α} {parts : List (List α)}
    (h : IsSplit o c s parts xs) : Balanced o c xs := by
  cases parts with
  | nil => exact absurd rfl h.nonempty
  | cons q qs =>
    refine (split_isSome_iff (s := s) 0 xs).mp ?_
    rw [split_of_isSplit hso hsc h]
    rfl

theorem IsSplit.unique (hso : s ≠ o) (hsc : s ≠ c) {xs : List α} {ps qs : List (List α)}
    (hp : IsSplit o c s ps xs) (hq : IsSplit o c s qs xs) : ps = qs := by
  cases ps with
  | nil => exact absurd rfl hp.nonempty
  | cons p ps =>
    cases qs with
    | nil => exact absurd rfl hq.nonempty
    | cons q qs =>
      have hsplit := (split_of_isSplit hso hsc hp).symm.trans (split_of_isSplit hso hsc hq)
      obtain ⟨rfl, rfl⟩ := Prod.mk.inj (Option.some.inj hsplit)
      rfl

/-! ## 3. The matching bracket -/

/-- **The bracket that matches**: a text read from `d + 1` brackets down to `d` or fewer closes the last
of them. -/
theorem exists_match (hoc : c ≠ o) {d e : ℕ} {xs : List α} (h : depthAfter o c (d + 1) xs = some e)
    (he : e ≤ d) : ∃ inner rest, xs = inner ++ c :: rest ∧ Balanced o c inner := by
  induction hn : xs.length using Nat.strongRecOn generalizing d e xs with
  | ind n ih =>
    subst hn
    cases xs with
    | nil =>
      have := Option.some.inj h
      omega
    | cons x xs =>
      rw [depthAfter] at h
      split at h
      · rename_i hx
        obtain ⟨inner, rest, rfl, hin⟩ := ih xs.length (by simp) h (by omega) rfl
        -- behind the inner pair the outer bracket is still open
        rw [depthAfter_append, hin.depthAfter] at h
        have hrest : depthAfter o c (d + 1) rest = some e := by
          simpa [depthAfter, hoc] using h
        obtain ⟨inner', rest', rfl, hin'⟩ := ih rest.length (by simp; omega) hrest he rfl
        refine ⟨x :: (inner ++ [c]) ++ inner', rest', by simp, ?_⟩
        rw [hx]
        exact (hin.wrap hoc).append hin'
      · rename_i hx
        split at h
        · rename_i hc
          exact ⟨[], xs, by rw [hc]; rfl, balanced_nil⟩
        · rename_i hc
          obtain ⟨inner, rest, rfl, hin⟩ := ih xs.length (by simp) h he rfl
          refine ⟨x :: inner, rest, rfl, ?_⟩
          unfold Balanced
          rw [depthAfter, if_neg hx, if_neg hc]
          exact hin

end Brackets
