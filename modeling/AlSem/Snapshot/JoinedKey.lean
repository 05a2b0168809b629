/-
# Joined sort keys

`engine/joined_key.rs`: rows are ordered by a key made of fields joined with `|`, and
`cmp_joined` compares two such keys without building them.  The order meant is the byte order
of the JOINED keys, which is not the order of the fields compared one by one: `'|'` sorts after
most letters, so the key of `ab` comes before the key of `a`.

The crux is that field boundaries line up only as far as the fields agree.  Put a `|` before
every field instead of between the fields: then two keys are compared field by field with the
same induction at every position, and the one field without a `|` before it is the first one,
where both keys lose the same byte.
-/
import Mathlib.Data.String.Basic

namespace AlSem.JoinedKey

/-! ## 1. Lexicographic comparison -/

section Lex

variable {α : Type}

section Order

variable [Ord α]

theorem compare_append_left [Std.ReflOrd α] (p a b : List α) :
    compare (p ++ a) (p ++ b) = compare a b := by
  induction p with
  | nil => rfl
  | cons x p ih =>
    rw [List.cons_append, List.cons_append, List.compare_cons_cons, Std.ReflOrd.compare_self,
      Ordering.eq_then, ih]

/-- What follows the first difference does not matter. -/
theorem compare_append_of_ne [Std.ReflOrd α] {x y : α} (h : compare x y ≠ .eq)
    (p a b : List α) : compare (p ++ x :: a) (p ++ y :: b) = compare x y := by
  rw [compare_append_left, List.compare_cons_cons]
  cases hxy : compare x y with
  | eq => exact absurd hxy h
  | lt => rfl
  | gt => rfl

end Order

/-- The length of the longest common prefix. -/
def commonLength [BEq α] (x y : List α) : ℕ :=
  ((x.zip y).takeWhile fun p => p.1 == p.2).length

variable [BEq α] [LawfulBEq α]

/-- Two lists agree below the length of their common prefix. -/
theorem take_commonLength (x y : List α) :
    x.take (commonLength x y) = y.take (commonLength x y) := by
  induction x generalizing y with
  | nil => simp [commonLength]
  | cons u x ih =>
    cases y with
    | nil => simp [commonLength]
    | cons v y =>
      by_cases huv : u = v
      · subst huv
        have hstep : commonLength (u :: x) (u :: y) = commonLength x y + 1 := by
          simp [commonLength]
        rw [hstep, List.take_succ_cons, List.take_succ_cons, ih]
      · have hstep : commonLength (u :: x) (v :: y) = 0 := by
          simp [commonLength, huv]
        rw [hstep, List.take_zero, List.take_zero]

/-- They differ at it, where both go on. -/
theorem getElem_commonLength_ne {x y : List α} (hx : commonLength x y < x.length)
    (hy : commonLength x y < y.length) : x[commonLength x y] ≠ y[commonLength x y] := by
  induction x generalizing y with
  | nil => exact absurd hx (Nat.not_lt_zero _)
  | cons u x ih =>
    cases y with
    | nil => exact absurd hy (Nat.not_lt_zero _)
    | cons v y =>
      by_cases huv : u = v
      · subst huv
        have hstep : commonLength (u :: x) (u :: y) = commonLength x y + 1 := by
          simp [commonLength]
        simp only [hstep, List.length_cons, Nat.add_lt_add_iff_right] at hx hy
        simpa only [hstep, List.getElem_cons_succ] using ih hx hy
      · have hstep : commonLength (u :: x) (v :: y) = 0 := by
          simp [commonLength, huv]
        simpa only [hstep, List.getElem_cons_zero] using huv

/-- A byte where both lists go on after their common prefix decides, whatever follows. -/
theorem compare_append_append [Ord α] [Std.LawfulEqOrd α] {x y : List α}
    (hx : commonLength x y < x.length) (hy : commonLength x y < y.length) (a b : List α) :
    compare (x ++ a) (y ++ b) = compare x[commonLength x y] y[commonLength x y] := by
  have hne : compare x[commonLength x y] y[commonLength x y] ≠ .eq := fun h =>
    getElem_commonLength_ne hx hy (Std.LawfulEqOrd.eq_of_compare h)
  have hsplit : ∀ (z : List α) (hz : commonLength x y < z.length) (c : List α),
      z ++ c = z.take (commonLength x y) ++
        z[commonLength x y] :: (z.drop (commonLength x y + 1) ++ c) := by
    intro z hz c
    rw [← List.cons_append, List.getElem_cons_drop, ← List.append_assoc,
      List.take_append_drop]
  rw [hsplit x hx a, hsplit y hy b, take_commonLength x y]
  exact compare_append_of_ne hne _ _ _

end Lex

/-! ## 2. The model -/

/-- The bytes of a string. -/
def asBytes (s : String) : List UInt8 := s.toByteArray.data.toList

/-- `b'|'`. -/
def bar : UInt8 := 124

/-- The bytes of `fields.join("|")`: every field but the first has a `|` before it. -/
def joinedBytes (fields : List String) : List UInt8 :=
  fields.zipIdx.flatMap fun p => (if p.2 > 0 then [bar] else []) ++ asBytes p.1

/-- `a.join("|").cmp(&b.join("|"))`, without building either string. -/
def cmpJoined : List String → List String → Ordering
  | x :: a, y :: b =>
    if asBytes x = asBytes y then cmpJoined a b
    else
      let common := commonLength (asBytes x) (asBytes y)
      if h : common < (asBytes x).length ∧ common < (asBytes y).length then
        compare (asBytes x)[common] (asBytes y)[common]
      -- one field is a proper prefix of the other: the field boundaries no longer line up
      else compare (joinedBytes (x :: a)) (joinedBytes (y :: b))
  | a, b => compare a.length b.length

/-! ## 3. A delimiter before every field -/

/-- The fields' bytes, a `|` before each of them. -/
def barred (fields : List String) : List UInt8 := fields.flatMap fun f => bar :: asBytes f

theorem joinedBytes_cons (f : String) (fields : List String) :
    joinedBytes (f :: fields) = asBytes f ++ barred fields := by
  have htail : ∀ (l : List String) (k : ℕ), 0 < k →
      (l.zipIdx k).flatMap (fun p => (if p.2 > 0 then [bar] else []) ++ asBytes p.1) =
        barred l := by
    intro l
    induction l with
    | nil => intro k _; rfl
    | cons g l ih =>
      intro k hk
      rw [List.zipIdx_cons, List.flatMap_cons, ih (k + 1) (Nat.succ_pos k)]
      simp [hk, barred]
  rw [joinedBytes, List.zipIdx_cons, List.flatMap_cons, htail fields (0 + 1) Nat.one_pos]
  simp

/-- Both keys lose one `|`. -/
theorem compare_barred (x y : String) (a b : List String) :
    compare (barred (x :: a)) (barred (y :: b)) =
      compare (joinedBytes (x :: a)) (joinedBytes (y :: b)) := by
  rw [joinedBytes_cons, joinedBytes_cons]
  exact compare_append_left [bar] (asBytes x ++ barred a) (asBytes y ++ barred b)

/-- **`cmpJoined` compares the barred keys**: the induction of the loop, one field a step. -/
theorem cmpJoined_barred (a b : List String) : cmpJoined a b = compare (barred a) (barred b) := by
  fun_induction cmpJoined a b with
  | case1 x a y b heq ih =>
    rw [ih, compare_barred, joinedBytes_cons, joinedBytes_cons, heq, compare_append_left]
  | case2 x a y b hne common h =>
    rw [compare_barred, joinedBytes_cons, joinedBytes_cons]
    exact (compare_append_append h.1 h.2 (barred a) (barred b)).symm
  | case3 x a y b hne common h => exact (compare_barred x y a b).symm
  | case4 a b hnil =>
    cases a with
    | nil => cases b <;> rfl
    | cons x a =>
      cases b with
      | nil => rfl
      | cons y b => exact (hnil x a y b rfl rfl).elim

/-! ## 4. The byte order of the joined keys -/

theorem asBytes_append (s t : String) : asBytes (s ++ t) = asBytes s ++ asBytes t := by
  simp [asBytes, String.toByteArray_append, ByteArray.data_append]

theorem asBytes_inj {s t : String} : asBytes s = asBytes t ↔ s = t := by
  constructor
  · intro h
    exact String.toByteArray_inj.mp (ByteArray.ext (Array.toList_inj.mp h))
  · rintro rfl
    rfl

/-- The lazy bytes are the bytes of the joined string. -/
theorem joinedBytes_eq (fields : List String) :
    joinedBytes fields = asBytes ("|".intercalate fields) := by
  induction fields with
  | nil => rfl
  | cons f fields ih =>
    cases fields with
    | nil => simp [joinedBytes_cons, barred]
    | cons g fields =>
      have hbar : asBytes "|" = [bar] := by decide
      rw [String.intercalate_cons_cons, asBytes_append, asBytes_append, ← ih, hbar,
        joinedBytes_cons, joinedBytes_cons, List.append_assoc]
      rfl

/-- The order `cmp_joined` stands for: the byte order of the joined strings. -/
def cmpJoin (a b : List String) : Ordering :=
  compare (asBytes ("|".intercalate a)) (asBytes ("|".intercalate b))

/-- The comparison without joining is the comparison of the joined strings. -/
theorem cmpJoined_eq_cmpJoin {a b : List String} (ha : a ≠ []) (hb : b ≠ []) :
    cmpJoined a b = cmpJoin a b := by
  obtain ⟨x, a, rfl⟩ := List.exists_cons_of_ne_nil ha
  obtain ⟨y, b, rfl⟩ := List.exists_cons_of_ne_nil hb
  rw [cmpJoined_barred, compare_barred, joinedBytes_eq, joinedBytes_eq, cmpJoin]

/-- **Comparing joined keys without joining is exact**: on non-empty lists it is the byte order
of the joined strings, so it is total and transitive, and two keys are equal in it exactly
where the joined strings are. -/
theorem cmpJoined_exact {a b c : List String} (ha : a ≠ []) (hb : b ≠ []) (hc : c ≠ []) :
    cmpJoined a b = cmpJoin a b ∧
      cmpJoined b a = (cmpJoined a b).swap ∧
      (cmpJoined a b ≠ .gt → cmpJoined b c ≠ .gt → cmpJoined a c ≠ .gt) ∧
      (cmpJoined a b = .eq ↔ "|".intercalate a = "|".intercalate b) := by
  rw [cmpJoined_eq_cmpJoin ha hb, cmpJoined_eq_cmpJoin hb ha, cmpJoined_eq_cmpJoin hb hc,
    cmpJoined_eq_cmpJoin ha hc]
  refine ⟨rfl, Std.OrientedOrd.eq_swap, ?_, ?_⟩
  · intro hab hbc
    have hle : (cmpJoin a c).isLE := by
      refine Std.TransOrd.isLE_trans (b := asBytes ("|".intercalate b)) ?_ ?_
      · exact Ordering.isLE_iff_ne_gt.mpr hab
      · exact Ordering.isLE_iff_ne_gt.mpr hbc
    exact Ordering.isLE_iff_ne_gt.mp hle
  · rw [cmpJoin, Std.compare_eq_iff_eq, asBytes_inj]

/-- A key whose first field starts the other's, against the order of the fields. -/
theorem cmpJoined_exact_prefix :
    cmpJoined ["a", "z"] ["ab", "z"] = cmpJoin ["a", "z"] ["ab", "z"] ∧
      cmpJoined ["ab", "z"] ["a", "z"] = (cmpJoined ["a", "z"] ["ab", "z"]).swap ∧
      (cmpJoined ["a", "z"] ["ab", "z"] ≠ .gt → cmpJoined ["ab", "z"] ["a|", ""] ≠ .gt →
        cmpJoined ["a", "z"] ["a|", ""] ≠ .gt) ∧
      (cmpJoined ["a", "z"] ["ab", "z"] = .eq ↔
        "|".intercalate ["a", "z"] = "|".intercalate ["ab", "z"]) :=
  cmpJoined_exact (by decide) (by decide) (by decide)

example : cmpJoined ["a", "z"] ["ab", "z"] = .gt := by decide

end AlSem.JoinedKey
