/-
# Uncertainties by their joined key

`dedupe_uncertainties` of `engine/l4/summary.rs` as the code runs it: a stable sort by a comparison that
does not build the key `kind|at` (`cmpUncertaintyKey`), and a pass that swaps the later of two equal rows
into the place of the earlier one.

The comparison is that of the built keys (`cmpUncertaintyKey_eq`), so the result is the last row of every
key, in key order (`isDedup_sortDedup`), which is what `dedupeUncertainties` computes from the keys.
-/
import AlSem.L4.Effects
import AlSem.Lib.LastWins
import AlSem.Snapshot.ByteOrder

namespace AlSem.L4

open JoinedKey LastWins

/-! ## 1. The key without building it -/

/-- `cmp_uncertainty_key_bytewise`. -/
def cmpUncertaintyKeyBytewise (a b : Uncertainty) : Ordering :=
  compare (asBytes a.kind ++ bar :: asBytes (uncertaintyAt a))
    (asBytes b.kind ++ bar :: asBytes (uncertaintyAt b))

/-- `cmp_uncertainty_key`. -/
def cmpUncertaintyKey (a b : Uncertainty) : Ordering :=
  let ka := asBytes a.kind
  let kb := asBytes b.kind
  let n := min ka.length kb.length
  match compare (ka.take n) (kb.take n) with
  | .eq =>
    match compare ka.length kb.length with
    | .eq => compare (asBytes (uncertaintyAt a)) (asBytes (uncertaintyAt b))
    -- the shorter kind goes on with the separator
    | .lt =>
      match compare bar (kb.getD n 0) with
      | .eq => cmpUncertaintyKeyBytewise a b
      | ord => ord
    | .gt =>
      match compare (ka.getD n 0) bar with
      | .eq => cmpUncertaintyKeyBytewise a b
      | ord => ord
  | ord => ord

/-- The bytes of the key. -/
def keyBytes (u : Uncertainty) : List UInt8 := asBytes (uncertaintyKey u)

theorem keyBytes_eq (u : Uncertainty) :
    keyBytes u = asBytes u.kind ++ bar :: asBytes (uncertaintyAt u) := by
  have hbar : asBytes "|" = [bar] := by decide
  unfold keyBytes uncertaintyKey
  rw [asBytes_append, asBytes_append, hbar, List.append_assoc, List.singleton_append]

/-- Equal lengths are compared first. -/
theorem compare_append_of_length {x y : List UInt8} (h : x.length = y.length) (s t : List UInt8) :
    compare (x ++ s) (y ++ t) = (compare x y).then (compare s t) := by
  induction x generalizing y with
  | nil =>
    obtain rfl := List.eq_nil_of_length_eq_zero h.symm
    rfl
  | cons a x ih =>
    cases y with
    | nil => cases h
    | cons b y =>
      rw [List.cons_append, List.cons_append, List.compare_cons_cons, List.compare_cons_cons,
        ih (Nat.succ.inj h), Ordering.then_assoc]

/-- **The comparison is that of the built keys.** -/
theorem cmpUncertaintyKey_eq (a b : Uncertainty) :
    cmpUncertaintyKey a b = compare (keyBytes a) (keyBytes b) := by
  have hwise : cmpUncertaintyKeyBytewise a b = compare (keyBytes a) (keyBytes b) := by
    rw [keyBytes_eq, keyBytes_eq]
    rfl
  unfold cmpUncertaintyKey
  rw [hwise, keyBytes_eq, keyBytes_eq]
  dsimp only
  generalize asBytes a.kind = ka
  generalize asBytes b.kind = kb
  generalize asBytes (uncertaintyAt a) = s
  generalize asBytes (uncertaintyAt b) = t
  have hwhole : compare (ka ++ bar :: s) (kb ++ bar :: t) =
      (compare (ka.take (min ka.length kb.length)) (kb.take (min ka.length kb.length))).then
        (compare (ka.drop (min ka.length kb.length) ++ bar :: s)
          (kb.drop (min ka.length kb.length) ++ bar :: t)) := by
    rw [← compare_append_of_length (by simp), ← List.append_assoc, ← List.append_assoc,
      List.take_append_drop, List.take_append_drop]
  cases hpre : compare (ka.take (min ka.length kb.length)) (kb.take (min ka.length kb.length)) with
  | lt => rw [hwhole, hpre]; rfl
  | gt => rw [hwhole, hpre]; rfl
  | eq =>
    rw [hpre, Ordering.eq_then] at hwhole
    dsimp only
    rcases Nat.lt_trichotomy ka.length kb.length with h | h | h
    · rw [Nat.compare_eq_lt.mpr h]
      dsimp only
      rw [Nat.min_eq_left h.le] at hwhole ⊢
      rw [List.drop_length, List.nil_append, List.drop_eq_getElem_cons h, List.cons_append,
        List.compare_cons_cons] at hwhole
      rw [List.getD_eq_getElem?_getD, List.getElem?_eq_getElem h, Option.getD_some]
      cases hc : compare bar kb[ka.length] with
      | eq => rfl
      | lt => rw [hwhole, hc]; rfl
      | gt => rw [hwhole, hc]; rfl
    · rw [Nat.compare_eq_eq.mpr h]
      dsimp only
      rw [h, Nat.min_self, List.drop_length, ← h, List.drop_length, List.nil_append,
        List.nil_append, List.compare_cons_cons, Std.ReflOrd.compare_self, Ordering.eq_then] at hwhole
      exact hwhole.symm
    · rw [Nat.compare_eq_gt.mpr h]
      dsimp only
      rw [Nat.min_eq_right h.le] at hwhole ⊢
      rw [List.drop_length, List.nil_append, List.drop_eq_getElem_cons h, List.cons_append,
        List.compare_cons_cons] at hwhole
      rw [List.getD_eq_getElem?_getD, List.getElem?_eq_getElem h, Option.getD_some]
      cases hc : compare ka[kb.length] bar with
      | eq => rfl
      | lt => rw [hwhole, hc]; rfl
      | gt => rw [hwhole, hc]; rfl

/-! ## 2. The last row of every key -/

/-- `dedupe_uncertainties`: a stable sort, and the later of two equal rows takes the earlier one's place. -/
def sortDedupUncertainties (list : List Uncertainty) : List Uncertainty :=
  sortKeepLast (fun a b => cmpUncertaintyKey a b != .gt) (fun a b => cmpUncertaintyKey a b == .eq) list

/-- **The last row of every key, in key order.** -/
theorem isDedup_sortDedup (list : List Uncertainty) :
    IsDedup keyBytes (sortDedupUncertainties list) list := by
  refine isDedup_keepLast (fun a b => ?_) (fun a b => ?_) list
  · rw [cmpUncertaintyKey_eq]
    cases compare (keyBytes a) (keyBytes b) <;> rfl
  · rw [cmpUncertaintyKey_eq, beq_iff_eq, Std.compare_eq_iff_eq]

/-- The pass with the built keys. -/
theorem keepLastByKey_eq (u : Uncertainty) (us : List Uncertainty) :
    keepLastByKey (u :: us) =
      keepLast (fun a b => decide (uncertaintyKey b = uncertaintyKey a)) u us := by
  induction us generalizing u with
  | nil => rfl
  | cons v us ih =>
    rw [keepLastByKey, keepLast, ih]
    by_cases h : uncertaintyKey u = uncertaintyKey v <;> simp [h]

/-- **Without building the keys the rows are the same.** -/
theorem sortDedupUncertainties_eq (list : List Uncertainty) :
    sortDedupUncertainties list = dedupeUncertainties list := by
  have hle : ∀ a b : Uncertainty, decide (uncertaintyKey a ≤ uncertaintyKey b) =
      (compare (keyBytes a) (keyBytes b)).isLE := fun a b => by
    have hlt := compare_asBytes (uncertaintyKey b) (uncertaintyKey a)
    have hswap := Std.OrientedOrd.eq_swap (a := keyBytes a) (b := keyBytes b)
    by_cases h : uncertaintyKey b < uncertaintyKey a
    · have hgt : compare (keyBytes b) (keyBytes a) = .lt := hlt.mpr h
      rw [hswap, hgt, decide_eq_false (String.not_le.mpr h)]
      rfl
    · have hne : compare (keyBytes b) (keyBytes a) ≠ .lt := fun hc => h (hlt.mp hc)
      rw [hswap, decide_eq_true (String.not_lt.mp h)]
      cases hc : compare (keyBytes b) (keyBytes a) with
      | lt => exact absurd hc hne
      | eq => rfl
      | gt => rfl
  have hpass : dedupeUncertainties list = sortKeepLast
      (fun a b => decide (uncertaintyKey a ≤ uncertaintyKey b))
      (fun a b => decide (uncertaintyKey b = uncertaintyKey a)) list := by
    unfold dedupeUncertainties sortKeepLast
    cases list.mergeSort fun a b => decide (uncertaintyKey a ≤ uncertaintyKey b) with
    | nil => rfl
    | cons u us => exact keepLastByKey_eq u us
  have hsame : ∀ a b : Uncertainty, decide (uncertaintyKey b = uncertaintyKey a) = true ↔
      keyBytes a = keyBytes b := fun a b => by
    rw [decide_eq_true_eq, keyBytes, keyBytes, asBytes_inj]
    exact eq_comm
  rw [hpass]
  exact (isDedup_sortDedup list).unique (isDedup_keepLast hle hsame list) fun _ => rfl

end AlSem.L4
