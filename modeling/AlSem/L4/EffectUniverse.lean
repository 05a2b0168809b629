/-
# The frozen effect universe

After the solve the universe of effects is frozen (`effect_universe.rs`): ids stay as they are,
and every id gets its `key_rank`, its place in `(effect_key, operation_id)` order.  All output
is ordered by rank.

The rank is a bijection with the ids whatever the effects are called, and follows the key order
(`keyLe_of_rank`).  It separates the keys themselves as long as no operation's name has the key's
own separator in it (`effectKey_inj`).
-/
import AlSem.Lib.Ranking
import AlSem.L4.EffectStore

namespace AlSem.L4

/-! ## 1. The key of an effect -/

def EffectIdentity.effectKey (i : EffectIdentity) : String :=
  effectKeyOf i.op i.tableId i.operationId i.temp

/-- What effects are ordered by. -/
def EffectIdentity.sortKey (i : EffectIdentity) : String × String := (i.effectKey, i.operationId)

/-- `cmp` of the keys, `then_with` of the operation ids. -/
def keyLe (a b : String × String) : Bool := decide (a.1 < b.1 ∨ a.1 = b.1 ∧ a.2 ≤ b.2)

theorem keyLe_trans {a b c : String × String} (hab : keyLe a b = true) (hbc : keyLe b c = true) :
    keyLe a c = true := by
  unfold keyLe at *
  rw [decide_eq_true_iff] at *
  rcases hab with hab | ⟨hab, hab'⟩ <;> rcases hbc with hbc | ⟨hbc, hbc'⟩
  · exact Or.inl (lt_trans hab hbc)
  · exact Or.inl (hbc ▸ hab)
  · exact Or.inl (hab ▸ hbc)
  · exact Or.inr ⟨hab.trans hbc, le_trans hab' hbc'⟩

theorem keyLe_total (a b : String × String) : (keyLe a b || keyLe b a) = true := by
  unfold keyLe
  rw [Bool.or_eq_true, decide_eq_true_iff, decide_eq_true_iff]
  rcases lt_trichotomy a.1 b.1 with h | h | h
  · exact Or.inl (Or.inl h)
  · rcases le_total a.2 b.2 with h' | h'
    · exact Or.inl (Or.inr ⟨h, h'⟩)
    · exact Or.inr (Or.inr ⟨h.symm, h'⟩)
  · exact Or.inr (Or.inl h)

/-! ## 2. What a key tells -/

/-- The text in front of the first separator, and the text behind it. -/
theorem split_first {sep : Char} {a b c d : List Char} (ha : sep ∉ a) (hb : sep ∉ b)
    (h : a ++ sep :: c = b ++ sep :: d) : a = b ∧ c = d := by
  induction a generalizing b with
  | nil =>
    cases b with
    | nil => exact ⟨rfl, (List.cons.inj h).2⟩
    | cons y b => exact absurd (List.mem_cons.mpr (Or.inl (List.cons.inj h).1)) hb
  | cons x a ih =>
    cases b with
    | nil => exact absurd (List.mem_cons.mpr (Or.inl (List.cons.inj h).1.symm)) ha
    | cons y b =>
      obtain ⟨hxy, htail⟩ := List.cons.inj h
      obtain ⟨hab, hcd⟩ := ih (fun hm => ha (List.mem_cons_of_mem _ hm))
        (fun hm => hb (List.mem_cons_of_mem _ hm)) htail
      exact ⟨by rw [hxy, hab], hcd⟩

/-- The text behind the last separator, and the text in front of it. -/
theorem split_last {sep : Char} {a b c d : List Char} (hc : sep ∉ c) (hd : sep ∉ d)
    (h : a ++ sep :: c = b ++ sep :: d) : a = b ∧ c = d := by
  have hrev := congrArg List.reverse h
  simp only [List.reverse_append, List.reverse_cons, List.append_assoc,
    List.singleton_append] at hrev
  obtain ⟨hcd, hab⟩ := split_first (by simpa using hc) (by simpa using hd) hrev
  exact ⟨List.reverse_injective hab, List.reverse_injective hcd⟩

theorem bar_notMem_repr (n : ℕ) : '|' ∉ (Nat.repr n).toList := by
  rw [Nat.toList_repr]
  intro hmem
  have hdigit := Nat.isDigit_of_mem_toDigits (b := 10) (by decide) (by decide) hmem
  exact absurd hdigit (by decide)

theorem repr_inj {m n : ℕ} (h : Nat.repr m = Nat.repr n) : m = n := by
  have hdigits := congrArg String.toList h
  rw [Nat.toList_repr, Nat.toList_repr] at hdigits
  have hval := congrArg (fun cs => Nat.ofDigitChars 10 cs 0) hdigits
  simpa [Nat.ofDigitChars_toDigits] using hval

theorem keyFragment_noBar (t : TempStateKind) : '|' ∉ t.keyFragment.toList := by
  cases t with
  | known b => cases b <;> decide
  | parameterDependent i =>
    have h := bar_notMem_repr i
    simpa [TempStateKind.keyFragment, String.toList_append] using h
  | unknown => decide

theorem keyFragment_injective : Function.Injective TempStateKind.keyFragment := by
  intro s t h
  have hlist := congrArg String.toList h
  cases s with
  | known b =>
    cases t with
    | known c => cases b <;> cases c <;> first | rfl | exact absurd hlist (by decide)
    | parameterDependent i =>
      cases b <;> simp [TempStateKind.keyFragment, String.toList_append] at hlist
    | unknown => cases b <;> exact absurd hlist (by decide)
  | parameterDependent i =>
    cases t with
    | known c => cases c <;> simp [TempStateKind.keyFragment, String.toList_append] at hlist
    | parameterDependent j =>
      have hrepr : (Nat.repr i).toList = (Nat.repr j).toList := by
        simpa [TempStateKind.keyFragment, String.toList_append] using hlist
      rw [repr_inj (String.toList_inj.mp hrepr)]
    | unknown => simp [TempStateKind.keyFragment, String.toList_append] at hlist
  | unknown =>
    cases t with
    | known c => cases c <;> exact absurd hlist (by decide)
    | parameterDependent j =>
      simp [TempStateKind.keyFragment, String.toList_append] at hlist
    | unknown => rfl

/-- **Key and operation id tell an effect**, when its operation's name has no separator. -/
theorem effectKey_inj {i j : EffectIdentity} (hi : '|' ∉ i.op.toList) (hj : '|' ∉ j.op.toList)
    (h : i.sortKey = j.sortKey) : i = j := by
  obtain ⟨iop, itable, iid, itemp⟩ := i
  obtain ⟨jop, jtable, jid, jtemp⟩ := j
  have hid : iid = jid := congrArg Prod.snd h
  subst hid
  have hkey : effectKeyOf iop itable iid itemp = effectKeyOf jop jtable iid jtemp :=
    congrArg Prod.fst h
  have hlist := congrArg String.toList hkey
  have hbar : ("|" : String).toList = ['|'] := rfl
  simp only [effectKeyOf, String.toList_append, hbar, List.append_assoc,
    List.singleton_append] at hlist
  obtain ⟨hop, hrest⟩ := split_first hi hj hlist
  have hlast : (itable.toList ++ '|' :: iid.toList) ++ '|' :: itemp.keyFragment.toList =
      (jtable.toList ++ '|' :: iid.toList) ++ '|' :: jtemp.keyFragment.toList := by
    simpa using hrest
  obtain ⟨hfront, htemp⟩ := split_last (keyFragment_noBar itemp) (keyFragment_noBar jtemp) hlast
  have htable := List.append_cancel_right hfront
  have hop' : iop = jop := String.toList_inj.mp hop
  have htable' : itable = jtable := String.toList_inj.mp htable
  have htemp' : itemp = jtemp := keyFragment_injective (String.toList_inj.mp htemp)
  rw [hop', htable', htemp']

/-! ## 3. Freezing -/

/-- `compute_key_rank`: the place of every id in the sorted order, by id. -/
def computeKeyRank (keys : List String) (byId : List EffectIdentity) : List ℕ :=
  let sortKeys := keys.zip (byId.map EffectIdentity.operationId)
  (List.range byId.length).map (Ranking.rank keyLe sortKeys)

/-- `FrozenEffectUniverse`: the interned effects with their keys and ranks; only `freeze` makes
one. -/
structure FrozenEffectUniverse where
  interned : GrowingEffectUniverse
  keys : List String
  keyRank : List ℕ
  keys_eq : keys = interned.byId.map EffectIdentity.effectKey
  keyRank_eq : keyRank = computeKeyRank keys interned.byId

def GrowingEffectUniverse.freeze (u : GrowingEffectUniverse) : FrozenEffectUniverse where
  interned := u
  keys := u.byId.map EffectIdentity.effectKey
  keyRank := computeKeyRank (u.byId.map EffectIdentity.effectKey) u.byId
  keys_eq := rfl
  keyRank_eq := rfl

namespace FrozenEffectUniverse

variable (u : FrozenEffectUniverse)

/-- Number of effects; the ids below it are the universe's. -/
def len : ℕ := u.interned.byId.length

/-- The effect of an id, `none` where the source panics. -/
def identity (id : ℕ) : Option EffectIdentity := u.interned.value id

/-- The key of an id, `none` where the source panics. -/
def effectKeyCached (id : ℕ) : Option String := u.keys[id]?

/-- The rank of an id, `none` where the source panics. -/
def keyRankOf (id : ℕ) : Option ℕ := u.keyRank[id]?

/-- What the ids are sorted by. -/
def sortKeys : List (String × String) := u.interned.byId.map EffectIdentity.sortKey

theorem sortKeys_eq :
    u.keys.zip (u.interned.byId.map EffectIdentity.operationId) = u.sortKeys := by
  rw [u.keys_eq, sortKeys]
  exact List.zip_map'

theorem length_sortKeys : u.sortKeys.length = u.len := by simp [sortKeys, len]

/-- The rank of an id of the universe. -/
theorem keyRankOf_eq {id : ℕ} (h : id < u.len) :
    u.keyRankOf id = some (Ranking.rank keyLe u.sortKeys id) := by
  have hid : id < u.interned.byId.length := h
  unfold keyRankOf
  rw [u.keyRank_eq]
  unfold computeKeyRank
  dsimp only
  rw [u.sortKeys_eq, List.getElem?_map, List.getElem?_range hid]
  rfl

theorem identity_isSome {id : ℕ} (h : id < u.len) : ∃ i, u.identity id = some i :=
  ⟨u.interned.byId[id], List.getElem?_eq_getElem h⟩

theorem lt_of_identity {id : ℕ} {i : EffectIdentity} (h : u.identity id = some i) : id < u.len :=
  (List.getElem?_eq_some_iff.mp h).1

theorem effectKeyCached_eq (id : ℕ) :
    u.effectKeyCached id = (u.identity id).map EffectIdentity.effectKey := by
  rw [effectKeyCached, u.keys_eq, List.getElem?_map]
  rfl

/-- **The ranks are those of the key order**: what ranks lower sorts no later. -/
theorem keyLe_of_rank {a b : ℕ} {ia ib : EffectIdentity} (ha : u.identity a = some ia)
    (hb : u.identity b = some ib)
    (h : Ranking.rank keyLe u.sortKeys a ≤ Ranking.rank keyLe u.sortKeys b) :
    keyLe ia.sortKey ib.sortKey = true := by
  have halt : a < u.sortKeys.length := by rw [length_sortKeys]; exact u.lt_of_identity ha
  have hblt : b < u.sortKeys.length := by rw [length_sortKeys]; exact u.lt_of_identity hb
  have hget : ∀ {id : ℕ} {i : EffectIdentity}, u.identity id = some i →
      u.sortKeys[id]? = some i.sortKey := by
    intro id i hid
    rw [sortKeys, List.getElem?_map]
    have hid' : u.interned.byId[id]? = some i := hid
    rw [hid']
    rfl
  have htrans : ∀ x y z, keyLe x y = true → keyLe y z = true → keyLe x z = true :=
    fun _ _ _ => keyLe_trans
  exact Ranking.le_of_rank_le htrans keyLe_total halt hblt h (hget ha) (hget hb)

end FrozenEffectUniverse

end AlSem.L4
