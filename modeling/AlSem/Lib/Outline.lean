/-
# Outlines

An outline is an ordered forest: a list of items, each a leaf or a frame with items of its own.
Numbering an outline in its order gives every leaf a position and every frame a number, and a leaf
then carries the chain of the frames around it (`entries`).  What the numbers say about two leaves
is what the outline says: a leaf whose chain starts that of a later one stands before it in its frame
(`earlier_of_chain`), and leaves whose chains part do so at two items of one list
(`parting_of_partAt`).
-/
import Mathlib.Algebra.Order.Group.Int
import Mathlib.Data.List.Basic
import Mathlib.Data.List.Nodup
import Mathlib.Tactic.Linarith

namespace Outline

/-! ## 1. Outlines and their numbering -/

/-- A leaf, or a frame with items of its own. -/
inductive Item (α β : Type*) where
  | leaf (a : α)
  | frame (b : β) (items : List (Item α β))

variable {α β : Type*}

mutual

/-- The leaves of an item, in order. -/
def Item.leaves : Item α β → List α
  | .leaf a => [a]
  | .frame _ items => leaves items

/-- The leaves of an outline, in order. -/
def leaves : List (Item α β) → List α
  | [] => []
  | x :: xs => x.leaves ++ leaves xs

end

mutual

/-- How many frames an item has. -/
def Item.frames : Item α β → ℕ
  | .leaf _ => 0
  | .frame _ items => frames items + 1

/-- How many frames an outline has. -/
def frames : List (Item α β) → ℕ
  | [] => 0
  | x :: xs => x.frames + frames xs

end

/-- A leaf with its position and the chain of the frames around it, outermost first. -/
structure Entry (α β : Type*) where
  leaf : α
  order : ℕ
  chain : List (ℤ × β)

mutual

/-- The entries of an item in the frames of `chain`, from position `k` and number `f` on. -/
def Item.entries : Item α β → List (ℤ × β) → ℕ → ℤ → List (Entry α β)
  | .leaf a, chain, k, _ => [⟨a, k, chain⟩]
  | .frame b items, chain, k, f => entries items (chain ++ [(f, b)]) k (f + 1)

/-- **The entries of an outline.** -/
def entries : List (Item α β) → List (ℤ × β) → ℕ → ℤ → List (Entry α β)
  | [], _, _, _ => []
  | x :: xs, chain, k, f =>
    x.entries chain k f ++ entries xs chain (k + x.leaves.length) (f + x.frames)

end

attribute [local simp] Item.leaves leaves Item.frames frames Item.entries entries

theorem leaves_append (xs ys : List (Item α β)) : leaves (xs ++ ys) = leaves xs ++ leaves ys := by
  induction xs with
  | nil => rfl
  | cons x xs ih => simp only [List.cons_append, leaves, ih, List.append_assoc]

theorem mem_leaves_of_mem {x : Item α β} {xs : List (Item α β)} (hx : x ∈ xs) {a : α}
    (ha : a ∈ x.leaves) : a ∈ leaves xs := by
  induction xs with
  | nil => simp at hx
  | cons y ys ih =>
    rw [leaves]
    rcases List.mem_cons.mp hx with rfl | hx
    · exact List.mem_append_left _ ha
    · exact List.mem_append_right _ (ih hx)

/-! ## 2. Positions and numbers -/

mutual

theorem Item.entries_leaves : ∀ (x : Item α β) (chain : List (ℤ × β)) (k : ℕ) (f : ℤ),
    (x.entries chain k f).map Entry.leaf = x.leaves
  | .leaf _, _, _, _ => rfl
  | .frame _ items, _, _, _ => by
    simp only [Item.entries, Item.leaves]
    exact entries_leaves items _ _ _

/-- The entries are the leaves. -/
theorem entries_leaves : ∀ (xs : List (Item α β)) (chain : List (ℤ × β)) (k : ℕ) (f : ℤ),
    (entries xs chain k f).map Entry.leaf = leaves xs
  | [], _, _, _ => rfl
  | x :: xs, chain, k, f => by
    simp only [entries, leaves, List.map_append]
    rw [Item.entries_leaves x, entries_leaves xs]

end

theorem mem_leaves_of_entry {xs : List (Item α β)} {chain : List (ℤ × β)} {k : ℕ} {f : ℤ}
    {e : Entry α β} (he : e ∈ entries xs chain k f) : e.leaf ∈ leaves xs := by
  rw [← entries_leaves xs chain k f]
  exact List.mem_map_of_mem he

theorem Item.mem_leaves_of_entry {x : Item α β} {chain : List (ℤ × β)} {k : ℕ} {f : ℤ}
    {e : Entry α β} (he : e ∈ x.entries chain k f) : e.leaf ∈ x.leaves := by
  rw [← Item.entries_leaves x chain k f]
  exact List.mem_map_of_mem he

theorem exists_entry {xs : List (Item α β)} {a : α} (ha : a ∈ leaves xs) (chain : List (ℤ × β))
    (k : ℕ) (f : ℤ) : ∃ e ∈ entries xs chain k f, e.leaf = a := by
  rw [← entries_leaves xs chain k f] at ha
  exact List.mem_map.mp ha

mutual

theorem Item.entries_order : ∀ (x : Item α β) {chain : List (ℤ × β)} {k : ℕ} {f : ℤ}
    {e : Entry α β}, e ∈ x.entries chain k f → k ≤ e.order ∧ e.order < k + x.leaves.length
  | .leaf a, chain, k, f, e, he => by
    rw [Item.entries, List.mem_singleton] at he
    subst he
    exact ⟨le_refl k, by simp [Item.leaves]⟩
  | .frame b items, chain, k, f, e, he => by
    rw [Item.entries] at he
    exact entries_order items he

/-- The positions an outline uses. -/
theorem entries_order : ∀ (xs : List (Item α β)) {chain : List (ℤ × β)} {k : ℕ} {f : ℤ}
    {e : Entry α β}, e ∈ entries xs chain k f → k ≤ e.order ∧ e.order < k + (leaves xs).length
  | [], chain, k, f, e, he => by simp [entries] at he
  | x :: xs, chain, k, f, e, he => by
    rw [entries] at he
    rw [leaves, List.length_append]
    rcases List.mem_append.mp he with he | he
    · have hx := Item.entries_order x he
      omega
    · have hxs := entries_order xs he
      omega

end

mutual

theorem Item.entries_chain : ∀ (x : Item α β) {chain : List (ℤ × β)} {k : ℕ} {f : ℤ}
    {e : Entry α β}, e ∈ x.entries chain k f →
    ∃ d, e.chain = chain ++ d ∧ ∀ p ∈ d, f ≤ p.1 ∧ p.1 < f + x.frames
  | .leaf a, chain, k, f, e, he => by
    rw [Item.entries, List.mem_singleton] at he
    subst he
    exact ⟨[], by simp, by simp⟩
  | .frame b items, chain, k, f, e, he => by
    rw [Item.entries] at he
    obtain ⟨d, hd, hnum⟩ := entries_chain items he
    refine ⟨(f, b) :: d, by simp [hd], fun p hp => ?_⟩
    rw [Item.frames]
    push_cast
    rcases List.mem_cons.mp hp with rfl | hp
    · exact ⟨le_refl _, by omega⟩
    · have := hnum p hp
      omega

/-- The numbers an outline uses: an entry's chain goes on with frames of the outline. -/
theorem entries_chain : ∀ (xs : List (Item α β)) {chain : List (ℤ × β)} {k : ℕ} {f : ℤ}
    {e : Entry α β}, e ∈ entries xs chain k f →
    ∃ d, e.chain = chain ++ d ∧ ∀ p ∈ d, f ≤ p.1 ∧ p.1 < f + frames xs
  | [], chain, k, f, e, he => by simp [entries] at he
  | x :: xs, chain, k, f, e, he => by
    rw [entries] at he
    rw [frames]
    push_cast
    rcases List.mem_append.mp he with he | he
    · obtain ⟨d, hd, hnum⟩ := Item.entries_chain x he
      refine ⟨d, hd, fun p hp => ?_⟩
      have := hnum p hp
      omega
    · obtain ⟨d, hd, hnum⟩ := entries_chain xs he
      refine ⟨d, hd, fun p hp => ?_⟩
      have := hnum p hp
      omega

end

mutual

theorem Item.entries_depth : ∀ (x : Item α β) {chain : List (ℤ × β)} {k : ℕ} {f : ℤ}
    {e : Entry α β}, e ∈ x.entries chain k f → e.chain.length ≤ chain.length + x.frames
  | .leaf a, chain, k, f, e, he => by
    rw [Item.entries, List.mem_singleton] at he
    rw [he]
    exact Nat.le_add_right _ _
  | .frame b items, chain, k, f, e, he => by
    rw [Item.entries] at he
    have hdepth := entries_depth items he
    rw [List.length_append, List.length_singleton] at hdepth
    rw [Item.frames]
    omega

/-- A chain has no more frames than the outline. -/
theorem entries_depth : ∀ (xs : List (Item α β)) {chain : List (ℤ × β)} {k : ℕ} {f : ℤ}
    {e : Entry α β}, e ∈ entries xs chain k f → e.chain.length ≤ chain.length + frames xs
  | [], chain, k, f, e, he => by simp [entries] at he
  | x :: xs, chain, k, f, e, he => by
    rw [entries] at he
    rw [frames]
    rcases List.mem_append.mp he with he | he
    · have := Item.entries_depth x he
      omega
    · have := entries_depth xs he
      omega

end

/-! ## 3. Leaves of one frame -/

/-- **`a` stands before `b`**: `a` is a leaf of the list itself, or of that of a frame within, and
`b` is a later item or in one, which is no frame unless `pass` lets it through. -/
inductive Earlier (pass : β → Prop) : List (Item α β) → α → α → Prop
  | here {xs a y b} : [.leaf a, y].Sublist xs → b ∈ y.leaves →
      (∀ p ys, y = .frame p ys → pass p) → Earlier pass xs a b
  | under {xs p ys a b} : Item.frame p ys ∈ xs → Earlier pass ys a b → Earlier pass xs a b

variable {pass : β → Prop}

theorem Earlier.mono {xs ys : List (Item α β)} {a b : α} (h : Earlier pass xs a b)
    (hsub : xs.Sublist ys) : Earlier pass ys a b := by
  cases h with
  | here h hb hpass => exact .here (h.trans hsub) hb hpass
  | under hmem h => exact .under (hsub.subset hmem) h

theorem mem_leaves_of_frame {xs ys : List (Item α β)} {p : β} (hmem : Item.frame p ys ∈ xs)
    {a : α} (ha : a ∈ leaves ys) : a ∈ leaves xs :=
  mem_leaves_of_mem hmem ha

theorem Earlier.mem_leaves {xs : List (Item α β)} {a b : α} (h : Earlier pass xs a b) :
    b ∈ leaves xs := by
  induction h with
  | here hsub hb _ => exact mem_leaves_of_mem (hsub.subset (by simp)) hb
  | under hmem _ ih => exact mem_leaves_of_frame hmem ih

/-- What stands before a leaf that is not in the rest of the list does so without the rest. -/
theorem Earlier.left {xs ys : List (Item α β)} {a b : α} (h : Earlier pass (xs ++ ys) a b)
    (hb : b ∉ leaves ys) : Earlier pass xs a b := by
  cases h with
  | @here _ _ y _ hsub hleaf hpass =>
    obtain ⟨l₁, l₂, heq, h₁, h₂⟩ := List.sublist_append_iff.mp hsub
    rcases List.eq_nil_or_concat l₂ with rfl | ⟨l, z, rfl⟩
    · rw [List.append_nil] at heq
      exact .here (heq ▸ h₁) hleaf hpass
    · -- the later item would be in the rest
      have hlast := congrArg List.getLast? heq
      rw [List.concat_eq_append, ← List.append_assoc, List.getLast?_concat] at hlast
      obtain rfl : y = z := Option.some.inj hlast
      exact absurd (mem_leaves_of_mem (h₂.subset (by simp)) hleaf) hb
  | under hmem h =>
    rcases List.mem_append.mp hmem with hmem | hmem
    · exact .under hmem h
    · exact absurd (mem_leaves_of_frame hmem h.mem_leaves) hb

/-- What stands before a leaf of the rest of the list is of the rest, or a leaf of the list before
the rest. -/
theorem Earlier.right {xs ys : List (Item α β)} {a b : α} (h : Earlier pass (xs ++ ys) a b)
    (hb : b ∉ leaves xs) : Earlier pass ys a b ∨
      Item.leaf a ∈ xs ∧ ∃ y ∈ ys, ∀ p zs, y = .frame p zs → pass p := by
  cases h with
  | @here _ _ y _ hsub hleaf hpass =>
    obtain ⟨l₁, l₂, heq, h₁, h₂⟩ := List.sublist_append_iff.mp hsub
    cases l₁ with
    | nil => exact Or.inl (.here (heq ▸ h₂) hleaf hpass)
    | cons z l₁ =>
      obtain ⟨rfl, htail⟩ := List.cons.inj heq
      cases l₁ with
      | nil =>
        have htail' : [y] = l₂ := htail
        have hy : y ∈ l₂ := htail' ▸ List.mem_cons_self
        exact Or.inr ⟨h₁.subset List.mem_cons_self, y, h₂.subset hy, hpass⟩
      | cons z' l₁ =>
        obtain ⟨rfl, -⟩ := List.cons.inj htail
        exact absurd (mem_leaves_of_mem (h₁.subset (by simp)) hleaf) hb
  | under hmem h =>
    rcases List.mem_append.mp hmem with hmem | hmem
    · exact absurd (mem_leaves_of_frame hmem h.mem_leaves) hb
    · exact Or.inl (.under hmem h)

theorem not_earlier_nil {a b : α} : ¬ Earlier pass ([] : List (Item α β)) a b := by
  intro h
  exact absurd h.mem_leaves List.not_mem_nil

/-- In a single frame. -/
theorem Earlier.frame {p : β} {ys : List (Item α β)} {a b : α}
    (h : Earlier pass [.frame p ys] a b) : Earlier pass ys a b := by
  cases h with
  | here hsub _ _ =>
    have := hsub.length_le
    simp at this
  | under hmem h =>
    obtain ⟨-, rfl⟩ := Item.frame.inj (List.mem_singleton.mp hmem)
    exact h

/-- An entry is that of an item of the list. -/
theorem item_of_entry {xs : List (Item α β)} {chain : List (ℤ × β)} {k : ℕ} {f : ℤ}
    {e : Entry α β} (he : e ∈ entries xs chain k f) :
    ∃ x ∈ xs, ∃ k' f', e ∈ x.entries chain k' f' := by
  induction xs generalizing k f with
  | nil => simp [entries] at he
  | cons x xs ih =>
    rw [entries] at he
    rcases List.mem_append.mp he with he | he
    · exact ⟨x, List.mem_cons_self, k, f, he⟩
    · obtain ⟨y, hy, k', f', he⟩ := ih he
      exact ⟨y, List.mem_cons_of_mem _ hy, k', f', he⟩

/-- An item one of whose chains is no longer than the frames around it is a leaf. -/
theorem Item.leaf_of_chain {x : Item α β} {chain : List (ℤ × β)} {k : ℕ} {f : ℤ}
    {e : Entry α β} (he : e ∈ x.entries chain k f) (hchain : e.chain = chain) :
    x = .leaf e.leaf := by
  cases x with
  | leaf a =>
    rw [Item.entries, List.mem_singleton] at he
    rw [he]
  | frame p ys =>
    rw [Item.entries] at he
    obtain ⟨d, hd, -⟩ := Outline.entries_chain ys he
    rw [hd] at hchain
    simp at hchain

mutual

theorem Item.earlier_of_chain : ∀ (x : Item α β) {chain : List (ℤ × β)} {k : ℕ} {f : ℤ}
    {e e' : Entry α β}, e ∈ x.entries chain k f → e' ∈ x.entries chain k f →
    e.order < e'.order → e.chain.map Prod.fst <+: e'.chain.map Prod.fst →
    (∀ p ∈ e'.chain.drop e.chain.length, pass p.2) → Earlier pass [x] e.leaf e'.leaf
  | .leaf a, chain, k, f, e, e', he, he', horder, _, _ => by
    rw [Item.entries, List.mem_singleton] at he he'
    rw [he, he'] at horder
    exact absurd horder (lt_irrefl _)
  | .frame b items, chain, k, f, e, e', he, he', horder, hchain, hpass => by
    rw [Item.entries] at he he'
    exact .under List.mem_cons_self (earlier_of_chain items he he' horder hchain hpass)

/-- **A leaf whose chain is the start of a later leaf's stands before it.** -/
theorem earlier_of_chain : ∀ (xs : List (Item α β)) {chain : List (ℤ × β)} {k : ℕ} {f : ℤ}
    {e e' : Entry α β}, e ∈ entries xs chain k f → e' ∈ entries xs chain k f →
    e.order < e'.order → e.chain.map Prod.fst <+: e'.chain.map Prod.fst →
    (∀ p ∈ e'.chain.drop e.chain.length, pass p.2) → Earlier pass xs e.leaf e'.leaf
  | [], chain, k, f, e, e', he, _, _, _, _ => by simp [entries] at he
  | x :: xs, chain, k, f, e, e', he, he', horder, hchain, hpass => by
    rw [entries] at he he'
    rcases List.mem_append.mp he with he | he <;> rcases List.mem_append.mp he' with he' | he'
    · have hx := Item.earlier_of_chain x he he' horder hchain hpass
      exact hx.mono (List.singleton_sublist.mpr List.mem_cons_self)
    · -- an item of the list and a later one share no frame, so the first is a leaf
      obtain ⟨d, hd, hnum⟩ := Item.entries_chain x he
      obtain ⟨d', hd', hnum'⟩ := entries_chain xs he'
      have hnil : d = [] := by
        cases hd0 : d with
        | nil => rfl
        | cons p d₁ =>
          rw [hd, hd', List.map_append, List.map_append, List.prefix_append_right_inj, hd0]
            at hchain
          cases d' with
          | nil => simp at hchain
          | cons p' d₁' =>
            have hp := hnum p (hd0 ▸ List.mem_cons_self)
            have hp' := hnum' p' List.mem_cons_self
            have heq : p.1 = p'.1 := (List.cons_prefix_cons.mp hchain).1
            omega
      have heq : e.chain = chain := by rw [hd, hnil, List.append_nil]
      obtain ⟨y, hy, k', f', hey⟩ := item_of_entry he'
      have hsub : [Item.leaf e.leaf, y].Sublist ([x] ++ xs) :=
        (List.singleton_sublist.mpr (Item.leaf_of_chain he heq ▸ List.mem_cons_self)).append
          (List.singleton_sublist.mpr hy)
      refine .here hsub (Item.mem_leaves_of_entry hey) ?_
      rintro p ys rfl
      rw [Item.entries] at hey
      obtain ⟨u, hu, -⟩ := entries_chain ys hey
      refine hpass (f', p) ?_
      rw [heq, hu, List.append_assoc, List.drop_left]
      exact List.mem_cons_self
    · have hx := Item.entries_order x he'
      have hxs := entries_order xs he
      omega
    · exact (earlier_of_chain xs he he' horder hchain hpass).mono (List.sublist_cons_self x xs)

end

/-! ## 4. Lists within an outline, and chains that part -/

/-- `zs` is the outline's list, or that of a frame within. -/
inductive Within : List (Item α β) → List (Item α β) → Prop
  | here {xs} : Within xs xs
  | under {xs p ys zs} : Item.frame p ys ∈ xs → Within ys zs → Within xs zs

theorem Within.mono {xs ys zs : List (Item α β)} (h : Within xs zs) (hsub : xs.Sublist ys) :
    Within ys zs ∨ zs = xs := by
  cases h with
  | here => exact Or.inr rfl
  | under hmem h => exact Or.inl (.under (hsub.subset hmem) h)

/-- How many frames two chains share at their start. -/
def commonLength : List (ℤ × β) → List (ℤ × β) → ℕ
  | p :: c, q :: d => if p.1 = q.1 then commonLength c d + 1 else 0
  | _, _ => 0

theorem commonLength_append (c d d' : List (ℤ × β)) :
    commonLength (c ++ d) (c ++ d') = c.length + commonLength d d' := by
  induction c with
  | nil => simp
  | cons p c ih =>
    simp only [List.cons_append, commonLength, if_true, ih, List.length_cons]
    omega

/-- The chains part at two frames that satisfy `sel`. -/
def PartAt (sel : β → Prop) (l m : List (ℤ × β)) : Prop :=
  ∃ p q, l[commonLength l m]? = some p ∧ m[commonLength l m]? = some q ∧ sel p.2 ∧ sel q.2

theorem partAt_append {sel : β → Prop} {c d d' : List (ℤ × β)} :
    PartAt sel (c ++ d) (c ++ d') ↔ PartAt sel d d' := by
  unfold PartAt
  rw [commonLength_append]
  simp only [List.getElem?_append_right (Nat.le_add_right _ _), Nat.add_sub_cancel_left]

/-- Two frames of one list of the outline that satisfy `sel`, one around `a` and one around `b`. -/
def Parting (sel : β → Prop) (xs : List (Item α β)) (a b : α) : Prop :=
  ∃ zs p ys q ys', Within xs zs ∧
    ([Item.frame p ys, Item.frame q ys'].Sublist zs ∨
      [Item.frame q ys', Item.frame p ys].Sublist zs) ∧
    sel p ∧ sel q ∧ a ∈ leaves ys ∧ b ∈ leaves ys'

theorem Parting.under {sel : β → Prop} {xs ys : List (Item α β)} {p : β} {a b : α}
    (hmem : Item.frame p ys ∈ xs) (h : Parting sel ys a b) : Parting sel xs a b := by
  obtain ⟨zs, p', ys', q', ws, hwithin, hrest⟩ := h
  exact ⟨zs, p', ys', q', ws, .under hmem hwithin, hrest⟩

/-- What parts the leaves of a part of the list parts them in the list. -/
theorem Parting.mono {sel : β → Prop} {xs ys : List (Item α β)} {a b : α}
    (h : Parting sel xs a b) (hsub : xs.Sublist ys) : Parting sel ys a b := by
  obtain ⟨zs, p, us, q, vs, hwithin, hpair, hrest⟩ := h
  rcases hwithin.mono hsub with hwithin | rfl
  · exact ⟨zs, p, us, q, vs, hwithin, hpair, hrest⟩
  · exact ⟨ys, p, us, q, vs, .here, hpair.imp (·.trans hsub) (·.trans hsub), hrest⟩

/-- The first frame an entry's chain goes on with is an item of the list. -/
theorem frame_of_chain {xs : List (Item α β)} {chain : List (ℤ × β)} {k : ℕ} {f i : ℤ}
    {e : Entry α β} {p : β} {d : List (ℤ × β)} (he : e ∈ entries xs chain k f)
    (hd : e.chain = chain ++ (i, p) :: d) : ∃ ys, Item.frame p ys ∈ xs ∧ e.leaf ∈ leaves ys := by
  induction xs generalizing k f with
  | nil => simp [entries] at he
  | cons x xs ih =>
    rw [entries] at he
    rcases List.mem_append.mp he with he | he
    · cases x with
      | leaf a =>
        rw [Item.entries, List.mem_singleton] at he
        rw [he] at hd
        simp at hd
      | frame b ys =>
        rw [Item.entries] at he
        obtain ⟨d', hd', -⟩ := entries_chain ys he
        rw [hd', List.append_assoc, List.append_cancel_left_eq] at hd
        have hb : b = p := congrArg Prod.snd (List.cons.inj hd).1
        exact ⟨ys, hb ▸ List.mem_cons_self, mem_leaves_of_entry he⟩
    · obtain ⟨ys, hmem, hleaf⟩ := ih he
      exact ⟨ys, List.mem_cons_of_mem _ hmem, hleaf⟩

/-- An item's entries and those of later items share no frame but those around them all. -/
theorem commonLength_of_items {x : Item α β} {xs : List (Item α β)} {chain : List (ℤ × β)}
    {k k' : ℕ} {f : ℤ} {e e' : Entry α β} {d d' : List (ℤ × β)} (he : e ∈ x.entries chain k f)
    (he' : e' ∈ entries xs chain k' (f + x.frames)) (hd : e.chain = chain ++ d)
    (hd' : e'.chain = chain ++ d') : commonLength d d' = 0 ∧ commonLength d' d = 0 := by
  obtain ⟨d₀, hd₀, hnum⟩ := Item.entries_chain x he
  obtain ⟨d₀', hd₀', hnum'⟩ := entries_chain xs he'
  obtain rfl : d = d₀ := List.append_cancel_left (hd.symm.trans hd₀)
  obtain rfl : d' = d₀' := List.append_cancel_left (hd'.symm.trans hd₀')
  cases d with
  | nil => cases d' <;> simp [commonLength]
  | cons p d =>
    cases d' with
    | nil => simp [commonLength]
    | cons p' d' =>
      have hp := hnum p List.mem_cons_self
      have hp' := hnum' p' List.mem_cons_self
      have hne : p.1 ≠ p'.1 := by omega
      simp [commonLength, hne, hne.symm]

mutual

theorem Item.parting_of_partAt {sel : β → Prop} : ∀ (x : Item α β) {chain : List (ℤ × β)} {k : ℕ}
    {f : ℤ} {e e' : Entry α β}, e ∈ x.entries chain k f → e' ∈ x.entries chain k f →
    PartAt sel e.chain e'.chain → Parting sel [x] e.leaf e'.leaf
  | .leaf a, chain, k, f, e, e', he, he', hpart => by
    rw [Item.entries, List.mem_singleton] at he he'
    subst he he'
    obtain ⟨p, q, hp, -⟩ := hpart
    have hsame : commonLength chain chain = chain.length := by
      have := commonLength_append chain [] []
      simpa [commonLength] using this
    rw [hsame] at hp
    simp at hp
  | .frame b items, chain, k, f, e, e', he, he', hpart => by
    rw [Item.entries] at he he'
    exact (parting_of_partAt items he he' hpart).under List.mem_cons_self

/-- **Leaves whose chains part at two frames stand in two items of one list.** -/
theorem parting_of_partAt {sel : β → Prop} : ∀ (xs : List (Item α β)) {chain : List (ℤ × β)}
    {k : ℕ} {f : ℤ} {e e' : Entry α β}, e ∈ entries xs chain k f → e' ∈ entries xs chain k f →
    PartAt sel e.chain e'.chain → Parting sel xs e.leaf e'.leaf
  | [], chain, k, f, e, e', he, _, _ => by simp [entries] at he
  | x :: xs, chain, k, f, e, e', he, he', hpart => by
    have hitems : ∀ {e e' : Entry α β}, e ∈ x.entries chain k f →
        e' ∈ entries xs chain (k + x.leaves.length) (f + x.frames) →
        (∃ p q d d', e.chain = chain ++ p :: d ∧ e'.chain = chain ++ q :: d' ∧
          sel p.2 ∧ sel q.2) →
        ∃ p ys q ys', [Item.frame p ys, Item.frame q ys'].Sublist (x :: xs) ∧ sel p ∧ sel q ∧
          e.leaf ∈ leaves ys ∧ e'.leaf ∈ leaves ys' := by
      rintro e e' he he' ⟨p, q, d, d', hd, hd', hp, hq⟩
      have hsingle : e ∈ entries [x] chain k f := by
        simp only [entries, List.append_nil]
        exact he
      obtain ⟨ys, hmem, hleaf⟩ := frame_of_chain hsingle hd
      obtain ⟨ys', hmem', hleaf'⟩ := frame_of_chain he' hd'
      refine ⟨p.2, ys, q.2, ys', ?_, hp, hq, hleaf, hleaf'⟩
      exact (List.singleton_sublist.mpr hmem).append (List.singleton_sublist.mpr hmem')
    have hheads : ∀ {d d' : List (ℤ × β)}, commonLength d d' = 0 → PartAt sel d d' →
        ∃ p q u v, d = p :: u ∧ d' = q :: v ∧ sel p.2 ∧ sel q.2 := by
      rintro d d' hzero ⟨p, q, hp, hq, hsel⟩
      rw [hzero] at hp hq
      cases d with
      | nil => simp at hp
      | cons p' u =>
        cases d' with
        | nil => simp at hq
        | cons q' v =>
          simp only [List.getElem?_cons_zero, Option.some.injEq] at hp hq
          exact ⟨p, q, u, v, by rw [hp], by rw [hq], hsel⟩
    rw [entries] at he he'
    rcases List.mem_append.mp he with he | he <;> rcases List.mem_append.mp he' with he' | he'
    · exact (Item.parting_of_partAt x he he' hpart).mono
        (List.singleton_sublist.mpr List.mem_cons_self)
    · obtain ⟨d, hd, -⟩ := Item.entries_chain x he
      obtain ⟨d', hd', -⟩ := entries_chain xs he'
      have hzero := commonLength_of_items he he' hd hd'
      rw [hd, hd', partAt_append] at hpart
      obtain ⟨p, q, u, v, rfl, rfl, hp, hq⟩ := hheads hzero.1 hpart
      obtain ⟨p', ys, q', ys', hsub, hrest⟩ := hitems he he' ⟨p, q, u, v, hd, hd', hp, hq⟩
      exact ⟨x :: xs, p', ys, q', ys', .here, Or.inl hsub, hrest⟩
    · obtain ⟨d, hd, -⟩ := entries_chain xs he
      obtain ⟨d', hd', -⟩ := Item.entries_chain x he'
      have hzero := commonLength_of_items he' he hd' hd
      rw [hd, hd', partAt_append] at hpart
      obtain ⟨p, q, u, v, rfl, rfl, hp, hq⟩ := hheads hzero.2 hpart
      obtain ⟨q', ys', p', ys, hsub, hq', hp', hleaf', hleaf⟩ :=
        hitems he' he ⟨q, p, v, u, hd', hd, hq, hp⟩
      exact ⟨x :: xs, p', ys, q', ys', .here, Or.inr hsub, hp', hq', hleaf, hleaf'⟩
    · exact (parting_of_partAt xs he he' hpart).mono (List.sublist_cons_self x xs)

end

mutual

theorem Item.around : ∀ (x : Item α β) {chain : List (ℤ × β)} {k : ℕ} {f : ℤ} {e : Entry α β}
    {d : List (ℤ × β)} {p : ℤ × β}, e ∈ x.entries chain k f → e.chain = chain ++ d → p ∈ d →
    ∃ zs ys, Within [x] zs ∧ Item.frame p.2 ys ∈ zs ∧ e.leaf ∈ leaves ys ∧
      ∀ a ∈ leaves ys, ∃ e' ∈ x.entries chain k f, e'.leaf = a ∧ p ∈ e'.chain
  | .leaf a, chain, k, f, e, d, p, he, hd, hp => by
    rw [Item.entries, List.mem_singleton] at he
    rw [he] at hd
    simp only [List.self_eq_append_right] at hd
    rw [hd] at hp
    exact absurd hp List.not_mem_nil
  | .frame b items, chain, k, f, e, d, p, he, hd, hp => by
    rw [Item.entries] at he
    obtain ⟨d', hd', -⟩ := entries_chain items he
    obtain rfl : d = (f, b) :: d' := by
      rw [hd', List.append_assoc, List.append_cancel_left_eq] at hd
      exact hd.symm
    rcases List.mem_cons.mp hp with rfl | hp
    · refine ⟨[.frame b items], items, .here, List.mem_cons_self, mem_leaves_of_entry he, ?_⟩
      intro a ha
      obtain ⟨e', he', hleaf⟩ := exists_entry ha (chain ++ [(f, b)]) k (f + 1)
      obtain ⟨d'', hd'', -⟩ := entries_chain items he'
      exact ⟨e', he', hleaf, by simp [hd'']⟩
    · obtain ⟨zs, ys, hwithin, hframe, hleaf, hall⟩ := around items he hd' hp
      exact ⟨zs, ys, .under List.mem_cons_self hwithin, hframe, hleaf, hall⟩

/-- **A number in an entry's chain is that of a frame around it**, and the frame's leaves all have
it in their chains. -/
theorem around : ∀ (xs : List (Item α β)) {chain : List (ℤ × β)} {k : ℕ} {f : ℤ}
    {e : Entry α β} {d : List (ℤ × β)} {p : ℤ × β}, e ∈ entries xs chain k f →
    e.chain = chain ++ d → p ∈ d →
    ∃ zs ys, Within xs zs ∧ Item.frame p.2 ys ∈ zs ∧ e.leaf ∈ leaves ys ∧
      ∀ a ∈ leaves ys, ∃ e' ∈ entries xs chain k f, e'.leaf = a ∧ p ∈ e'.chain
  | [], chain, k, f, e, d, p, he, _, _ => by simp [entries] at he
  | x :: xs, chain, k, f, e, d, p, he, hd, hp => by
    rw [entries] at he ⊢
    rcases List.mem_append.mp he with he | he
    · obtain ⟨zs, ys, hwithin, hframe, hleaf, hall⟩ := Item.around x he hd hp
      have hall' : ∀ a ∈ leaves ys, ∃ e' ∈ x.entries chain k f ++
          entries xs chain (k + x.leaves.length) (f + x.frames), e'.leaf = a ∧ p ∈ e'.chain := by
        intro a ha
        obtain ⟨e', he', hrest⟩ := hall a ha
        exact ⟨e', List.mem_append_left _ he', hrest⟩
      rcases hwithin.mono (List.singleton_sublist.mpr List.mem_cons_self) with hwithin | rfl
      · exact ⟨zs, ys, hwithin, hframe, hleaf, hall'⟩
      · refine ⟨x :: xs, ys, .here, ?_, hleaf, hall'⟩
        rw [List.mem_singleton.mp hframe]
        exact List.mem_cons_self
    · obtain ⟨zs, ys, hwithin, hframe, hleaf, hall⟩ := around xs he hd hp
      have hall' : ∀ a ∈ leaves ys, ∃ e' ∈ x.entries chain k f ++
          entries xs chain (k + x.leaves.length) (f + x.frames), e'.leaf = a ∧ p ∈ e'.chain := by
        intro a ha
        obtain ⟨e', he', hrest⟩ := hall a ha
        exact ⟨e', List.mem_append_right _ he', hrest⟩
      rcases hwithin.mono (List.sublist_cons_self x xs) with hwithin | rfl
      · exact ⟨zs, ys, hwithin, hframe, hleaf, hall'⟩
      · exact ⟨x :: zs, ys, .here, List.mem_cons_of_mem _ hframe, hleaf, hall'⟩

end

/-! ## 5. Other names for the leaves -/

variable {γ : Type*}

mutual

/-- The same item with its leaves through `g`. -/
def Item.relabel (g : α → γ) : Item α β → Item γ β
  | .leaf a => .leaf (g a)
  | .frame p ys => .frame p (relabel g ys)

/-- The same outline with its leaves through `g`. -/
def relabel (g : α → γ) : List (Item α β) → List (Item γ β)
  | [] => []
  | x :: xs => x.relabel g :: relabel g xs

end

/-- The same entry with its leaf through `g`. -/
def Entry.relabel (g : α → γ) (e : Entry α β) : Entry γ β := ⟨g e.leaf, e.order, e.chain⟩

@[simp] theorem relabel_append (g : α → γ) (xs ys : List (Item α β)) :
    relabel g (xs ++ ys) = relabel g xs ++ relabel g ys := by
  induction xs with
  | nil => rfl
  | cons x xs ih => simp only [List.cons_append, relabel, ih]

mutual

theorem Item.leaves_relabel (g : α → γ) : ∀ x : Item α β,
    (x.relabel g).leaves = x.leaves.map g
  | .leaf _ => rfl
  | .frame _ ys => by
    simp only [Item.relabel, Item.leaves]
    exact leaves_relabel g ys

theorem leaves_relabel (g : α → γ) : ∀ xs : List (Item α β),
    leaves (relabel g xs) = (leaves xs).map g
  | [] => rfl
  | x :: xs => by
    simp only [relabel, leaves, List.map_append]
    rw [Item.leaves_relabel g x, leaves_relabel g xs]

end

mutual

theorem Item.frames_relabel (g : α → γ) : ∀ x : Item α β, (x.relabel g).frames = x.frames
  | .leaf _ => rfl
  | .frame _ ys => by
    simp only [Item.relabel, Item.frames]
    rw [frames_relabel g ys]

theorem frames_relabel (g : α → γ) : ∀ xs : List (Item α β), frames (relabel g xs) = frames xs
  | [] => rfl
  | x :: xs => by
    simp only [relabel, frames]
    rw [Item.frames_relabel g x, frames_relabel g xs]

end

mutual

theorem Item.entries_relabel (g : α → γ) : ∀ (x : Item α β) (chain : List (ℤ × β)) (k : ℕ) (f : ℤ),
    (x.relabel g).entries chain k f = (x.entries chain k f).map (Entry.relabel g)
  | .leaf _, _, _, _ => rfl
  | .frame _ ys, _, _, _ => by
    simp only [Item.relabel, Item.entries]
    exact entries_relabel g ys _ _ _

/-- Positions and chains do not depend on what the leaves are. -/
theorem entries_relabel (g : α → γ) : ∀ (xs : List (Item α β)) (chain : List (ℤ × β)) (k : ℕ)
    (f : ℤ), entries (relabel g xs) chain k f = (entries xs chain k f).map (Entry.relabel g)
  | [], _, _, _ => rfl
  | x :: xs, chain, k, f => by
    simp only [relabel, entries, List.map_append]
    rw [Item.entries_relabel g x, entries_relabel g xs, Item.leaves_relabel, Item.frames_relabel,
      List.length_map]

end

end Outline
