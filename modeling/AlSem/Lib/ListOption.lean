/-
# Lists in an option

A list taken through a function that may fail, element by element: it goes through when every
element does.
-/
import Mathlib.Data.List.Forall2

namespace ListOption

variable {α β γ : Type*}

/-- A list read element by element, each as known beforehand. -/
theorem mapM_map_eq {f : β → Option γ} {g : α → β} {v : α → γ} {l : List α}
    (h : ∀ a ∈ l, f (g a) = some (v a)) : (l.map g).mapM f = some (l.map v) := by
  induction l with
  | nil => rfl
  | cons a l ih =>
    have hrest := ih fun x hx => h x (List.mem_cons_of_mem _ hx)
    rw [List.map_cons, List.mapM_cons, h a List.mem_cons_self, hrest]
    rfl

/-- A list read element by element, each into something related to it. -/
theorem mapM_forall₂ {f : α → Option β} {R : α → β → Prop} {l : List α}
    (h : ∀ a ∈ l, ∃ b, f a = some b ∧ R a b) : ∃ bs, l.mapM f = some bs ∧ List.Forall₂ R l bs := by
  induction l with
  | nil => exact ⟨[], rfl, List.Forall₂.nil⟩
  | cons a l ih =>
    obtain ⟨b, hb, hab⟩ := h a List.mem_cons_self
    obtain ⟨bs, hbs, hall⟩ := ih fun x hx => h x (List.mem_cons_of_mem _ hx)
    refine ⟨b :: bs, ?_, List.Forall₂.cons hab hall⟩
    rw [List.mapM_cons, hb, hbs]
    rfl

/-- A list that goes through has the image of every element at its place. -/
theorem getElem?_of_mapM {f : α → Option β} {l : List α} {bs : List β} (h : l.mapM f = some bs)
    {i : ℕ} {a : α} (ha : l[i]? = some a) : ∃ b, bs[i]? = some b ∧ f a = some b := by
  induction l generalizing bs i with
  | nil => exact absurd ha (by simp)
  | cons x l ih =>
    rw [List.mapM_cons] at h
    obtain ⟨b, hb, h⟩ := Option.bind_eq_some_iff.mp h
    obtain ⟨cs, hcs, h⟩ := Option.bind_eq_some_iff.mp h
    obtain rfl := Option.some.inj h
    cases i with
    | zero =>
      obtain rfl := Option.some.inj ha
      exact ⟨b, rfl, hb⟩
    | succ i => exact ih hcs ha

/-- What a list goes through to: the images of its elements. -/
theorem mem_of_mapM {f : α → Option β} {l : List α} {bs : List β} (h : l.mapM f = some bs) {b : β} :
    b ∈ bs ↔ ∃ a ∈ l, f a = some b := by
  induction l generalizing bs with
  | nil =>
    obtain rfl := Option.some.inj h
    simp
  | cons x l ih =>
    rw [List.mapM_cons] at h
    obtain ⟨c, hc, h⟩ := Option.bind_eq_some_iff.mp h
    obtain ⟨cs, hcs, h⟩ := Option.bind_eq_some_iff.mp h
    obtain rfl := Option.some.inj h
    rw [List.exists_mem_cons_iff, List.mem_cons, ih hcs, hc, Option.some.injEq, eq_comm]

/-- A list goes through when every element does. -/
theorem mapM_isSome {f : α → Option β} {l : List α}
    (h : ∀ a ∈ l, (f a).isSome) : (l.mapM f).isSome := by
  obtain ⟨bs, hbs, -⟩ := mapM_forall₂ (R := fun _ _ => True) (l := l) (f := f)
    fun a ha => (Option.isSome_iff_exists.mp (h a ha)).imp fun _ hb => ⟨hb, trivial⟩
  rw [hbs]
  rfl

/-- A list through a function that succeeds on what another one gave for it. -/
theorem mapM_mapM {f : α → Option β} {h : β → Option γ} {k : α → γ} {l : List α}
    {bs : List β} (hl : l.mapM f = some bs) (hk : ∀ a ∈ l, ∀ b, f a = some b → h b = some (k a)) :
    bs.mapM h = some (l.map k) := by
  induction l generalizing bs with
  | nil =>
    obtain rfl := Option.some.inj hl
    rfl
  | cons a l ih =>
    rw [List.mapM_cons] at hl
    obtain ⟨b, hb, hl⟩ := Option.bind_eq_some_iff.mp hl
    obtain ⟨cs, hcs, hl⟩ := Option.bind_eq_some_iff.mp hl
    obtain rfl := Option.some.inj hl
    have hrest := ih hcs fun x hx => hk x (List.mem_cons_of_mem _ hx)
    rw [List.mapM_cons, hk a List.mem_cons_self b hb, hrest]
    rfl

end ListOption
