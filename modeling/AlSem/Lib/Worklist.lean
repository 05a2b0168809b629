/-
# Worklists

Semi-naive closure: states found so far, a queue of those not expanded yet, and a list of the
facts emitted on the way.  Expanding a state offers new states and facts; a state is queued the
first time it is offered only.

`Worklist.solve_spec` says what comes out when the states stay in a finite set: exactly the
states derivable from the seeds, and exactly the facts a seed or a derivable state offers.
-/
import AlSem.Lib.Loop
import Mathlib.Data.Finset.Card
import Mathlib.Data.Finset.Dedup

namespace Worklist

variable {α τ : Type*}

/-- The states found, the queue, and the facts emitted. -/
structure Work (α τ : Type*) where
  visited : List α
  queue : List α
  out : List τ

/-- What the seeds derive through `expand`. -/
inductive Derivable (expand : α → List (α ⊕ τ)) (seeds : List (α ⊕ τ)) : α → Prop
  | seed {a : α} : Sum.inl a ∈ seeds → Derivable expand seeds a
  | step {a b : α} : Derivable expand seeds a → Sum.inl b ∈ expand a → Derivable expand seeds b

/-- A fact some seed or derivable state offers. -/
def Emitted (expand : α → List (α ⊕ τ)) (seeds : List (α ⊕ τ)) (t : τ) : Prop :=
  Sum.inr t ∈ seeds ∨ ∃ a, Derivable expand seeds a ∧ Sum.inr t ∈ expand a

/-- The offer has been taken in. -/
def Has (w : Work α τ) : α ⊕ τ → Prop
  | .inl a => a ∈ w.visited
  | .inr t => t ∈ w.out

variable [DecidableEq α] [DecidableEq τ]

/-- Take in one offer. -/
def offer (w : Work α τ) : α ⊕ τ → Work α τ
  | .inl a =>
    if a ∈ w.visited then w
    else { w with visited := w.visited ++ [a], queue := w.queue ++ [a] }
  | .inr t => if t ∈ w.out then w else { w with out := w.out ++ [t] }

/-- Expand the first state of the queue. -/
def step (expand : α → List (α ⊕ τ)) (w : Work α τ) : Option (Work α τ) :=
  match w.queue with
  | [] => none
  | a :: queue => some ((expand a).foldl offer { w with queue })

/-- Take in the seeds, then expand until the queue is empty. -/
def solve (expand : α → List (α ⊕ τ)) (fuel : ℕ) (seeds : List (α ⊕ τ)) : Option (Work α τ) :=
  Loop.run (step expand) fuel (seeds.foldl offer { visited := [], queue := [], out := [] })

section Offer

/-- One offer keeps what was there, and adds itself. -/
theorem has_offer (w : Work α τ) (o o' : α ⊕ τ) : Has (offer w o) o' ↔ Has w o' ∨ o' = o := by
  cases o with
  | inl a =>
    by_cases ha : a ∈ w.visited <;> cases o' <;> simp only [offer, ha, Has, if_true, if_false] <;>
      simp
    rintro rfl
    exact ha
  | inr t =>
    by_cases ht : t ∈ w.out <;> cases o' <;> simp only [offer, ht, Has, if_true, if_false] <;>
      simp
    rintro rfl
    exact ht

theorem has_foldl {offers : List (α ⊕ τ)} {w : Work α τ} {o : α ⊕ τ} :
    Has (offers.foldl offer w) o ↔ Has w o ∨ o ∈ offers := by
  induction offers generalizing w with
  | nil => simp
  | cons o' offers ih =>
    rw [List.foldl_cons, ih, has_offer, List.mem_cons]
    tauto

/-- What offers do to the queue: new states are appended, each not visited before. -/
structure Grown (w w' : Work α τ) : Prop where
  nodup : w.visited.Nodup → w'.visited.Nodup
  queue : ∀ a, a ∈ w'.queue ↔ a ∈ w.queue ∨ a ∈ w'.visited ∧ a ∉ w.visited
  length : w'.queue.length + w.visited.length = w.queue.length + w'.visited.length
  mono : w.visited ⊆ w'.visited

theorem grown_offer (w : Work α τ) (o : α ⊕ τ) : Grown w (offer w o) := by
  cases o with
  | inl a =>
    by_cases ha : a ∈ w.visited
    · have heq : offer w (.inl a) = w := by simp [offer, ha]
      rw [heq]
      exact ⟨id, fun b => by tauto, rfl, List.Subset.refl _⟩
    · have heq : offer w (.inl a) =
          { w with visited := w.visited ++ [a], queue := w.queue ++ [a] } := by simp [offer, ha]
      rw [heq]
      refine ⟨fun hnd => ?_, fun b => ?_, by simp; omega, by simp⟩
      · exact List.nodup_append.mpr ⟨hnd, by simp, by simp; rintro b hb rfl; exact ha hb⟩
      · simp only [List.mem_append, List.mem_singleton]
        constructor
        · rintro (hb | rfl)
          · exact Or.inl hb
          · exact Or.inr ⟨Or.inr rfl, ha⟩
        · rintro (hb | ⟨hb | hb, hnb⟩)
          · exact Or.inl hb
          · exact absurd hb hnb
          · exact Or.inr hb
  | inr t =>
    have hv : (offer w (.inr t)).visited = w.visited := by unfold offer; dsimp only; split <;> rfl
    have hq : (offer w (.inr t)).queue = w.queue := by unfold offer; dsimp only; split <;> rfl
    exact ⟨by rw [hv]; exact id, fun b => by rw [hv, hq]; tauto, by rw [hv, hq], by simp [hv]⟩

theorem grown_foldl (offers : List (α ⊕ τ)) (w : Work α τ) : Grown w (offers.foldl offer w) := by
  induction offers generalizing w with
  | nil => exact ⟨id, fun b => by simp, rfl, List.Subset.refl _⟩
  | cons o offers ih =>
    have h₁ := grown_offer w o
    have h₂ := ih (offer w o)
    rw [List.foldl_cons]
    refine ⟨fun hnd => h₂.nodup (h₁.nodup hnd), fun b => ?_, ?_, fun b hb => h₂.mono (h₁.mono hb)⟩
    · rw [h₂.queue, h₁.queue]
      constructor
      · rintro ((hb | ⟨hb, hnb⟩) | ⟨hb, hnb⟩)
        · exact Or.inl hb
        · exact Or.inr ⟨h₂.mono hb, hnb⟩
        · exact Or.inr ⟨hb, fun hw => hnb (h₁.mono hw)⟩
      · rintro (hb | ⟨hb, hnb⟩)
        · exact Or.inl (Or.inl hb)
        · by_cases hmid : b ∈ (offer w o).visited
          · exact Or.inl (Or.inr ⟨hmid, hnb⟩)
          · exact Or.inr ⟨hb, hmid⟩
    · have e₁ := h₁.length
      have e₂ := h₂.length
      omega

end Offer

/-- What holds between two expansions. -/
structure Inv (expand : α → List (α ⊕ τ)) (seeds : List (α ⊕ τ)) (U : Finset α) (w : Work α τ) :
    Prop where
  nodup : w.visited.Nodup
  queue : ∀ a ∈ w.queue, a ∈ w.visited
  bound : ∀ a ∈ w.visited, a ∈ U
  sound : ∀ a ∈ w.visited, Derivable expand seeds a
  out_sound : ∀ t ∈ w.out, Emitted expand seeds t
  seeds : ∀ o ∈ seeds, Has w o
  closed : ∀ a ∈ w.visited, a ∉ w.queue → ∀ o ∈ expand a, Has w o

variable {expand : α → List (α ⊕ τ)} {seeds : List (α ⊕ τ)} {U : Finset α}

/-- Expansions still possible: the queue, and the states of the universe not found yet. -/
def left (U : Finset α) (w : Work α τ) : ℕ := w.queue.length + (U.card - w.visited.length)

omit [DecidableEq τ] in
theorem Inv.length_le {w : Work α τ} (h : Inv expand seeds U w) : w.visited.length ≤ U.card := by
  rw [← List.toFinset_card_of_nodup h.nodup]
  exact Finset.card_le_card fun a ha => h.bound a (List.mem_toFinset.mp ha)

/-- **The step lemma.** -/
theorem step_inv (hU : ∀ a ∈ U, ∀ b, Sum.inl b ∈ expand a → b ∈ U) {w w' : Work α τ}
    (h : Inv expand seeds U w) (hst : step expand w = some w') :
    Inv expand seeds U w' ∧ left U w' < left U w := by
  unfold step at hst
  cases hq : w.queue with
  | nil => simp [hq] at hst
  | cons a queue =>
    rw [hq] at hst
    simp only [Option.some.injEq] at hst
    subst hst
    have haq : a ∈ w.queue := by rw [hq]; exact List.mem_cons_self
    have hav : a ∈ w.visited := h.queue a haq
    have hgrown := grown_foldl (expand a) { w with queue }
    have hhas : ∀ o, Has ((expand a).foldl offer { w with queue }) o ↔ Has w o ∨ o ∈ expand a :=
      fun o => has_foldl
    have hvis : ∀ b, b ∈ ((expand a).foldl offer { w with queue }).visited →
        b ∈ w.visited ∨ Sum.inl b ∈ expand a := fun b hb => (hhas (.inl b)).mp hb
    have hinv : Inv expand seeds U ((expand a).foldl offer { w with queue }) := by
      refine ⟨hgrown.nodup h.nodup, fun b hb => ?_, fun b hb => ?_, fun b hb => ?_, fun t ht => ?_,
        fun o ho => (hhas o).mpr (Or.inl (h.seeds o ho)), fun b hb hnq o ho => ?_⟩
      · rcases (hgrown.queue b).mp hb with hb | ⟨hb, -⟩
        · exact hgrown.mono (h.queue b (by rw [hq]; exact List.mem_cons_of_mem _ hb))
        · exact hb
      · rcases hvis b hb with hb | hb
        · exact h.bound b hb
        · exact hU a (h.bound a hav) b hb
      · rcases hvis b hb with hb | hb
        · exact h.sound b hb
        · exact .step (h.sound a hav) hb
      · rcases (hhas (.inr t)).mp ht with ht | ht
        · exact h.out_sound t ht
        · exact Or.inr ⟨a, h.sound a hav, ht⟩
      · rw [hhas]
        have hnq' := fun hh => hnq ((hgrown.queue b).mpr hh)
        by_cases hba : b = a
        · subst hba; exact Or.inr ho
        · rcases hvis b hb with hbv | hbe
          · refine Or.inl (h.closed b hbv (fun hbq => ?_) o ho)
            rw [hq] at hbq
            exact hnq' (Or.inl ((List.mem_cons.mp hbq).resolve_left hba))
          · by_cases hbv : b ∈ w.visited
            · refine Or.inl (h.closed b hbv (fun hbq => ?_) o ho)
              rw [hq] at hbq
              exact hnq' (Or.inl ((List.mem_cons.mp hbq).resolve_left hba))
            · exact absurd (Or.inr ⟨hb, hbv⟩) hnq'
    refine ⟨hinv, ?_⟩
    have hlen := hgrown.length
    have hle := hinv.length_le
    have hle' := h.length_le
    simp only [left, hq, List.length_cons] at *
    omega

/-- **What a worklist solves**, when its states stay in a finite set: exactly the derivable
states, each once, and exactly the emitted facts. -/
theorem solve_spec (U : Finset α) (hseeds : ∀ a, Sum.inl a ∈ seeds → a ∈ U)
    (hU : ∀ a ∈ U, ∀ b, Sum.inl b ∈ expand a → b ∈ U) {fuel : ℕ} (hfuel : U.card < fuel) :
    ∃ w, solve expand fuel seeds = some w ∧ w.visited.Nodup ∧
      (∀ a, a ∈ w.visited ↔ Derivable expand seeds a) ∧
      ∀ t, t ∈ w.out ↔ Emitted expand seeds t := by
  have hgrown := grown_foldl seeds ({ visited := [], queue := [], out := [] } : Work α τ)
  have hhas : ∀ o, Has (seeds.foldl offer { visited := [], queue := [], out := [] }) o ↔ o ∈ seeds := by
    intro o
    rw [has_foldl]
    cases o <;> simp [Has]
  have hinv : Inv expand seeds U (seeds.foldl offer { visited := [], queue := [], out := [] }) := by
    refine ⟨hgrown.nodup List.nodup_nil, fun a ha => ?_, fun a ha => hseeds a ((hhas (.inl a)).mp ha),
      fun a ha => .seed ((hhas (.inl a)).mp ha), fun t ht => Or.inl ((hhas (.inr t)).mp ht),
      fun o ho => (hhas o).mpr ho, fun a ha hnq => ?_⟩
    · exact ((hgrown.queue a).mp ha).elim (fun h => absurd h (by simp)) fun h => h.1
    · exact absurd ((hgrown.queue a).mpr (Or.inr ⟨ha, by simp⟩)) hnq
  have hleft : left U (seeds.foldl offer { visited := [], queue := [], out := [] }) < fuel := by
    have hlen := hgrown.length
    have hle := hinv.length_le
    simp only [left, List.length_nil] at *
    omega
  obtain ⟨w, hrun, h, hend⟩ := Loop.run_spec (step expand) (Inv expand seeds U) (left U)
    (fun s s' hs hst => (step_inv hU hs hst).1) (fun s s' hs hst => (step_inv hU hs hst).2)
    fuel _ hinv hleft
  have hempty : w.queue = [] := by
    unfold step at hend
    cases hq : w.queue with
    | nil => rfl
    | cons a queue => simp [hq] at hend
  have hclosed : ∀ a ∈ w.visited, ∀ o ∈ expand a, Has w o := fun a ha =>
    h.closed a ha (by rw [hempty]; simp)
  have hcomplete : ∀ a, Derivable expand seeds a → a ∈ w.visited := by
    intro a ha
    induction ha with
    | seed hs => exact h.seeds _ hs
    | step _ hb ih => exact hclosed _ ih _ hb
  refine ⟨w, hrun, h.nodup, fun a => ⟨h.sound a, hcomplete a⟩, fun t => ⟨h.out_sound t, ?_⟩⟩
  rintro (ht | ⟨a, ha, ht⟩)
  · exact h.seeds _ ht
  · exact hclosed a (hcomplete a ha) _ ht

end Worklist
