/-
# Machines that take events

A machine is a partial step function over states and events: `none` when the event is not
possible.  `Steps step ok` relates two states when a run leads from the one to the other whose
every event meets `ok` in the state it is taken in.  The rules are: what
every step keeps, every run keeps, and what every step relates by a preorder, every run relates; a map that
takes steps to steps takes runs to runs; and for progress, events which lower a measure end.
-/
import Mathlib.Data.Nat.Notation
import Mathlib.Logic.Relation
import Mathlib.Tactic.Push

namespace Machine

variable {σ ε : Type*}

/-- Take the events in order; `none` when `ok` refuses one or the machine does. -/
def run (step : σ → ε → Option σ) (ok : σ → ε → Bool) : σ → List ε → Option σ
  | s, [] => some s
  | s, e :: es =>
    if ok s e then
      match step s e with
      | none => none
      | some s' => run step ok s' es
    else none

/-- One step, by an event that `ok` allows there. -/
def Step (step : σ → ε → Option σ) (ok : σ → ε → Prop) (s s' : σ) : Prop :=
  ∃ e, ok s e ∧ step s e = some s'

/-- **A run**: any number of steps, each by an event `ok` allows in the state it is taken in. -/
def Steps (step : σ → ε → Option σ) (ok : σ → ε → Prop) : σ → σ → Prop :=
  Relation.ReflTransGen (Step step ok)

variable {step : σ → ε → Option σ} {ok : σ → ε → Prop}

/-- **The invariant rule.**  What every allowed step keeps, every run keeps. -/
theorem Steps.inv {I : σ → Prop}
    (hstep : ∀ s e s', I s → ok s e → step s e = some s' → I s') {s s' : σ}
    (h : Steps step ok s s') (hs : I s) : I s' := by
  induction h with
  | refl => exact hs
  | tail _ hlast ih =>
    obtain ⟨e, hok, he⟩ := hlast
    exact hstep _ e _ ih hok he

/-- **The preorder rule.**  Where every step from an `I` state keeps `I` and relates the states
by a preorder, so does every run. -/
theorem Steps.rel {I : σ → Prop} {R : σ → σ → Prop} (hrefl : ∀ s, R s s)
    (htrans : ∀ a b c, R a b → R b c → R a c)
    (hstep : ∀ s e s', I s → ok s e → step s e = some s' → I s' ∧ R s s') {s s' : σ}
    (h : Steps step ok s s') (hs : I s) : R s s' := by
  have hboth : I s' ∧ R s s' := by
    induction h with
    | refl => exact ⟨hs, hrefl s⟩
    | tail _ hlast ih =>
      obtain ⟨e, hok, he⟩ := hlast
      obtain ⟨hI, hR⟩ := hstep _ e _ ih.1 hok he
      exact ⟨hI, htrans _ _ _ ih.2 hR⟩
  exact hboth.2

theorem Steps.mono {ok' : σ → ε → Prop} (hok : ∀ s e, ok s e → ok' s e) {s s' : σ}
    (h : Steps step ok s s') : Steps step ok' s s' :=
  Relation.ReflTransGen.mono (fun _ _ ⟨e, he, hs⟩ => ⟨e, hok _ e he, hs⟩) _ _ h

/-- **The simulation rule.**  Where a map takes every allowed step to one of another machine, it takes runs
to runs. -/
theorem Steps.map {σ' ε' : Type*} {step' : σ' → ε' → Option σ'} {ok' : σ' → ε' → Prop} (f : σ → σ')
    (hstep : ∀ s e s', ok s e → step s e = some s' → ∃ e', ok' (f s) e' ∧ step' (f s) e' = some (f s'))
    {s s' : σ} (h : Steps step ok s s') : Steps step' ok' (f s) (f s') := by
  induction h with
  | refl => exact Relation.ReflTransGen.refl
  | tail _ hlast ih =>
    obtain ⟨e, hok, he⟩ := hlast
    exact ih.tail (hstep _ e _ hok he)

/-- A list of events that goes through is a run. -/
theorem steps_of_run {okb : σ → ε → Bool} (hok : ∀ s e, okb s e = true → ok s e) :
    ∀ (es : List ε) (s s' : σ), run step okb s es = some s' → Steps step ok s s'
  | [], s, s', h => by
    obtain rfl : s = s' := by simpa [run] using h
    exact Relation.ReflTransGen.refl
  | e :: es, s, s', h => by
    rw [run] at h
    split at h
    · rename_i hoks
      cases hs : step s e with
      | none => simp [hs] at h
      | some s₁ =>
        simp only [hs] at h
        exact Relation.ReflTransGen.head ⟨e, hok s e hoks, hs⟩ (steps_of_run hok es s₁ s' h)
    · simp at h

/-- **The measure rule.**  Where every allowed event lowers a measure, a run is no longer than it. -/
theorem length_le_of_run {okb : σ → ε → Bool} {m : σ → ℕ}
    (hlt : ∀ s e s', okb s e = true → step s e = some s' → m s' < m s) :
    ∀ (es : List ε) (s s' : σ), run step okb s es = some s' → es.length ≤ m s
  | [], _, _, _ => Nat.zero_le _
  | e :: es, s, s', h => by
    rw [run] at h
    split at h
    · rename_i hoks
      cases hs : step s e with
      | none => simp [hs] at h
      | some s₁ =>
        simp only [hs] at h
        have hle := length_le_of_run hlt es s₁ s' h
        have hdrop := hlt s e s₁ hoks hs
        simp only [List.length_cons]
        omega
    · simp at h

/-- Such events can be taken until none is left. -/
theorem Steps.exists_last {m : σ → ℕ} (hlt : ∀ s e s', ok s e → step s e = some s' → m s' < m s) (s : σ) :
    ∃ s', Steps step ok s s' ∧ ∀ e, ok s' e → step s' e = none := by
  induction hm : m s using Nat.strongRecOn generalizing s with
  | ind n ih =>
    by_cases hlast : ∀ e, ok s e → step s e = none
    · exact ⟨s, Relation.ReflTransGen.refl, hlast⟩
    · push Not at hlast
      obtain ⟨e, hok, hne⟩ := hlast
      obtain ⟨s₁, hs₁⟩ := Option.ne_none_iff_exists'.mp hne
      obtain ⟨s', hrun, hend⟩ := ih (m s₁) (hm ▸ hlt s e s₁ hok hs₁) s₁ rfl
      exact ⟨s', Relation.ReflTransGen.head ⟨e, hok, hs₁⟩ hrun, hend⟩

end Machine
