/-
# An evaluation is above its equations

`evaluate` gives a valuation that contains the least solution of the equations, whatever was evaluated
before, and so does every value marked final (`evaluate_sound`).

A pass is followed to its end `e` (`Later`): what a step gives is judged against a bound `σ` that the end of
the pass allows (`Bound`).  A pass that read no value still being computed allows the least solution itself.
One that read such values, where no value grew, has every value it touched settled: each is the one its calls
read.  The bound there is the least solution cut down to those values, and `KeyedSystem.least_le_of_settled`
puts them above the least solution.
-/
import AlSem.L5.RecrefEquations

namespace AlSem.L5.RecrefFlow

open AlSem.Model

variable {n : ℕ} {F : RecRefFlow n}

/-! ## 1. The states of a pass -/

/-- The name is a tracked variable of the routine's own. -/
def Own (F : RecRefFlow n) (i : Fin n) (v : String) : Prop :=
  ∃ kind, (F.facts i).tracked.lookup v = some kind ∧ kind ≠ .global

/-- A valuation of the routine's own variables, not below their starting values. -/
structure Shaped (F : RecRefFlow n) (key : EvalKey n) (vals : Vals) : Prop where
  dom : ∀ v, (vals.lookup v).isSome ↔ Own F key.routine v
  initial : ∀ v, initialHeld F key.setting v ⊆ heldOf vals v

theorem shaped_initialVals (key : EvalKey n) : Shaped F key (initialVals F key) := by
  refine ⟨fun v => ?_, initialVals_sound⟩
  rw [initialVals_lookup]
  unfold Own
  cases (F.facts key.routine).tracked.lookup v with
  | none => simp
  | some kind => cases kind <;> simp

/-- What the state of a pass keeps: a final value contains the least solution. -/
structure Wf (F : RecRefFlow n) (s : Pass n) : Prop where
  shaped : ∀ key vals, s.memo.lookup key = some vals → Shaped F key vals
  done : ∀ key ∈ s.done, ∃ vals, s.memo.lookup key = some vals ∧
    (equations F).least key.setting ≤ heldOf vals
  inProgress : s.inProgress ⊆ s.touched
  finished : ∀ key ∈ s.touched, key ∉ s.inProgress → (s.memo.lookup key).isSome

/-- **The pass has gone on** from `s` to `s'`. -/
structure Later (F : RecRefFlow n) (s s' : Pass n) : Prop where
  done : s'.done = s.done
  touched : s.touched ⊆ s'.touched
  readPartial : s.readPartial = true → s'.readPartial = true
  grew : s'.grew = false → s.grew = false ∧
    ∀ key, heldOf (memoOr F s'.toEvalState key) = heldOf (memoOr F s.toEvalState key)

theorem Later.refl (s : Pass n) : Later F s s := ⟨rfl, subset_rfl, id, fun h => ⟨h, fun _ => rfl⟩⟩

theorem Later.trans {s s' s'' : Pass n} (h : Later F s s') (h' : Later F s' s'') : Later F s s'' where
  done := h'.done.trans h.done
  touched := h.touched.trans h'.touched
  readPartial hr := h'.readPartial (h.readPartial hr)
  grew hg :=
    have hg' := h'.grew hg
    have hg'' := h.grew hg'.1
    ⟨hg''.1, fun key => (hg'.2 key).trans (hg''.2 key)⟩

/-- Every key the pass is through with holds no less than its facts add under `σ`. -/
def Settled (F : RecRefFlow n) (σ : Setting n →o (String → Held)) (s : Pass n) : Prop :=
  ∀ key ∈ s.touched, key ∉ s.inProgress →
    (equations F).rhs key.setting (heldOf (memoOr F s.toEvalState key)) σ ≤
      heldOf (memoOr F s.toEvalState key)

/-- **What the end of a pass allows as a bound** of the values the pass gave. -/
structure Bound (F : RecRefFlow n) (e : Pass n) (σ : Setting n →o (String → Held)) : Prop where
  le_least : σ ≤ (equations F).least
  /-- A value read while it is being computed. -/
  inProgress : ∀ s key, Wf F s → Later F s e → s.readPartial = true → key ∈ s.inProgress →
    σ key.setting ≤ heldOf (memoOr F s.toEvalState key)
  /-- A value computed. -/
  settled : ∀ s key, Later F s e → key ∈ s.touched →
    (equations F).rhs key.setting (heldOf (memoOr F s.toEvalState key)) σ ≤
      heldOf (memoOr F s.toEvalState key) →
    σ key.setting ≤ heldOf (memoOr F s.toEvalState key)

/-! ## 2. What a step gives -/

/-- **A step of a pass** from `s`: it gives a value with `P` and goes on to a well-formed state with the
same evaluations open; and when the pass ends in `e`, what was settled stays so and the value has `Q`. -/
def Gives (F : RecRefFlow n) (e : Pass n) (σ : Setting n →o (String → Held)) (s : Pass n) {α : Type}
    (m : EvalM n α) (P Q : α → Prop) : Prop :=
  ∀ a s', m s = some (a, s') →
    Wf F s' ∧ Later F s s' ∧ s'.inProgress = s.inProgress ∧ P a ∧
      (Later F s' e → Settled F σ s → Settled F σ s' ∧ Q a)

/-- A step from any state. -/
def Spec (F : RecRefFlow n) (e : Pass n) (σ : Setting n →o (String → Held)) {α : Type}
    (m : EvalM n α) (P Q : α → Prop) : Prop :=
  ∀ s, Wf F s → Gives F e σ s m P Q

section Rules

variable {e : Pass n} {σ : Setting n →o (String → Held)} {α β : Type}

theorem bind_eq_some {m : EvalM n α} {f : α → EvalM n β} {s s'' : Pass n} {b : β}
    (h : (m >>= f) s = some (b, s'')) : ∃ a s', m s = some (a, s') ∧ f a s' = some (b, s'') := by
  obtain ⟨⟨a, s'⟩, hm, hf⟩ := Option.bind_eq_some_iff.mp h
  exact ⟨a, s', hm, hf⟩

theorem Spec.pure {P Q : α → Prop} {a : α} (hP : P a) (hQ : Q a) :
    Spec F e σ (pure a : EvalM n α) P Q := by
  intro s hs b s' h
  obtain ⟨rfl, rfl⟩ := Prod.mk.inj (Option.some.inj h)
  exact ⟨hs, Later.refl _, rfl, hP, fun _ hset => ⟨hset, hQ⟩⟩

theorem Spec.bind {m : EvalM n α} {f : α → EvalM n β} {P Q : α → Prop} {P' R : β → Prop}
    (hm : Spec F e σ m P Q) (hf : ∀ a, P a → Spec F e σ (f a) P' fun b => Q a → R b) :
    Spec F e σ (m >>= f) P' R := by
  intro s hs b s'' h
  obtain ⟨a, s', hma, hfa⟩ := bind_eq_some h
  obtain ⟨hs', hlater, hin, hP, hQ⟩ := hm s hs a s' hma
  obtain ⟨hs'', hlater', hin', hP', hR⟩ := hf a hP s' hs' b s'' hfa
  refine ⟨hs'', hlater.trans hlater', hin'.trans hin, hP', fun hend hset => ?_⟩
  obtain ⟨hset', hQa⟩ := hQ (hlater'.trans hend) hset
  obtain ⟨hset'', hRb⟩ := hR hend hset'
  exact ⟨hset'', hRb hQa⟩

theorem Spec.mono {m : EvalM n α} {P Q P' Q' : α → Prop} (hm : Spec F e σ m P Q)
    (hP : ∀ a, P a → P' a) (hQ : ∀ a, P a → Q a → Q' a) : Spec F e σ m P' Q' := by
  intro s hs a s' h
  obtain ⟨hs', hlater, hin, hPa, hQa⟩ := hm s hs a s' h
  refine ⟨hs', hlater, hin, hP a hPa, fun hend hset => ?_⟩
  obtain ⟨hset', hq⟩ := hQa hend hset
  exact ⟨hset', hQ a hPa hq⟩

end Rules

/-! ## 3. Calls -/

/-- What a call leaves: nothing when it keeps the value. -/
def heldOut : Option Val → Held
  | some v => held v
  | none => ∅

theorem held_addOut (out : Val) (o : Option Val) : held (addOut out o) = held out ∪ heldOut o := by
  cases o with
  | none => exact (Set.union_empty _).symm
  | some v => exact held_unionVal out v

section Calls

variable {e : Pass n} {σ : Setting n →o (String → Held)} {call : EvalKey n → EvalM n Vals}
  (hcall : ∀ key, Spec F e σ (call key) (fun _ => True) fun vals => σ key.setting ≤ heldOf vals)
  {key : EvalKey n} {vals : Vals} {cs : PCallSite}

include hcall

theorem calleeOut_spec (t : Fin n) (p : ModelParameter) (publisher : Option Routine) :
    Spec F e σ (calleeOut F call key vals cs t p publisher) (fun _ => True) fun o =>
      calleeHeld F σ key.setting (heldOf vals) cs t p publisher ⊆ heldOut o := by
  unfold calleeOut calleeHeld
  dsimp only
  split
  · exact Spec.pure trivial subset_rfl
  · split
    · refine Spec.pure trivial ?_
      split <;> exact subset_rfl
    · split
      · exact Spec.pure trivial subset_rfl
      · refine (hcall _).bind fun res _ => Spec.pure trivial fun hres => ?_
        calc σ (calleeSetting F key.setting (heldOf vals) cs t publisher) (lc p.name)
            ≤ σ (calleeKey F key vals cs t publisher).setting (lc p.name) :=
              σ.mono (calleeKey_sound cs t publisher) _
          _ ≤ heldOf res (lc p.name) := hres _

theorem subscribersOut_spec (pb : Routine) (pname : String) : ∀ (ss : List (Fin n)) (out : Val),
    Spec F e σ (subscribersOut F call key vals cs pb pname ss out) (fun _ => True) fun out' =>
      held out ∪ subscribersHeld F σ key.setting (heldOf vals) cs pb pname ss ⊆ held out'
  | [], out => by
    refine Spec.pure trivial (Set.union_subset subset_rfl ?_)
    rintro x ⟨s, hs, -⟩
    exact absurd hs List.not_mem_nil
  | s :: rest, out => by
    unfold subscribersOut
    cases hfind : (F.routines s).parameters.find? fun p => lc p.name = pname with
    | none =>
      refine (subscribersOut_spec pb pname rest out).mono (fun _ h => h) fun out' _ h => ?_
      refine Set.union_subset (Set.subset_union_left.trans h) ?_
      rintro x ⟨s', hs', sp, hsp, hx⟩
      rcases List.mem_cons.mp hs' with rfl | hs'
      · rw [hfind] at hsp
        cases hsp
      · exact h (.inr ⟨s', hs', sp, hsp, hx⟩)
    | some sp =>
      dsimp only
      refine (calleeOut_spec hcall s sp (some pb)).bind fun o _ => ?_
      refine (subscribersOut_spec pb pname rest (addOut out o)).mono (fun _ h => h)
        fun out' _ h ho => ?_
      rw [held_addOut] at h
      have hout := Set.union_subset_iff.mp (Set.subset_union_left.trans h)
      refine Set.union_subset hout.1 ?_
      rintro x ⟨s', hs', sp', hsp', hx⟩
      rcases List.mem_cons.mp hs' with rfl | hs'
      · obtain rfl := Option.some.inj (hfind.symm.trans hsp')
        exact hout.2 (ho hx)
      · exact h (.inr ⟨s', hs', sp', hsp', hx⟩)

theorem targetsOut_spec (pos : ℕ) : ∀ (ts : List (Fin n)) (out : Val),
    Spec F e σ (targetsOut F call key vals cs pos ts out) (fun _ => True) fun out' =>
      held out ⊆ held out' ∧
        ∀ t ∈ ts, targetHeld F σ key.setting (heldOf vals) cs pos t ⊆ held out'
  | [], out => Spec.pure trivial ⟨subset_rfl, fun t ht => absurd ht List.not_mem_nil⟩
  | t :: rest, out => by
    unfold targetsOut
    cases hfind : (F.routines t).parameters.find? fun p => p.index = pos with
    | none =>
      exact Spec.pure trivial ⟨Set.subset_univ _, fun _ _ => Set.subset_univ _⟩
    | some p =>
      dsimp only
      have hhere : targetHeld F σ key.setting (heldOf vals) cs pos t =
          if isPublisher (F.routines t) then
            subscribersHeld F σ key.setting (heldOf vals) cs (F.routines t) (lc p.name)
              (F.subscribers.getList t)
          else calleeHeld F σ key.setting (heldOf vals) cs t p none := by
        unfold targetHeld
        rw [hfind]
      have hcons : ∀ {out₀ out' : Val} {h : Held}, held out ∪ h ⊆ held out₀ →
          targetHeld F σ key.setting (heldOf vals) cs pos t = h →
          (held out₀ ⊆ held out' ∧
            ∀ t ∈ rest, targetHeld F σ key.setting (heldOf vals) cs pos t ⊆ held out') →
          held out ⊆ held out' ∧
            ∀ t' ∈ t :: rest, targetHeld F σ key.setting (heldOf vals) cs pos t' ⊆ held out' := by
        intro out₀ out' h hout₀ heq hrest
        refine ⟨Set.subset_union_left.trans (hout₀.trans hrest.1), fun t' ht' => ?_⟩
        rcases List.mem_cons.mp ht' with rfl | ht'
        · rw [heq]
          exact Set.subset_union_right.trans (hout₀.trans hrest.1)
        · exact hrest.2 t' ht'
      split
      · rw [if_pos ‹_›] at hhere
        refine (subscribersOut_spec hcall (F.routines t) (lc p.name) _ out).bind fun out₀ _ => ?_
        exact (targetsOut_spec pos rest out₀).mono (fun _ h => h)
          fun out' _ hrest hout₀ => hcons hout₀ hhere hrest
      · rw [if_neg ‹_›] at hhere
        refine (calleeOut_spec hcall t p none).bind fun o _ => ?_
        refine (targetsOut_spec pos rest (addOut out o)).mono (fun _ h => h)
          fun out' _ hrest ho => hcons ?_ hhere hrest
        rw [held_addOut]
        exact Set.union_subset_union_right _ ho

theorem outVal_spec (f : PassedFact (F.routines key.routine)) :
    Spec F e σ (outVal F call key vals f) (fun _ => True) fun o =>
      outHeld F σ key.setting (heldOf vals) f ⊆ heldOut o := by
  unfold outVal outHeld EvalKey.setting
  dsimp only
  split
  · exact Spec.pure trivial (Set.subset_univ _)
  · cases F.targets.lookup ((F.routines key.routine).callSites.get f.callSite).id with
    | none =>
      refine Spec.pure trivial ?_
      dsimp only
      split <;> exact subset_rfl
    | some ts =>
      refine (targetsOut_spec hcall f.position ts emptyVal).bind fun out _ => ?_
      refine Spec.pure trivial fun h => ?_
      rintro x ⟨t, ht, hx⟩
      exact h.2 t ht hx

end Calls

/-! ## 4. The loop over the facts -/

/-- A valuation with one more value of an own variable. -/
theorem Shaped.insert {key : EvalKey n} {vals : Vals} (h : Shaped F key vals) {v : String}
    (hv : Own F key.routine v) (add : Val) :
    Shaped F key (vals.insert v (unionVal ((vals.lookup v).getD emptyVal) add)) := by
  obtain ⟨cur, hcur⟩ := Option.isSome_iff_exists.mp ((h.dom v).mpr hv)
  refine ⟨fun u => ?_, fun u => ?_⟩
  · by_cases hu : u = v
    · subst hu
      rw [AList.lookup_insert]
      exact iff_of_true rfl hv
    · rw [AList.lookup_insert_ne hu]
      exact h.dom u
  · by_cases hu : u = v
    · subst hu
      have hinit := h.initial u
      unfold heldOf at hinit ⊢
      rw [hcur, Option.getD_some] at hinit
      rw [AList.lookup_insert, hcur, Option.getD_some, Option.getD_some, held_unionVal]
      exact hinit.trans Set.subset_union_left
    · have hinit := h.initial u
      unfold heldOf at hinit ⊢
      rwa [AList.lookup_insert_ne hu]

/-- What a fold of merges keeps: the shape, and the values when nothing changes. -/
structure Quiet (key : EvalKey n) (acc acc' : Vals × Bool) : Prop where
  shaped : Shaped F key acc.1 → Shaped F key acc'.1
  same : Shaped F key acc.1 → acc'.2 = false → acc.2 = false ∧ heldOf acc'.1 = heldOf acc.1

theorem Quiet.refl (key : EvalKey n) (acc : Vals × Bool) : Quiet (F := F) key acc acc :=
  ⟨id, fun _ h => ⟨h, rfl⟩⟩

theorem Quiet.trans {key : EvalKey n} {acc acc' acc'' : Vals × Bool}
    (h : Quiet (F := F) key acc acc') (h' : Quiet (F := F) key acc' acc'') :
    Quiet (F := F) key acc acc'' where
  shaped hs := h'.shaped (h.shaped hs)
  same hs hq :=
    have hq' := h'.same (h.shaped hs) hq
    have hq'' := h.same hs hq'.1
    ⟨hq''.1, hq'.2.trans hq''.2⟩

/-- **A merge** adds its value, or it was there. -/
theorem merge_quiet (key : EvalKey n) (acc : Vals × Bool) (v : String) (add : Val) :
    Quiet (F := F) key acc (merge (F.facts key.routine) acc v add) ∧
      (Shaped F key acc.1 → (merge (F.facts key.routine) acc v add).2 = false →
        held add ⊆ heldOf acc.1 v) := by
  have hskip : merge (F.facts key.routine) acc v add = acc → ¬ Own F key.routine v →
      Quiet (F := F) key acc (merge (F.facts key.routine) acc v add) ∧
      (Shaped F key acc.1 → (merge (F.facts key.routine) acc v add).2 = false →
        held add ⊆ heldOf acc.1 v) := by
    intro hmerge hown
    rw [hmerge]
    refine ⟨Quiet.refl key acc, fun hs _ => ?_⟩
    have hnone : acc.1.lookup v = none := by
      rw [← Option.not_isSome_iff_eq_none, hs.dom]
      exact hown
    unfold heldOf
    rw [hnone]
    exact Set.subset_univ _
  by_cases hown : Own F key.routine v
  swap
  · refine hskip ?_ hown
    unfold merge
    cases hk : (F.facts key.routine).tracked.lookup v with
    | none => rfl
    | some kind =>
      cases kind with
      | global => rfl
      | param i => exact absurd ⟨_, hk, by simp⟩ hown
      | localVar => exact absurd ⟨_, hk, by simp⟩ hown
  have hmerge : merge (F.facts key.routine) acc v add =
      (acc.1.insert v (unionVal ((acc.1.lookup v).getD emptyVal) add),
        acc.2 || unionVal ((acc.1.lookup v).getD emptyVal) add ≠ (acc.1.lookup v).getD emptyVal) := by
    obtain ⟨kind, hk, hne⟩ := hown
    unfold merge
    rw [hk]
    cases kind with
    | global => exact absurd rfl hne
    | param i => rfl
    | localVar => rfl
  rw [hmerge]
  have hunion : Shaped F key acc.1 →
      (acc.2 || decide (unionVal ((acc.1.lookup v).getD emptyVal) add ≠
        (acc.1.lookup v).getD emptyVal)) = false →
      acc.2 = false ∧ ∃ cur, acc.1.lookup v = some cur ∧ unionVal cur add = cur := by
    intro hs hq
    obtain ⟨cur, hcur⟩ := Option.isSome_iff_exists.mp ((hs.dom v).mpr hown)
    rw [hcur, Option.getD_some, Bool.or_eq_false_iff, decide_eq_false_iff_not, not_not] at hq
    exact ⟨hq.1, cur, hcur, hq.2⟩
  refine ⟨⟨fun hs => hs.insert hown add, fun hs hq => ?_⟩, fun hs hq => ?_⟩
  · obtain ⟨hquiet, cur, hcur, hsame⟩ := hunion hs hq
    refine ⟨hquiet, funext fun u => ?_⟩
    unfold heldOf
    by_cases hu : u = v
    · subst hu
      have hcur' : (some cur : Option Val).getD emptyVal = cur := rfl
      rw [AList.lookup_insert, hcur, hcur', hsame]
    · rw [AList.lookup_insert_ne hu]
  · obtain ⟨-, cur, hcur, hsame⟩ := hunion hs hq
    unfold heldOf
    rw [hcur, Option.getD_some, ← hsame, held_unionVal]
    exact Set.subset_union_right

theorem mergeFixed_quiet (key : EvalKey n) (acc : Vals × Bool) (f : FixedFact) :
    Quiet (F := F) key acc (mergeFixed F key acc f) ∧
      (Shaped F key acc.1 → (mergeFixed F key acc f).2 = false →
        (∀ c ∈ f.conds, CondMay F key.setting (heldOf acc.1) c) →
        partHeld F key.setting (heldOf acc.1) f.part ⊆ heldOf acc.1 f.varName) := by
  unfold mergeFixed
  by_cases hc : condsHold F key acc.1 f.conds = true
  · rw [if_pos hc]
    refine ⟨(merge_quiet key acc f.varName _).1, fun hs hq _ =>
      Set.Subset.trans ?_ ((merge_quiet key acc f.varName _).2 hs hq)⟩
    cases f.part with
    | copy w => exact valOfText_sound w
    | atoms a => exact evalVal_sound a
  · rw [if_neg hc]
    exact ⟨Quiet.refl key acc, fun _ _ hmay => absurd (condsHold_of_may hmay) hc⟩

theorem foldl_mergeFixed_quiet (key : EvalKey n) : ∀ (fs : List FixedFact) (acc : Vals × Bool),
    Quiet (F := F) key acc (fs.foldl (mergeFixed F key) acc) ∧
      (Shaped F key acc.1 → (fs.foldl (mergeFixed F key) acc).2 = false → ∀ f ∈ fs,
        (∀ c ∈ f.conds, CondMay F key.setting (heldOf acc.1) c) →
        partHeld F key.setting (heldOf acc.1) f.part ⊆ heldOf acc.1 f.varName)
  | [], acc => ⟨Quiet.refl key acc, fun _ _ f hf => absurd hf List.not_mem_nil⟩
  | f :: fs, acc => by
    rw [List.foldl_cons]
    obtain ⟨hfirst, hadd⟩ := mergeFixed_quiet (F := F) key acc f
    obtain ⟨hrest, hadds⟩ := foldl_mergeFixed_quiet key fs (mergeFixed F key acc f)
    refine ⟨hfirst.trans hrest, fun hs hq g hg => ?_⟩
    have hmid := hrest.same (hfirst.shaped hs) hq
    have hsame := (hfirst.same hs hmid.1).2
    rcases List.mem_cons.mp hg with rfl | hg
    · exact hadd hs hmid.1
    · have hg' := hadds (hfirst.shaped hs) hq g hg
      rwa [hsame] at hg'

section Facts

variable {e : Pass n} {σ : Setting n →o (String → Held)} {call : EvalKey n → EvalM n Vals}
  (hcall : ∀ key, Spec F e σ (call key) (fun _ => True) fun vals => σ key.setting ≤ heldOf vals)
  {key : EvalKey n}

include hcall

theorem mergePassed_spec (acc : Vals × Bool) (f : PassedFact (F.routines key.routine)) :
    Spec F e σ (mergePassed F call key acc f) (fun acc' => Quiet (F := F) key acc acc') fun acc' =>
      Shaped F key acc.1 → acc'.2 = false →
        (∀ c ∈ f.conds, CondMay F key.setting (heldOf acc.1) c) →
        outHeld F σ key.setting (heldOf acc.1) f ⊆ heldOf acc.1 f.varName := by
  unfold mergePassed
  by_cases hc : condsHold F key acc.1 f.conds = true
  · rw [if_pos hc]
    refine (outVal_spec hcall f).bind fun o _ => ?_
    cases o with
    | none =>
      refine Spec.pure (Quiet.refl key acc) fun hout _ _ _ => hout.trans (Set.empty_subset _)
    | some add =>
      obtain ⟨hquiet, hadd⟩ := merge_quiet (F := F) key acc f.varName add
      exact Spec.pure hquiet fun hout hs hq _ => hout.trans (hadd hs hq)
  · rw [if_neg hc]
    exact Spec.pure (Quiet.refl key acc) fun _ _ hmay => absurd (condsHold_of_may hmay) hc

theorem foldlM_mergePassed_spec : ∀ (fs : List (PassedFact (F.routines key.routine)))
    (acc : Vals × Bool),
    Spec F e σ (fs.foldlM (mergePassed F call key) acc) (fun acc' => Quiet (F := F) key acc acc')
      fun acc' => Shaped F key acc.1 → acc'.2 = false → ∀ f ∈ fs,
        (∀ c ∈ f.conds, CondMay F key.setting (heldOf acc.1) c) →
        outHeld F σ key.setting (heldOf acc.1) f ⊆ heldOf acc.1 f.varName
  | [], acc => Spec.pure (Quiet.refl key acc) fun _ _ f hf => absurd hf List.not_mem_nil
  | f :: fs, acc => by
    rw [List.foldlM_cons]
    refine (mergePassed_spec hcall acc f).bind fun mid hmid => ?_
    refine (foldlM_mergePassed_spec fs mid).mono (fun _ h => hmid.trans h)
      fun acc' hquiet hrest hfirst hs hq g hg => ?_
    have hmid' := hquiet.same (hmid.shaped hs) hq
    have hsame := (hmid.same hs hmid'.1).2
    rcases List.mem_cons.mp hg with rfl | hg
    · exact hfirst hs hmid'.1
    · have hg' := hrest (hmid.shaped hs) hq g hg
      rwa [hsame] at hg'

/-- **Where the loop ends nothing is added any more.** -/
theorem settle_spec (hsens : F.sensitive key.routine = true) : ∀ (fuel : ℕ) (vals : Vals),
    Shaped F key vals →
    Spec F e σ (settle F call key fuel vals) (Shaped F key) fun vals' =>
      (equations F).rhs key.setting (heldOf vals') σ ≤ heldOf vals'
  | 0, vals, _ => by
    intro s _ a s' h
    cases h
  | fuel + 1, vals, hvals => by
    unfold settle
    dsimp only
    obtain ⟨hfixed, haddFixed⟩ := foldl_mergeFixed_quiet (F := F) key
      (F.facts key.routine).fixed (vals, false)
    refine (foldlM_mergePassed_spec hcall (F.facts key.routine).passed _).bind fun acc hacc => ?_
    have hshaped := hacc.shaped (hfixed.shaped hvals)
    split
    · exact (settle_spec hsens fuel acc.1 hshaped).mono (fun _ h => h) fun _ _ h _ => h
    · refine Spec.pure hshaped fun hpassed => ?_
      have hquiet : acc.2 = false := by simpa using ‹¬ acc.2 = true›
      have hmid := hacc.same (hfixed.shaped hvals) hquiet
      have hsame : heldOf acc.1 = heldOf vals := hmid.2.trans (hfixed.same hvals hmid.1).2
      have hsame' := (hfixed.same hvals hmid.1).2
      intro v
      have hrhs : (equations F).rhs key.setting (heldOf acc.1) σ v =
          initialHeld F key.setting v ∪ factsHeld F σ key.setting (heldOf acc.1) v := if_pos hsens
      rw [hrhs]
      refine Set.union_subset (hshaped.initial v) ?_
      rw [hsame]
      rintro x (⟨f, hf, rfl, hc, hx⟩ | ⟨f, hf, rfl, hc, hx⟩)
      · exact haddFixed hvals hmid.1 f hf hc hx
      · have hf' := hpassed (hfixed.shaped hvals) hquiet f hf
        rw [hsame'] at hf'
        exact hf' hc hx

end Facts

/-! ## 5. One evaluation -/

section Evaluate

variable {e : Pass n} {σ : Setting n →o (String → Held)}

theorem rhs_of_summary {key : EvalKey n} (h : F.sensitive key.routine = false)
    (w : String → Held) (σ : Setting n →o (String → Held)) :
    (equations F).rhs key.setting w σ = summaryHeld F key.setting := by
  funext v
  have hsens : F.sensitive key.setting.routine = false := h
  unfold equations
  dsimp only
  rw [hsens, if_neg Bool.false_ne_true]

/-- The values the loop starts with. -/
theorem shaped_startVals {key : EvalKey n} {prev : Option Vals}
    (h : ∀ vals, prev = some vals → Shaped F key vals) : Shaped F key (startVals F key prev) := by
  unfold startVals
  cases prev with
  | none => exact shaped_initialVals key
  | some vals =>
    have hfold : ∀ (l : List (Sigma fun _ : String => Val)) (m : Vals),
        (∀ e ∈ l, Own F key.routine e.1) → Shaped F key m →
        Shaped F key (l.foldl
          (fun vals e => vals.insert e.1 (unionVal ((vals.lookup e.1).getD emptyVal) e.2)) m) := by
      intro l
      induction l with
      | nil => exact fun _ _ hm => hm
      | cons e l ih =>
        intro m hown hm
        rw [List.foldl_cons]
        exact ih _ (fun e' he' => hown e' (List.mem_cons_of_mem _ he'))
          (hm.insert (hown e List.mem_cons_self) e.2)
    refine hfold vals.entries _ (fun e he => ?_) (shaped_initialVals key)
    rw [← (h vals rfl).dom, AList.mem_lookup_iff.mpr he]
    rfl

theorem enter_spec {s : Pass n} (key : EvalKey n) (hs : Wf F s) :
    Wf F (s.enter key) ∧ Later F s (s.enter key) ∧
      (Settled F σ s → Settled F σ (s.enter key)) := by
  refine ⟨⟨hs.shaped, hs.done, Finset.insert_subset_insert _ hs.inProgress, ?_⟩,
    ⟨rfl, Finset.subset_insert _ _, id, fun h => ⟨h, fun _ => rfl⟩⟩, fun hset key' ht hin => ?_⟩
  · intro key' ht hin
    have hin' : key' ∉ insert key s.inProgress := hin
    rw [Finset.mem_insert, not_or] at hin'
    exact hs.finished key' (Finset.mem_of_mem_insert_of_ne ht hin'.1) hin'.2
  · have hin' : key' ∉ insert key s.inProgress := hin
    rw [Finset.mem_insert, not_or] at hin'
    exact hset key' (Finset.mem_of_mem_insert_of_ne ht hin'.1) hin'.2

theorem memoOr_leave {s : Pass n} {key : EvalKey n} {vals : Vals} :
    memoOr F (s.leave F key vals).toEvalState key = vals := by
  unfold memoOr Pass.leave
  dsimp only
  rw [AList.lookup_insert, Option.getD_some]

theorem memoOr_leave_ne {s : Pass n} {key key' : EvalKey n} {vals : Vals} (h : key' ≠ key) :
    memoOr F (s.leave F key vals).toEvalState key' = memoOr F s.toEvalState key' := by
  unfold memoOr Pass.leave
  dsimp only
  rw [AList.lookup_insert_ne h]

/-- **The end of an evaluation.** -/
theorem leave_spec {s : Pass n} {key : EvalKey n} {vals : Vals} (hs : Wf F s)
    (hdone : key ∉ s.done) (hvals : Shaped F key vals) :
    Wf F (s.leave F key vals) ∧ Later F s (s.leave F key vals) ∧
      (Settled F σ s → (equations F).rhs key.setting (heldOf vals) σ ≤ heldOf vals →
        Settled F σ (s.leave F key vals)) := by
  have hlookup : ∀ {key'}, key' ≠ key →
      (s.leave F key vals).memo.lookup key' = s.memo.lookup key' := fun h =>
    AList.lookup_insert_ne h
  have hself : (s.leave F key vals).memo.lookup key = some vals := AList.lookup_insert _
  refine ⟨⟨fun key' vals' h => ?_, fun key' h => ?_, ?_, fun key' ht hin => ?_⟩,
    ⟨rfl, subset_rfl, id, fun hg => ?_⟩, fun hset hrhs key' ht hin => ?_⟩
  · by_cases hk : key' = key
    · subst hk
      obtain rfl := Option.some.inj (hself.symm.trans h)
      exact hvals
    · exact hs.shaped key' vals' ((hlookup hk).symm.trans h)
  · have hk : key' ≠ key := by
      rintro rfl
      exact hdone h
    rw [hlookup hk]
    exact hs.done key' h
  · exact (Finset.erase_subset _ _).trans hs.inProgress
  · by_cases hk : key' = key
    · subst hk
      rw [hself]
      rfl
    · rw [hlookup hk]
      exact hs.finished key' ht fun h => hin (Finset.mem_erase.mpr ⟨hk, h⟩)
  · have hg' : (s.grew || decide ((memoOr F s.toEvalState key).toFinmap ≠ vals.toFinmap)) = false := hg
    rw [Bool.or_eq_false_iff, decide_eq_false_iff_not, not_not] at hg'
    refine ⟨hg'.1, fun key' => ?_⟩
    by_cases hk : key' = key
    · subst hk
      rw [memoOr_leave]
      funext v
      unfold heldOf
      rw [AList.perm_lookup (AList.toFinmap_eq.mp hg'.2)]
    · rw [memoOr_leave_ne hk]
  · by_cases hk : key' = key
    · subst hk
      rw [memoOr_leave]
      exact hrhs
    · rw [memoOr_leave_ne hk]
      exact hset key' ht fun h => hin (Finset.mem_erase.mpr ⟨hk, h⟩)

/-- What needs no new evaluation gives no less than the bound. -/
theorem memoized_spec (hbound : Bound F e σ) {key : EvalKey n} {body : EvalM n Vals}
    (hbody : ∀ s, Wf F s → F.sensitive key.routine = true → key ∉ s.done → key ∉ s.inProgress →
      Gives F e σ s body (fun _ => True) fun vals => σ key.setting ≤ heldOf vals) :
    Spec F e σ (memoized F key body) (fun _ => True) fun vals => σ key.setting ≤ heldOf vals := by
  unfold memoized
  cases hsens : F.sensitive key.routine with
  | false =>
    refine Spec.pure trivial ?_
    calc σ key.setting ≤ (equations F).least key.setting := hbound.le_least _
      _ = summaryHeld F key.setting := by
        rw [← (equations F).rhs_least, rhs_of_summary hsens]
      _ ≤ heldOf (summaryVals F key) := summaryVals_sound
  | true =>
    intro s hs vals s' h
    obtain ⟨s₀, s₁, hget, h⟩ := bind_eq_some h
    obtain ⟨rfl, rfl⟩ := Prod.mk.inj (Option.some.inj hget)
    split at h
    · obtain ⟨vals', hvals', hleast⟩ := hs.done key ‹_›
      rw [hvals'] at h
      obtain ⟨rfl, rfl⟩ := Prod.mk.inj (Option.some.inj h)
      exact ⟨hs, Later.refl _, rfl, trivial, fun _ hset => ⟨hset, (hbound.le_least _).trans hleast⟩⟩
    · split at h
      · obtain ⟨_, s₂, hset, h⟩ := bind_eq_some h
        obtain ⟨-, rfl⟩ := Prod.mk.inj (Option.some.inj hset)
        obtain ⟨rfl, rfl⟩ := Prod.mk.inj (Option.some.inj h)
        have hwf : Wf F { s with readPartial := true } :=
          ⟨hs.shaped, hs.done, hs.inProgress, hs.finished⟩
        refine ⟨hwf, ⟨rfl, subset_rfl, fun _ => rfl, fun hg => ⟨hg, fun _ => rfl⟩⟩, rfl, trivial,
          fun hend hset => ⟨hset, ?_⟩⟩
        exact hbound.inProgress { s with readPartial := true } key hwf hend rfl ‹_›
      · exact hbody s hs hsens ‹_› ‹_› vals s' h

/-- **An evaluation gives no less than the bound.** -/
theorem evalRoutine_spec (hbound : Bound F e σ) (fuel : ℕ) : ∀ (left : ℕ) (key : EvalKey n),
    Spec F e σ (evalRoutine F fuel left key) (fun _ => True) fun vals => σ key.setting ≤ heldOf vals
  | 0, key => by
    have htop : Spec F e σ (pure (allTop F key.routine)) (fun _ => True) fun vals =>
        σ key.setting ≤ heldOf vals := by
      refine Spec.pure trivial fun v => ?_
      rw [allTop_sound]
      exact Set.subset_univ _
    exact memoized_spec hbound fun s hs _ _ _ => htop s hs
  | left + 1, key => by
    have htop : Spec F e σ (pure (allTop F key.routine)) (fun _ => True) fun vals =>
        σ key.setting ≤ heldOf vals := by
      refine Spec.pure trivial fun v => ?_
      rw [allTop_sound]
      exact Set.subset_univ _
    refine memoized_spec hbound fun s hs hsens hdone hin vals s' h => ?_
    obtain ⟨s₀, s₁, hget, h⟩ := bind_eq_some h
    obtain ⟨rfl, rfl⟩ := Prod.mk.inj (Option.some.inj hget)
    split at h
    · exact htop s hs vals s' h
    · obtain ⟨_, s₁, hset, h⟩ := bind_eq_some h
      obtain ⟨-, rfl⟩ := Prod.mk.inj (Option.some.inj hset)
      obtain ⟨vals', s₂, hsettle, h⟩ := bind_eq_some h
      obtain ⟨_, s₃, hleave, h⟩ := bind_eq_some h
      obtain ⟨-, rfl⟩ := Prod.mk.inj (Option.some.inj hleave)
      obtain ⟨rfl, rfl⟩ := Prod.mk.inj (Option.some.inj h)
      obtain ⟨hwf₁, hlater₁, hset₁⟩ := enter_spec (σ := σ) key hs
      have hstart : Shaped F key (startVals F key (s.memo.lookup key)) :=
        shaped_startVals fun v hv => hs.shaped key v hv
      obtain ⟨hwf₂, hlater₂, hin₂, hshaped, hpost⟩ :=
        settle_spec (fun k => evalRoutine_spec hbound fuel left k) hsens fuel _ hstart _ hwf₁ _ _ hsettle
      have hdone₂ : key ∉ s₂.done := by
        rw [hlater₂.done]
        exact hdone
      obtain ⟨hwf₃, hlater₃, hset₃⟩ := leave_spec (σ := σ) hwf₂ hdone₂ hshaped
      refine ⟨hwf₃, (hlater₁.trans hlater₂).trans hlater₃, ?_, trivial, fun hend hset => ?_⟩
      · have herase : (s₂.leave F key vals').inProgress = s₂.inProgress.erase key := rfl
        have henter : (s.enter key).inProgress = insert key s.inProgress := rfl
        rw [herase, hin₂, henter, Finset.erase_insert hin]
      · obtain ⟨hset₂, hrhs⟩ := hpost (hlater₃.trans hend) (hset₁ hset)
        refine ⟨hset₃ hset₂ hrhs, ?_⟩
        have htouched : key ∈ (s₂.leave F key vals').touched :=
          hlater₂.touched (Finset.mem_insert_self _ _)
        have hfinal := hbound.settled _ key hend htouched (by rwa [memoOr_leave])
        rwa [memoOr_leave] at hfinal

end Evaluate

/-! ## 6. Whole passes -/

/-- What a state between evaluations keeps. -/
structure Sound (F : RecRefFlow n) (st : EvalState n) : Prop where
  shaped : ∀ key vals, st.memo.lookup key = some vals → Shaped F key vals
  done : ∀ key ∈ st.done, ∃ vals, st.memo.lookup key = some vals ∧
    (equations F).least key.setting ≤ heldOf vals
  idle : st.inProgress = ∅

/-- A pass that begins. -/
def passStart (st : EvalState n) : Pass n := ⟨{ st with readPartial := false, grew := false }, ∅⟩

theorem passStart_wf {st : EvalState n} (h : Sound F st) : Wf F (passStart st) where
  shaped := h.shaped
  done := h.done
  inProgress := h.idle.subset
  finished key hk _ := absurd hk (Finset.notMem_empty key)

/-- Nothing is asked of a pass that ends anywhere. -/
theorem bound_bot (e : Pass n) : Bound F e ⊥ where
  le_least := bot_le
  inProgress _ _ _ _ _ _ := fun _ => Set.empty_subset _
  settled _ _ _ _ _ := fun _ => Set.empty_subset _

/-- The least solution is a bound of a pass whose touched values contain it. -/
theorem bound_least {e : Pass n} (hquiet : e.grew = false)
    (htouched : ∀ key ∈ e.touched,
      (equations F).least key.setting ≤ heldOf (memoOr F e.toEvalState key)) :
    Bound F e (equations F).least where
  le_least := le_rfl
  inProgress s key hs hlater _ hin := by
    rw [← (hlater.grew hquiet).2 key]
    exact htouched key (hlater.touched (hs.inProgress hin))
  settled s key hlater ht _ := by
    rw [← (hlater.grew hquiet).2 key]
    exact htouched key (hlater.touched ht)

/-- **A pass that is the last one** is above the least solution, and so is all it touched. -/
theorem pass_spec {st : EvalState n} (h : Sound F st) {fuel left : ℕ} {key : EvalKey n} {vals : Vals}
    {e : Pass n} (hrun : evalRoutine F fuel left key (passStart st) = some (vals, e)) :
    Wf F e ∧ e.inProgress = ∅ ∧ ((e.readPartial && e.grew) = false →
      (equations F).least key.setting ≤ heldOf vals ∧
      ∀ key' ∈ e.touched, (equations F).least key'.setting ≤ heldOf (memoOr F e.toEvalState key')) := by
  have hstart := passStart_wf h
  have hnone : ∀ σ, Settled F σ (passStart st) := fun σ key hk => absurd hk (Finset.notMem_empty key)
  have hgive : ∀ σ, Bound F e σ → Settled F σ e ∧ σ key.setting ≤ heldOf vals := fun σ hσ =>
    (evalRoutine_spec hσ fuel left key _ hstart _ _ hrun).2.2.2.2 (Later.refl e) (hnone σ)
  obtain ⟨hwf, -, hin, -, -⟩ := evalRoutine_spec (bound_bot e) fuel left key _ hstart _ _ hrun
  have hidle : e.inProgress = ∅ := hin.trans h.idle
  refine ⟨hwf, hidle, fun hlast => ?_⟩
  have hopen : ∀ key', key' ∉ e.inProgress := fun key' => by
    rw [hidle]
    exact Finset.notMem_empty key'
  rw [Bool.and_eq_false_iff] at hlast
  have hbound : Bound F e (equations F).least := by
    rcases hlast with hread | hquiet
    · -- no value was read while it was computed
      refine ⟨le_rfl, fun s key' _ hlater hr _ => ?_, fun s key' _ _ hrhs => ?_⟩
      · rw [hlater.readPartial hr] at hread
        cases hread
      · exact (equations F).least_le_of_rhs_le hrhs
    · -- no value grew: every touched one is settled below itself
      refine bound_least hquiet fun key' hk => ?_
      have hcap : Bound F e ((equations F).cap (e.touched : Set (EvalKey n)) EvalKey.setting
          fun k => heldOf (memoOr F e.toEvalState k)) := by
        refine ⟨(equations F).cap_le_least _ _ _, fun s k hs hlater _ hk => ?_,
          fun s k hlater hk _ => ?_⟩
        · rw [← (hlater.grew hquiet).2 k]
          exact (equations F).cap_le (hlater.touched (hs.inProgress hk)) le_rfl
        · rw [← (hlater.grew hquiet).2 k]
          exact (equations F).cap_le (hlater.touched hk) le_rfl
      exact (equations F).least_le_of_settled (fun k hk => (hgive _ hcap).1 k hk (hopen k)) hk
  obtain ⟨hsettled, hvals⟩ := hgive _ hbound
  exact ⟨hvals, fun key' hk =>
    hbound.settled e key' (Later.refl e) hk (hsettled key' hk (hopen key'))⟩

theorem evaluateLoop_spec {fuel : ℕ} {key : EvalKey n} {r : Option Vals} {st' : EvalState n} :
    ∀ {k : ℕ} {st : EvalState n}, Sound F st → evaluateLoop F fuel key k st = some (r, st') →
      Sound F st' ∧ ∀ vals, r = some vals → (equations F).least key.setting ≤ heldOf vals
  | 0, st, h, hrun => by
    obtain ⟨rfl, rfl⟩ := Prod.mk.inj (Option.some.inj hrun)
    exact ⟨h, fun vals hv => by cases hv⟩
  | k + 1, st, h, hrun => by
    obtain ⟨⟨vals, e⟩, hpass, hrun⟩ := Option.bind_eq_some_iff.mp hrun
    obtain ⟨hwf, hidle, hlast⟩ := pass_spec h hpass
    dsimp only at hrun
    split at hrun
    · obtain ⟨rfl, rfl⟩ := Prod.mk.inj (Option.some.inj hrun)
      obtain ⟨hvals, htouched⟩ := hlast (Bool.not_eq_true' _ ▸ ‹_›)
      refine ⟨⟨hwf.shaped, fun key' hk => ?_, hidle⟩, fun v hv => ?_⟩
      · rcases Finset.mem_union.mp hk with hk | hk
        · exact hwf.done key' hk
        · have hin : key' ∉ e.inProgress := by
            rw [hidle]
            exact Finset.notMem_empty key'
          obtain ⟨v, hv⟩ := Option.isSome_iff_exists.mp (hwf.finished key' hk hin)
          have hleast := htouched key' hk
          unfold memoOr at hleast
          rw [hv, Option.getD_some] at hleast
          exact ⟨v, hv, hleast⟩
      · obtain rfl := Option.some.inj hv
        exact hvals
    · exact evaluateLoop_spec ⟨hwf.shaped, hwf.done, hidle⟩ hrun

/-! ## 7. Every history -/

theorem History.sound {st : EvalState n} (h : History F st) : Sound F st := by
  induction h with
  | start =>
    refine ⟨fun key vals hk => ?_, fun key hk => absurd hk (Finset.notMem_empty key), rfl⟩
    rw [EvalState.start, AList.lookup_empty] at hk
    cases hk
  | evaluate _ hrun ih => exact (evaluateLoop_spec ih hrun).1

/-- **Evaluating a routine is sound**, after any evaluations: a valuation it gives contains the least
solution of the equations under the inputs, and so does every value marked final. -/
theorem evaluate_sound {st : EvalState n} (h : History F st) :
    (∀ key ∈ st.done, ∃ vals, st.memo.lookup key = some vals ∧
      (equations F).least key.setting ≤ heldOf vals) ∧
    ∀ (fuel : ℕ) (key : EvalKey n) (vals : Vals) (st' : EvalState n),
      evaluate F fuel key st = some (some vals, st') →
        (equations F).least key.setting ≤ heldOf vals :=
  ⟨h.sound.done, fun _ _ vals _ hrun => (evaluateLoop_spec h.sound hrun).2 vals rfl⟩

/-- A routine that passes its RecordRef on to itself. -/
def selfCaller : Routine where
  objectId := "object"
  parameters := [{ index := 0, name := "R", typeText := "RecordRef", isVar := true }]
  callSites := [{ id := "site", callee := .bare "Handle", argumentTexts := ["R"] }]

/-- It also opens `Item` where the RecordRef holds `Vendor`. -/
def selfFacts : Facts selfCaller where
  tracked := AList.insert "r" (.param 0) ∅
  fixed := [⟨"r", .atoms [.table "item"], [⟨"r", true, ["vendor"]⟩]⟩]
  passed := [⟨⟨0, Nat.zero_lt_one⟩, 0, "r", []⟩]
  positions := by
    have hkey : ∀ a i, (AList.insert "r" (VarKind.param 0) ∅ : HashMap String VarKind).lookup a =
        some (.param i) → a = "r" := by
      intro a i h
      by_contra hne
      rw [AList.lookup_insert_ne hne, AList.lookup_empty] at h
      cases h
    exact fun a b i ha hb => (hkey a i ha).trans (hkey b i hb).symm

def selfFlow : RecRefFlow 1 where
  routines _ := selfCaller
  targets := AList.insert "site" [0] ∅
  openSites := []
  builtinSites := []
  subscribers := ∅
  tableNames := ∅
  facts _ := selfFacts
  summaries _ := ∅
  sensitive _ := true

/-- The recursion is read while it is computed, and settles in a second pass. -/
theorem evaluate_sound_selfFlow :
    ∃ vals st', evaluate selfFlow 4 ⟨0, [(0, some {"vendor"})], []⟩ (.start 1) = some (some vals, st') ∧
      vals.lookup "r" = some (some {"item", "vendor"}) ∧
      (equations selfFlow).least (EvalKey.setting ⟨0, [(0, some {"vendor"})], []⟩) ≤ heldOf vals := by
  have heval : ((evaluate selfFlow 4 ⟨0, [(0, some {"vendor"})], []⟩ (.start 1)).bind Prod.fst).bind
      (fun vals => vals.lookup "r") = some (some {"item", "vendor"}) := by
    decide +kernel
  obtain ⟨vals, hvals, hlookup⟩ := Option.bind_eq_some_iff.mp heval
  obtain ⟨⟨r, st'⟩, hrun, hr⟩ := Option.bind_eq_some_iff.mp hvals
  obtain rfl : r = some vals := hr
  exact ⟨vals, st', hrun, hlookup, (evaluate_sound .start).2 4 _ vals st' hrun⟩

end AlSem.L5.RecrefFlow
