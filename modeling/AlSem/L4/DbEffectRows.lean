/-
# What the solver's rows hold

A set of ids decodes, through the interned effects, to a set of effects (`Decodes`); interning
more effects changes no decoding.  Each function of the solver that writes ids is read here as
what it does to decoded sets: the closed-form union, the recorded rows, the seeded rows.
-/
import AlSem.L4.DbEffectSolver

namespace AlSem.L4

/-! ## 1. Decoding -/

/-- The ids decode to exactly the effects of `X`. -/
structure Decodes (effects : GrowingEffectUniverse) (ids : ℕ → Prop) (X : Set EffectIdentity) :
    Prop where
  sound : ∀ id, ids id → ∃ k ∈ X, effects.value id = some k
  complete : ∀ k ∈ X, ∃ id, ids id ∧ effects.value id = some k

namespace Decodes

variable {effects effects' : GrowingEffectUniverse} {ids ids' : ℕ → Prop}
  {X Y : Set EffectIdentity}

theorem mono (h : Decodes effects ids X) (hle : effects.Le effects') : Decodes effects' ids X := by
  refine ⟨fun id hid => ?_, fun k hk => ?_⟩
  · obtain ⟨k, hk, hv⟩ := h.sound id hid
    exact ⟨k, hk, hle id k hv⟩
  · obtain ⟨id, hid, hv⟩ := h.complete k hk
    exact ⟨id, hid, hle id k hv⟩

theorem congr (h : Decodes effects ids X) (hids : ∀ id, ids' id ↔ ids id) (hX : Y = X) :
    Decodes effects ids' Y := by
  subst hX
  refine ⟨fun id hid => h.sound id ((hids id).mp hid), fun k hk => ?_⟩
  obtain ⟨id, hid, hv⟩ := h.complete k hk
  exact ⟨id, (hids id).mpr hid, hv⟩

theorem union (h : Decodes effects ids X) (h' : Decodes effects ids' Y) :
    Decodes effects (fun id => ids id ∨ ids' id) (X ∪ Y) := by
  refine ⟨fun id hid => ?_, fun k hk => ?_⟩
  · rcases hid with hid | hid
    · obtain ⟨k, hk, hv⟩ := h.sound id hid
      exact ⟨k, Or.inl hk, hv⟩
    · obtain ⟨k, hk, hv⟩ := h'.sound id hid
      exact ⟨k, Or.inr hk, hv⟩
  · rcases hk with hk | hk
    · obtain ⟨id, hid, hv⟩ := h.complete k hk
      exact ⟨id, Or.inl hid, hv⟩
    · obtain ⟨id, hid, hv⟩ := h'.complete k hk
      exact ⟨id, Or.inr hid, hv⟩

theorem nil : Decodes effects (fun id => hasBit [] id = true) ∅ :=
  ⟨fun id hid => by simp at hid, fun k hk => absurd hk (by simp)⟩

theorem singleton {id : ℕ} {k : EffectIdentity} (h : effects.value id = some k) :
    Decodes effects (fun n => n = id) {k} :=
  ⟨fun n hn => ⟨k, rfl, by rw [hn, h]⟩, fun k' hk' => ⟨id, rfl, by rw [h, Set.mem_singleton_iff.mp hk']⟩⟩

/-- What one id decodes to. -/
theorem mem_of_value (h : Decodes effects ids X) {id : ℕ} {k : EffectIdentity} (hid : ids id)
    (hk : effects.value id = some k) : k ∈ X := by
  obtain ⟨k', hk', hv⟩ := h.sound id hid
  rw [hk] at hv
  exact Option.some.inj hv ▸ hk'

end Decodes

/-- The bits decode to `X`. -/
abbrev BitsDecode (s : GrowingEffectUniverse × Bits) (X : Set EffectIdentity) : Prop :=
  Decodes s.1 (fun id => hasBit s.2 id = true) X

theorem internBit_decodes {s : GrowingEffectUniverse × Bits} {X : Set EffectIdentity}
    (h : BitsDecode s X) (k : EffectIdentity) :
    s.1.Le (internBit s k).1 ∧ BitsDecode (internBit s k) (insert k X) := by
  obtain ⟨hle, hval⟩ := s.1.intern_spec k
  refine ⟨hle, ?_⟩
  refine ((Decodes.singleton hval).union (h.mono hle)).congr (fun id => ?_) (Set.insert_eq k X)
  unfold internBit
  simp

/-- **A fold that interns the effects it reads adds exactly those.**  `step` interns the effect
`f a`, or skips an `a` without one. -/
theorem foldl_decodes {α : Type*}
    (step : GrowingEffectUniverse × Bits → α → GrowingEffectUniverse × Bits) {f : α → Option EffectIdentity}
    (hstep : ∀ s a, step s a = match f a with | some k => internBit s k | none => s)
    (l : List α) {s : GrowingEffectUniverse × Bits} {X : Set EffectIdentity} (h : BitsDecode s X) :
    s.1.Le (l.foldl step s).1 ∧ BitsDecode (l.foldl step s) (X ∪ {k | ∃ a ∈ l, f a = some k}) := by
  induction l generalizing s X with
  | nil => exact ⟨Interner.Le.refl _, h.congr (fun _ => Iff.rfl) (by simp)⟩
  | cons a l ih =>
    rw [List.foldl_cons, hstep]
    cases hf : f a with
    | none =>
      obtain ⟨hle, hd⟩ := ih h
      refine ⟨hle, hd.congr (fun _ => Iff.rfl) ?_⟩
      ext k
      simp [hf]
    | some k =>
      obtain ⟨hle, hd⟩ := internBit_decodes h k
      obtain ⟨hle', hd'⟩ := ih hd
      refine ⟨hle.trans hle', hd'.congr (fun _ => Iff.rfl) ?_⟩
      ext k'
      simp only [Set.mem_union, Set.mem_insert_iff, Set.mem_ofPred_eq, List.mem_cons,
        exists_eq_or_imp, hf, Option.some.injEq]
      rw [eq_comm (a := k) (b := k')]
      exact or_left_comm.trans or_assoc.symm

/-! ## 2. Terminal and parameter-dependent effects -/

/-- The effects whose temp state does not depend on a parameter. -/
def terminalEffects : Set EffectIdentity := {k | ∀ i, k.temp ≠ .parameterDependent i}

theorem mem_terminalEffects_of_known {base : BaseId} {v : Bool} :
    effectOf base (.known v) ∈ terminalEffects := fun i h => by simp [effectOf] at h

theorem mem_terminalEffects_of_unknown {base : BaseId} :
    effectOf base .unknown ∈ terminalEffects := fun i h => by simp [effectOf] at h

theorem not_terminal_of_pd {base : BaseId} {i : ℕ} :
    effectOf base (.parameterDependent i) ∉ terminalEffects := fun h => h i rfl

/-- An effect that is not terminal depends on one parameter. -/
theorem exists_index_of_not_terminal {k : EffectIdentity} (h : k ∉ terminalEffects) :
    ∃ i, k = effectOf k.base (.parameterDependent i) := by
  simp only [terminalEffects, Set.mem_ofPred_eq, not_forall, not_not] at h
  obtain ⟨i, hi⟩ := h
  exact ⟨i, by rw [← hi]; rfl⟩

/-! ## 3. Rows -/

/-- Routine `ix` has a row, and its row holds exactly the effects of `X`: the terminal ones in
the shared set, the others in its own list. -/
structure RowHolds (s : SolveState) (ix : ℕ) (X : Set EffectIdentity) : Prop where
  hasRow : s.bundle.hasRow ix = true
  terminal : Decodes s.effects (fun id => hasBit (s.bundle.terminalBits ix) id = true)
    (X ∩ terminalEffects)
  pd : Decodes s.effects (fun id => id ∈ s.bundle.pdIds ix) (X \ terminalEffects)

/-- Every row refers to a terminal set of the arena. -/
def BundleOk (b : SummaryBundleBuilder) : Prop :=
  ∀ ix row, b.rows ix = some row → row.terminalSet < b.arena.length

/-- `s'` extends `s`: its effects and its arena grew. -/
structure Extends (s s' : SolveState) : Prop where
  effects : s.effects.Le s'.effects
  arena : ∃ l, s'.bundle.arena = s.bundle.arena ++ l

/-- **A row that is not touched holds what it held.** -/
theorem RowHolds.of_extends {s s' : SolveState} {ix : ℕ} {X : Set EffectIdentity}
    (h : RowHolds s ix X) (hok : BundleOk s.bundle) (hext : Extends s s')
    (hrow : s'.bundle.rows ix = s.bundle.rows ix) : RowHolds s' ix X := by
  obtain ⟨l, hl⟩ := hext.arena
  have hterm : s'.bundle.terminalBits ix = s.bundle.terminalBits ix := by
    unfold SummaryBundleBuilder.terminalBits
    rw [hrow, hl]
    cases hr : s.bundle.rows ix with
    | none => rfl
    | some row => exact List.getD_append _ _ _ _ (hok ix row hr)
  have hpd : s'.bundle.pdIds ix = s.bundle.pdIds ix := by
    unfold SummaryBundleBuilder.pdIds
    rw [hrow]
  refine ⟨?_, ?_, ?_⟩
  · simpa [SummaryBundleBuilder.hasRow, hrow] using h.hasRow
  · rw [hterm]
    exact h.terminal.mono hext.effects
  · rw [hpd]
    exact h.pd.mono hext.effects

/-! ## 4. Seeded rows -/

/-- The effects of a list that a condition holds of, where it holds of the first. -/
theorem union_effects_cons {P : EffectIdentity → Prop} {e : EffectIdentity × ViaRank} (he : P e.1)
    (X : Set EffectIdentity) (l : List (EffectIdentity × ViaRank)) :
    X ∪ {k | P k ∧ ∃ x ∈ e :: l, x.1 = k} = insert e.1 X ∪ {k | P k ∧ ∃ x ∈ l, x.1 = k} := by
  ext k
  constructor
  · rintro (h | ⟨hk, x, hx, hxk⟩)
    · exact Or.inl (Or.inr h)
    · rcases List.mem_cons.mp hx with rfl | hx
      · exact Or.inl (Or.inl hxk.symm)
      · exact Or.inr ⟨hk, x, hx, hxk⟩
  · rintro ((rfl | h) | ⟨hk, x, hx, hxk⟩)
    · exact Or.inr ⟨he, e, List.mem_cons_self, rfl⟩
    · exact Or.inl h
    · exact Or.inr ⟨hk, x, List.mem_cons_of_mem _ hx, hxk⟩

/-- Where it does not hold of the first. -/
theorem union_effects_cons_of_not {P : EffectIdentity → Prop} {e : EffectIdentity × ViaRank}
    (he : ¬ P e.1) (X : Set EffectIdentity) (l : List (EffectIdentity × ViaRank)) :
    X ∪ {k | P k ∧ ∃ x ∈ e :: l, x.1 = k} = X ∪ {k | P k ∧ ∃ x ∈ l, x.1 = k} := by
  ext k
  constructor
  · rintro (h | ⟨hk, x, hx, hxk⟩)
    · exact Or.inl h
    · rcases List.mem_cons.mp hx with rfl | hx
      · exact absurd (hxk ▸ hk) he
      · exact Or.inr ⟨hk, x, hx, hxk⟩
  · rintro (h | ⟨hk, x, hx, hxk⟩)
    · exact Or.inl h
    · exact Or.inr ⟨hk, x, List.mem_cons_of_mem _ hx, hxk⟩

/-- What `seed_row`'s fold has collected. -/
theorem foldl_seedEffect (l : List (EffectIdentity × ViaRank)) :
    ∀ (u : GrowingEffectUniverse) (t p : Bits) (via : ℕ → Option ViaRank) (X Y : Set EffectIdentity),
      BitsDecode (u, t) X → BitsDecode (u, p) Y →
      u.Le (l.foldl seedEffect (u, t, p, via)).1 ∧
      BitsDecode ((l.foldl seedEffect (u, t, p, via)).1, (l.foldl seedEffect (u, t, p, via)).2.1)
        (X ∪ {k | k ∈ terminalEffects ∧ ∃ e ∈ l, e.1 = k}) ∧
      BitsDecode ((l.foldl seedEffect (u, t, p, via)).1, (l.foldl seedEffect (u, t, p, via)).2.2.1)
        (Y ∪ {k | k ∉ terminalEffects ∧ ∃ e ∈ l, e.1 = k}) := by
  induction l with
  | nil =>
    intro u t p via X Y ht hp
    exact ⟨Interner.Le.refl _, ht.congr (fun _ => Iff.rfl) (by simp),
      hp.congr (fun _ => Iff.rfl) (by simp)⟩
  | cons e l ih =>
    intro u t p via X Y ht hp
    rw [List.foldl_cons]
    by_cases hterm : e.1 ∈ terminalEffects
    · have hstep : seedEffect (u, t, p, via) e =
          ((u.intern e.1).1, setBit t (u.intern e.1).2, p,
            Function.update via (u.intern e.1).2 (some e.2)) := by
        unfold seedEffect
        cases htemp : e.1.temp with
        | parameterDependent i => exact absurd htemp (hterm i)
        | known v => rfl
        | unknown => rfl
      obtain ⟨hle, ht'⟩ := internBit_decodes ht e.1
      have hp' : BitsDecode ((u.intern e.1).1, p) Y := hp.mono hle
      obtain ⟨hle', h₁, h₂⟩ := ih _ _ _ (Function.update via (u.intern e.1).2 (some e.2)) _ _ ht' hp'
      rw [hstep]
      exact ⟨hle.trans hle', h₁.congr (fun _ => Iff.rfl) (union_effects_cons hterm X l),
        h₂.congr (fun _ => Iff.rfl) (union_effects_cons_of_not (not_not_intro hterm) Y l)⟩
    · obtain ⟨i, hi⟩ := exists_index_of_not_terminal hterm
      have htemp : e.1.temp = .parameterDependent i := by rw [hi]; rfl
      have hstep : seedEffect (u, t, p, via) e =
          ((u.intern e.1).1, t, setBit p (u.intern e.1).2,
            Function.update via (u.intern e.1).2 (some e.2)) := by
        unfold seedEffect
        simp [htemp]
      obtain ⟨hle, hp'⟩ := internBit_decodes hp e.1
      have ht' : BitsDecode ((u.intern e.1).1, t) X := ht.mono hle
      obtain ⟨hle', h₁, h₂⟩ := ih _ _ _ (Function.update via (u.intern e.1).2 (some e.2)) _ _ ht' hp'
      rw [hstep]
      exact ⟨hle.trans hle', h₁.congr (fun _ => Iff.rfl) (union_effects_cons_of_not hterm X l),
        h₂.congr (fun _ => Iff.rfl) (union_effects_cons hterm Y l)⟩

/-- **A seeded row holds its effects**, and every other row stays. -/
theorem seedRow_spec (ix : ℕ) (effects : List (EffectIdentity × ViaRank)) {s : SolveState}
    (hok : BundleOk s.bundle) :
    Extends s (seedRow ix effects s) ∧ BundleOk (seedRow ix effects s).bundle ∧
      RowHolds (seedRow ix effects s) ix {k | ∃ e ∈ effects, e.1 = k} ∧
      ∀ ix', ix' ≠ ix → (seedRow ix effects s).bundle.rows ix' = s.bundle.rows ix' := by
  obtain ⟨hle, ht, hp⟩ := foldl_seedEffect effects s.effects [] [] (fun _ => none) ∅ ∅
    Decodes.nil Decodes.nil
  have hrows : ∀ ix', ix' ≠ ix → (seedRow ix effects s).bundle.rows ix' = s.bundle.rows ix' :=
    fun ix' hne => Function.update_of_ne hne _ _
  have harena : (seedRow ix effects s).bundle.arena = s.bundle.arena ++
      [(effects.foldl seedEffect (s.effects, [], [], fun _ => none)).2.1] := rfl
  have hself : (seedRow ix effects s).bundle.rows ix = some
      { terminalSet := s.bundle.arena.length
        baseVia := (iterSetBits (effects.foldl seedEffect (s.effects, [], [], fun _ => none)).2.1).map
          fun eid => ((effects.foldl seedEffect (s.effects, [], [], fun _ => none)).2.2.2 eid).getD
            .inherited
        pdDelta := iterSetBits (effects.foldl seedEffect (s.effects, [], [], fun _ => none)).2.2.1
        deltaVia := (iterSetBits (effects.foldl seedEffect (s.effects, [], [], fun _ => none)).2.2.1).map
          fun eid => ((effects.foldl seedEffect (s.effects, [], [], fun _ => none)).2.2.2 eid).getD
            .inherited } := Function.update_self _ _ _
  refine ⟨⟨hle, _, harena⟩, fun ix' row hrow => ?_, ⟨?_, ?_, ?_⟩, hrows⟩
  · rw [harena, List.length_append]
    by_cases hne : ix' = ix
    · subst hne
      rw [hself] at hrow
      obtain rfl := Option.some.inj hrow
      simp
    · rw [hrows ix' hne] at hrow
      have := hok ix' row hrow
      simp only [List.length_singleton]
      omega
  · simp [SummaryBundleBuilder.hasRow, hself]
  · refine ht.congr (fun id => ?_) ((Set.ext fun k => and_comm).trans (Set.empty_union _).symm)
    have hbits : (seedRow ix effects s).bundle.terminalBits ix =
        (effects.foldl seedEffect (s.effects, [], [], fun _ => none)).2.1 := by
      simp [SummaryBundleBuilder.terminalBits, hself, harena]
    rw [hbits]
  · refine hp.congr (fun id => ?_) ((Set.ext fun k => and_comm).trans (Set.empty_union _).symm)
    simp [SummaryBundleBuilder.pdIds, hself]

end AlSem.L4
