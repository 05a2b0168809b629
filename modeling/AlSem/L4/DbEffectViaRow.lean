/-
# The provenance in the rows

Every state the solver goes through is `Typed`: a row's shared set holds terminal effects and its
own list parameter-dependent ones.  So the two passes of a component's solve see its targets as
they are, and each row a solve records carries for each effect the maximum over its contributors
(`solveOneEffectiveScc_via`).
-/
import AlSem.L4.SummaryBundle
import AlSem.L4.DbEffectLfp
import AlSem.L4.DbEffectVia

namespace AlSem.L4

open AlSem.Model

/-! ## 1. The states a solve goes through -/

/-- A state that seeding rows and solving components lead to, in any order. -/
inductive SolveState.Reached (ctx : SolverInput) : SolveState → Prop
  | new : Reached ctx { effects := Interner.new, bundle := .new }
  | seeded {s : SolveState} (ix : ℕ) (effects : List (EffectIdentity × ViaRank)) :
    Reached ctx s → Reached ctx (seedRow ix effects s)
  | solved {s s' : SolveState} {eff : Scc String} {settled : String → Option RoutineSummary}
    {side : SideResults} : Reached ctx s →
    solveOneEffectiveScc ctx eff settled s = some (s', side) → Reached ctx s'

/-- Every row holds terminal effects in its shared set and parameter-dependent ones in its own
list. -/
structure SolveState.Typed (s : SolveState) : Prop where
  bundle : BundleOk s.bundle
  rows : ∀ ix, s.bundle.hasRow ix = true → ∃ X, RowHolds s ix X

theorem SolveState.Typed.terminal {s : SolveState} (h : s.Typed) {ix id : ℕ}
    (hid : hasBit (s.bundle.terminalBits ix) id = true) :
    ∃ k ∈ terminalEffects, s.effects.value id = some k := by
  cases hrow : s.bundle.rows ix with
  | none => simp [SummaryBundleBuilder.terminalBits, hrow] at hid
  | some row =>
    obtain ⟨X, hX⟩ := h.rows ix (by simp [SummaryBundleBuilder.hasRow, hrow])
    obtain ⟨k, hk, hv⟩ := hX.terminal.sound id hid
    exact ⟨k, hk.2, hv⟩

theorem SolveState.Typed.pd {s : SolveState} (h : s.Typed) {ix id : ℕ}
    (hid : id ∈ s.bundle.pdIds ix) : ∃ k, k ∉ terminalEffects ∧ s.effects.value id = some k := by
  cases hrow : s.bundle.rows ix with
  | none => simp [SummaryBundleBuilder.pdIds, hrow] at hid
  | some row =>
    obtain ⟨X, hX⟩ := h.rows ix (by simp [SummaryBundleBuilder.hasRow, hrow])
    obtain ⟨k, hk, hv⟩ := hX.pd.sound id hid
    exact ⟨k, hk.2, hv⟩

/-! ## 2. One component -/

section Solve

variable {ctx : SolverInput} {members : List String} {s : SolveState}

/-- The shared set of a component decodes to terminal effects. -/
theorem terminalUnionOf_typed (hs : s.Typed) {emissions : List TerminalEmission}
    (hem : ∀ t ∈ emissions, effectOf t.base t.temp ∈ terminalEffects) :
    s.effects.Le (terminalUnionOf ctx members s.bundle emissions s.effects).1 ∧
      ∃ T ⊆ terminalEffects, BitsDecode (terminalUnionOf ctx members s.bundle emissions s.effects) T := by
  unfold terminalUnionOf
  obtain ⟨hle₁, hd₁⟩ := foldl_decodes _ internTerminalDbEffect_eq
    (members.flatMap fun m => ((ctx.baseOf m).map RoutineSummary.dbEffects).getD [])
    (s := (s.effects, [])) Decodes.nil
  -- the settled targets' sets
  have hsettled : ∀ (u : GrowingEffectUniverse), s.effects.Le u → ∀ (l : List CombinedEdge) (bits : Bits)
      (X : Set EffectIdentity), X ⊆ terminalEffects → BitsDecode (u, bits) X →
      ∃ Y ⊆ terminalEffects, BitsDecode (u, l.foldl (orSettled ctx s.bundle) bits) Y := by
    intro u hle l
    induction l with
    | nil => exact fun bits X hX hd => ⟨X, hX, hd⟩
    | cons e l ih =>
      intro bits X hX hd
      rw [List.foldl_cons]
      unfold orSettled
      cases hto : ctx.interner.get e.to with
      | none => exact ih bits X hX hd
      | some toIx =>
        dsimp only
        split
        · rename_i hrow
          obtain ⟨Y, hY⟩ := hs.rows toIx hrow
          refine ih _ (X ∪ Y ∩ terminalEffects) (Set.union_subset hX Set.inter_subset_right) ?_
          exact (hd.union (hY.terminal.mono hle)).congr (fun id => by simp) rfl
        · exact ih bits X hX hd
  have hown : (∅ : Set EffectIdentity) ∪ {k | ∃ d ∈ members.flatMap fun m =>
      ((ctx.baseOf m).map RoutineSummary.dbEffects).getD [], terminalIdentity d = some k} ⊆
        terminalEffects := by
    rintro k (hk | ⟨d, -, hd⟩)
    · exact absurd hk (Set.notMem_empty k)
    · exact (terminalIdentity_eq_some.mp hd).2
  obtain ⟨Y, hY, hd₂⟩ := hsettled _ hle₁ (members.flatMap (outerEdges ctx members)) _ _ hown hd₁
  obtain ⟨hle₃, hd₃⟩ := foldl_decodes
    (fun s (t : TerminalEmission) => internBit s (effectOf t.base t.temp))
    (f := fun t => some (effectOf t.base t.temp)) (fun _ _ => rfl) emissions hd₂
  refine ⟨hle₁.trans hle₃, _, Set.union_subset hY ?_, hd₃⟩
  rintro k ⟨t, ht, hk⟩
  exact Option.some.inj hk ▸ hem t ht

/-- Every member gets its own bits, and they decode to parameter-dependent effects. -/
theorem internMemberPd_typed (facts : List PdFact) :
    ∀ (l : List String) (u : GrowingEffectUniverse) (pd : ℕ → Option Bits),
      (∀ ix bits, pd ix = some bits → ∃ P ⊆ terminalEffectsᶜ, BitsDecode (u, bits) P) →
      u.Le (l.foldl (internMemberPd ctx facts) (u, pd)).1 ∧
      (∀ ix bits, (l.foldl (internMemberPd ctx facts) (u, pd)).2 ix = some bits →
        ∃ P ⊆ terminalEffectsᶜ, BitsDecode ((l.foldl (internMemberPd ctx facts) (u, pd)).1, bits) P) ∧
      (∀ ix, (pd ix).isSome = true → ((l.foldl (internMemberPd ctx facts) (u, pd)).2 ix).isSome = true) ∧
      ∀ m ∈ l, ∀ ix, ctx.interner.get m = some ix →
        ((l.foldl (internMemberPd ctx facts) (u, pd)).2 ix).isSome = true := by
  intro l
  induction l with
  | nil => exact fun u pd h => ⟨Interner.Le.refl _, h, fun _ => id, by simp⟩
  | cons m l ih =>
    intro u pd h
    rw [List.foldl_cons]
    cases hix : ctx.interner.get m with
    | none =>
      have hstep : internMemberPd ctx facts (u, pd) m = (u, pd) := by simp [internMemberPd, hix]
      rw [hstep]
      obtain ⟨hle, htyped, hkeep, hmem⟩ := ih u pd h
      refine ⟨hle, htyped, hkeep, fun m' hm' ix hix' => ?_⟩
      rcases List.mem_cons.mp hm' with rfl | hm'
      · rw [hix] at hix'
        cases hix'
      · exact hmem m' hm' ix hix'
    | some mIx =>
      obtain ⟨hle₁, hd₁⟩ := foldl_decodes
        (fun s (f : PdFact) => internBit s (effectOf f.base (.parameterDependent f.paramIndex)))
        (f := fun f => some (effectOf f.base (.parameterDependent f.paramIndex))) (fun _ _ => rfl)
        (facts.filter fun f => f.routineId = m) (s := (u, [])) Decodes.nil
      have hstep : internMemberPd ctx facts (u, pd) m =
          (((facts.filter fun f => f.routineId = m).foldl (fun s f =>
              internBit s (effectOf f.base (.parameterDependent f.paramIndex))) (u, [])).1,
            Function.update pd mIx (some ((facts.filter fun f => f.routineId = m).foldl (fun s f =>
              internBit s (effectOf f.base (.parameterDependent f.paramIndex))) (u, [])).2)) := by
        unfold internMemberPd
        simp only [hix]
      rw [hstep]
      generalize (facts.filter fun f => f.routineId = m).foldl (fun s f =>
        internBit s (effectOf f.base (.parameterDependent f.paramIndex))) (u, []) = r at hle₁ hd₁
      obtain ⟨hle₂, htyped, hkeep, hmem⟩ := ih r.1 (Function.update pd mIx (some r.2)) fun ix bits hbits => by
        by_cases hx : ix = mIx
        · subst hx
          rw [Function.update_self] at hbits
          obtain rfl := Option.some.inj hbits
          refine ⟨_, ?_, hd₁⟩
          rintro k (hk | ⟨f, -, hk⟩)
          · exact absurd hk (Set.notMem_empty k)
          · exact Option.some.inj hk ▸ not_terminal_of_pd
        · rw [Function.update_of_ne hx] at hbits
          obtain ⟨P, hP, hd⟩ := h ix bits hbits
          exact ⟨P, hP, hd.mono hle₁⟩
      refine ⟨hle₁.trans hle₂, htyped, fun ix hsome => hkeep ix ?_, fun m' hm' ix hix' => ?_⟩
      · by_cases hx : ix = mIx
        · subst hx
          simp
        · rw [Function.update_of_ne hx]
          exact hsome
      · rcases List.mem_cons.mp hm' with rfl | hm'
        · rw [hix] at hix'
          obtain rfl := Option.some.inj hix'
          exact hkeep mIx (by simp)
        · exact hmem m' hm' ix hix'

/-- **What solving a component does**: the presence of its members is typed, each member's row is
recorded from it, and no other row is touched. -/
theorem solveOneEffectiveScc_row (hs : s.Typed) (ctx : SolverInput) (eff : Scc String)
    (settled : String → Option RoutineSummary) :
    ∃ s' side presence, solveOneEffectiveScc ctx eff settled s = some (s', side) ∧ Extends s s' ∧
      PresenceTyped s.bundle s'.effects presence ∧
      (∀ m ∈ eff.members, ∀ ix, ctx.interner.get m = some ix → (presence.pdByMember ix).isSome = true ∧
        s'.bundle.terminalBits ix = presence.terminalUnion ∧
        s'.bundle.rows ix = some (memberRow presence
          (attributePdSubstitutedVia ctx eff.members s.bundle s'.effects presence
            (reconstructVia ctx eff.members s.bundle s'.effects presence)) s.bundle.arena.length ix)) ∧
      (∀ ix, (∀ m ∈ eff.members, ctx.interner.get m ≠ some ix) →
        s'.bundle.rows ix = s.bundle.rows ix) ∧ s'.Typed := by
  obtain ⟨w, hw, -, hout⟩ := pdWorklist_solved ctx eff.members s
  set emissions := w.out.mergeSort TerminalEmission.le with hemissions
  set facts := (w.visited.filterMap fun st => (ctx.interner.name st.1).map fun r =>
    (⟨r, st.2.1, st.2.2⟩ : PdFact)).mergeSort PdFact.le with hfacts
  have hem : ∀ t ∈ emissions, effectOf t.base t.temp ∈ terminalEffects := fun t ht =>
    terminal_of_emitted ((hout t).mp ((List.mergeSort_perm _ _).mem_iff.mp ht))
  obtain ⟨hle₁, T, hT, hterm⟩ := @terminalUnionOf_typed ctx eff.members _ hs _ hem
  set u := terminalUnionOf ctx eff.members s.bundle emissions s.effects with hu
  obtain ⟨hle₂, hpd, -, hsome⟩ := @internMemberPd_typed ctx facts eff.members u.1
    (fun _ => none) fun ix bits h => by cases h
  set v := eff.members.foldl (internMemberPd ctx facts) (u.1, fun _ => none) with hv
  set presence : SccPresence := { terminalUnion := u.2, pdByMember := v.2 } with hpres
  set viaMap := attributePdSubstitutedVia ctx eff.members s.bundle v.1 presence
    (reconstructVia ctx eff.members s.bundle v.1 presence) with hvia
  set ixs := eff.members.filterMap ctx.interner.get with hixs
  obtain ⟨harena, hkeep, hrow⟩ := foldl_materialize presence viaMap s.bundle.arena.length ixs
    { s.bundle with arena := s.bundle.arena ++ [u.2] }
  set b := ixs.foldl (materializeMemberRow presence viaMap s.bundle.arena.length)
    { s.bundle with arena := s.bundle.arena ++ [u.2] } with hb
  have hmem : ∀ m ∈ eff.members, ∀ ix, ctx.interner.get m = some ix → ix ∈ ixs := fun m hm ix hix =>
    List.mem_filterMap.mpr ⟨m, hm, hix⟩
  have hext : Extends s { effects := v.1, bundle := b } := ⟨hle₁.trans hle₂, [u.2], harena⟩
  have hbits : ∀ ix ∈ ixs, b.terminalBits ix = u.2 := by
    intro ix hix
    simp only [SummaryBundleBuilder.terminalBits, hrow ix hix, memberRow, harena]
    simp
  have hother : ∀ ix, (∀ m ∈ eff.members, ctx.interner.get m ≠ some ix) →
      b.rows ix = s.bundle.rows ix := by
    intro ix hix
    refine hkeep ix fun hin => ?_
    obtain ⟨m, hm, hmix⟩ := List.mem_filterMap.mp hin
    exact hix m hm hmix
  refine ⟨{ effects := v.1, bundle := b },
    sideResults ctx eff.members (solveSideFacts ctx eff.members settled), presence, ?_, hext, ?_,
    fun m hm ix hix => ⟨hsome m hm ix hix, hbits ix (hmem m hm ix hix), hrow ix (hmem m hm ix hix)⟩,
    hother, ?_, ?_⟩
  · unfold solveOneEffectiveScc solvePdReachability
    simp only [hw, Option.map_some]
    rfl
  · refine ⟨fun id hid => ?_, fun ix bits id hbits hid => ?_, fun ix id hid => ?_, fun ix id hid => ?_⟩
    · obtain ⟨k, hk, hval⟩ := (hterm.mono hle₂).sound id hid
      exact ⟨k, hT hk, hval⟩
    · obtain ⟨P, hP, hd⟩ := hpd ix bits hbits
      obtain ⟨k, hk, hval⟩ := hd.sound id hid
      exact ⟨k, hP hk, hval⟩
    · obtain ⟨k, hk, hval⟩ := hs.terminal hid
      exact ⟨k, hk, hext.effects id k hval⟩
    · obtain ⟨k, hk, hval⟩ := hs.pd hid
      exact ⟨k, hk, hext.effects id k hval⟩
  · intro ix row hr
    have hlen : b.arena.length = s.bundle.arena.length + 1 := by rw [harena]; simp
    by_cases hix : ix ∈ ixs
    · rw [hrow ix hix] at hr
      obtain rfl := Option.some.inj hr
      exact hlen ▸ Nat.lt_succ_self _
    · rw [hkeep ix hix] at hr
      exact hlen ▸ Nat.lt_succ_of_lt (hs.bundle ix row hr)
  · intro ix hhas
    by_cases hix : ∃ m ∈ eff.members, ctx.interner.get m = some ix
    · obtain ⟨m, hm, hmix⟩ := hix
      obtain ⟨bits, hbits'⟩ := Option.isSome_iff_exists.mp (hsome m hm ix hmix)
      obtain ⟨P, hP, hd⟩ := hpd ix bits hbits'
      refine ⟨T ∪ P, hhas, ?_, ?_⟩
      · refine (hterm.mono hle₂).congr (fun id => ?_) ?_
        · exact iff_of_eq (congrArg (fun bits => hasBit bits id = true) (hbits ix (hmem m hm ix hmix)))
        · rw [Set.union_inter_distrib_right, Set.inter_eq_left.mpr hT,
            Set.disjoint_iff_inter_eq_empty.mp (Set.disjoint_left.mpr hP), Set.union_empty]
      · refine hd.congr (fun id => ?_) ?_
        · have hread : b.pdIds ix = iterSetBits bits := by
            simp only [SummaryBundleBuilder.pdIds, hrow ix (hmem m hm ix hmix), memberRow]
            simp [hpres, hbits']
          exact (iff_of_eq (congrArg (id ∈ ·) hread)).trans (mem_iterSetBits bits id)
        · rw [Set.union_sdiff_distrib, Set.sdiff_eq_empty.mpr hT, Set.empty_union]
          exact (Set.disjoint_left.mpr hP).sdiff_eq_left
    · have hsame := hother ix fun m hm hmix => hix ⟨m, hm, hmix⟩
      obtain ⟨X, hX⟩ := hs.rows ix (by
        have hhas' : (b.rows ix).isSome = true := hhas
        rw [hsame] at hhas'
        exact hhas')
      exact ⟨X, hX.of_extends hs.bundle hext hsame⟩

/-- **Every state reached is typed.** -/
theorem SolveState.Reached.typed {ctx : SolverInput} (h : s.Reached ctx) : s.Typed := by
  induction h with
  | new =>
    refine ⟨fun ix row h => ?_, fun ix h => ?_⟩
    · cases h
    · cases h
  | @seeded s ix effects _ ih =>
    obtain ⟨hext, hok, hself, hother⟩ := seedRow_spec ix effects ih.bundle
    refine ⟨hok, fun ix' hrow => ?_⟩
    by_cases hix : ix' = ix
    · subst hix
      exact ⟨_, hself⟩
    · have hsame := hother ix' hix
      obtain ⟨X, hX⟩ := ih.rows ix' (by
        unfold SummaryBundleBuilder.hasRow at hrow ⊢
        rwa [hsame] at hrow)
      exact ⟨X, hX.of_extends ih.bundle hext hsame⟩
  | solved _ hsolve ih =>
    obtain ⟨s₁, side₁, presence, hsolve₁, -, -, -, -, htyped⟩ := solveOneEffectiveScc_row ih _ _ _
    obtain ⟨rfl, -⟩ := Prod.mk.inj (Option.some.inj (hsolve₁.symm.trans hsolve))
    exact htyped

/-- A row no solve touched reads as before. -/
theorem Extends.row_eq {s' : SolveState} (hs : s.Typed) (hext : Extends s s') {ix : ℕ}
    (hrow : s'.bundle.rows ix = s.bundle.rows ix) :
    s'.bundle.terminalBits ix = s.bundle.terminalBits ix ∧ s'.bundle.pdIds ix = s.bundle.pdIds ix := by
  obtain ⟨l, hl⟩ := hext.arena
  unfold SummaryBundleBuilder.terminalBits SummaryBundleBuilder.pdIds
  rw [hrow, hl]
  cases hr : s.bundle.rows ix with
  | none => exact ⟨rfl, rfl⟩
  | some row => exact ⟨List.getD_append _ _ _ _ (hs.bundle ix row hr), rfl⟩

/-! ## 3. The provenance recorded -/

/-- The row of `m` records the effect `k` with provenance `v`. -/
def SolveState.Records (s : SolveState) (interner : RoutineInterner) (m : String)
    (k : EffectIdentity) (v : ViaRank) : Prop :=
  ∃ ix row id, interner.get m = some ix ∧ s.bundle.rowEffects ix = some row ∧ (id, v) ∈ row ∧
    s.effects.value id = some k

/-- `v` is a provenance of the effect `k` of `m`: it is one of `m`'s own effects, or the image over
an out-edge of an effect present on the edge's target. -/
def SolveState.Contributes (ctx : SolverInput) (s : SolveState) (m : String) (k : EffectIdentity)
    (v : ViaRank) : Prop :=
  v = .direct ∧ (∃ d ∈ ctx.recordedEffects m, d.identity = k) ∨
    ∃ e ∈ ctx.graph.outEdges m, v = e.via ∧
      ∃ k' ∈ s.presence ctx.interner e.to, transferEffect ctx m e k' = k

/-- A row read with its provenances. -/
theorem mem_rowEffects_memberRow {b : SummaryBundleBuilder} {presence : SccPresence} {viaMap : ViaMap}
    {terminalSet ix id : ℕ} {v : ViaRank} (hrow : b.rows ix = some (memberRow presence viaMap terminalSet ix))
    (hbits : b.terminalBits ix = presence.terminalUnion) :
    (∃ row, b.rowEffects ix = some row ∧ (id, v) ∈ row) ↔
      presence.memberPresent ix id = true ∧ v = viaMap.viaOf ix id := by
  have hzip : ∀ ids : List ℕ, (id, v) ∈ ids.zip (ids.map fun id => (viaMap ix id).getD .inherited) ↔
      id ∈ ids ∧ v = viaMap.viaOf ix id := by
    intro ids
    rw [← List.map_prod_left_eq_zip, List.mem_map]
    constructor
    · rintro ⟨n, hn, heq⟩
      obtain ⟨rfl, rfl⟩ := Prod.mk.inj heq
      exact ⟨hn, rfl⟩
    · rintro ⟨hid, rfl⟩
      exact ⟨id, hid, rfl⟩
  have hset : b.arena.getD terminalSet [] = presence.terminalUnion := by
    unfold SummaryBundleBuilder.terminalBits at hbits
    rw [hrow] at hbits
    exact hbits
  unfold SummaryBundleBuilder.rowEffects
  rw [hrow, Option.map_some]
  simp only [memberRow, hset, Option.some.injEq, exists_eq_left', List.mem_append, hzip]
  rw [← or_and_right, mem_iterSetBits]
  unfold SccPresence.memberPresent
  cases presence.pdByMember ix <;> simp

end Solve

/-- **The recorded provenance is exact.**  Solving a component in any state reached records every
effect present on a member with the highest provenance among its contributors, `inherited` when
none is above it. -/
theorem solveOneEffectiveScc_via {ctx : SolverInput} {s : SolveState} (hs : s.Reached ctx)
    (eff : Scc String)
    (hknown : ∀ m ∈ eff.members, ∃ r ix, ctx.routinesById m = some r ∧ ctx.interner.get m = some ix)
    (settled : String → Option RoutineSummary) :
    ∃ s' side, solveOneEffectiveScc ctx eff settled s = some (s', side) ∧
      ∀ m ∈ eff.members, ∀ k v, s'.Records ctx.interner m k v ↔
        k ∈ s'.presence ctx.interner m ∧ IsVia (s'.Contributes ctx m k) v := by
  obtain ⟨s', side, presence, hsolve, hext, htyped, hrows, hother, -⟩ :=
    solveOneEffectiveScc_row hs.typed ctx eff settled
  refine ⟨s', side, hsolve, fun m hm k v => ?_⟩
  have hint : ∀ m ∈ eff.members, ∃ ix, ctx.interner.get m = some ix := by
    intro m hm
    obtain ⟨-, ix, -, hix⟩ := hknown m hm
    exact ⟨ix, hix⟩
  have hmember : ∀ {m ix id}, m ∈ eff.members → ctx.interner.get m = some ix →
      (presence.memberPresent ix id = true ↔
        hasBit (s'.bundle.terminalBits ix) id = true ∨ id ∈ s'.bundle.pdIds ix) := by
    intro m ix id hm hix
    obtain ⟨-, hbits, hrow⟩ := hrows m hm ix hix
    rw [hbits]
    unfold SccPresence.memberPresent SummaryBundleBuilder.pdIds
    rw [hrow]
    cases hpd : presence.pdByMember ix <;> simp [memberRow, hpd]
  -- what the passes read off a target is what its row holds
  have hcallee : ∀ {c id}, CalleeId ctx eff.members s.bundle presence c id ↔
      ∃ ix, ctx.interner.get c = some ix ∧
        (hasBit (s'.bundle.terminalBits ix) id = true ∨ id ∈ s'.bundle.pdIds ix) := by
    intro c id
    unfold CalleeId
    refine exists_congr fun ix => and_congr_right fun hix => ?_
    by_cases hc : c ∈ eff.members
    · rw [if_pos hc, hmember hc hix]
    · have hsame := hother ix fun m hm hmix => hc (Interner.get_inj hix hmix ▸ hm)
      obtain ⟨hbits, hpd⟩ := hext.row_eq hs.typed hsame
      rw [if_neg hc, hbits, hpd]
      refine and_iff_right_of_imp fun hid => ?_
      unfold SummaryBundleBuilder.hasRow
      by_contra hnone
      rw [Bool.not_eq_true, Option.isSome_eq_false_iff, Option.isNone_iff_eq_none] at hnone
      simp [SummaryBundleBuilder.terminalBits, SummaryBundleBuilder.pdIds, hnone] at hid
  obtain ⟨r, ix, hr, hix⟩ := hknown m hm
  obtain ⟨-, hbits, hrow⟩ := hrows m hm ix hix
  have hvia : ∀ {id}, presence.memberPresent ix id = true → s'.effects.value id = some k →
      IsVia (s'.Contributes ctx m k) ((attributePdSubstitutedVia ctx eff.members s.bundle s'.effects
        presence (reconstructVia ctx eff.members s.bundle s'.effects presence)).viaOf ix id) := by
    intro id hid hk
    refine (isVia_passes htyped hint hm hix hr hid hk).congr fun v _ => or_congr Iff.rfl ?_
    refine exists_congr fun e => and_congr_right fun _ => and_congr_right fun _ => ?_
    constructor
    · rintro ⟨k', ⟨ix', cid, hix', hcid, hk'⟩, htr⟩
      exact ⟨cid, k', hcallee.mpr ⟨ix', hix', hcid⟩, hk', htr⟩
    · rintro ⟨cid, k', hcid, hk', htr⟩
      obtain ⟨ix', hix', hcid⟩ := hcallee.mp hcid
      exact ⟨k', ⟨ix', cid, hix', hcid, hk'⟩, htr⟩
  constructor
  · rintro ⟨ix', row, id, hix', heffects, hmem, hk⟩
    obtain rfl := Option.some.inj (hix.symm.trans hix')
    obtain ⟨hid, rfl⟩ := (mem_rowEffects_memberRow hrow hbits).mp ⟨row, heffects, hmem⟩
    exact ⟨⟨ix, id, hix, (hmember hm hix).mp hid, hk⟩, hvia hid hk⟩
  · rintro ⟨⟨ix', id, hix', hid, hk⟩, hv⟩
    obtain rfl := Option.some.inj (hix.symm.trans hix')
    have hpresent := (hmember hm hix).mpr hid
    obtain ⟨row, heffects, hmem⟩ := (mem_rowEffects_memberRow hrow hbits).mpr ⟨hpresent, rfl⟩
    rw [hv.unique (hvia hpresent hk)]
    exact ⟨ix, row, id, hix, heffects, hmem, hk⟩

/-- The callee of `passingSetup` solved, then its caller. -/
theorem solveOneEffectiveScc_via_passing : ∃ s₁ side₁ s₂ side₂,
    solveOneEffectiveScc passingSetup.input { members := ["b"], recursive := false } (fun _ => none)
      { effects := Interner.new, bundle := .new } = some (s₁, side₁) ∧
    solveOneEffectiveScc passingSetup.input { members := ["a"], recursive := false } (fun _ => none)
      s₁ = some (s₂, side₂) ∧
    ∀ k v, s₂.Records passingSetup.interner "a" k v ↔
      k ∈ s₂.presence passingSetup.interner "a" ∧ IsVia (s₂.Contributes passingSetup.input "a" k) v := by
  have hknown : ∀ m, (∃ r, passingSetup.routinesById m = some r) → ∃ r ix,
      passingSetup.input.routinesById m = some r ∧ passingSetup.input.interner.get m = some ix := by
    rintro m ⟨r, hr⟩
    obtain ⟨ix, hix⟩ := interned_of (w := passingSetup) (Or.inl ⟨r, hr⟩)
    exact ⟨r, ix, hr, hix⟩
  obtain ⟨s₁, side₁, h₁, -⟩ := @solveOneEffectiveScc_via passingSetup.input _ .new
    { members := ["b"], recursive := false } (fun m hm => by
      obtain rfl := List.mem_singleton.mp hm
      exact hknown "b" ⟨passingCallee, rfl⟩) fun _ => none
  obtain ⟨s₂, side₂, h₂, hvia⟩ := solveOneEffectiveScc_via (SolveState.Reached.solved .new h₁)
    { members := ["a"], recursive := false } (fun m hm => by
      obtain rfl := List.mem_singleton.mp hm
      exact hknown "a" ⟨passingCaller, rfl⟩) fun _ => none
  exact ⟨s₁, side₁, s₂, side₂, h₁, h₂, hvia "a" List.mem_cons_self⟩

end AlSem.L4
