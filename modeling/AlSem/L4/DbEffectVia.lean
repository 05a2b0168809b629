/-
# The provenance of every recorded effect

The solver splits the contributors of an effect's provenance over two passes: `reconstruct_via`
takes a member's own effects and the terminal effects of its targets in bulk, and
`attribute_pd_substituted_via` the images of their parameter-dependent effects.  Read together
they are one maximum over the member's own effects and over every out-edge and every effect of its
target (`isVia_passes`).
-/
import AlSem.L4.DbEffectBlock

namespace AlSem.L4

open AlSem.Model

/-! ## 1. The highest of some provenances -/

theorem ViaRank.toNat_injective : Function.Injective ViaRank.toNat := by
  intro a b h
  cases a <;> cases b <;> first | rfl | cases h

/-- `v` is the highest of the provenances `C`, `inherited` when none is above it. -/
structure IsVia (C : ViaRank → Prop) (v : ViaRank) : Prop where
  contributed : C v ∨ v = .inherited
  upper : ∀ v', C v' → v'.toNat ≤ v.toNat

namespace IsVia

variable {C C' : ViaRank → Prop} {v v' : ViaRank}

theorem unique (h : IsVia C v) (h' : IsVia C v') : v = v' := by
  have hle : ∀ {v v'}, IsVia C v → IsVia C v' → v.toNat ≤ v'.toNat := by
    intro v v' hv hv'
    rcases hv.contributed with hc | rfl
    · exact hv'.upper v hc
    · exact Nat.zero_le _
  exact ViaRank.toNat_injective (le_antisymm (hle h h') (hle h' h))

/-- Contributors at `inherited` do not matter. -/
theorem congr (h : IsVia C v) (hC : ∀ r, r ≠ .inherited → (C' r ↔ C r)) : IsVia C' v := by
  refine ⟨?_, fun r hr => ?_⟩
  · by_cases hv : v = .inherited
    · exact Or.inr hv
    · exact Or.inl ((hC v hv).mpr (h.contributed.resolve_right hv))
  · by_cases hr' : r = .inherited
    · subst hr'
      exact Nat.zero_le _
    · exact h.upper r ((hC r hr').mp hr)

end IsVia

/-- The provenance of an effect of a member, `inherited` when the map has none. -/
def ViaMap.viaOf (viaMap : ViaMap) (ix id : ℕ) : ViaRank := (viaMap ix id).getD .inherited

theorem ViaMap.insert_apply (viaMap : ViaMap) (ix id ix' id' : ℕ) (via : ViaRank) :
    viaMap.insert ix' id' via ix id = if ix = ix' ∧ id = id' then some via else viaMap ix id := by
  unfold ViaMap.insert
  by_cases hix : ix = ix'
  · subst hix
    rw [Function.update_self]
    by_cases hid : id = id'
    · subst hid
      simp
    · rw [Function.update_of_ne hid, if_neg fun h => hid h.2]
  · rw [Function.update_of_ne hix, if_neg fun h => hix h.1]

/-- **Merging one provenance in** adds one contributor. -/
theorem IsVia.merge {C : ViaRank → Prop} {viaMap : ViaMap} {ix id : ℕ}
    (h : IsVia C (viaMap.viaOf ix id)) (ix' id' : ℕ) (via : ViaRank) :
    IsVia (fun v => C v ∨ (ix', id', via) = (ix, id, v)) ((mergeViaInto viaMap ix' id' via).viaOf ix id) := by
  by_cases hkey : ix = ix' ∧ id = id'
  · obtain ⟨rfl, rfl⟩ := hkey
    have hmerged : (mergeViaInto viaMap ix id via).viaOf ix id =
        if via.toNat ≤ (viaMap.viaOf ix id).toNat then viaMap.viaOf ix id else via := by
      unfold mergeViaInto ViaMap.viaOf
      cases hm : viaMap ix id with
      | none => cases via <;> simp [ViaMap.insert_apply, ViaRank.toNat]
      | some existing =>
        dsimp only
        by_cases hle : via.toNat ≤ existing.toNat <;> simp [ViaMap.insert_apply, hle]
    rw [hmerged]
    split
    · rename_i hle
      refine ⟨h.contributed.imp_left Or.inl, fun v hv => ?_⟩
      rcases hv with hv | heq
      · exact h.upper v hv
      · simp only [Prod.mk.injEq, true_and] at heq
        exact heq ▸ hle
    · rename_i hlt
      refine ⟨Or.inl (Or.inr rfl), fun v hv => ?_⟩
      rcases hv with hv | heq
      · have := h.upper v hv
        omega
      · simp only [Prod.mk.injEq, true_and] at heq
        rw [heq]
  · have hsame : (mergeViaInto viaMap ix' id' via).viaOf ix id = viaMap.viaOf ix id := by
      unfold mergeViaInto ViaMap.viaOf
      cases viaMap ix' id' with
      | none => simp [ViaMap.insert_apply, hkey]
      | some existing =>
        dsimp only
        split <;> simp [ViaMap.insert_apply, hkey]
    rw [hsame]
    refine h.congr fun r _ => ⟨fun hr => hr.resolve_right fun heq => hkey ?_, Or.inl⟩
    simp only [Prod.mk.injEq] at heq
    exact ⟨heq.1.symm, heq.2.1.symm⟩

/-- Merging some provenances in adds them all. -/
theorem IsVia.merges {ix id : ℕ} : ∀ (L : List (ℕ × ℕ × ViaRank)) {C : ViaRank → Prop} {viaMap : ViaMap},
    IsVia C (viaMap.viaOf ix id) →
    IsVia (fun v => C v ∨ (ix, id, v) ∈ L)
      ((L.foldl (fun viaMap a => mergeViaInto viaMap a.1 a.2.1 a.2.2) viaMap).viaOf ix id)
  | [], _, _, h => h.congr fun r _ => by simp
  | a :: L, C, viaMap, h => by
    rw [List.foldl_cons]
    refine (IsVia.merges L (h.merge a.1 a.2.1 a.2.2)).congr fun r _ => ?_
    rw [List.mem_cons, or_assoc, eq_comm (a := (ix, id, r))]

/-! ## 2. The first pass -/

section Passes

variable {ctx : SolverInput} {members : List String} {settledDb : SummaryBundleBuilder}
  {universe_ : GrowingEffectUniverse} {presence : SccPresence}

/-- The terminal ids the first pass takes over an edge. -/
def calleeTerminal (ctx : SolverInput) (members : List String) (settledDb : SummaryBundleBuilder)
    (presence : SccPresence) (edge : CombinedEdge) (id : ℕ) : Prop :=
  if edge.to ∈ members then hasBit presence.terminalUnion id = true
  else ∃ toIx, ctx.interner.get edge.to = some toIx ∧ settledDb.hasRow toIx = true ∧
    hasBit (settledDb.terminalBits toIx) id = true

/-- The provenance an edge gives. -/
def CombinedEdge.via (edge : CombinedEdge) : ViaRank := ViaRank.fromStr (viaForEdgeKind edge.kind)

theorem hasBit_foldEdgeVia (rankBits : ViaRank → Bits) (edge : CombinedEdge) (r : ViaRank) (id : ℕ) :
    hasBit (foldEdgeVia ctx members settledDb presence rankBits edge r) id = true ↔
      hasBit (rankBits r) id = true ∨
        r ≠ .inherited ∧ edge.via = r ∧ calleeTerminal ctx members settledDb presence edge id := by
  unfold foldEdgeVia calleeTerminal
  have hvia : ViaRank.fromStr (viaForEdgeKind edge.kind) = edge.via := rfl
  simp only [hvia]
  have hor : ∀ bits : Bits, hasBit (Function.update rankBits edge.via
      (orBits (rankBits edge.via) bits) r) id = true ↔
        hasBit (rankBits r) id = true ∨ edge.via = r ∧ hasBit bits id = true := by
    intro bits
    by_cases hr : r = edge.via
    · subst hr
      simp
    · rw [Function.update_of_ne hr]
      simp [Ne.symm hr]
  by_cases hfloor : edge.via = .inherited
  · rw [if_pos hfloor]
    refine ⟨Or.inl, fun h => h.resolve_right ?_⟩
    rintro ⟨hr, rfl, -⟩
    exact hr hfloor
  · rw [if_neg hfloor]
    have hne : ∀ p : Prop, (r ≠ .inherited ∧ edge.via = r ∧ p) ↔ edge.via = r ∧ p := by
      intro p
      refine ⟨And.right, fun h => ⟨?_, h⟩⟩
      rw [← h.1]
      exact hfloor
    rw [hne]
    by_cases hmem : edge.to ∈ members
    · rw [if_pos (by simpa using hmem), if_pos hmem, hor]
    · rw [if_neg (by simpa using hmem), if_neg hmem]
      cases hix : ctx.interner.get edge.to with
      | none => simp
      | some toIx =>
        dsimp only
        split
        · rename_i hrow
          rw [hor]
          simp [hrow]
        · rename_i hrow
          simp [hrow]

/-- The recorded base effects of a routine. -/
def SolverInput.recordedEffects (ctx : SolverInput) (m : String) : List DbEffect :=
  ((ctx.baseSummaries m).map RoutineSummary.dbEffects).getD []

/-- **The rank groups of a member.** -/
theorem hasBit_memberRankBits (m : String) (r : ViaRank) (id : ℕ) :
    hasBit (memberRankBits ctx members settledDb universe_ presence m r) id = true ↔
      r = .direct ∧ (∃ d ∈ ctx.recordedEffects m, universe_.value id = some d.identity) ∨
        r ≠ .inherited ∧ ∃ e ∈ ctx.graph.outEdges m, e.via = r ∧
          calleeTerminal ctx members settledDb presence e id := by
  have hdirect : ∀ (step : Bits → DbEffect → Bits), (∀ bits d, step bits d =
        (universe_.get d.identity).elim bits (setBit bits)) → ∀ (l : List DbEffect) (bits : Bits),
      hasBit (l.foldl step bits) id = true ↔
        hasBit bits id = true ∨ ∃ d ∈ l, universe_.value id = some d.identity := by
    intro step hstep l
    induction l with
    | nil => simp
    | cons d l ih =>
      intro bits
      rw [List.foldl_cons, ih, hstep]
      cases hd : universe_.get d.identity with
      | none =>
        have hnone : universe_.value id ≠ some d.identity := by
          intro hv
          rw [Interner.get_eq_some.mpr hv] at hd
          cases hd
        simp [hnone]
      | some n =>
        have hiff : universe_.value id = some d.identity ↔ id = n := by
          constructor
          · exact fun hv => Interner.value_inj hv (Interner.get_eq_some.mp hd)
          · rintro rfl
            exact Interner.get_eq_some.mp hd
        simp only [Option.elim_some, hasBit_setBit, Bool.or_eq_true, decide_eq_true_iff,
          List.exists_mem_cons_iff, hiff]
        tauto
  have hedges : ∀ (l : List CombinedEdge) (rankBits : ViaRank → Bits),
      hasBit (l.foldl (foldEdgeVia ctx members settledDb presence) rankBits r) id = true ↔
        hasBit (rankBits r) id = true ∨ r ≠ .inherited ∧ ∃ e ∈ l, e.via = r ∧
          calleeTerminal ctx members settledDb presence e id := by
    intro l
    induction l with
    | nil => simp
    | cons e l ih =>
      intro rankBits
      rw [List.foldl_cons, ih, hasBit_foldEdgeVia, List.exists_mem_cons_iff]
      tauto
  unfold memberRankBits
  rw [hedges]
  refine or_congr ?_ Iff.rfl
  by_cases hr : r = .direct
  · subst hr
    rw [Function.update_self]
    refine (hdirect _ (fun _ d => ?_) _ _).trans ?_
    · cases universe_.get d.identity <;> rfl
    simp [SolverInput.recordedEffects]
  · rw [Function.update_of_ne hr]
    simp [hr]

/-- The highest rank whose group has an id. -/
theorem isVia_rankedVias (rankBits : ViaRank → Bits) (id : ℕ) :
    IsVia (fun r => r ≠ .inherited ∧ hasBit (rankBits r) id = true)
      ((rankedVias.find? fun r => hasBit (rankBits r) id).getD .inherited) := by
  cases hfind : rankedVias.find? fun r => hasBit (rankBits r) id with
  | none =>
    refine ⟨Or.inr rfl, fun r hr => ?_⟩
    rw [List.find?_eq_none] at hfind
    exact absurd hr.2 (hfind r (by cases r <;> first | exact absurd rfl hr.1 | decide))
  | some via =>
    have hbit := List.find?_some hfind
    have hmem := List.mem_of_find?_eq_some hfind
    refine ⟨Or.inl ⟨?_, hbit⟩, fun r hr => ?_⟩
    · rintro rfl
      exact absurd hmem (by decide)
    · -- a higher rank would have been found first
      have hrank : r ∈ rankedVias := by cases r <;> first | exact absurd rfl hr.1 | decide
      have hdesc : rankedVias.Pairwise fun a b => b.toNat ≤ a.toNat := by decide
      obtain ⟨-, before, after, hsplit, hbefore⟩ := List.find?_eq_some_iff_append.mp hfind
      rw [hsplit] at hrank hdesc
      rcases List.mem_append.mp hrank with hin | hin
      · simpa [hr.2] using hbefore r hin
      · rcases List.mem_cons.mp hin with rfl | hin
        · exact le_rfl
        · exact List.rel_of_pairwise_cons (List.pairwise_append.mp hdesc).2.1 hin

@[simp] theorem mem_memberPresentIds {ix id : ℕ} :
    id ∈ presence.memberPresentIds ix ↔ presence.memberPresent ix id = true := by
  unfold SccPresence.memberPresentIds SccPresence.memberPresent
  cases presence.pdByMember ix <;> simp

/-- **The first pass**: each present effect of a member gets the highest rank whose group has it. -/
theorem reconstructVia_apply {m : String} {ix id : ℕ} (hm : m ∈ members)
    (hix : ctx.interner.get m = some ix) (hid : presence.memberPresent ix id = true) :
    reconstructVia ctx members settledDb universe_ presence ix id = rankedVias.find? fun r =>
      hasBit (memberRankBits ctx members settledDb universe_ presence m r) id := by
  -- one member's inserts
  have hids : ∀ (f : ℕ → Option ViaRank) (ix' : ℕ) (l : List ℕ) (viaMap : ViaMap),
      l.foldl (fun viaMap id => (f id).elim viaMap (viaMap.insert ix' id)) viaMap ix id =
      if ix = ix' ∧ id ∈ l then (f id).or (viaMap ix id) else viaMap ix id := by
    intro f ix' l
    induction l with
    | nil => simp
    | cons n l ih =>
      intro viaMap
      rw [List.foldl_cons, ih]
      cases hf : f n with
      | none =>
        by_cases hn : id = n
        · subst hn
          simp [hf]
        · simp [hn]
      | some via =>
        simp only [Option.elim_some, ViaMap.insert_apply, List.mem_cons]
        by_cases hn : id = n
        · subst hn
          by_cases hx : ix = ix' <;> simp [hx, hf]
        · simp [hn]
  -- the member's own value, whenever it was visited
  have hrun : ∀ (step : ViaMap → String → ViaMap), (∀ viaMap m', step viaMap m' =
        (ctx.interner.get m').elim viaMap fun mIx =>
          (presence.memberPresentIds mIx).foldl (fun viaMap id =>
            (rankedVias.find? fun r =>
              hasBit (memberRankBits ctx members settledDb universe_ presence m' r) id).elim viaMap
                (viaMap.insert mIx id)) viaMap) → ∀ (l : List String) (viaMap : ViaMap),
      (viaMap ix id = none ∨ viaMap ix id = rankedVias.find? fun r =>
        hasBit (memberRankBits ctx members settledDb universe_ presence m r) id) →
      (m ∈ l ∨ viaMap ix id = rankedVias.find? fun r =>
        hasBit (memberRankBits ctx members settledDb universe_ presence m r) id) →
      l.foldl step viaMap ix id = rankedVias.find? fun r =>
        hasBit (memberRankBits ctx members settledDb universe_ presence m r) id := by
    intro step hstep l
    induction l with
    | nil => exact fun viaMap _ h => h.resolve_left List.not_mem_nil
    | cons m' l ih =>
      intro viaMap hold hvisit
      rw [List.foldl_cons]
      by_cases hm' : m' = m
      · subst hm'
        have hnew : step viaMap m' ix id = rankedVias.find? fun r =>
            hasBit (memberRankBits ctx members settledDb universe_ presence m' r) id := by
          rw [hstep, hix]
          refine (hids (fun id => rankedVias.find? fun r =>
            hasBit (memberRankBits ctx members settledDb universe_ presence m' r) id) ix _ _).trans ?_
          rw [if_pos ⟨rfl, mem_memberPresentIds.mpr hid⟩]
          rcases hold with hold | hold <;> simp [hold]
        exact ih _ (Or.inr hnew) (Or.inr hnew)
      · have hsame : step viaMap m' ix id = viaMap ix id := by
          rw [hstep]
          cases hix' : ctx.interner.get m' with
          | none => rfl
          | some ix' =>
            refine (hids (fun id => rankedVias.find? fun r =>
              hasBit (memberRankBits ctx members settledDb universe_ presence m' r) id) ix' _ _).trans ?_
            rw [if_neg]
            rintro ⟨rfl, -⟩
            exact hm' (Interner.get_inj hix' hix)
        refine ih _ (hsame ▸ hold) ?_
        rw [hsame]
        exact hvisit.imp_left fun h => (List.mem_cons.mp h).resolve_left (Ne.symm hm')
  refine hrun _ (fun viaMap m' => ?_) members _ (Or.inl rfl) (Or.inl hm)
  cases ctx.interner.get m' with
  | none => rfl
  | some mIx =>
    refine congrArg (fun f => (presence.memberPresentIds mIx).foldl f viaMap) ?_
    funext viaMap id
    cases rankedVias.find? fun r =>
      hasBit (memberRankBits ctx members settledDb universe_ presence m' r) id <;> rfl

/-! ## 3. The second pass -/

/-- What the second pass merges in, in order. -/
def attributions (ctx : SolverInput) (members : List String) (settledDb : SummaryBundleBuilder)
    (universe_ : GrowingEffectUniverse) (presence : SccPresence) : List (ℕ × ℕ × ViaRank) :=
  members.flatMap fun m =>
    match ctx.interner.get m, ctx.routinesById m with
    | some mIx, some callerRoutine =>
      (ctx.graph.outEdges m).flatMap fun edge =>
        (calleePd ctx members settledDb universe_ presence edge).filterMap fun pd =>
          ((universe_.get (effectOf pd.1 (substitutePdTempState edge pd.2 callerRoutine
            (ctx.routinesById edge.to)).toKind)).filter fun pid => presence.memberPresent mIx pid).map
              fun pid => (mIx, pid, edge.via)
    | _, _ => []

/-- **The second pass** merges its contributions one by one. -/
theorem attributePdSubstitutedVia_eq (viaMap : ViaMap) :
    attributePdSubstitutedVia ctx members settledDb universe_ presence viaMap =
      (attributions ctx members settledDb universe_ presence).foldl
        (fun viaMap a => mergeViaInto viaMap a.1 a.2.1 a.2.2) viaMap := by
  unfold attributePdSubstitutedVia attributions
  rw [List.foldl_flatMap]
  congr 1
  funext viaMap m
  cases ctx.interner.get m with
  | none => rfl
  | some mIx =>
    cases ctx.routinesById m with
    | none => rfl
    | some callerRoutine =>
      dsimp only
      rw [List.foldl_flatMap]
      congr 1
      funext viaMap edge
      rw [List.foldl_filterMap]
      congr 1
      funext viaMap pd
      cases universe_.get (effectOf pd.1 (substitutePdTempState edge pd.2 callerRoutine
          (ctx.routinesById edge.to)).toKind) with
      | none => rfl
      | some pid =>
        rw [Option.filter_some]
        dsimp only
        split <;> rfl

/-- The parameter-dependent ids the second pass reads off a target. -/
def CalleePdId (ctx : SolverInput) (members : List String) (settledDb : SummaryBundleBuilder)
    (presence : SccPresence) (edge : CombinedEdge) (id : ℕ) : Prop :=
  ∃ toIx, ctx.interner.get edge.to = some toIx ∧
    if edge.to ∈ members then ∃ bits, presence.pdByMember toIx = some bits ∧ hasBit bits id = true
    else settledDb.hasRow toIx = true ∧ id ∈ settledDb.pdIds toIx

theorem mem_calleePd {edge : CombinedEdge} {base : BaseId} {i : ℕ} :
    (base, i) ∈ calleePd ctx members settledDb universe_ presence edge ↔
      ∃ id, CalleePdId ctx members settledDb presence edge id ∧
        universe_.value id = some (effectOf base (.parameterDependent i)) := by
  unfold calleePd CalleePdId
  dsimp only
  rw [List.mem_filterMap]
  refine exists_congr fun id => and_congr ?_ ?_
  · cases ctx.interner.get edge.to with
    | none => simp
    | some toIx =>
      by_cases hmem : edge.to ∈ members
      · simp only [List.contains_iff_mem.mpr hmem, if_true, hmem, Option.some.injEq, exists_eq_left']
        cases presence.pdByMember toIx <;> simp
      · simp only [hmem, if_false, Option.some.injEq, exists_eq_left']
        rw [if_neg (by simpa using hmem)]
        split <;> simp_all
  · unfold GrowingEffectUniverse.identity
    cases universe_.value id with
    | none => simp
    | some k =>
      dsimp only
      constructor
      · intro h
        cases ht : k.temp with
        | parameterDependent j =>
          rw [ht] at h
          obtain ⟨rfl, rfl⟩ := Prod.mk.inj (Option.some.inj h)
          rw [← ht, effectOf_base]
        | known v => rw [ht] at h; cases h
        | unknown => rw [ht] at h; cases h
      · intro h
        obtain rfl := Option.some.inj h
        rfl

theorem mem_attributions {m : String} {ix id : ℕ} {via : ViaRank} (hm : m ∈ members)
    (hix : ctx.interner.get m = some ix) {r : ModelRoutine} (hr : ctx.routinesById m = some r)
    (hid : presence.memberPresent ix id = true) :
    (ix, id, via) ∈ attributions ctx members settledDb universe_ presence ↔
      ∃ e ∈ ctx.graph.outEdges m, e.via = via ∧ ∃ base i,
        (base, i) ∈ calleePd ctx members settledDb universe_ presence e ∧
        universe_.value id = some (effectOf base
          (substitutePdTempState e i r (ctx.routinesById e.to)).toKind) := by
  unfold attributions
  rw [List.mem_flatMap]
  constructor
  · rintro ⟨m', hm', h⟩
    cases hix' : ctx.interner.get m' with
    | none => simp [hix'] at h
    | some ix' =>
      cases hr' : ctx.routinesById m' with
      | none => simp [hix', hr'] at h
      | some r' =>
        rw [hix', hr'] at h
        obtain ⟨e, he, h⟩ := List.mem_flatMap.mp h
        obtain ⟨⟨base, i⟩, hpd, h⟩ := List.mem_filterMap.mp h
        obtain ⟨pid, hpid, heq⟩ := Option.map_eq_some_iff.mp h
        obtain ⟨hget, -⟩ := Option.filter_eq_some_iff.mp hpid
        simp only [Prod.mk.injEq] at heq
        obtain ⟨rfl, rfl, rfl⟩ := heq
        obtain rfl := Interner.get_inj hix' hix
        rw [hr] at hr'
        obtain rfl := Option.some.inj hr'
        exact ⟨e, he, rfl, base, i, hpd, Interner.get_eq_some.mp hget⟩
  · rintro ⟨e, he, rfl, base, i, hpd, hv⟩
    refine ⟨m, hm, ?_⟩
    rw [hix, hr]
    refine List.mem_flatMap.mpr ⟨e, he, List.mem_filterMap.mpr ⟨(base, i), hpd, ?_⟩⟩
    rw [Option.map_eq_some_iff]
    exact ⟨id, Option.filter_eq_some_iff.mpr ⟨Interner.get_eq_some.mpr hv, hid⟩, rfl⟩

/-! ## 4. Both passes -/

/-- The ids present on the target of an edge: a member's, or those of a settled row. -/
def CalleeId (ctx : SolverInput) (members : List String) (settledDb : SummaryBundleBuilder)
    (presence : SccPresence) (c : String) (id : ℕ) : Prop :=
  ∃ ix, ctx.interner.get c = some ix ∧
    if c ∈ members then presence.memberPresent ix id = true
    else settledDb.hasRow ix = true ∧
      (hasBit (settledDb.terminalBits ix) id = true ∨ id ∈ settledDb.pdIds ix)

/-- The shared sets hold terminal effects, the own lists parameter-dependent ones. -/
structure PresenceTyped (settledDb : SummaryBundleBuilder) (universe_ : GrowingEffectUniverse)
    (presence : SccPresence) : Prop where
  union : ∀ id, hasBit presence.terminalUnion id = true →
    ∃ k ∈ terminalEffects, universe_.value id = some k
  own : ∀ ix bits id, presence.pdByMember ix = some bits → hasBit bits id = true →
    ∃ k, k ∉ terminalEffects ∧ universe_.value id = some k
  terminal : ∀ ix id, hasBit (settledDb.terminalBits ix) id = true →
    ∃ k ∈ terminalEffects, universe_.value id = some k
  pd : ∀ ix, ∀ id ∈ settledDb.pdIds ix, ∃ k, k ∉ terminalEffects ∧ universe_.value id = some k

/-- An id of the target is one of its terminal ids or one of its parameter-dependent ids. -/
theorem calleeId_iff (hint : ∀ m ∈ members, ∃ ix, ctx.interner.get m = some ix) {e : CombinedEdge}
    {id : ℕ} : CalleeId ctx members settledDb presence e.to id ↔
      calleeTerminal ctx members settledDb presence e id ∨
        CalleePdId ctx members settledDb presence e id := by
  unfold CalleeId calleeTerminal CalleePdId
  by_cases hmem : e.to ∈ members
  · obtain ⟨ix, hix⟩ := hint _ hmem
    simp only [hmem, if_true, hix, Option.some.injEq, exists_eq_left', SccPresence.memberPresent,
      Bool.or_eq_true, Option.any_eq_true]
  · simp only [hmem, if_false]
    constructor
    · rintro ⟨ix, hix, hrow, h | h⟩
      · exact Or.inl ⟨ix, hix, hrow, h⟩
      · exact Or.inr ⟨ix, hix, hrow, h⟩
    · rintro (⟨ix, hix, hrow, h⟩ | ⟨ix, hix, hrow, h⟩)
      · exact ⟨ix, hix, hrow, Or.inl h⟩
      · exact ⟨ix, hix, hrow, Or.inr h⟩

theorem PresenceTyped.calleeTerminal (h : PresenceTyped settledDb universe_ presence)
    {e : CombinedEdge} {id : ℕ} (hid : calleeTerminal ctx members settledDb presence e id) :
    ∃ k ∈ terminalEffects, universe_.value id = some k := by
  unfold AlSem.L4.calleeTerminal at hid
  split at hid
  · exact h.union id hid
  · obtain ⟨ix, -, -, hbit⟩ := hid
    exact h.terminal ix id hbit

theorem PresenceTyped.calleePdId (h : PresenceTyped settledDb universe_ presence)
    {e : CombinedEdge} {id : ℕ} (hid : CalleePdId ctx members settledDb presence e id) :
    ∃ k, k ∉ terminalEffects ∧ universe_.value id = some k := by
  obtain ⟨ix, -, hid⟩ := hid
  split at hid
  · obtain ⟨bits, hbits, hbit⟩ := hid
    exact h.own ix bits id hbits hbit
  · exact h.pd ix id hid.2

/-- **The two passes are one maximum**: over the member's own effects, and over every out-edge and
every effect of its target whose image the effect is. -/
theorem isVia_passes (htyped : PresenceTyped settledDb universe_ presence)
    (hint : ∀ m ∈ members, ∃ ix, ctx.interner.get m = some ix) {m : String} (hm : m ∈ members)
    {ix id : ℕ} (hix : ctx.interner.get m = some ix) {r : ModelRoutine}
    (hr : ctx.routinesById m = some r) (hid : presence.memberPresent ix id = true)
    {k : EffectIdentity} (hk : universe_.value id = some k) :
    IsVia (fun v => v = .direct ∧ (∃ d ∈ ctx.recordedEffects m, d.identity = k) ∨
        ∃ e ∈ ctx.graph.outEdges m, v = e.via ∧ ∃ cid k', CalleeId ctx members settledDb presence e.to cid ∧
          universe_.value cid = some k' ∧ transferEffect ctx m e k' = k)
      ((attributePdSubstitutedVia ctx members settledDb universe_ presence
        (reconstructVia ctx members settledDb universe_ presence)).viaOf ix id) := by
  have hfirst : IsVia (fun v => v ≠ .inherited ∧
        hasBit (memberRankBits ctx members settledDb universe_ presence m v) id = true)
      ((reconstructVia ctx members settledDb universe_ presence).viaOf ix id) := by
    unfold ViaMap.viaOf
    rw [reconstructVia_apply hm hix hid]
    exact isVia_rankedVias _ id
  rw [attributePdSubstitutedVia_eq]
  refine (IsVia.merges _ hfirst).congr fun v hv => ?_
  rw [hasBit_memberRankBits, mem_attributions hm hix hr hid]
  simp only [ne_eq, hv, not_false_eq_true, true_and]
  have hbase : (∃ d ∈ ctx.recordedEffects m, universe_.value id = some d.identity) ↔
      ∃ d ∈ ctx.recordedEffects m, d.identity = k := by
    rw [hk]
    simp only [Option.some.injEq, eq_comm]
  rw [hbase, or_assoc]
  refine or_congr Iff.rfl ?_
  constructor
  · rintro ⟨e, he, rfl, cid, k', hcid, hk', htr⟩
    rcases (calleeId_iff hint).mp hcid with hcid | hcid
    · -- a terminal effect passes unchanged
      obtain ⟨k₀, hterm, hk₀⟩ := htyped.calleeTerminal hcid
      obtain rfl : k₀ = k' := Option.some.inj (hk₀.symm.trans hk')
      rw [transferEffect_terminal ctx hterm] at htr
      subst htr
      obtain rfl := Interner.value_inj hk' hk
      exact Or.inl ⟨e, he, rfl, hcid⟩
    · -- a parameter-dependent one is substituted
      obtain ⟨k₀, hnot, hk₀⟩ := htyped.calleePdId hcid
      obtain rfl : k₀ = k' := Option.some.inj (hk₀.symm.trans hk')
      obtain ⟨i, hi⟩ := exists_index_of_not_terminal hnot
      rw [hi, transferEffect_pd hr] at htr
      refine Or.inr ⟨e, he, rfl, k₀.base, i, mem_calleePd.mpr ⟨cid, hcid, hk'.trans (congrArg some hi)⟩, ?_⟩
      rw [hk, htr]
  · rintro (⟨e, he, rfl, hcid⟩ | ⟨e, he, rfl, base, i, hpd, htr⟩)
    · obtain ⟨k₀, hterm, hk₀⟩ := htyped.calleeTerminal hcid
      obtain rfl : k₀ = k := Option.some.inj (hk₀.symm.trans hk)
      exact ⟨e, he, rfl, id, k₀, (calleeId_iff hint).mpr (Or.inl hcid), hk,
        transferEffect_terminal ctx hterm m e⟩
    · obtain ⟨cid, hcid, hk'⟩ := mem_calleePd.mp hpd
      refine ⟨e, he, rfl, cid, _, (calleeId_iff hint).mpr (Or.inr hcid), hk', ?_⟩
      rw [transferEffect_pd hr]
      exact Option.some.inj (htr.symm.trans hk)

end Passes

end AlSem.L4
