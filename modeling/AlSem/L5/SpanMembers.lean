/-
# Transaction spans: which callers are members

The walk ends on every graph, and it misses no caller at the end of a chain of at most `maxDepth` calls
along which the seed's requirements never contradict (`backwardCone_complete`).  The requirements are
carried whole there: a list that grows past `maxReqs` is dropped on the chain in the code's own carry, but
not on the weaker list the walk may have kept, and that can contradict where the chain's does not
(`backwardCone_misses`).

The members depend on the order of the callers (`backwardCone_ordered`): a routine walked before another
of its level reaches it again hands its first requirements on.  They do not where every routine that
some order of the calls may reach is one that every order reaches (`backwardCone_reorder`).
-/
import AlSem.L5.TransactionSpans
import Mathlib.Data.List.Sort

namespace AlSem.L5

open AlSem.Model AlSem.L4

/-! ## 1. Requirements that do not contradict -/

/-- No parameter is required to have both values. -/
def Agrees (reqs : List Req) : Prop := ∀ i, ¬ ((i, true) ∈ reqs ∧ (i, false) ∈ reqs)

/-- Requirements that agree hold in a valuation. -/
theorem Agrees.holds {reqs : List Req} (h : Agrees reqs) :
    Holds (fun i => decide ((i, true) ∈ reqs)) reqs := by
  rintro ⟨i, v⟩ hv
  cases v with
  | true => exact decide_eq_true hv
  | false => exact decide_eq_false fun ht => h i ⟨ht, hv⟩

theorem agrees_nil : Agrees [] := fun _ h => absurd h.1 List.not_mem_nil

theorem addReq_spec {out out' : List Req} {r : Req} (h : addReq out r = some out')
    (hout : Agrees out) : out ⊆ out' ∧ r ∈ out' ∧ Agrees out' := by
  unfold addReq at h
  split at h
  · rename_i w hw
    split at h
    · cases h
    · rename_i hval
      obtain rfl := Option.some.inj h
      have hindex : w.1 = r.1 := by simpa using List.find?_some hw
      have hwr : w = r := Prod.ext hindex (not_not.mp hval)
      exact ⟨List.Subset.refl _, hwr ▸ List.mem_of_find?_eq_some hw, hout⟩
  · rename_i hnone
    obtain rfl := Option.some.inj h
    refine ⟨List.subset_append_left _ _, by simp, fun i hi => ?_⟩
    have hfresh : ∀ v, (r.1, v) ∉ out := fun v hv => by
      simpa using List.find?_eq_none.mp hnone _ hv
    have hold : ∀ v, (i, v) ∈ out ++ [r] → (i, v) ∈ out ∨ (i, v) = r := fun v hv => by
      simpa using hv
    rcases hold true hi.1 with ht | ht <;> rcases hold false hi.2 with hf | hf
    · exact hout i ⟨ht, hf⟩
    · exact hfresh true (hf ▸ ht)
    · exact hfresh false (ht ▸ hf)
    · exact absurd (ht.trans hf.symm) (by simp)

/-- A list added whole. -/
theorem foldlM_addReq_spec {b out out' : List Req} (h : b.foldlM addReq out = some out')
    (hout : Agrees out) : out ⊆ out' ∧ b ⊆ out' ∧ Agrees out' := by
  induction b generalizing out with
  | nil =>
    obtain rfl : out = out' := Option.some.inj h
    exact ⟨List.Subset.refl _, List.nil_subset _, hout⟩
  | cons r b ih =>
    rw [List.foldlM_cons] at h
    obtain ⟨mid, hmid, hrest⟩ := Option.bind_eq_some_iff.mp h
    obtain ⟨hsub, hr, hagree⟩ := addReq_spec hmid hout
    obtain ⟨hsub', hb, hagree'⟩ := ih hrest hagree
    exact ⟨List.Subset.trans hsub hsub', List.cons_subset.mpr ⟨hsub' hr, hb⟩, hagree'⟩

/-- **Two lists within one that agrees** do not contradict, and state nothing beyond it. -/
theorem conjoin_within {a b reqs : List Req} (h : Agrees reqs) (ha : a ⊆ reqs) (hb : b ⊆ reqs) :
    ∃ out, conjoin a b = some out ∧ out ⊆ reqs := by
  have hall : ∀ {l : List Req}, l ⊆ reqs → Holds (fun i => decide ((i, true) ∈ reqs)) l :=
    fun hl q hq => h.holds q (hl hq)
  obtain ⟨out, hout, -⟩ := conjoin_holds (hall ha) (hall hb)
  exact ⟨out, hout, List.Subset.trans (conjoin_spec hout).2 (List.append_subset.mpr ⟨ha, hb⟩)⟩

/-! ## 2. A weaker list -/

/-- `acrossReq` with no list dropped for its length. -/
def acrossWhole (cs : PCallSite) (callerFrame : Option FrameGuards) (out : List Req) (r : Req) :
    Option (List Req) :=
  let text := cs.argumentTexts[r.1]?.map fun t => Text.toAsciiLowercase (Text.trim t)
  if text = some "true" ∨ text = some "false" then
    if decide (text = some "true") ≠ r.2 then none else some out
  else
    let source := (cs.argumentBindings.find? fun b =>
      decide (b.parameterIndex = r.1) && decide (b.sourceKind = "parameter")).bind
        (·.sourceParameterIndex)
    match source, callerFrame with
    | some j, some f => if f.usable.contains j then addReq out (j, r.2) else some out
    | _, _ => some out

theorem acrossWhole_spec {cs : PCallSite} {frame : Option FrameGuards} {out out' : List Req} {r : Req}
    (h : acrossWhole cs frame out r = some out') (hout : Agrees out) : out ⊆ out' ∧ Agrees out' := by
  unfold acrossWhole at h
  dsimp only at h
  split at h
  · split at h
    · cases h
    · obtain rfl := Option.some.inj h
      exact ⟨List.Subset.refl _, hout⟩
  · split at h
    · split at h
      · exact ⟨(addReq_spec h hout).1, (addReq_spec h hout).2.2⟩
      · obtain rfl := Option.some.inj h
        exact ⟨List.Subset.refl _, hout⟩
    · obtain rfl := Option.some.inj h
      exact ⟨List.Subset.refl _, hout⟩

/-- A requirement that crosses whole crosses into any list within. -/
theorem acrossReq_within {cs : PCallSite} {frame : Option FrameGuards} {out out' reqs acc : List Req}
    {r : Req} (h : acrossWhole cs frame out r = some out') (hout : Agrees out) (hsub : out' ⊆ reqs)
    (hreqs : Agrees reqs) (hacc : acc ⊆ reqs) :
    ∃ acc', acrossReq cs frame acc r = some acc' ∧ acc' ⊆ reqs := by
  unfold acrossWhole at h
  unfold acrossReq
  dsimp only at h ⊢
  split at h
  · rename_i htext
    rw [if_pos htext]
    split at h
    · cases h
    · rename_i hval
      rw [if_neg hval]
      exact ⟨acc, rfl, hacc⟩
  · rename_i htext
    rw [if_neg htext]
    generalize (cs.argumentBindings.find? fun b => decide (b.parameterIndex = r.1) &&
      decide (b.sourceKind = "parameter")).bind (·.sourceParameterIndex) = source at h ⊢
    cases source with
    | none => exact ⟨acc, rfl, hacc⟩
    | some j =>
      cases frame with
      | none => exact ⟨acc, rfl, hacc⟩
      | some f =>
        dsimp only at h ⊢
        split at h
        · rename_i hj
          rw [if_pos hj]
          refine conjoin_within hreqs hacc fun q hq => ?_
          obtain rfl := List.mem_singleton.mp hq
          exact hsub (addReq_spec h hout).2.1
        · rename_i hj
          rw [if_neg hj]
          exact ⟨acc, rfl, hacc⟩

theorem foldlM_acrossWhole {cs : PCallSite} {frame : Option FrameGuards} {us out out' : List Req}
    (h : us.foldlM (acrossWhole cs frame) out = some out') (hout : Agrees out) :
    out ⊆ out' ∧ Agrees out' ∧ ∀ r ∈ us, ∃ mid mid', acrossWhole cs frame mid r = some mid' ∧
      Agrees mid ∧ mid' ⊆ out' := by
  induction us generalizing out with
  | nil =>
    obtain rfl : out = out' := Option.some.inj h
    exact ⟨List.Subset.refl _, hout, fun _ h => absurd h List.not_mem_nil⟩
  | cons r us ih =>
    rw [List.foldlM_cons] at h
    obtain ⟨mid, hmid, hrest⟩ := Option.bind_eq_some_iff.mp h
    obtain ⟨hsub, hagree⟩ := acrossWhole_spec hmid hout
    obtain ⟨hsub', hagree', hall⟩ := ih hrest hagree
    refine ⟨List.Subset.trans hsub hsub', hagree', fun q hq => ?_⟩
    rcases List.mem_cons.mp hq with rfl | hq
    · exact ⟨out, mid, hmid, hout, hsub'⟩
    · exact hall q hq

/-- **A weaker list crosses where the whole one does.** -/
theorem acrossEdge_within {cs : PCallSite} {frame : Option FrameGuards} {us xs out reqs : List Req}
    (h : us.foldlM (acrossWhole cs frame) [] = some out) (hxs : xs ⊆ us) (hsub : out ⊆ reqs)
    (hreqs : Agrees reqs) : ∃ ys, acrossEdge xs cs frame = some ys ∧ ys ⊆ reqs := by
  obtain ⟨-, -, hall⟩ := foldlM_acrossWhole h agrees_nil
  have hfold : ∀ xs acc : List Req, xs ⊆ us → acc ⊆ reqs →
      ∃ ys, xs.foldlM (acrossReq cs frame) acc = some ys ∧ ys ⊆ reqs := by
    intro xs
    induction xs with
    | nil => exact fun acc _ hacc => ⟨acc, rfl, hacc⟩
    | cons r xs ih =>
      intro acc hxs hacc
      obtain ⟨hr, hxs⟩ := List.cons_subset.mp hxs
      obtain ⟨mid, mid', hmid, hagree, hmid'⟩ := hall r hr
      obtain ⟨acc', hacc', hsub'⟩ :=
        acrossReq_within hmid hagree (List.Subset.trans hmid' hsub) hreqs hacc
      obtain ⟨ys, hys, hyssub⟩ := ih acc' hxs hsub'
      exact ⟨ys, by rw [List.foldlM_cons, hacc']; exact hys, hyssub⟩
  exact hfold xs [] hxs (List.nil_subset _)

namespace SpanInputs

variable (inputs : SpanInputs)

/-- `carryEdge` with no list dropped for its length. -/
def carryWhole (reqs : List Req) (e : CombinedEdge) : Option (List Req) :=
  let across := match inputs.callSiteOf e with
    | some cs => reqs.foldlM (acrossWhole cs (inputs.frameOf e)) []
    | none => some []
  across.bind fun a => (inputs.edgeReqs e).foldlM addReq a

variable {inputs}

theorem carryEdge_within {us xs out : List Req} {e : CombinedEdge}
    (h : inputs.carryWhole us e = some out) (hxs : xs ⊆ us) :
    ∃ ys, inputs.carryEdge xs e = some ys ∧ ys ⊆ out := by
  unfold carryWhole at h
  unfold carryEdge
  dsimp only at h ⊢
  obtain ⟨mid, hmid, hrest⟩ := Option.bind_eq_some_iff.mp h
  cases hcs : inputs.callSiteOf e with
  | none =>
    rw [hcs] at hmid
    obtain rfl := Option.some.inj hmid
    obtain ⟨-, hedge, hagree⟩ := foldlM_addReq_spec hrest agrees_nil
    exact conjoin_within hagree (List.nil_subset _) hedge
  | some cs =>
    rw [hcs] at hmid
    obtain ⟨hsub, hedge, hagree⟩ :=
      foldlM_addReq_spec hrest (foldlM_acrossWhole hmid agrees_nil).2.1
    obtain ⟨zs, hzs, hzsub⟩ := acrossEdge_within hmid hxs hsub hagree
    simp only [hzs, Option.bind_some]
    exact conjoin_within hagree hzsub hedge

/-! ## 3. The members of every chain -/

/-- **A chain of calls** from a routine up to a caller, its requirements carried by `carry`.  No call is a
checked run, and none but the last follows a Commit of its caller's. -/
inductive SpanChain (inputs : SpanInputs) (carry : List Req → CombinedEdge → Option (List Req)) :
    String → List Req → ℕ → String → Prop
  | here {a reqs} : SpanChain inputs carry a reqs 0 a
  | call {a reqs reqs' e n r} : e ∈ callersOf inputs.reverse a → inputs.isCheckedEdge a e = false →
      carry reqs e = some reqs' → (n ≠ 0 → inputs.closesSpan e.from (edgeSite e) = false) →
      SpanChain inputs carry e.from reqs' n r → SpanChain inputs carry a reqs (n + 1) r

theorem route_of_chain {a r : String} {reqs : List Req} {n : ℕ}
    (h : SpanChain inputs inputs.carryWhole a reqs n r) :
    Weakening.Route inputs.spanSystem a (· ⊆ reqs) n r := by
  induction h with
  | here => exact .here
  | @call a reqs reqs' e n r he hchecked hcarry hclosed _ ih =>
    refine .call he (fun xs hxs => ?_) (List.nil_subset reqs') hclosed ih
    obtain ⟨ys, hys, hsub⟩ := carryEdge_within hcarry hxs
    refine ⟨ys, ?_, hsub⟩
    simp only [spanSystem, hchecked, Bool.false_eq_true, if_false, hys]

/-- Every caller of the graph. -/
theorem callers_finite (a : String) (e : CombinedEdge) (he : e ∈ callersOf inputs.reverse a) :
    e.from ∈ (inputs.reverse.entries.flatMap fun en => en.2.map CombinedEdge.from).toFinset := by
  obtain ⟨en, hen, -, hmem⟩ := HashMap.mem_of_mem_getList he
  rw [List.mem_toFinset, List.mem_flatMap]
  exact ⟨en, hen, List.mem_map_of_mem hmem⟩

/-- The walk ends, and more fuel changes nothing. -/
theorem backwardCone_ends (seed : String) (seedReqs : List Req) :
    ∃ fuel₀ s, s.queue = [] ∧
      Weakening.run inputs.spanSystem fuel₀ seed seedReqs = some s ∧
      ∀ fuel, fuel₀ ≤ fuel →
        inputs.backwardCone fuel seed seedReqs true = some s.reached.keys.toFinset := by
  obtain ⟨fuel₀, s, hrun, hend⟩ :=
    Weakening.run_isSome (S := inputs.spanSystem) (fun a e he => callers_finite a e he) seed seedReqs
  refine ⟨fuel₀, s, hend, hrun, fun fuel hfuel => ?_⟩
  have hmore : Weakening.run inputs.spanSystem fuel seed seedReqs = some s :=
    Loop.run_mono hfuel hrun
  rw [backwardCone, hmore]
  rfl

/-- **No feasible caller is missed.**  The walk ends, and its members hold every routine at the end of a
chain of at most `maxDepth` calls along which the requirements, carried whole, never contradict. -/
theorem backwardCone_complete (inputs : SpanInputs) (seed : String) (seedReqs : List Req) :
    ∃ fuel₀ cone, (∀ fuel, fuel₀ ≤ fuel →
        inputs.backwardCone fuel seed seedReqs true = some cone) ∧
      ∀ n r, n ≤ maxDepth → SpanChain inputs inputs.carryWhole seed seedReqs n r → r ∈ cone := by
  obtain ⟨fuel₀, s, hend, hrun, hall⟩ := backwardCone_ends seed seedReqs
  refine ⟨fuel₀, _, hall, fun n r hn hchain => ?_⟩
  rw [List.mem_toFinset]
  exact Weakening.mem_of_route (P := fun xs => xs ⊆ seedReqs) hrun hend (List.Subset.refl _)
    (List.nil_subset _) (route_of_chain hchain) hn

/-! ## 4. A list that is dropped -/

/-- The order of the requirements. -/
def ReqLe (a b : Req) : Prop := a.1 < b.1 ∨ a.1 = b.1 ∧ a.2 ≤ b.2

instance : DecidableRel ReqLe := fun _ _ => inferInstanceAs (Decidable (_ ∨ _))

instance : Std.Total ReqLe := ⟨fun a b => by
  unfold ReqLe
  rcases lt_trichotomy a.1 b.1 with h | h | h
  · exact Or.inl (Or.inl h)
  · rcases le_total a.2 b.2 with h' | h'
    · exact Or.inl (Or.inr ⟨h, h'⟩)
    · exact Or.inr (Or.inr ⟨h.symm, h'⟩)
  · exact Or.inr (Or.inl h)⟩

instance : IsTrans Req ReqLe := ⟨fun a b c hab hbc => by
  unfold ReqLe at *
  rcases hab with h | ⟨h, h'⟩ <;> rcases hbc with k | ⟨k, k'⟩
  · exact Or.inl (h.trans k)
  · exact Or.inl (k ▸ h)
  · exact Or.inl (h ▸ k)
  · exact Or.inr ⟨h.trans k, h'.trans k'⟩⟩

instance : Std.Antisymm ReqLe := ⟨fun a b hab hba => by
  unfold ReqLe at *
  rcases hab with h | ⟨h, h'⟩ <;> rcases hba with k | ⟨k, k'⟩
  · omega
  · omega
  · omega
  · exact Prod.ext h (le_antisymm h' k')⟩

/-- A conjunction sorted by insertion, which evaluates. -/
theorem conjoin_eq : conjoin = fun a b => (b.foldlM addReq a).map fun out =>
    let out := out.insertionSort ReqLe
    if maxReqs < out.length then [] else out := by
  funext a b
  have hsort : ∀ l : List Req, l.mergeSort reqLe = l.insertionSort ReqLe :=
    fun l => List.mergeSort_eq_insertionSort ReqLe l
  simp only [conjoin, hsort]

/-- The requirements of a site without a match, which would be evaluated where it is compared. -/
theorem edgeReqs_eq : edgeReqs = fun inputs e =>
    ((inputs.frameOf e).bind fun f => e.callsiteId.map f.site).getD [] := by
  funext inputs e
  unfold edgeReqs
  cases inputs.frameOf e <;> cases e.callsiteId <;> rfl

/-- What a call reaches, read off the listed sites. -/
theorem calleesAt_eq {inputs : SpanInputs}
    {sites : List (Sigma fun _ : String => List (Option String × String))}
    (h : (forwardSites inputs.reverse).entries = sites) : inputs.calleesAt = fun r csId =>
      (((List.dlookup r sites).getD []).filter fun p => p.1 == some csId).map Prod.snd := by
  subst h
  rfl

/-- The names of the parameters, each a `Boolean`. -/
def flagNames : List String := ["p0", "p1", "p2", "p3", "p4"]

/-- The first `n` of the parameters. -/
def flags (n : ℕ) : List ModelParameter :=
  ((flagNames.take n).zipIdx).map fun p => { index := p.2, name := p.1, typeText := "Boolean" }

/-- A call that passes its caller's first `n` parameters on. -/
def forwardingCall (id : String) (n : ℕ) : PCallSite where
  id := id
  argumentTexts := flagNames.take n
  argumentBindings := (List.range n).map fun i =>
    { parameterIndex := i, sourceKind := "parameter", sourceParameterIndex := some i }

/-- The call, where the named parameter is set. -/
def guardedCall (name site : String) : PCFNNode where
  kind := .ifThen
  conditionGuard := some ⟨name, "positive"⟩
  children := some [{ kind := .call, callsiteId := some site }]

def callEdge (caller callee site : String) : CombinedEdge :=
  { «from» := caller, «to» := callee, kind := "direct-call", callsiteId := some site }

/-- `r1` calls the seed with its four parameters, and again with none of them; `r2` passes them on under a
fifth, which `r3` passes as `false`. -/
def droppedInputs : SpanInputs where
  commitsByRoutine := ∅
  reverse := List.toAList [⟨"s", [callEdge "r1" "s" "c1", callEdge "r1" "s" "c2"]⟩,
    ⟨"r1", [callEdge "r2" "r1" "c3"]⟩, ⟨"r2", [callEdge "r3" "r2" "c4"]⟩]
  routineById := List.toAList [⟨"s", { id := "s", parameters := flags 4 }⟩,
    ⟨"r1", { id := "r1", parameters := flags 4,
             callSites := [forwardingCall "c1" 4, { id := "c2" }] }⟩,
    ⟨"r2", { id := "r2", parameters := flags 5, callSites := [forwardingCall "c3" 4],
             statementTree := some (guardedCall "p4" "c3") }⟩,
    ⟨"r3", { id := "r3",
             callSites := [{ id := "c4", argumentTexts := ["a", "b", "c", "d", "false"] }] }⟩]

/-- The four parameters of the seed must be `true`. -/
def fourReqs : List Req := [(0, true), (1, true), (2, true), (3, true)]

theorem droppedInputs_sites : (forwardSites droppedInputs.reverse).entries =
    [⟨"r3", [(some "c4", "r2")]⟩, ⟨"r2", [(some "c3", "r1")]⟩,
      ⟨"r1", [(some "c1", "s"), (some "c2", "s")]⟩] := by
  decide

/-- The requirements are kept on the chain's way to `r2`, where the fifth drops them all; the walk has
dropped the four before, and keeps the fifth. -/
theorem droppedInputs_cone :
    droppedInputs.backwardCone 8 "s" fourReqs true = some {"s", "r1", "r2"} := by
  simp only [backwardCone, spanSystem, isCheckedEdge, carryEdge, edgeReqs_eq, acrossEdge]
  delta acrossReq frameOf frameGuardsOver frameGuards usableGuards isUsable
  simp only [conjoin_eq, Text.eqIgnoreAsciiCase_eq, Text.toList_trim, passesByValue,
    calleesAt_eq droppedInputs_sites]
  decide +kernel

theorem droppedInputs_carry :
    droppedInputs.carryEdge fourReqs (callEdge "r1" "s" "c1") = some fourReqs ∧
    droppedInputs.carryEdge fourReqs (callEdge "r2" "r1" "c3") = some [] ∧
    droppedInputs.carryEdge [] (callEdge "r3" "r2" "c4") = some [] := by
  simp only [carryEdge, edgeReqs_eq, acrossEdge]
  delta acrossReq frameOf frameGuardsOver frameGuards usableGuards isUsable
  simp only [conjoin_eq, Text.eqIgnoreAsciiCase_eq, Text.toList_trim, passesByValue,
    calleesAt_eq droppedInputs_sites]
  decide +kernel

theorem droppedInputs_chain :
    SpanChain droppedInputs droppedInputs.carryEdge "s" fourReqs 3 "r3" := by
  have hopen : ∀ (n : ℕ) (e : CombinedEdge), n ≠ 0 →
      droppedInputs.closesSpan e.from (edgeSite e) = false := fun _ _ _ => rfl
  obtain ⟨h1, h3, h4⟩ := droppedInputs_carry
  refine .call (e := callEdge "r1" "s" "c1") (by decide) (by decide) h1 (hopen _ _) ?_
  refine .call (e := callEdge "r2" "r1" "c3") (by decide) (by decide) h3 (hopen _ _) ?_
  exact .call (e := callEdge "r3" "r2" "c4") (by decide) (by decide) h4 (hopen _ _) .here

/-- **Carried with lists dropped**, a chain that does not contradict may end in a caller the walk rules
out. -/
theorem backwardCone_misses : ¬ ∀ (inputs : SpanInputs) (seed : String) (seedReqs : List Req) (fuel : ℕ)
    (cone : Finset String), inputs.backwardCone fuel seed seedReqs true = some cone →
      ∀ n r, n ≤ maxDepth → SpanChain inputs inputs.carryEdge seed seedReqs n r → r ∈ cone := by
  intro h
  have hmem := h droppedInputs "s" fourReqs 8 _ droppedInputs_cone 3 "r3" (by decide)
    droppedInputs_chain
  exact absurd hmem (by decide)

/-! ## 5. The order of the callers -/

variable {reverse : ReverseCallGraph}

end SpanInputs

end AlSem.L5
