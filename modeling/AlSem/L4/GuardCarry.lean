/-
# Guards carried over call chains

What `carry_reqs` promises about real calls.  A frame gives its parameters values; a call gives the
callee's parameters the values its site says, and is made only where its own guards hold.  Then
requirements that hold where a fact happens are never contradicted on the way up, and what they
become holds in the ancestor (`carryChain_sound`): a fact is dropped on a path only where no such
calls exist.
-/
import AlSem.L4.PdSearch

namespace AlSem.L4

open AlSem.Model

/-! ## 1. Frames and calls -/

/-- The boolean value of each parameter of a frame, where it has one. -/
abbrev FrameValues := ℕ → Option Bool

/-- The requirement holds in the frame. -/
def Req.Holds (values : FrameValues) (r : Req) : Prop := values r.1 = some r.2

/-- The values a boolean literal stands for, in any case and with any white space around it. -/
def literalValue (text : String) : Option Bool :=
  let text := Text.toAsciiLowercase (Text.trim text)
  if text = "true" then some true else if text = "false" then some false else none

/-- **A call over a call site**: a literal argument has its literal value, a forwarded parameter
the caller's value. -/
structure ArgumentsAt (site : PCallSite) (caller callee : FrameValues) : Prop where
  literal : ∀ i text v, site.argumentTexts[i]? = some text → literalValue text = some v →
    callee i = some v
  forwarded : ∀ b ∈ site.argumentBindings, b.sourceKind = "parameter" → ∀ j,
    b.sourceParameterIndex = some j → callee b.parameterIndex = caller j

/-- **A call over an edge**: an event binds the parameters of one name, a call edge the arguments of
its site; a trigger and any other edge bind no boolean parameter. -/
structure CallOver (rev : PdRevision) (ge : GraphEdge) (callee : String)
    (callerValues calleeValues : FrameValues) : Prop where
  event : ∀ publisher subscriber, ge.edge.kind = "event-dispatch" →
    rev.routinesById ge.from = some publisher → rev.routinesById callee = some subscriber →
    ∀ p ∈ publisher.parameters, ∀ s ∈ subscriber.parameters, eventParamNamesMatch p.name s.name = true →
      calleeValues s.index = callerValues p.index
  site : ∀ caller cs site, ge.edge.kind = "direct-call" ∨ ge.edge.kind = "variable-typed-call" →
    rev.routinesById ge.from = some caller → ge.edge.callsite = some cs →
    caller.callSites.find? (fun c => c.id = cs) = some site →
    ArgumentsAt site callerValues calleeValues
  guarded : ∀ r ∈ rev.edgeReqs ge, Req.Holds callerValues r

/-- **A chain of calls** from an ancestor down to a routine, its edges callee to caller. -/
inductive CallChain (rev : PdRevision) :
    String → FrameValues → List GraphEdge → String → FrameValues → Prop
  | here {r : String} {values : FrameValues} : CallChain rev r values [] r values
  | call {callee ancestor : String} {ge : GraphEdge} {edges : List GraphEdge}
    {values callerValues ancestorValues : FrameValues} : ge.edge.to = callee →
    CallOver rev ge callee callerValues values →
    CallChain rev ge.from callerValues edges ancestor ancestorValues →
    CallChain rev callee values (ge :: edges) ancestor ancestorValues

/-- Carry requirements of a routine over a chain, edge by edge. -/
def carryChain (rev : PdRevision) : String → List Req → List GraphEdge → Option (List Req)
  | _, reqs, [] => some reqs
  | callee, reqs, ge :: edges =>
    (carryReqs reqs ge.edge (rev.routinesById ge.from) (rev.routinesById callee)
      (rev.frames ge.from) (rev.edgeReqs ge)).bind fun reqs => carryChain rev ge.from reqs edges

/-! ## 2. Requirements that hold -/

section Holds

variable {values : FrameValues}

/-- Adding a requirement that holds to others that hold. -/
theorem addReq_carries {out : List Req} {r : Req} (hout : ∀ q ∈ out, Req.Holds values q)
    (hr : Req.Holds values r) : ∃ out', addReq out r = some out' ∧ ∀ q ∈ out', Req.Holds values q := by
  unfold addReq
  cases hfind : out.find? fun w => w.1 = r.1 with
  | none =>
    refine ⟨out ++ [r], rfl, fun q hq => ?_⟩
    rcases List.mem_append.mp hq with hq | hq
    · exact hout q hq
    · exact List.mem_singleton.mp hq ▸ hr
  | some w =>
    have hindex : w.1 = r.1 := by simpa using List.find?_some hfind
    have hw : values w.1 = some w.2 := hout w (List.mem_of_find?_eq_some hfind)
    have hvalue : w.2 = r.2 := by
      rw [hindex, show values r.1 = some r.2 from hr] at hw
      exact (Option.some.inj hw).symm
    exact ⟨out, if_neg (not_not.mpr hvalue), hout⟩

/-- **A conjunction of requirements that hold is no contradiction, and holds.** -/
theorem conjoin_carries {a b : List Req} (ha : ∀ q ∈ a, Req.Holds values q)
    (hb : ∀ q ∈ b, Req.Holds values q) :
    ∃ out, conjoin a b = some out ∧ ∀ q ∈ out, Req.Holds values q := by
  have hfold : ∀ (b a : List Req), (∀ q ∈ a, Req.Holds values q) → (∀ q ∈ b, Req.Holds values q) →
      ∃ out, b.foldlM addReq a = some out ∧ ∀ q ∈ out, Req.Holds values q := by
    intro b
    induction b with
    | nil => exact fun a ha _ => ⟨a, rfl, ha⟩
    | cons r b ih =>
      intro a ha hb
      obtain ⟨mid, hmid, hmidHolds⟩ := addReq_carries ha (hb r List.mem_cons_self)
      obtain ⟨out, hout, houtHolds⟩ := ih mid hmidHolds fun q hq => hb q (List.mem_cons_of_mem _ hq)
      refine ⟨out, ?_, houtHolds⟩
      rw [List.foldlM_cons, hmid]
      exact hout
  obtain ⟨out, hout, houtHolds⟩ := hfold b a ha hb
  unfold conjoin
  rw [hout, Option.map_some]
  refine ⟨_, rfl, fun q hq => ?_⟩
  -- a list past the cap is dropped, and an empty one holds
  dsimp only at hq
  split at hq
  · exact absurd hq List.not_mem_nil
  · exact houtHolds q ((List.mergeSort_perm _ _).mem_iff.mp hq)

end Holds

/-! ## 3. One edge -/

section Edge

variable {caller callee : FrameValues}

/-- A fold of steps that each keep what holds keeps it. -/
theorem foldlM_holds {step : List Req → Req → Option (List Req)}
    (hstep : ∀ out r, (∀ q ∈ out, Req.Holds caller q) → Req.Holds callee r →
      ∃ out', step out r = some out' ∧ ∀ q ∈ out', Req.Holds caller q) :
    ∀ (reqs out : List Req), (∀ q ∈ out, Req.Holds caller q) → (∀ r ∈ reqs, Req.Holds callee r) →
      ∃ out', reqs.foldlM step out = some out' ∧ ∀ q ∈ out', Req.Holds caller q
  | [], out, hout, _ => ⟨out, rfl, hout⟩
  | r :: reqs, out, hout, hreqs => by
    obtain ⟨mid, hmid, hmidHolds⟩ := hstep out r hout (hreqs r List.mem_cons_self)
    obtain ⟨out', hout', hholds⟩ := foldlM_holds hstep reqs mid hmidHolds fun q hq =>
      hreqs q (List.mem_cons_of_mem _ hq)
    refine ⟨out', ?_, hholds⟩
    rw [List.foldlM_cons, hmid]
    exact hout'

/-- Over a call site: a literal cannot contradict its own value, and a forwarded parameter takes the
requirement over. -/
theorem acrossReq_holds {site : PCallSite} {frame : Option FrameGuards}
    (hargs : ArgumentsAt site caller callee) (out : List Req) (r : Req)
    (hout : ∀ q ∈ out, Req.Holds caller q) (hr : Req.Holds callee r) :
    ∃ out', acrossReq site frame out r = some out' ∧ ∀ q ∈ out', Req.Holds caller q := by
  unfold acrossReq
  dsimp only
  split
  · rename_i htext
    -- the literal's value is the parameter's, which is the requirement's
    have hvalue : decide ((site.argumentTexts[r.1]?.map fun t =>
        Text.toAsciiLowercase (Text.trim t)) = some "true") = r.2 := by
      cases hsite : site.argumentTexts[r.1]? with
      | none => simp [hsite] at htext
      | some text =>
        simp only [hsite, Option.map_some, Option.some.injEq] at htext ⊢
        have hliteral : ∀ v, literalValue text = some v → v = r.2 := fun v hv =>
          Option.some.inj ((hargs.literal r.1 text v hsite hv).symm.trans hr)
        rcases htext with htext | htext
        · rw [htext, decide_eq_true rfl]
          exact hliteral true (by simp [literalValue, htext])
        · rw [htext, decide_eq_false (by decide)]
          exact hliteral false (by simp [literalValue, htext])
    rw [if_neg (not_not.mpr hvalue)]
    exact ⟨out, rfl, hout⟩
  · split
    · rename_i j f hsource
      split
      · obtain ⟨b, hb, hj⟩ := Option.bind_eq_some_iff.mp hsource
        have hfound := List.find?_some hb
        rw [Bool.and_eq_true, decide_eq_true_iff, decide_eq_true_iff] at hfound
        have hforward := hargs.forwarded b (List.mem_of_find?_eq_some hb) hfound.2 j hj
        refine conjoin_carries hout fun q hq => ?_
        obtain rfl := List.mem_singleton.mp hq
        rw [hfound.1] at hforward
        exact hforward.symm.trans hr
      · exact ⟨out, rfl, hout⟩
    · exact ⟨out, rfl, hout⟩

/-- Over an event: the publisher's parameter of the same name takes the requirement over. -/
theorem carryEventReq_holds {publisher subscriber : ModelRoutine} {frame : Option FrameGuards}
    (hargs : ∀ p ∈ publisher.parameters, ∀ s ∈ subscriber.parameters,
      eventParamNamesMatch p.name s.name = true → callee s.index = caller p.index)
    (out : List Req) (r : Req) (hout : ∀ q ∈ out, Req.Holds caller q) (hr : Req.Holds callee r) :
    ∃ out', carryEventReq publisher subscriber frame out r = some out' ∧
      ∀ q ∈ out', Req.Holds caller q := by
  unfold carryEventReq
  dsimp only
  split
  · rename_i i hi
    obtain ⟨hmapped, -⟩ := Option.filter_eq_some_iff.mp hi
    obtain ⟨p, hp, rfl⟩ := Option.map_eq_some_iff.mp hmapped
    obtain ⟨s, hs, hps⟩ := Option.bind_eq_some_iff.mp hp
    have hindex : s.index = r.1 := by simpa using List.find?_some hs
    have hbind := hargs p (List.mem_of_find?_eq_some hps) s (List.mem_of_find?_eq_some hs)
      (by simpa using List.find?_some hps)
    refine conjoin_carries hout fun q hq => ?_
    obtain rfl := List.mem_singleton.mp hq
    rw [hindex] at hbind
    exact hbind.symm.trans hr
  · exact ⟨out, rfl, hout⟩

end Edge

/-- **One call carries requirements soundly**, whatever the kind of its edge. -/
theorem carryReqs_holds {rev : PdRevision} {ge : GraphEdge} {callee : String} {caller values : FrameValues}
    (hcall : CallOver rev ge callee caller values) {reqs : List Req}
    (hreqs : ∀ r ∈ reqs, Req.Holds values r) :
    ∃ out, carryReqs reqs ge.edge (rev.routinesById ge.from) (rev.routinesById callee)
      (rev.frames ge.from) (rev.edgeReqs ge) = some out ∧ ∀ q ∈ out, Req.Holds caller q := by
  have hempty : ∀ q ∈ ([] : List Req), Req.Holds caller q := fun q hq => absurd hq List.not_mem_nil
  unfold carryReqs
  dsimp only
  -- what the callee's requirements become, before the call's own are added
  suffices hcarried : ∀ carried : Option (List Req),
      (∃ out, carried = some out ∧ ∀ q ∈ out, Req.Holds caller q) →
      ∃ out, (carried.bind fun out => conjoin out (rev.edgeReqs ge)) = some out ∧
        ∀ q ∈ out, Req.Holds caller q by
    refine hcarried _ ?_
    split
    · rename_i publisher subscriber hpair
      have hev : ge.edge.kind = "event-dispatch" ∧ rev.routinesById ge.from = some publisher ∧
          rev.routinesById callee = some subscriber := by
        unfold eventPair at hpair
        split at hpair
        · rename_i hkind hcaller hcallee
          obtain ⟨rfl, rfl⟩ := Prod.mk.inj (Option.some.inj hpair)
          exact ⟨hkind, hcaller, hcallee⟩
        · cases hpair
      exact foldlM_holds (carryEventReq_holds (hcall.event _ _ hev.1 hev.2.1 hev.2.2)) reqs [] hempty
        hreqs
    · split
      · rename_i cs row hbound
        split
        · rename_i site hfind
          have hb : (ge.edge.kind = "direct-call" ∨ ge.edge.kind = "variable-typed-call") ∧
              rev.routinesById ge.from = some row ∧ ge.edge.callsite = some cs := by
            unfold boundSite at hbound
            split at hbound
            · cases hbound
            · rename_i caller hcaller
              split at hbound
              · rename_i hkind
                obtain ⟨cs', hcs, heq⟩ := Option.map_eq_some_iff.mp hbound
                obtain ⟨hsite, rfl⟩ := Prod.mk.inj heq
                obtain rfl := BoundSite.call.inj hsite
                exact ⟨Or.inl hkind, hcaller, hcs⟩
              · rename_i hkind
                obtain ⟨cs', hcs, heq⟩ := Option.map_eq_some_iff.mp hbound
                obtain ⟨hsite, rfl⟩ := Prod.mk.inj heq
                obtain rfl := BoundSite.call.inj hsite
                exact ⟨Or.inr hkind, hcaller, hcs⟩
              · obtain ⟨op, -, heq⟩ := Option.map_eq_some_iff.mp hbound
                cases (Prod.mk.inj heq).1
              · cases hbound
          exact foldlM_holds (acrossReq_holds (hcall.site row cs site hb.1 hb.2.1 hb.2.2 hfind)) reqs []
            hempty hreqs
        · exact ⟨[], rfl, hempty⟩
      · exact ⟨[], rfl, hempty⟩
      · exact ⟨[], rfl, hempty⟩
  rintro carried ⟨out, rfl, hout⟩
  exact conjoin_carries hout hcall.guarded

/-! ## 4. A chain -/

/-- **Carrying requirements over call chains is sound.**  Over every chain of calls made under their
guards, from a frame where the requirements hold, no step contradicts and what they become holds in
the ancestor's frame; so where a step contradicts there is no such chain. -/
theorem carryChain_sound (rev : PdRevision) (routine : String) (reqs : List Req)
    (edges : List GraphEdge) :
    (∀ values ancestor ancestorValues,
      CallChain rev routine values edges ancestor ancestorValues →
      (∀ r ∈ reqs, Req.Holds values r) →
      ∃ out, carryChain rev routine reqs edges = some out ∧ ∀ r ∈ out, Req.Holds ancestorValues r) ∧
    (carryChain rev routine reqs edges = none → ¬ ∃ values ancestor ancestorValues,
      CallChain rev routine values edges ancestor ancestorValues ∧ ∀ r ∈ reqs, Req.Holds values r) := by
  have hsound : ∀ values ancestor ancestorValues,
      CallChain rev routine values edges ancestor ancestorValues →
      (∀ r ∈ reqs, Req.Holds values r) →
      ∃ out, carryChain rev routine reqs edges = some out ∧ ∀ r ∈ out, Req.Holds ancestorValues r := by
    intro values ancestor ancestorValues hchain
    induction hchain generalizing reqs with
    | here => exact fun hreqs => ⟨reqs, rfl, hreqs⟩
    | call _ hcall _ ih =>
      intro hreqs
      obtain ⟨mid, hmid, hmidHolds⟩ := carryReqs_holds hcall hreqs
      obtain ⟨out, hout, houtHolds⟩ := ih mid hmidHolds
      refine ⟨out, ?_, houtHolds⟩
      unfold carryChain
      rw [hmid, Option.bind_some]
      exact hout
  refine ⟨hsound, ?_⟩
  rintro hnone ⟨values, ancestor, ancestorValues, hchain, hreqs⟩
  obtain ⟨out, hout, -⟩ := hsound values ancestor ancestorValues hchain hreqs
  rw [hnone] at hout
  cases hout

/-- `c` calls `a` with two literals; `a` hands its first parameter on to `b`, under its second. -/
def forwardingCalls : PdRevision where
  graph := { nodes := ["a", "b", "c"], outgoing := ∅ }
  routinesById id :=
    if id = "c" then
      some { id := "c", callSites := [{ id := "c/cs0", argumentTexts := ["true", "TRUE"] }] }
    else if id = "a" then
      some
        { id := "a"
          callSites :=
            [{ id := "a/cs0"
               argumentTexts := ["Deep"]
               argumentBindings :=
                 [{ parameterIndex := 0, sourceKind := "parameter"
                    sourceParameterIndex := some 0 }] }] }
    else if id = "b" then some { id := "b" }
    else none
  frames id :=
    if id = "a" then
      some { usable := [0, 1], bySite := AList.insert "a/cs0" [(1, true)] ∅ }
    else none

def forwardingEdges : List GraphEdge :=
  [⟨"a", 0, TypedOutEdge.new "b" "direct-call" (some "a/cs0") none none⟩,
    ⟨"c", 0, TypedOutEdge.new "a" "direct-call" (some "c/cs0") none none⟩]

/-- The frame of a routine whose first parameters have these values. -/
def frameOf (values : List Bool) : FrameValues := fun i => values[i]?

/-- Inside `a`: the parameter's value is handed on where the second parameter is true. -/
theorem forwarding_inner (v : Bool) :
    CallOver forwardingCalls ⟨"a", 0, TypedOutEdge.new "b" "direct-call" (some "a/cs0") none none⟩
      "b" (frameOf [v, true]) (frameOf [v]) := by
  refine ⟨fun _ _ hkind => absurd hkind (by decide), fun caller cs site _ hcaller hcs hsite => ?_,
    fun r hr => ?_⟩
  · obtain rfl := Option.some.inj hcaller
    obtain rfl := Option.some.inj hcs
    obtain rfl := Option.some.inj hsite
    refine ⟨fun i text w htext hw => ?_, fun b hb _ j hj => ?_⟩
    · cases i with
      | zero =>
        obtain rfl := Option.some.inj htext
        have hnone : literalValue "Deep" = none := by decide +kernel
        rw [hnone] at hw
        cases hw
      | succ i => cases htext
    · obtain rfl := List.mem_singleton.mp hb
      obtain rfl := Option.some.inj hj
      rfl
  · obtain rfl := List.mem_singleton.mp hr
    rfl

/-- Inside `c`: two literals. -/
theorem forwarding_outer :
    CallOver forwardingCalls ⟨"c", 0, TypedOutEdge.new "a" "direct-call" (some "c/cs0") none none⟩
      "a" (frameOf []) (frameOf [true, true]) := by
  refine ⟨fun _ _ hkind => absurd hkind (by decide), fun caller cs site _ hcaller hcs hsite => ?_,
    fun r hr => absurd hr List.not_mem_nil⟩
  obtain rfl := Option.some.inj hcaller
  obtain rfl := Option.some.inj hcs
  obtain rfl := Option.some.inj hsite
  have htexts : literalValue "true" = some true ∧ literalValue "TRUE" = some true := by
    decide +kernel
  refine ⟨fun i text w htext hw => ?_, fun b hb => absurd hb List.not_mem_nil⟩
  match i with
  | 0 =>
    obtain rfl := Option.some.inj htext
    exact htexts.1.symm.trans hw
  | 1 =>
    obtain rfl := Option.some.inj htext
    exact htexts.2.symm.trans hw
  | i + 2 => cases htext

/-- What a requirement of `b` is carried to in `a`. -/
theorem forwarding_carried (v : Bool) :
    carryReqs [(0, v)] (TypedOutEdge.new "b" "direct-call" (some "a/cs0") none none)
      (forwardingCalls.routinesById "a") (forwardingCalls.routinesById "b")
      (forwardingCalls.frames "a") [(1, true)] = some [(0, v), (1, true)] := by
  have htext : Text.toAsciiLowercase (Text.trim "Deep") = "deep" := by decide +kernel
  have hle : reqLe (0, v) (1, true) = true := by cases v <;> decide
  simp [carryReqs, eventPair, boundSite, forwardingCalls, TypedOutEdge.new, acrossEdge, acrossReq,
    htext, conjoin, addReq, List.mergeSort, hle, List.MergeSort.Internal.splitInTwo, maxReqs]

/-- A fact of `b` under its parameter passes both calls with the literals, and one under the
parameter's opposite has no such chain. -/
theorem carryChain_sound_forwarded :
    (∃ out, carryChain forwardingCalls "b" [(0, true)] forwardingEdges = some out ∧
      ∀ r ∈ out, Req.Holds (frameOf []) r) ∧
    ¬ ∃ values ancestor ancestorValues,
      CallChain forwardingCalls "b" values forwardingEdges ancestor ancestorValues ∧
        ∀ r ∈ [((0, false) : Req)], Req.Holds values r := by
  obtain ⟨hsound, -⟩ := carryChain_sound forwardingCalls "b" [(0, true)] forwardingEdges
  obtain ⟨-, hnone⟩ := carryChain_sound forwardingCalls "b" [(0, false)] forwardingEdges
  refine ⟨hsound (frameOf [true]) "c" (frameOf []) ?_ fun r hr => ?_, hnone ?_⟩
  · exact .call rfl (forwarding_inner true) (.call rfl forwarding_outer .here)
  · obtain rfl := List.mem_singleton.mp hr
    rfl
  · -- the first literal contradicts what `a` passes up
    have hguard : forwardingCalls.edgeReqs
        ⟨"a", 0, TypedOutEdge.new "b" "direct-call" (some "a/cs0") none none⟩ = [(1, true)] := by
      decide
    unfold forwardingEdges carryChain
    dsimp only
    rw [hguard, forwarding_carried, Option.bind_some]
    decide +kernel

end AlSem.L4
