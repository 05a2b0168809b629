/-
# What a changed revision leaves alone

Two revisions, and a producer of both whose owner no changed routine reaches in the new graph and
none of whose old states stands at a changed routine.  Its search is the same in both
(`Untouched.found_iff`): an old walk meets unchanged routines only because its states are in the
old arena, a new walk because each routine it meets reaches the owner.
-/
import AlSem.L4.PdCanon

namespace AlSem.L4

open AlSem.Model

/-! ## 1. Equal inputs -/

/-- Two guard frames state the same: a hash map of sites is read by look-up only. -/
def SameFrame (f f' : Option FrameGuards) : Prop :=
  f.map FrameGuards.usable = f'.map FrameGuards.usable ∧
    ∀ site, (f.bind fun fg => fg.bySite.lookup site) = f'.bind fun fg => fg.bySite.lookup site

/-- **A routine's solve inputs are equal**: its row, its guard frame and its set of out-edges. -/
structure SameInputs (old new : PdRevision) (id : String) : Prop where
  row : old.routinesById id = new.routinesById id
  frame : SameFrame (old.frames id) (new.frames id)
  edges : ∀ e, e ∈ old.graph.outEdges id ↔ e ∈ new.graph.outEdges id

theorem acrossReq_congr {f f' : Option FrameGuards}
    (h : f.map FrameGuards.usable = f'.map FrameGuards.usable) (cs : PCallSite) (out : List Req)
    (r : Req) : acrossReq cs f out r = acrossReq cs f' out r := by
  cases f <;> cases f' <;> simp only [Option.map_none, Option.map_some, reduceCtorEq,
    Option.some.injEq] at h
  · rfl
  · dsimp only [acrossReq]
    generalize ((cs.argumentBindings.find? fun b =>
      decide (b.parameterIndex = r.1) && decide (b.sourceKind = "parameter")).bind
        (·.sourceParameterIndex)) = source
    cases source with
    | none => rfl
    | some j => simp only [h]

theorem carryEventReq_congr {f f' : Option FrameGuards}
    (h : f.map FrameGuards.usable = f'.map FrameGuards.usable) (publisher subscriber : ModelRoutine)
    (out : List Req) (r : Req) :
    carryEventReq publisher subscriber f out r = carryEventReq publisher subscriber f' out r := by
  unfold carryEventReq
  cases f <;> cases f' <;> simp only [Option.map_none, Option.map_some, reduceCtorEq,
    Option.some.injEq] at h
  · rfl
  · simp only [Option.any_some, h]

/-- A crossing reads of the caller's frame its usable parameters. -/
theorem crossEdge_congr {f f' : Option FrameGuards}
    (h : f.map FrameGuards.usable = f'.map FrameGuards.usable) (t : TempState) (reqs : List Req)
    (edge : TypedOutEdge) (caller callee : Option ModelRoutine) (edgeReqs : List Req) :
    crossEdge t reqs edge caller callee f edgeReqs = crossEdge t reqs edge caller callee f' edgeReqs := by
  have hacross : ∀ cs, acrossReq cs f = acrossReq cs f' := fun cs =>
    funext fun out => funext fun r => acrossReq_congr h cs out r
  have hevent : ∀ p s, carryEventReq p s f = carryEventReq p s f' := fun p s =>
    funext fun out => funext fun r => carryEventReq_congr h p s out r
  unfold crossEdge carryReqs acrossEdge
  simp only [hacross, hevent]

namespace SameInputs

variable {old new : PdRevision}

theorem edgeReqs_eq (ge : GraphEdge) (h : SameInputs old new ge.from) :
    old.edgeReqs ge = new.edgeReqs ge := by
  have hmap := h.frame.1
  have hsite := h.frame.2
  unfold PdRevision.edgeReqs
  cases hf : old.frames ge.from <;> cases hf' : new.frames ge.from <;>
    simp only [hf, hf', Option.map_none, Option.map_some, reduceCtorEq] at hmap
  · rfl
  · cases ge.edge.site with
    | none => rfl
    | some site =>
      have hlookup := hsite site
      simp only [hf, hf', Option.bind_some] at hlookup
      simp only [FrameGuards.site, HashMap.getList, hlookup]

/-- **A hop reads** the inputs of the caller and the row of the callee. -/
theorem hop_iff {a b : PdKey} {id : String × TypedOutEdge} (hcaller : SameInputs old new id.1)
    (hcallee : SameInputs old new a.1) : Hop old a id b ↔ Hop new a id b := by
  have hreqs : old.edgeReqs ⟨id.1, 0, id.2⟩ = new.edgeReqs ⟨id.1, 0, id.2⟩ :=
    edgeReqs_eq ⟨id.1, 0, id.2⟩ hcaller
  unfold Hop PdRevision.crossing
  rw [hcaller.edges, hreqs, hcaller.row, hcallee.row, crossEdge_congr hcaller.frame.1]

/-- **A seed reads** its owner's frame. -/
theorem seedOf_eq (prod : Producer) (h : SameInputs old new prod.owner) :
    old.seedOf prod = new.seedOf prod := by
  have hsite : ((old.frames prod.owner).bind fun fg => siteReqs fg prod.fact) =
      (new.frames prod.owner).bind fun fg => siteReqs fg prod.fact := by
    have hmap := h.frame.1
    have hlookup := h.frame.2
    cases hf : old.frames prod.owner <;> cases hf' : new.frames prod.owner <;>
      simp only [hf, hf', Option.map_none, Option.map_some, reduceCtorEq] at hmap
    · rfl
    · rename_i fg fg'
      have heq : fg.bySite.lookup = fg'.bySite.lookup := by
        funext site
        simpa only [hf, hf', Option.bind_some] using hlookup site
      simp only [Option.bind_some, siteReqs, heq]
  unfold PdRevision.seedOf
  rw [hsite]

end SameInputs

/-! ## 2. The search of an untouched producer -/

/-- **A producer no change touches**: its old search meets unchanged routines only, and so does
whatever its new search meets. -/
structure Untouched (old new : PdRevision) (prod : Producer) : Prop where
  owner : SameInputs old new prod.owner
  oldWalk : ∀ n a, Bfs.Walk old.succ (old.seedOf prod) n a → SameInputs old new a.1
  newWalk : ∀ n a, Bfs.Walk new.succ (new.seedOf prod) n a → SameInputs old new a.1

namespace Untouched

variable {old new : PdRevision} {prod : Producer}

/-- Out of what the old search meets, the hops are the same. -/
theorem hop_iff (h : Untouched old new prod) {n m : ℕ} {a b : PdKey} {id : String × TypedOutEdge}
    (ha : Bfs.Walk old.succ (old.seedOf prod) n a) (hb : Bfs.Walk old.succ (old.seedOf prod) m b) :
    Hop old a id b ↔ Hop new a id b := by
  constructor
  · intro hhop
    exact (SameInputs.hop_iff (hhop.source ▸ h.oldWalk m b hb) (h.oldWalk n a ha)).mp hhop
  · intro hhop
    exact (SameInputs.hop_iff (hhop.source ▸ h.oldWalk m b hb) (h.oldWalk n a ha)).mpr hhop

theorem walk_iff (h : Untouched old new prod) {n : ℕ} {a : PdKey} :
    Bfs.Walk old.succ (old.seedOf prod) n a ↔ Bfs.Walk new.succ (new.seedOf prod) n a := by
  have hseed := h.owner.seedOf_eq prod
  constructor
  · intro hw
    rw [← hseed]
    refine hw.transfer fun n a hw l b hb => ?_
    have hhop := (PdRevision.mem_succ.mp hb).2
    have hwb := h.oldWalk _ _ (.step hw hb)
    rw [hhop.source] at hwb
    obtain ⟨ge, -, hge⟩ := PdRevision.exists_mem_succ
      ((SameInputs.hop_iff hwb (h.oldWalk n a hw)).mp hhop)
    exact ⟨ge, hge⟩
  · intro hw
    rw [hseed]
    refine hw.transfer fun n a hw l b hb => ?_
    have hhop := (PdRevision.mem_succ.mp hb).2
    have hwb := h.newWalk _ _ (.step hw hb)
    rw [hhop.source] at hwb
    obtain ⟨ge, -, hge⟩ := PdRevision.exists_mem_succ
      ((SameInputs.hop_iff hwb (h.newWalk n a hw)).mpr hhop)
    exact ⟨ge, hge⟩

/-- **An untouched producer's search finds the same, as far away.** -/
theorem found_iff (h : Untouched old new prod) {n : ℕ} {key : PdKey} :
    Found old prod n key ↔ Found new prod n key := by
  unfold Found Bfs.IsDist
  rw [h.walk_iff]
  exact and_congr_right fun _ => forall_congr' fun m => by rw [h.walk_iff]

end Untouched

/-! ## 3. What the solve takes to be untouched -/

section Delta

variable {D : Type} [DecidableEq D]

/-- **Equal digests mean equal inputs**: no routine whose digest is the same in both revisions, or
in neither, has changed. -/
def DigestsMatch (old new : PdRevision) (reuse : PdReuse D) : Prop :=
  ∀ id, reuse.oldDigests.lookup id = reuse.newDigests.lookup id → SameInputs old new id

theorem mem_pdDelta {reuse : PdReuse D} {id : String} :
    id ∈ pdDelta reuse ↔ reuse.oldDigests.lookup id ≠ reuse.newDigests.lookup id := by
  have hentry : ∀ (m : HashMap String D) (e : Σ _ : String, D), e ∈ m.entries → m.lookup e.1 = some e.2 :=
    fun m e he => AList.mem_lookup_iff.mpr he
  unfold pdDelta
  simp only [List.mem_append, List.mem_map, List.mem_filter, decide_eq_true_eq, ne_eq]
  constructor
  · rintro (⟨e, ⟨he, hne⟩, rfl⟩ | ⟨hmem, hnone⟩)
    · rw [hentry _ _ he]
      exact hne
    · rw [Option.isNone_iff_eq_none.mp hnone]
      exact fun hold => AList.lookup_eq_none.mp hold hmem
  · intro hne
    cases hnew : reuse.newDigests.lookup id with
    | some d =>
      rw [hnew] at hne
      exact Or.inl ⟨⟨id, d⟩, ⟨AList.mem_lookup_iff.mp hnew, hne⟩, rfl⟩
    | none =>
      refine Or.inr ⟨?_, by simp⟩
      by_contra hmem
      rw [hnew] at hne
      exact hne (AList.lookup_eq_none.mpr hmem)

/-- Along out-edges. -/
inductive Calls (g : TypedEdgeGraph) : String → String → Prop
  | refl {r : String} : Calls g r r
  | step {r c d : String} {e : TypedOutEdge} : e ∈ g.outEdges r → e.to = c → Calls g c d → Calls g r d

theorem Calls.tail {g : TypedEdgeGraph} {r c : String} (h : Calls g r c) {e : TypedOutEdge}
    (he : e ∈ g.outEdges c) : Calls g r e.to := by
  induction h with
  | refl => exact .step he rfl .refl
  | step he' hto _ ih => exact .step he' hto (ih he)

/-- **Forward reachability ends** with what some changed routine calls. -/
theorem forwardReach_spec (g : TypedEdgeGraph) (delta : List String) :
    ∃ reach, forwardReach g delta = some reach ∧ ∀ r, r ∈ reach ↔ ∃ d ∈ delta, Calls g d r := by
  let expand : String → List (String ⊕ Empty) := fun r => (g.outEdges r).map fun e => .inl e.to
  let U : Finset String := (delta ++ (g.outgoing.entries.flatMap Sigma.snd).map (·.to)).toFinset
  have hseeds : ∀ a, Sum.inl a ∈ (delta.map .inl : List (String ⊕ Empty)) → a ∈ U := by
    intro a ha
    have hmem : a ∈ delta := by simpa using ha
    exact List.mem_toFinset.mpr (List.mem_append_left _ hmem)
  have hU : ∀ a ∈ U, ∀ b, Sum.inl b ∈ expand a → b ∈ U := by
    intro a _ b hb
    obtain ⟨e, he, heq⟩ := List.mem_map.mp hb
    obtain rfl := Sum.inl.inj heq
    obtain ⟨entry, hentry, -, hmem⟩ := HashMap.mem_of_mem_getList he
    refine List.mem_toFinset.mpr (List.mem_append_right _ (List.mem_map.mpr ⟨e, ?_, rfl⟩))
    exact List.mem_flatMap.mpr ⟨entry, hentry, hmem⟩
  have hfuel : U.card < delta.length + (g.outgoing.entries.flatMap Sigma.snd).length + 1 := by
    refine lt_of_le_of_lt (List.toFinset_card_le _) ?_
    simp only [List.length_append, List.length_map]
    omega
  obtain ⟨w, hsolve, -, hvisited, -⟩ := Worklist.solve_spec U hseeds hU hfuel
  refine ⟨w.visited, congrArg (Option.map _) hsolve, fun r => ?_⟩
  rw [hvisited]
  constructor
  · intro hr
    induction hr with
    | seed hs =>
      obtain ⟨d, hd, heq⟩ := List.mem_map.mp hs
      obtain rfl := Sum.inl.inj heq
      exact ⟨d, hd, .refl⟩
    | step _ hb ih =>
      obtain ⟨d, hd, hcalls⟩ := ih
      obtain ⟨e, he, heq⟩ := List.mem_map.mp hb
      obtain rfl := Sum.inl.inj heq
      exact ⟨d, hd, hcalls.tail he⟩
  · rintro ⟨d, hd, hcalls⟩
    have hderive : ∀ {c r}, Calls g c r → Worklist.Derivable expand (delta.map .inl) c →
        Worklist.Derivable expand (delta.map .inl) r := by
      intro c r hcr
      induction hcr with
      | refl => exact id
      | step he hto _ ih =>
        exact fun hc => ih (.step hc (List.mem_map.mpr ⟨_, he, by rw [hto]⟩))
    exact hderive hcalls (.seed (List.mem_map_of_mem hd))

/-- A state of producer `o` stood at a changed routine. -/
def oldHit (reuse : PdReuse D) : List ℕ :=
  (pdDelta reuse).flatMap fun r =>
    (reuse.old.byRoutine r).filterMap fun s => (reuse.old.states[s]?).map ConeState.producer

theorem mem_oldHit {old : PdRevision} {ids : List (String × TypedOutEdge)} {reuse : PdReuse D}
    (hcanon : Canonical old ids reuse.old) {s : ConeState} (hs : s ∈ reuse.old.states)
    (hr : s.routine ∈ pdDelta reuse) : s.producer ∈ oldHit reuse := by
  obtain ⟨n, hn⟩ := List.mem_iff_getElem?.mp hs
  refine List.mem_flatMap.mpr ⟨s.routine, hr, List.mem_filterMap.mpr ⟨n, ?_, by rw [hn]; rfl⟩⟩
  rw [hcanon.byRoutine]
  refine List.mem_map.mpr ⟨(s, n), List.mem_filter.mpr ⟨?_, by simp⟩, rfl⟩
  exact List.mem_zipIdx_iff_getElem?.mpr hn

/-- A producer's states are in the canonical arena. -/
theorem Canonical.mem_states {rev : PdRevision} {ids : List (String × TypedOutEdge)} {a : ConeArena}
    (h : Canonical rev ids a) {o n : ℕ} {prod : Producer} {key : PdKey}
    (hprod : a.producers[o]? = some prod) (hf : Found rev prod n key) :
    ∃ s ∈ a.states, s.bare = stateOf o key n := by
  have hmem := (h.state (stateOf o key n)).mpr ⟨prod, n, key, hprod, hf, rfl⟩
  obtain ⟨s, hs, heq⟩ := List.mem_map.mp hmem
  exact ⟨s, hs, heq⟩

/-- What a search meets calls the owner of its producer. -/
theorem calls_of_walk {rev : PdRevision} {prod : Producer} {n : ℕ} {a : PdKey}
    (h : Bfs.Walk rev.succ (rev.seedOf prod) n a) : Calls rev.graph a.1 prod.owner := by
  induction h with
  | seed => exact .refl
  | step _ hb ih =>
    have hhop := (PdRevision.mem_succ.mp hb).2
    have hin := hhop.1
    rw [← hhop.source] at hin
    exact .step hin hhop.2.1 ih

/-- **What the solve reuses is untouched.** -/
theorem untouched_of_reach {old new : PdRevision} {ids : List (String × TypedOutEdge)}
    {reuse : PdReuse D} (hcanon : Canonical old ids reuse.old) (hdig : DigestsMatch old new reuse)
    {reach : List String} (hreach : ∀ r, r ∈ reach ↔ ∃ d ∈ pdDelta reuse, Calls new.graph d r) {o : ℕ}
    {prod : Producer} (hprod : reuse.old.producers[o]? = some prod) (howner : prod.owner ∉ reach)
    (hhit : o ∉ oldHit reuse) : Untouched old new prod := by
  have hsame : ∀ id, id ∉ pdDelta reuse → SameInputs old new id := by
    intro id hid
    rw [mem_pdDelta, not_not] at hid
    exact hdig id hid
  refine ⟨hsame _ fun hd => ?_, fun n a hw => hsame _ fun hd => ?_, fun n a hw => hsame _ fun hd => ?_⟩
  · exact howner ((hreach _).mpr ⟨prod.owner, hd, .refl⟩)
  · obtain ⟨m, hm⟩ := Bfs.exists_isDist hw
    obtain ⟨s, hs, hbare⟩ := hcanon.mem_states hprod hm
    have hrout : s.routine = a.1 := congrArg ConeState.routine hbare
    have hprods : s.producer = o := congrArg ConeState.producer hbare
    exact hhit (hprods ▸ mem_oldHit hcanon hs (hrout ▸ hd))
  · exact howner ((hreach _).mpr ⟨a.1, hd, calls_of_walk hw⟩)

theorem oldIndex_spec {old : ConeArena} {p : Producer} {o : ℕ} (h : oldIndex old p = some o) :
    ∃ q, old.producers[o]? = some q ∧ q.owner = p.owner ∧ q.operationId = p.operationId := by
  obtain ⟨⟨q, o'⟩, hfind, rfl⟩ := Option.map_eq_some_iff.mp h
  have hmem := List.mem_reverse.mp (List.mem_of_find?_eq_some hfind)
  have hid := List.find?_some hfind
  exact ⟨q, List.mem_zipIdx_iff_getElem?.mp hmem, of_decide_eq_true hid⟩

/-- **Which producers are reused**: only untouched ones, from where they stood. -/
theorem reusable_spec {old new : PdRevision} {ids : List (String × TypedOutEdge)} {reuse : PdReuse D}
    (hcanon : Canonical old ids reuse.old) (hdig : DigestsMatch old new reuse)
    (producers : List Producer) :
    ∃ copyFrom n, reusable producers new.graph reuse = some (copyFrom, n) ∧
      copyFrom.length = producers.length ∧
      ∀ p o : ℕ, copyFrom[p]? = some (some o) → ∃ prod, producers[p]? = some prod ∧
        reuse.old.producers[o]? = some prod ∧ Untouched old new prod := by
  obtain ⟨reach, hfwd, hreach⟩ := forwardReach_spec new.graph (pdDelta reuse)
  refine ⟨_, _, by rw [reusable, hfwd]; rfl, by simp, fun p o hp => ?_⟩
  rw [List.getElem?_map, Option.map_eq_some_iff] at hp
  obtain ⟨prod, hprod, hsome⟩ := hp
  split at hsome
  · simp at hsome
  · rename_i howner
    obtain ⟨o', ho', hsome⟩ := Option.bind_eq_some_iff.mp hsome
    split at hsome
    · rename_i hcond
      obtain rfl := Option.some.inj hsome
      simp only [Bool.and_eq_true, Bool.not_eq_true', decide_eq_true_eq] at hcond
      obtain ⟨hhit, hfact⟩ := hcond
      obtain ⟨q, hq, howner', hop⟩ := oldIndex_spec ho'
      rw [hq, Option.map_some, Option.some.injEq] at hfact
      obtain rfl : q = prod := by
        cases q
        cases prod
        simp only at hfact howner' hop
        subst hfact howner' hop
        rfl
      refine ⟨q, hprod, hq, untouched_of_reach hcanon hdig hreach hq ?_ ?_⟩
      · exact fun hmem => howner (List.contains_iff_mem.mpr hmem)
      · intro hmem
        rw [List.contains_eq_mem, decide_eq_false_iff_not] at hhit
        exact hhit hmem
    · simp at hsome

end Delta

end AlSem.L4
