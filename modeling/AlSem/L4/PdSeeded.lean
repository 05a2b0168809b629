/-
# The seeded solve

Every solve ends in the canonical form of a solve that covers its producers, whatever it copied;
so a seeded solve and a cold one end alike (`solveSeededFresh_eq_cold`).  `pdInputDigests` are
digests whose equality means equal inputs (`pdInputDigests_match`).
-/
import AlSem.L4.PdCopy

namespace AlSem.L4

open AlSem.Model

/-! ## 1. Every solve is canonical -/

section Solve

variable {D : Type} [DecidableEq D] {old new rev : PdRevision} {producers oldProducers : List Producer}

/-- What a solve ends with. -/
structure EndsIn (rev : PdRevision) (producers : List Producer) (out : PdSolved) : Prop where
  exists_raw : ∃ raw : RawSolve, raw.producers = producers ∧ raw.Covers rev ∧
    (out.arena, out.resolved) = finalize raw

/-- No producers have nothing to cover. -/
theorem covers_nil (rev : PdRevision) :
    ({ producers := [], states := [], rawLinks := [], edges := [] } : RawSolve).Covers rev where
  lengths := rfl
  edgesNodup := List.nodup_nil
  nodup := List.nodup_nil
  state := fun s => by
    refine ⟨fun hs => absurd hs List.not_mem_nil, ?_⟩
    rintro ⟨-, _, _, _, hprod, -⟩
    simp at hprod
  link := by simp
  linkEdge := by simp
  used := by simp

/-- **A solve ends**, once what it copies is covered. -/
theorem solveSeededFresh_endsIn {reuse : Option (PdReuse D)}
    (hcopy : ∃ st n S, copyReused rev producers reuse = some (st, n) ∧ st.Covers rev producers S ∧
      ∀ p < producers.length, (st.copied.getD p none).isSome = true ↔ p ∈ S) :
    ∃ out, solveSeededFresh rev producers reuse = some out ∧ EndsIn rev producers out := by
  unfold solveSeededFresh
  split
  · rename_i hempty
    obtain rfl := List.isEmpty_iff.mp hempty
    exact ⟨_, rfl, ⟨_, rfl, covers_nil rev, rfl⟩⟩
  · obtain ⟨st, n, S, hcopied, hcov, hS⟩ := hcopy
    obtain ⟨st', hfresh, huniv⟩ := solveFresh_covers_univ hcov hS
    unfold solveCore
    rw [hcopied, Option.bind_some, hfresh]
    exact ⟨_, rfl, ⟨⟨producers, st'.states, st'.rawLinks, st'.edges⟩, rfl, huniv, rfl⟩⟩

/-- **The cold solve ends.** -/
theorem solveSeededFresh_cold (D : Type) [DecidableEq D] (rev : PdRevision) (producers : List Producer) :
    ∃ out, solveSeededFresh rev producers (none : Option (PdReuse D)) = some out ∧
      EndsIn rev producers out := by
  refine solveSeededFresh_endsIn ⟨_, _, ∅, rfl, Covered.start rev producers, fun p hp => ?_⟩
  rw [List.getD_eq_getElem?_getD, List.getElem?_map, List.getElem?_eq_getElem hp]
  simp

/-- **The seeded solve ends**, when the old arena is canonical. -/
theorem solveSeededFresh_seeded {reuse : PdReuse D} {ids : List (String × TypedOutEdge)}
    (hcanon : Canonical old ids reuse.old) (hdig : DigestsMatch old new reuse)
    (producers : List Producer) :
    ∃ out, solveSeededFresh new producers (some reuse) = some out ∧ EndsIn new producers out := by
  obtain ⟨st, n, S, hcopied, hcov, hS, -⟩ := copyReused_covers hcanon hdig producers
  exact solveSeededFresh_endsIn ⟨st, n, S, hcopied, hcov, hS⟩

theorem EndsIn.canonical {out : PdSolved} (h : EndsIn rev producers out) :
    ∃ ids, Canonical rev ids out.arena := by
  obtain ⟨raw, -, hcov, heq⟩ := h.exists_raw
  obtain ⟨harena, -⟩ := Prod.mk.inj heq
  exact ⟨raw.canonEdges, harena ▸ RawSolve.finalize_canonical hcov⟩

/-- Solves of one revision and one producer list end alike. -/
theorem EndsIn.unique {out out' : PdSolved} (h : EndsIn rev producers out)
    (h' : EndsIn rev producers out') : out.arena = out'.arena ∧ out.resolved = out'.resolved := by
  obtain ⟨raw, hraw, hcov, heq⟩ := h.exists_raw
  obtain ⟨raw', hraw', hcov', heq'⟩ := h'.exists_raw
  have hplaced : raw.placed = raw'.placed := by
    unfold RawSolve.placed
    rw [hraw, hraw']
  have hfin := RawSolve.finalize_eq hcov hcov' hplaced
  rw [← heq, ← heq'] at hfin
  exact Prod.mk.inj hfin

/-! ## 2. Seeded and cold -/

/-- **The arenas solves leave**: cold ones, and seeded ones whose seed is such an arena and whose
digests tell the change. -/
inductive SolvedArena (D : Type) [DecidableEq D] : PdRevision → ConeArena → Prop
  | cold {rev : PdRevision} {producers : List Producer} {out : PdSolved} :
    solveSeededFresh rev producers (none : Option (PdReuse D)) = some out →
    SolvedArena D rev out.arena
  | seeded {old new : PdRevision} {producers : List Producer} {reuse : PdReuse D} {out : PdSolved} :
    SolvedArena D old reuse.old → DigestsMatch old new reuse →
    solveSeededFresh new producers (some reuse) = some out → SolvedArena D new out.arena

/-- **Run**: every arena a chain of solves leaves is canonical. -/
theorem SolvedArena.canonical {a : ConeArena} (h : SolvedArena D rev a) :
    ∃ ids, Canonical rev ids a := by
  induction h with
  | cold hsolve =>
    obtain ⟨out, hout, hend⟩ := solveSeededFresh_cold D _ _
    obtain rfl := Option.some.inj (hsolve.symm.trans hout)
    exact hend.canonical
  | seeded _ hdig hsolve ih =>
    obtain ⟨ids, hcanon⟩ := ih
    obtain ⟨out, hout, hend⟩ := solveSeededFresh_seeded hcanon hdig _
    obtain rfl := Option.some.inj (hsolve.symm.trans hout)
    exact hend.canonical

/-- **The seeded solve equals the cold one**, index for index. -/
theorem solveSeededFresh_eq_cold (old new : PdRevision) (producers : List Producer)
    (reuse : PdReuse D) (hold : SolvedArena D old reuse.old) (hdig : DigestsMatch old new reuse) :
    ∃ warm cold, solveSeededFresh new producers (some reuse) = some warm ∧
      solveSeededFresh new producers (none : Option (PdReuse D)) = some cold ∧
      warm.arena = cold.arena ∧ warm.resolved = cold.resolved := by
  obtain ⟨ids, hcanon⟩ := hold.canonical
  obtain ⟨warm, hwarm, hwend⟩ := solveSeededFresh_seeded hcanon hdig producers
  obtain ⟨cold, hcold, hcend⟩ := solveSeededFresh_cold D new producers
  exact ⟨warm, cold, hwarm, hcold, hwend.unique hcend⟩

end Solve

/-! ## 3. The digests -/

/-- A guard frame as it is hashed: its sites sorted. -/
structure FrameInput where
  usable : List ℕ
  sites : List (String × List Req)
  deriving DecidableEq

/-- What is hashed of a routine: its rows in model order, its guard frame, its out-edges. -/
abbrev PdInput := List ModelRoutine × Option FrameInput × Option (List TypedOutEdge)

/-- The frame with its sites sorted. -/
def frameInput (f : FrameGuards) : FrameInput where
  usable := f.usable
  sites := (f.bySite.entries.map fun e => (e.1, e.2)).mergeSort fun a b => (compare a.1 b.1).isLE

/-- The solve inputs of a routine. -/
def pdInput (g : TypedEdgeGraph) (routines : List ModelRoutine) (frames : HashMap String FrameGuards)
    (id : String) : PdInput :=
  (routines.filter fun r => r.id = id, (frames.lookup id).map frameInput, g.outgoing.lookup id)

/-- Each routine's solve inputs, hashed. -/
def pdInputDigests {D : Type} (hash : PdInput → D) (g : TypedEdgeGraph) (routines : List ModelRoutine)
    (frames : HashMap String FrameGuards) : HashMap String D :=
  ((routines.map ModelRoutine.id ++ g.nodes).map fun id =>
    (⟨id, hash (pdInput g routines frames id)⟩ : Σ _ : String, D)).toAList

/-- The revision made of a graph, rows and frames; of several rows of one id the last counts. -/
def revisionOf (g : TypedEdgeGraph) (routines : List ModelRoutine)
    (frames : HashMap String FrameGuards) : PdRevision where
  graph := g
  routinesById := fun id => routines.reverse.find? fun r => r.id = id
  frames := frames.lookup

theorem lookup_pdInputDigests {D : Type} (hash : PdInput → D) (g : TypedEdgeGraph)
    (routines : List ModelRoutine) (frames : HashMap String FrameGuards) (id : String) :
    (pdInputDigests hash g routines frames).lookup id =
      if id ∈ routines.map ModelRoutine.id ++ g.nodes then some (hash (pdInput g routines frames id))
      else none := by
  unfold pdInputDigests
  rw [AList.lookup_to_alist]
  generalize routines.map ModelRoutine.id ++ g.nodes = ids
  induction ids with
  | nil => rfl
  | cons x ids ih =>
    by_cases hx : id = x
    · subst hx
      simp
    · rw [List.map_cons, List.dlookup_cons_ne _ _ hx, ih]
      simp [hx]

/-- Frames hashed alike state the same. -/
theorem sameFrame_of_frameInput {f f' : Option FrameGuards}
    (h : f.map frameInput = f'.map frameInput) : SameFrame f f' := by
  cases f <;> cases f' <;> simp only [Option.map_none, Option.map_some, reduceCtorEq,
    Option.some.injEq] at h
  · exact ⟨rfl, fun _ => rfl⟩
  · rename_i f f'
    obtain ⟨husable, hsites⟩ := FrameInput.mk.inj h
    refine ⟨congrArg some husable, fun site => Option.ext fun reqs => ?_⟩
    have hperm := (List.mergeSort_perm _ _).symm.trans
      ((List.Perm.of_eq hsites).trans (List.mergeSort_perm _ _))
    have hmem := hperm.mem_iff (a := (site, reqs))
    have hentry : ∀ m : HashMap String (List Req), (site, reqs) ∈ m.entries.map (fun e => (e.1, e.2)) ↔
        m.lookup site = some reqs := by
      intro m
      rw [List.mem_map]
      constructor
      · rintro ⟨e, he, heq⟩
        obtain ⟨rfl, rfl⟩ := Prod.mk.inj heq
        exact AList.mem_lookup_iff.mpr he
      · intro hl
        exact ⟨⟨site, reqs⟩, AList.mem_lookup_iff.mp hl, rfl⟩
    simp only [Option.bind_some]
    rw [← hentry, ← hentry]
    exact hmem

/-- What a graph, rows and frames say of the routines outside the digests is nothing. -/
structure Digested (g : TypedEdgeGraph) (routines : List ModelRoutine)
    (frames : HashMap String FrameGuards) : Prop where
  outgoing : ∀ id, (g.outgoing.lookup id).isSome → id ∈ g.nodes
  frame : ∀ id, (frames.lookup id).isSome → id ∈ routines.map ModelRoutine.id

/-- **Equal digests mean equal inputs**, when the hash has no collision. -/
theorem pdInputDigests_match {D : Type} [DecidableEq D] {hash : PdInput → D}
    (hinj : Function.Injective hash) {g g' : TypedEdgeGraph} {routines routines' : List ModelRoutine}
    {frames frames' : HashMap String FrameGuards} (h : Digested g routines frames)
    (h' : Digested g' routines' frames') (a : ConeArena) :
    DigestsMatch (revisionOf g routines frames) (revisionOf g' routines' frames')
      { old := a
        oldDigests := pdInputDigests hash g routines frames
        newDigests := pdInputDigests hash g' routines' frames' } := by
  -- a routine outside the digests has no row, no frame and no out-edges
  have hnone : ∀ {g : TypedEdgeGraph} {routines : List ModelRoutine}
      {frames : HashMap String FrameGuards}, Digested g routines frames → ∀ id,
      id ∉ routines.map ModelRoutine.id ++ g.nodes → pdInput g routines frames id = ([], none, none) := by
    intro g routines frames h id hid
    have hrows : (routines.filter fun r => r.id = id) = [] := by
      rw [List.filter_eq_nil_iff]
      intro r hr heq
      exact hid (List.mem_append_left _ (List.mem_map.mpr ⟨r, hr, by simpa using heq⟩))
    have hframe : frames.lookup id = none := by
      by_contra hsome
      exact hid (List.mem_append_left _ (h.frame id (Option.isSome_iff_ne_none.mpr hsome)))
    have hout : g.outgoing.lookup id = none := by
      by_contra hsome
      exact hid (List.mem_append_right _ (h.outgoing id (Option.isSome_iff_ne_none.mpr hsome)))
    rw [pdInput, hrows, hframe, hout]
    rfl
  intro id hlookup
  simp only [lookup_pdInputDigests] at hlookup
  have hinput : pdInput g routines frames id = pdInput g' routines' frames' id := by
    split at hlookup
    · split at hlookup
      · exact hinj (Option.some.inj hlookup)
      · simp at hlookup
    · rename_i hid
      split at hlookup
      · simp at hlookup
      · rename_i hid'
        rw [hnone h id hid, hnone h' id hid']
  obtain ⟨hrows, hrest⟩ := Prod.mk.inj hinput
  obtain ⟨hframe, hout⟩ := Prod.mk.inj hrest
  refine ⟨?_, sameFrame_of_frameInput hframe, ?_⟩
  · show (routines.reverse.find? fun r => r.id = id) = routines'.reverse.find? fun r => r.id = id
    rw [← List.getLast?_filter, ← List.getLast?_filter, hrows]
  · intro e
    show e ∈ (g.outgoing.lookup id).getD [] ↔ e ∈ (g'.outgoing.lookup id).getD []
    rw [hout]

/-! ## 4. A revision that gains a caller elsewhere -/

/-- `a` modifies the record it is passed. -/
def modifiedByCallee : Producer where
  fact :=
    { subject := "a", op := "modify", resourceKind := "table", resourceId := some "T"
      confidence := "high", provenance := "direct", via := "direct"
      witnessOperationId := some "a/op0"
      extra := some (.table none
        (some { kind := "parameter-dependent", parameterIndex := some 0 }) none) }
  owner := "a"
  operationId := "a/op0"
  pd := rfl

/-- `b` passes its own temporary record. -/
def temporaryCaller : ModelRoutine :=
  { id := "b"
    callSites :=
      [{ id := "b/cs0"
         argumentBindings :=
          [{ parameterIndex := 0, sourceKind := "record"
             sourceTempState := some { kind := "known", value := some true } }] }] }

/-- `b` calls `a`. -/
def calleeGraph : TypedEdgeGraph where
  nodes := ["a", "b"]
  outgoing := ⟨[⟨"b", [.new "a" "direct-call" (some "b/cs0") none none]⟩], by simp [List.NodupKeys]⟩

/-- And `c` calls `d`. -/
def grownGraph : TypedEdgeGraph where
  nodes := ["a", "b", "c", "d"]
  outgoing := ⟨[⟨"b", [.new "a" "direct-call" (some "b/cs0") none none]⟩,
    ⟨"c", [.new "d" "direct-call" (some "c/cs0") none none]⟩], by simp [List.NodupKeys]⟩

/-- The arena of the smaller graph. -/
def calleeArena : ConeArena :=
  ((solveSeededFresh (revisionOf calleeGraph [temporaryCaller] ∅) [modifiedByCallee]
    (none : Option (PdReuse PdInput))).map PdSolved.arena).getD ConeArena.empty

/-- The digests of both graphs, unhashed. -/
def grownReuse : PdReuse PdInput where
  old := calleeArena
  oldDigests := pdInputDigests id calleeGraph [temporaryCaller] ∅
  newDigests := pdInputDigests id grownGraph [temporaryCaller] ∅

theorem calleeArena_solved :
    SolvedArena PdInput (revisionOf calleeGraph [temporaryCaller] ∅) calleeArena := by
  obtain ⟨out, hout, -⟩ := solveSeededFresh_cold PdInput
    (revisionOf calleeGraph [temporaryCaller] ∅) [modifiedByCallee]
  have harena : calleeArena = out.arena := by
    unfold calleeArena
    rw [hout]
    rfl
  rw [harena]
  exact .cold hout

theorem grownReuse_solved : ∃ warm cold,
    solveSeededFresh (revisionOf grownGraph [temporaryCaller] ∅) [modifiedByCallee]
      (some grownReuse) = some warm ∧
    solveSeededFresh (revisionOf grownGraph [temporaryCaller] ∅) [modifiedByCallee]
      (none : Option (PdReuse PdInput)) = some cold ∧
    warm.arena = cold.arena ∧ warm.resolved = cold.resolved := by
  have hcallee : Digested calleeGraph [temporaryCaller] ∅ :=
    ⟨fun id hid => by
      have : id = "b" := by simpa [AList.lookup_isSome, calleeGraph, AList.mem_keys, AList.keys] using hid
      simp [this, calleeGraph], by simp⟩
  have hgrown : Digested grownGraph [temporaryCaller] ∅ :=
    ⟨fun id hid => by
      have : id = "b" ∨ id = "c" := by
        simpa [AList.lookup_isSome, grownGraph, AList.mem_keys, AList.keys] using hid
      rcases this with rfl | rfl <;> simp [grownGraph], by simp⟩
  exact solveSeededFresh_eq_cold (revisionOf calleeGraph [temporaryCaller] ∅)
    (revisionOf grownGraph [temporaryCaller] ∅) [modifiedByCallee] grownReuse calleeArena_solved
    (pdInputDigests_match Function.injective_id hcallee hgrown calleeArena)

end AlSem.L4
