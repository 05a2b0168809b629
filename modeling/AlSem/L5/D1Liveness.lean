/-
# Live parameters

`l5/d1_liveness.rs`: a node of the compact graph needs the parameters its terminals read, and the
parameters that a needed parameter of a callee copies.  The need is found by sweeping over all
edges until nothing changes; then every edge is compiled into one transfer per needed parameter
of the callee, a constant or the copy of a slot of the caller.

Running the transfers over the needed slots gives what the forward vectors have at those slots,
on every path of the graph, cycles included (`crossEdges_eq`).  A slot is a 16-bit number: a node
with more live parameters than that reads a wrong one (`slotOf_wraps`).
-/
import AlSem.L5.ParamTemp
import AlSem.Lib.ListOption
import Mathlib.Algebra.BigOperators.Group.Finset.Basic
import Mathlib.Algebra.Order.BigOperators.Group.Finset
import Mathlib.Data.Fintype.BigOperators
import Mathlib.Order.Interval.Finset.Nat

namespace AlSem.L5

open AlSem.Model AlSem.L4

/-! ## 1. The graph -/

/-- A call edge of the compact graph. -/
structure D1Edge (n : ℕ) where
  «to» : Fin n
  kind : String
  callsiteId : Option String := none
  bindingOk : Bool
  /-- Built from the kind. -/
  bindingOk_eq : bindingOk = edgeKindBindingOk kind

/-- The compact graph on `n` nodes. -/
structure D1Graph (n : ℕ) where
  nodeIds : Fin n → String
  edges : Fin n → List (D1Edge n)
  /-- The operations that a walk may end at. -/
  terminals : Fin n → List ModelRecordOperation

/-- What an edge does to one needed parameter of the callee. -/
inductive ParamTransfer where
  | const (v : ParamTemp)
  | copy (callerSlot : ℕ)
  deriving DecidableEq, Repr

/-- The same before the caller's slots are known. -/
inductive EdgeParamOutcome where
  | const (v : ParamTemp)
  | copy (param : ℕ)
  deriving DecidableEq, Repr

/-- The parameter an operation's answer reads. -/
def terminalReadIndex (op : ModelRecordOperation) : Option ℕ :=
  match opKind op with
  | .parameterDependent i => some i
  | _ => none

section

variable {n : ℕ} (routineById : HashMap String ModelRoutine) (cw : ProvenParams) (g : D1Graph n)

def classifyEdgeParam (caller : ModelRoutine) (edge : D1Edge n) (calleeId : String) (p : ℕ) :
    EdgeParamOutcome :=
  if (calleeId, p) ∈ cw then .const .temp
  else if !edge.bindingOk then .const .unknown
  else
    match stepOneFrame (some caller) edge.callsiteId p (some edge.kind) with
    | .known true => .const .temp
    | .known false => .const .physical
    | .parameterDependent j => .copy j
    | .unknown => .const .unknown

/-! ## 2. The sweeps -/

/-- The needed parameters of every node. -/
abbrev Need (n : ℕ) := Fin n → Finset ℕ

/-- What the terminals read. -/
def initNeed : Need n := fun a => ((g.terminals a).filterMap terminalReadIndex).toFinset

/-- Need one more parameter; the flag says that something changed. -/
def insertNeed (a : Fin n) (s : Need n × Bool) (j : ℕ) : Need n × Bool :=
  if j ∈ s.1 a then s else (Function.update s.1 a (insert j (s.1 a)), true)

/-- One needed parameter of a callee. -/
def visitParam (caller : ModelRoutine) (a : Fin n) (edge : D1Edge n) (s : Need n × Bool) (p : ℕ) :
    Need n × Bool :=
  match classifyEdgeParam cw caller edge (g.nodeIds edge.to) p with
  | .copy j => insertNeed a s j
  | .const _ => s

/-- One edge: every parameter its callee needs at this moment. -/
def visitEdge (caller : ModelRoutine) (a : Fin n) (s : Need n × Bool) (edge : D1Edge n) :
    Need n × Bool :=
  ((s.1 edge.to).sort (· ≤ ·)).foldl (visitParam cw g caller a edge) s

/-- One node; a node without a routine is skipped. -/
def sweepNode (s : Need n × Bool) (a : Fin n) : Need n × Bool :=
  match routineById.lookup (g.nodeIds a) with
  | none => s
  | some caller => (g.edges a).foldl (visitEdge cw g caller a) s

def sweep (need : Need n) : Need n × Bool :=
  (List.finRange n).foldl (sweepNode routineById cw g) (need, false)

/-- Sweep until nothing changes. -/
def needLoop : ℕ → Need n → Option (Need n)
  | 0, _ => none
  | fuel + 1, need =>
    if (sweep routineById cw g need).2 then needLoop fuel (sweep routineById cw g need).1
    else some (sweep routineById cw g need).1

/-! ## 3. The compiled tables -/

/-- A node's live parameters, in order. -/
def needVec (need : Need n) (a : Fin n) : List ℕ := (need a).sort (· ≤ ·)

/-- The slot of a live parameter, cut to 16 bits. -/
def slotOf (need : Need n) (a : Fin n) (p : ℕ) : Option ℕ :=
  ((needVec need a).idxOf? p).map (· % 2 ^ 16)

/-- One transfer; `none` where a copied parameter has no slot. -/
def compileParam (need : Need n) (a : Fin n) (edge : D1Edge n) (p : ℕ) : Option ParamTransfer :=
  match routineById.lookup (g.nodeIds a) with
  | none => some (.const .unknown)
  | some caller =>
    match classifyEdgeParam cw caller edge (g.nodeIds edge.to) p with
    | .const v => some (.const v)
    | .copy j => (slotOf need a j).map .copy

/-- One node's transfers, an edge at a time, in the order of the callee's slots. -/
def compileNode (need : Need n) (a : Fin n) : Option (List (List ParamTransfer)) :=
  (g.edges a).mapM fun edge =>
    (needVec need edge.to).mapM (compileParam routineById cw g need a edge)

/-- The slot a terminal reads, if it reads one. -/
def compileRead (need : Need n) (a : Fin n) (op : ModelRecordOperation) : Option (Option ℕ) :=
  match terminalReadIndex op with
  | none => some none
  | some i => (slotOf need a i).map some

structure Liveness (n : ℕ) where
  need : Fin n → List ℕ
  slotOf : Fin n → ℕ → Option ℕ
  edgeTransfers : List (List (List ParamTransfer))
  terminalReads : List (List (Option ℕ))

/-- The transfers of the `k`-th edge of a node. -/
def Liveness.transfersAt {n : ℕ} (live : Liveness n) (a : Fin n) (k : ℕ) :
    Option (List ParamTransfer) :=
  live.edgeTransfers[a.val]?.bind fun edges => edges[k]?

/-- The slot that the `t`-th terminal of a node reads. -/
def Liveness.readAt {n : ℕ} (live : Liveness n) (a : Fin n) (t : ℕ) : Option (Option ℕ) :=
  live.terminalReads[a.val]?.bind fun reads => reads[t]?

/-- **The live parameters of a graph**, with the compiled tables. -/
def computeLiveness (fuel : ℕ) : Option (Liveness n) :=
  (needLoop routineById cw g fuel (initNeed g)).bind fun need =>
    ((List.finRange n).mapM (compileNode routineById cw g need)).bind fun edgeTransfers =>
      ((List.finRange n).mapM fun a => (g.terminals a).mapM (compileRead need a)).map
        fun terminalReads =>
          { need := needVec need, slotOf := slotOf need, edgeTransfers, terminalReads }

end

/-! ## 4. What a sweep does -/

section

variable {n : ℕ} {routineById : HashMap String ModelRoutine} {cw : ProvenParams} {g : D1Graph n}

/-- The number of needed parameters, all nodes together. -/
def total (need : Need n) : ℕ := ∑ a, (need a).card

/-- A state moves to itself, or up with the flag set. -/
structure Moves (s s' : Need n × Bool) : Prop where
  sub : ∀ a, s.1 a ⊆ s'.1 a
  same_or : s' = s ∨ s'.2 = true ∧ total s.1 < total s'.1

theorem Moves.refl (s : Need n × Bool) : Moves s s := ⟨fun _ => Finset.Subset.refl _, Or.inl rfl⟩

theorem Moves.trans {s t u : Need n × Bool} (h : Moves s t) (h' : Moves t u) : Moves s u := by
  refine ⟨fun a => (h.sub a).trans (h'.sub a), ?_⟩
  rcases h'.same_or with rfl | ⟨hu, htu⟩
  · exact h.same_or
  · refine Or.inr ⟨hu, lt_of_le_of_lt ?_ htu⟩
    exact Finset.sum_le_sum fun a _ => Finset.card_le_card (h.sub a)

/-- With the flag down nothing has moved. -/
theorem Moves.eq_of_false {s s' : Need n × Bool} (h : Moves s s') (hf : s'.2 = false) :
    s' = s := by
  rcases h.same_or with heq | ⟨ht, -⟩
  · exact heq
  · rw [hf] at ht
    exact absurd ht Bool.false_ne_true

theorem moves_foldl {β : Type} {f : Need n × Bool → β → Need n × Bool}
    (hf : ∀ s b, Moves s (f s b)) (l : List β) (s : Need n × Bool) : Moves s (l.foldl f s) := by
  induction l generalizing s with
  | nil => exact Moves.refl s
  | cons b l ih => exact (hf s b).trans (ih (f s b))

/-- A loop that ends with the flag down did nothing at any step. -/
theorem step_eq_of_foldl_false {β : Type} {f : Need n × Bool → β → Need n × Bool}
    (hf : ∀ s b, Moves s (f s b)) {l : List β} {s : Need n × Bool}
    (h : (l.foldl f s).2 = false) : ∀ b ∈ l, f s b = s := by
  induction l generalizing s with
  | nil => exact nofun
  | cons b l ih =>
    rw [List.foldl_cons] at h
    have hrest := (moves_foldl hf l (f s b)).eq_of_false h
    have hfirst : f s b = s := (hf s b).eq_of_false (by rw [← hrest]; exact h)
    intro c hc
    rcases List.mem_cons.mp hc with rfl | hc
    · exact hfirst
    · rw [hfirst] at h
      exact ih h c hc

theorem moves_insertNeed (a : Fin n) (s : Need n × Bool) (j : ℕ) :
    Moves s (insertNeed a s j) := by
  unfold insertNeed
  split_ifs with hj
  · exact Moves.refl s
  · have hsub : ∀ b, s.1 b ⊆ Function.update s.1 a (insert j (s.1 a)) b := by
      intro b
      by_cases hb : b = a
      · subst hb
        rw [Function.update_self]
        exact Finset.subset_insert _ _
      · rw [Function.update_of_ne hb]
    refine ⟨hsub, Or.inr ⟨rfl, ?_⟩⟩
    refine Finset.sum_lt_sum (fun b _ => Finset.card_le_card (hsub b)) ⟨a, Finset.mem_univ a, ?_⟩
    dsimp only
    rw [Function.update_self, Finset.card_insert_of_notMem hj]
    exact Nat.lt_succ_self _

theorem moves_visitParam (caller : ModelRoutine) (a : Fin n) (edge : D1Edge n) (s : Need n × Bool)
    (p : ℕ) : Moves s (visitParam cw g caller a edge s p) := by
  unfold visitParam
  split
  · exact moves_insertNeed a s _
  · exact Moves.refl s

theorem moves_visitEdge (caller : ModelRoutine) (a : Fin n) (s : Need n × Bool)
    (edge : D1Edge n) : Moves s (visitEdge cw g caller a s edge) :=
  moves_foldl (moves_visitParam caller a edge) _ s

theorem moves_sweepNode (s : Need n × Bool) (a : Fin n) :
    Moves s (sweepNode routineById cw g s a) := by
  unfold sweepNode
  split
  · exact Moves.refl s
  · exact moves_foldl (moves_visitEdge _ a) _ s

theorem moves_sweep (routineById : HashMap String ModelRoutine) (cw : ProvenParams) (g : D1Graph n)
    (need : Need n) : Moves (need, false) (sweep routineById cw g need) :=
  moves_foldl moves_sweepNode _ _

/-- The need is complete: it has what the terminals read, and what is copied into it. -/
structure NeedSettled (routineById : HashMap String ModelRoutine) (cw : ProvenParams) (g : D1Graph n)
    (need : Need n) : Prop where
  read : ∀ a, ∀ op ∈ g.terminals a, ∀ i, terminalReadIndex op = some i → i ∈ need a
  copied : ∀ a caller, routineById.lookup (g.nodeIds a) = some caller → ∀ edge ∈ g.edges a,
    ∀ p ∈ need edge.to, ∀ j,
      classifyEdgeParam cw caller edge (g.nodeIds edge.to) p = .copy j → j ∈ need a

/-- **A sweep that changes nothing has found every copied parameter.** -/
theorem copied_of_sweep {need : Need n} (h : (sweep routineById cw g need).2 = false) {a : Fin n}
    {caller : ModelRoutine} (hcaller : routineById.lookup (g.nodeIds a) = some caller)
    {edge : D1Edge n} (hedge : edge ∈ g.edges a) {p j : ℕ} (hp : p ∈ need edge.to)
    (hj : classifyEdgeParam cw caller edge (g.nodeIds edge.to) p = .copy j) : j ∈ need a := by
  have hnode : sweepNode routineById cw g (need, false) a = (need, false) :=
    step_eq_of_foldl_false moves_sweepNode h a (List.mem_finRange a)
  have hvisit : visitEdge cw g caller a (need, false) edge = (need, false) := by
    refine step_eq_of_foldl_false (moves_visitEdge caller a) ?_ edge hedge
    unfold sweepNode at hnode
    rw [hcaller] at hnode
    exact congrArg Prod.snd hnode
  have hparam : visitParam cw g caller a edge (need, false) p = (need, false) := by
    refine step_eq_of_foldl_false (moves_visitParam caller a edge) ?_ p
      ((Finset.mem_sort (· ≤ ·)).mpr hp)
    exact congrArg Prod.snd hvisit
  unfold visitParam insertNeed at hparam
  rw [hj] at hparam
  dsimp only at hparam
  split_ifs at hparam with hmem
  · exact hmem
  · exact absurd (congrArg Prod.snd hparam) (by simp)

theorem needLoop_spec {fuel : ℕ} {need need' : Need n}
    (h : needLoop routineById cw g fuel need = some need') :
    (∀ a, need a ⊆ need' a) ∧ (sweep routineById cw g need').2 = false := by
  induction fuel generalizing need with
  | zero => exact absurd h nofun
  | succ fuel ih =>
    have hmoves := moves_sweep routineById cw g need
    unfold needLoop at h
    split_ifs at h with hc
    · obtain ⟨hsub, hquiet⟩ := ih h
      exact ⟨fun a => (hmoves.sub a).trans (hsub a), hquiet⟩
    · obtain rfl := Option.some.inj h
      have hflag : (sweep routineById cw g need).2 = false := by simpa using hc
      have hsame := hmoves.eq_of_false hflag
      refine ⟨hmoves.sub, ?_⟩
      rw [hsame]
      exact hflag

/-! ## 5. The sweeps end -/

/-- Every index a sweep can meet. -/
def indexes (routineById : HashMap String ModelRoutine) (g : D1Graph n) : Finset ℕ :=
  Finset.univ.biUnion fun a =>
    initNeed g a ∪
      (((routineById.lookup (g.nodeIds a)).map rowPdIndices).getD []).toFinset

theorem stepOneFrame_mem {caller : ModelRoutine} {csId : Option String} {p j : ℕ}
    {kind : Option String}
    (h : stepOneFrame (some caller) csId p kind = .parameterDependent j) :
    j ∈ rowPdIndices caller := by
  have hkind : ∀ {t : TempState}, t.toKind = .parameterDependent j → t = .parameterDependent j := by
    intro t ht
    cases t with
    | known b => exact absurd ht nofun
    | unknown => exact absurd ht nofun
    | parameterDependent i => exact congrArg _ (TempStateKind.parameterDependent.inj ht)
  cases csId with
  | none => exact absurd h nofun
  | some csId =>
    unfold stepOneFrame at h
    dsimp only at h
    split_ifs at h
    · exact triggerReceiverTempState_mem (hkind h)
    · split at h
      · exact absurd h nofun
      · rename_i cs hcs
        cases hts : cs.sourceTempStateFor p with
        | none => rw [hts] at h; exact absurd h nofun
        | some ts =>
          rw [hts] at h
          refine mem_rowPdIndices (List.mem_append_right _ ?_) (hkind h)
          exact List.mem_flatMap.mpr ⟨cs, List.mem_of_find?_eq_some hcs, sourceTempStateFor_mem hts⟩

/-- A copied parameter stands in the caller's row. -/
theorem copy_mem {caller : ModelRoutine} {edge : D1Edge n} {calleeId : String} {p j : ℕ}
    (h : classifyEdgeParam cw caller edge calleeId p = .copy j) : j ∈ rowPdIndices caller := by
  unfold classifyEdgeParam at h
  split_ifs at h
  split at h
  · exact absurd h nofun
  · exact absurd h nofun
  · rename_i hstep
    exact EdgeParamOutcome.copy.inj h ▸ stepOneFrame_mem hstep
  · exact absurd h nofun

/-- A need whose indexes all stand in the graph. -/
def Bounded (routineById : HashMap String ModelRoutine) (g : D1Graph n) (s : Need n × Bool) :
    Prop := ∀ a, s.1 a ⊆ indexes routineById g

theorem bounded_insertNeed {s : Need n × Bool} (h : Bounded routineById g s) {a : Fin n} {j : ℕ}
    (hj : j ∈ indexes routineById g) : Bounded routineById g (insertNeed a s j) := by
  unfold insertNeed
  split_ifs
  · exact h
  · intro b
    by_cases hb : b = a
    · subst hb
      dsimp only
      rw [Function.update_self]
      exact Finset.insert_subset hj (h b)
    · dsimp only
      rw [Function.update_of_ne hb]
      exact h b

theorem bounded_foldl {β : Type} {f : Need n × Bool → β → Need n × Bool}
    (hf : ∀ s b, Bounded routineById g s → Bounded routineById g (f s b)) (l : List β)
    {s : Need n × Bool} (h : Bounded routineById g s) :
    Bounded routineById g (l.foldl f s) := by
  induction l generalizing s with
  | nil => exact h
  | cons b l ih => exact ih (hf s b h)

theorem bounded_sweep (cw : ProvenParams) {need : Need n} (h : Bounded routineById g (need, false)) :
    Bounded routineById g (sweep routineById cw g need) := by
  refine bounded_foldl (fun s a hs => ?_) _ h
  unfold sweepNode
  split
  · exact hs
  · rename_i caller hcaller
    refine bounded_foldl (fun s edge hs => ?_) _ hs
    refine bounded_foldl (fun s p hs => ?_) _ hs
    unfold visitParam
    split
    · rename_i j hj
      refine bounded_insertNeed hs (Finset.mem_biUnion.mpr ⟨a, Finset.mem_univ a, ?_⟩)
      refine Finset.mem_union_right _ (List.mem_toFinset.mpr ?_)
      rw [hcaller]
      exact copy_mem hj
    · exact hs

/-- **The sweeps end on every graph.** -/
theorem needLoop_isSome (cw : ProvenParams) (fuel : ℕ) {need : Need n}
    (h : Bounded routineById g (need, false)) (hfuel : n * (indexes routineById g).card < fuel + total need) :
    (needLoop routineById cw g fuel need).isSome := by
  have htotal : ∀ {m : Need n}, Bounded routineById g (m, false) →
      total m ≤ n * (indexes routineById g).card := by
    intro m hm
    calc total m ≤ ∑ _a : Fin n, (indexes routineById g).card :=
          Finset.sum_le_sum fun a _ => Finset.card_le_card (hm a)
      _ = n * (indexes routineById g).card := by simp
  induction fuel generalizing need with
  | zero =>
    have hle := htotal h
    omega
  | succ fuel ih =>
    have hbound := bounded_sweep cw h
    unfold needLoop
    split_ifs with hc
    · refine ih hbound ?_
      rcases (moves_sweep routineById cw g need).same_or with
        heq | ⟨-, hlt⟩
      · rw [heq] at hc
        exact absurd hc Bool.false_ne_true
      · dsimp only at hlt
        omega
    · rfl

theorem bounded_initNeed (routineById : HashMap String ModelRoutine) (g : D1Graph n) :
    Bounded routineById g (initNeed g, false) := fun a =>
  (Finset.subset_union_left).trans
    (Finset.subset_biUnion_of_mem (fun a => initNeed g a ∪
      (((routineById.lookup (g.nodeIds a)).map rowPdIndices).getD []).toFinset)
      (Finset.mem_univ a))

theorem needSettled_of_needLoop {fuel : ℕ} {need : Need n}
    (h : needLoop routineById cw g fuel (initNeed g) = some need) :
    NeedSettled routineById cw g need := by
  obtain ⟨hsub, hquiet⟩ := needLoop_spec h
  refine ⟨fun a op hop i hi => hsub a ?_, fun a caller hcaller edge hedge p hp j hj =>
    copied_of_sweep hquiet hcaller hedge hp hj⟩
  exact List.mem_toFinset.mpr (List.mem_filterMap.mpr ⟨op, hop, hi⟩)

/-! ## 6. The tables of a settled need -/

theorem slotOf_isSome {need : Need n} {a : Fin n} {p : ℕ} (h : p ∈ need a) :
    (slotOf need a p).isSome := by
  rw [slotOf, Option.isSome_map, List.isSome_idxOf?]
  exact (Finset.mem_sort (· ≤ ·)).mpr h

/-- With at most `2 ^ 16` live parameters a slot is the parameter's place. -/
theorem getElem?_slotOf {need : Need n} {a : Fin n} (hsmall : (needVec need a).length ≤ 2 ^ 16)
    {p s : ℕ} (h : slotOf need a p = some s) : (needVec need a)[s]? = some p := by
  obtain ⟨i, hi, rfl⟩ := Option.map_eq_some_iff.mp h
  obtain ⟨hlt, hget, -⟩ := List.idxOf?_eq_some_iff.mp hi
  rw [Nat.mod_eq_of_lt (lt_of_lt_of_le hlt hsmall), List.getElem?_eq_getElem hlt, hget]

theorem compileParam_isSome {need : Need n} (hs : NeedSettled routineById cw g need) {a : Fin n}
    {edge : D1Edge n} (hedge : edge ∈ g.edges a) {p : ℕ} (hp : p ∈ need edge.to) :
    (compileParam routineById cw g need a edge p).isSome := by
  unfold compileParam
  split
  · rfl
  · rename_i caller hcaller
    split
    · rfl
    · rename_i j hj
      rw [Option.isSome_map]
      exact slotOf_isSome (hs.copied a caller hcaller edge hedge p hp j hj)

theorem compileRead_isSome {need : Need n} (hs : NeedSettled routineById cw g need) {a : Fin n}
    {op : ModelRecordOperation} (hop : op ∈ g.terminals a) : (compileRead need a op).isSome := by
  unfold compileRead
  split
  · rfl
  · rename_i i hi
    rw [Option.isSome_map]
    exact slotOf_isSome (hs.read a op hop i hi)

/-- **The liveness of a graph ends**, and no expected slot is missing. -/
theorem computeLiveness_isSome (routineById : HashMap String ModelRoutine) (cw : ProvenParams)
    (g : D1Graph n) :
    ∃ bound, ∀ fuel ≥ bound, (computeLiveness routineById cw g fuel).isSome := by
  refine ⟨n * (indexes routineById g).card + 1, fun fuel hfuel => ?_⟩
  obtain ⟨need, hneed⟩ := Option.isSome_iff_exists.mp
    (needLoop_isSome cw fuel (bounded_initNeed routineById g) (by omega))
  have hs := needSettled_of_needLoop hneed
  have hedges : ((List.finRange n).mapM (compileNode routineById cw g need)).isSome :=
    ListOption.mapM_isSome fun a _ => ListOption.mapM_isSome fun edge hedge => ListOption.mapM_isSome fun p hp =>
      compileParam_isSome hs hedge ((Finset.mem_sort (· ≤ ·)).mp hp)
  have hreads : ((List.finRange n).mapM fun a =>
      (g.terminals a).mapM (compileRead need a)).isSome :=
    ListOption.mapM_isSome fun a _ => ListOption.mapM_isSome fun op hop => compileRead_isSome hs hop
  obtain ⟨ts, hts⟩ := Option.isSome_iff_exists.mp hedges
  obtain ⟨rs, hrs⟩ := Option.isSome_iff_exists.mp hreads
  rw [computeLiveness, hneed, Option.bind_some, hts, Option.bind_some, hrs]
  rfl

/-- What the tables of a graph are compiled from. -/
structure Compiled (routineById : HashMap String ModelRoutine) (cw : ProvenParams) (g : D1Graph n)
    (need : Need n) (live : Liveness n) : Prop where
  settled : NeedSettled routineById cw g need
  need_eq : live.need = needVec need
  transfers : ∀ a k edge, (g.edges a)[k]? = some edge →
    ∃ ts, live.transfersAt a k = some ts ∧
      (needVec need edge.to).mapM (compileParam routineById cw g need a edge) = some ts
  reads : ∀ a t op, (g.terminals a)[t]? = some op →
    ∃ read, live.readAt a t = some read ∧
      compileRead need a op = some read

theorem compiled_of_computeLiveness {fuel : ℕ} {live : Liveness n}
    (h : computeLiveness routineById cw g fuel = some live) :
    ∃ need, Compiled routineById cw g need live := by
  obtain ⟨need, hneed, h⟩ := Option.bind_eq_some_iff.mp h
  obtain ⟨ts, hts, h⟩ := Option.bind_eq_some_iff.mp h
  obtain ⟨rs, hrs, rfl⟩ := Option.map_eq_some_iff.mp h
  have hfin : ∀ a : Fin n, (List.finRange n)[a.val]? = some a := fun a => by simp
  refine ⟨need, needSettled_of_needLoop hneed, rfl, fun a k edge hedge => ?_, fun a t op hop => ?_⟩
  · obtain ⟨node, hnode, hcompiled⟩ := ListOption.getElem?_of_mapM hts (hfin a)
    obtain ⟨transfers, htransfers, hmap⟩ := ListOption.getElem?_of_mapM hcompiled hedge
    exact ⟨transfers, by rw [Liveness.transfersAt, hnode]; exact htransfers, hmap⟩
  · obtain ⟨node, hnode, hcompiled⟩ := ListOption.getElem?_of_mapM hrs (hfin a)
    obtain ⟨read, hread, hmap⟩ := ListOption.getElem?_of_mapM hcompiled hop
    exact ⟨read, by rw [Liveness.readAt, hnode]; exact hread, hmap⟩

/-! ## 7. Running the transfers -/

/-- A transfer over the caller's slots; a slot that is not there is a panic. -/
def applyTransfer (slots : List ParamTemp) : ParamTransfer → Option ParamTemp
  | .const v => some v
  | .copy s => slots[s]?

/-- The live parameters of a state, slot by slot. -/
def project (live : Liveness n) (a : Fin n) (v : TempVec) : List ParamTemp :=
  (live.need a).map (lookup v)

/-- Cross the `k`-th edge of a node. -/
def crossEdge (live : Liveness n) (slots : List ParamTemp) (step : Fin n × ℕ) :
    Option (List ParamTemp) :=
  (live.transfersAt step.1 step.2).bind fun ts => ts.mapM (applyTransfer slots)

/-- Cross the edges of a path. -/
def crossEdges (live : Liveness n) (slots : List ParamTemp) (steps : List (Fin n × ℕ)) :
    Option (List ParamTemp) :=
  steps.foldlM (crossEdge live) slots

/-- A path of the graph from node `a`: its edges, the hops they stand for and its end. -/
inductive GraphPath (routineById : HashMap String ModelRoutine) (g : D1Graph n) (a : Fin n) :
    List (Fin n × ℕ) → List Hop → Fin n → Prop
  | nil : GraphPath routineById g a [] [] a
  | snoc {steps : List (Fin n × ℕ)} {hops : List Hop} {b : Fin n} {k : ℕ} {edge : D1Edge n}
      {caller : ModelRoutine} {callsiteId : String} :
      GraphPath routineById g a steps hops b → (g.edges b)[k]? = some edge →
      routineById.lookup (g.nodeIds b) = some caller → edge.callsiteId = some callsiteId →
      GraphPath routineById g a (steps ++ [(b, k)])
        (hops ++ [⟨caller, callsiteId, g.nodeIds edge.to, edge.kind⟩]) edge.to

theorem lastFrame_graphPath {a b : Fin n} {steps : List (Fin n × ℕ)} {hops : List Hop}
    (h : GraphPath routineById g a steps hops b) :
    lastFrame (g.nodeIds a) hops = g.nodeIds b := by
  cases h with
  | nil => rfl
  | snoc _ _ _ _ => exact lastFrame_append _ _ _

/-- **One transfer is one parameter of `cross_hop`.** -/
theorem applyTransfer_eq {need : Need n} {a : Fin n} {edge : D1Edge n} {caller : ModelRoutine}
    {callsiteId : String} (hcaller : routineById.lookup (g.nodeIds a) = some caller)
    (hcs : edge.callsiteId = some callsiteId) (hbind : Binds caller callsiteId)
    (hsmall : (needVec need a).length ≤ 2 ^ 16) (v : TempVec) {p : ℕ} {t : ParamTransfer}
    (ht : compileParam routineById cw g need a edge p = some t) :
    applyTransfer ((needVec need a).map (lookup v)) t =
      some (lookup (crossHop v caller callsiteId (g.nodeIds edge.to) edge.kind cw) p) := by
  have hok := edge.bindingOk_eq
  rw [lookup_crossHop hbind]
  unfold compileParam at ht
  rw [hcaller] at ht
  dsimp only [classifyEdgeParam] at ht
  by_cases hcw : (g.nodeIds edge.to, p) ∈ cw
  · rw [if_pos hcw] at ht ⊢
    obtain rfl := Option.some.inj ht
    rfl
  rw [if_neg hcw] at ht ⊢
  by_cases hkind : edgeKindBindingOk edge.kind = true
  swap
  · rw [if_pos (by rw [hok]; simpa using hkind)] at ht
    rw [if_neg hkind]
    obtain rfl := Option.some.inj ht
    rfl
  rw [if_neg (by rw [hok]; simpa using hkind), hcs] at ht
  rw [if_pos hkind]
  cases hstep : stepOneFrame (some caller) (some callsiteId) p (some edge.kind) with
  | known b =>
    rw [hstep] at ht
    cases b with
    | true => obtain rfl := Option.some.inj ht; rfl
    | false => obtain rfl := Option.some.inj ht; rfl
  | unknown =>
    rw [hstep] at ht
    obtain rfl := Option.some.inj ht
    rfl
  | parameterDependent j =>
    rw [hstep] at ht
    obtain ⟨s, hs, rfl⟩ := Option.map_eq_some_iff.mp ht
    rw [applyTransfer, List.getElem?_map, getElem?_slotOf hsmall hs]
    rfl

/-- **The transfers along a path keep the projection of the forward state.** -/
theorem crossEdges_eq {need : Need n} {live : Liveness n}
    (hlive : Compiled routineById cw g need live)
    (hsmall : ∀ a, (live.need a).length ≤ 2 ^ 16) {a b : Fin n} {steps : List (Fin n × ℕ)}
    {hops : List Hop} (hpath : GraphPath routineById g a steps hops b)
    (hbind : ∀ h ∈ hops, Binds h.caller h.callsiteId) (v : TempVec) :
    crossEdges live (project live a v) steps = some (project live b (crossHops cw v hops)) := by
  induction hpath with
  | nil => rfl
  | @snoc steps hops b k edge caller callsiteId hpath hedge hcaller hcs ih =>
    have hpre := ih fun h hh => hbind h (List.mem_append_left _ hh)
    obtain ⟨ts, hts, hcompiled⟩ := hlive.transfers b k edge hedge
    rw [crossEdges] at hpre ⊢
    rw [List.foldlM_append, hpre, crossHops_append]
    have hstep : crossEdge live (project live b (crossHops cw v hops)) (b, k) =
        some (project live edge.to (crossHop (crossHops cw v hops) caller callsiteId
          (g.nodeIds edge.to) edge.kind cw)) := by
      have hb := hsmall b
      rw [crossEdge, hts, Option.bind_some, project, project]
      rw [hlive.need_eq] at hb ⊢
      refine ListOption.mapM_mapM hcompiled fun p _ t ht => ?_
      exact applyTransfer_eq hcaller hcs
        (hbind _ (List.mem_append_right _ (List.mem_singleton_self _))) hb _ ht
    simp [hstep]

/-- A terminal's slot holds its answer. -/
theorem read_eq {need : Need n} {live : Liveness n} (hlive : Compiled routineById cw g need live)
    (hsmall : ∀ a, (live.need a).length ≤ 2 ^ 16) {b : Fin n} {v : TempVec}
    (hv : Seeded cw (g.nodeIds b) v) {t : ℕ} {op : ModelRecordOperation}
    (hop : (g.terminals b)[t]? = some op) :
    ∃ read, live.readAt b t = some read ∧
      (read = none ↔ terminalReadIndex op = none) ∧
      ∀ s, read = some s → (project live b v)[s]? = some (resolveTerminal op v (g.nodeIds b) cw) := by
  obtain ⟨read, hread, hcompiled⟩ := hlive.reads b t op hop
  refine ⟨read, hread, ?_, fun s hs => ?_⟩
  · unfold compileRead at hcompiled
    split at hcompiled
    · rename_i hnone
      exact iff_of_true (Option.some.inj hcompiled).symm hnone
    · rename_i i hi
      obtain ⟨s, -, rfl⟩ := Option.map_eq_some_iff.mp hcompiled
      exact iff_of_false (Option.some_ne_none _) (by rw [hi]; exact Option.some_ne_none _)
  · subst hs
    have hb := hsmall b
    unfold compileRead at hcompiled
    split at hcompiled
    · cases hcompiled
    · rename_i i hi
      obtain ⟨s', hs', heq⟩ := Option.map_eq_some_iff.mp hcompiled
      obtain rfl := Option.some.inj heq
      rw [hlive.need_eq] at hb
      have hkind : opKind op = .parameterDependent i := by
        unfold terminalReadIndex at hi
        split at hi
        · rename_i j hj
          rw [hj, Option.some.inj hi]
        · cases hi
      rw [project, hlive.need_eq, List.getElem?_map, getElem?_slotOf hb hs',
        resolveTerminal_eq hv, hkind]
      rfl

end

/-! ## 8. Forward, backward and compiled -/

/-- **The forward composition is the backward resolver, and the compiled transfers run it.**  On
every path whose calls bind each parameter once, and the receiver's index only by the receiver,
the three agree; the liveness ends on every graph, and a node's slots are right as long as it has
no more than `2 ^ 16` of them. -/
theorem paramTemp_exact :
    (∀ (routineById : HashMap String ModelRoutine) (edgeKindByCallsite : HashMap String String)
      (cw : ProvenParams) (root : String) (hops : List Hop) (op : ModelRecordOperation),
      Chained root hops →
      (∀ h ∈ hops, routineById.lookup h.caller.id = some h.caller) →
      (∀ h ∈ hops, edgeKindByCallsite.lookup h.callsiteId = some h.kind) →
      (∀ h ∈ hops, Binds h.caller h.callsiteId) →
      classOf (resolveTempAlongPathClosedWorld routineById edgeKindByCallsite cw
        (evidence root hops) (opKind op)) =
        some (resolveTerminal op (crossHops cw (rootState root cw) hops) (lastFrame root hops)
          cw)) ∧
    ∀ (n : ℕ) (routineById : HashMap String ModelRoutine) (cw : ProvenParams) (g : D1Graph n),
      (∃ bound, ∀ fuel ≥ bound, (computeLiveness routineById cw g fuel).isSome) ∧
      ∀ fuel live, computeLiveness routineById cw g fuel = some live →
        (∀ a, (live.need a).length ≤ 2 ^ 16) →
        ∀ a steps hops b, GraphPath routineById g a steps hops b →
          (∀ h ∈ hops, Binds h.caller h.callsiteId) →
          ∀ v, Seeded cw (g.nodeIds a) v →
            ∃ slots, crossEdges live (project live a v) steps = some slots ∧
              ∀ t op, (g.terminals b)[t]? = some op →
                ∃ read, live.readAt b t = some read ∧
                  (read = none ↔ terminalReadIndex op = none) ∧
                  ∀ s, read = some s →
                    slots[s]? =
                      some (resolveTerminal op (crossHops cw v hops) (g.nodeIds b) cw) := by
  constructor
  · intro routineById kinds cw root hops op hchain htable hkinds hbind
    exact resolveTerminal_eq_backward hchain htable hkinds hbind op
  · intro n routineById cw g
    refine ⟨computeLiveness_isSome routineById cw g, ?_⟩
    intro fuel live hlive hsmall a steps hops b hpath hbind v hv
    obtain ⟨need, hcompiled⟩ := compiled_of_computeLiveness hlive
    refine ⟨project live b (crossHops cw v hops),
      crossEdges_eq hcompiled hsmall hpath hbind v, fun t op hop => ?_⟩
    have hseeded := hv.crossHops hbind
    rw [lastFrame_graphPath hpath] at hseeded
    exact read_eq hcompiled hsmall hseeded hop

/-- A call that binds the receiver's index as an argument, and has no receiver. -/
def receiverArgument : PCallSite where
  id := "A/cs0"
  argumentBindings := [{
    parameterIndex := receiverParamIndex, sourceKind := "variable",
    sourceTempState := some { kind := "known", value := some true } }]

def receiverCaller : ModelRoutine where
  id := "A"
  callSites := [receiverArgument]

/-- An operation on parameter `i`. -/
def opOn (i : ℕ) : ModelRecordOperation where
  id := "R/op"
  op := "Modify"
  tempState := some { kind := "parameter-dependent", parameterIndex := some i }

theorem terminalReadIndex_opOn (i : ℕ) : terminalReadIndex (opOn i) = some i := rfl

/-- One node without edges, whose terminals read the parameters below `count`. -/
def wideGraph (count : ℕ) : D1Graph 1 where
  nodeIds _ := "R"
  edges _ := []
  terminals _ := (List.range count).map opOn

theorem terminals_wideGraph {count i : ℕ} (h : i < count) :
    ((wideGraph count).terminals 0)[i]? = some (opOn i) := by
  rw [wideGraph, List.getElem?_map, List.getElem?_range h, Option.map_some]

theorem mem_terminals_wideGraph {count : ℕ} {op : ModelRecordOperation}
    (h : op ∈ (wideGraph count).terminals 0) : ∃ i < count, op = opOn i := by
  obtain ⟨i, hi, rfl⟩ := List.mem_map.mp h
  exact ⟨i, List.mem_range.mp hi, rfl⟩

/-- The slots of the first `count` parameters hold what the state has of them. -/
theorem getElem?_wide (v : TempVec) {count i : ℕ} (h : i < count) :
    ((needVec (fun _ : Fin 1 => Finset.range count) 0).map (lookup v))[i]? =
      some (lookup v i) := by
  rw [needVec, Finset.sort_range, List.getElem?_map, List.getElem?_range h, Option.map_some]

theorem initNeed_wideGraph (count : ℕ) : initNeed (wideGraph count) = fun _ =>
    Finset.range count := by
  funext a
  have hreads : ((List.range count).map opOn).filterMap terminalReadIndex = List.range count := by
    rw [List.filterMap_map]
    exact List.filterMap_some
  ext i
  simp only [initNeed, wideGraph, hreads, List.mem_toFinset, List.mem_range, Finset.mem_range]

/-- One slot more than 16 bits can name: the last parameter reads the first one's slot. -/
theorem slotOf_wraps (a : Fin 1) :
    slotOf (fun _ => Finset.range (2 ^ 16 + 1)) a (2 ^ 16) = some 0 := by
  have hidx : (List.range (2 ^ 16 + 1)).idxOf? (2 ^ 16) = some (2 ^ 16) := by
    refine List.idxOf?_eq_some_iff.mpr ⟨by rw [List.length_range]; omega, by simp, ?_⟩
    intro j hj
    rw [List.getElem_range]
    omega
  rw [slotOf, needVec, Finset.sort_range, hidx]
  rfl

/-- The first of the wide graph's parameters is proven, the last is not, and the tables give the
last one the slot of the first. -/
theorem computeLiveness_wideGraph :
    ∃ live, computeLiveness ∅ {("R", 0)} (wideGraph (2 ^ 16 + 1)) 1 = some live ∧
      live.readAt 0 (2 ^ 16) = some (some 0) ∧
      (project live 0 (rootState "R" {("R", 0)}))[0]? = some .temp := by
  have hloop : needLoop ∅ {("R", 0)} (wideGraph (2 ^ 16 + 1)) 1
      (initNeed (wideGraph (2 ^ 16 + 1))) = some fun _ => Finset.range (2 ^ 16 + 1) := by
    rw [initNeed_wideGraph]
    rfl
  have hreads : ∀ op ∈ (wideGraph (2 ^ 16 + 1)).terminals 0,
      (compileRead (fun _ : Fin 1 => Finset.range (2 ^ 16 + 1)) 0 op).isSome := by
    intro op hop
    obtain ⟨i, hi, rfl⟩ := mem_terminals_wideGraph hop
    rw [compileRead, terminalReadIndex_opOn]
    dsimp only
    rw [Option.isSome_map]
    exact slotOf_isSome (Finset.mem_range.mpr hi)
  obtain ⟨reads, hmap⟩ := Option.isSome_iff_exists.mp (ListOption.mapM_isSome hreads)
  refine ⟨⟨needVec fun _ => Finset.range (2 ^ 16 + 1),
    slotOf fun _ => Finset.range (2 ^ 16 + 1), [[]], [reads]⟩, ?_, ?_, ?_⟩
  · have hall : (List.finRange 1).mapM (fun a => ((wideGraph (2 ^ 16 + 1)).terminals a).mapM
        (compileRead (fun _ : Fin 1 => Finset.range (2 ^ 16 + 1)) a)) = some [reads] := by
      rw [List.finRange_succ, List.mapM_cons, hmap]
      rfl
    rw [computeLiveness, hloop, Option.bind_some, hall]
    rfl
  · obtain ⟨read, hread, hcompiled⟩ :=
      ListOption.getElem?_of_mapM hmap (terminals_wideGraph (Nat.lt_succ_self (2 ^ 16)))
    rw [compileRead, terminalReadIndex_opOn] at hcompiled
    dsimp only at hcompiled
    rw [slotOf_wraps, Option.map_some] at hcompiled
    rw [Option.some.inj hcompiled]
    exact hread
  · rw [project, getElem?_wide _ (Nat.succ_pos (2 ^ 16)), rootState, lookup_provenEntries,
      if_pos (Finset.mem_singleton_self _)]

/-- **Where they differ**: an argument bound at the receiver's index is temporary forward and
unknown backward, and behind `2 ^ 16` live parameters a terminal reads another one's slot. -/
theorem paramTemp_differs :
    ((∀ cs ∈ receiverCaller.callSites, NamedOnce cs) ∧
      resolveTerminal (opOn receiverParamIndex)
        (crossHops ∅ (rootState "A" ∅) [⟨receiverCaller, "A/cs0", "T", "direct"⟩]) "T" ∅ =
        .temp ∧
      resolveTempAlongPathClosedWorld (AList.insert "A" receiverCaller ∅)
        (AList.insert "A/cs0" "direct" ∅) ∅
        (evidence "A" [⟨receiverCaller, "A/cs0", "T", "direct"⟩])
        (opKind (opOn receiverParamIndex)) = .unknown) ∧
    ∃ live, computeLiveness ∅ {("R", 0)} (wideGraph (2 ^ 16 + 1)) 1 = some live ∧
      ((wideGraph (2 ^ 16 + 1)).terminals 0)[2 ^ 16]? = some (opOn (2 ^ 16)) ∧
      live.readAt 0 (2 ^ 16) = some (some 0) ∧
      (project live 0 (rootState "R" {("R", 0)}))[0]? = some .temp ∧
      resolveTerminal (opOn (2 ^ 16)) (rootState "R" {("R", 0)}) "R" {("R", 0)} = .unknown := by
  refine ⟨⟨?_, ?_, ?_⟩, ?_⟩
  · intro cs hcs
    obtain rfl := List.mem_singleton.mp hcs
    exact List.nodup_singleton _
  · decide +kernel
  · decide
  · obtain ⟨live, hlive, hread, hslot⟩ := computeLiveness_wideGraph
    refine ⟨live, hlive, terminals_wideGraph (Nat.lt_succ_self (2 ^ 16)), hread, hslot, ?_⟩
    have hlast : lookup (rootState "R" {("R", 0)}) (2 ^ 16) = .unknown := by
      rw [rootState, lookup_provenEntries, if_neg (by simp)]
    rw [resolveTerminal_eq (seeded_rootState _ _)]
    exact hlast

end AlSem.L5
