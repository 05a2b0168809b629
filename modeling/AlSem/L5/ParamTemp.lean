/-
# Temp states along a call path, forward and backward

`l5/d1_temp.rs` carries, from the root of a call path to its end, what is known of every
parameter of the frame it is in: `root_state`, then one `cross_hop` a call, then
`resolve_terminal` on the operation.  `l5/path_temp_resolve.rs` goes the other way: it follows
the one parameter the operation depends on from its frame up through the calls.

The two agree on every path (`resolveTerminal_eq_backward`): a hop's forward vector holds, at
every parameter, what the backward step followed by the chase above would say
(`read_crossHop`, `chase_eq`).
-/
import AlSem.L4.BaseSummary
import AlSem.L5.ClosedWorldTemp
import AlSem.Lib.SparseVec

namespace AlSem.L5

open AlSem.Model AlSem.L4

/-! ## 1. Forward -/

/-- The resolved temp-ness of one parameter. -/
inductive ParamTemp where
  | temp
  | physical
  | unknown
  deriving DecidableEq, Repr

/-- Temp-ness by parameter index; an index that is not there is `unknown`. -/
abbrev TempVec := SparseVec ParamTemp

/-- The parameters proven temporary, by routine id. -/
abbrev ProvenParams := Finset ParamKey

def lookup (v : TempVec) (idx : ℕ) : ParamTemp := (v.read idx).getD .unknown

/-- The proven parameters of a routine, each `temp`. -/
def provenEntries (routineId : String) (cw : ProvenParams) : TempVec :=
  SparseVec.const ((cw.filter fun q => q.1 = routineId).image Prod.snd) .temp

/-- The state of the path's root: nobody above it tells more than the proof. -/
def rootState (routineId : String) (cw : ProvenParams) : TempVec := provenEntries routineId cw

/-- The edge kinds that bind parameters. -/
def edgeKindBindingOk (kind : String) : Bool :=
  kind == "direct" || kind == "method" || kind == "implicit-trigger"

/-- What a source is, in the caller's state. -/
def sourceTemp (callerState : TempVec) : TempStateKind → ParamTemp
  | .known true => .temp
  | .known false => .physical
  | .parameterDependent j => lookup callerState j
  | .unknown => .unknown

/-- Bind one parameter, unless it has a value; `unknown` is not stored. -/
def bindParam (out : TempVec) (p : ℕ) (val : ParamTemp) : TempVec :=
  if (out.read p).isSome then out
  else if val ≠ .unknown then out.insert p val
  else out

/-- The kind of a source that may be missing. -/
def sourceKindOf : Option PTempState → TempStateKind
  | some ts => tempStateKind ts
  | none => .unknown

/-- One frame up, for one parameter: the state of what the caller passes. -/
def stepOneFrame (parent : Option ModelRoutine) (callsiteId : Option String) (calleeParam : ℕ)
    (edgeKind : Option String) : TempStateKind :=
  match parent, callsiteId with
  | some parent, some csId =>
    if edgeKind = some "implicit-trigger" then
      -- the call site is the record operation that fires the trigger
      (triggerReceiverTempState parent csId calleeParam).toKind
    else
      match parent.callSites.find? (·.id == csId) with
      | none => .unknown
      | some cs => sourceKindOf (cs.sourceTempStateFor calleeParam)
  | _, _ => .unknown

/-- What a call binds: every argument, then the receiver. -/
def boundParams (cs : PCallSite) : List (ℕ × Option PTempState) :=
  (cs.argumentBindings.map fun b => (b.parameterIndex, b.sourceTempState)) ++
    [(receiverParamIndex, cs.receiverTempState)]

/-- **Cross one hop**, from the caller's state to the callee's. -/
def crossHop (callerState : TempVec) (caller : ModelRoutine) (callsiteId calleeId edgeKind : String)
    (cw : ProvenParams) : TempVec :=
  let out := provenEntries calleeId cw
  if !edgeKindBindingOk edgeKind then out
  else if edgeKind = "implicit-trigger" then
    bindParam out receiverParamIndex (sourceTemp callerState
      (stepOneFrame (some caller) (some callsiteId) receiverParamIndex (some edgeKind)))
  else
    match caller.callSites.find? (·.id == callsiteId) with
    | none => out
    | some cs =>
      (boundParams cs).foldl
        (fun out b => bindParam out b.1 (sourceTemp callerState (sourceKindOf b.2))) out

/-- The kind of an operation's temp state. -/
def opKind (op : ModelRecordOperation) : TempStateKind := sourceKindOf op.tempState

/-- **The answer for an operation**, from the state of its frame. -/
def resolveTerminal (op : ModelRecordOperation) (frameState : TempVec) (ownerId : String)
    (cw : ProvenParams) : ParamTemp :=
  match op.tempState with
  | none => .unknown
  | some ts =>
    match tempStateKind ts with
    | .known true => .temp
    | .known false => .physical
    | .unknown => .unknown
    | .parameterDependent i => if (ownerId, i) ∈ cw then .temp else lookup frameState i

/-! ## 2. Backward -/

/-- A step of a walked path: a hop with its call site, or the terminal. -/
structure EvidenceStep where
  routineId : String
  callsiteId : Option String := none
  deriving DecidableEq, Repr

section

variable (routineById : HashMap String ModelRoutine) (edgeKindByCallsite : HashMap String String)
  (cw : ProvenParams)

/-- The loop of the chase: the state, the frame it is anchored to, and the hops above, innermost
first. -/
def chase : TempStateKind → Option String → List EvidenceStep → TempStateKind
  | .known v, _, _ => .known v
  | .unknown, _, _ => .unknown
  | .parameterDependent i, frame, hops =>
    if frame.any fun f => (f, i) ∈ cw then .known true
    else
      match hops with
      -- the root of the path: no caller tells
      | [] => .unknown
      | hop :: hops =>
        let edgeKind := hop.callsiteId.bind edgeKindByCallsite.lookup
        if !edgeKind.any edgeKindBindingOk then .unknown
        else
          chase (stepOneFrame (routineById.lookup hop.routineId) hop.callsiteId i edgeKind)
            (some hop.routineId) hops

/-- **Resolve a terminal's temp state along its path**, the path from the root to the terminal. -/
def resolveTempAlongPathClosedWorld (path : List EvidenceStep) (terminalState : TempStateKind) :
    TempStateKind :=
  chase routineById edgeKindByCallsite cw terminalState (path.getLast?.map EvidenceStep.routineId)
    (path.filter fun s => s.callsiteId.isSome).reverse

end

/-- A call of a path. -/
structure Hop where
  caller : ModelRoutine
  callsiteId : String
  calleeId : String
  kind : String

/-- The state at the end of a path of hops. -/
def crossHops (cw : ProvenParams) (state : TempVec) (hops : List Hop) : TempVec :=
  hops.foldl (fun s h => crossHop s h.caller h.callsiteId h.calleeId h.kind cw) state

/-- The frame at the end of a path of hops. -/
def lastFrame (root : String) (hops : List Hop) : String :=
  (hops.getLast?.map Hop.calleeId).getD root

/-- Each hop is a call in the frame that the hops before it lead to. -/
def Chained (root : String) (hops : List Hop) : Prop :=
  ∀ pre h post, hops = pre ++ h :: post → h.caller.id = lastFrame root pre

/-- The steps of a path: its hops, then the terminal. -/
def evidence (root : String) (hops : List Hop) : List EvidenceStep :=
  (hops.map fun h => { routineId := h.caller.id, callsiteId := some h.callsiteId }) ++
    [{ routineId := lastFrame root hops }]

/-- The class of a resolved state; a dependent one has none. -/
def classOf : TempStateKind → Option ParamTemp
  | .known true => some .temp
  | .known false => some .physical
  | .unknown => some .unknown
  | .parameterDependent _ => none

/-! ## 3. What one hop binds -/

/-- The bindings of a call name each parameter once. -/
def NamedOnce (cs : PCallSite) : Prop := (cs.argumentBindings.map (·.parameterIndex)).Nodup

/-- And none of them names the index kept for the receiver. -/
def NoReceiver (cs : PCallSite) : Prop :=
  receiverParamIndex ∉ cs.argumentBindings.map (·.parameterIndex)

theorem mem_provenIndexes {routineId : String} {cw : ProvenParams} {i : ℕ} :
    i ∈ (cw.filter fun q => q.1 = routineId).image Prod.snd ↔ (routineId, i) ∈ cw := by
  rw [Finset.mem_image]
  constructor
  · rintro ⟨q, hq, rfl⟩
    obtain ⟨hmem, rfl⟩ := Finset.mem_filter.mp hq
    exact hmem
  · intro h
    exact ⟨(routineId, i), Finset.mem_filter.mpr ⟨h, rfl⟩, rfl⟩

theorem read_provenEntries (routineId : String) (cw : ProvenParams) (i : ℕ) :
    (provenEntries routineId cw).read i = if (routineId, i) ∈ cw then some .temp else none := by
  rw [provenEntries, SparseVec.read_const]
  simp only [mem_provenIndexes]

theorem lookup_provenEntries (routineId : String) (cw : ProvenParams) (i : ℕ) :
    lookup (provenEntries routineId cw) i = if (routineId, i) ∈ cw then .temp else .unknown := by
  rw [lookup, read_provenEntries]
  split_ifs
  · rfl
  · rfl

theorem read_bindParam_ne (out : TempVec) {p j : ℕ} (h : j ≠ p) (val : ParamTemp) :
    (bindParam out p val).read j = out.read j := by
  unfold bindParam
  split_ifs
  · rfl
  · rw [SparseVec.read_insert, if_neg h]
  · rfl

/-- An index that has no value yet gets the bound one. -/
theorem lookup_bindParam_self {out : TempVec} {p : ℕ} (h : out.read p = none) (val : ParamTemp) :
    lookup (bindParam out p val) p = val := by
  unfold bindParam lookup
  rw [h, if_neg (by simp)]
  split_ifs with hv
  · rw [SparseVec.read_insert, if_pos rfl]
    rfl
  · rw [h]
    exact (not_not.mp hv).symm

/-- An index that has a value keeps it. -/
theorem bindParam_of_isSome {out : TempVec} {p : ℕ} (h : (out.read p).isSome = true)
    (val : ParamTemp) : bindParam out p val = out := if_pos h

theorem read_foldl_bindParam (f : Option PTempState → ParamTemp) {p : ℕ}
    {bound : List (ℕ × Option PTempState)} (h : p ∉ bound.map Prod.fst) (out : TempVec) :
    (bound.foldl (fun out b => bindParam out b.1 (f b.2)) out).read p = out.read p := by
  induction bound generalizing out with
  | nil => rfl
  | cons b bound ih =>
    rw [List.map_cons, List.mem_cons, not_or] at h
    obtain ⟨hb, hrest⟩ := h
    rw [List.foldl_cons, ih hrest, read_bindParam_ne out hb]

theorem read_foldl_bindParam_of_isSome (f : Option PTempState → ParamTemp) {p : ℕ}
    (bound : List (ℕ × Option PTempState)) {out : TempVec} (h : (out.read p).isSome = true) :
    (bound.foldl (fun out b => bindParam out b.1 (f b.2)) out).read p = out.read p := by
  induction bound generalizing out with
  | nil => rfl
  | cons b bound ih =>
    have hkeep : (bindParam out b.1 (f b.2)).read p = out.read p := by
      by_cases hb : p = b.1
      · rw [bindParam_of_isSome (hb ▸ h)]
      · exact read_bindParam_ne out hb _
    rw [List.foldl_cons, ih (by rw [hkeep]; exact h), hkeep]

/-- **The bindings of a call, one parameter at a time**, where each is bound once. -/
theorem lookup_foldl_bindParam (f : Option PTempState → ParamTemp) (hf : f none = .unknown) {p : ℕ}
    {bound : List (ℕ × Option PTempState)} (hnd : (bound.map Prod.fst).Nodup) {out : TempVec}
    (hout : out.read p = none) :
    lookup (bound.foldl (fun out b => bindParam out b.1 (f b.2)) out) p =
      f ((bound.find? fun b => b.1 == p).bind Prod.snd) := by
  induction bound generalizing out with
  | nil =>
    rw [List.foldl_nil, lookup, hout]
    exact hf.symm
  | cons b bound ih =>
    rw [List.map_cons, List.nodup_cons] at hnd
    rw [List.foldl_cons]
    by_cases hb : b.1 = p
    · have hrest : p ∉ bound.map Prod.fst := hb ▸ hnd.1
      have hself := lookup_bindParam_self (hb.symm ▸ hout) (f b.2)
      rw [hb] at hself
      rw [lookup, read_foldl_bindParam f hrest, ← lookup, hb, hself]
      simp [hb]
    · rw [ih hnd.2 (by rw [read_bindParam_ne out (Ne.symm hb)]; exact hout)]
      simp [hb]

/-- The bindings of a call hold what the backward step reads. -/
theorem find?_boundParams {cs : PCallSite} (h : NoReceiver cs) (p : ℕ) :
    ((boundParams cs).find? fun b => b.1 == p).bind Prod.snd = cs.sourceTempStateFor p := by
  rw [boundParams, List.find?_append, List.find?_map, PCallSite.sourceTempStateFor]
  by_cases hp : p = receiverParamIndex
  · have hnone : cs.argumentBindings.find? ((fun b => b.1 == p) ∘ fun b : PCallArgumentBinding =>
        (b.parameterIndex, b.sourceTempState)) = none := by
      rw [List.find?_eq_none]
      intro b hb hbp
      exact h (List.mem_map.mpr ⟨b, hb, (eq_of_beq hbp).trans hp⟩)
    rw [hnone, if_pos hp]
    simp [hp]
  · have hsame : cs.argumentBindings.find? ((fun b => b.1 == p) ∘ fun b : PCallArgumentBinding =>
        (b.parameterIndex, b.sourceTempState)) =
        cs.argumentBindings.find? fun b => b.parameterIndex = p := rfl
    rw [hsame, if_neg hp]
    cases cs.argumentBindings.find? fun b => b.parameterIndex = p with
    | none => simp [Ne.symm hp]
    | some b => rfl

/-- The bindings of a call: each parameter once, the receiver's index included. -/
theorem nodup_boundParams {cs : PCallSite} (h : NamedOnce cs) (hr : NoReceiver cs) :
    ((boundParams cs).map Prod.fst).Nodup := by
  rw [boundParams, List.map_append, List.map_map, List.map_singleton]
  refine List.nodup_append.mpr ⟨h, List.nodup_singleton _, fun i hi j hj hij => ?_⟩
  obtain rfl : i = receiverParamIndex := hij.trans (List.mem_singleton.mp hj)
  exact hr hi

/-- The calls of a hop bind as the forward vector assumes. -/
def Binds (caller : ModelRoutine) (callsiteId : String) : Prop :=
  ∀ cs ∈ caller.callSites, cs.id = callsiteId → NamedOnce cs ∧ NoReceiver cs

/-- **One hop, at every parameter**: the proof first, then the edge kind, then the backward step
in the caller's state. -/
theorem lookup_crossHop {caller : ModelRoutine} {callsiteId : String}
    (hbind : Binds caller callsiteId) (state : TempVec) (calleeId kind : String)
    (cw : ProvenParams) (p : ℕ) :
    lookup (crossHop state caller callsiteId calleeId kind cw) p =
      if (calleeId, p) ∈ cw then .temp
      else if edgeKindBindingOk kind then
        sourceTemp state (stepOneFrame (some caller) (some callsiteId) p (some kind))
      else .unknown := by
  have hproven := lookup_provenEntries calleeId cw p
  have hread := read_provenEntries calleeId cw p
  unfold crossHop
  dsimp only
  by_cases hok : edgeKindBindingOk kind = true
  swap
  · rw [if_pos (by simpa using hok), hproven, if_neg hok]
  rw [if_neg (by simpa using hok), if_pos hok]
  by_cases htrigger : kind = "implicit-trigger"
  · rw [if_pos htrigger]
    by_cases hp : p = receiverParamIndex
    · subst hp
      by_cases hcw : (calleeId, receiverParamIndex) ∈ cw
      · rw [if_pos hcw] at hread hproven ⊢
        rw [bindParam_of_isSome (by rw [hread]; rfl), hproven]
      · rw [if_neg hcw] at hread ⊢
        exact lookup_bindParam_self hread _
    · -- a trigger binds nothing but its receiver
      have hstep : stepOneFrame (some caller) (some callsiteId) p (some kind) = .unknown := by
        simp [stepOneFrame, htrigger, triggerReceiverTempState, hp, TempState.toKind]
      rw [lookup, read_bindParam_ne _ hp, ← lookup, hproven, hstep]
      rfl
  · have hnone : ¬ (some kind = some "implicit-trigger") := fun h => htrigger (Option.some.inj h)
    rw [if_neg htrigger]
    unfold stepOneFrame
    dsimp only
    rw [if_neg hnone]
    cases hfind : caller.callSites.find? (·.id == callsiteId) with
    | none => exact hproven
    | some cs =>
      obtain ⟨hnamed, hrecv⟩ := hbind cs (List.mem_of_find?_eq_some hfind)
        (by simpa using List.find?_some hfind)
      dsimp only
      by_cases hcw : (calleeId, p) ∈ cw
      · rw [if_pos hcw] at hread hproven ⊢
        rw [lookup, read_foldl_bindParam_of_isSome (fun src => sourceTemp state (sourceKindOf src))
          _ (by rw [hread]; rfl), ← lookup, hproven]
      · rw [if_neg hcw] at hread ⊢
        rw [lookup_foldl_bindParam (fun src => sourceTemp state (sourceKindOf src)) rfl
          (nodup_boundParams hnamed hrecv) hread, find?_boundParams hrecv]

/-! ## 4. Forward equals backward -/

theorem lastFrame_append (root : String) (pre : List Hop) (h : Hop) :
    lastFrame root (pre ++ [h]) = h.calleeId := by
  simp [lastFrame]

theorem crossHops_append (cw : ProvenParams) (state : TempVec) (pre : List Hop) (h : Hop) :
    crossHops cw state (pre ++ [h]) =
      crossHop (crossHops cw state pre) h.caller h.callsiteId h.calleeId h.kind cw := by
  rw [crossHops, List.foldl_append]
  rfl

theorem Chained.append {root : String} {pre : List Hop} {h : Hop}
    (hc : Chained root (pre ++ [h])) : Chained root pre ∧ h.caller.id = lastFrame root pre := by
  constructor
  · rintro p x post rfl
    exact hc p x (post ++ [h]) (by simp)
  · exact hc pre h [] rfl

/-- A state that holds what is proven of its frame. -/
def Seeded (cw : ProvenParams) (id : String) (state : TempVec) : Prop :=
  ∀ i, (id, i) ∈ cw → lookup state i = .temp

theorem seeded_rootState (cw : ProvenParams) (root : String) :
    Seeded cw root (rootState root cw) := fun i hi => by
  rw [rootState, lookup_provenEntries, if_pos hi]

/-- Every state along a path holds what is proven of its frame. -/
theorem Seeded.crossHops {cw : ProvenParams} {root : String} {state : TempVec}
    (hs : Seeded cw root state) {hops : List Hop}
    (hbind : ∀ h ∈ hops, Binds h.caller h.callsiteId) :
    Seeded cw (lastFrame root hops) (crossHops cw state hops) := by
  induction hops using List.reverseRecOn with
  | nil => exact hs
  | append_singleton pre h _ =>
    intro i hi
    rw [lastFrame_append] at hi
    rw [crossHops_append, lookup_crossHop (hbind h (by simp)), if_pos hi]

/-- On a state that holds what is proven, the terminal's answer is its source in the state. -/
theorem resolveTerminal_eq {cw : ProvenParams} {owner : String} {state : TempVec}
    (hs : Seeded cw owner state) (op : ModelRecordOperation) :
    resolveTerminal op state owner cw = sourceTemp state (opKind op) := by
  unfold resolveTerminal opKind
  cases op.tempState with
  | none => rfl
  | some ts =>
    dsimp only [sourceKindOf]
    cases tempStateKind ts with
    | known b => cases b <;> rfl
    | unknown => rfl
    | parameterDependent i =>
      dsimp only [sourceTemp]
      split_ifs with h
      · exact (hs i h).symm
      · rfl

section

variable {routineById : HashMap String ModelRoutine} {edgeKindByCallsite : HashMap String String}
  {cw : ProvenParams}

theorem chase_known (b : Bool) (frame : Option String) (hops : List EvidenceStep) :
    chase routineById edgeKindByCallsite cw (.known b) frame hops = .known b := by
  rw [chase]

theorem chase_unknown (frame : Option String) (hops : List EvidenceStep) :
    chase routineById edgeKindByCallsite cw .unknown frame hops = .unknown := by
  rw [chase]

theorem classOf_known (b : Bool) (state : TempVec) :
    classOf (.known b) = some (sourceTemp state (.known b)) := by
  cases b <;> rfl

/-- **The chase up a path reads the state at its end.**  The induction takes the last hop off: the
chase consumes it first, and the forward state is its `cross_hop`. -/
theorem chase_eq {root : String} {hops : List Hop} (hchain : Chained root hops)
    (htable : ∀ h ∈ hops, routineById.lookup h.caller.id = some h.caller)
    (hkinds : ∀ h ∈ hops, edgeKindByCallsite.lookup h.callsiteId = some h.kind)
    (hbind : ∀ h ∈ hops, Binds h.caller h.callsiteId) (ts : TempStateKind) :
    classOf (chase routineById edgeKindByCallsite cw ts (some (lastFrame root hops))
      (hops.map fun h =>
        ({ routineId := h.caller.id, callsiteId := some h.callsiteId } : EvidenceStep)).reverse) =
      some (sourceTemp (crossHops cw (rootState root cw) hops) ts) := by
  induction hops using List.reverseRecOn generalizing ts with
  | nil =>
    cases ts with
    | known b => rw [chase_known, ← classOf_known]
    | unknown => rw [chase_unknown, classOf, sourceTemp]
    | parameterDependent i =>
      have hroot := lookup_provenEntries root cw i
      by_cases hcw : (root, i) ∈ cw
      · rw [if_pos hcw] at hroot
        simpa [chase, lastFrame, hcw, classOf, sourceTemp, crossHops, rootState] using hroot.symm
      · rw [if_neg hcw] at hroot
        simpa [chase, lastFrame, hcw, classOf, sourceTemp, crossHops, rootState] using hroot.symm
  | append_singleton pre h ih =>
    cases ts with
    | known b => rw [chase_known, ← classOf_known]
    | unknown => rw [chase_unknown, classOf, sourceTemp]
    | parameterDependent i =>
      obtain ⟨hpre, hframe⟩ := hchain.append
      have hstep := lookup_crossHop (hbind h (by simp)) (crossHops cw (rootState root cw) pre)
        h.calleeId h.kind cw i
      have hmem : ∀ {g}, g ∈ pre → g ∈ pre ++ [h] := fun hg => List.mem_append_left _ hg
      have hup := ih hpre (fun g hg => htable g (hmem hg)) (fun g hg => hkinds g (hmem hg))
        (fun g hg => hbind g (hmem hg))
        (stepOneFrame (some h.caller) (some h.callsiteId) i (some h.kind))
      rw [sourceTemp, crossHops_append, hstep, lastFrame_append, List.map_append,
        List.map_singleton, List.reverse_append, List.reverse_singleton, List.singleton_append]
      unfold chase
      by_cases hcw : (h.calleeId, i) ∈ cw
      · simp [hcw, classOf]
      · have hkind : (some h.callsiteId).bind edgeKindByCallsite.lookup = some h.kind :=
          hkinds h (by simp)
        rw [if_neg (by simpa using hcw), if_neg hcw]
        dsimp only
        rw [hkind]
        by_cases hok : edgeKindBindingOk h.kind = true
        · rw [if_neg (by simpa using hok), if_pos hok, htable h (by simp), hframe]
          exact hup
        · rw [if_pos (by simpa using hok), if_neg hok]
          rfl

/-- **Forward composition equals the backward resolver**, on every path of chained hops. -/
theorem resolveTerminal_eq_backward {root : String} {hops : List Hop}
    (hchain : Chained root hops)
    (htable : ∀ h ∈ hops, routineById.lookup h.caller.id = some h.caller)
    (hkinds : ∀ h ∈ hops, edgeKindByCallsite.lookup h.callsiteId = some h.kind)
    (hbind : ∀ h ∈ hops, Binds h.caller h.callsiteId) (op : ModelRecordOperation) :
    classOf (resolveTempAlongPathClosedWorld routineById edgeKindByCallsite cw
      (evidence root hops) (opKind op)) =
      some (resolveTerminal op (crossHops cw (rootState root cw) hops) (lastFrame root hops)
        cw) := by
  have hlast : (evidence root hops).getLast?.map EvidenceStep.routineId =
      some (lastFrame root hops) := by
    simp [evidence]
  have hhops : (evidence root hops).filter (fun s => s.callsiteId.isSome) =
      hops.map fun h => { routineId := h.caller.id, callsiteId := some h.callsiteId } := by
    rw [evidence, List.filter_append, List.filter_eq_self.mpr]
    · simp
    · intro s hs
      obtain ⟨h, -, rfl⟩ := List.mem_map.mp hs
      rfl
  rw [resolveTempAlongPathClosedWorld, hlast, hhops, chase_eq hchain htable hkinds hbind,
    resolveTerminal_eq ((seeded_rootState cw root).crossHops hbind)]

end

end AlSem.L5
