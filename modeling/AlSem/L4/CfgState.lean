/-
# What a run has done to the record

A run has a history (nothing yet, exposed, loaded first), and a state is sound for a history: a
fresh one needs a state that is not loaded, an exposed one a state with both flags.  Joins,
saturation and field reads keep a state sound, and an operation or a call takes it to the history
behind it.
-/
import AlSem.L4.CfgSound

namespace AlSem.L4

open AlSem.Model

variable {ctx : WalkCtx}

/-! ## 1. Histories -/

/-- What an operation node does to the parameter; nothing for other nodes. -/
def opRole (ctx : WalkCtx) (n : PCFNNode) : Option String :=
  if n.kind = .op then
    (n.operationId.bind ctx.opById).bind fun op =>
      if ctx.opAffectsParam op then some (recordFlowRole op.op) else none
  else none

/-- The node persists or validates the parameter. -/
def exposes (ctx : WalkCtx) (n : PCFNNode) : Bool :=
  decide (opRole ctx n = some "persistsCurrent") || decide (opRole ctx n = some "validates")

/-- The node loads, initialises or copies into the parameter. -/
def loads (ctx : WalkCtx) (n : PCFNNode) : Bool :=
  decide (opRole ctx n = some "loadsFromDb") || decide (opRole ctx n = some "initialises") ||
    decide (opRole ctx n = some "copiesInto")

/-- The call hands the parameter to a `var` parameter of a callee that leaves it loaded. -/
def targetLoads (ctx : WalkCtx) (t : CallTarget) : Bool :=
  t.calleeIsVar && ((ctx.calleeRole t.callee t.parameterIndex).map fun cr =>
    cr.putsInLoadedState).getD false

/-- The node is a call that leaves the parameter loaded. -/
def callLoads (ctx : WalkCtx) (n : PCFNNode) : Bool :=
  decide (n.kind = .call) &&
    (((n.callsiteId.bind ctx.callById).bind (callTarget ctx)).map (targetLoads ctx)).getD false

/-- What a run has done to the parameter. -/
inductive Hist where
  | fresh
  /-- It was persisted or validated before anything loaded it. -/
  | exposed
  /-- Something loaded it first. -/
  | settled
  deriving DecidableEq, Repr

def Hist.step (ctx : WalkCtx) (h : Hist) (n : PCFNNode) : Hist :=
  match h with
  | .fresh =>
    if exposes ctx n then .exposed
    else if loads ctx n || callLoads ctx n then .settled
    else .fresh
  | h => h

/-- Behind a subtree given up the record is not known to be loaded. -/
def Hist.blur : Hist → Hist
  | .exposed => .exposed
  | _ => .fresh

def Hist.run (ctx : WalkCtx) (h : Hist) (t : List PCFNNode) : Hist := t.foldl (Hist.step ctx) h

@[simp] theorem Hist.run_nil (h : Hist) : h.run ctx [] = h := rfl

theorem Hist.run_cons (h : Hist) (n : PCFNNode) (t : List PCFNNode) :
    h.run ctx (n :: t) = (h.step ctx n).run ctx t := rfl

@[simp] theorem Hist.exposed_run (t : List PCFNNode) : Hist.exposed.run ctx t = .exposed := by
  induction t with
  | nil => rfl
  | cons n t ih => exact ih

@[simp] theorem Hist.settled_run (t : List PCFNNode) : Hist.settled.run ctx t = .settled := by
  induction t with
  | nil => rfl
  | cons n t ih => exact ih

/-- Only operations and calls make history. -/
theorem Hist.step_other {n : PCFNNode} (hop : n.kind ≠ .op) (hcall : n.kind ≠ .call) (h : Hist) :
    h.step ctx n = h := by
  cases h <;> simp [Hist.step, exposes, loads, callLoads, opRole, hop, hcall]

/-! ## 2. Sound states -/

/-- What a history asks of a state. -/
def Sound (h : Hist) (s : PerParamState) : Prop :=
  match h with
  | .fresh => s.loaded ≠ .yes
  | .exposed => s.requiresLoadedAtEntry = .yes ∧ s.mutatesBeforeLoad = .yes
  | .settled => True

theorem joinPresence_yes_left (a : EffectPresence) : joinPresence .yes a = .yes := by
  cases a <;> rfl

theorem joinPresence_yes_right (a : EffectPresence) : joinPresence a .yes = .yes := by
  cases a <;> rfl

theorem joinLoaded_eq_yes {a b : Loaded} (h : joinLoaded a b = .yes) : a = .yes ∧ b = .yes := by
  cases a <;> cases b <;> simp_all [joinLoaded]

theorem sound_join_left {h : Hist} {a : PerParamState} (ha : Sound h a) (b : PerParamState) :
    Sound h (joinStates a b) := by
  cases h with
  | fresh => exact fun hyes => ha (joinLoaded_eq_yes hyes).1
  | exposed =>
    obtain ⟨hr, hm⟩ := ha
    simp only [Sound, joinStates, hr, hm, joinPresence_yes_left, and_self]
  | settled => trivial

theorem sound_join_right {h : Hist} (a : PerParamState) {b : PerParamState} (hb : Sound h b) :
    Sound h (joinStates a b) := by
  cases h with
  | fresh => exact fun hyes => hb (joinLoaded_eq_yes hyes).2
  | exposed =>
    obtain ⟨hr, hm⟩ := hb
    simp only [Sound, joinStates, hr, hm, joinPresence_yes_right, and_self]
  | settled => trivial

theorem sound_saturate {h : Hist} {s : PerParamState} (hs : Sound h s) :
    Sound h (saturateUnknown s) := by
  cases h with
  | fresh => exact fun hyes => Loaded.noConfusion hyes
  | exposed => exact hs
  | settled => trivial

theorem sound_blur {h : Hist} {s : PerParamState} (hs : Sound h s) :
    Sound h.blur (saturateUnknown s) := by
  cases h with
  | fresh => exact fun hyes => Loaded.noConfusion hyes
  | exposed => exact hs
  | settled => exact fun hyes => Loaded.noConfusion hyes

theorem sound_fieldRead {h : Hist} {s : PerParamState} (hs : Sound h s) (fa : PFieldAccess) :
    Sound h (applyFieldRead ctx s fa) := by
  unfold applyFieldRead
  split
  · exact hs
  · split
    · exact hs
    · cases h with
      | fresh => exact hs
      | exposed => exact ⟨rfl, hs.2⟩
      | settled => trivial

/-- Both flags are up. -/
abbrev Flagged (s : PerParamState) : Prop := Sound .exposed s

theorem requireLoaded_loaded (s : PerParamState) : (requireLoaded s).loaded = s.loaded := by
  unfold requireLoaded
  split <;> rfl

theorem requireLoaded_flagged {s : PerParamState} (h : Flagged s ∨ s.loaded ≠ .yes) :
    Flagged (requireLoaded s) := by
  unfold requireLoaded
  split
  · exact ⟨rfl, rfl⟩
  · rename_i hyes
    exact h.resolve_right hyes

theorem applyOp_flagged {s : PerParamState} (h : Flagged s) (op : ModelRecordOperation) :
    Flagged (applyOp ctx s op) := by
  have hreq : Flagged (requireLoaded s) := requireLoaded_flagged (Or.inl h)
  unfold applyOp
  split
  · exact h
  · split
    · exact h
    · exact h
    · exact h
    · exact hreq
    · dsimp only
      split <;> exact hreq
    · exact h
    · split
      · exact h
      · split
        · dsimp only
          split <;> exact h
        · exact h
    · exact h

/-- A persisting or validating operation on a record that is not loaded raises both flags. -/
theorem applyOp_exposes {s : PerParamState} {op : ModelRecordOperation}
    (haff : ctx.opAffectsParam op = true)
    (hrole : recordFlowRole op.op = "persistsCurrent" ∨ recordFlowRole op.op = "validates")
    (hs : s.loaded ≠ .yes) : Flagged (applyOp ctx s op) := by
  have hreq : Flagged (requireLoaded s) := requireLoaded_flagged (Or.inr hs)
  unfold applyOp
  simp only [haff, Bool.not_true, Bool.false_eq_true, if_false]
  split
  case h_4 => exact hreq
  case h_5 => split <;> exact hreq
  all_goals simp_all

/-- Only the loading roles load. -/
theorem applyOp_loaded {s : PerParamState} {op : ModelRecordOperation}
    (hrole : recordFlowRole op.op ≠ "loadsFromDb" ∧ recordFlowRole op.op ≠ "initialises" ∧
      recordFlowRole op.op ≠ "copiesInto") : (applyOp ctx s op).loaded = s.loaded := by
  obtain ⟨hload, hinit, hcopy⟩ := hrole
  unfold applyOp
  split
  · rfl
  · split
    · exact absurd ‹_› hload
    · exact absurd ‹_› hinit
    · exact absurd ‹_› hcopy
    · exact requireLoaded_loaded s
    · dsimp only
      split <;> exact requireLoaded_loaded s
    · rfl
    · split
      · rfl
      · split
        · dsimp only
          split <;> rfl
        · rfl
    · rfl

/-- **An operation keeps its promise.** -/
theorem sound_walkOp {h : Hist} {s : PerParamState} {n : PCFNNode} (hk : n.kind = .op)
    (hs : Sound h s) : Sound (h.step ctx n) (walkOp ctx n s) := by
  have hcall : callLoads ctx n = false := by simp [callLoads, hk]
  unfold walkOp
  cases hop : n.operationId.bind ctx.opById with
  | none =>
    have hrole : opRole ctx n = none := by simp [opRole, hop]
    cases h <;> simpa [Hist.step, exposes, loads, hrole, hcall] using hs
  | some op =>
    dsimp only
    cases h with
    | settled => trivial
    | exposed => exact applyOp_flagged hs op
    | fresh =>
      by_cases haff : ctx.opAffectsParam op = true
      · have hrole : opRole ctx n = some (recordFlowRole op.op) := by
          simp [opRole, hk, hop, haff]
        simp only [Hist.step, exposes, loads, hrole, hcall, Option.some.injEq, Bool.or_false,
          Bool.or_eq_true, decide_eq_true_eq]
        split
        · rename_i hexp
          exact applyOp_exposes haff hexp hs
        · split
          · trivial
          · rename_i hload
            have hnot : recordFlowRole op.op ≠ "loadsFromDb" ∧
                recordFlowRole op.op ≠ "initialises" ∧ recordFlowRole op.op ≠ "copiesInto" := by
              simpa [not_or, and_assoc] using hload
            show (applyOp ctx s op).loaded ≠ .yes
            rw [applyOp_loaded hnot]
            exact hs
      · have hrole : opRole ctx n = none := by simp [opRole, hop, haff]
        have hsame : applyOp ctx s op = s := by simp [applyOp, haff]
        rw [hsame]
        simpa [Hist.step, exposes, loads, hrole, hcall] using hs

theorem opaqueTransfer_flagged {s : PerParamState} (h : Flagged s) (a b c : Bool) :
    Flagged (opaqueTransfer s a b c) := by
  obtain ⟨hr, hm⟩ := h
  unfold opaqueTransfer
  dsimp only
  split <;> split <;>
    simp [Sound, hr, hm, joinPresence_yes_left]

theorem opaqueTransfer_loaded {s : PerParamState} (h : s.loaded ≠ .yes) (a b c : Bool) :
    (opaqueTransfer s a b c).loaded ≠ .yes := by
  unfold opaqueTransfer
  dsimp only
  split <;> split <;> simp [h]

theorem entryTransfer_loaded (s : PerParamState) (cr : RecordRoleSummary) :
    (entryTransfer s cr).loaded = s.loaded := by
  unfold entryTransfer
  split <;> rfl

theorem loadTransfer_loaded {s : PerParamState} {cr : RecordRoleSummary} {v : Bool}
    (hs : s.loaded ≠ .yes) (h : (v && cr.putsInLoadedState) = false) :
    (loadTransfer s cr v).loaded ≠ .yes := by
  unfold loadTransfer
  split
  · exact hs
  · rename_i hv
    have hvtrue : v = true := by simpa using hv
    have hput : cr.putsInLoadedState = false := by simpa [hvtrue] using h
    rw [hput]
    simp only [Bool.false_eq_true, if_false]
    split
    · simp
    · exact hs

theorem exitTransfer_loaded (s : PerParamState) (cr : RecordRoleSummary) (a b : Bool) :
    (exitTransfer s cr a b).loaded = s.loaded := by
  unfold exitTransfer
  split <;> rfl

/-- No call lowers a flag. -/
theorem applyCalleeRole_flagged {s : PerParamState} (h : Flagged s) (t : CallTarget)
    (dispatch : Bool) : Flagged (applyCalleeRole ctx s t dispatch) := by
  unfold applyCalleeRole
  split
  · exact opaqueTransfer_flagged h _ _ _
  · rename_i cr _
    have hentry : Flagged (entryTransfer s cr) := by
      obtain ⟨hr, hm⟩ := h
      unfold entryTransfer
      split
      · simp [Sound, hr, hm, joinPresence_yes_left]
      · exact ⟨hr, hm⟩
    have hload : Flagged (loadTransfer (entryTransfer s cr) cr t.calleeIsVar) := by
      unfold loadTransfer
      split
      · exact hentry
      · split
        · exact hentry
        · split <;> exact hentry
    unfold exitTransfer
    split <;> exact hload

/-- A call that is not a loading one does not load. -/
theorem applyCalleeRole_loaded {s : PerParamState} (hs : s.loaded ≠ .yes) {t : CallTarget}
    (ht : targetLoads ctx t = false) (dispatch : Bool) :
    (applyCalleeRole ctx s t dispatch).loaded ≠ .yes := by
  unfold applyCalleeRole
  split
  · exact opaqueTransfer_loaded hs _ _ _
  · rename_i cr hcr
    rw [exitTransfer_loaded]
    refine loadTransfer_loaded ?_ ?_
    · rw [entryTransfer_loaded]
      exact hs
    · simpa [targetLoads, hcr] using ht

/-- **A call keeps its promise.** -/
theorem sound_walkCall {h : Hist} {s : PerParamState} {n : PCFNNode} (hk : n.kind = .call)
    (hs : Sound h s) : Sound (h.step ctx n) (walkCall ctx n s) := by
  have hrole : opRole ctx n = none := by simp [opRole, hk]
  unfold walkCall
  cases hcs : n.callsiteId.bind ctx.callById with
  | none =>
    have hcall : callLoads ctx n = false := by simp [callLoads, hcs]
    cases h <;> simpa [Hist.step, exposes, loads, hrole, hcall] using hs
  | some cs =>
    dsimp only
    unfold applyCall
    cases htarget : callTarget ctx cs with
    | none =>
      have hcall : callLoads ctx n = false := by simp [callLoads, hcs, htarget]
      cases h <;> simpa [Hist.step, exposes, loads, hrole, hcall] using hs
    | some t =>
      have hcall : callLoads ctx n = targetLoads ctx t := by
        simp [callLoads, hk, hcs, htarget]
      cases h with
      | settled => trivial
      | exposed => exact applyCalleeRole_flagged hs t false
      | fresh =>
        cases hload : targetLoads ctx t with
        | true => simp [Hist.step, exposes, loads, hrole, hcall, hload, Sound]
        | false =>
          have hstep : Hist.step ctx .fresh n = .fresh := by
            simp [Hist.step, exposes, loads, hrole, hcall, hload]
          rw [hstep]
          exact applyCalleeRole_loaded hs hload false

end AlSem.L4
