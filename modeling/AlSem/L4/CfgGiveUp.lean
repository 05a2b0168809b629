/-
# What giving up keeps

The walker gives a subtree up when it is a `try` or too deep: the state behind it is unknown, but
what was found about the entry stays as it was.  So the facts cover a run when the walk follows some
path that does what the run does, and else what it gave up is hidden.  The change left at the exit
is followed beside: what was validated is seen, unless the record was persisted before.
-/
import AlSem.L4.CfgEntry

namespace AlSem.L4

open AlSem.Model

variable {ctx : WalkCtx} {sel : PCFNNode → Bool → Prop}

/-! ## 1. What a node leaves of the value -/

/-- The node persists the parameter. -/
def persists (ctx : WalkCtx) (n : PCFNNode) : Bool :=
  decide (opRole ctx n = some "persistsCurrent")

/-- The node validates the parameter. -/
def validates (ctx : WalkCtx) (n : PCFNNode) : Bool := decide (opRole ctx n = some "validates")

/-- The node puts the value where it is, whatever it was. -/
def resets (ctx : WalkCtx) (n : PCFNNode) : Bool := loads ctx n || persists ctx n

/-- What an operation with a role leaves. -/
def opDirty (role : String) (d : Dirty) : Dirty :=
  if role = "loadsFromDb" ∨ role = "initialises" ∨ role = "copiesInto" then .pristine
  else if role = "persistsCurrent" then .persisted
  else if role = "validates" ∧ (d = .pristine ∨ d = .unknown) then .dirtyV
  else d

/-- What a call leaves that hands the parameter on. -/
def targetDirty (ctx : WalkCtx) (t : CallTarget) (d : Dirty) : Dirty :=
  if t.callerIsVar && t.calleeIsVar then
    match ctx.calleeRole t.callee t.parameterIndex with
    | none => .unknown
    | some cr => exitDirty d cr
  else d

/-- What a node leaves. -/
def nodeDirty (ctx : WalkCtx) (n : PCFNNode) (d : Dirty) : Dirty :=
  match opRole ctx n with
  | some role => opDirty role d
  | none =>
    if n.kind = .call then
      match (n.callsiteId.bind ctx.callById).bind (callTarget ctx) with
      | some t => targetDirty ctx t d
      | none => d
    else d

theorem applyFieldRead_dirty (s : PerParamState) (fa : PFieldAccess) :
    (applyFieldRead ctx s fa).dirty = s.dirty := by
  unfold applyFieldRead
  split
  · rfl
  · split <;> rfl

theorem requireLoaded_dirty (s : PerParamState) : (requireLoaded s).dirty = s.dirty := by
  unfold requireLoaded
  split <;> rfl

theorem applyOp_dirty {s : PerParamState} {op : ModelRecordOperation}
    (haff : ctx.opAffectsParam op = true) :
    (applyOp ctx s op).dirty = opDirty (recordFlowRole op.op) s.dirty := by
  unfold applyOp
  simp only [haff, Bool.not_true, Bool.false_eq_true, if_false]
  split
  case h_1 hrole => simp [opDirty, hrole]
  case h_2 hrole => simp [opDirty, hrole]
  case h_3 hrole => simp [opDirty, hrole]
  case h_4 hrole => simp [opDirty, hrole]
  case h_5 hrole =>
    simp only [opDirty, hrole, requireLoaded_dirty]
    split <;> simp_all [requireLoaded_dirty]
  case h_6 hrole => simp [opDirty, hrole]
  case h_7 hrole =>
    have hdirty : opDirty (recordFlowRole op.op) s.dirty = s.dirty := by simp [opDirty, hrole]
    rw [hdirty]
    split
    · rfl
    · split
      · split <;> rfl
      · rfl
  case h_8 hload hinit hcopy hpersist hvalid _ _ =>
    unfold opDirty
    rw [if_neg (fun h => h.elim hload fun h => h.elim hinit hcopy), if_neg hpersist,
      if_neg fun h => hvalid h.1]

theorem walkOp_dirty {n : PCFNNode} (hk : n.kind = .op) (s : PerParamState) :
    (walkOp ctx n s).dirty = nodeDirty ctx n s.dirty := by
  have hcall : ¬ n.kind = .call := by simp [hk]
  unfold walkOp nodeDirty
  cases hop : n.operationId.bind ctx.opById with
  | none =>
    have hrole : opRole ctx n = none := by simp [opRole, hop]
    simp only [hrole, if_neg hcall]
  | some op =>
    by_cases haff : ctx.opAffectsParam op = true
    · have hrole : opRole ctx n = some (recordFlowRole op.op) := by simp [opRole, hk, hop, haff]
      simp only [hrole]
      exact applyOp_dirty haff
    · have hrole : opRole ctx n = none := by simp [opRole, hop, haff]
      simp [hrole, if_neg hcall, applyOp, haff]

theorem opaqueTransfer_dirty (s : PerParamState) (a b c : Bool) :
    (opaqueTransfer s a b c).dirty = if a && b then .unknown else s.dirty := by
  unfold opaqueTransfer
  dsimp only
  cases a <;> cases b <;> simp <;> split <;> rfl

theorem entryTransfer_dirty (s : PerParamState) (cr : RecordRoleSummary) :
    (entryTransfer s cr).dirty = s.dirty := by
  unfold entryTransfer
  split <;> rfl

theorem loadTransfer_dirty (s : PerParamState) (cr : RecordRoleSummary) (v : Bool) :
    (loadTransfer s cr v).dirty = s.dirty := by
  unfold loadTransfer
  split
  · rfl
  · split
    · rfl
    · split <;> rfl

theorem exitTransfer_dirty (s : PerParamState) (cr : RecordRoleSummary) (a b : Bool) :
    (exitTransfer s cr a b).dirty = if a && b then exitDirty s.dirty cr else s.dirty := by
  unfold exitTransfer
  cases a <;> cases b <;> simp

theorem applyCalleeRole_dirty (s : PerParamState) (t : CallTarget) (dispatch : Bool) :
    (applyCalleeRole ctx s t dispatch).dirty = targetDirty ctx t s.dirty := by
  unfold applyCalleeRole targetDirty
  cases ctx.calleeRole t.callee t.parameterIndex with
  | none => exact opaqueTransfer_dirty s _ _ _
  | some cr =>
    dsimp only
    rw [exitTransfer_dirty, loadTransfer_dirty, entryTransfer_dirty]

theorem walkCall_dirty {n : PCFNNode} (hk : n.kind = .call) (s : PerParamState) :
    (walkCall ctx n s).dirty = nodeDirty ctx n s.dirty := by
  have hrole : opRole ctx n = none := by simp [opRole, hk]
  unfold walkCall nodeDirty
  simp only [hrole, if_pos hk]
  cases hcs : n.callsiteId.bind ctx.callById with
  | none => rfl
  | some cs =>
    simp only [Option.bind_some]
    unfold applyCall
    cases callTarget ctx cs with
    | none => rfl
    | some t => exact applyCalleeRole_dirty s t false

/-! ## 2. The history of the changes -/

/-- What a run has done to the parameter's changes, as the exit fact tells it. -/
inductive DirtyHist where
  | pristine
  /-- It was persisted, and anything validated since then is not told. -/
  | persisted
  /-- It was validated, and not persisted since, or that is not known. -/
  | dirty
  deriving DecidableEq, Repr

namespace DirtyHist

/-- The walker's value as the exit fact reads it. -/
def of : Dirty → DirtyHist
  | .pristine => .pristine
  | .persisted => .persisted
  | .dirtyV | .unknown => .dirty

def value : DirtyHist → Dirty
  | .pristine => .pristine
  | .persisted => .persisted
  | .dirty => .dirtyV

/-- **A node does to the history what the walker does to the value.** -/
def step (ctx : WalkCtx) (h : DirtyHist) (n : PCFNNode) : DirtyHist := of (nodeDirty ctx n h.value)

def run (ctx : WalkCtx) (h : DirtyHist) (t : List PCFNNode) : DirtyHist := t.foldl (step ctx) h

/-- The second history is the first, or dirty. -/
def NoCleaner (h h' : DirtyHist) : Prop := h' = h ∨ h' = .dirty

theorem of_opDirty (role : String) (d : Dirty) :
    of (opDirty role (of d).value) = of (opDirty role d) := by
  cases d with
  | unknown =>
    unfold opDirty
    split
    · rfl
    · split
      · rfl
      · by_cases hrole : role = "validates" <;> simp [hrole, of, value]
  | _ => rfl

theorem exitDirty_dirty (cr : RecordRoleSummary) : exitDirty .dirtyV cr = .dirtyV := by
  simp [exitDirty]

theorem exitDirty_unknown (cr : RecordRoleSummary) : of (exitDirty .unknown cr) = .dirty := by
  by_cases hexit : cr.dirtyAtExit = .yes
  · simp [exitDirty, hexit, of]
  · by_cases hvalid : cr.validatesParam = .yes ∨ cr.copiesIntoParam = .yes
    · simp [exitDirty, hexit, hvalid, of]
    · simp [exitDirty, hexit, hvalid, of]

theorem of_exitDirty (cr : RecordRoleSummary) (d : Dirty) :
    of (exitDirty (of d).value cr) = of (exitDirty d cr) := by
  cases d with
  | unknown => rw [exitDirty_unknown, of, value, exitDirty_dirty, of]
  | _ => rfl

/-- An unknown value and a changed one are told as the same behind a node too. -/
theorem of_nodeDirty (n : PCFNNode) (d : Dirty) : of (nodeDirty ctx n d) = (of d).step ctx n := by
  unfold step nodeDirty
  split
  · exact (of_opDirty _ d).symm
  · split
    · split
      · unfold targetDirty
        split
        · split
          · rfl
          · exact (of_exitDirty _ d).symm
        · cases d <;> rfl
      · cases d <;> rfl
    · cases d <;> rfl

theorem step_other {n : PCFNNode} (hop : n.kind ≠ .op) (hcall : n.kind ≠ .call) (h : DirtyHist) :
    h.step ctx n = h := by
  cases h <;> simp [step, nodeDirty, opRole, hop, hcall, of, value]

/-- Only a load and a persist take the changes away. -/
theorem step_dirty {n : PCFNNode} (hn : resets ctx n = false) : dirty.step ctx n = .dirty := by
  obtain ⟨hload, hpersist⟩ : loads ctx n = false ∧ persists ctx n = false := by
    simpa [resets] using hn
  unfold step nodeDirty
  cases hrole : opRole ctx n with
  | some role =>
    have hrole' : ¬ (role = "loadsFromDb" ∨ role = "initialises" ∨ role = "copiesInto") := by
      simpa [loads, hrole, not_or, and_assoc] using hload
    have hpersist' : role ≠ "persistsCurrent" := by simpa [persists, hrole] using hpersist
    simp [opDirty, hrole', hpersist', value, of]
  | none =>
    dsimp only
    split
    · split
      · unfold targetDirty
        split
        · split
          · rfl
          · simp [value, exitDirty_dirty, of]
        · rfl
      · rfl
    · rfl

theorem step_resets {n : PCFNNode} (hn : resets ctx n = true) (h h' : DirtyHist) :
    h.step ctx n = h'.step ctx n := by
  unfold step nodeDirty
  cases hrole : opRole ctx n with
  | none => simp [resets, loads, persists, hrole] at hn
  | some role =>
    have hcases : (role = "loadsFromDb" ∨ role = "initialises" ∨ role = "copiesInto") ∨
        role = "persistsCurrent" := by
      simpa [resets, loads, persists, hrole, or_assoc] using hn
    by_cases hload : role = "loadsFromDb" ∨ role = "initialises" ∨ role = "copiesInto"
    · simp [opDirty, if_pos hload]
    · simp [opDirty, hcases.resolve_left hload]

/-- **A node keeps the order.** -/
theorem NoCleaner.step {h h' : DirtyHist} (hle : h.NoCleaner h') (n : PCFNNode) :
    (h.step ctx n).NoCleaner (h'.step ctx n) := by
  rcases hle with rfl | rfl
  · exact Or.inl rfl
  · cases hn : resets ctx n with
    | true => exact Or.inl (step_resets hn _ _)
    | false => exact Or.inr (step_dirty hn)

theorem NoCleaner.trans {a b c : DirtyHist} (hab : a.NoCleaner b) (hbc : b.NoCleaner c) :
    a.NoCleaner c := by
  rcases hbc with rfl | rfl
  · exact hab
  · exact Or.inr rfl

theorem run_dirty_stays {t : List PCFNNode} (ht : ∀ n ∈ t, resets ctx n = false) :
    dirty.run ctx t = .dirty := by
  induction t with
  | nil => rfl
  | cons n t ih =>
    show (dirty.step ctx n).run ctx t = .dirty
    rw [step_dirty (ht n List.mem_cons_self)]
    exact ih fun m hm => ht m (List.mem_cons_of_mem _ hm)

theorem few (l : List DirtyHist) (hl : l.Nodup) : l.length ≤ loopBound := by
  have hsub : l ⊆ [.pristine, .persisted, .dirty] := by
    intro h _
    cases h <;> simp
  exact (hl.subperm hsub).length_le

/-- A join is told no cleaner than its sides. -/
theorem noCleaner_join_left {h : DirtyHist} {a : Dirty} (b : Dirty) (ha : h.NoCleaner (of a)) :
    h.NoCleaner (of (joinDirty a b)) := by
  cases h <;> cases a <;> cases b <;> simp_all [NoCleaner, of, joinDirty]

theorem noCleaner_join_right {h : DirtyHist} (a : Dirty) {b : Dirty} (hb : h.NoCleaner (of b)) :
    h.NoCleaner (of (joinDirty a b)) := by
  cases h <;> cases a <;> cases b <;> simp_all [NoCleaner, of, joinDirty]

end DirtyHist

/-- What the exit fact follows. -/
def dirtyTracking (ctx : WalkCtx) : Tracking where
  Hist := DirtyHist
  step := DirtyHist.step ctx
  blur := fun _ => .dirty
  Asks := fun h s => h.NoCleaner (.of s.dirty)

/-- **The changes are followed.** -/
theorem dirtyTracking_lawful : Lawful ctx (dirtyTracking ctx) where
  join_left := fun b ha => DirtyHist.noCleaner_join_left b.dirty ha
  join_right := fun a _ hb => DirtyHist.noCleaner_join_right a.dirty hb
  saturate := fun _ => Or.inr rfl
  blur := fun _ => Or.inr rfl
  fieldRead := fun {h s} fa hs => by
    show DirtyHist.NoCleaner h (.of (applyFieldRead ctx s fa).dirty)
    rw [applyFieldRead_dirty]
    exact hs
  op := fun {h s n} hk hs => by
    show DirtyHist.NoCleaner (DirtyHist.step ctx h n) (.of (walkOp ctx n s).dirty)
    rw [walkOp_dirty hk, DirtyHist.of_nodeDirty]
    exact hs.step n
  call := fun {h s n} hk hs => by
    show DirtyHist.NoCleaner (DirtyHist.step ctx h n) (.of (walkCall ctx n s).dirty)
    rw [walkCall_dirty hk, DirtyHist.of_nodeDirty]
    exact hs.step n
  other := fun h hop hcall => DirtyHist.step_other hop hcall h
  few := DirtyHist.few

/-- Changes compared. -/
def dirtyCompare (ctx : WalkCtx) : Compare (dirtyTracking ctx) where
  le := DirtyHist.NoCleaner
  Top := fun _ => False
  Keeps := fun n => ∀ h : DirtyHist, h.NoCleaner (h.step ctx n)
  Still := fun n => ∀ h : DirtyHist, h.step ctx n = h
  refl := fun _ => Or.inl rfl
  trans := fun hab hbc => hab.trans hbc
  step := fun n hle => hle.step n
  blur := fun _ => Or.inr rfl
  top_step := fun _ hh => hh
  top_blur := fun hh => hh
  top_le := fun _ hh => hh
  keeps := fun h hn => hn h
  still := fun h hn => Or.inl (hn h)
  still_le := fun h hn => Or.inl (hn h)

/-! ## 3. Paths that are found -/

/-- **The walk follows a path to an end of the routine that leaves the record changed**, as the
walker tells the changes of that path alone. -/
def ExitFound (ctx : WalkCtx) (tree : PCFNNode) : Prop :=
  ∃ p o, Follows 0 (.node tree) p o ∧ Final o ∧
    (dirtyTracking ctx).walk DirtyHist.pristine p = DirtyHist.dirty

/-- An event publisher's dispatch takes no change away. -/
theorem applyDispatch_dirty {s : PerParamState} (hs : DirtyHist.of s.dirty = .dirty)
    (pd : ParamDispatch) : DirtyHist.of (applyDispatch ctx pd s).dirty = .dirty := by
  have hvalue : ∀ {d : Dirty}, DirtyHist.of d = .dirty → ∀ t : CallTarget,
      DirtyHist.of (targetDirty ctx t d) = .dirty := by
    intro d hd t
    unfold targetDirty
    split
    · split
      · rfl
      · rename_i cr _
        rw [← DirtyHist.of_exitDirty, hd, DirtyHist.value, DirtyHist.exitDirty_dirty, DirtyHist.of]
    · exact hd
  have hopaque : ∀ a b c, DirtyHist.of (opaqueTransfer s a b c).dirty = .dirty := by
    intro a b c
    rw [opaqueTransfer_dirty]
    split
    · rfl
    · exact hs
  have hrun : ∀ bindings run, DirtyHist.of (applyRun ctx pd bindings run s).dirty = .dirty := by
    intro bindings run
    unfold applyRun
    generalize run.filterMap (fun i => bindings[i]?) = bs
    clear hopaque
    induction bs generalizing s with
    | nil => exact hs
    | cons b bs ih =>
      refine ih ?_
      rw [applyCalleeRole_dirty]
      exact hvalue hs _
  unfold applyDispatch
  cases pd.kind with
  | unseen => exact hopaque _ _ _
  | exact bindings =>
    dsimp only
    split
    · exact hopaque _ _ _
    · split
      · exact hs
      · rename_i a rest hcons
        have hmem : a ∈ pd.sequences.map fun run => applyRun ctx pd bindings run s := by
          rw [hcons]
          exact List.mem_cons_self
        obtain ⟨run, -, rfl⟩ := List.mem_map.mp hmem
        have hjoin := (@dirtyTracking_lawful ctx).foldl_join (h := DirtyHist.dirty)
          (l := rest) List.mem_cons_self (Or.inl (hrun bindings run))
        exact hjoin.elim id id

theorem computeDirtyAtExit_ne_no {states : List PerParamState} {s : PerParamState}
    (hs : s ∈ states) (hdirty : DirtyHist.of s.dirty = .dirty) :
    computeDirtyAtExit states ≠ .no := by
  unfold computeDirtyAtExit
  split
  · simp
  · rename_i hyes
    split
    · simp
    · rename_i hunknown
      simp only [List.any_eq_true, not_exists, not_and, decide_eq_true_eq] at hyes hunknown
      have hnot := hyes s hs
      have hnot' := hunknown s hs
      cases hd : s.dirty <;> simp_all [DirtyHist.of]

/-- Such a path raises the exit fact. -/
theorem ExitFound.fact {tree : PCFNNode} (hfound : ExitFound ctx tree)
    (htree : ctx.routine.statementTree = some tree) (hform : Formed ctx tree)
    (dispatch : Option ParamDispatch) : (walkParam ctx dispatch).dirtyAtExit ≠ .no := by
  obtain ⟨p, o, hpath, ho, hend⟩ := hfound
  obtain ⟨s, hmem, hasks⟩ := follows_final dirtyTracking_lawful htree hform hpath ho
    (h := DirtyHist.pristine) (Or.inl rfl)
  have hdirty : DirtyHist.of s.dirty = .dirty := by
    have hasks' : DirtyHist.NoCleaner ((dirtyTracking ctx).walk DirtyHist.pristine p)
        (.of s.dirty) := hasks
    rw [hend] at hasks'
    exact hasks'.elim id id
  cases dispatch with
  | none => exact computeDirtyAtExit_ne_no hmem hdirty
  | some pd =>
    refine computeDirtyAtExit_ne_no (s := applyDispatch ctx pd s) ?_ (applyDispatch_dirty hdirty pd)
    rw [finalStates_dispatch]
    exact List.mem_map_of_mem hmem

/-- **The runs leave out nothing that takes a change away**: neither a leaf that may not run nor an
`asserterror` statement that fails, and no such statement changes the value or is left for the end
of a round. -/
def SparesChanges (ctx : WalkCtx) (sel : PCFNNode → Bool → Prop) : Prop :=
  ∀ n, sel n false →
    (n.pathHint = some .mayRun →
      ∀ m ∈ n.subtree, ∀ h : DirtyHist, h.NoCleaner (h.step ctx m)) ∧
    (n.pathHint = some .assertError →
      Enclosed n ∧ ∀ m ∈ n.subtree, ∀ h : DirtyHist, h.step ctx m = h)

/-- **No `for` or `foreach` header takes a change away**: the walk evaluates it in every round. -/
def HeadersKeep (ctx : WalkCtx) (sel : PCFNNode → Bool → Prop) (tree : PCFNNode) : Prop :=
  ∀ m ∈ tree.subtree, m.kind = .forTo ∨ m.kind = .foreach →
    ∀ t, Exec sel (.leaves m.leaves) t .normal →
      ∀ h : DirtyHist, h.NoCleaner (h.run ctx t)

/-- No `repeat` of the tree is empty. -/
def RepeatsFilled (tree : PCFNNode) : Prop :=
  ∀ m ∈ tree.subtree, m.kind = .repeatUntil → m.body ≠ []

/-- The runs of the subtrees that the walk gives up end where the state given up is kept: behind
them, and where a `try` leaves the routine. -/
def GivenUpKept (sel : PCFNNode → Bool → Prop) (tree : PCFNNode) : Prop :=
  ∀ g ∈ givenUp tree 0, ∀ t o, Exec sel (.node g.1) t o →
    o = .normal ∨ o = .failed ∨ g.2 = false ∧ (o = .exited ∨ o = .errored)

/-- No run of a subtree that the walk gives up exposes the parameter. -/
def HidesNothing (ctx : WalkCtx) (sel : PCFNNode → Bool → Prop) (tree : PCFNNode) : Prop :=
  ∀ g ∈ givenUp tree 0, ∀ t o, Exec sel (.node g.1) t o → Hist.run ctx .fresh t ≠ .exposed

/-- A subtree given up is followed by the state given up, where that is kept. -/
theorem Ends.givenUp {T : Tracking} {C : Compare T} {h h' : T.Hist} {t : List PCFNNode}
    {o : Outcome} {deep : Bool} (ho : o = .normal ∨ o = .failed ∨
      deep = false ∧ (o = .exited ∨ o = .errored)) (hle : C.le (T.run h t) (T.blur h')) :
    Ends C (GivesUp deep) h h' t o := by
  by_cases hfail : o = .failed
  · refine ⟨[none], .normal, ⟨rfl, Or.inl rfl⟩, ?_⟩
    by_cases htop : C.Top (T.run h t)
    · exact Or.inl (C.top_le hle htop)
    · exact Or.inr ⟨htop, Or.inl hfail⟩
  · have hkept : o = .normal ∨ deep = false ∧ (o = .exited ∨ o = .errored) :=
      ho.imp_right fun h => h.resolve_left hfail
    exact .of_le ⟨rfl, hkept⟩ hle

/-- A subtree that exposes nothing is followed by a state that is not known to be loaded. -/
theorem Hist.under_blur {h h' : Hist} (hle : h.Under h') {t : List PCFNNode}
    (ht : Hist.run ctx .fresh t ≠ .exposed) : (h.run ctx t).Under h'.blur := by
  cases h with
  | exposed =>
    have hexposed : h' = .exposed := (entryCompare ctx).top_le hle rfl
    subst hexposed
    exact Or.inr (Or.inr rfl)
  | settled => exact Or.inr (Or.inl (Hist.settled_run t))
  | fresh =>
    cases hrun : Hist.run ctx .fresh t with
    | exposed => exact absurd hrun ht
    | settled => exact Or.inr (Or.inl rfl)
    | fresh =>
      rcases hle with rfl | hle | rfl
      · exact Or.inl rfl
      · exact Hist.noConfusion hle
      · exact Or.inr (Or.inr rfl)

theorem treads_entry {tree : PCFNNode} (hform : Formed ctx tree)
    (hhides : HidesNothing ctx sel tree) (hkept : GivenUpKept sel tree) :
    Treads (entryCompare ctx) ctx sel 0 tree where
  formed := hform
  skips := fun g hg t o hrun _ _ hle =>
    .givenUp (hkept g hg t o hrun) (Hist.under_blur hle (hhides g hg t o hrun))
  header := fun _ _ _ t _ h u => Or.inl (Hist.run_again h t u)
  rounds := Or.inl entryCompare_falls

theorem treads_dirty {tree : PCFNNode} (hform : Formed ctx tree) (hkept : GivenUpKept sel tree)
    (hheads : HeadersKeep ctx sel tree) (hrepeats : RepeatsFilled tree) :
    Treads (dirtyCompare ctx) ctx sel 0 tree where
  formed := hform
  skips := fun g hg t o hrun _ _ _ => .givenUp (hkept g hg t o hrun) (Or.inr rfl)
  header := fun m hm hk t hrun _ _ => hheads m hm hk t hrun _
  rounds := Or.inr hrepeats

/-- The walk follows every run that ends changed. -/
theorem exitFound_of_run {tree : PCFNNode} (htreads : Treads (dirtyCompare ctx) ctx sel 0 tree)
    (hsel : SparesChanges ctx sel) {t : List PCFNNode} {o : Outcome}
    (hrun : Exec sel (.node tree) t o) (ho : Final o)
    (hdirty : DirtyHist.run ctx .pristine t = .dirty) : ExitFound ctx tree := by
  obtain ⟨p, o', hpath, htop | ⟨-, hfail | ⟨rfl, hle⟩⟩⟩ := exec_follows (C := dirtyCompare ctx)
    dirtyTracking_lawful hsel hrun 0 DirtyHist.pristine DirtyHist.pristine htreads (Or.inl rfl)
  · exact absurd htop id
  · subst hfail
    rcases ho with ho | ho | ho <;> exact nomatch ho
  · refine ⟨p, o', hpath, ho, ?_⟩
    have hend : DirtyHist.NoCleaner (DirtyHist.run ctx .pristine t)
        ((dirtyTracking ctx).walk DirtyHist.pristine p) := hle
    rw [hdirty] at hend
    exact hend.elim id id

/-! ## 4. The facts of a parameter -/

/-- **Some run exposes the parameter**: it persists or validates it, and no operation and no call
before that leaves it loaded. -/
def SomeRunExposes (ctx : WalkCtx) (tree : PCFNNode) : Prop :=
  ∃ (sel : PCFNNode → Bool → Prop) (t : List PCFNNode) (o : Outcome) (pre : List PCFNNode)
    (m : PCFNNode) (post : List PCFNNode), Exec sel (.node tree) t o ∧ t = pre ++ m :: post ∧
      exposes ctx m = true ∧ ∀ x ∈ pre, loads ctx x = false ∧ callLoads ctx x = false

/-- **Some run leaves the record changed**: it validates the parameter, and neither loads nor
persists it from there to an end of the routine. -/
def SomeRunLeavesDirty (ctx : WalkCtx) (tree : PCFNNode) : Prop :=
  ∃ (sel : PCFNNode → Bool → Prop) (t : List PCFNNode) (o : Outcome) (pre : List PCFNNode)
    (v : PCFNNode) (post : List PCFNNode), Exec sel (.node tree) t o ∧ Final o ∧
      t = pre ++ v :: post ∧ validates ctx v = true ∧
      ∀ x ∈ post, loads ctx x = false ∧ persists ctx x = false

/-- What is validated when it is not persisted, and then neither loaded nor persisted, is left
dirty. -/
theorem run_dirty {pre post : List PCFNNode} {v : PCFNNode} (hv : validates ctx v = true)
    (hpre : DirtyHist.run ctx .pristine pre ≠ .persisted)
    (hpost : ∀ x ∈ post, loads ctx x = false ∧ persists ctx x = false) :
    DirtyHist.run ctx .pristine (pre ++ v :: post) = .dirty := by
  have hrole : opRole ctx v = some "validates" := by simpa [validates] using hv
  have hstep : (DirtyHist.run ctx .pristine pre).step ctx v = .dirty := by
    cases hh : DirtyHist.run ctx .pristine pre with
    | persisted => exact absurd hh hpre
    | _ => simp [DirtyHist.step, nodeDirty, hrole, opDirty, DirtyHist.value, DirtyHist.of]
  have hsplit : DirtyHist.run ctx .pristine (pre ++ v :: post) =
      DirtyHist.run ctx ((DirtyHist.run ctx .pristine pre).step ctx v) post := by
    simp only [DirtyHist.run, List.foldl_append, List.foldl_cons]
  rw [hsplit, hstep]
  exact DirtyHist.run_dirty_stays fun n hn => by simp [resets, hpost n hn]

/-- **What the facts promise when subtrees are given up.**  Where some path that the walk follows
exposes the parameter, if any run does, no entry fact is `no`; where some path that it follows ends
changed, if any run does, the record is not told clean.  And the walk does follow the runs through
subtrees that hide nothing: to the parameter exposed, and to the record left changed as long as it
was not persisted when it was validated. -/
theorem walkParam_givesUp {tree : PCFNNode} (htree : ctx.routine.statementTree = some tree)
    (hform : Formed ctx tree) (dispatch : Option ParamDispatch) :
    ((SomeRunExposes ctx tree → EntryFound ctx tree) → SomeRunExposes ctx tree →
      (walkParam ctx dispatch).requiresLoadedAtEntry ≠ .no ∧
        (walkParam ctx dispatch).mutatesBeforeLoad ≠ .no) ∧
    ((SomeRunLeavesDirty ctx tree → ExitFound ctx tree) → SomeRunLeavesDirty ctx tree →
      (walkParam ctx dispatch).dirtyAtExit ≠ .no) ∧
    ∀ (sel : PCFNNode → Bool → Prop) (t : List PCFNNode) (o : Outcome),
      Exec sel (.node tree) t o → GivenUpKept sel tree →
      (Enclosed tree → SparesLoads ctx sel → HidesNothing ctx sel tree →
        ∀ pre m post, t = pre ++ m :: post → exposes ctx m = true →
          (∀ x ∈ pre, loads ctx x = false ∧ callLoads ctx x = false) → EntryFound ctx tree) ∧
      (SparesChanges ctx sel → HeadersKeep ctx sel tree → RepeatsFilled tree → Final o →
        ∀ pre v post, t = pre ++ v :: post → validates ctx v = true →
          DirtyHist.run ctx .pristine pre ≠ .persisted →
          (∀ x ∈ post, loads ctx x = false ∧ persists ctx x = false) → ExitFound ctx tree) := by
  refine ⟨fun hfound hrun => ?_, fun hfound hrun => (hfound hrun).fact htree hform dispatch,
    fun sel t o hrun hkept => ⟨?_, ?_⟩⟩
  · obtain ⟨hrequires, hmutates⟩ := (hfound hrun).facts htree hform dispatch
    simp [hrequires, hmutates]
  · intro hclosed hsel hhides pre m post ht hm hpre
    exact entryFound_of_run hclosed (treads_entry hform hhides hkept) hsel hrun
      (ht ▸ run_exposed hm hpre)
  · intro hsel hheads hrepeats ho pre v post ht hv hpre hpost
    exact exitFound_of_run (treads_dirty hform hkept hheads hrepeats) hsel hrun ho
      (ht ▸ run_dirty hv hpre hpost)

/-- A routine `F(P: Record)` over a tree, with one `P.Modify()` and one `P.Validate(...)`. -/
def editorCtx (tree : PCFNNode) : WalkCtx where
  toLowercase := id
  routine :=
    { id := "f"
      recordOperations :=
        [{ id := "modify", op := "Modify", recordVariableName := "p" },
          { id := "validate", op := "Validate", recordVariableName := "p" }]
      callSites := []
      statementTree := some tree }
  nameLc := "p"
  recVarId := none
  snapshot := ∅
  finalMap := ∅
  upgradedBindings := ∅
  graph := { nodes := ["f"], edgesByFrom := ∅ }
  bodyAvailById := ∅

/-- An operation of the routine. -/
def opOf (id : String) : PCFNNode where
  kind := .op
  operationId := some id

/-- `try` as the body walk builds it, with nothing in it. -/
def emptyTry : PCFNNode where
  kind := .tryBlock
  children := some []
  sourceRange := some ⟨0, 0, 0, 0⟩

/-- `begin … end` around two statements. -/
def pairOf (a b : PCFNNode) : PCFNNode where
  kind := .block
  children := some [a, b]

theorem exec_opOf (id : String) : Exec sel (.node (opOf id)) [opOf id] .normal :=
  .unconditional rfl (.leaf (Or.inl rfl))

theorem exec_pairOf {a b : PCFNNode} {t₁ t₂ : List PCFNNode}
    (ha : Exec sel (.node a) t₁ .normal) (hb : Exec sel (.node b) t₂ .normal) :
    Exec sel (.node (pairOf a b)) (pairOf a b :: (t₁ ++ (t₂ ++ []))) .normal :=
  .unconditional rfl (.sequence (Or.inl rfl) (.cons ha (.cons hb .nil)))

/-- Two statements with no position of their own are in source order. -/
theorem pairOf_formed {tree a b : PCFNNode} (ha : a.subtree = [a]) (hb : b.subtree = [b])
    (hkinds : a.leaves = [] ∧ b.leaves = [] ∧ a.body = [] ∧ b.body = [])
    (hloops : ¬ a.kind.isHeadLoop ∧ ¬ b.kind.isHeadLoop)
    (helse : a.elseBody = [] ∧ b.elseBody = [])
    (horder : posLe (nodeStartPos (editorCtx tree) a) (nodeStartPos (editorCtx tree) b) = true) :
    Formed (editorCtx tree) (pairOf a b) := by
  obtain ⟨hla, hlb, hba, hbb⟩ := hkinds
  intro m hm
  have hsub : (pairOf a b).subtree = [pairOf a b, a, b] := by
    rw [PCFNNode.subtree_eq]
    simp [pairOf, PCFNNode.leaves, PCFNNode.body, PCFNNode.elseBody, PCFNNode.subtrees, ha, hb]
  simp only [hsub, List.mem_cons, List.not_mem_nil, or_false] at hm
  rcases hm with rfl | rfl | rfl
  · exact
      { leafKinds := by simp [pairOf, PCFNNode.leaves]
        inOrder := fun _ => by simp [pairOf, PCFNNode.body, horder]
        oneBranch := fun h => by simp [pairOf] at h
        oneBody := fun h => by simp [pairOf, CfnKind.isHeadLoop] at h }
  · exact
      { leafKinds := by simp [hla]
        inOrder := by simp [hba]
        oneBranch := by simp [hba, helse.1]
        oneBody := fun h => absurd h hloops.1 }
  · exact
      { leafKinds := by simp [hlb]
        inOrder := by simp [hbb]
        oneBranch := by simp [hbb, helse.2]
        oneBody := fun h => absurd h hloops.2 }

/-- An empty `try` is given up safely. -/
theorem emptyTry_safe {t : List PCFNNode} {o : Outcome}
    (h : Exec sel (.node emptyTry) t o) : (t = [] ∨ t = [emptyTry]) ∧ (o = .normal ∨ o = .failed) := by
  have hleaves : ∀ {t o}, Exec sel (.leaves []) t o → t = [] ∧ (o = .normal ∨ o = .failed) := by
    intro t o hl
    cases hl with
    | fail => exact ⟨rfl, Or.inr rfl⟩
    | leavesNil => exact ⟨rfl, Or.inl rfl⟩
  have hlist : ∀ {t o}, Exec sel (.list []) t o → t = [] ∧ (o = .normal ∨ o = .failed) := by
    intro t o hl
    cases hl with
    | fail => exact ⟨rfl, Or.inr rfl⟩
    | nil => exact ⟨rfl, Or.inl rfl⟩
  have hbody : ∀ {t o}, Exec sel (.body emptyTry) t o → t = [] ∧ (o = .normal ∨ o = .failed) := by
    intro t o hb
    cases hb with
    | fail => exact ⟨rfl, Or.inr rfl⟩
    | sequence _ hl => exact hlist hl
    | _ => simp_all [emptyTry, CfnKind.isLeaf, CfnKind.isHeadLoop]
  cases h with
  | fail => exact ⟨Or.inl rfl, Or.inr rfl⟩
  | nodeStop hl _ =>
    obtain ⟨rfl, ho⟩ := hleaves hl
    exact ⟨Or.inl rfl, ho⟩
  | node hl hb =>
    obtain ⟨rfl, -⟩ := hleaves hl
    obtain ⟨rfl, ho⟩ := hbody hb
    exact ⟨Or.inr rfl, ho⟩

/-- `begin try … end; P.Validate(…); end` changes the record before it is loaded, and leaves it
dirty. -/
theorem walkParam_afterTry :
    ((walkParam (editorCtx (pairOf emptyTry (opOf "validate"))) none).requiresLoadedAtEntry ≠ .no ∧
      (walkParam (editorCtx (pairOf emptyTry (opOf "validate"))) none).mutatesBeforeLoad ≠ .no) ∧
    (walkParam (editorCtx (pairOf emptyTry (opOf "validate"))) none).dirtyAtExit ≠ .no := by
  have htry : Exec (fun _ b => b = true) (.node emptyTry) [emptyTry] .normal :=
    .unconditional rfl (.sequence (Or.inr (Or.inr (Or.inl rfl))) .nil)
  have hrun := exec_pairOf htry (exec_opOf "validate")
  have hform : Formed (editorCtx (pairOf emptyTry (opOf "validate")))
      (pairOf emptyTry (opOf "validate")) :=
    pairOf_formed rfl rfl ⟨rfl, rfl, rfl, rfl⟩ (by simp [emptyTry, opOf, CfnKind.isHeadLoop])
      ⟨rfl, rfl⟩ (by decide)
  have hgiven : givenUp (pairOf emptyTry (opOf "validate")) 0 = [(emptyTry, false)] := rfl
  have hkept : GivenUpKept (fun _ b => b = true) (pairOf emptyTry (opOf "validate")) := by
    intro g hg t o hrun
    rw [hgiven, List.mem_singleton] at hg
    subst hg
    exact (emptyTry_safe hrun).2.imp_right Or.inl
  have hhides : HidesNothing (editorCtx (pairOf emptyTry (opOf "validate")))
      (fun _ b => b = true) (pairOf emptyTry (opOf "validate")) := by
    intro g hg t o hrun
    rw [hgiven, List.mem_singleton] at hg
    subst hg
    rcases (emptyTry_safe hrun).1 with rfl | rfl <;> decide
  have hnodes : ∀ m ∈ (pairOf emptyTry (opOf "validate")).subtree,
      m.kind ≠ .forTo ∧ m.kind ≠ .foreach ∧ m.kind ≠ .repeatUntil := by
    intro m hm
    have hsub : (pairOf emptyTry (opOf "validate")).subtree =
        [pairOf emptyTry (opOf "validate"), emptyTry, opOf "validate"] := rfl
    simp only [hsub, List.mem_cons, List.not_mem_nil, or_false] at hm
    rcases hm with rfl | rfl | rfl <;> simp [pairOf, emptyTry, opOf]
  have hclosed : Enclosed (pairOf emptyTry (opOf "validate")) := by
    refine .node (by simp [Jumps, pairOf]) (fun c hc => ?_) (by simp [pairOf, PCFNNode.elseBody])
    simp only [pairOf, PCFNNode.body, Option.getD_some, List.mem_cons, List.not_mem_nil,
      or_false] at hc
    rcases hc with rfl | rfl <;>
      exact .node (by simp [Jumps, emptyTry, opOf]) (by simp [emptyTry, opOf, PCFNNode.body])
        (by simp [emptyTry, opOf, PCFNNode.elseBody])
  obtain ⟨hentry, hexit, hfollows⟩ := walkParam_givesUp rfl hform none
  obtain ⟨hentryFound, hexitFound⟩ := hfollows _ _ _ hrun hkept
  have hsplit : pairOf emptyTry (opOf "validate") :: ([emptyTry] ++ ([opOf "validate"] ++ [])) =
      [pairOf emptyTry (opOf "validate"), emptyTry] ++ opOf "validate" :: [] := rfl
  exact ⟨hentry
      (fun _ => hentryFound hclosed (fun _ h => Bool.noConfusion h) hhides _ _ _ hsplit
        (by decide) (by decide))
      ⟨_, _, _, _, _, _, hrun, hsplit, by decide, by decide⟩,
    hexit
      (fun _ => hexitFound (fun _ h => Bool.noConfusion h)
        (fun m hm hk => absurd hk (by simp [hnodes m hm])) (fun m hm hk => absurd hk (hnodes m hm).2.2)
        (Or.inl rfl) _ _ _ hsplit (by decide) (by decide) (by simp))
      ⟨_, _, _, _, _, _, hrun, Or.inl rfl, hsplit, by decide, by simp⟩⟩

/-- `if … then begin … end`. -/
def ifOf (n : PCFNNode) : PCFNNode where
  kind := .ifThen
  children := some [blockOf n]

/-- A statement under `k` nested conditions. -/
def nest : ℕ → PCFNNode → PCFNNode
  | 0, n => n
  | k + 1, n => ifOf (nest k n)

theorem nest_run (id : String) : ∀ k, ∃ t,
    Exec (fun _ b => b = true) (.node (nest k (opOf id))) (t ++ [opOf id]) .normal ∧
      ∀ m ∈ t, m.kind ≠ .op ∧ m.kind ≠ .call
  | 0 => ⟨[], exec_opOf id, by simp⟩
  | k + 1 => by
    obtain ⟨t, hrun, ht⟩ := nest_run id k
    have hblock : Exec (fun _ b => b = true) (.node (blockOf (nest k (opOf id))))
        (blockOf (nest k (opOf id)) :: ((t ++ [opOf id]) ++ [])) .normal :=
      .unconditional rfl (.sequence (Or.inl rfl) (.cons hrun .nil))
    have hif : Exec (fun _ b => b = true) (.node (nest (k + 1) (opOf id)))
        (nest (k + 1) (opOf id) :: ((blockOf (nest k (opOf id)) ::
          ((t ++ [opOf id]) ++ [])) ++ [])) .normal :=
      .unconditional rfl (.thenBranch rfl rfl (.cons hblock .nil))
    refine ⟨nest (k + 1) (opOf id) :: blockOf (nest k (opOf id)) :: t, by simpa using hif, ?_⟩
    intro m hm
    rcases List.mem_cons.mp hm with rfl | hm
    · simp [nest, ifOf]
    · rcases List.mem_cons.mp hm with rfl | hm
      · simp [blockOf]
      · exact ht m hm

theorem nest_formed (id : String) : ∀ k, Formed ctx (nest k (opOf id))
  | 0 => by
    intro m hm
    have hsub : (opOf id).subtree = [opOf id] := rfl
    rw [nest, hsub, List.mem_singleton] at hm
    subst hm
    exact (NodeShape.ofSmall (by simp [opOf]) (by simp [opOf, PCFNNode.leaves])
      (by simp [opOf, PCFNNode.body]) rfl (by simp [opOf])).form
  | k + 1 => by
    intro m hm
    have hsub : (nest (k + 1) (opOf id)).subtree = nest (k + 1) (opOf id) ::
        blockOf (nest k (opOf id)) :: (nest k (opOf id)).subtree := by
      rw [PCFNNode.subtree_eq]
      simp [nest, ifOf, blockOf, PCFNNode.leaves, PCFNNode.body, PCFNNode.elseBody,
        PCFNNode.subtrees, PCFNNode.subtree, PCFNNode.subtreesOpt]
    rw [hsub] at hm
    rcases List.mem_cons.mp hm with rfl | hm
    · exact (NodeShape.ofSmall (by simp [nest, ifOf]) (by simp [nest, ifOf, PCFNNode.leaves])
        (by simp [nest, ifOf, PCFNNode.body]) rfl (by simp [nest, ifOf])).form
    · rcases List.mem_cons.mp hm with rfl | hm
      · exact (NodeShape.ofSmall (by simp [blockOf]) (by simp [blockOf, PCFNNode.leaves])
          (by simp [blockOf, PCFNNode.body]) rfl (by simp [blockOf])).form
      · exact nest_formed id k m hm

/-- `P.Validate(F, P.Modify())`. -/
def validateModified : PCFNNode where
  kind := .op
  operationId := some "validate"
  conditionLeaves := some [opOf "modify"]

/-- **Giving up hides what it gives up, and a persist hides a later validate**: 17 conditions deep
`P.Modify()` is not found, and `P.Validate(F, P.Modify())` is told clean at the exit. -/
theorem walkParam_hides :
    (¬ ∀ (ctx : WalkCtx) (tree : PCFNNode) (sel : PCFNNode → Bool → Prop)
      (t pre post : List PCFNNode) (m : PCFNNode), ctx.routine.statementTree = some tree →
      Formed ctx tree → RunsAll sel → Exec sel (.node tree) t .normal → t = pre ++ m :: post →
      exposes ctx m = true → (∀ x ∈ pre, loads ctx x = false ∧ callLoads ctx x = false) →
      (walkParam ctx none).requiresLoadedAtEntry ≠ .no ∧
        (walkParam ctx none).mutatesBeforeLoad ≠ .no) ∧
    ¬ ∀ (ctx : WalkCtx) (tree : PCFNNode) (sel : PCFNNode → Bool → Prop)
      (t pre post : List PCFNNode) (v : PCFNNode), ctx.routine.statementTree = some tree →
      Formed ctx tree → RunsAll sel → Exec sel (.node tree) t .normal → t = pre ++ v :: post →
      validates ctx v = true → (∀ x ∈ post, loads ctx x = false ∧ persists ctx x = false) →
      (walkParam ctx none).dirtyAtExit ≠ .no := by
  have hall : RunsAll fun _ b => b = true := fun _ h => Bool.noConfusion h
  constructor
  · intro hclaim
    obtain ⟨t, hrun, ht⟩ := nest_run "modify" 17
    have hpre : ∀ x ∈ t, loads (editorCtx (nest 17 (opOf "modify"))) x = false ∧
        callLoads (editorCtx (nest 17 (opOf "modify"))) x = false := by
      intro x hx
      obtain ⟨hop, hcall⟩ := ht x hx
      simp [loads, callLoads, opRole, hop, hcall]
    have hyes := (hclaim (editorCtx (nest 17 (opOf "modify"))) _ _ _ t [] (opOf "modify") rfl
      (nest_formed "modify" 17) hall hrun rfl (by decide) hpre).1
    exact hyes (by decide +kernel)
  · intro hclaim
    have hform : Formed (editorCtx validateModified) validateModified := by
      intro m hm
      have hsub : validateModified.subtree = [validateModified, opOf "modify"] := rfl
      simp only [hsub, List.mem_cons, List.not_mem_nil, or_false] at hm
      rcases hm with rfl | rfl <;>
        exact (NodeShape.ofSmall (by decide) (by decide) (by decide) rfl (by decide)).form
    have hcond : Exec (fun _ b => b = true) (.leaves validateModified.before)
        ([opOf "modify"] ++ []) .normal := .leavesCons (exec_opOf "modify") .leavesNil
    have hrun : Exec (fun _ b => b = true) (.node validateModified)
        ([opOf "modify"] ++ validateModified :: []) .normal := .node hcond (.leaf (Or.inl rfl))
    have hyes := hclaim (editorCtx validateModified) _ _ _ [opOf "modify"] [] validateModified
      rfl hform hall hrun rfl (by decide) (by simp)
    exact hyes (by decide)

end AlSem.L4
