/-
# What the entry facts promise

When a run persists or validates the record before anything loads it, the walker finds that the
record must be loaded at entry, in however many rounds of however many loops that happens.  A run
may leave out leaves and the rest of a failed statement, as long as nothing left out loads the
record.
-/
import AlSem.L4.CfgRuns
import AlSem.L4.CfgState

namespace AlSem.L4

open AlSem.Model

variable {ctx : WalkCtx} {sel : PCFNNode → Bool → Prop}

/-! ## 1. The history of the entry facts -/

/-- What the entry facts follow. -/
def entryTracking (ctx : WalkCtx) : Tracking where
  Hist := Hist
  step := Hist.step ctx
  blur := Hist.blur
  Asks := Sound

theorem Hist.few (l : List Hist) (hl : l.Nodup) : l.length ≤ loopBound := by
  have hsub : l ⊆ [.fresh, .exposed, .settled] := by
    intro h _
    cases h <;> simp
  exact (hl.subperm hsub).length_le

theorem entryTracking_lawful : Lawful ctx (entryTracking ctx) where
  join_left := fun b ha => sound_join_left ha b
  join_right := fun a _ hb => sound_join_right a hb
  saturate := fun hs => sound_saturate hs
  blur := fun hs => sound_blur hs
  fieldRead := fun fa hs => sound_fieldRead hs fa
  op := fun hk hs => sound_walkOp hk hs
  call := fun hk hs => sound_walkCall hk hs
  other := fun h hop hcall => Hist.step_other hop hcall h
  few := Hist.few

/-- The second history asks for no less. -/
def Hist.Under (h h' : Hist) : Prop := h' = h ∨ h = .settled ∨ h' = .exposed

/-- The node neither loads the parameter nor hands it to a callee that does. -/
def LoadsNothing (ctx : WalkCtx) (n : PCFNNode) : Prop :=
  loads ctx n = false ∧ callLoads ctx n = false

/-- Such a node changes nothing, or exposes the parameter. -/
theorem Hist.step_loadsNothing {n : PCFNNode} (hn : LoadsNothing ctx n) (h : Hist) :
    h.step ctx n = h ∨ h.step ctx n = .exposed := by
  obtain ⟨hload, hcall⟩ := hn
  cases h with
  | fresh =>
    cases hexp : exposes ctx n with
    | true => exact Or.inr (by simp [Hist.step, hexp])
    | false => exact Or.inl (by simp [Hist.step, hexp, hload, hcall])
  | exposed => exact Or.inl rfl
  | settled => exact Or.inl rfl

theorem Hist.Under.step {h h' : Hist} (hle : h.Under h') (n : PCFNNode) :
    (h.step ctx n).Under (h'.step ctx n) := by
  rcases hle with rfl | rfl | rfl
  · exact Or.inl rfl
  · exact Or.inr (Or.inl rfl)
  · exact Or.inr (Or.inr rfl)

theorem Hist.under_loadsNothing {n : PCFNNode} (hn : LoadsNothing ctx n) (h : Hist) :
    h.Under (h.step ctx n) :=
  (Hist.step_loadsNothing hn h).imp id Or.inr

/-- Entry histories compared: an exposed one stays so. -/
def entryCompare (ctx : WalkCtx) : Compare (entryTracking ctx) where
  le := Hist.Under
  Top := fun h => h = Hist.exposed
  Keeps := LoadsNothing ctx
  Still := LoadsNothing ctx
  refl := fun _ => Or.inl rfl
  trans := fun {a b c} hab hbc => by
    rcases hab with rfl | rfl | rfl
    · exact hbc
    · exact Or.inr (Or.inl rfl)
    · rcases hbc with rfl | hbc | rfl
      · exact Or.inr (Or.inr rfl)
      · exact Hist.noConfusion hbc
      · exact Or.inr (Or.inr rfl)
  step := fun n hle => hle.step n
  blur := fun h => by cases h <;> simp [Hist.Under, entryTracking, Hist.blur]
  top_step := fun n hh => by subst hh; rfl
  top_blur := fun hh => by subst hh; rfl
  top_le := fun hle hh => by
    subst hh
    rcases hle with rfl | hle | rfl
    · rfl
    · exact Hist.noConfusion hle
    · rfl
  keeps := fun h hn => Hist.under_loadsNothing hn h
  still := fun h hn => Hist.step_loadsNothing hn h
  still_le := fun h hn => Hist.under_loadsNothing hn h

/-- Whatever a node does to the history, it is asked for less, or the parameter is exposed. -/
theorem entryCompare_falls : (entryCompare ctx).Falls := by
  intro h n
  cases h with
  | fresh =>
    show Hist.Under (Hist.step ctx .fresh n) .fresh ∨ Hist.step ctx .fresh n = .exposed
    unfold Hist.step
    dsimp only
    split
    · exact Or.inr rfl
    · split
      · exact Or.inl (Or.inr (Or.inl rfl))
      · exact Or.inl (Or.inl rfl)
  | exposed => exact Or.inr rfl
  | settled => exact Or.inl (Or.inl rfl)

/-- A header that was evaluated changes nothing when it is evaluated again. -/
theorem Hist.run_again (h : Hist) (t u : List PCFNNode) :
    ((h.run ctx t).run ctx u).run ctx t = (h.run ctx t).run ctx u := by
  cases hu : (h.run ctx t).run ctx u with
  | exposed => exact Hist.exposed_run t
  | settled => exact Hist.settled_run t
  | fresh =>
    cases ht : h.run ctx t with
    | exposed => simp [ht] at hu
    | settled => simp [ht] at hu
    | fresh =>
      cases h with
      | exposed => simp at ht
      | settled => simp at ht
      | fresh => exact ht

theorem applyDispatch_flagged {s : PerParamState} (hs : Flagged s) (pd : ParamDispatch) :
    Flagged (applyDispatch ctx pd s) := by
  have hrun : ∀ bindings run, Flagged (applyRun ctx pd bindings run s) := by
    intro bindings run
    unfold applyRun
    generalize run.filterMap (fun i => bindings[i]?) = bs
    induction bs generalizing s with
    | nil => exact hs
    | cons b bs ih => exact ih (applyCalleeRole_flagged hs _ _)
  unfold applyDispatch
  cases pd.kind with
  | unseen => exact opaqueTransfer_flagged hs _ _ _
  | exact bindings =>
    dsimp only
    split
    · exact opaqueTransfer_flagged hs _ _ _
    · split
      · exact hs
      · rename_i a rest hcons
        have hmem : a ∈ pd.sequences.map fun run => applyRun ctx pd bindings run s := by
          rw [hcons]
          exact List.mem_cons_self
        obtain ⟨run, -, rfl⟩ := List.mem_map.mp hmem
        exact (@entryTracking_lawful ctx).foldl_join (h := Hist.exposed)
          List.mem_cons_self (hrun bindings run)

/-! ## 2. The facts of a parameter -/

theorem foldl_joinPresence_yes {f : PerParamState → EffectPresence} :
    ∀ {l : List PerParamState} {a : EffectPresence}, (a = .yes ∨ ∃ s ∈ l, f s = .yes) →
      l.foldl (fun a s => joinPresence a (f s)) a = .yes
  | [], a, h => by simpa using h
  | s :: l, a, h => by
    rw [List.foldl_cons]
    refine foldl_joinPresence_yes ?_
    rcases h with rfl | ⟨x, hx, hyes⟩
    · exact Or.inl (joinPresence_yes_left _)
    · rcases List.mem_cons.mp hx with rfl | hx
      · exact Or.inl (by rw [hyes]; exact joinPresence_yes_right _)
      · exact Or.inr ⟨x, hx, hyes⟩

/-- One flagged state at the end makes both facts `yes`. -/
theorem walkParam_yes {dispatch : Option ParamDispatch} {s : PerParamState}
    (hmem : s ∈ finalStates ctx dispatch) (hs : Flagged s) :
    (walkParam ctx dispatch).requiresLoadedAtEntry = .yes ∧
      (walkParam ctx dispatch).mutatesBeforeLoad = .yes :=
  ⟨foldl_joinPresence_yes (Or.inr ⟨s, hmem, hs.1⟩),
    foldl_joinPresence_yes (Or.inr ⟨s, hmem, hs.2⟩)⟩

/-- A run that persists or validates the parameter with nothing before that loads it is
exposed. -/
theorem run_exposed {pre post : List PCFNNode} {m : PCFNNode} (hm : exposes ctx m = true)
    (hpre : ∀ x ∈ pre, loads ctx x = false ∧ callLoads ctx x = false) :
    Hist.fresh.run ctx (pre ++ m :: post) = .exposed := by
  induction pre with
  | nil =>
    rw [List.nil_append, Hist.run_cons]
    simp [Hist.step, hm]
  | cons x pre ih =>
    obtain ⟨hload, hcall⟩ := hpre x List.mem_cons_self
    rw [List.cons_append, Hist.run_cons]
    cases hx : exposes ctx x with
    | true => simp [Hist.step, hx]
    | false =>
      have hstep : Hist.step ctx .fresh x = .fresh := by simp [Hist.step, hx, hload, hcall]
      rw [hstep]
      exact ih fun y hy => hpre y (List.mem_cons_of_mem _ hy)

/-- **The walk follows a path to an end of the routine that exposes the parameter.** -/
def EntryFound (ctx : WalkCtx) (tree : PCFNNode) : Prop :=
  ∃ p o, Follows 0 (.node tree) p o ∧ Final o ∧
    (entryTracking ctx).walk Hist.fresh p = Hist.exposed

/-- Such a path raises both facts. -/
theorem EntryFound.facts {tree : PCFNNode} (hfound : EntryFound ctx tree)
    (htree : ctx.routine.statementTree = some tree) (hform : Formed ctx tree)
    (dispatch : Option ParamDispatch) :
    (walkParam ctx dispatch).requiresLoadedAtEntry = .yes ∧
      (walkParam ctx dispatch).mutatesBeforeLoad = .yes := by
  obtain ⟨p, o, hpath, ho, hend⟩ := hfound
  have hfresh : Sound .fresh PerParamState.initial := by simp [Sound, PerParamState.initial]
  obtain ⟨s, hmem, hasks⟩ :=
    follows_final entryTracking_lawful htree hform hpath ho (h := Hist.fresh) hfresh
  have hflag : Flagged s := by
    have hasks' : Sound ((entryTracking ctx).walk Hist.fresh p) s := hasks
    rwa [hend] at hasks'
  cases dispatch with
  | none => exact walkParam_yes hmem hflag
  | some pd =>
    refine walkParam_yes (s := applyDispatch ctx pd s) ?_ (applyDispatch_flagged hflag pd)
    rw [finalStates_dispatch]
    exact List.mem_map_of_mem hmem

/-- **The runs leave no load out**: neither a leaf that may not run nor an `asserterror` statement
that fails holds one, and no such statement is left for the end of a round. -/
def SparesLoads (ctx : WalkCtx) (sel : PCFNNode → Bool → Prop) : Prop :=
  ∀ n, sel n false → (n.pathHint = some .mayRun → ∀ m ∈ n.subtree, LoadsNothing ctx m) ∧
    (n.pathHint = some .assertError → Enclosed n ∧ ∀ m ∈ n.subtree, LoadsNothing ctx m)

/-- The walk follows every run that exposes the parameter. -/
theorem entryFound_of_run {tree : PCFNNode} (hclosed : Enclosed tree)
    (htreads : Treads (entryCompare ctx) ctx sel 0 tree) (hsel : SparesLoads ctx sel)
    {t : List PCFNNode} {o : Outcome} (hrun : Exec sel (.node tree) t o)
    (hexposed : Hist.run ctx .fresh t = .exposed) : EntryFound ctx tree := by
  obtain ⟨p, o', hpath, hends⟩ := exec_follows (C := entryCompare ctx) entryTracking_lawful
    hsel hrun 0 Hist.fresh Hist.fresh htreads ((entryCompare ctx).refl _)
  have htop : (entryTracking ctx).walk Hist.fresh p = Hist.exposed :=
    hends.resolve_right fun hnot => hnot.1 hexposed
  exact ⟨p, o', hpath, hpath.final hclosed, htop⟩

/-- **The entry facts cover every run.**  When a run of a tree within the depth budget, or the part
of it that is looked at, persists or validates the parameter, and no operation and no call before
that leaves it loaded, the walker finds that it must be loaded at entry and is changed before a
load. -/
theorem walkParam_requires {tree : PCFNNode} (htree : ctx.routine.statementTree = some tree)
    (hshape : Shaped ctx tree) (hclosed : Enclosed tree) (hdepth : nesting tree ≤ maxCfgWalkDepth)
    (dispatch : Option ParamDispatch) (hsel : SparesLoads ctx sel) {t : List PCFNNode} {o : Outcome}
    (hrun : Exec sel (.node tree) t o) {pre post : List PCFNNode} {m : PCFNNode}
    (ht : t = pre ++ m :: post) (hm : exposes ctx m = true)
    (hpre : ∀ x ∈ pre, loads ctx x = false ∧ callLoads ctx x = false) :
    (walkParam ctx dispatch).requiresLoadedAtEntry = .yes ∧
      (walkParam ctx dispatch).mutatesBeforeLoad = .yes := by
  have hfits : Fits 0 tree := by
    unfold Fits
    omega
  have hwhole : givenUp tree 0 = [] :=
    givenUp_eq_nil tree hfits fun m hm => (hshape m hm).noTry
  have htreads : Treads (entryCompare ctx) ctx sel 0 tree :=
    { formed := hshape.formed
      skips := by simp [hwhole]
      header := fun _ _ _ t _ h u => Or.inl (Hist.run_again h t u)
      rounds := Or.inl entryCompare_falls }
  exact (entryFound_of_run hclosed htreads hsel hrun (ht ▸ run_exposed hm hpre)).facts htree
    hshape.formed dispatch

/-- A routine `F(P: Record)` over a tree, where the call site `cs` hands `P` to the `var` parameter
of a callee that loads it. -/
def loaderCtx (tree : PCFNNode) : WalkCtx where
  toLowercase := id
  routine :=
    { id := "f"
      recordOperations := [{ id := "op", op := "Modify", recordVariableName := "p" }]
      callSites :=
        [{ id := "cs"
           argumentBindings :=
            [{ parameterIndex := 0, sourceKind := "parameter", sourceVariableName := some "p" }] }]
      statementTree := some tree }
  nameLc := "p"
  recVarId := none
  snapshot := AList.singleton "g"
    { routineId := "g", dbEffects := [], inRecursiveCycle := false, hasUnresolvedCalls := false
      uncertainties := []
      parameterRoles :=
        [{ parameterIndex := 0, tableId := "t", readsFields := .known [], writesFields := .known []
           mayResetFilters := false, mayChangeLoadFields := false, mayAssignRecord := false
           mayUseRecordRef := false, requiresLoadedAtEntry := .no
           requiredLoadedFieldsAtEntry := .known [], mutatesBeforeLoad := .no
           persistsCurrentRecord := .no, setBasedDbWrites := .no, validatesParam := .no
           copiesIntoParam := .no, resetsFiltersOnParam := .no, dirtyAtExit := .no
           currentLoadedFieldsAtExit := .full, mutatesParam := .no, loadsFromDbParam := .yes
           initialisesParam := .no }] }
  finalMap := ∅
  upgradedBindings := AList.singleton "cs" [⟨0, true, .resolved⟩]
  graph :=
    { nodes := ["f", "g"]
      edgesByFrom := AList.singleton "f"
        [{ «from» := "f", «to» := "g", kind := "direct", callsiteId := some "cs" }] }
  bodyAvailById := AList.singleton "g" true

/-- A call that one alternative of a ternary expression makes. -/
def maybeCall : PCFNNode where
  kind := .call
  pathHint := some .mayRun

/-- `P.Modify(... ? ...() : false)`. -/
def modifyMaybe : PCFNNode where
  kind := .op
  operationId := some "op"
  conditionLeaves := some [maybeCall]

/-- `Loader(P)`. -/
def loaderCall : PCFNNode where
  kind := .call
  callsiteId := some "cs"

/-- `P.Modify(Loader(P))`. -/
def modifyLoaded : PCFNNode where
  kind := .op
  operationId := some "op"
  conditionLeaves := some [loaderCall]

/-- `begin … end` around one statement. -/
def blockOf (n : PCFNNode) : PCFNNode where
  kind := .block
  children := some [n]

/-- `while … do begin … end` with nothing in the condition. -/
def whileOf (n : PCFNNode) : PCFNNode where
  kind := .whileDo
  children := some [blockOf n]

/-- A node with at most one statement in a branch. -/
theorem NodeShape.ofSmall {n : PCFNNode} (htry : n.kind ≠ .tryBlock)
    (hleaves : ∀ l ∈ n.leaves, l.kind = .op ∨ l.kind = .call ∨ l.kind = .error)
    (hbody : n.body.length ≤ 1) (helse : n.elseBody = [])
    (hloop : n.kind = .whileDo ∨ n.kind = .forTo ∨ n.kind = .foreach → n.body.length = 1) :
    NodeShape ctx n where
  noTry := htry
  leafKinds := hleaves
  inOrder := fun _ => by
    match n.body, hbody with
    | [], _ => exact List.Pairwise.nil
    | [m], _ => exact List.pairwise_singleton _ m
  oneBranch := fun _ => ⟨hbody, by simp [helse]⟩
  oneBody := hloop

/-- The run takes every branch, and leaves the call out. -/
def skipsCall (n : PCFNNode) (b : Bool) : Prop := b = true ∨ n = maybeCall

/-- `while … do begin P.Modify(... ? ...() : false); end`, once around. -/
theorem modify_run : Exec skipsCall (.node (blockOf (whileOf modifyMaybe)))
    [blockOf (whileOf modifyMaybe), whileOf modifyMaybe, blockOf modifyMaybe, modifyMaybe]
    .normal := by
  have hskip : Exec skipsCall (.leaves modifyMaybe.before) [] .normal :=
    .leavesSkip rfl (Or.inr rfl) .leavesNil
  have hop : Exec skipsCall (.node modifyMaybe) [modifyMaybe] .normal :=
    .node hskip (.leaf (Or.inl rfl))
  have hblock : Exec skipsCall (.node (blockOf modifyMaybe))
      [blockOf modifyMaybe, modifyMaybe] .normal :=
    .unconditional rfl (.sequence (Or.inl rfl) (.cons hop .nil))
  have hlist : Exec skipsCall (.list (whileOf modifyMaybe).body)
      [blockOf modifyMaybe, modifyMaybe] .normal := .cons hblock .nil
  have hcond : Exec skipsCall (.leaves (whileOf modifyMaybe).again) [] .normal := .leavesNil
  have hround : Exec skipsCall (.round (whileOf modifyMaybe))
      [blockOf modifyMaybe, modifyMaybe] .normal := .round hlist (Or.inl rfl) hcond
  have hwhile : Exec skipsCall (.node (whileOf modifyMaybe))
      [whileOf modifyMaybe, blockOf modifyMaybe, modifyMaybe] .normal :=
    .unconditional rfl (.headLoop (Or.inl rfl) (.loopRound hround .loopStop))
  exact .unconditional rfl (.sequence (Or.inl rfl) (.cons hwhile .nil))

theorem modify_shaped : Shaped (loaderCtx (blockOf (whileOf modifyMaybe)))
    (blockOf (whileOf modifyMaybe)) := by
  intro m hm
  have htree : (blockOf (whileOf modifyMaybe)).subtree =
      [blockOf (whileOf modifyMaybe), whileOf modifyMaybe, blockOf modifyMaybe, modifyMaybe,
        maybeCall] := rfl
  simp only [htree, List.mem_cons, List.not_mem_nil, or_false] at hm
  rcases hm with rfl | rfl | rfl | rfl | rfl <;>
    exact .ofSmall (by decide) (by decide) (by decide) rfl (by decide)

/-- What is not in a loop has neither `break` nor `continue`. -/
theorem blockOf_enclosed {n : PCFNNode} (hn : Enclosed n) : Enclosed (blockOf n) := by
  refine .node (by simp [Jumps, blockOf]) (fun c hc => ?_) (by simp [blockOf, PCFNNode.elseBody])
  have hone : c = n := by simpa [blockOf, PCFNNode.body] using hc
  exact hone ▸ hn

/-- The walker finds the requirement of that run. -/
theorem walkParam_modify :
    (walkParam (loaderCtx (blockOf (whileOf modifyMaybe))) none).requiresLoadedAtEntry = .yes ∧
      (walkParam (loaderCtx (blockOf (whileOf modifyMaybe))) none).mutatesBeforeLoad = .yes := by
  have hspares : SparesLoads (loaderCtx (blockOf (whileOf modifyMaybe))) skipsCall := by
    rintro n (htrue | rfl)
    · exact Bool.noConfusion htrue
    · have hsub : maybeCall.subtree = [maybeCall] := rfl
      refine ⟨fun _ m hm => ?_, fun hassert => by simp [maybeCall] at hassert⟩
      rw [hsub, List.mem_singleton] at hm
      subst hm
      exact ⟨rfl, rfl⟩
  have hclosed : Enclosed (blockOf (whileOf modifyMaybe)) :=
    blockOf_enclosed (.loop (Or.inl (Or.inl rfl)))
  have hsplit : [blockOf (whileOf modifyMaybe), whileOf modifyMaybe, blockOf modifyMaybe,
      modifyMaybe] = [blockOf (whileOf modifyMaybe), whileOf modifyMaybe, blockOf modifyMaybe] ++
        modifyMaybe :: [] := rfl
  exact walkParam_requires rfl modify_shaped hclosed (by decide) none hspares modify_run hsplit
    (by decide) (by decide)

/-- **A call that loads the parameter hides what follows**, though no operation of the tree loads
it: the run of `P.Modify(Loader(P))` is not found. -/
theorem walkParam_misses_call : ¬ ∀ (ctx : WalkCtx) (tree : PCFNNode)
    (sel : PCFNNode → Bool → Prop) (t pre post : List PCFNNode) (m : PCFNNode),
    ctx.routine.statementTree = some tree → Shaped ctx tree →
    nesting tree ≤ maxCfgWalkDepth → RunsAll sel → Exec sel (.node tree) t .normal →
    t = pre ++ m :: post → exposes ctx m = true → (∀ x ∈ pre, loads ctx x = false) →
    (walkParam ctx none).requiresLoadedAtEntry = .yes ∧
      (walkParam ctx none).mutatesBeforeLoad = .yes := by
  intro hclaim
  have hall : RunsAll fun _ b => b = true := fun _ h => Bool.noConfusion h
  have hcall : Exec (fun _ b => b = true) (.node loaderCall) [loaderCall] .normal :=
    .unconditional rfl (.leaf (Or.inr rfl))
  have hcond : Exec (fun _ b => b = true) (.leaves modifyLoaded.before) [loaderCall] .normal :=
    .leavesCons hcall .leavesNil
  have hop : Exec (fun _ b => b = true) (.node modifyLoaded) [loaderCall, modifyLoaded] .normal :=
    .node hcond (.leaf (Or.inl rfl))
  have hrun : Exec (fun _ b => b = true) (.node (blockOf modifyLoaded))
      [blockOf modifyLoaded, loaderCall, modifyLoaded] .normal :=
    .unconditional rfl (.sequence (Or.inl rfl) (.cons hop .nil))
  have hshape : Shaped (loaderCtx (blockOf modifyLoaded)) (blockOf modifyLoaded) := by
    intro m hm
    have htree : (blockOf modifyLoaded).subtree = [blockOf modifyLoaded, modifyLoaded,
      loaderCall] := rfl
    simp only [htree, List.mem_cons, List.not_mem_nil, or_false] at hm
    rcases hm with rfl | rfl | rfl <;>
      exact .ofSmall (by decide) (by decide) (by decide) rfl (by decide)
  have hyes := (hclaim (loaderCtx (blockOf modifyLoaded)) _ _ _ [blockOf modifyLoaded, loaderCall]
    [] modifyLoaded rfl hshape (by decide) hall hrun rfl (by decide)
    (by decide)).1
  have hno : (walkParam (loaderCtx (blockOf modifyLoaded)) none).requiresLoadedAtEntry = .no := by
    decide +kernel
  rw [hno] at hyes
  exact EffectPresence.noConfusion hyes

end AlSem.L4
