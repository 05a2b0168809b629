/-
# What the exit fact promises

A record that is validated and not persisted since is not told clean at the exit, in however many
rounds of however many loops that happens, as long as the walk follows some path that it tells so.
A validate that finds the record persisted is not told, so a run may be hidden; within the depth
budget the walk follows every run that validates a record when it is not persisted.
-/
import AlSem.L4.CfgGiveUp

namespace AlSem.L4

open AlSem.Model

variable {ctx : WalkCtx} {sel : PCFNNode → Bool → Prop}

/-! ## 1. Trees within the budget -/

/-- Every `try` of the tree is empty, as the body walk builds it. -/
def TriesEmpty (tree : PCFNNode) : Prop := ∀ m ∈ tree.subtree, m.kind = .tryBlock → m.body = []

/-- A tree that fits the budget gives up its `try`s and nothing else. -/
theorem givenUp_tries (n : PCFNNode) : ∀ {d : ℕ}, Fits d n →
    ∀ g ∈ givenUp n d, g.1 ∈ n.subtree ∧ g.1.kind = .tryBlock := by
  induction n using PCFNNode.induct with
  | step n ih =>
    intro d hd g hg
    have hdepth : d ≤ maxCfgWalkDepth := by
      unfold Fits at hd
      omega
    by_cases hk : n.kind = .tryBlock
    · rw [givenUp_try hdepth hk, List.mem_singleton] at hg
      subst hg
      exact ⟨n.mem_subtree_self, hk⟩
    · have hpart : ∀ {c : PCFNNode} {d' : ℕ}, c ∈ n.parts → Fits d' c → g ∈ givenUp c d' →
          g.1 ∈ n.subtree ∧ g.1.kind = .tryBlock := by
        intro c d' hc hfits hmem
        obtain ⟨hsub, htry⟩ := ih c hc hfits g hmem
        exact ⟨PCFNNode.subtree_subset hc hsub, htry⟩
      rw [givenUp_parts hdepth hk] at hg
      rcases List.mem_append.mp hg with hg | hg
      · obtain ⟨c, hc, hmem⟩ := List.mem_flatMap.mp hg
        exact hpart (List.mem_append_left _ hc) (hd.leaf hc) hmem
      · rcases List.mem_append.mp hg with hg | hg
        · obtain ⟨c, hc, hmem⟩ := List.mem_flatMap.mp hg
          exact hpart (List.mem_append_right _ (List.mem_append_left _ hc)) (hd.body hc) hmem
        · obtain ⟨c, hc, hmem⟩ := List.mem_flatMap.mp hg
          exact hpart (List.mem_append_right _ (List.mem_append_right _ hc)) (hd.elseBody hc) hmem

/-- An empty `try` falls through, where it does not fail. -/
theorem tryBlock_outcome {n : PCFNNode} (hk : n.kind = .tryBlock) (hempty : n.body = [])
    {t : List PCFNNode} {o : Outcome} (h : Exec sel (.node n) t o) :
    o = .normal ∨ o = .failed := by
  have hbefore : n.before = [] := by simp [PCFNNode.before, hk]
  have hbody : ∀ {t o}, Exec sel (.body n) t o → o = .normal ∨ o = .failed := by
    intro t o hb
    cases hb with
    | fail => exact Or.inr rfl
    | sequence _ hl =>
      rw [hempty] at hl
      cases hl with
      | fail => exact Or.inr rfl
      | nil => exact Or.inl rfl
    | _ => simp_all [CfnKind.isLeaf, CfnKind.isHeadLoop]
  cases h with
  | fail => exact Or.inr rfl
  | node _ hb => exact hbody hb
  | nodeStop hl _ =>
    rw [hbefore] at hl
    cases hl with
    | fail => exact Or.inr rfl
    | leavesNil => exact Or.inl rfl

/-- Such a tree gives up nothing that a run leaves. -/
theorem TriesEmpty.kept {tree : PCFNNode} (htries : TriesEmpty tree)
    (hdepth : nesting tree ≤ maxCfgWalkDepth) : GivenUpKept sel tree := by
  intro g hg t o hrun
  have hfits : Fits 0 tree := by
    unfold Fits
    omega
  obtain ⟨hmem, hk⟩ := givenUp_tries tree hfits g hg
  exact (tryBlock_outcome hk (htries g.1 hmem hk) hrun).imp_right Or.inl

/-! ## 2. The exit fact -/

/-- **The exit fact covers the runs that leave the record changed**, where some path that the walk
follows is told so.  In a tree within the depth budget that is every run that validates the
parameter when it is not persisted, and neither loads nor persists it afterwards: where what the run
leaves out takes no change away, and no header of a counting loop does. -/
theorem walkParam_dirty {tree : PCFNNode} (htree : ctx.routine.statementTree = some tree)
    (hform : Formed ctx tree) (dispatch : Option ParamDispatch) :
    ((SomeRunLeavesDirty ctx tree → ExitFound ctx tree) → SomeRunLeavesDirty ctx tree →
      (walkParam ctx dispatch).dirtyAtExit ≠ .no) ∧
    (nesting tree ≤ maxCfgWalkDepth → TriesEmpty tree → RepeatsFilled tree →
      ∀ (sel : PCFNNode → Bool → Prop) (t pre : List PCFNNode) (v : PCFNNode)
        (post : List PCFNNode) (o : Outcome), SparesChanges ctx sel → HeadersKeep ctx sel tree →
        Exec sel (.node tree) t o → Final o → t = pre ++ v :: post → validates ctx v = true →
        DirtyHist.run ctx .pristine pre ≠ .persisted →
        (∀ x ∈ post, loads ctx x = false ∧ persists ctx x = false) → ExitFound ctx tree) := by
  refine ⟨fun hfound hrun => (hfound hrun).fact htree hform dispatch, ?_⟩
  intro hdepth htries hrepeats sel t pre v post o hsel hheads hrun ho ht hv hpre hpost
  exact exitFound_of_run (treads_dirty hform (htries.kept hdepth) hheads hrepeats) hsel hrun ho
    (ht ▸ run_dirty hv hpre hpost)

/-- `begin if … then begin P.Modify(); end; P.Validate(…); end`. -/
def maybeModified : PCFNNode := pairOf (ifOf (opOf "modify")) (opOf "validate")

theorem maybeModified_subtree : maybeModified.subtree = [maybeModified, ifOf (opOf "modify"),
    blockOf (opOf "modify"), opOf "modify", opOf "validate"] := rfl

theorem maybeModified_formed : Formed (editorCtx maybeModified) maybeModified := by
  intro m hm
  simp only [maybeModified_subtree, List.mem_cons, List.not_mem_nil, or_false] at hm
  rcases hm with rfl | rfl | rfl | rfl | rfl
  · exact
      { leafKinds := by simp [maybeModified, pairOf, PCFNNode.leaves]
        inOrder := fun _ => by
          have hbody : maybeModified.body = [ifOf (opOf "modify"), opOf "validate"] := rfl
          simp only [hbody, List.pairwise_pair]
          decide
        oneBranch := fun h => by simp [maybeModified, pairOf] at h
        oneBody := fun h => by simp [maybeModified, pairOf, CfnKind.isHeadLoop] at h }
  all_goals exact (NodeShape.ofSmall (by decide) (by decide) (by decide) rfl (by decide)).form

/-- Where it is modified the validate is hidden, but the other branch is told: the record is not
told clean. -/
theorem walkParam_dirty_maybeModified :
    (walkParam (editorCtx maybeModified) none).dirtyAtExit ≠ .no := by
  obtain ⟨hexit, hfollows⟩ :=
    @walkParam_dirty (editorCtx maybeModified) _ rfl maybeModified_formed none
  have hmodify : Exec (fun n _ => n.pathHint = none) (.node (ifOf (opOf "modify")))
      (ifOf (opOf "modify") :: ((blockOf (opOf "modify") :: ([opOf "modify"] ++ [])) ++ []))
      .normal :=
    .unconditional rfl (.thenBranch rfl rfl (.cons
      (.unconditional rfl (.sequence (Or.inl rfl) (.cons (exec_opOf "modify") .nil))) .nil))
  have hskip : Exec (fun n _ => n.pathHint = none) (.node (ifOf (opOf "modify")))
      [ifOf (opOf "modify")] .normal := .unconditional rfl (.elseBranch rfl rfl .nil)
  have hspares : SparesChanges (editorCtx maybeModified) fun n _ => n.pathHint = none := by
    intro n hn
    exact ⟨fun h => by simp [hn] at h, fun h => by simp [hn] at h⟩
  have hnodes : ∀ m ∈ maybeModified.subtree,
      m.kind ≠ .forTo ∧ m.kind ≠ .foreach ∧ m.kind ≠ .repeatUntil ∧ m.kind ≠ .tryBlock := by
    intro m hm
    simp only [maybeModified_subtree, List.mem_cons, List.not_mem_nil, or_false] at hm
    rcases hm with rfl | rfl | rfl | rfl | rfl <;> decide
  have hfound : ExitFound (editorCtx maybeModified) maybeModified :=
    hfollows (by decide) (fun m hm hk => absurd hk (hnodes m hm).2.2.2)
      (fun m hm hk => absurd hk (hnodes m hm).2.2.1) _ _
      [maybeModified, ifOf (opOf "modify")] (opOf "validate") [] _ hspares
      (fun m hm hk => absurd hk (by simp [hnodes m hm]))
      (exec_pairOf hskip (exec_opOf "validate")) (Or.inl rfl) rfl (by decide)
      (by decide) (by simp)
  exact hexit (fun _ => hfound)
    ⟨_, _, _, [maybeModified, ifOf (opOf "modify"), blockOf (opOf "modify"), opOf "modify"],
      opOf "validate", [], exec_pairOf hmodify (exec_opOf "validate"), Or.inl rfl, rfl,
      by decide, by simp⟩

/-- `if P.Modify() then begin P.Validate(…); end`. -/
def modifyThenValidate : PCFNNode where
  kind := .ifThen
  conditionLeaves := some [opOf "modify"]
  children := some [blockOf (opOf "validate")]

/-- **A persist hides the validate behind it**: the run of `if P.Modify() then P.Validate(…);` that
takes the branch leaves the record changed, and it is told clean at the exit. -/
theorem validate_after_modify : ¬ ∀ (ctx : WalkCtx) (tree : PCFNNode)
    (sel : PCFNNode → Bool → Prop) (t pre post : List PCFNNode) (v : PCFNNode),
    ctx.routine.statementTree = some tree → Shaped ctx tree →
    nesting tree ≤ maxCfgWalkDepth → ctx.routine.callSites = [] → RunsAll sel →
    Exec sel (.node tree) t .normal → t = pre ++ v :: post → validates ctx v = true →
    (∀ x ∈ post, loads ctx x = false ∧ persists ctx x = false) →
    (walkParam ctx none).dirtyAtExit ≠ .no := by
  intro hclaim
  have hshape : Shaped (editorCtx modifyThenValidate) modifyThenValidate := by
    intro m hm
    have hsub : modifyThenValidate.subtree = [modifyThenValidate, opOf "modify",
      blockOf (opOf "validate"), opOf "validate"] := rfl
    simp only [hsub, List.mem_cons, List.not_mem_nil, or_false] at hm
    rcases hm with rfl | rfl | rfl | rfl <;>
      exact .ofSmall (by decide) (by decide) (by decide) rfl (by decide)
  have hcond : Exec (fun _ b => b = true) (.leaves modifyThenValidate.before)
      ([opOf "modify"] ++ []) .normal := .leavesCons (exec_opOf "modify") .leavesNil
  have hblock : Exec (fun _ b => b = true) (.node (blockOf (opOf "validate")))
      (blockOf (opOf "validate") :: ([opOf "validate"] ++ [])) .normal :=
    .unconditional rfl (.sequence (Or.inl rfl) (.cons (exec_opOf "validate") .nil))
  have hrun : Exec (fun _ b => b = true) (.node modifyThenValidate)
      (([opOf "modify"] ++ []) ++ modifyThenValidate ::
        ((blockOf (opOf "validate") :: ([opOf "validate"] ++ [])) ++ [])) .normal :=
    .node hcond (.thenBranch rfl rfl (.cons hblock .nil))
  have hne := hclaim (editorCtx modifyThenValidate) _ (fun _ b => b = true) _
    [opOf "modify", modifyThenValidate, blockOf (opOf "validate")] [] (opOf "validate") rfl hshape
    (by decide) rfl (fun _ h => Bool.noConfusion h) hrun rfl (by decide) (by simp)
  exact hne (by decide +kernel)

end AlSem.L4
