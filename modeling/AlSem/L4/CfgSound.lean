/-
# The walker covers every path it follows

The walk of a tree follows paths: it evaluates every leaf of a condition, takes every branch and any
number of rounds, evaluates the header of a counting loop again behind each round, goes on behind
an `exit` and an error as well as it stops there, and steps over the subtrees it gives up.  Whatever
is followed along a path, in however many rounds of however many loops it happens, the walk gives a
state that meets it.
-/
import AlSem.L4.CfgCover

namespace AlSem.L4

open AlSem.Model

variable {ctx : WalkCtx}

/-- The runs that evaluate every leaf of a condition and end where an error is raised. -/
def RunsAll (sel : PCFNNode → Bool → Prop) : Prop :=
  ∀ n, sel n false → n.pathHint ≠ some .mayRun ∧ n.pathHint ≠ some .assertError

/-! ## 1. Paths -/

/-- The walk goes into the node. -/
def Entered (d : ℕ) (n : PCFNNode) : Prop := d ≤ maxCfgWalkDepth ∧ n.kind ≠ .tryBlock

/-- **The paths that the walk of a piece of code follows**, at a depth. -/
inductive Follows : ℕ → Code → Path → Outcome → Prop
  | gaveUp {d n} : ¬ Entered d n → Follows d (.node n) [none] .normal
  /-- A `try` keeps the state given up as one where the routine is left. -/
  | gaveUpExit {d n o} : d ≤ maxCfgWalkDepth → n.kind = .tryBlock → o = .exited ∨ o = .errored →
      Follows d (.node n) [none] o
  | node {d n p₁ p₂ o} : Entered d n → Follows (d + 1) (.leaves n.before) p₁ .normal →
      Follows d (.body n) p₂ o → Follows d (.node n) (p₁ ++ some n :: p₂) o
  | nodeStop {d n p o} : Entered d n → Follows (d + 1) (.leaves n.before) p o → o.leaves →
      Follows d (.node n) p o
  | nil {d} : Follows d (.list []) [] .normal
  | cons {d n ns p₁ p₂ o} : Follows d (.node n) p₁ .normal → Follows d (.list ns) p₂ o →
      Follows d (.list (n :: ns)) (p₁ ++ p₂) o
  | stop {d n ns p o} : Follows d (.node n) p o → o ≠ .normal → Follows d (.list (n :: ns)) p o
  | leavesNil {d} : Follows d (.leaves []) [] .normal
  | leavesCons {d n ns p₁ p₂ o} : Follows d (.node n) p₁ .normal → Follows d (.leaves ns) p₂ o →
      Follows d (.leaves (n :: ns)) (p₁ ++ p₂) o
  | leavesStop {d n ns p o} : Follows d (.node n) p o → o.leaves →
      Follows d (.leaves (n :: ns)) p o
  | leaf {d n} : n.kind.isLeaf → Follows d (.body n) [] .normal
  | exit {d n} : n.kind = .exit → Follows d (.body n) [] .exited
  | error {d n} : n.kind = .error → Follows d (.body n) [] .errored
  /-- The walk goes on behind an `exit` and an error. -/
  | pass {d n} : n.kind = .exit ∨ n.kind = .error → Follows d (.body n) [] .normal
  | breakLoop {d n} : n.kind = .breakLoop → Follows d (.body n) [] .broke
  | continueLoop {d n} : n.kind = .continueLoop → Follows d (.body n) [] .continued
  | sequence {d n p o} : n.kind.isSequence → Follows (d + 1) (.list n.body) p o →
      Follows d (.body n) p o
  | thenBranch {d n p o} : n.kind = .ifThen → Follows (d + 1) (.list n.body) p o →
      Follows d (.body n) p o
  | elseBranch {d n p o} : n.kind = .ifThen → Follows (d + 1) (.list n.elseBody) p o →
      Follows d (.body n) p o
  | branch {d n b p o} : n.kind = .case → b ∈ n.body → Follows (d + 1) (.node b) p o →
      Follows d (.body n) p o
  | noBranch {d n} : n.kind = .case → (∀ c ∈ n.body, c.isCaseElse = false) →
      Follows d (.body n) [] .normal
  | headLoop {d n p o} : n.kind.isHeadLoop → Follows d (.loop n) p o → Follows d (.body n) p o
  /-- The condition of a `repeat` with no body is evaluated once. -/
  | once {d n p o} : n.kind = .repeatUntil → n.body = [] →
      Follows (d + 1) (.leaves n.leaves) p o → Follows d (.body n) p o
  | tailLoop {d n p₁ p₂ o} : n.kind = .repeatUntil → n.body ≠ [] → Follows d (.round n) p₁ .normal →
      Follows d (.loop n) p₂ o → Follows d (.body n) (p₁ ++ p₂) o
  | tailBreak {d n p} : n.kind = .repeatUntil → n.body ≠ [] → Follows d (.round n) p .broke →
      Follows d (.body n) p .normal
  | tailStop {d n p o} : n.kind = .repeatUntil → n.body ≠ [] → Follows d (.round n) p o → o.leaves →
      Follows d (.body n) p o
  | round {d n p₁ p₂ o₁ o} : Follows (d + PCFNNode.bodyStep n) (.list n.body) p₁ o₁ → o₁.latches →
      Follows (d + 1) (.leaves n.leaves) p₂ o → Follows d (.round n) (p₁ ++ p₂) o
  | roundStop {d n p o} : Follows (d + PCFNNode.bodyStep n) (.list n.body) p o → ¬ o.latches →
      Follows d (.round n) p o
  | loopStop {d n} : Follows d (.loop n) [] .normal
  | loopRound {d n p₁ p₂ o} : Follows d (.round n) p₁ .normal → Follows d (.loop n) p₂ o →
      Follows d (.loop n) (p₁ ++ p₂) o
  | loopBreak {d n p} : Follows d (.round n) p .broke → Follows d (.loop n) p .normal
  | loopLeave {d n p o} : Follows d (.round n) p o → o.leaves → Follows d (.loop n) p o

theorem Outcome.leaves_ne_normal {o : Outcome} (h : o.leaves) : o ≠ .normal := by
  rcases h with rfl | rfl | rfl <;> simp

theorem Follows.ne_failed {d : ℕ} {c : Code} {p : Path} {o : Outcome} (h : Follows d c p o) :
    o ≠ .failed := by
  induction h with
  | gaveUpExit _ _ ho => rcases ho with rfl | rfl <;> simp
  | _ => first | assumption | simp

/-- A condition ends for what is behind it, or leaves. -/
theorem Follows.leaves_outcome {d ns p o} (h : Follows d (.leaves ns) p o) :
    o = .normal ∨ o.leaves := by
  generalize hc : Code.leaves ns = c at h
  induction h generalizing ns with
  | leavesNil => exact Or.inl rfl
  | leavesCons _ _ _ ih =>
    obtain ⟨rfl⟩ := Code.leaves.inj hc
    exact ih rfl
  | leavesStop _ ho => exact Or.inr ho
  | _ => exact nomatch hc

/-- A loop ends for what is behind it, or leaves. -/
theorem Follows.loop_outcome {d n p o} (h : Follows d (.loop n) p o) : o = .normal ∨ o.leaves := by
  generalize hc : Code.loop n = c at h
  induction h with
  | loopStop => exact Or.inl rfl
  | loopRound _ _ _ ih => exact ih hc
  | loopBreak => exact Or.inl rfl
  | loopLeave _ ho => exact Or.inr ho
  | _ => exact nomatch hc

/-! ## 2. Depths -/

/-- Every node of the list is in form. -/
def FormedAll (ctx : WalkCtx) (ns : List PCFNNode) : Prop := ∀ n ∈ ns, Formed ctx n

namespace Formed

variable {n : PCFNNode}

theorem leaves (hn : Formed ctx n) : FormedAll ctx n.leaves :=
  fun _ hm => hn.part (List.mem_append_left _ hm)

theorem before (hn : Formed ctx n) : FormedAll ctx n.before := by
  unfold PCFNNode.before
  split <;> first | exact hn.leaves | (intro m hm; simp at hm)

theorem body (hn : Formed ctx n) : FormedAll ctx n.body :=
  fun _ hm => hn.part (List.mem_append_right _ (List.mem_append_left _ hm))

theorem elseBody (hn : Formed ctx n) : FormedAll ctx n.elseBody :=
  fun _ hm => hn.part (List.mem_append_right _ (List.mem_append_right _ hm))

end Formed

variable {T : Tracking}

/-- Statements that are all too deep are given up. -/
theorem Lawful.deep_list (hT : Lawful ctx T) {d : ℕ} (hdeep : maxCfgWalkDepth < d) :
    ∀ {ns : List PCFNNode} {p : Path} {o : Outcome}, Follows d (.list ns) p o →
      ∀ h s, T.Asks h s → o = .normal ∧ T.Asks (T.walk h p) (saturateUnknown s)
  | [], _, _, hrun, h, s, hs => by
    cases hrun with
    | nil => exact ⟨rfl, hT.saturate hs⟩
  | n :: ns, _, _, hrun, h, s, hs => by
    have hnode : ∀ {p o}, Follows d (.node n) p o → p = [none] ∧ o = .normal := by
      intro p o hn
      cases hn with
      | gaveUp _ => exact ⟨rfl, rfl⟩
      | gaveUpExit hd _ _ => exact absurd hd (Nat.not_le.mpr hdeep)
      | node hd _ _ => exact absurd hd.1 (Nat.not_le.mpr hdeep)
      | nodeStop hd _ _ => exact absurd hd.1 (Nat.not_le.mpr hdeep)
    cases hrun with
    | stop hn ho => exact absurd (hnode hn).2 ho
    | cons hn hlist =>
      obtain ⟨rfl, -⟩ := hnode hn
      -- a state given up twice is given up
      have htwice : saturateUnknown (saturateUnknown s) = saturateUnknown s := rfl
      rw [T.walk_append, ← htwice]
      exact hT.deep_list hdeep hlist (T.blur h) _ (hT.blur hs)

/-! ## 3. The simulation -/

def IsLoop (n : PCFNNode) : Prop := n.kind.isHeadLoop ∨ n.kind = .repeatUntil

/-- **What the walk of a piece of code owes a path through it.** -/
def Sim (ctx : WalkCtx) (T : Tracking) (d : ℕ) : Code → Path → Outcome → Prop
  | .node n, p, o => ∀ s h, Formed ctx n → T.Asks h s →
      Covers (T.Asks (T.walk h p)) o (walkCfg ctx n d s)
  | .list ns, p, o => ∀ s h es, FormedAll ctx ns → childrenOf es = walks ctx ns d →
      T.Asks h s → Covers (T.Asks (T.walk h p)) o (runEvents ctx es s)
  | .leaves ns, p, o => ∀ s h, FormedAll ctx ns → T.Asks h s →
      Covers (T.Asks (T.walk h p)) o (applyConditionLeaves (walks ctx ns d) s)
  | .body n, p, o => ∀ s h, Formed ctx n → Entered d n → T.Asks h s →
      Covers (T.Asks (T.walk (T.step h n) p)) o (walkBody ctx n d s)
  | .round n, p, o => ∀ s h, Formed ctx n → T.Asks h s →
      Covers (T.Asks (T.walk h p)) o (roundResult (loopBody ctx n d) (loopCond ctx n d) s)
  | .loop n, p, o => ∀ h, Formed ctx n → ∀ k s, Heads T h k s →
      LoopCovers (T.Asks (T.walk h p)) o (walkRounds (loopBody ctx n d) (loopCond ctx n d) k s)

/-- The body of a loop covers what its statements cover. -/
theorem Lawful.covers_loopBody (hT : Lawful ctx T) {n : PCFNNode} {d : ℕ} {p : Path}
    {o : Outcome} {h : T.Hist} {s : PerParamState} (hn : Formed ctx n)
    (hlist : Follows (d + PCFNNode.bodyStep n) (.list n.body) p o)
    (hsim : Sim ctx T (d + PCFNNode.bodyStep n) (.list n.body) p o) (hs : T.Asks h s) :
    Covers (T.Asks (T.walk h p)) o (loopBody ctx n d s) := by
  unfold loopBody
  split
  · rename_i hk
    have hstep : PCFNNode.bodyStep n = 2 := if_pos hk
    rw [hstep] at hlist hsim
    unfold walkBlockAt
    split
    · rename_i hdeep
      obtain ⟨rfl, hasks⟩ := hT.deep_list (Nat.lt_succ_of_lt hdeep) hlist h s hs
      exact covers_normal rfl hasks
    · exact hsim s h _ hn.body (childrenOf_blockEvents (hn.node.inOrder (Or.inr hk))) hs
  · rename_i hk
    have hstep : PCFNNode.bodyStep n = 1 := if_neg hk
    rw [hstep] at hsim
    exact hsim s h _ hn.body (childrenOf_children _) hs

/-- A round covers its body, then its condition. -/
theorem Lawful.covers_round (hT : Lawful ctx T) {body cond : Transfer} {h₁ h' : T.Hist}
    {o₁ o : Outcome} {s : PerParamState} (ho₁ : o₁.latches) (ho : o = .normal ∨ o.leaves)
    (hb : Covers (T.Asks h₁) o₁ (body s))
    (hc : ∀ s, T.Asks h₁ s → Covers (T.Asks h') o (cond s)) :
    Covers (T.Asks h') o (roundResult body cond s) := by
  have hcov := hc _ (hT.foldContinue s ho₁ hb)
  rcases ho with rfl | ho
  · exact covers_normal rfl (hT.join_right _ hcov.state)
  · refine hcov.mono (Outcome.leaves_ne_normal ho) ?_
    rcases ho with rfl | rfl | rfl <;> exact List.subset_append_right _ _

/-- A round that its body ends. -/
theorem covers_roundStop {P : PerParamState → Prop} {body cond : Transfer} {o : Outcome}
    {s : PerParamState} (ho : ¬ o.latches) (hb : Covers P o (body s)) :
    Covers P o (roundResult body cond s) := by
  have hne : o ≠ .normal := fun he => ho (Or.inl he)
  refine hb.mono hne ?_
  cases o with
  | normal => exact absurd rfl hne
  | continued => exact absurd (Or.inr rfl) ho
  | _ => exact List.subset_append_left _ _

theorem IsLoop.step (hT : Lawful ctx T) {n : PCFNNode} (hn : IsLoop n) (h : T.Hist) :
    T.step h n = h := by
  refine hT.other h ?_ ?_ <;>
    rcases hn with (hn | hn | hn) | hn <;> simp [hn]

theorem walkBody_headLoop {n : PCFNNode} {d : ℕ} (hk : n.kind.isHeadLoop) :
    walkBody ctx n d = walkLoop (loopBody ctx n d) (loopCond ctx n d) := by
  unfold walkBody
  rcases hk with hk | hk | hk <;> rw [hk]

theorem walkBody_repeat {n : PCFNNode} {d : ℕ} (hk : n.kind = .repeatUntil) :
    walkBody ctx n d = if n.body = [] then loopCond ctx n d
      else walkLoop (loopBody ctx n d) (loopCond ctx n d) := by
  unfold walkBody
  rw [hk]

/-- Statements in order, each in a transfer of its own. -/
theorem walkBody_sequence {n : PCFNNode} {d : ℕ} (hn : NodeForm ctx n)
    (hk : n.kind.isSequence) (htry : n.kind ≠ .tryBlock) :
    ∃ es, childrenOf es = walks ctx n.body (d + 1) ∧ walkBody ctx n d = runEvents ctx es := by
  rcases hk with hk | hk | hk | hk
  · exact ⟨_, childrenOf_blockEvents (hn.inOrder (Or.inl hk)), by unfold walkBody; rw [hk]⟩
  · exact ⟨_, childrenOf_children _, by unfold walkBody; rw [hk]⟩
  · exact absurd hk htry
  · exact ⟨_, childrenOf_children _, by unfold walkBody; rw [hk]⟩

theorem LoopCovers.of_broke {P : PerParamState → Prop} {r : LoopResult}
    (hc : LoopCovers P .broke r) : LoopCovers P .normal r := by
  intro _
  obtain ⟨x, hx, hs⟩ := hc (by simp)
  exact ⟨x, List.mem_cons_of_mem _ hx, hs⟩

/-- A node that the walk does not enter is covered by the state given up. -/
theorem Lawful.covers_gaveUp (hT : Lawful ctx T) {d : ℕ} {n : PCFNNode} (hd : ¬ Entered d n)
    {h : T.Hist} {s : PerParamState} (hs : T.Asks h s) :
    Covers (T.Asks (T.blur h)) .normal (walkCfg ctx n d s) := by
  by_cases hdeep : maxCfgWalkDepth < d
  · rw [walkCfg_deep hdeep]
    exact covers_normal rfl (hT.blur hs)
  · have hle : d ≤ maxCfgWalkDepth := Nat.not_lt.mp hdeep
    have hk : n.kind = .tryBlock := by
      by_contra hk
      exact hd ⟨hle, hk⟩
    rw [walkCfg_try hle hk]
    exact covers_normal rfl (hT.blur hs)

/-- **Every path through every piece of code is covered.**  By induction on the path. -/
theorem follows_sim (hT : Lawful ctx T) {d : ℕ} {c : Code} {p : Path} {o : Outcome}
    (h : Follows d c p o) : Sim ctx T d c p o := by
  induction h with
  | gaveUp hd => exact fun _ _ _ hs => hT.covers_gaveUp hd hs
  | gaveUpExit hd hk ho =>
    intro s h _ hs
    rw [walkCfg_try hd hk]
    rcases ho with rfl | rfl <;>
      exact covers_of_mem (by simp) (List.mem_singleton.mpr rfl) (hT.blur hs)
  | @node d n p₁ p₂ o hd _ _ ihl ihb =>
    intro s h hn hs
    rw [walkCfg_eq hn.node hd.1, T.walk_append, T.walk_cons]
    exact (ihb _ _ hn hd (ihl s h hn.before hs).state).andThen_right
  | @nodeStop d n p o hd _ ho ihl =>
    intro s h hn hs
    rw [walkCfg_eq hn.node hd.1]
    exact (ihl s h hn.before hs).andThen_left (Outcome.leaves_ne_normal ho) _
  | nil => exact fun _ _ _ _ hes hs => hT.runEvents_nil hes hs
  | @cons d n ns p₁ p₂ o _ _ ihn ihns =>
    intro s h es hform hes hs
    rw [T.walk_append]
    exact hT.covers_cons hes hs (fun s hs => ihn s h (hform n List.mem_cons_self) hs)
      fun es s hes hs => ihns s _ es (fun m hm => hform m (List.mem_cons_of_mem _ hm)) hes hs
  | @stop d n ns p o _ ho ihn =>
    intro s h es hform hes hs
    exact hT.covers_stop hes hs ho fun s hs => ihn s h (hform n List.mem_cons_self) hs
  | leavesNil => exact fun _ _ _ hs => covers_normal rfl hs
  | @leavesCons d n ns p₁ p₂ o _ _ ihn ihns =>
    intro s h hform hs
    rw [T.walk_append]
    exact (ihns _ _ (fun m hm => hform m (List.mem_cons_of_mem _ hm))
      (ihn s h (hform n List.mem_cons_self) hs).state).andThen_right
  | @leavesStop d n ns p o _ ho ihn =>
    intro s h hform hs
    exact (ihn s h (hform n List.mem_cons_self) hs).andThen_left (Outcome.leaves_ne_normal ho) _
  | @leaf d n hk =>
    intro s h _ _ hs
    unfold walkBody
    rcases hk with hk | hk
    · rw [hk]
      exact covers_normal rfl (hT.op hk hs)
    · rw [hk]
      exact covers_normal rfl (hT.call hk hs)
  | @exit d n hk =>
    intro s h _ _ hs
    rw [hT.other h (by simp [hk]) (by simp [hk])]
    unfold walkBody
    rw [hk]
    exact covers_of_mem (by simp) (List.mem_singleton.mpr rfl) hs
  | @error d n hk =>
    intro s h _ _ hs
    rw [hT.other h (by simp [hk]) (by simp [hk])]
    unfold walkBody
    rw [hk]
    exact covers_of_mem (by simp) (List.mem_singleton.mpr rfl) hs
  | @pass d n hk =>
    intro s h _ _ hs
    have hnot : n.kind ≠ .op ∧ n.kind ≠ .call := by rcases hk with hk | hk <;> simp [hk]
    rw [hT.other h hnot.1 hnot.2]
    unfold walkBody
    rcases hk with hk | hk <;> rw [hk] <;> exact covers_normal rfl hs
  | @breakLoop d n hk =>
    intro s h _ _ hs
    rw [hT.other h (by simp [hk]) (by simp [hk])]
    unfold walkBody
    rw [hk]
    exact covers_of_mem (by simp) (List.mem_singleton.mpr rfl) hs
  | @continueLoop d n hk =>
    intro s h _ _ hs
    rw [hT.other h (by simp [hk]) (by simp [hk])]
    unfold walkBody
    rw [hk]
    exact covers_of_mem (by simp) (List.mem_singleton.mpr rfl) hs
  | @sequence d n p o hk _ ih =>
    intro s h hn hd hs
    have hnot : n.kind ≠ .op ∧ n.kind ≠ .call := by
      rcases hk with hk | hk | hk | hk <;> simp [hk]
    obtain ⟨es, hes, hwalk⟩ := walkBody_sequence hn.node (d := d) hk hd.2
    rw [hT.other h hnot.1 hnot.2, hwalk]
    exact ih s h es hn.body hes hs
  | @thenBranch d n p o hk _ ih =>
    intro s h hn _ hs
    rw [hT.other h (by simp [hk]) (by simp [hk])]
    unfold walkBody
    rw [hk]
    exact hT.covers_then (ih s h _ hn.body (childrenOf_children _) hs)
  | @elseBranch d n p o hk _ ih =>
    intro s h hn _ hs
    rw [hT.other h (by simp [hk]) (by simp [hk])]
    unfold walkBody
    rw [hk]
    exact hT.covers_else (ih s h _ hn.elseBody (childrenOf_children _) hs)
  | @branch d n b p o hk hb _ ih =>
    intro s h hn _ hs
    rw [hT.other h (by simp [hk]) (by simp [hk])]
    unfold walkBody
    rw [hk]
    exact hT.covers_case (List.mem_map_of_mem hb) (ih s h (hn.body b hb) hs)
  | @noBranch d n hk hnone =>
    intro s h _ _ hs
    have helse : (n.body.any fun c => c.isCaseElse) = false := by
      rw [List.any_eq_false]
      intro c hc
      simp [hnone c hc]
    rw [hT.other h (by simp [hk]) (by simp [hk])]
    unfold walkBody
    rw [hk]
    dsimp only
    rw [helse]
    exact hT.covers_case_none hs
  | @headLoop d n p o hk hrun ih =>
    intro s h hn _ hs
    rw [IsLoop.step hT (Or.inl hk), walkBody_headLoop hk]
    exact hT.covers_loop hrun.loop_outcome (ih h hn loopBound s (.ofAsks hs))
  | @once d n p o hk hempty _ ih =>
    intro s h hn _ hs
    rw [IsLoop.step hT (Or.inr hk), walkBody_repeat hk, if_pos hempty]
    exact ih s h hn.leaves hs
  | @tailLoop d n p₁ p₂ o hk hbody _ hrun ihr ihl =>
    intro s h hn _ hs
    rw [IsLoop.step hT (Or.inr hk), walkBody_repeat hk, if_neg hbody, T.walk_append]
    exact hT.covers_loop hrun.loop_outcome
      (hT.loop_round (.ofAsks hs) (ihr s h hn hs) (ihl _ hn))
  | @tailBreak d n p hk hbody _ ihr =>
    intro s h hn _ hs
    rw [IsLoop.step hT (Or.inr hk), walkBody_repeat hk, if_neg hbody]
    exact hT.covers_loop (Or.inl rfl)
      (loopCovers_leave (by decide) (Or.inl rfl) (ihr s h hn hs)).of_broke
  | @tailStop d n p o hk hbody _ ho ihr =>
    intro s h hn _ hs
    rw [IsLoop.step hT (Or.inr hk), walkBody_repeat hk, if_neg hbody]
    exact hT.covers_loop (Or.inr ho) (loopCovers_leave (by decide) (Or.inr ho) (ihr s h hn hs))
  | @round d n p₁ p₂ o₁ o hlist ho₁ hcond ihb ihl =>
    intro s h hn hs
    rw [T.walk_append]
    exact hT.covers_round ho₁ hcond.leaves_outcome (hT.covers_loopBody hn hlist ihb hs)
      fun s hs => ihl s _ hn.leaves hs
  | roundStop hlist ho ihb =>
    exact fun s h hn hs => covers_roundStop ho (hT.covers_loopBody hn hlist ihb hs)
  | loopStop => exact fun _ _ _ _ hh => hT.loop_stop hh.asks
  | @loopRound d n p₁ p₂ o _ _ ihr ihl =>
    intro h hn k s hh
    rw [T.walk_append]
    exact hT.loop_round hh (ihr s h hn hh.asks) (ihl _ hn)
  | @loopBreak d n p _ ihr =>
    intro h hn k s hh
    exact (loopCovers_leave (hT.rounds_pos hh) (Or.inl rfl) (ihr s h hn hh.asks)).of_broke
  | @loopLeave d n p o _ ho ihr =>
    intro h hn k s hh
    exact loopCovers_leave (hT.rounds_pos hh) (Or.inr ho) (ihr s h hn hh.asks)

/-! ## 4. What is found at the end -/

/-- The path ends the routine: behind its body, or where it is left. -/
def Final (o : Outcome) : Prop := o = .normal ∨ o = .exited ∨ o = .errored

/-- **A path through the routine ends in a state the facts are read off**, as its history asks. -/
theorem follows_final (hT : Lawful ctx T) {tree : PCFNNode}
    (htree : ctx.routine.statementTree = some tree) (hform : Formed ctx tree)
    {p : Path} {o : Outcome} (hpath : Follows 0 (.node tree) p o) (ho : Final o) {h : T.Hist}
    (hs : T.Asks h PerParamState.initial) :
    ∃ s ∈ finalStates ctx none, T.Asks (T.walk h p) s := by
  have hcov := follows_sim hT hpath .initial h hform hs
  obtain ⟨hnormal, hother⟩ := hcov hpath.ne_failed
  simp only [finalStates, htree]
  rcases ho with rfl | rfl | rfl
  · exact ⟨_, List.mem_append_right _ (List.mem_singleton.mpr rfl), (hnormal rfl).2⟩
  · obtain ⟨s, hs, hasks⟩ := hother (by simp)
    exact ⟨s, List.mem_append_left _ hs, hasks⟩
  · obtain ⟨s, hs, hasks⟩ := hother (by simp)
    exact ⟨s, List.mem_append_left _ hs, hasks⟩

/-- An event publisher's dispatch is behind every one of them. -/
theorem finalStates_dispatch (pd : ParamDispatch) :
    finalStates ctx (some pd) = (finalStates ctx none).map (applyDispatch ctx pd) := rfl

end AlSem.L4
