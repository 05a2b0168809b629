/-
# Guard frames

`frame_guards` of `param_guard.rs`: which boolean parameters of a routine keep the caller's
value for the whole body, and what each site of the statement tree requires of them.  A
requirement comes from an `if` on such a parameter, or from an early exit `if <guard> then exit;`
before the site in its own statement list.

The result is `frameGuards_sound`: in every run of the tree that takes the branches a valuation of
the usable parameters selects, what the frame records for an executed site holds in the valuation.
-/
import AlSem.L4.ParamGuard
import AlSem.Model.Execution

namespace AlSem.L4

open AlSem.Model

/-! ## 1. The frame -/

/-- Whether parameter `p` is the caller's argument for the whole body. -/
def isUsable (r : RoutineBody) (passesByValue : String → ℕ → Bool) (p : ModelParameter) : Bool :=
  let name := unq p.name
  let assigned := r.varAssignments.any fun a => Text.eqIgnoreAsciiCase (unq a.lhsName) name
  let passedUnsafely := r.callSites.any fun cs => cs.argumentBindings.any fun b =>
    decide (b.sourceKind = "parameter") && decide (b.sourceParameterIndex = some p.index) &&
      !passesByValue cs.id b.parameterIndex
  !p.isVar && Text.eqIgnoreAsciiCase (Text.trim p.typeText) "boolean" && !assigned &&
    !passedUnsafely

/-- The usable guard parameters, each under its folded name. -/
def usableGuards (r : RoutineBody) (passesByValue : String → ℕ → Bool) : List (String × ℕ) :=
  (r.parameters.filter (isUsable r passesByValue)).map fun p =>
    (Text.toAsciiLowercase (unq p.name), p.index)

/-- The requirement an `if` node's simple guard states for its `then` branch. -/
def thenReq (usable : List (String × ℕ)) (node : PCFNNode) : Option Req :=
  node.conditionGuard.bind fun g =>
    (usable.find? fun u => decide (u.1 = g.identifier)).map fun u =>
      (u.2, decide (g.polarity = "positive"))

mutual

/-- Whether a branch is exactly one `exit`, through any `block` wrappers. -/
def isExitOnly : List PCFNNode → Bool
  | [n] => isExitNode n
  | _ => false

def isExitNode : PCFNNode → Bool
  | ⟨.exit, _, _, _, _, _, _, _, _, _⟩ => true
  | ⟨.block, _, _, _, none, some children, _, _, _, _⟩ => isExitOnly children
  | _ => false

end

/-- The branch of an `if` under one more requirement. -/
def branchReqs (reqs : List Req) (extra : Option Req) : Option (List Req) :=
  match extra with
  | some r => conjoin reqs [r]
  | none => some reqs

/-- The opposite requirement. -/
def flipReq (r : Req) : Req := (r.1, !r.2)

/-- What the statements behind `n` require: `if <guard> then exit;` with no `else` adds that the
guard is false.  `none` when the rest of the list cannot run. -/
def afterReqs (usable : List (String × ℕ)) (reqs : List Req) (n : PCFNNode) :
    Option (List Req) :=
  if n.kind = .ifThen ∧ n.elseChildren = none ∧ isExitOnly n.body then
    match thenReq usable n with
    | some r => conjoin reqs [flipReq r]
    | none => some reqs
  else some reqs

/-- The requirement of an `if`; other kinds have none. -/
def nodeReq (usable : List (String × ℕ)) (n : PCFNNode) : Option Req :=
  if n.kind = .ifThen then thenReq usable n else none

mutual

/-- The nodes a walk records, in its order, each with the requirements there. -/
def walk (usable : List (String × ℕ)) : List Req → PCFNNode → List (PCFNNode × List Req)
  | reqs, ⟨k, op, cs, g, leaves, children, elseChildren, els, range, hint⟩ =>
    let node : PCFNNode := ⟨k, op, cs, g, leaves, children, elseChildren, els, range, hint⟩
    -- Calls and operations inside a condition run before the branch is chosen.
    (node, reqs) :: (walkLeavesOpt usable reqs leaves ++
      ((match branchReqs reqs (nodeReq usable node) with
        | some r => walkListOpt usable r children
        | none => []) ++
      match branchReqs reqs ((nodeReq usable node).map flipReq) with
        | some r => walkListOpt usable r elseChildren
        | none => []))

def walkLeavesOpt (usable : List (String × ℕ)) :
    List Req → Option (List PCFNNode) → List (PCFNNode × List Req)
  | _, none => []
  | reqs, some ns => walkLeaves usable reqs ns

/-- The leaves of a condition, all under the same requirements. -/
def walkLeaves (usable : List (String × ℕ)) :
    List Req → List PCFNNode → List (PCFNNode × List Req)
  | _, [] => []
  | reqs, n :: ns => walk usable reqs n ++ walkLeaves usable reqs ns

def walkListOpt (usable : List (String × ℕ)) :
    List Req → Option (List PCFNNode) → List (PCFNNode × List Req)
  | _, none => []
  | reqs, some ns => walkList usable reqs ns

/-- A statement list. -/
def walkList (usable : List (String × ℕ)) :
    List Req → List PCFNNode → List (PCFNNode × List Req)
  | _, [] => []
  | reqs, n :: ns => walk usable reqs n ++
    match afterReqs usable reqs n with
    | some r => walkList usable r ns
    | none => []

end

/-- `record`: the sites of a node that requires something get its requirements. -/
def record (bySite : HashMap String (List Req)) (v : PCFNNode × List Req) :
    HashMap String (List Req) :=
  if v.2 = [] then bySite
  else v.1.siteIds.foldl (fun m id => m.insert id v.2) bySite

/-- `frame_guards`: a routine's guard frame, `none` when it has no usable guard parameter. -/
def frameGuards (r : RoutineBody) (passesByValue : String → ℕ → Bool) : Option FrameGuards :=
  let usable := usableGuards r passesByValue
  if usable = [] then none
  else
    let visited := match r.statementTree with
      | some tree => walk usable [] tree
      | none => []
    some { usable := usable.map Prod.snd, bySite := visited.foldl record ∅ }

/-! ## 2. What the walk visits -/

/-- A statement list under requirements that may be contradictory. -/
def walkUnder (usable : List (String × ℕ)) (reqs : Option (List Req)) (ns : List PCFNNode) :
    List (PCFNNode × List Req) :=
  match reqs with
  | some r => walkList usable r ns
  | none => []

variable {usable : List (String × ℕ)} {reqs : List Req}

theorem walkListOpt_eq (ns : Option (List PCFNNode)) :
    walkListOpt usable reqs ns = walkList usable reqs (ns.getD []) := by
  cases ns <;> simp [walkListOpt, walkList]

theorem walkLeavesOpt_eq (ns : Option (List PCFNNode)) :
    walkLeavesOpt usable reqs ns = walkLeaves usable reqs (ns.getD []) := by
  cases ns <;> simp [walkLeavesOpt, walkLeaves]

theorem walk_eq (n : PCFNNode) :
    walk usable reqs n = (n, reqs) :: (walkLeaves usable reqs n.leaves ++
      (walkUnder usable (branchReqs reqs (nodeReq usable n)) n.body ++
        walkUnder usable (branchReqs reqs ((nodeReq usable n).map flipReq)) n.elseBody)) := by
  cases n
  simp only [walk, walkListOpt_eq, walkLeavesOpt_eq, walkUnder, PCFNNode.leaves, PCFNNode.body,
    PCFNNode.elseBody]

theorem walkList_cons (n : PCFNNode) (ns : List PCFNNode) :
    walkList usable reqs (n :: ns) =
      walk usable reqs n ++ walkUnder usable (afterReqs usable reqs n) ns := by
  simp only [walkList, walkUnder]

/-- The sites of what the walk visits. -/
def visitedIds (visits : List (PCFNNode × List Req)) : List String :=
  visits.flatMap fun v => v.1.siteIds

theorem visitedIds_append (a b : List (PCFNNode × List Req)) :
    visitedIds (a ++ b) = visitedIds a ++ visitedIds b :=
  List.flatMap_append

theorem visitedIds_walkLeaves : ∀ {ns : List PCFNNode},
    (∀ n ∈ ns, ∀ reqs, (visitedIds (walk usable reqs n)).Sublist n.treeIds) →
    ∀ reqs, (visitedIds (walkLeaves usable reqs ns)).Sublist (PCFNNode.listIds ns)
  | [], _, reqs => by
    simp [walkLeaves, visitedIds]
  | n :: ns, h, reqs => by
    rw [walkLeaves, visitedIds_append, PCFNNode.listIds_cons]
    exact (h n List.mem_cons_self reqs).append
      (visitedIds_walkLeaves (fun m hm => h m (List.mem_cons_of_mem _ hm)) reqs)

theorem visitedIds_walkUnder {ns : List PCFNNode}
    (h : ∀ reqs, (visitedIds (walkList usable reqs ns)).Sublist (PCFNNode.listIds ns))
    (o : Option (List Req)) :
    (visitedIds (walkUnder usable o ns)).Sublist (PCFNNode.listIds ns) := by
  cases o with
  | none => exact List.nil_sublist _
  | some r => exact h r

theorem visitedIds_walkList : ∀ {ns : List PCFNNode},
    (∀ n ∈ ns, ∀ reqs, (visitedIds (walk usable reqs n)).Sublist n.treeIds) →
    ∀ reqs, (visitedIds (walkList usable reqs ns)).Sublist (PCFNNode.listIds ns)
  | [], _, reqs => by
    simp [walkList, visitedIds]
  | n :: ns, h, reqs => by
    rw [walkList_cons, visitedIds_append, PCFNNode.listIds_cons]
    exact (h n List.mem_cons_self reqs).append
      (visitedIds_walkUnder
        (visitedIds_walkList fun m hm => h m (List.mem_cons_of_mem _ hm)) _)

/-- **The walk visits each site at most once.** -/
theorem visitedIds_walk (n : PCFNNode) :
    ∀ reqs, (visitedIds (walk usable reqs n)).Sublist n.treeIds := by
  induction n using PCFNNode.induct with
  | step n ih =>
    intro reqs
    have hleaves : ∀ c ∈ n.leaves, ∀ reqs, (visitedIds (walk usable reqs c)).Sublist c.treeIds :=
      fun c hc => ih c (List.mem_append_left _ hc)
    have hbody : ∀ c ∈ n.body, ∀ reqs, (visitedIds (walk usable reqs c)).Sublist c.treeIds :=
      fun c hc => ih c (List.mem_append_right _ (List.mem_append_left _ hc))
    have helse : ∀ c ∈ n.elseBody, ∀ reqs,
        (visitedIds (walk usable reqs c)).Sublist c.treeIds :=
      fun c hc => ih c (List.mem_append_right _ (List.mem_append_right _ hc))
    rw [walk_eq, PCFNNode.treeIds_eq, visitedIds, List.flatMap_cons]
    refine (List.Sublist.refl _).append ?_
    have happ : ∀ a b : List (PCFNNode × List Req), (a ++ b).flatMap (fun v => v.1.siteIds) =
        visitedIds a ++ visitedIds b := fun a b => visitedIds_append a b
    rw [happ, visitedIds_append]
    exact (visitedIds_walkLeaves hleaves reqs).append
      ((visitedIds_walkUnder (visitedIds_walkList hbody) _).append
        (visitedIds_walkUnder (visitedIds_walkList helse) _))

/-! ## 3. Requirements in a valuation -/

/-- Every requirement of the list holds. -/
def Holds (ν : ℕ → Bool) (reqs : List Req) : Prop := ∀ q ∈ reqs, ν q.1 = q.2

variable {ν : ℕ → Bool}

theorem holds_singleton {r : Req} (h : ν r.1 = r.2) : Holds ν [r] := by
  intro q hq
  rw [List.mem_singleton] at hq
  exact hq ▸ h

theorem addReq_holds {out : List Req} {r : Req} (hout : Holds ν out) (hr : ν r.1 = r.2) :
    ∃ out', addReq out r = some out' := by
  unfold addReq
  split
  · rename_i w hw
    have hsame : w.1 = r.1 := by simpa using List.find?_some hw
    have hval : w.2 = r.2 := by
      rw [← hr, ← hsame]
      exact (hout w (List.mem_of_find?_eq_some hw)).symm
    exact ⟨out, if_neg fun h => h hval⟩
  · exact ⟨_, rfl⟩

theorem foldlM_addReq_holds : ∀ {b out : List Req}, Holds ν out → Holds ν b →
    ∃ out', b.foldlM addReq out = some out'
  | [], out, _, _ => ⟨out, rfl⟩
  | r :: b, out, hout, hb => by
    obtain ⟨mid, hmid⟩ := addReq_holds hout (hb r List.mem_cons_self)
    have hmidHolds : Holds ν mid := by
      intro q hq
      rcases List.mem_append.mp (addReq_subset hmid hq) with hq | hq
      · exact hout q hq
      · rw [List.mem_singleton] at hq
        exact hq ▸ hb r List.mem_cons_self
    obtain ⟨out', hout'⟩ :=
      foldlM_addReq_holds hmidHolds fun q hq => hb q (List.mem_cons_of_mem _ hq)
    exact ⟨out', by rw [List.foldlM_cons, hmid]; exact hout'⟩

/-- **Requirements that hold are not contradictory**, and their conjunction holds. -/
theorem conjoin_holds {a b : List Req} (ha : Holds ν a) (hb : Holds ν b) :
    ∃ out, conjoin a b = some out ∧ Holds ν out := by
  obtain ⟨mid, hmid⟩ := foldlM_addReq_holds ha hb
  have hconj : ∃ out, conjoin a b = some out := by
    unfold conjoin
    rw [hmid]
    exact ⟨_, rfl⟩
  obtain ⟨out, hout⟩ := hconj
  refine ⟨out, hout, fun q hq => ?_⟩
  rcases List.mem_append.mp ((conjoin_spec hout).2 hq) with hq | hq
  · exact ha q hq
  · exact hb q hq

theorem branchReqs_holds (extra : Option Req) (hreqs : Holds ν reqs)
    (hextra : ∀ r, extra = some r → ν r.1 = r.2) :
    ∃ out, branchReqs reqs extra = some out ∧ Holds ν out := by
  cases extra with
  | none => exact ⟨reqs, rfl, hreqs⟩
  | some r => exact conjoin_holds hreqs (holds_singleton (hextra r rfl))

/-! ## 4. Runs a valuation selects -/

/-- The branches an `if` may take under a valuation: the one the valuation selects when the guard
names a usable parameter, any branch elsewhere.  Other choices are free. -/
def follows (usable : List (String × ℕ)) (ν : ℕ → Bool) (n : PCFNNode) (b : Bool) : Prop :=
  n.kind = .ifThen → ∀ r, thenReq usable n = some r → (b = true ↔ ν r.1 = r.2)

/-- A body that is an `exit` does not fall through. -/
theorem body_exit_not_normal {sel : PCFNNode → Bool → Prop} {n : PCFNNode}
    {t : List PCFNNode} {o : Outcome} (hk : n.kind = .exit) (h : Exec sel (.body n) t o) :
    o ≠ .normal := by
  rintro rfl
  cases h <;> simp_all [CfnKind.isLeaf, CfnKind.isSequence, CfnKind.isHeadLoop]

/-- A block runs its statements. -/
theorem body_block_list {sel : PCFNNode → Bool → Prop} {n : PCFNNode} {t : List PCFNNode}
    {o : Outcome} (hk : n.kind = .block) (h : Exec sel (.body n) t o) (ho : o ≠ .failed) :
    Exec sel (.list n.body) t o := by
  cases h with
  | sequence _ h => exact h
  | fail => exact absurd rfl ho
  | _ => simp_all [CfnKind.isLeaf, CfnKind.isHeadLoop]

theorem isExitNode_not_normal {sel : PCFNNode → Bool → Prop} (n : PCFNNode) :
    isExitNode n = true → ∀ {t : List PCFNNode}, ¬ Exec sel (.node n) t .normal := by
  induction n using PCFNNode.induct with
  | step n ih =>
    intro hexit t h
    cases h with
    | nodeStop _ ho => simp [Outcome.leaves] at ho
    | node _ hbody =>
      unfold isExitNode at hexit
      split at hexit
      · exact body_exit_not_normal rfl hbody rfl
      · rename_i children _ _ _ _
        have hlist := body_block_list rfl hbody (by simp)
        unfold isExitOnly at hexit
        split at hexit
        · cases hlist with
          | stop _ hne => exact hne rfl
          | cons hm _ =>
            refine ih _ ?_ hexit hm
            simp [PCFNNode.parts, PCFNNode.body]
        · simp at hexit
      · simp at hexit

/-- **A branch that is only `exit` does not fall through.** -/
theorem isExitOnly_not_normal {sel : PCFNNode → Bool → Prop} {ns : List PCFNNode}
    (hexit : isExitOnly ns = true) {t : List PCFNNode} : ¬ Exec sel (.list ns) t .normal := by
  intro h
  unfold isExitOnly at hexit
  split at hexit
  · cases h with
    | stop _ hne => exact hne rfl
    | cons hn _ => exact isExitNode_not_normal _ hexit hn
  · simp at hexit

/-- **Behind an early exit the guard is false.**  What follows a statement that a run passes
requires only what holds. -/
theorem afterReqs_holds {n : PCFNNode} {t : List PCFNNode} (hreqs : Holds ν reqs)
    (h : Exec (follows usable ν) (.node n) t .normal) :
    ∃ out, afterReqs usable reqs n = some out ∧ Holds ν out := by
  unfold afterReqs
  split
  · rename_i hearly
    obtain ⟨hif, -, hexit⟩ := hearly
    cases hreq : thenReq usable n with
    | none => exact ⟨reqs, rfl, hreqs⟩
    | some r =>
      refine conjoin_holds hreqs (holds_singleton ?_)
      -- the run passed the `if`, so it did not take the branch that exits
      have hfalse : ν r.1 ≠ r.2 := by
        intro hv
        cases h with
        | nodeStop _ ho => simp [Outcome.leaves] at ho
        | node _ hbody =>
          cases hbody with
          | thenBranch _ _ hlist => exact isExitOnly_not_normal hexit hlist
          | elseBranch _ hsel _ => exact absurd ((hsel hif r hreq).mpr hv) (by simp)
          | _ => simp_all [CfnKind.isLeaf, CfnKind.isSequence, CfnKind.isHeadLoop]
      simp only [flipReq]
      cases hb : r.2 <;> cases hval : ν r.1 <;> simp_all
  · exact ⟨reqs, rfl, hreqs⟩

/-- What the walk visits of a piece of code. -/
def codeVisits (usable : List (String × ℕ)) (reqs : List Req) :
    Code → List (PCFNNode × List Req)
  | .node n => walk usable reqs n
  | .body n => walk usable reqs n
  | .list ns => walkList usable reqs ns
  | .leaves ns => walkLeaves usable reqs ns
  | .round n => walkList usable reqs n.body ++ walkLeaves usable reqs n.leaves
  | .loop n => walkList usable reqs n.body ++ walkLeaves usable reqs n.leaves

theorem visits_before {n : PCFNNode} {v : PCFNNode × List Req}
    (h : v ∈ walkLeaves usable reqs n.before) : v ∈ walkLeaves usable reqs n.leaves := by
  unfold PCFNNode.before at h
  split at h <;> first | exact h | simp [walkLeaves] at h

theorem visits_again {n : PCFNNode} {v : PCFNNode × List Req}
    (h : v ∈ walkLeaves usable reqs n.again) : v ∈ walkLeaves usable reqs n.leaves := by
  unfold PCFNNode.again at h
  split at h <;> first | exact h | simp [walkLeaves] at h

theorem visits_body {n : PCFNNode} {r : List Req} {v : PCFNNode × List Req}
    (hr : branchReqs reqs (nodeReq usable n) = some r) (h : v ∈ walkList usable r n.body) :
    v ∈ walk usable reqs n := by
  rw [walk_eq, hr]
  exact List.mem_cons_of_mem _ (List.mem_append_right _ (List.mem_append_left _ h))

theorem visits_elseBody {n : PCFNNode} {r : List Req} {v : PCFNNode × List Req}
    (hr : branchReqs reqs ((nodeReq usable n).map flipReq) = some r)
    (h : v ∈ walkList usable r n.elseBody) : v ∈ walk usable reqs n := by
  rw [walk_eq, hr]
  exact List.mem_cons_of_mem _ (List.mem_append_right _ (List.mem_append_right _ h))

theorem visits_leaves {n : PCFNNode} {v : PCFNNode × List Req}
    (h : v ∈ walkLeaves usable reqs n.leaves) : v ∈ walk usable reqs n := by
  rw [walk_eq]
  exact List.mem_cons_of_mem _ (List.mem_append_left _ h)

/-- Only an `if` requires something of its branches. -/
theorem branchReqs_of_not_if {n : PCFNNode} (h : n.kind ≠ .ifThen) :
    branchReqs reqs (nodeReq usable n) = some reqs := by
  rw [nodeReq, if_neg h]
  rfl

/-- What a loop's rounds visit, its walk visits. -/
theorem visits_rounds {n : PCFNNode} {v : PCFNNode × List Req} (hn : n.kind ≠ .ifThen)
    (h : v ∈ walkList usable reqs n.body ++ walkLeaves usable reqs n.leaves) :
    v ∈ walk usable reqs n := by
  rcases List.mem_append.mp h with h | h
  · exact visits_body (branchReqs_of_not_if hn) h
  · exact visits_leaves h

/-- The branches of a case are walked under the requirements of the case. -/
theorem walk_mem_walkList : ∀ {ns : List PCFNNode} {b : PCFNNode},
    (∀ c ∈ ns, c.kind = .caseBranch) → b ∈ ns → ∀ v ∈ walk usable reqs b,
      v ∈ walkList usable reqs ns
  | n :: ns, b, hkind, hb, v, hv => by
    rw [walkList_cons]
    have hafter : afterReqs usable reqs n = some reqs := by
      unfold afterReqs
      rw [if_neg fun h => absurd h.1 (by simp [hkind n List.mem_cons_self])]
    rcases List.mem_cons.mp hb with rfl | hb
    · exact List.mem_append_left _ hv
    · rw [hafter]
      exact List.mem_append_right _
        (walk_mem_walkList (fun c hc => hkind c (List.mem_cons_of_mem _ hc)) hb v hv)

/-! ## 5. Guard frames are sound -/

/-- **Every executed node is visited under requirements that hold.**  By induction on the run. -/
theorem exec_visited {c : Code} {t : List PCFNNode} {o : Outcome}
    (h : Exec (follows usable ν) c t o) : ∀ {reqs : List Req}, Holds ν reqs →
      ∀ m ∈ t, ∃ rs, Holds ν rs ∧ (m, rs) ∈ codeVisits usable reqs c := by
  induction h with
  | fail c => simp
  | nil => simp
  | leavesNil => simp
  | leaf => simp
  | exit => simp
  | error => simp
  | breakLoop => simp
  | continueLoop => simp
  | noBranch => simp
  | loopStop => simp
  | @node n t₁ t₂ o _ _ ihl ihb =>
    intro reqs hreqs m hm
    rcases List.mem_append.mp hm with hm | hm
    · obtain ⟨rs, hrs, hv⟩ := ihl hreqs m hm
      exact ⟨rs, hrs, visits_leaves (visits_before hv)⟩
    · rcases List.mem_cons.mp hm with rfl | hm
      · exact ⟨reqs, hreqs, by rw [codeVisits, walk_eq]; exact List.mem_cons_self⟩
      · exact ihb hreqs m hm
  | nodeStop _ _ ihl =>
    intro reqs hreqs m hm
    obtain ⟨rs, hrs, hv⟩ := ihl hreqs m hm
    exact ⟨rs, hrs, visits_leaves (visits_before hv)⟩
  | @cons n ns t₁ t₂ o hn _ ihn ihns =>
    intro reqs hreqs m hm
    rw [codeVisits, walkList_cons]
    rcases List.mem_append.mp hm with hm | hm
    · obtain ⟨rs, hrs, hv⟩ := ihn hreqs m hm
      exact ⟨rs, hrs, List.mem_append_left _ hv⟩
    · obtain ⟨after, hafter, hholds⟩ := afterReqs_holds hreqs hn
      obtain ⟨rs, hrs, hv⟩ := ihns hholds m hm
      refine ⟨rs, hrs, List.mem_append_right _ ?_⟩
      rw [hafter]
      exact hv
  | stop _ _ ihn =>
    intro reqs hreqs m hm
    obtain ⟨rs, hrs, hv⟩ := ihn hreqs m hm
    exact ⟨rs, hrs, by rw [codeVisits, walkList_cons]; exact List.mem_append_left _ hv⟩
  | leavesCons _ _ ihn ihns =>
    intro reqs hreqs m hm
    rcases List.mem_append.mp hm with hm | hm
    · obtain ⟨rs, hrs, hv⟩ := ihn hreqs m hm
      exact ⟨rs, hrs, List.mem_append_left _ hv⟩
    · obtain ⟨rs, hrs, hv⟩ := ihns hreqs m hm
      exact ⟨rs, hrs, List.mem_append_right _ hv⟩
  | leavesStop _ _ ihn =>
    intro reqs hreqs m hm
    obtain ⟨rs, hrs, hv⟩ := ihn hreqs m hm
    exact ⟨rs, hrs, List.mem_append_left _ hv⟩
  | leavesSkip _ _ _ ihns =>
    intro reqs hreqs m hm
    obtain ⟨rs, hrs, hv⟩ := ihns hreqs m hm
    exact ⟨rs, hrs, List.mem_append_right _ hv⟩
  | @sequence n t o hk _ ih =>
    intro reqs hreqs m hm
    obtain ⟨rs, hrs, hv⟩ := ih hreqs m hm
    have hnot : n.kind ≠ .ifThen := by
      rcases hk with hk | hk | hk | hk <;> simp [hk]
    exact ⟨rs, hrs, visits_body (branchReqs_of_not_if hnot) hv⟩
  | caught _ _ _ _ _ ih => exact ih
  | @thenBranch n t o hk hsel _ ih =>
    intro reqs hreqs m hm
    have hreq : nodeReq usable n = thenReq usable n := if_pos hk
    obtain ⟨r, hr, hholds⟩ := branchReqs_holds (nodeReq usable n) hreqs fun r hr =>
      (hsel hk r (hreq ▸ hr)).mp rfl
    obtain ⟨rs, hrs, hv⟩ := ih hholds m hm
    exact ⟨rs, hrs, visits_body hr hv⟩
  | @elseBranch n t o hk hsel _ ih =>
    intro reqs hreqs m hm
    have hreq : nodeReq usable n = thenReq usable n := if_pos hk
    obtain ⟨r, hr, hholds⟩ := branchReqs_holds ((nodeReq usable n).map flipReq) hreqs
      fun r hr => by
        obtain ⟨q, hq, rfl⟩ := Option.map_eq_some_iff.mp hr
        have hfalse : ν q.1 ≠ q.2 := fun hv => absurd ((hsel hk q (hreq ▸ hq)).mpr hv) (by simp)
        simp only [flipReq]
        cases hb : q.2 <;> cases hval : ν q.1 <;> simp_all
    obtain ⟨rs, hrs, hv⟩ := ih hholds m hm
    exact ⟨rs, hrs, visits_elseBody hr hv⟩
  | @branch n b t o hk hkinds hb _ ih =>
    intro reqs hreqs m hm
    obtain ⟨rs, hrs, hv⟩ := ih hreqs m hm
    exact ⟨rs, hrs, visits_body (branchReqs_of_not_if (by simp [hk]))
      (walk_mem_walkList hkinds hb _ hv)⟩
  | @headLoop n t o hk _ ih =>
    intro reqs hreqs m hm
    obtain ⟨rs, hrs, hv⟩ := ih hreqs m hm
    refine ⟨rs, hrs, visits_rounds ?_ hv⟩
    rcases hk with hk | hk | hk <;> simp [hk]
  | @tailLoop n t₁ t₂ o hk _ _ ihr ihl =>
    intro reqs hreqs m hm
    have hnot : n.kind ≠ .ifThen := by simp [hk]
    rcases List.mem_append.mp hm with hm | hm
    · obtain ⟨rs, hrs, hv⟩ := ihr hreqs m hm
      exact ⟨rs, hrs, visits_rounds hnot hv⟩
    · obtain ⟨rs, hrs, hv⟩ := ihl hreqs m hm
      exact ⟨rs, hrs, visits_rounds hnot hv⟩
  | @tailBreak n t hk _ ih =>
    intro reqs hreqs m hm
    obtain ⟨rs, hrs, hv⟩ := ih hreqs m hm
    exact ⟨rs, hrs, visits_rounds (by simp [hk]) hv⟩
  | @tailStop n t o hk _ _ ih =>
    intro reqs hreqs m hm
    obtain ⟨rs, hrs, hv⟩ := ih hreqs m hm
    exact ⟨rs, hrs, visits_rounds (by simp [hk]) hv⟩
  | round _ _ _ ihb ihl =>
    intro reqs hreqs m hm
    rcases List.mem_append.mp hm with hm | hm
    · obtain ⟨rs, hrs, hv⟩ := ihb hreqs m hm
      exact ⟨rs, hrs, List.mem_append_left _ hv⟩
    · obtain ⟨rs, hrs, hv⟩ := ihl hreqs m hm
      exact ⟨rs, hrs, List.mem_append_right _ (visits_again hv)⟩
  | roundStop _ _ ih =>
    intro reqs hreqs m hm
    obtain ⟨rs, hrs, hv⟩ := ih hreqs m hm
    exact ⟨rs, hrs, List.mem_append_left _ hv⟩
  | loopRound _ _ ihr ihl =>
    intro reqs hreqs m hm
    rcases List.mem_append.mp hm with hm | hm
    · exact ihr hreqs m hm
    · exact ihl hreqs m hm
  | loopBreak _ ih => exact ih
  | loopLeave _ _ ih => exact ih

theorem record_lookup {bySite : HashMap String (List Req)} {v : PCFNNode × List Req}
    {id : String} {rs : List Req} (h : (record bySite v).lookup id = some rs) :
    bySite.lookup id = some rs ∨ id ∈ v.1.siteIds ∧ rs = v.2 := by
  unfold record at h
  split at h
  · exact Or.inl h
  · have hfold : ∀ (ids : List String) (m : HashMap String (List Req)),
        (ids.foldl (fun m id => m.insert id v.2) m).lookup id = some rs →
          m.lookup id = some rs ∨ id ∈ ids ∧ rs = v.2 := by
      intro ids
      induction ids with
      | nil => exact fun m h => Or.inl h
      | cons x ids ih =>
        intro m h
        rcases ih _ h with h | ⟨hmem, hrs⟩
        · by_cases hx : id = x
          · subst hx
            rw [AList.lookup_insert] at h
            exact Or.inr ⟨List.mem_cons_self, (Option.some.inj h).symm⟩
          · rw [AList.lookup_insert_ne hx] at h
            exact Or.inl h
        · exact Or.inr ⟨List.mem_cons_of_mem _ hmem, hrs⟩
    exact hfold _ _ h

/-- What a frame records for a site was recorded at a visit of a node with that site. -/
theorem records_lookup {id : String} {rs : List Req} :
    ∀ {visits : List (PCFNNode × List Req)} {bySite : HashMap String (List Req)},
      (visits.foldl record bySite).lookup id = some rs →
        bySite.lookup id = some rs ∨ ∃ v ∈ visits, id ∈ v.1.siteIds ∧ rs = v.2
  | [], _, h => Or.inl h
  | v :: visits, bySite, h => by
    rcases @records_lookup _ _ visits _ h with h | ⟨w, hw, hid⟩
    · rcases record_lookup h with h | hid
      · exact Or.inl h
      · exact Or.inr ⟨v, List.mem_cons_self, hid⟩
    · exact Or.inr ⟨w, List.mem_cons_of_mem _ hw, hid⟩

/-- Two visits of one site are one visit. -/
theorem visit_unique {visits : List (PCFNNode × List Req)} (h : (visitedIds visits).Nodup)
    {v w : PCFNNode × List Req} (hv : v ∈ visits) (hw : w ∈ visits) {id : String}
    (hidv : id ∈ v.1.siteIds) (hidw : id ∈ w.1.siteIds) : v = w := by
  by_contra hne
  have hdisj := (List.nodup_flatMap.mp h).2
  have hsymm : Std.Symm (Function.onFun List.Disjoint
      fun v : PCFNNode × List Req => v.1.siteIds) := ⟨fun a b hab s hb ha => hab ha hb⟩
  exact hdisj.forall hv hw hne hidv hidw

theorem frameGuards_bySite {r : RoutineBody} {passesByValue : String → ℕ → Bool}
    {f : FrameGuards} (hf : frameGuards r passesByValue = some f) {tree : PCFNNode}
    (htree : r.statementTree = some tree) :
    f.bySite = (walk (usableGuards r passesByValue) [] tree).foldl record ∅ := by
  unfold frameGuards at hf
  dsimp only at hf
  rw [htree] at hf
  split at hf
  · simp at hf
  · obtain rfl := Option.some.inj hf
    rfl

/-- **Guard frames are sound.**  In every run of a routine body with distinct site ids that takes
the branches a valuation of the usable guard parameters selects, whenever a node is executed,
every requirement the frame records for one of its sites holds in the valuation. -/
theorem frameGuards_sound {r : RoutineBody} {passesByValue : String → ℕ → Bool}
    {f : FrameGuards} (hf : frameGuards r passesByValue = some f) {tree : PCFNNode}
    (htree : r.statementTree = some tree) (hids : tree.treeIds.Nodup) {ν : ℕ → Bool}
    {t : List PCFNNode} {o : Outcome}
    (hrun : Exec (follows (usableGuards r passesByValue) ν) (.node tree) t o)
    {m : PCFNNode} (hm : m ∈ t) {s : String} (hs : s ∈ m.siteIds) :
    ∀ q ∈ f.site s, ν q.1 = q.2 := by
  intro q hq
  rw [FrameGuards.site, HashMap.getList, frameGuards_bySite hf htree] at hq
  cases hrs : ((walk (usableGuards r passesByValue) [] tree).foldl record ∅).lookup s with
  | none => simp [hrs] at hq
  | some rs =>
    rw [hrs] at hq
    have hnone : Holds ν [] := by simp [Holds]
    obtain ⟨rs', hholds, hvisit⟩ := exec_visited hrun hnone m hm
    rcases records_lookup hrs with hempty | ⟨v, hv, hid, rfl⟩
    · simp at hempty
    · have hnodup : (visitedIds (walk (usableGuards r passesByValue) [] tree)).Nodup :=
        hids.sublist (visitedIds_walk tree [])
      obtain rfl := visit_unique hnodup hv hvisit hid hs
      exact hholds q hq

/-- The `Rec.Modify()` of the body below. -/
def modifyNode : PCFNNode where
  kind := .op
  operationId := some "op"

/-- `if P then exit;`. -/
def exitOnGuard : PCFNNode where
  kind := .ifThen
  conditionGuard := some ⟨"p", "positive"⟩
  children := some [{ kind := .block, children := some [{ kind := .exit }] }]

/-- `if P then exit; Rec.Modify();` with a by-value `Boolean` parameter. -/
def earlyExit : RoutineBody where
  id := "r"
  parameters := [{ index := 0, name := "P", typeText := "boolean" }]
  statementTree := some { kind := .block, children := some [exitOnGuard, modifyNode] }

theorem usableGuards_earlyExit : usableGuards earlyExit (fun _ _ => true) = [("p", 0)] := by
  have htrim : Text.trim "boolean" = "boolean" := rfl
  have hunq : unq "P" = "P" := rfl
  have htype : Text.eqIgnoreAsciiCase "boolean" "boolean" = true := by
    simp [Text.eqIgnoreAsciiCase]
  have hname : Text.toAsciiLowercase "P" = "p" := by decide +kernel
  simp [usableGuards, isUsable, earlyExit, htrim, hunq, htype, hname]

/-- The run with `P = false`: it passes the `if` and executes the operation. -/
theorem earlyExit_run : Exec (follows (usableGuards earlyExit fun _ _ => true) fun _ => false)
    (.node { kind := .block, children := some [exitOnGuard, modifyNode] })
    [{ kind := .block, children := some [exitOnGuard, modifyNode] }, exitOnGuard, modifyNode]
    .normal := by
  have hsel : follows (usableGuards earlyExit fun _ _ => true) (fun _ => false) exitOnGuard
      false := by
    intro _ q hq
    have hreq : thenReq (usableGuards earlyExit fun _ _ => true) exitOnGuard =
        some (0, true) := by
      rw [usableGuards_earlyExit]
      decide
    obtain rfl := Option.some.inj (hreq.symm.trans hq)
    simp
  have hif : Exec (follows (usableGuards earlyExit fun _ _ => true) fun _ => false)
      (.node exitOnGuard) [exitOnGuard] .normal :=
    .unconditional rfl (.elseBranch rfl hsel .nil)
  have hop : Exec (follows (usableGuards earlyExit fun _ _ => true) fun _ => false)
      (.node modifyNode) [modifyNode] .normal :=
    .unconditional rfl (.leaf (Or.inl rfl))
  exact .unconditional rfl (.sequence (Or.inl rfl) (.cons hif (.cons hop .nil)))

/-- In that run the frame's requirement of the operation, `P = false`, holds. -/
theorem frameGuards_earlyExit : ∃ f, frameGuards earlyExit (fun _ _ => true) = some f ∧
    f.site "op" = [(0, false)] ∧ ∀ q ∈ f.site "op", (fun _ : ℕ => false) q.1 = q.2 := by
  have hsite : ((frameGuards earlyExit fun _ _ => true).map fun f => f.site "op") =
      some [(0, false)] := by
    rw [frameGuards, usableGuards_earlyExit]
    decide +kernel
  obtain ⟨f, hf, hop⟩ := Option.map_eq_some_iff.mp hsite
  have hmem : modifyNode ∈
      [{ kind := .block, children := some [exitOnGuard, modifyNode] }, exitOnGuard, modifyNode] :=
    List.mem_cons_of_mem _ (List.mem_cons_of_mem _ List.mem_cons_self)
  exact ⟨f, hf, hop, frameGuards_sound hf rfl (by decide) earlyExit_run hmem (by decide)⟩

end AlSem.L4
