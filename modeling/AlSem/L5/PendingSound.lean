/-
# Pending-write sites: what they miss

Every site a run executes between the last `Commit()` and a target is one of `sitesBefore`, but in three
places of the tree, which `Overlooked` names:

* an arm that `branchTermination` takes for one that always leaves the routine, though the run left it
  by a `break`, or though a loop around the target is read as a whole and the arm holds the target too;
* the body of a `while` or `repeat` whose condition holds the target, and what the condition evaluates
  behind it: both have run when the condition is evaluated again;
* the patterns of the branches of a `case` in front of the one that holds the target.

The crux is `node_sound`: the walk of a node has the sites pending where a run of it reaches the
target, if it was started with those pending before the run.
-/
import AlSem.Body.SuccessPath
import AlSem.L5.PendingWrites
import AlSem.Model.OrderedRuns

namespace AlSem.L5.PendingWrites

open AlSem.Model AlSem.Body PCFNNode

/-! ## 1. The sites of a tree -/

theorem isSite_iff {n : PCFNNode} {t : String} : isSite n t = true ↔ t ∈ n.siteIds := by
  simp [isSite, siteIds]

theorem anyHoldsOpt_eq (ns : Option (List PCFNNode)) (t : String) :
    anyHoldsOpt ns t = anyHolds (ns.getD []) t := by
  cases ns <;> rfl

theorem holdsSite_eq (n : PCFNNode) (t : String) :
    holdsSite n t =
      (isSite n t || anyHolds n.leaves t || anyHolds n.body t || anyHolds n.elseBody t) := by
  cases n
  simp only [holdsSite, anyHoldsOpt_eq]
  rfl

theorem anyHolds_iff {ns : List PCFNNode} {t : String}
    (h : ∀ n ∈ ns, holdsSite n t = true ↔ t ∈ n.treeIds) :
    anyHolds ns t = true ↔ t ∈ listIds ns := by
  induction ns with
  | nil => simp [anyHolds, listIds, subtrees]
  | cons n ns ih =>
    rw [anyHolds, Bool.or_eq_true, h n List.mem_cons_self,
      ih fun m hm => h m (List.mem_cons_of_mem _ hm), listIds_cons, List.mem_append]

theorem holdsSite_iff (n : PCFNNode) (t : String) : holdsSite n t = true ↔ t ∈ n.treeIds := by
  induction n using PCFNNode.induct with
  | step n ih =>
    have hleaves := anyHolds_iff (t := t) fun c hc => ih c (List.mem_append_left _ hc)
    have hbody := anyHolds_iff (t := t) fun c hc =>
      ih c (List.mem_append_right _ (List.mem_append_left _ hc))
    have helse := anyHolds_iff (t := t) fun c hc =>
      ih c (List.mem_append_right _ (List.mem_append_right _ hc))
    rw [holdsSite_eq, treeIds_eq]
    simp only [Bool.or_eq_true, isSite_iff, hleaves, hbody, helse, List.mem_append, or_assoc]

theorem subtrees_append (ns ms : List PCFNNode) :
    subtrees (ns ++ ms) = subtrees ns ++ subtrees ms := by
  induction ns with
  | nil => rfl
  | cons n ns ih => rw [List.cons_append, subtrees, subtrees, ih, List.append_assoc]

theorem subtree_parts (n : PCFNNode) : n.subtree = n :: subtrees n.parts := by
  rw [subtree_eq, PCFNNode.parts, subtrees_append, subtrees_append]

/-- The tree of a node below is within the tree. -/
theorem subtree_trans {n m : PCFNNode} (hm : m ∈ n.subtree) : m.subtree ⊆ n.subtree := by
  induction n using PCFNNode.induct with
  | step n ih =>
    rw [subtree_parts] at hm
    rcases List.mem_cons.mp hm with rfl | hm
    · exact List.Subset.refl _
    · obtain ⟨d, hd, hmd⟩ := mem_subtrees_iff.mp hm
      exact List.Subset.trans (ih d hd hmd) (subtree_subset hd)

theorem mem_listIds {ns : List PCFNNode} {x : String} :
    x ∈ listIds ns ↔ ∃ n ∈ ns, x ∈ n.treeIds := by
  induction ns with
  | nil => simp [listIds, subtrees]
  | cons n ns ih => simp [listIds_cons, ih]

theorem mem_treeIds {n : PCFNNode} {x : String} :
    x ∈ n.treeIds ↔ ∃ m ∈ n.subtree, x ∈ m.siteIds := List.mem_flatMap

theorem reachingOpt_eq (arms : Bool) (ns : Option (List PCFNNode)) :
    reachingOpt arms ns = reachingList arms (ns.getD []) := by
  cases ns <;> rfl

theorem collectReaching_eq (n : PCFNNode) :
    collectReaching n = n.siteIds.toFinset ∪ (reachingList false n.leaves ∪
      (reachingList (hasArms n.kind) n.body ∪ reachingList (hasArms n.kind) n.elseBody)) := by
  cases n
  simp only [collectReaching, reachingOpt_eq]
  rfl

theorem mem_reachingList {arms : Bool} {ns : List PCFNNode} {x : String} :
    x ∈ reachingList arms ns ↔ ∃ n ∈ ns,
      ¬ (arms = true ∧ terminates (branchTermination n) = true) ∧ x ∈ collectReaching n := by
  induction ns with
  | nil => simp [reachingList]
  | cons n ns ih =>
    rw [reachingList, Finset.mem_union, ih]
    by_cases h : arms = true ∧ terminates (branchTermination n) = true
    · simp [h]
    · rw [if_neg (by simpa using h)]
      simp only [List.mem_cons, exists_eq_or_imp, h, not_false_eq_true, true_and]

/-- `x` is in an arm below `n` that is judged to leave the routine. -/
def InEndedArm (n : PCFNNode) (x : String) : Prop :=
  ∃ m ∈ n.subtree, hasArms m.kind = true ∧
    ∃ a ∈ m.body ++ m.elseBody, terminates (branchTermination a) = true ∧ x ∈ a.treeIds

theorem InEndedArm.mono {n c : PCFNNode} {x : String} (hc : c ∈ n.parts) (h : InEndedArm c x) :
    InEndedArm n x := by
  obtain ⟨m, hm, hrest⟩ := h
  exact ⟨m, subtree_subset hc hm, hrest⟩

/-- **What is not collected is in an arm that is judged to leave.** -/
theorem mem_collectReaching (n : PCFNNode) {x : String} (hx : x ∈ n.treeIds) :
    x ∈ collectReaching n ∨ InEndedArm n x := by
  induction n using PCFNNode.induct with
  | step n ih =>
    rw [treeIds_eq] at hx
    rw [collectReaching_eq]
    simp only [Finset.mem_union, List.mem_toFinset, mem_reachingList]
    have harm : ∀ c ∈ n.body ++ n.elseBody, x ∈ c.treeIds →
        (¬ (hasArms n.kind = true ∧ terminates (branchTermination c) = true) ∧
          x ∈ collectReaching c) ∨ InEndedArm n x := by
      intro c hc hxc
      by_cases hend : hasArms n.kind = true ∧ terminates (branchTermination c) = true
      · exact Or.inr ⟨n, n.mem_subtree_self, hend.1, c, hc, hend.2, hxc⟩
      · rcases ih c (List.mem_append_right _ hc) hxc with h | h
        · exact Or.inl ⟨hend, h⟩
        · exact Or.inr (h.mono (List.mem_append_right _ hc))
    simp only [List.mem_append] at hx
    rcases hx with hx | hx | hx | hx
    · exact Or.inl (Or.inl hx)
    · obtain ⟨c, hc, hxc⟩ := mem_listIds.mp hx
      rcases ih c (List.mem_append_left _ hc) hxc with h | h
      · exact Or.inl (Or.inr (Or.inl ⟨c, hc, by simp, h⟩))
      · exact Or.inr (h.mono (List.mem_append_left _ hc))
    · obtain ⟨c, hc, hxc⟩ := mem_listIds.mp hx
      rcases harm c (List.mem_append_left _ hc) hxc with h | h
      · exact Or.inl (Or.inr (Or.inr (Or.inl ⟨c, hc, h⟩)))
      · exact Or.inr h
    · obtain ⟨c, hc, hxc⟩ := mem_listIds.mp hx
      rcases harm c (List.mem_append_right _ hc) hxc with h | h
      · exact Or.inl (Or.inr (Or.inr (Or.inr ⟨c, hc, h⟩)))
      · exact Or.inr h

/-- The whole of a list of nodes, but for such arms. -/
theorem mem_reaching {ns : List PCFNNode} {x : String} (hx : x ∈ listIds ns) :
    x ∈ reachingList false ns ∨ ∃ c ∈ ns, InEndedArm c x := by
  obtain ⟨c, hc, hxc⟩ := mem_listIds.mp hx
  rcases mem_collectReaching c hxc with h | h
  · exact Or.inl (mem_reachingList.mpr ⟨c, hc, by simp, h⟩)
  · exact Or.inr ⟨c, hc, h⟩

/-! ## 2. The order of a condition -/

/-- The nodes of an expression, a call and what stands in one. -/
def IsCall (k : CfnKind) : Prop := k = .op ∨ k = .call ∨ k = .error

instance (k : CfnKind) : Decidable (IsCall k) :=
  inferInstanceAs (Decidable (k = .op ∨ k = .call ∨ k = .error))

/-- **A tree as the body walk builds it**, `commits` the ids of the commit sites: a site is a call's,
and a condition holds calls, none of them a `Commit()`, which has no value. -/
structure Built (commits : Finset String) (tree : PCFNNode) : Prop where
  ids : tree.treeIds.Nodup
  sited : ∀ n ∈ tree.subtree, n.siteIds ≠ [] → IsCall n.kind
  evaluated : ∀ n ∈ tree.subtree, ∀ l ∈ subtrees n.leaves,
    IsCall l.kind ∧ isCommit commits l = false

mutual

/-- The nodes an expression evaluates, in order: a call behind its arguments. -/
def evaluation : PCFNNode → List PCFNNode
  | ⟨k, op, cs, g, leaves, children, elseChildren, els, range, hint⟩ =>
    evaluationsOpt leaves ++
      [⟨k, op, cs, g, leaves, children, elseChildren, els, range, hint⟩]

def evaluationsOpt : Option (List PCFNNode) → List PCFNNode
  | none => []
  | some ns => evaluations ns

def evaluations : List PCFNNode → List PCFNNode
  | [] => []
  | n :: ns => evaluation n ++ evaluations ns

end

theorem evaluation_eq (n : PCFNNode) : evaluation n = evaluations n.leaves ++ [n] := by
  cases n with
  | mk k op cs g leaves children elseChildren els range hint =>
    rw [evaluation]
    cases leaves <;> rfl

theorem evaluations_append (ns ms : List PCFNNode) :
    evaluations (ns ++ ms) = evaluations ns ++ evaluations ms := by
  induction ns with
  | nil => rfl
  | cons n ns ih => simp [evaluations, ih]

theorem evaluation_subset (n : PCFNNode) : evaluation n ⊆ n.subtree := by
  induction n using PCFNNode.induct with
  | step n ih =>
    have hlist : ∀ ns : List PCFNNode, (∀ c ∈ ns, evaluation c ⊆ c.subtree) →
        evaluations ns ⊆ subtrees ns := by
      intro ns h
      induction ns with
      | nil => exact List.nil_subset _
      | cons c ns ihs =>
        rw [evaluations, subtrees]
        have hrest := ihs fun d hd => h d (List.mem_cons_of_mem _ hd)
        exact List.append_subset.mpr ⟨fun m hm => List.mem_append_left _
          (h c List.mem_cons_self hm), fun m hm => List.mem_append_right _ (hrest hm)⟩
    rw [evaluation_eq]
    refine List.append_subset.mpr ⟨?_, by simpa using n.mem_subtree_self⟩
    exact List.Subset.trans (hlist n.leaves fun c hc => ih c (List.mem_append_left _ hc))
      (subtrees_leaves n)

theorem evaluations_subset (ns : List PCFNNode) : evaluations ns ⊆ subtrees ns := by
  induction ns with
  | nil => exact List.nil_subset _
  | cons n ns ih =>
    rw [evaluations, subtrees]
    exact List.append_subset.mpr ⟨fun m hm => List.mem_append_left _ (evaluation_subset n hm),
      fun m hm => List.mem_append_right _ (ih hm)⟩

/-- `x` is evaluated in front of `t`. -/
def Ahead (t : String) (ns : List PCFNNode) (x : String) : Prop :=
  ∃ s₁ k s₂, ns = s₁ ++ k :: s₂ ∧ t ∈ k.siteIds ∧ x ∈ s₁.flatMap siteIds

theorem body_of_isCall {n : PCFNNode} (hk : IsCall n.kind) {t : List PCFNNode} {o : Outcome}
    (h : Runs (.body n) t o) : t = [] := by
  cases h <;>
    rcases hk with hk | hk | hk <;>
    simp_all [CfnKind.isSequence, CfnKind.isHeadLoop]

theorem before_of_isCall {n : PCFNNode} (hk : IsCall n.kind) : n.before = n.leaves := by
  rcases hk with hk | hk | hk <;> simp [PCFNNode.before, hk]

/-- **A run of an expression keeps to its order.** -/
theorem evaluations_of_runs {c : Code} {t : List PCFNNode} {o : Outcome} (h : Runs c t o) :
    (∀ n, c = .node n → (∀ m ∈ n.subtree, IsCall m.kind) → t.Sublist (evaluation n)) ∧
    (∀ ns, c = .leaves ns → (∀ m ∈ subtrees ns, IsCall m.kind) → t.Sublist (evaluations ns)) := by
  induction h with
  | fail => exact ⟨fun _ _ _ => List.nil_sublist _, fun _ _ _ => List.nil_sublist _⟩
  | @node n t₁ t₂ o _ hbody ih₁ _ =>
    refine ⟨?_, nofun⟩
    rintro _ ⟨rfl⟩ hcalls
    have hk := hcalls n n.mem_subtree_self
    obtain rfl := body_of_isCall hk hbody
    rw [evaluation_eq, ← before_of_isCall hk]
    refine (ih₁.2 _ rfl ?_).append_right [n]
    rw [before_of_isCall hk]
    exact fun m hm => hcalls m (subtrees_leaves n hm)
  | @nodeStop n t o _ _ ih =>
    refine ⟨?_, nofun⟩
    rintro _ ⟨rfl⟩ hcalls
    have hk := hcalls n n.mem_subtree_self
    rw [evaluation_eq, ← before_of_isCall hk]
    refine (ih.2 _ rfl ?_).trans (List.sublist_append_left _ _)
    rw [before_of_isCall hk]
    exact fun m hm => hcalls m (subtrees_leaves n hm)
  | leavesNil => exact ⟨nofun, fun _ _ _ => List.nil_sublist _⟩
  | @leavesCons n ns t₁ t₂ o _ _ ih₁ ih₂ =>
    refine ⟨nofun, ?_⟩
    rintro _ ⟨rfl⟩ hcalls
    exact (ih₁.1 n rfl fun m hm => hcalls m (List.mem_append_left _ hm)).append
      (ih₂.2 ns rfl fun m hm => hcalls m (List.mem_append_right _ hm))
  | @leavesStop n ns t o _ _ ih =>
    refine ⟨nofun, ?_⟩
    rintro _ ⟨rfl⟩ hcalls
    exact (ih.1 n rfl fun m hm => hcalls m (List.mem_append_left _ hm)).trans
      (List.sublist_append_left _ _)
  | @leavesSkip n ns t o _ _ ih =>
    refine ⟨nofun, ?_⟩
    rintro _ ⟨rfl⟩ hcalls
    exact (ih.2 ns rfl fun m hm => hcalls m (List.mem_append_right _ hm)).trans
      (List.sublist_append_right _ _)
  | _ => exact ⟨nofun, nofun⟩

/-- What a run has executed before a site of an expression stands in front of it. -/
theorem ahead_of_sublist {es u v : List PCFNNode} {k : PCFNNode} {t : String}
    (h : (u ++ k :: v).Sublist es) (ht : t ∈ k.siteIds) {x : String}
    (hx : x ∈ u.flatMap siteIds) : Ahead t es x := by
  obtain ⟨r₁, r₂, rfl, hu, hk⟩ := List.append_sublist_iff.mp h
  obtain ⟨p, q, rfl, hkp, -⟩ := List.cons_sublist_iff.mp hk
  obtain ⟨p₁, p₂, rfl⟩ := List.append_of_mem hkp
  refine ⟨r₁ ++ p₁, k, p₂ ++ q, by simp, ht, ?_⟩
  rw [List.flatMap_append]
  exact List.mem_append_left _ (hu.flatMap siteIds |>.subset hx)

/-! ## 3. What a run has pending -/

/-- `x` was executed in `h` with no `Commit()` behind it. -/
def Pending (commits : Finset String) (h : List PCFNNode) (x : String) : Prop :=
  ∃ p m q, h = p ++ m :: q ∧ x ∈ m.siteIds ∧ ∀ k ∈ m :: q, isCommit commits k = false

theorem Pending.append {commits : Finset String} {h u : List PCFNNode} {x : String}
    (hp : Pending commits (h ++ u) x) : Pending commits h x ∨ x ∈ u.flatMap siteIds := by
  obtain ⟨p, m, q, heq, hx, hq⟩ := hp
  rcases split_append heq with ⟨r, hh⟩ | ⟨r, -, hu⟩
  · refine Or.inl ⟨p, m, r, hh, hx, ?_⟩
    have hqr : q = r ++ u := by
      rw [hh, List.append_assoc, List.append_cancel_left_eq, List.cons_append, List.cons.injEq] at heq
      exact heq.2.symm
    intro k hk
    refine hq k ?_
    rcases List.mem_cons.mp hk with rfl | hk
    · exact List.mem_cons_self
    · exact List.mem_cons_of_mem _ (hqr ▸ List.mem_append_left _ hk)
  · exact Or.inr (List.mem_flatMap.mpr ⟨m, hu ▸ mem_mid r q m, hx⟩)

/-- A `Commit()` leaves nothing pending. -/
theorem not_pending_commit {commits : Finset String} {h : List PCFNNode} {m : PCFNNode}
    (hm : isCommit commits m = true) (x : String) : ¬ Pending commits (h ++ [m]) x := by
  rintro ⟨p, k, q, heq, -, hq⟩
  have hlast : m ∈ k :: q := by
    rcases split_append heq with ⟨r, hh⟩ | ⟨r, -, hr⟩
    · rw [hh, List.append_assoc, List.append_cancel_left_eq, List.cons_append,
        List.cons.injEq] at heq
      exact List.mem_cons_of_mem _ (heq.2 ▸ List.mem_append_right _ List.mem_cons_self)
    · have : m ∈ r ++ k :: q := hr ▸ List.mem_cons_self
      cases r with
      | nil => exact this
      | cons y r =>
        rw [List.cons_append, List.cons.injEq] at hr
        exact absurd hr.2.symm (List.append_ne_nil_of_right_ne_nil _ (List.cons_ne_nil _ _))
  rw [hq m hlast] at hm
  exact absurd hm Bool.false_ne_true

/-! ## 4. The sites the walk overlooks -/

/-- A loop whose body holds `t` holds `x`. -/
def InLoop (tree : PCFNNode) (t x : String) : Prop :=
  ∃ l ∈ tree.subtree, isLoopKind l.kind = true ∧ t ∈ listIds (l.body ++ l.elseBody) ∧ x ∈ l.treeIds

/-- **The three places where the walk toward `t` does not look.**  A loop whose body holds the target is
read as a whole: within it only the ended arms are left out. -/
inductive Overlooked (tree : PCFNNode) (t x : String) : Prop
  | arm {m a} : m ∈ tree.subtree → hasArms m.kind = true → a ∈ m.body ++ m.elseBody →
      terminates (branchTermination a) = true → x ∈ a.treeIds →
      (t ∈ a.treeIds →
        ∃ l ∈ tree.subtree, isLoopKind l.kind = true ∧ m ∈ subtrees (l.body ++ l.elseBody)) →
      Overlooked tree t x
  | recheck {n} : n ∈ tree.subtree → n.kind = .whileDo ∨ n.kind = .repeatUntil →
      t ∈ listIds n.leaves →
      x ∈ listIds (n.body ++ n.elseBody) ∨
        x ∈ listIds n.leaves ∧ ¬ Ahead t (evaluations n.leaves) x →
      ¬ InLoop tree t x → Overlooked tree t x
  | pattern {n pre b post c} : n ∈ tree.subtree → n.kind = .case → n.body = pre ++ b :: post →
      t ∈ b.treeIds → c ∈ pre → x ∈ listIds c.leaves → ¬ InLoop tree t x → Overlooked tree t x

section

variable {commits : Finset String} {tree : PCFNNode} {t : String}

/-- The walk has come to `ns` through no loop. -/
structure Within (tree : PCFNNode) (t : String) (ns : List PCFNNode) : Prop where
  sub : subtrees ns ⊆ tree.subtree
  ids : (listIds ns).Nodup
  loops : ∀ l ∈ tree.subtree, isLoopKind l.kind = true → t ∈ listIds (l.body ++ l.elseBody) →
    l ∈ subtrees ns

/-- No id of a node's parts stands in two of them. -/
structure Disjointed (n : PCFNNode) : Prop where
  self : ∀ x ∈ n.siteIds, x ∉ listIds n.leaves ∧ x ∉ listIds n.body ∧ x ∉ listIds n.elseBody
  leaves : ∀ x ∈ listIds n.leaves, x ∉ listIds n.body ∧ x ∉ listIds n.elseBody
  body : ∀ x ∈ listIds n.body, x ∉ listIds n.elseBody

theorem disjointed_of_nodup {n : PCFNNode} (h : n.treeIds.Nodup) : Disjointed n := by
  rw [treeIds_eq] at h
  obtain ⟨-, hparts, hself⟩ := List.nodup_append.mp h
  obtain ⟨-, hrest, hleaves⟩ := List.nodup_append.mp hparts
  obtain ⟨-, -, hbody⟩ := List.nodup_append.mp hrest
  refine ⟨fun x hx => ⟨fun h => ?_, fun h => ?_, fun h => ?_⟩,
    fun x hx => ⟨fun h => ?_, fun h => ?_⟩, fun x hx h => hbody x hx x h rfl⟩
  · exact hself x hx x (List.mem_append_left _ h) rfl
  · exact hself x hx x (List.mem_append_right _ (List.mem_append_left _ h)) rfl
  · exact hself x hx x (List.mem_append_right _ (List.mem_append_right _ h)) rfl
  · exact hleaves x hx x (List.mem_append_left _ h) rfl
  · exact hleaves x hx x (List.mem_append_right _ h) rfl

theorem listIds_append (ns ms : List PCFNNode) : listIds (ns ++ ms) = listIds ns ++ listIds ms := by
  induction ns with
  | nil => simp [listIds, subtrees]
  | cons n ns ih => rw [List.cons_append, listIds_cons, listIds_cons, ih, List.append_assoc]

theorem listIds_singleton (n : PCFNNode) : listIds [n] = n.treeIds := by
  rw [listIds, subtrees_singleton, treeIds]

theorem listIds_of_subtrees {ns : List PCFNNode} {m : PCFNNode} (hm : m ∈ subtrees ns) {x : String}
    (hx : x ∈ m.treeIds) : x ∈ listIds ns := by
  obtain ⟨c, hc, hmc⟩ := mem_subtrees_iff.mp hm
  obtain ⟨k, hk, hxk⟩ := mem_treeIds.mp hx
  exact mem_listIds.mpr ⟨c, hc, mem_treeIds.mpr ⟨k, subtree_trans hmc hk, hxk⟩⟩

theorem Within.subset {ns : List PCFNNode} (hw : Within tree t ns) {n : PCFNNode} (hn : n ∈ ns) :
    n.subtree ⊆ tree.subtree :=
  fun _ hm => hw.sub (mem_subtrees hn hm)

/-- The member that holds the target. -/
theorem Within.mem {ns : List PCFNNode} (hw : Within tree t ns) {n : PCFNNode} (hn : n ∈ ns)
    (ht : t ∈ n.treeIds) : Within tree t [n] := by
  refine ⟨?_, ?_, fun l hl hloop hlt => ?_⟩
  · rw [subtrees_singleton]
    exact hw.subset hn
  · rw [listIds_singleton]
    exact treeIds_nodup_of_mem hw.ids hn
  · obtain ⟨c, hc, hlc⟩ := mem_subtrees_iff.mp (hw.loops l hl hloop hlt)
    have htl : t ∈ l.treeIds := by
      rw [treeIds_eq, ← listIds_append]
      exact List.mem_append_right _ (List.mem_append_right _ hlt)
    obtain ⟨k, hk, htk⟩ := mem_treeIds.mp ht
    obtain ⟨k', hk', htk'⟩ := mem_treeIds.mp htl
    have hkk : k' = k := eq_of_id hw.ids (mem_subtrees hc (subtree_trans hlc hk'))
      (mem_subtrees hn hk) htk' htk
    have hcn : c = n := eq_of_mem_subtree hw.ids hc hn (subtree_trans hlc hk') (hkk ▸ hk)
      (List.ne_nil_of_mem htk')
    rw [subtrees_singleton, ← hcn]
    exact hlc

/-- Past a member that does not hold the target. -/
theorem Within.tail {n : PCFNNode} {ns : List PCFNNode} (hw : Within tree t (n :: ns))
    (ht : t ∉ n.treeIds) : Within tree t ns := by
  refine ⟨fun m hm => hw.sub (List.mem_append_right _ hm), ?_, fun l hl hloop hlt => ?_⟩
  · have := hw.ids
    rw [listIds_cons] at this
    exact (List.nodup_append.mp this).2.1
  · rcases List.mem_append.mp (hw.loops l hl hloop hlt) with hm | hm
    · refine absurd ?_ ht
      obtain ⟨k, hk, htk⟩ := List.mem_flatMap.mp hlt
      have hkl : k ∈ l.subtree := by
        rw [subtree_parts, PCFNNode.parts, subtrees_append]
        exact List.mem_cons_of_mem _ (List.mem_append_right _ hk)
      exact mem_treeIds.mpr ⟨k, subtree_trans hm hkl, htk⟩
    · exact hm

/-- Into the statements of a node that is no loop. -/
theorem Within.below (hb : Built commits tree) {n : PCFNNode} {ns : List PCFNNode}
    (hw : Within tree t [n]) (hk : isLoopKind n.kind = false) (hns : ns = n.body ∨ ns = n.elseBody)
    (ht : t ∈ listIds ns) : Within tree t ns := by
  have hids : n.treeIds.Nodup := listIds_singleton n ▸ hw.ids
  have hapart := apart_of_nodup hids
  have hdis := disjointed_of_nodup hids
  have hsub : subtrees ns ⊆ n.subtree := by
    rcases hns with rfl | rfl
    · exact subtrees_body n
    · exact subtrees_elseBody n
  have hn : n ∈ tree.subtree := hw.sub (by rw [subtrees_singleton]; exact n.mem_subtree_self)
  refine ⟨List.Subset.trans hsub (subtrees_singleton n ▸ hw.sub), ?_, fun l hl hloop hlt => ?_⟩
  · rcases hns with rfl | rfl
    · exact hapart.body
    · exact hapart.elseBody
  · have htl : t ∈ l.treeIds := by
      rw [treeIds_eq, ← listIds_append]
      exact List.mem_append_right _ (List.mem_append_right _ hlt)
    have hmem := hw.loops l hl hloop hlt
    rw [subtrees_singleton, subtree_eq] at hmem
    rcases List.mem_cons.mp hmem with rfl | hmem
    · exact absurd hloop (by rw [hk]; exact Bool.false_ne_true)
    rcases List.mem_append.mp hmem with hmem | hmem
    · have hcall := (hb.evaluated n hn l hmem).1
      rcases hcall with h | h | h <;> simp [isLoopKind, h] at hloop
    · rcases List.mem_append.mp hmem with hmem | hmem <;> rcases hns with rfl | rfl
      · exact hmem
      · exact absurd ht (hdis.body t (listIds_of_subtrees hmem htl))
      · exact absurd (listIds_of_subtrees hmem htl) (hdis.body t ht)
      · exact hmem

/-! ## 5. The walk toward a target -/

theorem walkListOpt_eq (ns : Option (List PCFNNode)) (w : Walked) :
    walkListOpt commits t ns w = walkList commits t (ns.getD []) w := by
  cases ns <;> rfl

theorem walkBranchOpt_eq (ns : Option (List PCFNNode)) (w : Walked) :
    walkBranchOpt commits t ns w = walkBranch commits t (ns.getD []) w := by
  cases ns <;> rfl

theorem walkNode_eq (n : PCFNNode) (w : Walked) :
    walkNode commits t n w = match walkList commits t n.leaves w with
      | some w' => w'
      | none =>
        let w := w.add (reachingList false n.leaves)
        if isSite n t then w
        else if isLoopKind n.kind then
          w.add (reachingList false n.body ∪ reachingList false n.elseBody)
        else if n.kind == .case then walkBranch commits t n.body w
        else
          match walkList commits t n.body w with
          | some w' => w'
          | none => (walkList commits t n.elseBody w).getD w := by
  cases n
  simp only [walkNode, walkListOpt_eq, walkBranchOpt_eq, reachingOpt_eq]
  rfl

theorem walkList_none {ns : List PCFNNode} {w : Walked} (h : t ∉ listIds ns) :
    walkList commits t ns w = none := by
  induction ns generalizing w with
  | nil => rfl
  | cons n ns ih =>
    rw [listIds_cons, List.mem_append, not_or] at h
    rw [walkList, if_neg (by rw [holdsSite_iff]; exact h.1)]
    exact ih h.2

theorem walkNode_of_leaves {n : PCFNNode} {w w' : Walked}
    (h : walkList commits t n.leaves w = some w') : walkNode commits t n w = w' := by
  rw [walkNode_eq, h]

theorem walkBranch_eq {pre post : List PCFNNode} {b : PCFNNode} {w : Walked}
    (hpre : t ∉ listIds pre) (hb : t ∈ b.treeIds) :
    walkBranch commits t (pre ++ b :: post) w = walkNode commits t b w := by
  induction pre with
  | nil => rw [List.nil_append, walkBranch, if_pos ((holdsSite_iff b t).mpr hb)]
  | cons c pre ih =>
    rw [listIds_cons, List.mem_append, not_or] at hpre
    rw [List.cons_append, walkBranch, if_neg (by rw [holdsSite_iff]; exact hpre.1)]
    exact ih hpre.2

/-- The accumulators cover what is pending in `h`. -/
structure Covers (commits : Finset String) (tree : PCFNNode) (t : String) (w : Walked)
    (h : List PCFNNode) : Prop where
  cleared : w.cleared = true → ∃ m ∈ h, isCommit commits m = true
  out : ∀ x, Pending commits h x → ¬ Overlooked tree t x → x ∈ w.out

/-- **More sites for a longer run.** -/
theorem Covers.grow {w w' : Walked} {h u : List PCFNNode} (hc : Covers commits tree t w h)
    (hcleared : w'.cleared = w.cleared) (hout : w.out ⊆ w'.out)
    (hu : ∀ x ∈ u.flatMap siteIds, ¬ Overlooked tree t x → x ∈ w'.out) :
    Covers commits tree t w' (h ++ u) := by
  refine ⟨fun hcl => ?_, fun x hx hnot => ?_⟩
  · obtain ⟨m, hm, hcommit⟩ := hc.cleared (hcleared ▸ hcl)
    exact ⟨m, List.mem_append_left _ hm, hcommit⟩
  · rcases hx.append with hx | hx
    · exact hout (hc.out x hx hnot)
    · exact hu x hx hnot

/-- What the walk of an expression does: no site in front of the target is lost. -/
structure Evaluated (t : String) (es : List PCFNNode) (w w' : Walked) : Prop where
  cleared : w'.cleared = w.cleared
  out : w.out ⊆ w'.out
  ahead : ∀ x, Ahead t es x → x ∈ w'.out

theorem collected_of_calls {ns : List PCFNNode} (hcalls : ∀ m ∈ subtrees ns, IsCall m.kind)
    {x : String} (hx : x ∈ listIds ns) : x ∈ reachingList false ns := by
  rcases mem_reaching hx with h | ⟨c, hc, m, hm, harm, -⟩
  · exact h
  · rcases hcalls m (mem_subtrees hc hm) with h | h | h <;> simp [hasArms, h] at harm

theorem siteIds_of_evaluations {ns es : List PCFNNode} (hes : es ⊆ evaluations ns) {x : String}
    (hx : x ∈ es.flatMap siteIds) : x ∈ listIds ns := by
  obtain ⟨k, hk, hxk⟩ := List.mem_flatMap.mp hx
  exact List.mem_flatMap.mpr ⟨k, evaluations_subset ns (hes hk), hxk⟩

theorem siteIds_of_evaluation {n : PCFNNode} {k : PCFNNode} (hk : k ∈ evaluation n) {x : String}
    (hx : x ∈ k.siteIds) : x ∈ n.treeIds :=
  List.mem_flatMap.mpr ⟨k, evaluation_subset n hk, hx⟩

/-- The walk of a list of calls, from the walks of the calls. -/
theorem walkList_calls {ns : List PCFNNode}
    (hnode : ∀ n ∈ ns, n.treeIds.Nodup → (∃ k ∈ evaluation n, t ∈ k.siteIds) →
      ∀ w, Evaluated t (evaluation n) w (walkNode commits t n w))
    (hcalls : ∀ m ∈ subtrees ns, IsCall m.kind ∧ isCommit commits m = false)
    (hids : (listIds ns).Nodup) (ht : ∃ k ∈ evaluations ns, t ∈ k.siteIds) (w : Walked) :
    ∃ w', walkList commits t ns w = some w' ∧ Evaluated t (evaluations ns) w w' := by
  induction ns generalizing w with
  | nil =>
    obtain ⟨k, hk, -⟩ := ht
    exact absurd hk List.not_mem_nil
  | cons n ns ih =>
    obtain ⟨k, hk, htk⟩ := ht
    have hdisj : ∀ x ∈ n.treeIds, x ∉ listIds ns := by
      rw [listIds_cons, List.nodup_append] at hids
      exact fun x hx hx' => hids.2.2 x hx x hx' rfl
    rw [evaluations] at hk ⊢
    by_cases htn : t ∈ n.treeIds
    · have hkn : k ∈ evaluation n := by
        rcases List.mem_append.mp hk with hk | hk
        · exact hk
        · exact absurd (mem_listIds.mpr (by
            obtain ⟨c, hc, hkc⟩ := mem_subtrees_iff.mp (evaluations_subset ns hk)
            exact ⟨c, hc, mem_treeIds.mpr ⟨k, hkc, htk⟩⟩)) (hdisj t htn)
      have hev := hnode n List.mem_cons_self (treeIds_nodup_of_mem hids List.mem_cons_self)
        ⟨k, hkn, htk⟩ w
      refine ⟨_, by rw [walkList, if_pos ((holdsSite_iff n t).mpr htn)],
        hev.cleared, hev.out, ?_⟩
      rintro x ⟨s₁, k', s₂, heq, htk', hx⟩
      rcases split_append heq with ⟨r, hr⟩ | ⟨r, -, hr⟩
      · exact hev.ahead x ⟨s₁, k', r, hr, htk', hx⟩
      · refine absurd ?_ (hdisj t htn)
        refine @siteIds_of_evaluations _ [k'] ?_ _ (by simpa using htk')
        exact List.cons_subset.mpr ⟨hr ▸ mem_mid r s₂ k', List.nil_subset _⟩
    · have hkns : k ∈ evaluations ns := by
        rcases List.mem_append.mp hk with hk | hk
        · exact absurd (siteIds_of_evaluation hk htk) htn
        · exact hk
      have hcommit := (hcalls n (mem_subtrees List.mem_cons_self n.mem_subtree_self)).2
      have hpass : w.pass commits n = w.add (collectReaching n) := by
        rw [Walked.pass, if_neg (by rw [hcommit]; exact Bool.false_ne_true)]
      obtain ⟨w', hw', hev⟩ := ih (fun m hm => hnode m (List.mem_cons_of_mem _ hm))
        (fun m hm => hcalls m (List.mem_append_right _ hm))
        (by rw [listIds_cons] at hids; exact (List.nodup_append.mp hids).2.1)
        ⟨k, hkns, htk⟩ (w.pass commits n)
      rw [hpass] at hw' hev
      refine ⟨w', ?_, hev.cleared, Finset.subset_union_left.trans hev.out, ?_⟩
      · rw [walkList, if_neg (by rw [holdsSite_iff]; exact htn), hpass, hw']
      rintro x ⟨s₁, k', s₂, heq, htk', hx⟩
      rcases split_append heq with ⟨r, hr⟩ | ⟨r, rfl, hr⟩
      · exact absurd (siteIds_of_evaluation (hr ▸ mem_mid s₁ r k') htk') htn
      · rw [List.flatMap_append] at hx
        rcases List.mem_append.mp hx with hx | hx
        · refine hev.out (Finset.mem_union_right _ ?_)
          have hcol := @collected_of_calls [n] ?_ x ?_
          · simpa [reachingList] using hcol
          · rw [subtrees_singleton]
            exact fun m hm => (hcalls m (mem_subtrees List.mem_cons_self hm)).1
          · obtain ⟨m, hm, hxm⟩ := List.mem_flatMap.mp hx
            rw [listIds_singleton]
            exact siteIds_of_evaluation hm hxm
        · exact hev.ahead x ⟨r, k', s₂, hr, htk', hx⟩

theorem walkNode_call (n : PCFNNode) :
    (∀ m ∈ n.subtree, IsCall m.kind ∧ isCommit commits m = false) → n.treeIds.Nodup →
      (∃ k ∈ evaluation n, t ∈ k.siteIds) →
      ∀ w, Evaluated t (evaluation n) w (walkNode commits t n w) := by
  induction n using PCFNNode.induct with
  | step n ih =>
    intro hcalls hids ht w
    have hdis := disjointed_of_nodup hids
    have hapart := apart_of_nodup hids
    have hleaves : ∀ m ∈ subtrees n.leaves, IsCall m.kind ∧ isCommit commits m = false :=
      fun m hm => hcalls m (subtrees_leaves n hm)
    obtain ⟨k, hk, htk⟩ := ht
    rw [evaluation_eq] at hk ⊢
    rcases List.mem_append.mp hk with hk | hk
    · obtain ⟨w', hw', hev⟩ := walkList_calls
        (fun c hc hcids hct => ih c (List.mem_append_left _ hc)
          (fun m hm => hleaves m (mem_subtrees hc hm)) hcids hct)
        hleaves hapart.leaves ⟨k, hk, htk⟩ w
      rw [walkNode_of_leaves hw']
      refine ⟨hev.cleared, hev.out, ?_⟩
      rintro x ⟨s₁, k', s₂, heq, htk', hx⟩
      rcases split_append heq with ⟨r, hr⟩ | ⟨r, -, hr⟩
      · exact hev.ahead x ⟨s₁, k', r, hr, htk', hx⟩
      · have hkn : k' = n := by
          have : k' ∈ [n] := hr ▸ mem_mid r s₂ k'
          simpa using this
        refine absurd (@siteIds_of_evaluations _ [k] ?_ _ (by simpa using htk))
          (hdis.self t (hkn ▸ htk')).1
        exact List.cons_subset.mpr ⟨hk, List.nil_subset _⟩
    · obtain rfl : k = n := by simpa using hk
      have hnot : t ∉ listIds k.leaves := (hdis.self t htk).1
      have hwalk : walkNode commits t k w = w.add (reachingList false k.leaves) := by
        rw [walkNode_eq, walkList_none hnot]
        dsimp only
        rw [if_pos (isSite_iff.mpr htk)]
      rw [hwalk]
      refine ⟨rfl, Finset.subset_union_left, ?_⟩
      rintro x ⟨s₁, k', s₂, heq, htk', hx⟩
      refine Finset.mem_union_right _ (collected_of_calls (fun m hm => (hleaves m hm).1) ?_)
      rcases split_append heq with ⟨r, hr⟩ | ⟨r, rfl, hr⟩
      · refine absurd (@siteIds_of_evaluations _ [k'] ?_ _ (by simpa using htk')) hnot
        exact List.cons_subset.mpr ⟨hr ▸ mem_mid s₁ r k', List.nil_subset _⟩
      · cases r with
        | nil =>
          rw [List.append_nil] at hx
          exact siteIds_of_evaluations (List.Subset.refl _) hx
        | cons y r =>
          rw [List.cons_append, List.cons.injEq] at hr
          exact absurd hr.2.symm (List.append_ne_nil_of_right_ne_nil _ (List.cons_ne_nil _ _))

/-- The walk of a condition that holds the target. -/
theorem walkList_leaves (hb : Built commits tree) {n : PCFNNode} (hn : n ∈ tree.subtree)
    (hids : (listIds n.leaves).Nodup) (ht : ∃ k ∈ evaluations n.leaves, t ∈ k.siteIds)
    (w : Walked) :
    ∃ w', walkList commits t n.leaves w = some w' ∧ Evaluated t (evaluations n.leaves) w w' :=
  walkList_calls (fun c hc => walkNode_call c fun m hm =>
    hb.evaluated n hn m (mem_subtrees hc hm)) (fun m hm => hb.evaluated n hn m hm) hids ht w

/-- **A run of a condition up to the target.** -/
theorem leaves_sound (hb : Built commits tree) {n : PCFNNode} (hn : n ∈ tree.subtree)
    (hids : (listIds n.leaves).Nodup) {w : Walked} {h u v : List PCFNNode} {k : PCFNNode}
    {o : Outcome} (hc : Covers commits tree t w h) (hrun : Runs (.leaves n.leaves) (u ++ k :: v) o)
    (ht : t ∈ k.siteIds) :
    ∃ w', walkList commits t n.leaves w = some w' ∧ Covers commits tree t w' (h ++ u) := by
  have hsub := (evaluations_of_runs hrun).2 _ rfl fun m hm => (hb.evaluated n hn m hm).1
  obtain ⟨w', hw', hev⟩ := walkList_leaves hb hn hids
    ⟨k, hsub.subset (mem_mid u v k), ht⟩ w
  exact ⟨w', hw', hc.grow hev.cleared hev.out fun x hx _ =>
    hev.ahead x (ahead_of_sublist hsub ht hx)⟩

/-! ### Runs of a node -/

/-- The nodes a piece of code can execute, a node behind its condition without it. -/
def reach : Code → List PCFNNode
  | .node n => [n]
  | .list ns | .leaves ns => ns
  | .body n | .round n | .loop n => n.again ++ (n.body ++ n.elseBody)

theorem subtrees_reach_body {n : PCFNNode} : subtrees n.body ⊆ subtrees (reach (.body n)) := by
  intro m hm
  rw [reach, subtrees_append, subtrees_append]
  exact List.mem_append_right _ (List.mem_append_left _ hm)

theorem leaves_of_body {n : PCFNNode} {bs : List PCFNNode} (hbs : bs ⊆ n.body) :
    subtrees (bs.flatMap PCFNNode.leaves) ⊆ subtrees n.body := by
  intro m hm
  obtain ⟨c, hc, hmc⟩ := mem_subtrees_iff.mp hm
  obtain ⟨b, hb, hcb⟩ := List.mem_flatMap.mp hc
  exact mem_subtrees (hbs hb) (subtrees_leaves b (mem_subtrees hcb hmc))

/-- **A run executes nodes of its code.** -/
theorem runs_nodes {c : Code} {t : List PCFNNode} {o : Outcome} (h : Runs c t o) :
    t ⊆ subtrees (reach c) := by
  have hbody : ∀ {n : PCFNNode} {t : List PCFNNode}, t ⊆ subtrees n.body →
      t ⊆ subtrees (n.again ++ (n.body ++ n.elseBody)) :=
    fun ht m hm => subtrees_reach_body (ht hm)
  have hpatterns : ∀ {n : PCFNNode} {bs t : List PCFNNode}, bs ⊆ n.body →
      t ⊆ subtrees (bs.flatMap PCFNNode.leaves) →
      t ⊆ subtrees (n.again ++ (n.body ++ n.elseBody)) :=
    fun hbs ht => hbody (List.Subset.trans ht (leaves_of_body hbs))
  induction h with
  | fail | nil | leavesNil | leaf | exit | error | breakLoop | continueLoop | loopStop =>
    exact List.nil_subset _
  | @node n t₁ t₂ o _ _ ih₁ ih₂ =>
    rw [reach, subtrees_singleton]
    refine List.append_subset.mpr ⟨fun m hm => ?_, List.cons_subset.mpr
      ⟨n.mem_subtree_self, fun m hm => ?_⟩⟩
    · exact subtrees_leaves n (before_subset n (ih₁ hm))
    · have hm := ih₂ hm
      rw [reach, subtrees_append, subtrees_append] at hm
      rcases List.mem_append.mp hm with hm | hm
      · exact subtrees_leaves n (again_subset n hm)
      · rcases List.mem_append.mp hm with hm | hm
        · exact subtrees_body n hm
        · exact subtrees_elseBody n hm
  | @nodeStop n t o _ _ ih =>
    rw [reach, subtrees_singleton]
    exact fun m hm => subtrees_leaves n (before_subset n (ih hm))
  | cons _ _ ih₁ ih₂ | leavesCons _ _ ih₁ ih₂ =>
    rw [reach, subtrees_singleton] at ih₁
    exact List.append_subset.mpr ⟨fun m hm => List.mem_append_left _ (ih₁ hm),
      fun m hm => List.mem_append_right _ (ih₂ hm)⟩
  | stop _ _ ih | leavesStop _ _ ih =>
    rw [reach, subtrees_singleton] at ih
    exact fun m hm => List.mem_append_left _ (ih hm)
  | leavesSkip _ _ ih => exact fun m hm => List.mem_append_right _ (ih hm)
  | sequence _ _ ih | thenBranch _ _ ih => exact hbody ih
  | elseBranch _ _ ih =>
    intro m hm
    rw [reach, subtrees_append, subtrees_append]
    exact List.mem_append_right _ (List.mem_append_right _ (ih hm))
  | @branch n pre b post ls rest t₁ t₂ o _ hn _ hls _ _ ih₁ ih₂ =>
    have hb : b ∈ n.body := hn ▸ mem_mid pre post b
    refine List.append_subset.mpr ⟨?_, List.cons_subset.mpr ⟨?_, ?_⟩⟩
    · refine @hpatterns _ (pre ++ [b]) _ (fun c hc => ?_) fun m hm => ?_
      · rw [hn]
        rcases List.mem_append.mp hc with hc | hc
        · exact List.mem_append_left _ hc
        · exact List.mem_append_right _ (List.mem_cons.mpr (Or.inl (by simpa using hc)))
      · have hm := ih₁ hm
        rw [reach, subtrees_append] at hm
        rw [List.flatMap_append, subtrees_append, List.flatMap_singleton, hls, subtrees_append]
        rcases List.mem_append.mp hm with hm | hm
        · exact List.mem_append_left _ hm
        · exact List.mem_append_right _ (List.mem_append_left _ hm)
    · exact subtrees_reach_body (mem_subtrees hb b.mem_subtree_self)
    · exact hbody fun m hm => mem_subtrees hb (subtrees_body b (ih₂ hm))
  | noBranch _ _ _ ih | patternStop _ _ _ ih => exact hpatterns (List.Subset.refl _) ih
  | caught _ _ _ _ ih | headLoop _ _ ih | tailBreak _ _ ih | tailStop _ _ _ ih | loopBreak _ ih
  | loopLeave _ _ ih => exact ih
  | tailLoop _ _ _ ih₁ ih₂ | loopRound _ _ ih₁ ih₂ => exact List.append_subset.mpr ⟨ih₁, ih₂⟩
  | @round n t₁ t₂ o₁ o _ _ _ ih₁ ih₂ =>
    refine List.append_subset.mpr ⟨hbody ih₁, fun m hm => ?_⟩
    rw [reach, subtrees_append]
    exact List.mem_append_left _ (ih₂ hm)
  | roundStop _ _ ih => exact hbody ih

theorem treeIds_of_runs {n : PCFNNode} {u : List PCFNNode} {o : Outcome}
    (h : Runs (.node n) u o) {x : String} (hx : x ∈ u.flatMap siteIds) : x ∈ n.treeIds := by
  obtain ⟨m, hm, hxm⟩ := List.mem_flatMap.mp hx
  have hmem := runs_nodes h hm
  rw [reach, subtrees_singleton] at hmem
  exact mem_treeIds.mpr ⟨m, hmem, hxm⟩

/-- An ended arm in a tree that does not hold the target. -/
theorem InEndedArm.overlooked {n : PCFNNode} {x : String} (h : InEndedArm n x)
    (hn : n.subtree ⊆ tree.subtree) (ht : t ∉ n.treeIds) : Overlooked tree t x := by
  obtain ⟨m, hm, harm, a, ha, hterm, hx⟩ := h
  refine .arm (hn hm) harm ha hterm hx fun hta => absurd ?_ ht
  obtain ⟨k, hk, htk⟩ := mem_treeIds.mp hta
  have ham : a.subtree ⊆ m.subtree := subtree_subset (List.mem_append_right _ ha)
  exact mem_treeIds.mpr ⟨k, subtree_trans hm (ham hk), htk⟩

/-- **A statement in front of the target's.** -/
theorem pass_sound (hb : Built commits tree) {n : PCFNNode} (hn : n.subtree ⊆ tree.subtree)
    (ht : t ∉ n.treeIds) {w : Walked} {h u : List PCFNNode} (hc : Covers commits tree t w h)
    (hrun : Runs (.node n) u .normal) : Covers commits tree t (w.pass commits n) (h ++ u) := by
  rw [Walked.pass]
  split
  · rename_i hcommit
    cases hrun with
    | @node n t₁ t₂ o _ hbody =>
      have hsite : n.siteIds ≠ [] := by
        rw [isCommit, Option.any_eq_true] at hcommit
        obtain ⟨id, hid, -⟩ := hcommit
        exact List.ne_nil_of_mem (mem_siteIds_operation hid)
      obtain rfl := body_of_isCall (hb.sited n (hn n.mem_subtree_self) hsite) hbody
      rw [← List.append_assoc]
      exact ⟨fun _ => ⟨n, List.mem_append_right _ List.mem_cons_self, hcommit⟩,
        fun x hx => absurd hx (not_pending_commit hcommit x)⟩
    | nodeStop _ hl => simp [Outcome.leaves] at hl
  · refine hc.grow rfl Finset.subset_union_left fun x hx hnot => ?_
    rcases mem_collectReaching n (treeIds_of_runs hrun hx) with hcol | harm
    · exact Finset.mem_union_right _ hcol
    · exact absurd (harm.overlooked hn ht) hnot

/-- What `node_sound` says of a node. -/
def NodeSound (commits : Finset String) (tree : PCFNNode) (t : String) (n : PCFNNode) : Prop :=
  ∀ {w : Walked} {h u v : List PCFNNode} {k : PCFNNode} {o : Outcome}, Within tree t [n] →
    Covers commits tree t w h → Runs (.node n) (u ++ k :: v) o → t ∈ k.siteIds →
    Covers commits tree t (walkNode commits t n w) (h ++ u)

/-- A statement list, from its statements. -/
theorem list_sound (hb : Built commits tree) {ns : List PCFNNode}
    (hnode : ∀ n ∈ ns, NodeSound commits tree t n) {w : Walked} {h u v : List PCFNNode}
    {k : PCFNNode} {o : Outcome} (hw : Within tree t ns) (hc : Covers commits tree t w h)
    (hrun : Runs (.list ns) (u ++ k :: v) o) (ht : t ∈ k.siteIds) :
    ∃ w', walkList commits t ns w = some w' ∧ Covers commits tree t w' (h ++ u) := by
  induction ns generalizing w h u v o with
  | nil =>
    have hmem := runs_nodes hrun (mem_mid u v k)
    exact absurd hmem List.not_mem_nil
  | cons n ns ih =>
    by_cases htn : t ∈ n.treeIds
    · -- the target is in the first statement: only its own run executes it
      refine ⟨_, by rw [walkList, if_pos ((holdsSite_iff n t).mpr htn)], ?_⟩
      have hdisj : t ∉ listIds ns := by
        have hids := hw.ids
        rw [listIds_cons, List.nodup_append] at hids
        exact fun htns => hids.2.2 t htn t htns rfl
      generalize htr : u ++ k :: v = tr at hrun
      cases hrun with
      | fail => exact absurd htr (List.append_ne_nil_of_right_ne_nil _ (List.cons_ne_nil _ _))
      | @cons _ _ t₁ t₂ _ h₁ h₂ =>
        rcases split_append htr.symm with ⟨r, rfl⟩ | ⟨r, -, rfl⟩
        · exact hnode n List.mem_cons_self (hw.mem List.mem_cons_self htn) hc h₁ ht
        · exact absurd (List.mem_flatMap.mpr ⟨k, runs_nodes h₂ (mem_mid r v k), ht⟩) hdisj
      | stop h₁ _ =>
        subst htr
        exact hnode n List.mem_cons_self (hw.mem List.mem_cons_self htn) hc h₁ ht
    · rw [walkList, if_neg (by rw [holdsSite_iff]; exact htn)]
      have hnot : ∀ {t₁ : List PCFNNode} {o : Outcome}, Runs (.node n) t₁ o → k ∉ t₁ :=
        fun h₁ hk => htn (treeIds_of_runs h₁ (List.mem_flatMap.mpr ⟨k, hk, ht⟩))
      generalize htr : u ++ k :: v = tr at hrun
      cases hrun with
      | fail => exact absurd htr (List.append_ne_nil_of_right_ne_nil _ (List.cons_ne_nil _ _))
      | @cons _ _ t₁ t₂ _ h₁ h₂ =>
        rcases split_append htr.symm with ⟨r, rfl⟩ | ⟨r, rfl, rfl⟩
        · exact absurd (mem_mid u r k) (hnot h₁)
        · rw [← List.append_assoc]
          exact ih (fun m hm => hnode m (List.mem_cons_of_mem _ hm)) (hw.tail htn)
            (pass_sound hb (hw.subset List.mem_cons_self) htn hc h₁) h₂
      | stop h₁ _ => exact absurd (htr ▸ mem_mid u v k) (hnot h₁)

/-! ### The branches of a case -/

theorem body_case {c : Code} {r : List PCFNNode} {o : Outcome} (h : Runs c r o) :
    ∀ n, c = .body n → n.kind = .case →
      (∃ ps o', ps <+: n.body.flatMap PCFNNode.leaves ∧ Runs (.leaves ps) r o') ∨
      ∃ pre b post ls rest t₁ t₂ o', n.body = pre ++ b :: post ∧ b.kind = .caseBranch ∧
        b.leaves = ls ++ rest ∧ Runs (.leaves (pre.flatMap PCFNNode.leaves ++ ls)) t₁ .normal ∧
        Runs (.list b.body) t₂ o' ∧ r = t₁ ++ b :: t₂ := by
  cases h with
  | fail => exact fun n _ _ => Or.inl ⟨[], _, List.nil_prefix, .leavesNil⟩
  | @branch n pre b post ls rest t₁ t₂ o _ hn hkb hls h₁ h₂ =>
    rintro _ ⟨rfl⟩ _
    exact Or.inr ⟨pre, b, post, ls, rest, t₁, t₂, o, hn, hkb, hls, h₁, h₂, rfl⟩
  | noBranch _ _ h =>
    rintro _ ⟨rfl⟩ _
    exact Or.inl ⟨_, _, List.prefix_rfl, h⟩
  | patternStop _ h _ =>
    rintro _ ⟨rfl⟩ _
    exact Or.inl ⟨_, _, List.prefix_rfl, h⟩
  | leaf hk | sequence hk _ | headLoop hk _ =>
    rintro _ ⟨rfl⟩ hcase
    simp [CfnKind.isLeaf, CfnKind.isSequence, CfnKind.isHeadLoop, hcase] at hk
  | exit hk | error hk | breakLoop hk | continueLoop hk | caught hk _ _ _ | thenBranch hk _
  | elseBranch hk _ | tailLoop hk _ _ | tailBreak hk _ | tailStop hk _ _ =>
    rintro _ ⟨rfl⟩ hcase
    exact absurd (hk.symm.trans hcase) (by decide)
  | _ => exact fun n hn => by cases hn

theorem body_list {c : Code} {r : List PCFNNode} {o : Outcome} (h : Runs c r o) :
    ∀ n, c = .body n → isLoopKind n.kind = false → n.kind ≠ .case →
      r = [] ∨ ∃ ns o', (ns = n.body ∨ ns = n.elseBody) ∧ Runs (.list ns) r o' := by
  induction h with
  | fail | leaf | exit | error | breakLoop | continueLoop => exact fun _ _ _ _ => Or.inl rfl
  | sequence _ h _ | thenBranch _ h _ =>
    rintro _ ⟨rfl⟩ _ _
    exact Or.inr ⟨_, _, Or.inl rfl, h⟩
  | elseBranch _ h _ =>
    rintro _ ⟨rfl⟩ _ _
    exact Or.inr ⟨_, _, Or.inr rfl, h⟩
  | caught _ _ _ _ ih => exact ih
  | branch hk _ _ _ _ _ _ _ | noBranch hk _ _ _ | patternStop hk _ _ _ =>
    rintro _ ⟨rfl⟩ _ hcase
    exact absurd hk hcase
  | headLoop hk _ _ =>
    rintro _ ⟨rfl⟩ hloop _
    rcases hk with hk | hk | hk <;> simp [isLoopKind, hk] at hloop
  | tailLoop hk _ _ _ _ | tailBreak hk _ _ | tailStop hk _ _ _ =>
    rintro _ ⟨rfl⟩ hloop _
    simp [isLoopKind, hk] at hloop
  | _ => exact nofun

theorem isLoopKind_case {n : PCFNNode} (hk : n.kind = .case) : isLoopKind n.kind = false := by
  rw [hk]
  rfl

theorem isLoopKind_branch {n : PCFNNode} (hk : n.kind = .caseBranch) :
    isLoopKind n.kind = false := by
  rw [hk]
  rfl

/-- The branch of a `case` that holds the target, and what is known of it. -/
structure Branch (tree : PCFNNode) (t : String) (n : PCFNNode) (pre : List PCFNNode) (b : PCFNNode)
    (post : List PCFNNode) : Prop where
  split : n.body = pre ++ b :: post
  mem : t ∈ b.treeIds
  within : Within tree t [b]
  before : t ∉ listIds pre
  behind : t ∉ listIds post
  patterns : ∀ c ∈ pre, ∀ x ∈ listIds c.leaves, Overlooked tree t x

theorem branch_of_mem (hb : Built commits tree) {n : PCFNNode} (hw : Within tree t [n])
    (hk : n.kind = .case) {pre post : List PCFNNode} {b : PCFNNode}
    (hsplit : n.body = pre ++ b :: post) (ht : t ∈ b.treeIds) : Branch tree t n pre b post := by
  have hbm : b ∈ n.body := hsplit ▸ mem_mid pre post b
  have hbody : Within tree t n.body :=
    hw.below hb (isLoopKind_case hk) (Or.inl rfl) (mem_listIds.mpr ⟨b, hbm, ht⟩)
  have hwb := hbody.mem hbm ht
  have hids := hbody.ids
  rw [hsplit, listIds_append, listIds_cons, List.nodup_append] at hids
  obtain ⟨-, hrest, hpre⟩ := hids
  rw [List.nodup_append] at hrest
  refine ⟨hsplit, ht, hwb, fun h => ?_, fun h => hrest.2.2 t ht t h rfl, fun c hc x hx => ?_⟩
  · exact hpre t h t (List.mem_append_left _ ht) rfl
  · refine .pattern (hw.sub (by rw [subtrees_singleton]; exact n.mem_subtree_self)) hk hsplit ht hc
      hx ?_
    -- a loop around the target lies in the target's branch, and `x` does not
    rintro ⟨l, hl, hloop, hlt, hlx⟩
    have hlb := hwb.loops l hl hloop hlt
    have hxc : x ∈ listIds pre := by
      refine mem_listIds.mpr ⟨c, hc, ?_⟩
      rw [treeIds_eq]
      exact List.mem_append_right _ (List.mem_append_left _ hx)
    have hxb := listIds_of_subtrees hlb hlx
    rw [listIds_singleton] at hxb
    exact hpre x hxc x (List.mem_append_left _ hxb) rfl

theorem mem_patterns {bs : List PCFNNode} {k : PCFNNode}
    (hk : k ∈ evaluations (bs.flatMap PCFNNode.leaves)) : ∃ b ∈ bs, k ∈ evaluations b.leaves := by
  induction bs with
  | nil => exact absurd hk List.not_mem_nil
  | cons b bs ih =>
    rw [List.flatMap_cons, evaluations_append] at hk
    rcases List.mem_append.mp hk with hk | hk
    · exact ⟨b, List.mem_cons_self, hk⟩
    · obtain ⟨c, hc, hkc⟩ := ih hk
      exact ⟨c, List.mem_cons_of_mem _ hc, hkc⟩

theorem listIds_of_patterns {bs : List PCFNNode} {x : String}
    (hx : x ∈ (evaluations (bs.flatMap PCFNNode.leaves)).flatMap siteIds) :
    ∃ b ∈ bs, x ∈ listIds b.leaves := by
  obtain ⟨k, hk, hxk⟩ := List.mem_flatMap.mp hx
  obtain ⟨b, hb, hkb⟩ := mem_patterns hk
  exact ⟨b, hb, List.mem_flatMap.mpr ⟨k, evaluations_subset _ hkb, hxk⟩⟩

theorem leaves_ids {b : PCFNNode} {x : String} (hx : x ∈ listIds b.leaves) : x ∈ b.treeIds := by
  rw [treeIds_eq]
  exact List.mem_append_right _ (List.mem_append_left _ hx)

/-- **The target in a pattern.** -/
theorem patterns_sound (hb : Built commits tree) {n : PCFNNode} (hw : Within tree t [n])
    (hk : n.kind = .case) {w : Walked} {h u v : List PCFNNode} {k : PCFNNode}
    (hc : Covers commits tree t w h)
    (hsub : (u ++ k :: v).Sublist (evaluations (n.body.flatMap PCFNNode.leaves)))
    (ht : t ∈ k.siteIds) :
    Covers commits tree t (walkBranch commits t n.body w) (h ++ u) := by
  obtain ⟨b, hbm, hkb⟩ := mem_patterns (hsub.subset (mem_mid u v k))
  obtain ⟨pre, post, hsplit⟩ := List.append_of_mem hbm
  have htb : t ∈ listIds b.leaves :=
    List.mem_flatMap.mpr ⟨k, evaluations_subset _ hkb, ht⟩
  have hbr := branch_of_mem hb hw hk hsplit (leaves_ids htb)
  have hbt : b ∈ tree.subtree := hbr.within.subset List.mem_cons_self b.mem_subtree_self
  have hbids : b.treeIds.Nodup := listIds_singleton b ▸ hbr.within.ids
  obtain ⟨w', hw', hev⟩ :=
    walkList_leaves hb hbt (apart_of_nodup hbids).leaves ⟨k, hkb, ht⟩ w
  rw [hsplit, walkBranch_eq hbr.before hbr.mem, walkNode_of_leaves hw']
  refine hc.grow hev.cleared hev.out fun x hx hnot => ?_
  obtain ⟨s₁, k', s₂, heq, htk', hxs⟩ := ahead_of_sublist hsub ht hx
  rw [hsplit, List.flatMap_append, List.flatMap_cons, evaluations_append, evaluations_append] at heq
  have hin : ∀ bs : List PCFNNode, t ∉ listIds bs →
      k' ∉ evaluations (bs.flatMap PCFNNode.leaves) := by
    intro bs hbs hmem
    obtain ⟨c, hc, hkc⟩ := mem_patterns hmem
    refine hbs (mem_listIds.mpr ⟨c, hc, leaves_ids ?_⟩)
    exact List.mem_flatMap.mpr ⟨k', evaluations_subset _ hkc, htk'⟩
  rcases split_append heq with ⟨r, hr⟩ | ⟨r, rfl, hr⟩
  · exact absurd (hr ▸ mem_mid s₁ r k') (hin pre hbr.before)
  · rcases split_append hr with ⟨r', hr'⟩ | ⟨r', -, hr'⟩
    · rw [List.flatMap_append] at hxs
      rcases List.mem_append.mp hxs with hxs | hxs
      · obtain ⟨c, hc, hxc⟩ := listIds_of_patterns hxs
        exact absurd (hbr.patterns c hc x hxc) hnot
      · exact hev.ahead x ⟨r, k', r', hr', htk', hxs⟩
    · exact absurd (hr' ▸ mem_mid r' s₂ k') (hin post hbr.behind)

/-! ### Behind the condition -/

/-- A node whose children run carries no site. -/
theorem siteIds_of_body (hb : Built commits tree) {n : PCFNNode} (hn : n ∈ tree.subtree)
    {r : List PCFNNode} {o : Outcome} (hrun : Runs (.body n) r o) (hr : r ≠ []) :
    n.siteIds = [] := by
  by_contra hne
  exact hr (body_of_isCall (hb.sited n hn hne) hrun)

/-- The condition has been evaluated and the node entered. -/
theorem enter_sound (hb : Built commits tree) {n : PCFNNode} (hn : n ∈ tree.subtree) {w : Walked}
    {h r : List PCFNNode} (hc : Covers commits tree t w h) (hr : r ⊆ subtrees n.leaves)
    (hsite : n.siteIds = []) :
    Covers commits tree t (w.add (reachingList false n.leaves)) (h ++ (r ++ [n])) := by
  refine hc.grow rfl Finset.subset_union_left fun x hx _ => ?_
  obtain ⟨m, hm, hxm⟩ := List.mem_flatMap.mp hx
  rcases List.mem_append.mp hm with hm | hm
  · refine Finset.mem_union_right _ (collected_of_calls
      (fun l hl => (hb.evaluated n hn l hl).1) ?_)
    exact List.mem_flatMap.mpr ⟨m, hr hm, hxm⟩
  · rw [List.mem_singleton] at hm
    rw [hm, hsite] at hxm
    exact absurd hxm List.not_mem_nil

theorem walkNode_behind {n : PCFNNode} (hleaves : t ∉ listIds n.leaves) (hsite : n.siteIds = [])
    (w : Walked) :
    walkNode commits t n w =
      let w := w.add (reachingList false n.leaves)
      if isLoopKind n.kind then
        w.add (reachingList false n.body ∪ reachingList false n.elseBody)
      else if n.kind == .case then walkBranch commits t n.body w
      else
        match walkList commits t n.body w with
        | some w' => w'
        | none => (walkList commits t n.elseBody w).getD w := by
  have hnot : isSite n t = false := by
    rw [← Bool.not_eq_true, isSite_iff, hsite]
    exact List.not_mem_nil
  rw [walkNode_eq, walkList_none hleaves]
  simp only [hnot, Bool.false_eq_true, if_false]

/-- A branch, from the statements of it. -/
theorem branch_sound (hb : Built commits tree) {b : PCFNNode} (hk : b.kind = .caseBranch)
    (hsite : b.siteIds = []) (hnode : ∀ c ∈ b.body, NodeSound commits tree t c)
    (hw : Within tree t [b]) {w : Walked} {h u v : List PCFNNode} {k : PCFNNode} {o : Outcome}
    (hc : Covers commits tree t (w.add (reachingList false b.leaves)) h)
    (hrun : Runs (.list b.body) (u ++ k :: v) o) (ht : t ∈ k.siteIds) :
    Covers commits tree t (walkNode commits t b w) (h ++ u) := by
  have htb : t ∈ listIds b.body :=
    List.mem_flatMap.mpr ⟨k, runs_nodes hrun (mem_mid u v k), ht⟩
  have hids : b.treeIds.Nodup := listIds_singleton b ▸ hw.ids
  have hleaves : t ∉ listIds b.leaves :=
    fun h => ((disjointed_of_nodup hids).leaves t h).1 htb
  obtain ⟨w', hw', hcov⟩ := list_sound hb hnode
    (hw.below hb (isLoopKind_branch hk) (Or.inl rfl) htb) hc hrun ht
  have hwalk : walkNode commits t b w = w' := by
    rw [walkNode_behind hleaves hsite]
    dsimp only
    rw [hk, if_neg (by decide), if_neg (by decide), hw']
  rw [hwalk]
  exact hcov

/-- **A `case`**: the patterns in order, then one branch. -/
theorem case_sound (hb : Built commits tree) {n : PCFNNode} (hk : n.kind = .case)
    (hnode : ∀ b ∈ n.body, ∀ c ∈ b.body, NodeSound commits tree t c) (hw : Within tree t [n])
    {w : Walked} {h u v : List PCFNNode} {k : PCFNNode} {o : Outcome}
    (hc : Covers commits tree t w h) (hrun : Runs (.body n) (u ++ k :: v) o)
    (ht : t ∈ k.siteIds) : Covers commits tree t (walkBranch commits t n.body w) (h ++ u) := by
  have hn : n ∈ tree.subtree := hw.subset List.mem_cons_self n.mem_subtree_self
  have hsubn : n.subtree ⊆ tree.subtree := hw.subset List.mem_cons_self
  have hcalls : ∀ bs ⊆ n.body, ∀ m ∈ subtrees (bs.flatMap PCFNNode.leaves), IsCall m.kind := by
    intro bs hbs m hm
    obtain ⟨c, hc, hmc⟩ := mem_subtrees_iff.mp hm
    obtain ⟨b, hbm, hcb⟩ := List.mem_flatMap.mp hc
    exact (hb.evaluated b (hsubn (subtrees_body n (mem_subtrees (hbs hbm) b.mem_subtree_self))) m
      (mem_subtrees hcb hmc)).1
  have hall := hcalls n.body (List.Subset.refl _)
  rcases body_case hrun n rfl hk with ⟨ps, o', hps, hrun⟩ |
    ⟨pre, b, post, ls, rest, t₁, t₂, o', hsplit, hkb, hls, h₁, h₂, heq⟩
  · obtain ⟨qs, hqs⟩ := hps
    have hev := (evaluations_of_runs hrun).2 ps rfl fun m hm =>
      hall m (by rw [← hqs, subtrees_append]; exact List.mem_append_left _ hm)
    refine patterns_sound hb hw hk hc (hev.trans ?_) ht
    rw [← hqs, evaluations_append]
    exact List.sublist_append_left _ _
  have hbm : b ∈ n.body := hsplit ▸ mem_mid pre post b
  have hbt : b ∈ tree.subtree := hsubn (subtrees_body n (mem_subtrees hbm b.mem_subtree_self))
  have hpats : n.body.flatMap PCFNNode.leaves =
      (pre.flatMap PCFNNode.leaves ++ ls) ++ (rest ++ post.flatMap PCFNNode.leaves) := by
    rw [hsplit, List.flatMap_append, List.flatMap_cons, hls]
    simp
  have hev := (evaluations_of_runs h₁).2 _ rfl fun m hm =>
    hall m (by rw [hpats, subtrees_append]; exact List.mem_append_left _ hm)
  have hsite : b.siteIds = [] := by
    by_contra hne
    rcases hb.sited b hbt hne with h | h | h <;> rw [hkb] at h <;> cases h
  rcases split_append heq.symm with ⟨r, rfl⟩ | ⟨r, rfl, hr⟩
  · -- the target is in a pattern
    refine patterns_sound hb hw hk hc (hev.trans ?_) ht
    rw [hpats, evaluations_append (pre.flatMap PCFNNode.leaves ++ ls)]
    exact List.sublist_append_left _ _
  · cases r with
    | nil =>
      rw [List.nil_append, List.cons.injEq] at hr
      rw [← hr.1, hsite] at ht
      exact absurd ht List.not_mem_nil
    | cons y r =>
      rw [List.cons_append, List.cons.injEq] at hr
      obtain ⟨rfl, rfl⟩ := hr
      have htb : t ∈ listIds b.body :=
        List.mem_flatMap.mpr ⟨k, runs_nodes h₂ (mem_mid r v k), ht⟩
      have htbt : t ∈ b.treeIds := by
        rw [treeIds_eq]
        exact List.mem_append_right _ (List.mem_append_right _ (List.mem_append_left _ htb))
      have hbr := branch_of_mem hb hw hk hsplit htbt
      have hent : Covers commits tree t (w.add (reachingList false b.leaves))
          (h ++ (t₁ ++ [b])) := by
        refine hc.grow rfl Finset.subset_union_left fun x hx hnot => ?_
        rw [List.flatMap_append] at hx
        rcases List.mem_append.mp hx with hx | hx
        · have hxe := (hev.flatMap siteIds).subset hx
          rw [evaluations_append, List.flatMap_append] at hxe
          rcases List.mem_append.mp hxe with hxe | hxe
          · obtain ⟨c, hc, hxc⟩ := listIds_of_patterns hxe
            exact absurd (hbr.patterns c hc x hxc) hnot
          · refine Finset.mem_union_right _ (collected_of_calls
              (fun m hm => (hb.evaluated b hbt m hm).1) ?_)
            rw [hls, listIds_append]
            exact List.mem_append_left _ (siteIds_of_evaluations (List.Subset.refl _) hxe)
        · rw [List.flatMap_singleton, hsite] at hx
          exact absurd hx List.not_mem_nil
      have hcov := branch_sound hb hkb hsite (hnode b hbm) hbr.within hent h₂ ht
      rw [hsplit, walkBranch_eq hbr.before hbr.mem]
      have hassoc : h ++ (t₁ ++ b :: r) = h ++ (t₁ ++ [b]) ++ r := by simp
      rw [hassoc]
      exact hcov

/-- A loop read as a whole. -/
theorem loop_sound (hb : Built commits tree) {n : PCFNNode} (hn : n.subtree ⊆ tree.subtree)
    (hloop : isLoopKind n.kind = true) {w : Walked} {h u : List PCFNNode}
    (hc : Covers commits tree t (w.add (reachingList false n.leaves)) h)
    (hu : u ⊆ subtrees (n.again ++ (n.body ++ n.elseBody))) :
    Covers commits tree t ((w.add (reachingList false n.leaves)).add
      (reachingList false n.body ∪ reachingList false n.elseBody)) (h ++ u) := by
  refine hc.grow rfl Finset.subset_union_left fun x hx hnot => ?_
  have hns : ∀ ns : List PCFNNode, ns ⊆ n.body ++ n.elseBody → x ∈ listIds ns →
      x ∈ reachingList false ns := by
    intro ns hns hxns
    rcases mem_reaching hxns with h | ⟨c, hc, m, hm, harm, a, ha, hterm, hxa⟩
    · exact h
    · refine absurd (Overlooked.arm ?_ harm ha hterm hxa fun _ => ⟨n, hn n.mem_subtree_self, hloop,
        mem_subtrees (hns hc) hm⟩) hnot
      exact hn (subtree_subset (List.mem_append_right _ (hns hc)) hm)
  have hxl : x ∈ listIds (n.again ++ (n.body ++ n.elseBody)) := by
    obtain ⟨m, hm, hxm⟩ := List.mem_flatMap.mp hx
    exact List.mem_flatMap.mpr ⟨m, hu hm, hxm⟩
  rw [listIds_append, listIds_append] at hxl
  rcases List.mem_append.mp hxl with hxl | hxl
  · refine Finset.mem_union_left _ (Finset.mem_union_right _ (collected_of_calls
      (fun m hm => (hb.evaluated n (hn n.mem_subtree_self) m hm).1) ?_))
    obtain ⟨m, hm, hxm⟩ := List.mem_flatMap.mp hxl
    exact List.mem_flatMap.mpr ⟨m, again_subset n hm, hxm⟩
  · refine Finset.mem_union_right _ ?_
    rcases List.mem_append.mp hxl with hxl | hxl
    · exact Finset.mem_union_left _ (hns n.body (List.subset_append_left _ _) hxl)
    · exact Finset.mem_union_right _ (hns n.elseBody (List.subset_append_right _ _) hxl)

/-- What a loop evaluates again it evaluates as a condition. -/
theorem runs_again {c : Code} {r : List PCFNNode} {o : Outcome} (h : Runs c r o) :
    ∀ n, (∀ m ∈ subtrees n.leaves, IsCall m.kind) → c = .body n ∨ c = .round n ∨ c = .loop n →
      ∀ k ∈ r, k ∈ evaluations n.again ∨ k ∈ subtrees (n.body ++ n.elseBody) := by
  have hbody : ∀ {ns r : List PCFNNode} {o : Outcome} {n : PCFNNode}, Runs (.list ns) r o →
      ns = n.body ∨ ns = n.elseBody →
      ∀ k ∈ r, k ∈ evaluations n.again ∨ k ∈ subtrees (n.body ++ n.elseBody) := by
    intro ns r o n hrun hns k hk
    refine Or.inr ?_
    rw [subtrees_append]
    rcases hns with rfl | rfl
    · exact List.mem_append_left _ (runs_nodes hrun hk)
    · exact List.mem_append_right _ (runs_nodes hrun hk)
  induction h with
  | fail | leaf | exit | error | breakLoop | continueLoop | loopStop =>
    exact fun _ _ _ _ hk => absurd hk List.not_mem_nil
  | sequence _ h | thenBranch _ h =>
    rintro _ _ (⟨⟨rfl⟩⟩ | h | h)
    · exact hbody h (Or.inl rfl)
    all_goals cases h
  | elseBranch _ h =>
    rintro _ _ (⟨⟨rfl⟩⟩ | h | h)
    · exact hbody h (Or.inr rfl)
    all_goals cases h
  | @branch n pre b post ls rest t₁ t₂ o hk hn hkb hls h₁ h₂ =>
    rintro _ _ (⟨⟨rfl⟩⟩ | h | h)
    · intro k hkr
      have hmem := runs_nodes (.branch hk hn hkb hls h₁ h₂) hkr
      rw [reach, subtrees_append] at hmem
      simpa [PCFNNode.again, hk, subtrees] using Or.inr hmem
    all_goals cases h
  | @noBranch n t hk hels h =>
    rintro _ _ (⟨⟨rfl⟩⟩ | h' | h')
    · intro k hkr
      have hmem := runs_nodes (.noBranch hk hels h) hkr
      rw [reach, subtrees_append] at hmem
      simpa [PCFNNode.again, hk, subtrees] using Or.inr hmem
    all_goals cases h'
  | @patternStop n t o hk h hl =>
    rintro _ _ (⟨⟨rfl⟩⟩ | h' | h')
    · intro k hkr
      have hmem := runs_nodes (.patternStop hk h hl) hkr
      rw [reach, subtrees_append] at hmem
      simpa [PCFNNode.again, hk, subtrees] using Or.inr hmem
    all_goals cases h'
  | caught _ _ _ _ ih => exact ih
  | headLoop _ _ ih | tailBreak _ _ ih | tailStop _ _ _ ih | loopBreak _ ih | loopLeave _ _ ih =>
    rintro _ hcalls (⟨⟨rfl⟩⟩ | ⟨⟨rfl⟩⟩ | ⟨⟨rfl⟩⟩)
    exact ih _ hcalls (by simp)
  | tailLoop _ _ _ ih₁ ih₂ | loopRound _ _ ih₁ ih₂ =>
    rintro _ hcalls (⟨⟨rfl⟩⟩ | ⟨⟨rfl⟩⟩ | ⟨⟨rfl⟩⟩)
    intro k hk
    rcases List.mem_append.mp hk with hk | hk
    · exact ih₁ _ hcalls (by simp) k hk
    · exact ih₂ _ hcalls (by simp) k hk
  | @round n t₁ t₂ o₁ o h₁ _ h₂ =>
    rintro _ hcalls (h | ⟨⟨rfl⟩⟩ | h)
    · cases h
    · intro k hk
      rcases List.mem_append.mp hk with hk | hk
      · exact hbody h₁ (Or.inl rfl) k hk
      · have hev := (evaluations_of_runs h₂).2 _ rfl fun m hm => hcalls m (again_subset n hm)
        exact Or.inl (hev.subset hk)
    · cases h
  | roundStop h =>
    rintro _ _ (h' | ⟨⟨rfl⟩⟩ | h')
    · cases h'
    · exact hbody h (Or.inl rfl)
    · cases h'
  | _ => rintro _ _ (h | h | h) <;> cases h

theorem mem_ids_of_mem {ns : List PCFNNode} {k : PCFNNode} (hk : k ∈ subtrees ns) {x : String}
    (hx : x ∈ k.siteIds) : x ∈ listIds ns :=
  List.mem_flatMap.mpr ⟨k, hk, hx⟩

/-- The condition of a loop holds the target, and is evaluated again. -/
theorem recheck_sound (hb : Built commits tree) {n : PCFNNode} (hw : Within tree t [n])
    (hsite : n.siteIds = []) {w : Walked} {h u : List PCFNNode} {k : PCFNNode}
    (hc : Covers commits tree t w h)
    (hu : ∀ m ∈ u, m ∈ subtrees n.leaves ∨ m = n ∨ m ∈ subtrees (n.body ++ n.elseBody))
    (hk : k ∈ evaluations n.again) (ht : t ∈ k.siteIds) :
    Covers commits tree t (walkNode commits t n w) (h ++ u) := by
  have hn : n ∈ tree.subtree := hw.subset List.mem_cons_self n.mem_subtree_self
  have hkind : n.kind = .whileDo ∨ n.kind = .repeatUntil := by
    by_contra hnot
    have hnil : n.again = [] := by
      cases hkind : n.kind <;> simp_all [PCFNNode.again]
    rw [hnil] at hk
    exact absurd hk List.not_mem_nil
  have hagain : n.again = n.leaves := by
    rcases hkind with hkind | hkind <;> simp [PCFNNode.again, hkind]
  rw [hagain] at hk
  have hids : n.treeIds.Nodup := listIds_singleton n ▸ hw.ids
  have hdis := disjointed_of_nodup hids
  have htl : t ∈ listIds n.leaves := mem_ids_of_mem (evaluations_subset _ hk) ht
  obtain ⟨w', hw', hev⟩ := walkList_leaves hb hn (apart_of_nodup hids).leaves ⟨k, hk, ht⟩ w
  rw [walkNode_of_leaves hw']
  -- no loop around the target: within `n` the target is in the condition, which holds none
  have hloop : ∀ x, ¬ InLoop tree t x := by
    rintro x ⟨l, hl, hkl, hlt, -⟩
    have htl' : t ∈ l.treeIds := by
      rw [treeIds_eq, ← listIds_append]
      exact List.mem_append_right _ (List.mem_append_right _ hlt)
    have hmem := hw.loops l hl hkl hlt
    rw [subtrees_singleton, subtree_eq] at hmem
    rcases List.mem_cons.mp hmem with rfl | hmem
    · rw [listIds_append] at hlt
      rcases List.mem_append.mp hlt with hlt | hlt
      · exact (hdis.leaves t htl).1 hlt
      · exact (hdis.leaves t htl).2 hlt
    rcases List.mem_append.mp hmem with hmem | hmem
    · rcases (hb.evaluated n hn l hmem).1 with h | h | h <;> simp [isLoopKind, h] at hkl
    · rcases List.mem_append.mp hmem with hmem | hmem
      · exact (hdis.leaves t htl).1 (listIds_of_subtrees hmem htl')
      · exact (hdis.leaves t htl).2 (listIds_of_subtrees hmem htl')
  refine hc.grow hev.cleared hev.out fun x hx hnot => ?_
  obtain ⟨m, hm, hxm⟩ := List.mem_flatMap.mp hx
  rcases hu m hm with hm | rfl | hm
  · by_contra hout
    refine hnot (.recheck hn hkind htl (Or.inr ⟨mem_ids_of_mem hm hxm, fun ha => ?_⟩) (hloop x))
    exact hout (hev.ahead x ha)
  · rw [hsite] at hxm
    exact absurd hxm List.not_mem_nil
  · exact absurd (.recheck hn hkind htl (Or.inl (mem_ids_of_mem hm hxm)) (hloop x)) hnot

/-- A node reached behind its condition. -/
theorem behind_sound (hb : Built commits tree) {n : PCFNNode}
    (hnode : ∀ c ∈ n.parts, ∀ m ∈ c.subtree, NodeSound commits tree t m)
    (hw : Within tree t [n]) {w : Walked} {h r u v : List PCFNNode} {k : PCFNNode} {o : Outcome}
    (hc : Covers commits tree t w h) (hr : r ⊆ subtrees n.leaves)
    (hrun : Runs (.body n) (u ++ k :: v) o) (ht : t ∈ k.siteIds) :
    Covers commits tree t (walkNode commits t n w) (h ++ (r ++ n :: u)) := by
  have hsub : n.subtree ⊆ tree.subtree := hw.subset List.mem_cons_self
  have hn : n ∈ tree.subtree := hsub n.mem_subtree_self
  have hsite : n.siteIds = [] := siteIds_of_body hb hn hrun
    (List.append_ne_nil_of_right_ne_nil _ (List.cons_ne_nil _ _))
  have hids : n.treeIds.Nodup := listIds_singleton n ▸ hw.ids
  have hdis := disjointed_of_nodup hids
  have hagain := runs_again hrun n (fun m hm => (hb.evaluated n hn m hm).1) (Or.inl rfl)
  have hassoc : h ++ (r ++ n :: u) = h ++ (r ++ [n]) ++ u := by simp
  rcases hagain k (mem_mid u v k) with hk | hk
  · refine recheck_sound hb hw hsite hc (fun m hm => ?_) hk ht
    rcases List.mem_append.mp hm with hm | hm
    · exact Or.inl (hr hm)
    rcases List.mem_cons.mp hm with rfl | hm
    · exact Or.inr (Or.inl rfl)
    rcases hagain m (List.mem_append_left _ hm) with hm | hm
    · exact Or.inl (again_subset n (evaluations_subset _ hm))
    · exact Or.inr (Or.inr hm)
  -- from here the target is in the statements
  have htb : t ∈ listIds n.body ∨ t ∈ listIds n.elseBody := by
    have := mem_ids_of_mem hk ht
    rw [listIds_append] at this
    exact List.mem_append.mp this
  have hleaves : t ∉ listIds n.leaves := by
    intro h
    rcases htb with hb | hb
    · exact (hdis.leaves t h).1 hb
    · exact (hdis.leaves t h).2 hb
  have hent := enter_sound hb hn hc hr hsite
  rw [walkNode_behind hleaves hsite, hassoc]
  dsimp only
  by_cases hloop : isLoopKind n.kind = true
  · rw [if_pos hloop]
    exact loop_sound hb hsub hloop hent fun m hm => runs_nodes hrun (List.mem_append_left _ hm)
  rw [if_neg hloop]
  rw [Bool.not_eq_true] at hloop
  by_cases hcase : n.kind = .case
  · rw [if_pos (by rw [hcase]; rfl)]
    refine case_sound hb hcase (fun b hbm c hcm => ?_) hw hent hrun ht
    refine hnode b (List.mem_append_right _ (List.mem_append_left _ hbm)) c ?_
    exact subtrees_body b (mem_subtrees hcm c.mem_subtree_self)
  rw [if_neg (by simpa using hcase)]
  have hlist : ∀ ns, (ns = n.body ∨ ns = n.elseBody) → ∀ c ∈ ns, NodeSound commits tree t c := by
    intro ns hns c hcm
    refine hnode c (List.mem_append_right _ ?_) c c.mem_subtree_self
    rcases hns with rfl | rfl
    · exact List.mem_append_left _ hcm
    · exact List.mem_append_right _ hcm
  rcases body_list hrun n rfl hloop hcase with hnil | ⟨ns, o', hns, hrun'⟩
  · exact absurd hnil (List.append_ne_nil_of_right_ne_nil _ (List.cons_ne_nil _ _))
  have htns : t ∈ listIds ns := mem_ids_of_mem (runs_nodes hrun' (mem_mid u v k)) ht
  obtain ⟨w', hw', hcov⟩ := list_sound hb (hlist ns hns) (hw.below hb hloop hns htns) hent hrun' ht
  rcases hns with rfl | rfl
  · rw [hw']
    exact hcov
  · rw [walkList_none fun h => hdis.body t h htns, hw', Option.getD_some]
    exact hcov

/-- **The crux: the walk of a node has what is pending where a run of it reaches the target.** -/
theorem node_sound (hb : Built commits tree) (n : PCFNNode) :
    ∀ m ∈ n.subtree, NodeSound commits tree t m := by
  induction n using PCFNNode.induct with
  | step n ih =>
    intro m hm
    rw [subtree_parts] at hm
    rcases List.mem_cons.mp hm with rfl | hm
    · intro w h u v k o hw hc hrun ht
      have hmt : m ∈ tree.subtree := hw.subset List.mem_cons_self m.mem_subtree_self
      have hids : m.treeIds.Nodup := listIds_singleton m ▸ hw.ids
      -- the target in what is evaluated in front of the body
      have hbefore : ∀ {u v : List PCFNNode} {o : Outcome},
          Runs (.leaves m.before) (u ++ k :: v) o →
          Covers commits tree t (walkNode commits t m w) (h ++ u) := by
        intro u v o hrun
        have hmem := runs_nodes hrun (mem_mid u v k)
        rcases before_eq m with hnil | hleaves
        · rw [reach, hnil] at hmem
          exact absurd hmem List.not_mem_nil
        · rw [hleaves] at hrun
          obtain ⟨w', hw', hcov⟩ := leaves_sound hb hmt (apart_of_nodup hids).leaves hc hrun ht
          rw [walkNode_of_leaves hw']
          exact hcov
      generalize htr : u ++ k :: v = tr at hrun
      cases hrun with
      | fail => exact absurd htr (List.append_ne_nil_of_right_ne_nil _ (List.cons_ne_nil _ _))
      | nodeStop h₁ _ =>
        subst htr
        exact hbefore h₁
      | @node _ t₁ t₂ _ h₁ h₂ =>
        have ht₁ : t₁ ⊆ subtrees m.leaves := fun x hx => before_subset m (runs_nodes h₁ hx)
        rcases split_append htr.symm with ⟨r, rfl⟩ | ⟨r, rfl, hr⟩
        · exact hbefore h₁
        cases r with
        | nil =>
          rw [List.nil_append, List.cons.injEq] at hr
          obtain ⟨rfl, -⟩ := hr
          have hleaves : t ∉ listIds m.leaves := ((disjointed_of_nodup hids).self t ht).1
          have hwalk : walkNode commits t m w = w.add (reachingList false m.leaves) := by
            rw [walkNode_eq, walkList_none hleaves]
            dsimp only
            rw [if_pos (isSite_iff.mpr ht)]
          rw [hwalk, List.append_nil]
          refine hc.grow rfl Finset.subset_union_left fun x hx _ => ?_
          obtain ⟨l, hl, hxl⟩ := List.mem_flatMap.mp hx
          exact Finset.mem_union_right _ (collected_of_calls
            (fun c hcl => (hb.evaluated m hmt c hcl).1) (mem_ids_of_mem (ht₁ hl) hxl))
        | cons y r =>
          rw [List.cons_append, List.cons.injEq] at hr
          obtain ⟨rfl, rfl⟩ := hr
          exact behind_sound hb ih hw hc ht₁ h₂ ht
    · obtain ⟨c, hc, hmc⟩ := mem_subtrees_iff.mp hm
      exact ih c hc m hmc

end

/-! ## 6. Every site before a target -/

/-- The walks of the targets: each adds its sites, and all of them must have met a `Commit()`. -/
theorem walkTargets_spec {commits : Finset String} {tree : PCFNNode} {ts : List String}
    (hheld : ∀ t ∈ ts, t ∈ tree.treeIds) (acc : Finset String × Bool) :
    ∃ res, walkTargets commits tree ts acc = some res ∧ acc.1 ⊆ res.1 ∧
      (res.2 = true → acc.2 = true) ∧
      ∀ t ∈ ts, (walkNode commits t tree ⟨∅, false⟩).out ⊆ res.1 ∧
        (res.2 = true → (walkNode commits t tree ⟨∅, false⟩).cleared = true) := by
  induction ts generalizing acc with
  | nil => exact ⟨acc, rfl, Finset.Subset.refl _, id, fun _ h => absurd h List.not_mem_nil⟩
  | cons t ts ih =>
    have hwalk : walkList commits t [tree] ⟨∅, false⟩ =
        some (walkNode commits t tree ⟨∅, false⟩) := by
      rw [walkList, if_pos ((holdsSite_iff tree t).mpr (hheld t List.mem_cons_self))]
    obtain ⟨res, hres, hsub, hcl, hrest⟩ := ih (fun s hs => hheld s (List.mem_cons_of_mem _ hs))
      (acc.1 ∪ (walkNode commits t tree ⟨∅, false⟩).out,
        acc.2 && (walkNode commits t tree ⟨∅, false⟩).cleared)
    have hboth : res.2 = true →
        acc.2 = true ∧ (walkNode commits t tree ⟨∅, false⟩).cleared = true :=
      fun h => Bool.and_eq_true_iff.mp (hcl h)
    refine ⟨res, ?_, Finset.subset_union_left.trans hsub, fun h => (hboth h).1, fun s hs => ?_⟩
    · rw [walkTargets, hwalk, Option.bind_some, hres]
    · rcases List.mem_cons.mp hs with rfl | hs
      · exact ⟨Finset.subset_union_right.trans hsub, fun h => (hboth h).2⟩
      · exact hrest s hs

/-- **Pending sites are counted.**  Where a run of the body reaches the target `t`, every site it has
pending, targets apart, is one of `sitesBefore` unless `Overlooked` names it; and if `sitesBefore`
reports a commit, the run has executed one. -/
theorem sitesBefore_sound {r : RoutineBody} {tree : PCFNNode} (hr : r.statementTree = some tree)
    (hb : Built (commitSites r) tree) {targets : List String}
    (hheld : ∀ t ∈ targets, t ∈ tree.treeIds) {u v : List PCFNNode} {k : PCFNNode} {o : Outcome}
    (hrun : Runs (.node tree) (u ++ k :: v) o) {t : String} (ht : t ∈ targets)
    (hk : t ∈ k.siteIds) :
    (∀ x, Pending (commitSites r) u x → x ∉ targets → ¬ Overlooked tree t x →
      x ∈ (sitesBefore r targets false).sites) ∧
    ((sitesBefore r targets false).committed = true →
      ∃ m ∈ u, isCommit (commitSites r) m = true) := by
  have hw : Within tree t [tree] := by
    refine ⟨?_, listIds_singleton tree ▸ hb.ids, fun l hl _ _ => ?_⟩
    · rw [subtrees_singleton]
      exact List.Subset.refl _
    · rw [subtrees_singleton]
      exact hl
  have hstart : Covers (commitSites r) tree t ⟨∅, false⟩ [] := by
    refine ⟨fun h => absurd h Bool.false_ne_true, ?_⟩
    rintro x ⟨p, m, q, heq, -⟩ -
    exact absurd heq.symm (List.append_ne_nil_of_right_ne_nil _ (List.cons_ne_nil _ _))
  have hcov := node_sound hb tree tree tree.mem_subtree_self hw hstart hrun hk
  obtain ⟨res, hres, -, -, hall⟩ :=
    @walkTargets_spec (commitSites r) _ _ hheld (∅, !targets.isEmpty)
  have hsites : sitesBefore r targets false = ⟨res.1 \ targets.toFinset, false, res.2⟩ := by
    simp only [sitesBefore, hr, Option.bind_some, Bool.false_eq_true, if_false, hres]
  obtain ⟨hout, hcleared⟩ := hall t ht
  rw [hsites]
  refine ⟨fun x hx hxt hnot => ?_, fun h => ?_⟩
  · refine Finset.mem_sdiff.mpr ⟨hout (hcov.out x hx hnot), ?_⟩
    rw [List.mem_toFinset]
    exact hxt
  · exact hcov.cleared (hcleared h)

/-! ## 7. An arm within a loop -/

/-- A leaf: a record operation. -/
def opLeaf (id : String) : PCFNNode where
  kind := .op
  operationId := some id

def callLeaf (id : String) : PCFNNode where
  kind := .call
  callsiteId := some id

def blockOf (ns : List PCFNNode) : PCFNNode where
  kind := .block
  children := some ns

/-- A node with nothing in front of it. -/
theorem runs_of_body {n : PCFNNode} {t : List PCFNNode} {o : Outcome} (hbefore : n.before = [])
    (h : Runs (.body n) t o) : Runs (.node n) (n :: t) o := by
  have hnil : Runs (.leaves n.before) [] .normal := by
    rw [hbefore]
    exact .leavesNil
  exact .node hnil h

theorem opLeaf_runs (id : String) : Runs (.node (opLeaf id)) [opLeaf id] .normal :=
  runs_of_body rfl (.leaf (Or.inl rfl))

theorem callLeaf_runs (id : String) : Runs (.node (callLeaf id)) [callLeaf id] .normal :=
  runs_of_body rfl (.leaf (Or.inr rfl))

theorem blockOf_runs {ns r : List PCFNNode} {o : Outcome} (h : Runs (.list ns) r o) :
    Runs (.node (blockOf ns)) (blockOf ns :: r) o :=
  runs_of_body rfl (.sequence (Or.inl rfl) h)

/-- Two statements of which the second is the target. -/
def twoStatements : RoutineBody where
  id := "r"
  statementTree := some (blockOf [opLeaf "a", callLeaf "t"])

theorem twoStatements_plain (t x : String) :
    ¬ Overlooked (blockOf [opLeaf "a", callLeaf "t"]) t x := by
  have hkinds : ∀ m ∈ (blockOf [opLeaf "a", callLeaf "t"]).subtree,
      hasArms m.kind = false ∧ m.kind ≠ .whileDo ∧ m.kind ≠ .repeatUntil ∧ m.kind ≠ .case := by
    decide
  intro h
  cases h with
  | arm hm harm _ _ _ _ =>
    rw [(hkinds _ hm).1] at harm
    exact Bool.false_ne_true harm
  | recheck hn hk _ _ _ =>
    rcases hk with hk | hk
    · exact (hkinds _ hn).2.1 hk
    · exact (hkinds _ hn).2.2.1 hk
  | pattern hn hk _ _ _ _ _ => exact (hkinds _ hn).2.2.2 hk

theorem sitesBefore_twoStatements :
    Pending (commitSites twoStatements) [blockOf [opLeaf "a", callLeaf "t"], opLeaf "a"] "a" ∧
      "a" ∈ (sitesBefore twoStatements ["t"] false).sites := by
  have hp : Pending (commitSites twoStatements)
      [blockOf [opLeaf "a", callLeaf "t"], opLeaf "a"] "a" :=
    ⟨[blockOf [opLeaf "a", callLeaf "t"]], opLeaf "a", [], rfl, by decide, by decide⟩
  have hrun : Runs (.node (blockOf [opLeaf "a", callLeaf "t"]))
      ([blockOf [opLeaf "a", callLeaf "t"], opLeaf "a"] ++ callLeaf "t" :: []) .normal :=
    blockOf_runs (.cons (opLeaf_runs "a") (.cons (callLeaf_runs "t") .nil))
  exact ⟨hp, (sitesBefore_sound (r := twoStatements) rfl ⟨by decide, by decide, by decide⟩
    (by decide) hrun List.mem_cons_self (by decide)).1 "a" hp (by decide)
    (twoStatements_plain "t" "a")⟩

/-- `if Done then begin Rec.Modify(); Post(); exit end`. -/
def leavingIf : PCFNNode where
  kind := .ifThen
  children := some [blockOf [opLeaf "a", callLeaf "t", { kind := .exit }]]

def leavingLoop : PCFNNode where
  kind := .whileDo
  children := some [blockOf [leavingIf]]

/-- `while More do if Done then begin Rec.Modify(); Post(); exit end`. -/
def leavingBody : RoutineBody where
  id := "r"
  statementTree := some (blockOf [leavingLoop])

theorem leavingLoop_runs : Runs (.node (blockOf [leavingLoop]))
    ([blockOf [leavingLoop], leavingLoop, blockOf [leavingIf], leavingIf,
      blockOf [opLeaf "a", callLeaf "t", { kind := .exit }], opLeaf "a"] ++
      callLeaf "t" :: [{ kind := .exit }]) .exited := by
  have hexit : Runs (.node { kind := .exit }) [{ kind := .exit }] .exited :=
    runs_of_body rfl (.exit rfl)
  have harm := blockOf_runs (.cons (opLeaf_runs "a") (.cons (callLeaf_runs "t")
    (.stop hexit (by decide) : Runs (.list [{ kind := .exit }]) _ _)))
  have hif : Runs (.node leavingIf) _ .exited :=
    runs_of_body rfl (.thenBranch rfl (.stop harm (by decide)))
  have hbody := blockOf_runs (.stop hif (by decide) : Runs (.list [leavingIf]) _ _)
  have hround : Runs (.round leavingLoop) _ .exited :=
    .roundStop (.stop hbody (by decide)) (by simp [Outcome.latches])
  have hloop : Runs (.node leavingLoop) _ .exited :=
    runs_of_body rfl (.headLoop (Or.inl rfl) (.loopLeave hround (Or.inl rfl)))
  exact blockOf_runs (.stop hloop (by decide) : Runs (.list [leavingLoop]) _ _)

/-- **Not every pending site is counted**: the arm that modifies, posts and leaves is read with the
loop around it, as an arm that never falls through. -/
theorem sitesBefore_misses : ¬ ∀ (r : RoutineBody) (tree : PCFNNode), r.statementTree = some tree →
    Built (commitSites r) tree → ∀ targets : List String, (∀ t ∈ targets, t ∈ tree.treeIds) →
    ∀ (u v : List PCFNNode) (k : PCFNNode) (o : Outcome), Runs (.node tree) (u ++ k :: v) o →
    ∀ t ∈ targets, t ∈ k.siteIds → ∀ x, Pending (commitSites r) u x → x ∉ targets →
    x ∈ (sitesBefore r targets false).sites := by
  intro hall
  have hmem := hall leavingBody _ rfl ⟨by decide, by decide, by decide⟩ ["t"] (by decide) _ _ _ _
    leavingLoop_runs "t" List.mem_cons_self (by decide) "a"
    ⟨[blockOf [leavingLoop], leavingLoop, blockOf [leavingIf], leavingIf,
      blockOf [opLeaf "a", callLeaf "t", { kind := .exit }]], opLeaf "a", [], rfl, by decide,
      by decide⟩ (by decide)
  exact absurd hmem (by decide)

end AlSem.L5.PendingWrites
