/-
# Runs along an outline

What a run of a statement tree executes, in terms of the outline of `AlSem.Body.Outline`: only nodes of the
tree; where it ends normally, every leaf of the list it runs; and before a leaf, every leaf that
stands before it in its frame.
-/
import AlSem.Body.Outline
import AlSem.L4.CfgSound

namespace AlSem.Body

open AlSem.Model Outline
variable {sel : PCFNNode → Bool → Prop}

/-! ## 1. A run's nodes -/

/-- The nodes a piece of code is a part of. -/
def codeNodes : Code → List PCFNNode
  | .node n | .body n | .round n | .loop n => [n]
  | .list ns | .leaves ns => ns

theorem subtrees_leaves (n : PCFNNode) : PCFNNode.subtrees n.leaves ⊆ n.subtree := by
  rw [PCFNNode.subtree_eq]
  exact fun m hm => List.mem_cons_of_mem _ (List.mem_append_left _ hm)

theorem subtrees_body (n : PCFNNode) : PCFNNode.subtrees n.body ⊆ n.subtree := by
  rw [PCFNNode.subtree_eq]
  exact fun m hm =>
    List.mem_cons_of_mem _ (List.mem_append_right _ (List.mem_append_left _ hm))

theorem subtrees_elseBody (n : PCFNNode) : PCFNNode.subtrees n.elseBody ⊆ n.subtree := by
  rw [PCFNNode.subtree_eq]
  exact fun m hm =>
    List.mem_cons_of_mem _ (List.mem_append_right _ (List.mem_append_right _ hm))

theorem before_subset (n : PCFNNode) : PCFNNode.subtrees n.before ⊆ PCFNNode.subtrees n.leaves := by
  cases hk : n.kind <;> simp [PCFNNode.before, hk, PCFNNode.subtrees]

theorem again_subset (n : PCFNNode) : PCFNNode.subtrees n.again ⊆ PCFNNode.subtrees n.leaves := by
  cases hk : n.kind <;> simp [PCFNNode.again, hk, PCFNNode.subtrees]

theorem subtrees_singleton (n : PCFNNode) : PCFNNode.subtrees [n] = n.subtree := by
  simp [PCFNNode.subtrees]

/-- **A run executes nodes of its code.** -/
theorem exec_nodes {c : Code} {t : List PCFNNode} {o : Outcome} (h : Exec sel c t o) :
    t ⊆ PCFNNode.subtrees (codeNodes c) := by
  have hcons : ∀ {n : PCFNNode} {ns t₁ t₂ : List PCFNNode}, t₁ ⊆ PCFNNode.subtrees [n] →
      t₂ ⊆ PCFNNode.subtrees ns → t₁ ++ t₂ ⊆ PCFNNode.subtrees (n :: ns) := by
    intro n ns t₁ t₂ h₁ h₂
    rw [subtrees_singleton] at h₁
    rw [PCFNNode.subtrees]
    exact List.append_subset.mpr ⟨fun m hm => List.mem_append_left _ (h₁ hm),
      fun m hm => List.mem_append_right _ (h₂ hm)⟩
  induction h with
  | fail => exact List.nil_subset _
  | nil | leavesNil | leaf | exit | error | breakLoop | continueLoop | noBranch | loopStop =>
    exact List.nil_subset _
  | @node n t₁ t₂ o _ _ ih₁ ih₂ =>
    simp only [codeNodes, subtrees_singleton] at ih₁ ih₂ ⊢
    refine List.append_subset.mpr ⟨fun m hm => ?_, List.cons_subset.mpr ⟨?_, ih₂⟩⟩
    · exact subtrees_leaves n (before_subset n (ih₁ hm))
    · exact n.mem_subtree_self
  | @nodeStop n t o _ _ ih =>
    simp only [codeNodes, subtrees_singleton] at ih ⊢
    exact fun m hm => subtrees_leaves n (before_subset n (ih hm))
  | cons _ _ ih₁ ih₂ | leavesCons _ _ ih₁ ih₂ => exact hcons ih₁ ih₂
  | stop _ _ ih | leavesStop _ _ ih =>
    simp only [codeNodes, subtrees_singleton] at ih
    exact fun m hm => PCFNNode.mem_subtrees List.mem_cons_self (ih hm)
  | leavesSkip _ _ _ ih => exact fun m hm => List.mem_append_right _ (ih hm)
  | @sequence n t o _ _ ih | @thenBranch n t o _ _ _ ih =>
    simp only [codeNodes, subtrees_singleton] at ih ⊢
    exact fun m hm => subtrees_body n (ih hm)
  | @elseBranch n t o _ _ _ ih =>
    simp only [codeNodes, subtrees_singleton] at ih ⊢
    exact fun m hm => subtrees_elseBody n (ih hm)
  | @branch n b t o _ _ hb _ ih =>
    simp only [codeNodes, subtrees_singleton] at ih ⊢
    exact fun m hm => subtrees_body n (PCFNNode.mem_subtrees hb (ih hm))
  | caught _ _ _ _ _ ih | headLoop _ _ ih | tailBreak _ _ ih | tailStop _ _ _ ih | loopBreak _ ih
  | loopLeave _ _ ih => exact ih
  | tailLoop _ _ _ ih₁ ih₂ | loopRound _ _ ih₁ ih₂ => exact List.append_subset.mpr ⟨ih₁, ih₂⟩
  | @round n t₁ t₂ o₁ o _ _ _ ih₁ ih₂ =>
    simp only [codeNodes, subtrees_singleton] at ih₁ ih₂ ⊢
    exact List.append_subset.mpr ⟨fun m hm => subtrees_body n (ih₁ hm),
      fun m hm => subtrees_leaves n (again_subset n (ih₂ hm))⟩
  | @roundStop n t o _ _ ih =>
    simp only [codeNodes, subtrees_singleton] at ih ⊢
    exact fun m hm => subtrees_body n (ih hm)

/-! ## 2. Distinct ids -/

/-- What stands in two parts of nodes with distinct ids has no id. -/
theorem siteIds_nil_of_both {A B : List PCFNNode} (h : ((A ++ B).flatMap PCFNNode.siteIds).Nodup)
    {m : PCFNNode} (ha : m ∈ A) (hb : m ∈ B) : m.siteIds = [] := by
  rw [List.flatMap_append, List.nodup_append] at h
  rw [List.eq_nil_iff_forall_not_mem]
  intro id hid
  exact h.2.2 id (List.mem_flatMap.mpr ⟨m, ha, hid⟩) id (List.mem_flatMap.mpr ⟨m, hb, hid⟩) rfl

theorem nodup_left {A B : List PCFNNode} (h : ((A ++ B).flatMap PCFNNode.siteIds).Nodup) :
    (A.flatMap PCFNNode.siteIds).Nodup :=
  h.sublist ((List.sublist_append_left A B).flatMap _)

theorem nodup_right {A B : List PCFNNode} (h : ((A ++ B).flatMap PCFNNode.siteIds).Nodup) :
    (B.flatMap PCFNNode.siteIds).Nodup :=
  h.sublist ((List.sublist_append_right A B).flatMap _)

/-- The parts of a node with distinct ids. -/
structure Apart (n : PCFNNode) : Prop where
  leaves : (PCFNNode.listIds n.leaves).Nodup
  body : (PCFNNode.listIds n.body).Nodup
  elseBody : (PCFNNode.listIds n.elseBody).Nodup
  self : n ∈ PCFNNode.subtrees n.leaves ++
    (PCFNNode.subtrees n.body ++ PCFNNode.subtrees n.elseBody) → n.siteIds = []
  behind : ∀ m ∈ PCFNNode.subtrees n.leaves,
    m ∈ PCFNNode.subtrees n.body ++ PCFNNode.subtrees n.elseBody → m.siteIds = []
  branches : ∀ m ∈ PCFNNode.subtrees n.body, m ∈ PCFNNode.subtrees n.elseBody → m.siteIds = []

theorem apart_of_nodup {n : PCFNNode} (h : n.treeIds.Nodup) : Apart n := by
  have hall : (([n] ++ (PCFNNode.subtrees n.leaves ++
      (PCFNNode.subtrees n.body ++ PCFNNode.subtrees n.elseBody))).flatMap
      PCFNNode.siteIds).Nodup := by
    rw [List.singleton_append, ← PCFNNode.subtree_eq]
    exact h
  have hparts := nodup_right hall
  have hbranches := nodup_right hparts
  exact ⟨nodup_left hparts, nodup_left hbranches, nodup_right hbranches,
    fun hself => siteIds_nil_of_both hall List.mem_cons_self hself,
    fun _ hm hm' => siteIds_nil_of_both hparts hm hm',
    fun _ hm hm' => siteIds_nil_of_both hbranches hm hm'⟩

theorem nodup_before {n : PCFNNode} (h : Apart n) : (PCFNNode.listIds n.before).Nodup := by
  cases hk : n.kind <;>
    simp [PCFNNode.before, hk, PCFNNode.listIds, PCFNNode.subtrees] <;> exact h.leaves

theorem treeIds_nodup_of_mem {ns : List PCFNNode} (h : (PCFNNode.listIds ns).Nodup)
    {c : PCFNNode} (hc : c ∈ ns) : c.treeIds.Nodup := by
  induction ns with
  | nil => simp at hc
  | cons n ns ih =>
    rw [PCFNNode.listIds_cons] at h
    rcases List.mem_cons.mp hc with rfl | hc
    · exact h.sublist (List.sublist_append_left _ _)
    · exact ih (h.sublist (List.sublist_append_right _ _)) hc

/-- Nodes of a list whose trees share a node with an id are one node. -/
theorem eq_of_mem_subtree {ns : List PCFNNode} (h : (PCFNNode.listIds ns).Nodup)
    {c d m : PCFNNode} (hc : c ∈ ns) (hd : d ∈ ns) (hmc : m ∈ c.subtree) (hmd : m ∈ d.subtree)
    (hm : m.siteIds ≠ []) : c = d := by
  obtain ⟨id, hid⟩ := List.exists_mem_of_ne_nil _ hm
  have hflat : ns.flatMap PCFNNode.treeIds = PCFNNode.listIds ns := by
    clear h hc hd
    induction ns with
    | nil => rfl
    | cons n ns ih => rw [List.flatMap_cons, PCFNNode.listIds_cons, ih]
  exact eq_of_id (hflat ▸ h) hc hd (List.mem_flatMap.mpr ⟨m, hmc, hid⟩)
    (List.mem_flatMap.mpr ⟨m, hmd, hid⟩)

/-! ## 3. Normal runs -/

/-- The kinds of loops. -/
def IsLoop (k : CfnKind) : Prop := k.isHeadLoop ∨ k = .repeatUntil

/-- `x` is a `break` that ends the loop around `n`. -/
inductive Breaks : PCFNNode → PCFNNode → Prop
  | here {n} : n.kind = .breakLoop → Breaks n n
  | under {n c x} : ¬ IsLoop n.kind → c ∈ n.body ∨ c ∈ n.elseBody → Breaks c x → Breaks n x

/-- **The run leaves `a` in**: it skips no alternative that holds `a`, and is carried on behind no
`asserterror` that does. -/
def LeavesIn (sel : PCFNNode → Bool → Prop) (a : PCFNNode) : Prop :=
  ∀ n, sel n false → a ∈ n.subtree → n.pathHint ≠ some .mayRun ∧ n.pathHint ≠ some .assertError

/-- **No `repeat` of `root` is ended by a `break` before `a`**, when `a` is in its condition, has
been evaluated. -/
def BreaksLate (root : List PCFNNode) (a : PCFNNode) (t : List PCFNNode) : Prop :=
  ∀ m ∈ PCFNNode.subtrees root, m.kind = .repeatUntil → Item.leaf a ∈ scopesList m.leaves →
    ∀ c ∈ m.body, ∀ x, Breaks c x → ∀ t₁ t₂, t = t₁ ++ x :: t₂ → a ∈ t₁

theorem BreaksLate.left {root : List PCFNNode} {a : PCFNNode} {t₁ t₂ : List PCFNNode}
    (h : BreaksLate root a (t₁ ++ t₂)) : BreaksLate root a t₁ := by
  intro m hm hk ha c hc x hx s₁ s₂ hs
  exact h m hm hk ha c hc x hx s₁ (s₂ ++ t₂) (by rw [hs]; simp)

/-- How a piece of code ends in a `break`. -/
def BrokenBy : Code → List PCFNNode → Prop
  | .node n, t => ∃ t' x, t = t' ++ [x] ∧ Breaks n x
  | .list ns, t => ∃ t' x, t = t' ++ [x] ∧ ∃ c ∈ ns, Breaks c x
  | .body n, t => n.kind = .breakLoop ∧ t = [] ∨ ∃ t' x, t = t' ++ [x] ∧ Breaks n x
  | .round n, t => ∃ t' x, t = t' ++ [x] ∧ ∃ c ∈ n.body, Breaks c x
  | _, _ => False

/-- **A run ends in a `break` with the `break` itself.** -/
theorem exec_broke {c : Code} {t : List PCFNNode} {o : Outcome} (h : Exec sel c t o)
    (ho : o = .broke) : BrokenBy c t := by
  have hleaves : ∀ {o : Outcome}, o.leaves → o ≠ .broke := by
    rintro o (rfl | rfl | rfl) <;> simp
  induction h with
  | fail | nil | leavesNil | leaf | exit | error | continueLoop | noBranch | loopStop | caught
  | tailBreak | loopBreak => cases ho
  | nodeStop _ hl | leavesStop _ hl | tailStop _ _ hl | loopLeave _ hl =>
    exact absurd ho (hleaves hl)
  | @node n t₁ t₂ o _ _ _ ih =>
    rcases ih ho with ⟨hk, rfl⟩ | ⟨t', x, rfl, hx⟩
    · exact ⟨t₁, n, rfl, .here hk⟩
    · exact ⟨t₁ ++ n :: t', x, by simp, hx⟩
  | @cons n ns t₁ t₂ o _ _ _ ih =>
    obtain ⟨t', x, rfl, c, hc, hx⟩ := ih ho
    exact ⟨t₁ ++ t', x, by simp, c, List.mem_cons_of_mem _ hc, hx⟩
  | @stop n ns t o _ _ ih =>
    obtain ⟨t', x, ht, hx⟩ := ih ho
    exact ⟨t', x, ht, n, List.mem_cons_self, hx⟩
  | leavesCons _ _ _ ih | leavesSkip _ _ _ ih | loopRound _ _ _ ih => exact (ih ho).elim
  | headLoop _ _ ih | tailLoop _ _ _ _ ih => exact (ih ho).elim
  | breakLoop hk => exact Or.inl ⟨hk, rfl⟩
  | @sequence n t o hk _ ih =>
    obtain ⟨t', x, ht, c, hc, hx⟩ := ih ho
    refine Or.inr ⟨t', x, ht, .under ?_ (Or.inl hc) hx⟩
    rcases hk with hk | hk | hk | hk <;> simp [IsLoop, CfnKind.isHeadLoop, hk]
  | @thenBranch n t o hk _ _ ih =>
    obtain ⟨t', x, ht, c, hc, hx⟩ := ih ho
    exact Or.inr ⟨t', x, ht, .under (by simp [IsLoop, CfnKind.isHeadLoop, hk]) (Or.inl hc) hx⟩
  | @elseBranch n t o hk _ _ ih =>
    obtain ⟨t', x, ht, c, hc, hx⟩ := ih ho
    exact Or.inr ⟨t', x, ht, .under (by simp [IsLoop, CfnKind.isHeadLoop, hk]) (Or.inr hc) hx⟩
  | @branch n b t o hk _ hb _ ih =>
    obtain ⟨t', x, ht, hx⟩ := ih ho
    exact Or.inr ⟨t', x, ht, .under (by simp [IsLoop, CfnKind.isHeadLoop, hk]) (Or.inl hb) hx⟩
  | @round n t₁ t₂ o₁ o _ _ _ _ ih => exact (ih ho).elim
  | @roundStop n t o _ _ ih => exact ih ho

/-- What was evaluated before a piece of code was entered. -/
def past : Code → List PCFNNode
  | .body n | .round n => n.before
  | .loop n => n.leaves
  | _ => []

/-- A piece of code within a node is run when the node has been executed; a round is that of a
loop. -/
def Entered (u : List PCFNNode) : Code → Prop
  | .body n => n ∈ u
  | .round n | .loop n => n ∈ u ∧ IsLoop n.kind
  | _ => True

theorem scopesList_singleton (n : PCFNNode) : scopesList [n] = scopes n := by
  simp [scopesList]

/-- The body of a loop, as its frame holds it. -/
def loopItems (n : PCFNNode) : List (Item PCFNNode Scope) :=
  if n.kind = .repeatUntil then scopesList n.body else scopesHead n.body

theorem scopes_loop {n : PCFNNode} (hk : IsLoop n.kind) :
    scopes n = scopesList n.leaves ++ [.frame loopScope (loopItems n)] := by
  rcases hk with hk | hk
  · rw [scopes_headLoop hk, loopItems, if_neg]
    rcases hk with hk | hk | hk <;> simp [hk]
  · rw [scopes_repeat hk, loopItems, if_pos hk]

/-- A leaf of the list of a loop's scopes is one of its condition. -/
theorem leaf_of_loop {n : PCFNNode} (hk : IsLoop n.kind) {a : PCFNNode}
    (ha : Item.leaf a ∈ scopes n) : Item.leaf a ∈ scopesList n.leaves := by
  rw [scopes_loop hk] at ha
  rcases List.mem_append.mp ha with ha | ha
  · exact ha
  · simp at ha

theorem before_of_headLoop {n : PCFNNode} (hk : n.kind.isHeadLoop) : n.before = n.leaves := by
  rcases hk with hk | hk | hk <;> simp [PCFNNode.before, hk]

theorem leaf_not_mem_arm {ns : List PCFNNode} {kind : String} {a : PCFNNode} :
    Item.leaf a ∉ scopesArmHead ns kind := by
  cases ns <;> simp [scopesArmHead]

theorem leaf_not_mem_branches {ns : List PCFNNode} {a : PCFNNode} :
    Item.leaf a ∉ scopesBranches ns := by
  rw [scopesBranches_eq]
  simp

/-- A leaf among a node's scopes is in its tree. -/
theorem mem_subtree_of_leaf {n a : PCFNNode} (h : Item.leaf a ∈ scopes n) : a ∈ n.subtree :=
  (leaves_scopes n).subset (mem_leaves_of_mem h List.mem_cons_self)

/-- **Where a run ends normally it has executed every leaf of its list**, or they were executed
before it. -/
theorem exec_direct {a : PCFNNode} (hsel : LeavesIn sel a) {root : List PCFNNode} {c : Code}
    {t : List PCFNNode} {o : Outcome} (h : Exec sel c t o) :
    ∀ {u : List PCFNNode}, o = .normal → PCFNNode.subtrees (codeNodes c) ⊆ PCFNNode.subtrees root →
      BreaksLate root a (u ++ t) → Entered u c → Item.leaf a ∈ scopesList (codeNodes c) →
      a ∈ u ++ t ∨ Item.leaf a ∈ scopesList (past c) := by
  have hstop : ∀ {o : Outcome}, o.leaves → o ≠ .normal := by
    rintro o (rfl | rfl | rfl) <;> simp
  induction h with
  | fail | exit | error | breakLoop | continueLoop =>
    intro u ho
    cases ho
  | nodeStop _ hl | leavesStop _ hl | tailStop _ _ hl =>
    intro u ho
    exact absurd ho (hstop hl)
  | stop _ hne =>
    intro u ho
    exact absurd ho hne
  | roundStop _ hne =>
    intro u ho
    exact absurd (Or.inl ho) hne
  | @leavesSkip n ns t o hhint hskip _ ih =>
    intro u ho hroot hlate _ ha
    rw [codeNodes, scopesList] at ha
    rcases List.mem_append.mp ha with ha | ha
    · exact absurd hhint (hsel n hskip (mem_subtree_of_leaf ha)).1
    · exact ih ho (fun m hm => hroot (List.mem_append_right _ hm)) hlate trivial ha
  | @caught n t o _ hhint hskip =>
    intro u _ _ _ _ ha
    rw [codeNodes, scopesList_singleton] at ha
    exact absurd hhint (hsel n hskip (mem_subtree_of_leaf ha)).2
  | nil | leavesNil =>
    intro u _ _ _ _ ha
    exact absurd ha List.not_mem_nil
  | @node n t₁ t₂ o _ _ ih₁ ih₂ =>
    intro u ho hroot hlate _ ha
    have hsub : PCFNNode.subtrees n.before ⊆ PCFNNode.subtrees root := by
      intro m hm
      refine hroot ?_
      rw [codeNodes, subtrees_singleton]
      exact subtrees_leaves n (before_subset n hm)
    have hlate' : BreaksLate root a (u ++ t₁) := by
      rw [← List.append_assoc] at hlate
      exact hlate.left
    have hlate₂ : BreaksLate root a ((u ++ t₁ ++ [n]) ++ t₂) := by
      simpa using hlate
    rcases ih₂ ho hroot hlate₂ (by simp [Entered]) ha with hmem | hpast
    · exact Or.inl (by simpa using hmem)
    · rcases ih₁ rfl hsub hlate' trivial hpast with hmem | hnil
      · left
        rw [← List.append_assoc]
        exact List.mem_append_left _ hmem
      · exact absurd hnil List.not_mem_nil
  | @cons n ns t₁ t₂ o _ _ ih₁ ih₂ | @leavesCons n ns t₁ t₂ o _ _ ih₁ ih₂ =>
    intro u ho hroot hlate _ ha
    rw [← List.append_assoc] at hlate ⊢
    rw [codeNodes, scopesList] at ha
    rcases List.mem_append.mp ha with ha | ha
    · have hsub : PCFNNode.subtrees [n] ⊆ PCFNNode.subtrees root := by
        rw [subtrees_singleton]
        exact fun m hm => hroot (PCFNNode.mem_subtrees List.mem_cons_self hm)
      have ha' : Item.leaf a ∈ scopesList [n] := by rw [scopesList_singleton]; exact ha
      rcases ih₁ rfl hsub hlate.left trivial ha' with hmem | hnil
      · exact Or.inl (List.mem_append_left _ hmem)
      · exact absurd hnil List.not_mem_nil
    · have hsub : PCFNNode.subtrees ns ⊆ PCFNNode.subtrees root :=
        fun m hm => hroot (List.mem_append_right _ hm)
      exact ih₂ ho hsub hlate trivial ha
  | @leaf n hk =>
    intro u _ _ _ hent ha
    rw [codeNodes, scopesList_singleton, scopes_leaf (hk.imp_right Or.inl)] at ha
    rcases List.mem_append.mp ha with ha | ha
    · right
      rcases hk with hk | hk <;> simpa [past, PCFNNode.before, hk] using ha
    · obtain rfl := Item.leaf.inj (List.mem_singleton.mp ha)
      exact Or.inl (List.mem_append_left _ hent)
  | @sequence n t o hk _ ih =>
    intro u ho hroot hlate _ ha
    rw [codeNodes, subtrees_singleton] at hroot
    have hsub : PCFNNode.subtrees n.body ⊆ PCFNNode.subtrees root :=
      fun m hm => hroot (subtrees_body n hm)
    have hbody : Item.leaf a ∈ scopesList n.body → a ∈ u ++ t ∨
        Item.leaf a ∈ scopesList (past (.body n)) := by
      intro ha
      rcases ih ho hsub hlate trivial ha with hmem | hnil
      · exact Or.inl hmem
      · exact absurd hnil List.not_mem_nil
    rw [codeNodes, scopesList_singleton] at ha
    rcases hk with hk | hk | hk | hk
    · rw [scopes_block (Or.inl hk)] at ha
      exact hbody ha
    · rw [scopes_block (Or.inr hk)] at ha
      exact hbody ha
    · rw [scopes_try hk] at ha
      simp at ha
    · rw [scopes_other (Or.inl hk)] at ha
      rcases List.mem_append.mp ha with ha | ha
      · exact Or.inr (by simpa [past, PCFNNode.before, hk] using ha)
      · exact hbody ha
  | @thenBranch n t o hk | @elseBranch n t o hk =>
    intro u _ _ _ _ ha
    rw [codeNodes, scopesList_singleton, scopes_if hk] at ha
    rcases List.mem_append.mp ha with ha | ha
    · exact Or.inr (by simpa [past, PCFNNode.before, hk] using ha)
    · rcases List.mem_append.mp ha with ha | ha <;> exact absurd ha leaf_not_mem_arm
  | @branch n b t o hk | @noBranch n hk =>
    intro u _ _ _ _ ha
    rw [codeNodes, scopesList_singleton, scopes_case hk] at ha
    rcases List.mem_append.mp ha with ha | ha
    · exact Or.inr (by simpa [past, PCFNNode.before, hk] using ha)
    · exact absurd ha leaf_not_mem_branches
  | @headLoop n t o hk =>
    intro u _ _ _ _ ha
    rw [codeNodes, scopesList_singleton] at ha
    right
    rw [past, before_of_headLoop hk]
    exact leaf_of_loop (Or.inl hk) ha
  | loopStop | loopRound | loopBreak | loopLeave =>
    intro u _ _ _ hent ha
    rw [codeNodes, scopesList_singleton] at ha
    exact Or.inr (leaf_of_loop hent.2 ha)
  | @tailLoop n t₁ t₂ o hk _ _ ih₁ _ =>
    intro u _ hroot hlate hent ha
    rw [← List.append_assoc] at hlate ⊢
    rcases ih₁ rfl hroot hlate.left ⟨hent, Or.inr hk⟩ ha with hmem | hpast
    · exact Or.inl (List.mem_append_left _ hmem)
    · exact Or.inr hpast
  | @tailBreak n t hk hround _ =>
    -- the `break` is late, so the condition has been evaluated
    intro u _ hroot hlate _ ha
    rw [codeNodes, scopesList_singleton] at ha
    rw [codeNodes, subtrees_singleton] at hroot
    obtain ⟨t', x, rfl, c, hc, hx⟩ := exec_broke hround rfl
    rw [← List.append_assoc] at hlate ⊢
    exact Or.inl (List.mem_append_left _ (hlate n (hroot n.mem_subtree_self) hk
      (leaf_of_loop (Or.inr hk) ha) c hc x hx (u ++ t') [] rfl))
  | @round n t₁ t₂ o₁ o _ _ _ _ ih₂ =>
    intro u ho hroot hlate hent ha
    rw [codeNodes, scopesList_singleton] at ha
    rw [codeNodes, subtrees_singleton] at hroot
    have hcond := leaf_of_loop hent.2 ha
    rcases hent.2 with hk | hk
    · right
      rw [past, before_of_headLoop hk]
      exact hcond
    · have hagain : n.again = n.leaves := by simp [PCFNNode.again, hk]
      rw [hagain] at ih₂
      have hsub : PCFNNode.subtrees n.leaves ⊆ PCFNNode.subtrees root :=
        fun m hm => hroot (subtrees_leaves n hm)
      rw [← List.append_assoc] at hlate ⊢
      rcases ih₂ ho hsub hlate trivial hcond with hmem | hnil
      · exact Or.inl hmem
      · exact absurd hnil List.not_mem_nil

/-! ## 4. What is executed before a leaf -/

/-- A scope that is no loop body: what is numbered before it is executed before it. -/
def InOrder (s : Scope) : Prop := s.kind ≠ "loop"

/-- Where an element of two lists in a row stands. -/
theorem split_append {α : Type*} {x y s₁ s₂ : List α} {b : α} (h : x ++ y = s₁ ++ b :: s₂) :
    (∃ r, x = s₁ ++ b :: r) ∨ ∃ r, s₁ = x ++ r ∧ y = r ++ b :: s₂ := by
  rcases List.append_eq_append_iff.mp h with ⟨r, hs, hy⟩ | ⟨r, hx, hr⟩
  · exact Or.inr ⟨r, hs, hy⟩
  · cases r with
    | nil =>
      rw [List.append_nil] at hx
      exact Or.inr ⟨[], by rw [hx, List.append_nil], hr.symm⟩
    | cons b' r =>
      obtain ⟨rfl, -⟩ := List.cons.inj hr
      exact Or.inl ⟨r, hx⟩

theorem scopesHead_sublist (ns : List PCFNNode) : (scopesHead ns).Sublist (scopesList ns) := by
  cases ns with
  | nil => exact List.Sublist.refl _
  | cons n ns => exact List.sublist_append_left _ _

theorem loopItems_sublist (n : PCFNNode) : (loopItems n).Sublist (scopesList n.body) := by
  unfold loopItems
  split
  · exact List.Sublist.refl _
  · exact scopesHead_sublist _

theorem earlier_arm {ns : List PCFNNode} {kind : String} {a b : PCFNNode}
    (h : Earlier InOrder (scopesArmHead ns kind) a b) : Earlier InOrder (scopesList ns) a b := by
  cases ns with
  | nil => exact absurd h not_earlier_nil
  | cons n ns => exact (Earlier.frame h).mono (List.sublist_append_left _ _)

theorem earlier_branches {ns : List PCFNNode} {a b : PCFNNode}
    (h : Earlier InOrder (scopesBranches ns) a b) :
    ∃ c ∈ ns, Earlier InOrder (scopesList c.body) a b := by
  cases h with
  | here hsub _ _ =>
    exact absurd (hsub.subset List.mem_cons_self) leaf_not_mem_branches
  | under hmem h =>
    rw [scopesBranches_eq] at hmem
    obtain ⟨c, hc, heq⟩ := List.mem_map.mp hmem
    obtain ⟨-, rfl⟩ := Item.frame.inj heq
    exact ⟨c, hc, h⟩

/-- A leaf of a loop's body has before it what stands before it in the body. -/
theorem earlier_loop {n : PCFNNode} (hk : IsLoop n.kind) (hapart : Apart n) {a b : PCFNNode}
    (hb : b.siteIds ≠ []) (hmem : b ∈ PCFNNode.subtrees n.body)
    (h : Earlier InOrder (scopes n) a b) : Earlier InOrder (scopesList n.body) a b := by
  have hnot : b ∉ leaves (scopesList n.leaves) := fun hleaf => hb (hapart.behind b
    ((leaves_scopesList _).subset hleaf) (List.mem_append_left _ hmem))
  rw [scopes_loop hk] at h
  rcases h.right hnot with h | ⟨-, y, hy, hpass⟩
  · exact h.frame.mono (loopItems_sublist n)
  · exact absurd rfl (hpass loopScope _ (List.mem_singleton.mp hy))

/-- The nodes with a leaf of their own. -/
def IsOwnLeaf (k : CfnKind) : Prop := k = .op ∨ k = .call ∨ k = .error ∨ k = .exit

/-- Every leaf is a node of its kind. -/
def OwnLeaves (xs : List (Item PCFNNode Scope)) : Prop := ∀ x ∈ leaves xs, IsOwnLeaf x.kind

theorem OwnLeaves.append {xs ys : List (Item PCFNNode Scope)} (hx : OwnLeaves xs)
    (hy : OwnLeaves ys) : OwnLeaves (xs ++ ys) := by
  intro x h
  rw [leaves_append] at h
  exact (List.mem_append.mp h).elim (hx x) (hy x)

theorem OwnLeaves.frame {xs : List (Item PCFNNode Scope)} {s : Scope} (hx : OwnLeaves xs) :
    OwnLeaves [.frame s xs] := by
  intro x h
  simp only [leaves, Item.leaves, List.append_nil] at h
  exact hx x h

theorem ownLeaves_nil : OwnLeaves [] := by simp [OwnLeaves, leaves]

theorem ownLeaves_leaf {n : PCFNNode} (hk : IsOwnLeaf n.kind) : OwnLeaves [.leaf n] := by
  intro x h
  simp only [leaves, Item.leaves, List.append_nil, List.mem_singleton] at h
  exact h ▸ hk

mutual

/-- **The leaves of scopes are operations, calls, errors and exits.** -/
theorem ownLeaves_scopes : ∀ n : PCFNNode, OwnLeaves (scopes n)
  | ⟨k, op, cs, g, leaves, children, elseChildren, els, range, hint⟩ => by
    cases k with
    | block | caseBranch => exact ownLeaves_opt children
    | ifThen =>
      exact (ownLeaves_opt leaves).append ((ownLeaves_arm children _).append (ownLeaves_arm elseChildren _))
    | case => exact (ownLeaves_opt leaves).append (ownLeaves_branchesOpt children)
    | whileDo | forTo | foreach => exact (ownLeaves_opt leaves).append (ownLeaves_first children).frame
    | repeatUntil => exact (ownLeaves_opt leaves).append (ownLeaves_opt children).frame
    | tryBlock => exact (ownLeaves_opt children).frame
    | op | call | error | exit =>
      exact (ownLeaves_opt leaves).append (ownLeaves_leaf (by simp [IsOwnLeaf]))
    | breakLoop | continueLoop | other => exact (ownLeaves_opt leaves).append (ownLeaves_opt children)

theorem ownLeaves_opt : ∀ ns : Option (List PCFNNode), OwnLeaves (scopesOpt ns)
  | none => ownLeaves_nil
  | some ns => ownLeaves_list ns

theorem ownLeaves_list : ∀ ns : List PCFNNode, OwnLeaves (scopesList ns)
  | [] => ownLeaves_nil
  | n :: ns => (ownLeaves_scopes n).append (ownLeaves_list ns)

theorem ownLeaves_first : ∀ ns : Option (List PCFNNode), OwnLeaves (scopesFirst ns)
  | none => ownLeaves_nil
  | some ns => ownLeaves_head ns

theorem ownLeaves_head : ∀ ns : List PCFNNode, OwnLeaves (scopesHead ns)
  | [] => ownLeaves_nil
  | n :: _ => ownLeaves_scopes n

theorem ownLeaves_arm : ∀ (ns : Option (List PCFNNode)) (kind : String),
    OwnLeaves (scopesArm ns kind)
  | none, _ => ownLeaves_nil
  | some ns, kind => ownLeaves_armHead ns kind

theorem ownLeaves_armHead : ∀ (ns : List PCFNNode) (kind : String),
    OwnLeaves (scopesArmHead ns kind)
  | [], _ => ownLeaves_nil
  | n :: _, _ => (ownLeaves_scopes n).frame

theorem ownLeaves_branchesOpt : ∀ ns : Option (List PCFNNode), OwnLeaves (scopesBranchesOpt ns)
  | none => ownLeaves_nil
  | some ns => ownLeaves_branches ns

theorem ownLeaves_branches : ∀ ns : List PCFNNode, OwnLeaves (scopesBranches ns)
  | [] => ownLeaves_nil
  | ⟨_, _, _, _, _, children, _, _, _, _⟩ :: ns =>
    (ownLeaves_opt children).frame.append (ownLeaves_branches ns)

end

/-- The scopes of a node's condition. -/
def condItems (n : PCFNNode) : List (Item PCFNNode Scope) :=
  match n.kind with
  | .block | .caseBranch | .tryBlock => []
  | _ => scopesList n.leaves

/-- What comes behind a node's condition. -/
def behindItems (n : PCFNNode) : List (Item PCFNNode Scope) :=
  match n.kind with
  | .block | .caseBranch | .breakLoop | .continueLoop | .other => scopesList n.body
  | .ifThen => scopesArmHead n.body "if-then" ++ scopesArmHead n.elseBody "if-else"
  | .case => scopesBranches n.body
  | .whileDo | .forTo | .foreach | .repeatUntil => [.frame loopScope (loopItems n)]
  | .tryBlock => [.frame tryScope (scopesList n.body)]
  | .op | .call | .error | .exit => [.leaf n]

theorem scopes_eq (n : PCFNNode) : scopes n = condItems n ++ behindItems n := by
  unfold condItems behindItems
  cases hk : n.kind with
  | block => exact scopes_block (Or.inl hk)
  | caseBranch => exact scopes_block (Or.inr hk)
  | tryBlock => exact scopes_try hk
  | ifThen => exact scopes_if hk
  | case => exact scopes_case hk
  | whileDo | forTo | foreach | repeatUntil =>
    exact scopes_loop (by simp [IsLoop, CfnKind.isHeadLoop, hk])
  | op | call | error | exit => exact scopes_leaf (by simp [hk])
  | breakLoop | continueLoop | other => exact scopes_other (by simp [hk])

theorem leaves_condItems (n : PCFNNode) : leaves (condItems n) ⊆ PCFNNode.subtrees n.leaves := by
  unfold condItems
  split
  · exact List.nil_subset _
  · exact List.nil_subset _
  · exact List.nil_subset _
  · exact (leaves_scopesList _).subset

theorem leaves_loopItems (n : PCFNNode) : leaves (loopItems n) ⊆ PCFNNode.subtrees n.body := by
  unfold loopItems
  split
  · exact (leaves_scopesList _).subset
  · exact (leaves_scopesHead _).subset

theorem leaves_behindItems {n : PCFNNode} (hk : ¬ IsOwnLeaf n.kind) :
    leaves (behindItems n) ⊆ PCFNNode.subtrees n.body ++ PCFNNode.subtrees n.elseBody := by
  have hbody : ∀ {l : List PCFNNode}, l ⊆ PCFNNode.subtrees n.body →
      l ⊆ PCFNNode.subtrees n.body ++ PCFNNode.subtrees n.elseBody :=
    fun h => List.Subset.trans h (List.subset_append_left _ _)
  unfold behindItems
  cases hkind : n.kind with
  | op | call | error | exit => exact absurd (by simp [IsOwnLeaf, hkind]) hk
  | block | caseBranch | breakLoop | continueLoop | other =>
    exact hbody (leaves_scopesList _).subset
  | ifThen =>
    rw [leaves_append]
    exact ((leaves_scopesArmHead n.body "if-then").append
      (leaves_scopesArmHead n.elseBody "if-else")).subset
  | case => exact hbody (leaves_scopesBranches _).subset
  | whileDo | forTo | foreach | repeatUntil =>
    simp only [leaves, Item.leaves, List.append_nil]
    exact hbody (leaves_loopItems n)
  | tryBlock =>
    simp only [leaves, Item.leaves, List.append_nil]
    exact hbody (leaves_scopesList _).subset

theorem behindItems_own {n : PCFNNode} (hk : IsOwnLeaf n.kind) : behindItems n = [.leaf n] := by
  rcases hk with hk | hk | hk | hk <;> simp [behindItems, hk]

theorem before_eq (n : PCFNNode) : n.before = [] ∨ n.before = n.leaves := by
  cases hk : n.kind <;> simp [PCFNNode.before, hk]

/-- A leaf of a node's condition has before it what stands before it in the condition. -/
theorem earlier_cond {n : PCFNNode} (hapart : Apart n) {a b : PCFNNode} (hb : b.siteIds ≠ [])
    (hmem : b ∈ PCFNNode.subtrees n.leaves) (h : Earlier InOrder (scopes n) a b) :
    Earlier InOrder (scopesList n.leaves) a b := by
  have hnot : b ∉ leaves (behindItems n) := by
    intro hleaf
    by_cases hk : IsOwnLeaf n.kind
    · rw [behindItems_own hk] at hleaf
      obtain rfl : b = n := by simpa [leaves, Item.leaves] using hleaf
      exact hb (hapart.self (List.mem_append_left _ hmem))
    · exact hb (hapart.behind b hmem (leaves_behindItems hk hleaf))
  rw [scopes_eq] at h
  have hcond := h.left hnot
  unfold condItems at hcond
  split at hcond
  · exact absurd hcond not_earlier_nil
  · exact absurd hcond not_earlier_nil
  · exact absurd hcond not_earlier_nil
  · exact hcond

/-- A node that is a leaf itself has its condition before it. -/
theorem earlier_self {n : PCFNNode} (hapart : Apart n) {a : PCFNNode} (hn : n.siteIds ≠ [])
    (h : Earlier InOrder (scopes n) a n) : Item.leaf a ∈ scopesList n.before := by
  have hcond : n ∉ leaves (condItems n) :=
    fun hleaf => hn (hapart.self (List.mem_append_left _ (leaves_condItems n hleaf)))
  rw [scopes_eq] at h
  by_cases hk : IsOwnLeaf n.kind
  · rw [behindItems_own hk] at h
    rcases h.right hcond with h | ⟨hmem, -⟩
    · cases h with
      | here hsub _ _ =>
        have := hsub.length_le
        simp at this
      | under hmem _ => simp at hmem
    · rcases hk with hk | hk | hk | hk <;> simpa [condItems, PCFNNode.before, hk] using hmem
  · have hleaf := h.mem_leaves
    rw [leaves_append] at hleaf
    rcases List.mem_append.mp hleaf with hleaf | hleaf
    · exact absurd hleaf hcond
    · exact absurd (hapart.self (List.mem_append_right _ (leaves_behindItems hk hleaf))) hn

/-- What stands before a leaf of a list behind a node. -/
theorem earlier_tail {n : PCFNNode} {ns : List PCFNNode}
    (hids : (PCFNNode.listIds (n :: ns)).Nodup) {a b : PCFNNode} (hb : b.siteIds ≠ [])
    (hmem : b ∈ PCFNNode.subtrees ns) (h : Earlier InOrder (scopesList (n :: ns)) a b) :
    Earlier InOrder (scopesList ns) a b ∨ Item.leaf a ∈ scopes n := by
  have hnot : b ∉ leaves (scopes n) := fun hleaf =>
    hb (siteIds_nil_of_both hids ((leaves_scopes n).subset hleaf) hmem)
  exact (Earlier.right h hnot).imp_right And.left

/-- What stands before a leaf of the first node of a list. -/
theorem earlier_head {n : PCFNNode} {ns : List PCFNNode}
    (hids : (PCFNNode.listIds (n :: ns)).Nodup) {a b : PCFNNode} (hb : b.siteIds ≠ [])
    (hmem : b ∈ n.subtree) (h : Earlier InOrder (scopesList (n :: ns)) a b) :
    Earlier InOrder (scopesList [n]) a b := by
  rw [scopesList_singleton]
  exact Earlier.left h fun hleaf =>
    hb (siteIds_nil_of_both hids hmem ((leaves_scopesList ns).subset hleaf))

theorem before_leaves {n : PCFNNode} {a : PCFNNode} (h : Item.leaf a ∈ scopesList n.before) :
    Item.leaf a ∈ scopesList n.leaves := by
  rcases before_eq n with hnil | hleaves
  · rw [hnil] at h
    exact absurd h List.not_mem_nil
  · exact hleaves ▸ h

theorem mem_mid {α : Type*} (s₁ s₂ : List α) (b : α) : b ∈ s₁ ++ b :: s₂ :=
  List.mem_append_right _ List.mem_cons_self

/-- **Before a leaf a run has executed every leaf that stands before it in its frame**, or they were
executed before the run. -/
theorem exec_earlier {a : PCFNNode} (hsel : LeavesIn sel a) {root : List PCFNNode} {c : Code}
    {t : List PCFNNode} {o : Outcome} (h : Exec sel c t o) :
    ∀ {u : List PCFNNode}, PCFNNode.subtrees (codeNodes c) ⊆ PCFNNode.subtrees root →
      (PCFNNode.listIds (codeNodes c)).Nodup → BreaksLate root a (u ++ t) → Entered u c →
      ∀ {b s₁ s₂}, b.siteIds ≠ [] → Earlier InOrder (scopesList (codeNodes c)) a b →
      t = s₁ ++ b :: s₂ → a ∈ u ++ s₁ ∨ Item.leaf a ∈ scopesList (past c) := by
  induction h with
  | fail | nil | leavesNil | leaf | exit | error | breakLoop | continueLoop | noBranch | loopStop =>
    intro u _ _ _ _ b s₁ s₂ _ _ ht
    simp at ht
  | @leavesSkip n ns t o hhint hskip hns ih =>
    intro u hroot hids hlate _ b s₁ s₂ hb hab ht
    rw [codeNodes] at hids hab hroot
    have hmem : b ∈ PCFNNode.subtrees ns := exec_nodes hns (ht ▸ mem_mid s₁ s₂ b)
    rcases earlier_tail hids hb hmem hab with hab | ha
    · have hids' : (PCFNNode.listIds ns).Nodup := by
        rw [PCFNNode.listIds_cons] at hids
        exact hids.sublist (List.sublist_append_right _ _)
      exact ih (fun m hm => hroot (List.mem_append_right _ hm)) hids' hlate trivial hb hab ht
    · exact absurd hhint (hsel n hskip (mem_subtree_of_leaf ha)).1
  | caught _ _ _ _ _ ih => exact ih
  | @node n t₁ t₂ o hbefore hbody ih₁ ih₂ =>
    intro u hroot hids hlate _ b s₁ s₂ hb hab ht
    rw [codeNodes, subtrees_singleton] at hroot
    rw [codeNodes, PCFNNode.listIds, subtrees_singleton] at hids
    rw [codeNodes, scopesList_singleton] at hab
    have hapart := apart_of_nodup hids
    have hsub : PCFNNode.subtrees n.before ⊆ PCFNNode.subtrees root :=
      fun m hm => hroot (subtrees_leaves n (before_subset n hm))
    have hlate₁ : BreaksLate root a (u ++ t₁) := by
      rw [← List.append_assoc] at hlate
      exact hlate.left
    -- the condition has been evaluated when the body is run
    have hpast : Item.leaf a ∈ scopesList n.before → a ∈ u ++ t₁ := by
      intro ha
      rcases exec_direct hsel hbefore rfl hsub hlate₁ trivial ha with hmem | hnil
      · exact hmem
      · exact absurd hnil List.not_mem_nil
    rcases split_append ht with ⟨r, hr⟩ | ⟨r, rfl, hr⟩
    · have hmem : b ∈ PCFNNode.subtrees n.before := exec_nodes hbefore (hr ▸ mem_mid s₁ r b)
      rcases before_eq n with hnil | hleaves
      · rw [hnil] at hmem
        exact absurd hmem List.not_mem_nil
      · have hcond := earlier_cond hapart hb (before_subset n hmem) hab
        rw [← hleaves] at hcond
        exact ih₁ hsub (nodup_before hapart) hlate₁ trivial hb hcond hr
    · left
      rw [← List.append_assoc]
      cases r with
      | nil =>
        obtain ⟨rfl, -⟩ := List.cons.inj hr
        rw [List.append_nil]
        exact hpast (earlier_self hapart hb hab)
      | cons x r =>
        obtain ⟨rfl, htail⟩ := List.cons.inj hr
        have hroot' : PCFNNode.subtrees (codeNodes (.body n)) ⊆ PCFNNode.subtrees root := by
          rw [codeNodes, subtrees_singleton]
          exact hroot
        have hids' : (PCFNNode.listIds (codeNodes (.body n))).Nodup := by
          rw [codeNodes, PCFNNode.listIds, subtrees_singleton]
          exact hids
        have hlate₂ : BreaksLate root a ((u ++ t₁ ++ [n]) ++ t₂) := by
          simpa using hlate
        have hab' : Earlier InOrder (scopesList (codeNodes (.body n))) a b := by
          rw [codeNodes, scopesList_singleton]
          exact hab
        rcases ih₂ hroot' hids' hlate₂ (by simp [Entered]) hb hab' htail with hmem | ha
        · simpa using hmem
        · exact List.mem_append_left _ (hpast ha)
  | @nodeStop n t o hbefore _ ih =>
    intro u hroot hids hlate _ b s₁ s₂ hb hab ht
    rw [codeNodes, subtrees_singleton] at hroot
    rw [codeNodes, PCFNNode.listIds, subtrees_singleton] at hids
    rw [codeNodes, scopesList_singleton] at hab
    have hapart := apart_of_nodup hids
    have hmem : b ∈ PCFNNode.subtrees n.before := exec_nodes hbefore (ht ▸ mem_mid s₁ s₂ b)
    rcases before_eq n with hnil | hleaves
    · rw [hnil] at hmem
      exact absurd hmem List.not_mem_nil
    · have hcond := earlier_cond hapart hb (before_subset n hmem) hab
      rw [← hleaves] at hcond
      exact ih (fun m hm => hroot (subtrees_leaves n (before_subset n hm))) (nodup_before hapart)
        hlate trivial hb hcond ht
  | @cons n ns t₁ t₂ o hn hns ih₁ ih₂ | @leavesCons n ns t₁ t₂ o hn hns ih₁ ih₂ =>
    intro u hroot hids hlate _ b s₁ s₂ hb hab ht
    rw [codeNodes] at hids hab hroot
    rw [← List.append_assoc] at hlate
    have hsub : PCFNNode.subtrees [n] ⊆ PCFNNode.subtrees root := by
      rw [subtrees_singleton]
      exact fun m hm => hroot (PCFNNode.mem_subtrees List.mem_cons_self hm)
    rcases split_append ht with ⟨r, hr⟩ | ⟨r, rfl, hr⟩
    · have hmem : b ∈ n.subtree := by
        rw [← subtrees_singleton]
        exact exec_nodes hn (hr ▸ mem_mid s₁ r b)
      have hids' : (PCFNNode.listIds [n]).Nodup := by
        rw [PCFNNode.listIds, subtrees_singleton]
        exact treeIds_nodup_of_mem hids List.mem_cons_self
      exact ih₁ hsub hids' hlate.left trivial hb (earlier_head hids hb hmem hab) hr
    · have hmem : b ∈ PCFNNode.subtrees ns := exec_nodes hns (hr ▸ mem_mid r s₂ b)
      left
      rw [← List.append_assoc]
      rcases earlier_tail hids hb hmem hab with hab | ha
      · have hids' : (PCFNNode.listIds ns).Nodup := by
          rw [PCFNNode.listIds_cons] at hids
          exact hids.sublist (List.sublist_append_right _ _)
        rcases ih₂ (fun m hm => hroot (List.mem_append_right _ hm)) hids' hlate trivial hb hab hr
          with hmem | hnil
        · exact hmem
        · exact absurd hnil List.not_mem_nil
      · have ha' : Item.leaf a ∈ scopesList [n] := by rw [scopesList_singleton]; exact ha
        rcases exec_direct hsel hn rfl hsub hlate.left trivial ha' with hmem | hnil
        · exact List.mem_append_left _ hmem
        · exact absurd hnil List.not_mem_nil
  | @stop n ns t o hn _ ih | @leavesStop n ns t o hn _ ih =>
    intro u hroot hids hlate _ b s₁ s₂ hb hab ht
    rw [codeNodes] at hids hab hroot
    have hmem : b ∈ n.subtree := by
      rw [← subtrees_singleton]
      exact exec_nodes hn (ht ▸ mem_mid s₁ s₂ b)
    have hids' : (PCFNNode.listIds [n]).Nodup := by
      rw [PCFNNode.listIds, subtrees_singleton]
      exact treeIds_nodup_of_mem hids List.mem_cons_self
    have hsub : PCFNNode.subtrees [n] ⊆ PCFNNode.subtrees root := by
      rw [subtrees_singleton]
      exact fun m hm => hroot (PCFNNode.mem_subtrees List.mem_cons_self hm)
    exact ih hsub hids' hlate trivial hb (earlier_head hids hb hmem hab) ht
  | @sequence n t o hk hrun ih =>
    intro u hroot hids hlate _ b s₁ s₂ hb hab ht
    rw [codeNodes, subtrees_singleton] at hroot
    rw [codeNodes, PCFNNode.listIds, subtrees_singleton] at hids
    rw [codeNodes, scopesList_singleton] at hab
    have hapart := apart_of_nodup hids
    have hmem : b ∈ PCFNNode.subtrees n.body := exec_nodes hrun (ht ▸ mem_mid s₁ s₂ b)
    have hbody : Earlier InOrder (scopesList n.body) a b →
        a ∈ u ++ s₁ ∨ Item.leaf a ∈ scopesList (past (.body n)) := by
      intro hab
      rcases ih (fun m hm => hroot (subtrees_body n hm)) hapart.body hlate trivial hb hab ht with
        hmem | hnil
      · exact Or.inl hmem
      · exact absurd hnil List.not_mem_nil
    rcases hk with hk | hk | hk | hk
    · rw [scopes_block (Or.inl hk)] at hab
      exact hbody hab
    · rw [scopes_block (Or.inr hk)] at hab
      exact hbody hab
    · rw [scopes_try hk] at hab
      exact hbody hab.frame
    · rw [scopes_other (Or.inl hk)] at hab
      have hnot : b ∉ leaves (scopesList n.leaves) := fun hleaf => hb (hapart.behind b
        ((leaves_scopesList _).subset hleaf) (List.mem_append_left _ hmem))
      rcases hab.right hnot with hab | ⟨ha, -⟩
      · exact hbody hab
      · exact Or.inr (by simpa [past, PCFNNode.before, hk] using ha)
  | @thenBranch n t o hk _ hrun ih =>
    intro u hroot hids hlate _ b s₁ s₂ hb hab ht
    rw [codeNodes, subtrees_singleton] at hroot
    rw [codeNodes, PCFNNode.listIds, subtrees_singleton] at hids
    rw [codeNodes, scopesList_singleton, scopes_if hk] at hab
    have hapart := apart_of_nodup hids
    have hmem : b ∈ PCFNNode.subtrees n.body := exec_nodes hrun (ht ▸ mem_mid s₁ s₂ b)
    have hcond : b ∉ leaves (scopesList n.leaves) := fun hleaf => hb (hapart.behind b
      ((leaves_scopesList _).subset hleaf) (List.mem_append_left _ hmem))
    have helse : b ∉ leaves (scopesArmHead n.elseBody "if-else") := fun hleaf =>
      hb (hapart.branches b hmem ((leaves_scopesArmHead _ _).subset hleaf))
    rcases hab.right hcond with hab | ⟨ha, -⟩
    · rcases ih (fun m hm => hroot (subtrees_body n hm)) hapart.body hlate trivial hb
        (earlier_arm (hab.left helse)) ht with hmem | hnil
      · exact Or.inl hmem
      · exact absurd hnil List.not_mem_nil
    · exact Or.inr (by simpa [past, PCFNNode.before, hk] using ha)
  | @elseBranch n t o hk _ hrun ih =>
    intro u hroot hids hlate _ b s₁ s₂ hb hab ht
    rw [codeNodes, subtrees_singleton] at hroot
    rw [codeNodes, PCFNNode.listIds, subtrees_singleton] at hids
    rw [codeNodes, scopesList_singleton, scopes_if hk] at hab
    have hapart := apart_of_nodup hids
    have hmem : b ∈ PCFNNode.subtrees n.elseBody := exec_nodes hrun (ht ▸ mem_mid s₁ s₂ b)
    have hcond : b ∉ leaves (scopesList n.leaves) := fun hleaf => hb (hapart.behind b
      ((leaves_scopesList _).subset hleaf) (List.mem_append_right _ hmem))
    have hthen : b ∉ leaves (scopesArmHead n.body "if-then") := fun hleaf =>
      hb (hapart.branches b ((leaves_scopesArmHead _ _).subset hleaf) hmem)
    rcases hab.right hcond with hab | ⟨ha, -⟩
    · rcases hab.right hthen with hab | ⟨ha, -⟩
      · rcases ih (fun m hm => hroot (subtrees_elseBody n hm)) hapart.elseBody hlate trivial hb
          (earlier_arm hab) ht with hmem | hnil
        · exact Or.inl hmem
        · exact absurd hnil List.not_mem_nil
      · exact absurd ha leaf_not_mem_arm
    · exact Or.inr (by simpa [past, PCFNNode.before, hk] using ha)
  | @branch n c t o hk hkinds hc hrun ih =>
    intro u hroot hids hlate _ b s₁ s₂ hb hab ht
    rw [codeNodes, subtrees_singleton] at hroot
    rw [codeNodes, PCFNNode.listIds, subtrees_singleton] at hids
    rw [codeNodes, scopesList_singleton, scopes_case hk] at hab
    have hapart := apart_of_nodup hids
    have hmemc : b ∈ c.subtree := by
      rw [← subtrees_singleton]
      exact exec_nodes hrun (ht ▸ mem_mid s₁ s₂ b)
    have hmem : b ∈ PCFNNode.subtrees n.body := PCFNNode.mem_subtrees hc hmemc
    have hcond : b ∉ leaves (scopesList n.leaves) := fun hleaf => hb (hapart.behind b
      ((leaves_scopesList _).subset hleaf) (List.mem_append_left _ hmem))
    rcases hab.right hcond with hab | ⟨ha, -⟩
    · obtain ⟨d, hd, hab⟩ := earlier_branches hab
      have hmemd : b ∈ d.subtree :=
        subtrees_body d ((leaves_scopesList _).subset hab.mem_leaves)
      obtain rfl := eq_of_mem_subtree hapart.body hd hc hmemd hmemc hb
      have hab' : Earlier InOrder (scopesList (codeNodes (.node d))) a b := by
        rw [codeNodes, scopesList_singleton, scopes_block (Or.inr (hkinds d hd))]
        exact hab
      have hsub : PCFNNode.subtrees (codeNodes (.node d)) ⊆ PCFNNode.subtrees root := by
        rw [codeNodes, subtrees_singleton]
        exact fun m hm => hroot (subtrees_body n (PCFNNode.mem_subtrees hd hm))
      have hids' : (PCFNNode.listIds (codeNodes (.node d))).Nodup := by
        rw [codeNodes, PCFNNode.listIds, subtrees_singleton]
        exact treeIds_nodup_of_mem hapart.body hd
      rcases ih hsub hids' hlate trivial hb hab' ht with hmem | hnil
      · exact Or.inl hmem
      · exact absurd hnil List.not_mem_nil
    · exact Or.inr (by simpa [past, PCFNNode.before, hk] using ha)
  | @headLoop n t o hk _ ih =>
    intro u hroot hids hlate hent b s₁ s₂ hb hab ht
    rw [past, before_of_headLoop hk]
    exact ih hroot hids hlate ⟨hent, Or.inl hk⟩ hb hab ht
  | @tailLoop n t₁ t₂ o hk hround _ ih₁ ih₂ =>
    intro u hroot hids hlate hent b s₁ s₂ hb hab ht
    rw [← List.append_assoc] at hlate
    rcases split_append ht with ⟨r, hr⟩ | ⟨r, rfl, hr⟩
    · exact ih₁ hroot hids hlate.left ⟨hent, Or.inr hk⟩ hb hab hr
    · have hent' : Entered (u ++ t₁) (.loop n) := ⟨List.mem_append_left _ hent, Or.inr hk⟩
      rw [← List.append_assoc]
      rcases ih₂ hroot hids hlate hent' hb hab hr with hmem | ha
      · exact Or.inl hmem
      · -- the first round has evaluated the condition
        have hleaf : Item.leaf a ∈ scopesList [n] := by
          rw [scopesList_singleton, scopes_loop (Or.inr hk)]
          exact List.mem_append_left _ ha
        rcases exec_direct hsel hround rfl hroot hlate.left ⟨hent, Or.inr hk⟩ hleaf with hmem | hpast
        · exact Or.inl (List.mem_append_left _ hmem)
        · exact Or.inr hpast
  | @tailBreak n t hk _ ih | @tailStop n t o hk _ _ ih =>
    intro u hroot hids hlate hent b s₁ s₂ hb hab ht
    exact ih hroot hids hlate ⟨hent, Or.inr hk⟩ hb hab ht
  | @round n t₁ t₂ o₁ o hbody _ hagain ih₁ ih₂ =>
    intro u hroot hids hlate hent b s₁ s₂ hb hab ht
    rw [codeNodes, subtrees_singleton] at hroot
    rw [codeNodes, PCFNNode.listIds, subtrees_singleton] at hids
    rw [codeNodes, scopesList_singleton] at hab
    rw [← List.append_assoc] at hlate
    have hapart := apart_of_nodup hids
    rcases split_append ht with ⟨r, hr⟩ | ⟨r, rfl, hr⟩
    · have hmem : b ∈ PCFNNode.subtrees n.body := exec_nodes hbody (hr ▸ mem_mid s₁ r b)
      rcases ih₁ (fun m hm => hroot (subtrees_body n hm)) hapart.body hlate.left trivial hb
        (earlier_loop hent.2 hapart hb hmem hab) hr with hmem | hnil
      · exact Or.inl hmem
      · exact absurd hnil List.not_mem_nil
    · have hmem : b ∈ PCFNNode.subtrees n.again := exec_nodes hagain (hr ▸ mem_mid r s₂ b)
      have hagain_eq : n.again = n.leaves := by
        cases hk : n.kind <;> simp [PCFNNode.again, hk, PCFNNode.subtrees] at hmem ⊢
      rw [hagain_eq] at ih₂ hmem
      rw [← List.append_assoc]
      rcases ih₂ (fun m hm => hroot (subtrees_leaves n hm)) hapart.leaves hlate trivial hb
        (earlier_cond hapart hb hmem hab) hr with hmem | hnil
      · exact Or.inl hmem
      · exact absurd hnil List.not_mem_nil
  | @roundStop n t o hbody _ ih =>
    intro u hroot hids hlate hent b s₁ s₂ hb hab ht
    rw [codeNodes, subtrees_singleton] at hroot
    rw [codeNodes, PCFNNode.listIds, subtrees_singleton] at hids
    rw [codeNodes, scopesList_singleton] at hab
    have hapart := apart_of_nodup hids
    have hmem : b ∈ PCFNNode.subtrees n.body := exec_nodes hbody (ht ▸ mem_mid s₁ s₂ b)
    rcases ih (fun m hm => hroot (subtrees_body n hm)) hapart.body hlate trivial hb
      (earlier_loop hent.2 hapart hb hmem hab) ht with hmem | hnil
    · exact Or.inl hmem
    · exact absurd hnil List.not_mem_nil
  | @loopRound n t₁ t₂ o _ _ ih₁ ih₂ =>
    intro u hroot hids hlate hent b s₁ s₂ hb hab ht
    rw [← List.append_assoc] at hlate
    rcases split_append ht with ⟨r, hr⟩ | ⟨r, rfl, hr⟩
    · exact (ih₁ hroot hids hlate.left hent hb hab hr).imp_right before_leaves
    · rw [← List.append_assoc]
      exact ih₂ hroot hids hlate ⟨List.mem_append_left _ hent.1, hent.2⟩ hb hab hr
  | @loopBreak n t _ ih | @loopLeave n t o _ _ ih =>
    intro u hroot hids hlate hent b s₁ s₂ hb hab ht
    exact (ih hroot hids hlate hent hb hab ht).imp_right before_leaves

end AlSem.Body
