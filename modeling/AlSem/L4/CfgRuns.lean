/-
# What the walker follows of a run

A run leaves out what the walk goes through: the leaves of a ternary alternative that is not taken,
the rest of an `asserterror` statement behind its error, the header of a counting loop behind the
first round.  Where histories are compared, and what is left out could be gone through, the walk
follows a path that comes to no less than the run (`exec_follows`).
-/
import AlSem.Body.OutlineRuns

namespace AlSem.L4

open AlSem.Model
open AlSem.Body (subtrees_leaves subtrees_body subtrees_elseBody before_subset exec_nodes)

variable {ctx : WalkCtx} {sel : PCFNNode → Bool → Prop} {T : Tracking}

/-! ## 1. Every piece of code has a path -/

/-- The kinds of a condition's leaves. -/
def LeafKind (n : PCFNNode) : Prop := n.kind = .op ∨ n.kind = .call ∨ n.kind = .error

theorem LeafKind.before {n : PCFNNode} (h : LeafKind n) : n.before = n.leaves := by
  rcases h with h | h | h <;> simp [PCFNNode.before, h]

/-- The node leaves the round of an enclosing loop. -/
def Jumps (n : PCFNNode) : Prop := n.kind = .breakLoop ∨ n.kind = .continueLoop

/-- **Each `break` and `continue` of the node stands in a loop of the node**, as the language
asks of a routine's body. -/
inductive Enclosed : PCFNNode → Prop
  | loop {n} : IsLoop n → Enclosed n
  | node {n} : ¬ Jumps n → (∀ c ∈ n.body, Enclosed c) → (∀ c ∈ n.elseBody, Enclosed c) →
      Enclosed n

/-- The code that no path leaves for the end of a round. -/
def EnclosedCode : Code → Prop
  | .node n | .body n => Enclosed n
  | .list ns => ∀ n ∈ ns, Enclosed n
  | .leaves _ | .loop _ => True
  | .round _ => False

theorem Enclosed.body {n : PCFNNode} (hn : Enclosed n) (hloop : ¬ IsLoop n) :
    ∀ c ∈ n.body, Enclosed c := by
  cases hn with
  | loop h => exact absurd h hloop
  | node _ hbody _ => exact hbody

/-- **A path through enclosed code falls through or leaves the routine.** -/
theorem Follows.final {d : ℕ} {c : Code} {p : Path} {o : Outcome} (h : Follows d c p o)
    (hc : EnclosedCode c) : Final o := by
  have hleaves : ∀ {o : Outcome}, o ≠ .failed → o = .normal ∨ o.leaves → Final o := by
    intro o hfail ho
    rcases ho with rfl | rfl | rfl | rfl
    · exact Or.inl rfl
    · exact Or.inr (Or.inl rfl)
    · exact Or.inr (Or.inr rfl)
    · exact absurd rfl hfail
  have hfail := h.ne_failed
  induction h with
  | gaveUp => exact Or.inl rfl
  | gaveUpExit _ _ ho => exact Or.inr ho
  | node _ _ _ _ ih => exact ih hc hfail
  | nodeStop _ _ ho => exact hleaves hfail (Or.inr ho)
  | nil | leavesNil | leaf _ | pass _ | noBranch _ _ | tailBreak _ _ _ | loopStop | loopBreak _ =>
    exact Or.inl rfl
  | cons _ _ _ ih => exact ih (fun n hn => hc n (List.mem_cons_of_mem _ hn)) hfail
  | stop _ _ ih => exact ih (hc _ List.mem_cons_self) hfail
  | leavesCons _ hns => exact hleaves hfail hns.leaves_outcome
  | leavesStop _ ho => exact hleaves hfail (Or.inr ho)
  | exit => exact Or.inr (Or.inl rfl)
  | error => exact Or.inr (Or.inr rfl)
  | @breakLoop d n hk =>
    cases hc with
    | loop h => rcases h with (h | h | h) | h <;> simp [hk] at h
    | node hjump => exact absurd (Or.inl hk) hjump
  | @continueLoop d n hk =>
    cases hc with
    | loop h => rcases h with (h | h | h) | h <;> simp [hk] at h
    | node hjump => exact absurd (Or.inr hk) hjump
  | @sequence d n p o hk _ ih =>
    refine ih (Enclosed.body hc fun h => ?_) hfail
    rcases hk with hk | hk | hk | hk <;> rcases h with (h | h | h) | h <;> simp [hk] at h
  | @thenBranch d n p o hk _ ih =>
    refine ih (Enclosed.body hc fun h => ?_) hfail
    rcases h with (h | h | h) | h <;> simp [hk] at h
  | @elseBranch d n p o hk _ ih =>
    cases hc with
    | loop h => rcases h with (h | h | h) | h <;> simp [hk] at h
    | node _ _ helse => exact ih helse hfail
  | @branch d n b p o hk hb _ ih =>
    refine ih (Enclosed.body hc (fun h => ?_) b hb) hfail
    rcases h with (h | h | h) | h <;> simp [hk] at h
  | headLoop _ hloop => exact hleaves hfail hloop.loop_outcome
  | once _ _ hns => exact hleaves hfail hns.leaves_outcome
  | tailLoop _ _ _ hloop => exact hleaves hfail hloop.loop_outcome
  | tailStop _ _ _ ho => exact hleaves hfail (Or.inr ho)
  | round => exact absurd hc id
  | roundStop => exact absurd hc id
  | loopRound _ hloop => exact hleaves hfail hloop.loop_outcome
  | loopLeave _ ho => exact hleaves hfail (Or.inr ho)

/-- The walk follows a path through the code that takes no other nodes and does not leave the
routine. -/
def Passes (d : ℕ) (c : Code) (ns : List PCFNNode) : Prop :=
  ∃ p o, Follows d c p o ∧ (∀ m, some m ∈ p → m ∈ ns) ∧ ¬ o.leaves

theorem Passes.mono {d : ℕ} {c : Code} {ns ns' : List PCFNNode} (h : Passes d c ns)
    (hsub : ns ⊆ ns') : Passes d c ns' := by
  obtain ⟨p, o, hpath, hmem, ho⟩ := h
  exact ⟨p, o, hpath, fun m hm => hsub (hmem m hm), ho⟩

theorem Passes.path {d : ℕ} {c : Code} {ns : List PCFNNode} (h : Passes d c ns) :
    ∃ p o, Follows d c p o := by
  obtain ⟨p, o, hpath, -⟩ := h
  exact ⟨p, o, hpath⟩

theorem normal_stays : ¬ Outcome.normal.leaves := by simp [Outcome.leaves]

/-- Enclosed code is passed to its end. -/
theorem Passes.normal {d : ℕ} {c : Code} {ns : List PCFNNode} (h : Passes d c ns)
    (hc : EnclosedCode c) : ∃ p, Follows d c p .normal ∧ ∀ m, some m ∈ p → m ∈ ns := by
  obtain ⟨p, o, hpath, hmem, ho⟩ := h
  rcases hpath.final hc with rfl | rfl | rfl
  · exact ⟨p, hpath, hmem⟩
  · exact absurd (Or.inl rfl) ho
  · exact absurd (Or.inr (Or.inl rfl)) ho

/-- The walk of a condition passes every leaf. -/
theorem leaves_pass (d : ℕ) : ∀ (ns : List PCFNNode),
    (∀ n ∈ ns, ∃ p, Follows d (.node n) p .normal ∧ ∀ m, some m ∈ p → m ∈ n.subtree) →
      ∃ p, Follows d (.leaves ns) p .normal ∧ ∀ m, some m ∈ p → m ∈ PCFNNode.subtrees ns
  | [], _ => ⟨[], .leavesNil, by simp⟩
  | n :: ns, h => by
    obtain ⟨p₁, hpath₁, hmem₁⟩ := h n List.mem_cons_self
    obtain ⟨p₂, hpath₂, hmem₂⟩ := leaves_pass d ns fun m hm => h m (List.mem_cons_of_mem _ hm)
    refine ⟨p₁ ++ p₂, .leavesCons hpath₁ hpath₂, fun m hm => ?_⟩
    rw [PCFNNode.subtrees]
    rcases List.mem_append.mp hm with hm | hm
    · exact List.mem_append_left _ (hmem₁ m hm)
    · exact List.mem_append_right _ (hmem₂ m hm)

theorem leaf_passes (n : PCFNNode) : Formed ctx n → LeafKind n → ∀ d,
    ∃ p, Follows d (.node n) p .normal ∧ ∀ m, some m ∈ p → m ∈ n.subtree := by
  induction n using PCFNNode.induct with
  | step n ih =>
    intro hn hk d
    by_cases hd : Entered d n
    · obtain ⟨p, hpath, hmem⟩ := leaves_pass (d + 1) n.before fun m hm => by
        rw [hk.before] at hm
        exact ih m (List.mem_append_left _ hm) (hn.leaves m hm) (hn.node.leafKinds m hm) (d + 1)
      have hbody : Follows d (.body n) [] .normal := by
        rcases hk with hk | hk | hk
        · exact .leaf (Or.inl hk)
        · exact .leaf (Or.inr hk)
        · exact .pass (Or.inr hk)
      refine ⟨p ++ some n :: [], .node hd hpath hbody, fun m hm => ?_⟩
      rcases List.mem_append.mp hm with hm | hm
      · exact subtrees_leaves n (before_subset n (hmem m hm))
      · obtain rfl : m = n := by simpa using hm
        exact m.mem_subtree_self
    · exact ⟨[none], .gaveUp hd, by simp⟩

/-- The leaves of a node in form pass. -/
theorem Formed.leaves_pass {n : PCFNNode} (hn : Formed ctx n) (d : ℕ) :
    ∃ p, Follows d (.leaves n.leaves) p .normal ∧ ∀ m, some m ∈ p → m ∈ n.subtree := by
  obtain ⟨p, hpath, hmem⟩ := AlSem.L4.leaves_pass d n.leaves fun m hm =>
    leaf_passes m (hn.leaves m hm) (hn.node.leafKinds m hm) d
  exact ⟨p, hpath, fun m hm => subtrees_leaves n (hmem m hm)⟩

theorem Formed.before_pass {n : PCFNNode} (hn : Formed ctx n) (d : ℕ) :
    ∃ p, Follows d (.leaves n.before) p .normal ∧ ∀ m, some m ∈ p → m ∈ n.subtree := by
  unfold PCFNNode.before
  split <;> first | exact hn.leaves_pass d | exact ⟨[], .leavesNil, by simp⟩

theorem list_passes {d : ℕ} : ∀ {ns : List PCFNNode},
    (∀ n ∈ ns, Passes d (.node n) n.subtree) → Passes d (.list ns) (PCFNNode.subtrees ns)
  | [], _ => ⟨[], .normal, .nil, by simp, normal_stays⟩
  | n :: ns, h => by
    obtain ⟨p₁, o₁, hpath₁, hmem₁, ho₁⟩ := h n List.mem_cons_self
    obtain ⟨p₂, o₂, hpath₂, hmem₂, ho₂⟩ := list_passes fun m hm => h m (List.mem_cons_of_mem _ hm)
    have hsub : PCFNNode.subtrees (n :: ns) = n.subtree ++ PCFNNode.subtrees ns := rfl
    by_cases hnormal : o₁ = .normal
    · subst hnormal
      refine ⟨p₁ ++ p₂, o₂, .cons hpath₁ hpath₂, fun m hm => ?_, ho₂⟩
      rw [hsub]
      rcases List.mem_append.mp hm with hm | hm
      · exact List.mem_append_left _ (hmem₁ m hm)
      · exact List.mem_append_right _ (hmem₂ m hm)
    · exact ⟨p₁, o₁, .stop hpath₁ hnormal,
        fun m hm => hsub ▸ List.mem_append_left _ (hmem₁ m hm), ho₁⟩

/-- A body whose parts pass, passes. -/
theorem body_passes {n : PCFNNode} (hn : Formed ctx n)
    (hparts : ∀ c ∈ n.parts, ∀ d, Passes d (.node c) c.subtree) (d : ℕ) :
    Passes d (.body n) n.subtree := by
  have hbody : ∀ d, Passes d (.list n.body) n.subtree := fun d =>
    (list_passes fun c hc => hparts c (List.mem_append_right _ (List.mem_append_left _ hc)) d).mono
      (subtrees_body n)
  have hsequence : n.kind.isSequence → Passes d (.body n) n.subtree := fun hk => by
    obtain ⟨p, o, hpath, hrest⟩ := hbody (d + 1)
    exact ⟨p, o, .sequence hk hpath, hrest⟩
  have hnormal : ∀ {o}, Follows d (.body n) [] o → ¬ o.leaves → Passes d (.body n) n.subtree :=
    fun hpath ho => ⟨[], _, hpath, by simp, ho⟩
  cases hk : n.kind with
  | block => exact hsequence (Or.inl hk)
  | caseBranch => exact hsequence (Or.inr (Or.inl hk))
  | tryBlock => exact hsequence (Or.inr (Or.inr (Or.inl hk)))
  | other => exact hsequence (Or.inr (Or.inr (Or.inr hk)))
  | op => exact hnormal (.leaf (Or.inl hk)) normal_stays
  | call => exact hnormal (.leaf (Or.inr hk)) normal_stays
  | exit => exact hnormal (.pass (Or.inl hk)) normal_stays
  | error => exact hnormal (.pass (Or.inr hk)) normal_stays
  | breakLoop => exact hnormal (.breakLoop hk) (by simp [Outcome.leaves])
  | continueLoop => exact hnormal (.continueLoop hk) (by simp [Outcome.leaves])
  | whileDo => exact hnormal (.headLoop (Or.inl hk) .loopStop) normal_stays
  | forTo => exact hnormal (.headLoop (Or.inr (Or.inl hk)) .loopStop) normal_stays
  | foreach => exact hnormal (.headLoop (Or.inr (Or.inr hk)) .loopStop) normal_stays
  | ifThen =>
    obtain ⟨p, o, hpath, hrest⟩ := hbody (d + 1)
    exact ⟨p, o, .thenBranch hk hpath, hrest⟩
  | case =>
    match hb : n.body with
    | [] => exact hnormal (.noBranch hk (by simp [hb])) normal_stays
    | b :: bs =>
      have hmem : b ∈ n.body := hb ▸ List.mem_cons_self
      have hpart : b ∈ n.parts := List.mem_append_right _ (List.mem_append_left _ hmem)
      obtain ⟨p, o, hpath, hrest⟩ := (hparts b hpart (d + 1)).mono (PCFNNode.subtree_subset hpart)
      exact ⟨p, o, .branch hk hmem hpath, hrest⟩
  | repeatUntil =>
    obtain ⟨p, hleaves, hmem⟩ := hn.leaves_pass (d + 1)
    by_cases hempty : n.body = []
    · exact ⟨p, .normal, .once hk hempty hleaves, hmem, normal_stays⟩
    · obtain ⟨q, o, hlist, hmemq, ho⟩ := hbody (d + PCFNNode.bodyStep n)
      by_cases hlatch : o.latches
      · have hround := Follows.round hlist hlatch hleaves
        refine ⟨q ++ p ++ [], .normal, .tailLoop hk hempty hround .loopStop, fun m hm => ?_,
          normal_stays⟩
        rw [List.append_nil] at hm
        rcases List.mem_append.mp hm with hm | hm
        · exact hmemq m hm
        · exact hmem m hm
      · have hround := Follows.roundStop hlist hlatch
        cases o with
        | normal => exact absurd (Or.inl rfl) hlatch
        | continued => exact absurd (Or.inr rfl) hlatch
        | broke => exact ⟨q, .normal, .tailBreak hk hempty hround, hmemq, normal_stays⟩
        | exited | errored | failed => exact absurd (by simp [Outcome.leaves]) ho

/-- **A node in form has a path** that does not leave the routine. -/
theorem node_passes (n : PCFNNode) : Formed ctx n → ∀ d, Passes d (.node n) n.subtree := by
  induction n using PCFNNode.induct with
  | step n ih =>
    intro hn d
    by_cases hd : Entered d n
    · obtain ⟨p, hleaves, hmem⟩ := hn.before_pass (d + 1)
      obtain ⟨q, o, hbody, hmemq, ho⟩ := body_passes hn (fun c hc => ih c hc (hn.part hc)) d
      refine ⟨p ++ some n :: q, o, .node hd hleaves hbody, fun m hm => ?_, ho⟩
      rcases List.mem_append.mp hm with hm | hm
      · exact hmem m hm
      · rcases List.mem_cons.mp hm with hm | hm
        · exact Option.some.inj hm ▸ n.mem_subtree_self
        · exact hmemq m hm
    · exact ⟨[none], .normal, .gaveUp hd, by simp, normal_stays⟩

/-! ## 2. Histories compared -/

/-- **An order on histories**: the greater asks for no less.  A history at the top stays there.  A
node that is kept out may be gone through, and one that is still changes nothing but to the top. -/
structure Compare (T : Tracking) where
  le : T.Hist → T.Hist → Prop
  Top : T.Hist → Prop
  Keeps : PCFNNode → Prop
  Still : PCFNNode → Prop
  refl : ∀ h, le h h
  trans : ∀ {a b c}, le a b → le b c → le a c
  step : ∀ {h h'} n, le h h' → le (T.step h n) (T.step h' n)
  blur : ∀ h, le h (T.blur h)
  top_step : ∀ {h} n, Top h → Top (T.step h n)
  top_blur : ∀ {h}, Top h → Top (T.blur h)
  top_le : ∀ {h h'}, le h h' → Top h → Top h'
  keeps : ∀ {n} h, Keeps n → le h (T.step h n)
  still : ∀ {n} h, Still n → T.step h n = h ∨ Top (T.step h n)
  still_le : ∀ {n} h, Still n → le h (T.step h n)

variable {C : Compare T}

theorem Compare.top_walk {h : T.Hist} (hh : C.Top h) (p : Path) : C.Top (T.walk h p) := by
  induction p generalizing h with
  | nil => exact hh
  | cons x p ih =>
    cases x with
    | none => exact ih (C.top_blur hh)
    | some n => exact ih (C.top_step n hh)

theorem Compare.top_run {h : T.Hist} (hh : C.Top h) (t : List PCFNNode) : C.Top (T.run h t) := by
  induction t generalizing h with
  | nil => exact hh
  | cons n t ih => exact ih (C.top_step n hh)

/-- A path of nodes none of which lowers a history. -/
theorem Compare.le_walk {p : Path} (hp : ∀ m, some m ∈ p → ∀ h, C.le h (T.step h m)) (h : T.Hist) :
    C.le h (T.walk h p) := by
  induction p generalizing h with
  | nil => exact C.refl h
  | cons x p ih =>
    have hrest := ih fun m hm => hp m (List.mem_cons_of_mem _ hm)
    cases x with
    | none => exact C.trans (C.blur h) (hrest _)
    | some n => exact C.trans (hp n List.mem_cons_self h) (hrest _)

/-- Still nodes leave a history that does not come to the top. -/
theorem Compare.still_run {t : List PCFNNode} (ht : ∀ m ∈ t, C.Still m) {h : T.Hist}
    (htop : ¬ C.Top (T.run h t)) : T.run h t = h := by
  induction t generalizing h with
  | nil => rfl
  | cons n t ih =>
    rw [T.run_cons] at htop ⊢
    rcases C.still h (ht n List.mem_cons_self) with hsame | hstep
    · rw [hsame] at htop ⊢
      exact ih (fun m hm => ht m (List.mem_cons_of_mem _ hm)) htop
    · exact absurd (C.top_run hstep t) htop

/-- Every history that moves falls, or comes to the top. -/
def Compare.Falls (C : Compare T) : Prop := ∀ h n, C.le (T.step h n) h ∨ C.Top (T.step h n)

theorem Compare.Falls.run (hC : C.Falls) (h : T.Hist) (t : List PCFNNode) :
    C.le (T.run h t) h ∨ C.Top (T.run h t) := by
  induction t generalizing h with
  | nil => exact Or.inl (C.refl h)
  | cons n t ih =>
    rw [T.run_cons]
    rcases hC h n with hle | htop
    · exact (ih _).imp_left fun hrest => C.trans hrest hle
    · exact Or.inr (C.top_run htop t)

/-- **What the walk follows of a run** `t` that ends in `o`: a path that comes to the top, or one of
the same outcome that comes to no less; of a run that is looked at no further, any path does. -/
def Ends (C : Compare T) (F : Path → Outcome → Prop) (h h' : T.Hist) (t : List PCFNNode)
    (o : Outcome) : Prop :=
  ∃ p o', F p o' ∧ (C.Top (T.walk h' p) ∨
    ¬ C.Top (T.run h t) ∧ (o = .failed ∨ o' = o ∧ C.le (T.run h t) (T.walk h' p)))

variable {F F₁ G : Path → Outcome → Prop} {h h' : T.Hist} {t t₁ t₂ : List PCFNNode}
  {o o₁ : Outcome}

theorem Ends.mono (hends : Ends C F h h' t o)
    (hsub : ∀ p o, F p o → G p o) : Ends C G h h' t o := by
  obtain ⟨p, o', hF, hrest⟩ := hends
  exact ⟨p, o', hsub p o' hF, hrest⟩

/-- Of a run that is looked at no further, any path. -/
theorem Ends.failed (hle : C.le h h') (hsome : ∃ p o, F p o) : Ends C F h h' [] .failed := by
  obtain ⟨p, o, hF⟩ := hsome
  refine ⟨p, o, hF, ?_⟩
  by_cases htop : C.Top h
  · exact Or.inl (C.top_walk (C.top_le hle htop) p)
  · exact Or.inr ⟨htop, Or.inl rfl⟩

/-- A path that comes to no less. -/
theorem Ends.of_le {p : Path} (hF : F p o) (hle : C.le (T.run h t) (T.walk h' p)) :
    Ends C F h h' t o := by
  refine ⟨p, o, hF, ?_⟩
  by_cases htop : C.Top (T.run h t)
  · exact Or.inl (C.top_le hle htop)
  · exact Or.inr ⟨htop, Or.inr ⟨rfl, hle⟩⟩

/-- **Two parts of a run.**  A path of the first part that is not followed by the second goes on to
some end. -/
theorem Ends.seq (hfirst : Ends C F₁ h h' t₁ o₁) (ho₁ : o₁ ≠ .failed)
    (hsecond : ∀ k', C.le (T.run h t₁) k' → Ends C G (T.run h t₁) k' t₂ o)
    (hjoin : ∀ p₁ p₂ o, F₁ p₁ o₁ → G p₂ o → F (p₁ ++ p₂) o)
    (hon : ∀ p₁ o, F₁ p₁ o → ∃ p₂ o, F (p₁ ++ p₂) o) : Ends C F h h' (t₁ ++ t₂) o := by
  obtain ⟨p₁, o₁', hF₁, htop | ⟨-, hfail | ⟨rfl, hle⟩⟩⟩ := hfirst
  · obtain ⟨p₂, o', hF⟩ := hon p₁ o₁' hF₁
    refine ⟨p₁ ++ p₂, o', hF, Or.inl ?_⟩
    rw [T.walk_append]
    exact C.top_walk htop p₂
  · exact absurd hfail ho₁
  · obtain ⟨p₂, o', hG, hrest⟩ := hsecond _ hle
    refine ⟨p₁ ++ p₂, o', hjoin p₁ p₂ o' hF₁ hG, ?_⟩
    rw [T.walk_append, T.run_append]
    exact hrest

/-- **A run that ends in its first part.** -/
theorem Ends.last (hfirst : Ends C F₁ h h' t o₁) (hfail : o₁ = .failed → o = .failed)
    (hends : ∀ p, F₁ p o₁ → F p o)
    (hon : ∀ p₁ o, F₁ p₁ o → ∃ p₂ o, F (p₁ ++ p₂) o) : Ends C F h h' t o := by
  obtain ⟨p₁, o₁', hF₁, htop | ⟨htop, hf | ⟨rfl, hle⟩⟩⟩ := hfirst
  · obtain ⟨p₂, o', hF⟩ := hon p₁ o₁' hF₁
    refine ⟨p₁ ++ p₂, o', hF, Or.inl ?_⟩
    rw [T.walk_append]
    exact C.top_walk htop p₂
  · obtain ⟨p₂, o', hF⟩ := hon p₁ o₁' hF₁
    exact ⟨p₁ ++ p₂, o', hF, Or.inr ⟨htop, Or.inl (hfail hf)⟩⟩
  · exact ⟨p₁, o, hends p₁ hF₁, Or.inr ⟨htop, Or.inr ⟨rfl, hle⟩⟩⟩

/-- A part of a run that lowers nothing may be left out of it. -/
theorem Ends.without (hends : Ends C F h h' t .normal) (hle : C.le h (T.run h t)) :
    Ends C F h h' [] .normal := by
  obtain ⟨p, o', hF, htop | ⟨htop, hfail | ⟨rfl, hrest⟩⟩⟩ := hends
  · exact ⟨p, o', hF, Or.inl htop⟩
  · exact nomatch hfail
  · exact ⟨p, _, hF, Or.inr ⟨fun hh => htop (C.top_run hh t), Or.inr ⟨rfl, C.trans hle hrest⟩⟩⟩

/-- Where histories fall, a round that is followed by others stands for none. -/
theorem Ends.fell (hC : C.Falls) (hfirst : Ends C F h h' t₁ .normal) (hle : C.le h h')
    (hrest : C.le (T.run h t₁) h' →
      t₂ = [] ∧ o = .normal ∨ Ends C F (T.run h t₁) h' t₂ o) : Ends C F h h' (t₁ ++ t₂) o := by
  obtain ⟨p, o', hF, htop | ⟨htop, hfail | ⟨rfl, hsame⟩⟩⟩ := hfirst
  · exact ⟨p, o', hF, Or.inl htop⟩
  · exact nomatch hfail
  · have hdown : C.le (T.run h t₁) h' := C.trans ((hC.run h t₁).resolve_right htop) hle
    rcases hrest hdown with ⟨rfl, rfl⟩ | ⟨q, o', hq, hends⟩
    · rw [List.append_nil]
      exact ⟨p, _, hF, Or.inr ⟨htop, Or.inr ⟨rfl, hsame⟩⟩⟩
    · rw [← T.run_append] at hends
      exact ⟨q, o', hq, hends⟩

/-- No condition ends in a `break`. -/
theorem Ends.not_broke {d : ℕ} {ns : List PCFNNode} (hends : Ends C (Follows d (.leaves ns)) h h' t .broke)
    (o : Outcome) : Ends C (Follows d (.leaves ns)) h h' t o := by
  obtain ⟨p, o', hF, htop | ⟨-, hfail | ⟨rfl, -⟩⟩⟩ := hends
  · exact ⟨p, o', hF, Or.inl htop⟩
  · exact nomatch hfail
  · rcases hF.leaves_outcome with ho | ho | ho | ho <;> exact nomatch ho

/-! ## 3. Paths that go on -/

/-- A path through what comes before a node goes on through the node. -/
theorem Formed.node_on {n : PCFNNode} {d : ℕ} (hn : Formed ctx n) (hd : Entered d n) {p : Path}
    {o : Outcome} (hp : Follows (d + 1) (.leaves n.before) p o) :
    ∃ q o, Follows d (.node n) (p ++ q) o := by
  rcases hp.leaves_outcome with rfl | ho
  · obtain ⟨q, o, hbody⟩ :=
      (body_passes hn (fun c hc => node_passes c (hn.part hc)) d).path
    exact ⟨some n :: q, o, .node hd hp hbody⟩
  · exact ⟨[], o, by rw [List.append_nil]; exact .nodeStop hd hp ho⟩

theorem FormedAll.path {ns : List PCFNNode} (hns : FormedAll ctx ns) (d : ℕ) :
    ∃ p o, Follows d (.list ns) p o :=
  (list_passes fun n hn => node_passes n (hns n hn) d).path

theorem list_on {n : PCFNNode} {ns : List PCFNNode} {d : ℕ} (hns : FormedAll ctx ns) {p : Path}
    {o : Outcome} (hp : Follows d (.node n) p o) : ∃ q o, Follows d (.list (n :: ns)) (p ++ q) o := by
  by_cases ho : o = .normal
  · subst ho
    obtain ⟨q, o, hlist⟩ := hns.path d
    exact ⟨q, o, .cons hp hlist⟩
  · exact ⟨[], o, by rw [List.append_nil]; exact .stop hp ho⟩

/-- A leaf ends for what is behind it, or leaves. -/
theorem leafKind_outcome {n : PCFNNode} (hk : LeafKind n) {d : ℕ} {p : Path} {o : Outcome}
    (hp : Follows d (.node n) p o) : o = .normal ∨ o.leaves := by
  cases hp with
  | gaveUp => exact Or.inl rfl
  | gaveUpExit _ htry _ => rcases hk with hk | hk | hk <;> simp [hk] at htry
  | nodeStop _ _ ho => exact Or.inr ho
  | node _ _ hb =>
    cases hb with
    | leaf => exact Or.inl rfl
    | pass => exact Or.inl rfl
    | error => exact Or.inr (Or.inr (Or.inl rfl))
    | exit => exact Or.inr (Or.inl rfl)
    | _ => rcases hk with hk | hk | hk <;>
        simp_all [CfnKind.isSequence, CfnKind.isHeadLoop]

/-- The leaves of a condition, in form. -/
def FormedLeaves (ctx : WalkCtx) (ns : List PCFNNode) : Prop := ∀ n ∈ ns, Formed ctx n ∧ LeafKind n

theorem FormedLeaves.path {ns : List PCFNNode} (hns : FormedLeaves ctx ns) (d : ℕ) :
    ∃ p, Follows d (.leaves ns) p .normal := by
  obtain ⟨p, hpath, -⟩ := leaves_pass d ns fun n hn =>
    leaf_passes n (hns n hn).1 (hns n hn).2 d
  exact ⟨p, hpath⟩

theorem leaves_on {n : PCFNNode} {ns : List PCFNNode} {d : ℕ} (hk : LeafKind n)
    (hns : FormedLeaves ctx ns) {p : Path} {o : Outcome} (hp : Follows d (.node n) p o) :
    ∃ q o, Follows d (.leaves (n :: ns)) (p ++ q) o := by
  rcases leafKind_outcome hk hp with rfl | ho
  · obtain ⟨q, hleaves⟩ := hns.path d
    exact ⟨q, _, .leavesCons hp hleaves⟩
  · exact ⟨[], o, by rw [List.append_nil]; exact .leavesStop hp ho⟩

/-- A path through a loop's statements goes on through the round. -/
theorem Formed.round_on {n : PCFNNode} {d : ℕ} (hn : Formed ctx n) {p : Path} {o : Outcome}
    (hp : Follows (d + PCFNNode.bodyStep n) (.list n.body) p o) :
    ∃ q o, Follows d (.round n) (p ++ q) o := by
  by_cases ho : o.latches
  · obtain ⟨q, hleaves, -⟩ := hn.leaves_pass (d + 1)
    exact ⟨q, _, .round hp ho hleaves⟩
  · exact ⟨[], o, by rw [List.append_nil]; exact .roundStop hp ho⟩

/-- How a round ends that is followed by no other. -/
theorem Follows.round_outcome {n : PCFNNode} {d : ℕ} {p : Path} {o : Outcome}
    (hp : Follows d (.round n) p o) : o = .normal ∨ o = .broke ∨ o.leaves := by
  cases hp with
  | round _ _ hleaves => exact hleaves.leaves_outcome.imp_right Or.inr
  | roundStop hlist hlatch =>
    cases o with
    | normal => exact absurd (Or.inl rfl) hlatch
    | continued => exact absurd (Or.inr rfl) hlatch
    | broke => exact Or.inr (Or.inl rfl)
    | exited => exact Or.inr (Or.inr (Or.inl rfl))
    | errored => exact Or.inr (Or.inr (Or.inr (Or.inl rfl)))
    | failed => exact absurd rfl hlist.ne_failed

theorem loop_on {n : PCFNNode} {d : ℕ} {p : Path} {o : Outcome} (hp : Follows d (.round n) p o) :
    ∃ q o, Follows d (.loop n) (p ++ q) o := by
  rcases hp.round_outcome with rfl | rfl | ho
  · exact ⟨[], _, .loopRound hp .loopStop⟩
  · exact ⟨[], _, by rw [List.append_nil]; exact .loopBreak hp⟩
  · exact ⟨[], o, by rw [List.append_nil]; exact .loopLeave hp ho⟩

theorem tail_on {n : PCFNNode} {d : ℕ} (hk : n.kind = .repeatUntil) (hbody : n.body ≠ []) {p : Path}
    {o : Outcome} (hp : Follows d (.round n) p o) : ∃ q o, Follows d (.body n) (p ++ q) o := by
  rcases hp.round_outcome with rfl | rfl | ho
  · exact ⟨[], _, .tailLoop hk hbody hp .loopStop⟩
  · exact ⟨[], _, by rw [List.append_nil]; exact .tailBreak hk hbody hp⟩
  · exact ⟨[], o, by rw [List.append_nil]; exact .tailStop hk hbody hp ho⟩

/-! ## 4. The path behind a run -/

/-- **What the runs leave out could be gone through**: a leaf that may not run keeps what is
compared, and an `asserterror` statement that fails changes nothing of it and is not left for the end
of a round. -/
def Spares (C : Compare T) (sel : PCFNNode → Bool → Prop) : Prop :=
  ∀ n, sel n false → (n.pathHint = some .mayRun → ∀ m ∈ n.subtree, C.Keeps m) ∧
    (n.pathHint = some .assertError → Enclosed n ∧ ∀ m ∈ n.subtree, C.Still m)

/-- The path over a subtree that is given up; only a `try` keeps a state where the routine is left. -/
def GivesUp (deep : Bool) (p : Path) (o : Outcome) : Prop :=
  p = [none] ∧ (o = .normal ∨ deep = false ∧ (o = .exited ∨ o = .errored))

/-- **A node as the comparison needs it**: in form; the state given up stands for the runs of the
subtrees that are given up; a counting loop's header lowers nothing behind its first evaluation; and
where the order does not see to it, no `repeat` is empty. -/
structure Treads (C : Compare T) (ctx : WalkCtx) (sel : PCFNNode → Bool → Prop) (d : ℕ)
    (n : PCFNNode) : Prop where
  formed : Formed ctx n
  skips : ∀ g ∈ givenUp n d, ∀ t o, Exec sel (.node g.1) t o → ∀ h h', C.le h h' →
    Ends C (GivesUp g.2) h h' t o
  header : ∀ m ∈ n.subtree, m.kind = .forTo ∨ m.kind = .foreach →
    ∀ t, Exec sel (.leaves m.leaves) t .normal →
      ∀ h u, C.le (T.run (T.run h t) u) (T.run (T.run (T.run h t) u) t)
  rounds : C.Falls ∨ ∀ m ∈ n.subtree, m.kind = .repeatUntil → m.body ≠ []

namespace Treads

variable {d : ℕ} {n c : PCFNNode}

theorem part (hn : Treads C ctx sel d n) (hc : c ∈ n.parts) {d' : ℕ}
    (hsub : givenUp c d' ⊆ givenUp n d) : Treads C ctx sel d' c where
  formed := hn.formed.part hc
  skips := fun g hg => hn.skips g (hsub hg)
  header := fun m hm => hn.header m (PCFNNode.subtree_subset hc hm)
  rounds := hn.rounds.imp_right fun h m hm => h m (PCFNNode.subtree_subset hc hm)

theorem leaf (hn : Treads C ctx sel d n) (hd : Entered d n) (hc : c ∈ n.leaves) :
    Treads C ctx sel (d + 1) c := by
  refine hn.part (List.mem_append_left _ hc) fun g hg => ?_
  rw [givenUp_parts hd.1 hd.2]
  exact List.mem_append_left _ (List.mem_flatMap.mpr ⟨c, hc, hg⟩)

theorem body (hn : Treads C ctx sel d n) (hd : Entered d n) (hc : c ∈ n.body) :
    Treads C ctx sel (d + PCFNNode.bodyStep n) c := by
  refine hn.part (List.mem_append_right _ (List.mem_append_left _ hc)) fun g hg => ?_
  rw [givenUp_parts hd.1 hd.2]
  exact List.mem_append_right _ (List.mem_append_left _ (List.mem_flatMap.mpr ⟨c, hc, hg⟩))

theorem elseBody (hn : Treads C ctx sel d n) (hd : Entered d n) (hc : c ∈ n.elseBody) :
    Treads C ctx sel (d + 1) c := by
  refine hn.part (List.mem_append_right _ (List.mem_append_right _ hc)) fun g hg => ?_
  rw [givenUp_parts hd.1 hd.2]
  exact List.mem_append_right _ (List.mem_append_right _ (List.mem_flatMap.mpr ⟨c, hc, hg⟩))

/-- The statements of a node that is no `repeat` are one level down. -/
theorem body_one (hn : Treads C ctx sel d n) (hd : Entered d n) (hk : n.kind ≠ .repeatUntil)
    (hc : c ∈ n.body) : Treads C ctx sel (d + 1) c := by
  have hstep : PCFNNode.bodyStep n = 1 := if_neg hk
  exact hstep ▸ hn.body hd hc

/-- A node that is not entered is given up. -/
theorem gaveUp (hn : Treads C ctx sel d n) (hd : ¬ Entered d n) {t : List PCFNNode} {o : Outcome}
    (hrun : Exec sel (.node n) t o) {h h' : T.Hist} (hle : C.le h h') :
    Ends C (Follows d (.node n)) h h' t o := by
  by_cases hdeep : maxCfgWalkDepth < d
  · refine (hn.skips (n, true) (by simp [givenUp_deep hdeep]) t o hrun h h' hle).mono ?_
    rintro p o ⟨rfl, rfl | ⟨hfalse, -⟩⟩
    · exact .gaveUp hd
    · exact Bool.noConfusion hfalse
  · have hdepth : d ≤ maxCfgWalkDepth := Nat.not_lt.mp hdeep
    have hk : n.kind = .tryBlock := by
      by_contra hk
      exact hd ⟨hdepth, hk⟩
    refine (hn.skips (n, false) (by simp [givenUp_try hdepth hk]) t o hrun h h' hle).mono ?_
    rintro p o ⟨rfl, rfl | ⟨-, ho⟩⟩
    · exact .gaveUp hd
    · exact .gaveUpExit hdepth hk ho

end Treads

/-- The leaves of a condition, as the comparison needs them. -/
def TreadsLeaves (C : Compare T) (ctx : WalkCtx) (sel : PCFNNode → Bool → Prop) (d : ℕ)
    (ns : List PCFNNode) : Prop := ∀ n ∈ ns, Treads C ctx sel d n ∧ LeafKind n

theorem TreadsLeaves.formed {d : ℕ} {ns : List PCFNNode} (h : TreadsLeaves C ctx sel d ns) :
    FormedLeaves ctx ns := fun n hn => ⟨(h n hn).1.formed, (h n hn).2⟩

theorem Treads.leaves {d : ℕ} {n : PCFNNode} (hn : Treads C ctx sel d n) (hd : Entered d n) :
    TreadsLeaves C ctx sel (d + 1) n.leaves :=
  fun c hc => ⟨hn.leaf hd hc, hn.formed.node.leafKinds c hc⟩

theorem Treads.before {d : ℕ} {n : PCFNNode} (hn : Treads C ctx sel d n) (hd : Entered d n) :
    TreadsLeaves C ctx sel (d + 1) n.before := by
  unfold PCFNNode.before
  split <;> first | exact hn.leaves hd | (intro m hm; simp at hm)

/-- **The header of a counting loop can be evaluated again** behind `h`. -/
def Rechecks (C : Compare T) (n : PCFNNode) (d : ℕ) (h : T.Hist) : Prop :=
  n.kind = .forTo ∨ n.kind = .foreach → ∀ u k', C.le (T.run h u) k' →
    Ends C (Follows (d + 1) (.leaves n.leaves)) (T.run h u) k' [] .normal

theorem Rechecks.run {n : PCFNNode} {d : ℕ} {h : T.Hist} (hh : Rechecks C n d h)
    (t : List PCFNNode) : Rechecks C n d (T.run h t) := fun hk u k' hle => by
  rw [← T.run_append] at hle ⊢
  exact hh hk (t ++ u) k' hle

/-- A round of a loop; without a body it is the condition. -/
def RoundPath (d : ℕ) (n : PCFNNode) (p : Path) (o : Outcome) : Prop :=
  if n.body = [] then Follows (d + 1) (.leaves n.leaves) p o else Follows d (.round n) p o

/-- **What the walk of a piece of code follows of a run of it.** -/
def Reads (C : Compare T) (ctx : WalkCtx) (sel : PCFNNode → Bool → Prop) :
    Code → List PCFNNode → Outcome → Prop
  | .node n, t, o => ∀ d h h', Treads C ctx sel d n → C.le h h' →
      Ends C (Follows d (.node n)) h h' t o
  | .list ns, t, o => ∀ d h h', (∀ n ∈ ns, Treads C ctx sel d n) → C.le h h' →
      Ends C (Follows d (.list ns)) h h' t o
  | .leaves ns, t, o => ∀ d h h', TreadsLeaves C ctx sel d ns → C.le h h' →
      Ends C (Follows d (.leaves ns)) h h' t o
  | .body n, t, o => ∀ d h h', Treads C ctx sel d n → Entered d n → Rechecks C n d h → C.le h h' →
      Ends C (Follows d (.body n)) h h' t o
  | .round n, t, o => ∀ d h h', Treads C ctx sel d n → Entered d n → IsLoop n → Rechecks C n d h →
      C.le h h' → Ends C (RoundPath d n) h h' t o
  | .loop n, t, o => ∀ d h h', Treads C ctx sel d n → Entered d n → IsLoop n → Rechecks C n d h →
      C.le h h' → if n.body = [] then t = [] ∧ o = .normal ∨ Ends C (RoundPath d n) h h' t o
        else Ends C (Follows d (.loop n)) h h' t o

/-- A loop with a condition first has a body. -/
theorem headLoop_body {n : PCFNNode} (hn : NodeForm ctx n) (hk : n.kind.isHeadLoop) :
    n.body ≠ [] := by
  intro hnil
  have hone := hn.oneBody hk
  simp [hnil] at hone

/-- A loop evaluates its condition at the end of a round, or only before the first. -/
theorem IsLoop.again {n : PCFNNode} (hn : IsLoop n) :
    n.again = n.leaves ∨
      n.again = [] ∧ n.before = n.leaves ∧ (n.kind = .forTo ∨ n.kind = .foreach) := by
  rcases hn with (hk | hk | hk) | hk <;> simp [PCFNNode.again, PCFNNode.before, hk]

theorem roundPath_empty {d : ℕ} {n : PCFNNode} (hempty : n.body = []) :
    RoundPath d n = Follows (d + 1) (.leaves n.leaves) := by
  funext p o
  exact if_pos hempty

theorem roundPath_body {d : ℕ} {n : PCFNNode} (hbody : n.body ≠ []) :
    RoundPath d n = Follows d (.round n) := by
  funext p o
  exact if_neg hbody

theorem Formed.roundPath {n : PCFNNode} (hn : Formed ctx n) (d : ℕ) : ∃ p o, RoundPath d n p o := by
  by_cases hbody : n.body = []
  · rw [roundPath_empty hbody]
    obtain ⟨p, hleaves, -⟩ := hn.leaves_pass (d + 1)
    exact ⟨p, _, hleaves⟩
  · rw [roundPath_body hbody]
    obtain ⟨p, o, hlist⟩ := hn.body.path (d + PCFNNode.bodyStep n)
    obtain ⟨q, o, hround⟩ := hn.round_on hlist
    exact ⟨p ++ q, o, hround⟩

theorem IsLoop.empty_repeat {n : PCFNNode} (hn : IsLoop n) (hform : NodeForm ctx n)
    (hempty : n.body = []) : n.kind = .repeatUntil :=
  hn.resolve_left fun hk => headLoop_body hform hk hempty

/-- The statements of a round that has none. -/
theorem exec_emptyList {t : List PCFNNode} {o : Outcome} (h : Exec sel (.list []) t o) :
    t = [] ∧ (o = .normal ∨ o = .failed) := by
  cases h with
  | fail => exact ⟨rfl, Or.inr rfl⟩
  | nil => exact ⟨rfl, Or.inl rfl⟩

/-- **The walk follows a path that comes to no less than the run.**  By induction on the run. -/
theorem exec_follows (hT : Lawful ctx T) (hsel : Spares C sel) {c : Code} {t : List PCFNNode}
    {o : Outcome} (h : Exec sel c t o) : Reads C ctx sel c t o := by
  induction h with
  | fail c =>
    cases c with
    | node n => exact fun d _ _ hn hle => .failed hle (node_passes n hn.formed d).path
    | list ns =>
      exact fun d _ _ hns hle => .failed hle (FormedAll.path (fun n hn => (hns n hn).formed) d)
    | leaves ns =>
      intro d h h' hns hle
      obtain ⟨p, hpath⟩ := hns.formed.path d
      exact .failed hle ⟨p, _, hpath⟩
    | body n =>
      exact fun d _ _ hn _ _ hle => .failed hle
        (body_passes hn.formed (fun c hc => node_passes c (hn.formed.part hc)) d).path
    | round n => exact fun d _ _ hn _ _ _ hle => .failed hle (hn.formed.roundPath d)
    | loop n =>
      intro d h h' hn _ _ _ hle
      split
      · exact Or.inr (.failed hle (hn.formed.roundPath d))
      · exact .failed hle ⟨[], _, .loopStop⟩
  | @node n t₁ t₂ o hl hb ihl ihb =>
    intro d h h' hn hle
    by_cases hd : Entered d n
    · refine Ends.seq (G := fun p o => ∃ q, p = some n :: q ∧ Follows d (.body n) q o)
        (ihl (d + 1) h h' (hn.before hd) hle) (by simp) (fun k' hk' => ?_) ?_
        fun p₁ o hp => hn.formed.node_on hd hp
      · have hcheck : Rechecks C n d (T.step (T.run h t₁) n) := by
          intro hfor u k' hu
          have hloop : IsLoop n := by
            rcases hfor with hk | hk <;> simp [IsLoop, CfnKind.isHeadLoop, hk]
          have hleaves : n.before = n.leaves := by
            rcases hfor with hk | hk <;> simp [PCFNNode.before, hk]
          rw [hloop.step hT] at hu ⊢
          rw [hleaves] at hl ihl
          -- the header again lowers nothing
          exact (ihl (d + 1) _ k' (hn.leaves hd) hu).without
            (hn.header n n.mem_subtree_self hfor t₁ hl h u)
        obtain ⟨q, o', hq, hrest⟩ := ihb d _ _ hn hd hcheck (C.step n hk')
        exact ⟨some n :: q, o', ⟨q, rfl, hq⟩, hrest⟩
      · rintro p₁ _ o hp ⟨q, rfl, hq⟩
        exact .node hd hp hq
    · exact hn.gaveUp hd (.node hl hb) hle
  | @nodeStop n t o hl ho ihl =>
    intro d h h' hn hle
    by_cases hd : Entered d n
    · exact (ihl (d + 1) h h' (hn.before hd) hle).last id (fun p hp => .nodeStop hd hp ho)
        fun p o hp => hn.formed.node_on hd hp
    · exact hn.gaveUp hd (.nodeStop hl ho) hle
  | nil => exact fun d h h' _ hle => .of_le .nil hle
  | @cons n ns t₁ t₂ o _ _ ihn ihns =>
    intro d h h' hns hle
    have hrest : ∀ m ∈ ns, Treads C ctx sel d m := fun m hm => hns m (List.mem_cons_of_mem _ hm)
    exact Ends.seq (ihn d h h' (hns n List.mem_cons_self) hle) (by simp)
      (fun k' hk' => ihns d _ k' hrest hk') (fun p₁ p₂ o hp hq => .cons hp hq)
      fun p o hp => list_on (fun m hm => (hrest m hm).formed) hp
  | @stop n ns t o _ ho ihn =>
    intro d h h' hns hle
    exact (ihn d h h' (hns n List.mem_cons_self) hle).last id (fun p hp => .stop hp ho)
      fun p o hp => list_on (fun m hm => (hns m (List.mem_cons_of_mem _ hm)).formed) hp
  | leavesNil => exact fun d h h' _ hle => .of_le .leavesNil hle
  | @leavesCons n ns t₁ t₂ o _ _ ihn ihns =>
    intro d h h' hns hle
    obtain ⟨hn, hk⟩ := hns n List.mem_cons_self
    have hrest : TreadsLeaves C ctx sel d ns := fun m hm => hns m (List.mem_cons_of_mem _ hm)
    exact Ends.seq (ihn d h h' hn hle) (by simp) (fun k' hk' => ihns d _ k' hrest hk')
      (fun p₁ p₂ o hp hq => .leavesCons hp hq) fun p o hp => leaves_on hk hrest.formed hp
  | @leavesStop n ns t o _ ho ihn =>
    intro d h h' hns hle
    obtain ⟨hn, hk⟩ := hns n List.mem_cons_self
    have hrest : TreadsLeaves C ctx sel d ns := fun m hm => hns m (List.mem_cons_of_mem _ hm)
    exact (ihn d h h' hn hle).last id (fun p hp => .leavesStop hp ho)
      fun p o hp => leaves_on hk hrest.formed hp
  | @leavesSkip n ns t o hmay hskip _ ih =>
    intro d h h' hns hle
    obtain ⟨hn, hk⟩ := hns n List.mem_cons_self
    have hrest : TreadsLeaves C ctx sel d ns := fun m hm => hns m (List.mem_cons_of_mem _ hm)
    -- the walk evaluates the leaf, which keeps the history
    obtain ⟨p, hleaf, hmem⟩ := leaf_passes n hn.formed hk d
    have hkeep : C.le h' (T.walk h' p) :=
      C.le_walk (fun m hm g => C.keeps g ((hsel n hskip).1 hmay m (hmem m hm))) h'
    obtain ⟨q, o', hq, hends⟩ := ih d h _ hrest (C.trans hle hkeep)
    refine ⟨p ++ q, o', .leavesCons hleaf hq, ?_⟩
    rw [T.walk_append]
    exact hends
  | leaf hk => exact fun d h h' _ _ _ hle => .of_le (.leaf hk) hle
  | exit hk => exact fun d h h' _ _ _ hle => .of_le (.exit hk) hle
  | error hk => exact fun d h h' _ _ _ hle => .of_le (.error hk) hle
  | breakLoop hk => exact fun d h h' _ _ _ hle => .of_le (.breakLoop hk) hle
  | continueLoop hk => exact fun d h h' _ _ _ hle => .of_le (.continueLoop hk) hle
  | @sequence n t o hk _ ih =>
    intro d h h' hn hd _ hle
    have hrepeat : n.kind ≠ .repeatUntil := by rcases hk with hk | hk | hk | hk <;> simp [hk]
    exact (ih (d + 1) h h' (fun c hc => hn.body_one hd hrepeat hc) hle).mono
      fun p o hp => .sequence hk hp
  | @caught n t o _ hassert hskip hbody ho ih =>
    intro d h h' hn hd hcheck hle
    obtain ⟨hclosed, hstill⟩ := (hsel n hskip).2 hassert
    by_cases htop : C.Top (T.run h t)
    · obtain ⟨p, o', hp, hends⟩ := ih d h h' hn hd hcheck hle
      exact ⟨p, o', hp, Or.inl (hends.resolve_right fun hnot => hnot.1 htop)⟩
    · -- the walk goes through the whole statement, which changes nothing
      have hsame : T.run h t = h := C.still_run (fun m hm => hstill m (by
        have hsub := exec_nodes hbody hm
        simpa [AlSem.Body.codeNodes, AlSem.Body.subtrees_singleton] using hsub)) htop
      obtain ⟨p, hp, hmem⟩ :=
        (body_passes hn.formed (fun c hc => node_passes c (hn.formed.part hc)) d).normal hclosed
      refine ⟨p, _, hp, Or.inr ⟨htop, Or.inr ⟨rfl, ?_⟩⟩⟩
      rw [hsame]
      exact C.trans hle (C.le_walk (fun m hm g => C.still_le g (hstill m (hmem m hm))) h')
  | @thenBranch n t o hk _ _ ih =>
    intro d h h' hn hd _ hle
    exact (ih (d + 1) h h' (fun c hc => hn.body_one hd (by simp [hk]) hc) hle).mono
      fun p o hp => .thenBranch hk hp
  | @elseBranch n t o hk _ _ ih =>
    intro d h h' hn hd _ hle
    exact (ih (d + 1) h h' (fun c hc => hn.elseBody hd hc) hle).mono
      fun p o hp => .elseBranch hk hp
  | @branch n b t o hk _ hb _ ih =>
    intro d h h' hn hd _ hle
    exact (ih (d + 1) h h' (hn.body_one hd (by simp [hk]) hb) hle).mono
      fun p o hp => .branch hk hb hp
  | noBranch hk hnone =>
    exact fun d h h' _ _ _ hle => .of_le (.noBranch hk fun c hc => (hnone c hc).2) hle
  | @headLoop n t o hk _ ih =>
    intro d h h' hn hd hcheck hle
    have hends := ih d h h' hn hd (Or.inl hk) hcheck hle
    rw [if_neg (headLoop_body hn.formed.node hk)] at hends
    exact hends.mono fun p o hp => .headLoop hk hp
  | @tailLoop n t₁ t₂ o hk _ _ ihr ihl =>
    intro d h h' hn hd hcheck hle
    have hround := ihr d h h' hn hd (Or.inr hk) hcheck hle
    by_cases hbody : n.body = []
    · rw [roundPath_empty hbody] at hround
      have hfalls : C.Falls :=
        hn.rounds.resolve_right fun hall => hall n n.mem_subtree_self hk hbody
      refine (Ends.fell hfalls hround hle fun hdown => ?_).mono fun p o hp => .once hk hbody hp
      have hends := ihl d _ h' hn hd (Or.inr hk) (hcheck.run t₁) hdown
      rwa [if_pos hbody, roundPath_empty hbody] at hends
    · rw [roundPath_body hbody] at hround
      refine Ends.seq hround (by simp) (fun k' hk' => ?_)
        (fun p₁ p₂ o hp hq => .tailLoop hk hbody hp hq) fun p o hp => tail_on hk hbody hp
      have hends := ihl d _ k' hn hd (Or.inr hk) (hcheck.run t₁) hk'
      rwa [if_neg hbody] at hends
  | @tailBreak n t hk _ ihr =>
    intro d h h' hn hd hcheck hle
    have hround := ihr d h h' hn hd (Or.inr hk) hcheck hle
    by_cases hbody : n.body = []
    · rw [roundPath_empty hbody] at hround
      exact (hround.not_broke .normal).mono fun p o hp => .once hk hbody hp
    · rw [roundPath_body hbody] at hround
      exact hround.last Outcome.noConfusion (fun p hp => .tailBreak hk hbody hp)
        fun p o hp => tail_on hk hbody hp
  | @tailStop n t o hk _ ho ihr =>
    intro d h h' hn hd hcheck hle
    have hround := ihr d h h' hn hd (Or.inr hk) hcheck hle
    by_cases hbody : n.body = []
    · rw [roundPath_empty hbody] at hround
      exact hround.mono fun p o hp => .once hk hbody hp
    · rw [roundPath_body hbody] at hround
      exact hround.last id (fun p hp => .tailStop hk hbody hp ho)
        fun p o hp => tail_on hk hbody hp
  | @round n t₁ t₂ o₁ o hlist ho₁ hl ihb ihl =>
    intro d h h' hn hd hloop hcheck hle
    by_cases hbody : n.body = []
    · have hk := hloop.empty_repeat hn.formed.node hbody
      have hagain : n.again = n.leaves := by simp [PCFNNode.again, hk]
      rw [hbody] at hlist
      obtain ⟨rfl, -⟩ := exec_emptyList hlist
      rw [roundPath_empty hbody, List.nil_append]
      rw [hagain] at ihl
      exact ihl (d + 1) h h' (hn.leaves hd) hle
    · rw [roundPath_body hbody]
      have hfail : o₁ ≠ .failed := by rcases ho₁ with rfl | rfl <;> simp
      refine Ends.seq (ihb _ h h' (fun c hc => hn.body hd hc) hle) hfail (fun k' hk' => ?_)
        (fun p₁ p₂ o hp hq => .round hp ho₁ hq) fun p o hp => hn.formed.round_on hp
      rcases hloop.again with hagain | ⟨hagain, -, hfor⟩
      · rw [hagain] at ihl
        exact ihl (d + 1) _ k' (hn.leaves hd) hk'
      · -- the walk evaluates the header again
        rw [hagain] at hl
        cases hl with
        | fail =>
          obtain ⟨p, hleaves, -⟩ := hn.formed.leaves_pass (d + 1)
          exact .failed hk' ⟨p, _, hleaves⟩
        | leavesNil => exact hcheck hfor t₁ k' hk'
  | @roundStop n t o hlist ho ihb =>
    intro d h h' hn hd hloop hcheck hle
    by_cases hbody : n.body = []
    · rw [hbody] at hlist
      obtain ⟨rfl, rfl | rfl⟩ := exec_emptyList hlist
      · exact absurd (Or.inl rfl) ho
      · exact .failed hle (hn.formed.roundPath d)
    · rw [roundPath_body hbody]
      exact (ihb _ h h' (fun c hc => hn.body hd hc) hle).last id (fun p hp => .roundStop hp ho)
        fun p o hp => hn.formed.round_on hp
  | @loopStop n =>
    intro d h h' _ _ _ _ hle
    split
    · exact Or.inl ⟨rfl, rfl⟩
    · exact .of_le .loopStop hle
  | @loopRound n t₁ t₂ o _ _ ihr ihl =>
    intro d h h' hn hd hloop hcheck hle
    have hround := ihr d h h' hn hd hloop hcheck hle
    split
    · rename_i hbody
      have hk := hloop.empty_repeat hn.formed.node hbody
      have hfalls : C.Falls :=
        hn.rounds.resolve_right fun hall => hall n n.mem_subtree_self hk hbody
      refine Or.inr (Ends.fell hfalls hround hle fun hdown => ?_)
      have hends := ihl d _ h' hn hd hloop (hcheck.run t₁) hdown
      rwa [if_pos hbody] at hends
    · rename_i hbody
      rw [roundPath_body hbody] at hround
      refine Ends.seq hround (by simp) (fun k' hk' => ?_) (fun p₁ p₂ o hp hq => .loopRound hp hq)
        fun p o hp => loop_on hp
      have hends := ihl d _ k' hn hd hloop (hcheck.run t₁) hk'
      rwa [if_neg hbody] at hends
  | @loopBreak n t _ ihr =>
    intro d h h' hn hd hloop hcheck hle
    have hround := ihr d h h' hn hd hloop hcheck hle
    split
    · rename_i hbody
      rw [roundPath_empty hbody] at hround ⊢
      exact Or.inr (hround.not_broke .normal)
    · rename_i hbody
      rw [roundPath_body hbody] at hround
      exact hround.last Outcome.noConfusion (fun p hp => .loopBreak hp) fun p o hp => loop_on hp
  | @loopLeave n t o _ ho ihr =>
    intro d h h' hn hd hloop hcheck hle
    have hround := ihr d h h' hn hd hloop hcheck hle
    split
    · exact Or.inr hround
    · rename_i hbody
      rw [roundPath_body hbody] at hround
      exact hround.last id (fun p hp => .loopLeave hp ho) fun p o hp => loop_on hp

end AlSem.L4
