/-
# What one more routine changes

A call that binds one routine before a routine is added to the program, and one routine after, binds the
same routine or the new one (`resolveInObject_stable`): no declaration hands a call from one of the others
to another.  Each stage of the resolution sees the same overloads as before, or one more, or the new one
alone (`OneMore`, `inBuild_oneMore`); the pick by arguments is `pickCandidate_stable`.

A call that binds nothing says why: each reason names the stage that left no overload, or several
(`resolveInObject_reason`).
-/
import AlSem.Resolve.InObject
import AlSem.Resolve.PickOverload
import AlSem.Resolve.TypeClauses

namespace AlSem.Resolve

/-! ## 1. One more element -/

/-- The second list is the first one, or has `x` in it once more. -/
def OneMore {α : Type} (x : α) (l l' : List α) : Prop :=
  l' = l ∨ ∃ l₁ l₂, l = l₁ ++ l₂ ∧ l' = l₁ ++ x :: l₂

namespace OneMore

variable {α β : Type} {x : α} {l l' : List α}

theorem map (h : OneMore x l l') (f : α → β) : OneMore (f x) (l.map f) (l'.map f) := by
  rcases h with rfl | ⟨l₁, l₂, rfl, rfl⟩
  · exact .inl rfl
  · exact .inr ⟨l₁.map f, l₂.map f, List.map_append, by rw [List.map_append, List.map_cons]⟩

/-- A filter may drop the new element, and reads the old ones alike. -/
theorem filter (h : OneMore x l l') {p p' : α → Bool} (hp : ∀ y ∈ l, p' y = p y) :
    OneMore x (l.filter p) (l'.filter p') := by
  rcases h with rfl | ⟨l₁, l₂, rfl, rfl⟩
  · exact .inl (List.filter_congr hp)
  rw [List.filter_append, List.filter_append, List.filter_cons,
    List.filter_congr fun y hy => hp y (List.mem_append_left l₂ hy),
    List.filter_congr fun y hy => hp y (List.mem_append_right l₁ hy)]
  cases p' x with
  | true => exact .inr ⟨_, _, rfl, rfl⟩
  | false => exact .inl rfl

theorem mem_or (h : OneMore x l l') {y : α} (hy : y ∈ l') : y ∈ l ∨ y = x := by
  rcases h with rfl | ⟨l₁, l₂, rfl, rfl⟩
  · exact .inl hy
  · rw [List.mem_append, List.mem_cons] at hy
    rw [List.mem_append]
    rcases hy with hy | hy | hy
    · exact .inl (.inl hy)
    · exact .inr hy
    · exact .inl (.inr hy)

theorem length_le (h : OneMore x l l') : l.length ≤ l'.length := by
  rcases h with rfl | ⟨l₁, l₂, rfl, rfl⟩
  · exact le_rfl
  · simp

end OneMore

/-! ## 2. What the stages read -/

/-- A program with one more routine, with an id of its own: what is read of an id is read of one of its
routines, so a second routine of an id can change what is read of the first.  What was read of the others
is read again, save where they stand: a declaration above them moves them down their file. -/
structure Added (x : RoutineNode) (g g' : ProgramGraph) : Prop where
  routines : OneMore x g.routines g'.routines
  fresh : ∀ r ∈ g.routines, r.id ≠ x.id
  routine : ∀ rid, rid ≠ x.id → g'.routine rid = g.routine rid
  isFriend : g'.isFriend = g.isFriend
  objectExtends : g'.objectExtends = g.objectExtends
  scopeOf : g'.scopeOf = g.scopeOf
  surface : ∀ rid, rid ≠ x.id →
    (g'.surface rid).map RoutineMeta.placeless = (g.surface rid).map RoutineMeta.placeless
  candidateParamInfosAbi : ∀ rid, rid ≠ x.id → g'.candidateParamInfosAbi rid = g.candidateParamInfosAbi rid
  routineMethodId : ∀ r ∈ g.routines, g'.routineMethodId r = g.routineMethodId r

variable {g g' : ProgramGraph} {x : RoutineNode} {call : Call}

theorem ProgramGraph.mem_candidates {rid : RoutineNodeId} :
    rid ∈ g.candidates call ↔ ∃ r ∈ g.routines, r.id = rid ∧ rid.object = call.object ∧
      rid.nameLc = call.nameLc ∧ r.isTrigger = false := by
  simp only [candidates, routinesNamed, List.mem_map, List.mem_filter, decide_eq_true_eq,
    Bool.not_eq_true']
  constructor
  · rintro ⟨r, ⟨⟨hr, hobject, hname⟩, htrigger⟩, rfl⟩
    exact ⟨r, hr, rfl, hobject, hname, htrigger⟩
  · rintro ⟨r, hr, rfl, hobject, hname, htrigger⟩
    exact ⟨r, ⟨⟨hr, hobject, hname⟩, htrigger⟩, rfl⟩

theorem ProgramGraph.mem_visible {rid : RoutineNodeId} (h : rid ∈ g.visible call) :
    rid ∈ g.candidates call :=
  (List.mem_filter.mp (List.mem_filter.mp h).1).1

theorem ProgramGraph.mem_inBuild {build : BuildContext} {visible : List RoutineNodeId}
    {rid : RoutineNodeId} (h : rid ∈ g.inBuild build visible) : rid ∈ visible := by
  unfold inBuild at h
  dsimp only at h
  split at h
  · split at h
    · exact h
    · exact (List.mem_filter.mp h).1
  · exact h

namespace Added

variable (h : Added x g g')
include h

theorem ne_of_mem {rid : RoutineNodeId} (hrid : rid ∈ g.candidates call) : rid ≠ x.id := by
  obtain ⟨r, hr, rfl, -⟩ := ProgramGraph.mem_candidates.mp hrid
  exact h.fresh r hr

/-- What is known of a declaration before and after: nothing twice, or the same but for its place. -/
theorem surface_cases {rid : RoutineNodeId} (hne : rid ≠ x.id) :
    (g.surface rid = none ∧ g'.surface rid = none) ∨
      ∃ routine routine', g.surface rid = some routine ∧ g'.surface rid = some routine' ∧
        routine'.placeless = routine.placeless := by
  have hsame := h.surface rid hne
  cases hold : g.surface rid with
  | none =>
    rw [hold, Option.map_none, Option.map_eq_none_iff] at hsame
    exact .inl ⟨rfl, hsame⟩
  | some routine =>
    rw [hold, Option.map_some, Option.map_eq_some_iff] at hsame
    obtain ⟨routine', hnew, hplaceless⟩ := hsame
    exact .inr ⟨routine, routine', rfl, hnew, hplaceless⟩

theorem makeRoutineRoute_target (tier : TrustTier) {rid : RoutineNodeId} (hne : rid ≠ x.id) :
    (g'.makeRoutineRoute tier rid).target = (g.makeRoutineRoute tier rid).target := by
  rw [ProgramGraph.makeRoutineRoute, ProgramGraph.makeRoutineRoute]
  rcases h.surface_cases hne with ⟨hold, hnew⟩ | ⟨routine, routine', hold, hnew, -⟩
  · rw [hold, hnew]
  · rw [hold, hnew]

theorem visible_eq (fromObject : ObjectNodeId) {rid : RoutineNodeId} (hne : rid ≠ x.id) :
    g'.routineCandidateIsVisible fromObject rid = g.routineCandidateIsVisible fromObject rid := by
  rw [ProgramGraph.routineCandidateIsVisible, ProgramGraph.routineCandidateIsVisible,
    ProgramGraph.lookupRoutineAccess, ProgramGraph.lookupRoutineAccess, h.routine rid hne]
  unfold ProgramGraph.objectAccessVisibleFrom ProgramGraph.internalVisibleAcross
  rw [h.isFriend, h.objectExtends]

theorem contexts_eq {rid : RoutineNodeId} (hne : rid ≠ x.id) : g'.contexts rid = g.contexts rid := by
  have hnodes : g'.routinesWithId rid = g.routinesWithId rid := by
    unfold ProgramGraph.routinesWithId
    rcases h.routines with he | ⟨l₁, l₂, he, he'⟩
    · rw [he]
    · rw [he, he', List.filter_append, List.filter_append, List.filter_cons_of_neg]
      simpa using fun heq => hne heq.symm
  rw [ProgramGraph.contexts, hnodes, ProgramGraph.contexts]

theorem routineOutsideBuild_eq (build : BuildContext) {rid : RoutineNodeId} (hne : rid ≠ x.id) :
    g'.routineOutsideBuild build rid = g.routineOutsideBuild build rid := by
  rw [ProgramGraph.routineOutsideBuild, ProgramGraph.routineOutsideBuild, h.contexts_eq hne]

theorem candidateParamInfosEither_eq {rid : RoutineNodeId} (hne : rid ≠ x.id) :
    g'.candidateParamInfosEither rid = g.candidateParamInfosEither rid := by
  rw [ProgramGraph.candidateParamInfosEither, ProgramGraph.candidateParamInfosEither]
  rcases h.surface_cases hne with ⟨hold, hnew⟩ | ⟨routine, routine', hold, hnew, hplaceless⟩
  · rw [hold, hnew, h.candidateParamInfosAbi rid hne]
  · rw [hold, hnew, h.scopeOf]
    exact FoldScope.candidateParamInfos_placeless _ hplaceless

theorem visible_oneMore (call : Call) : OneMore x.id (g.visible call) (g'.visible call) := by
  have hcandidates : OneMore x.id (g.candidates call) (g'.candidates call) :=
    ((h.routines.filter fun _ _ => rfl).filter fun _ _ => rfl).map _
  refine (hcandidates.filter fun _ _ => rfl).filter fun rid hrid => ?_
  exact h.visible_eq _ (h.ne_of_mem (List.mem_filter.mp hrid).1)

/-- **The narrowing to a build** leaves the overloads it left before, or one more, or the new one
alone. -/
theorem inBuild_oneMore (build : BuildContext) {V V' : List RoutineNodeId} (hV : OneMore x.id V V')
    (hne : ∀ rid ∈ V, rid ≠ x.id) :
    OneMore x.id (g.inBuild build V) (g'.inBuild build V') ∨ g'.inBuild build V' = [x.id] := by
  have hB : OneMore x.id (V.filter fun rid => !g.routineOutsideBuild build rid)
      (V'.filter fun rid => !g'.routineOutsideBuild build rid) :=
    hV.filter fun rid hrid => by rw [h.routineOutsideBuild_eq build (hne rid hrid)]
  have hlength := hV.length_le
  unfold ProgramGraph.inBuild
  dsimp only
  by_cases hlong' : 1 < V'.length ∧ build ≠ []
  · rw [if_pos hlong']
    by_cases hlong : 1 < V.length
    · rw [if_pos ⟨hlong, hlong'.2⟩]
      rcases hB with hB | ⟨l₁, l₂, hB, hB'⟩
      · rw [hB]
        split
        · exact .inl hV
        · exact .inl (.inl rfl)
      · rw [hB, hB', if_neg (show l₁ ++ x.id :: l₂ ≠ [] by simp)]
        by_cases hempty : l₁ ++ l₂ = []
        · obtain ⟨rfl, rfl⟩ := List.append_eq_nil_iff.mp hempty
          exact .inr rfl
        · rw [if_neg hempty]
          exact .inl (.inr ⟨l₁, l₂, rfl, rfl⟩)
    · rw [if_neg fun hl => hlong hl.1]
      -- a single overload stays, unless the build leaves the new one alone
      have hall : V.filter (fun rid => !g.routineOutsideBuild build rid) = [] ∨
          V.filter (fun rid => !g.routineOutsideBuild build rid) = V := by
        rcases V with _ | ⟨a, _ | ⟨b, V⟩⟩
        · exact .inl rfl
        · cases ha : g.routineOutsideBuild build a with
          | true => exact .inl (by simp [ha])
          | false => exact .inr (by simp [ha])
        · simp at hlong
      split
      · exact .inl hV
      · rename_i hleft
        rcases hall with hnil | hself
        · rw [hnil] at hB
          rcases hB with hB | ⟨l₁, l₂, hB, hB'⟩
          · exact absurd hB hleft
          · obtain ⟨rfl, rfl⟩ := List.append_eq_nil_iff.mp hB.symm
            exact .inr hB'
        · rw [hself] at hB
          exact .inl hB
  · rw [if_neg hlong', if_neg fun hl => hlong' ⟨by omega, hl.2⟩]
    exact .inl hV

end Added

/-! ## 3. The overloads of a pick -/

theorem ProgramGraph.allParamInfos_read : ∀ {rids : List RoutineNodeId} {params : List Candidate},
    g.allParamInfos rids = .ok (some params) →
      List.Forall₂ (fun rid cand => g.candidateParamInfosEither rid = .ok (some cand)) rids params
  | [], params, h => by
    simp only [allParamInfos, Except.ok.injEq, Option.some.injEq] at h
    rw [← h]
    exact .nil
  | rid :: rids, params, h => by
    unfold allParamInfos at h
    cases hread : g.candidateParamInfosEither rid with
    | error stop => simp [hread, bind, Except.bind] at h
    | ok read =>
      cases read with
      | none => simp [hread, bind, Except.bind, pure, Except.pure] at h
      | some cand =>
        cases hrest : g.allParamInfos rids with
        | error stop => simp [hread, hrest, bind, Except.bind] at h
        | ok rest =>
          cases rest with
          | none => simp [hread, hrest, bind, Except.bind, pure, Except.pure] at h
          | some cands =>
            simp only [hread, hrest, bind, Except.bind, pure, Except.pure, Option.map_some,
              Except.ok.injEq, Option.some.injEq] at h
            rw [← h]
            exact .cons hread (allParamInfos_read hrest)

/-- A pick reads the parameters of every overload. -/
theorem ProgramGraph.pickAmong_read {args : List ArgDispatchInfo} {visible : List RoutineNodeId}
    {rid : RoutineNodeId} (h : g.pickAmong args visible = .ok (some rid)) :
    ∃ params i, g.allParamInfos visible = .ok (some params) ∧ pickCandidate args params = some i ∧
      visible[i]? = some rid := by
  unfold pickAmong at h
  split at h
  · cases hread : g.allParamInfos visible with
    | error stop => simp [hread, bind, Except.bind] at h
    | ok read =>
      cases read with
      | none => simp [hread, bind, Except.bind, pure, Except.pure] at h
      | some params =>
        simp only [hread, bind, Except.bind, pure, Except.pure, Option.bind_some, Except.ok.injEq,
          Option.bind_eq_some_iff] at h
        obtain ⟨i, hpick, hi⟩ := h
        exact ⟨params, i, rfl, hpick, hi⟩
  · simp at h

/-- **What is bound** of the overloads left: the only one, or the one the arguments pick. -/
inductive Chosen (g : ProgramGraph) (call : Call) (left : List RoutineNodeId) (rid : RoutineNodeId) : Prop
  | sole (h : left = [rid]) (hmark : g.routineIsCollapseMarked rid = false)
  | picked (hmany : 2 ≤ left.length) (hclean : g.degraded left = false)
      (h : g.pickAmong call.args left = .ok (some rid))

theorem Chosen.mem {left : List RoutineNodeId} {rid : RoutineNodeId} (h : Chosen g call left rid) :
    rid ∈ left := by
  cases h with
  | sole h _ => rw [h]; exact List.mem_singleton_self rid
  | picked _ _ h =>
    obtain ⟨-, i, -, -, hi⟩ := ProgramGraph.pickAmong_read h
    exact List.mem_of_getElem? hi

/-- A route to a routine. -/
def Bound (result : DispatchShape × List Route) (route : Route) : Prop :=
  result = (.exact, [route]) ∧ route.target ≠ .unresolved

theorem not_bound_unresolved {reason : UnknownReason} {route : Route}
    (h : Bound (.exact, [unresolvedRoute reason]) route) : False := by
  obtain ⟨h, hroute⟩ := h
  simp only [Prod.mk.injEq, true_and, List.cons.injEq, and_true] at h
  exact hroute (h ▸ rfl)

theorem resolveVisible_chosen {left : List RoutineNodeId} {result : DispatchShape × List Route}
    {route : Route} (h : g.resolveVisible call left = .ok result) (hbound : Bound result route) :
    ∃ rid, route = g.makeRoutineRoute call.tier rid ∧ Chosen g call left rid := by
  unfold ProgramGraph.resolveVisible at h
  split at h
  · cases h
    exact (not_bound_unresolved hbound).elim
  · rename_i rid
    split at h
    · cases h
      exact (not_bound_unresolved hbound).elim
    · rename_i hmark
      cases h
      have hroute := hbound.1
      simp only [Prod.mk.injEq, true_and, List.cons.injEq, and_true] at hroute
      exact ⟨rid, hroute.symm, .sole rfl (by simpa using hmark)⟩
  · rename_i hnil hsingle
    have hmany : 2 ≤ left.length := by
      rcases left with _ | ⟨a, _ | ⟨b, rest⟩⟩
      · exact absurd rfl hnil
      · exact absurd rfl (hsingle a)
      · simp
    split at h
    · cases h
      exact (not_bound_unresolved hbound).elim
    · rename_i hclean
      cases hpick : g.pickAmong call.args left with
      | error stop => simp [hpick, bind, Except.bind] at h
      | ok pick =>
        simp only [hpick, bind, Except.bind, pure, Except.pure] at h
        cases pick with
        | some rid =>
          cases h
          have hroute := hbound.1
          simp only [Prod.mk.injEq, true_and, List.cons.injEq, and_true] at hroute
          exact ⟨rid, hroute.symm, .picked hmany (by simpa using hclean) hpick⟩
        | none =>
          cases h
          unfold ProgramGraph.ambiguousOverload at hbound
          dsimp only at hbound
          split at hbound
          · exact (not_bound_unresolved hbound).elim
          · exact absurd (congrArg Prod.fst hbound.1) (by simp)

/-! ## 4. One more routine -/

theorem forall₂_unique {α β : Type} {R R' : α → β → Prop} : ∀ {l : List α} {m m' : List β},
    (∀ a ∈ l, ∀ b b', R a b → R' a b' → b = b') → List.Forall₂ R l m → List.Forall₂ R' l m' → m = m'
  | _, _, _, _, .nil, .nil => rfl
  | _, _, _, hR, .cons h hs, .cons h' hs' => by
    rw [hR _ List.mem_cons_self _ _ h h',
      forall₂_unique (fun a ha => hR a (List.mem_cons_of_mem _ ha)) hs hs']

theorem forall₂_append {α β : Type} {R : α → β → Prop} : ∀ {l₁ l₂ : List α} {m : List β},
    List.Forall₂ R (l₁ ++ l₂) m →
      ∃ m₁ m₂, m = m₁ ++ m₂ ∧ List.Forall₂ R l₁ m₁ ∧ List.Forall₂ R l₂ m₂
  | [], _, m, h => ⟨[], m, rfl, .nil, h⟩
  | a :: l₁, l₂, _, .cons (b := b) h hs => by
    obtain ⟨m₁, m₂, rfl, h₁, h₂⟩ := forall₂_append hs
    exact ⟨b :: m₁, m₂, rfl, .cons h h₁, h₂⟩

theorem insertIdx_append {α : Type} (l₁ l₂ : List α) (x : α) :
    (l₁ ++ l₂).insertIdx l₁.length x = l₁ ++ x :: l₂ := by
  induction l₁ with
  | nil => rfl
  | cons a l₁ ih => exact congrArg (a :: ·) ih

/-- An old element, where it stands now. -/
theorem getElem?_shifted {α : Type} (l₁ l₂ : List α) (x : α) (i : ℕ) :
    (l₁ ++ x :: l₂)[shifted l₁.length i]? = (l₁ ++ l₂)[i]? := by
  unfold shifted
  split
  · rename_i hi
    rw [List.getElem?_append_left hi, List.getElem?_append_left hi]
  · rename_i hi
    rw [List.getElem?_append_right (by omega), List.getElem?_append_right (by omega),
      show i + 1 - l₁.length = i - l₁.length + 1 by omega, List.getElem?_cons_succ]

/-- **The choice** among the old overloads, and among them and the new one. -/
theorem Chosen.stable (h : Added x g g') {left left' : List RoutineNodeId} {a b : RoutineNodeId}
    (hleft : OneMore x.id left left' ∨ left' = [x.id]) (hne : ∀ rid ∈ left, rid ≠ x.id)
    (ha : Chosen g call left a) (hb : Chosen g' call left' b) : b = a ∨ b = x.id := by
  by_cases hbx : b = x.id
  · exact .inr hbx
  left
  have hmem := hb.mem
  rcases hleft with hone | hsole
  swap
  · rw [hsole] at hmem
    exact absurd (List.mem_singleton.mp hmem) hbx
  have hold := (hone.mem_or hmem).resolve_right hbx
  cases ha with
  | sole ha _ =>
    rw [ha] at hold
    exact List.mem_singleton.mp hold
  | picked hmany _ ha =>
    cases hb with
    | sole hb _ =>
      have := hone.length_le
      rw [hb, List.length_singleton] at this
      omega
    | picked _ _ hb =>
      obtain ⟨params, i, hparams, hpick, hi⟩ := ProgramGraph.pickAmong_read ha
      obtain ⟨params', j, hparams', hpick', hj⟩ := ProgramGraph.pickAmong_read hb
      have hread := ProgramGraph.allParamInfos_read hparams
      have hread' := ProgramGraph.allParamInfos_read hparams'
      have hagree : ∀ rid ∈ left, ∀ c c', g.candidateParamInfosEither rid = .ok (some c) →
          g'.candidateParamInfosEither rid = .ok (some c') → c = c' := by
        intro rid hrid c c' hc hc'
        rw [h.candidateParamInfosEither_eq (hne rid hrid), hc] at hc'
        simpa using hc'
      rcases hone with rfl | ⟨l₁, l₂, rfl, rfl⟩
      · rw [forall₂_unique hagree hread hread', hpick'] at hpick
        cases hpick
        exact Option.some.inj (hj.symm.trans hi)
      · obtain ⟨m₁, m₂, rfl, hm₁, hm₂⟩ := forall₂_append hread
        obtain ⟨m₁', n, rfl, hm₁', hn⟩ := forall₂_append hread'
        cases hn with
        | @cons _ c _ m₂' _ hm₂' =>
          have h₁ := forall₂_unique (fun rid hrid => hagree rid (List.mem_append_left l₂ hrid)) hm₁ hm₁'
          have h₂ := forall₂_unique (fun rid hrid => hagree rid (List.mem_append_right l₁ hrid)) hm₂ hm₂'
          subst h₁ h₂
          have hlength : m₁.length ≤ (m₁ ++ m₂).length := by simp
          rw [← insertIdx_append] at hpick'
          rw [← hm₁.length_eq] at hpick' hlength
          rcases pickCandidate_stable hlength hpick hpick' with hjk | hshift
          · rw [hjk, List.getElem?_append_right le_rfl, Nat.sub_self, List.getElem?_cons_zero] at hj
            exact absurd (Option.some.inj hj).symm hbx
          · rw [hshift, getElem?_shifted, hi] at hj
            exact (Option.some.inj hj).symm

/-- The two routes go to one routine, that was declared before. -/
def SameRoutine (x : RoutineNode) (g g' : ProgramGraph) (tier : TrustTier) (route route' : Route) : Prop :=
  ∃ rid, rid ≠ x.id ∧ route = g.makeRoutineRoute tier rid ∧ route' = g'.makeRoutineRoute tier rid

/-- A routine of a method id is bound alone, so one more takes its place from no other. -/
theorem resolveByMethodId_stable (h : Added x g g') {n : ℤ} {route route' : Route}
    (hbefore : Bound (g.resolveByMethodId call n) route)
    (hafter : Bound (g'.resolveByMethodId call n) route') : SameRoutine x g g' call.tier route route' := by
  have hone : OneMore x
      (g.routines.filter fun r =>
        r.id.object = call.object ∧ r.isTrigger = false ∧ g.routineMethodId r = some n)
      (g'.routines.filter fun r =>
        r.id.object = call.object ∧ r.isTrigger = false ∧ g'.routineMethodId r = some n) :=
    h.routines.filter fun r hr => by rw [h.routineMethodId r hr]
  have hold : ∀ r ∈ g.routines.filter (fun r =>
      r.id.object = call.object ∧ r.isTrigger = false ∧ g.routineMethodId r = some n), r.id ≠ x.id :=
    fun r hr => h.fresh r (List.mem_filter.mp hr).1
  unfold ProgramGraph.resolveByMethodId at hbefore hafter
  split at hbefore
  · rename_i r hr
    rw [hr] at hone hold
    split at hafter
    · rename_i r' hr'
      rw [hr'] at hone
      have hsame : r' = r := by
        rcases hone with he | ⟨l₁, l₂, he, he'⟩
        · exact List.singleton_inj.mp he
        · have h₁ := congrArg List.length he
          have h₂ := congrArg List.length he'
          simp only [List.length_append, List.length_cons] at h₁ h₂
          omega
      have hroute := hbefore.1
      have hroute' := hafter.1
      simp only [Prod.mk.injEq, true_and, List.cons.injEq, and_true] at hroute hroute'
      exact ⟨r.id, hold r List.mem_cons_self, hroute.symm, by rw [← hroute', hsame]⟩
    · exact (not_bound_unresolved hafter).elim
    · exact (not_bound_unresolved hafter).elim
  · exact (not_bound_unresolved hbefore).elim
  · exact (not_bound_unresolved hbefore).elim

/-- A call binds one routine. -/
def ProgramGraph.Binds (g : ProgramGraph) (call : Call) (route : Route) : Prop :=
  ∃ result, g.resolveInObject call = .ok (some result) ∧ Bound result route

theorem ProgramGraph.Binds.cases {route : Route} (h : g.Binds call route) :
    (∃ n, synthesizedCallId call.nameLc = some n ∧ Bound (g.resolveByMethodId call n) route) ∨
      (synthesizedCallId call.nameLc = none ∧ ∃ rid, route = g.makeRoutineRoute call.tier rid ∧
        Chosen g call (g.inBuild call.build (g.visible call)) rid) := by
  obtain ⟨result, h, hbound⟩ := h
  unfold resolveInObject at h
  split at h
  · rename_i n hn
    cases h
    exact .inl ⟨n, hn, hbound⟩
  rename_i hname
  split at h
  · simp at h
  split at h
  · cases h
    exact (not_bound_unresolved hbound).elim
  cases hread : g.resolveVisible call (g.inBuild call.build (g.visible call)) with
  | error stop => simp [hread, Except.map] at h
  | ok result' =>
    simp only [hread, Except.map, Except.ok.injEq, Option.some.injEq] at h
    subst h
    exact .inr ⟨hname, resolveVisible_chosen hread hbound⟩

theorem ProgramGraph.Binds.stable (h : Added x g g') {route route' : Route} (hbefore : g.Binds call route)
    (hafter : g'.Binds call route') :
    SameRoutine x g g' call.tier route route' ∨ route' = g'.makeRoutineRoute call.tier x.id := by
  rcases hbefore.cases with ⟨n, hn, hbefore⟩ | ⟨hname, a, rfl, ha⟩
  · rcases hafter.cases with ⟨n', hn', hafter⟩ | ⟨hname', -⟩
    · rw [hn] at hn'
      cases hn'
      exact .inl (resolveByMethodId_stable h hbefore hafter)
    · rw [hn] at hname'
      cases hname'
  · rcases hafter.cases with ⟨n', hn', -⟩ | ⟨-, b, rfl, hb⟩
    · rw [hname] at hn'
      cases hn'
    · have hold : ∀ rid ∈ g.visible call, rid ≠ x.id := fun rid hrid =>
        h.ne_of_mem (ProgramGraph.mem_visible hrid)
      have hleft := h.inBuild_oneMore call.build (h.visible_oneMore call) hold
      have hne : ∀ rid ∈ g.inBuild call.build (g.visible call), rid ≠ x.id := fun rid hrid =>
        hold rid (ProgramGraph.mem_inBuild hrid)
      rcases Chosen.stable h hleft hne ha hb with rfl | rfl
      · exact .inl ⟨b, hne b ha.mem, rfl, rfl⟩
      · exact .inr rfl

/-- **No declaration hands a call over**: once one more routine is declared, a call that still binds one
routine binds the one it bound before, or the new one.  Its route is the route it had, where no declaration
has moved. -/
theorem resolveInObject_stable (h : Added x g g') {route route' : Route} (hbefore : g.Binds call route)
    (hafter : g'.Binds call route') :
    (route'.target = route.target ∨ route' = g'.makeRoutineRoute call.tier x.id) ∧
      ((∀ rid, rid ≠ x.id → g'.surface rid = g.surface rid) →
        route' = route ∨ route' = g'.makeRoutineRoute call.tier x.id) := by
  rcases hbefore.stable h hafter with ⟨rid, hne, rfl, rfl⟩ | hnew
  · refine ⟨.inl (h.makeRoutineRoute_target call.tier hne), fun hplaces => .inl ?_⟩
    rw [ProgramGraph.makeRoutineRoute, ProgramGraph.makeRoutineRoute, hplaces rid hne]
  · exact ⟨.inr hnew, fun _ => .inr hnew⟩

/-- A program of declared routines that names no objects. -/
def declaredGraph (declared : List (RoutineNode × RoutineMeta)) : ProgramGraph where
  routines := declared.map (·.1)
  routine id := (declared.map (·.1)).find? fun r => r.id = id
  routine_mem := fun h => ⟨List.mem_of_find?_eq_some h, by simpa using List.find?_some h⟩
  routine_isSome := fun node hnode => List.find?_isSome.mpr ⟨node, hnode, by simp⟩
  isFriend _ _ := false
  objectExtends _ _ := false
  surface id := (declared.find? fun p => p.1.id = id).map (·.2)
  scopeOf _ := { noObjects with
    fold_secrettext := fun c hc => by
      by_contra hwide
      have hstay : noObjects.foldChar c = c := dif_neg fun hu => by
        have h65 : ('Z'.val).toNat = 90 := rfl
        have hz := UInt32.le_iff_toNat_le.mp hu.2
        exact hwide (show c.val.toNat < 128 by omega)
      rw [hstay] at hc
      have hnarrow : ∀ d ∈ "secrettext".toList, d.toNat < 128 := Text.forall_mem_of_all (by decide)
      exact hwide (hnarrow c hc) }
  candidateParamInfosAbi _ := none
  routineMethodId _ := none

/-- `P`, with one parameter, in a codeunit; it starts at `start`. -/
def overload (ty : String) (fp start : ℕ) : RoutineNode × RoutineMeta :=
  ({ id := { object := ⟨0, .codeunit, .id 50100⟩, nameLc := "p", enclosingMemberLc := none,
             paramsCount := 1, sigFp := fp }
     isTrigger := false, access := .public', abiOverloadCollapsed := false
     sourceOverloadAliased := false, preprocContext := [] },
   { parseIncomplete := false, params := [⟨some ty, false⟩], virtualPath := "P.al"
     origin := (start, start + 60) })

/-- `P('abc')` with `P(Text)` declared, and with `P(Integer)` declared above it too, which moves it down. -/
theorem resolveInObject_stable_text :
    let call : Call := {
      object := ⟨0, .codeunit, .id 50100⟩, tier := .workspace, nameLc := "p", arity := 1
      fromObject := ⟨0, .codeunit, .id 50101⟩
      args := [⟨some (.base "text"), some "text", some .text, false⟩], build := [] }
    let g := declaredGraph [overload "Text" 1 30]
    let g' := declaredGraph [overload "Integer" 2 30, overload "Text" 1 100]
    let route := g.makeRoutineRoute .workspace (overload "Text" 1 30).1.id
    let route' := g'.makeRoutineRoute .workspace (overload "Text" 1 30).1.id
    Added (overload "Integer" 2 30).1 g g' ∧ g.Binds call route ∧ g'.Binds call route' ∧ route' ≠ route ∧
      (route'.target = route.target ∨
        route' = g'.makeRoutineRoute .workspace (overload "Integer" 2 30).1.id) := by
  intro call g g' route route'
  have hne : (overload "Text" 1 30).1.id ≠ (overload "Integer" 2 30).1.id := by decide
  have hadded : Added (overload "Integer" 2 30).1 g g' := by
    refine ⟨.inr ⟨[], [(overload "Text" 1 30).1], rfl, rfl⟩, ?_, ?_, rfl, rfl, rfl, ?_, fun _ _ => rfl,
      fun _ _ => rfl⟩
    · intro r hr
      rw [List.mem_singleton.mp hr]
      exact hne
    · intro rid hrid
      have hskip : ¬ decide ((overload "Integer" 2 30).1.id = rid) = true := by simpa using hrid.symm
      exact List.find?_cons_of_neg (p := fun r : RoutineNode => r.id = rid) hskip
    · intro rid hrid
      have hskip : ¬ decide ((overload "Integer" 2 30).1.id = rid) = true := by simpa using hrid.symm
      have hrest : g'.surface rid = (declaredGraph [overload "Text" 1 100]).surface rid :=
        congrArg (Option.map _)
          (List.find?_cons_of_neg (p := fun r : RoutineNode × RoutineMeta => r.1.id = rid) hskip)
      rw [hrest]
      by_cases htext : (overload "Text" 1 30).1.id = rid
      · subst htext
        rfl
      · have hnone : ∀ start, (declaredGraph [overload "Text" 1 start]).surface rid = none := by
          intro start
          exact Option.map_eq_none_iff.mpr (List.find?_eq_none.mpr fun p hp => by
            rw [List.mem_singleton.mp hp]
            exact fun hid => htext (of_decide_eq_true hid))
        rw [hnone 100, show g.surface rid = none from hnone 30]
  have hbefore : g.Binds call route := ⟨(.exact, [route]), by decide, rfl, by decide⟩
  have hafter : g'.Binds call route' := ⟨(.exact, [route']), by decide, rfl, by decide⟩
  exact ⟨hadded, hbefore, hafter, by decide, (resolveInObject_stable hadded hbefore hafter).1⟩

/-! ## 5. Reasons -/

/-- Every routine of a call's name has a declaration, or is known from symbols. -/
def ProgramGraph.Declared (g : ProgramGraph) (call : Call) : Prop :=
  ∀ rid ∈ g.candidates call, (g.surface rid).isSome = true ∨ call.tier = .symbolOnly

theorem ProgramGraph.makeRoutineRoute_resolved {tier : TrustTier} {rid : RoutineNodeId}
    (h : (g.surface rid).isSome = true ∨ tier = .symbolOnly) :
    (g.makeRoutineRoute tier rid).evidence.isUnknown = false := by
  unfold makeRoutineRoute
  cases hread : g.surface rid with
  | some routine => cases tier <;> rfl
  | none =>
    have htier : tier = .symbolOnly := h.resolve_left (by simp [hread])
    simp [htier, Evidence.isUnknown]

/-- **A routine that is not seen has a reason.** -/
theorem ProgramGraph.exclusionReason_isSome {fromObject : ObjectNodeId} {node : RoutineNode}
    (hmem : node ∈ g.routines)
    (hvisible : g.routineCandidateIsVisible fromObject node.id = false) :
    ∃ reason, g.exclusionReason node.id.object fromObject node.id = some reason := by
  have hread := g.routine_isSome node hmem
  obtain ⟨node', hnode'⟩ := Option.isSome_iff_exists.mp hread
  simp only [routineCandidateIsVisible, lookupRoutineAccess, hnode', Option.map_some] at hvisible
  simp only [exclusionReason, lookupRoutineAccess, hnode', Option.map_some]
  cases haccess : node'.access with
  | public' => simp [haccess, objectAccessVisibleFrom] at hvisible
  | local' =>
    simp only [haccess, objectAccessVisibleFrom, decide_eq_false_iff_not] at hvisible
    exact ⟨.localNotVisible, if_pos hvisible⟩
  | internal =>
    simp only [haccess, objectAccessVisibleFrom] at hvisible
    exact ⟨.internalNotVisible, if_pos (by simp [hvisible])⟩
  | protected' =>
    simp only [haccess, objectAccessVisibleFrom, Bool.or_eq_false_iff, decide_eq_false_iff_not] at hvisible
    exact ⟨.protectedNotVisible, if_pos hvisible⟩

/-- What a reason says of a call that binds nothing. -/
def ProgramGraph.Explains (g : ProgramGraph) (call : Call) : UnknownReason → Prop
  | .arityMismatch => g.candidates call ≠ [] ∧ g.matched call = []
  | .localNotVisible | .internalNotVisible | .protectedNotVisible =>
    g.matched call ≠ [] ∧ g.visible call = []
  | .abiCollapsedOverload => ∃ rid, g.inBuild call.build (g.visible call) = [rid] ∧
      g.routineIsCollapseMarked rid = true
  | .overloadAmbiguous => 2 ≤ (g.inBuild call.build (g.visible call)).length
  | .indexIntegrationGap => False

theorem unresolved_eq {shape : DispatchShape} {reason : UnknownReason} {route : Route}
    (h : (shape, [route]) = (DispatchShape.exact, [unresolvedRoute reason])) :
    route = unresolvedRoute reason := by
  simp only [Prod.mk.injEq, List.cons.injEq, and_true] at h
  exact h.2

theorem unresolvedRoute_inj {reason reason' : UnknownReason}
    (h : unresolvedRoute reason = unresolvedRoute reason') : reason = reason' :=
  Evidence.unknown.inj (congrArg Route.evidence h)

/-- The narrowing leaves something of something. -/
theorem ProgramGraph.inBuild_eq_nil {build : BuildContext} {visible : List RoutineNodeId}
    (h : g.inBuild build visible = []) : visible = [] := by
  unfold inBuild at h
  dsimp only at h
  split at h
  · split at h
    · exact h
    · rename_i hleft
      exact absurd h hleft
  · exact h

/-- Where no overload of the arity is seen, the reason is the access of one of them. -/
theorem ProgramGraph.accessExclusionReason_explains (hmatched : g.matched call ≠ [])
    (hvisible : g.visible call = []) :
    ∃ reason, g.accessExclusionReason call = some reason ∧ g.Explains call reason := by
  have hsome : (g.accessExclusionReason call).isSome = true := by
    obtain ⟨rid, hrid⟩ := List.exists_mem_of_ne_nil _ hmatched
    obtain ⟨hcandidate, harity⟩ := List.mem_filter.mp hrid
    obtain ⟨node, hnode, rfl, hobject, hname, -⟩ := mem_candidates.mp hcandidate
    have hnot : g.routineCandidateIsVisible call.fromObject node.id = false := by
      by_contra hvis
      have : node.id ∈ g.visible call := List.mem_filter.mpr ⟨hrid, by simpa using hvis⟩
      rw [hvisible] at this
      exact absurd this (by simp)
    obtain ⟨reason, hreason⟩ := exclusionReason_isSome hnode hnot
    refine List.findSome?_isSome_iff.mpr ⟨node.id, ?_, by rw [← hobject, hreason]; rfl⟩
    refine List.mem_filter.mpr ⟨List.mem_map_of_mem (List.mem_filter.mpr ⟨hnode, ?_⟩), harity⟩
    exact decide_eq_true ⟨hobject, hname⟩
  obtain ⟨reason, hreason⟩ := Option.isSome_iff_exists.mp hsome
  refine ⟨reason, hreason, ?_⟩
  obtain ⟨rid, -, hrid⟩ := List.exists_of_findSome?_eq_some hreason
  have hkinds : reason = .localNotVisible ∨ reason = .internalNotVisible ∨
      reason = .protectedNotVisible := by
    unfold exclusionReason at hrid
    split at hrid
    · exact .inl (by simpa using (Option.ite_none_right_eq_some.mp hrid).2.symm)
    · exact .inr (.inl (by simpa using (Option.ite_none_right_eq_some.mp hrid).2.symm))
    · exact .inr (.inr (by simpa using (Option.ite_none_right_eq_some.mp hrid).2.symm))
    · simp at hrid
  rcases hkinds with rfl | rfl | rfl
  all_goals exact ⟨hmatched, hvisible⟩

theorem ProgramGraph.Declared.not_unresolved (hdeclared : g.Declared call) {rid : RoutineNodeId}
    (hrid : rid ∈ g.candidates call) {reason : UnknownReason}
    (h : g.makeRoutineRoute call.tier rid = unresolvedRoute reason) : False := by
  have hknown := makeRoutineRoute_resolved (g := g) (hdeclared rid hrid)
  rw [h] at hknown
  exact absurd hknown (by simp [unresolvedRoute, Evidence.isUnknown])

/-- **Every reason names its stage**, and there is never a gap in the index to blame. -/
theorem resolveInObject_reason (hname : synthesizedCallId call.nameLc = none) (hdeclared : g.Declared call)
    {reason : UnknownReason}
    (h : g.resolveInObject call = .ok (some (.exact, [unresolvedRoute reason]))) :
    g.Explains call reason := by
  unfold ProgramGraph.resolveInObject at h
  rw [hname] at h
  dsimp only at h
  split at h
  · simp at h
  rename_i hcandidates
  split at h
  · rename_i hmatched
    have hreason := unresolvedRoute_inj (unresolved_eq (Option.some.inj (Except.ok.inj h)))
    subst hreason
    exact ⟨hcandidates, hmatched⟩
  rename_i hmatched
  cases hread : g.resolveVisible call (g.inBuild call.build (g.visible call)) with
  | error stop => simp [hread, Except.map] at h
  | ok result =>
    simp only [hread, Except.map, Except.ok.injEq, Option.some.injEq] at h
    subst h
    have hcandidate : ∀ rid ∈ g.inBuild call.build (g.visible call), rid ∈ g.candidates call :=
      fun rid hrid => ProgramGraph.mem_visible (ProgramGraph.mem_inBuild hrid)
    generalize hleft : g.inBuild call.build (g.visible call) = left at hread hcandidate
    unfold ProgramGraph.resolveVisible at hread
    split at hread
    · have hvisible := ProgramGraph.inBuild_eq_nil hleft
      obtain ⟨found, hfound, hexplains⟩ :=
        ProgramGraph.accessExclusionReason_explains hmatched hvisible
      have hreason := unresolvedRoute_inj (unresolved_eq (Except.ok.inj hread))
      rw [hfound, Option.getD_some] at hreason
      exact hreason ▸ hexplains
    · rename_i rid
      split at hread
      · rename_i hmark
        have hreason := unresolvedRoute_inj (unresolved_eq (Except.ok.inj hread))
        subst hreason
        exact ⟨rid, hleft, hmark⟩
      · exact (hdeclared.not_unresolved (hcandidate rid List.mem_cons_self)
          (unresolved_eq (Except.ok.inj hread))).elim
    · rename_i hnil hsingle
      have hmany : 2 ≤ left.length := by
        rcases left with _ | ⟨a, _ | ⟨b, rest⟩⟩
        · exact absurd rfl hnil
        · exact absurd rfl (hsingle a)
        · simp
      have hambiguous : reason = .overloadAmbiguous → g.Explains call reason := by
        rintro rfl
        change 2 ≤ (g.inBuild call.build (g.visible call)).length
        rw [hleft]
        exact hmany
      split at hread
      · exact hambiguous (unresolvedRoute_inj (unresolved_eq (Except.ok.inj hread))).symm
      cases hpick : g.pickAmong call.args left with
      | error stop => simp [hpick, bind, Except.bind] at hread
      | ok pick =>
        simp only [hpick, bind, Except.bind, pure, Except.pure] at hread
        cases pick with
        | some rid =>
          obtain ⟨-, i, -, -, hi⟩ := ProgramGraph.pickAmong_read hpick
          exact (hdeclared.not_unresolved (hcandidate rid (List.mem_of_getElem? hi))
            (unresolved_eq (Except.ok.inj hread))).elim
        | none =>
          have hread := Except.ok.inj hread
          unfold ProgramGraph.ambiguousOverload at hread
          dsimp only at hread
          split at hread
          · exact hambiguous (unresolvedRoute_inj (unresolved_eq hread)).symm
          · exact absurd (congrArg Prod.fst hread) (by simp)

/-- Two arguments where `P(Text)` alone is declared. -/
theorem resolveInObject_reason_arity :
    let call : Call := {
      object := ⟨0, .codeunit, .id 50100⟩, tier := .workspace, nameLc := "p", arity := 2
      fromObject := ⟨0, .codeunit, .id 50101⟩, args := [], build := [] }
    (declaredGraph [overload "Text" 1 30]).Explains call .arityMismatch := by
  intro call
  refine resolveInObject_reason (by decide) (fun rid hrid => .inl ?_) (by decide)
  have hall : ∀ rid ∈ (declaredGraph [overload "Text" 1 30]).candidates call,
      ((declaredGraph [overload "Text" 1 30]).surface rid).isSome = true := by decide
  exact hall rid hrid

end AlSem.Resolve
