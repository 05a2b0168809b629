/-
# What any walk hands over

What holds of the calls of a walk whether or not a cap cut it: a property that the roots and the
hub have and that goes over every site has hold of every state handed over; the hidden channels
reported are those of the nodes met, each node's; and a walk that was cut said so.
-/
import AlSem.Impact.ReverseWalkExact

namespace AlSem.Impact

open Levels

/-! ## 1. The reports of a node -/

/-- The `hidden` calls among the calls. -/
def hiddens (calls : List Call) : List (ℕ × HiddenChannel) :=
  calls.filterMap fun c =>
    match c with
    | .hidden _ n ch => some (n, ch)
    | _ => none

@[simp] theorem hiddens_append (as bs : List Call) :
    hiddens (as ++ bs) = hiddens as ++ hiddens bs :=
  List.filterMap_append

/-- The channels a node is reported with. -/
def channels (g : SitedGraph) (n : ℕ) : List HiddenChannel :=
  (if g.hasFlag n Flag.universal then [.universal] else []) ++
    (g.hiddenCallers n).map .flag

section Calls

variable {g : SitedGraph} {opts : WalkOptions} {v : ConeVisitor}

theorem hiddens_hiddenCalls (root n : ℕ) :
    hiddens (hiddenCalls g root n) = (channels g n).map fun ch => (n, ch) := by
  unfold hiddens hiddenCalls channels
  rw [List.filterMap_append, List.map_append]
  congr 1
  · split <;> rfl
  · rw [List.filterMap_map, List.map_map]
    exact List.filterMap_eq_map_iff_forall_eq_some.mpr fun ch _ => rfl

/-- The per-state reports tell no channel and no cap. -/
theorem stateCalls_kind {q : Queued} {hops : ℕ} {c : Call} (hc : c ∈ stateCalls g opts q hops) :
    (∀ root n ch, c ≠ .hidden root n ch) ∧ ∀ l, c ≠ .limit l := by
  unfold stateCalls at hc
  rcases List.mem_append.mp hc with hc | hc
  · rcases List.mem_append.mp hc with hc | hc
    · split at hc
      · cases hc
      · obtain rfl := List.mem_singleton.mp hc
        simp
    · split at hc
      · cases hc
      · obtain ⟨f, -, rfl⟩ := List.mem_map.mp hc
        simp
  · split at hc
    · obtain rfl := List.mem_singleton.mp hc
      simp
    · cases hc

theorem hiddens_stateCalls (q : Queued) (hops : ℕ) : hiddens (stateCalls g opts q hops) = [] := by
  unfold hiddens
  rw [List.filterMap_eq_nil_iff]
  intro c hc
  have hkind := (stateCalls_kind hc).1
  cases c with
  | hidden root n ch => exact absurd rfl (hkind root n ch)
  | _ => rfl

theorem hiddens_report (q : Queued) (w : WalkRun) :
    hiddens (report g opts q w).calls = hiddens w.calls ++
      if w.scratch.hiddenDone.contains q.state.node then []
      else (channels g q.state.node).map fun ch => (q.state.node, ch) := by
  show hiddens (w.calls ++ Call.reach q.root q.state w.hops q.via q.source :: _) = _
  rw [hiddens_append]
  congr 1
  show hiddens ((if !w.scratch.hiddenDone.contains q.state.node then
    hiddenCalls g q.root q.state.node else []) ++ stateCalls g opts q w.hops) = _
  rw [hiddens_append, hiddens_stateCalls, List.append_nil]
  cases w.scratch.hiddenDone.contains q.state.node with
  | true => rfl
  | false =>
    simp only [Bool.not_false, if_true]
    exact hiddens_hiddenCalls _ _

/-! ## 2. The invariant -/

/-- **What every step of a walk keeps**, cut or not, for a property `P` of labels and states. -/
structure Told (g : SitedGraph) (P : ℕ → WalkState → Prop) (w : WalkRun) : Prop where
  next : ∀ q ∈ w.scratch.next, P q.root q.state
  reached : ∀ r ∈ reaches w.calls, P r.root r.state
  done : ∀ n, n ∈ w.scratch.hiddenDone ↔ ∃ r ∈ reaches w.calls, r.state.node = n
  hidden : ∀ n ch, (n, ch) ∈ hiddens w.calls ↔ n ∈ w.scratch.hiddenDone ∧ ch ∈ channels g n
  cut : w.stats.limited = true → ∃ l, Call.limit l ∈ w.calls

variable {P : ℕ → WalkState → Prop}

/-- Calls that hand over nothing and report no channel. -/
theorem Told.call {w w' : WalkRun} {c : List Call} (h : Told g P w)
    (hnext : w'.scratch.next = w.scratch.next)
    (hdone : w'.scratch.hiddenDone = w.scratch.hiddenDone) (hcalls : w'.calls = w.calls ++ c)
    (hreaches : reaches c = []) (hhiddens : hiddens c = [])
    (hcut : w'.stats.limited = true → w.stats.limited = true ∨ ∃ l, Call.limit l ∈ c) :
    Told g P w' where
  next := hnext ▸ h.next
  reached := by
    rw [hcalls, reaches_append, hreaches, List.append_nil]
    exact h.reached
  done := by
    rw [hdone, hcalls, reaches_append, hreaches, List.append_nil]
    exact h.done
  hidden := by
    rw [hdone, hcalls, hiddens_append, hhiddens, List.append_nil]
    exact h.hidden
  cut hlimited := by
    rw [hcalls]
    rcases hcut hlimited with hold | ⟨l, hl⟩
    · obtain ⟨l, hl⟩ := h.cut hold
      exact ⟨l, List.mem_append_left _ hl⟩
    · exact ⟨l, List.mem_append_right _ hl⟩

theorem Told.stopWith {w : WalkRun} (h : Told g P w) (l : Limit) (states : ℕ) :
    Told g P (stopWith l states w) :=
  h.call (c := [.limit l]) rfl rfl rfl rfl rfl fun _ => Or.inr ⟨l, List.mem_singleton.mpr rfl⟩

theorem Told.reportAction {w : WalkRun} (h : Told g P w) (q : Queued) (site : ℕ) (n : WalkState) :
    Told g P (reportAction g q site n w) := by
  unfold AlSem.Impact.reportAction
  split
  · exact h.call (c := [.entry q.root n.node [.pageAction] n (w.hops + 1)]) rfl rfl rfl rfl rfl
      Or.inl
  · exact h

theorem Told.enqueue {w : WalkRun} (h : Told g P w) {q : Queued} (hq : P q.root q.state) :
    Told g P (enqueue q w) := by
  have hsame : (w.scratch.insert q.state).1.next = w.scratch.next ∧
      (w.scratch.insert q.state).1.hiddenDone = w.scratch.hiddenDone := by
    unfold WalkScratch.insert
    split
    · dsimp only
      split <;> exact ⟨rfl, rfl⟩
    · split <;> exact ⟨rfl, rfl⟩
  unfold AlSem.Impact.enqueue
  generalize w.scratch.insert q.state = r at hsame
  obtain ⟨sc, isNew⟩ := r
  obtain ⟨hnext, hdone⟩ := hsame
  cases isNew with
  | true =>
    refine ⟨fun q' hq' => ?_, h.reached, fun n => ?_, fun n ch => ?_, h.cut⟩
    · rcases List.mem_append.mp hq' with hq' | hq'
      · exact h.next q' (hnext ▸ hq')
      · exact List.mem_singleton.mp hq' ▸ hq
    · exact (by rw [← hdone] : n ∈ sc.hiddenDone ↔ n ∈ w.scratch.hiddenDone).trans (h.done n)
    · exact (h.hidden n ch).trans (by rw [← hdone])
  | false =>
    refine ⟨fun q' hq' => h.next q' (hnext ▸ hq'), h.reached, fun n => ?_, fun n ch => ?_, h.cut⟩
    · exact (by rw [← hdone] : n ∈ sc.hiddenDone ↔ n ∈ w.scratch.hiddenDone).trans (h.done n)
    · exact (h.hidden n ch).trans (by rw [← hdone])

/-- A state that is reported. -/
theorem Told.report {w : WalkRun} (h : Told g P w) {q : Queued} (hq : P q.root q.state) :
    Told g P (report g opts q w) := by
  have hdone : ∀ n, n ∈ (AlSem.Impact.report g opts q w).scratch.hiddenDone ↔
      n ∈ w.scratch.hiddenDone ∨ n = q.state.node := by
    intro n
    show n ∈ (if !w.scratch.hiddenDone.contains q.state.node then
      q.state.node :: w.scratch.hiddenDone else w.scratch.hiddenDone) ↔ _
    by_cases hmem : q.state.node ∈ w.scratch.hiddenDone
    · rw [List.contains_iff_mem.mpr hmem]
      simp only [Bool.not_true, Bool.false_eq_true, if_false]
      constructor
      · exact Or.inl
      · rintro (hn | rfl)
        · exact hn
        · exact hmem
    · have hnot : w.scratch.hiddenDone.contains q.state.node = false := by simpa using hmem
      rw [hnot]
      simp only [Bool.not_false, if_true, List.mem_cons]
      exact or_comm
  refine ⟨h.next, fun r hr => ?_, fun n => ?_, fun n ch => ?_, fun hlimited => ?_⟩
  · rw [reaches_report] at hr
    rcases List.mem_append.mp hr with hr | hr
    · exact h.reached r hr
    · exact List.mem_singleton.mp hr ▸ hq
  · rw [hdone, reaches_report, h.done]
    simp only [List.mem_append, List.mem_singleton, or_and_right, exists_or, exists_eq_left]
    exact or_congr Iff.rfl eq_comm
  · rw [hdone, hiddens_report, List.mem_append, h.hidden]
    by_cases hmem : q.state.node ∈ w.scratch.hiddenDone
    · rw [List.contains_iff_mem.mpr hmem]
      simp only [if_true, List.not_mem_nil, or_false]
      refine and_congr_left fun _ => ⟨Or.inl, ?_⟩
      rintro (hn | rfl)
      · exact hn
      · exact hmem
    · have hnot : w.scratch.hiddenDone.contains q.state.node = false := by simpa using hmem
      rw [hnot]
      simp only [Bool.false_eq_true, if_false, List.mem_map, Prod.mk.injEq]
      constructor
      · rintro (⟨hn, hch⟩ | ⟨ch', hch, rfl, rfl⟩)
        · exact ⟨Or.inl hn, hch⟩
        · exact ⟨Or.inr rfl, hch⟩
      · rintro ⟨hn | rfl, hch⟩
        · exact Or.inl ⟨hn, hch⟩
        · exact Or.inr ⟨ch, hch, rfl, rfl⟩
  · obtain ⟨l, hl⟩ := h.cut hlimited
    exact ⟨l, List.mem_append_left _ hl⟩

/-- The property goes over the sites. -/
def Carried (g : SitedGraph) (opts : WalkOptions) (v : ConeVisitor) (P : ℕ → WalkState → Prop) :
    Prop :=
  ∀ root s site st guard ext calls, P root s → g.sites[site]? = some st → st.to = s.node →
    (st.isOpen = true → opts.followOpen = true) → SitedGraph.guardOver s st = some guard →
    v calls s site = some ext → P root (g.behind s st ext guard)

theorem Told.crossSite {w : WalkRun} (h : Told g P w) (hcarry : Carried g opts v P) {q : Queued}
    (hq : P q.root q.state) {site : ℕ} (hsite : site ∈ g.sitesInto q.state.node) :
    Told g P (crossSite g opts v q w site) := by
  obtain ⟨st, hst, hto⟩ := g.mem_sitesInto.mp hsite
  unfold AlSem.Impact.crossSite
  rw [hst]
  dsimp only
  split
  · exact h
  · rename_i hopen
    cases hguard : SitedGraph.guardOver q.state st with
    | none => exact h
    | some guard =>
      have hstep : Told g P { w with calls := w.calls ++ [.step q.state site] } :=
        h.call (c := [.step q.state site]) rfl rfl rfl rfl rfl Or.inl
      dsimp only
      cases hv : v w.calls q.state site with
      | none => exact hstep
      | some ext =>
        refine (hstep.reportAction q site _).enqueue ?_
        refine hcarry q.root q.state site st guard ext w.calls hq hst hto (fun ho => ?_) hguard hv
        by_contra hfollow
        exact hopen (by rw [ho, Bool.eq_false_of_not_eq_true hfollow]; rfl)

theorem Told.foldl_crossSite (hcarry : Carried g opts v P) {q : Queued} (hq : P q.root q.state) :
    ∀ (sites : List ℕ) {w : WalkRun}, Told g P w →
      (∀ site ∈ sites, site ∈ g.sitesInto q.state.node) →
      Told g P (sites.foldl (AlSem.Impact.crossSite g opts v q) w)
  | [], _, h, _ => h
  | site :: sites, _, h, hsites =>
    Told.foldl_crossSite hcarry hq sites (h.crossSite hcarry hq (hsites site List.mem_cons_self))
      fun s hs => hsites s (List.mem_cons_of_mem _ hs)

theorem Told.visit {w : WalkRun} (h : Told g P w) (hcarry : Carried g opts v P) {q : Queued}
    (hq : P q.root q.state) : Told g P (visit g opts v q w) := by
  unfold AlSem.Impact.visit
  split
  · exact h.stopWith _ _
  · dsimp only
    split
    · exact h.stopWith _ _
    · have hstats : Told g P
          { w with stats := { w.stats with states := w.stats.states + 1, maxHops := w.hops } } :=
        h.call (c := []) rfl rfl (List.append_nil _).symm rfl rfl Or.inl
      exact Told.foldl_crossSite hcarry hq _ (hstats.report hq) fun _ hs => hs

theorem Told.expand (hcarry : Carried g opts v P) : ∀ (level : List Queued) {w : WalkRun},
    Told g P w → (∀ q ∈ level, P q.root q.state) → Told g P (expand g opts v level w)
  | [], _, h, _ => h
  | q :: qs, w, h, hlevel => by
    have hvisit := h.visit hcarry (hlevel q List.mem_cons_self)
    unfold AlSem.Impact.expand
    dsimp only
    split
    · exact hvisit
    · exact Told.expand hcarry qs hvisit fun p hp => hlevel p (List.mem_cons_of_mem _ hp)

/-- **What a turn keeps**: the queue is as asked too. -/
theorem Told.turn {hub : Option ℕ} {w w' : WalkRun} (h : Told g P w)
    (hlevel : ∀ q ∈ w.scratch.level, P q.root q.state) (hcarry : Carried g opts v P)
    (hhub : ∀ u, hub = some u → P 0 (hubState u)) (hturn : turn g opts v hub w = some w') :
    Told g P w' ∧ ∀ q ∈ w'.scratch.level, P q.root q.state := by
  have hsorted : ∀ q ∈ sortLevel w.scratch.level, P q.root q.state := fun q hq =>
    hlevel q ((sortLevel_perm _).mem_iff.mp hq)
  have htaken : Told g P { w with scratch := { w.scratch with level := [] } } :=
    h.call (c := []) rfl rfl (List.append_nil _).symm rfl rfl Or.inl
  have hexpand := htaken.expand hcarry _ hsorted
  unfold AlSem.Impact.turn at hturn
  split at hturn
  · cases hturn
  · dsimp only at hturn
    split at hturn
    · obtain rfl := Option.some.inj hturn
      exact ⟨hexpand.call (c := []) rfl rfl (List.append_nil _).symm rfl rfl Or.inl, hsorted⟩
    · obtain rfl := Option.some.inj hturn
      have hseeded : ∀ {w₁ : WalkRun}, Told g P w₁ →
          Told g P (if w₁.hops = 0 then seedHub hub w₁ else w₁) := by
        intro w₁ h₁
        split
        · unfold seedHub
          cases hub with
          | none => exact h₁
          | some u => exact h₁.enqueue (hhub u rfl)
        · exact h₁
      have hall := hseeded hexpand
      refine ⟨⟨fun q hq => absurd hq List.not_mem_nil, hall.reached, hall.done, hall.hidden,
        hall.cut⟩, hall.next⟩

/-- **What any walk hands over.** -/
theorem walkMulti_told {roots : List ℕ} {scratch : WalkScratch} {w : WalkRun}
    (hwalk : walkMulti g opts v roots scratch = some w) (hcarry : Carried g opts v P)
    (hroots : ∀ i r, roots[i]? = some r → P i (g.rootState r))
    (hhub : ∀ u, universal g opts roots = some u → P 0 (hubState u)) : Told g P w := by
  have hlevel : ∀ (l : List (ℕ × ℕ)) (sc : WalkScratch), (∀ r ∈ l, P r.2 (g.rootState r.1)) →
      (∀ q ∈ sc.level, P q.root q.state) → sc.next = [] → sc.hiddenDone = [] →
      (∀ q ∈ (l.foldl (seedRoot g) sc).level, P q.root q.state) ∧
        (l.foldl (seedRoot g) sc).next = [] ∧ (l.foldl (seedRoot g) sc).hiddenDone = [] := by
    intro l
    induction l with
    | nil => exact fun sc _ hl hn hd => ⟨hl, hn, hd⟩
    | cons r l ih =>
      intro sc hr hl hn hd
      have hsame : (sc.insert (g.rootState r.1)).1.level = sc.level ∧
          (sc.insert (g.rootState r.1)).1.next = sc.next ∧
          (sc.insert (g.rootState r.1)).1.hiddenDone = sc.hiddenDone := by
        unfold WalkScratch.insert
        split
        · dsimp only
          split <;> exact ⟨rfl, rfl, rfl⟩
        · split <;> exact ⟨rfl, rfl, rfl⟩
      rw [List.foldl_cons]
      refine ih _ (fun r' hr' => hr r' (List.mem_cons_of_mem _ hr')) ?_ ?_ ?_
      all_goals
        unfold seedRoot
        generalize sc.insert (g.rootState r.1) = res at hsame
        obtain ⟨sc', isNew⟩ := res
        obtain ⟨hlevel, hnext, hdone⟩ := hsame
        dsimp only at hlevel hnext hdone
      · cases isNew with
        | true =>
          intro q hq
          rcases List.mem_append.mp hq with hq | hq
          · exact hl q (hlevel ▸ hq)
          · exact List.mem_singleton.mp hq ▸ hr r List.mem_cons_self
        | false => exact fun q hq => hl q (hlevel ▸ hq)
      · cases isNew <;> exact hnext.trans hn
      · cases isNew <;> exact hdone.trans hd
  obtain ⟨hstart, hnext, hdone⟩ := hlevel roots.zipIdx (scratch.reset g.nodeCount)
    (fun r hr => hroots r.2 r.1 (List.mem_zipIdx_iff_getElem?.mp hr))
    (fun q hq => absurd hq List.not_mem_nil) rfl rfl
  have htold : Told g P (start g roots scratch) := by
    refine ⟨fun q hq => ?_, fun r hr => absurd hr List.not_mem_nil, fun n => ?_, fun n ch => ?_,
      fun hlimited => Bool.noConfusion hlimited⟩
    · rw [start, hnext] at hq
      cases hq
    · simp [start, reaches, hdone]
    · simp [start, hiddens, hdone]
  have hinv := @Loop.run_inv _ _
    (fun w : WalkRun => Told g P w ∧ ∀ q ∈ w.scratch.level, P q.root q.state)
    (fun _ _ hs hturn => hs.1.turn hs.2 hcarry hhub hturn) _ _ _ ⟨htold, hstart⟩ hwalk
  exact hinv.1

end Calls

end AlSem.Impact
