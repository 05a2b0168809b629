/-
# One level of a reverse walk

What the inner loops do for a visitor whose answer depends on the state and the site alone: each
state of the level is handed over in turn, and the next level's queue grows by exactly the states
behind it that were not visited (`expand_spec`), each under the least label of the states that lead
to it.
-/
import AlSem.Impact.ReverseWalkSpec

namespace AlSem.Impact

open Levels

/-! ## 1. What is queued -/

/-- **`new` was queued** for the next level and nothing else changed of the queues and the visited
set. -/
structure Added (w w' : WalkRun) (new : List Queued) : Prop where
  next : w'.scratch.next = w.scratch.next ++ new
  has : ∀ s, w'.scratch.Has s ↔ w.scratch.Has s ∨ ∃ q ∈ new, q.state = s
  fresh : ∀ q ∈ new, ¬ w.scratch.Has q.state
  nodup : (new.map Queued.state).Nodup
  words : w'.scratch.seen.length = w.scratch.seen.length
  limited : w'.stats.limited = w.stats.limited
  hops : w'.hops = w.hops

namespace Added

/-- Only reports were made. -/
theorem of_same {w w' : WalkRun} (hseen : w'.scratch.seen = w.scratch.seen)
    (hext : w'.scratch.seenExt = w.scratch.seenExt) (hnext : w'.scratch.next = w.scratch.next)
    (hlimited : w'.stats.limited = w.stats.limited) (hhops : w'.hops = w.hops) : Added w w' [] where
  next := by rw [hnext, List.append_nil]
  has s := by simp [WalkScratch.Has, hseen, hext]
  fresh q hq := absurd hq List.not_mem_nil
  nodup := List.nodup_nil
  words := by rw [hseen]
  limited := hlimited
  hops := hhops

theorem trans {w₁ w₂ w₃ : WalkRun} {new new' : List Queued} (h : Added w₁ w₂ new)
    (h' : Added w₂ w₃ new') : Added w₁ w₃ (new ++ new') where
  next := by rw [h'.next, h.next, List.append_assoc]
  has s := by
    rw [h'.has, h.has, or_assoc]
    simp only [List.mem_append, or_and_right, exists_or]
  fresh q hq := by
    rcases List.mem_append.mp hq with hq | hq
    · exact h.fresh q hq
    · exact fun hs => h'.fresh q hq ((h.has _).mpr (Or.inl hs))
  nodup := by
    rw [List.map_append, List.nodup_append']
    refine ⟨h.nodup, h'.nodup, fun s hs hs' => ?_⟩
    obtain ⟨q, hq, rfl⟩ := List.mem_map.mp hs
    obtain ⟨q', hq', heq⟩ := List.mem_map.mp hs'
    exact h'.fresh q' hq' ((h.has _).mpr (Or.inr ⟨q, hq, heq.symm⟩))
  words := h'.words.trans h.words
  limited := h'.limited.trans h.limited
  hops := h'.hops.trans h.hops

theorem has_mono {w w' : WalkRun} {new : List Queued} (h : Added w w' new) {s : WalkState}
    (hs : w.scratch.Has s) : w'.scratch.Has s := (h.has s).mpr (Or.inl hs)

end Added

@[simp] theorem reaches_append (as bs : List Call) : reaches (as ++ bs) = reaches as ++ reaches bs :=
  List.filterMap_append

/-- **Queueing a state** that may have been visited. -/
theorem enqueue_spec {q : Queued} {w : WalkRun} (hnode : q.state.node < w.scratch.seen.length) :
    ∃ new, Added w (enqueue q w) new ∧ (∀ n ∈ new, n = q) ∧ (enqueue q w).scratch.Has q.state ∧
      (enqueue q w).calls = w.calls := by
  obtain ⟨hnew, hhas, hsame⟩ := w.scratch.insert_spec hnode
  unfold enqueue
  generalize w.scratch.insert q.state = r at hnew hhas hsame
  obtain ⟨sc, isNew⟩ := r
  dsimp only at hnew hhas hsame ⊢
  cases isNew with
  | true =>
    refine ⟨[q], ⟨by rw [← hsame.next], fun s => ?_, ?_, List.nodup_singleton _, hsame.words, rfl, rfl⟩,
      fun n hn => List.mem_singleton.mp hn, (hhas _).mpr (Or.inr rfl), rfl⟩
    · refine (hhas s).trans (or_congr Iff.rfl ?_)
      simp [eq_comm]
    · intro n hn
      rw [List.mem_singleton.mp hn]
      exact hnew.mp rfl
  | false =>
    have hold : w.scratch.Has q.state := by
      by_contra hnot
      cases hnew.mpr hnot
    refine ⟨[], ⟨by rw [List.append_nil, ← hsame.next], fun s => ?_, fun n hn => absurd hn
      List.not_mem_nil, List.nodup_nil, hsame.words, rfl, rfl⟩, fun n hn => absurd hn
      List.not_mem_nil, (hhas _).mpr (Or.inr rfl), rfl⟩
    refine (hhas s).trans ?_
    constructor
    · rintro (h | rfl)
      · exact Or.inl h
      · exact Or.inl hold
    · rintro (h | ⟨n, hn, -⟩)
      · exact Or.inl h
      · exact absurd hn List.not_mem_nil

/-! ## 2. One state -/

section Visit

variable {g : SitedGraph} {opts : WalkOptions} {step : WalkState → ℕ → Option UInt8}

/-- A queued state is the one behind a site of `q`. -/
def BehindOf (g : SitedGraph) (opts : WalkOptions) (step : WalkState → ℕ → Option UInt8)
    (q n : Queued) : Prop :=
  ∃ site, Back g opts step q.state site n.state ∧ n = ⟨q.root, n.state, some q.state, .site site⟩

theorem reportAction_spec (q : Queued) (site : ℕ) (n : WalkState) (w : WalkRun) :
    Added w (reportAction g q site n w) [] ∧
      reaches (reportAction g q site n w).calls = reaches w.calls := by
  unfold reportAction
  split
  · exact ⟨.of_same rfl rfl rfl rfl rfl, by simp [reaches]⟩
  · exact ⟨.of_same rfl rfl rfl rfl rfl, rfl⟩

/-- **Crossing one site** queues the state behind it, if there is one and it is new. -/
theorem crossSite_spec {q : Queued} {w : WalkRun} {site : ℕ}
    (hwords : w.scratch.seen.length = g.nodeCount) (hsite : site ∈ g.sitesInto q.state.node) :
    ∃ new, Added w (crossSite g opts (fun _ => step) q w site) new ∧
      (∀ n ∈ new, BehindOf g opts step q n) ∧
      (∀ b, Back g opts step q.state site b →
        (crossSite g opts (fun _ => step) q w site).scratch.Has b) ∧
      reaches (crossSite g opts (fun _ => step) q w site).calls = reaches w.calls := by
  obtain ⟨st, hst, hto⟩ := g.mem_sitesInto.mp hsite
  -- nothing is behind the site
  have hnone : ∀ w' : WalkRun, Added w w' [] → reaches w'.calls = reaches w.calls →
      (∀ b, ¬ Back g opts step q.state site b) →
      ∃ new, Added w w' new ∧ (∀ n ∈ new, BehindOf g opts step q n) ∧
        (∀ b, Back g opts step q.state site b → w'.scratch.Has b) ∧
        reaches w'.calls = reaches w.calls := fun w' hadded hreaches hback =>
    ⟨[], hadded, fun n hn => absurd hn List.not_mem_nil, fun b hb => absurd hb (hback b), hreaches⟩
  unfold crossSite
  rw [hst]
  dsimp only
  by_cases hopen : (st.isOpen && !opts.followOpen) = true
  · rw [if_pos hopen]
    refine hnone w (.of_same rfl rfl rfl rfl rfl) rfl ?_
    rintro b ⟨st', -, -, hst', -, hfollow, -⟩
    obtain rfl := Option.some.inj (hst.symm.trans hst')
    rw [Bool.and_eq_true, Bool.not_eq_true'] at hopen
    rw [hfollow hopen.1] at hopen
    cases hopen.2
  · rw [if_neg hopen]
    cases hguard : SitedGraph.guardOver q.state st with
    | none =>
      refine hnone w (.of_same rfl rfl rfl rfl rfl) rfl ?_
      rintro b ⟨st', guard, -, hst', -, -, hguard', -⟩
      obtain rfl := Option.some.inj (hst.symm.trans hst')
      rw [hguard] at hguard'
      cases hguard'
    | some guard =>
      dsimp only
      cases hstep : step q.state site with
      | none =>
        refine hnone _ (.of_same rfl rfl rfl rfl rfl) (by simp [reaches]) ?_
        rintro b ⟨-, -, ext, -, -, -, -, hstep', -⟩
        rw [hstep] at hstep'
        cases hstep'
      | some ext =>
        dsimp only
        have hbehind : ∀ b, Back g opts step q.state site b ↔ b = g.behind q.state st ext guard := by
          intro b
          constructor
          · rintro ⟨st', guard', ext', hst', -, -, hguard', hstep', rfl⟩
            obtain rfl := Option.some.inj (hst.symm.trans hst')
            obtain rfl := Option.some.inj (hguard.symm.trans hguard')
            obtain rfl := Option.some.inj (hstep.symm.trans hstep')
            rfl
          · rintro rfl
            refine ⟨st, guard, ext, hst, hto, fun h => ?_, hguard, hstep, rfl⟩
            by_contra hfollow
            exact hopen (by rw [h, Bool.eq_false_of_not_eq_true hfollow]; rfl)
        generalize hb : g.behind q.state st ext guard = b at hbehind ⊢
        obtain ⟨hadded₀, hreaches₀⟩ := reportAction_spec (g := g) q site b
          { w with calls := w.calls ++ [.step q.state site] }
        have hnode : b.node < g.nodeCount := by
          rw [← hb]
          exact g.from_lt st (List.mem_of_getElem? hst)
        obtain ⟨new, hadded, hnew, hhas, hcalls⟩ := @enqueue_spec
          ⟨q.root, b, some q.state, .site site⟩ _ (by rw [hadded₀.words]; exact hwords ▸ hnode)
        have hstart : Added w { w with calls := w.calls ++ [.step q.state site] } [] :=
          .of_same rfl rfl rfl rfl rfl
        refine ⟨new, (hstart.trans hadded₀).trans hadded, fun n hn => ?_, fun c hc => ?_, ?_⟩
        · obtain rfl := hnew n hn
          exact ⟨site, (hbehind b).mpr rfl, rfl⟩
        · rw [(hbehind c).mp hc]
          exact hhas
        · rw [hcalls, hreaches₀]
          simp [reaches]

theorem foldl_crossSite_spec {q : Queued} : ∀ (sites : List ℕ) {w : WalkRun},
    w.scratch.seen.length = g.nodeCount → (∀ site ∈ sites, site ∈ g.sitesInto q.state.node) →
    ∃ new, Added w (sites.foldl (crossSite g opts (fun _ => step) q) w) new ∧
      (∀ n ∈ new, BehindOf g opts step q n) ∧
      (∀ site ∈ sites, ∀ b, Back g opts step q.state site b →
        (sites.foldl (crossSite g opts (fun _ => step) q) w).scratch.Has b) ∧
      reaches (sites.foldl (crossSite g opts (fun _ => step) q) w).calls = reaches w.calls
  | [], w, _, _ => ⟨[], .of_same rfl rfl rfl rfl rfl, fun n hn => absurd hn List.not_mem_nil,
      fun site hs => absurd hs List.not_mem_nil, rfl⟩
  | site :: sites, w, hwords, hsites => by
    obtain ⟨new, hadded, hnew, hhas, hreaches⟩ :=
      @crossSite_spec g opts step q w site hwords (hsites site List.mem_cons_self)
    obtain ⟨new', hadded', hnew', hhas', hreaches'⟩ := foldl_crossSite_spec (q := q) sites
      (hadded.words.trans hwords) fun s hs => hsites s (List.mem_cons_of_mem _ hs)
    rw [List.foldl_cons]
    refine ⟨new ++ new', hadded.trans hadded', fun n hn => ?_, fun s hs b hb => ?_,
      hreaches'.trans hreaches⟩
    · exact (List.mem_append.mp hn).elim (hnew n) (hnew' n)
    · rcases List.mem_cons.mp hs with rfl | hs
      · exact hadded'.has_mono (hhas b hb)
      · exact hhas' s hs b hb

theorem reaches_hiddenCalls (root n : ℕ) : reaches (hiddenCalls g root n) = [] := by
  unfold reaches
  rw [List.filterMap_eq_nil_iff]
  intro c hc
  rcases List.mem_append.mp hc with hc | hc
  · split at hc
    · obtain rfl := List.mem_singleton.mp hc
      rfl
    · cases hc
  · obtain ⟨ch, -, rfl⟩ := List.mem_map.mp hc
    rfl

theorem reaches_stateCalls (q : Queued) (hops : ℕ) : reaches (stateCalls g opts q hops) = [] := by
  unfold reaches
  rw [List.filterMap_eq_nil_iff]
  intro c hc
  unfold stateCalls at hc
  rcases List.mem_append.mp hc with hc | hc
  · rcases List.mem_append.mp hc with hc | hc
    · split at hc
      · cases hc
      · obtain rfl := List.mem_singleton.mp hc
        rfl
    · split at hc
      · cases hc
      · obtain ⟨f, -, rfl⟩ := List.mem_map.mp hc
        rfl
  · split at hc
    · obtain rfl := List.mem_singleton.mp hc
      rfl
    · cases hc

/-- **The reports of a state** hand it over once. -/
theorem reaches_report (q : Queued) (w : WalkRun) :
    reaches (report g opts q w).calls = reaches w.calls ++ [q.reach w.hops] := by
  have hrest : ∀ isNew : Bool, reaches ((if isNew then hiddenCalls g q.root q.state.node else []) ++
      stateCalls g opts q w.hops) = [] := by
    intro isNew
    rw [reaches_append, reaches_stateCalls]
    cases isNew
    · rfl
    · simp [reaches_hiddenCalls]
  show reaches (w.calls ++ Call.reach q.root q.state w.hops q.via q.source :: _) = _
  rw [reaches_append]
  congr 1
  show (q.reach w.hops) :: reaches _ = _
  rw [hrest]

/-- **Visiting a state** where no cap fires. -/
theorem visit_spec {q : Queued} {w : WalkRun} (hwords : w.scratch.seen.length = g.nodeCount)
    (hlimited : (visit g opts (fun _ => step) q w).stats.limited = false) :
    ∃ new, Added w (visit g opts (fun _ => step) q w) new ∧ (∀ n ∈ new, BehindOf g opts step q n) ∧
      (∀ site b, Back g opts step q.state site b →
        (visit g opts (fun _ => step) q w).scratch.Has b) ∧
      reaches (visit g opts (fun _ => step) q w).calls = reaches w.calls ++ [q.reach w.hops] := by
  unfold visit at hlimited ⊢
  split at hlimited
  · cases hlimited
  · rename_i hbudget
    rw [if_neg hbudget]
    dsimp only at hlimited ⊢
    split at hlimited
    · cases hlimited
    · rename_i hpoll
      rw [if_neg hpoll]
      obtain ⟨new, hadded, hnew, hhas, hreaches⟩ := @foldl_crossSite_spec g opts step q
        (g.sitesInto q.state.node)
        (report g opts q
          { w with stats := { w.stats with states := w.stats.states + 1, maxHops := w.hops } })
        hwords fun _ h => h
      have hstart : Added w (report g opts q
          { w with stats := { w.stats with states := w.stats.states + 1, maxHops := w.hops } }) [] :=
        .of_same rfl rfl rfl rfl rfl
      refine ⟨new, hstart.trans hadded, hnew, fun site b hb => ?_, by rw [hreaches, reaches_report]⟩
      have hsite : site ∈ g.sitesInto q.state.node := by
        obtain ⟨st, -, -, hst, hto, -⟩ := hb
        exact g.mem_sitesInto.mpr ⟨st, hst, hto⟩
      exact hhas site hsite b hb

/-! ## 3. The whole level -/

/-- **A level**, its states in label order: the next level's queue is what lies behind it and was
not visited, each state under the least label that leads to it. -/
theorem expand_spec : ∀ (level : List Queued) {w : WalkRun},
    w.scratch.seen.length = g.nodeCount → (level.Pairwise fun a b => a.root ≤ b.root) →
    (expand g opts (fun _ => step) level w).stats.limited = false → w.stats.limited = false →
    ∃ new, Added w (expand g opts (fun _ => step) level w) new ∧
      (∀ n ∈ new, ∃ q ∈ level, BehindOf g opts step q n) ∧
      (∀ n ∈ new, ∀ q ∈ level, Succ g opts step q.state n.state → n.root ≤ q.root) ∧
      (∀ q ∈ level, ∀ b, Succ g opts step q.state b →
        (expand g opts (fun _ => step) level w).scratch.Has b) ∧
      reaches (expand g opts (fun _ => step) level w).calls =
        reaches w.calls ++ level.map fun q => q.reach w.hops
  | [], w, _, _, _, _ => ⟨[], .of_same rfl rfl rfl rfl rfl, by simp, by simp, by simp, by simp [expand]⟩
  | q :: qs, w, hwords, hsorted, hlimited, hopen => by
    unfold expand at hlimited ⊢
    dsimp only at hlimited ⊢
    have hvisit : (visit g opts (fun _ => step) q w).stats.limited = false := by
      by_contra hcut
      rw [Bool.not_eq_false] at hcut
      rw [if_pos hcut, hcut] at hlimited
      cases hlimited
    rw [hvisit, if_neg Bool.false_ne_true] at hlimited ⊢
    obtain ⟨hfirst, hsorted⟩ := List.pairwise_cons.mp hsorted
    obtain ⟨new, hadded, hnew, hhas, hreaches⟩ := visit_spec hwords hvisit
    obtain ⟨new', hadded', hnew', hleast, hhas', hreaches'⟩ :=
      expand_spec qs (hadded.words.trans hwords) hsorted hlimited hvisit
    refine ⟨new ++ new', hadded.trans hadded', fun n hn => ?_, fun n hn p hp hsucc => ?_,
      fun p hp b hb => ?_, ?_⟩
    · rcases List.mem_append.mp hn with hn | hn
      · exact ⟨q, List.mem_cons_self, hnew n hn⟩
      · obtain ⟨p, hp, hbehind⟩ := hnew' n hn
        exact ⟨p, List.mem_cons_of_mem _ hp, hbehind⟩
    · rcases List.mem_append.mp hn with hn | hn
      · -- queued by the first state, whose label is the least
        obtain ⟨site, -, heq⟩ := hnew n hn
        rw [heq]
        rcases List.mem_cons.mp hp with rfl | hp
        · exact le_rfl
        · exact hfirst p hp
      · rcases List.mem_cons.mp hp with rfl | hp
        · -- what lies behind the first state is no longer new
          obtain ⟨site, hback⟩ := hsucc
          exact absurd (hhas site n.state hback) (hadded'.fresh n hn)
        · exact hleast n hn p hp hsucc
    · rcases List.mem_cons.mp hp with rfl | hp
      · obtain ⟨site, hback⟩ := hb
        exact hadded'.has_mono (hhas site b hback)
      · exact hhas' p hp b hb
    · rw [hreaches', hreaches, hadded.hops, List.append_assoc]
      rfl

end Visit

end AlSem.Impact
