/-
# Every reverse walk is exact

The invariant of the walk's loop (`Exact`) holds before the first level and through every turn a
cap does not cut, the number of states bounds the turns, and where the loop ends the invariant says
that the walk was exact.
-/
import AlSem.Impact.ReverseWalkLevel
import Mathlib.Data.Fintype.Prod
import Mathlib.Data.Fintype.Card

namespace AlSem.Impact

open Levels

/-! ## 1. Sorting and the hub -/

instance : Std.TransCmp stateCmp := by
  unfold stateCmp
  infer_instance

instance : Std.TransCmp
    (compareLex (compareOn Queued.root) fun a b : Queued => stateCmp a.state b.state) := by
  have := Ranking.transCmp_comap stateCmp Queued.state
  infer_instance

theorem sortLevel_perm (level : List Queued) : (sortLevel level).Perm level := List.mergeSort_perm _ _

/-- A sorted level is in label order. -/
theorem sortLevel_pairwise (level : List Queued) :
    (sortLevel level).Pairwise fun a b => a.root ≤ b.root := by
  have hsorted : (sortLevel level).Pairwise fun a b => (compareLex (compareOn Queued.root)
      (fun a b => stateCmp a.state b.state) a b).isLE = true :=
    List.pairwise_mergeSort (fun _ _ _ => Std.TransCmp.isLE_trans)
      (fun a b => Ranking.isLE_total a b) _
  refine hsorted.imp fun {a b} h => ?_
  exact Nat.isLE_compare.mp (Ordering.isLE_left_of_isLE_then h)

section Exact

variable (g : SitedGraph) (opts : WalkOptions) (step : WalkState → ℕ → Option UInt8) (roots : List ℕ)

/-! ## 2. The invariant -/

/-- **The walk so far**: the queue is the level at `hops`, and what was handed over is the levels
before it. -/
structure Exact (w : WalkRun) : Prop where
  words : w.scratch.seen.length = g.nodeCount
  next : w.scratch.next = []
  level : Level (Seed g opts roots) (Succ g opts step) w.hops {s | w.scratch.Has s}
    (w.scratch.level.map Queued.state)
  queued : ∀ q ∈ w.scratch.level, ReachedBy g opts step roots (q.reach w.hops)
  labels : Labelled (RootSeed g roots) (HubSeed g opts roots) (Succ g opts step) w.hops
    (w.scratch.level.map fun q => (q.root, q.state))
  late : w.hops = 0 → w.scratch.level = [] → roots = []
  once : ((reaches w.calls).map Reach.state).Nodup
  handed : ∀ s, s ∈ (reaches w.calls).map Reach.state ↔
    ∃ m < w.hops, Walk (Seed g opts roots) (Succ g opts step) m s
  shortest : ∀ r ∈ reaches w.calls, IsDist (Seed g opts roots) (Succ g opts step) r.hops r.state
  parent : ∀ r ∈ reaches w.calls, ReachedBy g opts step roots r
  label : ∀ r ∈ reaches w.calls, Labelled (RootSeed g roots) (HubSeed g opts roots)
    (Succ g opts step) r.hops [(r.root, r.state)]

variable {g opts step roots}

/-- What was handed over and the level do not meet. -/
theorem Exact.disjoint {w : WalkRun} (h : Exact g opts step roots w) {q : Queued}
    (hq : q ∈ w.scratch.level) : q.state ∉ (reaches w.calls).map Reach.state := by
  intro hmem
  obtain ⟨m, hm, hw⟩ := (h.handed q.state).mp hmem
  have hdist := (h.level.mem_now q.state).mp (List.mem_map_of_mem hq)
  exact absurd (hdist.2 m hw) (by omega)

/-- The label property of a part of a level. -/
theorem labelled_of_mem {n : ℕ} {items : List (ℕ × WalkState)} {e : ℕ × WalkState}
    (h : Labelled (RootSeed g roots) (HubSeed g opts roots) (Succ g opts step) n items)
    (he : e ∈ items) : Labelled (RootSeed g roots) (HubSeed g opts roots) (Succ g opts step) n [e] := by
  intro e' he'
  obtain rfl := List.mem_singleton.mp he'
  exact h e' he

/-- **Where the queue is empty the walk is exact.** -/
theorem Exact.exactWalk {w : WalkRun} (h : Exact g opts step roots w) (hend : w.scratch.level = []) :
    ExactWalk g opts step roots w where
  once := h.once
  exactly s := by
    rw [h.handed]
    constructor
    · rintro ⟨m, -, hw⟩
      exact ⟨m, hw⟩
    · rintro ⟨n, hw⟩
      have hlevel := h.level
      rw [hend, List.map_nil] at hlevel
      have hseeds : ∀ m s, Seed g opts roots m s → m ≤ w.hops := by
        rintro m s (⟨i, rfl, -⟩ | ⟨rfl, u, hu, -⟩)
        · exact Nat.zero_le _
        · by_contra hzero
          have hroots := h.late (by omega) hend
          subst hroots
          have hnone : universal g opts [] = none := Option.filter_eq_none_iff.mpr (by simp)
          rw [hnone] at hu
          cases hu
      obtain ⟨m, hm, hwm⟩ := (hlevel.visited s).mp (hlevel.complete hseeds hw)
      obtain ⟨k, hk, hdist⟩ := exists_isDist hwm
      have hne : k ≠ w.hops := by
        rintro rfl
        exact absurd ((hlevel.mem_now s).mpr hdist) List.not_mem_nil
      exact ⟨k, by omega, hdist.1⟩
  shortest := h.shortest
  parent := h.parent
  label r hr hhub := h.label r hr (r.root, r.state) List.mem_cons_self fun hw => hhub ⟨_, hw⟩

/-! ## 3. Before the first level -/

/-- What the roots queue: each root's state once, under its first number. -/
structure Seeded (sc : WalkScratch) (nodes : ℕ) (g : SitedGraph) (roots : List ℕ) : Prop where
  words : sc.seen.length = nodes
  next : sc.next = []
  has : ∀ s, sc.Has s ↔ ∃ r ∈ roots, s = g.rootState r
  nodup : (sc.level.map Queued.state).Nodup
  queued : ∀ q ∈ sc.level, ∃ i r, roots[i]? = some r ∧ q = ⟨i, g.rootState r, none, .root i⟩ ∧
    ∀ j r', roots[j]? = some r' → g.rootState r' = g.rootState r → i ≤ j
  all : ∀ r ∈ roots, ∃ q ∈ sc.level, q.state = g.rootState r

theorem foldl_seedRoot_spec {sc : WalkScratch} (hwords : sc.seen.length = g.nodeCount)
    (hempty : ∀ s, ¬ sc.Has s) (hlevel : sc.level = []) (hnext : sc.next = []) :
    ∀ roots : List ℕ, (∀ r ∈ roots, r < g.nodeCount) →
      Seeded (roots.zipIdx.foldl (seedRoot g) sc) g.nodeCount g roots := by
  intro roots
  induction roots using List.reverseRecOn with
  | nil =>
    intro _
    refine ⟨hwords, hnext, fun s => ?_, by simp [hlevel], by simp [hlevel], by simp⟩
    simpa using hempty s
  | append_singleton roots r ih =>
    intro hvalid
    have h := ih fun r hr => hvalid r (List.mem_append_left _ hr)
    rw [List.zipIdx_append, List.foldl_append]
    simp only [List.zipIdx_singleton, List.foldl_cons, List.foldl_nil, Nat.zero_add]
    generalize roots.zipIdx.foldl (seedRoot g) sc = sc' at h ⊢
    have hnode : (g.rootState r).node < sc'.seen.length := by
      rw [h.words]
      exact hvalid r (by simp)
    obtain ⟨hnew, hhas, hsame⟩ := sc'.insert_spec hnode
    -- the earlier roots' entries stay as they are
    have hold : ∀ q ∈ sc'.level, ∃ i r', (roots ++ [r])[i]? = some r' ∧
        q = ⟨i, g.rootState r', none, .root i⟩ ∧
        ∀ j r'', (roots ++ [r])[j]? = some r'' → g.rootState r'' = g.rootState r' → i ≤ j := by
      intro q hq
      obtain ⟨i, r', hi, hqi, hmin⟩ := h.queued q hq
      have hlt := (List.getElem?_eq_some_iff.mp hi).1
      refine ⟨i, r', by rw [List.getElem?_append_left hlt]; exact hi, hqi, fun j r'' hj hstate => ?_⟩
      by_cases hjlt : j < roots.length
      · rw [List.getElem?_append_left hjlt] at hj
        exact hmin j r'' hj hstate
      · omega
    unfold seedRoot
    dsimp only
    generalize sc'.insert (g.rootState r) = res at hnew hhas hsame
    obtain ⟨sc₁, isNew⟩ := res
    dsimp only at hnew hhas hsame ⊢
    have hhas' : ∀ s, sc₁.Has s ↔ ∃ r' ∈ roots ++ [r], s = g.rootState r' := by
      intro s
      rw [hhas, h.has]
      simp [or_and_right, exists_or]
    cases isNew with
    | true =>
      have hfresh := hnew.mp rfl
      refine ⟨hsame.words.trans h.words, hsame.next.trans h.next, hhas', ?_, ?_, ?_⟩
      · show ((sc₁.level ++ [_]).map Queued.state).Nodup
        rw [hsame.level, List.map_append, List.nodup_append']
        refine ⟨h.nodup, List.nodup_singleton _, fun s hs hs' => ?_⟩
        obtain ⟨q, hq, rfl⟩ := List.mem_map.mp hs
        obtain ⟨i, r', hi, rfl, -⟩ := h.queued q hq
        have heq : g.rootState r' = g.rootState r := by simpa using hs'
        exact hfresh ((h.has _).mpr ⟨r', List.mem_of_getElem? hi, heq.symm⟩)
      · intro q hq
        rcases List.mem_append.mp hq with hq | hq
        · exact hold q (hsame.level ▸ hq)
        · obtain rfl := List.mem_singleton.mp hq
          refine ⟨roots.length, r, by simp, rfl, fun j r' hj hstate => ?_⟩
          by_contra hlt
          rw [List.getElem?_append_left (by omega)] at hj
          exact hfresh ((h.has _).mpr ⟨r', List.mem_of_getElem? hj, hstate.symm⟩)
      · intro r' hr'
        rcases List.mem_append.mp hr' with hr' | hr'
        · obtain ⟨q, hq, hstate⟩ := h.all r' hr'
          exact ⟨q, List.mem_append_left _ (hsame.level ▸ hq), hstate⟩
        · obtain rfl := List.mem_singleton.mp hr'
          exact ⟨_, List.mem_append_right _ List.mem_cons_self, rfl⟩
    | false =>
      have hin : ∃ r' ∈ roots, g.rootState r = g.rootState r' := by
        rw [← h.has]
        by_contra hnot
        cases hnew.mpr hnot
      refine ⟨hsame.words.trans h.words, hsame.next.trans h.next, hhas', ?_, ?_, ?_⟩
      · rw [hsame.level]
        exact h.nodup
      · intro q hq
        exact hold q (hsame.level ▸ hq)
      · intro r' hr'
        rw [hsame.level]
        rcases List.mem_append.mp hr' with hr' | hr'
        · exact h.all r' hr'
        · obtain rfl := List.mem_singleton.mp hr'
          obtain ⟨r'', hr'', heq⟩ := hin
          obtain ⟨q, hq, hstate⟩ := h.all r'' hr''
          exact ⟨q, hq, hstate.trans heq.symm⟩

/-- **The invariant holds at the start.** -/
theorem start_exact {scratch : WalkScratch} (hclean : scratch.Clean)
    (hvalid : ∀ r ∈ roots, r < g.nodeCount) : Exact g opts step roots (start g roots scratch) := by
  obtain ⟨hwords, hempty, -⟩ := WalkScratch.reset_spec hclean g.nodeCount
  have h := foldl_seedRoot_spec hwords hempty rfl rfl roots hvalid
  have hseed : ∀ s, Seed g opts roots 0 s ↔ ∃ r ∈ roots, s = g.rootState r := by
    intro s
    constructor
    · rintro (⟨i, -, r, hr, rfl⟩ | ⟨hzero, -⟩)
      · exact ⟨r, List.mem_of_getElem? hr, rfl⟩
      · cases hzero
    · rintro ⟨r, hr, rfl⟩
      obtain ⟨i, hi⟩ := List.mem_iff_getElem?.mp hr
      exact Or.inl ⟨i, rfl, r, hi, rfl⟩
  refine ⟨h.words, h.next, Level.zero (fun s => (h.has s).trans (hseed s).symm) (fun s => ?_) h.nodup,
    fun q hq => ?_, fun e he _ => ?_, fun _ hlevel => ?_, by simp [start, reaches], fun s => ?_, ?_, ?_, ?_⟩
  · rw [hseed]
    constructor
    · intro hs
      obtain ⟨q, hq, rfl⟩ := List.mem_map.mp hs
      obtain ⟨i, r, hi, rfl, -⟩ := h.queued q hq
      exact ⟨r, List.mem_of_getElem? hi, rfl⟩
    · rintro ⟨r, hr, rfl⟩
      obtain ⟨q, hq, hstate⟩ := h.all r hr
      exact List.mem_map.mpr ⟨q, hq, hstate⟩
  · obtain ⟨i, r, hi, rfl, -⟩ := h.queued q hq
    exact .root hi
  · obtain ⟨q, hq, rfl⟩ := List.mem_map.mp he
    obtain ⟨i, r, hi, rfl, hmin⟩ := h.queued q hq
    refine ⟨.seed ⟨rfl, r, hi, rfl⟩, fun j hj => ?_⟩
    obtain ⟨-, r', hr', hstate⟩ := walk_zero.mp hj
    exact hmin j r' hr' hstate.symm
  · refine List.eq_nil_iff_forall_not_mem.mpr fun r hr => ?_
    obtain ⟨q, hq, -⟩ := h.all r hr
    replace hlevel : (roots.zipIdx.foldl (seedRoot g) (scratch.reset g.nodeCount)).level = [] := hlevel
    rw [hlevel] at hq
    exact absurd hq List.not_mem_nil
  · simp [start, reaches]
  · simp [start, reaches]
  · simp [start, reaches]
  · simp [start, reaches]

/-! ## 4. One turn -/

/-- The hub is queued after the first level. -/
theorem seedHub_spec {universal : Option ℕ} {w : WalkRun} (hwords : w.scratch.seen.length = g.nodeCount)
    (hhub : ∀ u ∈ universal, u < g.nodeCount) :
    ∃ new, Added w (seedHub universal w) new ∧
      (∀ n ∈ new, ∃ u, universal = some u ∧ n = ⟨0, hubState u, none, .universal⟩) ∧
      (∀ u, universal = some u → (seedHub universal w).scratch.Has (hubState u)) ∧
      (seedHub universal w).calls = w.calls := by
  cases universal with
  | none =>
    exact ⟨[], .of_same rfl rfl rfl rfl rfl, fun n hn => absurd hn List.not_mem_nil,
      (fun u hu => nomatch hu), rfl⟩
  | some u =>
    obtain ⟨new, hadded, hnew, hhas, hcalls⟩ := @enqueue_spec ⟨0, hubState u, none, .universal⟩ w
      (hwords ▸ hhub u rfl)
    refine ⟨new, hadded, fun n hn => ⟨u, rfl, hnew n hn⟩, fun u' hu' => ?_, hcalls⟩
    obtain rfl := Option.some.inj hu'
    exact hhas

/-- The queue a turn leaves, and what it hands over. -/
structure Turned (g : SitedGraph) (opts : WalkOptions) (step : WalkState → ℕ → Option UInt8)
    (roots : List ℕ) (w w' : WalkRun) : Prop where
  words : w'.scratch.seen.length = w.scratch.seen.length
  next : w'.scratch.next = []
  hops : w'.hops = w.hops + 1
  has : ∀ s, w'.scratch.Has s ↔ w.scratch.Has s ∨ s ∈ w'.scratch.level.map Queued.state
  fresh : ∀ q ∈ w'.scratch.level, ¬ w.scratch.Has q.state
  nodup : (w'.scratch.level.map Queued.state).Nodup
  cause : ∀ n ∈ w'.scratch.level, (w.hops = 0 ∧ ∃ u, universal g opts roots = some u ∧
      n = ⟨0, hubState u, none, .universal⟩) ∨
    (∃ q ∈ w.scratch.level, BehindOf g opts step q n) ∧
      ∀ q ∈ w.scratch.level, Succ g opts step q.state n.state → n.root ≤ q.root
  behind : ∀ q ∈ w.scratch.level, ∀ b, Succ g opts step q.state b → w'.scratch.Has b
  hub : w.hops = 0 → ∀ u, universal g opts roots = some u → w'.scratch.Has (hubState u)
  handed : ∃ level : List Queued, level.Perm w.scratch.level ∧
    reaches w'.calls = reaches w.calls ++ level.map fun q => q.reach w.hops

/-- A level taken off the queue. -/
def WalkRun.taken (w : WalkRun) : WalkRun := { w with scratch := { w.scratch with level := [] } }

/-- The next level in the level's place. -/
def WalkRun.advanced (w : WalkRun) : WalkRun :=
  { w with scratch := { w.scratch with level := w.scratch.next, next := [] }, hops := w.hops + 1 }

/-- What a turn no cap cuts does. -/
theorem turn_cases {v : ConeVisitor} {hub : Option ℕ} {w w' : WalkRun}
    (hturn : turn g opts v hub w = some w') (hlimited : w'.stats.limited = false) :
    (expand g opts v (sortLevel w.scratch.level) w.taken).stats.limited = false ∧
      ∃ w₁, w₁ = expand g opts v (sortLevel w.scratch.level) w.taken ∧
        w' = (seedHub (if w₁.hops = 0 then hub else none) w₁).advanced := by
  unfold turn at hturn
  split at hturn
  · exact absurd hturn (by simp)
  · dsimp only at hturn
    have hcut : (expand g opts v (sortLevel w.scratch.level) w.taken).stats.limited = false := by
      by_contra hcut
      rw [Bool.not_eq_false] at hcut
      unfold WalkRun.taken at hcut
      rw [if_pos hcut] at hturn
      obtain rfl := Option.some.inj hturn
      exact absurd (hcut.symm.trans hlimited) (by simp)
    refine ⟨hcut, _, rfl, ?_⟩
    unfold WalkRun.taken at hcut ⊢
    rw [if_neg (by rw [hcut]; exact Bool.false_ne_true)] at hturn
    rw [← Option.some.inj hturn]
    split <;> rfl

/-- **A turn no cap cuts.** -/
theorem turn_spec {w w' : WalkRun} (hwords : w.scratch.seen.length = g.nodeCount)
    (hnext : w.scratch.next = []) (hopen : w.stats.limited = false)
    (hturn : turn g opts (fun _ => step) (universal g opts roots) w = some w')
    (hlimited : w'.stats.limited = false) : Turned g opts step roots w w' := by
  obtain ⟨hcut, w₁, hw₁, rfl⟩ := turn_cases hturn hlimited
  obtain ⟨new, hadded, hnew, hleast, hbehind, hreaches⟩ := @expand_spec g opts step
    (sortLevel w.scratch.level) w.taken hwords (sortLevel_pairwise _) hcut hopen
  rw [← hw₁] at hadded hbehind hreaches
  have hperm := sortLevel_perm w.scratch.level
  have hhub : ∀ u ∈ universal g opts roots, u < g.nodeCount := by
    intro u hu
    exact g.hub_lt u (Option.mem_filter_iff.mp hu).1
  -- queueing the hub at the first turn adds to what the level added
  obtain ⟨new', hadded', hnew', hhas', hcalls'⟩ := @seedHub_spec g
    (if w₁.hops = 0 then universal g opts roots else none) w₁ (hadded.words.trans hwords) (by
      split
      · exact hhub
      · simp)
  have hhops : w₁.hops = w.hops := hadded.hops
  rw [hhops] at hadded' hnew' hhas' hcalls' ⊢
  have hboth : Added w.taken _ (new ++ new') := hadded.trans hadded'
  generalize seedHub (if w.hops = 0 then universal g opts roots else none) w₁ = w₂
    at hadded' hhas' hcalls' hboth ⊢
  have hqueue : w₂.advanced.scratch.level = new ++ new' := by
    have hnext₂ := hboth.next
    rw [show w.taken.scratch.next = [] from hnext, List.nil_append] at hnext₂
    exact hnext₂
  constructor
  case words => exact hboth.words
  case next => rfl
  case hops => exact congrArg (· + 1) hboth.hops
  case has =>
    intro s
    rw [hqueue, List.mem_map]
    exact hboth.has s
  case fresh =>
    intro q hq
    exact hboth.fresh q (hqueue ▸ hq)
  case nodup =>
    rw [hqueue]
    exact hboth.nodup
  case cause =>
    intro n hn
    rw [hqueue] at hn
    rcases List.mem_append.mp hn with hn | hn
    · obtain ⟨q, hq, hbehind⟩ := hnew n hn
      refine Or.inr ⟨⟨q, hperm.mem_iff.mp hq, hbehind⟩, fun p hp hsucc => ?_⟩
      exact hleast n hn p (hperm.mem_iff.mpr hp) hsucc
    · obtain ⟨u, hu, heq⟩ := hnew' n hn
      split at hu
      · rename_i hzero
        exact Or.inl ⟨hzero, u, hu, heq⟩
      · cases hu
  case behind =>
    intro q hq b hb
    exact hadded'.has_mono (hbehind q (hperm.mem_iff.mpr hq) b hb)
  case hub =>
    intro hzero u hu
    refine hhas' u ?_
    rw [if_pos hzero]
    exact hu
  case handed =>
    refine ⟨sortLevel w.scratch.level, hperm, ?_⟩
    exact (congrArg reaches hcalls').trans hreaches

/-- **Every turn no cap cuts keeps the invariant.** -/
theorem Exact.turned {w w' : WalkRun} (h : Exact g opts step roots w)
    (ht : Turned g opts step roots w w') : Exact g opts step roots w' := by
  have hdist : ∀ {s}, s ∈ w.scratch.level.map Queued.state →
      IsDist (Seed g opts roots) (Succ g opts step) w.hops s := fun hs => (h.level.mem_now _).mp hs
  have hseeds : ∀ s, Seed g opts roots (w.hops + 1) s ↔ w.hops = 0 ∧
      ∃ u, universal g opts roots = some u ∧ s = hubState u := by
    intro s
    constructor
    · rintro (⟨i, hzero, -⟩ | ⟨hone, hu⟩)
      · cases hzero
      · exact ⟨by omega, hu⟩
    · rintro ⟨hzero, hu⟩
      exact Or.inr ⟨by omega, hu⟩
  have hlevel : Level (Seed g opts roots) (Succ g opts step) (w.hops + 1) {s | w'.scratch.Has s}
      (w'.scratch.level.map Queued.state) := by
    refine h.level.next ht.has (fun s => ?_) ht.nodup
    constructor
    · intro hs
      obtain ⟨n, hn, rfl⟩ := List.mem_map.mp hs
      refine ⟨ht.fresh n hn, ?_⟩
      rcases ht.cause n hn with ⟨hzero, u, hu, heq⟩ | ⟨⟨q, hq, site, hback, -⟩, -⟩
      · exact Or.inl ((hseeds _).mpr ⟨hzero, u, hu, by rw [heq]⟩)
      · exact Or.inr ⟨q.state, List.mem_map_of_mem hq, site, hback⟩
    · rintro ⟨hnot, hcause⟩
      have hhas : w'.scratch.Has s := by
        rcases hcause with hs | ⟨a, ha, hsucc⟩
        · obtain ⟨hzero, u, hu, rfl⟩ := (hseeds s).mp hs
          exact ht.hub hzero u hu
        · obtain ⟨q, hq, rfl⟩ := List.mem_map.mp ha
          exact ht.behind q hq s hsucc
      exact ((ht.has s).mp hhas).resolve_left hnot
  obtain ⟨level, hperm, hreaches⟩ := ht.handed
  have hmap : (level.map fun q => q.reach w.hops).map Reach.state = level.map Queued.state := by
    rw [List.map_map]
    rfl
  have hstates : (level.map Queued.state).Perm (w.scratch.level.map Queued.state) := hperm.map _
  have hnew : ∀ r ∈ reaches w'.calls, r ∈ reaches w.calls ∨ ∃ q ∈ w.scratch.level, r = q.reach w.hops := by
    intro r hr
    rw [hreaches] at hr
    rcases List.mem_append.mp hr with hr | hr
    · exact Or.inl hr
    · obtain ⟨q, hq, rfl⟩ := List.mem_map.mp hr
      exact Or.inr ⟨q, hperm.mem_iff.mp hq, rfl⟩
  refine ⟨ht.words.trans h.words, ht.next, by rw [ht.hops]; exact hlevel, fun n hn => ?_, ?_,
    fun hzero => ?_, ?_, fun s => ?_, fun r hr => ?_, fun r hr => ?_, fun r hr => ?_⟩
  · -- how a state of the new level was reached
    rw [ht.hops]
    rcases ht.cause n hn with ⟨hzero, u, hu, rfl⟩ | ⟨⟨q, hq, site, hback, heq⟩, -⟩
    · rw [hzero]
      exact .universal hu
    · rw [heq]
      exact .site (hdist (List.mem_map_of_mem hq)) hback
  · -- the labels of the new level
    rw [ht.hops]
    refine h.labels.next (fun i s => ?_) (fun i a b ha hsucc hb => ?_) fun e he => ?_
    · rintro ⟨hzero, -⟩
      cases hzero
    · obtain ⟨e, he, rfl⟩ := hb
      obtain ⟨n, hn, rfl⟩ := List.mem_map.mp he
      have hwalk : Walk (Seed g opts roots) (Succ g opts step) w.hops a :=
        ha.mono fun m s hs => Or.inl ⟨i, hs⟩
      have hn' := (hlevel.mem_now n.state).mp (List.mem_map_of_mem hn)
      have ha' : IsDist (Seed g opts roots) (Succ g opts step) w.hops a := by
        refine ⟨hwalk, fun m hm => ?_⟩
        have := hn'.2 _ (.step hm hsucc)
        omega
      obtain ⟨q, hq, rfl⟩ := List.mem_map.mp ((h.level.mem_now a).mpr ha')
      exact ⟨(q.root, q.state), List.mem_map_of_mem hq, rfl⟩
    · obtain ⟨n, hn, rfl⟩ := List.mem_map.mp he
      rcases ht.cause n hn with ⟨hzero, u, hu, heq⟩ | ⟨⟨q, hq, site, hback, heq⟩, hleast⟩
      · exact Or.inl ⟨by omega, u, hu, by rw [heq]⟩
      · refine Or.inr ⟨⟨q.state, ?_, site, hback⟩, fun p hp hsucc => ?_⟩
        · rw [heq]
          exact List.mem_map_of_mem (f := fun q : Queued => (q.root, q.state)) hq
        · obtain ⟨q', hq', rfl⟩ := List.mem_map.mp hp
          exact hleast q' hq' hsucc
  · rw [ht.hops] at hzero
    cases hzero
  · rw [hreaches, List.map_append, hmap, List.nodup_append']
    refine ⟨h.once, hstates.nodup_iff.mpr h.level.nodup, fun s hs hs' => ?_⟩
    obtain ⟨q, hq, rfl⟩ := List.mem_map.mp hs'
    exact h.disjoint (hperm.mem_iff.mp hq) hs
  · rw [hreaches, List.map_append, hmap, List.mem_append, h.handed, hstates.mem_iff, ht.hops,
      h.level.mem_now]
    constructor
    · rintro (⟨m, hm, hw⟩ | hd)
      · exact ⟨m, by omega, hw⟩
      · exact ⟨w.hops, by omega, hd.1⟩
    · rintro ⟨m, hm, hw⟩
      obtain ⟨k, hk, hd⟩ := exists_isDist hw
      rcases Nat.lt_or_ge k w.hops with hlt | hge
      · exact Or.inl ⟨k, hlt, hd.1⟩
      · have hkh : k = w.hops := by omega
        exact Or.inr (hkh ▸ hd)
  · rcases hnew r hr with hr | ⟨q, hq, rfl⟩
    · exact h.shortest r hr
    · exact hdist (List.mem_map_of_mem hq)
  · rcases hnew r hr with hr | ⟨q, hq, rfl⟩
    · exact h.parent r hr
    · exact h.queued q hq
  · rcases hnew r hr with hr | ⟨q, hq, rfl⟩
    · exact h.label r hr
    · exact labelled_of_mem h.labels (List.mem_map_of_mem hq)

/-! ## 5. The turns end -/

/-- A state as its coordinates. -/
def WalkState.coords (s : WalkState) : ℕ × ℕ × ℕ × ℕ × ℕ :=
  (s.node, s.tier.rank, s.crossedEvent.toNat, s.ext.toNat, s.guard.toNat)

theorem WalkState.coords_injective : Function.Injective WalkState.coords := by
  intro a b h
  obtain ⟨an, at', ae, ax, ag⟩ := a
  obtain ⟨bn, bt, be, bx, bg⟩ := b
  simp only [WalkState.coords, Prod.mk.injEq] at h
  obtain ⟨rfl, htier, hevent, hext, hguard⟩ := h
  obtain rfl := Tier.rank_inj htier
  obtain rfl : ae = be := by cases ae <;> cases be <;> first | rfl | cases hevent
  obtain rfl := UInt8.toNat_inj.mp hext
  obtain rfl := UInt8.toNat_inj.mp hguard
  rfl

/-- There are as many states as the fuel allows. -/
theorem length_states_le {nodes : ℕ} {states : List WalkState} (hnd : states.Nodup)
    (hnode : ∀ s ∈ states, s.node < nodes) : states.length ≤ nodes * (3 * 2 * 256 * 256) := by
  have hmap : (states.map WalkState.coords).Nodup := hnd.map WalkState.coords_injective
  have hsub : (states.map WalkState.coords).toFinset ⊆ Finset.range nodes ×ˢ Finset.range 3 ×ˢ
      Finset.range 2 ×ˢ Finset.range 256 ×ˢ Finset.range 256 := by
    intro c hc
    obtain ⟨s, hs, rfl⟩ := List.mem_map.mp (List.mem_toFinset.mp hc)
    simp only [WalkState.coords, Finset.mem_product, Finset.mem_range]
    refine ⟨hnode s hs, ?_, Bool.toNat_lt s.crossedEvent, s.ext.toNat_lt, s.guard.toNat_lt⟩
    cases s.tier <;> decide
  have hcard := Finset.card_le_card hsub
  rw [List.toFinset_card_of_nodup hmap, List.length_map] at hcard
  simpa [Finset.card_product] using hcard

/-- Derivations stay in the graph. -/
theorem node_lt_of_walk (hvalid : ∀ r ∈ roots, r < g.nodeCount) {n : ℕ} {s : WalkState}
    (hw : Walk (Seed g opts roots) (Succ g opts step) n s) : s.node < g.nodeCount := by
  cases hw with
  | seed hs =>
    rcases hs with ⟨i, -, r, hr, rfl⟩ | ⟨-, u, hu, rfl⟩
    · exact hvalid r (List.mem_of_getElem? hr)
    · exact g.hub_lt u (Option.mem_filter_iff.mp hu).1
  | step _ hsucc =>
    obtain ⟨site, st, guard, ext, hst, -, -, -, -, rfl⟩ := hsucc
    exact g.from_lt st (List.mem_of_getElem? hst)

/-- The turns a walk still may take. -/
def turnsLeft (g : SitedGraph) (w : WalkRun) : ℕ :=
  if w.stats.limited then 0 else g.nodeCount * (3 * 2 * 256 * 256) + 1 - (reaches w.calls).length

theorem Exact.length_le (hvalid : ∀ r ∈ roots, r < g.nodeCount) {w : WalkRun}
    (h : Exact g opts step roots w) :
    (reaches w.calls).length ≤ g.nodeCount * (3 * 2 * 256 * 256) := by
  have hle := length_states_le h.once fun s hs => by
    obtain ⟨m, -, hw⟩ := (h.handed s).mp hs
    exact node_lt_of_walk hvalid hw
  rwa [List.length_map] at hle

/-- **Every turn brings the walk nearer its end**: it hands over the states of a level. -/
theorem turnsLeft_lt (hvalid : ∀ r ∈ roots, r < g.nodeCount) {w w' : WalkRun}
    (hw : w.stats.limited = false → Exact g opts step roots w)
    (hturn : turn g opts (fun _ => step) (universal g opts roots) w = some w') :
    turnsLeft g w' < turnsLeft g w := by
  have hopen : w.stats.limited = false ∧ w.scratch.level ≠ [] := by
    unfold turn at hturn
    split at hturn
    · exact absurd hturn (by simp)
    · rename_i hgo
      simpa using hgo
  have h := hw hopen.1
  have hle := h.length_le hvalid
  unfold turnsLeft
  rw [hopen.1, if_neg Bool.false_ne_true]
  split
  · omega
  · rename_i hlimited
    rw [Bool.not_eq_true] at hlimited
    have ht := turn_spec h.words h.next hopen.1 hturn hlimited
    have hle' := (h.turned ht).length_le hvalid
    obtain ⟨level, hperm, hreaches⟩ := ht.handed
    have hpos : 0 < level.length := by
      rw [hperm.length_eq]
      exact List.length_pos_iff.mpr hopen.2
    rw [hreaches, List.length_append, List.length_map] at hle' ⊢
    omega

/-- Every walk ends, and where no cap fired it was exact. -/
theorem walkMulti_spec {scratch : WalkScratch} (hleft : scratch.Left)
    (hvalid : ∀ r ∈ roots, r < g.nodeCount) :
    ∃ w, walkMulti g opts (fun _ => step) roots scratch = some w ∧
      (w.stats.limited = false → ExactWalk g opts step roots w) := by
  have hstart := @start_exact g opts step roots scratch hleft.clean hvalid
  obtain ⟨w, hrun, hinv, hend⟩ := Loop.run_spec
    (turn g opts (fun _ => step) (universal g opts roots))
    (fun w => w.stats.limited = false → Exact g opts step roots w) (turnsLeft g)
    (fun w w' hw hturn hlimited => by
      have hopen : w.stats.limited = false := by
        by_contra hcut
        unfold turn at hturn
        rw [Bool.not_eq_false] at hcut
        rw [hcut, Bool.true_or, if_pos rfl] at hturn
        cases hturn
      have h := hw hopen
      exact h.turned (turn_spec h.words h.next hopen hturn hlimited))
    (fun w w' hw hturn => turnsLeft_lt hvalid hw hturn)
    (fuel g) (start g roots scratch) (fun _ => hstart) (by
      unfold turnsLeft fuel
      split <;> omega)
  refine ⟨w, hrun, fun hlimited => (hinv hlimited).exactWalk ?_⟩
  -- a walk ends uncut only on an empty queue
  unfold turn at hend
  split at hend
  · rename_i hstop
    rw [hlimited, Bool.false_or, List.isEmpty_iff] at hstop
    exact hstop
  · dsimp only at hend
    split at hend <;> cases hend

/-! ## 6. Many roots -/

/-- The walk handed a state over at a hop count. -/
def WalkRun.Found (w : WalkRun) (s : WalkState) (n : ℕ) : Prop :=
  ∃ r ∈ reaches w.calls, r.state = s ∧ r.hops = n

theorem ExactWalk.found_iff {w : WalkRun} (h : ExactWalk g opts step roots w) {s : WalkState} {n : ℕ} :
    w.Found s n ↔ IsDist (Seed g opts roots) (Succ g opts step) n s := by
  constructor
  · rintro ⟨r, hr, rfl, rfl⟩
    exact h.shortest r hr
  · intro hd
    obtain ⟨r, hr, rfl⟩ := List.mem_map.mp ((h.exactly s).mpr ⟨n, hd.1⟩)
    exact ⟨r, hr, rfl, (h.shortest r hr).unique hd⟩

/-- The seeds of many roots are the seeds of each. -/
theorem seed_iff (hne : roots ≠ []) {n : ℕ} {s : WalkState} :
    Seed g opts roots n s ↔ ∃ i : Fin roots.length, Seed g opts [roots.get i] n s := by
  have hhub : ∀ r : ℕ, universal g opts [r] = universal g opts roots := by
    intro r
    simp [universal, List.isEmpty_eq_false_iff.mpr hne]
  constructor
  · rintro (⟨i, hn, r, hr, rfl⟩ | ⟨hn, u, hu, rfl⟩)
    · obtain ⟨hlt, heq⟩ := List.getElem?_eq_some_iff.mp hr
      exact ⟨⟨i, hlt⟩, Or.inl ⟨0, hn, r, by simp [heq], rfl⟩⟩
    · exact ⟨⟨0, List.length_pos_iff.mpr hne⟩, Or.inr ⟨hn, u, (hhub _).trans hu, rfl⟩⟩
  · rintro ⟨i, ⟨j, hn, r, hr, rfl⟩ | ⟨hn, u, hu, rfl⟩⟩
    · obtain ⟨hlt, heq⟩ := List.getElem?_eq_some_iff.mp hr
      obtain rfl : j = 0 := by simpa using hlt
      exact Or.inl ⟨i, hn, r, by simpa using congrArg some heq, rfl⟩
    · exact Or.inr ⟨hn, u, (hhub _).symm.trans hu, rfl⟩

/-- What many roots derive is what each derives. -/
theorem walk_iff_single {m : ℕ} {s : WalkState} :
    Walk (Seed g opts roots) (Succ g opts step) m s ↔
      ∃ r ∈ roots, Walk (Seed g opts [r]) (Succ g opts step) m s := by
  by_cases hne : roots = []
  · subst hne
    constructor
    · intro hw
      exfalso
      induction hw with
      | seed hs =>
        rcases hs with ⟨i, -, r, hr, -⟩ | ⟨-, u, hu, -⟩
        · simp at hr
        · simp [universal] at hu
      | step _ _ ih => exact ih
    · simp
  · have hseed : Seed g opts roots =
        fun n s => ∃ i : Fin roots.length, Seed g opts [roots.get i] n s := by
      funext n s
      exact propext (seed_iff hne)
    rw [hseed, walk_union]
    constructor
    · rintro ⟨i, hw⟩
      exact ⟨_, List.get_mem roots i, hw⟩
    · rintro ⟨r, hr, hw⟩
      obtain ⟨i, rfl⟩ := List.get_of_mem hr
      exact ⟨i, hw⟩

/-- **The distances of many roots are the least of each root's.** -/
theorem isDist_iff_single {n : ℕ} {s : WalkState} :
    IsDist (Seed g opts roots) (Succ g opts step) n s ↔
      (∃ r ∈ roots, IsDist (Seed g opts [r]) (Succ g opts step) n s) ∧
        ∀ r ∈ roots, ∀ m, IsDist (Seed g opts [r]) (Succ g opts step) m s → n ≤ m := by
  constructor
  · rintro ⟨hw, hmin⟩
    obtain ⟨r, hr, hwr⟩ := walk_iff_single.mp hw
    refine ⟨⟨r, hr, hwr, fun m hm => hmin m (walk_iff_single.mpr ⟨r, hr, hm⟩)⟩, fun r' hr' m hm => ?_⟩
    exact hmin m (walk_iff_single.mpr ⟨r', hr', hm.1⟩)
  · rintro ⟨⟨r, hr, hd⟩, hmin⟩
    refine ⟨walk_iff_single.mpr ⟨r, hr, hd.1⟩, fun m hm => ?_⟩
    obtain ⟨r', hr', hw⟩ := walk_iff_single.mp hm
    obtain ⟨k, hk, hd'⟩ := exists_isDist hw
    exact (hmin r' hr' k hd').trans hk

theorem Tier.rank_le_max (a b : Tier) : a.rank ≤ (a.max b).rank := by
  unfold Tier.max
  split
  · assumption
  · exact le_rfl

/-- A step never betters the tier. -/
theorem Back.tier_le {a b : WalkState} {site : ℕ} (h : Back g opts step a site b) :
    a.tier.rank ≤ b.tier.rank := by
  obtain ⟨st, guard, ext, -, -, -, -, -, rfl⟩ := h
  exact Tier.rank_le_max _ _

end Exact

/-! ## 7. The walk -/

/-- **A reverse walk is an exact breadth-first search of the states.**  It ends; and where no cap
fired it handed over exactly the states the roots and the followed universal hub derive, each once,
at its least distance, with a parent one hop nearer and the least root label of that distance; its
states are those of the walks of its roots alone, at the least of their distances. -/
theorem walkMulti_exact (g : SitedGraph) (opts : WalkOptions) (step : WalkState → ℕ → Option UInt8)
    (roots : List ℕ) (scratch : WalkScratch) (hleft : scratch.Left)
    (hvalid : ∀ r ∈ roots, r < g.nodeCount) :
    (∀ a site b, Back g opts step a site b → a.tier.rank ≤ b.tier.rank) ∧
    ∃ w, walkMulti g opts (fun _ => step) roots scratch = some w ∧ (w.stats.limited = false →
      ExactWalk g opts step roots w ∧
      ∀ single : ℕ → WalkRun, (∀ r ∈ roots, ∃ left : WalkScratch, left.Left ∧
          walkOne g opts (fun _ => step) r left = some (single r) ∧
          (single r).stats.limited = false) →
        ∀ s n, w.Found s n ↔ (∃ r ∈ roots, (single r).Found s n) ∧
          ∀ r ∈ roots, ∀ m, (single r).Found s m → n ≤ m) := by
  obtain ⟨w, hrun, hexact⟩ := @walkMulti_spec g opts step roots scratch hleft hvalid
  refine ⟨fun a site b h => h.tier_le, w, hrun, fun hlimited => ⟨hexact hlimited, ?_⟩⟩
  intro single hsingle s n
  have hone : ∀ r ∈ roots, ∀ m, (single r).Found s m ↔
      IsDist (Seed g opts [r]) (Succ g opts step) m s := by
    intro r hr m
    obtain ⟨left, hl, hwalk, hcut⟩ := hsingle r hr
    obtain ⟨w₁, hrun₁, hexact₁⟩ := @walkMulti_spec g opts step [r] left hl fun r' hr' =>
      List.mem_singleton.mp hr' ▸ hvalid r hr
    obtain rfl : w₁ = single r := Option.some.inj (hrun₁.symm.trans hwalk)
    exact (hexact₁ hcut).found_iff
  rw [(hexact hlimited).found_iff, isDist_iff_single]
  refine and_congr (exists_congr fun r => and_congr_right fun hr => (hone r hr n).symm) ?_
  refine forall_congr' fun r => forall_congr' fun hr => forall_congr' fun m => ?_
  rw [hone r hr m]

/-- Node `1` calls node `0`. -/
def oneCaller : SitedGraph where
  nodeCount := 2
  sites := [⟨1, 0, .resolved, ⟨0, by decide⟩, .sync, 0⟩]
  flags _ := Flag.isLocal
  rootKinds _ := 0
  hidden := ∅
  actionRunSites := []
  universalHub := none
  from_lt := by decide
  to_lt := by decide
  hub_lt _ hu := absurd hu (Option.not_mem_none _)

/-- A hundred states and no cancellation. -/
def hundredStates : WalkOptions where
  followOpen := true
  assumeNoDependents := true
  stateBudget := 100
  cancel := none
  extraEntries := none

/-- The callee, then its caller at one hop. -/
theorem walkMulti_exact_oneCaller :
    ∃ w, walkMulti oneCaller hundredStates (fun _ _ _ => some 0) [0] {} = some w ∧
      (reaches w.calls).map (fun r => (r.state.node, r.hops)) = [(0, 0), (1, 1)] ∧
      ExactWalk oneCaller hundredStates (fun _ _ => some 0) [0] w := by
  obtain ⟨-, w, hrun, hexact⟩ := walkMulti_exact oneCaller hundredStates (fun _ _ => some 0) [0] {}
    .new (by decide)
  have heval : (walkMulti oneCaller hundredStates (fun _ _ _ => some 0) [0] {}).map
      (fun w => (w.stats.limited, (reaches w.calls).map fun r => (r.state.node, r.hops))) =
        some (false, [(0, 0), (1, 1)]) := by
    decide +kernel
  rw [hrun, Option.map_some] at heval
  obtain ⟨hlimited, hreaches⟩ := Prod.mk.inj (Option.some.inj heval)
  exact ⟨w, hrun, hreaches, (hexact hlimited).1⟩

end AlSem.Impact
