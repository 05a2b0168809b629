/-
# One producer's walk

`solve_producer` told without its queue: a chain of typed edges is crossed backwards from the
producer's seed, and the walk ends having found exactly the product states such chains reach, each
once, at the length of its shortest chain, with exactly the crossings between them as links
(`solveProducer_exact`).
-/
import AlSem.L4.PdCover

namespace AlSem.L4

open AlSem.Model

/-- **A chain of crossings**: `n` typed edges crossed out of the seed, callee to caller. -/
inductive BackChain (rev : PdRevision) (prod : Producer) : ℕ → PdKey → Prop
  | seed : BackChain rev prod 0 (rev.seedOf prod)
  | cross {n : ℕ} {routine : String} {t t' : TempState} {reqs reqs' : List Req} {ge : GraphEdge} :
    BackChain rev prod n (routine, t, reqs) → ge ∈ graphEdges rev.graph → ge.edge.to = routine →
    crossEdge t reqs ge.edge (rev.routinesById ge.from) (rev.routinesById routine)
      (rev.frames ge.from) (rev.edgeReqs ge) = some (t', reqs') →
    BackChain rev prod (n + 1) (ge.from, t', reqs')

/-- The steps of the search are the crossings of the edges into a state's routine. -/
theorem mem_succ_iff_crossEdge {rev : PdRevision} {a b : PdKey} {ge : GraphEdge} :
    (ge, b) ∈ rev.succ a ↔ ge ∈ graphEdges rev.graph ∧ ge.edge.to = a.1 ∧
      ∃ r, crossEdge a.2.1 a.2.2 ge.edge (rev.routinesById ge.from) (rev.routinesById a.1)
        (rev.frames ge.from) (rev.edgeReqs ge) = some r ∧ b = (ge.from, r) := by
  rw [PdRevision.mem_succ]
  constructor
  · rintro ⟨hin, -, hto, hcross⟩
    obtain ⟨r, hr, rfl⟩ := Option.map_eq_some_iff.mp hcross
    exact ⟨hin, hto, r, hr, rfl⟩
  · rintro ⟨hin, hto, r, hr, rfl⟩
    exact ⟨hin, mem_outEdges.mpr ⟨_, hin⟩, hto, Option.map_eq_some_iff.mpr ⟨r, hr, rfl⟩⟩

/-- The walks of the search are the chains. -/
theorem walk_iff_backChain {rev : PdRevision} {prod : Producer} {n : ℕ} {key : PdKey} :
    Bfs.Walk rev.succ (rev.seedOf prod) n key ↔ BackChain rev prod n key := by
  constructor
  · intro h
    induction h with
    | seed => exact .seed
    | step _ hsucc ih =>
      obtain ⟨hin, hto, r, hr, rfl⟩ := mem_succ_iff_crossEdge.mp hsucc
      exact .cross ih hin hto hr
  · intro h
    induction h with
    | seed => exact .seed
    | cross _ hin hto hcross ih =>
      exact .step ih (mem_succ_iff_crossEdge.mpr ⟨hin, hto, _, hcross, rfl⟩)

/-- **What a producer's walk holds when it ends.** -/
structure ProducerSolved (rev : PdRevision) (p : ℕ) (prod : Producer) (f : FreshSolve) : Prop where
  producer : ∀ s ∈ f.states, s.producer = p
  once : (f.states.map ConeState.pdKey).Nodup
  reached : ∀ key, key ∈ f.states.map ConeState.pdKey ↔ ∃ n, BackChain rev prod n key
  shortest : ∀ s ∈ f.states, BackChain rev prod s.dist s.pdKey ∧
    ∀ n, BackChain rev prod n s.pdKey → s.dist ≤ n
  seed : ∀ s ∈ f.states, s.seed = true ↔ s.pdKey = rev.seedOf prod
  lengths : f.rawLinks.length = f.states.length
  edges : f.edges.Nodup
  link : ∀ j s, f.states[j]? = some s → ∀ l, l ∈ f.rawLinks.getD j [] ↔
    ∃ c ge, f.states[l.calleeState]? = some c ∧ f.edges[l.edge]? = some ge ∧
      ge ∈ graphEdges rev.graph ∧ ge.edge.to = c.routine ∧ s.routine = ge.from ∧
      crossEdge c.t c.reqs ge.edge (rev.routinesById ge.from) (rev.routinesById c.routine)
        (rev.frames ge.from) (rev.edgeReqs ge) = some (s.t, s.reqs)
  linked : ∀ c ∈ f.states, ∀ ge ∈ graphEdges rev.graph, ge.edge.to = c.routine →
    (crossEdge c.t c.reqs ge.edge (rev.routinesById ge.from) (rev.routinesById c.routine)
      (rev.frames ge.from) (rev.edgeReqs ge)).isSome = true → ge ∈ f.edges

/-- The seed alone is at distance zero. -/
theorem stateOf_seed_iff {rev : PdRevision} {prod : Producer} {p n : ℕ} {key : PdKey}
    (h : Found rev prod n key) : (stateOf p key n).seed = true ↔ key = rev.seedOf prod := by
  have hzero : (stateOf p key n).seed = decide (n = 0) := rfl
  rw [hzero, decide_eq_true_iff]
  constructor
  · rintro rfl
    cases h.1 with
    | seed => rfl
  · rintro rfl
    exact Nat.le_zero.mp (h.2 0 .seed)

/-- A finished search holds what the walk must. -/
theorem producerSolved_of_solved {rev : PdRevision} {prod : Producer} {s : Bfs.Search PdKey GraphEdge}
    (h : Bfs.Solved rev.succ (rev.seedOf prod) s) (p : ℕ) :
    ProducerSolved rev p prod (freshOf p s) := by
  have hstates := freshOf_states h p
  have hkeys : (freshOf p s).states.map ConeState.pdKey = s.keys := by
    rw [hstates, List.map_map]
    rfl
  have hfound : ∀ st ∈ (freshOf p s).states, ∃ n key, Found rev prod n key ∧ st = stateOf p key n := by
    intro st hst
    rw [hstates] at hst
    obtain ⟨f, hf, rfl⟩ := List.mem_map.mp hst
    exact ⟨f.2, f.1, (h.dist _ _).mp hf, rfl⟩
  have hkeyAt : ∀ (i : ℕ), s.keys[i]? = ((freshOf p s).states[i]?).map ConeState.pdKey := by
    intro i
    rw [← hkeys, List.getElem?_map]
  have hlinks : ∀ j, (freshOf p s).rawLinks.getD j [] =
      (s.links.getD j []).map fun k => { calleeState := k.callee, edge := k.label } := by
    intro j
    simp only [freshOf, List.getD_eq_getElem?_getD, List.getElem?_map]
    cases s.links[j]? with
    | none => rfl
    | some ls => rfl
  constructor
  case producer =>
    intro st hst
    obtain ⟨n, key, -, rfl⟩ := hfound st hst
    rfl
  case once =>
    rw [hkeys]
    exact h.nodup
  case reached =>
    intro key
    rw [hkeys]
    constructor
    · intro hkey
      obtain ⟨⟨_, n⟩, hmem, rfl⟩ := List.mem_map.mp hkey
      exact ⟨n, walk_iff_backChain.mp ((h.dist _ n).mp hmem).1⟩
    · rintro ⟨n, hchain⟩
      obtain ⟨m, hm⟩ := Bfs.exists_isDist (walk_iff_backChain.mpr hchain)
      exact List.mem_map.mpr ⟨(key, m), (h.dist key m).mpr hm, rfl⟩
  case shortest =>
    intro st hst
    obtain ⟨n, key, hd, rfl⟩ := hfound st hst
    exact ⟨walk_iff_backChain.mp hd.1, fun m hm => hd.2 m (walk_iff_backChain.mpr hm)⟩
  case seed =>
    intro st hst
    obtain ⟨n, key, hd, rfl⟩ := hfound st hst
    exact stateOf_seed_iff hd
  case lengths =>
    rw [hstates]
    simpa [freshOf] using h.lengths
  case edges => exact h.labels
  case link =>
    intro j st hj l
    have hkey : s.keys[j]? = some st.pdKey := by
      rw [hkeyAt, hj]
      rfl
    rw [hlinks, List.mem_map]
    constructor
    · rintro ⟨k, hk, rfl⟩
      obtain ⟨a, ge, ha, hge, hsucc⟩ := (h.link j _ hkey k).mp hk
      rw [hkeyAt] at ha
      obtain ⟨c, hc, rfl⟩ := Option.map_eq_some_iff.mp ha
      obtain ⟨hin, hto, r, hr, heq⟩ := mem_succ_iff_crossEdge.mp hsucc
      obtain ⟨hfrom, rfl⟩ := Prod.mk.inj heq
      exact ⟨c, ge, hc, hge, hin, hto, hfrom, hr⟩
    · rintro ⟨c, ge, hc, hge, hin, hto, hfrom, hcross⟩
      refine ⟨⟨l.calleeState, l.edge⟩, (h.link j _ hkey _).mpr ⟨c.pdKey, ge, ?_, hge, ?_⟩, rfl⟩
      · rw [hkeyAt, hc]
        rfl
      · exact mem_succ_iff_crossEdge.mpr ⟨hin, hto, _, hcross, congrArg (·, st.t, st.reqs) hfrom⟩
  case linked =>
    intro c hc ge hin hto hcross
    obtain ⟨r, hr⟩ := Option.isSome_iff_exists.mp hcross
    refine (h.used ge).mpr ⟨c.pdKey, (ge.from, r), ?_, mem_succ_iff_crossEdge.mpr
      ⟨hin, hto, r, hr, rfl⟩⟩
    rw [← hkeys]
    exact List.mem_map_of_mem hc

/-- **A producer's walk ends and finds exactly the reachable product states**, each once, at its
shortest distance, with exactly the crossings between them as links. -/
theorem solveProducer_exact (rev : PdRevision) (p : ℕ) (prod : Producer) :
    ∃ f, solveProducer rev p prod = some f ∧ ProducerSolved rev p prod f := by
  obtain ⟨s, hrun, hsolved⟩ := rev.bfs_solved prod
  exact ⟨freshOf p s, by rw [solveProducer, hrun, Option.map_some], producerSolved_of_solved hsolved p⟩

end AlSem.L4
