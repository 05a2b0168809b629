/-
# The solver computes the least fixed point

The run of the database-effect solver over a whole graph, as the summary runner starts it, and
its refinement theorem: whatever the caller assembles of the side results, every recomputed
routine's row is its component of the least solution of the per-edge effect equations
(`DbSetup.solve_isLeastSolution`).

The invariant is `Progress`: the routines done hold their solution, the others have no row.  A
component is solved when all its recomputed outward targets are done, which the callees-first
order of Tarjan's components, and of the effective components in each, provides.
-/
import AlSem.L4.SccCorrect
import AlSem.L4.DbEffectBlock

namespace AlSem.L4

open AlSem.Model EdgeSystem

/-! ## 1. The run -/

/-- What the summary runner hands the solver.  The graph's nodes are the workspace's routine
ids (`combined_graph.rs`), so every routine is one of them. -/
structure DbSetup where
  graph : PrimaryGraph
  routines : List ModelRoutine
  baseSummaries : String → Option RoutineSummary
  leafSummaries : HashMap String RoutineSummary
  toLowercase : String → String
  nodes_mem : ∀ r ∈ routines, r.id ∈ graph.nodes

namespace DbSetup

variable (w : DbSetup)

/-- The row of an id: the last one. -/
def routinesById (id : String) : Option ModelRoutine := w.routines.reverse.find? fun r => r.id = id

/-- Every workspace routine and every fixed leaf, in canonical order. -/
def interner : RoutineInterner :=
  RoutineInterner.buildCanonical
    (w.routines.map (fun r => (r.id, r.stableRoutineId)) ++
      w.leafSummaries.keys.map fun id => (id, id))

/-- The solver's inputs. -/
def input : SolverInput where
  graph := w.graph
  routinesById := w.routinesById
  baseSummaries := w.baseSummaries
  uncertaintyEdgesByFrom id := (w.graph.uncertaintyEdges.zipIdx.filter fun u => u.1.from = id).map Prod.snd
  bodyAvailById id := (w.routinesById id).map ModelRoutine.bodyAvailable
  interner := w.interner
  toLowercase := w.toLowercase

/-- Neither a fixed leaf nor missing from the workspace. -/
def isRecomputed (id : String) : Bool :=
  (w.leafSummaries.lookup id).isNone && (w.routinesById id).isSome

/-- Seed the leaves' rows, then solve the graph's components in order. -/
def solve (assemble : Scc String → SideResults → (String → Option RoutineSummary) →
    (String → Option RoutineSummary)) : Option SolveState :=
  solveDbEffects w.input w.isRecomputed assemble (graphScc w.graph).sccs
    (fun id => w.leafSummaries.lookup id)
    (seedFixedLeafRows w.interner w.leafSummaries { effects := Interner.new, bundle := .new })

/-- A fixed leaf's row: its summary's effects. -/
def leafRow (id : String) : Option (Set EffectIdentity) :=
  (w.leafSummaries.lookup id).map fun s => {k | ∃ d ∈ s.dbEffects, d.identity = k}

/-- The per-edge effect equations of the workspace. -/
abbrev system : EdgeSystem String CombinedEdge EffectIdentity :=
  effectSystem w.input w.isRecomputed w.leafRow

/-- The recorded base summaries agree with the routines' own. -/
def BaseAgrees : Prop :=
  ∀ m b r, w.baseSummaries m = some b → w.routinesById m = some r →
    ∃ fields, b.dbEffects = (baseIntraproceduralSummary w.toLowercase r fields).dbEffects

end DbSetup

/-- The effects of a routine's row: its shared terminal set and its own parameter-dependent
effects. -/
def SolveState.presence (s : SolveState) (interner : RoutineInterner) (m : String) :
    Set EffectIdentity :=
  {k | ∃ ix id, interner.get m = some ix ∧
    (hasBit (s.bundle.terminalBits ix) id = true ∨ id ∈ s.bundle.pdIds ix) ∧
    s.effects.value id = some k}

theorem RowHolds.presence {s : SolveState} {ix : ℕ} {X : Set EffectIdentity} (h : RowHolds s ix X)
    {interner : RoutineInterner} {m : String} (hm : interner.get m = some ix) :
    s.presence interner m = X := by
  ext k
  constructor
  · rintro ⟨ix', id, hm', hid, hv⟩
    rw [hm] at hm'
    obtain rfl := Option.some.inj hm'
    rcases hid with hid | hid
    · exact (h.terminal.mem_of_value hid hv).1
    · exact (h.pd.mem_of_value hid hv).1
  · intro hk
    by_cases ht : k ∈ terminalEffects
    · obtain ⟨id, hid, hv⟩ := h.terminal.complete k ⟨hk, ht⟩
      exact ⟨ix, id, hm, Or.inl hid, hv⟩
    · obtain ⟨id, hid, hv⟩ := h.pd.complete k ⟨hk, ht⟩
      exact ⟨ix, id, hm, Or.inr hid, hv⟩

/-- Base effects do not depend on the field index. -/
theorem baseIntraproceduralSummary_dbEffects (toLowercase : String → String) (r : ModelRoutine)
    (fields fields' : FieldIndex) :
    (baseIntraproceduralSummary toLowercase r fields).dbEffects =
      (baseIntraproceduralSummary toLowercase r fields').dbEffects := by
  unfold baseIntraproceduralSummary
  dsimp only
  split
  · rfl
  · split <;> rfl

/-! ## 2. The invariant -/

section Run

variable {w : DbSetup}

theorem isRecomputed_iff {m : String} :
    w.isRecomputed m = true ↔ w.leafRow m = none ∧ ∃ r, w.routinesById m = some r := by
  unfold DbSetup.isRecomputed DbSetup.leafRow
  simp [Option.isSome_iff_exists]

theorem routinesById_mem {m : String} {r : ModelRoutine} (h : w.routinesById m = some r) :
    r ∈ w.routines ∧ r.id = m :=
  ⟨List.mem_reverse.mp (List.mem_of_find?_eq_some h), by simpa using List.find?_some h⟩

/-- Every routine and every leaf is interned. -/
theorem interned_of {m : String} (h : (∃ r, w.routinesById m = some r) ∨ w.leafRow m ≠ none) :
    ∃ ix, w.interner.get m = some ix := by
  rw [← Option.isSome_iff_exists, DbSetup.interner, RoutineInterner.isSome_get_buildCanonical]
  rcases h with ⟨r, hr⟩ | hleaf
  · obtain ⟨hmem, rfl⟩ := routinesById_mem hr
    exact ⟨_, List.mem_append_left _ (List.mem_map.mpr ⟨r, hmem, rfl⟩), rfl⟩
  · have hkey : m ∈ w.leafSummaries.keys := by
      rw [← AList.mem_keys, ← AList.lookup_isSome]
      cases hl : w.leafSummaries.lookup m with
      | none => simp [DbSetup.leafRow, hl] at hleaf
      | some _ => rfl
    exact ⟨(m, m), List.mem_append_right _ (List.mem_map.mpr ⟨m, hkey, rfl⟩), rfl⟩

/-- The routines done hold their solution, the others have no row. -/
structure Progress (w : DbSetup) (done : String → Prop) (s : SolveState) : Prop where
  bundle : BundleOk s.bundle
  solved : ∀ c ix, done c → w.interner.get c = some ix →
    RowHolds s ix (w.system.row w.system.solution c)
  unsolved : ∀ c ix, ¬ done c → w.interner.get c = some ix → s.bundle.hasRow ix = false

theorem Progress.congr {done done' : String → Prop} {s : SolveState} (h : Progress w done s)
    (hd : ∀ c, done' c ↔ done c) : Progress w done' s := by
  have : done' = done := funext fun c => propext (hd c)
  rw [this]
  exact h

/-- A component whose recomputed outward targets are done. -/
structure IsBlock (w : DbSetup) (done : String → Prop) (members : List String) : Prop where
  nodup : members.Nodup
  active : ∀ m ∈ members, w.isRecomputed m = true
  connected : ∀ v ∈ members, ∀ u ∈ members, Relation.ReflTransGen w.system.Step v u
  outer : ∀ m ∈ members, ∀ e ∈ w.graph.outEdges m, e.to ∉ members →
    w.isRecomputed e.to = true ∨ w.leafRow e.to ≠ none → done e.to

theorem IsBlock.ready (hbase : w.BaseAgrees) {done : String → Prop} {members : List String}
    (hb : IsBlock w done members) {s : SolveState} (h : Progress w done s) :
    BlockReady w.input w.isRecomputed w.leafRow members s := by
  have hact := fun m hm => isRecomputed_iff.mp (hb.active m hm)
  refine
    { nodup := hb.nodup
      active := hb.active
      routine := fun m hm => (hact m hm).2
      interned := fun m hm => interned_of (Or.inl (hact m hm).2)
      unsettled := fun m hm => (hact m hm).1
      base := fun m hm b hbm => ?_
      connected := hb.connected
      outer := fun m hm e he hout => ?_ }
  · obtain ⟨r, hr⟩ := (hact m hm).2
    obtain ⟨fields, heq⟩ := hbase m b r hbm hr
    refine ⟨baseIntraproceduralSummary w.toLowercase r emptyFields, ?_, ?_⟩
    · have hr' : w.input.routinesById m = some r := hr
      rw [SolverInput.ownSummary, hr']
      rfl
    · rw [heq]
      exact baseIntraproceduralSummary_dbEffects _ _ _ _
  · by_cases htarget : w.isRecomputed e.to = true ∨ w.leafRow e.to ≠ none
    · have hdone := hb.outer m hm e he hout htarget
      obtain ⟨ix, hix⟩ := interned_of (w := w) (m := e.to)
        (htarget.imp_left fun hrec => (isRecomputed_iff.mp hrec).2)
      exact Or.inl ⟨ix, hix, h.solved e.to ix hdone hix⟩
    · rw [not_or, not_not] at htarget
      have hempty : w.system.row w.system.solution e.to = ∅ :=
        row_of_not_active htarget.1 htarget.2
      by_cases hdone : done e.to
      · by_cases hix : ∃ ix, w.interner.get e.to = some ix
        · obtain ⟨ix, hix⟩ := hix
          exact Or.inl ⟨ix, hix, h.solved e.to ix hdone hix⟩
        · exact Or.inr ⟨hempty, fun ix hix' => absurd ⟨ix, hix'⟩ hix⟩
      · exact Or.inr ⟨hempty, fun ix hix => h.unsolved e.to ix hdone hix⟩

/-- **Step**: solving a component makes its members done. -/
theorem Progress.step (hbase : w.BaseAgrees) {done : String → Prop} {eff : Scc String}
    (hb : IsBlock w done eff.members) {s : SolveState} (h : Progress w done s)
    (settled : String → Option RoutineSummary) :
    ∃ s' side, solveOneEffectiveScc w.input eff settled s = some (s', side) ∧
      Progress w (fun c => done c ∨ c ∈ eff.members) s' := by
  obtain ⟨s', side, hsolve, hext, hok, hrows, hkeep⟩ :=
    (hb.ready hbase h).solveOneEffectiveScc_spec h.bundle rfl settled
  have hother : ∀ c ix, c ∉ eff.members → w.interner.get c = some ix →
      s'.bundle.rows ix = s.bundle.rows ix := by
    intro c ix hc hix
    refine hkeep ix fun m hm hmix => hc ?_
    rw [← Interner.get_inj hmix hix]
    exact hm
  refine ⟨s', side, hsolve, hok, fun c ix hc hix => ?_, fun c ix hc hix => ?_⟩
  · by_cases hmem : c ∈ eff.members
    · have hrow := row_of_active (S := w.system) (P := w.system.solution) (hb.active c hmem)
        (isRecomputed_iff.mp (hb.active c hmem)).1
      rw [hrow]
      exact hrows c hmem ix hix
    · exact (h.solved c ix (hc.resolve_right hmem) hix).of_extends h.bundle hext
        (hother c ix hmem hix)
  · rw [not_or] at hc
    have hno := h.unsolved c ix hc.1 hix
    unfold SummaryBundleBuilder.hasRow at hno ⊢
    rw [hother c ix hc.2 hix]
    exact hno

/-! ## 3. Effective components -/

/-- The induced edges are the graph's edges between kept members. -/
theorem edge_inducedAdjacency {graph : PrimaryGraph} {nodes : List String} {a b : String} :
    Tarjan.Edge (inducedAdjacency graph nodes) a b ↔
      a ∈ nodes ∧ b ∈ nodes ∧ ∃ e ∈ graph.outEdges a, e.to = b := by
  have hlook : (inducedAdjacency graph nodes).edgesByFrom.lookup a =
      if a ∈ nodes then some (((graph.outEdges a).map CombinedEdge.to).filter fun t => nodes.contains t)
      else none := by
    unfold inducedAdjacency AList.lookup
    dsimp only
    by_cases ha : a ∈ nodes
    · rw [if_pos ha]
      refine List.mem_dlookup ?_ ?_
      · unfold List.NodupKeys List.keys
        simpa [List.map_map, Function.comp_def] using nodes.nodup_dedup
      · exact List.mem_map.mpr ⟨a, List.mem_dedup.mpr ha, rfl⟩
    · rw [if_neg ha, List.dlookup_eq_none]
      simpa [List.keys, List.map_map, Function.comp_def] using ha
  unfold Tarjan.Edge Tarjan.children HashMap.getList
  rw [hlook]
  by_cases ha : a ∈ nodes
  · simp only [ha, if_true, Option.getD_some, List.mem_filter, List.mem_map,
      List.contains_iff_mem, true_and]
    tauto
  · simp [ha]

/-- **Each effective component is a block**, once the ones before it are done. -/
theorem isBlock_of_effective {done : String → Prop} {sccEntry : Scc String}
    (hleaf : ∀ c, w.leafRow c ≠ none → done c)
    (hout : ∀ m ∈ sccEntry.members, ∀ e ∈ w.graph.outEdges m, e.to ∉ sccEntry.members →
      w.isRecomputed e.to = true → done e.to)
    {before after : List (Scc String)} {eff : Scc String}
    (heq : effectiveSccs sccEntry w.graph w.isRecomputed = before ++ eff :: after) :
    IsBlock w (fun c => done c ∨ c ∈ (before.map Scc.members).flatten) eff.members := by
  set nodes := sccEntry.members.filter w.isRecomputed with hnodes
  have hsccs : (tarjanScc (inducedAdjacency w.graph nodes)).sccs = before ++ eff :: after := by
    unfold effectiveSccs at heq
    rw [← hnodes] at heq
    dsimp only at heq
    split at heq
    · simp at heq
    · exact heq
  have horder := tarjanScc_isSccOrder (inducedAdjacency w.graph nodes)
  rw [hsccs, List.map_append, List.map_cons] at horder
  have hin : ∀ n u, n ∈ nodes → Tarjan.Reach (inducedAdjacency w.graph nodes) n u → u ∈ nodes := by
    intro n u hn hr
    induction hr with
    | refl => exact hn
    | tail _ hedge _ => exact (edge_inducedAdjacency.mp hedge).2.1
  have hmem : ∀ m ∈ eff.members, m ∈ nodes := by
    intro m hm
    obtain ⟨n, hn, hr⟩ := (horder.mem m).mp
      (List.mem_flatten.mpr ⟨eff.members, by simp, hm⟩)
    exact hin n m hn hr
  have hrec : ∀ m ∈ nodes, w.isRecomputed m = true := fun m hm => (List.mem_filter.mp hm).2
  refine
    { nodup := ?_
      active := fun m hm => hrec m (hmem m hm)
      connected := fun v hv u hu => ?_
      outer := fun m hm e he houtside htarget => ?_ }
  · have hnd := horder.nodup
    rw [List.flatten_append, List.flatten_cons] at hnd
    exact (List.nodup_append.mp (List.nodup_append.mp hnd).2.1).1
  · obtain ⟨-, hcl⟩ := horder.classes eff.members (by simp)
    have hreach := ((hcl v hv u).mp hu).1
    have hstep : ∀ a b, Tarjan.Edge (inducedAdjacency w.graph nodes) a b → w.system.Step a b := by
      intro a b hab
      obtain ⟨ha, hb, e, he, rfl⟩ := edge_inducedAdjacency.mp hab
      exact ⟨hrec a ha, hrec _ hb, (isRecomputed_iff.mp (hrec _ hb)).1, e, he, rfl⟩
    exact Relation.ReflTransGen.mono hstep _ _ hreach
  · rcases htarget with htarget | htarget
    · by_cases hscc : e.to ∈ sccEntry.members
      · have hedge : Tarjan.Edge (inducedAdjacency w.graph nodes) m e.to :=
          edge_inducedAdjacency.mpr
            ⟨hmem m hm, List.mem_filter.mpr ⟨hscc, htarget⟩, e, he, rfl⟩
        rcases horder.topo _ _ _ rfl m hm e.to hedge with hin' | hin'
        · exact absurd hin' houtside
        · exact Or.inr hin'
      · exact Or.inl (hout m (List.mem_filter.mp (hmem m hm)).1 e he hscc htarget)
    · exact Or.inl (hleaf _ htarget)

/-- The effective components list exactly the recomputed members. -/
theorem mem_effectiveSccs {sccEntry : Scc String} {c : String} :
    c ∈ ((effectiveSccs sccEntry w.graph w.isRecomputed).map Scc.members).flatten ↔
      c ∈ sccEntry.members ∧ w.isRecomputed c = true := by
  unfold effectiveSccs
  dsimp only
  split
  · rename_i hempty
    have hnil := List.isEmpty_iff.mp hempty
    have hno : c ∉ sccEntry.members.filter w.isRecomputed := by simp [hnil]
    rw [List.mem_filter] at hno
    simpa using hno
  · rw [(tarjanScc_isSccOrder _).mem c, ← List.mem_filter]
    constructor
    · rintro ⟨n, hn, hr⟩
      induction hr with
      | refl => exact hn
      | tail _ hedge _ => exact (edge_inducedAdjacency.mp hedge).2.1
    · exact fun hc => ⟨c, hc, Relation.ReflTransGen.refl⟩

/-- **One Tarjan component**: its recomputed members become done. -/
theorem Progress.scc (hbase : w.BaseAgrees) {done : String → Prop} {sccEntry : Scc String}
    (hleaf : ∀ c, w.leafRow c ≠ none → done c)
    (hout : ∀ m ∈ sccEntry.members, ∀ e ∈ w.graph.outEdges m, e.to ∉ sccEntry.members →
      w.isRecomputed e.to = true → done e.to)
    {s : SolveState} (h : Progress w done s) (settled : String → Option RoutineSummary) :
    ∃ s' side, solveSccDbEffects w.input w.isRecomputed sccEntry settled s = some (s', side) ∧
      Progress w (fun c => done c ∨ c ∈ sccEntry.members ∧ w.isRecomputed c = true) s' := by
  -- the components still to solve, with those before them done
  have hrun : ∀ (effs before : List (Scc String)),
      effectiveSccs sccEntry w.graph w.isRecomputed = before ++ effs →
      ∀ settled s, Progress w (fun c => done c ∨ c ∈ (before.map Scc.members).flatten) s →
      ∃ s' side, solveEffectives w.input sccEntry effs settled s = some (s', side) ∧
        Progress w (fun c => done c ∨ c ∈ ((before ++ effs).map Scc.members).flatten) s' := by
    intro effs
    induction effs with
    | nil =>
      intro before _ settled s hs
      exact ⟨s, _, rfl, by simpa using hs⟩
    | cons eff effs ih =>
      intro before heq settled s hs
      obtain ⟨s₁, side₁, hsolve, hs₁⟩ := hs.step hbase (isBlock_of_effective hleaf hout heq) settled
      obtain ⟨s₂, side₂, hrest, hs₂⟩ := ih (before ++ [eff]) (by simpa using heq)
        (settleSide sccEntry settled side₁) s₁ (hs₁.congr fun c => by simp [or_assoc])
      refine ⟨s₂, fun id => (side₂ id).or (side₁ id), ?_, hs₂.congr fun c => by simp⟩
      simp only [solveEffectives, hsolve, Option.bind_some, hrest, Option.map_some]
  obtain ⟨s', side, hsolve, hs'⟩ := hrun (effectiveSccs sccEntry w.graph w.isRecomputed) [] rfl
    settled s (h.congr fun c => by simp)
  refine ⟨s', side, hsolve, hs'.congr fun c => ?_⟩
  rw [List.nil_append, mem_effectiveSccs]

/-! ## 4. The whole run -/

/-- Seeding the leaves makes them done. -/
theorem progress_seeded (w : DbSetup) :
    Progress w (fun c => w.leafRow c ≠ none)
      (seedFixedLeafRows w.interner w.leafSummaries { effects := Interner.new, bundle := .new }) := by
  have hrun : ∀ (l before : List (Sigma fun _ : String => RoutineSummary)),
      w.leafSummaries.entries = before ++ l →
      ∀ s, Progress w (fun c => c ∈ before.map Sigma.fst) s →
      Progress w (fun c => c ∈ (before ++ l).map Sigma.fst) (l.foldl (fun s e =>
        (w.interner.get e.1).elim s fun ix =>
          seedRow ix (e.2.dbEffects.map fun d => (d.identity, ViaRank.fromStr d.via)) s) s) := by
    intro l
    induction l with
    | nil => intro before _ s hs; simpa using hs
    | cons e l ih =>
      intro before heq s hs
      have hlook : w.leafSummaries.lookup e.1 = some e.2 := by
        rw [AList.mem_lookup_iff.mpr]
        rw [heq]
        simp
      have hleaf : w.leafRow e.1 = some {k | ∃ d ∈ e.2.dbEffects, d.identity = k} := by
        simp [DbSetup.leafRow, hlook]
      obtain ⟨ix, hix⟩ := interned_of (w := w) (m := e.1) (Or.inr (by rw [hleaf]; simp))
      obtain ⟨hext, hok, hself, hother⟩ := seedRow_spec ix
        (e.2.dbEffects.map fun d => (d.identity, ViaRank.fromStr d.via)) hs.bundle
      have hs' : Progress w (fun c => c ∈ (before ++ [e]).map Sigma.fst)
          (seedRow ix (e.2.dbEffects.map fun d => (d.identity, ViaRank.fromStr d.via)) s) := by
        refine ⟨hok, fun c ix' hc hix' => ?_, fun c ix' hc hix' => ?_⟩
        · by_cases hce : c = e.1
          · subst hce
            rw [hix] at hix'
            obtain rfl := Option.some.inj hix'
            rw [row_of_settled hleaf]
            convert hself using 1
            ext k
            simp
          · have hne : ix' ≠ ix := by
              rintro rfl
              exact hce (Interner.get_inj hix' hix)
            have hc' : c ∈ before.map Sigma.fst := by simpa [hce] using hc
            exact (hs.solved c ix' hc' hix').of_extends hs.bundle hext (hother ix' hne)
        · have hce : c ≠ e.1 := by
            rintro rfl
            exact hc (by simp)
          have hne : ix' ≠ ix := by
            rintro rfl
            exact hce (Interner.get_inj hix' hix)
          have hno := hs.unsolved c ix' (fun hb => hc (by rw [List.map_append]; exact List.mem_append_left _ hb)) hix'
          unfold SummaryBundleBuilder.hasRow at hno ⊢
          rw [hother ix' hne]
          exact hno
      rw [List.foldl_cons, hix]
      have hres := ih (before ++ [e]) (by simpa using heq) _ hs'
      simpa using hres
  have hinit : Progress w (fun c => c ∈ ([] : List (Sigma fun _ : String => RoutineSummary)).map Sigma.fst)
      { effects := Interner.new, bundle := .new } :=
    ⟨fun _ _ h => by simp [SummaryBundleBuilder.new] at h, fun _ _ h => by simp at h, fun _ _ _ _ => rfl⟩
  have hseed : seedFixedLeafRows w.interner w.leafSummaries =
      fun s => w.leafSummaries.entries.foldl (fun s e =>
        (w.interner.get e.1).elim s fun ix =>
          seedRow ix (e.2.dbEffects.map fun d => (d.identity, ViaRank.fromStr d.via)) s) s := by
    unfold seedFixedLeafRows
    funext s
    congr 1
    funext s e
    cases w.interner.get e.1 <;> rfl
  rw [hseed]
  refine (hrun w.leafSummaries.entries [] rfl _ hinit).congr fun c => ?_
  have hkey : c ∈ w.leafSummaries.entries.map Sigma.fst ↔ (w.leafSummaries.lookup c).isSome := by
    rw [AList.lookup_isSome]
    rfl
  rw [List.nil_append, hkey, DbSetup.leafRow]
  cases w.leafSummaries.lookup c <;> simp

/-- **Run**: after the components, every recomputed node holds its solution. -/
theorem progress_run (hbase : w.BaseAgrees)
    (assemble : Scc String → SideResults → (String → Option RoutineSummary) →
      (String → Option RoutineSummary)) :
    ∀ (sccs before : List (Scc String)), (graphScc w.graph).sccs = before ++ sccs →
      ∀ settled s, Progress w (fun c => w.leafRow c ≠ none ∨
        c ∈ (before.map Scc.members).flatten ∧ w.isRecomputed c = true) s →
      ∃ s', solveDbEffects w.input w.isRecomputed assemble sccs settled s = some s' ∧
        Progress w (fun c => w.leafRow c ≠ none ∨
          c ∈ ((before ++ sccs).map Scc.members).flatten ∧ w.isRecomputed c = true) s' := by
  intro sccs
  induction sccs with
  | nil =>
    intro before _ settled s hs
    exact ⟨s, rfl, by simpa using hs⟩
  | cons sccEntry sccs ih =>
    intro before heq settled s hs
    have horder := tarjanScc_isSccOrder (sccAdjacency w.graph)
    have hout : ∀ m ∈ sccEntry.members, ∀ e ∈ w.graph.outEdges m, e.to ∉ sccEntry.members →
        w.isRecomputed e.to = true → w.leafRow e.to ≠ none ∨
          e.to ∈ (before.map Scc.members).flatten ∧ w.isRecomputed e.to = true := by
      intro m hm e he hnot hrec
      have hedge : Tarjan.Edge (sccAdjacency w.graph) m e.to := by
        unfold Tarjan.Edge
        rw [children_sccAdjacency]
        exact List.mem_map_of_mem he
      have hlist : (tarjanScc (sccAdjacency w.graph)).sccs.map Scc.members =
          before.map Scc.members ++ sccEntry.members :: sccs.map Scc.members := by
        have h' : (tarjanScc (sccAdjacency w.graph)).sccs = before ++ sccEntry :: sccs := heq
        rw [h']
        simp
      rcases horder.topo _ _ _ hlist m hm e.to hedge with hin | hin
      · exact absurd hin hnot
      · exact Or.inr ⟨hin, hrec⟩
    obtain ⟨s₁, side, hsolve, hs₁⟩ := hs.scc hbase (fun c hc => Or.inl hc) hout settled
    obtain ⟨s₂, hrest, hs₂⟩ := ih (before ++ [sccEntry]) (by simpa using heq)
      (assemble sccEntry side settled) s₁ (hs₁.congr fun c => by
        simp only [List.map_append, List.flatten_append, List.mem_append, List.map_cons,
          List.map_nil, List.flatten_cons, List.flatten_nil, List.append_nil]
        tauto)
    exact ⟨s₂, by simp only [solveDbEffects, hsolve, Option.bind_some, hrest],
      hs₂.congr fun c => by simp⟩

/-- **The solver computes the least fixed point of the per-edge effect equations**, whatever the
caller assembles of the side results. -/
theorem DbSetup.solve_isLeastSolution (w : DbSetup) (hbase : w.BaseAgrees)
    (assemble : Scc String → SideResults → (String → Option RoutineSummary) →
      (String → Option RoutineSummary)) :
    ∃ s, w.solve assemble = some s ∧ w.system.IsLeastSolution (s.presence w.interner) := by
  obtain ⟨s, hsolve, hs⟩ := progress_run hbase assemble (graphScc w.graph).sccs [] rfl
    (fun id => w.leafSummaries.lookup id) _ ((progress_seeded w).congr fun c => by simp)
  refine ⟨s, hsolve, isLeastSolution_of_eq fun m hm => ?_⟩
  obtain ⟨hleaf, r, hr⟩ := isRecomputed_iff.mp hm
  obtain ⟨hmem, hid⟩ := routinesById_mem hr
  have hin : m ∈ (((graphScc w.graph).sccs).map Scc.members).flatten :=
    ((tarjanScc_isSccOrder (sccAdjacency w.graph)).mem m).mpr
      ⟨m, by rw [← hid]; exact w.nodes_mem r hmem, Relation.ReflTransGen.refl⟩
  obtain ⟨ix, hix⟩ := interned_of (w := w) (m := m) (Or.inl ⟨r, hr⟩)
  have hrow := hs.solved m ix (Or.inr ⟨by simpa using hin, hm⟩) hix
  rw [hrow.presence hix]
  exact row_of_active hm hleaf

end Run

/-- `a` passes its temporary record to `b`. -/
def passingCaller : ModelRoutine :=
  { id := "a"
    callSites :=
      [{ id := "a/cs0"
         argumentBindings :=
          [{ parameterIndex := 0, sourceKind := "record"
             sourceTempState := some { kind := "known", value := some true } }] }] }

/-- `b` modifies its parameter. -/
def passingCallee : ModelRoutine :=
  { id := "b"
    recordOperations :=
      [{ id := "b/op0", op := "Modify", tableId := some "T"
         tempState := some { kind := "parameter-dependent", parameterIndex := some 0 } }] }

/-- The two routines as a workspace, the callee's base summary recorded. -/
def passingSetup : DbSetup where
  graph :=
    { nodes := ["a", "b"]
      edgesByFrom :=
        ⟨[⟨"a", [{ «from» := "a", «to» := "b", kind := "direct", callsiteId := some "a/cs0" }]⟩],
          by simp [List.NodupKeys]⟩ }
  routines := [passingCaller, passingCallee]
  baseSummaries := fun m =>
    if m = "b" then some (baseIntraproceduralSummary String.toLower passingCallee emptyFields)
    else none
  leafSummaries := ∅
  toLowercase := String.toLower
  nodes_mem := by simp [passingCaller, passingCallee]

theorem passingSetup_solved : ∃ s, passingSetup.solve (fun _ _ settled => settled) = some s ∧
    passingSetup.system.IsLeastSolution (s.presence passingSetup.interner) := by
  refine passingSetup.solve_isLeastSolution (fun m b r hb hr => ?_) (fun _ _ settled => settled)
  have hm : m = "b" ∧ baseIntraproceduralSummary String.toLower passingCallee emptyFields = b := by
    simpa [passingSetup] using hb
  obtain ⟨rfl, rfl⟩ := hm
  obtain rfl : passingCallee = r := Option.some.inj hr
  exact ⟨emptyFields, rfl⟩

end AlSem.L4
