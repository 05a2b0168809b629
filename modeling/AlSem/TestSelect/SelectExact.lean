/-
# Test selection is exact

Where no walk is limited, the selected tests are the test-flagged nodes that reach a loaded node of
a root over the walk's relation, and a root's status tells whether one reaches it and, if not,
whether its cone is complete (`selectWith_exact`).  A status comes out the same from a walk of the
root's own, from the labels of the walk of every root and from a walk that stops at a test.

What the visitor keeps is a function of the walk's calls (`Kept`); what those calls are is
`Impact.Told` for any walk and `Impact.ExactWalk` for one no cap cut.
-/
import AlSem.Lib.ListOption
import AlSem.Impact.WalkCalls
import AlSem.TestSelect.Select

namespace AlSem.TestSelect

open Impact Levels

/-! ## 1. The relation -/

namespace TestUniverse

variable (u : TestUniverse)

/-- **The roots derive a state in `n` hops**: backwards over sites that no client event raises, the
universal hub, where it has callers, one hop from every root. -/
def Derived (roots : List ℕ) (n : ℕ) (s : WalkState) : Prop :=
  Walk (Seed u.toSitedGraph selectOptions roots) (Succ u.toSitedGraph selectOptions (testStep u)) n s

/-- `n` is a state's least number of hops. -/
def Dist (roots : List ℕ) (n : ℕ) (s : WalkState) : Prop :=
  IsDist (Seed u.toSitedGraph selectOptions roots) (Succ u.toSitedGraph selectOptions (testStep u)) n s

/-- A node reaches one of the roots. -/
def Reaches (roots : List ℕ) (n : ℕ) : Prop := ∃ m s, u.Derived roots m s ∧ s.node = n

/-- A test reaches one of the roots. -/
def TestReaches (roots : List ℕ) : Prop :=
  ∃ n, u.hasFlag n Flag.test = true ∧ u.Reaches roots n

/-- The cone of the roots holds the universal hub, or a node with a hidden channel in its resolved
part. -/
def HoldsHidden (roots : List ℕ) : Prop :=
  (∃ v, u.universalHub = some v ∧ u.Reaches roots v) ∨
    ∃ m s, u.Derived roots m s ∧ s.tier.rank ≤ Tier.throughDependency.rank ∧
      u.hiddenCallers s.node ≠ []

variable {u}

theorem reaches_iff_single {roots : List ℕ} {n : ℕ} :
    u.Reaches roots n ↔ ∃ r ∈ roots, u.Reaches [r] n := by
  constructor
  · rintro ⟨m, s, hs, hn⟩
    obtain ⟨r, hr, hs⟩ := walk_iff_single.mp hs
    exact ⟨r, hr, m, s, hs, hn⟩
  · rintro ⟨r, hr, m, s, hs, hn⟩
    exact ⟨m, s, walk_iff_single.mpr ⟨r, hr, hs⟩, hn⟩

theorem Derived.node_lt {roots : List ℕ} (hvalid : ∀ r ∈ roots, r < u.nodeCount) {n : ℕ}
    {s : WalkState} (h : u.Derived roots n s) : s.node < u.nodeCount :=
  node_lt_of_walk hvalid h

theorem loaded_lt {id : String} {n : ℕ} (h : n ∈ u.loaded id) : n < u.nodeCount :=
  u.stable_lt id n (List.mem_filter.mp h).1

end TestUniverse

/-! ## 2. What the visitor keeps -/

variable {u : TestUniverse}

/-- The hit of a `reach` call, under its node. -/
def hitOf (r : Reach) : ℕ × Hit := (r.state.node, ⟨r.state.tier, r.hops, r.state, r.root⟩)

/-- **What the visitor keeps of the calls.** -/
structure Kept (u : TestUniverse) (stop : Bool) (calls : List Call) (sel : Sel) : Prop where
  best : HashMap.Least tierHops
    ((reaches calls).map fun r => (r.state.node, (r.state.tier, r.hops))) sel.best
  tests : HashMap.Least Hit.tierHops
    (((reaches calls).filter fun r => u.hasFlag r.state.node Flag.test).map hitOf) sel.tests
  hidden : ∀ n f, f ∈ (sel.hidden.lookup n).getD ∅ ↔ (n, HiddenChannel.flag f) ∈ hiddens calls
  universal : sel.universal = true ↔ ∃ n, (n, HiddenChannel.universal) ∈ hiddens calls
  found : sel.foundTest = true ↔ ∃ r ∈ reaches calls, u.hasFlag r.state.node Flag.test = true
  same : sel.stopAtTest = stop
  limited : sel.limited = false → ∀ l, Call.limit l ∈ calls → stop = true ∧ sel.foundTest = true

/-- A cap is behind a call that is none. -/
theorem limit_mem {calls : List Call} {c : Call} (hc : ∀ l, c ≠ .limit l) {l : Limit}
    (h : Call.limit l ∈ calls ++ [c]) : Call.limit l ∈ calls := by
  rcases List.mem_append.mp h with h | h
  · exact h
  · exact absurd (List.mem_singleton.mp h).symm (hc l)

/-- A call that hands over nothing. -/
theorem Kept.skip {stop : Bool} {calls : List Call} {sel : Sel} (h : Kept u stop calls sel) {c : Call}
    (hreaches : reaches [c] = []) (hhiddens : hiddens [c] = []) (hlimit : ∀ l, c ≠ .limit l) :
    Kept u stop (calls ++ [c]) sel := by
  have hr : reaches (calls ++ [c]) = reaches calls := by
    rw [reaches_append, hreaches, List.append_nil]
  have hh : hiddens (calls ++ [c]) = hiddens calls := by
    rw [hiddens_append, hhiddens, List.append_nil]
  exact ⟨hr ▸ h.best, hr ▸ h.tests, hh ▸ h.hidden, hh ▸ h.universal, hr ▸ h.found, h.same,
    fun hcut l hl => h.limited hcut l (limit_mem hlimit hl)⟩

theorem Kept.reach {stop : Bool} {calls : List Call} {sel : Sel} (h : Kept u stop calls sel)
    (root : ℕ) (s : WalkState) (hops : ℕ) (via : Via) (source : Option WalkState) :
    Kept u stop (calls ++ [.reach root s hops via source]) (sel.reach u root s hops) := by
  have hr : reaches (calls ++ [.reach root s hops via source]) =
      reaches calls ++ [⟨root, s, hops, via, source⟩] := reaches_append _ _
  have hh : hiddens (calls ++ [.reach root s hops via source]) = hiddens calls := by
    rw [hiddens_append]
    exact List.append_nil _
  have hbest := h.best.improve s.node (s.tier, hops)
  have hlast : [(⟨root, s, hops, via, source⟩ : Reach)].filter
      (fun r => u.hasFlag r.state.node Flag.test) =
        if u.hasFlag s.node Flag.test = true then [⟨root, s, hops, via, source⟩] else [] :=
    List.filter_cons
  have hlimit : ∀ {l}, Call.limit l ∈ calls ++ [.reach root s hops via source] →
      Call.limit l ∈ calls := limit_mem fun _ h => by cases h
  unfold Sel.reach
  dsimp only
  split
  · rename_i htest
    have htests := h.tests.improve s.node ⟨s.tier, hops, s, root⟩
    refine ⟨?_, ?_, hh ▸ h.hidden, hh ▸ h.universal, ?_, h.same, fun hcut l hl => ?_⟩
    · rw [hr, List.map_append]
      exact hbest
    · rw [hr, List.filter_append, List.map_append]
      rw [hlast, if_pos htest]
      exact htests
    · rw [hr]
      exact ⟨fun _ => ⟨_, List.mem_append_right _ (List.mem_singleton.mpr rfl), htest⟩, fun _ => rfl⟩
    · exact ⟨(h.limited hcut l (hlimit hl)).1, rfl⟩
  · rename_i htest
    refine ⟨?_, ?_, hh ▸ h.hidden, hh ▸ h.universal, ?_, h.same, fun hcut l hl => ?_⟩
    · rw [hr, List.map_append]
      exact hbest
    · rw [hr, List.filter_append, hlast, if_neg htest, List.append_nil]
      exact h.tests
    · rw [hr, h.found]
      constructor
      · rintro ⟨r, hmem, hflag⟩
        exact ⟨r, List.mem_append_left _ hmem, hflag⟩
      · rintro ⟨r, hmem, hflag⟩
        rcases List.mem_append.mp hmem with hmem | hmem
        · exact ⟨r, hmem, hflag⟩
        · obtain rfl := List.mem_singleton.mp hmem
          exact absurd hflag htest
    · exact h.limited hcut l (hlimit hl)

theorem Kept.hide {stop : Bool} {calls : List Call} {sel : Sel} (h : Kept u stop calls sel)
    (root n : ℕ) (ch : HiddenChannel) :
    Kept u stop (calls ++ [.hidden root n ch]) (sel.hide n ch) := by
  have hr : reaches (calls ++ [.hidden root n ch]) = reaches calls := by
    rw [reaches_append]
    exact List.append_nil _
  have hh : hiddens (calls ++ [.hidden root n ch]) = hiddens calls ++ [(n, ch)] :=
    hiddens_append _ _
  have hlimit : ∀ {l}, Call.limit l ∈ calls ++ [.hidden root n ch] → Call.limit l ∈ calls :=
    limit_mem fun _ h => by cases h
  cases ch with
  | universal =>
    refine ⟨hr ▸ h.best, hr ▸ h.tests, fun n' f => ?_, ?_, hr ▸ h.found, h.same,
      fun hcut l hl => h.limited hcut l (hlimit hl)⟩
    · rw [hh]
      simpa [Sel.hide] using h.hidden n' f
    · rw [hh]
      exact ⟨fun _ => ⟨n, List.mem_append_right _ (List.mem_singleton.mpr rfl)⟩, fun _ => rfl⟩
  | flag f =>
    refine ⟨hr ▸ h.best, hr ▸ h.tests, fun n' f' => ?_, ?_, hr ▸ h.found, h.same,
      fun hcut l hl => h.limited hcut l (hlimit hl)⟩
    · rw [hh, List.mem_append, ← h.hidden, List.mem_singleton, Prod.mk.injEq,
        HiddenChannel.flag.injEq]
      unfold Sel.hide
      by_cases hn : n' = n
      · subst hn
        rw [AList.lookup_insert, Option.getD_some, Finset.mem_insert]
        exact or_comm.trans (or_congr Iff.rfl (by simp))
      · rw [AList.lookup_insert_ne hn]
        simp [hn]
    · rw [hh]
      simpa [Sel.hide] using h.universal

theorem Kept.limit {stop : Bool} {calls : List Call} {sel : Sel} (h : Kept u stop calls sel)
    (l : Limit) : Kept u stop (calls ++ [.limit l]) (sel.limit l) := by
  have hr : reaches (calls ++ [.limit l]) = reaches calls := by
    rw [reaches_append]
    exact List.append_nil _
  have hh : hiddens (calls ++ [.limit l]) = hiddens calls := by
    rw [hiddens_append]
    exact List.append_nil _
  unfold Sel.limit
  dsimp only
  split
  · exact ⟨hr ▸ h.best, hr ▸ h.tests, hh ▸ h.hidden, hh ▸ h.universal, hr ▸ h.found, h.same,
      fun hcut => Bool.noConfusion hcut⟩
  · rename_i hours
    refine ⟨hr ▸ h.best, hr ▸ h.tests, hh ▸ h.hidden, hh ▸ h.universal, hr ▸ h.found, h.same, ?_⟩
    intro _ _ _
    rw [Bool.not_eq_true, Bool.not_eq_false', Bool.and_eq_true, Bool.and_eq_true, h.same] at hours
    exact hours.1

/-- **The visitor keeps what the calls say.** -/
theorem selOf_kept (u : TestUniverse) (stop : Bool) (calls : List Call) :
    Kept u stop calls (selOf u stop calls) := by
  induction calls using List.reverseRecOn with
  | nil =>
    exact ⟨.nil, .nil, by simp [selOf, hiddens], by simp [selOf, hiddens],
      by simp [selOf, reaches], rfl, fun _ l hl => absurd hl List.not_mem_nil⟩
  | append_singleton calls c ih =>
    unfold selOf at ih ⊢
    rw [List.foldl_append]
    cases c with
    | reach root s hops via source => exact ih.reach root s hops via source
    | hidden root n ch => exact ih.hide root n ch
    | limit l => exact ih.limit l
    | _ => exact ih.skip rfl rfl fun l h => by cases h

/-! ## 3. A walk's visitor -/

/-- A label names a root that derives the state. -/
def Names (u : TestUniverse) (roots : List ℕ) (l : ℕ) (s : WalkState) : Prop :=
  ∃ r, roots[l]? = some r ∧ ∃ n, u.Derived [r] n s

/-- **What a walk of the roots is**: its labels name roots, and where no cap cut it, it handed over
the derived states at their distances. -/
structure Walked (u : TestUniverse) (roots : List ℕ) (w : WalkRun) : Prop where
  told : Told u.toSitedGraph (Names u roots) w
  dist : w.stats.limited = false → ∀ r ∈ reaches w.calls, u.Dist roots r.hops r.state
  all : w.stats.limited = false → ∀ n s, u.Derived roots n s →
    ∃ r ∈ reaches w.calls, r.state = s

/-- The walks of the selection, cancelled or not, have one relation. -/
theorem relation_eq {opts : WalkOptions} (hopen : opts.followOpen = true) (roots : List ℕ) :
    Seed u.toSitedGraph opts roots = Seed u.toSitedGraph selectOptions roots ∧
      Succ u.toSitedGraph opts (testStep u) = Succ u.toSitedGraph selectOptions (testStep u) := by
  have huniversal : universal u.toSitedGraph opts roots =
      universal u.toSitedGraph selectOptions roots := by
    unfold universal
    rw [hopen]
    rfl
  constructor
  · funext n s
    unfold Seed HubSeed
    rw [huniversal]
  · funext a b
    unfold Succ Back
    rw [hopen]
    rfl

/-- The universal hub is a caller of each root. -/
theorem derived_hub {roots : List ℕ} {v r : ℕ} (hr : r ∈ roots)
    (hv : universal u.toSitedGraph selectOptions roots = some v) : u.Derived [r] 1 (hubState v) := by
  refine .seed (Or.inr ⟨rfl, v, ?_, rfl⟩)
  have hne : roots.isEmpty = false := List.isEmpty_eq_false_iff.mpr (List.ne_nil_of_mem hr)
  unfold universal at hv ⊢
  rw [hne] at hv
  exact hv

/-- **Every walk of the selection ends, and is one.** -/
theorem walked {opts : WalkOptions} (hopen : opts.followOpen = true) {roots : List ℕ}
    (hvalid : ∀ r ∈ roots, r < u.nodeCount) :
    ∃ w, walkMulti u.toSitedGraph opts (fun _ => testStep u) roots {} = some w ∧
      Walked u roots w := by
  obtain ⟨hseed, hsucc⟩ := @relation_eq u opts hopen roots
  obtain ⟨w, hrun, hexact⟩ := @walkMulti_spec u.toSitedGraph opts (testStep u) roots {} .new hvalid
  refine ⟨w, hrun, ?_, fun hfull r hr => ?_, fun hfull n s hs => ?_⟩
  · refine walkMulti_told hrun ?_ ?_ ?_
    · rintro l s site st guard ext calls ⟨r, hr, n, hs⟩ hst hto - hguard hv
      exact ⟨r, hr, n + 1, .step hs ⟨site, st, guard, ext, hst, hto, fun _ => rfl, hguard, hv, rfl⟩⟩
    · intro i r hr
      exact ⟨r, hr, 0, .seed (Or.inl ⟨0, rfl, r, rfl, rfl⟩)⟩
    · intro v hv
      have hv : universal u.toSitedGraph selectOptions roots = some v := by
        unfold universal at hv ⊢
        rw [hopen] at hv
        exact hv
      cases roots with
      | nil => simp [universal] at hv
      | cons r roots => exact ⟨r, rfl, 1, derived_hub List.mem_cons_self hv⟩
  · have hd := (hexact hfull).shortest r hr
    rw [hseed, hsucc] at hd
    exact hd
  · have hs : Walk (Seed u.toSitedGraph opts roots) (Succ u.toSitedGraph opts (testStep u)) n s := by
      rw [hseed, hsucc]
      exact hs
    exact List.mem_map.mp (((hexact hfull).exactly s).mpr ⟨n, hs⟩)

section Visited

variable {stop : Bool} {roots : List ℕ} {w : WalkRun}

/-- What a walk hands over is derived, cut or not. -/
theorem Walked.derived (h : Walked u roots w) {r : Reach} (hr : r ∈ reaches w.calls) :
    ∃ n, u.Derived roots n r.state := by
  obtain ⟨r', hr', n, hs⟩ := h.told.reached r hr
  exact ⟨n, walk_iff_single.mpr ⟨r', List.mem_of_getElem? hr', hs⟩⟩

/-- A visitor that tells no limit saw the whole cone, or stopped at a test. -/
theorem Walked.full (h : Walked u roots w) (hcut : (selOf u stop w.calls).limited = false)
    (hstop : ¬ (stop = true ∧ (selOf u stop w.calls).foundTest = true)) :
    w.stats.limited = false := by
  by_contra hlimited
  obtain ⟨l, hl⟩ := h.told.cut (Bool.eq_true_of_not_eq_false hlimited)
  exact hstop ((selOf_kept u stop w.calls).limited hcut l hl)

/-- A test was found only if one reaches the roots. -/
theorem Walked.testReaches (h : Walked u roots w)
    (hfound : (selOf u stop w.calls).foundTest = true) : u.TestReaches roots := by
  obtain ⟨r, hr, hflag⟩ := (selOf_kept u stop w.calls).found.mp hfound
  obtain ⟨n, hs⟩ := h.derived hr
  exact ⟨r.state.node, hflag, n, r.state, hs, rfl⟩

/-- A full walk finds a test that reaches the roots. -/
theorem Walked.foundTest (h : Walked u roots w) (hfull : w.stats.limited = false)
    (htest : u.TestReaches roots) : (selOf u stop w.calls).foundTest = true := by
  obtain ⟨n, hflag, m, s, hs, rfl⟩ := htest
  obtain ⟨r, hr, rfl⟩ := h.all hfull m s hs
  exact (selOf_kept u stop w.calls).found.mpr ⟨r, hr, hflag⟩

/-- The hit of a test, and where it comes from. -/
theorem hit_reached {n : ℕ} {hit : Hit} (hhit : (selOf u stop w.calls).tests.lookup n = some hit) :
    ∃ r ∈ reaches w.calls, u.hasFlag n Flag.test = true ∧ (n, hit) = hitOf r := by
  obtain ⟨r, hr, heq⟩ := List.mem_map.mp ((selOf_kept u stop w.calls).tests.mem n hit hhit)
  obtain ⟨hr, hflag⟩ := List.mem_filter.mp hr
  have hn : r.state.node = n := congrArg Prod.fst heq
  exact ⟨r, hr, hn ▸ hflag, heq.symm⟩

/-- The tests of a full walk are those that reach the roots. -/
theorem Walked.lookup_iff (h : Walked u roots w) (hfull : w.stats.limited = false) (n : ℕ) :
    (∃ hit, (selOf u stop w.calls).tests.lookup n = some hit) ↔
      u.hasFlag n Flag.test = true ∧ u.Reaches roots n := by
  constructor
  · rintro ⟨hit, hhit⟩
    obtain ⟨r, hr, hflag, heq⟩ := hit_reached hhit
    obtain ⟨m, hs⟩ := h.derived hr
    exact ⟨hflag, m, r.state, hs, (congrArg Prod.fst heq).symm⟩
  · rintro ⟨hflag, m, s, hs, rfl⟩
    obtain ⟨r, hr, rfl⟩ := h.all hfull m s hs
    exact (selOf_kept u stop w.calls).tests.bound r.state.node (hitOf r).2
      (List.mem_map.mpr ⟨r, List.mem_filter.mpr ⟨hr, hflag⟩, rfl⟩)

/-- **A hit of a full walk is the best over all the test's states.** -/
theorem Walked.hit_best (h : Walked u roots w) (hfull : w.stats.limited = false) {n : ℕ} {hit : Hit}
    (hhit : (selOf u stop w.calls).tests.lookup n = some hit) :
    hit.state.node = n ∧ hit.tier = hit.state.tier ∧ u.Dist roots hit.hops hit.state ∧
      ∀ s m, s.node = n → u.Dist roots m s → hit.tierHops ≤ tierHops (s.tier, m) := by
  obtain ⟨r, hr, hflag, heq⟩ := hit_reached hhit
  obtain ⟨rfl, rfl⟩ := Prod.mk.inj heq
  refine ⟨rfl, rfl, h.dist hfull r hr, fun s m hs hd => ?_⟩
  obtain ⟨r', hr', rfl⟩ := h.all hfull m s hd.1
  have hle := (selOf_kept u stop w.calls).tests.le _ _ (hitOf r').2 hhit
    (List.mem_map.mpr ⟨r', List.mem_filter.mpr ⟨hr', by rw [hs]; exact hflag⟩,
      Prod.ext hs rfl⟩)
  have hm : r'.hops = m := (h.dist hfull r' hr').unique hd
  rw [← hm]
  exact hle

/-- **The hidden channels a full walk tells are those of its cone.** -/
theorem Walked.relevantHidden_iff (h : Walked u roots w) (hvalid : ∀ r ∈ roots, r < u.nodeCount)
    (hfull : w.stats.limited = false) :
    (selOf u stop w.calls).relevantHidden u = true ↔ u.HoldsHidden roots := by
  have hkept := selOf_kept u stop w.calls
  have hmet : ∀ n, n ∈ w.scratch.hiddenDone ↔ u.Reaches roots n := by
    intro n
    rw [h.told.done]
    constructor
    · rintro ⟨r, hr, rfl⟩
      obtain ⟨m, hs⟩ := h.derived hr
      exact ⟨m, r.state, hs, rfl⟩
    · rintro ⟨m, s, hs, rfl⟩
      obtain ⟨r, hr, rfl⟩ := h.all hfull m s hs
      exact ⟨r, hr, rfl⟩
  unfold Sel.relevantHidden TestUniverse.HoldsHidden
  rw [Bool.or_eq_true]
  refine or_congr ?_ ?_
  · rw [hkept.universal]
    constructor
    · rintro ⟨n, hn⟩
      obtain ⟨hdone, hch⟩ := (h.told.hidden _ _).mp hn
      obtain ⟨m, s, hs, rfl⟩ := (hmet n).mp hdone
      refine ⟨s.node, (u.universal_iff _ (hs.node_lt hvalid)).mp ?_, m, s, hs, rfl⟩
      by_contra hflag
      simp [channels, hflag] at hch
    · rintro ⟨v, hv, hreach⟩
      refine ⟨v, (h.told.hidden _ _).mpr ⟨(hmet v).mpr hreach, ?_⟩⟩
      have hflag := (u.universal_iff v (u.hub_lt v hv)).mpr hv
      simp [channels, hflag]
  · rw [List.any_eq_true]
    constructor
    · rintro ⟨⟨n, chs⟩, hmem, hand⟩
      rw [Bool.and_eq_true, Option.any_eq_true, decide_eq_true_eq] at hand
      obtain ⟨⟨b, hb, htier⟩, f, hf, -⟩ := hand
      obtain ⟨r, hr, heq⟩ := List.mem_map.mp (hkept.best.mem _ _ hb)
      obtain ⟨rfl, rfl⟩ := Prod.mk.inj heq
      obtain ⟨m, hs⟩ := h.derived hr
      refine ⟨m, r.state, hs, of_decide_eq_true htier, ?_⟩
      have hlookup : (selOf u stop w.calls).hidden.lookup r.state.node = some chs :=
        AList.mem_lookup_iff.mpr hmem
      have hch := (h.told.hidden _ _).mp ((hkept.hidden r.state.node f).mp (by rw [hlookup]; exact hf))
      intro hnil
      have := hch.2
      unfold channels at this
      rw [hnil] at this
      rcases List.mem_append.mp this with hc | hc
      · split at hc
        · cases List.mem_singleton.mp hc
        · cases hc
      · cases hc
    · rintro ⟨m, s, hs, htier, hne⟩
      obtain ⟨f, hf⟩ := List.exists_mem_of_ne_nil _ hne
      obtain ⟨r, hr, rfl⟩ := h.all hfull m s hs
      have hch : (r.state.node, HiddenChannel.flag f) ∈ hiddens w.calls :=
        (h.told.hidden _ _).mpr ⟨(hmet _).mpr ⟨m, r.state, hs, rfl⟩,
          List.mem_append_right _ (List.mem_map_of_mem hf)⟩
      have hf := (hkept.hidden _ f).mpr hch
      cases hlookup : (selOf u stop w.calls).hidden.lookup r.state.node with
      | none =>
        rw [hlookup] at hf
        exact absurd hf (Finset.notMem_empty _)
      | some chs =>
        rw [hlookup, Option.getD_some] at hf
        refine ⟨⟨r.state.node, chs⟩, AList.mem_lookup_iff.mp hlookup, ?_⟩
        have hitem := List.mem_map_of_mem
          (f := fun r : Reach => (r.state.node, (r.state.tier, r.hops))) hr
        obtain ⟨b, hb⟩ := hkept.best.bound _ _ hitem
        have hle := hkept.best.le _ _ _ hb hitem
        rw [Bool.and_eq_true, Option.any_eq_true, decide_eq_true_eq]
        refine ⟨⟨b, hb, decide_eq_true ?_⟩, f, hf, u.hiddenClass_relevant _ _⟩
        have hrank : b.1.rank ≤ r.state.tier.rank := by
          rcases Prod.Lex.toLex_le_toLex.mp hle with hlt | ⟨heq, -⟩
          · exact hlt.le
          · exact heq.le
        exact hrank.trans htier

end Visited

/-! ## 4. What a selection says -/

/-- **No walk of the selection was limited.**  A walk that stopped at a test is none. -/
def Selection.Unlimited (out : Selection) : Prop :=
  out.sel.limited = false ∧ ∀ a ∈ out.roots, ∀ own, a.own = some own → own.limited = false

/-- **The tests of a selection are exact.** -/
structure TestsOf (u : TestUniverse) (roots : List String) (tests : List (ℕ × Hit)) : Prop where
  once : (tests.map Prod.fst).Nodup
  exactly : ∀ n, n ∈ tests.map Prod.fst ↔
    u.hasFlag n Flag.test = true ∧ ∃ id ∈ roots, u.Reaches (u.loaded id) n
  best : ∀ t ∈ tests, t.2.state.node = t.1 ∧ t.2.tier = t.2.state.tier ∧
    u.Dist (roots.flatMap u.loaded) t.2.hops t.2.state ∧
      ∀ s m, s.node = t.1 → u.Dist (roots.flatMap u.loaded) m s → t.2.tierHops ≤ tierHops (s.tier, m)

/-- **What a root's status says.** -/
def StatusOf (u : TestUniverse) (id : String) (status : RootStatus) : Prop :=
  if u.loaded id = [] then
    status = if u.nodesWithStableId id = [] then .notInProjection else .notLoaded
  else
    (status = .reached ↔ u.TestReaches (u.loaded id)) ∧
      (status ≠ .reached →
        (status = .noKnownPath ↔ ¬ u.HoldsHidden (u.loaded id)) ∧
        (status = .analysisIncomplete ↔ u.HoldsHidden (u.loaded id)))

/-- A root has one status. -/
theorem StatusOf.unique {id : String} {st st' : RootStatus} (h : StatusOf u id st)
    (h' : StatusOf u id st') : st = st' := by
  unfold StatusOf at h h'
  split at h
  · rename_i hnone
    rw [if_pos hnone] at h'
    exact h.trans h'.symm
  · rename_i hsome
    rw [if_neg hsome] at h'
    by_cases htest : u.TestReaches (u.loaded id)
    · exact (h.1.mpr htest).trans (h'.1.mpr htest).symm
    · have hno := h.2 fun heq => htest (h.1.mp heq)
      have hno' := h'.2 fun heq => htest (h'.1.mp heq)
      by_cases hhidden : u.HoldsHidden (u.loaded id)
      · exact (hno.2.mpr hhidden).trans (hno'.2.mpr hhidden).symm
      · exact (hno.1.mpr hhidden).trans (hno'.1.mpr hhidden).symm

/-- The status of a root with loaded nodes that no test reaches. -/
theorem statusOf_unreached {id : String} (hsome : u.loaded id ≠ [])
    (htest : ¬ u.TestReaches (u.loaded id)) {hidden : Bool}
    (hhidden : hidden = true ↔ u.HoldsHidden (u.loaded id)) :
    StatusOf u id (if hidden then .analysisIncomplete else .noKnownPath) := by
  unfold StatusOf
  rw [if_neg hsome]
  cases hidden with
  | true =>
    have hholds := hhidden.mp rfl
    simp [htest, hholds]
  | false =>
    have hholds : ¬ u.HoldsHidden (u.loaded id) := fun h => by cases hhidden.mpr h
    simp [htest, hholds]

theorem statusOf_reached {id : String} (hsome : u.loaded id ≠ [])
    (htest : u.TestReaches (u.loaded id)) : StatusOf u id .reached := by
  unfold StatusOf
  rw [if_neg hsome]
  exact ⟨⟨fun _ => htest, fun _ => rfl⟩, fun hne => absurd rfl hne⟩

/-! ## 5. The ranked tests -/

theorem rankTests_perm (tests : HashMap ℕ Hit) (label : ℕ → ℕ) :
    (rankTests u tests label).Perm
      (tests.entries.map fun e => (e.1, { e.2 with root := label e.2.root })) :=
  List.mergeSort_perm _ _

/-- The tests of a map, each with its label. -/
theorem mem_rankTests {tests : HashMap ℕ Hit} {label : ℕ → ℕ} {t : ℕ × Hit} :
    t ∈ rankTests u tests label ↔
      ∃ hit, tests.lookup t.1 = some hit ∧ t.2 = { hit with root := label hit.root } := by
  rw [(rankTests_perm tests label).mem_iff, List.mem_map]
  constructor
  · rintro ⟨e, he, rfl⟩
    exact ⟨e.2, AList.mem_lookup_iff.mpr he, rfl⟩
  · rintro ⟨hit, hhit, heq⟩
    exact ⟨⟨t.1, hit⟩, AList.mem_lookup_iff.mp hhit, Prod.ext rfl heq.symm⟩

theorem nodup_rankTests (tests : HashMap ℕ Hit) (label : ℕ → ℕ) :
    ((rankTests u tests label).map Prod.fst).Nodup := by
  rw [((rankTests_perm tests label).map Prod.fst).nodup_iff, List.map_map]
  exact tests.nodupKeys

theorem isEmpty_rankTests {tests : HashMap ℕ Hit} {label : ℕ → ℕ} :
    (rankTests u tests label).isEmpty = true ↔ ¬ ∃ n hit, tests.lookup n = some hit := by
  rw [List.isEmpty_iff, List.eq_nil_iff_forall_not_mem]
  constructor
  · rintro hnone ⟨n, hit, hhit⟩
    exact hnone (n, { hit with root := label hit.root }) (mem_rankTests.mpr ⟨hit, hhit, rfl⟩)
  · rintro hnone t ht
    obtain ⟨hit, hhit, -⟩ := mem_rankTests.mp ht
    exact hnone ⟨t.1, hit, hhit⟩

/-! ## 6. The roots' answers -/

/-- A walk, as the selection makes it. -/
theorem walkSel_eq {opts : WalkOptions} {roots : List ℕ} {w : WalkRun} (stop : Bool)
    (hrun : walkMulti u.toSitedGraph opts (fun _ => testStep u) roots {} = some w) :
    walkSel u opts stop roots = some (selOf u stop w.calls, w.stats) := by
  unfold walkSel
  rw [hrun]
  rfl

/-- What is asked of an answer: a walk of its own, if any, was not limited. -/
def Fine (id : String) (u : TestUniverse) (a : RootAnswer) : Prop :=
  (∀ own, a.own = some own → own.limited = false) → StatusOf u id a.status

/-- **A root with a walk of its own.** -/
theorem answerFew_spec {id : String} (hsome : u.loaded id ≠ []) :
    ∃ a, answerFew u id (u.loaded id) = some a ∧ Fine id u a := by
  have hvalid : ∀ r ∈ u.loaded id, r < u.nodeCount := fun r hr => u.loaded_lt hr
  obtain ⟨w, hrun, hw⟩ := @walked u selectOptions rfl _ hvalid
  refine ⟨_, by unfold answerFew; rw [walkSel_eq false hrun]; rfl, fun hown => ?_⟩
  have hcut := hown _ rfl
  have hfull := hw.full hcut fun h => by cases h.1
  unfold answer
  dsimp only
  rw [hcut, Bool.false_or]
  split
  · rename_i hmine
    rw [Bool.not_eq_true', ← Bool.not_eq_true, isEmpty_rankTests, not_not] at hmine
    obtain ⟨n, hit, hhit⟩ := hmine
    obtain ⟨hflag, hreach⟩ := (hw.lookup_iff hfull n).mp ⟨hit, hhit⟩
    exact statusOf_reached hsome ⟨n, hflag, hreach⟩
  · rename_i hmine
    rw [Bool.not_eq_true', Bool.not_eq_false, isEmpty_rankTests] at hmine
    refine statusOf_unreached hsome ?_ (hw.relevantHidden_iff hvalid hfull)
    rintro ⟨n, hflag, hreach⟩
    obtain ⟨hit, hhit⟩ := (hw.lookup_iff hfull n).mpr ⟨hflag, hreach⟩
    exact hmine ⟨n, hit, hhit⟩

/-- **A root among many**: a label tells that a test reaches the root, and without one its own walk
stops at a test or is full. -/
theorem answerMany_spec {id : String} (hsome : u.loaded id ≠ []) {mine : List (ℕ × Hit)}
    (hmine : ∀ t ∈ mine, u.TestReaches (u.loaded id)) (limited : Bool) :
    ∃ a, answerMany u id (u.loaded id) mine limited = some a ∧
      (limited = false → Fine id u a) := by
  have hvalid : ∀ r ∈ u.loaded id, r < u.nodeCount := fun r hr => u.loaded_lt hr
  unfold answerMany
  cases mine with
  | cons t mine =>
    refine ⟨_, rfl, fun _ _ => ?_⟩
    exact statusOf_reached hsome (hmine t List.mem_cons_self)
  | nil =>
    obtain ⟨w, hrun, hw⟩ := @walked u (statusOptions u) rfl _ hvalid
    refine ⟨_, by rw [walkSel_eq true hrun]; rfl, fun hlimited hown => ?_⟩
    have hcut := hown _ rfl
    unfold answer
    dsimp only
    rw [hcut, hlimited, Bool.false_or, Bool.false_or]
    split
    · rename_i hfound
      exact statusOf_reached hsome (hw.testReaches hfound)
    · rename_i hfound
      have hfull := hw.full hcut fun h => hfound h.2
      exact statusOf_unreached hsome (fun htest => hfound (hw.foundTest hfull htest))
        (hw.relevantHidden_iff hvalid hfull)

theorem answerRoot_spec (few : Bool) {tests : List (ℕ × Hit)} {root : String × ℕ}
    (htests : ∀ t ∈ tests, t.2.root = root.2 → u.TestReaches (u.loaded root.1)) (limited : Bool) :
    ∃ a, answerRoot u few tests limited root = some a ∧ (limited = false → Fine root.1 u a) := by
  unfold answerRoot
  dsimp only
  split
  · rename_i hnone
    refine ⟨_, rfl, fun _ _ => ?_⟩
    unfold StatusOf
    rw [if_pos (List.isEmpty_iff.mp hnone)]
    simp only [List.isEmpty_iff]
  · rename_i hsome
    have hsome : u.loaded root.1 ≠ [] := fun heq => hsome (List.isEmpty_iff.mpr heq)
    split
    · obtain ⟨a, ha, hfine⟩ := answerFew_spec hsome
      exact ⟨a, ha, fun _ => hfine⟩
    · refine answerMany_spec hsome (fun t ht => ?_) limited
      obtain ⟨ht, hroot⟩ := List.mem_filter.mp ht
      exact htests t ht (of_decide_eq_true hroot)

/-! ## 7. The selection -/

theorem map_fst_walkRoots (roots : List String) :
    (walkRoots u roots).map Prod.fst = roots.flatMap u.loaded := by
  unfold walkRoots
  rw [List.map_flatMap]
  simp only [List.map_map, Function.comp_def, List.map_id']
  rw [← List.flatMap_map Prod.fst u.loaded, List.zipIdx_map_fst]

/-- A walk root is a loaded node of its root. -/
theorem mem_walkRoots {roots : List String} {p : ℕ × ℕ} (hp : p ∈ walkRoots u roots) :
    ∃ id, roots[p.2]? = some id ∧ p.1 ∈ u.loaded id := by
  obtain ⟨root, hroot, hp⟩ := List.mem_flatMap.mp hp
  obtain ⟨n, hn, rfl⟩ := List.mem_map.mp hp
  exact ⟨root.1, List.mem_zipIdx_iff_getElem?.mp hroot, hn⟩

/-- A node that a root's own walk reaches, and one that the walk of every root does. -/
theorem reaches_flatMap {roots : List String} {n : ℕ} :
    u.Reaches (roots.flatMap u.loaded) n ↔ ∃ id ∈ roots, u.Reaches (u.loaded id) n := by
  rw [TestUniverse.reaches_iff_single]
  constructor
  · rintro ⟨r, hr, hreach⟩
    obtain ⟨id, hid, hr⟩ := List.mem_flatMap.mp hr
    exact ⟨id, hid, TestUniverse.reaches_iff_single.mpr ⟨r, hr, hreach⟩⟩
  · rintro ⟨id, hid, hreach⟩
    obtain ⟨r, hr, hreach⟩ := TestUniverse.reaches_iff_single.mp hreach
    exact ⟨r, List.mem_flatMap.mpr ⟨id, hid, hr⟩, hreach⟩

/-- **A label tells that a test reaches its root.** -/
theorem testReaches_of_label {roots : List String} {w : WalkRun}
    (hw : Walked u ((walkRoots u roots).map Prod.fst) w) {root : String × ℕ}
    (hroot : root ∈ roots.zipIdx) {t : ℕ × Hit}
    (ht : t ∈ rankTests u (selOf u false w.calls).tests
      fun l => ((walkRoots u roots).map Prod.snd).getD l 0)
    (hlabel : t.2.root = root.2) : u.TestReaches (u.loaded root.1) := by
  obtain ⟨hit, hhit, heq⟩ := mem_rankTests.mp ht
  obtain ⟨r, hr, hflag, hrhit⟩ := hit_reached hhit
  obtain ⟨n, hn, m, hs⟩ := hw.told.reached r hr
  rw [List.getElem?_map, Option.map_eq_some_iff] at hn
  obtain ⟨p, hp, rfl⟩ := hn
  have hpi : p.2 = root.2 := by
    have hget : ((walkRoots u roots).map Prod.snd).getD r.root 0 = p.2 := by
      rw [List.getD_eq_getElem?_getD, List.getElem?_map, hp]
      rfl
    have hrr : hit.root = r.root := congrArg (fun e : ℕ × Hit => e.2.root) hrhit
    rw [heq] at hlabel
    rw [← hlabel, ← hget, ← hrr]
  obtain ⟨id, hid, hload⟩ := mem_walkRoots (List.mem_of_getElem? hp)
  have hsame : id = root.1 := by
    rw [hpi, List.mem_zipIdx_iff_getElem?.mp hroot] at hid
    exact (Option.some.inj hid).symm
  have hnode : t.1 = r.state.node := congrArg Prod.fst hrhit
  refine ⟨t.1, hflag, m, r.state, ?_, hnode.symm⟩
  exact walk_iff_single.mpr ⟨p.1, hsame ▸ hload, hs⟩

/-- **A selection is exact**, whatever the number of roots up to which each has its own walk. -/
theorem selectWith_spec (u : TestUniverse) (few : ℕ) (roots : List String) :
    ∃ out, selectWith u few roots = some out ∧ (out.Unlimited →
      TestsOf u roots out.tests ∧
        List.Forall₂ (StatusOf u) roots (out.roots.map RootAnswer.status)) := by
  have hvalid : ∀ r ∈ (walkRoots u roots).map Prod.fst, r < u.nodeCount := by
    rw [map_fst_walkRoots]
    intro r hr
    obtain ⟨id, -, hr⟩ := List.mem_flatMap.mp hr
    exact u.loaded_lt hr
  obtain ⟨w, hrun, hw⟩ := @walked u selectOptions rfl _ hvalid
  obtain ⟨answers, hanswers, hfine⟩ := ListOption.mapM_forall₂ fun root hroot =>
    answerRoot_spec (decide (roots.length ≤ few)) (fun t ht => testReaches_of_label hw hroot ht)
      w.stats.limited
  have hout : selectWith u few roots = some
      { roots := answers
        tests := rankTests u (selOf u false w.calls).tests
          fun l => ((walkRoots u roots).map Prod.snd).getD l 0
        byTier := countTiers (rankTests u (selOf u false w.calls).tests
          fun l => ((walkRoots u roots).map Prod.snd).getD l 0)
        sel := selOf u false w.calls
        limited := w.stats.limited } := by
    simp only [selectWith, walkSel_eq false hrun, Option.bind_eq_bind, Option.bind_some, hanswers]
  refine ⟨_, hout, ?_⟩
  rintro ⟨hcut, hown⟩
  have hfull := hw.full hcut fun h => by cases h.1
  dsimp only at hcut hown ⊢
  constructor
  · refine ⟨nodup_rankTests _ _, fun n => ?_, fun t ht => ?_⟩
    · rw [← reaches_flatMap, ← map_fst_walkRoots, ← hw.lookup_iff hfull n]
      constructor
      · intro hn
        obtain ⟨t, ht, rfl⟩ := List.mem_map.mp hn
        obtain ⟨hit, hhit, -⟩ := mem_rankTests.mp ht
        exact ⟨hit, hhit⟩
      · rintro ⟨hit, hhit⟩
        exact List.mem_map.mpr ⟨(n, _), mem_rankTests.mpr ⟨hit, hhit, rfl⟩, rfl⟩
    · obtain ⟨hit, hhit, heq⟩ := mem_rankTests.mp ht
      have hbest := hw.hit_best hfull hhit
      rw [heq, ← map_fst_walkRoots]
      exact hbest
  · have hfst : roots = roots.zipIdx.map Prod.fst := (List.zipIdx_map_fst 0 roots).symm
    have hall : List.Forall₂ (fun a root => StatusOf u root.1 a.status) answers roots.zipIdx :=
      ((List.forall₂_and_left _ _).mpr ⟨hown, hfine.flip⟩).imp fun a root h => h.2 hfull h.1
    rw [hfst, List.forall₂_map_left_iff, List.forall₂_map_right_iff]
    exact hall.flip

/-- **Test selection is exact over the walk's relation.**  It ends; and where no walk was limited the
selected tests are exactly those that reach a loaded node of a root, each once with its least tier
and hops, a root with loaded nodes is reached iff a test reaches one of them and else without a known
path iff its cone holds no hidden channel, and the statuses do not depend on the number of roots up
to which each has its own walk. -/
theorem selectWith_exact (u : TestUniverse) (few : ℕ) (roots : List String) :
    ∃ out, selectWith u few roots = some out ∧ (out.Unlimited →
      TestsOf u roots out.tests ∧
      List.Forall₂ (StatusOf u) roots (out.roots.map RootAnswer.status) ∧
      ∀ few' out', selectWith u few' roots = some out' → out'.Unlimited →
        out'.roots.map RootAnswer.status = out.roots.map RootAnswer.status) := by
  obtain ⟨out, hout, hexact⟩ := selectWith_spec u few roots
  refine ⟨out, hout, fun hcut => ⟨(hexact hcut).1, (hexact hcut).2, fun few' out' hout' hcut' => ?_⟩⟩
  obtain ⟨out₂, hout₂, hexact'⟩ := selectWith_spec u few' roots
  obtain rfl := Option.some.inj (hout₂.symm.trans hout')
  exact List.right_unique_forall₂' (fun _ _ _ h h' => h.unique h') (hexact' hcut').2 (hexact hcut).2

/-- Node `1` is a test that calls node `0`, the loaded routine. -/
def oneTest : TestUniverse where
  toSitedGraph :=
    { Impact.oneCaller with
      flags n := if n = 1 then Flag.isLocal ||| Flag.test else Flag.isLocal }
  nodesWithStableId _ := [0]
  display _ := ""
  objectNumber _ := none
  isPlatformPublisher _ := false
  stable_lt _ n hn := (List.mem_singleton.mp hn).symm ▸ Nat.two_pos
  universal_iff := by decide

/-- The test is selected, by its root's own walk and by its label. -/
theorem selectWith_exact_oneTest :
    ∀ few ∈ [0, perRootWalks], ∃ out, selectWith oneTest few ["root"] = some out ∧
      out.tests.map Prod.fst = [1] ∧ out.roots.map RootAnswer.status = [.reached] ∧
      TestsOf oneTest ["root"] out.tests ∧
      List.Forall₂ (StatusOf oneTest) ["root"] (out.roots.map RootAnswer.status) := by
  intro few hfew
  obtain ⟨out, hout, hexact⟩ := selectWith_exact oneTest few ["root"]
  have heval : ∀ few ∈ [0, perRootWalks], (selectWith oneTest few ["root"]).map
      (fun out => (out.tests.map Prod.fst, out.roots.map RootAnswer.status, out.sel.limited,
        out.roots.all fun a => a.own.all fun own => !own.limited)) =
          some ([1], [.reached], false, true) := by
    decide +kernel
  have heq := heval few hfew
  rw [hout, Option.map_some, Option.some.injEq, Prod.mk.injEq, Prod.mk.injEq, Prod.mk.injEq] at heq
  obtain ⟨htests, hstatus, hsel, hown⟩ := heq
  have hcut : out.Unlimited := by
    refine ⟨hsel, fun a ha own hmem => ?_⟩
    have hall := List.all_eq_true.mp hown a ha
    rw [hmem, Option.all_some] at hall
    simpa using hall
  exact ⟨out, hout, htests, hstatus, (hexact hcut).1, (hexact hcut).2.1⟩

end AlSem.TestSelect
