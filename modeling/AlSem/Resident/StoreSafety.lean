/-
# The store is safe under any interleaving

From the empty store, whatever requests, evictions, guards, tombstones and seeds interleave and
however fills end, `Config.Inv` holds whenever the registry lock is free.  From it: a claim
excludes every other claim of its key, a publication inserts only values whose key's generation
stood still since the claim, and a waiter holds nothing, so waits form no cycle.
-/
import AlSem.Resident.Revision
import AlSem.Resident.StoreInvariant

namespace AlSem.Resident

variable {K V Req : Type*} [DecidableEq K] [StoreKey K] [StoreValue V Req]

/-! ## 1. Runs of the store -/

/-- A run of the store and its callers, without condition on the events. -/
def Config.Leads (c c' : Config K V Req) : Prop :=
  Machine.Steps Config.step (fun _ _ => True) c c'

/-- What a run from the empty store reaches. -/
def Config.Reachable (c : Config K V Req) : Prop := Config.init.Leads c

theorem Config.Reachable.inv {c : Config K V Req} (h : c.Reachable) : c.Inv :=
  Machine.Steps.inv (fun _ _ _ hi _ hs => inv_step hi hs) h inv_init

theorem generation_le_of_leads {c c' : Config K V Req} (hi : c.Inv) (h : c.Leads c') (k : K) :
    (c.store.registry k).generation ≤ (c'.store.registry k).generation :=
  Machine.Steps.rel (R := fun a b : Config K V Req =>
      (a.store.registry k).generation ≤ (b.store.registry k).generation)
    (fun _ => Nat.le_refl _) (fun _ _ _ hab hbc => Nat.le_trans hab hbc)
    (fun _ _ _ hinv _ hs => ⟨inv_step hinv hs, generation_le_step hinv hs k⟩) h hi

/-! ## 2. Claims, waits, publications -/

/-- Worker `w` holds a claim on `k`, taken at generation `g`. -/
def Config.Holds (c : Config K V Req) (w : ℕ) (k : K) (g : ℕ) : Prop :=
  ∃ r, c.requests w = some r ∧ (k, g) ∈ r.claims

/-- Worker `w` waits for worker `w'`: it sleeps for a joined key that `w'` fills. -/
def Config.WaitsOn (c : Config K V Req) (w w' : ℕ) : Prop :=
  ∃ r phase joined, c.requests w = some r ∧ r.pc = .wait phase joined ∧
    ∃ k ∈ joined, w' ≠ w ∧ (c.store.registry k).state = .filling w'

/-- The next step of worker `w` publishes `values`. -/
def Config.Publishes (c : Config K V Req) (w : ℕ) (values : List (Filled K V)) : Prop :=
  ∃ r phase missing joined s, c.requests w = some r ∧
    r.pc = .fill phase missing joined s values []

/-- **What one event may do to the snapshot at `k`**: nothing, take the key out, seed it, or
publish a computed value whose claim's generation the key had at every moment the claim was
held. -/
inductive Config.Entered (c : Config K V Req) (e : Event K V Req) (c' : Config K V Req) (k : K) :
    Prop
  | kept (h : c'.store.snapshot.entries k = c.store.snapshot.entries k)
  | removed (h : c'.store.snapshot.entries k = none)
  | seeded (value : V) (bytes : ℕ) (he : e = .seed k value bytes)
      (habsent : (c.store.registry k).state = .absent)
  | published (w : ℕ) (values : List (Filled K V)) (v : Filled K V)
      (he : ∃ a, e = .step w a) (hpub : c.Publishes w values) (hv : v ∈ values) (hk : v.key = k)
      (hentry : c'.store.snapshot.entries k = some ⟨v.value, v.generation, v.bytes⟩)
      (hholds : c.Holds w k v.generation)
      (hstood : ∀ b : Config K V Req, b.Reachable → b.Leads c → b.Holds w k v.generation →
        (b.store.registry k).generation = v.generation)

omit [DecidableEq K] [StoreKey K] [StoreValue V Req] in
theorem Config.Inv.holds_filling {c : Config K V Req} (h : c.Inv) {w : ℕ} {k : K} {g : ℕ}
    (hh : c.Holds w k g) :
    (c.store.registry k).state = .filling w ∧ g ≤ (c.store.registry k).generation := by
  obtain ⟨r, hr, hk⟩ := hh
  exact (h.owns w r hr).held k g hk

omit [DecidableEq K] [StoreKey K] [StoreValue V Req] in
/-- **One worker at a time fills a key.** -/
theorem Config.Inv.holder_unique {c : Config K V Req} (h : c.Inv) {w w' : ℕ} {k : K} {g g' : ℕ}
    (hw : c.Holds w k g) (hw' : c.Holds w' k g') : w = w' := by
  have heq := (h.holds_filling hw).1.symm.trans (h.holds_filling hw').1
  simpa using heq

omit [DecidableEq K] [StoreKey K] [StoreValue V Req] in
/-- **A waiter holds no claim.** -/
theorem Config.Inv.waiter_free {c : Config K V Req} (h : c.Inv) {w : ℕ} {r : Request K V Req}
    {phase : ℕ} {joined : List K} (hr : c.requests w = some r) (hpc : r.pc = .wait phase joined) :
    r.claims = [] := by
  have hshape := (h.shaped w r hr).2
  rw [hpc] at hshape
  exact hshape

omit [DecidableEq K] [StoreKey K] [StoreValue V Req] in
/-- Whoever is waited for is not waiting: it holds the claim waited for. -/
theorem Config.Inv.waited_not_waiting {c : Config K V Req} (h : c.Inv) {w w' w'' : ℕ}
    (hw : c.WaitsOn w w') (hw' : c.WaitsOn w' w'') : False := by
  obtain ⟨-, -, -, -, -, k, -, -, hfill⟩ := hw
  obtain ⟨r, phase, joined, hr, hpc, -⟩ := hw'
  have hmem := (h.owns w' r hr).filling k hfill
  rw [h.waiter_free hr hpc] at hmem
  simp at hmem

omit [DecidableEq K] [StoreKey K] [StoreValue V Req] in
/-- **Waits form no cycle.** -/
theorem Config.Inv.waits_acyclic {c : Config K V Req} (h : c.Inv) (w : ℕ) :
    ¬ Relation.TransGen c.WaitsOn w w := by
  intro hcycle
  obtain ⟨w₁, hfirst, hrest⟩ := Relation.TransGen.head'_iff.mp hcycle
  rcases Relation.reflTransGen_iff_eq_or_transGen.mp hrest with heq | hmore
  · subst heq
    exact h.waited_not_waiting hfirst hfirst
  · obtain ⟨w₂, hsecond, -⟩ := Relation.TransGen.head'_iff.mp hmore
    exact h.waited_not_waiting hfirst hsecond

omit [DecidableEq K] [StoreKey K] [StoreValue V Req] in
theorem Config.Publishes.holds {c : Config K V Req} (h : c.Inv) {w : ℕ}
    {values : List (Filled K V)} (hpub : c.Publishes w values) {v : Filled K V} (hv : v ∈ values) :
    c.Holds w v.key v.generation := by
  obtain ⟨r, phase, missing, joined, s, hr, hpc⟩ := hpub
  have hshape := (h.shaped w r hr).2
  rw [hpc] at hshape
  refine ⟨r, hr, ?_⟩
  rw [hshape.1]
  exact List.mem_append_left _ (List.mem_map.mpr ⟨v, hv, rfl⟩)

/-! ## 3. The snapshot -/

/-- A move that publishes nothing leaves the snapshot alone. -/
theorem Moves.snapshot {worker : ℕ} {a : Answers K V Req} {r r' : Request K V Req}
    {st st' : Store K V} (hm : Moves worker a r st r' st') :
    st'.snapshot = st.snapshot ∨
      ∃ phase missing joined s values, r.pc = .fill phase missing joined s values [] ∧
        st' = (st.publish values worker r.discards).2.2 := by
  cases hm with
  | published phase missing joined s values hpc =>
    exact Or.inr ⟨phase, missing, joined, s, values, hpc, rfl⟩
  | failed k why hpc =>
    refine Or.inl ?_
    unfold Store.fail
    split <;> rfl
  | _ => exact Or.inl rfl

theorem publish_entered {c : Config K V Req} (hreach : c.Reachable) {w : ℕ} {a : Answers K V Req}
    {values : List (Filled K V)} (hpub : c.Publishes w values) (discards : K → ℕ)
    {c' : Config K V Req} (hc' : c'.store = (c.store.publish values w discards).2.2) (k : K) :
    c.Entered (.step w a) c' k := by
  by_cases hk : k ∈ (kept c.store.registry values).map Prod.fst
  · obtain ⟨v, hv, hkey, hgen, he⟩ := publish_inserted c.store values w discards hk
    subst hkey
    have hholds := hpub.holds hreach.inv hv
    refine .published w values v ⟨a, rfl⟩ hpub hv rfl (hc' ▸ he) hholds fun b hb hbc hbh => ?_
    -- The claim's generation bounds the key's from below at `b`, the publication from above.
    have hlow := (hb.inv.holds_filling hbh).2
    have hup := generation_le_of_leads hb.inv hbc v.key
    omega
  · refine .kept ?_
    rw [hc', publish_eq]
    exact insertAll_of_notMem _ hk

theorem removeAll_entered {c c' : Config K V Req} {e : Event K V Req} {keys : List K}
    (h : c'.store.snapshot = c.store.snapshot.removeAll keys) (k : K) : c.Entered e c' k := by
  by_cases hk : k ∈ keys
  · exact .removed (h ▸ removeAll_of_mem _ hk)
  · exact .kept (h ▸ removeAll_of_notMem _ hk)

omit [StoreKey K] in
theorem evict_snapshot (st : Store K V) (keys : List K) :
    (st.evict keys).2.snapshot = st.snapshot.removeAll (unpinned st.registry keys) := by
  rw [evict_eq]

/-- **Every event enters the snapshot by the rules.** -/
theorem step_entered {c c' : Config K V Req} (hreach : c.Reachable) {e : Event K V Req}
    (hstep : c.step e = some c') (k : K) : c.Entered e c' k := by
  cases e with
  | begin needs =>
    obtain rfl : c.begin needs = c' := by simpa [Config.step] using hstep
    exact .kept rfl
  | step w a =>
    simp only [Config.step] at hstep
    cases hr : c.requests w with
    | none => simp [hr] at hstep
    | some r =>
      simp only [hr] at hstep
      cases hreq : r.step w a c.store with
      | none => simp [hreq] at hstep
      | some q =>
        obtain ⟨r', st'⟩ := q
        simp only [hreq, Option.some.injEq] at hstep
        subst hstep
        rcases (step_moves hreq).snapshot with hsame | ⟨phase, missing, joined, s, values, hpc, hst⟩
        · exact .kept (by rw [hsame])
        · exact publish_entered hreach ⟨r, phase, missing, joined, s, hr, hpc⟩ r.discards hst k
  | evict keys =>
    obtain rfl : _ = c' := by simpa [Config.step] using hstep
    exact removeAll_entered (evict_snapshot c.store keys) k
  | judge keys held =>
    obtain rfl : _ = c' := by simpa [Config.step] using hstep
    exact .kept rfl
  | reclaim keys =>
    simp only [Config.step] at hstep
    split at hstep
    · obtain rfl : _ = c' := by simpa using hstep
      exact removeAll_entered (evict_snapshot c.store keys) k
    · simp at hstep
  | hold keys =>
    obtain rfl : _ = c' := by simpa [Config.step] using hstep
    exact .kept rfl
  | drop keys =>
    simp only [Config.step] at hstep
    split at hstep
    · obtain rfl : _ = c' := by simpa using hstep
      exact .kept rfl
    · simp at hstep
  | tombstone keys =>
    obtain rfl : _ = c' := by simpa [Config.step] using hstep
    exact removeAll_entered rfl k
  | seed key value bytes =>
    simp only [Config.step] at hstep
    cases hseed : c.store.seed key value bytes with
    | none =>
      obtain rfl : c = c' := by simpa [hseed] using hstep
      exact .kept rfl
    | some st =>
      obtain rfl : _ = c' := by simpa [hseed] using hstep
      simp only [Store.seed] at hseed
      split at hseed
      · rename_i habsent
        obtain rfl : _ = st := by simpa using hseed
        by_cases hk : k = key
        · subst hk
          exact .seeded value bytes rfl habsent
        · exact .kept (insertAll_of_notMem _ (by simpa using hk))
      · simp at hseed

/-- **A publication leaves every other key as it was**: the snapshot at a key it does not insert,
and the registry at a key it has no value for. -/
theorem publish_others {c c' : Config K V Req} {w : ℕ} {a : Answers K V Req}
    {values : List (Filled K V)} (hpub : c.Publishes w values)
    (hstep : c.step (.step w a) = some c') (k : K) :
    ((∀ v ∈ values, v.key = k → v.generation ≠ (c.store.registry k).generation) →
      c'.store.snapshot.entries k = c.store.snapshot.entries k) ∧
    ((∀ v ∈ values, v.key ≠ k) → c'.store.registry k = c.store.registry k) := by
  obtain ⟨r, phase, missing, joined, s, hr, hpc⟩ := hpub
  have hst : c'.store = (c.store.publish values w r.discards).2.2 := by
    simp only [Config.step, hr, Request.step, hpc, Request.publish, Option.some.injEq] at hstep
    rw [← hstep]
  have hnotKept : ∀ (hk : ∀ v ∈ values, v.key = k → v.generation ≠ (c.store.registry k).generation),
      k ∉ (kept c.store.registry values).map Prod.fst := by
    intro hk hmem
    obtain ⟨v, hv, hkey, hgen, -⟩ := publish_inserted c.store values w r.discards hmem
    exact hk v hv hkey hgen
  rw [hst, publish_eq]
  refine ⟨fun hk => insertAll_of_notMem _ (hnotKept hk), fun hk => ?_⟩
  dsimp only
  rw [onKeys_of_notMem _ (hnotKept fun v hv hkey => absurd hkey (hk v hv)), onKeys_of_notMem]
  intro hmem
  obtain ⟨v, hv, hkey⟩ := List.mem_map.mp hmem
  exact hk v (List.mem_filter.mp hv).1 hkey

/-! ## 4. The result -/

/-- **The artifact store is safe under any interleaving.**  In every configuration a run from the
empty store reaches: a published key is in the current snapshot at the registry's generation; one
worker at most fills a key; the next event enters the snapshot by the rules of `Config.Entered`,
so a value whose generation moved since its claim is never inserted; a publication leaves every
other key as it was; a waiter holds no claim; and waits form no cycle. -/
theorem store_safe {c : Config K V Req} (hreach : c.Reachable) :
    (∀ k, (c.store.registry k).state = .published → ∃ p, c.store.snapshot.entries k = some p ∧
        p.generation = (c.store.registry k).generation) ∧
    (∀ w w' k g g', c.Holds w k g → c.Holds w' k g' → w = w') ∧
    (∀ e c', c.step e = some c' → ∀ k, c.Entered e c' k) ∧
    (∀ w a values c', c.Publishes w values → c.step (.step w a) = some c' → ∀ k,
      ((∀ v ∈ values, v.key = k → v.generation ≠ (c.store.registry k).generation) →
        c'.store.snapshot.entries k = c.store.snapshot.entries k) ∧
      ((∀ v ∈ values, v.key ≠ k) → c'.store.registry k = c.store.registry k)) ∧
    (∀ w r phase joined, c.requests w = some r → r.pc = .wait phase joined → r.claims = []) ∧
    ∀ w, ¬ Relation.TransGen c.WaitsOn w w :=
  ⟨hreach.inv.published,
    fun _ _ _ _ _ hw hw' => hreach.inv.holder_unique hw hw',
    fun _ _ hstep k => step_entered hreach hstep k,
    fun _ _ _ _ hpub hstep k => publish_others hpub hstep k,
    fun _ _ _ _ hr hpc => hreach.inv.waiter_free hr hpc,
    hreach.inv.waits_acyclic⟩

/-- Two requests for the fold: the second waits for the first, which fills it. -/
def foldWait : List (Event ArtifactKey Artifact Mask) :=
  .begin [(.fold, 0)] :: .begin [(.fold, 0)] :: turns 1 2 ++ turns 2 1

theorem foldWait_safe : ∃ c : Config ArtifactKey Artifact Mask, c.Reachable ∧
    (c.store.registry .fold).state = .filling 1 ∧ ∀ w, ¬ Relation.TransGen c.WaitsOn w w := by
  have hrun : (Machine.run Config.step (fun _ _ => true) Config.init foldWait).any
      (fun c => decide ((c.store.registry .fold).state = .filling 1)) = true := by decide
  obtain ⟨c, hc, hst⟩ := (Option.any_eq_true _ _).mp hrun
  have hreach : c.Reachable := Machine.steps_of_run (fun _ _ _ => trivial) foldWait _ c hc
  exact ⟨c, hreach, by simpa using hst, (store_safe hreach).2.2.2.2.2⟩

end AlSem.Resident
