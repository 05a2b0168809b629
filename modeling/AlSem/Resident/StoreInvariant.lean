/-
# The store's invariant

`Config.Inv` says what holds whenever the registry lock is free: a published key is in the current
snapshot at the registry's generation, a key in state `filling w` is a claim of worker `w` and
conversely, and each request's claims are where its program counter says.  `Quiet` is the
frame: what one section leaves alone for everybody but the worker that runs it.  `Turn` is what
one step of a request does, and `inv_step` is assembled from the two.
-/
import AlSem.Lib.Machine
import AlSem.Resident.Sections

namespace AlSem.Resident

variable {K V Req : Type*} [DecidableEq K]

/-! ## 1. What a section leaves alone -/

/-- **The frame of a section** run by the workers of `own`.  No generation goes back, no other
worker's claim is touched, and a key is published afterwards only if it was and nothing about it
moved, or if the snapshot holds a value of its generation. -/
structure Quiet (own : ℕ → Prop) (st st' : Store K V) : Prop where
  generation_le : ∀ k, (st.registry k).generation ≤ (st'.registry k).generation
  filling_iff : ∀ k w, ¬ own w →
    ((st'.registry k).state = .filling w ↔ (st.registry k).state = .filling w)
  published : ∀ k, (st'.registry k).state = .published →
    ((st.registry k).state = .published ∧ st'.snapshot.entries k = st.snapshot.entries k ∧
        (st'.registry k).generation = (st.registry k).generation) ∨
      ∃ p, st'.snapshot.entries k = some p ∧ p.generation = (st'.registry k).generation

omit [DecidableEq K] in
theorem Quiet.refl (own : ℕ → Prop) (st : Store K V) : Quiet own st st :=
  ⟨fun _ => Nat.le_refl _, fun _ _ _ => Iff.rfl, fun _ h => Or.inl ⟨h, rfl, rfl⟩⟩

omit [DecidableEq K] in
/-- A section that changes entries only, and no other worker's claim. -/
theorem Quiet.of_entries {own : ℕ → Prop} {st st' : Store K V}
    (hsnap : st'.snapshot = st.snapshot)
    (hgen : ∀ k, (st'.registry k).generation = (st.registry k).generation)
    (hstate : ∀ k, (st'.registry k).state = (st.registry k).state ∨
      ((∀ w, ¬ own w → (st.registry k).state ≠ .filling w) ∧
        (∀ w, ¬ own w → (st'.registry k).state ≠ .filling w) ∧
        (st'.registry k).state ≠ .published)) : Quiet own st st' := by
  refine ⟨fun k => Nat.le_of_eq (hgen k).symm, fun k w hw => ?_, fun k hpub => ?_⟩
  · rcases hstate k with h | ⟨h, h', -⟩
    · rw [h]
    · exact iff_of_false (h' w hw) (h w hw)
  · rcases hstate k with h | ⟨-, -, h⟩
    · exact Or.inl ⟨h ▸ hpub, by rw [hsnap], hgen k⟩
    · exact absurd hpub h

theorem invalidate_not_published (e : Entry) : e.invalidate.state ≠ .published := by
  cases h : e.state <;> simp [Entry.invalidate, h]

theorem invalidate_filling (e : Entry) (w : ℕ) :
    (e.invalidate.state = .filling w) = (e.state = .filling w) := by
  cases h : e.state <;> simp [Entry.invalidate, h]

theorem le_iterate_invalidate (e : Entry) (n : ℕ) :
    e.generation ≤ (Entry.invalidate^[n] e).generation := by
  induction n with
  | zero => exact Nat.le_refl _
  | succ n ih =>
    rw [Function.iterate_succ_apply']
    exact Nat.le_trans ih (Nat.le_succ _)

/-- Invalidated keys leave the snapshot, whoever calls. -/
theorem quiet_invalidate (own : ℕ → Prop) (st : Store K V) (keys : List K) :
    Quiet own st { st with
      registry := onKeys Entry.invalidate keys st.registry
      snapshot := st.snapshot.removeAll keys } := by
  refine ⟨fun k => ?_, fun k w _ => ?_, fun k hpub => ?_⟩
  · dsimp only
    rw [onKeys_apply]
    exact le_iterate_invalidate _ _
  · exact Iff.of_eq (onKeys_preserves (g := fun e => e.state = State.filling w)
      (fun e => invalidate_filling e w) k keys st.registry)
  · dsimp only at hpub ⊢
    by_cases hk : k ∈ keys
    · exfalso
      rw [onKeys_apply] at hpub
      obtain ⟨n, hn⟩ := Nat.exists_eq_succ_of_ne_zero
        (Nat.pos_iff_ne_zero.mp (List.count_pos_iff.mpr hk))
      rw [hn, Function.iterate_succ_apply'] at hpub
      exact invalidate_not_published _ hpub
    · rw [onKeys_of_notMem _ hk] at hpub ⊢
      exact Or.inl ⟨hpub, removeAll_of_notMem _ hk, rfl⟩

theorem quiet_evict (own : ℕ → Prop) (st : Store K V) (keys : List K) :
    Quiet own st (st.evict keys).2 := by
  rw [evict_eq]
  exact quiet_invalidate own st _

/-- Pins say nothing about states. -/
theorem quiet_pins (own : ℕ → Prop) (st : Store K V) (keys : List K) {f : Entry → Entry}
    (hf : f = Entry.pin ∨ f = Entry.unpin) :
    Quiet own st { st with registry := onKeys f keys st.registry } := by
  refine Quiet.of_entries rfl (fun k => ?_) (fun k => Or.inl ?_)
  · exact onKeys_preserves (g := Entry.generation)
      (fun e => by rcases hf with rfl | rfl <;> rfl) k keys st.registry
  · exact onKeys_preserves (g := Entry.state)
      (fun e => by rcases hf with rfl | rfl <;> rfl) k keys st.registry

theorem quiet_seed (own : ℕ → Prop) {st st' : Store K V} {key : K} {value : V} {bytes : ℕ}
    (h : st.seed key value bytes = some st') : Quiet own st st' := by
  simp only [Store.seed] at h
  split at h
  · rename_i habsent
    simp only [Option.some.injEq] at h
    subst h
    -- Only `key` moved, from absent to published.
    have hother : ∀ k, k ≠ key → (st.snapshot.insertAll
        [(key, ⟨value, (st.registry key).generation, bytes⟩)]).entries k = st.snapshot.entries k :=
      fun k hk => insertAll_of_notMem _ (by simpa using hk)
    have hself : (st.snapshot.insertAll
        [(key, ⟨value, (st.registry key).generation, bytes⟩)]).entries key =
          some ⟨value, (st.registry key).generation, bytes⟩ := Function.update_self _ _ _
    refine ⟨fun k => ?_, fun k w _ => ?_, fun k hpub => ?_⟩
    · by_cases hk : k = key
      · subst hk
        simp
      · simp [Function.update_of_ne hk]
    · by_cases hk : k = key
      · subst hk
        simp [habsent]
      · simp [Function.update_of_ne hk]
    · dsimp only at hpub ⊢
      by_cases hk : k = key
      · subst hk
        exact Or.inr ⟨_, hself, by simp⟩
      · rw [Function.update_of_ne hk] at hpub ⊢
        exact Or.inl ⟨hpub, hother k hk, rfl⟩
  · simp at h

/-! ## 2. The sections of a request -/

theorem busy_eq_false_iff {worker : ℕ} {e : Entry} :
    e.busy worker = false ↔ ∀ w, w ≠ worker → e.state ≠ .filling w := by
  unfold Entry.busy
  cases e.state with
  | filling v =>
    constructor
    · intro h w hw heq
      obtain rfl : v = w := by simpa using heq
      simp [hw] at h
    · intro h
      have hv : ¬ v ≠ worker := fun hne => h v hne rfl
      simpa using hv
  | _ => simp

theorem release_state (worker : ℕ) (e : Entry) :
    (e.release worker).state = e.state ∨
      (e.state = .filling worker ∧ (e.release worker).state = .absent) := by
  unfold Entry.release
  split
  · rename_i h
    exact Or.inr ⟨h, rfl⟩
  · exact Or.inl rfl

theorem release_not_filling (worker : ℕ) (e : Entry) :
    (e.release worker).state ≠ .filling worker := by
  unfold Entry.release
  split
  · simp
  · assumption

theorem quiet_claim (worker : ℕ) (st : Store K V) (missing : List (K × Req)) :
    Quiet (· = worker) st { st with registry := (claim worker missing st.registry).registry } := by
  have hspec := claim_spec worker missing st.registry
  -- A key is claimed or left as it was.
  have hcases : ∀ k, (claim worker missing st.registry).registry k = st.registry k ∨
      ((st.registry k).busy worker = false ∧ (claim worker missing st.registry).registry k =
        { st.registry k with state := .filling worker }) := by
    intro k
    by_cases hk : k ∈ (claim worker missing st.registry).claims.map Prod.fst
    · obtain ⟨c, hc, rfl⟩ := List.mem_map.mp hk
      obtain ⟨-, -, hfree, hreg⟩ := hspec.claimed c.1 c.2 hc
      exact Or.inr ⟨hfree, hreg⟩
    · exact Or.inl (hspec.others k hk)
  refine Quiet.of_entries rfl (fun k => ?_) (fun k => ?_)
  · rcases hcases k with h | ⟨-, h⟩ <;> simp [h]
  · rcases hcases k with h | ⟨hfree, h⟩
    · exact Or.inl (by simp [h])
    · refine Or.inr ⟨fun w hw => busy_eq_false_iff.mp hfree w hw, fun w hw => ?_, ?_⟩
      · simpa [h] using fun heq : worker = w => hw heq.symm
      · simp [h]

theorem quiet_dropClaims (worker : ℕ) (st : Store K V) (claims : List (K × ℕ)) :
    Quiet (· = worker) st (st.dropClaims worker claims) := by
  refine Quiet.of_entries rfl (fun k => ?_) (fun k => ?_)
  · exact onKeys_preserves (g := Entry.generation) (release_generation worker) k _ st.registry
  · by_cases hk : k ∈ claims.map Prod.fst
    · have hreg : (st.dropClaims worker claims).registry k = (st.registry k).release worker :=
        onKeys_of_mem (release_idem worker) hk st.registry
      rw [hreg]
      rcases release_state worker (st.registry k) with h | ⟨h, h'⟩
      · exact Or.inl h
      · refine Or.inr ⟨fun w hw => ?_, fun w _ => by rw [h']; simp, by rw [h']; simp⟩
        rw [h]
        simpa using fun heq : worker = w => hw heq.symm
    · have hreg : (st.dropClaims worker claims).registry k = st.registry k :=
        onKeys_of_notMem _ hk st.registry
      exact Or.inl (by rw [hreg])

theorem quiet_fail (worker : ℕ) (st : Store K V) (key : K) (why : String) :
    Quiet (· = worker) st (st.fail key worker why) := by
  unfold Store.fail
  split
  · rename_i hfill
    refine Quiet.of_entries rfl (fun k => ?_) (fun k => ?_)
    · by_cases hk : k = key
      · subst hk
        simp
      · simp [Function.update_of_ne hk]
    · by_cases hk : k = key
      · subst hk
        refine Or.inr ⟨fun w hw => ?_, by simp, by simp⟩
        rw [hfill]
        simpa using fun heq : worker = w => hw heq.symm
      · exact Or.inl (by simp [Function.update_of_ne hk])
  · exact Quiet.refl _ st

/-- What a publication does to one key: the entry of a kept key is published, that of a
discarded one released, any other is as it was; its generation never moves. -/
theorem publish_entry (st : Store K V) (values : List (Filled K V)) (worker : ℕ)
    (discards : K → ℕ) (k : K) :
    ((st.publish values worker discards).2.2.registry k).generation = (st.registry k).generation ∧
    ((k ∈ (kept st.registry values).map Prod.fst ∧
        ((st.publish values worker discards).2.2.registry k).state = .published) ∨
      (k ∉ (kept st.registry values).map Prod.fst ∧
        (st.publish values worker discards).2.2.snapshot.entries k = st.snapshot.entries k ∧
        ((st.publish values worker discards).2.2.registry k).state =
          if k ∈ discarded st.registry values then ((st.registry k).release worker).state
          else (st.registry k).state)) := by
  rw [publish_eq]
  have hgen : ∀ keys, ((onKeys (Entry.release worker) keys st.registry) k).generation
      = (st.registry k).generation := fun keys =>
    onKeys_preserves (g := Entry.generation) (release_generation worker) k keys st.registry
  refine ⟨?_, ?_⟩
  · exact (onKeys_preserves (f := Entry.publish) (g := Entry.generation) (fun _ => rfl) k _ _).trans
      (hgen _)
  · by_cases hk : k ∈ (kept st.registry values).map Prod.fst
    · refine Or.inl ⟨hk, ?_⟩
      dsimp only
      rw [onKeys_of_mem (f := Entry.publish) (fun _ => rfl) hk]
      rfl
    · refine Or.inr ⟨hk, insertAll_of_notMem _ hk, ?_⟩
      dsimp only
      rw [onKeys_of_notMem _ hk]
      split
      · rename_i hd
        rw [onKeys_of_mem (release_idem worker) hd]
      · rename_i hd
        rw [onKeys_of_notMem _ hd]

/-- What a publication inserts at a key is a computed value whose generation is the
registry's. -/
theorem publish_inserted (st : Store K V) (values : List (Filled K V)) (worker : ℕ)
    (discards : K → ℕ) {k : K} (hk : k ∈ (kept st.registry values).map Prod.fst) :
    ∃ v ∈ values, v.key = k ∧ v.generation = (st.registry k).generation ∧
      (st.publish values worker discards).2.2.snapshot.entries k
        = some ⟨v.value, v.generation, v.bytes⟩ := by
  obtain ⟨p, hp, he⟩ := insertAll_of_mem st.snapshot hk
  obtain ⟨v, hv, hpub⟩ := List.mem_map.mp hp
  obtain ⟨hmem, hfresh⟩ := List.mem_filter.mp hv
  obtain ⟨rfl, rfl⟩ : v.key = k ∧ ⟨v.value, v.generation, v.bytes⟩ = p := by
    simpa [Filled.published] using hpub
  refine ⟨v, hmem, rfl, ?_, ?_⟩
  · have hv' : (st.registry v.key).generation = v.generation := by
      simpa [Filled.fresh] using hfresh
    exact hv'.symm
  · rw [publish_eq]
    exact he

/-- A publication of values claimed by `worker` touches no other worker's claim. -/
theorem quiet_publish (st : Store K V) (values : List (Filled K V)) (worker : ℕ)
    (discards : K → ℕ) (hheld : ∀ v ∈ values, (st.registry v.key).state = .filling worker) :
    Quiet (· = worker) st (st.publish values worker discards).2.2 := by
  have hkeptHeld : ∀ k ∈ (kept st.registry values).map Prod.fst,
      (st.registry k).state = .filling worker := by
    intro k hk
    obtain ⟨kp, hkp, rfl⟩ := List.mem_map.mp hk
    obtain ⟨v, hv, hkey, -⟩ := mem_kept hkp
    exact hkey ▸ hheld v hv
  refine ⟨fun k => ?_, fun k w hw => ?_, fun k hpub => ?_⟩
  · exact Nat.le_of_eq (publish_entry st values worker discards k).1.symm
  · rcases (publish_entry st values worker discards k).2 with ⟨hk, hst⟩ | ⟨-, -, hst⟩
    · rw [hst, hkeptHeld k hk]
      simpa using fun heq : worker = w => hw heq.symm
    · rw [hst]
      split
      · rcases release_state worker (st.registry k) with h | ⟨h, h'⟩
        · rw [h]
        · rw [h', h]
          simpa using fun heq : worker = w => hw heq.symm
      · exact Iff.rfl
  · rcases (publish_entry st values worker discards k).2 with ⟨hk, -⟩ | ⟨-, hentry, hst⟩
    · obtain ⟨v, -, -, hgen, he⟩ := publish_inserted st values worker discards hk
      exact Or.inr ⟨_, he, hgen.trans (publish_entry st values worker discards k).1.symm⟩
    · refine Or.inl ⟨?_, hentry, (publish_entry st values worker discards k).1⟩
      rw [hst] at hpub
      split at hpub
      · rcases release_state worker (st.registry k) with h | ⟨-, h'⟩
        · exact h ▸ hpub
        · rw [h'] at hpub
          cases hpub
      · exact hpub

/-! ## 3. One step of a request -/

/-- **A request's claims are the keys it fills**: each is in state `filling` by its worker, at a
generation the claim saw or a later one, and no other key is. -/
structure Owns (worker : ℕ) (r : Request K V Req) (st : Store K V) : Prop where
  held : ∀ k g, (k, g) ∈ r.claims →
    (st.registry k).state = .filling worker ∧ g ≤ (st.registry k).generation
  filling : ∀ k, (st.registry k).state = .filling worker → k ∈ r.claims.map Prod.fst

/-- How a call ends without the panic of its `expect`. -/
def Outcome.Sound : Outcome K V → Prop
  | .panicked => False
  | _ => True

/-- **Where a request holds claims.**  Only between the claim section and the publication, or on
the way out; the claims are then those computed and those left, and each claimed key is one of the
missing needs. -/
def Request.Shaped (r : Request K V Req) : Prop :=
  (∀ c ∈ r.claims, c.1 ∈ r.keys) ∧
    match r.pc with
    | .load _ missing _ => ∀ c ∈ r.claims, c.1 ∈ missing.map Prod.fst
    | .fill _ missing _ _ values todo =>
      r.claims = values.map (fun v => (v.key, v.generation)) ++ todo ∧
        ∀ c ∈ todo, c.1 ∈ missing.map Prod.fst
    | .fail _ _ => True
    | .release out => out.Sound
    | .unpin out | .done out => r.claims = [] ∧ out.Sound
    | .look _ | .wait _ _ | .ready => r.claims = []

/-- What one step of a request keeps and leaves alone. -/
structure Turn (worker : ℕ) (r : Request K V Req) (st : Store K V) (r' : Request K V Req)
    (st' : Store K V) : Prop where
  quiet : Quiet (· = worker) st st'
  owns : Owns worker r' st'
  shaped : r'.Shaped
  needs : r'.needs = r.needs
  nextWorker : st'.nextWorker = st.nextWorker

omit [DecidableEq K] in
theorem Owns.of_nil {worker : ℕ} {r : Request K V Req} {st : Store K V} (hclaims : r.claims = [])
    (hfree : ∀ k, (st.registry k).state ≠ .filling worker) : Owns worker r st :=
  ⟨by simp [hclaims], fun k hk => absurd hk (hfree k)⟩

omit [DecidableEq K] in
theorem Owns.not_filling {worker : ℕ} {r : Request K V Req} {st : Store K V}
    (howns : Owns worker r st) (hclaims : r.claims = []) (k : K) :
    (st.registry k).state ≠ .filling worker := by
  intro hk
  simpa [hclaims] using howns.filling k hk

omit [DecidableEq K] in
/-- A step that moves the program counter only. -/
theorem Turn.of_pc {worker : ℕ} {r r' : Request K V Req} {st : Store K V}
    (howns : Owns worker r st) (hneeds : r'.needs = r.needs) (hclaims : r'.claims = r.claims)
    (hshaped : r'.Shaped) : Turn worker r st r' st :=
  ⟨.refl _ _, ⟨hclaims ▸ howns.held, hclaims ▸ howns.filling⟩, hshaped, hneeds, rfl⟩

omit [DecidableEq K] in
theorem lacking_subset [StoreValue V Req] {s : Snapshot K V} {needs : List (K × Req)} {n : K × Req}
    (h : n ∈ lacking s needs) : n ∈ needs :=
  (List.mem_filter.mp h).1

omit [DecidableEq K] in
theorem phaseNeeds_subset [StoreKey K] {needs : List (K × Req)} {phase : ℕ} {n : K × Req}
    (h : n ∈ phaseNeeds needs phase) : n ∈ needs :=
  (List.mem_filter.mp h).1

theorem turn_claimed [StoreKey K] [StoreValue V Req] {worker : ℕ} {r : Request K V Req} {st : Store K V} {phase : ℕ}
    (howns : Owns worker r st) (hclaims : r.claims = []) {c : Claimed K}
    (hc : c = claim worker (lacking st.snapshot (phaseNeeds r.needs phase)) st.registry) :
    Turn worker r st
      { r with
        claims := c.claims
        pc :=
          if c.claims.isEmpty then .wait phase c.joined
          else .load phase (lacking st.snapshot (phaseNeeds r.needs phase)) c.joined }
      { st with registry := c.registry } := by
  have hspec := claim_spec worker (lacking st.snapshot (phaseNeeds r.needs phase)) st.registry
  rw [← hc] at hspec
  refine ⟨hc ▸ quiet_claim worker st _, ⟨fun k g hk => ?_, fun k hk => ?_⟩, ⟨fun k hk => ?_, ?_⟩,
    rfl, rfl⟩
  · obtain ⟨-, rfl, -, hreg⟩ := hspec.claimed k g hk
    simp [hreg]
  · by_contra hnot
    dsimp only at hk hnot
    rw [hspec.others k hnot] at hk
    exact howns.not_filling hclaims k hk
  · obtain ⟨n, hn, hnk⟩ := List.mem_map.mp (hspec.claimed k.1 k.2 hk).1
    exact List.mem_map.mpr ⟨n, phaseNeeds_subset (lacking_subset hn), hnk⟩
  · dsimp only
    split
    · rename_i phase' missing joined hpc
      split at hpc
      · cases hpc
      · obtain ⟨-, rfl, -⟩ : phase = phase' ∧
            lacking st.snapshot (phaseNeeds r.needs phase) = missing ∧ c.joined = joined := by
          simpa using hpc
        exact fun k hk => (hspec.claimed k.1 k.2 hk).1
    all_goals (rename_i hpc; split at hpc <;> simp at hpc)
    rename_i hnil
    exact List.isEmpty_iff.mp hnil

theorem turn_published {worker : ℕ} {r : Request K V Req} {st : Store K V} {phase : ℕ}
    {joined : List K} {values : List (Filled K V)} (howns : Owns worker r st)
    (hclaims : r.claims = values.map fun v => (v.key, v.generation)) :
    Turn worker r st (r.publish worker st phase joined values).1
      (st.publish values worker r.discards).2.2 := by
  have hheld : ∀ v ∈ values, (st.registry v.key).state = .filling worker := fun v hv =>
    (howns.held v.key v.generation (hclaims ▸ List.mem_map.mpr ⟨v, hv, rfl⟩)).1
  -- Afterwards the worker fills nothing: every key it filled is published or released.
  have hfree : ∀ k, ((st.publish values worker r.discards).2.2.registry k).state
      ≠ .filling worker := by
    intro k hk
    rcases (publish_entry st values worker r.discards k).2 with ⟨-, hst⟩ | ⟨hkept, -, hst⟩
    · rw [hst] at hk
      cases hk
    · rw [hst] at hk
      split at hk
      · exact release_not_filling worker _ hk
      · rename_i hdisc
        have hmem := howns.filling k hk
        rw [hclaims, List.map_map] at hmem
        obtain ⟨v, hv, rfl⟩ := List.mem_map.mp hmem
        rcases kept_or_discarded st.registry hv with h | h
        · exact hkept h
        · exact hdisc h
  refine ⟨quiet_publish st values worker r.discards hheld, Owns.of_nil rfl hfree,
    ⟨by simp [Request.publish], ?_⟩, rfl, by rw [publish_eq]⟩
  simp only [Request.publish]
  cases (st.publish values worker r.discards).1 <;> simp [Outcome.Sound]

theorem turn_failed {worker : ℕ} {r : Request K V Req} {st : Store K V} {k : K} {why : String}
    (howns : Owns worker r st) (hkeys : ∀ c ∈ r.claims, c.1 ∈ r.keys) :
    Turn worker r st
      { r with
        claims := r.claims.filter fun c => decide (c.1 ≠ k)
        pc := .release (.error (.engine (.fillFailed k why))) } (st.fail k worker why) := by
  have hother : ∀ a, a ≠ k → (st.fail k worker why).registry a = st.registry a := by
    intro a ha
    unfold Store.fail
    split
    · exact Function.update_of_ne ha _ _
    · rfl
  refine ⟨quiet_fail worker st k why, ⟨fun a g ha => ?_, fun a ha => ?_⟩,
    ⟨fun c hc => hkeys c (List.mem_filter.mp hc).1, trivial⟩, rfl, ?_⟩
  · obtain ⟨hmem, hne⟩ := List.mem_filter.mp ha
    rw [hother a (by simpa using hne)]
    exact howns.held a g hmem
  · by_cases hk : a = k
    · exfalso
      subst hk
      unfold Store.fail at ha
      split at ha
      · simp at ha
      · rename_i hnot
        exact hnot ha
    · rw [hother a hk] at ha
      obtain ⟨c, hc, rfl⟩ := List.mem_map.mp (howns.filling a ha)
      exact List.mem_map.mpr ⟨c, List.mem_filter.mpr ⟨hc, by simpa using hk⟩, rfl⟩
  · unfold Store.fail
    split <;> rfl

theorem turn_released {worker : ℕ} {r : Request K V Req} {st : Store K V} {out : Outcome K V}
    (howns : Owns worker r st) (hout : out.Sound) :
    Turn worker r st { r with claims := [], pc := .unpin out } (st.dropClaims worker r.claims) := by
  refine ⟨quiet_dropClaims worker st r.claims, Owns.of_nil rfl fun k hk => ?_,
    ⟨by simp, rfl, hout⟩, rfl, rfl⟩
  by_cases hmem : k ∈ r.claims.map Prod.fst
  · have hreg : (st.dropClaims worker r.claims).registry k = (st.registry k).release worker :=
      onKeys_of_mem (release_idem worker) hmem st.registry
    rw [hreg] at hk
    exact release_not_filling worker _ hk
  · have hreg : (st.dropClaims worker r.claims).registry k = st.registry k :=
      onKeys_of_notMem _ hmem st.registry
    rw [hreg] at hk
    exact hmem (howns.filling k hk)

/-- **One step of a request** keeps its claims in step with the registry and is quiet for every
other worker. -/
theorem turn_of_moves [StoreKey K] [StoreValue V Req] {worker : ℕ} {a : Answers K V Req} {r r' : Request K V Req}
    {st st' : Store K V} (hm : Moves worker a r st r' st') (howns : Owns worker r st)
    (hshaped : r.Shaped) : Turn worker r st r' st' := by
  obtain ⟨hkeys, hpcShape⟩ := hshaped
  cases hm with
  | phasesDone phase hpc _ =>
    rw [hpc] at hpcShape
    exact .of_pc howns rfl rfl ⟨hkeys, hpcShape⟩
  | phaseMet phase hpc _ =>
    rw [hpc] at hpcShape
    exact .of_pc howns rfl rfl ⟨hkeys, hpcShape⟩
  | stopped stop hpc =>
    have hnil : r.claims = [] := by
      rcases hpc with ⟨phase, hpc⟩ | ⟨phase, joined, hpc⟩ <;> (rw [hpc] at hpcShape; exact hpcShape)
    exact .of_pc howns rfl rfl ⟨hkeys, hnil, trivial⟩
  | claimed phase hpc c hc =>
    rw [hpc] at hpcShape
    exact turn_claimed howns hpcShape hc
  | loaded phase missing joined hpc =>
    rw [hpc] at hpcShape
    exact .of_pc howns rfl rfl ⟨hkeys, by simp, hpcShape⟩
  | refused phase missing joined s values claim todo hpc e _ =>
    exact .of_pc howns rfl rfl ⟨hkeys, trivial⟩
  | unlisted phase missing joined s values claim todo hpc hclaim =>
    rw [hpc] at hpcShape
    exact absurd (hpcShape.2 claim List.mem_cons_self) hclaim
  | fillFailed phase missing joined s values claim todo hpc why =>
    exact .of_pc howns rfl rfl ⟨hkeys, trivial⟩
  | filled phase missing joined s values claim todo hpc req v hv =>
    rw [hpc] at hpcShape
    obtain ⟨hsplit, htodo⟩ := hpcShape
    refine .of_pc howns rfl rfl ⟨hkeys, ?_, fun c hc => htodo c (List.mem_cons_of_mem _ hc)⟩
    rw [hsplit]
    simp
  | published phase missing joined s values hpc =>
    rw [hpc] at hpcShape
    exact turn_published howns (by simpa using hpcShape.1)
  | failed k why hpc => exact turn_failed howns hkeys
  | slept phase joined hpc => exact .of_pc howns rfl rfl ⟨hkeys, hpcShape⟩
  | woken phase joined hpc _ =>
    rw [hpc] at hpcShape
    exact .of_pc howns rfl rfl ⟨hkeys, hpcShape⟩
  | prepared hpc _ =>
    rw [hpc] at hpcShape
    exact .of_pc howns rfl rfl ⟨hkeys, hpcShape, trivial⟩
  | missed hpc n _ =>
    rw [hpc] at hpcShape
    exact .of_pc howns rfl rfl ⟨hkeys, hpcShape, trivial⟩
  | released out hpc =>
    rw [hpc] at hpcShape
    exact turn_released howns hpcShape
  | unpinned out hpc =>
    rw [hpc] at hpcShape
    have hreg : ∀ k, ((st.dropPins r.keys).registry k).state = (st.registry k).state ∧
        ((st.dropPins r.keys).registry k).generation = (st.registry k).generation := fun k =>
      ⟨onKeys_preserves (f := Entry.unpin) (g := Entry.state) (fun _ => rfl) k _ _,
        onKeys_preserves (f := Entry.unpin) (g := Entry.generation) (fun _ => rfl) k _ _⟩
    exact ⟨quiet_pins _ st r.keys (Or.inr rfl),
      Owns.of_nil hpcShape.1 fun k hk => howns.not_filling hpcShape.1 k ((hreg k).1 ▸ hk),
      ⟨hkeys, hpcShape⟩, rfl, rfl⟩

/-! ## 4. The invariant of the store and its callers -/

/-- **The invariant whenever the registry lock is free.** -/
structure Config.Inv (c : Config K V Req) : Prop where
  published : ∀ k, (c.store.registry k).state = .published →
    ∃ p, c.store.snapshot.entries k = some p ∧ p.generation = (c.store.registry k).generation
  owns : ∀ w r, c.requests w = some r → Owns w r c.store
  filled : ∀ k w, (c.store.registry k).state = .filling w → (c.requests w).isSome
  fresh : ∀ w, c.store.nextWorker ≤ w → c.requests w = none
  shaped : ∀ w r, c.requests w = some r → r.Shaped

omit [DecidableEq K] in
theorem inv_init : (Config.init : Config K V Req).Inv := by
  refine ⟨?_, ?_, ?_, ?_, ?_⟩ <;> simp [Config.init, Store.new]

omit [DecidableEq K] in
theorem Quiet.owns {own : ℕ → Prop} {st st' : Store K V} (hq : Quiet own st st') {w : ℕ}
    (hw : ¬ own w) {r : Request K V Req} (h : Owns w r st) : Owns w r st' := by
  refine ⟨fun k g hk => ?_, fun k hk => h.filling k ((hq.filling_iff k w hw).mp hk)⟩
  obtain ⟨hst, hg⟩ := h.held k g hk
  exact ⟨(hq.filling_iff k w hw).mpr hst, Nat.le_trans hg (hq.generation_le k)⟩

omit [DecidableEq K] in
/-- A quiet section keeps the published keys in the snapshot. -/
theorem Quiet.published_inv {own : ℕ → Prop} {c : Config K V Req} {st' : Store K V}
    (hq : Quiet own c.store st') (h : c.Inv) (k : K) (hpub : (st'.registry k).state = .published) :
    ∃ p, st'.snapshot.entries k = some p ∧ p.generation = (st'.registry k).generation := by
  rcases hq.published k hpub with ⟨hst, hentry, hgen⟩ | hp
  · obtain ⟨p, hp, hg⟩ := h.published k hst
    exact ⟨p, hentry ▸ hp, hg.trans hgen.symm⟩
  · exact hp

omit [DecidableEq K] in
/-- **A section no request runs** keeps the invariant. -/
theorem Config.Inv.of_quiet {c : Config K V Req} {st' : Store K V} (h : c.Inv)
    (hq : Quiet (fun _ => False) c.store st') (hnext : st'.nextWorker = c.store.nextWorker)
    (guards reclaims : List (List K)) :
    (⟨st', c.requests, guards, reclaims⟩ : Config K V Req).Inv := by
  refine ⟨hq.published_inv h, fun w r hr => hq.owns id (h.owns w r hr), fun k w hk => ?_,
    fun w hw => h.fresh w (hnext ▸ hw), h.shaped⟩
  exact h.filled k w ((hq.filling_iff k w id).mp hk)

omit [DecidableEq K] in
/-- **A step of a request** keeps the invariant. -/
theorem Config.Inv.of_turn {c : Config K V Req} (h : c.Inv) {w : ℕ} {r r' : Request K V Req}
    {st' : Store K V} (hr : c.requests w = some r) (ht : Turn w r c.store r' st') :
    (⟨st', Function.update c.requests w (some r'), c.guards, c.reclaims⟩ : Config K V Req).Inv := by
  have hcases : ∀ v q, Function.update c.requests w (some r') v = some q →
      (v = w ∧ q = r') ∨ (v ≠ w ∧ c.requests v = some q) := by
    intro v q hq
    by_cases hv : v = w
    · subst hv
      rw [Function.update_self] at hq
      exact Or.inl ⟨rfl, (Option.some.inj hq).symm⟩
    · rw [Function.update_of_ne hv] at hq
      exact Or.inr ⟨hv, hq⟩
  refine ⟨ht.quiet.published_inv h, fun v q hq => ?_, fun k v hk => ?_, fun v hv => ?_,
    fun v q hq => ?_⟩
  · rcases hcases v q hq with ⟨rfl, rfl⟩ | ⟨hne, hq⟩
    · exact ht.owns
    · exact ht.quiet.owns hne (h.owns v q hq)
  · dsimp only
    by_cases hv : v = w
    · subst hv
      rw [Function.update_self]
      rfl
    · rw [Function.update_of_ne hv]
      exact h.filled k v ((ht.quiet.filling_iff k v hv).mp hk)
  · have hnone := h.fresh v (ht.nextWorker ▸ hv)
    have hne : v ≠ w := by
      rintro rfl
      simp [hr] at hnone
    exact (Function.update_of_ne hne _ _).trans hnone
  · rcases hcases v q hq with ⟨rfl, rfl⟩ | ⟨hne, hq⟩
    · exact ht.shaped
    · exact h.shaped v q hq

theorem begin_requests_self (c : Config K V Req) (needs : List (K × Req)) :
    (c.begin needs).requests c.store.nextWorker = some ⟨needs, [], fun _ => 0, .look 0⟩ :=
  Function.update_self _ _ _

theorem begin_requests_of_ne (c : Config K V Req) (needs : List (K × Req)) {w : ℕ}
    (hw : w ≠ c.store.nextWorker) : (c.begin needs).requests w = c.requests w :=
  Function.update_of_ne hw _ _

theorem inv_begin {c : Config K V Req} (h : c.Inv) (needs : List (K × Req)) :
    (c.begin needs).Inv := by
  have hq : Quiet (fun _ => False) c.store (c.store.hold (needs.map Prod.fst)) :=
    quiet_pins _ c.store _ (Or.inl rfl)
  have hstate : ∀ k w, ((c.begin needs).store.registry k).state = .filling w →
      (c.store.registry k).state = .filling w := fun k w hk => (hq.filling_iff k w id).mp hk
  have hcases : ∀ w r, (c.begin needs).requests w = some r →
      (w = c.store.nextWorker ∧ r = ⟨needs, [], fun _ => 0, .look 0⟩) ∨ c.requests w = some r := by
    intro w r hr
    by_cases hw : w = c.store.nextWorker
    · subst hw
      rw [begin_requests_self] at hr
      exact Or.inl ⟨rfl, (Option.some.inj hr).symm⟩
    · rw [begin_requests_of_ne c needs hw] at hr
      exact Or.inr hr
  refine ⟨fun k hk => hq.published_inv h k hk, fun w r hr => ?_, fun k w hk => ?_, fun w hw => ?_,
    fun w r hr => ?_⟩
  · rcases hcases w r hr with ⟨rfl, rfl⟩ | hold
    · -- No key is filled by a worker that has not been handed out.
      refine Owns.of_nil rfl fun k hk => ?_
      have hsome := h.filled k _ (hstate k _ hk)
      rw [h.fresh _ (Nat.le_refl _)] at hsome
      cases hsome
    · obtain ⟨hheld, hfilling⟩ := hq.owns id (h.owns w r hold)
      exact ⟨hheld, hfilling⟩
  · have hsome := h.filled k w (hstate k w hk)
    by_cases hw : w = c.store.nextWorker
    · subst hw
      rw [begin_requests_self]
      rfl
    · rw [begin_requests_of_ne c needs hw]
      exact hsome
  · have hlt : c.store.nextWorker < w := hw
    rw [begin_requests_of_ne c needs (Nat.ne_of_gt hlt)]
    exact h.fresh w (Nat.le_of_lt hlt)
  · rcases hcases w r hr with ⟨rfl, rfl⟩ | hold
    · exact ⟨by simp, rfl⟩
    · exact h.shaped w r hold

/-- **What an event does**: a request begins, a section of no request runs, or a request takes one
of its moves. -/
inductive Happens [StoreKey K] [StoreValue V Req] (c : Config K V Req) :
    Event K V Req → Config K V Req → Prop
  | begun (needs : List (K × Req)) : Happens c (.begin needs) (c.begin needs)
  | outside (e : Event K V Req) (st' : Store K V) (guards reclaims : List (List K))
      (hquiet : Quiet (fun _ => False) c.store st')
      (hnext : st'.nextWorker = c.store.nextWorker) :
    Happens c e ⟨st', c.requests, guards, reclaims⟩
  | moved (w : ℕ) (a : Answers K V Req) (r r' : Request K V Req) (st' : Store K V)
      (hr : c.requests w = some r) (hmoves : Moves w a r c.store r' st') :
    Happens c (.step w a)
      ⟨st', Function.update c.requests w (some r'), c.guards, c.reclaims⟩

theorem step_happens [StoreKey K] [StoreValue V Req] {c c' : Config K V Req} {e : Event K V Req}
    (hstep : c.step e = some c') : Happens c e c' := by
  cases e with
  | begin needs =>
    obtain rfl : c.begin needs = c' := by simpa [Config.step] using hstep
    exact .begun needs
  | step w a =>
    simp only [Config.step] at hstep
    cases hr : c.requests w with
    | none => simp [hr] at hstep
    | some r =>
      simp only [hr] at hstep
      cases hreq : r.step w a c.store with
      | none => simp [hreq] at hstep
      | some q =>
        obtain ⟨r', st'⟩ := q
        simp only [hreq, Option.some.injEq] at hstep
        subst hstep
        exact .moved w a r r' st' hr (step_moves hreq)
  | evict keys =>
    obtain rfl : _ = c' := by simpa [Config.step] using hstep
    exact .outside _ _ _ _ (quiet_evict _ c.store keys) (by rw [evict_eq])
  | judge keys held =>
    obtain rfl : _ = c' := by simpa [Config.step] using hstep
    exact .outside _ _ _ _ (.refl _ _) rfl
  | reclaim keys =>
    simp only [Config.step] at hstep
    split at hstep
    · obtain rfl : _ = c' := by simpa using hstep
      exact .outside _ _ _ _ (quiet_evict _ c.store keys) (by rw [evict_eq])
    · simp at hstep
  | hold keys =>
    obtain rfl : _ = c' := by simpa [Config.step] using hstep
    exact .outside _ _ _ _ (quiet_pins _ c.store keys (Or.inl rfl)) rfl
  | drop keys =>
    simp only [Config.step] at hstep
    split at hstep
    · obtain rfl : _ = c' := by simpa using hstep
      exact .outside _ _ _ _ (quiet_pins _ c.store keys (Or.inr rfl)) rfl
    · simp at hstep
  | tombstone keys =>
    obtain rfl : _ = c' := by simpa [Config.step] using hstep
    exact .outside _ _ _ _ (quiet_invalidate _ c.store keys) rfl
  | seed key value bytes =>
    simp only [Config.step] at hstep
    cases hseed : c.store.seed key value bytes with
    | none =>
      obtain rfl : c = c' := by simpa [hseed] using hstep
      exact .outside _ _ _ _ (.refl _ _) rfl
    | some st =>
      obtain rfl : _ = c' := by simpa [hseed] using hstep
      refine .outside _ _ _ _ (quiet_seed _ hseed) ?_
      simp only [Store.seed] at hseed
      split at hseed
      · obtain rfl : _ = st := by simpa using hseed
        rfl
      · simp at hseed

/-- **Every event keeps the invariant.** -/
theorem inv_step [StoreKey K] [StoreValue V Req] {c c' : Config K V Req} {e : Event K V Req}
    (h : c.Inv) (hstep : c.step e = some c') : c'.Inv := by
  cases step_happens hstep with
  | begun needs => exact inv_begin h needs
  | outside e st' guards reclaims hquiet hnext => exact h.of_quiet hquiet hnext guards reclaims
  | moved w a r r' st' hr hmoves =>
    exact h.of_turn hr (turn_of_moves hmoves (h.owns w r hr) (h.shaped w r hr))

/-- **Generations never go back.** -/
theorem generation_le_step [StoreKey K] [StoreValue V Req] {c c' : Config K V Req}
    {e : Event K V Req} (h : c.Inv) (hstep : c.step e = some c') (k : K) :
    (c.store.registry k).generation ≤ (c'.store.registry k).generation := by
  cases step_happens hstep with
  | begun needs => exact (quiet_pins (fun _ => False) c.store _ (Or.inl rfl)).generation_le k
  | outside e st' guards reclaims hquiet hnext => exact hquiet.generation_le k
  | moved w a r r' st' hr hmoves =>
    exact (turn_of_moves hmoves (h.owns w r hr) (h.shaped w r hr)).quiet.generation_le k

end AlSem.Resident
