/-
# What each section of the store does to one key

The registry loops of the store run one entry function over a list of keys, so what a section does
to a key is that function, as often as the key is listed (`onKeys_apply`).  The publication keeps
the values whose generation did not move and releases the others (`publish_eq`); an eviction
leaves the pinned keys alone (`evict_eq`).
-/
import Mathlib.Data.List.Count
import AlSem.Resident.Prepare

namespace AlSem.Resident

variable {K V Req : Type*} [DecidableEq K]

/-! ## 1. Loops over keys -/

/-- **A registry loop at one key**: the entry function, as often as the key is listed. -/
theorem onKeys_apply (f : Entry → Entry) (k : K) : ∀ (keys : List K) (reg : K → Entry),
    onKeys f keys reg k = f^[keys.count k] (reg k)
  | [], reg => rfl
  | a :: keys, reg => by
    have ih := onKeys_apply f k keys (Function.update reg a (f (reg a)))
    simp only [onKeys, List.foldl_cons] at ih ⊢
    rw [ih]
    by_cases hak : a = k
    · subst hak
      simp [Function.iterate_succ_apply]
    · simp [List.count_cons_of_ne hak, Function.update_of_ne (Ne.symm hak)]

theorem onKeys_of_notMem (f : Entry → Entry) {k : K} {keys : List K} (hk : k ∉ keys)
    (reg : K → Entry) : onKeys f keys reg k = reg k := by
  rw [onKeys_apply, List.count_eq_zero.mpr hk]
  rfl

theorem onKeys_of_mem {f : Entry → Entry} (hf : ∀ e, f (f e) = f e) {k : K} {keys : List K}
    (hk : k ∈ keys) (reg : K → Entry) : onKeys f keys reg k = f (reg k) := by
  rw [onKeys_apply]
  obtain ⟨n, hn⟩ := Nat.exists_eq_succ_of_ne_zero
    (Nat.pos_iff_ne_zero.mp (List.count_pos_iff.mpr hk))
  rw [hn, Function.iterate_succ_apply]
  exact Function.iterate_fixed (hf (reg k)) n

/-- What the entry function leaves alone, the loop leaves alone. -/
theorem onKeys_preserves {α : Type*} {f : Entry → Entry} {g : Entry → α}
    (hf : ∀ e, g (f e) = g e) (k : K) (keys : List K) (reg : K → Entry) :
    g (onKeys f keys reg k) = g (reg k) := by
  rw [onKeys_apply]
  induction keys.count k with
  | zero => rfl
  | succ n ih => rw [Function.iterate_succ_apply', hf, ih]

@[simp] theorem onKeys_nil (f : Entry → Entry) (reg : K → Entry) : onKeys f [] reg = reg := rfl

@[simp] theorem insertAll_nil (s : Snapshot K V) : s.insertAll [] = s := rfl

theorem insertAll_of_notMem {k : K} : ∀ {kept : List (K × Published V)} (s : Snapshot K V),
    k ∉ kept.map Prod.fst → (s.insertAll kept).entries k = s.entries k
  | [], s, _ => rfl
  | kp :: kept, s, h => by
    rw [List.map_cons, List.mem_cons, not_or] at h
    have ih := insertAll_of_notMem ⟨Function.update s.entries kp.1 (some kp.2)⟩ h.2
    simp only [Snapshot.insertAll, List.foldl_cons] at ih ⊢
    rw [ih]
    exact Function.update_of_ne h.1 _ _

/-- What is inserted at a key is one of the kept values of that key. -/
theorem insertAll_of_mem {k : K} : ∀ {kept : List (K × Published V)} (s : Snapshot K V),
    k ∈ kept.map Prod.fst → ∃ p, (k, p) ∈ kept ∧ (s.insertAll kept).entries k = some p
  | [], _, h => by simp at h
  | kp :: kept, s, h => by
    by_cases hrest : k ∈ kept.map Prod.fst
    · obtain ⟨p, hp, he⟩ :=
        insertAll_of_mem ⟨Function.update s.entries kp.1 (some kp.2)⟩ hrest
      exact ⟨p, List.mem_cons_of_mem _ hp, he⟩
    · have hk : k = kp.1 := by
        rw [List.map_cons, List.mem_cons] at h
        exact h.resolve_right hrest
      subst hk
      refine ⟨kp.2, List.mem_cons_self, ?_⟩
      have he := insertAll_of_notMem (⟨Function.update s.entries kp.1 (some kp.2)⟩) hrest
      simp only [Snapshot.insertAll, List.foldl_cons] at he ⊢
      rw [he]
      exact Function.update_self _ _ _

theorem removeAll_of_notMem {k : K} : ∀ {keys : List K} (s : Snapshot K V), k ∉ keys →
    (s.removeAll keys).entries k = s.entries k
  | [], s, _ => rfl
  | a :: keys, s, h => by
    rw [List.mem_cons, not_or] at h
    have ih := removeAll_of_notMem ⟨Function.update s.entries a none⟩ h.2
    simp only [Snapshot.removeAll, List.foldl_cons] at ih ⊢
    rw [ih]
    exact Function.update_of_ne h.1 _ _

theorem removeAll_none {k : K} : ∀ (keys : List K) (s : Snapshot K V), s.entries k = none →
    (s.removeAll keys).entries k = none
  | [], _, h => h
  | a :: keys, s, h => by
    refine removeAll_none keys _ ?_
    by_cases hk : k = a
    · subst hk
      exact Function.update_self _ _ _
    · simpa [Function.update_of_ne hk] using h

theorem removeAll_of_mem {k : K} : ∀ {keys : List K} (s : Snapshot K V), k ∈ keys →
    (s.removeAll keys).entries k = none
  | [], _, h => by simp at h
  | a :: keys, s, h => by
    rcases List.mem_cons.mp h with rfl | hrest
    · exact removeAll_none keys _ (Function.update_self _ _ _)
    · exact removeAll_of_mem ⟨Function.update s.entries a none⟩ hrest

/-! ## 2. Eviction -/

/-- The keys an eviction takes: those no request pinned. -/
def unpinned (reg : K → Entry) (keys : List K) : List K :=
  keys.filter fun k => decide ((reg k).pins = 0)

omit [DecidableEq K] in
theorem mem_unpinned {reg : K → Entry} {keys : List K} {k : K} :
    k ∈ unpinned reg keys ↔ k ∈ keys ∧ (reg k).pins = 0 := by
  simp [unpinned]

theorem evictKeys_eq : ∀ (keys : List K) (reg : K → Entry),
    evictKeys keys reg = (unpinned reg keys, onKeys Entry.invalidate (unpinned reg keys) reg)
  | [], reg => rfl
  | k :: keys, reg => by
    have hpins : unpinned (Function.update reg k (reg k).invalidate) keys = unpinned reg keys := by
      refine List.filter_congr fun a _ => ?_
      by_cases ha : a = k
      · subst ha
        simp [Entry.invalidate]
      · simp [Function.update_of_ne ha]
    by_cases hk : 0 < (reg k).pins
    · rw [evictKeys, if_pos hk, evictKeys_eq keys reg, unpinned, unpinned,
        List.filter_cons_of_neg (by simpa using (Nat.pos_iff_ne_zero.mp hk))]
    · have hz : (reg k).pins = 0 := by omega
      rw [evictKeys, if_neg hk]
      simp only [evictKeys_eq keys, hpins]
      rw [unpinned, unpinned, List.filter_cons_of_pos (by simpa using hz)]
      rfl

/-- **An eviction**: the unpinned keys are invalidated and leave the snapshot. -/
theorem evict_eq (st : Store K V) (keys : List K) :
    (st.evict keys).2 = { st with
      registry := onKeys Entry.invalidate (unpinned st.registry keys) st.registry
      snapshot := st.snapshot.removeAll (unpinned st.registry keys) } := by
  simp only [Store.evict, evictKeys_eq]
  split
  · rename_i hnil
    rw [List.isEmpty_iff.mp hnil]
    rfl
  · rfl

/-! ## 3. Claims -/

/-- **What a claim section takes.**  A claimed key was filled by no other worker and is now
filled by this one; its generation is the one claimed.  Every other key is as it was. -/
structure ClaimSpec (worker : ℕ) (missing : List (K × Req)) (reg : K → Entry) (c : Claimed K) :
    Prop where
  claimed : ∀ k g, (k, g) ∈ c.claims → k ∈ missing.map Prod.fst ∧ g = (reg k).generation ∧
    (reg k).busy worker = false ∧ c.registry k = { reg k with state := .filling worker }
  others : ∀ k, k ∉ c.claims.map Prod.fst → c.registry k = reg k

theorem busy_update {worker : ℕ} {reg : K → Entry} {a k : K}
    (h : ((Function.update reg a { reg a with state := .filling worker }) k).busy worker = false)
    (ha : (reg a).busy worker = false) : (reg k).busy worker = false := by
  by_cases hk : k = a
  · subst hk
    exact ha
  · rwa [Function.update_of_ne hk] at h

theorem claim_spec (worker : ℕ) : ∀ (missing : List (K × Req)) (reg : K → Entry),
    ClaimSpec worker missing reg (claim worker missing reg)
  | [], reg => ⟨by simp [claim], by simp [claim]⟩
  | (a, q) :: missing, reg => by
    by_cases hbusy : (reg a).busy worker = true
    · have ih := claim_spec worker missing reg
      rw [claim, if_pos hbusy]
      refine ⟨fun k g hk => ?_, ih.others⟩
      obtain ⟨hmem, hrest⟩ := ih.claimed k g hk
      exact ⟨List.mem_cons_of_mem _ hmem, hrest⟩
    · have hfree : (reg a).busy worker = false := by simpa using hbusy
      have ih := claim_spec worker missing
        (Function.update reg a { reg a with state := .filling worker })
      rw [claim, if_neg hbusy]
      -- A key claimed twice has kept its generation and its claimer.
      have hsame : ∀ k, ({ (Function.update reg a { reg a with state := State.filling worker }) k with
          state := State.filling worker } : Entry) = { reg k with state := .filling worker } := by
        intro k
        by_cases hk : k = a
        · subst hk
          simp
        · rw [Function.update_of_ne hk]
      have hgen : ∀ k, ((Function.update reg a { reg a with state := State.filling worker }) k).generation
          = (reg k).generation := by
        intro k
        by_cases hk : k = a
        · subst hk
          simp
        · rw [Function.update_of_ne hk]
      refine ⟨fun k g hk => ?_, fun k hk => ?_⟩
      · rcases List.mem_cons.mp hk with heq | hk
        · obtain ⟨rfl, rfl⟩ : k = a ∧ g = (reg a).generation := by simpa using heq
          refine ⟨by simp, rfl, hfree, ?_⟩
          by_cases hin : k ∈ ((claim worker missing (Function.update reg k
              { reg k with state := State.filling worker })).claims.map Prod.fst)
          · obtain ⟨c, hc, hck⟩ := List.mem_map.mp hin
            obtain ⟨-, -, -, hreg⟩ := ih.claimed c.1 c.2 hc
            rw [hck] at hreg
            exact hreg.trans (hsame k)
          · exact (ih.others k hin).trans (by simp)
        · obtain ⟨hmem, hg, hb, hreg⟩ := ih.claimed k g hk
          exact ⟨List.mem_cons_of_mem _ hmem, hg.trans (hgen k), busy_update hb hfree,
            hreg.trans (hsame k)⟩
      · simp only [List.map_cons, List.mem_cons, not_or] at hk
        rw [ih.others k hk.2, Function.update_of_ne hk.1]

theorem release_idem (worker : ℕ) (e : Entry) :
    (e.release worker).release worker = e.release worker := by
  unfold Entry.release
  split
  · simp
  · rfl

/-! ## 4. Publication -/

/-- The value's key kept the generation the claim saw. -/
def Filled.fresh (reg : K → Entry) (v : Filled K V) : Bool :=
  decide ((reg v.key).generation = v.generation)

def Filled.published (v : Filled K V) : K × Published V := (v.key, ⟨v.value, v.generation, v.bytes⟩)

/-- The values a publication keeps, as the snapshot takes them. -/
def kept (reg : K → Entry) (values : List (Filled K V)) : List (K × Published V) :=
  (values.filter (Filled.fresh reg)).map Filled.published

/-- The keys whose value a publication discards. -/
def discarded (reg : K → Entry) (values : List (Filled K V)) : List K :=
  (values.filter fun v => !Filled.fresh reg v).map Filled.key

theorem release_generation (worker : ℕ) (e : Entry) :
    (e.release worker).generation = e.generation := by
  unfold Entry.release
  split <;> rfl

theorem fresh_update (worker : ℕ) (reg : K → Entry) (k : K) (v : Filled K V) :
    v.fresh (Function.update reg k ((reg k).release worker)) = v.fresh reg := by
  unfold Filled.fresh
  by_cases hk : v.key = k
  · rw [hk, Function.update_self, release_generation]
  · rw [Function.update_of_ne hk]

theorem publish_fold (worker : ℕ) : ∀ (values : List (Filled K V)) (p : Publishing K V),
    (values.foldl (publishValue worker) p).kept = p.kept ++ kept p.registry values ∧
      (values.foldl (publishValue worker) p).registry
        = onKeys (Entry.release worker) (discarded p.registry values) p.registry
  | [], p => by simp [kept, discarded]
  | v :: values, p => by
    rw [List.foldl_cons]
    obtain ⟨hkept, hreg⟩ := publish_fold worker values (publishValue worker p v)
    by_cases hfresh : (p.registry v.key).generation = v.generation
    · have hv : v.fresh p.registry = true := by simpa [Filled.fresh] using hfresh
      have hone : publishValue worker p v =
          { p with kept := p.kept ++ [v.published] } := by
        rw [publishValue, if_pos hfresh]
        rfl
      rw [hone] at hkept hreg ⊢
      constructor
      · rw [hkept]
        simp [kept, hv]
      · rw [hreg]
        simp [discarded, hv]
    · have hv : v.fresh p.registry = false := by simpa [Filled.fresh] using hfresh
      have hreg' : (publishValue worker p v).registry =
          Function.update p.registry v.key ((p.registry v.key).release worker) := by
        rw [publishValue, if_neg hfresh]
      have hkept' : (publishValue worker p v).kept = p.kept := by
        rw [publishValue, if_neg hfresh]
      have hsame : Filled.fresh (V := V) (publishValue worker p v).registry
          = Filled.fresh p.registry := by
        rw [hreg']
        exact funext fun u => fresh_update worker p.registry v.key u
      constructor
      · rw [hkept, hkept']
        simp [kept, hsame, hv]
      · rw [hreg]
        simp only [discarded, hsame, hv, List.filter_cons, Bool.not_false, if_true, List.map_cons]
        rw [hreg']
        rfl

/-- **A publication**: the discarded keys are released, the kept values are merged into the
current snapshot and their keys marked published. -/
theorem publish_eq (st : Store K V) (values : List (Filled K V)) (worker : ℕ)
    (discards : K → ℕ) :
    (st.publish values worker discards).2.2 = { st with
      snapshot := st.snapshot.insertAll (kept st.registry values)
      registry := onKeys Entry.publish ((kept st.registry values).map Prod.fst)
        (onKeys (Entry.release worker) (discarded st.registry values) st.registry) } := by
  obtain ⟨hkept, hreg⟩ := publish_fold worker values ⟨st.registry, [], discards, none⟩
  simp only [List.nil_append] at hkept hreg
  simp only [Store.publish]
  split
  · rename_i hnil
    have h0 : kept st.registry values = [] := by rw [← hkept]; exact List.isEmpty_iff.mp hnil
    rw [h0, hreg]
    rfl
  · rw [hkept, hreg]

omit [DecidableEq K] in
theorem mem_kept {reg : K → Entry} {values : List (Filled K V)} {k : K} {p : Published V}
    (h : (k, p) ∈ kept reg values) : ∃ v ∈ values, v.key = k ∧ v.value = p.value ∧
      v.generation = p.generation ∧ (reg k).generation = p.generation := by
  obtain ⟨v, hv, hpub⟩ := List.mem_map.mp h
  obtain ⟨hmem, hfresh⟩ := List.mem_filter.mp hv
  obtain ⟨rfl, rfl⟩ : v.key = k ∧ ⟨v.value, v.generation, v.bytes⟩ = p := by
    simpa [Filled.published] using hpub
  exact ⟨v, hmem, rfl, rfl, rfl, by simpa [Filled.fresh] using hfresh⟩

omit [DecidableEq K] in
/-- Every computed value is kept or discarded. -/
theorem kept_or_discarded (reg : K → Entry) {values : List (Filled K V)} {v : Filled K V}
    (hv : v ∈ values) : v.key ∈ (kept reg values).map Prod.fst ∨ v.key ∈ discarded reg values := by
  by_cases hfresh : v.fresh reg = true
  · exact Or.inl (List.mem_map.mpr
      ⟨v.published, List.mem_map_of_mem (List.mem_filter.mpr ⟨hv, hfresh⟩), rfl⟩)
  · exact Or.inr (List.mem_map_of_mem (List.mem_filter.mpr ⟨hv, by simpa using hfresh⟩))

/-! ## 5. What one step of a request can do -/

section Moves

variable [StoreKey K] [StoreValue V Req]

/-- **The moves of a request**, one constructor for each way a step goes. -/
inductive Moves (worker : ℕ) (a : Answers K V Req) (r : Request K V Req) (st : Store K V) :
    Request K V Req → Store K V → Prop
  | phasesDone (phase : ℕ) (hpc : r.pc = .look phase) (hlast : lastPhase r.needs < phase) :
    Moves worker a r st { r with pc := .ready } st
  | phaseMet (phase : ℕ) (hpc : r.pc = .look phase)
      (hmet : lacking st.snapshot (phaseNeeds r.needs phase) = []) :
    Moves worker a r st { r with pc := .look (phase + 1) } st
  | stopped (stop : Stop)
      (hpc : (∃ phase, r.pc = .look phase) ∨ ∃ phase joined, r.pc = .wait phase joined) :
    Moves worker a r st { r with pc := .unpin (.error stop.error) } st
  | claimed (phase : ℕ) (hpc : r.pc = .look phase) (c : Claimed K)
      (hc : c = claim worker (lacking st.snapshot (phaseNeeds r.needs phase)) st.registry) :
    Moves worker a r st
      { r with
        claims := c.claims
        pc :=
          if c.claims.isEmpty then .wait phase c.joined
          else .load phase (lacking st.snapshot (phaseNeeds r.needs phase)) c.joined }
      { st with registry := c.registry }
  | loaded (phase : ℕ) (missing : List (K × Req)) (joined : List K)
      (hpc : r.pc = .load phase missing joined) :
    Moves worker a r st { r with pc := .fill phase missing joined st.snapshot [] r.claims } st
  | refused (phase : ℕ) (missing : List (K × Req)) (joined : List K) (s : Snapshot K V)
      (values : List (Filled K V)) (claim : K × ℕ) (todo : List (K × ℕ))
      (hpc : r.pc = .fill phase missing joined s values (claim :: todo)) (e : PrepareError K)
      (he : ∀ k, e ≠ .engine (.missing k)) :
    Moves worker a r st { r with pc := .release (.error e) } st
  | unlisted (phase : ℕ) (missing : List (K × Req)) (joined : List K) (s : Snapshot K V)
      (values : List (Filled K V)) (claim : K × ℕ) (todo : List (K × ℕ))
      (hpc : r.pc = .fill phase missing joined s values (claim :: todo))
      (hclaim : claim.1 ∉ missing.map Prod.fst) :
    Moves worker a r st { r with pc := .release .panicked } st
  | fillFailed (phase : ℕ) (missing : List (K × Req)) (joined : List K) (s : Snapshot K V)
      (values : List (Filled K V)) (claim : K × ℕ) (todo : List (K × ℕ))
      (hpc : r.pc = .fill phase missing joined s values (claim :: todo)) (why : String) :
    Moves worker a r st { r with pc := .fail claim.1 why } st
  | filled (phase : ℕ) (missing : List (K × Req)) (joined : List K) (s : Snapshot K V)
      (values : List (Filled K V)) (claim : K × ℕ) (todo : List (K × ℕ))
      (hpc : r.pc = .fill phase missing joined s values (claim :: todo)) (req : Req) (v : V)
      (hv : r.fills a = some (⟨claim.1, req, s.get claim.1, s⟩, v)) :
    Moves worker a r st
      { r with
        pc := .fill phase missing joined s (values ++ [⟨claim.1, claim.2, v, a.bytes⟩]) todo } st
  | published (phase : ℕ) (missing : List (K × Req)) (joined : List K) (s : Snapshot K V)
      (values : List (Filled K V)) (hpc : r.pc = .fill phase missing joined s values []) :
    Moves worker a r st (r.publish worker st phase joined values).1
      (st.publish values worker r.discards).2.2
  | failed (k : K) (why : String) (hpc : r.pc = .fail k why) :
    Moves worker a r st
      { r with
        claims := r.claims.filter fun c => decide (c.1 ≠ k)
        pc := .release (.error (.engine (.fillFailed k why))) } (st.fail k worker why)
  | slept (phase : ℕ) (joined : List K) (hpc : r.pc = .wait phase joined) :
    Moves worker a r st r st
  | woken (phase : ℕ) (joined : List K) (hpc : r.pc = .wait phase joined)
      (hfree : st.busy joined worker = false) :
    Moves worker a r st { r with pc := .look phase } st
  | prepared (hpc : r.pc = .ready) (hmet : lacking st.snapshot r.needs = []) :
    Moves worker a r st { r with pc := .unpin (.prepared st.snapshot) } st
  | missed (hpc : r.pc = .ready) (n : K × Req) (hn : n ∈ lacking st.snapshot r.needs) :
    Moves worker a r st { r with pc := .unpin (.error (.engine (.missing n.1))) } st
  | released (out : Outcome K V) (hpc : r.pc = .release out) :
    Moves worker a r st { r with claims := [], pc := .unpin out } (st.dropClaims worker r.claims)
  | unpinned (out : Outcome K V) (hpc : r.pc = .unpin out) :
    Moves worker a r st { r with pc := .done out } (st.dropPins r.keys)

theorem look_moves {worker : ℕ} {a : Answers K V Req} {r : Request K V Req} {st : Store K V}
    {phase : ℕ} (hpc : r.pc = .look phase) :
    Moves worker a r st (r.look worker a st phase).1 (r.look worker a st phase).2 := by
  unfold Request.look
  split
  · rename_i hlast
    exact .phasesDone phase hpc hlast
  · split
    · rename_i hnil
      refine .phaseMet phase hpc ?_
      rw [List.isEmpty_iff.mp hnil]
      rfl
    · cases a.stop with
      | some stop => exact .stopped stop (Or.inl ⟨phase, hpc⟩)
      | none =>
        dsimp only
        split
        · rename_i hmet
          exact .phaseMet phase hpc (List.isEmpty_iff.mp hmet)
        · exact .claimed phase hpc _ rfl

theorem fillOne_moves {worker : ℕ} {a : Answers K V Req} {r : Request K V Req} {st : Store K V}
    {phase : ℕ} {missing : List (K × Req)} {joined : List K} {s : Snapshot K V}
    {values : List (Filled K V)} {k : K} {generation : ℕ} {todo : List (K × ℕ)}
    (hpc : r.pc = .fill phase missing joined s values ((k, generation) :: todo)) :
    Moves worker a r st (r.fillOne a phase missing joined s values k generation todo) st := by
  unfold Request.fillOne
  cases hres : a.reserve k with
  | error why => exact .refused phase missing joined s values _ todo hpc _ (by simp)
  | ok u =>
    dsimp only
    cases hfind : missing.find? fun n => decide (n.1 = k) with
    | none =>
      refine .unlisted phase missing joined s values _ todo hpc ?_
      intro hmem
      obtain ⟨n, hn, hnk⟩ := List.mem_map.mp hmem
      exact absurd (List.find?_eq_none.mp hfind n hn) (by simpa using hnk)
    | some n =>
      dsimp only
      cases hfill : (a.fill ⟨k, n.2, s.get k, s⟩).caught with
      | error why => exact .fillFailed phase missing joined s values _ todo hpc why
      | ok v =>
        dsimp only
        cases a.stop with
        | some stop =>
          exact .refused phase missing joined s values _ todo hpc _
            (by cases stop <;> simp [Stop.error])
        | none =>
          exact .filled phase missing joined s values (k, generation) todo hpc n.2 v
            (by simp only [Request.fills, hpc, hres, hfind, hfill])

theorem wait_moves {worker : ℕ} {a : Answers K V Req} {r : Request K V Req} {st : Store K V}
    {phase : ℕ} {joined : List K} (hpc : r.pc = .wait phase joined) :
    Moves worker a r st (r.wait worker a st phase joined) st := by
  unfold Request.wait
  split
  · cases a.stop with
    | some stop => exact .stopped stop (Or.inr ⟨phase, joined, hpc⟩)
    | none => exact .slept phase joined hpc
  · rename_i hfree
    exact .woken phase joined hpc (by simpa using hfree)

theorem ready_moves {worker : ℕ} {a : Answers K V Req} {r : Request K V Req} {st : Store K V}
    (hpc : r.pc = .ready) : Moves worker a r st (r.ready st.snapshot) st := by
  unfold Request.ready
  cases h : lacking st.snapshot r.needs with
  | nil => exact .prepared hpc h
  | cons n rest => exact .missed hpc n (by rw [h]; exact List.mem_cons_self)

/-- **Every step is one of the moves.** -/
theorem step_moves {worker : ℕ} {a : Answers K V Req} {r r' : Request K V Req} {st st' : Store K V}
    (h : r.step worker a st = some (r', st')) : Moves worker a r st r' st' := by
  unfold Request.step at h
  split at h <;> rename_i hpc <;>
    simp only [Option.some.injEq, Prod.mk.injEq, reduceCtorEq] at h
  case h_1 phase =>
    have hm : Moves worker a r st (r.look worker a st phase).1 (r.look worker a st phase).2 :=
      look_moves hpc
    rw [h] at hm
    exact hm
  case h_2 => obtain ⟨rfl, rfl⟩ := h; exact .loaded _ _ _ hpc
  case h_3 phase missing joined s values =>
    have hm : Moves worker a r st (r.publish worker st phase joined values).1
        (r.publish worker st phase joined values).2 := .published _ _ _ _ _ hpc
    rw [h] at hm
    exact hm
  case h_4 => obtain ⟨rfl, rfl⟩ := h; exact fillOne_moves hpc
  case h_5 => obtain ⟨rfl, rfl⟩ := h; exact .failed _ _ hpc
  case h_6 => obtain ⟨rfl, rfl⟩ := h; exact wait_moves hpc
  case h_7 => obtain ⟨rfl, rfl⟩ := h; exact ready_moves hpc
  case h_8 => obtain ⟨rfl, rfl⟩ := h; exact .released _ hpc
  case h_9 => obtain ⟨rfl, rfl⟩ := h; exact .unpinned _ hpc

end Moves

end AlSem.Resident
