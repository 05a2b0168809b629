/-
# Pins are counted

The pins the registry counts for a key are at least those of the requests in progress and of the
guards (`Config.pinned_le`), so a key some request in progress needs is never evicted.  One move of
a request takes at most its own pins away (`moves_pins`).
-/
import Mathlib.Algebra.BigOperators.Group.Finset.Basic
import Mathlib.Algebra.Order.BigOperators.Group.Finset
import AlSem.Resident.StoreSafety

namespace AlSem.Resident

open Finset

variable {K V Req : Type*} [DecidableEq K]

/-! ## 1. The pins of the requests in progress -/

/-- The pins a request holds on `k`: its needs', until they are dropped. -/
def Request.pinned (r : Request K V Req) (k : K) : ℕ :=
  match r.pc with
  | .done _ => 0
  | _ => r.keys.count k

/-- The pins a worker's request holds on `k`. -/
def Config.pinnedBy (c : Config K V Req) (k : K) (w : ℕ) : ℕ :=
  (c.requests w).elim 0 fun r => r.pinned k

/-- The pins of every request and every guard on `k`. -/
def Config.pinned (c : Config K V Req) (k : K) : ℕ :=
  ∑ w ∈ range c.store.nextWorker, c.pinnedBy k w + (c.guards.map fun g => g.count k).sum

/-- **The pins invariant**: the registry counts at least the pins held. -/
def Config.PinsCounted (c : Config K V Req) : Prop :=
  ∀ k, c.pinned k ≤ (c.store.registry k).pins

theorem Request.pinned_of_live {r : Request K V Req} (hlive : ∀ out, r.pc ≠ .done out) (k : K) :
    r.pinned k = r.keys.count k := by
  unfold Request.pinned
  cases hpc : r.pc with
  | done out => exact absurd hpc (hlive out)
  | _ => rfl

theorem pin_iterate (e : Entry) (n : ℕ) : (Entry.pin^[n] e).pins = e.pins + n := by
  induction n with
  | zero => rfl
  | succ n ih =>
    rw [Function.iterate_succ_apply']
    simp only [Entry.pin, ih]
    omega

theorem unpin_iterate (e : Entry) (n : ℕ) : (Entry.unpin^[n] e).pins = e.pins - n := by
  induction n with
  | zero => rfl
  | succ n ih =>
    rw [Function.iterate_succ_apply']
    simp only [Entry.unpin, ih]
    omega

theorem hold_pins (st : Store K V) (keys : List K) (k : K) :
    ((st.hold keys).registry k).pins = (st.registry k).pins + keys.count k := by
  simp only [Store.hold, onKeys_apply, pin_iterate]

theorem dropPins_pins (st : Store K V) (keys : List K) (k : K) :
    ((st.dropPins keys).registry k).pins = (st.registry k).pins - keys.count k := by
  simp only [Store.dropPins, onKeys_apply, unpin_iterate]

theorem evict_pins (st : Store K V) (keys : List K) (k : K) :
    ((st.evict keys).2.registry k).pins = (st.registry k).pins := by
  rw [evict_eq]
  exact onKeys_preserves (f := Entry.invalidate) (g := Entry.pins) (fun _ => rfl) k _ st.registry

/-- **An eviction skips the pinned keys.** -/
theorem evict_of_pinned (st : Store K V) (keys : List K) {k : K} (hk : 0 < (st.registry k).pins) :
    (st.evict keys).2.snapshot.entries k = st.snapshot.entries k := by
  rw [evict_snapshot]
  refine removeAll_of_notMem _ fun hmem => ?_
  have := (mem_unpinned.mp hmem).2
  omega

theorem release_pins (worker : ℕ) (e : Entry) : (e.release worker).pins = e.pins := by
  unfold Entry.release
  split <;> rfl

theorem claim_pins {worker : ℕ} {missing : List (K × Req)} {reg : K → Entry} (k : K) :
    ((claim worker missing reg).registry k).pins = (reg k).pins := by
  have hspec := claim_spec worker missing reg
  by_cases hmem : k ∈ (claim worker missing reg).claims.map Prod.fst
  · obtain ⟨d, hd, rfl⟩ := List.mem_map.mp hmem
    rw [(hspec.claimed d.1 d.2 hd).2.2.2]
  · rw [hspec.others k hmem]

theorem fail_pins (st : Store K V) (key : K) (worker : ℕ) (why : String) (k : K) :
    ((st.fail key worker why).registry k).pins = (st.registry k).pins := by
  unfold Store.fail
  split
  · by_cases hk : k = key
    · subst hk
      simp
    · simp [Function.update_of_ne hk]
  · rfl

theorem publish_pins (st : Store K V) (values : List (Filled K V)) (worker : ℕ) (discards : K → ℕ)
    (k : K) : ((st.publish values worker discards).2.2.registry k).pins = (st.registry k).pins := by
  rw [publish_eq]
  exact (onKeys_preserves (f := Entry.publish) (g := Entry.pins) (fun _ => rfl) k _ _).trans
    (onKeys_preserves (g := Entry.pins) (release_pins worker) k _ st.registry)

section Moves

variable [StoreKey K] [StoreValue V Req] {worker : ℕ} {a : Answers K V Req}
  {r r' : Request K V Req} {st st' : Store K V}

/-- A request that moves has not returned. -/
theorem Moves.live (hm : Moves worker a r st r' st') (out : Outcome K V) : r.pc ≠ .done out := by
  intro hdone
  cases hm with
  | stopped stop hpc =>
    rcases hpc with ⟨phase, hpc⟩ | ⟨phase, joined, hpc⟩ <;> simp [hdone] at hpc
  | _ => simp_all

theorem Moves.needs (hm : Moves worker a r st r' st') : r'.needs = r.needs := by
  cases hm <;> rfl

/-- **A move takes at most the request's own pins away.** -/
theorem moves_pins (hm : Moves worker a r st r' st') (k : K) :
    (st.registry k).pins + r'.pinned k ≤ (st'.registry k).pins + r.pinned k := by
  have hr : r.pinned k = r.keys.count k := Request.pinned_of_live hm.live k
  have hr' : r'.pinned k ≤ r.keys.count k := by
    unfold Request.pinned Request.keys
    rw [hm.needs]
    split <;> omega
  -- Only the drop of the pins changes a count.
  have hpins : (st'.registry k).pins = (st.registry k).pins ∨
      (r'.pinned k = 0 ∧ (st'.registry k).pins = (st.registry k).pins - r.keys.count k) := by
    cases hm with
    | claimed phase hpc c hc => exact Or.inl (hc ▸ claim_pins k)
    | published phase missing joined s values hpc => exact Or.inl (publish_pins st values _ _ k)
    | failed key why hpc => exact Or.inl (fail_pins st key worker why k)
    | released out hpc =>
      exact Or.inl (onKeys_preserves (g := Entry.pins) (release_pins worker) k _ st.registry)
    | unpinned out hpc => exact Or.inr ⟨rfl, dropPins_pins st r.keys k⟩
    | _ => exact Or.inl rfl
  omega

end Moves

/-! ## 2. Every event keeps the count -/

theorem sum_pinnedBy_update {c : Config K V Req} {w : ℕ} (hw : w < c.store.nextWorker)
    {r : Request K V Req} (r' : Request K V Req) (hr : c.requests w = some r) (st' : Store K V)
    (hnext : st'.nextWorker = c.store.nextWorker) (k : K) :
    (∑ v ∈ range st'.nextWorker, (⟨st', Function.update c.requests w (some r'), c.guards,
        c.reclaims⟩ : Config K V Req).pinnedBy k v) + r.pinned k
      = (∑ v ∈ range c.store.nextWorker, c.pinnedBy k v) + r'.pinned k := by
  have hmem : w ∈ range c.store.nextWorker := mem_range.mpr hw
  rw [hnext, ← add_sum_erase _ _ hmem, ← add_sum_erase _ (c.pinnedBy k) hmem]
  have hself : (⟨st', Function.update c.requests w (some r'), c.guards, c.reclaims⟩ :
      Config K V Req).pinnedBy k w = r'.pinned k := by
    simp [Config.pinnedBy]
  have hold : c.pinnedBy k w = r.pinned k := by simp [Config.pinnedBy, hr]
  have hrest : ∑ v ∈ (range c.store.nextWorker).erase w, (⟨st', Function.update c.requests w
      (some r'), c.guards, c.reclaims⟩ : Config K V Req).pinnedBy k v
        = ∑ v ∈ (range c.store.nextWorker).erase w, c.pinnedBy k v := by
    refine sum_congr rfl fun v hv => ?_
    simp [Config.pinnedBy, Function.update_of_ne (mem_erase.mp hv).1]
  rw [hself, hold, hrest]
  omega

theorem pins_of_turn [StoreKey K] [StoreValue V Req] {c : Config K V Req} (hi : c.Inv)
    (h : c.PinsCounted) {w : ℕ} {a : Answers K V Req} {r r' : Request K V Req} {st' : Store K V}
    (hr : c.requests w = some r) (hm : Moves w a r c.store r' st') :
    (⟨st', Function.update c.requests w (some r'), c.guards, c.reclaims⟩ :
      Config K V Req).PinsCounted := by
  intro k
  have hw : w < c.store.nextWorker := by
    by_contra hle
    rw [hi.fresh w (by omega)] at hr
    cases hr
  have hnext := (turn_of_moves hm (hi.owns w r hr) (hi.shaped w r hr)).nextWorker
  have hsum := sum_pinnedBy_update hw r' hr st' hnext k
  have hpins := moves_pins hm k
  have hk := h k
  simp only [Config.pinned] at hk ⊢
  omega

theorem pins_begin {c : Config K V Req} (h : c.PinsCounted) (needs : List (K × Req)) :
    (c.begin needs).PinsCounted := by
  intro k
  have hpins : ((c.begin needs).store.registry k).pins
      = (c.store.registry k).pins + (needs.map Prod.fst).count k := hold_pins c.store _ k
  have hnew : (c.begin needs).pinnedBy k c.store.nextWorker = (needs.map Prod.fst).count k := by
    rw [Config.pinnedBy, begin_requests_self]
    rfl
  have hrest : ∑ v ∈ range c.store.nextWorker, (c.begin needs).pinnedBy k v
      = ∑ v ∈ range c.store.nextWorker, c.pinnedBy k v := by
    refine sum_congr rfl fun v hv => ?_
    rw [Config.pinnedBy, begin_requests_of_ne c needs (Nat.ne_of_lt (mem_range.mp hv))]
    rfl
  have hnext : (c.begin needs).store.nextWorker = c.store.nextWorker + 1 := rfl
  have hguards : (c.begin needs).guards = c.guards := rfl
  have hk := h k
  simp only [Config.pinned] at hk ⊢
  rw [hnext, sum_range_succ, hrest, hnew, hpins, hguards]
  omega

theorem sum_count_erase {guards : List (List K)} {keys : List K} (hmem : keys ∈ guards) (k : K) :
    (guards.map fun g => g.count k).sum
      = keys.count k + ((guards.erase keys).map fun g => g.count k).sum := by
  rw [((List.perm_cons_erase hmem).map fun g => g.count k).sum_eq]
  simp

/-- **Every event keeps the count.**  A tombstone or a seed touches no pin either. -/
theorem pins_step [StoreKey K] [StoreValue V Req] {c c' : Config K V Req} {e : Event K V Req}
    (hi : c.Inv) (h : c.PinsCounted) (hstep : c.step e = some c') : c'.PinsCounted := by
  cases e with
  | begin needs =>
    obtain rfl : c.begin needs = c' := by simpa [Config.step] using hstep
    exact pins_begin h needs
  | step w a =>
    simp only [Config.step] at hstep
    cases hr : c.requests w with
    | none => simp [hr] at hstep
    | some r =>
      simp only [hr] at hstep
      cases hreq : r.step w a c.store with
      | none => simp [hreq] at hstep
      | some q =>
        obtain ⟨r', st'⟩ := q
        simp only [hreq, Option.some.injEq] at hstep
        subst hstep
        exact pins_of_turn hi h hr (step_moves hreq)
  | evict keys =>
    obtain rfl : _ = c' := by simpa [Config.step] using hstep
    intro k
    have hnext : (c.store.evict keys).2.nextWorker = c.store.nextWorker := by rw [evict_eq]
    simp only [Config.pinned, hnext, evict_pins]
    exact h k
  | judge keys held =>
    obtain rfl : _ = c' := by simpa [Config.step] using hstep
    exact h
  | reclaim keys =>
    simp only [Config.step] at hstep
    split at hstep
    · obtain rfl : _ = c' := by simpa using hstep
      intro k
      have hnext : (c.store.evict keys).2.nextWorker = c.store.nextWorker := by rw [evict_eq]
      simp only [Config.pinned, hnext, evict_pins]
      exact h k
    · simp at hstep
  | hold keys =>
    obtain rfl : _ = c' := by simpa [Config.step] using hstep
    intro k
    have hk := h k
    simp only [Config.pinned, Config.pinnedBy, List.map_cons, List.sum_cons, hold_pins] at hk ⊢
    have hnext : (c.store.hold keys).nextWorker = c.store.nextWorker := rfl
    rw [hnext]
    omega
  | drop keys =>
    simp only [Config.step] at hstep
    split at hstep
    · rename_i hmem
      obtain rfl : _ = c' := by simpa using hstep
      intro k
      have hk := h k
      have hsum := sum_count_erase hmem k
      simp only [Config.pinned, Config.pinnedBy, dropPins_pins] at hk ⊢
      have hnext : (c.store.dropPins keys).nextWorker = c.store.nextWorker := rfl
      rw [hnext]
      omega
    · simp at hstep
  | tombstone keys =>
    obtain rfl : _ = c' := by simpa [Config.step] using hstep
    intro k
    have hpins : ((c.store.tombstone keys).registry k).pins = (c.store.registry k).pins :=
      onKeys_preserves (f := Entry.invalidate) (g := Entry.pins) (fun _ => rfl) k _ _
    have hk := h k
    simp only [Config.pinned, Config.pinnedBy, hpins] at hk ⊢
    exact hk
  | seed key value bytes =>
    simp only [Config.step] at hstep
    cases hseed : c.store.seed key value bytes with
    | none =>
      obtain rfl : c = c' := by simpa [hseed] using hstep
      exact h
    | some st =>
      obtain rfl : _ = c' := by simpa [hseed] using hstep
      simp only [Store.seed] at hseed
      split at hseed
      · obtain rfl : _ = st := by simpa using hseed
        intro k
        have hk := h k
        simp only [Config.pinned, Config.pinnedBy] at hk ⊢
        by_cases hkey : k = key
        · subst hkey
          simpa using hk
        · simpa [Function.update_of_ne hkey] using hk
      · simp at hseed

/-- **A key a request in progress needs is pinned.** -/
theorem Config.PinsCounted.pos {c : Config K V Req} (hi : c.Inv) (h : c.PinsCounted) {w : ℕ}
    {r : Request K V Req} (hr : c.requests w = some r) (hlive : ∀ out, r.pc ≠ .done out) {k : K}
    (hk : k ∈ r.keys) : 0 < (c.store.registry k).pins := by
  have hw : w < c.store.nextWorker := by
    by_contra hle
    rw [hi.fresh w (by omega)] at hr
    cases hr
  have hone : 0 < c.pinnedBy k w := by
    have hcount : 0 < r.keys.count k := List.count_pos_iff.mpr hk
    simpa [Config.pinnedBy, hr, Request.pinned_of_live hlive] using hcount
  have hle : c.pinnedBy k w ≤ ∑ v ∈ range c.store.nextWorker, c.pinnedBy k v :=
    single_le_sum (fun _ _ => Nat.zero_le _) (mem_range.mpr hw)
  have hall := h k
  simp only [Config.pinned] at hall
  omega

end AlSem.Resident
