/-
# What a request found satisfied stays satisfied

Pins keep an eviction away from a request's needs, but not another request's publication: a refill
replaces the value it read.  As long as every fill that replaces a value keeps what the replaced
value satisfied (`FillCx.Keeps`), each fill reads a snapshot satisfying every need of a lower phase
and the ready snapshot lacks nothing (`prepared_of_keeps`).  The det's fill does not always keep
it: three requests and one eviction end a request with `missing from the ready snapshot`
(`det_narrowed`).
-/
import AlSem.Resident.Pins

namespace AlSem.Resident

variable {K V Req : Type*} [DecidableEq K] [StoreKey K] [StoreValue V Req]

/-! ## 1. What a request has found satisfied -/

/-- `s` satisfies every need of a phase below `phase`. -/
def MetBelow (needs : List (K × Req)) (phase : ℕ) (s : Snapshot K V) : Prop :=
  ∀ n ∈ needs, StoreKey.phase n.1 < phase → s.satisfies n.1 n.2 = true

/-- **The fill keeps what it replaces**: whatever the existing value satisfied, the new one
does. -/
def FillCx.Keeps (cx : FillCx K V Req) (v : V) : Prop :=
  ∀ old, cx.existing = some old → ∀ req : Req, StoreValue.satisfies old req = true →
    StoreValue.satisfies v req = true

/-- **What a request relies on**: the current snapshot, and the one its fills read, satisfy the
lower phases; what it computed over a claimed key keeps what stands there. -/
def Request.Met (r : Request K V Req) (s : Snapshot K V) : Prop :=
  match r.pc with
  | .look phase | .load phase _ _ | .wait phase _ => MetBelow r.needs phase s
  | .fill phase _ _ read values _ =>
    MetBelow r.needs phase s ∧ MetBelow r.needs phase read ∧
      (∀ c ∈ r.claims, s.entries c.1 = read.entries c.1) ∧
      ∀ v ∈ values, ∀ old, read.get v.key = some old → ∀ req : Req,
        StoreValue.satisfies old req = true → StoreValue.satisfies v.value req = true
  | .ready => ∀ n ∈ r.needs, s.satisfies n.1 n.2 = true
  | .fail _ _ => True
  | .release out | .unpin out | .done out => ∀ k, out ≠ .error (.engine (.missing k))

/-- The keys `r` needs stand in `s'` as in `s`, or, where `r` holds no claim, satisfy as much. -/
def Request.Keeps (r : Request K V Req) (s s' : Snapshot K V) : Prop :=
  ∀ k ∈ r.keys, s'.entries k = s.entries k ∨
    (k ∉ r.claims.map Prod.fst ∧
      ∀ req : Req, s.satisfies k req = true → s'.satisfies k req = true)

omit [DecidableEq K] in
theorem MetBelow.of_keeps {r : Request K V Req} {s s' : Snapshot K V} (hk : r.Keeps s s')
    {phase : ℕ} (h : MetBelow r.needs phase s) : MetBelow r.needs phase s' := by
  intro n hn hlt
  have hs := h n hn hlt
  rcases hk n.1 (List.mem_map_of_mem hn) with heq | ⟨-, hmono⟩
  · unfold Snapshot.satisfies at hs ⊢
    rw [heq]
    exact hs
  · exact hmono n.2 hs

omit [DecidableEq K] in
/-- **The frame**: a section that keeps what `r` needs keeps what `r` relies on. -/
theorem Request.Met.of_keeps {r : Request K V Req} (hshaped : r.Shaped) {s s' : Snapshot K V}
    (h : r.Met s) (hk : (∀ out, r.pc ≠ .done out) → r.Keeps s s') : r.Met s' := by
  unfold Request.Met at h ⊢
  cases hpc : r.pc with
  | look phase =>
    rw [hpc] at h
    exact .of_keeps (hk (by simp [hpc])) h
  | load phase missing joined =>
    rw [hpc] at h
    exact .of_keeps (hk (by simp [hpc])) h
  | wait phase joined =>
    rw [hpc] at h
    exact .of_keeps (hk (by simp [hpc])) h
  | fill phase missing joined read values todo =>
    rw [hpc] at h
    obtain ⟨hnow, hread, hsame, hvalues⟩ := h
    have hkeep := hk (by simp [hpc])
    refine ⟨.of_keeps hkeep hnow, hread, fun c hc => ?_, hvalues⟩
    rcases hkeep c.1 (hshaped.1 c hc) with heq | ⟨hnot, -⟩
    · exact heq.trans (hsame c hc)
    · exact absurd (List.mem_map_of_mem hc) hnot
  | ready =>
    rw [hpc] at h
    intro n hn
    have hbelow : MetBelow r.needs (StoreKey.phase n.1 + 1) s := fun m hm _ => h m hm
    exact MetBelow.of_keeps (hk (by simp [hpc])) hbelow n hn (Nat.lt_succ_self _)
  | fail k why => trivial
  | release out => rw [hpc] at h; exact h
  | unpin out => rw [hpc] at h; exact h
  | done out => rw [hpc] at h; exact h

/-! ## 2. Publications and evictions -/

omit [StoreKey K] in
/-- **A publication of values that keep what they replace** takes nothing away. -/
theorem publish_satisfies {st : Store K V} {values : List (Filled K V)} {worker : ℕ}
    {discards : K → ℕ} {read : Snapshot K V}
    (hsame : ∀ v ∈ values, st.snapshot.entries v.key = read.entries v.key)
    (hkeep : ∀ v ∈ values, ∀ old, read.get v.key = some old → ∀ req : Req,
      StoreValue.satisfies old req = true → StoreValue.satisfies v.value req = true)
    (k : K) (req : Req) (h : st.snapshot.satisfies k req = true) :
    (st.publish values worker discards).2.2.snapshot.satisfies k req = true := by
  by_cases hk : k ∈ (kept st.registry values).map Prod.fst
  · obtain ⟨v, hv, rfl, -, he⟩ := publish_inserted st values worker discards hk
    obtain ⟨p, hp, hsat⟩ := (Option.any_eq_true _ _).mp h
    have hold : read.get v.key = some p.value := by
      rw [Snapshot.get, ← hsame v hv, hp]
      rfl
    rw [Snapshot.satisfies, he]
    exact hkeep v hv p.value hold req hsat
  · have hentry : (st.publish values worker discards).2.2.snapshot.entries k
        = st.snapshot.entries k := by
      rw [publish_eq]
      exact insertAll_of_notMem _ hk
    rw [Snapshot.satisfies, hentry]
    exact h

section Moves

variable {worker : ℕ} {a : Answers K V Req} {r r' : Request K V Req} {st st' : Store K V}

omit [DecidableEq K] [StoreValue V Req] in
theorem phase_le_lastPhase {needs : List (K × Req)} {n : K × Req} (hn : n ∈ needs) :
    StoreKey.phase n.1 ≤ lastPhase needs := by
  induction needs with
  | nil => simp at hn
  | cons m needs ih =>
    have hcons : lastPhase (m :: needs) = max (StoreKey.phase m.1) (lastPhase needs) := rfl
    rw [hcons]
    rcases List.mem_cons.mp hn with rfl | hrest
    · exact le_max_left _ _
    · exact le_trans (ih hrest) (le_max_right _ _)

omit [DecidableEq K] [StoreKey K] in
theorem lacking_eq_nil {s : Snapshot K V} {needs : List (K × Req)} :
    lacking s needs = [] ↔ ∀ n ∈ needs, s.satisfies n.1 n.2 = true := by
  simp [lacking]

omit [DecidableEq K] in
/-- A phase whose needs are all met is done. -/
theorem MetBelow.succ {needs : List (K × Req)} {phase : ℕ} {s : Snapshot K V}
    (h : MetBelow needs phase s) (hmet : lacking s (phaseNeeds needs phase) = []) :
    MetBelow needs (phase + 1) s := by
  intro n hn hlt
  rcases Nat.lt_succ_iff_lt_or_eq.mp hlt with hlt | heq
  · exact h n hn hlt
  · exact lacking_eq_nil.mp hmet n (List.mem_filter.mpr ⟨hn, by simpa using heq⟩)

/-- **A move keeps what its own request relies on**, where a fill keeps what it replaces. -/
theorem met_of_moves (hm : Moves worker a r st r' st') (hshaped : r.Shaped)
    (hmet : r.Met st.snapshot)
    (hkeeps : ∀ (cx : FillCx K V Req) v, r.fills a = some (cx, v) → cx.Keeps v) :
    r'.Met st'.snapshot := by
  unfold Request.Met at hmet
  cases hm with
  | phasesDone phase hpc hlast =>
    rw [hpc] at hmet
    exact fun n hn => hmet n hn (Nat.lt_of_le_of_lt (phase_le_lastPhase hn) hlast)
  | phaseMet phase hpc hlacks =>
    rw [hpc] at hmet
    exact hmet.succ hlacks
  | stopped stop hpc => exact fun k => by cases stop <;> simp [Stop.error]
  | claimed phase hpc c hc =>
    rw [hpc] at hmet
    unfold Request.Met
    dsimp only
    split <;> split_ifs at * <;> simp_all
  | loaded phase missing joined hpc =>
    rw [hpc] at hmet
    exact ⟨hmet, hmet, fun _ _ => rfl, by simp⟩
  | refused phase missing joined s values claim todo hpc e he =>
    exact fun k heq => he k (by simpa using heq)
  | unlisted phase missing joined s values claim todo hpc hclaim => exact fun k => by simp
  | fillFailed phase missing joined s values claim todo hpc why => trivial
  | filled phase missing joined s values claim todo hpc req v hv =>
    rw [hpc] at hmet
    obtain ⟨hnow, hread, hsame, hvalues⟩ := hmet
    refine ⟨hnow, hread, hsame, fun u hu old hold => ?_⟩
    rcases List.mem_append.mp hu with hu | hu
    · exact hvalues u hu old hold
    · obtain rfl := List.mem_singleton.mp hu
      exact hkeeps _ v hv old hold
  | published phase missing joined s values hpc =>
    have hclaims := hshaped.2
    rw [hpc] at hmet hclaims
    obtain ⟨hnow, -, hsame, hvalues⟩ := hmet
    have hsameV : ∀ v ∈ values, st.snapshot.entries v.key = s.entries v.key := by
      intro v hv
      refine hsame (v.key, v.generation) ?_
      rw [hclaims.1]
      exact List.mem_append_left _ (List.mem_map.mpr ⟨v, hv, rfl⟩)
    have hafter : MetBelow r.needs phase (st.publish values worker r.discards).2.2.snapshot :=
      fun n hn hlt => publish_satisfies hsameV hvalues n.1 n.2 (hnow n hn hlt)
    unfold Request.Met Request.publish
    dsimp only
    cases (st.publish values worker r.discards).1 with
    | none => exact hafter
    | some k => exact fun k' => by simp
  | failed k why hpc => exact fun k' => by simp
  | slept phase joined hpc =>
    rw [hpc] at hmet
    unfold Request.Met
    rw [hpc]
    exact hmet
  | woken phase joined hpc hfree =>
    rw [hpc] at hmet
    exact hmet
  | prepared hpc hlacks => exact fun k => by simp
  | missed hpc n hn =>
    rw [hpc] at hmet
    have hnil := lacking_eq_nil.mpr hmet
    rw [hnil] at hn
    simp at hn
  | released out hpc =>
    rw [hpc] at hmet
    exact hmet
  | unpinned out hpc =>
    rw [hpc] at hmet
    exact hmet

/-- **A move keeps what another request needs.**  Only a publication moves the snapshot, at keys
the mover alone claims. -/
theorem keeps_of_moves (hm : Moves worker a r st r' st') (hshaped : r.Shaped)
    (howns : Owns worker r st) (hmet : r.Met st.snapshot) {w : ℕ} (hw : w ≠ worker)
    {q : Request K V Req} (hq : Owns w q st) : q.Keeps st.snapshot st'.snapshot := by
  intro k _
  rcases hm.snapshot with hsame | ⟨phase, missing, joined, s, values, hpc, hst⟩
  · exact Or.inl (by rw [hsame])
  · have hclaims := hshaped.2
    unfold Request.Met at hmet
    rw [hpc] at hmet hclaims
    obtain ⟨-, -, hsame, hvalues⟩ := hmet
    have hclaimed : ∀ v ∈ values, (v.key, v.generation) ∈ r.claims := by
      intro v hv
      rw [hclaims.1]
      exact List.mem_append_left _ (List.mem_map.mpr ⟨v, hv, rfl⟩)
    subst hst
    by_cases hk : k ∈ (kept st.registry values).map Prod.fst
    · refine Or.inr ⟨fun hmem => ?_, fun req => publish_satisfies
        (fun v hv => hsame _ (hclaimed v hv)) hvalues k req⟩
      obtain ⟨v, hv, rfl, -, -⟩ := publish_inserted st values worker r.discards hk
      obtain ⟨c, hc, hck⟩ := List.mem_map.mp hmem
      have hmine := (howns.held v.key v.generation (hclaimed v hv)).1
      have htheirs := (hq.held c.1 c.2 hc).1
      rw [hck, hmine] at htheirs
      exact hw (by simpa using htheirs.symm)
    · refine Or.inl ?_
      rw [publish_eq]
      exact insertAll_of_notMem _ hk

end Moves

/-! ## 3. Every event keeps what the requests rely on -/

/-- **The runs in question**: no tombstone, no seed, and every fill keeps what it replaces. -/
def Config.KeepsFills (c : Config K V Req) : Event K V Req → Prop
  | .tombstone _ => False
  | .seed _ _ _ => False
  | .step w a => ∀ r cx v, c.requests w = some r → r.fills a = some (cx, v) → cx.Keeps v
  | _ => True

/-- Every request relies on what stands in the current snapshot. -/
def Config.AllMet (c : Config K V Req) : Prop :=
  ∀ w r, c.requests w = some r → r.Met c.store.snapshot

/-- A section that leaves the pinned keys alone keeps what every request relies on. -/
theorem allMet_of_pinned {c : Config K V Req} (hi : c.Inv) (hp : c.PinsCounted) (hm : c.AllMet)
    {s' : Snapshot K V} (hkeep : ∀ k, 0 < (c.store.registry k).pins →
      s'.entries k = c.store.snapshot.entries k) :
    ∀ w r, c.requests w = some r → r.Met s' :=
  fun w r hr => (hm w r hr).of_keeps (hi.shaped w r hr) fun hlive k hk =>
    Or.inl (hkeep k (hp.pos hi hr hlive hk))

theorem allMet_step {c c' : Config K V Req} {e : Event K V Req} (hi : c.Inv) (hp : c.PinsCounted)
    (hm : c.AllMet) (hok : c.KeepsFills e) (hstep : c.step e = some c') : c'.AllMet := by
  cases e with
  | begin needs =>
    obtain rfl : c.begin needs = c' := by simpa [Config.step] using hstep
    intro w r hr
    by_cases hw : w = c.store.nextWorker
    · subst hw
      rw [begin_requests_self] at hr
      obtain rfl := Option.some.inj hr
      exact fun n _ hlt => absurd hlt (Nat.not_lt_zero _)
    · rw [begin_requests_of_ne c needs hw] at hr
      exact hm w r hr
  | step w a =>
    simp only [Config.step] at hstep
    cases hr : c.requests w with
    | none => simp [hr] at hstep
    | some r =>
      simp only [hr] at hstep
      cases hreq : r.step w a c.store with
      | none => simp [hreq] at hstep
      | some q =>
        obtain ⟨r', st'⟩ := q
        simp only [hreq, Option.some.injEq] at hstep
        subst hstep
        have hmoves := step_moves hreq
        intro v p hv
        dsimp only at hv ⊢
        by_cases hvw : v = w
        · subst hvw
          rw [Function.update_self] at hv
          obtain rfl := Option.some.inj hv
          exact met_of_moves hmoves (hi.shaped v r hr) (hm v r hr) fun cx u => hok r cx u hr
        · rw [Function.update_of_ne hvw] at hv
          exact (hm v p hv).of_keeps (hi.shaped v p hv) fun _ =>
            keeps_of_moves hmoves (hi.shaped w r hr) (hi.owns w r hr) (hm w r hr) hvw
              (hi.owns v p hv)
  | evict keys =>
    obtain rfl : _ = c' := by simpa [Config.step] using hstep
    exact allMet_of_pinned hi hp hm fun k hk => evict_of_pinned c.store keys hk
  | judge keys held =>
    obtain rfl : _ = c' := by simpa [Config.step] using hstep
    exact hm
  | reclaim keys =>
    simp only [Config.step] at hstep
    split at hstep
    · obtain rfl : _ = c' := by simpa using hstep
      exact allMet_of_pinned hi hp hm fun k hk => evict_of_pinned c.store keys hk
    · simp at hstep
  | hold keys =>
    obtain rfl : _ = c' := by simpa [Config.step] using hstep
    exact hm
  | drop keys =>
    simp only [Config.step] at hstep
    split at hstep
    · obtain rfl : _ = c' := by simpa using hstep
      exact hm
    · simp at hstep
  | tombstone keys => exact hok.elim
  | seed key value bytes => exact hok.elim

/-! ## 4. A request computes over what it needs -/

/-- **A request computes over artifacts that meet its needs**: each fill reads a snapshot that
satisfies its request's lower phases, what an unfinished phase found satisfied still is, and no
call ends for want of a needed key. -/
structure Config.Prepared (c : Config K V Req) : Prop where
  reads : ∀ w r phase missing joined read values todo, c.requests w = some r →
    r.pc = .fill phase missing joined read values todo → MetBelow r.needs phase read
  stands : ∀ w r phase, c.requests w = some r →
    (r.pc = .look phase ∨ ∃ joined, r.pc = .wait phase joined) →
    MetBelow r.needs phase c.store.snapshot
  present : ∀ w r k, c.requests w = some r → r.pc ≠ .done (.error (.engine (.missing k)))

omit [DecidableEq K] in
theorem prepared_of_allMet {c : Config K V Req} (hm : c.AllMet) : c.Prepared := by
  refine ⟨fun w r phase missing joined read values todo hr hpc => ?_, fun w r phase hr hpc => ?_,
    fun w r k hr hpc => ?_⟩
  · have h := hm w r hr
    unfold Request.Met at h
    rw [hpc] at h
    exact h.2.1
  · have h := hm w r hr
    unfold Request.Met at h
    rcases hpc with hpc | ⟨joined, hpc⟩ <;> (rw [hpc] at h; exact h)
  · have h := hm w r hr
    unfold Request.Met at h
    rw [hpc] at h
    exact h k rfl

theorem prepared_of_keeps {c : Config K V Req}
    (hrun : Machine.Steps Config.step Config.KeepsFills Config.init c) : c.Prepared := by
  have hall : c.Inv ∧ c.PinsCounted ∧ c.AllMet := by
    refine Machine.Steps.inv (I := fun c => c.Inv ∧ c.PinsCounted ∧ c.AllMet)
      (fun s e s' ⟨hi, hp, hm⟩ hok hs => ⟨inv_step hi hs, pins_step hi hp hs,
        allMet_step hi hp hm hok hs⟩) hrun ⟨inv_init, fun k => ?_, fun w r hr => ?_⟩
    · simp [Config.pinned, Config.pinnedBy, Config.init]
    · simp [Config.init] at hr
  exact prepared_of_allMet hall.2.2

/-! ## 5. The det's refill -/

/-- **When a det's refill keeps what it replaces**: the snapshot it reads holds what the wider
mask needs, or the request's own mask covers the old one. -/
theorem fillDet_keeps_iff {cx : FillCx ArtifactKey Artifact Mask} {d : DetectorArtifacts}
    {v : Artifact} (hold : cx.existing = some ⟨.det d⟩) (hv : (fillDet cx).caught = .ok v) :
    cx.Keeps v ↔
      readable cx.snapshot (d.demanded ||| cx.req) = true ∨ d.demanded &&& ~~~cx.req = 0 := by
  -- A det keeps another when its mask covers the other's.
  have hcovers : cx.Keeps v ↔ d.demanded &&& ~~~(detMask cx) = 0 := by
    rw [fillDet_ok hv]
    constructor
    · intro hkeeps
      simpa [StoreValue.satisfies, Artifact.satisfies] using
        hkeeps ⟨.det d⟩ hold d.demanded (by simp [StoreValue.satisfies, Artifact.satisfies])
    · intro hmask old hold' req hreq
      obtain rfl : (⟨.det d⟩ : Artifact) = old := Option.some.inj (hold.symm.trans hold')
      have hin : req &&& ~~~d.demanded = 0 := by
        simpa [StoreValue.satisfies, Artifact.satisfies] using hreq
      have hout := within_trans hin hmask
      simpa [StoreValue.satisfies, Artifact.satisfies] using hout
  have hmask : detMask cx =
      if readable cx.snapshot (d.demanded ||| cx.req) then d.demanded ||| cx.req else cx.req := by
    simp only [detMask, wider, hold, Option.bind_some, Option.filter]
    split_ifs <;> rfl
  rw [hcovers, hmask]
  by_cases hread : readable cx.snapshot (d.demanded ||| cx.req) = true
  · rw [if_pos hread]
    exact iff_of_true (within_or_left _ _) (Or.inl hread)
  · rw [if_neg hread]
    exact ⟨Or.inr, fun h => h.resolve_left hread⟩

/-- **Where every refill keeps what it replaces, a request computes over what it needs**: in every
run of requests, evictions and guards whose fills do.  A det's refill does exactly when it can read
the wider mask's substrates or is asked for all the old mask. -/
theorem prepared_where_kept :
    (∀ c : Config K V Req,
      Machine.Steps Config.step Config.KeepsFills Config.init c → c.Prepared) ∧
    ∀ (cx : FillCx ArtifactKey Artifact Mask) (d : DetectorArtifacts) (v : Artifact),
      cx.existing = some ⟨.det d⟩ → (fillDet cx).caught = .ok v →
      (cx.Keeps v ↔
        readable cx.snapshot (d.demanded ||| cx.req) = true ∨ d.demanded &&& ~~~cx.req = 0) :=
  ⟨fun _ hrun => prepared_of_keeps hrun, fun _ _ _ hold hv => fillDet_keeps_iff hold hv⟩

/-- An artifact that satisfies every mask `old` does. -/
def Artifact.covers (a old : Artifact) : Bool :=
  match old.value, a.value with
  | .det d, .det d' => d.demanded &&& ~~~d'.demanded == 0
  | _, .det _ => false
  | _, _ => true

theorem covers_satisfies {a old : Artifact} (h : a.covers old = true) {req : Mask}
    (hold : old.satisfies req = true) : a.satisfies req = true := by
  unfold Artifact.covers at h
  unfold Artifact.satisfies at hold ⊢
  cases ha : a.value with
  | det d' =>
    cases ho : old.value with
    | det d =>
      simp only [ha, ho, beq_iff_eq] at h hold ⊢
      exact within_trans hold h
    | _ => simp [ha, ho] at h
  | _ => simp

def Config.keepsFills (c : Config ArtifactKey Artifact Mask) :
    Event ArtifactKey Artifact Mask → Bool
  | .tombstone _ => false
  | .seed _ _ _ => false
  | .step w a =>
    match c.requests w with
    | none => true
    | some r => (r.fills a).all fun f => f.1.existing.all fun old => f.2.covers old
  | _ => true

theorem keepsFills_of_keepsFills {c : Config ArtifactKey Artifact Mask}
    {e : Event ArtifactKey Artifact Mask} (h : c.keepsFills e = true) : c.KeepsFills e := by
  cases e with
  | step w a =>
    intro r cx v hr hf old hold req hreq
    have hcov : v.covers old = true := by simpa [Config.keepsFills, hr, hf, hold] using h
    exact covers_satisfies hcov hreq
  | tombstone keys => simp [Config.keepsFills] at h
  | seed key value bytes => simp [Config.keepsFills] at h
  | _ => trivial

/-- A det refilled at a wider mask while the fold is published. -/
def widening : List (Event ArtifactKey Artifact Mask) :=
  .begin ((.fold, 0) :: runNeeds ["d1"] substrate.SUMMARIES) :: turns 1 21 ++
  .begin (runNeeds ["d2"] substrate.CLOSED_WORLD_TEMP) :: turns 2 5

theorem widening_prepared : ∃ c : Config ArtifactKey Artifact Mask,
    Machine.Steps Config.step Config.KeepsFills Config.init c ∧
      ((c.requests 2).isSome ∧ c.store.snapshot.satisfies ArtifactKey.det
        (substrate.SUMMARIES ||| substrate.CLOSED_WORLD_TEMP)) ∧ c.Prepared := by
  have hrun : (Machine.run Config.step Config.keepsFills Config.init widening).any
      (fun c => (c.requests 2).isSome && c.store.snapshot.satisfies ArtifactKey.det
        (substrate.SUMMARIES ||| substrate.CLOSED_WORLD_TEMP)) = true := by decide +kernel
  obtain ⟨c, hc, hdet⟩ := (Option.any_eq_true _ _).mp hrun
  have hsteps := Machine.steps_of_run (fun _ _ => keepsFills_of_keepsFills) widening _ c hc
  exact ⟨c, hsteps, by simpa using hdet, prepared_where_kept.1 c hsteps⟩

/-- The runs with distinct keys per request in which each fill satisfies what it was asked for;
no tombstone, no seed. -/
def Config.Promised (c : Config K V Req) : Event K V Req → Prop
  | .tombstone _ => False
  | .seed _ _ _ => False
  | .begin needs => (needs.map Prod.fst).Nodup
  | .step w a => ∀ r cx v, c.requests w = some r → r.fills a = some (cx, v) →
      StoreValue.satisfies v cx.req = true
  | _ => True

def Config.promised (c : Config K V Req) : Event K V Req → Bool
  | .tombstone _ => false
  | .seed _ _ _ => false
  | .begin needs => decide (needs.map Prod.fst).Nodup
  | .step w a =>
    match c.requests w with
    | none => true
    | some r => (r.fills a).all fun f => StoreValue.satisfies f.2 f.1.req
  | _ => true

omit [StoreKey K] in
theorem promised_of_promised {c : Config K V Req} {e : Event K V Req}
    (h : c.promised e = true) : c.Promised e := by
  cases e with
  | step w a =>
    intro r cx v hr hf
    simpa [Config.promised, hr, hf] using h
  | begin needs => simpa [Config.promised, Config.Promised] using h
  | tombstone keys => simp [Config.promised] at h
  | seed key value bytes => simp [Config.promised] at h
  | _ => trivial

/-- Worker `w` ended for want of `k`. -/
def Config.endsMissing (c : Config K V Req) (w : ℕ) (k : K) : Bool :=
  match c.requests w with
  | some r =>
    match r.pc with
    | .done (.error e) => decide (e = .engine (.missing k))
    | _ => false
  | none => false

/-- The first request fills the fold, a det with summaries and its run; the fold is evicted.  The
second claims the fold; before it is published the third refills the det without it, for a mask of
its own; the second finds the old det, and the third publishes the narrower one. -/
def narrowing : List (Event ArtifactKey Artifact Mask) :=
  .begin ((.fold, 0) :: runNeeds ["d1"] substrate.SUMMARIES) :: turns 1 21 ++
  .evict [.fold] :: .begin ((.fold, 0) :: runNeeds ["d2"] substrate.SUMMARIES) :: turns 2 1 ++
  .begin (runNeeds ["d3"] substrate.CLOSED_WORLD_TEMP) :: turns 3 3 ++
  turns 2 6 ++ turns 3 2 ++ turns 2 9

theorem narrowing_not_prepared : ¬ ∀ c : Config ArtifactKey Artifact Mask,
    Machine.Steps Config.step Config.Promised Config.init c → c.Prepared := by
  intro hall
  have hrun : (Machine.run Config.step Config.promised Config.init narrowing).any
      (fun c => c.endsMissing 2 .det) = true := by decide +kernel
  obtain ⟨c, hc, hend⟩ := (Option.any_eq_true _ _).mp hrun
  have hprep := hall c (Machine.steps_of_run (fun _ _ => promised_of_promised) narrowing _ c hc)
  unfold Config.endsMissing at hend
  split at hend
  · rename_i r hr
    split at hend
    · rename_i e hpc
      exact hprep.present 2 r .det hr (hpc.trans (by rw [of_decide_eq_true hend]))
    · simp at hend
  · simp at hend

end AlSem.Resident
