/-
# Whose cancel flag is whose

A call has a cancel flag of its own, or, as a part of a composite, the one that is registered for the composite's
id.  While no id comes in that is in flight, that one is the composite's; and since a composite has one part out at
most, no two calls that the workers are not done with share a flag, however the threads are interleaved
(`flags_apart`): with `cancel_reaches`, a cancel stops the call of its id and no other.  Of two calls of one id the
second takes over the id: a part of the first then has the flag of the second.
-/
import AlSem.Mcp.PoolFlight

namespace AlSem.Mcp

variable {κ ι : Type}

/-! ## 1. Owners of flags -/

/-- The flags of the calls that are no parts. -/
def loneFlags (calls : List (Call ι)) : List ℕ := (calls.filter fun c => c.part.isNone).map Call.cancel

/-- The flags of the composites. -/
def flagsOf (composites : List (Composite ι)) : List ℕ := composites.map Composite.cancel

/-- The flags that are owned. -/
def Pool.owned (s : Pool κ ι) : List ℕ :=
  (s.keys.flatMap fun k => loneFlags (s.workers k).outstanding) ++ flagsOf s.composites

/-- **Each flag has one owner**, and a part has its composite's. -/
structure Pool.Apart (s : Pool κ ι) : Prop where
  nodup : s.owned.Nodup
  below : ∀ a ∈ s.owned, a < s.flags.length
  parts : ∀ k, ∀ c ∈ (s.workers k).outstanding, ∀ i, c.part = some i → (flagsOf s.composites)[i]? = some c.cancel

theorem flagsOf_modify {composites : List (Composite ι)} {f : Composite ι → Composite ι}
    (hf : ∀ c, (f c).cancel = c.cancel) (i : ℕ) : flagsOf (composites.modify i f) = flagsOf composites := by
  by_cases hi : i < composites.length
  · obtain ⟨l₁, c, l₂, rfl, -, hmodify⟩ := List.exists_of_modify f hi
    rw [hmodify]
    simp [flagsOf, hf]
  · rw [List.modify_eq_self (Nat.le_of_not_lt hi)]

theorem flagsOf_sentPart (s : Pool κ ι) (part : Option ℕ) (waiting : Bool) :
    flagsOf (s.sentPart part waiting) = flagsOf s.composites := by
  cases part with
  | none => rfl
  | some i => exact @flagsOf_modify _ _ (fun c => { c with waiting := waiting }) (fun _ => rfl) i

theorem loneFlags_sublist {calls calls' : List (Call ι)} (h : calls'.Sublist calls) :
    (loneFlags calls').Sublist (loneFlags calls) := (h.filter _).map _

/-! ## 2. What keeps them apart -/

/-- The owned flags, but for those of one worker's calls. -/
theorem Pool.owned_split [DecidableEq κ] {s : Pool κ ι} {key : κ} (hkey : key ∈ s.keys) (hnodup : s.keys.Nodup) :
    ∃ rest, s.owned.Perm (loneFlags (s.workers key).outstanding ++ (rest ++ flagsOf s.composites)) ∧
      ∀ (s' : Pool κ ι) (w : Worker ι), s'.keys = s.keys → s'.workers = Function.update s.workers key w →
        s'.owned.Perm (loneFlags w.outstanding ++ (rest ++ flagsOf s'.composites)) := by
  obtain ⟨rest, hrest, hupdate⟩ := flatMap_update (fun w : Worker ι => loneFlags w.outstanding) hkey hnodup s.workers
  refine ⟨rest, ?_, fun s' w hkeys hworkers => ?_⟩
  · rw [← List.append_assoc]
    exact hrest.append_right _
  · rw [← List.append_assoc, owned, hkeys, hworkers]
    exact (hupdate w).append_right _

namespace Pool.Apart

variable {s s' : Pool κ ι} {maxChildren : ℕ}

/-- No call comes or goes. -/
theorem same (h : s.Apart) (hkeys : s'.keys = s.keys) (hworkers : s'.workers = s.workers)
    (hcomposites : flagsOf s'.composites = flagsOf s.composites) (hflags : s.flags.length ≤ s'.flags.length) :
    s'.Apart := by
  have howned : s'.owned = s.owned := by rw [owned, owned, hkeys, hworkers, hcomposites]
  refine ⟨howned ▸ h.nodup, fun a ha => Nat.lt_of_lt_of_le (h.below a (howned ▸ ha)) hflags, fun k c hc => ?_⟩
  rw [hcomposites]
  exact h.parts k c (hworkers ▸ hc)

variable [DecidableEq κ]

/-- One worker has fewer calls. -/
theorem fewer (h : s.Apart) (hs : s.Sound maxChildren) {key : κ} (hkey : key ∈ s.keys) {w : Worker ι}
    (hw : w.outstanding.Sublist (s.workers key).outstanding) (hkeys : s'.keys = s.keys)
    (hworkers : s'.workers = Function.update s.workers key w)
    (hcomposites : flagsOf s'.composites = flagsOf s.composites) (hflags : s'.flags = s.flags) : s'.Apart := by
  obtain ⟨rest, hrest, hupdate⟩ := owned_split hkey hs.nodup
  have hnew := hupdate s' w hkeys hworkers
  rw [hcomposites] at hnew
  have hsub : (loneFlags w.outstanding ++ (rest ++ flagsOf s.composites)).Sublist
      (loneFlags (s.workers key).outstanding ++ (rest ++ flagsOf s.composites)) :=
    (loneFlags_sublist hw).append_right _
  refine ⟨?_, fun a ha => ?_, fun k c hc => ?_⟩
  · exact hnew.nodup_iff.mpr (hsub.nodup (hrest.nodup_iff.mp h.nodup))
  · rw [hflags]
    exact h.below a (hrest.mem_iff.mpr (hsub.subset (hnew.mem_iff.mp ha)))
  · rw [hcomposites]
    rw [hworkers] at hc
    by_cases hk : k = key
    · rw [hk, Function.update_self] at hc
      exact h.parts key c (hw.subset hc)
    · rw [Function.update_of_ne hk] at hc
      exact h.parts k c hc

theorem quiet (h : s.Apart) (hs : s.Sound maxChildren) {key : κ} (hkey : key ∈ s.keys) {w : Worker ι}
    (hw : Quiet s.closing s.flags (s.workers key) w) : (s.setWorker key w).Apart :=
  h.fewer hs hkey (hw.outstanding ▸ List.Sublist.refl _) rfl rfl rfl rfl

end Pool.Apart

/-! ## 3. What a step keeps -/

section Threads

variable [DecidableEq κ] [DecidableEq ι] {maxChildren : ℕ} {s s' : Pool κ ι}

/-- **A worker's event.** -/
theorem Worked.apart {key : κ} (ha : s.Apart) (hs : s.Sound maxChildren) (hkey : key ∈ s.keys) (h : Worked s s' key) :
    s'.Apart := by
  cases h with
  | quiet w hw heq => exact heq ▸ ha.quiet hs hkey hw
  | dropped w c hw heq =>
    subst heq
    refine ha.fewer hs hkey ?_ rfl rfl (flagsOf_sentPart _ _ _) rfl
    rw [hw.outstanding]
    exact List.sublist_cons_self _ _
  | finished w c how hw _ heq =>
    subst heq
    refine ha.fewer hs hkey ?_ rfl rfl (flagsOf_sentPart _ _ _) rfl
    rw [hw.outstanding]
    exact List.sublist_cons_self _ _

omit [DecidableEq ι] in
/-- A worker that starts has no calls. -/
theorem Pool.Apart.use (h : s.Apart) (hs : s.Sound maxChildren) (key : κ) : (s.use key).Apart := by
  have hstart : ({ s with keys := if key ∈ s.keys then s.keys else s.keys ++ [key] } : Pool κ ι).owned = s.owned := by
    by_cases hkey : key ∈ s.keys
    · rw [if_pos hkey]
    · rw [if_neg hkey, Pool.owned]
      dsimp only
      rw [List.flatMap_append, List.flatMap_singleton, hs.fresh key hkey]
      exact congrArg (· ++ flagsOf s.composites) (List.append_nil _)
  have hout : ∀ k, ((s.use key).workers k).outstanding = (s.workers k).outstanding := by
    intro k
    by_cases hk : k = key
    · subst hk
      simp [Pool.use, Pool.setWorker, Worker.outstanding]
    · simp [Pool.use, Pool.setWorker, Function.update_of_ne hk]
  have howned : (s.use key).owned = s.owned := by
    rw [← hstart, Pool.owned, Pool.owned]
    refine congrArg (· ++ flagsOf s.composites) (congrArg List.flatten (List.map_congr_left fun k _ => ?_))
    exact congrArg loneFlags (hout k)
  refine ⟨howned ▸ h.nodup, fun a ha => h.below a (howned ▸ ha), fun k c hc => ?_⟩
  rw [hout k] at hc
  exact h.parts k c hc

/-- **A call that is queued** owns a new flag, or is a part whose composite is registered. -/
theorem Pool.Apart.queue (h : s.Apart) (hs : s.Sound maxChildren) {key : κ} (hkey : key ∈ s.keys) (id : ι)
    {part : Option ℕ}
    (hpart : ∀ i, part = some i → ∃ c, s.composites[i]? = some c ∧ s.registered c.id = some c.cancel) :
    (s.queue key id part).Apart := by
  unfold Pool.queue
  split
  · exact h.same rfl rfl rfl (Nat.le_refl _)
  · rename_i hdepth
    dsimp only
    obtain ⟨rest, hrest, hupdate⟩ := Pool.owned_split hkey hs.nodup
    generalize hshared : part.bind (fun i => (s.composites[i]?).bind fun c => s.registered c.id) = shared
    have hpushed := (Worker.push_sound (hs.sound key) ⟨id, shared.getD s.flags.length, part⟩
      (Nat.lt_of_not_le hdepth)).2
    -- the rest of the proof is about any pool with that worker
    have hkept : ∀ t : Pool κ ι, t.keys = s.keys →
        t.workers = Function.update s.workers key ((s.workers key).push ⟨id, shared.getD s.flags.length, part⟩) →
          t.composites = s.sentPart part true →
            t.flags = (if shared.isSome then s.flags else s.flags ++ [false]) → t.Apart := by
      intro t hkeys hworkers hcomposites hflags
      have hflagsOf : flagsOf t.composites = flagsOf s.composites := by
        rw [hcomposites, flagsOf_sentPart]
      have hnew := hupdate t _ hkeys hworkers
      rw [hflagsOf, hpushed] at hnew
      have hparts : ∀ k, ∀ c ∈ (t.workers k).outstanding, ∀ i, c.part = some i →
          (flagsOf t.composites)[i]? = some c.cancel := by
        intro k c hc i hi
        rw [hflagsOf]
        rw [hworkers] at hc
        by_cases hk : k = key
        · rw [hk, Function.update_self, hpushed] at hc
          rcases List.mem_append.mp hc with hc | hc
          · exact h.parts key c hc i hi
          · obtain rfl := List.mem_singleton.mp hc
            have hi : part = some i := hi
            obtain ⟨c, hc, hregistered⟩ := hpart i hi
            rw [hi, Option.bind_some, hc, Option.bind_some, hregistered] at hshared
            rw [← hshared, flagsOf, List.getElem?_map, hc]
            rfl
        · rw [Function.update_of_ne hk] at hc
          exact h.parts k c hc i hi
      cases part with
      | some i =>
        have hlone : loneFlags ((s.workers key).outstanding ++ [⟨id, shared.getD s.flags.length, some i⟩]) =
            loneFlags (s.workers key).outstanding := by simp [loneFlags, List.filter_append]
        rw [hlone] at hnew
        have hperm := hnew.trans hrest.symm
        refine ⟨hperm.nodup_iff.mpr h.nodup, fun a ha => ?_, hparts⟩
        have hbelow := h.below a (hperm.mem_iff.mp ha)
        rw [hflags]
        split
        · exact hbelow
        · rw [List.length_append]
          omega
      | none =>
        obtain rfl : none = shared := hshared
        have hlone : loneFlags ((s.workers key).outstanding ++ [⟨id, s.flags.length, none⟩]) =
            loneFlags (s.workers key).outstanding ++ [s.flags.length] := by simp [loneFlags, List.filter_append]
        rw [Option.getD_none, hlone, List.append_assoc] at hnew
        have hperm := (hnew.trans List.perm_middle).trans (hrest.symm.cons s.flags.length)
        refine ⟨hperm.nodup_iff.mpr (List.nodup_cons.mpr ⟨fun hmem => ?_, h.nodup⟩), fun a ha => ?_, hparts⟩
        · exact Nat.lt_irrefl _ (h.below _ hmem)
        · rw [hflags, Option.isSome_none, if_neg (by simp), List.length_append, List.length_singleton]
          rcases List.mem_cons.mp (hperm.mem_iff.mp ha) with rfl | hmem
          · omega
          · have := h.below a hmem
            omega
    apply hkept <;> rfl

/-- **A step keeps the flags apart.** -/
theorem Pool.Apart.step (h : s.Apart) (hs : s.Sound maxChildren) (hflight : s.Flight) {e : Pool.Event κ ι}
    (hstep : Pool.Stepped maxChildren e s s') : s'.Apart := by
  cases hstep with
  | still hkeys hworkers hcomposites _ _ _ hflags _ =>
    exact h.same hkeys hworkers (congrArg flagsOf hcomposites) (Nat.le_of_eq hflags.symm)
  | told key w hkey hw hs' => exact hs' ▸ h.quiet hs hkey hw
  | worked key hkey hw => exact hw.apart h hs hkey
  | queued t key id part now hfrom _ hpart _ hs' =>
    subst hs'
    have ht : t.Apart := by
      rcases hfrom with rfl | ⟨k, hk, rfl⟩
      · exact h
      · exact h.quiet hs hk (Worker.evict_quiet _ _ _)
    obtain ⟨hsound, hcomposites, -⟩ := hs.of_room hfrom
    have hcancels : t.cancels = s.cancels := by
      rcases hfrom with rfl | ⟨k, hk, rfl⟩ <;> rfl
    obtain ⟨huse, -, hmem⟩ := hsound.use key
    have hkept : ((t.use key).queue key id part).Apart := by
      refine (ht.use hsound key).queue huse hmem id fun i hi => ?_
      obtain ⟨-, c, hc, hopen⟩ := hpart i hi
      have hregistered := hflight.registered (List.mem_of_getElem? hc) hopen
      rw [Pool.registered, ← hcancels] at hregistered
      rw [← hcomposites] at hc
      exact ⟨c, hc, hregistered⟩
    exact hkept.same rfl rfl rfl (Nat.le_refl _)
  | began id _ hs' =>
    subst hs'
    have hflags : flagsOf (s.composites ++ [⟨id, s.flags.length, false, false⟩]) =
        flagsOf s.composites ++ [s.flags.length] := List.map_append
    have hperm : ((s.keys.flatMap fun k => loneFlags (s.workers k).outstanding) ++
        flagsOf (s.composites ++ [⟨id, s.flags.length, false, false⟩])).Perm (s.flags.length :: s.owned) := by
      rw [hflags, ← List.append_assoc]
      exact List.perm_append_singleton _ _
    refine ⟨hperm.nodup_iff.mpr (List.nodup_cons.mpr ⟨fun hmem => ?_, h.nodup⟩), fun a ha => ?_, fun k c hc i hi => ?_⟩
    · exact Nat.lt_irrefl _ (h.below _ hmem)
    · dsimp only
      rw [List.length_append, List.length_singleton]
      rcases List.mem_cons.mp (hperm.mem_iff.mp ha) with rfl | hmem
      · omega
      · have := h.below a hmem
        omega
    · have hold := h.parts k c hc i hi
      dsimp only
      rw [hflags, List.getElem?_append_left (List.getElem?_eq_some_iff.mp hold).1]
      exact hold
  | ended i c _ _ hs' =>
    subst hs'
    exact h.same rfl rfl (@flagsOf_modify _ _ (fun c => { c with ended := true }) (fun _ => rfl) i) (Nat.le_refl _)

theorem Pool.FreshPools.apart {rank : κ → ℕ} (h : Pool.FreshPools maxChildren rank s) : s.Apart := by
  have hall : s.Sound maxChildren ∧ s.Flight ∧ s.Apart :=
    @Machine.Steps.inv _ _ _ _ (fun s : Pool κ ι => s.Sound maxChildren ∧ s.Flight ∧ s.Apart)
      (fun _ _ _ hs hfresh hstep =>
        have hstepped := Pool.step_stepped hs.1 hstep
        ⟨hs.1.step hstepped, hs.2.1.step hs.1 hfresh hstepped, hs.2.2.step hs.1 hs.2.1 hstepped⟩) _ _ h
      ⟨Pool.new_sound maxChildren, ⟨.refl _, .refl _, List.nodup_nil⟩, List.nodup_nil,
        fun _ ha => absurd ha (by simp [Pool.owned, Pool.new, flagsOf]),
        fun _ _ hc => absurd hc (by simp [Pool.new, Worker.fresh, Worker.outstanding, Phase.calls, queued])⟩
  exact hall.2.2

/-! ## 4. Flags apart -/

omit [DecidableEq κ] [DecidableEq ι] in
/-- What a list has once at most, no two of its places have. -/
theorem pairwise_of_countP_le {α : Type} {p : α → Bool} {l : List α} (h : l.countP p ≤ 1) :
    l.Pairwise fun a b => p a = true → p b = true → False := by
  refine List.pairwise_filter.mp ?_
  rw [List.countP_eq_length_filter] at h
  cases hfilter : l.filter p with
  | nil => exact List.Pairwise.nil
  | cons a rest =>
    rw [hfilter, List.length_cons] at h
    have hrest : rest = [] := List.length_eq_zero_iff.mp (by omega)
    rw [hrest]
    exact List.pairwise_singleton _ _

/-- **No two calls share a flag**, in every run in which no id comes in that is in flight: those that the workers
are not done with have a flag each; a part has its composite's, and no other call has a composite's. -/
theorem flags_apart {rank : κ → ℕ} (h : Pool.FreshPools maxChildren rank s) :
    ((s.keys.flatMap fun k => (s.workers k).outstanding).map Call.cancel).Nodup ∧
      ∀ k, ∀ c ∈ (s.workers k).outstanding, c.cancel < s.flags.length ∧
        ∀ i, (s.composites[i]?).map Composite.cancel = some c.cancel ↔ c.part = some i := by
  have hs := h.pools.sound
  have hapart := h.apart
  obtain ⟨hlone, hflags, hdisjoint⟩ := List.nodup_append.mp hapart.nodup
  have hkey : ∀ k, ∀ c ∈ (s.workers k).outstanding, k ∈ s.keys := by
    intro k c hc
    by_contra hnot
    rw [hs.fresh k hnot] at hc
    simp [Worker.outstanding, Worker.fresh, Phase.calls, queued] at hc
  -- a call that is no part owns its flag
  have hown : ∀ k, ∀ c ∈ (s.workers k).outstanding, c.part = none →
      c.cancel ∈ s.keys.flatMap fun k => loneFlags (s.workers k).outstanding := by
    intro k c hc hpart
    refine List.mem_flatMap.mpr ⟨k, hkey k c hc, List.mem_map_of_mem (List.mem_filter.mpr ⟨hc, ?_⟩)⟩
    rw [hpart]
    rfl
  have hmine : ∀ k, ∀ c ∈ (s.workers k).outstanding, ∀ i,
      (flagsOf s.composites)[i]? = some c.cancel ↔ c.part = some i := by
    intro k c hc i
    refine ⟨fun hi => ?_, hapart.parts k c hc i⟩
    cases hpart : c.part with
    | none => exact absurd rfl (hdisjoint _ (hown k c hc hpart) _ (List.mem_of_getElem? hi))
    | some j =>
      have hj := hapart.parts k c hc j hpart
      rw [(List.getElem?_inj (List.getElem?_eq_some_iff.mp hj).1 hflags).mp (hj.trans hi.symm)]
  refine ⟨?_, fun k c hc => ⟨?_, fun i => ?_⟩⟩
  · rw [List.Nodup, List.pairwise_map, List.pairwise_iff_getElem]
    intro a b ha hb hab heq
    obtain ⟨k, -, hca⟩ := List.mem_flatMap.mp (List.getElem_mem ha)
    obtain ⟨k', -, hcb⟩ := List.mem_flatMap.mp (List.getElem_mem hb)
    cases hparta : (s.keys.flatMap fun k => (s.workers k).outstanding)[a].part with
    | some i =>
      -- both are parts of the composite, which has one out at most
      have hboth := (hmine k' _ hcb i).mp (heq ▸ (hmine k _ hca i).mpr hparta)
      have hone : s.partsOut i ≤ 1 := by
        rw [hs.parts i]
        exact Bool.toNat_le _
      exact List.pairwise_iff_getElem.mp (pairwise_of_countP_le hone) a b ha hb hab (decide_eq_true hparta)
        (decide_eq_true hboth)
    | none =>
      cases hpartb : (s.keys.flatMap fun k => (s.workers k).outstanding)[b].part with
      | some i =>
        have hboth := (hmine k _ hca i).mp (heq ▸ (hmine k' _ hcb i).mpr hpartb)
        rw [hparta] at hboth
        simp at hboth
      | none =>
        have hnodup : (loneFlags (s.keys.flatMap fun k => (s.workers k).outstanding)).Nodup := by
          rw [loneFlags, List.filter_flatMap, List.map_flatMap]
          exact hlone
        have hpairs := List.pairwise_filter.mp (List.pairwise_map.mp hnodup)
        have hne := List.pairwise_iff_getElem.mp hpairs a b ha hb hab
        exact hne (by rw [hparta]; rfl) (by rw [hpartb]; rfl) heq
  · refine hapart.below _ ?_
    cases hpart : c.part with
    | none => exact List.mem_append_left _ (hown k c hc hpart)
    | some i => exact List.mem_append_right _ (List.mem_of_getElem? (hapart.parts k c hc i hpart))
  · rw [← hmine k c hc i, flagsOf, List.getElem?_map]

theorem flags_apart_sample :
    ∃ s, samplePool 4 = some s ∧ s.flags = [false] ∧
      ((s.keys.flatMap fun k => (s.workers k).outstanding).map Call.cancel).Nodup :=
  have h : ∃ s, samplePool 4 = some s ∧ s.flags = [false] := ⟨_, rfl, rfl⟩
  h.elim fun s hs => ⟨s, hs.1, hs.2, (flags_apart (samplePool_fresh 4 hs.1)).1⟩

/-- A call that takes over the id of a composite: a part of the composite then shares its flag. -/
example : ∃ s, Machine.run (Pool.step 2 fun _ => 1) (fun _ _ => true) (Pool.new : Pool ℕ ℕ)
      [.compose 7, .submit 1 7 none, .part 0 6 0 none] = some s ∧
    (s.keys.flatMap fun k => (s.workers k).outstanding).map Call.cancel = [1, 1] :=
  ⟨_, rfl, rfl⟩

end Threads

end AlSem.Mcp
