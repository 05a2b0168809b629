/-
# What the pool has in flight

An id is in flight, with the cancel flag of its own call or composite, exactly while that is not done with
(`in_flight_exact`, `cancel_reaches`).  Both are about runs in which no id comes in that is in flight already,
which the server sees to before it hands a request on.

A call that is dropped because the pool is closing stays in flight: it is not answered.
-/
import AlSem.Mcp.PoolInvariant
import Mathlib.Data.List.Perm.Subperm

namespace AlSem.Mcp

variable {κ ι : Type}

/-! ## 1. What the workers hold -/

/-- The calls that were dropped. -/
def droppedOf (ended : List (Call ι × Ending)) : List (Call ι) :=
  (ended.filter fun e => decide (e.2 = .dropped)).map Prod.fst

def Call.entry (c : Call ι) : ι × ℕ := (c.id, c.cancel)

/-- The ids of a worker's calls, with their flags; the dropped ones stay. -/
def Worker.known (w : Worker ι) : List (ι × ℕ) := (w.outstanding ++ droppedOf w.ended).map Call.entry

/-- The composites that have not ended. -/
def openOf (composites : List (Composite ι)) : List (ι × ℕ) :=
  (composites.filter fun c => !c.ended).map fun c => (c.id, c.cancel)

def Pool.known (s : Pool κ ι) : List (ι × ℕ) :=
  (s.keys.flatMap fun k => (s.workers k).known) ++ openOf s.composites

/-- **What is in flight is what is not done with**, each id once. -/
structure InFlight (cancels : List (ι × ℕ)) (inFlight : List ι) (known : List (ι × ℕ)) : Prop where
  entries : cancels.Perm known
  ids : inFlight.Perm (cancels.map Prod.fst)
  nodup : inFlight.Nodup

def Pool.Flight (s : Pool κ ι) : Prop := InFlight s.cancels s.inFlight s.known

theorem InFlight.perm {cancels : List (ι × ℕ)} {inFlight : List ι} {known known' : List (ι × ℕ)}
    (h : InFlight cancels inFlight known) (hperm : known.Perm known') : InFlight cancels inFlight known' :=
  ⟨h.entries.trans hperm, h.ids, h.nodup⟩

theorem droppedOf_append (ended ended' : List (Call ι × Ending)) :
    droppedOf (ended ++ ended') = droppedOf ended ++ droppedOf ended' := by
  rw [droppedOf, List.filter_append, List.map_append]
  rfl

theorem Quiet.known {closing : Bool} {flags : List Bool} {w w' : Worker ι} (h : Quiet closing flags w w') :
    w'.known = w.known := by
  rw [Worker.known, Worker.known, h.outstanding, h.ended]

/-- A dropped call is still known. -/
theorem Done.known_dropped {closing : Bool} {flags : List Bool} {w w' : Worker ι} {c : Call ι}
    (h : Done closing flags w w' c .dropped) : w'.known.Perm w.known := by
  have hdropped : droppedOf (w.ended ++ [(c, .dropped)]) = droppedOf w.ended ++ [c] := droppedOf_append _ _
  rw [Worker.known, Worker.known, h.outstanding, h.ended, hdropped, ← List.append_assoc]
  exact (List.perm_append_singleton c _).map _

/-- A call that is done with is known no more. -/
theorem Done.known_finished {closing : Bool} {flags : List Bool} {w w' : Worker ι} {c : Call ι} {how : Ending}
    (h : Done closing flags w w' c how) (hhow : how ≠ .dropped) : w.known = c.entry :: w'.known := by
  have hdropped : droppedOf (w.ended ++ [(c, how)]) = droppedOf w.ended := by
    rw [droppedOf_append]
    exact (congrArg (droppedOf w.ended ++ ·) (by simp [droppedOf, hhow])).trans (List.append_nil _)
  rw [Worker.known, Worker.known, h.outstanding, h.ended, hdropped]
  rfl

/-- What is known, but for one worker's calls. -/
theorem Pool.known_split [DecidableEq κ] {s : Pool κ ι} {key : κ} (hkey : key ∈ s.keys) (hnodup : s.keys.Nodup) :
    ∃ rest, s.known.Perm ((s.workers key).known ++ (rest ++ openOf s.composites)) ∧
      ∀ (s' : Pool κ ι) (w : Worker ι), s'.keys = s.keys → s'.workers = Function.update s.workers key w →
        s'.known.Perm (w.known ++ (rest ++ openOf s'.composites)) := by
  obtain ⟨rest, hrest, hupdate⟩ := flatMap_update Worker.known hkey hnodup s.workers
  refine ⟨rest, ?_, fun s' w hkeys hworkers => ?_⟩
  · rw [← List.append_assoc]
    exact hrest.append_right _
  · rw [← List.append_assoc, known, hkeys, hworkers]
    exact (hupdate w).append_right _

/-- Whether a composite has a part out does not say whether it has ended. -/
theorem openOf_modify {composites : List (Composite ι)} {f : Composite ι → Composite ι}
    (hf : ∀ c, (f c).id = c.id ∧ (f c).cancel = c.cancel ∧ (f c).ended = c.ended) (i : ℕ) :
    openOf (composites.modify i f) = openOf composites := by
  by_cases hi : i < composites.length
  · obtain ⟨l₁, c, l₂, rfl, -, hmodify⟩ := List.exists_of_modify f hi
    obtain ⟨hid, hcancel, hended⟩ := hf c
    rw [hmodify]
    simp [openOf, List.filter_append, List.filter_cons, hended]
    cases c.ended <;> simp [hid, hcancel]
  · rw [List.modify_eq_self (Nat.le_of_not_lt hi)]

theorem openOf_sentPart (s : Pool κ ι) (part : Option ℕ) (waiting : Bool) :
    openOf (s.sentPart part waiting) = openOf s.composites := by
  cases part with
  | none => rfl
  | some i => exact @openOf_modify _ _ (fun c => { c with waiting := waiting }) (fun _ => ⟨rfl, rfl, rfl⟩) i

/-- A composite that ends. -/
theorem openOf_ended {composites : List (Composite ι)} {i : ℕ} {c : Composite ι} (hc : composites[i]? = some c)
    (hopen : c.ended = false) :
    (openOf composites).Perm
      ((c.id, c.cancel) :: openOf (composites.modify i fun c => { c with ended := true })) := by
  obtain ⟨hi, hget⟩ := List.getElem?_eq_some_iff.mp hc
  obtain ⟨l₁, a, l₂, rfl, hlength, hmodify⟩ := List.exists_of_modify (fun c => { c with ended := true }) hi
  have ha : a = c := by
    rw [← hget]
    simp [← hlength]
  subst ha
  rw [hmodify]
  simp only [openOf, List.filter_append, List.filter_cons, hopen, Bool.not_false, Bool.not_true, if_true,
    Bool.false_eq_true, if_false, List.map_append, List.map_cons]
  exact List.perm_middle

/-! ## 2. Ids that come and go -/

section Threads

variable [DecidableEq ι]

omit [DecidableEq ι] in
/-- The flag of an id. -/
theorem InFlight.eq_of_mem {cancels : List (ι × ℕ)} {inFlight : List ι} {known : List (ι × ℕ)}
    (h : InFlight cancels inFlight known) {a b : ι × ℕ} (ha : a ∈ cancels) (hb : b ∈ cancels) (hid : a.1 = b.1) :
    a = b :=
  List.inj_on_of_nodup_map (h.ids.nodup_iff.mp h.nodup) ha hb hid

/-- **An id that comes in.** -/
theorem InFlight.register {s : Pool κ ι} {known : List (ι × ℕ)} (h : InFlight s.cancels s.inFlight known) {id : ι}
    (hid : id ∉ s.inFlight) (cancel : ℕ) :
    InFlight (s.register id cancel).cancels (s.register id cancel).inFlight ((id, cancel) :: known) := by
  have hfilter : (s.cancels.filter fun c => decide (c.1 ≠ id)) = s.cancels := by
    refine List.filter_eq_self.mpr fun c hc => decide_eq_true fun heq => hid ?_
    exact h.ids.mem_iff.mpr (heq ▸ List.mem_map_of_mem hc)
  unfold Pool.register
  dsimp only
  rw [hfilter, if_neg hid]
  refine ⟨h.entries.cons _, (List.perm_append_singleton id _).trans (h.ids.cons id), ?_⟩
  exact (List.perm_append_singleton id _).nodup_iff.mpr (List.nodup_cons.mpr ⟨hid, h.nodup⟩)

/-- **An id that goes.** -/
theorem InFlight.forget {s : Pool κ ι} {known : List (ι × ℕ)} {id : ι} {cancel : ℕ}
    (h : InFlight s.cancels s.inFlight ((id, cancel) :: known)) :
    InFlight (s.forget id).cancels (s.forget id).inFlight known := by
  have hids : s.inFlight.Perm (id :: known.map Prod.fst) := h.ids.trans (h.entries.map _)
  have hnodup := List.nodup_cons.mp (hids.nodup_iff.mp h.nodup)
  have hfilter : ((id, cancel) :: known).filter (fun c => decide (c.1 ≠ id)) = known := by
    rw [List.filter_cons_of_neg (by simp)]
    refine List.filter_eq_self.mpr fun c hc => decide_eq_true fun heq => hnodup.1 ?_
    exact heq ▸ List.mem_map_of_mem hc
  have hcancels : (s.forget id).cancels.Perm known := by
    rw [← hfilter]
    exact h.entries.filter _
  have herase : (s.inFlight.erase id).Perm (known.map Prod.fst) := by
    have := hids.erase id
    rwa [List.erase_cons_head] at this
  exact ⟨hcancels, herase.trans (hcancels.map _).symm, h.nodup.erase id⟩

/-! ## 3. What a step keeps -/

variable [DecidableEq κ] {maxChildren : ℕ} {s s' : Pool κ ι}

omit [DecidableEq ι] [DecidableEq κ] in
theorem Pool.Flight.same (h : s.Flight) (hcancels : s'.cancels = s.cancels) (hinFlight : s'.inFlight = s.inFlight)
    (hknown : s.known.Perm s'.known) : s'.Flight := by
  rw [Pool.Flight, hcancels, hinFlight]
  exact InFlight.perm h hknown

omit [DecidableEq ι] in
theorem Pool.Flight.quiet (h : s.Flight) (hs : s.Sound maxChildren) {key : κ} {w : Worker ι} (hkey : key ∈ s.keys)
    (hw : w.known = (s.workers key).known) : (s.setWorker key w).Flight := by
  obtain ⟨rest, hrest, hupdate⟩ := Pool.known_split hkey hs.nodup
  refine h.same rfl rfl (hrest.trans ?_)
  rw [← hw]
  exact (hupdate (s.setWorker key w) w rfl rfl).symm

/-- **A worker's event.** -/
theorem Worked.flight {key : κ} (hf : s.Flight) (hs : s.Sound maxChildren) (hkey : key ∈ s.keys) (h : Worked s s' key) :
    s'.Flight := by
  obtain ⟨rest, hrest, hupdate⟩ := Pool.known_split hkey hs.nodup
  cases h with
  | quiet w hw heq => exact heq ▸ hf.quiet hs hkey hw.known
  | dropped w c hw heq =>
    subst heq
    refine hf.same rfl rfl (hrest.trans ?_)
    have hknown := hupdate { s.setWorker key w with composites := s.sentPart c.part false } w rfl rfl
    dsimp only at hknown
    rw [openOf_sentPart] at hknown
    exact (hw.known_dropped.symm.append_right _).trans hknown.symm
  | finished w c how hw hhow heq =>
    subst heq
    have hknown := hupdate { s.setWorker key w with composites := s.sentPart c.part false } w rfl rfl
    dsimp only at hknown
    rw [openOf_sentPart] at hknown
    rw [hw.known_finished hhow] at hrest
    have hgone : InFlight s.cancels s.inFlight ((c.id, c.cancel) ::
        ({ s.setWorker key w with composites := s.sentPart c.part false } : Pool κ ι).known) :=
      InFlight.perm hf (hrest.trans (hknown.symm.cons c.entry))
    exact InFlight.forget (s := { s.setWorker key w with composites := s.sentPart c.part false }) hgone

omit [DecidableEq ι] in
/-- A worker that starts has no calls. -/
theorem Pool.Flight.use (h : s.Flight) (hs : s.Sound maxChildren) (key : κ) : (s.use key).Flight := by
  have hstart : ({ s with keys := if key ∈ s.keys then s.keys else s.keys ++ [key] } : Pool κ ι).known = s.known := by
    by_cases hkey : key ∈ s.keys
    · rw [if_pos hkey]
    · rw [if_neg hkey, Pool.known]
      dsimp only
      rw [List.flatMap_append, List.flatMap_singleton, hs.fresh key hkey]
      exact congrArg (· ++ openOf s.composites) (List.append_nil _)
  refine h.same rfl rfl (List.Perm.of_eq ?_)
  rw [← hstart, Pool.known, Pool.known]
  refine congrArg (· ++ openOf s.composites) (congrArg List.flatten (List.map_congr_left fun k _ => ?_))
  by_cases hk : k = key
  · subst hk
    simp [Pool.use, Pool.setWorker, Worker.known, Worker.outstanding]
  · simp [Pool.use, Pool.setWorker, Function.update_of_ne hk]

/-- **A call that is queued** is in flight from then on. -/
theorem Pool.Flight.queue (h : s.Flight) (hs : s.Sound maxChildren) {key : κ} (hkey : key ∈ s.keys) {id : ι}
    (hid : id ∉ s.inFlight) (part : Option ℕ) : (s.queue key id part).Flight := by
  unfold Pool.queue
  split
  · exact h
  · rename_i hdepth
    dsimp only
    generalize part.bind (fun i => (s.composites[i]?).bind fun c => s.registered c.id) = shared
    obtain ⟨rest, hrest, hupdate⟩ := Pool.known_split hkey hs.nodup
    have hpushed := (Worker.push_sound (hs.sound key) ⟨id, shared.getD s.flags.length, part⟩
      (Nat.lt_of_not_le hdepth)).2
    have hworker : ((s.workers key).push ⟨id, shared.getD s.flags.length, part⟩).known.Perm
        ((id, shared.getD s.flags.length) :: (s.workers key).known) := by
      rw [Worker.known, Worker.known, hpushed, List.append_assoc]
      exact (List.perm_middle (a := ⟨id, shared.getD s.flags.length, part⟩)).map Call.entry
    have hknown : ∀ t : Pool κ ι, t.keys = s.keys →
        t.workers = Function.update s.workers key ((s.workers key).push ⟨id, shared.getD s.flags.length, part⟩) →
          t.composites = s.sentPart part true → ((id, shared.getD s.flags.length) :: s.known).Perm t.known := by
      intro t hkeys hworkers hcomposites
      have hnew := hupdate t _ hkeys hworkers
      rw [hcomposites, openOf_sentPart] at hnew
      exact ((hrest.cons _).trans (hworker.symm.append_right _)).trans hnew.symm
    refine InFlight.perm (InFlight.register h hid (shared.getD s.flags.length)) ?_
    apply hknown <;> rfl

/-- **A step keeps what is in flight exact.** -/
theorem Pool.Flight.step (h : s.Flight) (hs : s.Sound maxChildren) {e : Pool.Event κ ι} (hfresh : s.fresh e = true)
    (hstep : Pool.Stepped maxChildren e s s') : s'.Flight := by
  cases hstep with
  | still hkeys hworkers hcomposites hcancels hinFlight _ _ _ =>
    refine h.same hcancels hinFlight (List.Perm.of_eq ?_)
    rw [Pool.known, Pool.known, hkeys, hworkers, hcomposites]
  | told key w hkey hw hs' => exact hs' ▸ h.quiet hs hkey hw.known
  | worked key hkey hw => exact hw.flight h hs hkey
  | queued t key id part now hfrom _ _ hid hs' =>
    subst hs'
    have ht : t.Flight := by
      rcases hfrom with rfl | ⟨k, hk, rfl⟩
      · exact h
      · exact h.quiet hs hk (Worker.evict_quiet s.closing s.flags _).known
    obtain ⟨hsound, -, hinFlight⟩ := hs.of_room hfrom
    obtain ⟨huse, -, hmem⟩ := hsound.use key
    have hnew : id ∉ (t.use key).inFlight := by
      have := hid hfresh
      rw [← hinFlight] at this
      exact this
    have hkept := (ht.use hsound key).queue huse hmem hnew part
    exact hkept
  | began id hid hs' =>
    subst hs'
    refine InFlight.perm (InFlight.register h (hid hfresh) s.flags.length) ?_
    have hopen : openOf (s.composites ++ [⟨id, s.flags.length, false, false⟩]) =
        openOf s.composites ++ [(id, s.flags.length)] := by
      rw [openOf, List.filter_append, List.map_append]
      rfl
    rw [Pool.known, Pool.known]
    dsimp only
    rw [hopen, ← List.append_assoc]
    exact (List.perm_append_singleton _ _).symm
  | ended i c hc hopen hs' =>
    subst hs'
    have hperm := (openOf_ended hc hopen).append_left (s.keys.flatMap fun k => (s.workers k).known)
    exact InFlight.forget (InFlight.perm h (hperm.trans List.perm_middle))

theorem Pool.FreshPools.flight {rank : κ → ℕ} (h : Pool.FreshPools maxChildren rank s) : s.Flight := by
  have hboth : s.Sound maxChildren ∧ s.Flight :=
    @Machine.Steps.inv _ _ _ _ (fun s : Pool κ ι => s.Sound maxChildren ∧ s.Flight)
      (fun _ _ _ hs hfresh hstep => ⟨hs.1.step (Pool.step_stepped hs.1 hstep),
        hs.2.step hs.1 hfresh (Pool.step_stepped hs.1 hstep)⟩) _ _ h
      ⟨Pool.new_sound maxChildren, ⟨.refl _, .refl _, List.nodup_nil⟩⟩
  exact hboth.2

/-! ## 4. In flight, and cancelled -/

omit [DecidableEq κ] in
/-- What is looked up under the id of a call or a composite is its own flag. -/
theorem Pool.Flight.find (h : s.Flight) {entry : ι × ℕ} (hentry : entry ∈ s.known) :
    s.cancels.find? (fun c => c.1 = entry.1) = some entry := by
  have hmem := h.entries.mem_iff.mpr hentry
  cases hfind : s.cancels.find? fun c => c.1 = entry.1 with
  | none => exact absurd (List.find?_eq_none.mp hfind entry hmem) (by simp)
  | some c =>
    have hsame : c.1 = entry.1 := by simpa using List.find?_some hfind
    rw [InFlight.eq_of_mem h (List.mem_of_find?_eq_some hfind) hmem hsame]

omit [DecidableEq κ] [DecidableEq ι] in
/-- A composite that has not ended is in flight. -/
theorem Pool.known_composite {c : Composite ι} (hc : c ∈ s.composites) (hopen : c.ended = false) :
    (c.id, c.cancel) ∈ s.known := by
  refine List.mem_append_right _ (List.mem_map.mpr ⟨c, List.mem_filter.mpr ⟨hc, ?_⟩, rfl⟩)
  rw [hopen]
  rfl

omit [DecidableEq κ] in
/-- **A part gets the flag of its composite**, while no two calls of one id are in flight. -/
theorem Pool.Flight.registered (h : s.Flight) {c : Composite ι} (hc : c ∈ s.composites) (hopen : c.ended = false) :
    s.registered c.id = some c.cancel := by
  rw [Pool.registered, h.find (Pool.known_composite hc hopen)]
  rfl

/-- **What is in flight**, in every run in which no id comes in that is in flight: before the pool closes, the ids
of the calls that a worker is not done with and of the composites that have not ended, and no others; each
once. -/
theorem in_flight_exact {rank : κ → ℕ} (h : Pool.FreshPools maxChildren rank s) (hopen : s.closing = false) :
    s.inFlight.Nodup ∧ ∀ id, id ∈ s.inFlight ↔
      (∃ k, ∃ c ∈ (s.workers k).outstanding, c.id = id) ∨ ∃ c ∈ s.composites, c.ended = false ∧ c.id = id := by
  have hs := h.pools.sound
  have hflight := h.flight
  refine ⟨hflight.nodup, fun id => ?_⟩
  have hdropped : ∀ k, droppedOf (s.workers k).ended = [] := by
    intro k
    refine List.map_eq_nil_iff.mpr (List.filter_eq_nil_iff.mpr fun e he hhow => ?_)
    have hreason := (hs.sound k).ended e he
    rw [justified, of_decide_eq_true hhow, hopen] at hreason
    simp at hreason
  have hids : s.inFlight.Perm (s.known.map Prod.fst) := hflight.ids.trans (hflight.entries.map _)
  rw [hids.mem_iff, Pool.known, List.map_append, List.mem_append]
  refine or_congr ⟨fun hmem => ?_, fun hmem => ?_⟩ ⟨fun hmem => ?_, fun hmem => ?_⟩
  · obtain ⟨entry, hentry, rfl⟩ := List.mem_map.mp hmem
    obtain ⟨k, -, hk⟩ := List.mem_flatMap.mp hentry
    rw [Worker.known, hdropped k, List.append_nil] at hk
    obtain ⟨c, hc, rfl⟩ := List.mem_map.mp hk
    exact ⟨k, c, hc, rfl⟩
  · obtain ⟨k, c, hc, rfl⟩ := hmem
    have hkey : k ∈ s.keys := by
      by_contra hnot
      rw [hs.fresh k hnot] at hc
      simp [Worker.outstanding, Worker.fresh, Phase.calls, queued] at hc
    refine List.mem_map.mpr ⟨c.entry, List.mem_flatMap.mpr ⟨k, hkey, ?_⟩, rfl⟩
    exact List.mem_map_of_mem (List.mem_append_left _ hc)
  · obtain ⟨entry, hentry, rfl⟩ := List.mem_map.mp hmem
    obtain ⟨c, hc, rfl⟩ := List.mem_map.mp hentry
    obtain ⟨hmem, hended⟩ := List.mem_filter.mp hc
    exact ⟨c, hmem, by simpa using hended, rfl⟩
  · obtain ⟨c, hc, hended, rfl⟩ := hmem
    refine List.mem_map.mpr ⟨(c.id, c.cancel), List.mem_map.mpr ⟨c, List.mem_filter.mpr ⟨hc, ?_⟩, rfl⟩, rfl⟩
    rw [hended]
    rfl

theorem in_flight_exact_sample : ∃ s, samplePool 4 = some s ∧ s.inFlight = [5, 6] ∧ s.inFlight.Nodup :=
  have h : ∃ s, samplePool 4 = some s ∧ s.inFlight = [5, 6] ∧ s.closing = false := ⟨_, rfl, rfl, rfl⟩
  h.elim fun s hs => ⟨s, hs.1, hs.2.1, (in_flight_exact (samplePool_fresh 4 hs.1) hs.2.2).1⟩

/-- **A cancel reaches its own call**, in every run in which no id comes in that is in flight: it sets the flag of
the call of its id, or of the composite, and does nothing else. -/
theorem cancel_reaches {rank : κ → ℕ} (h : Pool.FreshPools maxChildren rank s) :
    (∀ k, ∀ c ∈ (s.workers k).outstanding, s.cancel c.id = { s with flags := s.flags.set c.cancel true }) ∧
      (∀ c ∈ s.composites, c.ended = false → s.cancel c.id = { s with flags := s.flags.set c.cancel true }) ∧
        ∀ id, id ∉ s.inFlight → s.cancel id = s := by
  have hs := h.pools.sound
  have hflight := h.flight
  have hfind : ∀ entry ∈ s.known, s.cancel entry.1 = { s with flags := s.flags.set entry.2 true } := by
    intro entry hentry
    rw [Pool.cancel, hflight.find hentry]
  refine ⟨fun k c hc => hfind c.entry (List.mem_append_left _ ?_),
    fun c hc hended => hfind (c.id, c.cancel) (Pool.known_composite hc hended), fun id hid => ?_⟩
  · have hkey : k ∈ s.keys := by
      by_contra hnot
      rw [hs.fresh k hnot] at hc
      simp [Worker.outstanding, Worker.fresh, Phase.calls, queued] at hc
    exact List.mem_flatMap.mpr ⟨k, hkey, List.mem_map_of_mem (List.mem_append_left _ hc)⟩
  · unfold Pool.cancel
    split
    · rename_i c hc
      have hsame : c.1 = id := by simpa using List.find?_some hc
      refine absurd (hflight.ids.mem_iff.mpr (List.mem_map_of_mem (List.mem_of_find?_eq_some hc))) ?_
      rw [hsame]
      exact hid
    · rfl

theorem cancel_reaches_sample :
    ∃ s, samplePool 4 = some s ∧ (s.cancel 5).flags = [true] ∧ s.cancel 8 = s :=
  have h : ∃ s, samplePool 4 = some s ∧ (s.cancel 5).flags = [true] ∧ 8 ∉ s.inFlight :=
    ⟨_, rfl, rfl, by decide⟩
  h.elim fun s hs => ⟨s, hs.1, hs.2.1, (cancel_reaches (samplePool_fresh 4 hs.1)).2.2 8 hs.2.2⟩

end Threads

end AlSem.Mcp
