/-
# The pool keeps its bound and its calls

However the threads are interleaved: the engines with a child, or about to have one, and the one-shot children
are together no more than the children bound, and so are the children that run, but for those whose end is
under way (`children_bounded`); each worker ends its calls in the order it was given them, each once and for a
reason (`calls_in_order`); and a composite has one part out at most (`one_part_out`).
-/
import AlSem.Mcp.Pool
import Mathlib.Data.List.Count
import Mathlib.Data.List.Nodup
import Mathlib.Data.List.Perm.Basic

namespace AlSem.Mcp

variable {κ ι : Type}

/-! ## 1. Updates of one worker -/

section Updates

variable [DecidableEq κ]

omit [DecidableEq κ] in
/-- One key among others. -/
theorem keys_split {keys : List κ} {key : κ} (h : key ∈ keys) (hnodup : keys.Nodup) :
    ∃ l₁ l₂, keys = l₁ ++ key :: l₂ ∧ ∀ k, k ∈ l₁ ∨ k ∈ l₂ → k ≠ key := by
  obtain ⟨l₁, l₂, rfl⟩ := List.append_of_mem h
  refine ⟨l₁, l₂, rfl, ?_⟩
  rw [List.nodup_middle, List.nodup_cons] at hnodup
  rintro k hk rfl
  exact hnodup.1 (List.mem_append.mpr hk)

/-- What the workers hold, but for one of them. -/
theorem flatMap_update {β : Type} (f : Worker ι → List β) {keys : List κ} {key : κ} (h : key ∈ keys)
    (hnodup : keys.Nodup) (workers : κ → Worker ι) :
    ∃ rest, (keys.flatMap fun k => f (workers k)).Perm (f (workers key) ++ rest) ∧
      ∀ w, (keys.flatMap fun k => f (Function.update workers key w k)).Perm (f w ++ rest) := by
  obtain ⟨l₁, l₂, rfl, hother⟩ := keys_split h hnodup
  have hsame : ∀ (w : Worker ι) (l : List κ), (∀ k ∈ l, k ≠ key) →
      (l.flatMap fun k => f (Function.update workers key w k)) = l.flatMap fun k => f (workers k) := by
    intro w l hl
    refine congrArg List.flatten (List.map_congr_left fun k hk => ?_)
    rw [Function.update_of_ne (hl k hk)]
  refine ⟨(l₁.flatMap fun k => f (workers k)) ++ l₂.flatMap fun k => f (workers k), ?_, fun w => ?_⟩
  · rw [List.flatMap_append, List.flatMap_cons]
    exact List.perm_append_comm_assoc _ _ _
  · rw [List.flatMap_append, List.flatMap_cons, Function.update_self, hsame w l₁ fun k hk => hother k (.inl hk),
      hsame w l₂ fun k hk => hother k (.inr hk)]
    exact List.perm_append_comm_assoc _ _ _

/-- How many keys have a property, but for one of them. -/
theorem countP_update (p : κ → Worker ι → Bool) {keys : List κ} {key : κ} (h : key ∈ keys) (hnodup : keys.Nodup)
    (workers : κ → Worker ι) (w : Worker ι) :
    keys.countP (fun k => p k (Function.update workers key w k)) + (p key (workers key)).toNat =
      keys.countP (fun k => p k (workers k)) + (p key w).toNat := by
  obtain ⟨l₁, l₂, rfl, hother⟩ := keys_split h hnodup
  have hsame : ∀ l : List κ, (∀ k ∈ l, k ≠ key) →
      l.countP (fun k => p k (Function.update workers key w k)) = l.countP fun k => p k (workers k) := by
    intro l hl
    refine List.countP_congr fun k hk => ?_
    rw [Function.update_of_ne (hl k hk)]
  rw [List.countP_append, List.countP_append, List.countP_cons, List.countP_cons, Function.update_self,
    hsame l₁ fun k hk => hother k (.inl hk), hsame l₂ fun k hk => hother k (.inr hk)]
  cases p key w <;> cases p key (workers key) <;> simp <;> omega

end Updates

/-! ## 2. What holds of a worker -/

/-- The calls of a queue. -/
def queued (queue : List (Job ι)) : List (Call ι) :=
  queue.filterMap fun j =>
    match j with
    | .call c => some c
    | _ => none

/-- The call a worker has. -/
def Phase.calls : Phase ι → List (Call ι)
  | .looking c => [c]
  | .running c => [c]
  | .published c => [c]
  | .counted c _ => [c]
  | _ => []

/-- The call that still counts. -/
def Phase.owes : Phase ι → ℕ
  | .looking _ => 1
  | .running _ => 1
  | .published _ => 1
  | _ => 0

def Phase.isRunning : Phase ι → Bool
  | .running _ => true
  | _ => false

def Phase.isRetiring : Phase ι → Bool
  | .retiring => true
  | _ => false

def Job.isRetire : Job ι → Bool
  | .retire => true
  | _ => false

namespace Worker

/-- The calls a worker is not done with. -/
def outstanding (w : Worker ι) : List (Call ι) := w.phase.calls ++ queued w.queue

/-- Its child is about to end. -/
def retiring (w : Worker ι) : Bool := w.phase.isRetiring || w.queue.any Job.isRetire

end Worker

/-- A cancel flag that is set. -/
def isSet (flags : List Bool) (c : Call ι) : Prop := flags[c.cancel]?.getD false = true

/-- A call that ended otherwise than with its answer had a reason. -/
def justified (closing : Bool) (flags : List Bool) (e : Call ι × Ending) : Prop :=
  match e.2 with
  | .answered => True
  | .stopped => isSet flags e.1
  | .cancelled => isSet flags e.1
  | .dropped => closing = true

/-- **What holds of a worker.** -/
structure Worker.Sound (closing : Bool) (flags : List Bool) (w : Worker ι) : Prop where
  pending : w.pending = (queued w.queue).length + w.phase.owes
  depth : w.pending ≤ WORKER_QUEUE_DEPTH
  order : w.accepted = w.ended.map Prod.fst ++ w.outstanding
  child : w.child = true → w.hello = true ∨ w.retiring = true ∨ w.phase.isRunning = true
  skipped : ∀ c, w.phase = .counted c false → isSet flags c
  ended : ∀ e ∈ w.ended, justified closing flags e

theorem Worker.Sound.counted {closing : Bool} {flags : List Bool} {w : Worker ι} (h : w.Sound closing flags)
    (hchild : w.child = true) : w.running = true ∨ w.retiring = true := by
  rcases h.child hchild with hhello | hretiring | hrunning
  · exact .inl (by simp [Worker.running, hhello])
  · exact .inr hretiring
  · refine .inl ?_
    have hpending := h.pending
    cases hphase : w.phase with
    | running c =>
      rw [hphase, Phase.owes] at hpending
      simp [Worker.running, hpending]
    | _ => simp [hphase, Phase.isRunning] at hrunning

/-- More flags are set. -/
def Later (closing closing' : Bool) (flags flags' : List Bool) : Prop :=
  (closing = true → closing' = true) ∧ ∀ i : ℕ, flags[i]?.getD false = true → flags'[i]?.getD false = true

theorem Worker.Sound.later {closing closing' : Bool} {flags flags' : List Bool} {w : Worker ι}
    (h : w.Sound closing flags) (hlater : Later closing closing' flags flags') : w.Sound closing' flags' := by
  refine ⟨h.pending, h.depth, h.order, h.child, fun c hc => hlater.2 _ (h.skipped c hc), fun e he => ?_⟩
  have hended := h.ended e he
  unfold justified at hended ⊢
  split at hended
  · trivial
  · exact hlater.2 _ hended
  · exact hlater.2 _ hended
  · exact hlater.1 hended

theorem Worker.fresh_sound (closing : Bool) (flags : List Bool) : (Worker.fresh : Worker ι).Sound closing flags :=
  ⟨rfl, Nat.zero_le _, rfl, fun h => absurd h (by simp [Worker.fresh]), fun _ h => absurd h (by simp [Worker.fresh]),
    fun _ h => absurd h (by simp [Worker.fresh])⟩

/-! ## 3. What a worker's event does -/

/-- **A worker goes on**, and is done with no call. -/
structure Quiet (closing : Bool) (flags : List Bool) (w w' : Worker ι) : Prop where
  accepted : w'.accepted = w.accepted
  ended : w'.ended = w.ended
  outstanding : w'.outstanding = w.outstanding
  running : w'.running = true → w.running = true
  sound : w.Sound closing flags → w'.Sound closing flags

/-- **A worker is done with a call.** -/
structure Done (closing : Bool) (flags : List Bool) (w w' : Worker ι) (c : Call ι) (how : Ending) : Prop where
  accepted : w'.accepted = w.accepted
  ended : w'.ended = w.ended ++ [(c, how)]
  outstanding : w.outstanding = c :: w'.outstanding
  running : w'.running = true → w.running = true
  sound : w.Sound closing flags → w'.Sound closing flags

section Threads

variable [DecidableEq κ] [DecidableEq ι]

/-- **What a worker's event does.** -/
inductive Worked (s s' : Pool κ ι) (key : κ) : Prop
  | quiet (w : Worker ι) (hw : Quiet s.closing s.flags (s.workers key) w) (hs : s' = s.setWorker key w)
  | dropped (w : Worker ι) (c : Call ι) (hw : Done s.closing s.flags (s.workers key) w c .dropped)
      (hs : s' = { s.setWorker key w with composites := s.sentPart c.part false })
  | finished (w : Worker ι) (c : Call ι) (how : Ending) (hw : Done s.closing s.flags (s.workers key) w c how)
      (hhow : how ≠ .dropped)
      (hs : s' = ({ s.setWorker key w with composites := s.sentPart c.part false } : Pool κ ι).forget c.id)

omit [DecidableEq κ] [DecidableEq ι] in
/-- One call less that counts. -/
theorem running_of_pending_pred {w : Worker ι} {n : ℕ} (hn : n ≤ w.pending) {w' : Worker ι} (hpending : w'.pending = n)
    (hhello : w'.hello = true → w.hello = true) (h : w'.running = true) : w.running = true := by
  unfold Worker.running at h ⊢
  rw [hpending, Bool.or_eq_true, decide_eq_true_eq] at h
  rw [Bool.or_eq_true, decide_eq_true_eq]
  rcases h with h | h
  · exact .inl (by omega)
  · exact .inr (hhello h)

omit [DecidableEq κ] [DecidableEq ι] in
/-- A worker that goes from one part of a call to the next. -/
theorem Quiet.onward {closing : Bool} {flags : List Bool} {w w' : Worker ι} (haccepted : w'.accepted = w.accepted)
    (hended : w'.ended = w.ended) (hcalls : w'.phase.calls = w.phase.calls) (hqueue : w'.queue = w.queue)
    (hrunning : w'.running = true → w.running = true)
    (hpending : w'.pending + w.phase.owes = w.pending + w'.phase.owes) (hle : w'.pending ≤ w.pending)
    (hchild : (w.child = true → w.hello = true ∨ w.retiring = true ∨ w.phase.isRunning = true) →
      w'.child = true → w'.hello = true ∨ w'.retiring = true ∨ w'.phase.isRunning = true)
    (hskipped : ∀ c, w'.phase = .counted c false → isSet flags c) : Quiet closing flags w w' := by
  have hout : w'.outstanding = w.outstanding := by rw [Worker.outstanding, Worker.outstanding, hcalls, hqueue]
  refine ⟨haccepted, hended, hout, hrunning, fun hs => ?_⟩
  refine ⟨?_, Nat.le_trans hle hs.depth, ?_, hchild hs.child, hskipped, ?_⟩
  · have := hs.pending
    rw [hqueue]
    omega
  · rw [haccepted, hended, hout]
    exact hs.order
  · rw [hended]
    exact hs.ended

omit [DecidableEq κ] [DecidableEq ι] in
/-- A worker that is done with its call. -/
theorem Done.onward {closing : Bool} {flags : List Bool} {w w' : Worker ι} {c : Call ι} {how : Ending}
    (haccepted : w'.accepted = w.accepted) (hended : w'.ended = w.ended ++ [(c, how)])
    (hcalls : w.phase.calls = [c]) (hphase : w'.phase = .waiting) (hqueue : w'.queue = w.queue)
    (hhello : w'.hello = w.hello) (hchild : w'.child = w.child) (hnot : w.phase.isRunning = false)
    (hnot' : w.phase.isRetiring = false) (hpending : w'.pending + w.phase.owes = w.pending)
    (hhow : (∀ b, w.phase = .counted c b → b = false → isSet flags c) → justified closing flags (c, how)) :
    Done closing flags w w' c how := by
  have hout : w.outstanding = c :: w'.outstanding := by
    rw [Worker.outstanding, Worker.outstanding, hcalls, hphase, hqueue]
    rfl
  have hretiring : w.retiring = w'.retiring := by
    rw [Worker.retiring, Worker.retiring, hqueue, hphase, hnot']
    rfl
  have howes : w'.phase.owes = 0 := by rw [hphase]; rfl
  refine ⟨haccepted, hended, hout, running_of_pending_pred (by omega) rfl fun h => hhello ▸ h, fun hs => ?_⟩
  refine ⟨?_, ?_, ?_, fun hc => ?_, fun c' hc' => absurd (hphase.symm.trans hc') (by simp), fun e he => ?_⟩
  · have := hs.pending
    rw [hqueue, howes]
    omega
  · have := hs.depth
    omega
  · rw [haccepted, hended, hs.order, hout]
    simp
  · rw [hchild] at hc
    rcases hs.child hc with h | h | h
    · exact .inl (hhello ▸ h)
    · exact .inr (.inl (hretiring ▸ h))
    · rw [hnot] at h
      simp at h
  · rw [hended] at he
    rcases List.mem_append.mp he with he | he
    · exact hs.ended e he
    · rw [List.mem_singleton.mp he]
      exact hhow fun b hb hfalse => hs.skipped c (hfalse ▸ hb)

theorem work_worked {s s' : Pool κ ι} {key : κ} {e : Pool.WorkerEvent}
    (hsound : (s.workers key).Sound s.closing s.flags) (h : s.work key e = some s') : Worked s s' key := by
  have hpending := hsound.pending
  unfold Pool.work at h
  cases e with
  | take alive =>
    dsimp only at h
    split at h
    · rename_i c queue hphase hqueue
      obtain rfl := Option.some.inj h
      refine .quiet { s.workers key with queue := queue, phase := .looking c } ?_ rfl
      have hout : ({ s.workers key with queue := queue, phase := .looking c } : Worker ι).outstanding =
          (s.workers key).outstanding := by
        simp [Worker.outstanding, hphase, hqueue, Phase.calls, queued]
      refine ⟨rfl, rfl, hout, fun hrunning => hrunning, fun hs => ⟨?_, hs.depth, ?_, fun hc => ?_,
        fun _ hc => absurd hc (by simp), hs.ended⟩⟩
      · rw [hqueue, hphase] at hpending
        exact hpending
      · rw [hout]
        exact hs.order
      · have := hs.child hc
        rwa [Worker.retiring, hphase, hqueue] at this
    · rename_i queue hphase hqueue
      obtain rfl := Option.some.inj h
      refine .quiet { s.workers key with queue := queue, phase := .retiring } ?_ rfl
      have hout : ({ s.workers key with queue := queue, phase := .retiring } : Worker ι).outstanding =
          (s.workers key).outstanding := by
        simp [Worker.outstanding, hphase, hqueue, Phase.calls, queued]
      refine ⟨rfl, rfl, hout, fun hrunning => hrunning, fun hs => ⟨?_, hs.depth, ?_, fun hc => .inr (.inl rfl),
        fun _ hc => absurd hc (by simp), hs.ended⟩⟩
      · rw [hqueue, hphase] at hpending
        exact hpending
      · rw [hout]
        exact hs.order
    · rename_i queue hphase hqueue
      obtain rfl := Option.some.inj h
      refine .quiet { s.workers key with queue := queue, child := (s.workers key).child && alive } ?_ rfl
      have hout : ({ s.workers key with queue := queue, child := (s.workers key).child && alive } :
          Worker ι).outstanding = (s.workers key).outstanding := by
        simp [Worker.outstanding, hqueue, queued]
      refine ⟨rfl, rfl, hout, fun hrunning => hrunning, fun hs => ⟨?_, hs.depth, ?_, fun hc => ?_, hs.skipped,
        hs.ended⟩⟩
      · rw [hqueue] at hpending
        exact hpending
      · rw [hout]
        exact hs.order
      · have := hs.child (Bool.and_eq_true_iff.mp hc).1
        rwa [Worker.retiring, hqueue] at this
    · simp at h
  | look =>
    dsimp only at h
    split at h
    · rename_i c hphase
      rw [hphase, Phase.owes] at hpending
      split at h
      · rename_i hclosing
        obtain rfl := Option.some.inj h
        refine .dropped { s.workers key with
          phase := .waiting
          pending := (s.workers key).pending - 1
          ended := (s.workers key).ended ++ [(c, .dropped)] } c
          (Done.onward rfl rfl (by rw [hphase]; rfl) rfl rfl rfl rfl (by rw [hphase]; rfl) (by rw [hphase]; rfl) ?_
            fun _ => hclosing) rfl
        rw [hphase, Phase.owes]
        dsimp only
        omega
      · split at h
        · rename_i hflag
          obtain rfl := Option.some.inj h
          refine .quiet { s.workers key with pending := (s.workers key).pending - 1, phase := .counted c false }
            (Quiet.onward rfl rfl (by rw [hphase]; rfl) rfl
            (running_of_pending_pred (Nat.sub_le _ 1) rfl fun h => h) ?_ (Nat.sub_le _ 1) (fun hchild hc => ?_)
            fun c' hc' => ?_) rfl
          · rw [hphase]
            exact Nat.sub_add_cancel (by omega)
          · have := hchild hc
            rwa [Worker.retiring, hphase] at this
          · obtain ⟨rfl, -⟩ := Phase.counted.inj hc'
            exact hflag
        · obtain rfl := Option.some.inj h
          exact .quiet { s.workers key with phase := .running c }
            (Quiet.onward rfl rfl (by rw [hphase]; rfl) rfl (fun h => h) (by rw [hphase]; rfl) (Nat.le_refl _)
            (fun _ _ => .inr (.inr rfl)) fun _ hc => absurd hc (by simp)) rfl
    · simp at h
  | child runs =>
    dsimp only at h
    split at h
    · rename_i c hphase
      obtain rfl := Option.some.inj h
      refine .quiet { s.workers key with child := runs } (Quiet.onward rfl rfl rfl rfl (fun h => h) rfl (Nat.le_refl _)
        (fun _ _ => .inr (.inr ?_)) fun c' hc' => absurd (hphase.symm.trans hc') (by simp)) rfl
      dsimp only
      rw [hphase]
      rfl
    · simp at h
  | publish =>
    dsimp only at h
    split at h
    · rename_i c hphase
      rw [hphase, Phase.owes] at hpending
      obtain rfl := Option.some.inj h
      refine .quiet { s.workers key with hello := (s.workers key).child, phase := .published c }
        (Quiet.onward rfl rfl (by rw [hphase]; rfl) rfl (fun _ => ?_) (by rw [hphase]; rfl)
        (Nat.le_refl _) (fun _ hc => .inl hc) fun _ hc => absurd hc (by simp)) rfl
      simp [Worker.running, hpending]
    · simp at h
  | count =>
    dsimp only at h
    split at h
    · rename_i c hphase
      rw [hphase, Phase.owes] at hpending
      obtain rfl := Option.some.inj h
      refine .quiet { s.workers key with pending := (s.workers key).pending - 1, phase := .counted c true }
        (Quiet.onward rfl rfl (by rw [hphase]; rfl) rfl
        (running_of_pending_pred (Nat.sub_le _ 1) rfl fun h => h) ?_ (Nat.sub_le _ 1) (fun hchild hc => ?_)
        fun _ hc => absurd hc (by simp)) rfl
      · rw [hphase]
        exact Nat.sub_add_cancel (by omega)
      · have := hchild hc
        rwa [Worker.retiring, hphase] at this
    · simp at h
  | finish =>
    dsimp only at h
    split at h
    · rename_i c ran hphase
      obtain rfl := Option.some.inj h
      refine .finished { s.workers key with
        phase := .waiting
        ended := (s.workers key).ended ++ [(c, if !ran then .cancelled
          else if c.part.isNone && s.flag c then .stopped else .answered)] } c _
        (Done.onward rfl rfl (by rw [hphase]; rfl) rfl rfl rfl rfl (by rw [hphase]; rfl) (by rw [hphase]; rfl)
        (by rw [hphase]; rfl) fun hskipped => ?_) ?_ rfl
      · cases ran with
        | false => exact hskipped false hphase rfl
        | true =>
          dsimp only [justified]
          split
          · trivial
          · rename_i hstopped
            simp only [Bool.not_true, Bool.false_eq_true, if_false] at hstopped
            split at hstopped
            · rename_i hflag
              exact (Bool.and_eq_true_iff.mp hflag).2
            · simp at hstopped
          · rename_i hcancelled
            simp only [Bool.not_true, Bool.false_eq_true, if_false] at hcancelled
            split at hcancelled <;> simp at hcancelled
          · rename_i hdropped
            simp only [Bool.not_true, Bool.false_eq_true, if_false] at hdropped
            split at hdropped <;> simp at hdropped
      · split
        · simp
        · split <;> simp
    · simp at h
  | retired =>
    dsimp only at h
    split at h
    · rename_i hphase
      obtain rfl := Option.some.inj h
      exact .quiet { s.workers key with child := false, hello := false, phase := .waiting }
        (Quiet.onward rfl rfl (by rw [hphase]; rfl) rfl
        (running_of_pending_pred (Nat.le_refl _) rfl fun h => absurd h (by simp)) (by rw [hphase]; rfl) (Nat.le_refl _)
        (fun _ hc => absurd hc (by simp)) fun _ hc => absurd hc (by simp)) rfl
    · simp at h
  | exit =>
    dsimp only at h
    split at h
    · rename_i hphase hqueue
      split at h
      · obtain rfl := Option.some.inj h
        exact .quiet { s.workers key with child := false, phase := .exited }
          (Quiet.onward rfl rfl (by rw [hphase]; rfl) rfl (fun h => h) (by rw [hphase]; rfl) (Nat.le_refl _)
          (fun _ hc => absurd hc (by simp)) fun _ hc => absurd hc (by simp)) rfl
      · simp at h
    · simp at h

/-! ## 4. What holds of a pool -/

omit [DecidableEq κ] [DecidableEq ι]

/-- The engines with a child, or about to have one. -/
def Pool.load (s : Pool κ ι) : ℕ := s.keys.countP fun k => (s.workers k).running

/-- Whether a part of a composite is out. -/
def Pool.sent (s : Pool κ ι) (i : ℕ) : Bool := (s.composites[i]?).any Composite.waiting

/-- The parts of a composite among some calls. -/
def partsOf (i : ℕ) (calls : List (Call ι)) : ℕ := calls.countP fun c => decide (c.part = some i)

/-- The parts of a composite that the workers are not done with. -/
def Pool.partsOut (s : Pool κ ι) (i : ℕ) : ℕ := partsOf i (s.keys.flatMap fun k => (s.workers k).outstanding)

/-- **What holds of a pool.** -/
structure Pool.Sound (maxChildren : ℕ) (s : Pool κ ι) : Prop where
  nodup : s.keys.Nodup
  fresh : ∀ k, k ∉ s.keys → s.workers k = .fresh
  sound : ∀ k, (s.workers k).Sound s.closing s.flags
  bound : s.load + s.oneshots ≤ maxChildren
  parts : ∀ i, s.partsOut i = (s.sent i).toNat

theorem Later.refl (closing : Bool) (flags : List Bool) : Later closing closing flags flags :=
  ⟨fun h => h, fun _ h => h⟩

theorem Later.snoc (closing : Bool) (flags : List Bool) : Later closing closing flags (flags ++ [false]) := by
  refine ⟨fun h => h, fun i h => ?_⟩
  by_cases hi : i < flags.length
  · rwa [List.getElem?_append_left hi]
  · rw [List.getElem?_eq_none_iff.mpr (Nat.le_of_not_lt hi)] at h
    simp at h

theorem partsOf_append (i : ℕ) (calls calls' : List (Call ι)) :
    partsOf i (calls ++ calls') = partsOf i calls + partsOf i calls' := List.countP_append

theorem partsOf_cons (i : ℕ) (c : Call ι) (calls : List (Call ι)) :
    partsOf i (c :: calls) = partsOf i calls + (decide (c.part = some i)).toNat := by
  rw [partsOf, partsOf, List.countP_cons]
  cases decide (c.part = some i) <;> rfl

theorem toNat_le_toNat {a b : Bool} (h : a = true → b = true) : a.toNat ≤ b.toNat := by
  cases a with
  | false => exact Nat.zero_le _
  | true => exact Nat.le_of_eq (by rw [h rfl])

/-- The parts that are out, but for those of one worker. -/
theorem Pool.partsOut_split [DecidableEq κ] {s : Pool κ ι} {key : κ} (hkey : key ∈ s.keys) (hnodup : s.keys.Nodup)
    (i : ℕ) :
    ∃ n, s.partsOut i = partsOf i (s.workers key).outstanding + n ∧
      ∀ (s' : Pool κ ι) (w : Worker ι), s'.keys = s.keys → s'.workers = Function.update s.workers key w →
        s'.partsOut i = partsOf i w.outstanding + n := by
  obtain ⟨rest, hrest, hupdate⟩ := flatMap_update Worker.outstanding hkey hnodup s.workers
  refine ⟨partsOf i rest, ?_, fun s' w hkeys hworkers => ?_⟩
  · rw [← partsOf_append]
    exact hrest.countP_eq _
  · rw [← partsOf_append, partsOut, hkeys, hworkers]
    exact (hupdate w).countP_eq _

namespace Pool.Sound

variable {maxChildren : ℕ} {s s' : Pool κ ι}

/-- No worker changes. -/
theorem same (h : s.Sound maxChildren) (hkeys : s'.keys = s.keys) (hworkers : s'.workers = s.workers)
    (hlater : Later s.closing s'.closing s.flags s'.flags) (hbound : s.load + s'.oneshots ≤ maxChildren)
    (hsent : ∀ i, s'.sent i = s.sent i) : s'.Sound maxChildren := by
  refine ⟨hkeys ▸ h.nodup, fun k hk => ?_, fun k => ?_, ?_, fun i => ?_⟩
  · rw [hworkers]
    exact h.fresh k (hkeys ▸ hk)
  · rw [hworkers]
    exact (h.sound k).later hlater
  · rw [load, hkeys, hworkers]
    exact hbound
  · rw [partsOut, hkeys, hworkers, hsent]
    exact h.parts i

variable [DecidableEq κ]

/-- **One worker changes.** -/
theorem update {key : κ} {w : Worker ι} (h : s.Sound maxChildren) (hkey : key ∈ s.keys) (hkeys : s'.keys = s.keys)
    (hworkers : s'.workers = Function.update s.workers key w)
    (hlater : Later s.closing s'.closing s.flags s'.flags) (hw : w.Sound s'.closing s'.flags)
    (hbound : s.load + w.running.toNat + s'.oneshots ≤ maxChildren + (s.workers key).running.toNat)
    (hparts : ∀ i, partsOf i w.outstanding + (s.sent i).toNat =
      partsOf i (s.workers key).outstanding + (s'.sent i).toNat) : s'.Sound maxChildren := by
  refine ⟨hkeys ▸ h.nodup, fun k hk => ?_, fun k => ?_, ?_, fun i => ?_⟩
  · rw [hkeys] at hk
    rw [hworkers, Function.update_of_ne fun heq : k = key => hk (heq ▸ hkey)]
    exact h.fresh k hk
  · rw [hworkers]
    by_cases hk : k = key
    · rw [hk, Function.update_self]
      exact hw
    · rw [Function.update_of_ne hk]
      exact (h.sound k).later hlater
  · have hload := countP_update (fun _ => Worker.running) hkey h.nodup s.workers w
    rw [load, hkeys, hworkers]
    rw [load] at hbound
    omega
  · obtain ⟨n, hn, hupdate⟩ := partsOut_split hkey h.nodup i
    have hold := h.parts i
    have hnew := hparts i
    rw [hupdate s' w hkeys hworkers]
    omega

/-- A worker goes on. -/
theorem quiet {key : κ} {w : Worker ι} (h : s.Sound maxChildren) (hkey : key ∈ s.keys)
    (hw : Quiet s.closing s.flags (s.workers key) w) : (s.setWorker key w).Sound maxChildren := by
  refine h.update hkey rfl rfl (Later.refl _ _) (hw.sound (h.sound key)) ?_ fun i => ?_
  · have hrunning := toNat_le_toNat hw.running
    have hbound := h.bound
    dsimp only [setWorker]
    omega
  · rw [hw.outstanding]
    rfl

end Pool.Sound

/-- The composites, once a part is sent or done with. -/
theorem Pool.any_sentPart (s : Pool κ ι) (part : Option ℕ) (waiting : Bool) (i : ℕ) :
    ((s.sentPart part waiting)[i]?).any Composite.waiting =
      if part = some i ∧ i < s.composites.length then waiting else s.sent i := by
  cases part with
  | none => simp [sentPart, sent]
  | some j =>
    rw [sentPart, List.getElem?_modify]
    by_cases hij : j = i
    · subst hij
      by_cases hj : j < s.composites.length
      · simp [hj]
      · simp [hj, sent]
    · simp [hij, sent]

/-- A call that is done with, as its composite sees it. -/
theorem Pool.Sound.done [DecidableEq κ] {maxChildren : ℕ} {s s' : Pool κ ι} {key : κ} {w : Worker ι} {c : Call ι}
    {how : Ending} (h : s.Sound maxChildren) (hkey : key ∈ s.keys)
    (hw : Done s.closing s.flags (s.workers key) w c how) (hkeys : s'.keys = s.keys)
    (hworkers : s'.workers = Function.update s.workers key w) (hclosing : s'.closing = s.closing)
    (hflags : s'.flags = s.flags) (honeshots : s'.oneshots = s.oneshots)
    (hcomposites : s'.composites = s.sentPart c.part false) : s'.Sound maxChildren := by
  refine h.update hkey hkeys hworkers ?_ ?_ ?_ fun i => ?_
  · rw [hclosing, hflags]
    exact Later.refl _ _
  · rw [hclosing, hflags]
    exact hw.sound (h.sound key)
  · have hrunning := toNat_le_toNat hw.running
    have hbound := h.bound
    omega
  · have hsent : s'.sent i = if c.part = some i ∧ i < s.composites.length then false else s.sent i := by
      rw [Pool.sent, hcomposites]
      exact s.any_sentPart c.part false i
    rw [hw.outstanding, partsOf_cons, hsent]
    by_cases hpart : c.part = some i
    · -- the part is out, so its composite has one out
      have hone : (s.sent i).toNat = 1 := by
        obtain ⟨n, hn, -⟩ := Pool.partsOut_split hkey h.nodup i
        rw [h.parts i, hw.outstanding, partsOf_cons, decide_eq_true hpart, Bool.toNat_true] at hn
        have := Bool.toNat_le (s.sent i)
        omega
      have hlength : i < s.composites.length := by
        by_contra hnot
        rw [Pool.sent, List.getElem?_eq_none_iff.mpr (Nat.le_of_not_lt hnot)] at hone
        simp at hone
      rw [if_pos ⟨hpart, hlength⟩, decide_eq_true hpart, hone]
      rfl
    · rw [if_neg fun hboth => hpart hboth.1, decide_eq_false hpart]
      rfl

/-- **A worker's event keeps what holds.** -/
theorem Worked.sound [DecidableEq κ] [DecidableEq ι] {maxChildren : ℕ} {s s' : Pool κ ι} {key : κ}
    (hs : s.Sound maxChildren) (hkey : key ∈ s.keys) (h : Worked s s' key) : s'.Sound maxChildren := by
  cases h with
  | quiet w hw heq => exact heq ▸ hs.quiet hkey hw
  | dropped w c hw heq => exact hs.done hkey hw (heq ▸ rfl) (heq ▸ rfl) (heq ▸ rfl) (heq ▸ rfl) (heq ▸ rfl) (heq ▸ rfl)
  | finished w c how hw _ heq =>
    exact hs.done hkey hw (heq ▸ rfl) (heq ▸ rfl) (heq ▸ rfl) (heq ▸ rfl) (heq ▸ rfl) (heq ▸ rfl)

/-! ## 5. What a step does, and keeps -/

/-- A job that is no call, queued behind the others; the child may be marked gone. -/
theorem quiet_append {closing : Bool} {flags : List Bool} {w : Worker ι} {j : Job ι} {hello : Bool}
    (hj : queued [j] = []) (hhello : hello = true → w.hello = true)
    (hchild : w.hello = true → hello = true ∨ j.isRetire = true) :
    Quiet closing flags w { w with hello := hello, queue := w.queue ++ [j] } := by
  have hqueued : queued (w.queue ++ [j]) = queued w.queue := by
    rw [queued, List.filterMap_append]
    exact (congrArg (queued w.queue ++ ·) hj).trans (List.append_nil _)
  have hout : ({ w with hello := hello, queue := w.queue ++ [j] } : Worker ι).outstanding = w.outstanding :=
    congrArg (w.phase.calls ++ ·) hqueued
  refine ⟨rfl, rfl, hout, running_of_pending_pred (Nat.le_refl _) rfl hhello, fun hs => ?_⟩
  refine ⟨?_, hs.depth, ?_, fun hc => ?_, hs.skipped, hs.ended⟩
  · rw [hqueued]
    exact hs.pending
  · rw [hout]
    exact hs.order
  · rcases hs.child hc with h | h | h
    · rcases hchild h with h | h
      · exact .inl h
      · exact .inr (.inl (by simp [Worker.retiring, h]))
    · refine .inr (.inl ?_)
      rw [Worker.retiring, Bool.or_eq_true] at h ⊢
      exact h.imp_right fun h => by rw [List.any_append, h, Bool.true_or]
    · exact .inr (.inr h)

theorem Worker.evict_quiet (closing : Bool) (flags : List Bool) (w : Worker ι) : Quiet closing flags w w.evict :=
  quiet_append rfl (fun h => absurd h (by simp)) fun _ => .inr rfl

section Steps

variable [DecidableEq κ] {maxChildren : ℕ} {s s' : Pool κ ι}

/-- The others with a child, and the one. -/
theorem Pool.Sound.live_length (h : s.Sound maxChildren) (key : κ) :
    (s.live key).length + (s.workers key).running.toNat = s.load := by
  rw [Pool.live, ← List.countP_eq_length_filter]
  by_cases hkey : key ∈ s.keys
  · have hupdate := countP_update (fun _ => Worker.running) hkey h.nodup s.workers .fresh
    have hcongr : (s.keys.countP fun k => decide (k ≠ key) && (s.workers k).running) =
        s.keys.countP fun k => (Function.update s.workers key .fresh k).running := by
      refine List.countP_congr fun k _ => ?_
      by_cases hk : k = key
      · simp [hk, Worker.fresh, Worker.running]
      · rw [Function.update_of_ne hk, decide_eq_true hk, Bool.true_and]
    rw [hcongr]
    exact hupdate
  · have hidle : (s.workers key).running = false := by
      rw [h.fresh key hkey]
      rfl
    rw [hidle, Pool.load]
    refine List.countP_congr fun k hk => ?_
    have hne : k ≠ key := fun heq => hkey (heq ▸ hk)
    rw [decide_eq_true hne, Bool.true_and]

/-- **An idle child that ends makes room.** -/
theorem Pool.Sound.evict (h : s.Sound maxChildren) {key : κ} (hkey : key ∈ s.keys) : (s.evict key).Sound maxChildren :=
  h.quiet hkey (Worker.evict_quiet _ _ _)

theorem Pool.Sound.load_evict (h : s.Sound maxChildren) {key : κ} (hkey : key ∈ s.keys)
    (hrunning : (s.workers key).running = true) (hidle : (s.workers key).pending = 0) :
    (s.evict key).load + 1 = s.load := by
  have hupdate := countP_update (fun _ => Worker.running) hkey h.nodup s.workers (s.workers key).evict
  have hgone : (s.workers key).evict.running = false := by simp [Worker.running, Worker.evict, hidle]
  rw [hrunning, hgone] at hupdate
  exact hupdate

/-- **A call that is let in finds a place**: its engine has a child, or there is one place more. -/
theorem Pool.room_ok {t : Pool κ ι} {key : κ} {victim : Option κ} (h : s.Sound maxChildren)
    (hroom : s.room maxChildren key victim = some (.ok t)) :
    (t = s ∨ ∃ k ∈ s.keys, t = s.evict k) ∧
      ((t.workers key).running = true ∨ t.load + t.oneshots < maxChildren) := by
  have hlive := h.live_length key
  unfold Pool.room at hroom
  cases victim with
  | none =>
    dsimp only at hroom
    split at hroom
    · rename_i hrunning
      obtain rfl := Except.ok.inj (Option.some.inj hroom)
      exact ⟨.inl rfl, .inl (Bool.and_eq_true_iff.mp hrunning).2⟩
    · split at hroom
      · rename_i hplace
        obtain rfl := Except.ok.inj (Option.some.inj hroom)
        refine ⟨.inl rfl, ?_⟩
        cases hrunning : (s.workers key).running with
        | true => exact .inl rfl
        | false =>
          rw [hrunning, Bool.toNat_false] at hlive
          exact .inr (by omega)
      · split at hroom <;> simp at hroom
  | some k =>
    dsimp only at hroom
    split at hroom
    · simp at hroom
    · split at hroom
      · simp at hroom
      · split at hroom
        · rename_i hold
          obtain rfl := Except.ok.inj (Option.some.inj hroom)
          rw [Pool.oldest, Bool.and_eq_true, Bool.and_eq_true, decide_eq_true_eq, decide_eq_true_eq] at hold
          obtain ⟨⟨hmem, hidle⟩, -⟩ := hold
          obtain ⟨hkeys, hboth⟩ := List.mem_filter.mp hmem
          refine ⟨.inr ⟨k, hkeys, rfl⟩, .inr ?_⟩
          have hload := h.load_evict hkeys (Bool.and_eq_true_iff.mp hboth).2 hidle
          have hbound := h.bound
          change (s.evict k).load + s.oneshots < maxChildren
          omega
        · simp at hroom

/-- The engine of a call is used. -/
theorem Pool.Sound.use (h : s.Sound maxChildren) (key : κ) :
    (s.use key).Sound maxChildren ∧ (s.use key).load = s.load ∧ key ∈ (s.use key).keys := by
  -- first the worker's start, then its use
  have hstart : ∃ t : Pool κ ι, t.Sound maxChildren ∧ t.load = s.load ∧ key ∈ t.keys ∧
      t = { s with keys := if key ∈ s.keys then s.keys else s.keys ++ [key] } := by
    refine ⟨_, ?_, ?_, ?_, rfl⟩
    all_goals by_cases hkey : key ∈ s.keys
    · rw [if_pos hkey]
      exact h
    · rw [if_neg hkey]
      refine ⟨?_, fun k hk => h.fresh k fun hmem => hk (List.mem_append_left _ hmem), h.sound, ?_, fun i => ?_⟩
      · exact List.nodup_append.mpr ⟨h.nodup, List.nodup_singleton key, fun a ha b hb heq =>
          hkey (List.mem_singleton.mp hb ▸ heq ▸ ha)⟩
      · have hbound := h.bound
        rw [Pool.load] at hbound ⊢
        dsimp only
        rw [List.countP_append, List.countP_singleton, h.fresh key hkey]
        exact hbound
      · rw [Pool.partsOut]
        dsimp only
        rw [List.flatMap_append, partsOf_append, List.flatMap_singleton, h.fresh key hkey]
        exact h.parts i
    · rw [if_pos hkey]
    · rw [if_neg hkey, Pool.load]
      dsimp only
      rw [List.countP_append, List.countP_singleton, h.fresh key hkey]
      rfl
    · dsimp only
      rwa [if_pos hkey]
    · dsimp only
      rw [if_neg hkey]
      exact List.mem_append_right _ (List.mem_singleton.mpr rfl)
  obtain ⟨t, ht, hload, hmem, heq⟩ := hstart
  have huse : s.use key = t.setWorker key { t.workers key with lastUsed := t.now } := by
    rw [heq]
    rfl
  have hquiet : Quiet t.closing t.flags (t.workers key) { t.workers key with lastUsed := t.now } :=
    ⟨rfl, rfl, rfl, fun h => h, fun hs => ⟨hs.pending, hs.depth, hs.order, hs.child, hs.skipped, hs.ended⟩⟩
  refine ⟨huse ▸ ht.quiet hmem hquiet, ?_, huse ▸ hmem⟩
  have hupdate := countP_update (fun _ => Worker.running) hmem ht.nodup t.workers
    { t.workers key with lastUsed := t.now }
  rw [huse, ← hload]
  exact Nat.add_right_cancel hupdate

/-- A worker with one call more. -/
theorem Worker.push_sound {closing : Bool} {flags : List Bool} {w : Worker ι} (h : w.Sound closing flags) (c : Call ι)
    (hdepth : w.pending < WORKER_QUEUE_DEPTH) : (w.push c).Sound closing flags ∧
      (w.push c).outstanding = w.outstanding ++ [c] := by
  have hqueued : queued (w.queue ++ [.call c]) = queued w.queue ++ [c] := by
    rw [queued, List.filterMap_append]
    rfl
  have hout : (w.push c).outstanding = w.outstanding ++ [c] := by
    rw [Worker.outstanding, Worker.push, Worker.outstanding, hqueued, List.append_assoc]
  refine ⟨⟨?_, hdepth, ?_, fun hc => ?_, h.skipped, h.ended⟩, hout⟩
  · have hpending := h.pending
    dsimp only [Worker.push]
    rw [hqueued, List.length_append, List.length_singleton]
    omega
  · rw [hout, ← List.append_assoc]
    exact congrArg (· ++ [c]) h.order
  · rcases h.child hc with h | h | h
    · exact .inl h
    · refine .inr (.inl ?_)
      rw [Worker.retiring, Bool.or_eq_true] at h ⊢
      exact h.imp_right fun h => by rw [Worker.push, List.any_append, h, Bool.true_or]
    · exact .inr (.inr h)

variable [DecidableEq ι]

/-- **A call that is queued**, of a composite that has none out. -/
theorem Pool.Sound.queue (h : s.Sound maxChildren) {key : κ} (hkey : key ∈ s.keys) {id : ι} {part : Option ℕ}
    (hplace : (s.workers key).running = true ∨ s.load + s.oneshots < maxChildren)
    (hpart : ∀ i, part = some i → i < s.composites.length ∧ s.sent i = false) :
    (s.queue key id part).Sound maxChildren := by
  unfold Pool.queue
  split
  · exact h.same rfl rfl (Later.refl _ _) h.bound fun _ => rfl
  · rename_i hdepth
    dsimp only
    generalize part.bind (fun i => (s.composites[i]?).bind fun c => s.registered c.id) = shared
    have hlater : Later s.closing s.closing s.flags (if shared.isSome then s.flags else s.flags ++ [false]) := by
      split
      · exact Later.refl _ _
      · exact Later.snoc _ _
    obtain ⟨hsound, hout⟩ := Worker.push_sound ((h.sound key).later hlater)
      ⟨id, shared.getD s.flags.length, part⟩ (Nat.lt_of_not_le hdepth)
    refine h.update hkey rfl rfl hlater hsound ?_ fun i => ?_
    · have hbound := h.bound
      have hpush := Bool.toNat_le ((s.workers key).push ⟨id, shared.getD s.flags.length, part⟩).running
      change s.load + _ + s.oneshots ≤ _
      rcases hplace with hrunning | hroom
      · rw [hrunning, Bool.toNat_true]
        omega
      · omega
    · rw [hout, partsOf_append, partsOf_cons]
      have hsent := s.any_sentPart part true i
      change _ = _ + (((s.sentPart part true)[i]?).any Composite.waiting).toNat
      rw [hsent]
      by_cases hi : part = some i
      · rw [if_pos ⟨hi, (hpart i hi).1⟩, (hpart i hi).2]
        simp [partsOf, hi]
      · rw [if_neg fun hboth => hi hboth.1]
        simp [partsOf, hi]

/-- **What a step does.** -/
inductive Pool.Stepped (maxChildren : ℕ) (e : Pool.Event κ ι) (s s' : Pool κ ι) : Prop
  | still (hkeys : s'.keys = s.keys) (hworkers : s'.workers = s.workers) (hcomposites : s'.composites = s.composites)
      (hcancels : s'.cancels = s.cancels) (hinFlight : s'.inFlight = s.inFlight)
      (hlater : Later s.closing s'.closing s.flags s'.flags) (hflags : s'.flags.length = s.flags.length)
      (hbound : s.load + s'.oneshots ≤ maxChildren)
  | told (key : κ) (w : Worker ι) (hkey : key ∈ s.keys) (hw : Quiet s.closing s.flags (s.workers key) w)
      (hs : s' = s.setWorker key w)
  | worked (key : κ) (hkey : key ∈ s.keys) (hw : Worked s s' key)
  | queued (t : Pool κ ι) (key : κ) (id : ι) (part : Option ℕ) (now : ℕ)
      (hfrom : t = s ∨ ∃ k ∈ s.keys, t = s.evict k)
      (hplace : (t.workers key).running = true ∨ t.load + t.oneshots < maxChildren)
      (hpart : ∀ i, part = some i → s.sent i = false ∧ ∃ c, s.composites[i]? = some c ∧ c.ended = false)
      (hid : s.fresh e = true → id ∉ s.inFlight) (hs : s' = { (t.use key).queue key id part with now := now })
  | began (id : ι) (hid : s.fresh e = true → id ∉ s.inFlight)
      (hs : s' = { s.register id s.flags.length with
        composites := s.composites ++ [⟨id, s.flags.length, false, false⟩]
        flags := s.flags ++ [false] })
  | ended (i : ℕ) (c : Composite ι) (hc : s.composites[i]? = some c) (hopen : c.ended = false)
      (hs : s' = { s.forget c.id with composites := s.composites.modify i fun c => { c with ended := true } })

theorem Pool.enqueue_stepped {e : Pool.Event κ ι} {u : Pool κ ι} (h : s.Sound maxChildren) {key : κ} {id : ι}
    {part : Option ℕ} {victim : Option κ}
    (hpart : ∀ i, part = some i → s.sent i = false ∧ ∃ c, s.composites[i]? = some c ∧ c.ended = false) (hid : s.fresh e = true → id ∉ s.inFlight) (now : ℕ)
    (henqueue : s.enqueue maxChildren key id part victim = some u) :
    Pool.Stepped maxChildren e s { u with now := now } := by
  unfold Pool.enqueue at henqueue
  obtain ⟨r, hroom, rfl⟩ := Option.map_eq_some_iff.mp henqueue
  cases r with
  | error why => exact .still rfl rfl rfl rfl rfl (Later.refl _ _) rfl h.bound
  | ok t =>
    obtain ⟨hfrom, hplace⟩ := Pool.room_ok h hroom
    exact .queued t key id part now hfrom hplace hpart hid rfl

/-- One round of admission. -/
theorem Pool.oneshot_stepped {e : Pool.Event κ ι} (h : s.Sound maxChildren) {rank : κ → ℕ} {victim : Option κ}
    (hround : s.admitOneshot maxChildren rank victim = some s') : Pool.Stepped maxChildren e s s' := by
  have hlength : s.allLive.length = s.load := by rw [Pool.load, List.countP_eq_length_filter, Pool.allLive]
  unfold Pool.admitOneshot at hround
  dsimp only at hround
  split at hround
  · rename_i hrule
    obtain rfl := Option.some.inj hround
    have hplace : s.load + s.oneshots < maxChildren := by
      rw [← hlength]
      by_contra hnot
      rw [Pool.admitRule, if_neg hnot] at hrule
      split at hrule <;> simp at hrule
    exact .still rfl rfl rfl rfl rfl (Later.refl _ _) rfl hplace
  · split at hround
    · rename_i hidle
      obtain rfl := Option.some.inj hround
      have hmem := of_decide_eq_true (Bool.and_eq_true_iff.mp hidle).1
      exact .told _ _ (List.mem_of_mem_filter (List.mem_of_mem_filter hmem)) (Worker.evict_quiet _ _ _) rfl
    · simp at hround
  · obtain rfl := Option.some.inj hround
    exact .still rfl rfl rfl rfl rfl (Later.refl _ _) rfl h.bound
  · simp at hround

omit [DecidableEq κ] in
/-- A flag that is set stays set. -/
theorem Pool.cancel_later (s : Pool κ ι) (id : ι) :
    Later s.closing (s.cancel id).closing s.flags (s.cancel id).flags := by
  unfold Pool.cancel
  split
  · refine ⟨fun hclosing => hclosing, fun i hi => ?_⟩
    rw [List.getElem?_set]
    split
    · split
      · rfl
      · rename_i heq hlength
        rw [List.getElem?_eq_none_iff.mpr (Nat.le_of_not_lt (heq ▸ hlength))] at hi
        simp at hi
    · exact hi
  · exact Later.refl _ _

theorem Pool.step_stepped (h : s.Sound maxChildren) {rank : κ → ℕ} {e : Pool.Event κ ι}
    (hstep : Pool.step maxChildren rank s e = some s') : Pool.Stepped maxChildren e s s' := by
  unfold Pool.step at hstep
  cases e with
  | submit key id victim =>
    dsimp only at hstep
    split at hstep
    · simp at hstep
    · obtain ⟨u, hu, rfl⟩ := Option.map_eq_some_iff.mp hstep
      exact Pool.enqueue_stepped h (fun i hi => absurd hi (by simp)) of_decide_eq_true _ hu
  | compose id =>
    dsimp only at hstep
    split at hstep
    · simp at hstep
    · exact .began id of_decide_eq_true (Option.some.inj hstep).symm
  | part key id composite victim =>
    dsimp only at hstep
    split at hstep
    · simp at hstep
    · rename_i c hc
      split at hstep
      · simp at hstep
      · rename_i hfree
        obtain ⟨u, hu, rfl⟩ := Option.map_eq_some_iff.mp hstep
        refine Pool.enqueue_stepped h (fun i hi => ?_) of_decide_eq_true _ hu
        obtain rfl := Option.some.inj hi
        simp only [Bool.or_eq_true, not_or, Bool.not_eq_true] at hfree
        refine ⟨?_, c, hc, hfree.1.2⟩
        rw [Pool.sent, hc, Option.any_some, hfree.1.1.2]
  | composed composite =>
    dsimp only at hstep
    split at hstep
    · simp at hstep
    · rename_i c hc
      split at hstep
      · simp at hstep
      · rename_i hopen
        refine .ended composite c hc ?_ (Option.some.inj hstep).symm
        cases he : c.ended with
        | false => rfl
        | true => simp [he] at hopen
  | cancel id =>
    obtain rfl := Option.some.inj hstep
    have hlater := s.cancel_later id
    unfold Pool.cancel at hlater ⊢
    split at hlater
    · exact .still rfl rfl rfl rfl rfl hlater List.length_set h.bound
    · exact .still rfl rfl rfl rfl rfl hlater rfl h.bound
  | notify key =>
    dsimp only at hstep
    split at hstep
    · rename_i hkey
      exact .told key _ hkey.2 (quiet_append rfl (fun hhello => hhello) .inl) (Option.some.inj hstep).symm
    · simp at hstep
  | outOfScope key =>
    dsimp only at hstep
    split at hstep
    · rename_i hkey
      exact .told key _ hkey.2.2.1 (Worker.evict_quiet _ _ _) (Option.some.inj hstep).symm
    · simp at hstep
  | oneshot victim =>
    dsimp only at hstep
    split at hstep
    · simp at hstep
    · exact Pool.oneshot_stepped h hstep
  | release =>
    dsimp only at hstep
    split at hstep
    · obtain rfl := Option.some.inj hstep
      have hbound := h.bound
      exact .still rfl rfl rfl rfl rfl (Later.refl _ _) rfl
        (Nat.le_trans (Nat.add_le_add_left (Nat.sub_le _ _) _) hbound)
    · simp at hstep
  | shutdown cancelRunning =>
    obtain rfl := Option.some.inj hstep
    refine .still rfl rfl rfl rfl rfl ⟨fun _ => rfl, fun i hi => ?_⟩ ?_ h.bound
    · dsimp only
      split
      · rw [List.getElem?_mapIdx]
        cases hflag : s.flags[i]? with
        | none => simp [hflag] at hi
        | some f =>
          rw [hflag, Option.getD_some] at hi
          simp [hi]
      · exact hi
    · dsimp only
      split
      · exact List.length_mapIdx
      · rfl
  | worker key e =>
    dsimp only at hstep
    split at hstep
    · rename_i hkey
      exact .worked key hkey (work_worked (h.sound key) hstep)
    · simp at hstep

omit [DecidableEq ι] in
/-- Making room keeps what holds. -/
theorem Pool.Sound.of_room {t : Pool κ ι} (h : s.Sound maxChildren) (hfrom : t = s ∨ ∃ k ∈ s.keys, t = s.evict k) :
    t.Sound maxChildren ∧ t.composites = s.composites ∧ t.inFlight = s.inFlight := by
  rcases hfrom with rfl | ⟨k, hk, rfl⟩
  · exact ⟨h, rfl, rfl⟩
  · exact ⟨h.evict hk, rfl, rfl⟩

/-- **A step keeps what holds.** -/
theorem Pool.Sound.step {e : Pool.Event κ ι} (h : s.Sound maxChildren) (hstep : Pool.Stepped maxChildren e s s') :
    s'.Sound maxChildren := by
  cases hstep with
  | still hkeys hworkers hcomposites _ _ hlater _ hbound =>
    exact h.same hkeys hworkers hlater hbound fun i => by rw [Pool.sent, hcomposites, Pool.sent]
  | told key w hkey hw hs => exact hs ▸ h.quiet hkey hw
  | worked key hkey hw => exact hw.sound h hkey
  | queued t key id part now hfrom hplace hpart _ hs =>
    subst hs
    obtain ⟨ht, hcomposites, -⟩ := h.of_room hfrom
    obtain ⟨huse, hload, hmem⟩ := ht.use key
    have hkept : ((t.use key).queue key id part).Sound maxChildren := by
      refine huse.queue hmem ?_ fun i hi => ?_
      · rw [hload]
        refine hplace.imp_left fun hrunning => ?_
        rw [Pool.use, Pool.setWorker]
        dsimp only
        rw [Function.update_self]
        exact hrunning
      · obtain ⟨hsent, c, hc, -⟩ := hpart i hi
        rw [Pool.sent, ← hcomposites] at hsent
        rw [← hcomposites] at hc
        exact ⟨(List.getElem?_eq_some_iff.mp hc).1, hsent⟩
    exact hkept.same rfl rfl (Later.refl _ _) hkept.bound fun _ => rfl
  | began id _ hs =>
    subst hs
    refine h.same rfl rfl (Later.snoc _ _) h.bound fun i => ?_
    rw [Pool.sent, Pool.sent]
    dsimp only
    rw [List.getElem?_append]
    split
    · rfl
    · rename_i hi
      rw [List.getElem?_eq_none_iff.mpr (Nat.le_of_not_lt hi), List.getElem?_singleton]
      split <;> rfl
  | ended i c _ _ hs =>
    subst hs
    refine h.same rfl rfl (Later.refl _ _) h.bound fun j => ?_
    rw [Pool.sent, Pool.sent]
    dsimp only
    rw [List.getElem?_modify]
    split
    · cases s.composites[j]? <;> rfl
    · simp

omit [DecidableEq κ] [DecidableEq ι] in
theorem Pool.new_sound (maxChildren : ℕ) : (Pool.new : Pool κ ι).Sound maxChildren :=
  ⟨List.nodup_nil, fun _ _ => rfl, fun _ => Worker.fresh_sound _ _, Nat.zero_le _, fun _ => rfl⟩

/-- **What holds of a pool holds in every run.** -/
theorem Pool.Pools.sound {rank : κ → ℕ} (h : Pool.Pools maxChildren rank s) : s.Sound maxChildren :=
  @Machine.Steps.inv _ _ _ _ (fun s : Pool κ ι => s.Sound maxChildren)
    (fun _ _ _ hs _ hstep => hs.step (Pool.step_stepped hs hstep)) _ _ h (Pool.new_sound maxChildren)

/-! ## 6. The bound -/

/-- **The children bound**, in every run: the engines with a child, or about to have one, and the one-shot
children are no more than it; and neither are the children that run, but for those that are told to end. -/
theorem children_bounded {rank : κ → ℕ} (h : Pool.Pools maxChildren rank s) :
    s.allLive.length + s.oneshots ≤ maxChildren ∧
      (s.keys.filter fun k => (s.workers k).child && !(s.workers k).retiring).length + s.oneshots ≤ maxChildren := by
  have hs := h.sound
  have hlive : s.allLive.length = s.load := by rw [Pool.load, List.countP_eq_length_filter, Pool.allLive]
  have hchildren : (s.keys.filter fun k => (s.workers k).child && !(s.workers k).retiring).length ≤ s.load := by
    rw [Pool.load, ← List.countP_eq_length_filter]
    refine List.countP_mono_left fun k _ hk => ?_
    obtain ⟨hchild, hnot⟩ := Bool.and_eq_true_iff.mp hk
    refine ((hs.sound k).counted hchild).resolve_right fun hretiring => ?_
    rw [hretiring] at hnot
    simp at hnot
  have hbound := hs.bound
  omega

theorem children_bounded_sample :
    ∃ s, samplePool 9 = some s ∧ s.allLive = [1] ∧ (s.workers 0).child = true ∧
      s.allLive.length + s.oneshots ≤ 1 :=
  have h : ∃ s, samplePool 9 = some s ∧ s.allLive = [1] ∧ (s.workers 0).child = true := ⟨_, rfl, rfl, rfl⟩
  h.elim fun s hs => ⟨s, hs.1, hs.2.1, hs.2.2, (children_bounded (samplePool_pools 9 hs.1)).1⟩

/-! ## 7. The calls -/

/-- **Calls in order**, in every run: each worker is done with the calls it was given in the order it was given
them, each once; it has no more queued than its queue takes; and a call that was not answered was cancelled, or
the pool is closing. -/
theorem calls_in_order {rank : κ → ℕ} (h : Pool.Pools maxChildren rank s) (key : κ) :
    (s.workers key).accepted = (s.workers key).ended.map Prod.fst ++ (s.workers key).outstanding ∧
      (queued (s.workers key).queue).length ≤ WORKER_QUEUE_DEPTH ∧
        ∀ e ∈ (s.workers key).ended, justified s.closing s.flags e := by
  have hs := h.sound.sound key
  refine ⟨hs.order, ?_, hs.ended⟩
  have hpending := hs.pending
  have hdepth := hs.depth
  omega

theorem calls_in_order_sample :
    ∃ s, samplePool 8 = some s ∧ (s.workers 0).ended.map Prod.snd = [.answered] ∧
      (s.workers 0).accepted = (s.workers 0).ended.map Prod.fst ++ (s.workers 0).outstanding :=
  have h : ∃ s, samplePool 8 = some s ∧ (s.workers 0).ended.map Prod.snd = [.answered] := ⟨_, rfl, rfl⟩
  h.elim fun s hs => ⟨s, hs.1, hs.2, (calls_in_order (samplePool_pools 8 hs.1) 0).1⟩

/-! ## 8. Composites -/

/-- **One part at a time**, in every run: a composite has one part out at most, which it waits for. -/
theorem one_part_out {rank : κ → ℕ} (h : Pool.Pools maxChildren rank s) (i : ℕ) :
    s.partsOut i ≤ 1 ∧ (s.partsOut i = 1 ↔ s.sent i = true) := by
  rw [h.sound.parts i]
  exact ⟨Bool.toNat_le _, Bool.toNat_eq_one⟩

theorem one_part_out_sample : ∃ s, samplePool 4 = some s ∧ s.sent 0 = true ∧ s.partsOut 0 = 1 :=
  have h : ∃ s, samplePool 4 = some s ∧ s.sent 0 = true := ⟨_, rfl, rfl⟩
  h.elim fun s hs => ⟨s, hs.1, hs.2, (one_part_out (samplePool_pools 4 hs.1) 0).2.mpr hs.2⟩

end Steps

end Threads

end AlSem.Mcp
