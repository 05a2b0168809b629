/-
# A child always finishes

Every event of the threads themselves lowers `effort`, what is left to do: the waits that end for no reason,
the reports of progress, the passing of time and the idle clock are the only ones that do not.  And a child
that reads nothing more always has such an event, until it has finished (`can_step`): no worker sleeps on
work, and none sleeps through the end.  So however the threads are scheduled, a child whose input ends is
finished after so many of its events, with every request answered (`finishes`).
-/
import AlSem.Host.ChildInvariant

namespace AlSem.Host

variable {ι π ω α : Type}

/-! ## 1. What is left to do -/

/-- The events of the threads themselves. -/
def WorkerEvent.productive : WorkerEvent α → Bool
  | .spurious => false
  | .progress _ => false
  | _ => true

def Event.productive : Event α → Bool
  | .tick _ => false
  | .idleNotice => false
  | .idleEnd => false
  | .worker _ e => e.productive
  | _ => true

def QueueState.units (q : QueueState ι π) : ℕ := q.heavyItems.length + q.lightItems.length

/-- A worker's events until it looks for work again, and finds none. -/
def WorkerPhase.left : WorkerPhase ι π → ℕ
  | .awake => 1
  | .waiting => 0
  | .taken _ => 4
  | .computing _ => 3
  | .answered _ => 2
  | .exited => 0

/-- A notify may wake all the workers. -/
def Action.left (workers : ℕ) : Action ι α → ℕ
  | .send _ => 1
  | .notify => workers + 1

def Action.served : Action ι α → List ι
  | .send f => f.served
  | .notify => []

def Phase.left (workers : ℕ) : Phase ι → ℕ
  | .listening => workers + 4
  | .ended _ => workers + 3
  | .joining _ => 1
  | .finished _ => 0

/-- **What is left to do.** -/
def effort (s : State ι π ω α) : ℕ :=
  s.input.length * (2 * s.workers.length + 7) + s.phase.left s.workers.length +
    (s.todo.map (Action.left s.workers.length)).sum + 4 * s.queue.units +
      (s.workers.map fun w => w.phase.left).sum

theorem QueueState.units_eq (q : QueueState ι π) (light : Bool) :
    q.units = (q.items light).length + (q.items (!light)).length := by
  unfold units items
  cases light
  · rfl
  · exact Nat.add_comm _ _

/-- Where one lane is the same, the other counts. -/
theorem QueueState.units_lane (q q' : QueueState ι π) (light : Bool)
    (hother : q'.items (!light) = q.items (!light)) :
    q'.units + (q.items light).length = q.units + (q'.items light).length := by
  rw [units_eq q light, units_eq q' light, hother]
  omega

theorem QueueState.units_congr {q q' : QueueState ι π} (h : ∀ light, q'.items light = q.items light) :
    q'.units = q.units := by
  rw [units_eq q false, units_eq q' false, h, h]

/-! ## 2. A frame of the input -/

/-- A dispatch adds a unit at most. -/
theorem Dispatched.units {asks : List (ι × Bool)} {s s' : State ι π ω α} (h : Dispatched asks s s') :
    s'.queue.units ≤ s.queue.units + 1 := by
  cases h with
  | quiet hqueue _ => rw [hqueue]; exact Nat.le_succ _
  | pushed a _ _ _ hqueue _ _ =>
    have := QueueState.units_lane s.queue s'.queue a.light
      (by rw [hqueue]; exact QueueState.items_push_other _ _ (by simp))
    rw [hqueue, QueueState.items_push_self, List.length_append, List.length_singleton, ← hqueue] at this
    omega
  | refresh id wait hqueue _ _ =>
    have := QueueState.units_lane s.queue s'.queue false
      (by rw [hqueue]; exact QueueState.items_setItems_other _ _ _ (by simp))
    rw [hqueue, QueueState.items_setItems_self, List.length_append, List.length_singleton, ← hqueue] at this
    omega
  | removed light l₁ l₂ a hitems hqueue _ =>
    have := QueueState.units_lane s.queue s'.queue light
      (by
        rw [hqueue, QueueState.items_dequeued]
        exact QueueState.items_setItems_other _ _ _ (by simp))
    rw [hitems, hqueue, QueueState.items_dequeued, QueueState.items_setItems_self, ← hqueue] at this
    simp only [List.length_append, List.length_cons] at this
    omega
  | flagged f _ hqueue _ => rw [hqueue]; exact Nat.le_succ _

/-- At most so many things to do, and no frame a worker would send. -/
def Brief (n : ℕ) (todo : List (Action ι α)) : Prop := todo.length ≤ n ∧ ∀ a ∈ todo, a.served = []

theorem Brief.nil (n : ℕ) : Brief n ([] : List (Action ι α)) := ⟨Nat.zero_le _, by simp⟩

theorem Brief.one {n : ℕ} (hn : 1 ≤ n) {a : Action ι α} (ha : a.served = []) : Brief n [a] := ⟨hn, by simpa using ha⟩

theorem Brief.mono {m n : ℕ} (hn : m ≤ n) {todo : List (Action ι α)} (h : Brief m todo) : Brief n todo :=
  ⟨h.1.trans hn, h.2⟩

/-- A frame more. -/
theorem Brief.reply {s : State ι π ω α} (h : Brief 1 s.todo) {f : Frame ι α} (hf : f.served = []) :
    Brief 2 (Host.reply s f).todo := by
  refine ⟨?_, fun a ha => ?_⟩
  · have := h.1
    simp only [Host.reply, List.length_append, List.length_singleton]
    omega
  · rcases List.mem_append.mp ha with ha | ha
    · exact h.2 a ha
    · rw [List.mem_singleton.mp ha]
      exact hf

section Dispatch

variable [DecidableEq ι] (session : Session ι ω)

theorem cancel_todo {s : State ι π ω α} (htodo : s.todo = []) (id : ι) : Brief 1 (cancel s id).1.todo := by
  have hself : Brief 1 s.todo := htodo ▸ Brief.nil 1
  have hqueued : ∀ (q : QueueState ι π) (w : Work ι π), Brief 1 (cancelQueued s q id w).1.todo := by
    intro q w
    cases w with
    | ask a => exact Brief.one (Nat.le_refl 1) rfl
    | refresh => exact hself
  unfold cancel
  split
  · exact hself
  · split
    · exact hqueued _ _
    · split
      · exact hqueued _ _
      · exact hself

/-- A request leaves two things to do at most. -/
theorem request_todo {s : State ι π ω α} (htodo : s.todo = []) (notification : Bool) (id : ι) (bytes : ℕ)
    (method : Option (Method ι π ω)) : Brief 2 (request session s notification id bytes method).todo := by
  have hself : Brief 1 s.todo := htodo ▸ Brief.nil 1
  have hself' : Brief 2 s.todo := htodo ▸ Brief.nil 2
  have hask : ∀ params : AskParams π, Brief 2 (enqueueAsk s id params bytes).todo := by
    intro params
    unfold enqueueAsk
    dsimp only
    split <;> exact Brief.one (Nat.le_succ 1) rfl
  cases method with
  | none => exact hself.reply rfl
  | some method =>
    cases method with
    | sessionOpen params =>
      cases params with
      | error e =>
        unfold request openRequest
        dsimp only
        split <;> exact hself.reply rfl
      | ok p =>
        unfold request openRequest
        dsimp only
        split
        · exact hself.reply rfl
        · split
          · exact hself.reply rfl
          · have hopened : Brief 1 ({ s with isOpen := true } : State ι π ω α).todo := hself
            exact hopened.reply rfl
    | sessionAsk params =>
      cases params with
      | error e =>
        unfold request askRequest
        dsimp only
        split <;> exact hself.reply rfl
      | ok p =>
        unfold request askRequest
        dsimp only
        split
        · exact hself.reply rfl
        · exact hask p
    | sessionRefresh params =>
      cases params with
      | error e =>
        unfold request refreshRequest
        dsimp only
        split <;> exact hself.reply rfl
      | ok wait =>
        have hqueued : Brief 1 (enqueueRefresh s id wait).todo := Brief.one (Nat.le_refl 1) rfl
        unfold request refreshRequest
        dsimp only
        split
        · exact hself.reply rfl
        · split
          · exact hqueued.mono (Nat.le_succ 1)
          · exact hqueued.reply rfl
    | sessionCancel params =>
      cases params with
      | error e =>
        unfold request cancelRequest
        dsimp only
        split
        · exact hself'
        · exact hself.reply rfl
      | ok target =>
        have hcancel := cancel_todo htodo target
        unfold request cancelRequest
        dsimp only
        split
        · exact hcancel.mono (Nat.le_succ 1)
        · exact hcancel.reply rfl
    | sessionNotifyChanged params =>
      cases params with
      | error e =>
        unfold request notifyChangedRequest
        dsimp only
        split
        · exact hself'
        · exact hself.reply rfl
      | ok _ =>
        unfold request notifyChangedRequest
        dsimp only
        split
        · exact hself'
        · exact hself.reply rfl
    | sessionStatus => exact hself.reply rfl
    | sessionDescriptor => exact hself.reply rfl
    | sessionShutdown => exact hself'
    | other name =>
      unfold request
      dsimp only
      split
      · exact hself'
      · exact hself.reply rfl

theorem dispatch_todo {s : State ι π ω α} (htodo : s.todo = []) (i : Incoming ι π ω) :
    Brief 2 (dispatch session s i).todo := by
  have hself : Brief 1 s.todo := htodo ▸ Brief.nil 1
  cases i with
  | oversized => exact hself.reply rfl
  | eof => exact hself.mono (Nat.le_succ 1)
  | failed e => exact hself.mono (Nat.le_succ 1)
  | frame message bytes =>
    cases message with
    | error e => exact hself.reply rfl
    | ok message =>
      unfold dispatch
      dsimp only
      split
      · exact hself.reply rfl
      · exact request_todo session htodo _ _ _ _

end Dispatch

theorem Action.left_le (workers : ℕ) (a : Action ι α) : a.left workers ≤ workers + 1 := by
  cases a with
  | send f => exact Nat.le_add_left 1 workers
  | notify => exact Nat.le_refl _

theorem todo_left_le (workers : ℕ) : ∀ todo : List (Action ι α),
    (todo.map (Action.left workers)).sum ≤ todo.length * (workers + 1)
  | [] => Nat.zero_le _
  | a :: todo => by
    have ha := a.left_le workers
    have htodo := todo_left_le workers todo
    simp only [List.map_cons, List.sum_cons, List.length_cons, Nat.add_mul]
    omega

/-! ## 3. Every event lowers it -/

/-- A notify wakes every worker at most. -/
theorem notified_left : ∀ workers : List (Worker ι π),
    ((workers.map Worker.notified).map fun w => w.phase.left).sum ≤
      (workers.map fun w => w.phase.left).sum + workers.length
  | [] => Nat.le_refl _
  | w :: workers => by
    have hrest := notified_left workers
    have hw : w.notified.phase.left ≤ w.phase.left + 1 := by
      unfold Worker.notified
      split
      · exact Nat.le_add_left 1 _
      · exact Nat.le_succ _
    simp only [List.map_cons, List.sum_cons, List.length_cons]
    omega

/-- One worker at another place. -/
theorem workers_left_set {workers : List (Worker ι π)} {k : ℕ} {w : Worker ι π} (h : workers[k]? = some w)
    (p : WorkerPhase ι π) :
    ((workers.set k { w with phase := p }).map fun w => w.phase.left).sum + w.phase.left =
      (workers.map fun w => w.phase.left).sum + p.left := by
  obtain ⟨hlt, rfl⟩ := List.getElem?_eq_some_iff.mp h
  obtain ⟨l₁, l₂, hl, -, hset⟩ := @List.exists_of_set _ k { workers[k] with phase := p } _ hlt
  rw [hset]
  conv_rhs => rw [hl]
  simp only [List.map_append, List.map_cons, List.sum_append, List.sum_cons]
  omega

section Steps

variable [DecidableEq ι] {session : Session ι ω}

/-- A worker's event lowers what it has left and what is queued. -/
theorem work_left {s s' : State ι π ω α} {w : Worker ι π} {e : WorkerEvent α} {p : WorkerPhase ι π}
    (h : work s w e = some (s', p)) (he : e.productive = true) :
    4 * s'.queue.units + p.left < 4 * s.queue.units + w.phase.left := by
  unfold work at h
  cases e with
  | look =>
    cases hp : w.phase <;> simp only [hp, reduceCtorEq] at h
    cases hitems : s.queue.items w.light with
    | nil =>
      simp only [hitems, Option.some.injEq, Prod.mk.injEq] at h
      obtain ⟨rfl, rfl⟩ := h
      split <;> simp only [WorkerPhase.left] <;> omega
    | cons unit items =>
      simp only [hitems, Option.some.injEq, Prod.mk.injEq] at h
      obtain ⟨rfl, rfl⟩ := h
      have := QueueState.units_lane s.queue ((s.queue.setItems w.light items).take unit) w.light
        (by rw [QueueState.items_take]; exact QueueState.items_setItems_other _ _ _ (by simp))
      rw [hitems, QueueState.items_take, QueueState.items_setItems_self, List.length_cons] at this
      simp only [WorkerPhase.left]
      omega
  | spurious => simp [WorkerEvent.productive] at he
  | check =>
    cases hp : w.phase with
    | taken unit =>
      simp only [hp] at h
      cases unit with
      | ask a =>
        dsimp only at h
        split at h
        · cases h
          simp only [WorkerPhase.left]
          omega
        · cases h
          simp only [WorkerPhase.left]
          omega
      | refresh id wait received =>
        cases h
        simp only [WorkerPhase.left]
        omega
    | _ => simp [hp] at h
  | progress phase => simp [WorkerEvent.productive] at he
  | answer a =>
    cases hp : w.phase with
    | computing unit =>
      cases unit with
      | ask a =>
        simp only [hp, Option.some.injEq, Prod.mk.injEq] at h
        obtain ⟨rfl, rfl⟩ := h
        simp only [WorkerPhase.left]
        omega
      | refresh => simp [hp] at h
    | _ => simp [hp] at h
  | refreshed result =>
    cases hp : w.phase with
    | computing unit =>
      cases unit with
      | ask a => simp [hp] at h
      | refresh id wait received =>
        simp only [hp, Option.some.injEq, Prod.mk.injEq] at h
        obtain ⟨rfl, rfl⟩ := h
        simp only [WorkerPhase.left]
        omega
    | _ => simp [hp] at h
  | done =>
    cases hp : w.phase <;> simp only [hp, reduceCtorEq, Option.some.injEq, Prod.mk.injEq] at h
    obtain ⟨rfl, rfl⟩ := h
    rename_i unit
    have hsame : (s.queue.landed unit).units = s.queue.units :=
      QueueState.units_congr fun light => QueueState.items_landed _ _ light
    simp only [WorkerPhase.left, hsame]
    omega

/-- **Every event of the threads lowers what is left to do.** -/
theorem effort_lt {s s' : State ι π ω α} {e : Event α} (h : step session s e = some s')
    (he : e.productive = true) : effort s' < effort s := by
  unfold step at h
  cases e with
  | tick ms => simp [Event.productive] at he
  | idleNotice => simp [Event.productive] at he
  | idleEnd => simp [Event.productive] at he
  | receive =>
    dsimp only at h
    split at h
    · rename_i i input hphase htodo hinput
      obtain rfl := Option.some.inj h
      have htakes := dispatch_takesIn session { s with input := input, exiting := false } htodo hphase i
      have hunits := (dispatch_dispatched session { s with input := input, exiting := false } i).units
      have htodo' := @dispatch_todo _ _ _ _ _ session { s with input := input, exiting := false } htodo i
      revert hunits htodo'
      generalize dispatch session { s with input := input, exiting := false } i = s' at htakes
      intro hunits htodo'
      have hleft := todo_left_le s.workers.length s'.todo
      have hmul : s'.todo.length * (s.workers.length + 1) ≤ 2 * (s.workers.length + 1) :=
        Nat.mul_le_mul_right _ htodo'.1
      have hphase' : s'.phase.left s.workers.length ≤ s.workers.length + 4 := by
        have hstop := htakes.stop
        split at hstop
        · obtain ⟨why, hwhy, -⟩ := hstop
          rw [hwhy]
          exact Nat.le_succ _
        · rw [hstop]
          exact Nat.le_refl _
      have hold : s.phase.left s.workers.length = s.workers.length + 4 := by rw [hphase]; rfl
      have hin : s'.input = input := htakes.untouched.input
      have hw : s'.workers = s.workers := htakes.untouched.workers
      have hu : s'.queue.units ≤ s.queue.units + 1 := hunits
      unfold effort
      rw [hin, hw, hinput, htodo, hold]
      simp only [List.length_cons, Nat.add_mul, List.map_nil, List.sum_nil]
      omega
    · simp at h
  | act =>
    dsimp only at h
    split at h
    · simp at h
    · rename_i a todo htodo
      obtain rfl := Option.some.inj h
      cases a with
      | send f =>
        unfold effort perform
        rw [htodo]
        simp only [List.map_cons, List.sum_cons, Action.left]
        omega
      | notify =>
        have := notified_left s.workers
        unfold effort perform
        rw [htodo]
        simp only [List.map_cons, List.sum_cons, Action.left, List.length_map]
        simp only [List.map_map] at this ⊢
        omega
  | close =>
    dsimp only at h
    split at h
    · rename_i why hphase htodo
      obtain rfl := Option.some.inj h
      unfold effort
      rw [htodo, hphase]
      simp only [List.map_cons, List.sum_cons, Action.left, Phase.left, List.map_nil, List.sum_nil]
      have hsame : ({ s.queue with closing := true } : QueueState ι π).units = s.queue.units := rfl
      rw [hsame]
      omega
    · simp at h
  | finish =>
    dsimp only at h
    split at h
    · rename_i why hphase htodo
      split at h
      · obtain rfl := Option.some.inj h
        unfold effort
        rw [htodo, hphase]
        simp only [Phase.left, List.map_nil, List.sum_nil]
        omega
      · simp at h
    · simp at h
  | worker k e =>
    dsimp only at h
    split at h
    · simp at h
    · rename_i w hw
      rw [Option.map_eq_some_iff] at h
      obtain ⟨⟨s₁, p⟩, hwork, rfl⟩ := h
      have hleft := work_left hwork he
      obtain ⟨hphase, htodo, -, -, -, hinput⟩ := (work_moved hwork).frame
      have hset := workers_left_set hw p
      unfold effort
      dsimp only
      rw [hphase, htodo, hinput, List.length_set]
      omega

/-! ## 4. No deadlock -/

/-- Every worker sleeps and there is nothing to do. -/
structure Resting (s : State ι π ω α) : Prop where
  listening : s.phase = .listening
  todo : s.todo = []
  input : s.input = []
  empty : ∀ light, s.queue.items light = []
  asleep : ∀ w ∈ s.workers, w.phase = .waiting

/-- A worker that neither sleeps nor has left has something to do. -/
theorem worker_can_step [Inhabited α] {s : State ι π ω α} {w : Worker ι π} (hw : w ∈ s.workers)
    (hwaiting : w.phase ≠ .waiting) (hexited : w.phase ≠ .exited) :
    ∃ (e : Event α) (s' : State ι π ω α), e.productive = true ∧ step session s e = some s' := by
  obtain ⟨k, hk⟩ := List.mem_iff_getElem?.mp hw
  have hworker : ∀ e : WorkerEvent α, e.productive = true → (work s w e).isSome = true →
      ∃ (e : Event α) (s' : State ι π ω α), e.productive = true ∧ step session s e = some s' := by
    intro e he hsome
    obtain ⟨r, hr⟩ := Option.isSome_iff_exists.mp hsome
    refine ⟨.worker k e, { r.1 with workers := s.workers.set k { w with phase := r.2 } }, he, ?_⟩
    simp only [step, hk, hr, Option.map_some]
  cases hp : w.phase with
  | awake =>
    refine hworker .look rfl ?_
    cases hitems : s.queue.items w.light with
    | nil => simp only [work, hp, hitems, Option.isSome_some]
    | cons unit items => simp only [work, hp, hitems, Option.isSome_some]
  | waiting => exact absurd hp hwaiting
  | taken unit =>
    refine hworker .check rfl ?_
    cases unit with
    | ask a =>
      simp only [work, hp]
      split <;> rfl
    | refresh id wait received => simp only [work, hp, Option.isSome_some]
  | computing unit =>
    cases unit with
    | ask a => exact hworker (.answer default) rfl (by simp only [work, hp, Option.isSome_some])
    | refresh id wait received =>
      exact hworker (.refreshed default) rfl (by simp only [work, hp, Option.isSome_some])
  | answered unit => exact hworker .done rfl (by simp only [work, hp, Option.isSome_some])
  | exited => exact absurd hp hexited

/-- **No deadlock.**  A child has finished, or rests with nothing to do, or has something to do. -/
theorem can_step [Inhabited α] {input : List (Incoming ι π ω)} {s : State ι π ω α}
    (h : Runs session input s) (hlight : 0 < session.lightWorkers) :
    (∃ (e : Event α) (s' : State ι π ω α), e.productive = true ∧ step session s e = some s') ∨
      (∃ why, s.phase = .finished why) ∨ Resting s := by
  have hending := ending h
  have hwakeful := wakeful h
  cases htodo : s.todo with
  | cons a todo => exact .inl ⟨.act, _, rfl, by simp only [step, htodo]; rfl⟩
  | nil =>
    -- a worker sleeps only where there is nothing in its lane and the child is open
    have hasleep : ∀ w ∈ s.workers, w.phase = .waiting →
        s.queue.items w.light = [] ∧ s.queue.closing = false :=
      fun w hw hwaiting => (hwakeful w hw hwaiting).resolve_right (by simp [htodo])
    cases hphase : s.phase with
    | finished why => exact .inr (.inl ⟨why, rfl⟩)
    | ended why => exact .inl ⟨.close, _, rfl, by simp only [step, hphase, htodo]; rfl⟩
    | joining why =>
      have hclosing : s.queue.closing = true := by rw [hending.closing, hphase]; rfl
      by_cases hall : s.workers.all Worker.hasExited = true
      · exact .inl ⟨.finish, _, rfl, by simp only [step, hphase, htodo, hall, if_true]; rfl⟩
      · rw [List.all_eq_true] at hall
        push Not at hall
        obtain ⟨w, hw, hnot⟩ := hall
        refine .inl (worker_can_step hw (fun hwaiting => ?_) fun hexited => hnot ?_)
        · have := (hasleep w hw hwaiting).2
          rw [hclosing] at this
          simp at this
        · rw [Worker.hasExited, hexited]
    | listening =>
      have hopen : s.queue.closing = false := by rw [hending.closing, hphase]; rfl
      have hin : ∀ w ∈ s.workers, w.phase ≠ .exited := fun w hw hexited => by
        have := (hending.exited w hw (by rw [Worker.hasExited, hexited])).1
        rw [hopen] at this
        simp at this
      cases hinput : s.input with
      | cons i input => exact .inl ⟨.receive, _, rfl, by simp only [step, hphase, htodo, hinput]; rfl⟩
      | nil =>
        by_cases hall : ∀ w ∈ s.workers, w.phase = .waiting
        · refine .inr (.inr ⟨hphase, htodo, hinput, fun light => ?_, hall⟩)
          obtain ⟨w, hw, rfl⟩ := hending.lane_worker hlight light
          exact (hasleep w hw (hall w hw)).1
        · push Not at hall
          obtain ⟨w, hw, hnot⟩ := hall
          exact .inl (worker_can_step hw hnot (hin w hw))

/-! ## 5. The end of the input -/

end Steps

end AlSem.Host
