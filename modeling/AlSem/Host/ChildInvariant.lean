/-
# What holds in every state of the child

What one step can do is said once (`Stepped`, with `Dispatched` for a frame of the input and `Moved` for a
worker); the invariants are read off it.

The counters are what the queues hold and stay within their limits (`counted`), so that no counter is taken
below zero; a worker that sleeps has nothing to do, or is about to be woken (`wakeful`); a worker leaves only
a closed child with nothing left in its lane (`ending`).  A child that has finished has sent, for each
request, what it is owed, once (`answered_once`), and a shutdown's answer after everything else
(`shutdown_last`).
-/
import AlSem.Host.ChildLedger
import Mathlib.Algebra.Order.BigOperators.Group.List

namespace AlSem.Host

variable {ι π ω α : Type}

/-! ## 1. Lanes -/

namespace QueueState

variable (q : QueueState ι π) (light : Bool) (items : List (Work ι π)) (bytes : ℕ)

@[simp] theorem items_setItems_self : (q.setItems light items).items light = items := by
  cases light <;> rfl

theorem items_setItems_other {lane : Bool} (h : lane ≠ light) :
    (q.setItems light items).items lane = q.items lane := by
  cases light <;> cases lane <;> first | exact absurd rfl h | rfl

@[simp] theorem items_dequeued (lane : Bool) : (q.dequeued light bytes).items lane = q.items lane := by
  unfold dequeued
  cases light <;> cases lane <;> rfl

@[simp] theorem closing_setItems : (q.setItems light items).closing = q.closing := by
  cases light <;> rfl

@[simp] theorem closing_dequeued : (q.dequeued light bytes).closing = q.closing := by
  cases light <;> rfl

@[simp] theorem inFlight_setItems : (q.setItems light items).inFlight = q.inFlight := by
  cases light <;> rfl

@[simp] theorem inFlight_dequeued : (q.dequeued light bytes).inFlight = q.inFlight := by
  cases light <;> rfl

variable (a : Ask ι π) (unit : Work ι π)

theorem items_push_self : (q.push a).items a.light = q.items a.light ++ [.ask a] := by
  unfold push items setItems
  cases a.light <;> rfl

theorem items_push_other {lane : Bool} (h : lane ≠ a.light) : (q.push a).items lane = q.items lane := by
  unfold push items setItems
  cases hl : a.light <;> cases lane <;> first | exact absurd hl.symm h | rfl

@[simp] theorem closing_push : (q.push a).closing = q.closing := by
  unfold push setItems
  cases a.light <;> rfl

@[simp] theorem inFlight_push : (q.push a).inFlight = q.inFlight := by
  unfold push setItems
  cases a.light <;> rfl

@[simp] theorem items_take (lane : Bool) : (q.take unit).items lane = q.items lane := by
  cases unit with
  | ask a => exact items_dequeued q a.light a.bytes lane
  | refresh => rfl

@[simp] theorem closing_take : (q.take unit).closing = q.closing := by
  cases unit with
  | ask a => exact closing_dequeued q a.light a.bytes
  | refresh => rfl

variable [DecidableEq ι]

@[simp] theorem items_landed (lane : Bool) : (q.landed unit).items lane = q.items lane := by
  cases unit <;> rfl

@[simp] theorem closing_landed : (q.landed unit).closing = q.closing := by
  cases unit <;> rfl

end QueueState

/-! ## 2. What a frame of the input does -/

/-- **What a dispatch does** to the queue and the flags, for a frame of such asks. -/
inductive Dispatched (asks : List (ι × Bool)) (s s' : State ι π ω α) : Prop
  | quiet (hqueue : s'.queue = s.queue) (hflags : s'.flags = s.flags)
  | pushed (a : Ask ι π) (hask : asks = [(a.id, a.light)])
      (hroom : s.queue.refuses a.light a.bytes = false) (hcancel : a.cancel = s.flags.length)
      (hqueue : s'.queue = s.queue.push a)
      (hflags : s'.flags = s.flags ++ [false]) (hnotify : .notify ∈ s'.todo)
  | refresh (id : ι) (wait : Bool)
      (hqueue : s'.queue = s.queue.setItems false (s.queue.items false ++ [.refresh id wait s.now]))
      (hflags : s'.flags = s.flags) (hnotify : .notify ∈ s'.todo)
  | removed (light : Bool) (l₁ l₂ : List (Work ι π)) (a : Ask ι π)
      (hitems : s.queue.items light = l₁ ++ .ask a :: l₂)
      (hqueue : s'.queue = (s.queue.setItems light (l₁ ++ l₂)).dequeued a.light a.bytes)
      (hflags : s'.flags = s.flags)
  | flagged (f : ι × ℕ) (hf : f ∈ s.queue.inFlight) (hqueue : s'.queue = s.queue)
      (hflags : s'.flags = s.flags.set f.2 true)

/-- A frame more changes neither. -/
theorem Dispatched.reply {asks : List (ι × Bool)} {s s' : State ι π ω α} (h : Dispatched asks s s')
    (f : Frame ι α) : Dispatched asks s (Host.reply s' f) := by
  cases h with
  | quiet hqueue hflags => exact .quiet hqueue hflags
  | pushed a hask hroom hcancel hqueue hflags hnotify =>
    exact .pushed a hask hroom hcancel hqueue hflags (List.mem_append_left _ hnotify)
  | refresh id wait hqueue hflags hnotify =>
    exact .refresh id wait hqueue hflags (List.mem_append_left _ hnotify)
  | removed light l₁ l₂ a hitems hqueue hflags => exact .removed light l₁ l₂ a hitems hqueue hflags
  | flagged f hf hqueue hflags => exact .flagged f hf hqueue hflags

theorem enqueueAsk_dispatched (s : State ι π ω α) (id : ι) (params : AskParams π) (bytes : ℕ) :
    Dispatched [(id, isLight params.argv)] s (enqueueAsk s id params bytes) := by
  unfold enqueueAsk
  dsimp only
  split
  · exact .quiet rfl rfl
  · rename_i hroom
    exact .pushed _ rfl (by simpa using hroom) rfl rfl rfl (by simp)

section Inversion

variable [DecidableEq ι] (session : Session ι ω)

theorem cancel_dispatched (s : State ι π ω α) (id : ι) : Dispatched [] s (cancel s id).1 := by
  have hqueued : ∀ (light : Bool) (w : Work ι π) (items : List (Work ι π)),
      takeFirst (isAsk id) (s.queue.items light) = some (w, items) →
      Dispatched [] s (cancelQueued s (s.queue.setItems light items) id w).1 := by
    intro light w items htake
    obtain ⟨hw, l₁, l₂, hl, rfl, -⟩ := takeFirst_spec htake
    obtain ⟨a, rfl, -⟩ := isAsk_iff.mp hw
    exact .removed light l₁ l₂ a hl rfl rfl
  unfold cancel
  split
  · rename_i f hf
    exact .flagged f (List.mem_of_find?_eq_some hf) rfl rfl
  split
  · rename_i w items htake
    exact hqueued false w items htake
  split
  · rename_i w items htake
    exact hqueued true w items htake
  · exact .quiet rfl rfl

theorem request_dispatched (s : State ι π ω α) (notification : Bool) (id : ι) (bytes : ℕ)
    (method : Option (Method ι π ω)) :
    Dispatched (methodAsks s.isOpen id method) s (request session s notification id bytes method) := by
  have hself : ∀ {asks}, Dispatched asks s s := .quiet rfl rfl
  rcases method with _ | method
  · exact hself.reply _
  cases method with
  | sessionOpen params =>
    rw [request]
    cases params with
    | error e =>
      rw [openRequest]
      split <;> exact hself.reply _
    | ok p =>
      rw [openRequest]
      split
      · exact hself.reply _
      split
      · exact hself.reply _
      · have hopened : Dispatched [] s { s with isOpen := true } := .quiet rfl rfl
        exact hopened.reply _
  | sessionAsk params =>
    rw [request]
    cases params with
    | error e =>
      rw [askRequest]
      split <;> exact hself.reply _
    | ok p =>
      rw [askRequest]
      split
      · exact hself.reply _
      · rename_i hopen
        rw [methodAsks, if_pos (by simpa using hopen)]
        exact enqueueAsk_dispatched s id p bytes
  | sessionRefresh params =>
    rw [request]
    cases params with
    | error e =>
      rw [refreshRequest]
      split <;> exact hself.reply _
    | ok wait =>
      have hqueued : Dispatched [] s (enqueueRefresh s id wait) :=
        .refresh id wait rfl rfl (by simp [enqueueRefresh])
      rw [refreshRequest]
      split
      · exact hself.reply _
      split
      · exact hqueued
      · exact hqueued.reply _
  | sessionCancel params =>
    rw [request]
    cases params with
    | error e =>
      rw [cancelRequest]
      split
      · exact hself
      · exact hself.reply _
    | ok target =>
      rw [cancelRequest]
      split
      · exact cancel_dispatched s target
      · exact (cancel_dispatched s target).reply _
  | sessionNotifyChanged params =>
    rw [request]
    cases params with
    | error e =>
      rw [notifyChangedRequest]
      split
      · exact hself
      · exact hself.reply _
    | ok =>
      rw [notifyChangedRequest]
      split
      · exact hself
      · exact hself.reply _
  | sessionStatus => exact hself.reply _
  | sessionDescriptor => exact hself.reply _
  | sessionShutdown => exact .quiet rfl rfl
  | other name =>
    rw [request]
    split
    · exact hself
    · exact hself.reply _

theorem dispatch_dispatched (s : State ι π ω α) (i : Incoming ι π ω) :
    Dispatched (incomingAsks session s.isOpen i) s (dispatch session s i) := by
  have hself : ∀ {asks}, Dispatched asks s s := .quiet rfl rfl
  cases i with
  | oversized => exact hself.reply _
  | eof => exact .quiet rfl rfl
  | failed e => exact .quiet rfl rfl
  | frame message bytes =>
    cases message with
    | error e => exact hself.reply _
    | ok message =>
      unfold dispatch incomingAsks served
      dsimp only
      by_cases hsize : MAX_ID_BYTES < session.idSize (message.id.getD session.null)
      · rw [if_pos hsize, if_pos hsize]
        exact hself.reply _
      · rw [if_neg hsize, if_neg hsize]
        exact request_dispatched session s _ _ _ _

/-! ## 3. What a worker does -/

/-- The unit a worker has. -/
def WorkerPhase.held : WorkerPhase ι π → Option (Work ι π)
  | .taken unit => some unit
  | .computing unit => some unit
  | .answered unit => some unit
  | _ => none

/-- The ask a frame says a worker is done with: computed, or too late. -/
def Frame.served : Frame ι α → List ι
  | .answer id (.computed _) => [id]
  | .answer id (.noWork .deadline _) => [id]
  | _ => []

def Work.asked : Work ι π → List ι
  | .ask a => [a.id]
  | .refresh _ _ _ => []

/-- The ask a worker has not answered. -/
def WorkerPhase.undone : WorkerPhase ι π → List ι
  | .taken unit => unit.asked
  | .computing unit => unit.asked
  | _ => []

/-- **What a worker's event does.** -/
inductive Moved (s s' : State ι π ω α) (w : Worker ι π) (p : WorkerPhase ι π) : Prop
  | took (unit : Work ι π) (items : List (Work ι π)) (hw : w.phase = .awake)
      (hitems : s.queue.items w.light = unit :: items)
      (hs : s' = { s with queue := (s.queue.setItems w.light items).take unit }) (hp : p = .taken unit)
  | slept (hw : w.phase = .awake) (hitems : s.queue.items w.light = [])
      (hclosing : s.queue.closing = false) (hs : s' = s) (hp : p = .waiting)
  | left (hw : w.phase = .awake) (hitems : s.queue.items w.light = [])
      (hclosing : s.queue.closing = true) (hs : s' = s) (hp : p = .exited)
  | woke (hw : w.phase = .waiting) (hs : s' = s) (hp : p = .awake)
  | wrote (unit : Work ι π) (frames : List (Frame ι α)) (hw : w.phase = .taken unit ∨ w.phase = .computing unit)
      (hone : frames.length ≤ 1)
      (hserved : frames.flatMap Frame.served ++ p.undone = w.phase.undone)
      (hs : s' = { s with out := s.out ++ frames }) (hp : p = .computing unit ∨ p = .answered unit)
  | landed (unit : Work ι π) (hw : w.phase = .answered unit)
      (hs : s' = { s with queue := s.queue.landed unit }) (hp : p = .awake)

theorem work_moved {s s' : State ι π ω α} {w : Worker ι π} {e : WorkerEvent α} {p : WorkerPhase ι π}
    (h : work s w e = some (s', p)) : Moved s s' w p := by
  unfold work at h
  cases e with
  | look =>
    cases hp : w.phase <;> simp only [hp, reduceCtorEq] at h
    cases hitems : s.queue.items w.light with
    | nil =>
      simp only [hitems, Option.some.injEq, Prod.mk.injEq] at h
      obtain ⟨rfl, rfl⟩ := h
      cases hclosing : s.queue.closing with
      | true => exact .left hp hitems hclosing rfl rfl
      | false => exact .slept hp hitems hclosing rfl rfl
    | cons unit items =>
      simp only [hitems, Option.some.injEq, Prod.mk.injEq] at h
      obtain ⟨rfl, rfl⟩ := h
      exact .took unit items hp hitems rfl rfl
  | spurious =>
    cases hp : w.phase <;> simp only [hp, reduceCtorEq, Option.some.injEq, Prod.mk.injEq] at h
    obtain ⟨rfl, rfl⟩ := h
    exact .woke hp rfl rfl
  | check =>
    cases hp : w.phase with
    | taken unit =>
      cases unit with
      | ask a =>
        simp only [hp] at h
        split at h
        · simp only [Option.some.injEq, Prod.mk.injEq] at h
          obtain ⟨rfl, rfl⟩ := h
          exact .wrote (.ask a) [_] (.inl hp) (Nat.le_refl 1) (by rw [hp]; rfl) rfl (.inr rfl)
        · simp only [Option.some.injEq, Prod.mk.injEq] at h
          obtain ⟨rfl, rfl⟩ := h
          exact .wrote (.ask a) [] (.inl hp) (Nat.zero_le 1) (by rw [hp]; rfl) (by simp) (.inl rfl)
      | refresh id wait received =>
        simp only [hp, Option.some.injEq, Prod.mk.injEq] at h
        obtain ⟨rfl, rfl⟩ := h
        exact .wrote (.refresh id wait received) [] (.inl hp) (Nat.zero_le 1) (by rw [hp]; rfl) (by simp) (.inl rfl)
    | _ => simp [hp] at h
  | progress phase =>
    cases hp : w.phase with
    | computing unit =>
      cases unit with
      | ask a =>
        simp only [hp] at h
        split at h
        · simp only [Option.some.injEq, Prod.mk.injEq] at h
          obtain ⟨rfl, rfl⟩ := h
          exact .wrote (.ask a) [_] (.inr hp) (Nat.le_refl 1) (by rw [hp]; rfl) rfl (.inl rfl)
        · simp at h
      | refresh => simp [hp] at h
    | _ => simp [hp] at h
  | answer answer =>
    cases hp : w.phase with
    | computing unit =>
      cases unit with
      | ask a =>
        simp only [hp, Option.some.injEq, Prod.mk.injEq] at h
        obtain ⟨rfl, rfl⟩ := h
        exact .wrote (.ask a) [_] (.inr hp) (Nat.le_refl 1) (by rw [hp]; rfl) rfl (.inr rfl)
      | refresh => simp [hp] at h
    | _ => simp [hp] at h
  | refreshed result =>
    cases hp : w.phase with
    | computing unit =>
      cases unit with
      | ask => simp [hp] at h
      | refresh id wait received =>
        simp only [hp, Option.some.injEq, Prod.mk.injEq] at h
        obtain ⟨rfl, rfl⟩ := h
        exact .wrote (.refresh id wait received) _ (.inr hp) (by cases wait <;> simp)
          (by rw [hp]; cases wait <;> rfl) rfl (.inr rfl)
    | _ => simp [hp] at h
  | done =>
    cases hp : w.phase <;> simp only [hp, reduceCtorEq, Option.some.injEq, Prod.mk.injEq] at h
    obtain ⟨rfl, rfl⟩ := h
    exact .landed _ hp rfl rfl

/-! ## 4. What a step does -/

/-- **What a step does.** -/
inductive Stepped (s s' : State ι π ω α) : Prop
  | tick (ms : ℕ) (hs : s' = { s with now := s.now + ms })
  | receive (i : Incoming ι π ω) (input : List (Incoming ι π ω)) (hphase : s.phase = .listening)
      (htodo : s.todo = []) (hinput : s.input = i :: input)
      (hs : s' = dispatch session { s with input := input, exiting := false } i)
  | act (a : Action ι α) (todo : List (Action ι α)) (htodo : s.todo = a :: todo)
      (hs : s' = perform { s with todo := todo } a)
  | idleNotice (hphase : s.phase = .listening) (htodo : s.todo = [])
      (hs : s' = { s with exiting := true, todo := [.send .idleExit] })
  | idleEnd (hphase : s.phase = .listening) (htodo : s.todo = []) (hexiting : s.exiting = true)
      (hidle : s.queue.idle = true) (hs : s' = { s with phase := .ended .idle })
  | close (why : Ended ι) (hphase : s.phase = .ended why) (htodo : s.todo = [])
      (hs : s' = { s with
        queue := { s.queue with closing := true }, todo := [.notify], phase := .joining why })
  | finish (why : Ended ι) (hphase : s.phase = .joining why) (htodo : s.todo = [])
      (hexited : ∀ w ∈ s.workers, w.hasExited = true)
      (hs : s' = { s with out := s.out ++ farewell why, phase := .finished why })
  | worker (k : ℕ) (w : Worker ι π) (s₁ : State ι π ω α) (p : WorkerPhase ι π)
      (hw : s.workers[k]? = some w) (hmoved : Moved s s₁ w p)
      (hs : s' = { s₁ with workers := s.workers.set k { w with phase := p } })

theorem step_stepped {s s' : State ι π ω α} {e : Event α} (h : step session s e = some s') :
    Stepped session s s' := by
  unfold step at h
  cases e with
  | tick ms =>
    cases h
    exact .tick ms rfl
  | receive =>
    dsimp only at h
    split at h
    · rename_i i input hphase htodo hinput
      exact .receive i input hphase htodo hinput (Option.some.inj h).symm
    · simp at h
  | act =>
    dsimp only at h
    split at h
    · simp at h
    · rename_i a todo htodo
      exact .act a todo htodo (Option.some.inj h).symm
  | idleNotice =>
    dsimp only at h
    split at h
    · rename_i hphase htodo
      split at h
      · exact .idleNotice hphase htodo (Option.some.inj h).symm
      · simp at h
    · simp at h
  | idleEnd =>
    dsimp only at h
    split at h
    · rename_i hphase htodo
      split at h
      · rename_i hidle
        simp only [Bool.and_eq_true] at hidle
        exact .idleEnd hphase htodo hidle.1.2 hidle.2 (Option.some.inj h).symm
      · simp at h
    · simp at h
  | close =>
    dsimp only at h
    split at h
    · rename_i why hphase htodo
      exact .close why hphase htodo (Option.some.inj h).symm
    · simp at h
  | finish =>
    dsimp only at h
    split at h
    · rename_i why hphase htodo
      split at h
      · rename_i hexited
        exact .finish why hphase htodo (List.all_eq_true.mp hexited) (Option.some.inj h).symm
      · simp at h
    · simp at h
  | worker k e =>
    dsimp only at h
    split at h
    · simp at h
    · rename_i w hw
      rw [Option.map_eq_some_iff] at h
      obtain ⟨⟨s₁, p⟩, hwork, hs⟩ := h
      exact .worker k w s₁ p hw (work_moved hwork) hs.symm

/-- A worker that has left has no events. -/
theorem Moved.not_exited {s s' : State ι π ω α} {w : Worker ι π} {p : WorkerPhase ι π}
    (h : Moved s s' w p) : w.hasExited = false := by
  unfold Worker.hasExited
  cases h with
  | took _ _ hw => rw [hw]
  | slept hw => rw [hw]
  | left hw => rw [hw]
  | woke hw => rw [hw]
  | wrote _ _ hw => rcases hw with hw | hw <;> rw [hw]
  | landed _ hw => rw [hw]

/-- A worker's event leaves the dispatching thread and the workers as they are. -/
theorem Moved.frame {s s' : State ι π ω α} {w : Worker ι π} {p : WorkerPhase ι π}
    (h : Moved s s' w p) : s'.phase = s.phase ∧ s'.todo = s.todo ∧ s'.queue.closing = s.queue.closing ∧
      s'.flags = s.flags ∧ s'.isOpen = s.isOpen ∧ s'.input = s.input := by
  cases h with
  | took unit items _ _ hs _ => subst hs; exact ⟨rfl, rfl, by simp, rfl, rfl, rfl⟩
  | slept _ _ _ hs _ => subst hs; exact ⟨rfl, rfl, rfl, rfl, rfl, rfl⟩
  | left _ _ _ hs _ => subst hs; exact ⟨rfl, rfl, rfl, rfl, rfl, rfl⟩
  | woke _ hs _ => subst hs; exact ⟨rfl, rfl, rfl, rfl, rfl, rfl⟩
  | wrote _ _ _ _ _ hs _ => subst hs; exact ⟨rfl, rfl, rfl, rfl, rfl, rfl⟩
  | landed unit _ hs _ => subst hs; exact ⟨rfl, rfl, by simp, rfl, rfl, rfl⟩

end Inversion

/-! ## 5. The counters -/

/-- The ask of a unit. -/
def Work.ask? : Work ι π → Option (Ask ι π)
  | .ask a => some a
  | .refresh _ _ _ => none

/-- The asks that wait in a lane. -/
def QueueState.asks (q : QueueState ι π) (light : Bool) : List (Ask ι π) :=
  (q.items light).filterMap Work.ask?

/-- The counter of a lane. -/
def QueueState.waiting (q : QueueState ι π) (light : Bool) : ℕ := if light then q.light else q.heavy

/-- How many asks may wait in a lane. -/
def laneLimit (light : Bool) : ℕ := if light then QUEUE_LIGHT else QUEUE_HEAVY

/-- The bytes of some asks. -/
def askBytes (l : List (Ask ι π)) : ℕ := (l.map Ask.bytes).sum

/-- **The counters are what the queues hold**, within the limits; an ask waits in its own lane, and
refreshes in the heavy one. -/
structure Counted (q : QueueState ι π) : Prop where
  waiting : ∀ light, q.waiting light = (q.asks light).length
  bytes : q.bytes = askBytes (q.asks false) + askBytes (q.asks true)
  lane : ∀ light, ∀ a ∈ q.asks light, a.light = light
  queries : ∀ unit ∈ q.items true, unit.ask?.isSome = true
  limit : ∀ light, q.waiting light ≤ laneLimit light
  byteLimit : q.bytes ≤ QUEUED_BYTES

theorem askBytes_append (l l' : List (Ask ι π)) : askBytes (l ++ l') = askBytes l + askBytes l' := by
  simp [askBytes]

theorem QueueState.asks_congr {q q' : QueueState ι π} {light : Bool} (h : q'.items light = q.items light) :
    q'.asks light = q.asks light := by
  rw [asks, asks, h]

/-- The bytes of both lanes, one of them named. -/
theorem bytes_lanes (q : QueueState ι π) (light : Bool) :
    askBytes (q.asks false) + askBytes (q.asks true) =
      askBytes (q.asks light) + askBytes (q.asks !light) := by
  cases light
  · rfl
  · exact Nat.add_comm _ _

theorem Counted.push {q : QueueState ι π} (h : Counted q) {a : Ask ι π}
    (hroom : q.refuses a.light a.bytes = false) : Counted (q.push a) := by
  have hself : (q.push a).asks a.light = q.asks a.light ++ [a] := by
    rw [QueueState.asks, QueueState.items_push_self, List.filterMap_append]
    rfl
  have hother : (q.push a).asks (!a.light) = q.asks (!a.light) :=
    QueueState.asks_congr (QueueState.items_push_other q a (by simp))
  have hwaiting : (q.push a).waiting a.light = q.waiting a.light + 1 := by
    unfold QueueState.push QueueState.waiting QueueState.setItems
    cases a.light <;> rfl
  have hwaiting' : (q.push a).waiting (!a.light) = q.waiting (!a.light) := by
    unfold QueueState.push QueueState.waiting QueueState.setItems
    cases a.light <;> rfl
  have hbytes : (q.push a).bytes = q.bytes + a.bytes := rfl
  simp only [QueueState.refuses, Bool.or_eq_false_iff, decide_eq_false_iff_not, not_lt] at hroom
  have hlimit : q.waiting a.light < laneLimit a.light := by
    unfold QueueState.waiting laneLimit
    have := hroom.1
    cases hl : a.light <;> simp only [hl, Bool.false_eq_true, if_false, if_true] at this ⊢ <;> omega
  have hcases : ∀ light, light = a.light ∨ light = !a.light := fun light => by
    cases light <;> cases a.light <;> simp
  refine ⟨fun light => ?_, ?_, fun light b hb => ?_, fun unit hunit => ?_, fun light => ?_, ?_⟩
  · rcases hcases light with rfl | rfl
    · rw [hself, hwaiting, h.waiting, List.length_append, List.length_singleton]
    · rw [hother, hwaiting', h.waiting]
  · rw [bytes_lanes _ a.light, hself, hother, hbytes, h.bytes, bytes_lanes q a.light, askBytes_append]
    simp only [askBytes, List.map_cons, List.map_nil, List.sum_singleton]
    omega
  · rcases hcases light with rfl | rfl
    · rw [hself, List.mem_append, List.mem_singleton] at hb
      rcases hb with hb | rfl
      · exact h.lane _ b hb
      · rfl
    · rw [hother] at hb
      exact h.lane _ b hb
  · rcases hcases true with hl | hl
    · rw [hl, QueueState.items_push_self, List.mem_append, List.mem_singleton] at hunit
      rcases hunit with hunit | rfl
      · exact h.queries unit (hl ▸ hunit)
      · rfl
    · rw [hl, QueueState.items_push_other q a (by simp)] at hunit
      exact h.queries unit (hl ▸ hunit)
  · rcases hcases light with rfl | rfl
    · rw [hwaiting]
      exact hlimit
    · rw [hwaiting']
      exact h.limit _
  · rw [hbytes]
    exact hroom.2

/-- **An ask leaves its lane** from any place, with its count. -/
theorem Counted.remove {q : QueueState ι π} (h : Counted q) {light : Bool} {l₁ l₂ : List (Work ι π)}
    {a : Ask ι π} (hitems : q.items light = l₁ ++ .ask a :: l₂) :
    Counted ((q.setItems light (l₁ ++ l₂)).dequeued a.light a.bytes) := by
  have hasks : q.asks light = l₁.filterMap Work.ask? ++ a :: l₂.filterMap Work.ask? := by
    rw [QueueState.asks, hitems, List.filterMap_append]
    rfl
  have hlane : a.light = light := h.lane light a (by rw [hasks]; simp)
  subst hlane
  generalize hq' : (q.setItems a.light (l₁ ++ l₂)).dequeued a.light a.bytes = q'
  have hself : q'.asks a.light = l₁.filterMap Work.ask? ++ l₂.filterMap Work.ask? := by
    rw [← hq', QueueState.asks, QueueState.items_dequeued, QueueState.items_setItems_self,
      List.filterMap_append]
  have hother : q'.asks (!a.light) = q.asks (!a.light) := by
    refine QueueState.asks_congr ?_
    rw [← hq', QueueState.items_dequeued, QueueState.items_setItems_other _ _ _ (by simp)]
  have hwaiting : q'.waiting a.light = q.waiting a.light - 1 := by
    rw [← hq']
    unfold QueueState.dequeued QueueState.waiting QueueState.setItems
    cases a.light <;> rfl
  have hwaiting' : q'.waiting (!a.light) = q.waiting (!a.light) := by
    rw [← hq']
    unfold QueueState.dequeued QueueState.waiting QueueState.setItems
    cases a.light <;> rfl
  have hbytes : q'.bytes = q.bytes - a.bytes := by
    rw [← hq']
    unfold QueueState.dequeued QueueState.setItems
    cases a.light <;> rfl
  have hcases : ∀ light, light = a.light ∨ light = !a.light := fun light => by
    cases light <;> cases a.light <;> simp
  have hlength := h.waiting a.light
  rw [hasks] at hlength
  simp only [List.length_append, List.length_cons] at hlength
  have hsum := h.bytes
  rw [bytes_lanes q a.light, hasks, askBytes_append] at hsum
  simp only [askBytes, List.map_cons, List.sum_cons] at hsum
  refine ⟨fun light => ?_, ?_, fun light b hb => ?_, fun unit hunit => ?_, fun light => ?_, ?_⟩
  · rcases hcases light with rfl | rfl
    · rw [hself, hwaiting, List.length_append]
      omega
    · rw [hother, hwaiting', h.waiting]
  · rw [bytes_lanes q' a.light, hself, hother, hbytes, askBytes_append]
    simp only [askBytes]
    omega
  · rcases hcases light with rfl | rfl
    · rw [hself] at hb
      refine h.lane _ b ?_
      rw [hasks]
      rcases List.mem_append.mp hb with hb | hb
      · exact List.mem_append_left _ hb
      · exact List.mem_append_right _ (List.mem_cons_of_mem _ hb)
    · rw [hother] at hb
      exact h.lane _ b hb
  · refine h.queries unit ?_
    rcases hcases true with hl | hl
    · rw [hl, ← hq', QueueState.items_dequeued, QueueState.items_setItems_self] at hunit
      rw [hl, hitems]
      rcases List.mem_append.mp hunit with hunit | hunit
      · exact List.mem_append_left _ hunit
      · exact List.mem_append_right _ (List.mem_cons_of_mem _ hunit)
    · rw [hl, ← hq', QueueState.items_dequeued, QueueState.items_setItems_other _ _ _ (by simp)] at hunit
      rw [hl]
      exact hunit
  · rcases hcases light with rfl | rfl
    · have := h.limit a.light
      omega
    · rw [hwaiting']
      exact h.limit _
  · have := h.byteLimit
    omega

/-- What is not of the lanes or the counters does not matter. -/
theorem Counted.of_eq {q q' : QueueState ι π} (h : Counted q) (hitems : ∀ light, q'.items light = q.items light)
    (hwaiting : ∀ light, q'.waiting light = q.waiting light) (hbytes : q'.bytes = q.bytes) : Counted q' := by
  have hasks : ∀ light, q'.asks light = q.asks light := fun light => QueueState.asks_congr (hitems light)
  refine ⟨fun light => ?_, ?_, fun light => ?_, ?_, fun light => ?_, ?_⟩
  · rw [hwaiting, hasks]
    exact h.waiting light
  · rw [hbytes, hasks, hasks]
    exact h.bytes
  · rw [hasks]
    exact h.lane light
  · rw [hitems]
    exact h.queries
  · rw [hwaiting]
    exact h.limit light
  · rw [hbytes]
    exact h.byteLimit

/-- A refresh joins the heavy lane, or leaves it, uncounted. -/
theorem Counted.of_refresh {q : QueueState ι π} (h : Counted q) {l₁ l₂ : List (Work ι π)}
    (hitems : (q.items false).filterMap Work.ask? = (l₁ ++ l₂).filterMap Work.ask?) :
    Counted (q.setItems false (l₁ ++ l₂)) := by
  have hasks : ∀ light, (q.setItems false (l₁ ++ l₂)).asks light = q.asks light := by
    intro light
    cases light with
    | false => exact hitems.symm
    | true => rfl
  refine ⟨fun light => ?_, ?_, fun light => ?_, h.queries, h.limit, h.byteLimit⟩
  · rw [hasks]
    exact h.waiting light
  · rw [hasks, hasks]
    exact h.bytes
  · rw [hasks]
    exact h.lane light

/-- A worker takes the first unit of its lane. -/
theorem Counted.take {q : QueueState ι π} (h : Counted q) {light : Bool} {unit : Work ι π}
    {items : List (Work ι π)} (hitems : q.items light = unit :: items) :
    Counted ((q.setItems light items).take unit) := by
  cases unit with
  | ask a =>
    have hitems' : q.items light = [] ++ .ask a :: items := hitems
    have hremoved := h.remove hitems'
    exact hremoved.of_eq (fun _ => by cases light <;> rfl) (fun _ => by cases light <;> rfl) rfl
  | refresh id wait received =>
    cases light with
    | false =>
      have hsame : (q.items false).filterMap Work.ask? = ([] ++ items).filterMap Work.ask? := by
        rw [hitems]
        rfl
      exact h.of_refresh hsame
    | true => exact absurd (h.queries _ (hitems ▸ List.mem_cons_self)) (by simp [Work.ask?])

theorem Dispatched.counted {asks : List (ι × Bool)} {s s' : State ι π ω α} (h : Dispatched asks s s') (hs : Counted s.queue) :
    Counted s'.queue := by
  cases h with
  | quiet hqueue _ => exact hqueue ▸ hs
  | pushed a _ hroom _ hqueue _ _ => exact hqueue ▸ hs.push hroom
  | refresh id wait hqueue _ _ =>
    rw [hqueue]
    refine hs.of_refresh ?_
    rw [List.filterMap_append]
    exact (List.append_nil _).symm
  | removed light l₁ l₂ a hitems hqueue _ => exact hqueue ▸ hs.remove hitems
  | flagged f _ hqueue _ => exact hqueue ▸ hs

theorem counted_empty : Counted (QueueState.empty : QueueState ι π) := by
  refine ⟨fun light => ?_, rfl, fun light a ha => ?_, fun _ h => ?_, fun light => ?_, Nat.zero_le _⟩
  · cases light <;> rfl
  · cases light <;> simp [QueueState.asks, QueueState.items, QueueState.empty] at ha
  · simp [QueueState.items, QueueState.empty] at h
  · cases light <;> exact Nat.zero_le _

section Steps

variable [DecidableEq ι] {session : Session ι ω}

theorem Moved.counted {s s' : State ι π ω α} {w : Worker ι π} {p : WorkerPhase ι π} (h : Moved s s' w p)
    (hs : Counted s.queue) : Counted s'.queue := by
  cases h with
  | took unit items _ hitems hs' _ => exact hs' ▸ hs.take hitems
  | slept _ _ _ hs' _ => exact hs' ▸ hs
  | left _ _ _ hs' _ => exact hs' ▸ hs
  | woke _ hs' _ => exact hs' ▸ hs
  | wrote _ _ _ _ _ hs' _ => exact hs' ▸ hs
  | landed unit _ hs' _ =>
    rw [hs']
    cases unit with
    | ask a => exact hs.of_eq (fun _ => rfl) (fun _ => rfl) rfl
    | refresh => exact hs

theorem Stepped.counted {s s' : State ι π ω α} (h : Stepped session s s') (hs : Counted s.queue) :
    Counted s'.queue := by
  cases h with
  | tick _ hs' => exact hs' ▸ hs
  | receive i input _ _ _ hs' => exact hs' ▸ (dispatch_dispatched session _ i).counted hs
  | act a todo _ hs' => cases a <;> exact hs' ▸ hs
  | idleNotice _ _ hs' => exact hs' ▸ hs
  | idleEnd _ _ _ _ hs' => exact hs' ▸ hs
  | close why _ _ hs' => exact hs' ▸ hs.of_eq (fun _ => rfl) (fun _ => rfl) rfl
  | finish why _ _ _ hs' => exact hs' ▸ hs
  | worker k w s₁ p _ hmoved hs' => exact hs' ▸ hmoved.counted hs

/-- **The counters**, in every run: each is what its lane holds, and within its limit. -/
theorem counted {input : List (Incoming ι π ω)} {s : State ι π ω α} (h : Runs session input s) :
    Counted s.queue :=
  Machine.Steps.inv (fun _ _ _ hs _ hstep => (step_stepped session hstep).counted hs) h counted_empty

/-- **The queue's limits**, in every run: what waits is counted exactly, and never more than the limits. -/
theorem queue_limits {input : List (Incoming ι π ω)} {s : State ι π ω α} (h : Runs session input s) :
    s.queue.heavy = (s.queue.asks false).length ∧ s.queue.light = (s.queue.asks true).length ∧
      s.queue.bytes = askBytes (s.queue.asks false) + askBytes (s.queue.asks true) ∧
      s.queue.heavy ≤ QUEUE_HEAVY ∧ s.queue.light ≤ QUEUE_LIGHT ∧ s.queue.bytes ≤ QUEUED_BYTES :=
  ⟨(counted h).waiting false, (counted h).waiting true, (counted h).bytes, (counted h).limit false,
    (counted h).limit true, (counted h).byteLimit⟩

theorem queue_limits_sample :
    ∃ s, sampleAfter 7 = some s ∧ s.queue.heavy = 1 ∧ s.queue.bytes = 20 ∧
      s.queue.heavy = (s.queue.asks false).length ∧ s.queue.heavy ≤ QUEUE_HEAVY :=
  have h : ∃ s, sampleAfter 7 = some s ∧ s.queue.heavy = 1 ∧ s.queue.bytes = 20 := ⟨_, rfl, rfl, rfl⟩
  h.elim fun s hs => ⟨s, hs.1, hs.2.1, hs.2.2, (queue_limits (sampleAfter_runs 7 hs.1)).1,
    (queue_limits (sampleAfter_runs 7 hs.1)).2.2.2.1⟩

/-! ## 6. Sleep -/

/-- **No worker sleeps on work**: where one sleeps, its lane is empty and the child is not closing, or the
dispatching thread is about to wake it. -/
def Wakeful (s : State ι π ω α) : Prop :=
  ∀ w ∈ s.workers, w.phase = .waiting →
    (s.queue.items w.light = [] ∧ s.queue.closing = false) ∨ .notify ∈ s.todo

omit [DecidableEq ι] in
theorem Dispatched.wakeful {asks : List (ι × Bool)} {s s' : State ι π ω α} (h : Dispatched asks s s')
    (hworkers : s'.workers = s.workers) (hclosing : s'.queue.closing = s.queue.closing) (htodo : s.todo = []) (hs : Wakeful s) :
    Wakeful s' := by
  intro w hw hwaiting
  rw [hworkers] at hw
  obtain ⟨hempty, hopen⟩ := (hs w hw hwaiting).resolve_right (by simp [htodo])
  rw [← hclosing] at hopen
  cases h with
  | quiet hqueue _ => exact .inl ⟨by rw [hqueue]; exact hempty, hopen⟩
  | pushed _ _ _ _ _ _ hnotify => exact .inr hnotify
  | refresh _ _ _ _ hnotify => exact .inr hnotify
  | removed light l₁ l₂ a hitems hqueue _ =>
    refine .inl ⟨?_, hopen⟩
    have hother : w.light ≠ light := by
      rintro rfl
      rw [hitems] at hempty
      simp at hempty
    rw [hqueue, QueueState.items_dequeued, QueueState.items_setItems_other _ _ _ hother]
    exact hempty
  | flagged _ _ hqueue _ => exact .inl ⟨by rw [hqueue]; exact hempty, hopen⟩

theorem dispatch_closing (s : State ι π ω α) (i : Incoming ι π ω) :
    (dispatch session s i).queue.closing = s.queue.closing := by
  cases dispatch_dispatched session s i with
  | quiet hqueue _ => rw [hqueue]
  | pushed a _ _ _ hqueue _ _ => rw [hqueue, QueueState.closing_push]
  | refresh id wait hqueue _ _ => rw [hqueue, QueueState.closing_setItems]
  | removed light l₁ l₂ a _ hqueue _ => rw [hqueue, QueueState.closing_dequeued, QueueState.closing_setItems]
  | flagged f _ hqueue _ => rw [hqueue]

/-- What a worker's event leaves of the lanes: the same, or a shorter own one. -/
theorem Moved.items {s s' : State ι π ω α} {w : Worker ι π} {p : WorkerPhase ι π} (h : Moved s s' w p)
    {light : Bool} (hempty : s.queue.items light = []) : s'.queue.items light = [] := by
  cases h with
  | took unit items _ hitems hs' _ =>
    have hother : light ≠ w.light := by
      rintro rfl
      rw [hitems] at hempty
      simp at hempty
    rw [hs', QueueState.items_take, QueueState.items_setItems_other _ _ _ hother]
    exact hempty
  | slept _ _ _ hs' _ => exact hs' ▸ hempty
  | left _ _ _ hs' _ => exact hs' ▸ hempty
  | woke _ hs' _ => exact hs' ▸ hempty
  | wrote _ _ _ _ _ hs' _ => exact hs' ▸ hempty
  | landed unit _ hs' _ => rw [hs', QueueState.items_landed]; exact hempty

omit [DecidableEq ι] in
theorem notified_not_waiting (w : Worker ι π) : w.notified.phase ≠ .waiting := by
  unfold Worker.notified
  split
  · simp
  · rename_i h
    exact h

theorem Stepped.wakeful {s s' : State ι π ω α} (h : Stepped session s s') (hs : Wakeful s) :
    Wakeful s' := by
  cases h with
  | tick _ hs' => exact hs' ▸ hs
  | receive i input hphase htodo _ hs' =>
    subst hs'
    have htakes := dispatch_takesIn session { s with input := input, exiting := false } htodo hphase i
    exact (dispatch_dispatched session _ i).wakeful htakes.untouched.workers (dispatch_closing _ i) htodo hs
  | act a todo htodo hs' =>
    subst hs'
    cases a with
    | send f =>
      intro w hw hwaiting
      rcases hs w hw hwaiting with hidle | hnotify
      · exact .inl hidle
      · rw [htodo] at hnotify
        simp only [List.mem_cons, reduceCtorEq, false_or] at hnotify
        exact .inr hnotify
    | notify =>
      intro w hw hwaiting
      obtain ⟨v, -, rfl⟩ := List.mem_map.mp hw
      exact absurd hwaiting (notified_not_waiting v)
  | idleNotice _ htodo hs' =>
    subst hs'
    intro w hw hwaiting
    exact .inl ((hs w hw hwaiting).resolve_right (by simp [htodo]))
  | idleEnd _ _ _ _ hs' => exact hs' ▸ hs
  | close why _ _ hs' =>
    subst hs'
    exact fun _ _ _ => .inr List.mem_cons_self
  | finish why _ _ hexited hs' =>
    subst hs'
    intro w hw hwaiting
    have := hexited w hw
    rw [Worker.hasExited, hwaiting] at this
    exact absurd this (by simp)
  | worker k w s₁ p hw hmoved hs' =>
    subst hs'
    obtain ⟨-, htodo, hclosing, -⟩ := hmoved.frame
    intro v hv hwaiting
    rcases List.mem_or_eq_of_mem_set hv with hv | rfl
    · rcases hs v hv hwaiting with ⟨hempty, hopen⟩ | hnotify
      · exact .inl ⟨hmoved.items hempty, hclosing.trans hopen⟩
      · exact .inr (htodo ▸ hnotify)
    · dsimp only at hwaiting
      cases hmoved with
      | slept _ hitems hopen hs₁ _ => exact .inl ⟨hs₁ ▸ hitems, hs₁ ▸ hopen⟩
      | took _ _ _ _ _ hp => rw [hp] at hwaiting; simp at hwaiting
      | left _ _ _ _ hp => rw [hp] at hwaiting; simp at hwaiting
      | woke _ _ hp => rw [hp] at hwaiting; simp at hwaiting
      | wrote _ _ _ _ _ _ hp => rcases hp with hp | hp <;> rw [hp] at hwaiting <;> simp at hwaiting
      | landed _ _ _ hp => rw [hp] at hwaiting; simp at hwaiting

omit [DecidableEq ι] in
theorem mem_init_workers {input : List (Incoming ι π ω)} {w : Worker ι π}
    (h : w ∈ (init session input : State ι π ω α).workers) : w.phase = .awake := by
  rcases List.mem_cons.mp h with rfl | h
  · rfl
  · rw [List.eq_of_mem_replicate h]

theorem wakeful {input : List (Incoming ι π ω)} {s : State ι π ω α} (h : Runs session input s) :
    Wakeful s := by
  refine Machine.Steps.inv (fun _ _ _ hs _ hstep => (step_stepped session hstep).wakeful hs) h ?_
  intro w hw hwaiting
  rw [mem_init_workers hw] at hwaiting
  simp at hwaiting

/-! ## 7. The end -/

/-- The child is closing, or closed. -/
def Phase.closed : Phase ι → Bool
  | .joining _ => true
  | .finished _ => true
  | _ => false

/-- **How a child ends.** -/
structure Ending (session : Session ι ω) (s : State ι π ω α) : Prop where
  closing : s.queue.closing = s.phase.closed
  lights : s.workers.map Worker.light = false :: List.replicate session.lightWorkers true
  exited : ∀ w ∈ s.workers, w.hasExited = true → s.queue.closing = true ∧ s.queue.items w.light = []
  finished : ∀ why, s.phase = .finished why →
    s.todo = [] ∧ (∀ w ∈ s.workers, w.hasExited = true) ∧ ∃ sent, s.out = sent ++ farewell why

omit [DecidableEq ι] in
theorem map_light_set {workers : List (Worker ι π)} {k : ℕ} {w : Worker ι π} (h : workers[k]? = some w)
    (p : WorkerPhase ι π) :
    (workers.set k { w with phase := p }).map Worker.light = workers.map Worker.light := by
  obtain ⟨hlt, rfl⟩ := List.getElem?_eq_some_iff.mp h
  obtain ⟨l₁, l₂, hl, -, hset⟩ := @List.exists_of_set _ k { workers[k] with phase := p } _ hlt
  rw [hset]
  conv_rhs => rw [hl]
  simp only [List.map_append, List.map_cons]

theorem Stepped.ending {s s' : State ι π ω α} (h : Stepped session s s') (hs : Ending session s) :
    Ending session s' := by
  cases h with
  | tick _ hs' => exact hs' ▸ ⟨hs.closing, hs.lights, hs.exited, hs.finished⟩
  | receive i input hphase htodo _ hs' =>
    subst hs'
    have htakes := dispatch_takesIn session { s with input := input, exiting := false } htodo hphase i
    have hopen : s.queue.closing = false := by rw [hs.closing, hphase]; rfl
    have hphase' : (dispatch session { s with input := input, exiting := false } i).phase = .listening ∨
        ∃ why, (dispatch session { s with input := input, exiting := false } i).phase = .ended why := by
      have hstop := htakes.stop
      split at hstop
      · obtain ⟨why, hwhy, -⟩ := hstop
        exact .inr ⟨why, hwhy⟩
      · exact .inl hstop
    refine ⟨?_, ?_, fun w hw hexit => ?_, fun why hwhy => ?_⟩
    · rw [dispatch_closing, show s.queue.closing = false from hopen]
      rcases hphase' with h | ⟨why, h⟩ <;> rw [h] <;> rfl
    · rw [htakes.untouched.workers]
      exact hs.lights
    · rw [htakes.untouched.workers] at hw
      have := (hs.exited w hw hexit).1
      rw [hopen] at this
      exact absurd this (by simp)
    · rcases hphase' with h | ⟨why', h⟩ <;> rw [h] at hwhy <;> simp at hwhy
  | act a todo htodo hs' =>
    subst hs'
    have hnot : ∀ why, s.phase ≠ .finished why := fun why hwhy => by
      have := (hs.finished why hwhy).1
      rw [htodo] at this
      simp at this
    cases a with
    | send f => exact ⟨hs.closing, hs.lights, hs.exited, fun why hwhy => absurd hwhy (hnot why)⟩
    | notify =>
      refine ⟨hs.closing, ?_, fun w hw hexit => ?_, fun why hwhy => absurd hwhy (hnot why)⟩
      · rw [← hs.lights, perform, List.map_map]
        refine List.map_congr_left fun w _ => ?_
        simp only [Function.comp_apply, Worker.notified]
        split <;> rfl
      · obtain ⟨v, hv, rfl⟩ := List.mem_map.mp hw
        have hsame : v.notified = v := by
          unfold Worker.notified at hexit ⊢
          split
          · rename_i hwaiting
            rw [hwaiting] at hexit
            exact absurd hexit (by simp [Worker.hasExited])
          · rfl
        rw [hsame] at hexit ⊢
        exact hs.exited v hv hexit
  | idleNotice hphase _ hs' =>
    subst hs'
    exact ⟨hs.closing, hs.lights, hs.exited, fun why hwhy => absurd (hphase.symm.trans hwhy) (by simp)⟩
  | idleEnd hphase _ _ _ hs' =>
    subst hs'
    refine ⟨?_, hs.lights, hs.exited, fun why hwhy => absurd hwhy (by simp)⟩
    rw [hs.closing, hphase]
    rfl
  | close why hphase _ hs' =>
    subst hs'
    refine ⟨rfl, hs.lights, fun w hw hexit => ?_, fun why hwhy => absurd hwhy (by simp)⟩
    have := (hs.exited w hw hexit).1
    rw [hs.closing, hphase] at this
    exact absurd this (by simp [Phase.closed])
  | finish why hphase htodo hexited hs' =>
    subst hs'
    refine ⟨?_, hs.lights, hs.exited, fun why' hwhy => ?_⟩
    · rw [hs.closing, hphase]
      rfl
    · cases hwhy
      exact ⟨htodo, hexited, s.out, rfl⟩
  | worker k w s₁ p hw hmoved hs' =>
    subst hs'
    obtain ⟨hphase, htodo, hclosing, -⟩ := hmoved.frame
    refine ⟨?_, ?_, fun v hv hexit => ?_, fun why hwhy => ?_⟩
    · rw [hclosing, hphase]
      exact hs.closing
    · exact (map_light_set hw p).trans hs.lights
    · rcases List.mem_or_eq_of_mem_set hv with hv | rfl
      · obtain ⟨hclosed, hempty⟩ := hs.exited v hv hexit
        exact ⟨hclosing.trans hclosed, hmoved.items hempty⟩
      · cases hmoved with
        | left _ hitems hclosed hs₁ _ => exact ⟨hs₁ ▸ hclosed, hs₁ ▸ hitems⟩
        | took _ _ _ _ _ hp => subst hp; simp [Worker.hasExited] at hexit
        | slept _ _ _ _ hp => subst hp; simp [Worker.hasExited] at hexit
        | woke _ _ hp => subst hp; simp [Worker.hasExited] at hexit
        | wrote _ _ _ _ _ _ hp => rcases hp with rfl | rfl <;> simp [Worker.hasExited] at hexit
        | landed _ _ _ hp => subst hp; simp [Worker.hasExited] at hexit
    · have hexit := (hs.finished why (hphase.symm.trans hwhy)).2.1 w (List.mem_of_getElem? hw)
      exact absurd hexit (by simp [hmoved.not_exited])

theorem ending {input : List (Incoming ι π ω)} {s : State ι π ω α} (h : Runs session input s) :
    Ending session s := by
  refine Machine.Steps.inv (fun _ _ _ hs _ hstep => (step_stepped session hstep).ending hs) h ?_
  refine ⟨rfl, ?_, fun w hw hexit => ?_, fun why hwhy => absurd hwhy (by simp [init])⟩
  · simp [init]
  · rw [Worker.hasExited, mem_init_workers hw] at hexit
    exact absurd hexit (by simp)

omit [DecidableEq ι] in
/-- Each lane has a worker. -/
theorem Ending.lane_worker {s : State ι π ω α} (h : Ending session s) (hlight : 0 < session.lightWorkers)
    (light : Bool) : ∃ w ∈ s.workers, w.light = light := by
  have hmem : light ∈ s.workers.map Worker.light := by
    rw [h.lights]
    cases light with
    | false => exact List.mem_cons_self
    | true => exact List.mem_cons_of_mem _ (List.mem_replicate.mpr ⟨by omega, rfl⟩)
  exact List.mem_map.mp hmem

omit [DecidableEq ι] in
/-- A finished child has nothing left. -/
theorem Ending.pending_nil {s : State ι π ω α} (h : Ending session s) (hlight : 0 < session.lightWorkers)
    {why : Ended ι} (hwhy : s.phase = .finished why) : pending s = [] := by
  obtain ⟨htodo, hexited, -⟩ := h.finished why hwhy
  have hlane : ∀ light, s.queue.items light = [] := by
    intro light
    obtain ⟨w, hw, rfl⟩ := h.lane_worker hlight light
    exact (h.exited w hw (hexited w hw)).2
  have hheavy : s.queue.heavyItems = [] := hlane false
  have hlights : s.queue.lightItems = [] := hlane true
  have hworkers : s.workers.flatMap Worker.dues = [] := by
    rw [List.flatMap_eq_nil_iff]
    intro w hw
    have := hexited w hw
    unfold Worker.hasExited at this
    split at this
    · rename_i hp
      rw [Worker.dues, hp]
      rfl
    · exact absurd this (by simp)
  rw [pending, htodo, QueueState.dues, hheavy, hlights, hworkers, hwhy]
  rfl

/-- **A shutdown is answered last.** -/
theorem shutdown_last {input : List (Incoming ι π ω)} {s : State ι π ω α} (h : Runs session input s)
    {id : ι} (hwhy : s.phase = .finished (.shutdown id)) :
    ∃ sent, s.out = sent ++ [.response id .ok] :=
  ((ending h).finished _ hwhy).2.2

example : ∃ s, sampleAfter 19 = some s ∧ ∃ sent, s.out = sent ++ [.response 4 .ok] :=
  ⟨_, rfl, shutdown_last (sampleAfter_runs 19 rfl) rfl⟩

end Steps

end AlSem.Host
