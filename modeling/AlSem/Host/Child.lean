/-
# The engine child

`serve_with` of `engine/host/child.rs`: one thread reads requests and answers the control requests itself,
one heavy worker and some light ones answer the asks of two queues, and all of them write frames to one
output.  The queues, the counters and the asks in flight are one record behind a lock, with a condition
variable the workers sleep on.

A state is what all the threads share and where each of them is; an event is one critical section, one frame
written or one wait of one of them, so that a run is any interleaving.  A request's time is any time
(`tick`), a worker may wake for no reason (`spurious`), and what the engine computes is any answer.  A write
to the output always succeeds here: a child whose output is closed, whose writes fail and are given up, is not
modelled.
-/
import AlSem.Lib.Machine
import AlSem.Wire.Answer

namespace AlSem.Host

/-! ## 1. Requests -/

/-- The largest request id a child accepts. -/
def MAX_ID_BYTES : ℕ := 1024

/-- How many heavy asks wait at most. -/
def QUEUE_HEAVY : ℕ := 16

/-- How many light asks wait at most. -/
def QUEUE_LIGHT : ℕ := 64

/-- How many bytes of asks wait at most. -/
def QUEUED_BYTES : ℕ := 16 * 1024 * 1024

namespace Codes

def PARSE_ERROR : ℤ := -32700

def INVALID_REQUEST : ℤ := -32600

def METHOD_NOT_FOUND : ℤ := -32601

def INVALID_PARAMS : ℤ := -32602

def NOT_OPEN : ℤ := -32002

def OPEN_FAILED : ℤ := -32001

end Codes

/-- What an ask asks; `rest` is for the engine alone. -/
structure AskParams (π : Type) where
  argv : List String
  deadlineMs : Option ℕ
  progress : Bool
  rest : π

/-- `is_light`: queries are light. -/
def isLight (argv : List String) : Bool := argv.head? = some "query"

/-- A request's method, with what its parameters are read as. -/
inductive Method (ι π ω : Type) where
  | sessionOpen (params : Except String ω)
  | sessionAsk (params : Except String (AskParams π))
  | sessionRefresh (wait : Except String Bool)
  | sessionCancel (id : Except String ι)
  | sessionNotifyChanged (params : Except String Unit)
  | sessionStatus
  | sessionDescriptor
  | sessionShutdown
  | other (name : String)

/-- A request, without an id when it is a notification. -/
structure Message (ι π ω : Type) where
  id : Option ι
  method : Option (Method ι π ω)

/-- What the reader hands the dispatcher; a frame of so many bytes is a message or an error. -/
inductive Incoming (ι π ω : Type) where
  | frame (message : Except String (Message ι π ω)) (bytes : ℕ)
  | oversized
  | eof
  | failed (error : String)

/-- A session: its ids, how a workspace opens, and what it is configured to. -/
structure Session (ι ω : Type) where
  null : ι
  idSize : ι → ℕ
  openSession : ω → Except String (Option String)
  idleTimeout : Bool
  lightWorkers : ℕ

/-! ## 2. Frames -/

/-- The answer of an ask: one without any work, or what the engine computed. -/
inductive AskAnswer (α : Type) where
  | noWork (outcome : Wire.FailedOutcome) (message : String)
  | computed (answer : α)

/-- The result of a control request. -/
inductive Result (ι α : Type) where
  | opened (outputDir : Option String)
  | started
  | refreshed (result : α)
  | cancelled (found : Bool)
  | changed
  | status (queued : ℕ) (inFlight : Option ι) (inFlightAll : List ι)
  | descriptor
  | ok

/-- A frame of the child's output, behind the hello. -/
inductive Frame (ι α : Type) where
  | answer (id : ι) (answer : AskAnswer α)
  | response (id : ι) (result : Result ι α)
  | error (id : ι) (code : ℤ) (message : String)
  | progress (id : ι) (phase : String)
  | idleExit

/-! ## 3. The queue -/

/-- A queued ask; `cancel` is the address of its flag. -/
structure Ask (ι π : Type) where
  id : ι
  params : AskParams π
  received : ℕ
  deadline : Option ℕ
  cancel : ℕ
  light : Bool
  bytes : ℕ

/-- A unit of work. -/
inductive Work (ι π : Type) where
  | ask (a : Ask ι π)
  | refresh (id : ι) (wait : Bool) (received : ℕ)

structure QueueState (ι π : Type) where
  heavyItems : List (Work ι π)
  lightItems : List (Work ι π)
  heavy : ℕ
  light : ℕ
  bytes : ℕ
  closing : Bool
  inFlight : List (ι × ℕ)

namespace QueueState

variable {ι π : Type}

def empty : QueueState ι π where
  heavyItems := []
  lightItems := []
  heavy := 0
  light := 0
  bytes := 0
  closing := false
  inFlight := []

/-- `idle`. -/
def idle (q : QueueState ι π) : Bool :=
  q.heavyItems.isEmpty && q.lightItems.isEmpty && q.inFlight.isEmpty

/-- The items of a lane. -/
def items (q : QueueState ι π) (light : Bool) : List (Work ι π) :=
  if light then q.lightItems else q.heavyItems

def setItems (q : QueueState ι π) (light : Bool) (items : List (Work ι π)) : QueueState ι π :=
  if light then { q with lightItems := items } else { q with heavyItems := items }

/-- An ask put into its lane, and counted. -/
def push (q : QueueState ι π) (a : Ask ι π) : QueueState ι π :=
  let counted := if a.light then { q with light := q.light + 1 } else { q with heavy := q.heavy + 1 }
  { counted.setItems a.light (q.items a.light ++ [.ask a]) with bytes := q.bytes + a.bytes }

/-- `dequeued`. -/
def dequeued (q : QueueState ι π) (light : Bool) (bytes : ℕ) : QueueState ι π :=
  if light then { q with light := q.light - 1, bytes := q.bytes - bytes }
  else { q with heavy := q.heavy - 1, bytes := q.bytes - bytes }

end QueueState

/-- The first element with a property, and the list without it. -/
def takeFirst {α : Type} (p : α → Bool) : List α → Option (α × List α)
  | [] => none
  | a :: l => if p a then some (a, l) else (takeFirst p l).map fun r => (r.1, a :: r.2)

/-! ## 4. The state -/

/-- Why the dispatcher stopped. -/
inductive Ended (ι : Type) where
  | shutdown (id : ι)
  | eof
  | idle
  | failed (error : String)

/-- Where the dispatching thread is. -/
inductive Phase (ι : Type) where
  | listening
  | ended (why : Ended ι)
  | joining (why : Ended ι)
  | finished (why : Ended ι)

/-- What the dispatching thread still does before it goes on. -/
inductive Action (ι α : Type) where
  | send (frame : Frame ι α)
  | notify

/-- Where a worker is: about to look for work, asleep, with a unit it took, computing it, or done with it. -/
inductive WorkerPhase (ι π : Type) where
  | awake
  | waiting
  | taken (w : Work ι π)
  | computing (w : Work ι π)
  | answered (w : Work ι π)
  | exited

structure Worker (ι π : Type) where
  light : Bool
  phase : WorkerPhase ι π

structure State (ι π ω α : Type) where
  input : List (Incoming ι π ω)
  isOpen : Bool
  exiting : Bool
  phase : Phase ι
  todo : List (Action ι α)
  queue : QueueState ι π
  flags : List Bool
  now : ℕ
  workers : List (Worker ι π)
  out : List (Frame ι α)

section Threads

variable {ι π ω α : Type} [DecidableEq ι] (session : Session ι ω)

/-- The child before its first request. -/
def init (input : List (Incoming ι π ω)) : State ι π ω α where
  input := input
  isOpen := false
  exiting := false
  phase := .listening
  todo := []
  queue := .empty
  flags := []
  now := 0
  workers := ⟨false, .awake⟩ :: List.replicate session.lightWorkers ⟨true, .awake⟩
  out := []

/-! ## 5. What the dispatcher does -/

/-- The queue takes no ask of so many bytes. -/
def QueueState.refuses (q : QueueState ι π) (light : Bool) (bytes : ℕ) : Bool :=
  decide (if light then QUEUE_LIGHT ≤ q.light else QUEUE_HEAVY ≤ q.heavy) ||
    decide (QUEUED_BYTES < q.bytes + bytes)

/-- `enqueue_ask`. -/
def enqueueAsk (s : State ι π ω α) (id : ι) (params : AskParams π) (bytes : ℕ) : State ι π ω α :=
  let light := isLight params.argv
  if s.queue.refuses light bytes then
    { s with todo := [.send (.answer id (.noWork .busy "the engine's queue is full; retry later"))] }
  else
    { s with
      queue := s.queue.push {
        id, params, light, bytes
        received := s.now
        deadline := params.deadlineMs.map fun ms => s.now + ms
        cancel := s.flags.length }
      flags := s.flags ++ [false]
      todo := [.notify] }

def isAsk (id : ι) : Work ι π → Bool
  | .ask a => a.id = id
  | .refresh _ _ _ => false

/-- An ask taken off its queue is answered at once. -/
def cancelQueued (s : State ι π ω α) (q : QueueState ι π) (id : ι) : Work ι π → State ι π ω α × Bool
  | .ask a => ({ s with
      queue := q.dequeued a.light a.bytes
      todo := [.send (.answer id (.noWork .cancelled "cancelled while queued"))] }, true)
  | .refresh _ _ _ => ({ s with queue := q }, false)

/-- `cancel`. -/
def cancel (s : State ι π ω α) (id : ι) : State ι π ω α × Bool :=
  match s.queue.inFlight.find? fun f => f.1 = id with
  | some f => ({ s with flags := s.flags.set f.2 true }, true)
  | none =>
    match takeFirst (isAsk id) s.queue.heavyItems with
    | some (w, items) => cancelQueued s { s.queue with heavyItems := items } id w
    | none =>
      match takeFirst (isAsk id) s.queue.lightItems with
      | some (w, items) => cancelQueued s { s.queue with lightItems := items } id w
      | none => (s, false)

/-- One frame is sent. -/
def reply (s : State ι π ω α) (f : Frame ι α) : State ι π ω α := { s with todo := s.todo ++ [.send f] }

def openRequest (s : State ι π ω α) (id : ι) : Except String ω → State ι π ω α
  | .error e =>
    if s.isOpen then reply s (.error id Codes.OPEN_FAILED "the session is open already")
    else reply s (.error id Codes.INVALID_PARAMS e)
  | .ok p =>
    if s.isOpen then reply s (.error id Codes.OPEN_FAILED "the session is open already")
    else
      match session.openSession p with
      | .error why => reply s (.error id Codes.OPEN_FAILED why)
      | .ok dir => reply { s with isOpen := true } (.response id (.opened dir))

def askRequest (s : State ι π ω α) (id : ι) (bytes : ℕ) : Except String (AskParams π) → State ι π ω α
  | .error e =>
    if !s.isOpen then reply s (.error id Codes.NOT_OPEN "session/open first")
    else reply s (.error id Codes.INVALID_PARAMS e)
  | .ok p =>
    if !s.isOpen then reply s (.error id Codes.NOT_OPEN "session/open first")
    else enqueueAsk s id p bytes

/-- A refresh queued. -/
def enqueueRefresh (s : State ι π ω α) (id : ι) (wait : Bool) : State ι π ω α := { s with
  queue := { s.queue with heavyItems := s.queue.heavyItems ++ [.refresh id wait s.now] }
  todo := [.notify] }

def refreshRequest (s : State ι π ω α) (id : ι) : Except String Bool → State ι π ω α
  | .error e =>
    if !s.isOpen then reply s (.error id Codes.NOT_OPEN "session/open first")
    else reply s (.error id Codes.INVALID_PARAMS e)
  | .ok wait =>
    if !s.isOpen then reply s (.error id Codes.NOT_OPEN "session/open first")
    else if wait then enqueueRefresh s id wait
    else reply (enqueueRefresh s id wait) (.response id .started)

def cancelRequest (s : State ι π ω α) (notification : Bool) (id : ι) : Except String ι → State ι π ω α
  | .error e => if notification then s else reply s (.error id Codes.INVALID_PARAMS e)
  | .ok target =>
    if notification then (cancel s target).1
    else reply (cancel s target).1 (.response id (.cancelled (cancel s target).2))

def notifyChangedRequest (s : State ι π ω α) (notification : Bool) (id : ι) :
    Except String Unit → State ι π ω α
  | .error e => if notification then s else reply s (.error id Codes.INVALID_PARAMS e)
  | .ok _ => if notification then s else reply s (.response id .changed)

/-- What `session/status` reads under the lock. -/
def statusResult (q : QueueState ι π) : Result ι α :=
  .status (q.heavyItems.length + q.lightItems.length) (q.inFlight.head?.map Prod.fst)
    (q.inFlight.map Prod.fst)

/-- A request, behind its id. -/
def request (s : State ι π ω α) (notification : Bool) (id : ι) (bytes : ℕ) :
    Option (Method ι π ω) → State ι π ω α
  | some (.sessionOpen params) => openRequest session s id params
  | some (.sessionAsk params) => askRequest s id bytes params
  | some (.sessionRefresh params) => refreshRequest s id params
  | some (.sessionCancel params) => cancelRequest s notification id params
  | some (.sessionNotifyChanged params) => notifyChangedRequest s notification id params
  | some .sessionStatus => reply s (.response id (statusResult s.queue))
  | some .sessionDescriptor => reply s (.response id .descriptor)
  | some .sessionShutdown => { s with phase := .ended (.shutdown id) }
  | some (.other name) =>
    if notification then s else reply s (.error id Codes.METHOD_NOT_FOUND ("no method " ++ name))
  | none => reply s (.error id Codes.INVALID_REQUEST "a request names its method")

/-- `dispatch`: what comes of one frame. -/
def dispatch (s : State ι π ω α) : Incoming ι π ω → State ι π ω α
  | .oversized => reply s (.error session.null Codes.PARSE_ERROR "frame exceeds 16777216 bytes")
  | .eof => { s with phase := .ended .eof }
  | .failed e => { s with phase := .ended (.failed e) }
  | .frame (.error e) _ => reply s (.error session.null Codes.PARSE_ERROR e)
  | .frame (.ok message) bytes =>
    let id := message.id.getD session.null
    if MAX_ID_BYTES < session.idSize id then
      reply s (.error session.null Codes.INVALID_REQUEST "request id exceeds 1024 bytes")
    else request session s message.id.isNone id bytes message.method

/-- A notify wakes every worker that sleeps. -/
def Worker.notified (w : Worker ι π) : Worker ι π :=
  match w.phase with
  | .waiting => { w with phase := .awake }
  | _ => w

def perform (s : State ι π ω α) : Action ι α → State ι π ω α
  | .send f => { s with out := s.out ++ [f] }
  | .notify => { s with workers := s.workers.map Worker.notified }

/-! ## 6. What a worker does -/

inductive WorkerEvent (α : Type) where
  | look
  | spurious
  | check
  | progress (phase : String)
  | answer (a : α)
  | refreshed (result : α)
  | done

/-- What a unit leaves in the shared record when it is taken. -/
def QueueState.take (q : QueueState ι π) : Work ι π → QueueState ι π
  | .ask a => { q.dequeued a.light a.bytes with inFlight := q.inFlight ++ [(a.id, a.cancel)] }
  | .refresh _ _ _ => q

/-- The first flight of a unit's id ends. -/
def QueueState.landed (q : QueueState ι π) : Work ι π → QueueState ι π
  | .ask a => { q with inFlight := q.inFlight.eraseP fun f => f.1 = a.id }
  | .refresh _ _ _ => q

def expired (s : State ι π ω α) (a : Ask ι π) : Bool := a.deadline.any fun d => d ≤ s.now

/-- A worker's own event: the shared state after it, and where the worker is then. -/
def work (s : State ι π ω α) (w : Worker ι π) :
    WorkerEvent α → Option (State ι π ω α × WorkerPhase ι π)
  | .look =>
    match w.phase with
    | .awake =>
      match s.queue.items w.light with
      | unit :: items => some ({ s with queue := (s.queue.setItems w.light items).take unit }, .taken unit)
      | [] => some (s, if s.queue.closing then .exited else .waiting)
    | _ => none
  | .spurious =>
    match w.phase with
    | .waiting => some (s, .awake)
    | _ => none
  | .check =>
    match w.phase with
    | .taken (.ask a) =>
      if expired s a then
        some ({ s with out := s.out ++
          [.answer a.id (.noWork .deadline "the deadline passed while the ask was queued")] },
          .answered (.ask a))
      else some (s, .computing (.ask a))
    | .taken unit => some (s, .computing unit)
    | _ => none
  | .progress phase =>
    match w.phase with
    | .computing (.ask a) =>
      if a.params.progress then some ({ s with out := s.out ++ [.progress a.id phase] }, w.phase) else none
    | _ => none
  | .answer answer =>
    match w.phase with
    | .computing (.ask a) =>
      some ({ s with out := s.out ++ [.answer a.id (.computed answer)] }, .answered (.ask a))
    | _ => none
  | .refreshed result =>
    match w.phase with
    | .computing (.refresh id wait received) =>
      some ({ s with out := s.out ++ if wait then [.response id (.refreshed result)] else [] },
        .answered (.refresh id wait received))
    | _ => none
  | .done =>
    match w.phase with
    | .answered unit => some ({ s with queue := s.queue.landed unit }, .awake)
    | _ => none

/-! ## 7. Steps -/

inductive Event (α : Type) where
  | tick (ms : ℕ)
  | receive
  | act
  | idleNotice
  | idleEnd
  | close
  | finish
  | worker (k : ℕ) (e : WorkerEvent α)

def Worker.hasExited (w : Worker ι π) : Bool :=
  match w.phase with
  | .exited => true
  | _ => false

/-- The last frame: a shutdown's. -/
def farewell : Ended ι → List (Frame ι α)
  | .shutdown id => [.response id .ok]
  | _ => []

/-- **One step** of one of the threads. -/
def step (s : State ι π ω α) : Event α → Option (State ι π ω α)
  | .tick ms => some { s with now := s.now + ms }
  | .receive =>
    match s.phase, s.todo, s.input with
    | .listening, [], i :: input => some (dispatch session { s with input := input, exiting := false } i)
    | _, _, _ => none
  | .act =>
    match s.todo with
    | [] => none
    | a :: todo => some (perform { s with todo := todo } a)
  | .idleNotice =>
    match s.phase, s.todo with
    | .listening, [] =>
      if session.idleTimeout && !s.exiting && s.queue.idle then
        some { s with exiting := true, todo := [.send .idleExit] }
      else none
    | _, _ => none
  | .idleEnd =>
    match s.phase, s.todo with
    | .listening, [] =>
      if session.idleTimeout && s.exiting && s.queue.idle then some { s with phase := .ended .idle }
      else none
    | _, _ => none
  | .close =>
    match s.phase, s.todo with
    | .ended why, [] =>
      some { s with queue := { s.queue with closing := true }, todo := [.notify], phase := .joining why }
    | _, _ => none
  | .finish =>
    match s.phase, s.todo with
    | .joining why, [] =>
      if s.workers.all Worker.hasExited then
        some { s with out := s.out ++ farewell why, phase := .finished why }
      else none
    | _, _ => none
  | .worker k e =>
    match s.workers[k]? with
    | none => none
    | some w => (work s w e).map fun r => { r.1 with workers := s.workers.set k { w with phase := r.2 } }

/-- **A run** of the child on an input. -/
def Runs (input : List (Incoming ι π ω)) (s : State ι π ω α) : Prop :=
  Machine.Steps (step session) (fun _ _ => True) (init session input) s

/-- A list of events that goes through is a run. -/
theorem runs_of_run {input : List (Incoming ι π ω)} {s : State ι π ω α} (events : List (Event α))
    (h : Machine.run (step session) (fun _ _ => true) (init session input) events = some s) :
    Runs session input s :=
  Machine.steps_of_run (fun _ _ _ => trivial) events _ _ h

end Threads

/-! ## 8. A sample run -/

/-- A session of numbers, with one light worker. -/
def numbered : Session ℕ Unit where
  null := 0
  idSize := fun id => id
  openSession := fun _ => .ok none
  idleTimeout := true
  lightWorkers := 1

/-- A session opened, asked twice, one of the asks cancelled, and shut down. -/
def sampleInput : List (Incoming ℕ Unit Unit) :=
  let ask : Method ℕ Unit Unit := .sessionAsk (.ok ⟨[], none, false, ()⟩)
  [.frame (.ok ⟨some 1, some (.sessionOpen (.ok ()))⟩) 10, .frame (.ok ⟨some 2, some ask⟩) 20,
    .frame (.ok ⟨some 3, some ask⟩) 20, .frame (.ok ⟨none, some (.sessionCancel (.ok 3))⟩) 10,
    .frame (.ok ⟨some 4, some .sessionShutdown⟩) 10]

/-- The first ask is taken while the second is queued and cancelled. -/
def sampleEvents : List (Event ℕ) :=
  [.receive, .act, .worker 1 .look, .receive, .act, .worker 0 .look, .receive, .worker 0 .check, .act,
    .receive, .act, .receive, .worker 0 (.answer 7), .close, .act, .worker 0 .done, .worker 1 .look,
    .worker 0 .look, .finish]

/-- The child after the first events of it. -/
def sampleAfter (n : ℕ) : Option (State ℕ Unit Unit ℕ) :=
  Machine.run (step numbered) (fun _ _ => true) (init numbered sampleInput) (sampleEvents.take n)

theorem sampleAfter_runs (n : ℕ) {s : State ℕ Unit Unit ℕ} (h : sampleAfter n = some s) :
    Runs numbered sampleInput s :=
  runs_of_run numbered _ h

end AlSem.Host
