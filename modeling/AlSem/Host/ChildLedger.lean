/-
# What a child owes

The frames a child's input owes are read off the input alone (`owed`): an ask of an open session is owed an
answer, any other request a result or its error, a notification nothing.  In every state of every run what
was sent, what is pending and what is owed to the unread input together are what the whole input is owed
(`ledger`).
-/
import AlSem.Host.Child
import Mathlib.Data.List.Count

namespace AlSem.Host

/-! ## 1. What an input is owed -/

inductive Kind where
  | ask
  | result
  | error (code : ℤ)
  deriving DecidableEq

/-- A frame that is owed to a request: its id, and whether it is an ask's answer, a result or which error. -/
abbrev Due (ι : Type) := ι × Kind

variable {ι π ω α : Type}

def Frame.dues : Frame ι α → List (Due ι)
  | .answer id _ => [(id, .ask)]
  | .response id _ => [(id, .result)]
  | .error id code _ => [(id, .error code)]
  | .progress _ _ => []
  | .idleExit => []

variable (session : Session ι ω)

def openKind (isOpen : Bool) : Except String ω → Kind
  | .error _ => if isOpen then .error Codes.OPEN_FAILED else .error Codes.INVALID_PARAMS
  | .ok p =>
    if isOpen then .error Codes.OPEN_FAILED
    else
      match session.openSession p with
      | .error _ => .error Codes.OPEN_FAILED
      | .ok _ => .result

/-- What such parameters come to, where they are read. -/
def readKind {β : Type} (kind : Kind) : Except String β → Kind
  | .error _ => .error Codes.INVALID_PARAMS
  | .ok _ => kind

/-- The same for a request of an open session. -/
def openedKind {β : Type} (isOpen : Bool) (kind : Kind) (params : Except String β) : Kind :=
  if !isOpen then .error Codes.NOT_OPEN else readKind kind params

/-- What a request is owed. -/
def methodDues (isOpen notification : Bool) (id : ι) : Option (Method ι π ω) → List (Due ι)
  | some (.sessionOpen params) => [(id, openKind session isOpen params)]
  | some (.sessionAsk params) => [(id, openedKind isOpen .ask params)]
  | some (.sessionRefresh params) => [(id, openedKind isOpen .result params)]
  | some (.sessionCancel params) => if notification then [] else [(id, readKind .result params)]
  | some (.sessionNotifyChanged params) => if notification then [] else [(id, readKind .result params)]
  | some .sessionStatus => [(id, .result)]
  | some .sessionDescriptor => [(id, .result)]
  | some .sessionShutdown => [(id, .result)]
  | some (.other _) => if notification then [] else [(id, .error Codes.METHOD_NOT_FOUND)]
  | none => [(id, .error Codes.INVALID_REQUEST)]

/-- The id a message is served under, when it is not too large. -/
def served (message : Message ι π ω) : Option ι :=
  let id := message.id.getD session.null
  if MAX_ID_BYTES < session.idSize id then none else some id

def incomingDues (isOpen : Bool) : Incoming ι π ω → List (Due ι)
  | .oversized => [(session.null, .error Codes.PARSE_ERROR)]
  | .eof => []
  | .failed _ => []
  | .frame (.error _) _ => [(session.null, .error Codes.PARSE_ERROR)]
  | .frame (.ok message) _ =>
    match served session message with
    | none => [(session.null, .error Codes.INVALID_REQUEST)]
    | some id => methodDues session isOpen message.id.isNone id message.method

/-- The session is open after a request. -/
def methodOpens (isOpen : Bool) : Option (Method ι π ω) → Bool
  | some (.sessionOpen (.ok p)) => isOpen || (session.openSession p).toBool
  | _ => isOpen

def incomingOpens (isOpen : Bool) : Incoming ι π ω → Bool
  | .frame (.ok message) _ =>
    match served session message with
    | none => isOpen
    | some _ => methodOpens session isOpen message.method
  | _ => isOpen

def methodStops : Option (Method ι π ω) → Bool
  | some .sessionShutdown => true
  | _ => false

/-- Nothing is read behind it. -/
def stops : Incoming ι π ω → Bool
  | .eof => true
  | .failed _ => true
  | .frame (.ok message) _ =>
    match served session message with
    | none => false
    | some _ => methodStops message.method
  | _ => false

/-- What the frames of an input say, in its order, up to one that stops the child. -/
def gathered {β : Type} (f : Bool → Incoming ι π ω → List β) (isOpen : Bool) : List (Incoming ι π ω) → List β
  | [] => []
  | i :: input =>
    f isOpen i ++ if stops session i then [] else gathered f (incomingOpens session isOpen i) input

/-- **What an input is owed**, in its order. -/
def owed (isOpen : Bool) (input : List (Incoming ι π ω)) : List (Due ι) :=
  gathered session (incomingDues session) isOpen input

/-- The ask of a request, and whether it is light. -/
def methodAsks (isOpen : Bool) (id : ι) : Option (Method ι π ω) → List (ι × Bool)
  | some (.sessionAsk (.ok p)) => if isOpen then [(id, isLight p.argv)] else []
  | _ => []

def incomingAsks (isOpen : Bool) : Incoming ι π ω → List (ι × Bool)
  | .frame (.ok message) _ =>
    match served session message with
    | none => []
    | some id => methodAsks isOpen id message.method
  | _ => []

/-- The asks of an input, in its order. -/
def asked (isOpen : Bool) (input : List (Incoming ι π ω)) : List (ι × Bool) :=
  gathered session (incomingAsks session) isOpen input

/-! ## 2. What is pending -/

def Work.dues : Work ι π → List (Due ι)
  | .ask a => [(a.id, .ask)]
  | .refresh id wait _ => if wait then [(id, .result)] else []

def WorkerPhase.dues : WorkerPhase ι π → List (Due ι)
  | .taken w => w.dues
  | .computing w => w.dues
  | _ => []

def Worker.dues (w : Worker ι π) : List (Due ι) := w.phase.dues

def Action.dues : Action ι α → List (Due ι)
  | .send f => f.dues
  | .notify => []

def Ended.dues : Ended ι → List (Due ι)
  | .shutdown id => [(id, .result)]
  | _ => []

def Phase.dues : Phase ι → List (Due ι)
  | .ended why => why.dues
  | .joining why => why.dues
  | _ => []

/-- What the queue holds. -/
def QueueState.dues (q : QueueState ι π) : List (Due ι) :=
  q.heavyItems.flatMap Work.dues ++ q.lightItems.flatMap Work.dues

theorem QueueState.dequeued_dues (q : QueueState ι π) (light : Bool) (bytes : ℕ) :
    (q.dequeued light bytes).dues = q.dues := by
  unfold dequeued
  split <;> rfl

/-- What is taken in and not sent. -/
def pending (s : State ι π ω α) : List (Due ι) :=
  s.todo.flatMap Action.dues ++ s.queue.dues ++ s.workers.flatMap Worker.dues ++ s.phase.dues

/-- What is sent. -/
def paid (s : State ι π ω α) : List (Due ι) := s.out.flatMap Frame.dues

/-- The dispatcher reads no more, for another reason than idleness. -/
def Phase.stopped : Phase ι → Bool
  | .listening => false
  | .ended why | .joining why | .finished why =>
    match why with
    | .idle => false
    | _ => true

/-- What the unread input says. -/
def unreadOf {β : Type} (f : Bool → Incoming ι π ω → List β) (s : State ι π ω α) : List β :=
  if s.phase.stopped then [] else gathered session f s.isOpen s.input

/-- What the unread input is owed. -/
def unread (s : State ι π ω α) : List (Due ι) := unreadOf session (incomingDues session) s

section Ledger

variable [DecidableEq ι]

/-- Everything a state accounts for. -/
def total (d : Due ι) (s : State ι π ω α) : ℕ :=
  (paid s).count d + (pending s).count d + (unread session s).count d

/-! ## 3. One frame of the input -/

/-- What a dispatch leaves as it is. -/
structure Untouched (s s' : State ι π ω α) : Prop where
  input : s'.input = s.input
  workers : s'.workers = s.workers
  out : s'.out = s.out
  now : s'.now = s.now
  exiting : s'.exiting = s.exiting

/-- **A dispatch takes in what a frame is owed.** -/
structure TakesIn (s s' : State ι π ω α) (isOpen stop : Bool) (dues : List (Due ι)) : Prop where
  untouched : Untouched s s'
  isOpen : s'.isOpen = isOpen
  stop : if stop then ∃ why, s'.phase = .ended why ∧ s'.phase.stopped = true else s'.phase = .listening
  dues : ∀ d, (s'.todo.flatMap Action.dues ++ s'.queue.dues ++ s'.phase.dues).count d =
    (s.queue.dues).count d + dues.count d

theorem takeFirst_spec {β : Type} {p : β → Bool} : ∀ {l l' : List β} {b : β},
    takeFirst p l = some (b, l') → p b = true ∧ ∃ l₁ l₂, l = l₁ ++ b :: l₂ ∧ l' = l₁ ++ l₂ ∧
      ∀ c ∈ l₁, p c = false
  | [], _, _, h => absurd h (by simp [takeFirst])
  | a :: l, l', b, h => by
    unfold takeFirst at h
    split at h
    · rename_i hp
      simp only [Option.some.injEq, Prod.mk.injEq] at h
      obtain ⟨rfl, rfl⟩ := h
      exact ⟨hp, [], l, rfl, rfl, by simp⟩
    · rename_i hp
      rw [Option.map_eq_some_iff] at h
      obtain ⟨⟨b', rest⟩, hrest, h⟩ := h
      simp only [Prod.mk.injEq] at h
      obtain ⟨rfl, rfl⟩ := h
      obtain ⟨hb, l₁, l₂, rfl, rfl, hnone⟩ := takeFirst_spec hrest
      refine ⟨hb, a :: l₁, l₂, rfl, rfl, fun c hc => ?_⟩
      rcases List.mem_cons.mp hc with rfl | hc
      · simpa using hp
      · exact hnone c hc

theorem isAsk_iff {id : ι} {w : Work ι π} : isAsk id w = true ↔ ∃ a, w = .ask a ∧ a.id = id := by
  cases w with
  | ask a => simp [isAsk]
  | refresh => simp [isAsk]

theorem QueueState.push_dues (q : QueueState ι π) (a : Ask ι π) (d : Due ι) :
    (q.push a).dues.count d = q.dues.count d + [(a.id, Kind.ask)].count d := by
  unfold push setItems items dues
  cases a.light with
  | true => simp [Work.dues, List.count_append, Nat.add_assoc]
  | false =>
    simp only [Bool.false_eq_true, if_false, List.flatMap_append, List.flatMap_cons, List.flatMap_nil,
      List.append_nil, Work.dues, List.count_append]
    omega

/-- The dues of an ask taken from anywhere in a lane. -/
theorem count_dues_middle (l₁ l₂ : List (Work ι π)) (w : Work ι π) (d : Due ι) :
    ((l₁ ++ w :: l₂).flatMap Work.dues).count d =
      ((l₁ ++ l₂).flatMap Work.dues).count d + w.dues.count d := by
  simp only [List.flatMap_append, List.flatMap_cons, List.count_append]
  omega

/-- **A cancel** answers an ask it takes off a queue, and nothing else. -/
theorem cancel_takesIn (s : State ι π ω α) (htodo : s.todo = []) (hphase : s.phase = .listening) (id : ι) :
    TakesIn s (cancel s id).1 s.isOpen false [] := by
  have hqueued : ∀ (q : QueueState ι π) (w : Work ι π), isAsk id w = true →
      (∀ d, s.queue.dues.count d = q.dues.count d + w.dues.count d) →
      TakesIn s (cancelQueued s q id w).1 s.isOpen false [] := by
    intro q w hw hdues
    obtain ⟨a, rfl, rfl⟩ := isAsk_iff.mp hw
    refine ⟨⟨rfl, rfl, rfl, rfl, rfl⟩, rfl, hphase, fun d => ?_⟩
    rw [hdues d]
    simp only [cancelQueued, List.flatMap_cons, List.flatMap_nil, List.append_nil, Action.dues, Frame.dues,
      Work.dues, List.count_append, QueueState.dequeued_dues, hphase, Phase.dues, List.count_nil]
    omega
  unfold cancel
  split
  · exact ⟨⟨rfl, rfl, rfl, rfl, rfl⟩, rfl, hphase, fun d => by simp [htodo, hphase, Phase.dues]⟩
  split
  · rename_i w items htake
    obtain ⟨hw, l₁, l₂, hl, rfl, -⟩ := takeFirst_spec htake
    refine hqueued _ w hw fun d => ?_
    have := count_dues_middle l₁ l₂ w d
    simp only [QueueState.dues, hl, List.count_append] at this ⊢
    omega
  split
  · rename_i w items htake
    obtain ⟨hw, l₁, l₂, hl, rfl, -⟩ := takeFirst_spec htake
    refine hqueued _ w hw fun d => ?_
    have := count_dues_middle l₁ l₂ w d
    simp only [QueueState.dues, hl, List.count_append] at this ⊢
    omega
  · exact ⟨⟨rfl, rfl, rfl, rfl, rfl⟩, rfl, hphase, fun d => by simp [htodo, hphase, Phase.dues]⟩

/-- One frame more. -/
theorem TakesIn.reply {s s' : State ι π ω α} {isOpen : Bool} {dues : List (Due ι)}
    (h : TakesIn s s' isOpen false dues) (f : Frame ι α) :
    TakesIn s (Host.reply s' f) isOpen false (dues ++ f.dues) := by
  refine ⟨⟨h.untouched.1, h.untouched.2, h.untouched.3, h.untouched.4, h.untouched.5⟩, h.isOpen, h.stop, fun d => ?_⟩
  have := h.dues d
  simp only [Host.reply, List.flatMap_append, List.flatMap_cons, List.flatMap_nil, List.append_nil,
    List.count_append, Action.dues] at this ⊢
  omega

theorem takesIn_self {s : State ι π ω α} (htodo : s.todo = []) (hphase : s.phase = .listening) :
    TakesIn s s s.isOpen false [] :=
  ⟨⟨rfl, rfl, rfl, rfl, rfl⟩, rfl, hphase, fun d => by simp [htodo, hphase, Phase.dues]⟩

theorem enqueueAsk_takesIn (s : State ι π ω α) (hphase : s.phase = .listening) (id : ι)
    (params : AskParams π) (bytes : ℕ) :
    TakesIn s (enqueueAsk s id params bytes) s.isOpen false [(id, .ask)] := by
  unfold enqueueAsk
  dsimp only
  split
  · refine ⟨⟨rfl, rfl, rfl, rfl, rfl⟩, rfl, hphase, fun d => ?_⟩
    simp only [List.flatMap_cons, List.flatMap_nil, List.append_nil, Action.dues, Frame.dues,
      List.count_append, hphase, Phase.dues]
    omega
  · refine ⟨⟨rfl, rfl, rfl, rfl, rfl⟩, rfl, hphase, fun d => ?_⟩
    simp only [List.flatMap_cons, List.flatMap_nil, List.append_nil, Action.dues, List.nil_append,
      hphase, Phase.dues, QueueState.push_dues]

theorem enqueueRefresh_takesIn (s : State ι π ω α) (hphase : s.phase = .listening) (id : ι)
    (wait : Bool) :
    TakesIn s (enqueueRefresh s id wait) s.isOpen false (if wait then [(id, .result)] else []) := by
  refine ⟨⟨rfl, rfl, rfl, rfl, rfl⟩, rfl, hphase, fun d => ?_⟩
  simp only [enqueueRefresh, List.flatMap_cons, List.flatMap_nil, List.append_nil, Action.dues,
    List.nil_append, List.count_append, hphase, Phase.dues, QueueState.dues, List.flatMap_append, Work.dues]
  omega

section Requests

variable (s : State ι π ω α) (htodo : s.todo = []) (hphase : s.phase = .listening) (notification : Bool)
  (id : ι)
include htodo hphase

theorem openRequest_takesIn (params : Except String ω) :
    TakesIn s (openRequest session s id params)
      (methodOpens session s.isOpen (some (.sessionOpen (π := π) params))) false
      [(id, openKind session s.isOpen params)] := by
  have hself := takesIn_self htodo hphase
  cases params with
  | error e =>
    rw [openRequest, methodOpens, openKind]
    · split
      · exact hself.reply _
      · exact hself.reply _
    · simp
  | ok p =>
    rw [openRequest, methodOpens, openKind]
    cases hopen : s.isOpen with
    | true =>
      rw [hopen] at hself
      exact hself.reply _
    | false =>
      rw [hopen] at hself
      rw [if_neg (by simp), if_neg (by simp), Bool.false_or]
      cases session.openSession p with
      | error why => exact hself.reply _
      | ok dir =>
        have hopened : TakesIn s { s with isOpen := true } true false [] :=
          ⟨⟨rfl, rfl, rfl, rfl, rfl⟩, rfl, hphase, fun d => by simp [htodo, hphase, Phase.dues]⟩
        exact hopened.reply _

theorem askRequest_takesIn (bytes : ℕ) (params : Except String (AskParams π)) :
    TakesIn s (askRequest s id bytes params) s.isOpen false [(id, openedKind s.isOpen .ask params)] := by
  have hself := takesIn_self htodo hphase
  cases params with
  | error e =>
    rw [askRequest, openedKind]
    split
    · exact hself.reply _
    · exact hself.reply _
  | ok p =>
    rw [askRequest, openedKind]
    split
    · exact hself.reply _
    · exact enqueueAsk_takesIn s hphase id p bytes

theorem refreshRequest_takesIn (params : Except String Bool) :
    TakesIn s (refreshRequest s id params) s.isOpen false [(id, openedKind s.isOpen .result params)] := by
  have hself := takesIn_self htodo hphase
  cases params with
  | error e =>
    rw [refreshRequest, openedKind]
    split
    · exact hself.reply _
    · exact hself.reply _
  | ok wait =>
    rw [refreshRequest, openedKind]
    split
    · exact hself.reply _
    have hqueued := enqueueRefresh_takesIn s hphase id wait
    cases wait with
    | true => exact hqueued
    | false => exact hqueued.reply _

theorem cancelRequest_takesIn (params : Except String ι) :
    TakesIn s (cancelRequest s notification id params) s.isOpen false
      (if notification then [] else [(id, readKind .result params)]) := by
  have hself := takesIn_self htodo hphase
  cases params with
  | error e =>
    cases notification with
    | true => exact hself
    | false => exact hself.reply _
  | ok target =>
    have hcancel := cancel_takesIn s htodo hphase target
    cases notification with
    | true => exact hcancel
    | false => exact hcancel.reply _

theorem notifyChangedRequest_takesIn (params : Except String Unit) :
    TakesIn s (notifyChangedRequest s notification id params) s.isOpen false
      (if notification then [] else [(id, readKind .result params)]) := by
  have hself := takesIn_self htodo hphase
  cases notification with
  | true => cases params <;> exact hself
  | false => cases params <;> exact hself.reply _

/-- **A request** is owed what its method says. -/
theorem request_takesIn (bytes : ℕ) (method : Option (Method ι π ω)) :
    TakesIn s (request session s notification id bytes method)
      (methodOpens session s.isOpen method) (methodStops method)
      (methodDues session s.isOpen notification id method) := by
  have hself := takesIn_self htodo hphase
  rcases method with _ | method
  · exact hself.reply _
  cases method with
  | sessionOpen params => exact openRequest_takesIn session s htodo hphase id params
  | sessionAsk params => exact askRequest_takesIn s htodo hphase id bytes params
  | sessionRefresh params => exact refreshRequest_takesIn s htodo hphase id params
  | sessionCancel params => exact cancelRequest_takesIn s htodo hphase notification id params
  | sessionNotifyChanged params => exact notifyChangedRequest_takesIn s htodo hphase notification id params
  | sessionStatus => exact hself.reply _
  | sessionDescriptor => exact hself.reply _
  | sessionShutdown =>
    refine ⟨⟨rfl, rfl, rfl, rfl, rfl⟩, rfl, ⟨_, rfl, rfl⟩, fun d => ?_⟩
    simp only [request, htodo, List.flatMap_nil, List.nil_append, Phase.dues, Ended.dues, methodDues,
      List.count_append]
  | other name =>
    unfold request methodDues
    cases notification with
    | true => exact hself
    | false => exact hself.reply _

end Requests

theorem dispatch_takesIn (s : State ι π ω α) (htodo : s.todo = []) (hphase : s.phase = .listening)
    (i : Incoming ι π ω) :
    TakesIn s (dispatch session s i) (incomingOpens session s.isOpen i) (stops session i)
      (incomingDues session s.isOpen i) := by
  have hself := takesIn_self htodo hphase
  cases i with
  | oversized => exact hself.reply _
  | eof =>
    refine ⟨⟨rfl, rfl, rfl, rfl, rfl⟩, rfl, ⟨_, rfl, rfl⟩, fun d => ?_⟩
    simp [dispatch, htodo, Phase.dues, Ended.dues, incomingDues]
  | failed e =>
    refine ⟨⟨rfl, rfl, rfl, rfl, rfl⟩, rfl, ⟨_, rfl, rfl⟩, fun d => ?_⟩
    simp [dispatch, htodo, Phase.dues, Ended.dues, incomingDues]
  | frame message bytes =>
    cases message with
    | error e => exact hself.reply _
    | ok message =>
      unfold dispatch incomingOpens stops incomingDues served
      dsimp only
      split
      · exact hself.reply _
      · exact request_takesIn session s htodo hphase _ _ _ _

/-! ## 4. One step -/

/-- What a worker's event leaves as it is. -/
structure Worked (s s' : State ι π ω α) : Prop where
  input : s'.input = s.input
  isOpen : s'.isOpen = s.isOpen
  exiting : s'.exiting = s.exiting
  phase : s'.phase = s.phase
  todo : s'.todo = s.todo
  workers : s'.workers = s.workers
  flags : s'.flags = s.flags
  now : s'.now = s.now

omit [DecidableEq ι] in
theorem QueueState.take_dues (q : QueueState ι π) (unit : Work ι π) : (q.take unit).dues = q.dues := by
  cases unit with
  | ask a => exact q.dequeued_dues a.light a.bytes
  | refresh => rfl

theorem QueueState.items_dues {q : QueueState ι π} {light : Bool} {unit : Work ι π}
    {items : List (Work ι π)} (h : q.items light = unit :: items) (d : Due ι) :
    q.dues.count d = (q.setItems light items).dues.count d + unit.dues.count d := by
  unfold QueueState.items at h
  cases light with
  | true =>
    rw [if_pos rfl] at h
    simp only [dues, setItems, if_true, h, List.flatMap_cons, List.count_append]
    omega
  | false =>
    rw [if_neg (by simp)] at h
    simp only [dues, setItems, Bool.false_eq_true, if_false, h, List.flatMap_cons, List.count_append]
    omega

theorem QueueState.landed_dues (q : QueueState ι π) (unit : Work ι π) : (q.landed unit).dues = q.dues := by
  cases unit <;> rfl

/-- **A worker's event** moves a due from the queue to the worker, or from the worker to the output. -/
theorem work_dues {s s' : State ι π ω α} {w : Worker ι π} {e : WorkerEvent α} {p : WorkerPhase ι π}
    (h : work s w e = some (s', p)) (d : Due ι) :
    Worked s s' ∧ (paid s').count d + s'.queue.dues.count d + p.dues.count d =
      (paid s).count d + s.queue.dues.count d + w.dues.count d := by
  unfold work at h
  unfold Worker.dues
  cases e with
  | look =>
    cases hp : w.phase <;> simp only [hp, reduceCtorEq] at h
    cases hitems : s.queue.items w.light with
    | nil =>
      simp only [hitems, Option.some.injEq, Prod.mk.injEq] at h
      obtain ⟨rfl, rfl⟩ := h
      refine ⟨⟨rfl, rfl, rfl, rfl, rfl, rfl, rfl, rfl⟩, ?_⟩
      split <;> rfl
    | cons unit items =>
      simp only [hitems, Option.some.injEq, Prod.mk.injEq] at h
      obtain ⟨rfl, rfl⟩ := h
      refine ⟨⟨rfl, rfl, rfl, rfl, rfl, rfl, rfl, rfl⟩, ?_⟩
      simp only [paid, QueueState.take_dues, WorkerPhase.dues, List.count_nil,
        QueueState.items_dues hitems d]
      omega
  | spurious =>
    cases hp : w.phase <;> simp only [hp, reduceCtorEq, Option.some.injEq, Prod.mk.injEq] at h
    obtain ⟨rfl, rfl⟩ := h
    exact ⟨⟨rfl, rfl, rfl, rfl, rfl, rfl, rfl, rfl⟩, rfl⟩
  | check =>
    cases hp : w.phase with
    | taken unit =>
      cases unit with
      | ask a =>
        simp only [hp] at h
        split at h
        all_goals
          simp only [Option.some.injEq, Prod.mk.injEq] at h
          obtain ⟨rfl, rfl⟩ := h
          refine ⟨⟨rfl, rfl, rfl, rfl, rfl, rfl, rfl, rfl⟩, ?_⟩
        · simp only [paid, List.flatMap_append, List.flatMap_cons, List.flatMap_nil, List.append_nil,
            List.count_append, Frame.dues, WorkerPhase.dues, Work.dues, List.count_nil]
          omega
        · rfl
      | refresh id wait received =>
        simp only [hp, Option.some.injEq, Prod.mk.injEq] at h
        obtain ⟨rfl, rfl⟩ := h
        exact ⟨⟨rfl, rfl, rfl, rfl, rfl, rfl, rfl, rfl⟩, rfl⟩
    | _ => simp [hp] at h
  | progress phase =>
    cases hp : w.phase with
    | computing unit =>
      cases unit with
      | ask a =>
        simp only [hp] at h
        split at h
        · simp only [Option.some.injEq, Prod.mk.injEq] at h
          obtain ⟨rfl, rfl⟩ := h
          refine ⟨⟨rfl, rfl, rfl, rfl, rfl, rfl, rfl, rfl⟩, ?_⟩
          simp [paid, Frame.dues]
        · simp at h
      | refresh => simp [hp] at h
    | _ => simp [hp] at h
  | answer answer =>
    cases hp : w.phase with
    | computing unit =>
      cases unit with
      | ask a =>
        simp only [hp, Option.some.injEq, Prod.mk.injEq] at h
        obtain ⟨rfl, rfl⟩ := h
        refine ⟨⟨rfl, rfl, rfl, rfl, rfl, rfl, rfl, rfl⟩, ?_⟩
        simp only [paid, List.flatMap_append, List.flatMap_cons, List.flatMap_nil, List.append_nil,
          List.count_append, Frame.dues, WorkerPhase.dues, Work.dues, List.count_nil]
        omega
      | refresh => simp [hp] at h
    | _ => simp [hp] at h
  | refreshed result =>
    cases hp : w.phase with
    | computing unit =>
      cases unit with
      | ask => simp [hp] at h
      | refresh id wait received =>
        simp only [hp, Option.some.injEq, Prod.mk.injEq] at h
        obtain ⟨rfl, rfl⟩ := h
        refine ⟨⟨rfl, rfl, rfl, rfl, rfl, rfl, rfl, rfl⟩, ?_⟩
        cases wait with
        | true =>
          simp only [paid, if_true, List.flatMap_append, List.flatMap_cons, List.flatMap_nil,
            List.append_nil, List.count_append, Frame.dues, WorkerPhase.dues, Work.dues, List.count_nil]
          omega
        | false => simp [paid, WorkerPhase.dues, Work.dues]
    | _ => simp [hp] at h
  | done =>
    cases hp : w.phase <;> simp only [hp, reduceCtorEq, Option.some.injEq, Prod.mk.injEq] at h
    obtain ⟨rfl, rfl⟩ := h
    refine ⟨⟨rfl, rfl, rfl, rfl, rfl, rfl, rfl, rfl⟩, ?_⟩
    simp only [paid, QueueState.landed_dues, WorkerPhase.dues]

/-- One worker at another place. -/
theorem count_workers_set {workers : List (Worker ι π)} {k : ℕ} {w : Worker ι π}
    (h : workers[k]? = some w) (p : WorkerPhase ι π) (d : Due ι) :
    ((workers.set k { w with phase := p }).flatMap Worker.dues).count d + w.dues.count d =
      (workers.flatMap Worker.dues).count d + p.dues.count d := by
  obtain ⟨hlt, rfl⟩ := List.getElem?_eq_some_iff.mp h
  obtain ⟨l₁, l₂, hl, -, hset⟩ := @List.exists_of_set _ k { workers[k] with phase := p } _ hlt
  rw [hset]
  conv_rhs => rw [hl]
  simp only [List.flatMap_append, List.flatMap_cons, List.count_append, Worker.dues]
  omega

omit [DecidableEq ι] in
theorem notified_dues (workers : List (Worker ι π)) :
    (workers.map Worker.notified).flatMap Worker.dues = workers.flatMap Worker.dues := by
  rw [List.flatMap_map]
  refine congrArg List.flatten (List.map_congr_left fun w _ => ?_)
  unfold Worker.notified Worker.dues
  split
  · rename_i hp
    rw [hp]
    rfl
  · rfl

omit [DecidableEq ι] in
theorem unreadOf_eq {β : Type} (f : Bool → Incoming ι π ω → List β) {s s' : State ι π ω α}
    (hphase : s'.phase.stopped = s.phase.stopped) (hopen : s'.isOpen = s.isOpen) (hinput : s'.input = s.input) :
    unreadOf session f s' = unreadOf session f s := by
  rw [unreadOf, unreadOf, hphase, hopen, hinput]

/-- A dispatch takes its frame off the unread input. -/
theorem TakesIn.unreadOf {β : Type} (f : Bool → Incoming ι π ω → List β) {s s' : State ι π ω α}
    {i : Incoming ι π ω} {input : List (Incoming ι π ω)}
    (h : TakesIn { s with input := input, exiting := false } s' (incomingOpens session s.isOpen i)
      (stops session i) (incomingDues session s.isOpen i))
    (hphase : s.phase = .listening) (hinput : s.input = i :: input) :
    Host.unreadOf session f s = f s.isOpen i ++ Host.unreadOf session f s' := by
  have hrest := h.untouched.input
  have hopen := h.isOpen
  have hstop := h.stop
  dsimp only at hrest
  unfold Host.unreadOf
  rw [hphase, if_neg (by simp [Phase.stopped]), hinput, gathered]
  cases hs : stops session i with
  | true =>
    rw [hs, if_pos rfl] at hstop
    obtain ⟨_, -, hstop⟩ := hstop
    rw [if_pos hstop, if_pos rfl]
  | false =>
    rw [hs, if_neg (by simp)] at hstop
    rw [if_neg (by simp), hstop, if_neg (by simp [Phase.stopped]), hopen, hrest]

/-- **Every step keeps the account.** -/
theorem step_total {s s' : State ι π ω α} {e : Event α} (h : step session s e = some s') (d : Due ι) :
    total session d s' = total session d s := by
  unfold step at h
  cases e with
  | tick ms =>
    cases h
    rfl
  | receive =>
    dsimp only at h
    split at h
    · rename_i i input hphase htodo hinput
      simp only [Option.some.injEq] at h
      have htakes := dispatch_takesIn session { s with input := input, exiting := false } htodo hphase i
      rw [h] at htakes
      have hdues := htakes.dues d
      have hout := htakes.untouched.out
      have hworkers := htakes.untouched.workers
      dsimp only at hout hworkers hdues
      have hunread : (unread session s).count d =
          (incomingDues session s.isOpen i).count d + (unread session s').count d := by
        rw [unread, htakes.unreadOf session _ hphase hinput, List.count_append]
        rfl
      simp only [total, pending, paid, hout, hworkers, htodo, hphase, Phase.dues, List.flatMap_nil,
        List.nil_append, List.count_append, List.count_nil, hunread] at hdues ⊢
      omega
    · simp at h
  | act =>
    dsimp only at h
    split at h
    · simp at h
    · rename_i a todo htodo
      simp only [Option.some.injEq] at h
      subst h
      have hunread : unread session (perform { s with todo := todo } a) = unread session s := by
        cases a <;> exact unreadOf_eq session _ rfl rfl rfl
      rw [total, hunread, total]
      cases a with
      | send f =>
        simp only [pending, paid, perform, htodo, List.flatMap_append, List.flatMap_cons,
          List.flatMap_nil, List.append_nil, List.count_append, Action.dues]
        omega
      | notify =>
        simp only [pending, paid, perform, htodo, notified_dues, List.flatMap_cons, Action.dues,
          List.nil_append]
  | idleNotice =>
    dsimp only at h
    split at h
    · rename_i hphase htodo
      split at h
      · simp only [Option.some.injEq] at h
        subst h
        simp [total, pending, paid, unread, unreadOf, htodo, Action.dues, Frame.dues]
      · simp at h
    · simp at h
  | idleEnd =>
    dsimp only at h
    split at h
    · rename_i hphase htodo
      split at h
      · simp only [Option.some.injEq] at h
        subst h
        simp [total, pending, paid, unread, unreadOf, htodo, hphase, Phase.stopped, Phase.dues, Ended.dues]
      · simp at h
    · simp at h
  | close =>
    dsimp only at h
    split at h
    · rename_i why hphase htodo
      simp only [Option.some.injEq] at h
      have hunread : unread session s' = unread session s := by
        rw [← h]
        exact unreadOf_eq session _ (by rw [hphase]; rfl) rfl rfl
      rw [total, hunread, total]
      subst h
      simp only [pending, paid, htodo, hphase, Phase.dues, List.flatMap_cons, List.flatMap_nil,
        Action.dues, List.append_nil, List.nil_append, QueueState.dues]
    · simp at h
  | finish =>
    dsimp only at h
    split at h
    · rename_i why hphase htodo
      split at h
      · simp only [Option.some.injEq] at h
        subst h
        have hlast : ((farewell why : List (Frame ι α)).flatMap Frame.dues).count d =
            why.dues.count d := by
          cases why <;> rfl
        have hunread : unread session { s with out := s.out ++ farewell why, phase := .finished why } =
            unread session s := unreadOf_eq session _ (by rw [hphase]; rfl) rfl rfl
        rw [total, hunread, total]
        simp only [pending, paid, htodo, hphase, Phase.dues, List.flatMap_append, List.count_append, hlast,
          List.count_nil]
        omega
      · simp at h
    · simp at h
  | worker k e =>
    dsimp only at h
    split at h
    · simp at h
    · rename_i w hw
      rw [Option.map_eq_some_iff] at h
      obtain ⟨⟨s₁, p⟩, hwork, rfl⟩ := h
      obtain ⟨hsame, hdues⟩ := work_dues hwork d
      have hset := count_workers_set hw p d
      have hunread : unread session { s₁ with workers := s.workers.set k { w with phase := p } } =
          unread session s :=
        unreadOf_eq session _ (congrArg Phase.stopped hsame.phase) hsame.isOpen hsame.input
      rw [total, hunread, total]
      simp only [pending, paid, hsame.todo, hsame.phase, List.count_append] at hdues ⊢
      omega

/-! ## 5. Runs -/

variable {session}

theorem init_total (input : List (Incoming ι π ω)) (d : Due ι) :
    total session d (init session input : State ι π ω α) = (owed session false input).count d := by
  have hworkers : ((init session input : State ι π ω α).workers).flatMap Worker.dues = [] := by
    rw [List.flatMap_eq_nil_iff]
    intro w hw
    rcases List.mem_cons.mp hw with rfl | hw
    · rfl
    · rw [List.eq_of_mem_replicate hw]
      rfl
  have hpending : pending (init session input : State ι π ω α) = [] := by
    rw [pending, hworkers]
    rfl
  have hpaid : paid (init session input : State ι π ω α) = [] := rfl
  have hunread : unread session (init session input : State ι π ω α) = owed session false input := rfl
  rw [total, hpending, hpaid, hunread, List.count_nil, Nat.zero_add]

/-- **The ledger.**  What was sent, what is pending and what is owed to the unread input are, together, what
the whole input is owed. -/
theorem ledger {input : List (Incoming ι π ω)} {s : State ι π ω α} (h : Runs session input s) :
    (paid s ++ pending s ++ unread session s).Perm (owed session false input) := by
  rw [List.perm_iff_count]
  intro d
  have hrun : total session d s = total session d (init session input : State ι π ω α) :=
    Machine.Steps.rel (I := fun _ => True) (R := fun s s' => total session d s' = total session d s)
      (fun _ => rfl) (fun _ _ _ h₁ h₂ => h₂.trans h₁)
      (fun _ _ _ _ _ hstep => ⟨trivial, step_total session hstep d⟩) h trivial
  rw [init_total] at hrun
  simpa only [total, List.count_append] using hrun

end Ledger

end AlSem.Host
