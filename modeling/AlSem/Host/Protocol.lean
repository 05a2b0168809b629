/-
# The front end and the child

`EngineFront::call` of `engine/host/front.rs` against the child: the front end sends one request at a time and
takes frames until the response to it, while a reader thread queues what the child writes.  A response of
another id, or one that is no answer where an ask was sent, makes it kill the child; so does a frame that the
reader refuses.  A write to a child that has ended, or that its reader has killed, may fail, and is taken for a
death.

However the two processes and their threads are interleaved, no response is of another id or kind, and the
reader refuses only what there is no room for and a null result (`never_confused`): each request's response is
its own, of the kind it is owed, and they come in the order of the requests (`own_response`).
-/
import AlSem.Host.ChildInvariant
import AlSem.Host.FrontQueue

namespace AlSem.Host

variable {ι π ω α : Type}

/-! ## 1. Requests -/

/-- The ids of the requests, none of them null and all short, as null is. -/
structure Numbers (session : Session ι ω) where
  of : ℕ → ι
  not_null : ∀ n, of n ≠ session.null
  small : ∀ n, session.idSize (of n) ≤ MAX_ID_BYTES
  null_small : session.idSize session.null ≤ MAX_ID_BYTES

/-- What the front end asks of a child. -/
inductive Call (π ω : Type) where
  | open' (params : ω)
  | ask (params : AskParams π)
  | refresh (wait : Bool)
  | status
  | descriptor

def Call.method : Call π ω → Method ι π ω
  | .open' params => .sessionOpen (.ok params)
  | .ask params => .sessionAsk (.ok params)
  | .refresh wait => .sessionRefresh (.ok wait)
  | .status => .sessionStatus
  | .descriptor => .sessionDescriptor

def Call.isOpen : Call π ω → Bool
  | .open' _ => true
  | _ => false

def Call.isAsk : Call π ω → Bool
  | .ask _ => true
  | _ => false

/-- What a call is owed, once the session is open but for the call that opens it. -/
def Call.kind (session : Session ι ω) : Call π ω → Kind
  | .open' params => openKind session false (.ok params)
  | .ask _ => .ask
  | _ => .result

/-! ## 2. The pair -/

/-- The result of a response: an answer, with the id in it, or another one. -/
inductive Payload (ι α : Type) where
  | answer (id : ι) (answer : AskAnswer α)
  | result (r : Result ι α)

section Output

variable [DecidableEq ι] (session : Session ι ω)

/-- What the front end reads of an id. -/
def readId (id : ι) : Option ι := if id = session.null then none else some id

/-- What it reads of a frame; a result that the engine makes can be null. -/
def Frame.output (null : Bool) : Frame ι α → Output ι (Payload ι α)
  | .answer id a => ⟨"2.0", readId session id, none, none, some (.answer id a), none⟩
  | .response id .descriptor =>
    ⟨"2.0", readId session id, none, none, if null then none else some (.result .descriptor), none⟩
  | .response id (.refreshed r) =>
    ⟨"2.0", readId session id, none, none, if null then none else some (.result (.refreshed r)), none⟩
  | .response id r => ⟨"2.0", readId session id, none, none, some (.result r), none⟩
  | .error id code message => ⟨"2.0", readId session id, none, none, none, some (code, message)⟩
  | .progress id _ => ⟨"2.0", none, some PROGRESS_METHOD, some id, none, none⟩
  | .idleExit => ⟨"2.0", none, some IDLE_EXIT_METHOD, none, none, none⟩

end Output

/-- How the front end finds a child dead. -/
inductive Death where
  /-- It closed its output. -/
  | closedOutput
  /-- A write to it failed. -/
  | failedWrite

/-- Why the front end has no more to do with a child. -/
inductive Gone where
  | bad (why : String)
  | died (how : Death)
  | retired
  | refused
  | timeout
  | unexpected
  | noResult
  | noAnswer

/-- A front end and its child.  `sent` is all it wrote, `requests` what each of its requests is owed, and
`taken` the frames it took in its calls. -/
structure Pair (ι π ω α : Type) where
  child : State ι π ω α
  sent : List (Incoming ι π ω)
  requests : List (Due ι)
  pumped : ℕ
  queue : Queue ι (Payload ι α)
  taken : List (Queued ι (Payload ι α))
  awaiting : Option (ι × Bool)
  opened : Bool
  cancelSent : Bool
  idleNotice : Bool
  gone : Option Gone

/-- An event of the pair: the child's, the reader's, or the front end's, which writes or fails to. -/
inductive PairEvent (π ω α : Type) where
  | child (e : Event α)
  | pump (null : Bool) (bytes : ℕ)
  | send (call : Call π ω) (bytes : ℕ) (written : Bool)
  | cancel (bytes : ℕ) (written : Bool)
  | changed (bytes : ℕ) (written : Bool)
  | take
  | timeout

section Steps

variable [DecidableEq ι] {session : Session ι ω} (numbers : Numbers session) (bounds : Bounds)

/-- A message written to the child. -/
def Pair.write (s : Pair ι π ω α) (i : Incoming ι π ω) : Pair ι π ω α :=
  { s with child := { s.child with input := s.child.input ++ [i] }, sent := s.sent ++ [i] }

/-- A request written, with a new number. -/
def Pair.request (s : Pair ι π ω α) (call : Call π ω) (bytes : ℕ) : Pair ι π ω α :=
  let id := numbers.of s.requests.length
  { s.write (.frame (.ok ⟨some id, some call.method⟩) bytes) with
    requests := s.requests ++ [(id, call.kind session)]
    awaiting := some (id, call.isAsk)
    cancelSent := false }

/-- The child has ended, or its reader has killed it: its input is closed, now or soon. -/
def Pair.closing (s : Pair ι π ω α) : Bool :=
  (match s.child.phase with
    | .finished _ => true
    | _ => false) ||
  match s.queue.ended with
    | some (.bad _) => true
    | _ => false

/-- The pair after a write, or after one that fails, as a write to a closed input does: the child is taken for
dead (`died`). -/
def Pair.attempt (s after : Pair ι π ω α) (written : Bool) : Option (Pair ι π ω α) :=
  if written then some after
  else if s.closing then some { s with gone := some (.died .failedWrite) }
  else none

/-- A response to the call that waits: an error, or a result; an ask's is an answer of its id. -/
def Pair.respond (s : Pair ι π ω α) (id : ι) (isAsk : Bool) (m : Output ι (Payload ι α)) : Pair ι π ω α :=
  match m.error with
  | some _ => if s.opened then { s with awaiting := none } else { s with awaiting := none, gone := some .refused }
  | none =>
    match m.result with
    | none => { s with gone := some .noResult }
    | some (.answer aid _) =>
      if isAsk && decide (aid ≠ id) then { s with gone := some .noAnswer }
      else { s with awaiting := none, opened := true }
    | some (.result _) =>
      if isAsk then { s with gone := some .noAnswer } else { s with awaiting := none, opened := true }

/-- A frame taken in a call. -/
def Pair.onFrame (s : Pair ι π ω α) (id : ι) (isAsk : Bool) (m : Output ι (Payload ι α)) : Pair ι π ω α :=
  if m.method = some IDLE_EXIT_METHOD then { s with idleNotice := true }
  else if m.method.isSome then s
  else if m.id = some id then s.respond id isAsk m
  else { s with gone := some .unexpected }

/-- **One step** of the pair. -/
def pairStep (s : Pair ι π ω α) : PairEvent π ω α → Option (Pair ι π ω α)
  | .child e => (step session s.child e).map fun child => { s with child := child }
  | .pump null bytes =>
    match s.queue.ended with
    | some _ => none
    | none =>
      match s.child.out[s.pumped]? with
      | some f => some { s with
          pumped := s.pumped + 1
          queue := s.queue.read bounds (.frame (.ok (f.output session null)) bytes) }
      | none =>
        match s.child.phase with
        | .finished _ => some { s with queue := s.queue.read bounds .eof }
        | _ => none
  | .send call bytes written =>
    match s.gone, s.awaiting with
    | none, none =>
      if call.isOpen then
        if s.requests = [] then s.attempt (s.request numbers call bytes) written else none
      else if !s.opened then none
      else
        match s.queue.ended with
        | some (.bad why) => some { s with gone := some (.bad why) }
        | _ =>
          if s.idleNotice then some { s with gone := some .retired }
          else if s.queue.takeIdleNotice.1 then
            some { s with queue := s.queue.takeIdleNotice.2, gone := some .retired }
          else
            let s := { s with queue := s.queue.takeIdleNotice.2 }
            s.attempt (s.request numbers call bytes) written
    | _, _ => none
  | .cancel bytes written =>
    match s.gone, s.awaiting with
    | none, some (id, true) =>
      if s.cancelSent then none
      else
        s.attempt { s.write (.frame (.ok ⟨none, some (.sessionCancel (.ok id))⟩) bytes) with cancelSent := true }
          written
    | _, _ => none
  | .changed bytes written =>
    match s.gone, s.awaiting with
    | none, none =>
      if s.opened && !s.idleNotice then
        s.attempt (s.write (.frame (.ok ⟨none, some (.sessionNotifyChanged (.ok ()))⟩) bytes)) written
      else none
    | _, _ => none
  | .take =>
    match s.gone, s.awaiting with
    | none, some (id, isAsk) =>
      match s.queue.recv with
      | none => none
      | some (.bad why, queue) => some { s with queue := queue, gone := some (.bad why) }
      | some (.eof, queue) =>
        some { s with queue := queue, gone := some (if s.idleNotice then .retired else .died .closedOutput) }
      | some (.frame q, queue) =>
        some ({ s with queue := queue, taken := s.taken ++ [q] }.onFrame id isAsk q.msg)
    | _, _ => none
  | .timeout =>
    match s.gone, s.awaiting with
    | none, some _ => if s.opened then none else some { s with gone := some .timeout }
    | _, _ => none

/-- The pair before its first request. -/
def Pair.start (session : Session ι ω) : Pair ι π ω α where
  child := init session []
  sent := []
  requests := []
  pumped := 0
  queue := .empty
  taken := []
  awaiting := none
  opened := false
  cancelSent := false
  idleNotice := false
  gone := none

/-- **A run** of the pair. -/
def Talks (s : Pair ι π ω α) : Prop :=
  Machine.Steps (pairStep numbers bounds) (fun _ _ => True) (Pair.start session) s

/-- A session of short ids, with one light worker. -/
def short : Session ℕ Unit := { numbered with idSize := fun _ => 1 }

/-- Numbers from one on. -/
def shortNumbers : Numbers short where
  of n := n + 1
  not_null n := Nat.succ_ne_zero n
  small _ := Nat.le_of_ble_eq_true rfl
  null_small := Nat.le_of_ble_eq_true rfl

/-- A session opened and asked: the answer is read after a report, and a cancel crosses it. -/
def samplePairEvents : List (PairEvent Unit Unit ℕ) :=
  [.send (.open' ()) 10 true, .child .receive, .child .act, .pump false 5, .take,
    .send (.ask ⟨[], none, true, ()⟩) 20 true, .child .receive, .child .act, .child (.worker 0 .look),
    .child (.worker 0 .check), .child (.worker 0 (.progress "parse")), .pump false 30, .cancel 10 true,
    .child (.worker 0 (.answer 7)), .child .receive, .pump false 40, .take, .take]

/-- The pair after the first events of it. -/
def samplePair (n : ℕ) : Option (Pair ℕ Unit Unit ℕ) :=
  Machine.run (pairStep shortNumbers ⟨4, 100⟩) (fun _ _ => true) (Pair.start short) (samplePairEvents.take n)

theorem samplePair_talks (n : ℕ) {s : Pair ℕ Unit Unit ℕ} (h : samplePair n = some s) :
    Talks shortNumbers ⟨4, 100⟩ s :=
  Machine.steps_of_run (fun _ _ _ => trivial) _ _ _ h

/-! ## 3. A child that is sent more -/

/-- More input behind a child's. -/
def State.more (s : State ι π ω α) (input : List (Incoming ι π ω)) : State ι π ω α :=
  { s with input := s.input ++ input }

theorem cancel_more (s : State ι π ω α) (more : List (Incoming ι π ω)) (id : ι) :
    cancel (s.more more) id = ((cancel s id).1.more more, (cancel s id).2) := by
  have hqueued : ∀ (q : QueueState ι π) (w : Work ι π), cancelQueued (s.more more) q id w =
      ((cancelQueued s q id w).1.more more, (cancelQueued s q id w).2) := by
    intro q w
    cases w <;> rfl
  have hqueue : (s.more more).queue = s.queue := rfl
  unfold cancel
  rw [hqueue]
  cases hflight : s.queue.inFlight.find? fun f => f.1 = id with
  | some f => rfl
  | none =>
    cases hheavy : takeFirst (isAsk id) s.queue.heavyItems with
    | some taken => exact hqueued _ _
    | none =>
      cases hlight : takeFirst (isAsk id) s.queue.lightItems with
      | some taken => exact hqueued _ _
      | none => rfl

omit [DecidableEq ι] in
theorem enqueueAsk_more (s : State ι π ω α) (more : List (Incoming ι π ω)) (id : ι) (params : AskParams π)
    (bytes : ℕ) : enqueueAsk (s.more more) id params bytes = (enqueueAsk s id params bytes).more more := by
  cases hroom : s.queue.refuses (isLight params.argv) bytes <;> simp only [enqueueAsk, State.more, hroom] <;> rfl

theorem request_more (s : State ι π ω α) (more : List (Incoming ι π ω)) (notification : Bool) (id : ι)
    (bytes : ℕ) (method : Option (Method ι π ω)) :
    request session (s.more more) notification id bytes method =
      (request session s notification id bytes method).more more := by
  have hopen : (s.more more).isOpen = s.isOpen := rfl
  cases method with
  | none => rfl
  | some method =>
    cases method with
    | sessionOpen params =>
      cases params with
      | error e =>
        unfold request openRequest
        cases h : s.isOpen <;> simp only [hopen, h] <;> rfl
      | ok p =>
        unfold request openRequest
        cases h : s.isOpen with
        | true => simp only [hopen, h]; rfl
        | false => cases hp : session.openSession p <;> simp only [hopen, h, hp] <;> rfl
    | sessionAsk params =>
      cases params with
      | error e =>
        unfold request askRequest
        cases h : s.isOpen <;> simp only [hopen, h] <;> rfl
      | ok p =>
        unfold request askRequest
        cases h : s.isOpen with
        | true =>
          simp only [hopen, h]
          exact enqueueAsk_more s more id p bytes
        | false => simp only [hopen, h]; rfl
    | sessionRefresh params =>
      cases params with
      | error e =>
        unfold request refreshRequest
        cases h : s.isOpen <;> simp only [hopen, h] <;> rfl
      | ok wait =>
        unfold request refreshRequest
        cases h : s.isOpen <;> cases wait <;> simp only [hopen, h] <;> rfl
    | sessionCancel params =>
      cases params with
      | error e => cases notification <;> rfl
      | ok target =>
        unfold request cancelRequest
        dsimp only
        rw [cancel_more]
        cases notification <;> rfl
    | sessionNotifyChanged params => cases params <;> cases notification <;> rfl
    | sessionStatus => rfl
    | sessionDescriptor => rfl
    | sessionShutdown => rfl
    | other name => cases notification <;> rfl

theorem dispatch_more (s : State ι π ω α) (more : List (Incoming ι π ω)) (i : Incoming ι π ω) :
    dispatch session (s.more more) i = (dispatch session s i).more more := by
  cases i with
  | oversized => rfl
  | eof => rfl
  | failed e => rfl
  | frame message bytes =>
    cases message with
    | error e => rfl
    | ok message =>
      unfold dispatch
      dsimp only
      by_cases hid : MAX_ID_BYTES < session.idSize (message.id.getD session.null)
      · rw [if_pos hid, if_pos hid]
        rfl
      · rw [if_neg hid, if_neg hid]
        exact request_more s more _ _ bytes message.method

theorem work_more (s : State ι π ω α) (more : List (Incoming ι π ω)) (w : Worker ι π) (e : WorkerEvent α) :
    work (s.more more) w e = (work s w e).map fun r => (r.1.more more, r.2) := by
  have hqueue : (s.more more).queue = s.queue := rfl
  have hexpired : ∀ a : Ask ι π, expired (s.more more) a = expired s a := fun _ => rfl
  obtain ⟨light, phase⟩ := w
  cases e with
  | look =>
    cases phase with
    | awake => cases hitems : s.queue.items light <;> simp only [work, hqueue, hitems] <;> rfl
    | _ => rfl
  | check =>
    cases phase with
    | taken unit =>
      cases unit with
      | ask a => cases ha : expired s a <;> simp only [work, hexpired, ha] <;> rfl
      | refresh id wait received => rfl
    | _ => rfl
  | progress text =>
    cases phase with
    | computing unit =>
      cases unit with
      | ask a => cases ha : a.params.progress <;> simp only [work, ha] <;> rfl
      | refresh id wait received => rfl
    | _ => rfl
  | answer a =>
    cases phase with
    | computing unit => cases unit <;> rfl
    | _ => rfl
  | refreshed result =>
    cases phase with
    | computing unit => cases unit <;> rfl
    | _ => rfl
  | spurious => cases phase <;> rfl
  | done => cases phase <;> rfl

/-- **A child that is sent more** can do what it did. -/
theorem step_more {s s' : State ι π ω α} {e : Event α} (h : step session s e = some s')
    (more : List (Incoming ι π ω)) : step session (s.more more) e = some (s'.more more) := by
  unfold step at h ⊢
  cases e with
  | tick ms =>
    cases h
    rfl
  | receive =>
    dsimp only at h
    split at h
    · rename_i i input hphase htodo hinput
      obtain rfl := Option.some.inj h
      simp only [State.more, hphase, htodo, hinput, List.cons_append]
      have hdispatch := @dispatch_more _ _ _ _ _ session
        { s with input := input, exiting := false, phase := .listening, todo := [] } more i
      exact congrArg some hdispatch
    · simp at h
  | act =>
    dsimp only at h
    split at h
    · simp at h
    · rename_i a todo htodo
      obtain rfl := Option.some.inj h
      simp only [State.more, htodo]
      cases a <;> rfl
  | idleNotice =>
    dsimp only at h
    split at h
    · rename_i hphase htodo
      split at h
      · rename_i hidle
        obtain rfl := Option.some.inj h
        simp only [State.more, hphase, htodo]
        rw [if_pos hidle]
      · simp at h
    · simp at h
  | idleEnd =>
    dsimp only at h
    split at h
    · rename_i hphase htodo
      split at h
      · rename_i hidle
        obtain rfl := Option.some.inj h
        simp only [State.more, hphase, htodo]
        rw [if_pos hidle]
      · simp at h
    · simp at h
  | close =>
    dsimp only at h
    split at h
    · rename_i why hphase htodo
      obtain rfl := Option.some.inj h
      simp only [State.more, hphase, htodo]
    · simp at h
  | finish =>
    dsimp only at h
    split at h
    · rename_i why hphase htodo
      split at h
      · rename_i hexited
        obtain rfl := Option.some.inj h
        simp only [State.more, hphase, htodo]
        rw [if_pos hexited]
      · simp at h
    · simp at h
  | worker k e =>
    dsimp only at h ⊢
    split at h
    · simp at h
    · rename_i w hw
      have hw' : (s.more more).workers[k]? = some w := hw
      rw [Option.map_eq_some_iff] at h
      obtain ⟨⟨s₁, p⟩, hwork, rfl⟩ := h
      rw [hw']
      dsimp only
      rw [work_more, hwork]
      rfl

/-- A run on an input is the start of a run on a longer one. -/
theorem Runs.more {input : List (Incoming ι π ω)} {s : State ι π ω α} (h : Runs session input s)
    (more : List (Incoming ι π ω)) : Runs session (input ++ more) (s.more more) := by
  have hinit : (init session input : State ι π ω α).more more = init session (input ++ more) := rfl
  rw [Runs, ← hinit]
  exact Machine.Steps.map (fun s : State ι π ω α => s.more more)
    (fun _ e _ hok hstep => ⟨e, hok, step_more hstep more⟩) h

end Steps

/-! ## 4. What the requests are owed -/

section Owed

variable {session : Session ι ω}

variable (session) in
/-- The session is open after an input. -/
def openAfter (sent : List (Incoming ι π ω)) : Bool := sent.foldl (incomingOpens session) false

theorem gathered_snoc {β : Type} (f : Bool → Incoming ι π ω → List β) (i : Incoming ι π ω) :
    ∀ (sent : List (Incoming ι π ω)) (isOpen : Bool), (∀ j ∈ sent, stops session j = false) →
      gathered session f isOpen (sent ++ [i]) =
        gathered session f isOpen sent ++ f (sent.foldl (incomingOpens session) isOpen) i
  | [], isOpen, _ => by simp [gathered]
  | j :: sent, isOpen, h => by
    have hj : stops session j = false := h j List.mem_cons_self
    have hsent := gathered_snoc f i sent (incomingOpens session isOpen j) fun k hk =>
      h k (List.mem_cons_of_mem _ hk)
    simp only [List.cons_append, gathered, hj, Bool.false_eq_true, if_false, hsent, List.append_assoc,
      List.foldl_cons]

/-- A message that stops nothing, written behind others. -/
theorem owed_snoc {sent : List (Incoming ι π ω)} (h : ∀ j ∈ sent, stops session j = false)
    (i : Incoming ι π ω) :
    owed session false (sent ++ [i]) = owed session false sent ++ incomingDues session (openAfter session sent) i :=
  gathered_snoc _ i sent false h

theorem openAfter_snoc (sent : List (Incoming ι π ω)) (i : Incoming ι π ω) :
    openAfter session (sent ++ [i]) = incomingOpens session (openAfter session sent) i :=
  List.foldl_append.trans rfl

/-- A session stays open. -/
theorem incomingOpens_true (i : Incoming ι π ω) : incomingOpens session true i = true := by
  unfold incomingOpens
  split
  · split
    · rfl
    · unfold methodOpens
      split <;> simp
  · rfl

section Written

variable (numbers : Numbers session) (n bytes : ℕ)

theorem request_served (method : Option (Method ι π ω)) :
    served session ⟨some (numbers.of n), method⟩ = some (numbers.of n) := by
  have hsmall := numbers.small n
  rw [served]
  exact if_neg (Nat.not_lt.mpr hsmall)

include numbers in
theorem notification_served (method : Option (Method ι π ω)) :
    served session ⟨none, method⟩ = some session.null :=
  if_neg (Nat.not_lt.mpr numbers.null_small)

theorem request_stops (call : Call π ω) :
    stops session (.frame (.ok ⟨some (numbers.of n), some call.method⟩) bytes) = false := by
  rw [stops, request_served]
  cases call <;> rfl

/-- A request is owed one frame, of its own id. -/
theorem request_dues {isOpen : Bool} {call : Call π ω} (hopen : isOpen = !call.isOpen) :
    incomingDues session isOpen (.frame (.ok ⟨some (numbers.of n), some call.method⟩) bytes) =
      [(numbers.of n, call.kind session)] := by
  subst hopen
  rw [incomingDues, request_served]
  cases call <;> rfl

/-- Where it is owed no error, the session is open after it. -/
theorem request_opens {isOpen : Bool} {call : Call π ω} (hopen : isOpen = !call.isOpen)
    (hkind : ∀ code, call.kind session ≠ .error code) :
    incomingOpens session isOpen (.frame (.ok ⟨some (numbers.of n), some call.method⟩) bytes) = true := by
  subst hopen
  rw [incomingOpens, request_served]
  cases call with
  | open' params =>
    cases hparams : session.openSession params with
    | error why => exact absurd (by simp [Call.kind, openKind, hparams]) (hkind Codes.OPEN_FAILED)
    | ok dir => simp [Call.method, Call.isOpen, methodOpens, hparams, Except.toBool]
  | ask params => rfl
  | refresh wait => rfl
  | status => rfl
  | descriptor => rfl

/-- An ask is owed an answer, and nothing else is. -/
theorem kind_ask (call : Call π ω) : call.isAsk = true ↔ call.kind session = .ask := by
  cases call with
  | open' params =>
    cases hparams : session.openSession params <;> simp [Call.kind, Call.isAsk, openKind, hparams]
  | _ => simp [Call.kind, Call.isAsk]

end Written

/-- A notification of the front end's. -/
inductive Notice : Incoming ι π ω → Prop
  | cancel (id : ι) (bytes : ℕ) : Notice (.frame (.ok ⟨none, some (.sessionCancel (.ok id))⟩) bytes)
  | changed (bytes : ℕ) : Notice (.frame (.ok ⟨none, some (.sessionNotifyChanged (.ok ()))⟩) bytes)

/-- A notification is owed nothing and changes nothing of the session. -/
theorem Notice.quiet (numbers : Numbers session) {i : Incoming ι π ω} (h : Notice i) (isOpen : Bool) :
    incomingDues session isOpen i = [] ∧ incomingOpens session isOpen i = isOpen ∧ stops session i = false := by
  cases h with
  | cancel id bytes =>
    rw [incomingDues, incomingOpens, stops, notification_served numbers]
    exact ⟨rfl, rfl, rfl⟩
  | changed bytes =>
    rw [incomingDues, incomingOpens, stops, notification_served numbers]
    exact ⟨rfl, rfl, rfl⟩

end Owed

/-! ## 5. What is read -/

section Read

variable [DecidableEq ι] {session : Session ι ω}

/-- What a response is an answer to, and of which kind. -/
def Output.due (m : Output ι (Payload ι α)) : Option (Due ι) :=
  match m.id, m.error, m.result with
  | some id, some (code, _), _ => some (id, .error code)
  | some id, none, some (.answer aid _) => if aid = id then some (id, .ask) else none
  | some id, none, some (.result _) => some (id, .result)
  | _, _, _ => none

/-- What is due of the responses among some frames. -/
def dues (l : List (Queued ι (Payload ι α))) : List (Option (Due ι)) :=
  (l.filter Queued.isResponse).map fun q => q.msg.due

theorem dues_append (l l' : List (Queued ι (Payload ι α))) : dues (l ++ l') = dues l ++ dues l' := by
  rw [dues, List.filter_append, List.map_append]
  rfl

theorem dues_response {q : Queued ι (Payload ι α)} (h : q.msg.method = none) : dues [q] = [q.msg.due] := by
  simp [dues, Queued.isResponse, h]

theorem dues_notification {q : Queued ι (Payload ι α)} (h : q.msg.method ≠ none) : dues [q] = [] := by
  cases hmethod : q.msg.method with
  | none => exact absurd hmethod h
  | some m => simp [dues, Queued.isResponse, hmethod]

/-- **A frame is read as what it is**: where the reader takes it, it is the response to the request that it
was written for, of its kind, or a notification. -/
theorem checked_output {f : Frame ι α} {null : Bool} {bytes : ℕ} {q : Queued ι (Payload ι α)}
    (h : checked (.ok (f.output session null)) bytes = .ok q) (hnull : ∀ d ∈ f.dues, d.1 ≠ session.null) :
    dues [q] = f.dues.map some := by
  unfold checked at h
  dsimp only at h
  split at h
  · rename_i hshaped
    obtain rfl := Except.ok.inj h
    have hshaped := hshaped.2
    cases f with
    | answer id a =>
      have hid : readId session id = some id := if_neg (hnull (id, .ask) List.mem_cons_self)
      rw [dues_response rfl]
      simp [Frame.output, hid, Output.due, Frame.dues]
    | response id r =>
      have hid : readId session id = some id := if_neg (hnull (id, .result) List.mem_cons_self)
      cases null with
      | false => cases r <;> rw [dues_response rfl] <;> simp [Frame.output, hid, Output.due, Frame.dues]
      | true =>
        cases r with
        | descriptor => simp [Output.shaped, Frame.output] at hshaped
        | refreshed r => simp [Output.shaped, Frame.output] at hshaped
        | _ => rw [dues_response rfl]; simp [Frame.output, hid, Output.due, Frame.dues]
    | error id code message =>
      have hid : readId session id = some id := if_neg (hnull (id, .error code) List.mem_cons_self)
      rw [dues_response rfl]
      simp [Frame.output, hid, Output.due, Frame.dues]
    | progress id text => exact dues_notification (by simp [Frame.output])
    | idleExit => exact dues_notification (by simp [Frame.output])
  · simp at h

theorem Pushed.dues {s s' : Queue ι (Payload ι α)} {q : Queued ι (Payload ι α)} (h : Pushed s s' q) :
    Host.dues s'.items = Host.dues s.items ++ Host.dues [q] := by
  rw [Host.dues, h.responses, List.map_append]
  rfl

/-- A child only adds to its output. -/
theorem Stepped.out {s s' : State ι π ω α} (h : Stepped session s s') : s.out <+: s'.out := by
  cases h with
  | tick _ hs' => exact hs' ▸ List.prefix_rfl
  | receive i input hphase htodo _ hs' =>
    have htakes := dispatch_takesIn session { s with input := input, exiting := false } htodo hphase i
    rw [hs', htakes.untouched.out]
  | act a todo _ hs' =>
    subst hs'
    cases a with
    | send f => exact List.prefix_append _ _
    | notify => exact List.prefix_rfl
  | idleNotice _ _ hs' => exact hs' ▸ List.prefix_rfl
  | idleEnd _ _ _ _ hs' => exact hs' ▸ List.prefix_rfl
  | close _ _ _ hs' => exact hs' ▸ List.prefix_rfl
  | finish why _ _ _ hs' => exact hs' ▸ List.prefix_append _ _
  | worker k w s₁ p _ hmoved hs' =>
    subst hs'
    cases hmoved with
    | took _ _ _ _ hs _ => exact hs ▸ List.prefix_rfl
    | slept _ _ _ hs _ => exact hs ▸ List.prefix_rfl
    | left _ _ _ hs _ => exact hs ▸ List.prefix_rfl
    | woke _ hs _ => exact hs ▸ List.prefix_rfl
    | wrote _ frames _ _ _ hs _ => exact hs ▸ List.prefix_append _ _
    | landed _ _ hs _ => exact hs ▸ List.prefix_rfl

end Read

/-! ## 6. What a step of the pair does -/

section Inversion

variable [DecidableEq ι] {session : Session ι ω} (numbers : Numbers session) (bounds : Bounds)

/-- Why the front end gives a child up that it does not understand. -/
def Gone.confused : Gone → Bool
  | .unexpected => true
  | .noResult => true
  | .noAnswer => true
  | _ => false

/-- The front end writes something. -/
def PairEvent.writes : PairEvent π ω α → Bool
  | .send _ _ _ => true
  | .cancel _ _ => true
  | .changed _ _ => true
  | _ => false

/-- **What a step of the pair does.** -/
inductive PairStepped (e : PairEvent π ω α) (s s' : Pair ι π ω α) : Prop
  | child (c : Event α) (child : State ι π ω α) (he : e = .child c) (hstep : step session s.child c = some child)
      (hs : s' = { s with child := child })
  | pumped (null : Bool) (bytes : ℕ) (f : Frame ι α) (hended : s.queue.ended = none)
      (hf : s.child.out[s.pumped]? = some f)
      (hs : s' = { s with
        pumped := s.pumped + 1
        queue := s.queue.read bounds (.frame (.ok (f.output session null)) bytes) })
  | closed (why : Ended ι) (hended : s.queue.ended = none) (hall : s.child.out[s.pumped]? = none)
      (hfinished : s.child.phase = .finished why) (hs : s' = { s with queue := s.queue.read bounds .eof })
  | opening (call : Call π ω) (bytes : ℕ) (he : e.writes = true) (hawaiting : s.awaiting = none)
      (hopen : call.isOpen = true) (hfirst : s.requests = []) (hgone : s.gone = none) (hs : s' = s.request numbers call bytes)
  | asking (call : Call π ω) (bytes : ℕ) (he : e.writes = true) (hawaiting : s.awaiting = none)
      (hopen : call.isOpen = false) (hopened : s.opened = true) (hgone : s.gone = none)
      (hidle : s.queue.takeIdleNotice.1 = false)
      (hs : s' = { s with queue := s.queue.takeIdleNotice.2 }.request numbers call bytes)
  | notified (i : Incoming ι π ω) (sent : Bool) (he : e.writes = true) (hi : Notice i)
      (hopened : s.opened = true ∨ s.awaiting ≠ none) (hs : s' = { s.write i with cancelSent := sent })
  | took (q : Queued ι (Payload ι α)) (items : List (Queued ι (Payload ι α))) (id : ι) (isAsk : Bool)
      (hitems : s.queue.items = q :: items) (hgood : ∀ why, s.queue.ended ≠ some (.bad why))
      (hawaiting : s.awaiting = some (id, isAsk)) (hgone : s.gone = none)
      (hs : s' = { s with
        queue := { s.queue with items := items, bytes := s.queue.bytes - q.bytes }
        taken := s.taken ++ [q] }.onFrame id isAsk q.msg)
  | gone (why : Gone) (queue : Queue ι (Payload ι α)) (hgone : s.gone = none)
      (hqueue : queue = s.queue ∨ queue = s.queue.takeIdleNotice.2) (hwhy : why.confused = false)
      (hbad : ∀ text, why = .bad text → s.queue.ended = some (.bad text))
      (hclosed : why = .died .closedOutput →
        s.idleNotice = false ∧ s.queue.items = [] ∧ s.queue.ended = some .eof)
      (hfailed : why = .died .failedWrite → s.closing = true)
      (hs : s' = { s with queue := queue, gone := some why })

omit [DecidableEq ι] in
/-- The end of the queue is taken last. -/
theorem Queue.recv_eof {ρ : Type} {s queue : Queue ι ρ} (h : s.recv = some (.eof, queue)) :
    queue = s ∧ s.items = [] ∧ s.ended = some .eof := by
  obtain ⟨items, bytes, peakFrames, peakBytes, ended⟩ := s
  rcases ended with _ | (_ | why) <;> cases items <;> simp [recv] at h
  exact ⟨h.symm, rfl, rfl⟩

omit [DecidableEq ι] in
/-- A failure is taken first. -/
theorem Queue.recv_bad {ρ : Type} {s queue : Queue ι ρ} {why : String}
    (h : s.recv = some (.bad why, queue)) : s.ended = some (.bad why) := by
  obtain ⟨items, bytes, peakFrames, peakBytes, ended⟩ := s
  rcases ended with _ | (_ | why') <;> cases items <;> simp [recv] at h ⊢ <;> exact h.1

omit [DecidableEq ι] in
/-- A write is made, or fails where the child's input is closed. -/
theorem Pair.attempt_cases {s after s' : Pair ι π ω α} {written : Bool}
    (h : s.attempt after written = some s') :
    s' = after ∨ s.closing = true ∧ s' = { s with gone := some (.died .failedWrite) } := by
  unfold attempt at h
  split at h
  · exact .inl (Option.some.inj h).symm
  · split at h
    · rename_i hclosing
      exact .inr ⟨hclosing, (Option.some.inj h).symm⟩
    · exact nomatch h

theorem pairStep_stepped {s s' : Pair ι π ω α} {e : PairEvent π ω α}
    (h : pairStep numbers bounds s e = some s') : PairStepped numbers bounds e s s' := by
  have hbroken : ∀ queue, queue = s.queue ∨ queue = s.queue.takeIdleNotice.2 → s.gone = none →
      s.closing = true → s' = { s with queue := queue, gone := some (.died .failedWrite) } →
      PairStepped numbers bounds e s s' := fun queue hqueue hgone hclosing hs =>
    .gone (.died .failedWrite) queue hgone hqueue rfl (by simp) (by simp) (fun _ => hclosing) hs
  unfold pairStep at h
  cases e with
  | child e =>
    obtain ⟨child, hstep, hs⟩ := Option.map_eq_some_iff.mp h
    exact .child e child rfl hstep hs.symm
  | pump null bytes =>
    dsimp only at h
    split at h
    · simp at h
    · rename_i hended
      split at h
      · rename_i f hf
        exact .pumped null bytes f hended hf (Option.some.inj h).symm
      · rename_i hall
        split at h
        · rename_i why hfinished
          exact .closed why hended hall hfinished (Option.some.inj h).symm
        · simp at h
  | send call bytes written =>
    dsimp only at h
    split at h
    · rename_i hgone hawaiting
      split at h
      · rename_i hopen
        split at h
        · rename_i hfirst
          rcases Pair.attempt_cases h with hs | ⟨hclosing, hs⟩
          · exact .opening call bytes rfl hawaiting hopen hfirst hgone hs
          · exact hbroken s.queue (.inl rfl) hgone hclosing hs
        · simp at h
      · rename_i hopen
        split at h
        · simp at h
        · rename_i hopened
          split at h
          · rename_i why hbad
            refine .gone (.bad why) s.queue hgone (.inl rfl) rfl (fun text htext => ?_) (by simp) (by simp)
              (Option.some.inj h).symm
            rw [hbad, Gone.bad.inj htext]
          · split at h
            · exact .gone .retired s.queue hgone (.inl rfl) rfl (by simp) (by simp) (by simp)
                (Option.some.inj h).symm
            · split at h
              · exact .gone .retired _ hgone (.inr rfl) rfl (by simp) (by simp) (by simp)
                  (Option.some.inj h).symm
              · rename_i hidle
                rcases Pair.attempt_cases h with hs | ⟨hclosing, hs⟩
                · exact .asking call bytes rfl hawaiting (by simpa using hopen) (by simpa using hopened) hgone
                    (by simpa using hidle) hs
                · exact hbroken _ (.inr rfl) hgone hclosing hs
    · simp at h
  | cancel bytes written =>
    dsimp only at h
    split at h
    · rename_i id hgone hawaiting
      split at h
      · simp at h
      · rcases Pair.attempt_cases h with hs | ⟨hclosing, hs⟩
        · exact .notified _ true rfl (.cancel id bytes) (.inr (by simp [hawaiting])) hs
        · exact hbroken s.queue (.inl rfl) hgone hclosing hs
    · simp at h
  | changed bytes written =>
    dsimp only at h
    split at h
    · rename_i hgone hawaiting
      split at h
      · rename_i hopened
        rcases Pair.attempt_cases h with hs | ⟨hclosing, hs⟩
        · exact .notified _ s.cancelSent rfl (.changed bytes) (.inl (Bool.and_eq_true_iff.mp hopened).1) hs
        · exact hbroken s.queue (.inl rfl) hgone hclosing hs
      · simp at h
    · simp at h
  | take =>
    dsimp only at h
    split at h
    · rename_i id isAsk hgone hawaiting
      rcases s.queue.recv_cases with hrecv | ⟨e, hrecv, hnot⟩ | ⟨q, items, hitems, hgood, hrecv⟩
      · simp [hrecv] at h
      · rw [hrecv] at h
        cases e with
        | frame q => exact absurd rfl (hnot q)
        | bad why =>
          refine .gone (.bad why) s.queue hgone (.inl rfl) rfl (fun text htext => ?_) (by simp) (by simp)
            (Option.some.inj h).symm
          rw [Queue.recv_bad hrecv, Gone.bad.inj htext]
        | eof =>
          obtain ⟨-, hitems, hended⟩ := Queue.recv_eof hrecv
          refine .gone _ s.queue hgone (.inl rfl) ?_ ?_ (fun hdied => ?_) ?_ (Option.some.inj h).symm
          · split <;> rfl
          · split <;> simp
          · cases hidle : s.idleNotice with
            | true => simp [hidle] at hdied
            | false => exact ⟨rfl, hitems, hended⟩
          · split <;> simp
      · rw [hrecv] at h
        exact .took q items id isAsk hitems hgood hawaiting hgone (Option.some.inj h).symm
    · simp at h
  | timeout =>
    dsimp only at h
    split at h
    · rename_i hgone hawaiting
      split at h
      · simp at h
      · exact .gone .timeout s.queue hgone (.inl rfl) rfl (by simp) (by simp) (by simp)
          (Option.some.inj h).symm
    · simp at h

end Inversion

/-! ## 7. No confusion -/

section Agreement

variable [DecidableEq ι] {session : Session ι ω} {numbers : Numbers session} {bounds : Bounds}

/-- What the requests are owed that no call waits for any more. -/
def Pair.answered (s : Pair ι π ω α) : List (Due ι) :=
  if s.awaiting.isSome then s.requests.dropLast else s.requests

variable (session) in
/-- **The two sides agree**: what the requests are owed is what the child's input is, what was read of its
output is taken or queued, and all but what a call waits for is taken. -/
structure Agrees (s : Pair ι π ω α) : Prop where
  runs : Runs session s.sent s.child
  goes : ∀ i ∈ s.sent, stops session i = false
  owed : owed session false s.sent = s.requests
  ids : ∀ d ∈ s.requests, d.1 ≠ session.null
  first : s.requests = [] → s.sent = [] ∧ s.awaiting = none
  opened : s.opened = true → openAfter session s.sent = true
  waits : ∀ id isAsk, s.awaiting = some (id, isAsk) → ∃ kind, s.requests.getLast? = some (id, kind) ∧
    (isAsk = true ↔ kind = .ask) ∧ ((∀ code, kind ≠ .error code) → openAfter session s.sent = true)
  pumped : s.pumped ≤ s.child.out.length
  read : (∀ why, s.queue.ended ≠ some (.bad why)) →
    dues (s.taken ++ s.queue.items) = ((s.child.out.take s.pumped).flatMap Frame.dues).map some
  taken : dues s.taken = s.answered.map some
  calm : ∀ why, s.gone = some why → why.confused = false

theorem Agrees.frame_ids {s : Pair ι π ω α} (h : Agrees session s) {f : Frame ι α} (hf : f ∈ s.child.out) :
    ∀ d ∈ f.dues, d.1 ≠ session.null := by
  intro d hd
  have hpaid : d ∈ paid s.child := List.mem_flatMap.mpr ⟨f, hf, hd⟩
  have howed := (ledger h.runs).subset (List.mem_append_left _ (List.mem_append_left _ hpaid))
  rw [h.owed] at howed
  exact h.ids d howed

/-- **The next response is the one a call waits for.** -/
theorem Agrees.next {s : Pair ι π ω α} (h : Agrees session s) {q : Queued ι (Payload ι α)}
    {items : List (Queued ι (Payload ι α))} (hitems : s.queue.items = q :: items)
    (hgood : ∀ why, s.queue.ended ≠ some (.bad why)) {w : ι × Bool} (hawaiting : s.awaiting = some w)
    (hmethod : q.msg.method = none) : q.msg.due = s.requests.getLast? := by
  have hne : s.requests ≠ [] := fun hnil => by
    rw [(h.first hnil).2] at hawaiting
    simp at hawaiting
  have hanswered : s.answered = s.requests.dropLast := by simp [Pair.answered, hawaiting]
  have hread := h.read hgood
  rw [hitems, dues_append, h.taken, hanswered, ← List.singleton_append, dues_append, dues_response hmethod] at hread
  -- what is paid is what is read and what is not
  have hledger := (ledger h.runs).map (some : Due ι → Option (Due ι))
  rw [h.owed, ← List.dropLast_append_getLast hne, paid, ← List.take_append_drop s.pumped s.child.out,
    List.flatMap_append] at hledger
  simp only [List.map_append, ← hread, List.append_assoc, List.map_cons, List.map_nil] at hledger
  have hlast := List.perm_singleton.mp ((List.perm_append_left_iff _).mp hledger)
  rw [List.getLast?_eq_some_getLast hne]
  exact (List.cons.inj hlast).1

omit [DecidableEq ι] in
theorem Pair.answered_of_none {s : Pair ι π ω α} (h : s.awaiting = none) : s.answered = s.requests := by
  simp [Pair.answered, h]

/-- What was read of a child's output stays. -/
theorem Agrees.take_out {s : Pair ι π ω α} (h : Agrees session s) {e : Event α} {child : State ι π ω α}
    (hstep : step session s.child e = some child) : child.out.take s.pumped = s.child.out.take s.pumped := by
  obtain ⟨rest, hrest⟩ := (step_stepped session hstep).out
  rw [← hrest, List.take_append_of_le_length h.pumped]

theorem Agrees.child {s : Pair ι π ω α} (h : Agrees session s) {e : Event α} {child : State ι π ω α}
    (hstep : step session s.child e = some child) : Agrees session { s with child := child } := by
  refine ⟨h.runs.tail ⟨e, trivial, hstep⟩, h.goes, h.owed, h.ids, h.first, h.opened, h.waits,
    h.pumped.trans (step_stepped session hstep).out.length_le, fun hgood => ?_, h.taken, h.calm⟩
  dsimp only
  rw [h.take_out hstep]
  exact h.read hgood

theorem Agrees.pump {s : Pair ι π ω α} (h : Agrees session s) {null : Bool} {bytes : ℕ} {f : Frame ι α}
    (hended : s.queue.ended = none) (hf : s.child.out[s.pumped]? = some f) :
    Agrees session { s with
      pumped := s.pumped + 1
      queue := s.queue.read bounds (.frame (.ok (f.output session null)) bytes) } := by
  have hlt : s.pumped < s.child.out.length := (List.getElem?_eq_some_iff.mp hf).1
  refine ⟨h.runs, h.goes, h.owed, h.ids, h.first, h.opened, h.waits, hlt, fun hgood => ?_, h.taken, h.calm⟩
  have hread := h.read (by simp [hended])
  dsimp only at hgood ⊢
  rw [List.take_add_one, hf, List.flatMap_append, List.map_append, ← hread, dues_append, dues_append,
    List.append_assoc]
  refine congrArg _ ?_
  cases Queue.read_readIn bounds hended (.frame (.ok (f.output session null)) bytes) with
  | pushed q hq hpush =>
    have hchecked : checked (.ok (f.output session null)) bytes = .ok q := by
      rw [accepted] at hq
      cases hchecked : checked (.ok (f.output session null)) bytes with
      | error why => simp [hchecked, Except.toOption] at hq
      | ok q' =>
        rw [hchecked] at hq
        exact congrArg Except.ok (Option.some.inj hq)
    have hdues := checked_output hchecked (h.frame_ids (List.mem_of_getElem? hf))
    rw [(Queue.push_pushed hpush).dues, hdues]
    simp
  | stopped why hs => exact absurd (by rw [hs]) (hgood why)
  | eof hr hs => simp at hr

/-- A request written. -/
theorem Agrees.request {s : Pair ι π ω α} (h : Agrees session s) {call : Call π ω} {bytes : ℕ}
    (hawaiting : s.awaiting = none) (hopen : openAfter session s.sent = !call.isOpen) :
    Agrees session (s.request numbers call bytes) := by
  have hkept : ((s.request numbers call bytes).requests).dropLast = s.requests := List.dropLast_concat
  refine ⟨h.runs.more _, fun i hi => ?_, ?_, fun d hd => ?_, fun hnil => ?_, fun hopened => ?_,
    fun id isAsk hwaits => ?_, h.pumped, h.read, ?_, h.calm⟩
  · rcases List.mem_append.mp hi with hi | hi
    · exact h.goes i hi
    · rw [List.mem_singleton.mp hi]
      exact request_stops numbers _ bytes call
  · refine (owed_snoc h.goes _).trans ?_
    rw [h.owed, request_dues numbers s.requests.length bytes hopen]
    rfl
  · rcases List.mem_append.mp hd with hd | hd
    · exact h.ids d hd
    · rw [List.mem_singleton.mp hd]
      exact numbers.not_null _
  · exact absurd (congrArg List.length hnil) (by simp [Pair.request, Pair.write])
  · rw [show openAfter session (s.request numbers call bytes).sent = _ from openAfter_snoc _ _, h.opened hopened]
    exact incomingOpens_true _
  · cases hwaits
    refine ⟨call.kind session, by simp [Pair.request, Pair.write], kind_ask call, fun hkind => ?_⟩
    exact (openAfter_snoc _ _).trans (request_opens numbers s.requests.length bytes hopen hkind)
  · have htaken := h.taken
    rw [Pair.answered_of_none hawaiting] at htaken
    refine htaken.trans (congrArg _ ?_)
    exact hkept.symm

/-- A notification written. -/
theorem Agrees.notified (numbers : Numbers session) {s : Pair ι π ω α} (h : Agrees session s)
    {i : Incoming ι π ω} (hi : Notice i) (hsent : s.requests ≠ []) (sent : Bool) :
    Agrees session { s.write i with cancelSent := sent } := by
  obtain ⟨hdues, hopens, hstops⟩ := hi.quiet numbers (openAfter session s.sent)
  have hafter : openAfter session (s.sent ++ [i]) = openAfter session s.sent := (openAfter_snoc _ _).trans hopens
  refine ⟨h.runs.more _, fun j hj => ?_, ?_, h.ids, fun hnil => absurd hnil hsent, ?_, ?_, h.pumped, h.read,
    h.taken, h.calm⟩
  · rcases List.mem_append.mp hj with hj | hj
    · exact h.goes j hj
    · rw [List.mem_singleton.mp hj]
      exact hstops
  · refine (owed_snoc h.goes _).trans ?_
    rw [hdues, List.append_nil]
    exact h.owed
  · intro hopened
    exact hafter.trans (h.opened hopened)
  · intro id isAsk hwaits
    obtain ⟨kind, hlast, hask, hkind⟩ := h.waits id isAsk hwaits
    exact ⟨kind, hlast, hask, fun hk => hafter.trans (hkind hk)⟩

omit [DecidableEq ι] in
theorem Output.due_some [DecidableEq ι] {m : Output ι (Payload ι α)} {id : ι} {kind : Kind}
    (h : m.due = some (id, kind)) : m.id = some id ∧
      ((∃ code message, m.error = some (code, message) ∧ kind = .error code) ∨
        (m.error = none ∧ ∃ a, m.result = some (.answer id a) ∧ kind = .ask) ∨
        (m.error = none ∧ ∃ r, m.result = some (.result r) ∧ kind = .result)) := by
  unfold Output.due at h
  split at h
  · rename_i id' code message hid herror
    cases h
    exact ⟨hid, .inl ⟨code, message, herror, rfl⟩⟩
  · rename_i id' aid a hid herror hresult
    split at h
    · rename_i haid
      cases h
      exact ⟨hid, .inr (.inl ⟨herror, a, haid ▸ hresult, rfl⟩)⟩
    · simp at h
  · rename_i id' r hid herror hresult
    cases h
    exact ⟨hid, .inr (.inr ⟨herror, r, hresult, rfl⟩)⟩
  · simp at h

/-- The response to a call ends it, or the session with it. -/
theorem Pair.respond_due {s : Pair ι π ω α} {id : ι} {isAsk : Bool} {m : Output ι (Payload ι α)} {kind : Kind}
    (hdue : m.due = some (id, kind)) (hask : isAsk = true ↔ kind = .ask) :
    ∃ opened gone, s.respond id isAsk m = { s with awaiting := none, opened := opened, gone := gone } ∧
      (opened = true → s.opened = true ∨ ∀ code, kind ≠ .error code) ∧
        (gone = s.gone ∨ gone = some .refused) := by
  obtain ⟨-, ⟨code, message, herror, rfl⟩ | ⟨herror, a, hresult, rfl⟩ | ⟨herror, r, hresult, rfl⟩⟩ :=
    Output.due_some hdue
  · unfold Pair.respond
    rw [herror]
    dsimp only
    split
    · exact ⟨s.opened, s.gone, rfl, .inl, .inl rfl⟩
    · exact ⟨s.opened, some .refused, rfl, .inl, .inr rfl⟩
  · refine ⟨true, s.gone, ?_, fun _ => .inr (by simp), .inl rfl⟩
    simp [Pair.respond, herror, hresult]
  · have hnot : isAsk = false := by
      cases isAsk with
      | false => rfl
      | true => exact absurd (hask.mp rfl) (by simp)
    refine ⟨true, s.gone, ?_, fun _ => .inr (by simp), .inl rfl⟩
    simp [Pair.respond, herror, hresult, hnot]

/-- A frame taken in a call. -/
theorem Agrees.took {s : Pair ι π ω α} (h : Agrees session s) {q : Queued ι (Payload ι α)}
    {items : List (Queued ι (Payload ι α))} {id : ι} {isAsk : Bool} (hitems : s.queue.items = q :: items)
    (hgood : ∀ why, s.queue.ended ≠ some (.bad why)) (hawaiting : s.awaiting = some (id, isAsk))
    (hgone : s.gone = none) :
    Agrees session ({ s with
      queue := { s.queue with items := items, bytes := s.queue.bytes - q.bytes }
      taken := s.taken ++ [q] }.onFrame id isAsk q.msg) := by
  have hread := h.read hgood
  rw [hitems] at hread
  have hread' : dues ((s.taken ++ [q]) ++ items) =
      ((s.child.out.take s.pumped).flatMap Frame.dues).map some := by rwa [List.append_assoc]
  have hanswered : s.answered = s.requests.dropLast := by simp [Pair.answered, hawaiting]
  cases hmethod : q.msg.method with
  | some m =>
    have htaken : dues (s.taken ++ [q]) = s.answered.map some := by
      rw [dues_append, dues_notification (by simp [hmethod]), List.append_nil]
      exact h.taken
    unfold Pair.onFrame
    rw [hmethod]
    split
    · exact ⟨h.runs, h.goes, h.owed, h.ids, h.first, h.opened, h.waits, h.pumped, fun _ => hread', htaken, h.calm⟩
    · rw [if_pos Option.isSome_some]
      exact ⟨h.runs, h.goes, h.owed, h.ids, h.first, h.opened, h.waits, h.pumped, fun _ => hread', htaken, h.calm⟩
  | none =>
    obtain ⟨kind, hlast, hask, hopens⟩ := h.waits id isAsk hawaiting
    have hdue : q.msg.due = some (id, kind) := (h.next hitems hgood hawaiting hmethod).trans hlast
    have hid := (Output.due_some hdue).1
    unfold Pair.onFrame
    rw [hmethod, if_neg (by simp), if_neg (by simp), if_pos hid]
    obtain ⟨opened, gone, hs, hopened, hwhy⟩ := @Pair.respond_due _ π ω _ _ { s with
      queue := { s.queue with items := items, bytes := s.queue.bytes - q.bytes }
      taken := s.taken ++ [q] } id isAsk q.msg kind hdue hask
    rw [hs]
    refine ⟨h.runs, h.goes, h.owed, h.ids, fun hnil => ⟨(h.first hnil).1, rfl⟩, fun hop => ?_, ?_, h.pumped,
      fun _ => hread', ?_, fun why hw => ?_⟩
    · rcases hopened hop with hop | hkind
      · exact h.opened hop
      · exact hopens hkind
    · simp
    · rw [Pair.answered_of_none rfl, dues_append, dues_response hmethod, h.taken, hanswered, hdue, ← hlast]
      have hne : s.requests ≠ [] := fun hnil => by simp [hnil] at hlast
      dsimp only
      rw [List.getLast?_eq_some_getLast hne, ← List.map_singleton, ← List.map_append,
        List.dropLast_append_getLast]
    · dsimp only at hw hwhy
      rw [hgone] at hwhy
      rcases hwhy with rfl | rfl
      · simp at hw
      · obtain rfl := Option.some.inj hw
        rfl

/-- **Every step keeps the agreement.** -/
theorem PairStepped.agrees {e : PairEvent π ω α} {s s' : Pair ι π ω α} (hstep : PairStepped numbers bounds e s s')
    (h : Agrees session s) : Agrees session s' := by
  cases hstep with
  | child c child _ hstep hs => exact hs ▸ h.child hstep
  | pumped null bytes f hended hf hs => exact hs ▸ h.pump hended hf
  | closed why hended hall _ hs =>
    subst hs
    have hqueue : s.queue.read bounds .eof = { s.queue with ended := some .eof } := by
      simp only [Queue.read, Queue.finish, hended]
    refine ⟨h.runs, h.goes, h.owed, h.ids, h.first, h.opened, h.waits, h.pumped, fun _ => ?_, h.taken, h.calm⟩
    dsimp only
    rw [hqueue]
    exact h.read (by simp [hended])
  | opening call bytes _ hawaiting hopen hfirst hgone hs =>
    subst hs
    refine h.request hawaiting ?_
    rw [(h.first hfirst).1, hopen]
    rfl
  | asking call bytes _ hawaiting hopen hopened hgone hidle hs =>
    subst hs
    have hdropped : Agrees session { s with queue := s.queue.takeIdleNotice.2 } := by
      refine ⟨h.runs, h.goes, h.owed, h.ids, h.first, h.opened, h.waits, h.pumped, fun hgood => ?_, h.taken,
        h.calm⟩
      rw [← h.read hgood, dues_append, dues_append]
      simp only [dues, Queue.takeIdleNotice, List.filter_filter, Bool.and_self]
    refine hdropped.request hawaiting ?_
    rw [hopen]
    exact h.opened hopened
  | notified i sent _ hi hopened hs =>
    subst hs
    refine h.notified numbers hi (fun hnil => ?_) sent
    obtain ⟨hsent, hawaiting⟩ := h.first hnil
    rcases hopened with hopened | hwaits
    · have := h.opened hopened
      rw [hsent] at this
      simp [openAfter] at this
    · exact hwaits hawaiting
  | took q items id isAsk hitems hgood hawaiting hgone hs => exact hs ▸ h.took hitems hgood hawaiting hgone
  | gone why queue _ hqueue hwhy _ _ _ hs =>
    subst hs
    refine ⟨h.runs, h.goes, h.owed, h.ids, h.first, h.opened, h.waits, h.pumped, fun hgood => ?_, h.taken,
      fun why' hw => ?_⟩
    · rcases hqueue with rfl | rfl
      · exact h.read hgood
      · rw [← h.read hgood, dues_append, dues_append]
        simp only [dues, Queue.takeIdleNotice, List.filter_filter, Bool.and_self]
    · obtain rfl := Option.some.inj hw
      exact hwhy

theorem Talks.agrees {s : Pair ι π ω α} (h : Talks numbers bounds s) : Agrees session s := by
  refine Machine.Steps.inv (fun s e s' hs _ hstep => (pairStep_stepped numbers bounds hstep).agrees hs) h ?_
  refine ⟨Relation.ReflTransGen.refl, fun i hi => absurd hi (by simp [Pair.start]), rfl,
    fun d hd => absurd hd (by simp [Pair.start]), fun _ => ⟨rfl, rfl⟩, fun hopened => absurd hopened (by simp [Pair.start]),
    fun id isAsk hwaits => absurd hwaits (by simp [Pair.start]), Nat.zero_le _, fun _ => rfl, rfl,
    fun why hgone => absurd hgone (by simp [Pair.start])⟩

/-- A response whose result can be null. -/
def Frame.nullable : Frame ι α → Bool
  | .response _ .descriptor => true
  | .response _ (.refreshed _) => true
  | _ => false

omit [DecidableEq ι] in
/-- Any other frame has a shape that the reader takes. -/
theorem Frame.output_shaped [DecidableEq ι] {f : Frame ι α} (h : f.nullable = false) (null : Bool) :
    (f.output session null).jsonrpc = "2.0" ∧ (f.output session null).shaped = true := by
  cases f with
  | response id r => cases r <;> simp [nullable] at h <;> exact ⟨rfl, rfl⟩
  | _ => exact ⟨rfl, rfl⟩

/-- What the reader stops for: there is no room for a frame, or a result was null. -/
def Pair.StopsFor (bounds : Bounds) (s : Pair ι π ω α) (why : String) : Prop :=
  (∃ frames bytes, why = Queue.boundError bounds.frames bounds.bytes frames bytes) ∨
    why = SHAPE_ERROR ∧ ∃ f ∈ s.child.out.take s.pumped, f.nullable = true

/-- Nothing else stops the reader, and nothing else is given up as bad. -/
structure Stopped (bounds : Bounds) (s : Pair ι π ω α) : Prop where
  queue : ∀ why, s.queue.ended = some (.bad why) → s.StopsFor bounds why
  gone : ∀ why, s.gone = some (.bad why) → s.StopsFor bounds why

omit [DecidableEq ι] in
/-- More of the child's output changes nothing of it. -/
theorem Pair.StopsFor.mono {s s' : Pair ι π ω α} {why : String} (h : s.StopsFor bounds why)
    (hout : s.child.out.take s.pumped ⊆ s'.child.out.take s'.pumped) : s'.StopsFor bounds why := by
  rcases h with hroom | ⟨hshape, f, hf, hnull⟩
  · exact .inl hroom
  · exact .inr ⟨hshape, f, hout hf, hnull⟩

omit [DecidableEq ι] in
/-- The end of a queue that is none other than before, or none at all. -/
theorem Stopped.of_queue {s s' : Pair ι π ω α} (h : Stopped bounds s)
    (hqueue : s'.queue.ended = s.queue.ended) (hgone : ∀ why, s'.gone = some (.bad why) →
      s.gone = some (.bad why) ∨ s.queue.ended = some (.bad why))
    (hout : s.child.out.take s.pumped ⊆ s'.child.out.take s'.pumped) : Stopped bounds s' where
  queue why hwhy := (h.queue why (hqueue ▸ hwhy)).mono hout
  gone why hwhy := by
    rcases hgone why hwhy with hwhy | hwhy
    · exact (h.gone why hwhy).mono hout
    · exact (h.queue why hwhy).mono hout

omit [DecidableEq ι] in
/-- No response makes the front end give a child up as bad. -/
theorem Pair.onFrame_stopped [DecidableEq ι] (s : Pair ι π ω α) (id : ι) (isAsk : Bool)
    (m : Output ι (Payload ι α)) : (s.onFrame id isAsk m).queue = s.queue ∧
      (s.onFrame id isAsk m).child = s.child ∧ (s.onFrame id isAsk m).pumped = s.pumped ∧
      ∀ why, (s.onFrame id isAsk m).gone = some (.bad why) → s.gone = some (.bad why) := by
  have hkept : s.gone = s.gone := rfl
  unfold onFrame
  split
  · exact ⟨rfl, rfl, rfl, fun _ h => h⟩
  · split
    · exact ⟨rfl, rfl, rfl, fun _ h => h⟩
    · split
      · unfold respond
        split
        · split
          · exact ⟨rfl, rfl, rfl, fun _ h => h⟩
          · exact ⟨rfl, rfl, rfl, fun _ h => by simp at h⟩
        · split
          · exact ⟨rfl, rfl, rfl, fun _ h => by simp at h⟩
          · split
            · exact ⟨rfl, rfl, rfl, fun _ h => by simp at h⟩
            · exact ⟨rfl, rfl, rfl, fun _ h => h⟩
          · split
            · exact ⟨rfl, rfl, rfl, fun _ h => by simp at h⟩
            · exact ⟨rfl, rfl, rfl, fun _ h => h⟩
      · exact ⟨rfl, rfl, rfl, fun _ h => by simp at h⟩

/-- **Every step keeps it.** -/
theorem PairStepped.stopped {e : PairEvent π ω α} {s s' : Pair ι π ω α}
    (hstep : PairStepped numbers bounds e s s') (hagrees : Agrees session s) (h : Stopped bounds s) :
    Stopped bounds s' := by
  cases hstep with
  | child c child _ hstep hs =>
    subst hs
    refine h.of_queue rfl (fun _ hw => .inl hw) ?_
    dsimp only
    rw [hagrees.take_out hstep]
    exact List.Subset.refl _
  | pumped null bytes f hended hf hs =>
    subst hs
    have hout : s.child.out.take s.pumped ⊆ s.child.out.take (s.pumped + 1) :=
      (List.take_prefix_take_left (Nat.le_succ _)).subset
    refine ⟨fun why hwhy => ?_, fun why hwhy => (h.gone why hwhy).mono hout⟩
    rcases Queue.read_stopped bounds hended hwhy with ⟨hshape, hnot⟩ | hroom
    · refine .inr ⟨hshape, f, ?_, ?_⟩
      · dsimp only
        rw [List.take_add_one, hf]
        exact List.mem_append_right _ List.mem_cons_self
      · by_contra hnull
        exact hnot (Frame.output_shaped (by simpa using hnull) null)
    · exact .inl hroom
  | closed why hended _ _ hs =>
    subst hs
    refine ⟨fun why' hwhy => ?_, fun why' hwhy => h.gone why' hwhy⟩
    simp [Queue.read, Queue.finish, hended] at hwhy
  | opening call bytes _ _ _ _ _ hs => exact hs ▸ h.of_queue rfl (fun _ hw => .inl hw) (List.Subset.refl _)
  | asking call bytes _ _ _ _ _ _ hs => exact hs ▸ h.of_queue rfl (fun _ hw => .inl hw) (List.Subset.refl _)
  | notified i sent _ _ _ hs => exact hs ▸ h.of_queue rfl (fun _ hw => .inl hw) (List.Subset.refl _)
  | took q items id isAsk _ _ _ _ hs =>
    obtain ⟨hqueue, hchild, hpumped, hgone⟩ := Pair.onFrame_stopped { s with
      queue := { s.queue with items := items, bytes := s.queue.bytes - q.bytes }
      taken := s.taken ++ [q] } id isAsk q.msg
    rw [← hs] at hqueue hchild hpumped hgone
    refine h.of_queue (by rw [hqueue]) (fun why hw => .inl (hgone why hw)) ?_
    rw [hchild, hpumped]
    exact List.Subset.refl _
  | gone why queue _ hqueue _ hbad _ _ hs =>
    subst hs
    have hsame : queue.ended = s.queue.ended := by rcases hqueue with rfl | rfl <;> rfl
    exact h.of_queue hsame (fun text hw => .inr (hbad text (Option.some.inj hw))) (List.Subset.refl _)

theorem Talks.stopped {s : Pair ι π ω α} (h : Talks numbers bounds s) : Stopped bounds s := by
  have hrun : Agrees session s ∧ Stopped bounds s := by
    refine @Machine.Steps.inv _ _ _ _ (fun s : Pair ι π ω α => Agrees session s ∧ Stopped bounds s)
      (fun s e s' hs _ hstep => ?_) _ _ h ⟨?_, ?_⟩
    · have hstepped := pairStep_stepped numbers bounds hstep
      exact ⟨hstepped.agrees hs.1, hstepped.stopped hs.1 hs.2⟩
    · exact @Talks.agrees _ _ _ _ _ _ numbers bounds _ Relation.ReflTransGen.refl
    · exact ⟨fun why hwhy => absurd hwhy (by simp [Pair.start, Queue.empty]),
        fun why hwhy => absurd hwhy (by simp [Pair.start])⟩
  exact hrun.2

/-- **Each request's response is its own**: those taken are, one for one and in the order of the requests,
of the request's id and of the kind it is owed; only the one that a call waits for is not among them. -/
theorem own_response {s : Pair ι π ω α} (h : Talks numbers bounds s) :
    dues s.taken = s.answered.map some :=
  h.agrees.taken

theorem own_response_sample :
    ∃ s, samplePair 18 = some s ∧ s.taken.length = 3 ∧ s.answered = [(1, .result), (2, .ask)] ∧
      dues s.taken = s.answered.map some :=
  ⟨_, rfl, rfl, rfl, own_response (samplePair_talks 18 rfl)⟩

end Agreement

end AlSem.Host
