/-
# The engine pool

`Pool` of `mcp/pool.rs`: one worker thread for each engine (a workspace and a universe), which owns the engine's
child and takes calls from a channel.  A call that needs a new child while the children bound is reached ends
the least recently used idle child, or is refused; one-shot children take places of the same bound; a composite
call queues its parts one after the other.

An event is one critical section under the lock of the workers, or one thing a worker's thread does, so that a
run is any interleaving.  Whether a call leaves a child running is any choice of the run's.

`shutdown` comes last in the source: it ends the workers one after the other, and no caller is left to hand the
pool a call.  So in the model a pool that is closing takes no more calls, no parts and no one-shot children, although
`run_composite` and `admit_oneshot` themselves do not look whether it is.
-/
import AlSem.Lib.Machine
import Mathlib.Logic.Function.Basic

namespace AlSem.Mcp

/-! ## 1. Calls and workers -/

/-- How many calls an engine has queued at most. -/
def WORKER_QUEUE_DEPTH : ℕ := 16

/-- A queued call: the address of its cancel flag, and the composite it is a part of. -/
structure Call (ι : Type) where
  id : ι
  cancel : ℕ
  part : Option ℕ

inductive Job (ι : Type) where
  | call (c : Call ι)
  | retire
  | notify

/-- How a call ends: answered, or stopped once it ran, or dropped before it did. -/
inductive Ending where
  | answered
  | stopped
  | cancelled
  | dropped
  deriving DecidableEq

/-- Where a worker's thread is. -/
inductive Phase (ι : Type) where
  | waiting
  | looking (c : Call ι)
  | running (c : Call ι)
  | published (c : Call ι)
  | counted (c : Call ι) (ran : Bool)
  | retiring
  | exited

/-- A worker.  `hello` is what it published of its child, `child` whether it has one; `accepted` and `ended` are
the calls it was given and those it is done with. -/
structure Worker (ι : Type) where
  queue : List (Job ι)
  pending : ℕ
  hello : Bool
  child : Bool
  lastUsed : ℕ
  phase : Phase ι
  accepted : List (Call ι)
  ended : List (Call ι × Ending)

namespace Worker

variable {ι : Type}

/-- A worker before its first call. -/
def fresh : Worker ι where
  queue := []
  pending := 0
  hello := false
  child := false
  lastUsed := 0
  phase := .waiting
  accepted := []
  ended := []

/-- It has a child, or is about to have one. -/
def running (w : Worker ι) : Bool := decide (0 < w.pending) || w.hello

/-- Its child is to end: marked gone at once. -/
def evict (w : Worker ι) : Worker ι := { w with hello := false, queue := w.queue ++ [.retire] }

def push (w : Worker ι) (c : Call ι) : Worker ι :=
  { w with queue := w.queue ++ [.call c], pending := w.pending + 1, accepted := w.accepted ++ [c] }

end Worker

/-! ## 2. The pool -/

/-- Why a call is not queued. -/
inductive Refused where
  | noneIdle (live oneshots : ℕ)
  | queueFull
  deriving DecidableEq

def Refused.message (maxChildren : ℕ) : Refused → String
  | .noneIdle live oneshots =>
    if oneshots = 0 then
      s!"{maxChildren} engine children are running (--max-children) and none is idle (max-children {maxChildren})"
    else
      s!"{live} engine children and {oneshots} one-shot children (an impact base build) are running " ++
        s!"(--max-children) and none is idle (max-children {maxChildren})"
  | .queueFull => s!"{WORKER_QUEUE_DEPTH} requests already queued for this engine"

/-- A composite call: the address of its flag, whether a part of it is out, and whether it has ended. -/
structure Composite (ι : Type) where
  id : ι
  cancel : ℕ
  waiting : Bool
  ended : Bool

structure Pool (κ ι : Type) where
  keys : List κ
  workers : κ → Worker ι
  inFlight : List ι
  cancels : List (ι × ℕ)
  flags : List Bool
  composites : List (Composite ι)
  oneshots : ℕ
  closing : Bool
  now : ℕ
  refused : List (ι × Refused)

section Threads

variable {κ ι : Type} [DecidableEq κ] [DecidableEq ι]

namespace Pool

def new : Pool κ ι where
  keys := []
  workers := fun _ => .fresh
  inFlight := []
  cancels := []
  flags := []
  composites := []
  oneshots := 0
  closing := false
  now := 0
  refused := []

def setWorker (s : Pool κ ι) (key : κ) (w : Worker ι) : Pool κ ι :=
  { s with workers := Function.update s.workers key w }

/-- A request that enters the pool, with its flag. -/
def register (s : Pool κ ι) (id : ι) (cancel : ℕ) : Pool κ ι :=
  { s with
    inFlight := if id ∈ s.inFlight then s.inFlight else s.inFlight ++ [id]
    cancels := (id, cancel) :: s.cancels.filter fun c => c.1 ≠ id }

/-- A request that leaves it. -/
def forget (s : Pool κ ι) (id : ι) : Pool κ ι :=
  { s with inFlight := s.inFlight.erase id, cancels := s.cancels.filter fun c => c.1 ≠ id }

def flag (s : Pool κ ι) (c : Call ι) : Bool := s.flags[c.cancel]?.getD false

/-- The flag registered for an id. -/
def registered (s : Pool κ ι) (id : ι) : Option ℕ := (s.cancels.find? fun c => c.1 = id).map Prod.snd

/-- `cancel`. -/
def cancel (s : Pool κ ι) (id : ι) : Pool κ ι :=
  match s.cancels.find? fun c => c.1 = id with
  | some c => { s with flags := s.flags.set c.2 true }
  | none => s

/-! ## 3. Admission -/

/-- The engines with a child, but for one. -/
def live (s : Pool κ ι) (key : κ) : List κ := s.keys.filter fun k => decide (k ≠ key) && (s.workers k).running

/-- All of them. -/
def allLive (s : Pool κ ι) : List κ := s.keys.filter fun k => (s.workers k).running

/-- The least recently used idle one of some engines. -/
def oldest (s : Pool κ ι) (among : List κ) (key : κ) : Bool :=
  decide (key ∈ among) && decide ((s.workers key).pending = 0) &&
    among.all fun k => decide ((s.workers k).pending = 0 → (s.workers key).lastUsed ≤ (s.workers k).lastUsed)

/-- No one of some engines is idle. -/
def noneIdle (s : Pool κ ι) (among : List κ) : Bool := among.all fun k => decide ((s.workers k).pending ≠ 0)

def evict (s : Pool κ ι) (key : κ) : Pool κ ι := s.setWorker key (s.workers key).evict

/-- A place for a call's child, once `victim` has made room where room is to be made. -/
def room (s : Pool κ ι) (maxChildren : ℕ) (key : κ) : Option κ → Option (Except Refused (Pool κ ι))
  | none =>
    if decide (key ∈ s.keys) && (s.workers key).running then some (.ok s)
    else if (s.live key).length + s.oneshots < maxChildren then some (.ok s)
    else if s.noneIdle (s.live key) then some (.error (.noneIdle (s.live key).length s.oneshots))
    else none
  | some victim =>
    if decide (key ∈ s.keys) && (s.workers key).running then none
    else if (s.live key).length + s.oneshots < maxChildren then none
    else if s.oldest (s.live key) victim then some (.ok (s.evict victim))
    else none

/-- A part of a composite is out. -/
def sentPart (s : Pool κ ι) (part : Option ℕ) (waiting : Bool) : List (Composite ι) :=
  match part with
  | none => s.composites
  | some i => s.composites.modify i fun c => { c with waiting := waiting }

/-- The worker of an engine, started for its first call, and used now. -/
def use (s : Pool κ ι) (key : κ) : Pool κ ι :=
  { s.setWorker key { s.workers key with lastUsed := s.now } with
    keys := if key ∈ s.keys then s.keys else s.keys ++ [key] }

/-- A call queued behind the others of its engine.  A part shares the flag that is registered for the id of its
composite, whichever call registered it last; it has one of its own where the id is not registered. -/
def queue (s : Pool κ ι) (key : κ) (id : ι) (part : Option ℕ) : Pool κ ι :=
  if WORKER_QUEUE_DEPTH ≤ (s.workers key).pending then { s with refused := s.refused ++ [(id, .queueFull)] }
  else
    let shared := part.bind fun i => (s.composites[i]?).bind fun c => s.registered c.id
    let cancel := shared.getD s.flags.length
    { (s.setWorker key ((s.workers key).push ⟨id, cancel, part⟩)).register id cancel with
      flags := if shared.isSome then s.flags else s.flags ++ [false]
      composites := s.sentPart part true }

/-- `enqueue`. -/
def enqueue (s : Pool κ ι) (maxChildren : ℕ) (key : κ) (id : ι) (part : Option ℕ) (victim : Option κ) :
    Option (Pool κ ι) :=
  (s.room maxChildren key victim).map fun r =>
    match r with
    | .error why => { s with refused := s.refused ++ [(id, why)] }
    | .ok s => (s.use key).queue key id part

/-- `admit_rule`: what admitting a one-shot child does now. -/
inductive Admit where
  | now
  | evict
  | wait
  deriving DecidableEq

def admitRule (live idle oneshots max : ℕ) : Admit :=
  if live + oneshots < max then .now else if 0 < idle then .evict else .wait

/-- One round of `admit_oneshot`; the rank of a test universe is 0, which goes first. -/
def admitOneshot (s : Pool κ ι) (maxChildren : ℕ) (rank : κ → ℕ) (victim : Option κ) : Option (Pool κ ι) :=
  let idle := s.allLive.filter fun k => decide ((s.workers k).pending = 0)
  match admitRule s.allLive.length idle.length s.oneshots maxChildren, victim with
  | .now, none => some { s with oneshots := s.oneshots + 1 }
  | .evict, some key =>
    if decide (key ∈ idle) && idle.all fun k => decide (rank key < rank k ∨
        (rank key = rank k ∧ (s.workers key).lastUsed ≤ (s.workers k).lastUsed)) then some (s.evict key)
    else none
  | .wait, none => some s
  | _, _ => none

/-! ## 4. What a worker does -/

inductive WorkerEvent where
  | take (alive : Bool)
  | look
  | child (runs : Bool)
  | publish
  | count
  | finish
  | retired
  | exit

/-- A call is done with. -/
def ends (s : Pool κ ι) (key : κ) (w : Worker ι) (c : Call ι) (how : Ending) : Pool κ ι :=
  { s.setWorker key { w with phase := .waiting, ended := w.ended ++ [(c, how)] } with
    composites := s.sentPart c.part false }

/-- **A worker's event.**  A cancelled part is dropped like any call; an answer that no composite waits for is
the client's, unless the call was cancelled. -/
def work (s : Pool κ ι) (key : κ) : WorkerEvent → Option (Pool κ ι)
  | .take alive =>
    let w := s.workers key
    match w.phase, w.queue with
    | .waiting, .call c :: queue => some (s.setWorker key { w with queue := queue, phase := .looking c })
    | .waiting, .retire :: queue => some (s.setWorker key { w with queue := queue, phase := .retiring })
    | .waiting, .notify :: queue => some (s.setWorker key { w with queue := queue, child := w.child && alive })
    | _, _ => none
  | .look =>
    let w := s.workers key
    match w.phase with
    | .looking c =>
      if s.closing then some (s.ends key { w with pending := w.pending - 1 } c .dropped)
      else if s.flag c then
        some (s.setWorker key { w with pending := w.pending - 1, phase := .counted c false })
      else some (s.setWorker key { w with phase := .running c })
    | _ => none
  | .child runs =>
    let w := s.workers key
    match w.phase with
    | .running _ => some (s.setWorker key { w with child := runs })
    | _ => none
  | .publish =>
    let w := s.workers key
    match w.phase with
    | .running c => some (s.setWorker key { w with hello := w.child, phase := .published c })
    | _ => none
  | .count =>
    let w := s.workers key
    match w.phase with
    | .published c => some (s.setWorker key { w with pending := w.pending - 1, phase := .counted c true })
    | _ => none
  | .finish =>
    let w := s.workers key
    match w.phase with
    | .counted c ran =>
      let how := if !ran then .cancelled else if c.part.isNone && s.flag c then .stopped else .answered
      some ((s.ends key w c how).forget c.id)
    | _ => none
  | .retired =>
    let w := s.workers key
    match w.phase with
    | .retiring => some (s.setWorker key { w with child := false, hello := false, phase := .waiting })
    | _ => none
  | .exit =>
    let w := s.workers key
    match w.phase, w.queue with
    | .waiting, [] => if s.closing then some (s.setWorker key { w with child := false, phase := .exited }) else none
    | _, _ => none

/-! ## 5. Steps -/

inductive Event (κ ι : Type) where
  | submit (key : κ) (id : ι) (victim : Option κ)
  | compose (id : ι)
  | part (key : κ) (id : ι) (composite : ℕ) (victim : Option κ)
  | composed (composite : ℕ)
  | cancel (id : ι)
  | notify (key : κ)
  | outOfScope (key : κ)
  | oneshot (victim : Option κ)
  | release
  | shutdown (cancelRunning : Bool)
  | worker (key : κ) (e : WorkerEvent)

variable (maxChildren : ℕ) (rank : κ → ℕ)

/-- **One step** of one of the threads.  A composite sends a part only when none of it is out; once the pool is
closing it takes no more calls. -/
def step (s : Pool κ ι) : Event κ ι → Option (Pool κ ι)
  | .submit key id victim =>
    if s.closing then none
    else (s.enqueue maxChildren key id none victim).map fun s => { s with now := s.now + 1 }
  | .compose id =>
    if s.closing then none
    else some { s.register id s.flags.length with
      composites := s.composites ++ [⟨id, s.flags.length, false, false⟩]
      flags := s.flags ++ [false] }
  | .part key id composite victim =>
    match s.composites[composite]? with
    | none => none
    | some c =>
      if s.closing || c.waiting || c.ended || (s.registered c.id).any (fun a => s.flags[a]?.getD false) then none
      else (s.enqueue maxChildren key id (some composite) victim).map fun s => { s with now := s.now + 1 }
  | .composed composite =>
    match s.composites[composite]? with
    | none => none
    | some c =>
      if c.waiting || c.ended then none
      else some { s.forget c.id with composites := s.composites.modify composite fun c => { c with ended := true } }
  | .cancel id => some (s.cancel id)
  | .notify key =>
    if !s.closing ∧ key ∈ s.keys then
      some (s.setWorker key { s.workers key with queue := (s.workers key).queue ++ [.notify] })
    else none
  | .outOfScope key =>
    if !s.closing ∧ rank key = 0 ∧ key ∈ s.keys ∧ (s.workers key).pending = 0 then some (s.evict key) else none
  | .oneshot victim => if s.closing then none else s.admitOneshot maxChildren rank victim
  | .release => if 0 < s.oneshots then some { s with oneshots := s.oneshots - 1 } else none
  | .shutdown cancelRunning =>
    some { s with
      closing := true
      flags := if cancelRunning then s.flags.mapIdx fun i f => f || s.cancels.any fun c => c.2 = i else s.flags }
  | .worker key e => if key ∈ s.keys then s.work key e else none

/-- An event brings in no id that is in flight, which the server sees to. -/
def fresh (s : Pool κ ι) : Event κ ι → Bool
  | .submit _ id _ => decide (id ∉ s.inFlight)
  | .compose id => decide (id ∉ s.inFlight)
  | .part _ id _ _ => decide (id ∉ s.inFlight)
  | _ => true

/-- **A run** of a pool. -/
def Pools (s : Pool κ ι) : Prop := Machine.Steps (step maxChildren rank) (fun _ _ => True) new s

/-- **A run** in which no id comes in that is in flight. -/
def FreshPools (s : Pool κ ι) : Prop := Machine.Steps (step maxChildren rank) (fun s e => s.fresh e = true) new s

theorem FreshPools.pools {maxChildren : ℕ} {rank : κ → ℕ} {s : Pool κ ι} (h : FreshPools maxChildren rank s) :
    Pools maxChildren rank s :=
  Machine.Steps.mono (fun _ _ _ => trivial) h

end Pool

end Threads

/-! ## 6. A sample run -/

/-- A composite has a part out to engine 0; once it is answered, a call of engine 1 ends the idle child. -/
def sampleEvents : List (Pool.Event ℕ ℕ) :=
  [.compose 5, .part 0 6 0 none, .worker 0 (.take true), .worker 0 .look, .worker 0 (.child true),
    .worker 0 .publish, .worker 0 .count, .worker 0 .finish, .submit 1 7 (some 0)]

/-- The pool of one child after some of them. -/
def samplePool (n : ℕ) : Option (Pool ℕ ℕ) :=
  Machine.run (Pool.step 1 fun _ => 1) Pool.fresh Pool.new (sampleEvents.take n)

theorem samplePool_fresh (n : ℕ) {s : Pool ℕ ℕ} (h : samplePool n = some s) : Pool.FreshPools 1 (fun _ => 1) s :=
  Machine.steps_of_run (fun _ _ h => h) _ _ _ h

theorem samplePool_pools (n : ℕ) {s : Pool ℕ ℕ} (h : samplePool n = some s) : Pool.Pools 1 (fun _ => 1) s :=
  (samplePool_fresh n h).pools

end AlSem.Mcp
