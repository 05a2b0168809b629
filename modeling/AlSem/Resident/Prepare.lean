/-
# `ensure_prepared`, step by step

A request is a program counter over the sections of `Store`: it pins its needs, and phase by phase
claims what the current snapshot lacks, loads a snapshot, fills its claims, publishes them and
waits for what others fill.  Every early return releases the claims, then the pins.

`Config.step` interleaves any number of requests with the store's other callers at the
granularity of the registry lock.  What the source takes from its environment (the stop flag, the
reservation, the fill) is the event's `Answers`; the stats counters are left out.
-/
import Mathlib.Data.List.Nodup
import AlSem.Resident.Store

namespace AlSem.Resident

variable {K V Req : Type*}

/-! ## 1. What a request answers, and what its environment answers it -/

/-- Why a request stops. -/
inductive Stop where
  | cancelled
  | deadline
  deriving DecidableEq, Repr

/-- The texts of `PrepareError::Engine`. -/
inductive EngineError (K : Type*) where
  | fillFailed (key : K) (why : String)
  | churn (key : K)
  | missing (key : K)
  deriving DecidableEq

/-- The text, with the key as `debug` prints it. -/
def EngineError.text (debug : K → String) : EngineError K → String
  | .fillFailed k why => "filling " ++ debug k ++ " failed: " ++ why
  | .churn k =>
    "artifact churn: " ++ debug k ++ " was evicted " ++ toString MAX_DISCARDS
      ++ " times while filled"
  | .missing k => debug k ++ " missing from the ready snapshot"

/-- Why `ensure_prepared` returned no snapshot. -/
inductive PrepareError (K : Type*) where
  | cancelled
  | deadline
  | budget (why : String)
  | engine (e : EngineError K)
  deriving DecidableEq

def Stop.error : Stop → PrepareError K
  | .cancelled => .cancelled
  | .deadline => .deadline

/-- How a call of `ensure_prepared` ends; `panicked` is its `expect` on a claimed key. -/
inductive Outcome (K V : Type*) where
  | prepared (s : Snapshot K V)
  | error (e : PrepareError K)
  | panicked

/-- What a fill reads. -/
structure FillCx (K V Req : Type*) where
  key : K
  req : Req
  existing : Option V
  snapshot : Snapshot K V

/-- How a fill ends. -/
inductive FillEnd (V : Type*) where
  | ok (v : V)
  | err (why : String)
  | panic (text : String)

/-- `catch_unwind`: a panic is a failed fill. -/
def FillEnd.caught : FillEnd V → Except String V
  | .ok v => .ok v
  | .err why => .error why
  | .panic text => .error text

/-- What the environment answers one step: the stop flag, the reservation, the fill, and the bytes
its guard's `finish` gives. -/
structure Answers (K V Req : Type*) where
  stop : Option Stop := none
  reserve : K → Except String Unit := fun _ => .ok ()
  fill : FillCx K V Req → FillEnd V
  bytes : ℕ := 0

/-! ## 2. A request -/

/-- Where a request stands. -/
inductive Pc (K V Req : Type*) where
  /-- The top of the loop of a phase. -/
  | look (phase : ℕ)
  /-- The claims are taken; the snapshot the fills read is not loaded yet. -/
  | load (phase : ℕ) (missing : List (K × Req)) (joined : List K)
  /-- Fills off `snapshot`: `values` are done, `todo` is left. -/
  | fill (phase : ℕ) (missing : List (K × Req)) (joined : List K) (snapshot : Snapshot K V)
      (values : List (Filled K V)) (todo : List (K × ℕ))
  /-- A fill failed; its key is not marked yet. -/
  | fail (key : K) (why : String)
  | wait (phase : ℕ) (joined : List K)
  /-- Every phase is done; the ready snapshot is not loaded yet. -/
  | ready
  /-- Returning: the claims are dropped next. -/
  | release (out : Outcome K V)
  /-- Returning: the pins are dropped next. -/
  | unpin (out : Outcome K V)
  | done (out : Outcome K V)

/-- A call of `ensure_prepared` in progress; its worker is its place in `Config.requests`. -/
structure Request (K V Req : Type*) where
  needs : List (K × Req)
  claims : List (K × ℕ)
  discards : K → ℕ
  pc : Pc K V Req

def Request.keys (r : Request K V Req) : List K := r.needs.map Prod.fst

/-- The last phase a request has a need in; 0 without needs. -/
def lastPhase [StoreKey K] (needs : List (K × Req)) : ℕ :=
  (needs.map fun n => StoreKey.phase n.1).foldr max 0

/-- The needs of one phase. -/
def phaseNeeds [StoreKey K] (needs : List (K × Req)) (phase : ℕ) : List (K × Req) :=
  needs.filter fun n => decide (StoreKey.phase n.1 = phase)

/-- What `s` lacks of `needs`. -/
def lacking [StoreValue V Req] (s : Snapshot K V) (needs : List (K × Req)) : List (K × Req) :=
  needs.filter fun n => !s.satisfies n.1 n.2

section Step

variable [DecidableEq K] [StoreKey K] [StoreValue V Req]

/-- The claim section (a): judge the phase's needs against the snapshot read under the lock. -/
def Request.look (r : Request K V Req) (worker : ℕ) (a : Answers K V Req) (st : Store K V)
    (phase : ℕ) : Request K V Req × Store K V :=
  if lastPhase r.needs < phase then ({ r with pc := .ready }, st)
  else if (phaseNeeds r.needs phase).isEmpty then ({ r with pc := .look (phase + 1) }, st)
  else
    match a.stop with
    | some stop => ({ r with pc := .unpin (.error stop.error) }, st)
    | none =>
      let missing := lacking st.snapshot (phaseNeeds r.needs phase)
      if missing.isEmpty then ({ r with pc := .look (phase + 1) }, st)
      else
        let c := claim worker missing st.registry
        ({ r with
            claims := c.claims
            pc := if c.claims.isEmpty then .wait phase c.joined else .load phase missing c.joined },
          { st with registry := c.registry })

/-- The fill of one claimed key (b); its own sections are `fail`'s and `publish`'s. -/
def Request.fillOne (r : Request K V Req) (a : Answers K V Req) (phase : ℕ)
    (missing : List (K × Req)) (joined : List K) (s : Snapshot K V) (values : List (Filled K V))
    (k : K) (generation : ℕ) (todo : List (K × ℕ)) : Request K V Req :=
  match a.reserve k with
  | .error why => { r with pc := .release (.error (.budget why)) }
  | .ok () =>
    match missing.find? fun n => decide (n.1 = k) with
    | none => { r with pc := .release .panicked }
    | some n =>
      match (a.fill ⟨k, n.2, s.get k, s⟩).caught with
      | .error why => { r with pc := .fail k why }
      | .ok v =>
        match a.stop with
        | some stop => { r with pc := .release (.error stop.error) }
        | none =>
          { r with pc := .fill phase missing joined s (values ++ [⟨k, generation, v, a.bytes⟩]) todo }

/-- What a step of the request fills, and with what value: nothing where the reservation is
refused or the fill fails. -/
def Request.fills (r : Request K V Req) (a : Answers K V Req) : Option (FillCx K V Req × V) :=
  match r.pc with
  | .fill _ missing _ s _ ((k, _) :: _) =>
    match a.reserve k with
    | .error _ => none
    | .ok () =>
      match missing.find? fun n => decide (n.1 = k) with
      | none => none
      | some n =>
        match (a.fill ⟨k, n.2, s.get k, s⟩).caught with
        | .error _ => none
        | .ok v => some (⟨k, n.2, s.get k, s⟩, v)
  | _ => none

/-- The publication section (c). -/
def Request.publish (r : Request K V Req) (worker : ℕ) (st : Store K V) (phase : ℕ)
    (joined : List K) (values : List (Filled K V)) : Request K V Req × Store K V :=
  let p := st.publish values worker r.discards
  ({ r with
      claims := []
      discards := p.2.1
      pc :=
        match p.1 with
        | some k => .unpin (.error (.engine (.churn k)))
        | none => .wait phase joined },
    p.2.2)

/-- One look of `wait_for` (d): a waiter sleeps and looks again. -/
def Request.wait (r : Request K V Req) (worker : ℕ) (a : Answers K V Req) (st : Store K V)
    (phase : ℕ) (joined : List K) : Request K V Req :=
  if st.busy joined worker then
    match a.stop with
    | some stop => { r with pc := .unpin (.error stop.error) }
    | none => r
  else { r with pc := .look phase }

/-- The ready snapshot (4). -/
def Request.ready (r : Request K V Req) (s : Snapshot K V) : Request K V Req :=
  match (lacking s r.needs).head? with
  | some n => { r with pc := .unpin (.error (.engine (.missing n.1))) }
  | none => { r with pc := .unpin (.prepared s) }

/-- One step of a request: `none` once it has returned. -/
def Request.step (r : Request K V Req) (worker : ℕ) (a : Answers K V Req) (st : Store K V) :
    Option (Request K V Req × Store K V) :=
  match r.pc with
  | .look phase => some (r.look worker a st phase)
  | .load phase missing joined =>
    some ({ r with pc := .fill phase missing joined st.snapshot [] r.claims }, st)
  | .fill phase _ joined _ values [] => some (r.publish worker st phase joined values)
  | .fill phase missing joined s values ((k, generation) :: todo) =>
    some (r.fillOne a phase missing joined s values k generation todo, st)
  | .fail k why =>
    some ({ r with
        claims := r.claims.filter fun c => decide (c.1 ≠ k)
        pc := .release (.error (.engine (.fillFailed k why))) }, st.fail k worker why)
  | .wait phase joined => some (r.wait worker a st phase joined, st)
  | .ready => some (r.ready st.snapshot, st)
  | .release out => some ({ r with claims := [], pc := .unpin out }, st.dropClaims worker r.claims)
  | .unpin out => some ({ r with pc := .done out }, st.dropPins r.keys)
  | .done _ => none

/-! ## 3. The store and its callers -/

/-- The store with the calls in progress: requests by worker, live `hold` guards, and the keys a
reclaim has judged free and not evicted yet. -/
structure Config (K V Req : Type*) where
  store : Store K V
  requests : ℕ → Option (Request K V Req)
  guards : List (List K)
  reclaims : List (List K)

def Config.init : Config K V Req := ⟨.new, fun _ => none, [], []⟩

/-- What happens next. -/
inductive Event (K V Req : Type*) where
  | begin (needs : List (K × Req))
  | step (worker : ℕ) (a : Answers K V Req)
  | evict (keys : List K)
  /-- The first half of `evict_unheld`. -/
  | judge (keys : List K) (held : K → Bool)
  /-- Its second half. -/
  | reclaim (keys : List K)
  | hold (keys : List K)
  | drop (keys : List K)
  | tombstone (keys : List K)
  | seed (key : K) (value : V) (bytes : ℕ)

/-- A request's worker is the store's next one; its needs are pinned. -/
def Config.begin (c : Config K V Req) (needs : List (K × Req)) : Config K V Req :=
  { c with
    store := { c.store.hold (needs.map Prod.fst) with nextWorker := c.store.nextWorker + 1 }
    requests :=
      Function.update c.requests c.store.nextWorker (some ⟨needs, [], fun _ => 0, .look 0⟩) }

/-- **The store under any interleaving**: each event is one critical section, or the work a
request does between two. -/
def Config.step (c : Config K V Req) : Event K V Req → Option (Config K V Req)
  | .begin needs => some (c.begin needs)
  | .step worker a =>
    match c.requests worker with
    | none => none
    | some r =>
      match r.step worker a c.store with
      | none => none
      | some (r', st') =>
        some { c with store := st', requests := Function.update c.requests worker (some r') }
  | .evict keys => some { c with store := (c.store.evict keys).2 }
  | .judge keys held => some { c with reclaims := c.store.unheld keys held :: c.reclaims }
  | .reclaim keys =>
    if keys ∈ c.reclaims then
      some { c with store := (c.store.evict keys).2, reclaims := c.reclaims.erase keys }
    else none
  | .hold keys => some { c with store := c.store.hold keys, guards := keys :: c.guards }
  | .drop keys =>
    if keys ∈ c.guards then
      some { c with store := c.store.dropPins keys, guards := c.guards.erase keys }
    else none
  | .tombstone keys => some { c with store := c.store.tombstone keys }
  | .seed key value bytes =>
    match c.store.seed key value bytes with
    | none => some c
    | some st => some { c with store := st }

end Step

end AlSem.Resident
