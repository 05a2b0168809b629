/-
# The artifact store: snapshots and the registry

A revision's artifacts live in immutable snapshots; the registry keeps for each key its
generation, its state and its pins.  Every operation below is one critical section of the
registry lock, as the store runs it: `evict`, `seed`, `hold`, `tombstone`, and the sections of a
request (`pin`, `claim`, `fail`, `publish`, the release of claims and of pins).  A map is the
function it computes; a registry key without an entry has the default one.
-/
import Mathlib.Logic.Function.Iterate
import Mathlib.Data.List.Basic

namespace AlSem.Resident

/-! ## 1. Keys, values, snapshots -/

/-- A key of the store: every prerequisite of a key is in a lower phase. -/
class StoreKey (K : Type*) where
  phase : K → ℕ

/-- A value of the store, and what a request requires of it. -/
class StoreValue (V : Type*) (Req : outParam Type*) where
  satisfies : V → Req → Bool

/-- A published value, the generation it was filled at, and the bytes its fill left resident. -/
structure Published (V : Type*) where
  value : V
  generation : ℕ
  bytes : ℕ

/-- One immutable set of published artifacts. -/
structure Snapshot (K V : Type*) where
  entries : K → Option (Published V)

variable {K V Req : Type*}

def Snapshot.empty : Snapshot K V := ⟨fun _ => none⟩

/-- The value published for `key`. -/
def Snapshot.get (s : Snapshot K V) (key : K) : Option V :=
  (s.entries key).map Published.value

/-- Whether the snapshot holds a value for `key` satisfying `req`. -/
def Snapshot.satisfies [StoreValue V Req] (s : Snapshot K V) (key : K) (req : Req) : Bool :=
  (s.entries key).any fun p => StoreValue.satisfies p.value req

/-- The snapshot with `entries` inserted in order. -/
def Snapshot.insertAll [DecidableEq K] (s : Snapshot K V) (kept : List (K × Published V)) :
    Snapshot K V :=
  kept.foldl (fun s kp => ⟨Function.update s.entries kp.1 (some kp.2)⟩) s

/-- The snapshot without `keys`. -/
def Snapshot.removeAll [DecidableEq K] (s : Snapshot K V) (keys : List K) : Snapshot K V :=
  keys.foldl (fun s k => ⟨Function.update s.entries k none⟩) s

/-! ## 2. The registry -/

/-- A key's state in the registry. -/
inductive State where
  | absent
  | filling (worker : ℕ)
  | published
  | failed (why : String)
  deriving DecidableEq, Repr

/-- A key's registry entry; `pins` counts the requests that pinned it. -/
structure Entry where
  generation : ℕ := 0
  state : State := .absent
  pins : ℕ := 0
  deriving DecidableEq, Repr

/-- An eviction moves the generation; a key in flight stays `filling`. -/
def Entry.invalidate (e : Entry) : Entry :=
  { e with
    generation := e.generation + 1
    state :=
      match e.state with
      | .published | .failed _ => .absent
      | s => s }

/-- The claim of `worker`, released: only where the key is still filled by it. -/
def Entry.release (worker : ℕ) (e : Entry) : Entry :=
  if e.state = .filling worker then { e with state := .absent } else e

def Entry.publish (e : Entry) : Entry := { e with state := .published }

def Entry.pin (e : Entry) : Entry := { e with pins := e.pins + 1 }

/-- One pin less; the subtraction saturates. -/
def Entry.unpin (e : Entry) : Entry := { e with pins := e.pins - 1 }

/-- The key is filled by another worker. -/
def Entry.busy (worker : ℕ) (e : Entry) : Bool :=
  match e.state with
  | .filling w => decide (w ≠ worker)
  | _ => false

/-- `f` on the entry of each key of `keys`, in order. -/
def onKeys [DecidableEq K] (f : Entry → Entry) (keys : List K) (reg : K → Entry) : K → Entry :=
  keys.foldl (fun reg k => Function.update reg k (f (reg k))) reg

/-! ## 3. The store -/

/-- A discarded value's key is claimed again at most this often. -/
def MAX_DISCARDS : ℕ := 3

/-- A revision's artifact store: the current snapshot, the registry, the next worker. -/
structure Store (K V : Type*) where
  snapshot : Snapshot K V
  registry : K → Entry
  nextWorker : ℕ

def Store.new : Store K V := ⟨.empty, fun _ => {}, 1⟩

variable [DecidableEq K]

/-- The loop of `evict` over the registry: the keys that go, and the registry after it. -/
def evictKeys : List K → (K → Entry) → List K × (K → Entry)
  | [], reg => ([], reg)
  | k :: ks, reg =>
    if 0 < (reg k).pins then evictKeys ks reg
    else
      let rest := evictKeys ks (Function.update reg k (reg k).invalidate)
      (k :: rest.1, rest.2)

/-- Evict `keys`: the pinned ones are skipped; answers how many went. -/
def Store.evict (st : Store K V) (keys : List K) : ℕ × Store K V :=
  let gone := evictKeys keys st.registry
  if gone.1.isEmpty then (0, { st with registry := gone.2 })
  else
    (gone.1.length,
      { st with registry := gone.2, snapshot := st.snapshot.removeAll gone.1 })

/-- Publish `value` for `key` outside a fill; `none` where the source panics. -/
def Store.seed (st : Store K V) (key : K) (value : V) (bytes : ℕ) : Option (Store K V) :=
  let e := st.registry key
  if e.state = .absent then
    some { st with
      registry := Function.update st.registry key { e with state := .published }
      snapshot := st.snapshot.insertAll [(key, ⟨value, e.generation, bytes⟩)] }
  else none

/-- Pin `keys`, for a guard's or a request's lifetime. -/
def Store.hold (st : Store K V) (keys : List K) : Store K V :=
  { st with registry := onKeys Entry.pin keys st.registry }

/-- Drop a guard's or a request's pins. -/
def Store.dropPins (st : Store K V) (keys : List K) : Store K V :=
  { st with registry := onKeys Entry.unpin keys st.registry }

/-- The keys `evict_unheld` goes on to evict: those in the snapshot whose value no older snapshot
holds (`held` answers the owner count). -/
def Store.unheld (st : Store K V) (keys : List K) (held : K → Bool) : List K :=
  keys.filter fun k => (st.snapshot.entries k).isSome && !held k

/-- Invalidate `keys` whatever their pins. -/
def Store.tombstone (st : Store K V) (keys : List K) : Store K V :=
  { st with
    registry := onKeys Entry.invalidate keys st.registry
    snapshot := st.snapshot.removeAll keys }

/-! ## 4. A request's sections -/

/-- What a claim section took and joined, and the registry after it. -/
structure Claimed (K : Type*) where
  claims : List (K × ℕ)
  joined : List K
  registry : K → Entry

/-- Claim each missing key nobody else fills; join the others. -/
def claim (worker : ℕ) : List (K × Req) → (K → Entry) → Claimed K
  | [], reg => ⟨[], [], reg⟩
  | (k, _) :: missing, reg =>
    if (reg k).busy worker then
      let rest := claim worker missing reg
      { rest with joined := k :: rest.joined }
    else
      let rest := claim worker missing
        (Function.update reg k { reg k with state := .filling worker })
      { rest with claims := (k, (reg k).generation) :: rest.claims }

/-- `Claims::drop`: release every claim still filled by `worker`. -/
def Store.dropClaims (st : Store K V) (worker : ℕ) (claims : List (K × ℕ)) : Store K V :=
  { st with registry := onKeys (Entry.release worker) (claims.map Prod.fst) st.registry }

/-- A fill failed: the key is `failed` where `worker` still fills it. -/
def Store.fail (st : Store K V) (key : K) (worker : ℕ) (why : String) : Store K V :=
  if (st.registry key).state = .filling worker then
    { st with
      registry := Function.update st.registry key
        { st.registry key with state := .failed why } }
  else st

/-- A computed value, with the generation its claim saw. -/
structure Filled (K V : Type*) where
  key : K
  generation : ℕ
  value : V
  bytes : ℕ

/-- The accumulators of `publish`'s loop over the values. -/
structure Publishing (K V : Type*) where
  registry : K → Entry
  kept : List (K × Published V)
  discards : K → ℕ
  churned : Option K

/-- One value of `publish`: kept when its key's generation did not move since the claim,
discarded and released otherwise. -/
def publishValue (worker : ℕ) (p : Publishing K V) (v : Filled K V) : Publishing K V :=
  if (p.registry v.key).generation = v.generation then
    { p with kept := p.kept ++ [(v.key, ⟨v.value, v.generation, v.bytes⟩)] }
  else
    let n := p.discards v.key + 1
    { p with
      registry := Function.update p.registry v.key ((p.registry v.key).release worker)
      discards := Function.update p.discards v.key n
      churned := if MAX_DISCARDS ≤ n then some v.key else p.churned }

/-- Publish `values` as one transaction; answers a key that churned, and the discards. -/
def Store.publish (st : Store K V) (values : List (Filled K V)) (worker : ℕ) (discards : K → ℕ) :
    Option K × (K → ℕ) × Store K V :=
  let p := values.foldl (publishValue worker) ⟨st.registry, [], discards, none⟩
  if p.kept.isEmpty then (p.churned, p.discards, { st with registry := p.registry })
  else
    (p.churned, p.discards,
      { st with
        snapshot := st.snapshot.insertAll p.kept
        registry := onKeys Entry.publish (p.kept.map Prod.fst) p.registry })

/-- `wait_for`'s test: some joined key is filled by another worker. -/
def Store.busy (st : Store K V) (joined : List K) (worker : ℕ) : Bool :=
  joined.any fun k => (st.registry k).busy worker

end AlSem.Resident
