/-
# The front end's queue

`Queue` and `pump` of `engine/host/front.rs`: a reader thread reads the child's output frame by frame, checks
the shape of each and queues it; the consumer takes them.  The queue is bounded in frames and bytes; a
progress notification replaces the queued one of its request.  A frame of the wrong shape, or one past the
bounds, stops the reader for good and discards what is queued.

Whatever the interleaving of the two, the bounds hold and no request has two reports queued (`queue_bounded`);
the responses taken are those that were read, in order, without one lost or doubled, up to a failure
(`responses_in_order`); and the newest report of a request is never lost to an older one (`newest_report`).
-/
import AlSem.Lib.Machine
import Mathlib.Algebra.GroupWithZero.Nat
import Mathlib.Algebra.Order.BigOperators.Group.List
import Mathlib.Algebra.Order.Group.Nat
import Mathlib.Data.List.Infix
import Mathlib.Data.List.Nodup

namespace AlSem.Host

/-! ## 1. Frames -/

def PROGRESS_METHOD : String := "engine/progress"

def IDLE_EXIT_METHOD : String := "engine/idleExit"

/-- What the front end reads of a message: a null id or result is read as none. -/
structure Output (ι ρ : Type) where
  jsonrpc : String
  id : Option ι
  method : Option String
  paramsId : Option ι
  result : Option ρ
  error : Option (ℤ × String)

variable {ι ρ : Type}

/-- A queued frame; only a report is on a request. -/
structure Queued (ι ρ : Type) where
  msg : Output ι ρ
  bytes : ℕ
  progressOf : Option ι
  report : progressOf ≠ none → msg.method = some PROGRESS_METHOD

def Queued.isResponse (q : Queued ι ρ) : Bool := q.msg.method.isNone

/-- The request a notification reports on. -/
def Output.progressOf (m : Output ι ρ) : Option ι :=
  if m.method = some PROGRESS_METHOD then m.paramsId else none

theorem Output.method_of_progressOf {m : Output ι ρ} (h : m.progressOf ≠ none) :
    m.method = some PROGRESS_METHOD := by
  unfold Output.progressOf at h
  split at h
  · assumption
  · exact absurd rfl h

/-- A response has one of result and error, a notification neither. -/
def Output.shaped (m : Output ι ρ) : Bool :=
  (m.method.isNone && (m.result.isSome != m.error.isSome)) ||
    (m.method.isSome && m.id.isNone && m.result.isNone && m.error.isNone)

def SHAPE_ERROR : String :=
  "engine protocol error: a frame that is no JSON-RPC response or notification"

/-- `checked`: a frame, decoded or not, as one to queue. -/
def checked (decoded : Except String (Output ι ρ)) (bytes : ℕ) : Except String (Queued ι ρ) :=
  match decoded with
  | .error e => .error ("engine protocol error: " ++ e)
  | .ok m =>
    if m.jsonrpc = "2.0" ∧ m.shaped then .ok ⟨m, bytes, m.progressOf, Output.method_of_progressOf⟩
    else .error SHAPE_ERROR

/-! ## 2. The queue -/

/-- How the reader stopped. -/
inductive End where
  | eof
  | bad (why : String)
  deriving DecidableEq

structure Queue (ι ρ : Type) where
  items : List (Queued ι ρ)
  bytes : ℕ
  peakFrames : ℕ
  peakBytes : ℕ
  ended : Option End

namespace Queue

def empty : Queue ι ρ where
  items := []
  bytes := 0
  peakFrames := 0
  peakBytes := 0
  ended := none

/-- What the consumer takes. -/
inductive Event (ι ρ : Type) where
  | frame (q : Queued ι ρ)
  | bad (why : String)
  | eof

/-- `recv`: nothing while there is nothing to take. -/
def recv (s : Queue ι ρ) : Option (Event ι ρ × Queue ι ρ) :=
  match s.ended with
  | some (.bad why) => some (.bad why, s)
  | ended =>
    match s.items with
    | q :: items => some (.frame q, { s with items := items, bytes := s.bytes - q.bytes })
    | [] => if ended = some .eof then some (.eof, s) else none

/-- `finish`: the first end stands. -/
def finish (s : Queue ι ρ) (e : End) : Queue ι ρ :=
  match s.ended with
  | some _ => s
  | none =>
    match e with
    | .bad why => { s with items := [], bytes := 0, ended := some (.bad why) }
    | .eof => { s with ended := some .eof }

/-- Whether one of the queued notifications is the child's idle exit; the notifications go. -/
def takeIdleNotice (s : Queue ι ρ) : Bool × Queue ι ρ :=
  let kept := s.items.filter Queued.isResponse
  (s.items.any fun q => q.msg.method = some IDLE_EXIT_METHOD,
    { s with items := kept, bytes := (kept.map Queued.bytes).sum })

variable [DecidableEq ι]

/-- The place of the queued report on the same request. -/
def same (s : Queue ι ρ) (q : Queued ι ρ) : Option ℕ :=
  q.progressOf.bind fun r => s.items.findIdx? fun i => i.progressOf = some r

def boundError (maxFrames maxBytes frames bytes : ℕ) : String :=
  s!"engine protocol error: the engine's unread output exceeds the front end's queue bound ({maxFrames} " ++
    s!"frames, {maxBytes} bytes): {frames} frames, {bytes} bytes"

/-- How many bytes are queued with a frame more. -/
def bytesWith (s : Queue ι ρ) (q : Queued ι ρ) : ℕ :=
  match s.same q with
  | some i => s.bytes - ((s.items[i]?).elim 0 Queued.bytes) + q.bytes
  | none => s.bytes + q.bytes

/-- The items with a frame more. -/
def itemsWith (s : Queue ι ρ) (q : Queued ι ρ) : List (Queued ι ρ) :=
  match s.same q with
  | some i => s.items.set i q
  | none => s.items ++ [q]

/-- `push`. -/
def push (s : Queue ι ρ) (q : Queued ι ρ) (maxFrames maxBytes : ℕ) : Except String (Queue ι ρ) :=
  let frames := (s.itemsWith q).length
  let bytes := s.bytesWith q
  if maxFrames < frames ∨ maxBytes < bytes then .error (boundError maxFrames maxBytes frames bytes)
  else .ok { s with
    items := s.itemsWith q
    bytes := bytes
    peakFrames := max s.peakFrames frames
    peakBytes := max s.peakBytes bytes }

end Queue

/-! ## 3. Reader and consumer -/

/-- What a read of the child's output gives. -/
inductive Read (ι ρ : Type) where
  | frame (decoded : Except String (Output ι ρ)) (bytes : ℕ)
  | eof
  | oversized (error : String)
  | failed (error : String)

/-- How much is queued at most. -/
structure Bounds where
  frames : ℕ
  bytes : ℕ

section Pump

variable [DecidableEq ι] (bounds : Bounds)

/-- One step of `pump`: the queue after a read. -/
def Queue.read (s : Queue ι ρ) : Read ι ρ → Queue ι ρ
  | .frame decoded bytes =>
    match (checked decoded bytes).bind fun q => s.push q bounds.frames bounds.bytes with
    | .ok s' => s'
    | .error why => s.finish (.bad why)
  | .eof => s.finish .eof
  | .oversized e => s.finish (.bad ("engine protocol error: " ++ e))
  | .failed e => s.finish (.bad ("engine protocol error: " ++ e))

/-- The two threads: what is not read, the queue, and what was taken. -/
structure Pump (ι ρ : Type) where
  input : List (Read ι ρ)
  queue : Queue ι ρ
  taken : List (Queued ι ρ)

inductive PumpEvent where
  | read
  | recv
  | idle
  deriving DecidableEq

/-- **One step** of the reader or the consumer; the reader reads on until it has stopped. -/
def pump (s : Pump ι ρ) : PumpEvent → Option (Pump ι ρ)
  | .read =>
    match s.queue.ended, s.input with
    | none, r :: input => some { s with input := input, queue := s.queue.read bounds r }
    | _, _ => none
  | .recv =>
    match s.queue.recv with
    | some (.frame q, queue) => some { s with queue := queue, taken := s.taken ++ [q] }
    | some (_, queue) => some { s with queue := queue }
    | none => none
  | .idle => some { s with queue := s.queue.takeIdleNotice.2 }

/-- **A run** of the two on an output. -/
def Pumps (input : List (Read ι ρ)) (s : Pump ι ρ) : Prop :=
  Machine.Steps (pump bounds) (fun _ _ => True) ⟨input, .empty, []⟩ s

/-- A report on request 7. -/
def sampleReport (bytes : ℕ) : Read ℕ ℕ :=
  .frame (.ok ⟨"2.0", none, some PROGRESS_METHOD, some 7, none, none⟩) bytes

/-- Two reports on a request, and its response between them. -/
def sampleOutput : List (Read ℕ ℕ) :=
  [sampleReport 10, .frame (.ok ⟨"2.0", some 7, none, none, some 1, none⟩) 5, sampleReport 20, .eof]

/-- The second report is read before the first is taken. -/
def samplePump : Option (Pump ℕ ℕ) :=
  Machine.run (pump ⟨2, 30⟩) (fun _ e => decide (e ≠ .idle)) ⟨sampleOutput, .empty, []⟩
    [.read, .read, .read, .recv, .read, .recv, .recv]

theorem samplePump_steps {s : Pump ℕ ℕ} (h : samplePump = some s) :
    Machine.Steps (pump ⟨2, 30⟩) (fun _ e => e ≠ .idle) ⟨sampleOutput, .empty, []⟩ s :=
  Machine.steps_of_run (fun _ _ => of_decide_eq_true) _ _ _ h

theorem samplePump_pumps {s : Pump ℕ ℕ} (h : samplePump = some s) : Pumps ⟨2, 30⟩ sampleOutput s :=
  (samplePump_steps h).mono fun _ _ _ => trivial

/-! ## 4. What each does to the queue -/

/-- The frame a read queues. -/
def accepted : Read ι ρ → Option (Queued ι ρ)
  | .frame decoded bytes => (checked decoded bytes).toOption
  | _ => none

/-- **What a push does.** -/
inductive Pushed (s s' : Queue ι ρ) (q : Queued ι ρ) : Prop
  | replaced (r : ι) (old : Queued ι ρ) (l₁ l₂ : List (Queued ι ρ)) (hq : q.progressOf = some r)
      (hold : old.progressOf = some r) (hitems : s.items = l₁ ++ old :: l₂)
      (hitems' : s'.items = l₁ ++ q :: l₂) (hbytes : s'.bytes = s.bytes - old.bytes + q.bytes)
  | added (hnew : ∀ r, q.progressOf = some r → ∀ x ∈ s.items, x.progressOf ≠ some r)
      (hitems' : s'.items = s.items ++ [q]) (hbytes : s'.bytes = s.bytes + q.bytes)

theorem Queue.push_pushed {s s' : Queue ι ρ} {q : Queued ι ρ} {maxFrames maxBytes : ℕ}
    (h : s.push q maxFrames maxBytes = .ok s') : Pushed s s' q := by
  unfold push at h
  dsimp only at h
  split at h
  · simp at h
  · obtain rfl := Except.ok.inj h
    cases hsame : s.same q with
    | none =>
      refine .added (fun r hr x hx => ?_) (by simp only [itemsWith, hsame]) (by simp only [bytesWith, hsame])
      rw [same, hr, Option.bind_some, List.findIdx?_eq_none_iff] at hsame
      simpa using hsame x hx
    | some i =>
      obtain ⟨r, hr, hfind⟩ := Option.bind_eq_some_iff.mp hsame
      rw [List.findIdx?_eq_some_iff_getElem] at hfind
      obtain ⟨hi, hold, -⟩ := hfind
      obtain ⟨l₁, l₂, hl, -, hset⟩ := @List.exists_of_set _ i q _ hi
      refine .replaced r s.items[i] l₁ l₂ hr (by simpa using hold) hl ?_ ?_
      · simp only [itemsWith, hsame, hset]
      · simp only [bytesWith, hsame, List.getElem?_eq_getElem hi, Option.elim_some]

theorem Queue.push_bounds {s s' : Queue ι ρ} {q : Queued ι ρ} {maxFrames maxBytes : ℕ}
    (h : s.push q maxFrames maxBytes = .ok s') :
    s'.items.length ≤ maxFrames ∧ s'.bytes ≤ maxBytes ∧ s'.peakFrames = max s.peakFrames s'.items.length ∧
      s'.peakBytes = max s.peakBytes s'.bytes ∧ s'.ended = s.ended := by
  unfold push at h
  dsimp only at h
  split at h
  · simp at h
  · rename_i hbounds
    obtain rfl := Except.ok.inj h
    push Not at hbounds
    exact ⟨hbounds.1, hbounds.2, rfl, rfl, rfl⟩

/-- **What a read does** to a queue that has not ended. -/
inductive ReadIn (s s' : Queue ι ρ) (r : Read ι ρ) : Prop
  | pushed (q : Queued ι ρ) (hq : accepted r = some q) (hpush : s.push q bounds.frames bounds.bytes = .ok s')
  | stopped (why : String) (hs : s' = { s with items := [], bytes := 0, ended := some (.bad why) })
  | eof (hr : r = .eof) (hs : s' = { s with ended := some .eof })

theorem Queue.read_readIn {s : Queue ι ρ} (hended : s.ended = none) (r : Read ι ρ) :
    ReadIn bounds s (s.read bounds r) r := by
  have hfinish : ∀ why, s.finish (.bad why) = { s with items := [], bytes := 0, ended := some (.bad why) } :=
    fun why => by simp only [finish, hended]
  cases r with
  | eof => exact .eof rfl (by simp only [read, finish, hended])
  | oversized e => exact .stopped _ (hfinish _)
  | failed e => exact .stopped _ (hfinish _)
  | frame decoded bytes =>
    cases hchecked : checked decoded bytes with
    | error why =>
      refine .stopped why ?_
      rw [← hfinish, read, hchecked]
      rfl
    | ok q =>
      cases hpush : s.push q bounds.frames bounds.bytes with
      | error why =>
        refine .stopped why ?_
        rw [← hfinish, read, hchecked]
        simp only [Except.bind, hpush]
      | ok s' =>
        have hread : s.read bounds (.frame decoded bytes) = s' := by
          rw [read, hchecked]
          simp only [Except.bind, hpush]
        exact .pushed q (by rw [accepted, hchecked]; rfl) (hread ▸ hpush)

/-- **Why a decoded frame stops the reader**: it has no shape that the front end takes, or there is no room
for it. -/
theorem Queue.read_stopped {s : Queue ι ρ} (hended : s.ended = none) {m : Output ι ρ} {bytes : ℕ}
    {why : String} (h : (s.read bounds (.frame (.ok m) bytes)).ended = some (.bad why)) :
    why = SHAPE_ERROR ∧ ¬ (m.jsonrpc = "2.0" ∧ m.shaped = true) ∨
      ∃ frames bytes, why = boundError bounds.frames bounds.bytes frames bytes := by
  have hfinish : ∀ why', (s.finish (.bad why')).ended = some (.bad why) → why' = why := by
    intro why' hw
    simp only [finish, hended, Option.some.injEq, End.bad.injEq] at hw
    exact hw
  rw [read] at h
  by_cases hshaped : m.jsonrpc = "2.0" ∧ m.shaped = true
  · have hchecked : checked (.ok m) bytes = .ok ⟨m, bytes, m.progressOf, Output.method_of_progressOf⟩ :=
      if_pos hshaped
    rw [hchecked] at h
    cases hpush : s.push ⟨m, bytes, m.progressOf, Output.method_of_progressOf⟩ bounds.frames bounds.bytes with
    | ok s' =>
      simp only [Except.bind, hpush] at h
      rw [(Queue.push_bounds hpush).2.2.2.2, hended] at h
      exact nomatch h
    | error why' =>
      simp only [Except.bind, hpush] at h
      obtain rfl := hfinish why' h
      unfold push at hpush
      dsimp only at hpush
      split at hpush
      · exact .inr ⟨_, _, (Except.error.inj hpush).symm⟩
      · exact nomatch hpush
  · have hchecked : checked (.ok m) bytes = .error SHAPE_ERROR := if_neg hshaped
    rw [hchecked] at h
    exact .inl ⟨(hfinish _ h).symm, hshaped⟩

omit [DecidableEq ι] in
/-- What there is to take. -/
theorem Queue.recv_cases (s : Queue ι ρ) :
    s.recv = none ∨ (∃ e, s.recv = some (e, s) ∧ ∀ q, e ≠ .frame q) ∨
      ∃ q items, s.items = q :: items ∧ (∀ why, s.ended ≠ some (.bad why)) ∧
        s.recv = some (.frame q, { s with items := items, bytes := s.bytes - q.bytes }) := by
  obtain ⟨items, bytes, peakFrames, peakBytes, ended⟩ := s
  rcases ended with _ | (_ | why)
  · cases items with
    | nil => exact .inl rfl
    | cons q items => exact .inr (.inr ⟨q, items, rfl, by simp, rfl⟩)
  · cases items with
    | nil => exact .inr (.inl ⟨.eof, rfl, by simp⟩)
    | cons q items => exact .inr (.inr ⟨q, items, rfl, by simp, rfl⟩)
  · exact .inr (.inl ⟨.bad why, rfl, by simp⟩)

/-- **What a step does.** -/
inductive PumpStepped (e : PumpEvent) (s s' : Pump ι ρ) : Prop
  | read (r : Read ι ρ) (input : List (Read ι ρ)) (hended : s.queue.ended = none) (hinput : s.input = r :: input)
      (hread : ReadIn bounds s.queue s'.queue r) (hrest : s'.input = input) (htaken : s'.taken = s.taken)
  | took (q : Queued ι ρ) (items : List (Queued ι ρ)) (hitems : s.queue.items = q :: items)
      (hs : s' = { s with
        queue := { s.queue with items := items, bytes := s.queue.bytes - q.bytes }, taken := s.taken ++ [q] })
      (hended : ∀ why, s.queue.ended ≠ some (.bad why))
  | ended (hs : s' = s)
  | idle (he : e = .idle) (hs : s' = { s with queue := s.queue.takeIdleNotice.2 })

theorem pump_stepped {s s' : Pump ι ρ} {e : PumpEvent} (h : pump bounds s e = some s') :
    PumpStepped bounds e s s' := by
  cases e with
  | read =>
    unfold pump at h
    dsimp only at h
    split at h
    · rename_i r input hended hinput
      obtain rfl := Option.some.inj h
      exact .read r input hended hinput (Queue.read_readIn bounds hended r) rfl rfl
    · simp at h
  | recv =>
    rcases s.queue.recv_cases with hrecv | ⟨e, hrecv, hnot⟩ | ⟨q, items, hitems, hended, hrecv⟩
    · simp [pump, hrecv] at h
    · refine .ended ?_
      cases e with
      | frame q => exact absurd rfl (hnot q)
      | bad why => simpa [pump, hrecv] using h.symm
      | eof => simpa [pump, hrecv] using h.symm
    · refine .took q items hitems ?_ hended
      simpa [pump, hrecv] using h.symm
  | idle => exact .idle rfl (Option.some.inj h).symm

/-! ## 5. Bounds -/

/-- **A queue within its bounds**, with one report on a request at most. -/
structure Bounded (s : Queue ι ρ) : Prop where
  frames : s.items.length ≤ bounds.frames
  bytes : s.bytes = (s.items.map Queued.bytes).sum
  limit : s.bytes ≤ bounds.bytes
  peaks : s.peakFrames ≤ bounds.frames ∧ s.peakBytes ≤ bounds.bytes
  reached : s.items.length ≤ s.peakFrames ∧ s.bytes ≤ s.peakBytes
  reports : (s.items.filterMap Queued.progressOf).Nodup

variable {bounds}

omit [DecidableEq ι] in
theorem Pushed.bytes {s s' : Queue ι ρ} {q : Queued ι ρ} (h : Pushed s s' q)
    (hs : s.bytes = (s.items.map Queued.bytes).sum) : s'.bytes = (s'.items.map Queued.bytes).sum := by
  cases h with
  | replaced r old l₁ l₂ _ _ hitems hitems' hbytes =>
    rw [hbytes, hs, hitems, hitems']
    simp only [List.map_append, List.map_cons, List.sum_append, List.sum_cons]
    omega
  | added _ hitems' hbytes =>
    rw [hbytes, hs, hitems']
    simp only [List.map_append, List.map_cons, List.map_nil, List.sum_append, List.sum_cons, List.sum_nil]
    omega

omit [DecidableEq ι] in
theorem Pushed.reports {s s' : Queue ι ρ} {q : Queued ι ρ} (h : Pushed s s' q)
    (hs : (s.items.filterMap Queued.progressOf).Nodup) : (s'.items.filterMap Queued.progressOf).Nodup := by
  cases h with
  | replaced r old l₁ l₂ hq hold hitems hitems' _ =>
    rw [hitems, List.filterMap_append, List.filterMap_cons, hold] at hs
    rw [hitems', List.filterMap_append, List.filterMap_cons, hq]
    exact hs
  | added hnew hitems' _ =>
    rw [hitems', List.filterMap_append, List.filterMap_cons, List.filterMap_nil]
    cases hq : q.progressOf with
    | none => simpa using hs
    | some r =>
      refine List.nodup_append.mpr ⟨hs, List.nodup_singleton r, fun a ha b hb => ?_⟩
      rw [List.mem_singleton.mp hb]
      rintro rfl
      obtain ⟨x, hx, hxa⟩ := List.mem_filterMap.mp ha
      exact hnew a hq x hx hxa

theorem ReadIn.bounded {s s' : Queue ι ρ} {r : Read ι ρ} (h : ReadIn bounds s s' r) (hs : Bounded bounds s) :
    Bounded bounds s' := by
  cases h with
  | pushed q _ hpush =>
    have hpushed := Queue.push_pushed hpush
    obtain ⟨hframes, hbytes, hpeakFrames, hpeakBytes, -⟩ := Queue.push_bounds hpush
    refine ⟨hframes, hpushed.bytes hs.bytes, hbytes, ⟨?_, ?_⟩, ⟨?_, ?_⟩, hpushed.reports hs.reports⟩
    · rw [hpeakFrames]
      exact max_le hs.peaks.1 hframes
    · rw [hpeakBytes]
      exact max_le hs.peaks.2 hbytes
    · rw [hpeakFrames]
      exact le_max_right _ _
    · rw [hpeakBytes]
      exact le_max_right _ _
  | stopped why hs' =>
    subst hs'
    exact ⟨Nat.zero_le _, rfl, Nat.zero_le _, hs.peaks, ⟨Nat.zero_le _, Nat.zero_le _⟩, List.nodup_nil⟩
  | eof _ hs' =>
    subst hs'
    exact ⟨hs.frames, hs.bytes, hs.limit, hs.peaks, hs.reached, hs.reports⟩

omit [DecidableEq ι] in
/-- Fewer items, with their bytes. -/
theorem Bounded.sublist {s : Queue ι ρ} (hs : Bounded bounds s) {items : List (Queued ι ρ)}
    (h : items.Sublist s.items) {bytes : ℕ} (hbytes : bytes = (items.map Queued.bytes).sum) :
    Bounded bounds { s with items := items, bytes := bytes } := by
  have hle : bytes ≤ s.bytes := by
    rw [hbytes, hs.bytes]
    exact (h.map Queued.bytes).sum_le_sum fun _ _ => Nat.zero_le _
  exact ⟨h.length_le.trans hs.frames, hbytes, hle.trans hs.limit, hs.peaks,
    ⟨h.length_le.trans hs.reached.1, hle.trans hs.reached.2⟩, (h.filterMap _).nodup hs.reports⟩

theorem PumpStepped.bounded {e : PumpEvent} {s s' : Pump ι ρ} (h : PumpStepped bounds e s s')
    (hs : Bounded bounds s.queue) :
    Bounded bounds s'.queue := by
  cases h with
  | read r input _ _ hread _ _ => exact hread.bounded hs
  | took q items hitems hs' _ =>
    subst hs'
    refine hs.sublist (hitems ▸ List.sublist_cons_self q items) ?_
    rw [hs.bytes, hitems, List.map_cons, List.sum_cons, Nat.add_sub_cancel_left]
  | ended hs' => exact hs' ▸ hs
  | idle _ hs' =>
    subst hs'
    exact hs.sublist List.filter_sublist rfl

theorem Pumps.bounded {input : List (Read ι ρ)} {s : Pump ι ρ} (h : Pumps bounds input s) :
    Bounded bounds s.queue :=
  Machine.Steps.inv (fun _ _ _ hs _ hstep => (pump_stepped bounds hstep).bounded hs) h
    ⟨Nat.zero_le _, rfl, Nat.zero_le _, ⟨Nat.zero_le _, Nat.zero_le _⟩, ⟨Nat.zero_le _, Nat.zero_le _⟩,
      List.nodup_nil⟩

/-- **The queue stays within its bounds**, in every run of the reader and the consumer: in frames and in
bytes, now and at its peak; its byte counter is what its frames add up to; and no request has two reports in
it. -/
theorem queue_bounded {input : List (Read ι ρ)} {s : Pump ι ρ} (h : Pumps bounds input s) :
    s.queue.items.length ≤ bounds.frames ∧ s.queue.bytes = (s.queue.items.map Queued.bytes).sum ∧
      s.queue.bytes ≤ bounds.bytes ∧ s.queue.peakFrames ≤ bounds.frames ∧
        s.queue.peakBytes ≤ bounds.bytes ∧ (s.queue.items.filterMap Queued.progressOf).Nodup :=
  have hs := h.bounded
  ⟨hs.frames, hs.bytes, hs.limit, hs.peaks.1, hs.peaks.2, hs.reports⟩

theorem queue_bounded_sample :
    ∃ s, samplePump = some s ∧ s.queue.peakFrames = 2 ∧ s.queue.peakBytes = 25 ∧ s.queue.peakBytes ≤ 30 :=
  ⟨_, rfl, rfl, rfl, (queue_bounded (samplePump_pumps rfl)).2.2.2.2.1⟩

/-! ## 6. Responses -/

omit [DecidableEq ι] in
theorem not_response {q : Queued ι ρ} {r : ι} (h : q.progressOf = some r) : q.isResponse = false := by
  have hmethod := q.report (by rw [h]; simp)
  rw [Queued.isResponse, hmethod]
  rfl

omit [DecidableEq ι] in
/-- A push adds its frame to the responses, if it is one. -/
theorem Pushed.responses {s s' : Queue ι ρ} {q : Queued ι ρ} (h : Pushed s s' q) :
    s'.items.filter Queued.isResponse = s.items.filter Queued.isResponse ++ [q].filter Queued.isResponse := by
  cases h with
  | replaced r old l₁ l₂ hq hold hitems hitems' _ =>
    rw [hitems, hitems']
    simp only [List.filter_append, List.filter_cons, not_response hq, not_response hold, Bool.false_eq_true,
      if_false, List.filter_nil, List.append_nil]
  | added _ hitems' _ => rw [hitems', List.filter_append]

/-- **What became of the responses that were read.** -/
structure Kept (input : List (Read ι ρ)) (s : Pump ι ρ) (consumed : List (Read ι ρ)) : Prop where
  split : input = consumed ++ s.input
  taken : s.taken.filter Queued.isResponse <+: (consumed.filterMap accepted).filter Queued.isResponse
  all : (∀ why, s.queue.ended ≠ some (.bad why)) →
    (s.taken ++ s.queue.items).filter Queued.isResponse =
      (consumed.filterMap accepted).filter Queued.isResponse

theorem PumpStepped.kept {input consumed : List (Read ι ρ)} {e : PumpEvent} {s s' : Pump ι ρ}
    (h : PumpStepped bounds e s s') (hs : Kept input s consumed) : ∃ consumed', Kept input s' consumed' := by
  cases h with
  | read r rest hended hinput hread hrest htaken =>
    have hall := hs.all (by simp [hended])
    have hconsumed : (consumed ++ [r]).filterMap accepted =
        consumed.filterMap accepted ++ (accepted r).toList := by
      rw [List.filterMap_append, List.filterMap_cons, List.filterMap_nil]
      cases accepted r <;> rfl
    have hprefix : s'.taken.filter Queued.isResponse <+:
        ((consumed ++ [r]).filterMap accepted).filter Queued.isResponse := by
      rw [htaken, hconsumed, List.filter_append]
      exact hs.taken.trans (List.prefix_append _ _)
    refine ⟨consumed ++ [r], ?_, hprefix, fun hgood => ?_⟩
    · rw [hs.split, hinput, hrest, List.append_assoc]
      rfl
    · rw [hconsumed, List.filter_append (consumed.filterMap accepted), ← hall, htaken]
      cases hread with
      | pushed q hq hpush =>
        rw [hq, List.filter_append, List.filter_append, (Queue.push_pushed hpush).responses, List.append_assoc]
        rfl
      | stopped why hs' => exact absurd (by rw [hs']) (hgood why)
      | eof hr hs' =>
        rw [hr, hs']
        exact (List.append_nil _).symm
  | took q items hitems hs' hended =>
    subst hs'
    have hall := hs.all hended
    rw [hitems] at hall
    have hsame : ((s.taken ++ [q]) ++ items).filter Queued.isResponse =
        (consumed.filterMap accepted).filter Queued.isResponse := by
      rw [List.append_assoc]
      exact hall
    refine ⟨consumed, hs.split, ?_, fun _ => hsame⟩
    rw [← hsame, List.filter_append (s.taken ++ [q])]
    exact List.prefix_append _ _
  | ended hs' => exact ⟨consumed, hs' ▸ hs⟩
  | idle _ hs' =>
    subst hs'
    refine ⟨consumed, hs.split, hs.taken, fun hgood => ?_⟩
    rw [← hs.all hgood, List.filter_append, List.filter_append]
    simp only [Queue.takeIdleNotice, List.filter_filter, Bool.and_self]

/-- **Responses come through**: those taken are those read, in order, none lost and none doubled; until a
failure, what is not taken yet is queued.  Neither the coalescing of reports nor the dropping of
notifications between requests touches one. -/
theorem responses_in_order {input : List (Read ι ρ)} {s : Pump ι ρ} (h : Pumps bounds input s) :
    ∃ consumed, Kept input s consumed :=
  @Machine.Steps.inv _ _ _ _ (fun s : Pump ι ρ => ∃ consumed, Kept input s consumed)
    (fun _ _ _ hs _ hstep => hs.elim fun _ hs => (pump_stepped bounds hstep).kept hs) _ _ h
    ⟨[], rfl, List.prefix_rfl, fun _ => rfl⟩

theorem responses_in_order_sample :
    ∃ s consumed, samplePump = some s ∧ s.taken.map Queued.bytes = [20, 5] ∧ Kept sampleOutput s consumed :=
  have h : ∃ s, samplePump = some s ∧ s.taken.map Queued.bytes = [20, 5] := ⟨_, rfl, rfl⟩
  h.elim fun s hs => (responses_in_order (samplePump_pumps hs.1)).elim fun consumed hkept =>
    ⟨s, consumed, hs.1, hs.2, hkept⟩

/-! ## 7. Reports -/

/-- The reports on a request. -/
def reportsOn (r : ι) (l : List (Queued ι ρ)) : List (Queued ι ρ) :=
  l.filter fun q => decide (q.progressOf = some r)

theorem reportsOn_append (r : ι) (l l' : List (Queued ι ρ)) :
    reportsOn r (l ++ l') = reportsOn r l ++ reportsOn r l' := List.filter_append _ _

theorem reportsOn_eq_nil {r : ι} {l : List (Queued ι ρ)} (h : r ∉ l.filterMap Queued.progressOf) :
    reportsOn r l = [] := by
  rw [reportsOn, List.filter_eq_nil_iff]
  intro q hq hr
  exact h (List.mem_filterMap.mpr ⟨q, hq, by simpa using hr⟩)

/-- What comes through of a request's reports: some of them, in order, with the newest. -/
def Through (r : ι) (read through : List (Queued ι ρ)) : Prop :=
  (reportsOn r through).Sublist (reportsOn r read) ∧
    (reportsOn r through).getLast? = (reportsOn r read).getLast?

theorem Through.snoc {r : ι} {read through : List (Queued ι ρ)} (h : Through r read through)
    (q : Queued ι ρ) : Through r (read ++ [q]) (through ++ [q]) := by
  rw [Through, reportsOn_append, reportsOn_append]
  refine ⟨h.1.append_right _, ?_⟩
  rw [List.getLast?_append, List.getLast?_append, h.2]

/-- A report takes the place of the one before it. -/
theorem Through.replace {r : ι} {read taken l₁ l₂ : List (Queued ι ρ)} {old q : Queued ι ρ} {r' : ι}
    (h : Through r read (taken ++ (l₁ ++ old :: l₂))) (hold : old.progressOf = some r')
    (hq : q.progressOf = some r') (hnodup : ((l₁ ++ old :: l₂).filterMap Queued.progressOf).Nodup) :
    Through r (read ++ [q]) (taken ++ (l₁ ++ q :: l₂)) := by
  have hcons : ∀ x : Queued ι ρ, reportsOn r (taken ++ (l₁ ++ x :: l₂)) =
      reportsOn r taken ++ (reportsOn r l₁ ++ (reportsOn r [x] ++ reportsOn r l₂)) := by
    intro x
    rw [reportsOn_append, reportsOn_append, ← reportsOn_append r [x]]
    rfl
  rw [Through, hcons] at h
  rw [Through, hcons, reportsOn_append]
  by_cases hr : r' = r
  · -- its place is the only one of the request
    subst hr
    rw [List.filterMap_append, List.filterMap_cons, hold, List.nodup_append] at hnodup
    obtain ⟨-, hright, hapart⟩ := hnodup
    have hl₁ : reportsOn r' l₁ = [] :=
      reportsOn_eq_nil fun hmem => hapart _ hmem _ List.mem_cons_self rfl
    have hl₂ : reportsOn r' l₂ = [] := reportsOn_eq_nil (List.nodup_cons.mp hright).1
    have hone : ∀ x : Queued ι ρ, x.progressOf = some r' → reportsOn r' [x] = [x] := fun x hx => by
      simp [reportsOn, hx]
    rw [hl₁, hl₂, hone old hold, List.nil_append, List.append_nil] at h
    rw [hl₁, hl₂, hone q hq, List.nil_append, List.append_nil]
    exact ⟨((List.sublist_append_left _ _).trans h.1).append_right _, by
      rw [List.getLast?_append, List.getLast?_append]
      rfl⟩
  · -- the reports on another request are the same
    have hnone : ∀ x : Queued ι ρ, x.progressOf = some r' → reportsOn r [x] = [] := fun x hx => by
      simp [reportsOn, hx, hr]
    rw [hnone old hold] at h
    rw [hnone q hq, List.append_nil]
    exact h

/-- **The newest report comes through**: where no notifications are dropped between requests, what is taken
or queued of the reports on a request is some of those that were read, in order, and ends with the newest,
until a failure. -/
theorem newest_report {input : List (Read ι ρ)} {s : Pump ι ρ}
    (h : Machine.Steps (pump bounds) (fun _ e => e ≠ .idle) ⟨input, .empty, []⟩ s) :
    ∃ consumed, input = consumed ++ s.input ∧ ((∀ why, s.queue.ended ≠ some (.bad why)) →
      ∀ r, Through r (consumed.filterMap accepted) (s.taken ++ s.queue.items)) := by
  have hrun : Bounded bounds s.queue ∧ ∃ consumed, input = consumed ++ s.input ∧
      ((∀ why, s.queue.ended ≠ some (.bad why)) →
        ∀ r, Through r (consumed.filterMap accepted) (s.taken ++ s.queue.items)) := by
    refine @Machine.Steps.inv _ _ _ _ (fun s : Pump ι ρ => Bounded bounds s.queue ∧
        ∃ consumed, input = consumed ++ s.input ∧ ((∀ why, s.queue.ended ≠ some (.bad why)) →
          ∀ r, Through r (consumed.filterMap accepted) (s.taken ++ s.queue.items)))
      (fun s e s' hs hok hstep => ?_) _ _ h ⟨?_, [], rfl, fun _ r => ⟨List.Sublist.refl _, rfl⟩⟩
    · obtain ⟨hbounded, consumed, hsplit, hthrough⟩ := hs
      have hstepped := pump_stepped bounds hstep
      refine ⟨hstepped.bounded hbounded, ?_⟩
      cases hstepped with
      | read r rest hended hinput hread hrest htaken =>
        have hthrough := hthrough (by simp [hended])
        refine ⟨consumed ++ [r], by rw [hsplit, hinput, hrest, List.append_assoc]; rfl, fun hgood r' => ?_⟩
        rw [List.filterMap_append, List.filterMap_cons, List.filterMap_nil, htaken]
        cases hread with
        | pushed q hq hpush =>
          rw [hq]
          cases Queue.push_pushed hpush with
          | replaced r'' old l₁ l₂ hqr hold hitems hitems' _ =>
            have hbefore := hthrough r'
            have hnodup := hbounded.reports
            rw [hitems] at hbefore hnodup
            rw [hitems']
            exact hbefore.replace hold hqr hnodup
          | added _ hitems' _ =>
            rw [hitems', ← List.append_assoc]
            exact (hthrough r').snoc q
        | stopped why hs' => exact absurd (by rw [hs']) (hgood why)
        | eof hr hs' =>
          have hnone : accepted (.eof : Read ι ρ) = none := rfl
          rw [hr, hs', hnone, List.append_nil]
          exact hthrough r'
      | took q items hitems hs' hended =>
        subst hs'
        refine ⟨consumed, hsplit, fun _ r => ?_⟩
        have := hthrough hended r
        rw [hitems] at this
        rw [List.append_assoc]
        exact this
      | ended hs' => exact ⟨consumed, hs' ▸ hsplit, hs' ▸ hthrough⟩
      | idle he _ => exact absurd he hok
    · exact ⟨Nat.zero_le _, rfl, Nat.zero_le _, ⟨Nat.zero_le _, Nat.zero_le _⟩,
        ⟨Nat.zero_le _, Nat.zero_le _⟩, List.nodup_nil⟩
  exact hrun.2

theorem newest_report_sample :
    ∃ s consumed, samplePump = some s ∧ sampleOutput = consumed ++ s.input ∧
      Through 7 (consumed.filterMap accepted) (s.taken ++ s.queue.items) := by
  obtain ⟨s, hs, hended⟩ : ∃ s, samplePump = some s ∧ s.queue.ended = some .eof := ⟨_, rfl, rfl⟩
  obtain ⟨consumed, hsplit, hthrough⟩ := newest_report (samplePump_steps hs)
  exact ⟨s, consumed, hs, hsplit, hthrough (by simp [hended]) 7⟩

end Pump

end AlSem.Host
