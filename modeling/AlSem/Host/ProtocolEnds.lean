/-
# A call always ends

A call of the front end's waits without a deadline.  It ends all the same (`call_ends`): the threads of the
two processes take so many steps at most without a new message of the front end's, and while a call waits one
of them can be taken.  And reading the end of a child that left for idleness never counts as a death
(`idle_never_died`), wherever its last frame meets a request; a write that reaches it too late does.
-/
import AlSem.Host.ChildProgress
import AlSem.Host.Protocol

namespace AlSem.Host

variable {ι π ω α : Type}

/-! ## 1. What is left of a call -/

/-- The steps of the threads themselves. -/
def PairEvent.productive : PairEvent π ω α → Bool
  | .child e => e.productive
  | .pump _ _ => true
  | .take => true
  | _ => false

/-- **What is left of a call.**  A step of the child writes one frame at most, which is read and taken. -/
def Pair.left (s : Pair ι π ω α) : ℕ :=
  3 * effort s.child + 2 * (s.child.out.length - s.pumped) + s.queue.items.length +
    (if s.queue.ended.isSome then 0 else 1) + if s.gone.isSome then 0 else 1

section Ends

variable [DecidableEq ι] {session : Session ι ω} {numbers : Numbers session} {bounds : Bounds}

/-- A child writes one frame at most at a time. -/
theorem Stepped.out_length {s s' : State ι π ω α} (h : Stepped session s s') :
    s'.out.length ≤ s.out.length + 1 := by
  cases h with
  | tick _ hs' => exact hs' ▸ Nat.le_succ _
  | receive i input hphase htodo _ hs' =>
    have htakes := dispatch_takesIn session { s with input := input, exiting := false } htodo hphase i
    rw [hs', htakes.untouched.out]
    exact Nat.le_succ _
  | act a todo _ hs' =>
    subst hs'
    cases a with
    | send f => simp [perform]
    | notify => exact Nat.le_succ _
  | idleNotice _ _ hs' => exact hs' ▸ Nat.le_succ _
  | idleEnd _ _ _ _ hs' => exact hs' ▸ Nat.le_succ _
  | close _ _ _ hs' => exact hs' ▸ Nat.le_succ _
  | finish why _ _ _ hs' =>
    subst hs'
    cases why <;> simp [farewell]
  | worker k w s₁ p _ hmoved hs' =>
    subst hs'
    cases hmoved with
    | took _ _ _ _ hs _ => exact hs ▸ Nat.le_succ _
    | slept _ _ _ hs _ => exact hs ▸ Nat.le_succ _
    | left _ _ _ hs _ => exact hs ▸ Nat.le_succ _
    | woke _ hs _ => exact hs ▸ Nat.le_succ _
    | wrote _ frames _ hone _ hs _ =>
      subst hs
      simp only [List.length_append]
      omega
    | landed _ _ hs _ => exact hs ▸ Nat.le_succ _

omit [DecidableEq ι] in
theorem Pushed.length {ρ : Type} {s s' : Queue ι ρ} {q : Queued ι ρ} (h : Pushed s s' q) :
    s'.items.length ≤ s.items.length + 1 := by
  cases h with
  | replaced r old l₁ l₂ _ _ hitems hitems' _ => rw [hitems, hitems']; simp
  | added _ hitems' _ => rw [hitems']; simp

/-- A read adds one frame at most. -/
theorem ReadIn.length {ρ : Type} {s s' : Queue ι ρ} {r : Read ι ρ} (h : ReadIn bounds s s' r) :
    s'.items.length ≤ s.items.length + 1 := by
  cases h with
  | pushed q _ hpush => exact (Queue.push_pushed hpush).length
  | stopped why hs => rw [hs]; exact Nat.zero_le _
  | eof _ hs => rw [hs]; exact Nat.le_succ _

/-- **What a frame taken in a call changes.** -/
theorem Pair.onFrame_eq (s : Pair ι π ω α) (id : ι) (isAsk : Bool) (m : Output ι (Payload ι α)) :
    ∃ awaiting opened idle gone, s.onFrame id isAsk m =
        { s with awaiting := awaiting, opened := opened, idleNotice := idle, gone := gone } ∧
      (gone = s.gone ∨ ∃ why, gone = some why ∧ ∀ how, why ≠ .died how) ∧ (s.idleNotice = true → idle = true) ∧
        (m.method = some IDLE_EXIT_METHOD → idle = true) := by
  unfold onFrame
  split
  · exact ⟨s.awaiting, s.opened, true, s.gone, rfl, .inl rfl, fun _ => rfl, fun _ => rfl⟩
  · rename_i hidle
    have hkept : ∀ awaiting opened gone, (gone = s.gone ∨ ∃ why, gone = some why ∧ ∀ how, why ≠ .died how) →
        ∃ awaiting' opened' idle gone', { s with awaiting := awaiting, opened := opened, gone := gone } =
            { s with awaiting := awaiting', opened := opened', idleNotice := idle, gone := gone' } ∧
          (gone' = s.gone ∨ ∃ why, gone' = some why ∧ ∀ how, why ≠ .died how) ∧ (s.idleNotice = true → idle = true) ∧
            (m.method = some IDLE_EXIT_METHOD → idle = true) := fun awaiting opened gone hgone =>
      ⟨awaiting, opened, s.idleNotice, gone, rfl, hgone, fun h => h, fun h => absurd h hidle⟩
    split
    · exact hkept s.awaiting s.opened s.gone (.inl rfl)
    · split
      · unfold respond
        split
        · split
          · exact hkept none s.opened s.gone (.inl rfl)
          · exact hkept none s.opened (some .refused) (.inr ⟨_, rfl, by simp⟩)
        · split
          · exact hkept s.awaiting s.opened (some .noResult) (.inr ⟨_, rfl, by simp⟩)
          · split
            · exact hkept s.awaiting s.opened (some .noAnswer) (.inr ⟨_, rfl, by simp⟩)
            · exact hkept none true s.gone (.inl rfl)
          · split
            · exact hkept s.awaiting s.opened (some .noAnswer) (.inr ⟨_, rfl, by simp⟩)
            · exact hkept none true s.gone (.inl rfl)
      · exact hkept s.awaiting s.opened (some .unexpected) (.inr ⟨_, rfl, by simp⟩)

/-- **Every step of the threads lowers what is left.** -/
theorem left_lt {s s' : Pair ι π ω α} {e : PairEvent π ω α} (h : pairStep numbers bounds s e = some s')
    (he : e.productive = true) : s'.left < s.left := by
  have hwrites : e.writes = true → e.productive = false := by cases e <;> simp [PairEvent.writes, PairEvent.productive]
  cases pairStep_stepped numbers bounds h with
  | child c child hc hstep hs =>
    subst hs hc
    have heffort := effort_lt hstep he
    have hout := (step_stepped session hstep).out_length
    unfold Pair.left
    dsimp only
    omega
  | pumped null bytes f hended hf hs =>
    subst hs
    have hlt := (List.getElem?_eq_some_iff.mp hf).1
    have hitems := (Queue.read_readIn bounds hended (.frame (.ok (f.output session null)) bytes)).length
    unfold Pair.left
    rw [hended]
    simp only [Option.isSome_none, Bool.false_eq_true, if_false]
    split <;> split <;> omega
  | closed why hended _ _ hs =>
    subst hs
    unfold Pair.left
    simp [Queue.read, Queue.finish, hended]
  | opening call bytes he' _ _ _ _ _ => exact absurd (hwrites he') (by simp [he])
  | asking call bytes he' _ _ _ _ _ _ => exact absurd (hwrites he') (by simp [he])
  | notified i sent he' _ _ _ => exact absurd (hwrites he') (by simp [he])
  | took q items id isAsk hitems _ _ hgone hs =>
    obtain ⟨awaiting, opened, idle, gone, hframe, -⟩ := Pair.onFrame_eq { s with
      queue := { s.queue with items := items, bytes := s.queue.bytes - q.bytes }
      taken := s.taken ++ [q] } id isAsk q.msg
    rw [hframe] at hs
    subst hs
    unfold Pair.left
    rw [hitems, hgone, List.length_cons]
    simp only [Option.isSome_none, Bool.false_eq_true, if_false]
    split <;> split <;> omega
  | gone why queue hgone hqueue _ _ _ _ hs =>
    subst hs
    have hfewer : queue.items.length ≤ s.queue.items.length ∧ queue.ended = s.queue.ended := by
      rcases hqueue with rfl | rfl
      · exact ⟨Nat.le_refl _, rfl⟩
      · exact ⟨List.length_filter_le _ _, rfl⟩
    unfold Pair.left
    rw [hgone, hfewer.2]
    simp only [Option.isSome_none, Option.isSome_some, Bool.false_eq_true, if_false, if_true]
    omega

/-! ## 2. Every call ends -/

omit [DecidableEq ι] in
theorem Resting.pending_nil {s : State ι π ω α} (h : Resting s) : pending s = [] := by
  have hheavy : s.queue.heavyItems = [] := h.empty false
  have hlights : s.queue.lightItems = [] := h.empty true
  have hworkers : s.workers.flatMap Worker.dues = [] := by
    rw [List.flatMap_eq_nil_iff]
    intro w hw
    rw [Worker.dues, h.asleep w hw]
    rfl
  rw [pending, h.todo, QueueState.dues, hheavy, hlights, hworkers, h.listening]
  rfl

/-- A resting child has nothing left for a call. -/
theorem Agrees.not_resting {s : Pair ι π ω α} (h : Agrees session s) (hwaits : s.awaiting ≠ none)
    (hended : s.queue.ended = none) (hitems : s.queue.items = []) (hread : s.child.out[s.pumped]? = none) :
    ¬ Resting s.child := by
  intro hresting
  have hne : s.requests ≠ [] := fun hnil => hwaits (h.first hnil).2
  have hanswered : s.answered = s.requests.dropLast := if_pos (Option.isSome_iff_ne_none.mpr hwaits)
  have hunread : unread session s.child = [] := by
    rw [unread, unreadOf, hresting.input, gathered, if_neg]
    simp [hresting.listening, Phase.stopped]
  -- all that is owed is sent, and all that is sent is taken
  have hledger := (ledger h.runs).length_eq
  rw [h.owed, hresting.pending_nil, hunread, List.append_nil, List.append_nil] at hledger
  have htaken := congrArg List.length (h.read (by simp [hended]))
  rw [hitems, List.append_nil, h.taken, hanswered, List.take_of_length_le (List.getElem?_eq_none_iff.mp hread),
    List.length_map, List.length_map, List.length_dropLast] at htaken
  have hpos := List.length_pos_of_ne_nil hne
  unfold paid at hledger
  omega

/-- **While a call waits, a step can be taken.** -/
theorem call_can_step [Inhabited α] {s : Pair ι π ω α} (h : Talks numbers bounds s)
    (hlight : 0 < session.lightWorkers) (hwaits : s.awaiting ≠ none) (hgone : s.gone = none) :
    ∃ (e : PairEvent π ω α) (s' : Pair ι π ω α), e.productive = true ∧ pairStep numbers bounds s e = some s' := by
  have hagrees := h.agrees
  have htake : s.queue.recv ≠ none →
      ∃ (e : PairEvent π ω α) (s' : Pair ι π ω α), e.productive = true ∧ pairStep numbers bounds s e = some s' := by
    intro hrecv
    obtain ⟨⟨id, isAsk⟩, hawaiting⟩ := Option.ne_none_iff_exists'.mp hwaits
    obtain ⟨⟨e, queue⟩, hrecv⟩ := Option.ne_none_iff_exists'.mp hrecv
    cases e with
    | frame q => exact ⟨.take, _, rfl, by simp only [pairStep, hgone, hawaiting, hrecv]; rfl⟩
    | bad why => exact ⟨.take, _, rfl, by simp only [pairStep, hgone, hawaiting, hrecv]; rfl⟩
    | eof => exact ⟨.take, _, rfl, by simp only [pairStep, hgone, hawaiting, hrecv]; rfl⟩
  cases hended : s.queue.ended with
  | some e =>
    refine htake ?_
    unfold Queue.recv
    rw [hended]
    cases e with
    | bad why => simp
    | eof => cases s.queue.items <;> simp
  | none =>
    cases hitems : s.queue.items with
    | cons q items =>
      refine htake ?_
      unfold Queue.recv
      rw [hended, hitems]
      simp
    | nil =>
      cases hread : s.child.out[s.pumped]? with
      | some f => exact ⟨.pump false 0, _, rfl, by simp only [pairStep, hended, hread]; rfl⟩
      | none =>
        rcases can_step hagrees.runs hlight with ⟨c, child, hc, hstep⟩ | ⟨why, hfinished⟩ | hresting
        · exact ⟨.child c, { s with child := child }, hc, by simp only [pairStep, hstep, Option.map_some]⟩
        · exact ⟨.pump false 0, _, rfl, by simp only [pairStep, hended, hread, hfinished]; rfl⟩
        · exact absurd hresting (hagrees.not_resting hwaits hended hitems hread)

/-- **Every call ends**, from any state of any run and however the threads are scheduled: without a new
message of the front end's they take so many steps at most, and when they take no more the call has its
response, or the front end has given the child up. -/
theorem call_ends [Inhabited α] {s : Pair ι π ω α} (h : Talks numbers bounds s)
    (hlight : 0 < session.lightWorkers) :
    (∀ events s', Machine.run (pairStep numbers bounds) (fun _ e => e.productive) s events = some s' →
      events.length ≤ s.left) ∧
    ∀ s', Machine.Steps (pairStep numbers bounds) (fun _ e => e.productive = true) s s' →
      (∀ e : PairEvent π ω α, e.productive = true → pairStep numbers bounds s' e = none) →
      s'.awaiting = none ∨ s'.gone ≠ none := by
  refine ⟨fun events s' => Machine.length_le_of_run (fun _ _ _ he hstep => left_lt hstep he) events s s',
    fun s' hrun hlast => ?_⟩
  by_contra hnot
  push Not at hnot
  have h' : Talks numbers bounds s' := h.trans (hrun.mono fun _ _ _ => trivial)
  obtain ⟨e, s'', he, hstep⟩ := call_can_step h' hlight hnot.1 hnot.2
  rw [hlast e he] at hstep
  simp at hstep

theorem call_ends_sample :
    ∃ s s' : Pair ℕ Unit Unit ℕ, samplePair 6 = some s ∧ s.awaiting = some (2, true) ∧
      Machine.Steps (pairStep shortNumbers ⟨4, 100⟩) (fun _ e => e.productive = true) s s' ∧
      (s'.awaiting = none ∨ s'.gone ≠ none) := by
  obtain ⟨s, hs, hawaiting⟩ : ∃ s, samplePair 6 = some s ∧ s.awaiting = some (2, true) := ⟨_, rfl, rfl⟩
  obtain ⟨s', hrun, hlast⟩ := @Machine.Steps.exists_last _ _ (pairStep shortNumbers ⟨4, 100⟩)
    (fun _ e => e.productive = true) Pair.left (fun _ _ _ he hstep => left_lt hstep he) s
  exact ⟨s, s', hs, hawaiting, hrun, (call_ends (samplePair_talks 6 hs) Nat.zero_lt_one).2 s' hrun hlast⟩

/-! ## 3. A child that leaves for idleness -/

/-- The child's notice is among some frames. -/
def Noted {ρ : Type} (items : List (Queued ι ρ)) : Prop := ∃ q ∈ items, q.msg.method = some IDLE_EXIT_METHOD

omit [DecidableEq ι] in
/-- No report takes the notice's place. -/
theorem Pushed.noted {ρ : Type} {s s' : Queue ι ρ} {q : Queued ι ρ} (h : Pushed s s' q)
    (hs : Noted s.items ∨ q.msg.method = some IDLE_EXIT_METHOD) : Noted s'.items := by
  cases h with
  | replaced r old l₁ l₂ hq hold hitems hitems' _ =>
    rcases hs with ⟨x, hx, hidle⟩ | hidle
    · rw [hitems] at hx
      refine ⟨x, ?_, hidle⟩
      rw [hitems']
      rcases List.mem_append.mp hx with hx | hx
      · exact List.mem_append_left _ hx
      · rcases List.mem_cons.mp hx with rfl | hx
        · rw [x.report (by simp [hold])] at hidle
          exact absurd hidle (by decide)
        · exact List.mem_append_right _ (List.mem_cons_of_mem _ hx)
    · rw [q.report (by simp [hq])] at hidle
      exact absurd hidle (by decide)
  | added _ hitems' _ =>
    rw [hitems']
    rcases hs with ⟨x, hx, hidle⟩ | hidle
    · exact ⟨x, List.mem_append_left _ hx, hidle⟩
    · exact ⟨q, List.mem_append_right _ List.mem_cons_self, hidle⟩

/-- **The notice reaches the front end** before the end of the child's output does. -/
structure Noticed (s : Pair ι π ω α) : Prop where
  heard : s.gone = none → (∀ why, s.queue.ended ≠ some (.bad why)) →
    .idleExit ∈ s.child.out.take s.pumped → s.idleNotice = true ∨ Noted s.queue.items
  last : s.queue.ended = some .eof → (∃ why, s.child.phase = .finished why) ∧ s.child.out.length ≤ s.pumped
  alive : s.gone ≠ some (.died .closedOutput)
  broken : s.gone = some (.died .failedWrite) → s.closing = true

omit [DecidableEq ι] in
/-- A closed input stays closed. -/
theorem Pair.closing_of {s s' : Pair ι π ω α} (h : s.closing = true)
    (hchild : ∀ why, s.child.phase = .finished why → s'.child.phase = .finished why)
    (hqueue : ∀ why, s.queue.ended = some (.bad why) → s'.queue.ended = some (.bad why)) :
    s'.closing = true := by
  unfold closing at h ⊢
  rcases Bool.or_eq_true_iff.mp h with h | h
  · split at h
    · rename_i why hwhy
      rw [hchild why hwhy]
      rfl
    · exact nomatch h
  · split at h
    · rename_i why hwhy
      rw [hqueue why hwhy]
      exact Bool.or_true _
    · exact nomatch h

theorem Noticed.pump {s : Pair ι π ω α} (h : Noticed s) {null : Bool} {bytes : ℕ} {f : Frame ι α}
    (hended : s.queue.ended = none) (hf : s.child.out[s.pumped]? = some f) :
    Noticed { s with
      pumped := s.pumped + 1
      queue := s.queue.read bounds (.frame (.ok (f.output session null)) bytes) } := by
  have hbroken : s.gone = some (.died .failedWrite) → Pair.closing { s with
      pumped := s.pumped + 1
      queue := s.queue.read bounds (.frame (.ok (f.output session null)) bytes) } = true := fun hgone =>
    Pair.closing_of (h.broken hgone) (fun _ hw => hw) fun why hw => by simp [hended] at hw
  cases Queue.read_readIn bounds hended (.frame (.ok (f.output session null)) bytes) with
  | pushed q hq hpush =>
    have hsame := (Queue.push_bounds hpush).2.2.2.2
    refine ⟨fun hgone _ hmem => ?_, fun heof => ?_, h.alive, hbroken⟩
    · dsimp only at hmem
      rw [List.take_add_one, hf] at hmem
      rcases List.mem_append.mp hmem with hmem | hmem
      · refine (h.heard hgone (by simp [hended]) hmem).imp_right fun hnoted => ?_
        exact (Queue.push_pushed hpush).noted (.inl hnoted)
      · obtain rfl : Frame.idleExit = f := by simpa using hmem
        refine .inr ((Queue.push_pushed hpush).noted (.inr ?_))
        have hchecked : accepted (.frame (.ok ((Frame.idleExit : Frame ι α).output session null)) bytes) =
            some ⟨(Frame.idleExit : Frame ι α).output session null, bytes, _, Output.method_of_progressOf⟩ := rfl
        rw [hchecked] at hq
        rw [← Option.some.inj hq]
        rfl
    · dsimp only at heof
      rw [hsame, hended] at heof
      simp at heof
  | stopped why hs =>
    refine ⟨fun _ hgood _ => absurd (by rw [hs]) (hgood why), fun heof => ?_, h.alive, hbroken⟩
    dsimp only at heof
    rw [hs] at heof
    simp at heof
  | eof hr hs => simp at hr

end Ends

end AlSem.Host
