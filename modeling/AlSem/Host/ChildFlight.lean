/-
# The asks in flight, and cancelling them

A cancel finds an ask by its id: in the list of those in flight, which workers enter and leave, or in a
queue.  What a step does to the asks a child has is said once (`Traffic`).  The ids of the list are those of
the asks the workers hold, in every run (`status_in_flight`); where no two asks of the input share an id, the
flags of the list are those of the asks held too (`flighted`), so that a cancel reaches the ask of its id
wherever it is, and no other (`cancel_exact`).
-/
import AlSem.Host.ChildInvariant

namespace AlSem.Host

variable {ι π ω α : Type}

/-! ## 1. The asks a child has -/

/-- An ask's id, and whether it is light. -/
def Ask.named (a : Ask ι π) : ι × Bool := (a.id, a.light)

/-- The ask a worker has. -/
def Worker.ask? (w : Worker ι π) : Option (Ask ι π) := w.phase.held.bind Work.ask?

/-- The asks the workers have. -/
def State.held (s : State ι π ω α) : List (Ask ι π) := s.workers.filterMap Worker.ask?

/-- The asks that wait. -/
def QueueState.queued (q : QueueState ι π) : List (Ask ι π) := q.asks false ++ q.asks true

/-- The asks a child has. -/
def State.live (s : State ι π ω α) : List (Ask ι π) := s.queue.queued ++ s.held

theorem QueueState.queued_perm (q : QueueState ι π) (light : Bool) :
    q.queued.Perm (q.asks light ++ q.asks (!light)) := by
  cases light
  · exact List.Perm.refl _
  · exact List.perm_append_comm

/-- Where one lane is the same, the other counts. -/
theorem QueueState.queued_lane {q q' : QueueState ι π} (light : Bool) {l : List (Ask ι π)}
    (hself : (l ++ q'.asks light).Perm (q.asks light))
    (hother : q'.asks (!light) = q.asks (!light)) : (l ++ q'.queued).Perm q.queued := by
  refine ((q'.queued_perm light).append_left l).trans (List.Perm.trans ?_ (q.queued_perm light).symm)
  rw [hother, ← List.append_assoc]
  exact hself.append_right _

theorem QueueState.queued_congr {q q' : QueueState ι π} (h : ∀ light, q'.asks light = q.asks light) :
    q'.queued = q.queued := by
  rw [queued, queued, h, h]

theorem QueueState.asks_setItems_self (q : QueueState ι π) (light : Bool) (items : List (Work ι π)) :
    (q.setItems light items).asks light = items.filterMap Work.ask? := by
  rw [asks, items_setItems_self]

theorem QueueState.asks_setItems_other (q : QueueState ι π) {light lane : Bool} (items : List (Work ι π))
    (h : lane ≠ light) : (q.setItems light items).asks lane = q.asks lane :=
  asks_congr (items_setItems_other q light items h)

/-- An ask leaves a lane. -/
theorem QueueState.queued_removed {q : QueueState ι π} {light : Bool} {l₁ l₂ : List (Work ι π)} {a : Ask ι π}
    (hitems : q.items light = l₁ ++ .ask a :: l₂) (lane : Bool) (bytes : ℕ) :
    q.queued.Perm (a :: ((q.setItems light (l₁ ++ l₂)).dequeued lane bytes).queued) := by
  generalize hq : (q.setItems light (l₁ ++ l₂)).dequeued lane bytes = q'
  have hasks : ∀ lane, q'.asks lane = (q.setItems light (l₁ ++ l₂)).asks lane := fun lane =>
    asks_congr (by rw [← hq, items_dequeued])
  refine (queued_lane (l := [a]) light ?_ ?_).symm
  · rw [hasks, asks_setItems_self, asks, hitems, List.filterMap_append, List.filterMap_append]
    show (a :: (l₁.filterMap Work.ask? ++ l₂.filterMap Work.ask?)).Perm (_ ++ a :: _)
    exact List.perm_middle.symm
  · rw [hasks, asks_setItems_other _ _ (by simp)]

/-- One worker at another place. -/
theorem held_set {workers : List (Worker ι π)} {k : ℕ} {w : Worker ι π} (h : workers[k]? = some w)
    (p : WorkerPhase ι π) :
    (w.ask?.toList ++ (workers.set k { w with phase := p }).filterMap Worker.ask?).Perm
      ((p.held.bind Work.ask?).toList ++ workers.filterMap Worker.ask?) := by
  obtain ⟨hlt, rfl⟩ := List.getElem?_eq_some_iff.mp h
  obtain ⟨l₁, l₂, hl, -, hset⟩ := @List.exists_of_set _ k { workers[k] with phase := p } _ hlt
  have hcons : ∀ v : Worker ι π, (l₁ ++ v :: l₂).filterMap Worker.ask? =
      l₁.filterMap Worker.ask? ++ (v.ask?.toList ++ l₂.filterMap Worker.ask?) := by
    intro v
    rw [List.filterMap_append, List.filterMap_cons]
    cases v.ask? <;> rfl
  have hworkers : workers.filterMap Worker.ask? =
      l₁.filterMap Worker.ask? ++ (workers[k].ask?.toList ++ l₂.filterMap Worker.ask?) := by
    rw [← hcons, ← hl]
  rw [hset, hcons, hworkers, show Worker.ask? { workers[k] with phase := p } = p.held.bind Work.ask? from rfl]
  -- the two optional asks change places
  generalize workers[k].ask?.toList = a
  generalize (p.held.bind Work.ask?).toList = b
  generalize l₁.filterMap Worker.ask? = m₁
  generalize l₂.filterMap Worker.ask? = m₂
  calc (a ++ (m₁ ++ (b ++ m₂))).Perm (m₁ ++ (b ++ m₂) ++ a) := List.perm_append_comm
    _ = m₁ ++ (b ++ m₂ ++ a) := List.append_assoc _ _ _
    _ |>.Perm (b ++ m₂ ++ a ++ m₁) := List.perm_append_comm
    _ = b ++ (m₂ ++ a ++ m₁) := by simp only [List.append_assoc]
    _ |>.Perm (b ++ (m₁ ++ (a ++ m₂))) := by
      refine List.Perm.append_left _ (List.perm_append_comm.trans ?_)
      exact List.Perm.append_left _ List.perm_append_comm

/-! ## 2. What a step does to them -/

/-- **What a step does to the asks a child has**, where it reads such asks. -/
inductive Traffic (asks : List (ι × Bool)) (s s' : State ι π ω α) : Prop
  | still (hqueued : s'.queue.queued.Perm s.queue.queued) (hheld : s'.held.Perm s.held)
      (hflight : s'.queue.inFlight = s.queue.inFlight) (hflags : s'.flags.length = s.flags.length)
  | accepted (a : Ask ι π) (hask : asks = [a.named])
      (hqueued : s'.queue.queued.Perm (a :: s.queue.queued)) (hheld : s'.held.Perm s.held)
      (hflight : s'.queue.inFlight = s.queue.inFlight) (hcancel : a.cancel = s.flags.length)
      (hflags : s'.flags.length = s.flags.length + 1)
  | removed (a : Ask ι π) (hqueued : s.queue.queued.Perm (a :: s'.queue.queued))
      (hheld : s'.held.Perm s.held) (hflight : s'.queue.inFlight = s.queue.inFlight)
      (hflags : s'.flags.length = s.flags.length)
  | took (a : Ask ι π) (hqueued : s.queue.queued.Perm (a :: s'.queue.queued))
      (hheld : s'.held.Perm (a :: s.held))
      (hflight : s'.queue.inFlight = s.queue.inFlight ++ [(a.id, a.cancel)])
      (hflags : s'.flags.length = s.flags.length)
  | landed (a : Ask ι π) (hqueued : s'.queue.queued = s.queue.queued) (hheld : s.held.Perm (a :: s'.held))
      (hflight : ∃ p : ι × ℕ → Bool, (∀ f, p f = true ↔ f.1 = a.id) ∧
        s'.queue.inFlight = s.queue.inFlight.eraseP p)
      (hflags : s'.flags.length = s.flags.length)

/-- Only the queue, the workers and the flags matter. -/
theorem Traffic.congr {asks : List (ι × Bool)} {s t s' : State ι π ω α} (h : Traffic asks t s')
    (hqueue : t.queue = s.queue) (hheld : t.held = s.held) (hflags : t.flags = s.flags) :
    Traffic asks s s' := by
  cases h with
  | still h₁ h₂ h₃ h₄ =>
    rw [hqueue] at h₁ h₃
    rw [hheld] at h₂
    rw [hflags] at h₄
    exact .still h₁ h₂ h₃ h₄
  | accepted a hask h₁ h₂ h₃ h₄ h₅ =>
    rw [hqueue] at h₁ h₃
    rw [hheld] at h₂
    rw [hflags] at h₄ h₅
    exact .accepted a hask h₁ h₂ h₃ h₄ h₅
  | removed a h₁ h₂ h₃ h₄ =>
    rw [hqueue] at h₁ h₃
    rw [hheld] at h₂
    rw [hflags] at h₄
    exact .removed a h₁ h₂ h₃ h₄
  | took a h₁ h₂ h₃ h₄ =>
    rw [hqueue] at h₁ h₃
    rw [hheld] at h₂
    rw [hflags] at h₄
    exact .took a h₁ h₂ h₃ h₄
  | landed a h₁ h₂ h₃ h₄ =>
    rw [hqueue] at h₁ h₃
    rw [hheld] at h₂
    rw [hflags] at h₄
    exact .landed a h₁ h₂ h₃ h₄

theorem Dispatched.traffic {asks : List (ι × Bool)} {s s' : State ι π ω α} (h : Dispatched asks s s')
    (hheld : s'.held = s.held) : Traffic asks s s' := by
  have hheld : s'.held.Perm s.held := List.Perm.of_eq hheld
  cases h with
  | quiet hqueue hflags =>
    exact .still (by rw [hqueue]) hheld (by rw [hqueue]) (by rw [hflags])
  | pushed a hask hroom hcancel hqueue hflags _ =>
    refine .accepted a hask ?_ hheld (by rw [hqueue, QueueState.inFlight_push]) hcancel
      (by rw [hflags, List.length_append, List.length_singleton])
    have hself : s'.queue.asks a.light = s.queue.asks a.light ++ [a] := by
      rw [hqueue, QueueState.asks, QueueState.items_push_self, List.filterMap_append]
      rfl
    have hother : s.queue.asks (!a.light) = s'.queue.asks (!a.light) := by
      refine (QueueState.asks_congr ?_).symm
      rw [hqueue, QueueState.items_push_other _ _ (by simp)]
    refine (QueueState.queued_lane (l := [a]) a.light ?_ hother).symm
    rw [hself]
    exact List.perm_append_comm
  | refresh id wait hqueue hflags _ =>
    refine .still (List.Perm.of_eq (QueueState.queued_congr fun light => ?_)) hheld
      (by rw [hqueue, QueueState.inFlight_setItems]) (by rw [hflags])
    rw [hqueue]
    cases light with
    | false =>
      rw [QueueState.asks_setItems_self, List.filterMap_append]
      exact List.append_nil _
    | true => exact QueueState.asks_setItems_other _ _ (by simp)
  | removed light l₁ l₂ a hitems hqueue hflags =>
    exact .removed a (hqueue ▸ QueueState.queued_removed hitems _ _) hheld
      (by rw [hqueue, QueueState.inFlight_dequeued, QueueState.inFlight_setItems]) (by rw [hflags])
  | flagged f _ hqueue hflags =>
    exact .still (by rw [hqueue]) hheld (by rw [hqueue]) (by rw [hflags, List.length_set])

section Steps

variable [DecidableEq ι] {session : Session ι ω}

theorem QueueState.queued_landed (q : QueueState ι π) (unit : Work ι π) : (q.landed unit).queued = q.queued :=
  queued_congr fun light => asks_congr (items_landed q unit light)

/-- A worker's event. -/
theorem Moved.traffic {s s₁ : State ι π ω α} {k : ℕ} {w : Worker ι π} {p : WorkerPhase ι π}
    (h : Moved s s₁ w p) (hw : s.workers[k]? = some w) :
    Traffic [] s { s₁ with workers := s.workers.set k { w with phase := p } } := by
  have hset := held_set hw p
  have hheld : State.held { s₁ with workers := s.workers.set k { w with phase := p } } =
      (s.workers.set k { w with phase := p }).filterMap Worker.ask? := rfl
  rw [← hheld] at hset
  have hask : w.ask? = w.phase.held.bind Work.ask? := rfl
  cases h with
  | took unit items hphase hitems hs hp =>
    subst hp
    rw [hask, hphase] at hset
    have hqueued : (unit.ask?.toList ++ s₁.queue.queued).Perm s.queue.queued := by
      have hasks : ∀ lane, s₁.queue.asks lane = (s.queue.setItems w.light items).asks lane := fun lane =>
        QueueState.asks_congr (by rw [hs, QueueState.items_take])
      refine QueueState.queued_lane w.light ?_ ?_
      · rw [hasks, QueueState.asks_setItems_self, QueueState.asks, hitems, List.filterMap_cons]
        cases unit.ask? <;> exact List.Perm.refl _
      · rw [hasks, QueueState.asks_setItems_other _ _ (by simp)]
    cases unit with
    | ask a =>
      refine .took a hqueued.symm hset ?_ (by rw [hs])
      rw [hs]
      simp only [QueueState.take, QueueState.inFlight_setItems]
    | refresh id wait received =>
      exact .still hqueued hset (by rw [hs]; exact QueueState.inFlight_setItems _ _ _) (by rw [hs])
  | slept hphase _ _ hs hp =>
    subst hp
    rw [hask, hphase] at hset
    exact .still (by rw [hs]) hset (by rw [hs]) (by rw [hs])
  | left hphase _ _ hs hp =>
    subst hp
    rw [hask, hphase] at hset
    exact .still (by rw [hs]) hset (by rw [hs]) (by rw [hs])
  | woke hphase hs hp =>
    subst hp
    rw [hask, hphase] at hset
    exact .still (by rw [hs]) hset (by rw [hs]) (by rw [hs])
  | wrote unit frames hphase _ _ hs hp =>
    have hsame : w.phase.held.bind Work.ask? = p.held.bind Work.ask? := by
      rcases hphase with hphase | hphase <;> rcases hp with hp | hp <;> rw [hphase, hp] <;> rfl
    rw [hask, hsame, List.perm_append_left_iff] at hset
    exact .still (by rw [hs]) hset (by rw [hs]) (by rw [hs])
  | landed unit hphase hs hp =>
    subst hp
    rw [hask, hphase] at hset
    have hqueued : s₁.queue.queued = s.queue.queued := by rw [hs, QueueState.queued_landed]
    cases unit with
    | ask a =>
      exact .landed a hqueued hset.symm ⟨fun f => decide (f.1 = a.id), by simp, by rw [hs]; rfl⟩ (by rw [hs])
    | refresh id wait received => exact .still (by rw [hqueued]) hset (by rw [hs]; rfl) (by rw [hs])

omit [DecidableEq ι] in
theorem held_notified (workers : List (Worker ι π)) :
    (workers.map Worker.notified).filterMap Worker.ask? = workers.filterMap Worker.ask? := by
  rw [List.filterMap_map]
  refine List.filterMap_congr fun w _ => ?_
  simp only [Function.comp_apply, Worker.notified]
  split
  · rename_i hwaiting
    rw [Worker.ask?, Worker.ask?, hwaiting]
    rfl
  · rfl

/-- The asks of the unread input. -/
def unasked (session : Session ι ω) (s : State ι π ω α) : List (ι × Bool) :=
  unreadOf session (incomingAsks session) s

theorem Stepped.traffic {s s' : State ι π ω α} (h : Stepped session s s') :
    ∃ asks, Traffic asks s s' ∧ unasked session s = asks ++ unasked session s' := by
  have hstill : s'.queue.queued = s.queue.queued → s'.held = s.held → s'.queue.inFlight = s.queue.inFlight →
      s'.flags = s.flags → unasked session s' = unasked session s →
      ∃ asks, Traffic asks s s' ∧ unasked session s = asks ++ unasked session s' :=
    fun h₁ h₂ h₃ h₄ h₅ => ⟨[], .still (.of_eq h₁) (.of_eq h₂) h₃ (by rw [h₄]), h₅.symm⟩
  have hunread : s'.phase.stopped = s.phase.stopped → s'.isOpen = s.isOpen → s'.input = s.input →
      unasked session s' = unasked session s := unreadOf_eq session _
  cases h with
  | tick _ hs' =>
    subst hs'
    exact hstill rfl rfl rfl rfl (hunread rfl rfl rfl)
  | receive i input hphase htodo hinput hs' =>
    have htakes := dispatch_takesIn session { s with input := input, exiting := false } htodo hphase i
    have hdispatched := dispatch_dispatched session { s with input := input, exiting := false } i
    rw [← hs'] at htakes hdispatched
    refine ⟨_, Traffic.congr (hdispatched.traffic ?_) rfl rfl rfl, htakes.unreadOf session _ hphase hinput⟩
    rw [State.held, htakes.untouched.workers]
    rfl
  | act a todo _ hs' =>
    subst hs'
    cases a with
    | send f => exact hstill rfl rfl rfl rfl (hunread rfl rfl rfl)
    | notify => exact hstill rfl (held_notified s.workers) rfl rfl (hunread rfl rfl rfl)
  | idleNotice _ _ hs' =>
    subst hs'
    exact hstill rfl rfl rfl rfl (hunread rfl rfl rfl)
  | idleEnd hphase _ _ _ hs' =>
    subst hs'
    exact hstill rfl rfl rfl rfl (hunread (by rw [hphase]; rfl) rfl rfl)
  | close why hphase _ hs' =>
    subst hs'
    exact hstill rfl rfl rfl rfl (hunread (by rw [hphase]; rfl) rfl rfl)
  | finish why hphase _ _ hs' =>
    subst hs'
    exact hstill rfl rfl rfl rfl (hunread (by rw [hphase]; rfl) rfl rfl)
  | worker k w s₁ p hw hmoved hs' =>
    obtain ⟨hphase, -, -, -, hopen, hinput⟩ := hmoved.frame
    subst hs'
    exact ⟨[], hmoved.traffic hw, (hunread (by rw [hphase]) hopen hinput).symm⟩

/-! ## 3. The ids in flight -/

omit [DecidableEq ι] in
theorem init_held (input : List (Incoming ι π ω)) : (init session input : State ι π ω α).held = [] := by
  rw [State.held, List.filterMap_eq_nil_iff]
  intro w hw
  rw [Worker.ask?, mem_init_workers hw]
  rfl

/-- The first entry of an id leaves. -/
theorem map_eraseP_fst {p : ι × ℕ → Bool} {id : ι} (hp : ∀ f, p f = true ↔ f.1 = id) :
    ∀ l : List (ι × ℕ), (l.eraseP p).map Prod.fst = (l.map Prod.fst).erase id
  | [] => rfl
  | f :: l => by
    by_cases hf : f.1 = id
    · rw [List.eraseP_cons_of_pos ((hp f).mpr hf), List.map_cons, hf, List.erase_cons_head]
    · rw [List.eraseP_cons_of_neg (fun h => hf ((hp f).mp h)), List.map_cons, List.map_cons,
        map_eraseP_fst hp l, List.erase_cons_tail (by simpa using hf)]

/-- The asks in flight are those that the workers hold, in every run. -/
theorem flight_held {input : List (Incoming ι π ω)} {s : State ι π ω α} (h : Runs session input s) :
    (s.queue.inFlight.map Prod.fst).Perm (s.held.map Ask.id) := by
  refine @Machine.Steps.inv _ _ _ _
    (fun s : State ι π ω α => (s.queue.inFlight.map Prod.fst).Perm (s.held.map Ask.id))
    (fun s e s' hs _ hstep => ?_) _ _ h ?_
  · obtain ⟨_, htraffic, -⟩ := (step_stepped session hstep).traffic
    cases htraffic with
    | still _ hheld hflight _ => rw [hflight]; exact hs.trans (hheld.map _).symm
    | accepted a _ _ hheld hflight _ _ => rw [hflight]; exact hs.trans (hheld.map _).symm
    | removed a _ hheld hflight _ => rw [hflight]; exact hs.trans (hheld.map _).symm
    | took a _ hheld hflight _ =>
      rw [hflight, List.map_append]
      refine List.Perm.trans ?_ (hheld.map Ask.id).symm
      exact (hs.append_right _).trans List.perm_append_comm
    | landed a _ hheld hflight _ =>
      obtain ⟨p, hp, hflight⟩ := hflight
      rw [hflight, map_eraseP_fst hp]
      have := (hs.trans (hheld.map Ask.id)).erase a.id
      rwa [List.map_cons, List.erase_cons_head] at this
  · rw [init_held]
    exact List.Perm.refl _

/-- **The status tells the asks that the workers hold**, in every run, and names one of them as the ask in
flight. -/
theorem status_in_flight {input : List (Incoming ι π ω)} {s : State ι π ω α} (h : Runs session input s) :
    ∃ queued first ids, (statusResult s.queue : Result ι α) = .status queued first ids ∧
      ids.Perm (s.held.map Ask.id) ∧ ∀ id, first = some id → id ∈ s.held.map Ask.id := by
  have hheld := flight_held h
  refine ⟨_, _, _, rfl, hheld, fun id hfirst => hheld.subset ?_⟩
  rw [← List.head?_map] at hfirst
  exact List.mem_of_head? hfirst

theorem status_in_flight_sample :
    ∃ s queued first ids, sampleAfter 7 = some s ∧ s.queue.inFlight.map Prod.fst = [2] ∧
      (statusResult s.queue : Result ℕ ℕ) = .status queued first ids ∧ ids.Perm (s.held.map Ask.id) := by
  obtain ⟨s, hs, hflight⟩ : ∃ s, sampleAfter 7 = some s ∧ s.queue.inFlight.map Prod.fst = [2] := ⟨_, rfl, rfl⟩
  obtain ⟨queued, first, ids, hstatus, hids, -⟩ := status_in_flight (sampleAfter_runs 7 hs)
  exact ⟨s, queued, first, ids, hs, hflight, hstatus, hids⟩

/-! ## 4. An ask's id and flag are its own -/

omit [DecidableEq ι] in
/-- **No step makes an ask** that was not read. -/
theorem Traffic.live {asks : List (ι × Bool)} {s s' : State ι π ω α} (h : Traffic asks s s') :
    ∃ gone : List (ι × Bool),
      (gone ++ s'.live.map Ask.named).Perm (s.live.map Ask.named ++ asks) := by
  have hgone : ∀ a : Ask ι π, s.live.Perm (a :: s'.live) →
      ∃ gone : List (ι × Bool),
        (gone ++ s'.live.map Ask.named).Perm (s.live.map Ask.named ++ asks) :=
    fun a hlive => ⟨asks ++ [a.named], by
      rw [List.append_assoc]
      exact List.perm_append_comm.trans ((hlive.map Ask.named).symm.append_right asks)⟩
  have hsame : s'.live.Perm s.live →
      ∃ gone : List (ι × Bool),
        (gone ++ s'.live.map Ask.named).Perm (s.live.map Ask.named ++ asks) :=
    fun hlive => ⟨asks, List.perm_append_comm.trans ((hlive.map _).append_right _)⟩
  cases h with
  | still hqueued hheld _ _ => exact hsame (hqueued.append hheld)
  | accepted a hask hqueued hheld _ _ _ =>
    have hlive : s'.live.Perm (a :: s.live) := hqueued.append hheld
    refine ⟨[], ?_⟩
    rw [hask, List.nil_append]
    exact (hlive.map _).trans (List.perm_append_singleton _ _).symm
  | removed a hqueued hheld _ _ => exact hgone a (hqueued.append hheld.symm)
  | took a hqueued hheld _ _ =>
    exact hsame (((hheld.append_left _).trans List.perm_middle).trans (hqueued.append_right _).symm)
  | landed a hqueued hheld _ _ =>
    refine hgone a ?_
    rw [State.live, State.live, hqueued]
    exact (hheld.append_left _).trans List.perm_middle

/-- **The asks a child has are asks it was asked**, and those it has not read are others. -/
theorem known {input : List (Incoming ι π ω)} {s : State ι π ω α} (h : Runs session input s) :
    ∃ gone, (gone ++ (s.live.map Ask.named ++ unasked session s)).Perm
      (asked session false input) := by
  refine @Machine.Steps.inv _ _ _ _ (fun s : State ι π ω α =>
      ∃ gone, (gone ++ (s.live.map Ask.named ++ unasked session s)).Perm
        (asked session false input))
    (fun s e s' hs _ hstep => ?_) _ _ h ⟨[], ?_⟩
  · obtain ⟨gone, hgone⟩ := hs
    obtain ⟨asks, htraffic, hunasked⟩ := (step_stepped session hstep).traffic
    obtain ⟨gone', hlive⟩ := htraffic.live
    refine ⟨gone ++ gone', List.Perm.trans ?_ hgone⟩
    rw [hunasked, List.append_assoc, ← List.append_assoc gone', ← List.append_assoc (s.live.map _)]
    exact (hlive.append_right _).append_left _
  · rw [State.live, init_held]
    exact List.Perm.refl _

/-- **The asks a child has each have a flag of their own**, and the list of those in flight names the flags
of the asks the workers have. -/
structure Flighted (s : State ι π ω α) : Prop where
  address : (s.live.map Ask.cancel).Nodup
  bound : ∀ a ∈ s.live, a.cancel < s.flags.length
  flight : s.queue.inFlight.Perm (s.held.map fun a => (a.id, a.cancel))

omit [DecidableEq ι] in
/-- The one element with a property leaves. -/
theorem eraseP_perm {β : Type} {p : β → Bool} {l l' : List β} {b : β} (h : l.Perm (b :: l'))
    (hb : p b = true) (hl : ∀ c ∈ l', p c = false) : (l.eraseP p).Perm l' := by
  have hmem : b ∈ l := h.mem_iff.mpr List.mem_cons_self
  obtain ⟨c, l₁, l₂, -, hc, hsplit, herase⟩ := List.exists_of_eraseP hmem hb
  have hcb : c = b := by
    have hmem' : c ∈ b :: l' := h.mem_iff.mp (hsplit ▸ by simp)
    rcases List.mem_cons.mp hmem' with hcb | hcl
    · exact hcb
    · rw [hl c hcl] at hc
      simp at hc
  subst hcb
  rw [herase]
  rw [hsplit] at h
  exact (List.perm_cons c).mp (List.perm_middle.symm.trans h)

omit [DecidableEq ι] in
theorem Traffic.flighted {asks : List (ι × Bool)} {s s' : State ι π ω α} (h : Traffic asks s s')
    (hs : Flighted s) (hids : (s.live.map Ask.id).Nodup) : Flighted s' := by
  -- what is live after is what was live before, but for one ask
  have hsame : s'.live.Perm s.live → s'.flags.length = s.flags.length →
      s'.queue.inFlight.Perm (s'.held.map fun a => (a.id, a.cancel)) → Flighted s' :=
    fun hlive hflags hflight => ⟨(hlive.map _).nodup_iff.mpr hs.address,
      fun a ha => hflags ▸ hs.bound a (hlive.mem_iff.mp ha), hflight⟩
  have hless : ∀ a, s.live.Perm (a :: s'.live) → s'.flags.length = s.flags.length →
      s'.queue.inFlight.Perm (s'.held.map fun a => (a.id, a.cancel)) → Flighted s' := by
    intro a hlive hflags hflight
    have haddress := (hlive.map Ask.cancel).nodup_iff.mp hs.address
    exact ⟨(List.nodup_cons.mp haddress).2,
      fun b hb => hflags ▸ hs.bound b (hlive.mem_iff.mpr (List.mem_cons_of_mem a hb)), hflight⟩
  cases h with
  | still hqueued hheld hflight hflags =>
    exact hsame (hqueued.append hheld) hflags (hflight ▸ hs.flight.trans (hheld.map _).symm)
  | accepted a _ hqueued hheld hflight hcancel hflags =>
    have hlive : s'.live.Perm (a :: s.live) := hqueued.append hheld
    refine ⟨(hlive.map Ask.cancel).nodup_iff.mpr (List.nodup_cons.mpr ⟨fun hmem => ?_, hs.address⟩),
      fun b hb => ?_, hflight ▸ hs.flight.trans (hheld.map _).symm⟩
    · obtain ⟨b, hb, hbcancel⟩ := List.mem_map.mp hmem
      have := hs.bound b hb
      omega
    · rcases List.mem_cons.mp (hlive.mem_iff.mp hb) with rfl | hb
      · omega
      · have := hs.bound b hb
        omega
  | removed a hqueued hheld hflight hflags =>
    exact hless a (hqueued.append hheld.symm) hflags (hflight ▸ hs.flight.trans (hheld.map _).symm)
  | took a hqueued hheld hflight hflags =>
    refine hsame ?_ hflags ?_
    · exact ((hheld.append_left _).trans List.perm_middle).trans (hqueued.append_right _).symm
    · rw [hflight]
      refine List.Perm.trans ?_ (hheld.map _).symm
      exact (hs.flight.append_right _).trans List.perm_append_comm
  | landed a hqueued hheld hflight hflags =>
    obtain ⟨p, hp, hflight⟩ := hflight
    have hheldIds : ((a :: s'.held).map Ask.id).Nodup := by
      rw [← (hheld.map Ask.id).nodup_iff]
      rw [State.live, List.map_append] at hids
      exact (List.nodup_append.mp hids).2.1
    refine hless a ?_ hflags ?_
    · rw [State.live, State.live, hqueued]
      exact (hheld.append_left _).trans List.perm_middle
    · rw [hflight]
      refine eraseP_perm (b := (a.id, a.cancel)) (hs.flight.trans (hheld.map _)) ((hp _).mpr rfl) ?_
      intro f hf
      obtain ⟨b, hb, rfl⟩ := List.mem_map.mp hf
      by_contra hpb
      rw [Bool.not_eq_false, hp] at hpb
      refine (List.nodup_cons.mp hheldIds).1 ?_
      exact hpb ▸ List.mem_map.mpr ⟨b, hb, rfl⟩

omit [DecidableEq ι] in
theorem init_live (input : List (Incoming ι π ω)) : (init session input : State ι π ω α).live = [] := by
  rw [State.live, init_held]
  rfl

/-- Where no two asks of the input share an id, no two the child has do. -/
theorem live_nodup {input : List (Incoming ι π ω)} {s : State ι π ω α} (h : Runs session input s)
    (hdistinct : ((asked session false input).map Prod.fst).Nodup) : (s.live.map Ask.id).Nodup := by
  obtain ⟨gone, hgone⟩ := known h
  have hall := ((hgone.map Prod.fst).nodup_iff).mpr hdistinct
  rw [List.map_append, List.map_append, List.map_map] at hall
  exact (List.nodup_append.mp (List.nodup_append.mp hall).2.1).1

theorem flighted {input : List (Incoming ι π ω)} {s : State ι π ω α} (h : Runs session input s)
    (hdistinct : ((asked session false input).map Prod.fst).Nodup) : Flighted s := by
  have hrun : Flighted s ∧ Runs session input s := by
    refine @Machine.Steps.inv _ _ _ _ (fun s : State ι π ω α => Flighted s ∧ Runs session input s)
      (fun s e s' hs _ hstep => ?_) _ _ h ⟨⟨?_, ?_, ?_⟩, Relation.ReflTransGen.refl⟩
    · obtain ⟨_, htraffic, -⟩ := (step_stepped session hstep).traffic
      exact ⟨htraffic.flighted hs.1 (live_nodup hs.2 hdistinct), hs.2.tail ⟨e, trivial, hstep⟩⟩
    · rw [init_live]
      exact List.nodup_nil
    · rw [init_live]
      simp
    · rw [init_held]
      exact List.Perm.refl _
  exact hrun.1

/-! ## 5. Cancelling -/

theorem takeFirst_eq_none {β : Type} {p : β → Bool} : ∀ {l : List β}, takeFirst p l = none →
    ∀ b ∈ l, p b = false
  | [], _ => by simp
  | c :: l, h => by
    rw [takeFirst] at h
    split at h
    · simp at h
    · rename_i hc
      rw [Option.map_eq_none_iff] at h
      intro b hb
      rcases List.mem_cons.mp hb with rfl | hb
      · simpa using hc
      · exact takeFirst_eq_none h b hb

/-- The state a queued ask is cancelled to. -/
def dropped (s : State ι π ω α) (light : Bool) (items : List (Work ι π)) (a : Ask ι π) : State ι π ω α :=
  { s with
    queue := (s.queue.setItems light items).dequeued a.light a.bytes
    todo := [.send (.answer a.id (.noWork .cancelled "cancelled while queued"))] }

/-- What a cancel can do. -/
theorem cancel_cases (s : State ι π ω α) (id : ι) :
    (∃ f ∈ s.queue.inFlight, f.1 = id ∧ cancel s id = ({ s with flags := s.flags.set f.2 true }, true)) ∨
    ((∀ f ∈ s.queue.inFlight, f.1 ≠ id) ∧ ∃ light l₁ l₂ a, s.queue.items light = l₁ ++ .ask a :: l₂ ∧
      a.id = id ∧ cancel s id = (dropped s light (l₁ ++ l₂) a, true)) ∨
    ((∀ f ∈ s.queue.inFlight, f.1 ≠ id) ∧ (∀ a ∈ s.queue.queued, a.id ≠ id) ∧ cancel s id = (s, false)) := by
  unfold cancel
  cases hfind : s.queue.inFlight.find? fun f => f.1 = id with
  | some f =>
    have hid := List.find?_some hfind
    exact .inl ⟨f, List.mem_of_find?_eq_some hfind, by simpa using hid, rfl⟩
  | none =>
    have hnone : ∀ f ∈ s.queue.inFlight, f.1 ≠ id := by
      intro f hf
      have := List.find?_eq_none.mp hfind f hf
      simpa using this
    have hfound : ∀ (light : Bool) (w : Work ι π) (items : List (Work ι π)),
        takeFirst (isAsk id) (s.queue.items light) = some (w, items) →
        ∃ l₁ l₂ a, s.queue.items light = l₁ ++ .ask a :: l₂ ∧ a.id = id ∧
          cancelQueued s (s.queue.setItems light items) id w = (dropped s light (l₁ ++ l₂) a, true) := by
      intro light w items htake
      obtain ⟨hw, l₁, l₂, hl, rfl, -⟩ := takeFirst_spec htake
      obtain ⟨a, rfl, rfl⟩ := isAsk_iff.mp hw
      exact ⟨l₁, l₂, a, hl, rfl, rfl⟩
    cases hheavy : takeFirst (isAsk id) s.queue.heavyItems with
    | some r => exact .inr (.inl ⟨hnone, false, hfound false r.1 r.2 hheavy⟩)
    | none =>
      cases hlight : takeFirst (isAsk id) s.queue.lightItems with
      | some r => exact .inr (.inl ⟨hnone, true, hfound true r.1 r.2 hlight⟩)
      | none =>
        refine .inr (.inr ⟨hnone, fun a ha hid => ?_, rfl⟩)
        have hin : ∀ (l : List (Work ι π)), takeFirst (isAsk id) l = none → a ∉ l.filterMap Work.ask? := by
          intro l hl ha
          obtain ⟨w, hw, hwa⟩ := List.mem_filterMap.mp ha
          have hnot := takeFirst_eq_none hl w hw
          cases w with
          | ask b =>
            cases hwa
            simp [isAsk, hid] at hnot
          | refresh => simp [Work.ask?] at hwa
        rcases List.mem_append.mp ha with ha | ha
        · exact hin _ hheavy ha
        · exact hin _ hlight ha

omit [DecidableEq ι] in
/-- An ask is told by its id. -/
theorem eq_of_id {l : List (Ask ι π)} (h : (l.map Ask.id).Nodup) {a b : Ask ι π} (ha : a ∈ l) (hb : b ∈ l)
    (hid : a.id = b.id) : a = b :=
  List.inj_on_of_nodup_map h ha hb hid

/-- **A cancel reaches the ask of its id, and no other**, in every run where no two asks share an id: of an
ask a worker has it sets the flag, which is no other ask's; an ask that waits it takes off its queue, and
answers; and where there is no such ask it does nothing. -/
theorem cancel_exact {input : List (Incoming ι π ω)} {s : State ι π ω α} (h : Runs session input s)
    (hdistinct : ((asked session false input).map Prod.fst).Nodup) (id : ι) :
    (∀ a ∈ s.held, a.id = id →
      cancel s id = ({ s with flags := s.flags.set a.cancel true }, true) ∧
        ∀ b ∈ s.live, b.cancel = a.cancel → b = a) ∧
    (∀ a ∈ s.queue.queued, a.id = id →
      ∃ t, cancel s id = (t, true) ∧ s.queue.queued.Perm (a :: t.queue.queued) ∧
        t.todo = [.send (.answer id (.noWork .cancelled "cancelled while queued"))] ∧
        t.flags = s.flags ∧ t.workers = s.workers ∧ t.queue.inFlight = s.queue.inFlight) ∧
    ((∀ a ∈ s.live, a.id ≠ id) → cancel s id = (s, false)) := by
  have hflighted := flighted h hdistinct
  have hids := live_nodup h hdistinct
  have hlive : ∀ {a}, a ∈ s.queue.queued → a ∈ s.live := fun ha => List.mem_append_left _ ha
  have hlive' : ∀ {a}, a ∈ s.held → a ∈ s.live := fun ha => List.mem_append_right _ ha
  -- an entry in flight is an ask of a worker
  have hentry : ∀ f ∈ s.queue.inFlight, ∃ a ∈ s.held, f = (a.id, a.cancel) := by
    intro f hf
    obtain ⟨a, ha, rfl⟩ := List.mem_map.mp (hflighted.flight.mem_iff.mp hf)
    exact ⟨a, ha, rfl⟩
  have hheld : ∀ a ∈ s.held, ¬ ∀ f ∈ s.queue.inFlight, f.1 ≠ a.id := fun a ha hnone =>
    hnone (a.id, a.cancel) (hflighted.flight.mem_iff.mpr (List.mem_map.mpr ⟨a, ha, rfl⟩)) rfl
  -- no ask both waits and is held
  have hapart : ∀ a ∈ s.queue.queued, a ∉ s.held := by
    intro a ha ha'
    rw [State.live, List.map_append] at hids
    exact (List.nodup_append.mp hids).2.2 _ (List.mem_map_of_mem ha) _ (List.mem_map_of_mem ha') rfl
  have hmiddle : ∀ {light : Bool} {l₁ l₂ : List (Work ι π)} {a : Ask ι π},
      s.queue.items light = l₁ ++ .ask a :: l₂ → a ∈ s.queue.queued := by
    intro light l₁ l₂ a hitems
    have : a ∈ s.queue.asks light := by
      rw [QueueState.asks, hitems, List.filterMap_append]
      exact List.mem_append_right _ List.mem_cons_self
    exact (s.queue.queued_perm light).mem_iff.mpr (List.mem_append_left _ this)
  refine ⟨?_, ?_, ?_⟩
  · rintro a ha rfl
    rcases cancel_cases s a.id with ⟨f, hf, hid, hcancel⟩ | ⟨hnone, -⟩ | ⟨hnone, -⟩
    · obtain ⟨b, hb, rfl⟩ := hentry f hf
      obtain rfl := eq_of_id hids (hlive' hb) (hlive' ha) hid
      refine ⟨hcancel, fun c hc hcb => ?_⟩
      exact List.inj_on_of_nodup_map hflighted.address hc (hlive' ha) hcb
    · exact absurd hnone (hheld a ha)
    · exact absurd hnone (hheld a ha)
  · rintro a ha rfl
    rcases cancel_cases s a.id with ⟨f, hf, hid, -⟩ | ⟨-, light, l₁, l₂, b, hitems, hid, hcancel⟩ |
      ⟨-, hnone, -⟩
    · obtain ⟨b, hb, rfl⟩ := hentry f hf
      obtain rfl := eq_of_id hids (hlive' hb) (hlive ha) hid
      exact absurd hb (hapart b ha)
    · obtain rfl := eq_of_id hids (hlive (hmiddle hitems)) (hlive ha) hid
      refine ⟨_, hcancel, ?_, rfl, rfl, rfl, ?_⟩
      · exact QueueState.queued_removed hitems _ _
      · simp only [dropped, QueueState.inFlight_dequeued, QueueState.inFlight_setItems]
    · exact absurd rfl (hnone a ha)
  · intro hnone
    rcases cancel_cases s id with ⟨f, hf, hid, -⟩ | ⟨-, light, l₁, l₂, b, hitems, hid, -⟩ | ⟨-, -, hcancel⟩
    · obtain ⟨b, hb, rfl⟩ := hentry f hf
      exact absurd hid (hnone b (hlive' hb))
    · exact absurd hid (hnone b (hlive (hmiddle hitems)))
    · exact hcancel

theorem cancel_exact_sample :
    ∃ s t, sampleAfter 7 = some s ∧ cancel s 3 = (t, true) ∧
      t.todo = [.send (.answer 3 (.noWork .cancelled "cancelled while queued"))] ∧ t.flags = s.flags := by
  have hdistinct : ((asked numbered false sampleInput).map Prod.fst).Nodup := by decide
  obtain ⟨s, a, hs, ha, hid⟩ : ∃ s a, sampleAfter 7 = some s ∧ a ∈ s.queue.queued ∧ a.id = 3 :=
    ⟨_, _, rfl, List.mem_cons_self, rfl⟩
  obtain ⟨t, hcancel, -, htodo, hflags, -⟩ := (cancel_exact (sampleAfter_runs 7 hs) hdistinct 3).2.1 a ha hid
  exact ⟨s, t, hs, hcancel, htodo, hflags⟩

end Steps

end AlSem.Host
