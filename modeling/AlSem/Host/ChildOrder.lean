/-
# Heavy asks are answered in their order

One worker answers every ask but the queries.  Its answers go out among those of the other workers and of
the dispatching thread, and some asks never reach it: they are refused, or cancelled while they wait.  Yet
those it answers it answers in the order they were asked (`heavy_in_order`), where no two asks share an id.
What it answered, what it has, what waits for it and what is not read yet are one line, in that order, that
only ever loses asks.
-/
import AlSem.Host.ChildFlight
import AlSem.Host.ChildProgress

namespace AlSem.Host

variable {ι π ω α : Type}

/-! ## 1. The line -/

/-- The ids of the heavy asks. -/
def heavy (asks : List (ι × Bool)) : List ι := (asks.filter fun f => !f.2).map Prod.fst

theorem heavy_append (l l' : List (ι × Bool)) : heavy (l ++ l') = heavy l ++ heavy l' := by
  rw [heavy, List.filter_append, List.map_append]
  rfl

/-- The asks the workers are done with, in the order of their answers. -/
def State.served (s : State ι π ω α) : List ι := s.out.flatMap Frame.served

/-- What the heavy worker, the first, has not answered. -/
def headUndone (workers : List (Worker ι π)) : List ι := (workers.take 1).flatMap fun w => w.phase.undone

/-- **The line** of the heavy asks: those answered, the one that the worker has, those that wait, and those
that are not read. -/
def line [DecidableEq ι] (session : Session ι ω) (input : List (Incoming ι π ω)) (s : State ι π ω α) : List ι :=
  s.served.filter (fun id => decide (id ∈ heavy (asked session false input))) ++
    (headUndone s.workers ++ ((s.queue.asks false).map Ask.id ++ heavy (unasked session s)))

theorem headUndone_eq {workers : List (Worker ι π)} {w : Worker ι π} (h : workers[0]? = some w) :
    headUndone workers = w.phase.undone := by
  cases workers with
  | nil => simp at h
  | cons v workers =>
    obtain rfl : v = w := by simpa using h
    exact List.append_nil _

theorem headUndone_set_zero {workers : List (Worker ι π)} {w v : Worker ι π} (h : workers[0]? = some w) :
    headUndone (workers.set 0 v) = v.phase.undone := by
  cases workers with
  | nil => simp at h
  | cons _ workers => exact List.append_nil _

theorem headUndone_set_succ (workers : List (Worker ι π)) (k : ℕ) (v : Worker ι π) :
    headUndone (workers.set (k + 1) v) = headUndone workers := by
  cases workers <;> rfl

theorem headUndone_notified (workers : List (Worker ι π)) :
    headUndone (workers.map Worker.notified) = headUndone workers := by
  cases workers with
  | nil => rfl
  | cons w workers =>
    refine congrArg (· ++ []) ?_
    unfold Worker.notified
    split
    · rename_i hwaiting
      dsimp only
      rw [hwaiting]
      rfl
    · rfl

/-! ## 2. A frame of the input -/

/-- A dispatch adds the heavy ask of its frame to the heavy lane at most. -/
theorem Dispatched.heavy_sublist {asks : List (ι × Bool)} {s s' : State ι π ω α} (h : Dispatched asks s s') :
    ((s'.queue.asks false).map Ask.id).Sublist ((s.queue.asks false).map Ask.id ++ heavy asks) := by
  have hsame : s'.queue.asks false = s.queue.asks false →
      ((s'.queue.asks false).map Ask.id).Sublist ((s.queue.asks false).map Ask.id ++ heavy asks) :=
    fun h => h ▸ List.sublist_append_left _ _
  cases h with
  | quiet hqueue _ => exact hsame (by rw [hqueue])
  | pushed a hask _ _ hqueue _ _ =>
    cases hlight : a.light with
    | true =>
      refine hsame (QueueState.asks_congr ?_)
      rw [hqueue, QueueState.items_push_other _ _ (by rw [hlight]; simp)]
    | false =>
      have hpush : s'.queue.asks false = s.queue.asks false ++ [a] := by
        have := QueueState.items_push_self s.queue a
        rw [hlight] at this
        rw [hqueue, QueueState.asks, this, List.filterMap_append]
        rfl
      have hheavy : heavy asks = [a.id] := by
        rw [hask, heavy, hlight]
        rfl
      rw [hpush, hheavy, List.map_append]
      exact List.Sublist.refl _
  | refresh id wait hqueue _ _ =>
    refine hsame ?_
    rw [hqueue, QueueState.asks_setItems_self, List.filterMap_append]
    exact List.append_nil _
  | removed light l₁ l₂ a hitems hqueue _ =>
    have hasks : s'.queue.asks false = (s.queue.setItems light (l₁ ++ l₂)).asks false :=
      QueueState.asks_congr (by rw [hqueue, QueueState.items_dequeued])
    cases light with
    | true => exact hsame (by rw [hasks, QueueState.asks_setItems_other _ _ (by simp)])
    | false =>
      rw [hasks, QueueState.asks_setItems_self, QueueState.asks, hitems]
      refine List.Sublist.trans ?_ (List.sublist_append_left _ _)
      exact (((List.Sublist.refl l₁).append (List.sublist_cons_self _ l₂)).filterMap _).map _
  | flagged f _ hqueue _ => exact hsame (by rw [hqueue])

/-! ## 3. The workers' lanes -/

section Steps

variable [DecidableEq ι] {session : Session ι ω}

omit [DecidableEq ι] in
/-- The first worker is the heavy one. -/
theorem Ending.light_iff {s : State ι π ω α} (h : Ending session s) {k : ℕ} {w : Worker ι π}
    (hw : s.workers[k]? = some w) : w.light = true ↔ k ≠ 0 := by
  have hlight : (s.workers.map Worker.light)[k]? = some w.light := by rw [List.getElem?_map, hw]; rfl
  rw [h.lights] at hlight
  cases k with
  | zero =>
    obtain hlight : false = w.light := by simpa using hlight
    simp [← hlight]
  | succ k =>
    rw [List.getElem?_cons_succ] at hlight
    have := List.eq_of_mem_replicate (List.mem_of_getElem? hlight)
    simp [this]

/-- **An ask is with a worker of its lane**, and the dispatching thread sends no worker's answer. -/
structure InLane (s : State ι π ω α) : Prop where
  held : ∀ w ∈ s.workers, ∀ a, w.ask? = some a → a.light = w.light
  todo : ∀ a ∈ s.todo, a.served = []

theorem Moved.inLane {s s₁ : State ι π ω α} {w : Worker ι π} {p : WorkerPhase ι π} (h : Moved s s₁ w p)
    (hcounted : Counted s.queue) (hw : ∀ a, w.ask? = some a → a.light = w.light) :
    ∀ a, p.held.bind Work.ask? = some a → a.light = w.light := by
  intro a ha
  cases h with
  | took unit items _ hitems _ hp =>
    subst hp
    refine hcounted.lane w.light a ?_
    rw [QueueState.asks, hitems]
    exact List.mem_filterMap.mpr ⟨unit, List.mem_cons_self, ha⟩
  | slept _ _ _ _ hp => subst hp; simp [WorkerPhase.held] at ha
  | left _ _ _ _ hp => subst hp; simp [WorkerPhase.held] at ha
  | woke _ _ hp => subst hp; simp [WorkerPhase.held] at ha
  | wrote unit frames hphase _ _ _ hp =>
    refine hw a ?_
    rw [Worker.ask?]
    rcases hphase with hphase | hphase <;> rcases hp with rfl | rfl <;> rw [hphase] <;> exact ha
  | landed _ _ _ hp => subst hp; simp [WorkerPhase.held] at ha

theorem Stepped.inLane {s s' : State ι π ω α} (h : Stepped session s s') (hcounted : Counted s.queue)
    (hs : InLane s) : InLane s' := by
  cases h with
  | tick _ hs' => exact hs' ▸ ⟨hs.held, hs.todo⟩
  | receive i input hphase htodo _ hs' =>
    have htakes := dispatch_takesIn session { s with input := input, exiting := false } htodo hphase i
    have hbrief := @dispatch_todo _ _ _ _ _ session { s with input := input, exiting := false } htodo i
    rw [← hs'] at htakes hbrief
    exact ⟨by rw [htakes.untouched.workers]; exact hs.held, hbrief.2⟩
  | act a todo htodo hs' =>
    have hrest : ∀ b ∈ todo, b.served = [] := fun b hb => hs.todo b (by rw [htodo]; exact .tail _ hb)
    subst hs'
    cases a with
    | send f => exact ⟨hs.held, hrest⟩
    | notify =>
      refine ⟨fun v hv a ha => ?_, hrest⟩
      obtain ⟨w, hw, rfl⟩ := List.mem_map.mp hv
      unfold Worker.notified at ha ⊢
      split at ha
      · simp [Worker.ask?, WorkerPhase.held] at ha
      · exact hs.held w hw a ha
  | idleNotice _ _ hs' => exact hs' ▸ ⟨hs.held, by simp [Action.served, Frame.served]⟩
  | idleEnd _ _ _ _ hs' => exact hs' ▸ ⟨hs.held, hs.todo⟩
  | close why _ _ hs' => exact hs' ▸ ⟨hs.held, by simp [Action.served]⟩
  | finish why _ _ _ hs' => exact hs' ▸ ⟨hs.held, hs.todo⟩
  | worker k w s₁ p hw hmoved hs' =>
    obtain ⟨-, htodo, -⟩ := hmoved.frame
    subst hs'
    refine ⟨fun v hv a ha => ?_, fun a ha => hs.todo a (htodo ▸ ha)⟩
    rcases List.mem_or_eq_of_mem_set hv with hv | rfl
    · exact hs.held v hv a ha
    · exact hmoved.inLane hcounted (hs.held w (List.mem_of_getElem? hw)) a ha

theorem inLane {input : List (Incoming ι π ω)} {s : State ι π ω α} (h : Runs session input s) : InLane s := by
  have hrun : InLane s ∧ Runs session input s := by
    refine @Machine.Steps.inv _ _ _ _ (fun s : State ι π ω α => InLane s ∧ Runs session input s)
      (fun s e s' hs _ hstep => ?_) _ _ h ⟨⟨fun w hw a ha => ?_, by simp [init]⟩, Relation.ReflTransGen.refl⟩
    · exact ⟨(step_stepped session hstep).inLane (counted hs.2) hs.1, hs.2.tail ⟨e, trivial, hstep⟩⟩
    · rw [Worker.ask?, mem_init_workers hw] at ha
      simp [WorkerPhase.held] at ha
  exact hrun.1

/-- A light ask's id is no heavy ask's. -/
theorem light_not_heavy {input : List (Incoming ι π ω)} {s : State ι π ω α} (h : Runs session input s)
    (hdistinct : ((asked session false input).map Prod.fst).Nodup) {a : Ask ι π} (ha : a ∈ s.live)
    (hlight : a.light = true) : a.id ∉ heavy (asked session false input) := by
  intro hheavy
  obtain ⟨f, hf, hid⟩ := List.mem_map.mp hheavy
  obtain ⟨hf, hnot⟩ := List.mem_filter.mp hf
  obtain ⟨gone, hgone⟩ := known h
  have hasked : a.named ∈ asked session false input := by
    refine hgone.mem_iff.mp (List.mem_append_right _ (List.mem_append_left _ ?_))
    exact List.mem_map.mpr ⟨a, ha, rfl⟩
  have hsame : f = a.named := List.inj_on_of_nodup_map hdistinct hf hasked hid
  rw [hsame, Ask.named, hlight] at hnot
  simp at hnot

/-! ## 4. The line only loses asks -/

omit [DecidableEq ι] in
theorem undone_ask {w : Worker ι π} {id : ι} (h : id ∈ w.phase.undone) : ∃ a, w.ask? = some a ∧ a.id = id := by
  have hasked : ∀ unit : Work ι π, id ∈ unit.asked → ∃ a, unit.ask? = some a ∧ a.id = id := by
    intro unit hunit
    cases unit with
    | ask a => exact ⟨a, rfl, (List.mem_singleton.mp hunit).symm⟩
    | refresh => simp [Work.asked] at hunit
  rw [Worker.ask?]
  cases hp : w.phase with
  | taken unit => rw [hp] at h; exact hasked unit h
  | computing unit => rw [hp] at h; exact hasked unit h
  | _ => rw [hp] at h; simp [WorkerPhase.undone] at h

/-- A worker's event keeps the line, or shortens it. -/
theorem Moved.line_sublist {input : List (Incoming ι π ω)} {s s₁ : State ι π ω α} {k : ℕ} {w : Worker ι π}
    {p : WorkerPhase ι π} (hmoved : Moved s s₁ w p) (hw : s.workers[k]? = some w)
    (h : Runs session input s) (hdistinct : ((asked session false input).map Prod.fst).Nodup) :
    (line session input { s₁ with workers := s.workers.set k { w with phase := p } }).Sublist
      (line session input s) := by
  have hlight := (ending h).light_iff hw
  obtain ⟨hphase, -, -, -, hopen, hinput⟩ := hmoved.frame
  have hunasked : unasked session { s₁ with workers := s.workers.set k { w with phase := p } } =
      unasked session s := unreadOf_eq session _ (congrArg Phase.stopped hphase) hopen hinput
  -- what the heavy worker has
  have hhead : headUndone (s.workers.set k { w with phase := p }) =
      if k = 0 then p.undone else headUndone s.workers := by
    cases k with
    | zero => rw [if_pos rfl, headUndone_set_zero hw]
    | succ k => rw [if_neg (Nat.succ_ne_zero k), headUndone_set_succ]
  have hold : k = 0 → headUndone s.workers = w.phase.undone := by
    rintro rfl
    exact headUndone_eq hw
  -- an event that sends nothing, leaves the lane and ends where the worker has the same
  have hsame : s₁.out = s.out → s₁.queue.asks false = s.queue.asks false → p.undone = w.phase.undone →
      (line session input { s₁ with workers := s.workers.set k { w with phase := p } }).Sublist
        (line session input s) := by
    intro hout hasks hundone
    have hhead' : headUndone (s.workers.set k { w with phase := p }) = headUndone s.workers := by
      rw [hhead]
      split
      · rename_i hk
        rw [hold hk, hundone]
      · rfl
    unfold line State.served
    rw [hunasked]
    dsimp only
    rw [hout, hasks, hhead']
  cases hmoved with
  | took unit items hawake hitems hs hp =>
    subst hp
    have hasks : ∀ lane, s₁.queue.asks lane = (s.queue.setItems w.light items).asks lane := fun lane =>
      QueueState.asks_congr (by rw [hs, QueueState.items_take])
    have hout : s₁.out = s.out := by rw [hs]
    by_cases hk : k = 0
    · -- the first ask that waits is the worker's
      have hheavy : w.light = false := by
        rw [← Bool.not_eq_true]
        exact fun hl => hlight.mp hl hk
      have htaken : (s.queue.asks false).map Ask.id = unit.asked ++ (s₁.queue.asks false).map Ask.id := by
        rw [hasks, hheavy, QueueState.asks_setItems_self, QueueState.asks, ← hheavy, hitems, List.filterMap_cons]
        cases unit <;> rfl
      unfold line State.served
      rw [hunasked, hold hk, hawake, htaken]
      dsimp only
      rw [hout, hhead, if_pos hk]
      simp only [WorkerPhase.undone, List.nil_append, List.append_assoc]
      exact List.Sublist.refl _
    · have hw' : w.light = true := hlight.mpr hk
      unfold line State.served
      rw [hunasked]
      dsimp only
      rw [hout, hhead, if_neg hk, hasks, QueueState.asks_setItems_other _ _ (by rw [hw']; simp)]
  | slept hawake _ _ hs hp =>
    subst hp
    exact hsame (by rw [hs]) (by rw [hs]) (by rw [hawake]; rfl)
  | left hawake _ _ hs hp =>
    subst hp
    exact hsame (by rw [hs]) (by rw [hs]) (by rw [hawake]; rfl)
  | woke hwaiting hs hp =>
    subst hp
    exact hsame (by rw [hs]) (by rw [hs]) (by rw [hwaiting]; rfl)
  | wrote unit frames _ _ hserved hs hp =>
    have hout : s₁.out.flatMap Frame.served = s.served ++ frames.flatMap Frame.served := by
      rw [hs, List.flatMap_append]
      rfl
    have hqueue : s₁.queue = s.queue := by rw [hs]
    unfold line
    rw [hunasked, State.served]
    dsimp only
    rw [hout, hqueue, hhead, List.filter_append, List.append_assoc]
    refine List.Sublist.append_left ?_ _
    by_cases hk : k = 0
    · rw [if_pos hk, hold hk, ← hserved, List.append_assoc]
      exact List.filter_sublist.append_right _
    · -- another worker's ask is no heavy one
      have hnone : (frames.flatMap Frame.served).filter
          (fun id => decide (id ∈ heavy (asked session false input))) = [] := by
        rw [List.filter_eq_nil_iff]
        intro id hid
        have hundone : id ∈ w.phase.undone := hserved ▸ List.mem_append_left _ hid
        obtain ⟨a, ha, rfl⟩ := undone_ask hundone
        have hmem := List.mem_of_getElem? hw
        have hlive : a ∈ s.live :=
          List.mem_append_right _ (List.mem_filterMap.mpr ⟨w, hmem, ha⟩)
        have hlight' : a.light = true := ((Host.inLane h).held w hmem a ha).trans (hlight.mpr hk)
        simpa using light_not_heavy h hdistinct hlive hlight'
      rw [hnone, if_neg hk, List.nil_append]
  | landed unit hanswered hs hp =>
    subst hp
    refine hsame (by rw [hs]) (QueueState.asks_congr ?_) (by rw [hanswered]; rfl)
    rw [hs, QueueState.items_landed]

/-- **The line only loses asks.** -/
theorem Stepped.line_sublist {input : List (Incoming ι π ω)} {s s' : State ι π ω α} (h : Stepped session s s')
    (hs : Runs session input s) (hdistinct : ((asked session false input).map Prod.fst).Nodup) :
    (line session input s').Sublist (line session input s) := by
  have hunread : s'.phase.stopped = s.phase.stopped → s'.isOpen = s.isOpen → s'.input = s.input →
      unasked session s' = unasked session s := unreadOf_eq session _
  have hsame : s'.served = s.served → headUndone s'.workers = headUndone s.workers →
      s'.queue.asks false = s.queue.asks false → unasked session s' = unasked session s →
      (line session input s').Sublist (line session input s) := by
    intro h₁ h₂ h₃ h₄
    rw [line, line, h₁, h₂, h₃, h₄]
  cases h with
  | tick _ hs' =>
    subst hs'
    exact hsame rfl rfl rfl (hunread rfl rfl rfl)
  | receive i rest hphase htodo hinput hs' =>
    have htakes := dispatch_takesIn session { s with input := rest, exiting := false } htodo hphase i
    have hdispatched := dispatch_dispatched session { s with input := rest, exiting := false } i
    rw [← hs'] at htakes hdispatched
    have hunasked : unasked session s = incomingAsks session s.isOpen i ++ unasked session s' :=
      htakes.unreadOf session _ hphase hinput
    rw [line, line, hunasked, heavy_append, State.served, htakes.untouched.out, htakes.untouched.workers]
    refine List.Sublist.append_left (List.Sublist.append_left ?_ _) _
    rw [← List.append_assoc]
    exact hdispatched.heavy_sublist.append_right _
  | act a todo htodo hs' =>
    subst hs'
    have hserved : a.served = [] := (Host.inLane hs).todo a (by rw [htodo]; exact List.mem_cons_self)
    cases a with
    | send f =>
      refine hsame ?_ rfl rfl (hunread rfl rfl rfl)
      rw [State.served, perform, List.flatMap_append, List.flatMap_cons, List.flatMap_nil, List.append_nil,
        show f.served = [] from hserved, List.append_nil]
      rfl
    | notify => exact hsame rfl (headUndone_notified s.workers) rfl (hunread rfl rfl rfl)
  | idleNotice _ _ hs' =>
    subst hs'
    exact hsame rfl rfl rfl (hunread rfl rfl rfl)
  | idleEnd hphase _ _ _ hs' =>
    subst hs'
    exact hsame rfl rfl rfl (hunread (by rw [hphase]; rfl) rfl rfl)
  | close why hphase _ hs' =>
    subst hs'
    exact hsame rfl rfl rfl (hunread (by rw [hphase]; rfl) rfl rfl)
  | finish why hphase _ _ hs' =>
    subst hs'
    refine hsame ?_ rfl rfl (hunread (by rw [hphase]; rfl) rfl rfl)
    rw [State.served, List.flatMap_append]
    have hlast : ((farewell why : List (Frame ι α)).flatMap Frame.served) = [] := by cases why <;> rfl
    rw [hlast, List.append_nil]
    rfl
  | worker k w s₁ p hw hmoved hs' =>
    subst hs'
    exact hmoved.line_sublist hw hs hdistinct

/-- **Heavy asks are answered in the order they were asked**, those that are neither refused nor cancelled
while they wait, in every run where no two asks share an id. -/
theorem heavy_in_order {input : List (Incoming ι π ω)} {s : State ι π ω α} (h : Runs session input s)
    (hdistinct : ((asked session false input).map Prod.fst).Nodup) :
    (s.served.filter fun id => decide (id ∈ heavy (asked session false input))).Sublist
      (heavy (asked session false input)) := by
  have hrun : (line session input s).Sublist (heavy (asked session false input)) ∧ Runs session input s := by
    refine @Machine.Steps.inv _ _ _ _ (fun s : State ι π ω α =>
        (line session input s).Sublist (heavy (asked session false input)) ∧ Runs session input s)
      (fun s e s' hs _ hstep => ?_) _ _ h ⟨?_, Relation.ReflTransGen.refl⟩
    · exact ⟨((step_stepped session hstep).line_sublist hs.2 hdistinct).trans hs.1,
        hs.2.tail ⟨e, trivial, hstep⟩⟩
    · exact List.Sublist.refl _
  exact (List.sublist_append_left _ _).trans hrun.1

theorem heavy_in_order_sample :
    ∃ s, sampleAfter 19 = some s ∧ s.served = [2] ∧ heavy (asked numbered false sampleInput) = [2, 3] ∧
      (s.served.filter fun id => decide (id ∈ heavy (asked numbered false sampleInput))).Sublist
        (heavy (asked numbered false sampleInput)) :=
  ⟨_, rfl, rfl, rfl, heavy_in_order (sampleAfter_runs 19 rfl) (by decide)⟩

end Steps

end AlSem.Host
