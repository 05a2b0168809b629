/-
# The front end's children

`EngineFront` of `engine/host/front.rs` over its whole life: it starts a child for a request, keeps it for the
next ones, lets one that leaves for idleness go, and counts the deaths of the others.  A death delays the next
start, twice as long as the one before it; too many of them within a window make the front end refuse every
request for a while.

Whatever the children do, each that was started is accounted for (`children_accounted`); none is started before
the delay of the newest death since the last explicit `reset`, or the refusal that followed it, is over
(`restart_waits`); and none is started when too many of the deaths since the backoff was last reset lie within
a window (`storm_stops`).
-/
import AlSem.Lib.Machine
import Mathlib.Algebra.Order.Group.Nat
import Mathlib.Data.List.Basic
import Mathlib.Order.MinMax

namespace AlSem.Host

/-! ## 1. The front end -/

/-- The clocks of a front end, in milliseconds. -/
structure FrontConfig where
  backoffInitial : ℕ
  backoffMax : ℕ
  stableAfter : ℕ
  deathLimit : ℕ
  deathWindow : ℕ
  failedCooldown : ℕ

/-- The design's clocks. -/
def FrontConfig.new : FrontConfig where
  backoffInitial := 1000
  backoffMax := 30000
  stableAfter := 60000
  deathLimit := 3
  deathWindow := 60000
  failedCooldown := 300000

structure FrontStats where
  spawns : ℕ
  deaths : ℕ
  completed : ℕ
  retired : ℕ

/-- A front end; `running` is since when its child runs. -/
structure EngineFront where
  running : Option ℕ
  backoff : ℕ
  notBefore : Option ℕ
  deaths : List ℕ
  failedUntil : Option ℕ
  stats : FrontStats

section Operations

variable (cfg : FrontConfig)

namespace EngineFront

def new : EngineFront where
  running := none
  backoff := cfg.backoffInitial
  notBefore := none
  deaths := []
  failedUntil := none
  stats := ⟨0, 0, 0, 0⟩

/-- `reset_backoff`. -/
def resetBackoff (f : EngineFront) : EngineFront := { f with backoff := cfg.backoffInitial, deaths := [] }

/-- `reset`. -/
def reset (f : EngineFront) : EngineFront :=
  { ({ f with failedUntil := none, deaths := [] } : EngineFront).resetBackoff cfg with notBefore := none }

/-- `record_death`. -/
def recordDeath (f : EngineFront) (now : ℕ) : EngineFront :=
  let deaths := (f.deaths ++ [now]).dropWhile fun t => cfg.deathWindow < now - t
  { f with
    stats := { f.stats with deaths := f.stats.deaths + 1 }
    notBefore := some (now + f.backoff)
    backoff := min (f.backoff * 2) cfg.backoffMax
    deaths := deaths
    failedUntil := if cfg.deathLimit ≤ deaths.length then some (now + cfg.failedCooldown) else f.failedUntil }

end EngineFront

/-! ## 2. Its life -/

/-- What a request is: an ask, another one, or only to have a child. -/
inductive Op where
  | ask
  | other
  | start

/-- Where a front end is: between requests, or waiting to start a child, for its hello, its session or its
answer; `retried` when an ask crossed an idle exit. -/
inductive Place where
  | idle
  | waiting (op : Op) (retried : Bool) (notBefore : Option ℕ)
  | greeting (op : Op) (retried : Bool)
  | opening (op : Op) (retried : Bool)
  | calling (op : Op) (retried : Bool)

/-- A child runs there. -/
def Place.started : Place → Bool
  | .greeting _ _ => true
  | .opening _ _ => true
  | .calling _ _ => true
  | _ => false

def Op.ready (op : Op) (retried : Bool) : Place :=
  match op with
  | .start => .idle
  | _ => .calling op retried

/-- A death as it was recorded: when, the delay it set, and how many deaths of its streak came before it. -/
structure Recorded where
  time : ℕ
  delay : ℕ
  rank : ℕ

/-- A front end's life so far.  `streak` is when children died since the backoff was last reset, whether by a
success, by a stable child, by the end of a refusal or by a `reset`; `newest` is the newest death since the
last explicit `reset`, which lifts its delay. -/
structure Life where
  front : EngineFront
  now : ℕ
  place : Place
  shutdowns : ℕ
  streak : List ℕ
  newest : Option Recorded

namespace Life

def born : Life where
  front := .new cfg
  now := 0
  place := .idle
  shutdowns := 0
  streak := []
  newest := none

/-- `kill` and `died`: the request that met it fails. -/
def die (s : Life) : Life :=
  match s.front.running with
  | none => { s with place := .idle }
  | some _ => { s with
      front := ({ s.front with running := none } : EngineFront).recordDeath cfg s.now
      place := .idle
      streak := s.streak ++ [s.now]
      newest := some ⟨s.now, s.front.backoff, s.streak.length⟩ }

/-- `retire`. -/
def retire (s : Life) : Life :=
  match s.front.running with
  | none => { s with place := .idle }
  | some _ => { s with
      front := { s.front with running := none, stats := { s.front.stats with retired := s.front.stats.retired + 1 } }
      place := .idle }

def resetBackoff (s : Life) : Life := { s with front := s.front.resetBackoff cfg, streak := [] }

def reset (s : Life) : Life := { s with front := s.front.reset cfg, streak := [] }

/-- A child is to be started once the delay is over. -/
def toStart (s : Life) (op : Op) (retried : Bool) : Life :=
  { s with place := .waiting op retried s.front.notBefore, front := { s.front with notBefore := none } }

/-- What is found of a running child: its reader stopped, or it announced its idle exit. -/
inductive Found where
  | failure
  | idleNotice

/-- The rest of `ensure_running`. -/
def checkRunning (s : Life) (op : Op) (retried : Bool) (found : Option Found) : Life :=
  match s.front.running, found with
  | some _, some .failure => s.die cfg
  | some _, some .idleNotice => s.retire.toStart op retried
  | some since, none =>
    { (if cfg.stableAfter ≤ s.now - since then s.resetBackoff cfg else s) with place := op.ready retried }
  | none, _ => s.toStart op retried

/-- `ensure_running`, up to the start of a child. -/
def ensureRunning (s : Life) (op : Op) (retried : Bool) (found : Option Found) : Life :=
  match s.front.failedUntil with
  | some t => if s.now < t then { s with place := .idle } else (s.reset cfg).checkRunning cfg op retried found
  | none => s.checkRunning cfg op retried found

/-- How a call of the child ends. -/
inductive Outcome where
  | ok
  | error
  | died
  | retired
  deriving DecidableEq

inductive Event where
  | tick (ms : ℕ)
  | request (op : Op) (found : Option Found)
  | spawn (ok : Bool)
  | hello (ok : Bool)
  | opened (outcome : Outcome)
  | answered (outcome : Outcome)
  | notifyFailed
  | reset
  | shutdown

/-- A completed ask. -/
def complete (s : Life) : Life :=
  { s with front := { s.front with stats := { s.front.stats with completed := s.front.stats.completed + 1 } } }

/-- **One step** of a front end's life. -/
def step (s : Life) : Event → Option Life
  | .tick ms => some { s with now := s.now + ms }
  | .request op found =>
    match s.place with
    | .idle => some (s.ensureRunning cfg op false found)
    | _ => none
  | .spawn ok =>
    match s.place with
    | .waiting op retried notBefore =>
      if notBefore.all fun t => t ≤ s.now then
        if ok then some { s with
          front := { s.front with
            running := some s.now
            stats := { s.front.stats with spawns := s.front.stats.spawns + 1 } }
          place := .greeting op retried }
        else some { s with place := .idle }
      else none
    | _ => none
  | .hello ok =>
    match s.place with
    | .greeting op retried =>
      if ok then some { s with front := { s.front with running := some s.now }, place := .opening op retried }
      else some (s.die cfg)
    | _ => none
  | .opened outcome =>
    match s.place with
    | .opening op retried =>
      match outcome with
      | .ok => some { s with place := op.ready retried }
      | .retired => some s.retire
      | _ => some (s.die cfg)
    | _ => none
  | .answered outcome =>
    match s.place with
    | .calling op retried =>
      match outcome, op with
      | .ok, .ask => some { s.complete.resetBackoff cfg with place := .idle }
      | .ok, _ => some { s with place := .idle }
      | .error, _ => some { s with place := .idle }
      | .died, _ => some (s.die cfg)
      | .retired, .ask => if retried then some s.retire else some (s.retire.ensureRunning cfg .ask true none)
      | .retired, _ => some s.retire
    | _ => none
  | .notifyFailed =>
    match s.place with
    | .idle => some (s.die cfg)
    | _ => none
  | .reset =>
    match s.place with
    | .idle => some { s.reset cfg with newest := none }
    | _ => none
  | .shutdown =>
    match s.place, s.front.running with
    | .idle, some _ => some { s with front := { s.front with running := none }, shutdowns := s.shutdowns + 1 }
    | _, _ => none

/-- **A life** of a front end. -/
def Lives (s : Life) : Prop := Machine.Steps (step cfg) (fun _ _ => True) (born cfg) s

/-- Short clocks. -/
def sampleConfig : FrontConfig := ⟨10, 40, 1000, 3, 100, 500⟩

/-- A child that dies in its first ask. -/
def sampleDeath : List Event := [.spawn true, .hello true, .opened .ok, .answered .died, .request .ask none]

/-- Two children die, and the delay of the second death is over. -/
def sampleLife : Option Life :=
  Machine.run (step sampleConfig) (fun _ _ => true) (born sampleConfig)
    (.request .ask none :: sampleDeath ++ .tick 10 :: sampleDeath ++ [.tick 20])

theorem sampleLife_lives {s : Life} (h : sampleLife = some s) : Lives sampleConfig s :=
  Machine.steps_of_run (fun _ _ _ => trivial) _ _ _ h

end Life

/-! ## 3. What holds of it -/

/-- The delay after so many deaths. -/
def delay : ℕ → ℕ
  | 0 => cfg.backoffInitial
  | n + 1 => min (delay n * 2) cfg.backoffMax

/-- The deaths of a streak that lie within the window of its newest. -/
def inWindow (streak : List ℕ) : List ℕ :=
  match streak.getLast? with
  | none => []
  | some newest => streak.filter fun t => decide (newest - t ≤ cfg.deathWindow)

/-- **What holds of a front end.** -/
structure Sound (s : Life) : Prop where
  accounted : s.front.stats.spawns =
    s.front.stats.deaths + s.front.stats.retired + s.shutdowns + s.front.running.isSome.toNat
  started : s.place.started = true → s.front.running.isSome = true
  waiting : ∀ op retried notBefore, s.place = .waiting op retried notBefore →
    s.front.running = none ∧ s.front.notBefore = none
  backoff : s.front.backoff = delay cfg s.streak.length
  window : s.front.deaths = inWindow cfg s.streak
  sorted : s.streak.Pairwise (· ≤ ·)
  past : ∀ t ∈ s.streak, t ≤ s.now
  newest : ∀ death, s.newest = some death →
    death.time ≤ s.now ∧ death.delay = delay cfg death.rank ∧ (s.streak ≠ [] → death.rank + 1 = s.streak.length)
  failed : ∀ u, s.front.failedUntil = some u →
    s.front.running = none ∧ s.place = .idle ∧ ∃ death, s.newest = some death ∧ u = death.time + cfg.failedCooldown
  limit : s.front.failedUntil = none → s.front.deaths = [] ∨ s.front.deaths.length < cfg.deathLimit
  restart : ∀ death, s.newest = some death → death.time + min death.delay cfg.failedCooldown ≤ s.now ∨
    s.front.notBefore = some (death.time + death.delay) ∨
      ∃ op retried, s.place = .waiting op retried (some (death.time + death.delay))

/-! ## 4. What each part of a step keeps -/

variable {cfg}

/-- What is dropped from the front of a list is all there is to drop, where it comes first. -/
theorem dropWhile_eq_filter {β : Type} (p : β → Bool) : ∀ l : List β,
    l.Pairwise (fun a b => p b = true → p a = true) → l.dropWhile p = l.filter fun a => !p a
  | [], _ => rfl
  | a :: l, h => by
    obtain ⟨ha, hl⟩ := List.pairwise_cons.mp h
    cases hpa : p a with
    | true =>
      rw [List.dropWhile_cons_of_pos hpa, List.filter_cons_of_neg (by simp [hpa])]
      exact dropWhile_eq_filter p l hl
    | false =>
      rw [List.dropWhile_cons_of_neg (by simp [hpa]), eq_comm, List.filter_eq_self]
      intro x hx
      rcases List.mem_cons.mp hx with rfl | hx
      · simp [hpa]
      · cases hpx : p x with
        | false => rfl
        | true => exact absurd (ha x hx hpx) (by simp [hpa])

/-- Times too long before now are the first of an ordered list. -/
theorem dropWhile_old (now window : ℕ) {l : List ℕ} (h : l.Pairwise (· ≤ ·)) :
    l.dropWhile (fun t => decide (window < now - t)) = l.filter fun t => decide (now - t ≤ window) := by
  rw [dropWhile_eq_filter]
  · refine List.filter_congr fun t _ => ?_
    by_cases ht : now - t ≤ window
    · simp only [ht, decide_true, Bool.not_eq_true', decide_eq_false_iff_not, Nat.not_lt]
    · simp only [ht, decide_false, Bool.not_eq_false', decide_eq_true_eq]
      omega
  · refine h.imp fun hle hlt => ?_
    simp only [decide_eq_true_eq] at hlt ⊢
    omega

/-- **The deaths kept are those of the streak in the window** of the newest. -/
theorem recordDeath_window {streak : List ℕ} {now : ℕ} (hsorted : streak.Pairwise (· ≤ ·))
    (hpast : ∀ t ∈ streak, t ≤ now) :
    (inWindow cfg streak ++ [now]).dropWhile (fun t => decide (cfg.deathWindow < now - t)) =
      inWindow cfg (streak ++ [now]) := by
  have hsub : (inWindow cfg streak).Sublist streak := by
    unfold inWindow
    split
    · exact List.nil_sublist _
    · exact List.filter_sublist
  have hall : (inWindow cfg streak ++ [now]).Pairwise (· ≤ ·) := by
    refine List.pairwise_append.mpr ⟨hsorted.sublist hsub, List.pairwise_singleton _ _, fun t ht x hx => ?_⟩
    rw [List.mem_singleton.mp hx]
    exact hpast t (hsub.subset ht)
  have hlast : inWindow cfg (streak ++ [now]) =
      (streak ++ [now]).filter fun t => decide (now - t ≤ cfg.deathWindow) := by
    rw [inWindow, List.getLast?_concat]
  rw [dropWhile_old now cfg.deathWindow hall, hlast, List.filter_append, List.filter_append]
  refine congrArg (· ++ _) ?_
  unfold inWindow
  split
  · rename_i hnil
    rw [List.getLast?_eq_none_iff.mp hnil]
  · rename_i newest hnewest
    have hle : newest ≤ now := hpast newest (List.mem_of_getLast? hnewest)
    rw [List.filter_filter]
    refine List.filter_congr fun t _ => ?_
    by_cases ht : now - t ≤ cfg.deathWindow
    · simp only [ht, decide_true, Bool.true_and, decide_eq_true_eq]
      omega
    · simp [ht]

/-- A front end that waits for nothing. -/
def Place.settled : Place → Bool
  | .waiting _ _ _ => false
  | _ => true

/-- The delay of the newest death is kept where a settled front end stays one. -/
theorem Sound.restart_settled {s : Life} (h : Sound cfg s) (hplace : s.place.settled = true)
    {death : Recorded} (hnewest : s.newest = some death) :
    death.time + min death.delay cfg.failedCooldown ≤ s.now ∨
      s.front.notBefore = some (death.time + death.delay) := by
  rcases h.restart death hnewest with hover | hbefore | ⟨op, retried, hwaiting⟩
  · exact .inl hover
  · exact .inr hbefore
  · rw [hwaiting] at hplace
    simp [Place.settled] at hplace

/-- Back between requests. -/
theorem Sound.settle {s : Life} (h : Sound cfg s) (hplace : s.place.settled = true) :
    Sound cfg { s with place := .idle } where
  accounted := h.accounted
  started := fun hstarted => absurd hstarted (by simp [Place.started])
  waiting := fun _ _ _ hwaiting => absurd hwaiting (by simp)
  backoff := h.backoff
  window := h.window
  sorted := h.sorted
  past := h.past
  newest := h.newest
  failed := fun u hu => ⟨(h.failed u hu).1, rfl, (h.failed u hu).2.2⟩
  limit := h.limit
  restart := fun _ hnewest => (h.restart_settled hplace hnewest).imp_right .inl

theorem Sound.die {s : Life} (h : Sound cfg s) (hplace : s.place.settled = true) : Sound cfg (s.die cfg) := by
  unfold Life.die
  cases hrunning : s.front.running with
  | none => exact h.settle hplace
  | some since =>
    have haccounted := h.accounted
    rw [hrunning] at haccounted
    have hwindow : (s.front.deaths ++ [s.now]).dropWhile (fun t => decide (cfg.deathWindow < s.now - t)) =
        inWindow cfg (s.streak ++ [s.now]) := by
      rw [h.window]
      exact recordDeath_window h.sorted h.past
    have hlive : s.front.failedUntil = none := by
      cases hfailed : s.front.failedUntil with
      | none => rfl
      | some u =>
        have := (h.failed u hfailed).1
        rw [hrunning] at this
        simp at this
    refine ⟨?_, fun hstarted => absurd hstarted (by simp [Place.started]), fun _ _ _ hwaiting => absurd hwaiting (by simp),
      ?_, hwindow, ?_, ?_, fun death hnewest => ?_, fun u hu => ?_, fun hnone => ?_, fun death hnewest => ?_⟩
    · simp only [EngineFront.recordDeath, Option.isSome_some, Option.isSome_none, Bool.toNat_true,
        Bool.toNat_false] at haccounted ⊢
      omega
    · rw [List.length_append, List.length_singleton, delay, ← h.backoff]
      rfl
    · exact List.pairwise_append.mpr ⟨h.sorted, List.pairwise_singleton _ _, fun t ht x hx =>
        List.mem_singleton.mp hx ▸ h.past t ht⟩
    · intro t ht
      rcases List.mem_append.mp ht with ht | ht
      · exact h.past t ht
      · exact Nat.le_of_eq (List.mem_singleton.mp ht)
    · cases hnewest
      exact ⟨Nat.le_refl _, h.backoff, fun _ => by simp⟩
    · simp only [EngineFront.recordDeath] at hu
      split at hu
      · cases hu
        exact ⟨rfl, rfl, ⟨s.now, s.front.backoff, s.streak.length⟩, rfl, rfl⟩
      · rw [hlive] at hu
        simp at hu
    · simp only [EngineFront.recordDeath] at hnone ⊢
      split at hnone
      · simp at hnone
      · rename_i hlimit
        exact .inr (Nat.not_le.mp hlimit)
    · cases hnewest
      exact .inr (.inl rfl)

theorem Sound.retire {s : Life} (h : Sound cfg s) (hplace : s.place.settled = true) : Sound cfg s.retire := by
  unfold Life.retire
  cases hrunning : s.front.running with
  | none => exact h.settle hplace
  | some since =>
    have haccounted := h.accounted
    rw [hrunning] at haccounted
    refine ⟨?_, fun hstarted => absurd hstarted (by simp [Place.started]), fun _ _ _ hwaiting => absurd hwaiting (by simp),
      h.backoff, h.window, h.sorted, h.past, h.newest, fun u hu => ⟨rfl, rfl, (h.failed u hu).2.2⟩, h.limit,
      fun _ hnewest => (h.restart_settled hplace hnewest).imp_right .inl⟩
    simp only [Option.isSome_some, Option.isSome_none, Bool.toNat_true, Bool.toNat_false] at haccounted ⊢
    omega

/-- A success: the deaths before it no longer count. -/
theorem Sound.resetBackoff {s : Life} (h : Sound cfg s) : Sound cfg (s.resetBackoff cfg) where
  accounted := h.accounted
  started := h.started
  waiting := h.waiting
  backoff := rfl
  window := rfl
  sorted := List.Pairwise.nil
  past := fun _ ht => absurd ht (by simp [Life.resetBackoff])
  newest := fun death hnewest =>
    ⟨(h.newest death hnewest).1, (h.newest death hnewest).2.1, fun hne => absurd rfl hne⟩
  failed := h.failed
  limit := fun _ => .inl rfl
  restart := h.restart

/-- A reset once the refusal is over. -/
theorem Sound.reset {s : Life} (h : Sound cfg s) {u : ℕ} (hfailed : s.front.failedUntil = some u)
    (hover : u ≤ s.now) : Sound cfg (s.reset cfg) where
  accounted := h.accounted
  started := h.started
  waiting := fun _ _ _ hwaiting => ⟨(h.waiting _ _ _ hwaiting).1, rfl⟩
  backoff := rfl
  window := rfl
  sorted := List.Pairwise.nil
  past := fun _ ht => absurd ht (by simp [Life.reset])
  newest := fun death hnewest =>
    ⟨(h.newest death hnewest).1, (h.newest death hnewest).2.1, fun hne => absurd rfl hne⟩
  failed := fun u hu => absurd hu (by simp [Life.reset, EngineFront.reset, EngineFront.resetBackoff])
  limit := fun _ => .inl rfl
  restart := fun death hnewest => by
    obtain ⟨-, -, death', hnewest', rfl⟩ := h.failed u hfailed
    have hnewest : s.newest = some death := hnewest
    rw [hnewest'] at hnewest
    cases hnewest
    exact .inl ((Nat.add_le_add_left (min_le_right _ _) _).trans hover)

theorem Sound.toStart {s : Life} (h : Sound cfg s) (hplace : s.place.settled = true) (hrunning : s.front.running = none)
    (hlive : s.front.failedUntil = none) (op : Op) (retried : Bool) : Sound cfg (s.toStart op retried) where
  accounted := h.accounted
  started := fun hstarted => absurd hstarted (by simp [Life.toStart, Place.started])
  waiting := fun _ _ _ _ => ⟨hrunning, rfl⟩
  backoff := h.backoff
  window := h.window
  sorted := h.sorted
  past := h.past
  newest := h.newest
  failed := fun u hu => absurd (hlive.symm.trans hu) (by simp)
  limit := h.limit
  restart := fun _ hnewest => (h.restart_settled hplace hnewest).imp_right fun hbefore =>
    .inr ⟨op, retried, by rw [Life.toStart, hbefore]⟩

theorem Op.ready_settled (op : Op) (retried : Bool) : (op.ready retried).settled = true := by
  cases op <;> rfl

/-- A front end whose child runs goes on to its call. -/
theorem Sound.ready {s : Life} (h : Sound cfg s) (hplace : s.place.settled = true) {since : ℕ}
    (hrunning : s.front.running = some since) (op : Op) (retried : Bool) :
    Sound cfg { s with place := op.ready retried } where
  accounted := h.accounted
  started := fun _ => Option.isSome_iff_exists.mpr ⟨since, hrunning⟩
  waiting := fun _ _ _ hwaiting => by
    have hsettled := op.ready_settled retried
    have hwaiting : op.ready retried = _ := hwaiting
    rw [hwaiting] at hsettled
    simp [Place.settled] at hsettled
  backoff := h.backoff
  window := h.window
  sorted := h.sorted
  past := h.past
  newest := h.newest
  failed := fun u hu => absurd ((h.failed u hu).1.symm.trans hrunning) (by simp)
  limit := h.limit
  restart := fun _ hnewest => (h.restart_settled hplace hnewest).imp_right .inl

theorem Life.retire_settled (s : Life) : s.retire.place.settled = true := by
  unfold Life.retire
  split <;> rfl

theorem Life.retire_running (s : Life) : s.retire.front.running = none := by
  unfold Life.retire
  split
  · assumption
  · rfl

theorem Life.retire_failedUntil (s : Life) : s.retire.front.failedUntil = s.front.failedUntil := by
  unfold Life.retire
  split <;> rfl

theorem Sound.checkRunning {s : Life} (h : Sound cfg s) (hplace : s.place.settled = true)
    (hlive : s.front.failedUntil = none) (op : Op) (retried : Bool) (found : Option Life.Found) :
    Sound cfg (s.checkRunning cfg op retried found) := by
  unfold Life.checkRunning
  cases hrunning : s.front.running with
  | none => exact h.toStart hplace hrunning hlive op retried
  | some since =>
    rcases found with _ | (_ | _)
    · dsimp only
      split
      · exact h.resetBackoff.ready hplace hrunning op retried
      · exact h.ready hplace hrunning op retried
    · exact h.die hplace
    · exact (h.retire hplace).toStart s.retire_settled s.retire_running (s.retire_failedUntil.trans hlive) op retried

theorem Sound.ensureRunning {s : Life} (h : Sound cfg s) (hplace : s.place.settled = true) (op : Op)
    (retried : Bool) (found : Option Life.Found) : Sound cfg (s.ensureRunning cfg op retried found) := by
  unfold Life.ensureRunning
  split
  · rename_i u hfailed
    split
    · exact h.settle hplace
    · rename_i hover
      exact (h.reset hfailed (Nat.not_lt.mp hover)).checkRunning hplace rfl op retried found
  · rename_i hlive
    exact h.checkRunning hplace hlive op retried found

/-! ## 5. Every life -/

/-- **Every step keeps it.** -/
theorem step_sound {s s' : Life} {e : Life.Event} (hstep : Life.step cfg s e = some s') (h : Sound cfg s) :
    Sound cfg s' := by
  unfold Life.step at hstep
  cases e with
  | tick ms =>
    cases hstep
    exact ⟨h.accounted, h.started, h.waiting, h.backoff, h.window, h.sorted,
      fun t ht => (h.past t ht).trans (Nat.le_add_right _ _),
      fun death hnewest => ⟨(h.newest death hnewest).1.trans (Nat.le_add_right _ _), (h.newest death hnewest).2⟩,
      h.failed, h.limit, fun death hnewest => (h.restart death hnewest).imp_left fun hover =>
        hover.trans (Nat.le_add_right _ _)⟩
  | request op found =>
    dsimp only at hstep
    split at hstep
    · rename_i hplace
      cases hstep
      exact h.ensureRunning (by rw [hplace]; rfl) op false found
    · simp at hstep
  | spawn ok =>
    dsimp only at hstep
    split at hstep
    · rename_i op retried notBefore hplace
      split at hstep
      · rename_i hdelay
        have hrunning := (h.waiting _ _ _ hplace).1
        have hlive : s.front.failedUntil = none := by
          cases hfailed : s.front.failedUntil with
          | none => rfl
          | some u => exact absurd (hplace.symm.trans (h.failed u hfailed).2.1) (by simp)
        have hover : ∀ death, s.newest = some death →
            death.time + min death.delay cfg.failedCooldown ≤ s.now ∨
              s.front.notBefore = some (death.time + death.delay) := by
          intro death hnewest
          rcases h.restart death hnewest with hover | hbefore | ⟨op', retried', hwaiting⟩
          · exact .inl hover
          · exact .inr hbefore
          · rw [hplace] at hwaiting
            cases hwaiting
            have hpast : death.time + death.delay ≤ s.now := by simpa using hdelay
            exact .inl ((Nat.add_le_add_left (min_le_left _ _) _).trans hpast)
        split at hstep
        · cases hstep
          have haccounted := h.accounted
          rw [hrunning] at haccounted
          refine ⟨?_, fun _ => rfl, fun _ _ _ hwaiting => absurd hwaiting (by simp), h.backoff, h.window, h.sorted,
            h.past, h.newest, fun u hu => absurd (hlive.symm.trans hu) (by simp), h.limit,
            fun death hnewest => (hover death hnewest).imp_right .inl⟩
          simp only [Option.isSome_some, Option.isSome_none, Bool.toNat_true, Bool.toNat_false] at haccounted ⊢
          omega
        · cases hstep
          exact ⟨h.accounted, fun hstarted => absurd hstarted (by simp [Place.started]),
            fun _ _ _ hwaiting => absurd hwaiting (by simp), h.backoff, h.window, h.sorted, h.past, h.newest,
            fun u hu => absurd (hlive.symm.trans hu) (by simp), h.limit,
            fun death hnewest => (hover death hnewest).imp_right .inl⟩
      · simp at hstep
    · simp at hstep
  | hello ok =>
    dsimp only at hstep
    split at hstep
    · rename_i op retried hplace
      have hsettled : s.place.settled = true := by rw [hplace]; rfl
      have hrunning : s.front.running.isSome = true := h.started (by rw [hplace]; rfl)
      split at hstep
      · cases hstep
        have haccounted := h.accounted
        rw [hrunning] at haccounted
        refine ⟨haccounted, fun _ => rfl, fun _ _ _ hwaiting => absurd hwaiting (by simp), h.backoff, h.window,
          h.sorted, h.past, h.newest, fun u hu => ?_, h.limit,
          fun _ hnewest => (h.restart_settled hsettled hnewest).imp_right .inl⟩
        rw [(h.failed u hu).1] at hrunning
        simp at hrunning
      · cases hstep
        exact h.die hsettled
    · simp at hstep
  | opened outcome =>
    dsimp only at hstep
    split at hstep
    · rename_i op retried hplace
      have hsettled : s.place.settled = true := by rw [hplace]; rfl
      obtain ⟨since, hrunning⟩ := Option.isSome_iff_exists.mp (h.started (by rw [hplace]; rfl))
      cases outcome with
      | ok => cases hstep; exact h.ready hsettled hrunning op retried
      | error => cases hstep; exact h.die hsettled
      | died => cases hstep; exact h.die hsettled
      | retired => cases hstep; exact h.retire hsettled
    · simp at hstep
  | answered outcome =>
    dsimp only at hstep
    split at hstep
    · rename_i op retried hplace
      have hsettled : s.place.settled = true := by rw [hplace]; rfl
      cases outcome with
      | ok =>
        have hcomplete : Sound cfg s.complete := ⟨h.accounted, h.started, h.waiting, h.backoff, h.window, h.sorted,
          h.past, h.newest, h.failed, h.limit, h.restart⟩
        cases op with
        | ask => cases hstep; exact hcomplete.resetBackoff.settle hsettled
        | other => cases hstep; exact h.settle hsettled
        | start => cases hstep; exact h.settle hsettled
      | error => cases hstep; exact h.settle hsettled
      | died => cases hstep; exact h.die hsettled
      | retired =>
        cases op with
        | ask =>
          dsimp only at hstep
          split at hstep
          · cases hstep
            exact h.retire hsettled
          · cases hstep
            exact (h.retire hsettled).ensureRunning s.retire_settled .ask true none
        | other => cases hstep; exact h.retire hsettled
        | start => cases hstep; exact h.retire hsettled
    · simp at hstep
  | notifyFailed =>
    dsimp only at hstep
    split at hstep
    · rename_i hplace
      cases hstep
      exact h.die (by rw [hplace]; rfl)
    · simp at hstep
  | reset =>
    dsimp only at hstep
    split at hstep
    · rename_i hplace
      cases hstep
      exact ⟨h.accounted, h.started, fun _ _ _ hwaiting => ⟨(h.waiting _ _ _ hwaiting).1, rfl⟩, rfl, rfl,
        List.Pairwise.nil,
        fun _ ht => absurd ht (by simp [Life.reset]), fun _ hnewest => absurd hnewest (by simp),
        fun u hu => absurd hu (by simp [Life.reset, EngineFront.reset, EngineFront.resetBackoff]),
        fun _ => .inl rfl, fun _ hnewest => absurd hnewest (by simp)⟩
    · simp at hstep
  | shutdown =>
    dsimp only at hstep
    split at hstep
    · rename_i since hplace hrunning
      cases hstep
      have haccounted := h.accounted
      rw [hrunning] at haccounted
      refine ⟨?_, fun hstarted => absurd hstarted (by simp [hplace, Place.started]),
        fun _ _ _ hwaiting => absurd (hplace.symm.trans hwaiting) (by simp), h.backoff, h.window, h.sorted, h.past, h.newest, fun u hu => ⟨rfl, (h.failed u hu).2⟩, h.limit, h.restart⟩
      simp only [Option.isSome_some, Option.isSome_none, Bool.toNat_true, Bool.toNat_false] at haccounted ⊢
      omega
    · simp at hstep

theorem Life.Lives.sound {s : Life} (h : Life.Lives cfg s) : Sound cfg s :=
  Machine.Steps.inv (fun _ _ _ hs _ hstep => step_sound hstep hs) h
    ⟨rfl, fun hstarted => absurd hstarted (by simp [Life.born, Place.started]),
      fun _ _ _ hwaiting => absurd hwaiting (by simp [Life.born]), rfl, rfl, List.Pairwise.nil,
      fun _ ht => absurd ht (by simp [Life.born]), fun _ hnewest => absurd hnewest (by simp [Life.born]),
      fun _ hu => absurd hu (by simp [Life.born, EngineFront.new]), fun _ => .inl rfl,
      fun _ hnewest => absurd hnewest (by simp [Life.born])⟩

/-- **Every child is accounted for**: each that was started died, left for idleness or was shut down, and is
counted once; all but one at most have. -/
theorem children_accounted {s : Life} (h : Life.Lives cfg s) :
    s.front.stats.spawns =
      s.front.stats.deaths + s.front.stats.retired + s.shutdowns + s.front.running.isSome.toNat :=
  h.sound.accounted

theorem children_accounted_sample :
    ∃ s, Life.sampleLife = some s ∧ s.front.stats.spawns = 2 ∧ s.front.stats.spawns =
      s.front.stats.deaths + s.front.stats.retired + s.shutdowns + s.front.running.isSome.toNat :=
  ⟨_, rfl, rfl, children_accounted (Life.sampleLife_lives rfl)⟩

/-- A start comes from a wait, and has waited. -/
theorem spawn_waiting {s s' : Life} {ok : Bool} (hstep : Life.step cfg s (.spawn ok) = some s') :
    ∃ op retried notBefore, s.place = .waiting op retried notBefore ∧ ∀ t, notBefore = some t → t ≤ s.now := by
  unfold Life.step at hstep
  dsimp only at hstep
  split at hstep
  · rename_i op retried notBefore hplace
    split at hstep
    · rename_i hdelay
      exact ⟨op, retried, notBefore, hplace, fun t ht => by simpa [ht] using hdelay⟩
    · simp at hstep
  · simp at hstep

/-- **A restart waits**: when a child is started, the delay of the newest death since the last explicit
`reset`, or the refusal where that is shorter, is over.  The delay is the first one doubled for each death
that came before in its streak, up to the greatest; and where the backoff was not reset since, that death is
the last of the streak. -/
theorem restart_waits {s s' : Life} (h : Life.Lives cfg s) {ok : Bool}
    (hstep : Life.step cfg s (.spawn ok) = some s') {death : Recorded} (hnewest : s.newest = some death) :
    death.time + min death.delay cfg.failedCooldown ≤ s.now ∧ death.delay = delay cfg death.rank ∧
      (s.streak ≠ [] → death.rank + 1 = s.streak.length) := by
  obtain ⟨op, retried, notBefore, hplace, hpast⟩ := spawn_waiting hstep
  have hsound := h.sound
  refine ⟨?_, (hsound.newest death hnewest).2⟩
  rcases hsound.restart death hnewest with hover | hbefore | ⟨op', retried', hwaiting⟩
  · exact hover
  · rw [(hsound.waiting _ _ _ hplace).2] at hbefore
    simp at hbefore
  · rw [hplace] at hwaiting
    cases hwaiting
    exact (Nat.add_le_add_left (min_le_left _ _) _).trans (hpast _ rfl)

theorem restart_waits_sample :
    ∃ s s', Life.sampleLife = some s ∧ Life.step Life.sampleConfig s (.spawn true) = some s' ∧
      s.newest = some ⟨10, 20, 1⟩ ∧ 10 + min 20 500 ≤ s.now ∧ 20 = delay Life.sampleConfig 1 ∧
        (s.streak ≠ [] → 1 + 1 = s.streak.length) := by
  obtain ⟨s, s', hs, hstep, hnewest⟩ : ∃ s s', Life.sampleLife = some s ∧
      Life.step Life.sampleConfig s (.spawn true) = some s' ∧ s.newest = some ⟨10, 20, 1⟩ := ⟨_, _, rfl, rfl, rfl⟩
  exact ⟨s, s', hs, hstep, hnewest, restart_waits (Life.sampleLife_lives hs) hstep hnewest⟩

/-- **A storm of deaths stops the starts**: when a child is started, fewer than the limit of the deaths since
the backoff was last reset lie within the window of the newest of them. -/
theorem storm_stops {s s' : Life} (h : Life.Lives cfg s) (hlimit : 0 < cfg.deathLimit) {ok : Bool}
    (hstep : Life.step cfg s (.spawn ok) = some s') : (inWindow cfg s.streak).length < cfg.deathLimit := by
  obtain ⟨op, retried, notBefore, hplace, -⟩ := spawn_waiting hstep
  have hsound := h.sound
  have hlive : s.front.failedUntil = none := by
    cases hfailed : s.front.failedUntil with
    | none => rfl
    | some u => exact absurd (hplace.symm.trans (hsound.failed u hfailed).2.1) (by simp)
  rw [← hsound.window]
  rcases hsound.limit hlive with hnil | hlt
  · rw [hnil]
    exact hlimit
  · exact hlt

theorem storm_stops_sample :
    ∃ s s', Life.sampleLife = some s ∧ Life.step Life.sampleConfig s (.spawn true) = some s' ∧
      s.streak = [0, 10] ∧ (inWindow Life.sampleConfig s.streak).length < 3 := by
  obtain ⟨s, s', hs, hstep, hstreak⟩ : ∃ s s', Life.sampleLife = some s ∧
      Life.step Life.sampleConfig s (.spawn true) = some s' ∧ s.streak = [0, 10] := ⟨_, _, rfl, rfl, rfl⟩
  exact ⟨s, s', hs, hstep, hstreak, storm_stops (Life.sampleLife_lives hs) (Nat.zero_lt_succ 2) hstep⟩

end Operations

end AlSem.Host
