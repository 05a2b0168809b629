/-
# Breadth-first search with a label that weakens

A search from a seed, up to a depth, in which every node has a label: what the call it was reached by
makes of its callee's label.  A node reached again with another label gets the weakest label and is
expanded again; a node is expanded only once it is open, which a call that is not closed makes it.

The order in which the calls are made shows in the labels, so the result is stated twice over.

* **Nothing is invented** (`inv_step`): what is found, and the labels it is expanded with, are among
  what some order of the calls could give (`May`).
* **Nothing is missed** (`Sure.met`): what every order of the calls gives (`Sure`) is come upon.  One
  case is a chain of calls along which some labels are carried, the weakest among them
  (`mem_of_route`).

Where the two meet (`Steady`) the result is one set for every order of the calls (`mem_reorder`).
-/
import AlSem.Lib.HashMap
import AlSem.Lib.Loop
import Mathlib.Data.Finset.Card
import Mathlib.Data.Finset.Dedup

namespace Weakening

variable {κ ε L : Type*}

/-! ## 1. The search -/

/-- A graph of calls, from a node to the nodes that call it. -/
structure System (κ ε L : Type*) where
  callers : κ → List ε
  source : ε → κ
  /-- The label of the caller's side of a call, `none` when the call is out of the question. -/
  carry : κ → L → ε → Option L
  closed : ε → Bool
  weak : L
  depth : ℕ

/-- The labels of the nodes found, the open ones among them, and the nodes to expand. -/
structure Search (κ L : Type*) where
  reached : HashMap κ L
  opened : Finset κ
  queue : List (κ × ℕ)

variable [DecidableEq κ] [DecidableEq L]

/-- The open nodes when a call of `r` has been made. -/
def openedBy (closed : Bool) (opened : Finset κ) (r : κ) : Finset κ :=
  if closed then opened else insert r opened

/-- One call of the node `a`, which is expanded at depth `d` with the label `x`. -/
def arrive (S : System κ ε L) (a : κ) (d : ℕ) (x : L) (s : Search κ L) (e : ε) : Search κ L :=
  match S.carry a x e with
  | none => s
  | some new =>
    let r := S.source e
    let opened := openedBy (S.closed e) s.opened r
    match s.reached.lookup r with
    | none => ⟨s.reached.insert r new, opened, s.queue ++ [(r, d + 1)]⟩
    | some old =>
      if old = S.weak ∨ old = new then
        if S.closed e = false ∧ r ∉ s.opened then ⟨s.reached, opened, s.queue ++ [(r, d + 1)]⟩
        else ⟨s.reached, opened, s.queue⟩
      else ⟨s.reached.insert r S.weak, opened, s.queue ++ [(r, d + 1)]⟩

/-- Expand the next node of the queue, if it is open and not too deep. -/
def step (S : System κ ε L) (s : Search κ L) : Option (Search κ L) :=
  match s.queue with
  | [] => none
  | (a, d) :: rest =>
    let s' : Search κ L := { s with queue := rest }
    if S.depth ≤ d then some s'
    else if a ∈ s.opened then
      match s.reached.lookup a with
      | none => some s'
      | some x => some ((S.callers a).foldl (arrive S a d x) s')
    else some s'

/-- Before anything is expanded. -/
def initial (seed : κ) (x : L) : Search κ L :=
  ⟨AList.singleton seed x, {seed}, [(seed, 0)]⟩

/-- The whole search. -/
def run (S : System κ ε L) (fuel : ℕ) (seed : κ) (x : L) : Option (Search κ L) :=
  Loop.run (step S) fuel (initial seed x)

/-! ## 2. It ends -/

/-- What is still to come, in a universe of nodes: every node may be found, opened and weakened once,
each for one more expansion. -/
def left (S : System κ ε L) (U : Finset κ) (s : Search κ L) : ℕ :=
  s.queue.length + 2 * (U.filter fun r => s.reached.lookup r = none).card +
    (U.filter fun r => r ∉ s.opened).card + HashMap.count (fun x => decide (x ≠ S.weak)) s.reached

variable {S : System κ ε L} {U : Finset κ}

theorem card_filter_insert {p q : κ → Prop} [DecidablePred p] [DecidablePred q] {r : κ}
    (hr : r ∈ U) (hp : p r) (hq : ¬ q r) (hqp : ∀ a ∈ U, q a → p a) :
    (U.filter q).card + 1 ≤ (U.filter p).card := by
  have hsub : U.filter q ⊆ (U.filter p).erase r := by
    intro a ha
    obtain ⟨haU, haq⟩ := Finset.mem_filter.mp ha
    refine Finset.mem_erase.mpr ⟨?_, Finset.mem_filter.mpr ⟨haU, hqp a haU haq⟩⟩
    rintro rfl
    exact hq haq
  exact lt_of_le_of_lt (Finset.card_le_card hsub)
    (Finset.card_erase_lt_of_mem (Finset.mem_filter.mpr ⟨hr, hp⟩))

theorem card_opened_le (closed : Bool) (opened : Finset κ) (r : κ) :
    (U.filter fun a => a ∉ openedBy closed opened r).card ≤ (U.filter fun a => a ∉ opened).card := by
  refine Finset.card_le_card fun a ha => ?_
  obtain ⟨haU, hnot⟩ := Finset.mem_filter.mp ha
  refine Finset.mem_filter.mpr ⟨haU, fun hin => hnot ?_⟩
  unfold openedBy
  split
  · exact hin
  · exact Finset.mem_insert_of_mem hin

/-- **A call adds nothing to what is to come.** -/
theorem left_arrive {a : κ} {d : ℕ} {x : L} {s : Search κ L} {e : ε} (he : S.source e ∈ U) :
    left S U (arrive S a d x s e) ≤ left S U s := by
  unfold arrive
  split
  · exact le_rfl
  rename_i new _
  dsimp only
  have hopened := card_opened_le (U := U) (S.closed e) s.opened (S.source e)
  split
  · rename_i hnone
    have hfound : (U.filter fun r => (s.reached.insert (S.source e) new).lookup r = none).card + 1 ≤
        (U.filter fun r => s.reached.lookup r = none).card := by
      refine card_filter_insert he hnone (by rw [AList.lookup_insert]; simp) fun r _ hr => ?_
      by_cases h : r = S.source e
      · rw [h]
        exact hnone
      · rwa [AList.lookup_insert_ne h] at hr
    have hcount : HashMap.count (fun x => decide (x ≠ S.weak))
        (s.reached.insert (S.source e) new) ≤
        HashMap.count (fun x => decide (x ≠ S.weak)) s.reached + 1 := by
      rw [HashMap.count_insert, HashMap.count_eq_erase _ s.reached (S.source e)]
      split <;> omega
    simp only [left, List.length_append, List.length_singleton]
    omega
  · rename_i old hold
    split
    · split
      · rename_i hnew
        have hmem : (U.filter fun r => r ∉ openedBy (S.closed e) s.opened (S.source e)).card + 1 ≤
            (U.filter fun r => r ∉ s.opened).card := by
          have hself : ¬ S.source e ∉ openedBy (S.closed e) s.opened (S.source e) := by
            rw [openedBy, hnew.1]
            simp
          refine card_filter_insert he hnew.2 hself fun r _ hr hin => hr ?_
          rw [openedBy, hnew.1]
          exact Finset.mem_insert_of_mem hin
        simp only [left, List.length_append, List.length_singleton]
        omega
      · simp only [left]
        omega
    · rename_i hne
      rw [not_or] at hne
      have hfound : (U.filter fun r =>
          (s.reached.insert (S.source e) S.weak).lookup r = none).card ≤
          (U.filter fun r => s.reached.lookup r = none).card := by
        refine Finset.card_le_card fun r hr => ?_
        obtain ⟨hrU, hr⟩ := Finset.mem_filter.mp hr
        refine Finset.mem_filter.mpr ⟨hrU, ?_⟩
        by_cases h : r = S.source e
        · rw [h, AList.lookup_insert] at hr
          cases hr
        · rwa [AList.lookup_insert_ne h] at hr
      have hcount : HashMap.count (fun x => decide (x ≠ S.weak))
          (s.reached.insert (S.source e) S.weak) + 1 =
          HashMap.count (fun x => decide (x ≠ S.weak)) s.reached := by
        rw [HashMap.count_insert, HashMap.count_eq_erase _ s.reached (S.source e), hold]
        simp [hne.1]
      simp only [left, List.length_append, List.length_singleton]
      omega

theorem left_foldl {a : κ} {d : ℕ} {x : L} {es : List ε} (hes : ∀ e ∈ es, S.source e ∈ U)
    (s : Search κ L) : left S U (es.foldl (arrive S a d x) s) ≤ left S U s := by
  induction es generalizing s with
  | nil => exact le_rfl
  | cons e es ih =>
    rw [List.foldl_cons]
    exact (ih (fun e' he' => hes e' (List.mem_cons_of_mem _ he')) _).trans
      (left_arrive (hes e List.mem_cons_self))

/-- **Every expansion leaves less.** -/
theorem left_step (hU : ∀ a, ∀ e ∈ S.callers a, S.source e ∈ U) {s s' : Search κ L}
    (h : step S s = some s') : left S U s' < left S U s := by
  have hpop : ∀ {p : κ × ℕ} {rest : List (κ × ℕ)}, s.queue = p :: rest →
      left S U { s with queue := rest } < left S U s := by
    intro p rest hq
    simp only [left, hq, List.length_cons]
    omega
  unfold step at h
  split at h
  · cases h
  · rename_i a d rest hq
    dsimp only at h
    split at h
    · obtain rfl := Option.some.inj h
      exact hpop hq
    split at h
    · split at h
      · obtain rfl := Option.some.inj h
        exact hpop hq
      · obtain rfl := Option.some.inj h
        exact lt_of_le_of_lt (left_foldl (hU a) _) (hpop hq)
    · obtain rfl := Option.some.inj h
      exact hpop hq

/-- **The search ends**, where the callers come from a finite set of nodes. -/
theorem run_isSome (hU : ∀ a, ∀ e ∈ S.callers a, S.source e ∈ U) (seed : κ) (x : L) :
    ∃ fuel s, run S fuel seed x = some s ∧ s.queue = [] := by
  obtain ⟨s, hrun, -, hend⟩ := Loop.run_spec (step S) (fun _ => True) (left S U)
    (fun _ _ _ _ => trivial) (fun _ _ _ h => left_step hU h) (left S U (initial seed x) + 1)
    (initial seed x) trivial (Nat.lt_succ_self _)
  refine ⟨_, s, hrun, ?_⟩
  unfold step at hend
  split at hend
  · assumption
  · dsimp only at hend
    split at hend
    · cases hend
    split at hend
    · split at hend <;> cases hend
    · cases hend

/-! ## 3. Every call is answered -/

/-- `r` will be expanded, or has been, at depth `n` at most with the label `x` or the weakest; or `n`
is too deep. -/
def Ready (S : System κ ε L) (s : Search κ L) (walks : List (κ × L × ℕ)) (r : κ) (x : L) (n : ℕ) :
    Prop :=
  S.depth ≤ n ∨
    (∃ y d, (r, y, d) ∈ walks ∧ d ≤ n ∧ (y = x ∨ y = S.weak)) ∨
    ∃ d, (r, d) ∈ s.queue ∧ d ≤ n ∧ ∃ y, s.reached.lookup r = some y ∧ (y = x ∨ y = S.weak)

/-- The calls made: the seed's own, and those of the nodes expanded. -/
def Made (S : System κ ε L) (seed : κ) (x : L) (walks : List (κ × L × ℕ)) (r : κ) (y : L)
    (closed : Bool) (n : ℕ) : Prop :=
  (r = seed ∧ y = x ∧ closed = false ∧ n = 0) ∨
    ∃ a z d, (a, z, d) ∈ walks ∧ ∃ e ∈ S.callers a, S.carry a z e = some y ∧ S.source e = r ∧
      S.closed e = closed ∧ n = d + 1

/-- Two calls of `r` differ. -/
def Differ (made : κ → L → Bool → ℕ → Prop) (r : κ) : Prop :=
  ∃ y cy n z cz m, made r y cy n ∧ made r z cz m ∧ y ≠ z

/-- **The invariant**: every call made has been answered.  `walks` are the expansions so far and `c`
the depth of the last one. -/
structure Inv (S : System κ ε L) (made : κ → L → Bool → ℕ → Prop) (walks : List (κ × L × ℕ)) (c : ℕ)
    (s : Search κ L) : Prop where
  sorted : s.queue.Pairwise fun p q => p.2 ≤ q.2
  level : ∀ p ∈ s.queue, c ≤ p.2 ∧ p.2 ≤ c + 1
  deep : ∀ r y closed n, made r y closed n → n ≤ c + 1
  queued : ∀ p ∈ s.queue, ∃ y closed, made p.1 y closed p.2
  opened : ∀ r ∈ s.opened, ∃ y n, made r y false n
  /-- A label is the one every call had, or the weakest where two calls differed. -/
  label : ∀ r x, s.reached.lookup r = some x →
    (∃ closed n, made r x closed n) ∧ (∀ y closed n, made r y closed n → y = x) ∨
      x = S.weak ∧ Differ made r
  current : ∀ r ∈ s.opened, ∀ x, s.reached.lookup r = some x → Ready S s walks r x (c + 1)
  answered : ∀ r x closed n, made r x closed n → (∃ y, s.reached.lookup r = some y) ∧
    (closed = false → r ∈ s.opened ∧ Ready S s walks r x n)
  /-- Once two calls differ, and a third opens the node, it is expanded with the weakest label. -/
  cleared : ∀ r y z w cy cz n m k, made r y cy n → made r z cz m → y ≠ z → made r w false k →
    Ready S s walks r S.weak (max (max n m) k)
  past : ∀ r x d, (r, x, d) ∈ walks → d ≤ c
  /-- A node stands twice at one depth where it is cleared, or where it was queued closed and then
  opened. -/
  double : ∀ r d, 2 ≤ s.queue.count (r, d) → s.reached.lookup r = some S.weak ∨
    (∃ y, made r y true d) ∧ ∃ y, made r y false d
  again : ∀ r x d, (r, x, d) ∈ walks → (r, d) ∈ s.queue → x ≠ S.weak →
    (∃ y, made r y true d) ∧ ∃ y, made r y false d

variable {walks : List (κ × L × ℕ)} {s : Search κ L} {made : κ → L → Bool → ℕ → Prop} {c : ℕ}

omit [DecidableEq L] in
theorem Ready.mono {r : κ} {x : L} {n m : ℕ} (h : Ready S s walks r x n) (hnm : n ≤ m) :
    Ready S s walks r x m := by
  rcases h with h | ⟨y, d, hw, hd, hy⟩ | ⟨d, hq, hd, hy⟩
  · exact Or.inl (h.trans hnm)
  · exact Or.inr (Or.inl ⟨y, d, hw, hd.trans hnm, hy⟩)
  · exact Or.inr (Or.inr ⟨d, hq, hd.trans hnm, hy⟩)

omit [DecidableEq L] in
/-- What is ready with one label is ready with a label it answers. -/
theorem Ready.relabel {r : κ} {x z : L} {n : ℕ} (h : Ready S s walks r x n)
    (hx : x = S.weak ∨ x = z) : Ready S s walks r z n := by
  have hrel : ∀ y, y = x ∨ y = S.weak → y = z ∨ y = S.weak := by
    rintro y (rfl | hy)
    · exact hx.symm
    · exact Or.inr hy
  rcases h with h | ⟨y, d, hw, hd, hy⟩ | ⟨d, hq, hd, y, hl, hy⟩
  · exact Or.inl h
  · exact Or.inr (Or.inl ⟨y, d, hw, hd, hrel y hy⟩)
  · exact Or.inr (Or.inr ⟨d, hq, hd, y, hl, hrel y hy⟩)

/-- What a call does to a label: none, the first one, or the weakest in place of another. -/
theorem lookup_arrive (a : κ) (d : ℕ) (x : L) (s : Search κ L) (e : ε) (r : κ) {y : L}
    (h : s.reached.lookup r = some y) :
    (arrive S a d x s e).reached.lookup r = some y ∨
      (arrive S a d x s e).reached.lookup r = some S.weak := by
  unfold arrive
  split
  · exact Or.inl h
  dsimp only
  split
  · rename_i hnone
    refine Or.inl ?_
    have hne : r ≠ S.source e := by
      rintro rfl
      rw [hnone] at h
      cases h
    rw [AList.lookup_insert_ne hne]
    exact h
  · split
    · split <;> exact Or.inl h
    · by_cases hr : r = S.source e
      · right
        rw [hr, AList.lookup_insert]
      · left
        rw [AList.lookup_insert_ne hr]
        exact h

theorem queue_arrive (a : κ) (d : ℕ) (x : L) (s : Search κ L) (e : ε) :
    (arrive S a d x s e).queue = s.queue ∨
      (arrive S a d x s e).queue = s.queue ++ [(S.source e, d + 1)] := by
  unfold arrive
  split
  · exact Or.inl rfl
  dsimp only
  split
  · exact Or.inr rfl
  · split
    · split
      · exact Or.inr rfl
      · exact Or.inl rfl
    · exact Or.inr rfl

theorem opened_arrive {a : κ} {d : ℕ} {x y : L} {s : Search κ L} {e : ε}
    (h : S.carry a x e = some y) :
    (arrive S a d x s e).opened = openedBy (S.closed e) s.opened (S.source e) := by
  unfold arrive
  rw [h]
  dsimp only
  split
  · rfl
  · split
    · split <;> rfl
    · rfl

/-- A call queues its caller when it finds it, clears it, or opens it. -/
theorem queued_arrive (a : κ) (d : ℕ) (x : L) (s : Search κ L) (e : ε) :
    (arrive S a d x s e).queue = s.queue ∨
      (arrive S a d x s e).queue = s.queue ++ [(S.source e, d + 1)] ∧
        (s.reached.lookup (S.source e) = none ∨
          (arrive S a d x s e).reached.lookup (S.source e) = some S.weak ∨
          S.closed e = false ∧ S.source e ∉ s.opened) := by
  unfold arrive
  split
  · exact Or.inl rfl
  dsimp only
  split
  · exact Or.inr ⟨rfl, Or.inl ‹_›⟩
  · split
    · split
      · rename_i hopen
        exact Or.inr ⟨rfl, Or.inr (Or.inr hopen)⟩
      · exact Or.inl rfl
    · exact Or.inr ⟨rfl, Or.inr (Or.inl (AList.lookup_insert _))⟩

theorem Ready.arrive {r : κ} {z : L} {n : ℕ} (h : Ready S s walks r z n) (a : κ) (d : ℕ) (x : L)
    (e : ε) : Ready S (arrive S a d x s e) walks r z n := by
  rcases h with h | h | ⟨k, hq, hk, y, hl, hy⟩
  · exact Or.inl h
  · exact Or.inr (Or.inl h)
  · have hq' : (r, k) ∈ (Weakening.arrive S a d x s e).queue := by
      rcases queue_arrive (S := S) a d x s e with heq | heq <;> rw [heq]
      · exact hq
      · exact List.mem_append_left _ hq
    rcases lookup_arrive (S := S) a d x s e r hl with hl' | hl'
    · exact Or.inr (Or.inr ⟨k, hq', hk, y, hl', hy⟩)
    · exact Or.inr (Or.inr ⟨k, hq', hk, S.weak, hl', Or.inr rfl⟩)

theorem lookup_arrive_ne {a : κ} {d : ℕ} {x : L} {s : Search κ L} {e : ε} {r : κ}
    (hr : r ≠ S.source e) : (arrive S a d x s e).reached.lookup r = s.reached.lookup r := by
  unfold arrive
  split
  · rfl
  dsimp only
  split
  · exact AList.lookup_insert_ne hr
  · split
    · split <;> rfl
    · exact AList.lookup_insert_ne hr

/-- The caller's side of a call that is made: the first label, one that answers the call, or the weakest
in place of one that does not.  Where the call changed anything the caller is queued. -/
theorem arrive_source {a : κ} {d : ℕ} {x y : L} {s : Search κ L} {e : ε}
    (h : S.carry a x e = some y) :
    ∃ z, (arrive S a d x s e).reached.lookup (S.source e) = some z ∧
      (s.reached.lookup (S.source e) = none ∧ z = y ∨
        s.reached.lookup (S.source e) = some z ∧ (z = S.weak ∨ z = y) ∨
        z = S.weak ∧ ∃ old, s.reached.lookup (S.source e) = some old ∧ old ≠ S.weak ∧ old ≠ y) ∧
      ((S.source e, d + 1) ∈ (arrive S a d x s e).queue ∨
        s.reached.lookup (S.source e) = some z ∧
          (S.source e ∈ (arrive S a d x s e).opened → S.source e ∈ s.opened)) := by
  unfold arrive
  rw [h]
  dsimp only
  split
  · rename_i hnone
    exact ⟨y, AList.lookup_insert _, Or.inl ⟨hnone, rfl⟩, Or.inl (by simp)⟩
  · rename_i old hold
    split
    · rename_i hold'
      split
      · exact ⟨old, hold, Or.inr (Or.inl ⟨hold, hold'⟩), Or.inl (by simp)⟩
      · rename_i hnot
        refine ⟨old, hold, Or.inr (Or.inl ⟨hold, hold'⟩), Or.inr ⟨hold, fun hin => ?_⟩⟩
        by_contra hopen
        refine hnot ⟨?_, hopen⟩
        unfold openedBy at hin
        split at hin
        · exact absurd hin hopen
        · rename_i hcl
          exact Bool.eq_false_of_not_eq_true hcl
    · rename_i hne
      rw [not_or] at hne
      exact ⟨S.weak, AList.lookup_insert _, Or.inr (Or.inr ⟨rfl, old, hold, hne⟩), Or.inl (by simp)⟩

/-- The calls made and one call more. -/
def WithCall (S : System κ ε L) (made : κ → L → Bool → ℕ → Prop) (a : κ) (x : L) (d : ℕ) (e : ε)
    (r : κ) (y : L) (closed : Bool) (n : ℕ) : Prop :=
  made r y closed n ∨ S.carry a x e = some y ∧ S.source e = r ∧ S.closed e = closed ∧ n = d + 1

omit [DecidableEq L] in
theorem Inv.congr {made' : κ → L → Bool → ℕ → Prop} (hi : Inv S made walks c s)
    (h : ∀ r y closed n, made' r y closed n ↔ made r y closed n) : Inv S made' walks c s := by
  obtain rfl : made' = made := by
    funext r y closed n
    exact propext (h r y closed n)
  exact hi

/-- **One call is answered.** -/
theorem inv_arrive {a : κ} {x : L} (hi : Inv S made walks c s) (e : ε) :
    Inv S (WithCall S made a x c e) walks c (arrive S a c x s e) := by
  cases hcarry : S.carry a x e with
  | none =>
    have heq : arrive S a c x s e = s := by
      unfold arrive
      rw [hcarry]
    rw [heq]
    exact hi.congr fun r y closed n => by simp [WithCall, hcarry]
  | some y =>
    obtain ⟨z, hz, hzy, hsource⟩ := arrive_source (d := c) (s := s) hcarry
    have hopened := opened_arrive (d := c) (s := s) hcarry
    have hnew : ∀ {r w closed n}, WithCall S made a x c e r w closed n → made r w closed n ∨
        w = y ∧ r = S.source e ∧ closed = S.closed e ∧ n = c + 1 := by
      rintro r w closed n (h | ⟨hw, rfl, rfl, rfl⟩)
      · exact Or.inl h
      · exact Or.inr ⟨(Option.some.inj (hcarry.symm.trans hw)).symm, rfl, rfl, rfl⟩
    have hcall : WithCall S made a x c e (S.source e) y (S.closed e) (c + 1) :=
      Or.inr ⟨hcarry, rfl, rfl, rfl⟩
    have hmem : ∀ r, r ∈ (arrive S a c x s e).opened ↔
        r ∈ s.opened ∨ r = S.source e ∧ S.closed e = false := by
      intro r
      rw [hopened, openedBy]
      cases S.closed e <;> simp [or_comm]
    have hfound : ∀ r w closed n, WithCall S made a x c e r w closed n →
        ∃ v, (arrive S a c x s e).reached.lookup r = some v := by
      intro r w closed n h
      rcases hnew h with h | ⟨-, rfl, -, -⟩
      · obtain ⟨⟨v, hv⟩, -⟩ := hi.answered r w closed n h
        rcases lookup_arrive (S := S) a c x s e r hv with hv | hv <;> exact ⟨_, hv⟩
      · exact ⟨z, hz⟩
    have hlabel : ∀ r v, (arrive S a c x s e).reached.lookup r = some v →
        (∃ closed n, WithCall S made a x c e r v closed n) ∧
          (∀ w closed n, WithCall S made a x c e r w closed n → w = v) ∨
        v = S.weak ∧ Differ (WithCall S made a x c e) r := by
      have hdiffer : ∀ {r}, Differ made r → Differ (WithCall S made a x c e) r :=
        fun ⟨y, cy, n, z, cz, m, hy, hz, hne⟩ => ⟨y, cy, n, z, cz, m, Or.inl hy, Or.inl hz, hne⟩
      intro r v hv
      by_cases hr : r = S.source e
      · subst hr
        obtain rfl := Option.some.inj (hz.symm.trans hv)
        rcases hzy with ⟨hnone, rfl⟩ | ⟨hold, hzy⟩ | ⟨rfl, old, hold, hweak, hne⟩
        · refine Or.inl ⟨⟨_, _, hcall⟩, fun w closed n h => ?_⟩
          rcases hnew h with h | ⟨rfl, -⟩
          · obtain ⟨⟨v, hv⟩, -⟩ := hi.answered _ w closed n h
            rw [hnone] at hv
            cases hv
          · rfl
        · rcases hi.label _ z hold with ⟨⟨cl, n, hfirst⟩, hall⟩ | ⟨rfl, hd⟩
          · by_cases hyz : z = y
            · refine Or.inl ⟨⟨cl, n, Or.inl hfirst⟩, fun w closed m h => ?_⟩
              rcases hnew h with h | ⟨rfl, -⟩
              · exact hall w closed m h
              · exact hyz.symm
            · exact Or.inr ⟨hzy.resolve_right hyz, z, _, _, y, _, _, Or.inl hfirst, hcall, hyz⟩
          · exact Or.inr ⟨rfl, hdiffer hd⟩
        · rcases hi.label _ old hold with ⟨⟨cl, n, hfirst⟩, -⟩ | ⟨rfl, -⟩
          · exact Or.inr ⟨rfl, old, _, _, y, _, _, Or.inl hfirst, hcall, hne⟩
          · exact absurd rfl hweak
      · rw [lookup_arrive_ne hr] at hv
        rcases hi.label r v hv with ⟨⟨cl, n, hfirst⟩, hall⟩ | ⟨rfl, hd⟩
        · refine Or.inl ⟨⟨cl, n, Or.inl hfirst⟩, fun w closed m h => ?_⟩
          rcases hnew h with h | ⟨-, rfl, -⟩
          · exact hall w closed m h
          · exact absurd rfl hr
        · exact Or.inr ⟨rfl, hdiffer hd⟩
    have hcurrent : ∀ r ∈ (arrive S a c x s e).opened, ∀ w,
        (arrive S a c x s e).reached.lookup r = some w →
        Ready S (arrive S a c x s e) walks r w (c + 1) := by
      intro r hr w hw
      by_cases hrs : r = S.source e
      · subst hrs
        obtain rfl := Option.some.inj (hz.symm.trans hw)
        rcases hsource with hq | ⟨hl, hback⟩
        · exact Or.inr (Or.inr ⟨c + 1, hq, le_rfl, z, hz, Or.inl rfl⟩)
        · exact (hi.current _ (hback hr) z hl).arrive a c x e
      · rw [lookup_arrive_ne hrs] at hw
        exact (hi.current r (((hmem r).mp hr).resolve_right fun h => hrs h.1) w hw).arrive a c x e
    have hanswered : ∀ r w closed n, WithCall S made a x c e r w closed n → closed = false →
        r ∈ (arrive S a c x s e).opened ∧ Ready S (arrive S a c x s e) walks r w n := by
      intro r w closed n h hcl
      rcases hnew h with h | ⟨rfl, rfl, rfl, rfl⟩
      · obtain ⟨hro, hready⟩ := (hi.answered r w closed n h).2 hcl
        exact ⟨(hmem r).mpr (Or.inl hro), hready.arrive a c x e⟩
      · have hro := (hmem (S.source e)).mpr (Or.inr ⟨rfl, hcl⟩)
        refine ⟨hro, (hcurrent _ hro z hz).relabel ?_⟩
        rcases hzy with ⟨-, h⟩ | ⟨-, h⟩ | ⟨h, -⟩
        · exact Or.inr h
        · exact h
        · exact Or.inl h
    have hdouble : ∀ r d, 2 ≤ (arrive S a c x s e).queue.count (r, d) →
        (arrive S a c x s e).reached.lookup r = some S.weak ∨
          (∃ y, WithCall S made a x c e r y true d) ∧ ∃ y, WithCall S made a x c e r y false d := by
      have hold : ∀ r d, 2 ≤ s.queue.count (r, d) →
          (arrive S a c x s e).reached.lookup r = some S.weak ∨
            (∃ y, WithCall S made a x c e r y true d) ∧
              ∃ y, WithCall S made a x c e r y false d := by
        intro r d h
        rcases hi.double r d h with hw | ⟨⟨u, hu⟩, v, hv⟩
        · exact Or.inl ((lookup_arrive (S := S) a c x s e r hw).elim id id)
        · exact Or.inr ⟨⟨u, Or.inl hu⟩, v, Or.inl hv⟩
      intro r d h
      rcases queued_arrive (S := S) a c x s e with heq | ⟨heq, hwhy⟩
      · rw [heq] at h
        exact hold r d h
      rw [heq, List.count_append] at h
      by_cases hrd : (r, d) = (S.source e, c + 1)
      · obtain ⟨rfl, rfl⟩ := Prod.mk.inj hrd
        have hmem' : (S.source e, c + 1) ∈ s.queue := by
          rw [List.count_singleton_self] at h
          exact List.count_pos_iff.mp (by omega)
        obtain ⟨u, closed, hu⟩ := hi.queued _ hmem'
        rcases hwhy with hnone | hweak | ⟨hcl, hnot⟩
        · obtain ⟨⟨v, hv⟩, -⟩ := hi.answered _ u closed _ hu
          rw [hnone] at hv
          cases hv
        · exact Or.inl hweak
        · -- the first time it was queued closed
          cases closed with
          | false => exact absurd ((hi.answered _ u false _ hu).2 rfl).1 hnot
          | true => exact Or.inr ⟨⟨u, Or.inl hu⟩, y, hcl ▸ hcall⟩
      · have hzero : [(S.source e, c + 1)].count (r, d) = 0 :=
          List.count_eq_zero.mpr fun hin => hrd (List.mem_singleton.mp hin)
        rw [hzero] at h
        exact hold r d h
    have hagain : ∀ r w d, (r, w, d) ∈ walks → (r, d) ∈ (arrive S a c x s e).queue →
        w ≠ S.weak → (∃ y, WithCall S made a x c e r y true d) ∧
          ∃ y, WithCall S made a x c e r y false d := by
      intro r w d hw hq hne
      have hq' : (r, d) ∈ s.queue := by
        rcases queue_arrive (S := S) a c x s e with heq | heq <;> rw [heq] at hq
        · exact hq
        · rcases List.mem_append.mp hq with hq | hq
          · exact hq
          · -- what is queued now is deeper than what was expanded
            obtain ⟨-, rfl⟩ := Prod.mk.inj (List.mem_singleton.mp hq)
            exact absurd (hi.past r w _ hw) (by omega)
      obtain ⟨⟨u, hu⟩, v, hv⟩ := hi.again r w d hw hq' hne
      exact ⟨⟨u, Or.inl hu⟩, v, Or.inl hv⟩
    refine ⟨?_, ?_, ?_, ?_, ?_, hlabel, hcurrent, fun r w closed n h =>
      ⟨hfound r w closed n h, hanswered r w closed n h⟩, ?_, hi.past, hdouble, hagain⟩
    · rcases queue_arrive (S := S) a c x s e with heq | heq <;> rw [heq]
      · exact hi.sorted
      · refine List.pairwise_append.mpr ⟨hi.sorted, List.pairwise_singleton _ _, ?_⟩
        intro p hp q hq
        rw [List.mem_singleton] at hq
        subst hq
        exact (hi.level p hp).2
    · intro p hp
      rcases queue_arrive (S := S) a c x s e with heq | heq <;> rw [heq] at hp
      · exact hi.level p hp
      · rcases List.mem_append.mp hp with hp | hp
        · exact hi.level p hp
        · rw [List.mem_singleton] at hp
          subst hp
          exact ⟨Nat.le_succ c, le_rfl⟩
    · intro r w closed n h
      rcases hnew h with h | ⟨-, -, -, rfl⟩
      · exact hi.deep r w closed n h
      · exact le_rfl
    · intro p hp
      rcases queue_arrive (S := S) a c x s e with heq | heq <;> rw [heq] at hp
      · obtain ⟨w, closed, hw⟩ := hi.queued p hp
        exact ⟨w, closed, Or.inl hw⟩
      · rcases List.mem_append.mp hp with hp | hp
        · obtain ⟨w, closed, hw⟩ := hi.queued p hp
          exact ⟨w, closed, Or.inl hw⟩
        · rw [List.mem_singleton] at hp
          subst hp
          exact ⟨y, _, hcall⟩
    · intro r hr
      rcases (hmem r).mp hr with hr | ⟨rfl, hcl⟩
      · obtain ⟨w, n, hw⟩ := hi.opened r hr
        exact ⟨w, n, Or.inl hw⟩
      · exact ⟨y, _, hcl ▸ hcall⟩
    · intro r u v w cu cv n m k hu hv hne hw
      by_cases hold : made r u cu n ∧ made r v cv m ∧ made r w false k
      · exact (hi.cleared r u v w cu cv n m k hold.1 hold.2.1 hne hold.2.2).arrive a c x e
      -- one of the three is the new call
      have hlast : c + 1 ≤ max (max n m) k := by
        rcases hnew hu with hu | ⟨-, -, -, rfl⟩
        · rcases hnew hv with hv | ⟨-, -, -, rfl⟩
          · rcases hnew hw with hw | ⟨-, -, -, rfl⟩
            · exact absurd ⟨hu, hv, hw⟩ hold
            · omega
          · omega
        · omega
      have hro := (hanswered r w false k hw rfl).1
      obtain ⟨t, ht⟩ := hfound r u cu n hu
      rcases hlabel r t ht with ⟨-, hall⟩ | ⟨rfl, -⟩
      · exact absurd ((hall u cu n hu).trans (hall v cv m hv).symm) hne
      · exact (hcurrent r hro _ ht).mono hlast

/-- All the calls of a node. -/
theorem inv_calls {a : κ} {x : L} (es : List ε) (hi : Inv S made walks c s) :
    Inv S (fun r y closed n => made r y closed n ∨ ∃ e ∈ es,
        S.carry a x e = some y ∧ S.source e = r ∧ S.closed e = closed ∧ n = c + 1)
      walks c (es.foldl (arrive S a c x) s) := by
  induction es generalizing s made with
  | nil => exact hi.congr fun r y closed n => by simp
  | cons e es ih =>
    rw [List.foldl_cons]
    refine (ih (inv_arrive (x := x) hi e)).congr fun r y closed n => ?_
    simp [WithCall, or_assoc]

omit [DecidableEq L] in
/-- **The next of the queue is taken off**, where it is expanded, is closed, or is too deep. -/
theorem inv_pop {a : κ} {d : ℕ} {rest : List (κ × ℕ)} {walks' : List (κ × L × ℕ)}
    (hi : Inv S made walks c s) (hq : s.queue = (a, d) :: rest) (hw : walks ⊆ walks')
    (hnew : ∀ r x k, (r, x, k) ∈ walks' → (r, x, k) ∈ walks ∨
      r = a ∧ k = d ∧ s.reached.lookup a = some x)
    (ha : S.depth ≤ d ∨ a ∉ s.opened ∨ ∃ x, s.reached.lookup a = some x ∧ (a, x, d) ∈ walks') :
    Inv S made walks' d { s with queue := rest } := by
  have hlevel := hi.level
  have hsorted := hi.sorted
  rw [hq] at hlevel hsorted
  obtain ⟨hhead, hrest⟩ := List.pairwise_cons.mp hsorted
  have hd := (hlevel (a, d) List.mem_cons_self).1
  have hready : ∀ r ∈ s.opened, ∀ x n, Ready S s walks r x n →
      Ready S { s with queue := rest } walks' r x n := by
    intro r hr x n h
    rcases h with h | ⟨y, k, hk, hkn, hy⟩ | ⟨k, hk, hkn, y, hl, hy⟩
    · exact Or.inl h
    · exact Or.inr (Or.inl ⟨y, k, hw hk, hkn, hy⟩)
    · rw [hq] at hk
      rcases List.mem_cons.mp hk with heq | hk
      · obtain ⟨rfl, rfl⟩ := Prod.mk.inj heq
        rcases ha with hdeep | hclosed | ⟨z, hz, hzw⟩
        · exact Or.inl (hdeep.trans hkn)
        · exact absurd hr hclosed
        · obtain rfl := Option.some.inj (hl.symm.trans hz)
          exact Or.inr (Or.inl ⟨y, k, hzw, hkn, hy⟩)
      · exact Or.inr (Or.inr ⟨k, hk, hkn, y, hl, hy⟩)
  refine ⟨hrest, fun p hp => ⟨hhead p hp, ?_⟩, fun r y closed n h => ?_,
    fun p hp => hi.queued p (hq ▸ List.mem_cons_of_mem _ hp), hi.opened, hi.label,
    fun r hr x hx => ?_, fun r x closed n hm => ?_, fun r y z w cy cz n m k hy hz hne hw => ?_,
    fun r x k hk => ?_, fun r k hk => ?_, fun r x k hk hq' hne => ?_⟩
  · have := (hlevel p (List.mem_cons_of_mem _ hp)).2
    omega
  · have := hi.deep r y closed n h
    omega
  · exact (hready r hr x _ (hi.current r hr x hx)).mono (by omega)
  · obtain ⟨hfound, hopen⟩ := hi.answered r x closed n hm
    exact ⟨hfound, fun hcl => ⟨(hopen hcl).1, hready r (hopen hcl).1 x n (hopen hcl).2⟩⟩
  · exact hready r ((hi.answered r w false k hw).2 rfl).1 _ _
      (hi.cleared r y z w cy cz n m k hy hz hne hw)
  · rcases hnew r x k hk with hk | ⟨-, rfl, -⟩
    · exact (hi.past r x k hk).trans hd
    · exact le_rfl
  · refine hi.double r k (hk.trans ?_)
    rw [hq]
    exact List.count_le_count_cons
  · rcases hnew r x k hk with hk | ⟨rfl, rfl, hx⟩
    · exact hi.again r x k hk (hq ▸ List.mem_cons_of_mem _ hq') hne
    · -- it stood twice in the queue
      have htwice : 2 ≤ s.queue.count (r, k) := by
        have hrest : 0 < rest.count (r, k) := List.count_pos_iff.mpr hq'
        rw [hq, List.count_cons_self]
        omega
      refine (hi.double r k htwice).resolve_left fun hweak => hne ?_
      exact Option.some.inj (hx.symm.trans hweak)

variable {seed : κ} {x₀ : L}

omit [DecidableEq κ] [DecidableEq L] in
/-- The calls of one more node. -/
theorem made_cons {a : κ} {x : L} {d : ℕ} (r : κ) (y : L) (closed : Bool) (n : ℕ) :
    Made S seed x₀ ((a, x, d) :: walks) r y closed n ↔
    Made S seed x₀ walks r y closed n ∨ ∃ e ∈ S.callers a, S.carry a x e = some y ∧
      S.source e = r ∧ S.closed e = closed ∧ n = d + 1 := by
  constructor
  · rintro (hseed | ⟨b, z, k, hb, e, he, hcarry, hr, hcl, hn⟩)
    · exact Or.inl (Or.inl hseed)
    · rcases List.mem_cons.mp hb with heq | hb
      · cases heq
        exact Or.inr ⟨e, he, hcarry, hr, hcl, hn⟩
      · exact Or.inl (Or.inr ⟨b, z, k, hb, e, he, hcarry, hr, hcl, hn⟩)
  · rintro ((hseed | ⟨b, z, k, hb, hrest⟩) | hcalls)
    · exact Or.inl hseed
    · exact Or.inr ⟨b, z, k, List.mem_cons_of_mem _ hb, hrest⟩
    · exact Or.inr ⟨a, x, d, List.mem_cons_self, hcalls⟩

/-! ## 4. What some order gives, and what every order -/

/-- What a search may come upon: a call of `r` by the expansion of `a`, with a label, at a depth, and
an expansion. -/
inductive Fact (κ L : Type*) where
  | called (a r : κ) (y : L) (closed : Bool) (n : ℕ)
  | walks (r : κ) (x : L) (n : ℕ)

/-- A call of `r` at depth `l`, which the expansion of `a` makes, may have been made when `r` is
expanded at depth `n`: its depth is no greater, or `a` is another node of the same depth as `r`. -/
def Heard (r : κ) (n : ℕ) (a : κ) (l : ℕ) : Prop := l ≤ n ∨ l = n + 1 ∧ a ≠ r

/-- **What some order of the calls may give.**  A node queued by a call may be expanded with the label
of that call, unless that is ruled out, and with the weakest once two calls differ that it has heard;
or any two where it is queued closed and then opened, and so expanded twice. -/
inductive May (S : System κ ε L) (seed : κ) (x₀ : L) (out : κ → L → ℕ → Prop) : Fact κ L → Prop
  | seed : May S seed x₀ out (.called seed seed x₀ false 0)
  | called {a x e y n} : May S seed x₀ out (.walks a x n) → e ∈ S.callers a →
      S.carry a x e = some y → May S seed x₀ out (.called a (S.source e) y (S.closed e) (n + 1))
  | first {a b r y z closed n k} : May S seed x₀ out (.called a r y closed n) →
      May S seed x₀ out (.called b r z false k) → k ≤ n + 1 → n < S.depth → ¬ out r y n →
      May S seed x₀ out (.walks r y n)
  | weakened {q a b o r u y z w cu cy cz n l m k} : May S seed x₀ out (.called q r u cu n) →
      May S seed x₀ out (.called a r y cy l) → May S seed x₀ out (.called b r z cz m) → y ≠ z →
      Heard r n a l → Heard r n b m → May S seed x₀ out (.called o r w false k) → k ≤ n + 1 →
      n < S.depth → May S seed x₀ out (.walks r S.weak n)
  | again {q a b o r u y z w cy cz n l m} : May S seed x₀ out (.called q r u true n) →
      May S seed x₀ out (.called o r w false n) → May S seed x₀ out (.called a r y cy l) →
      May S seed x₀ out (.called b r z cz m) → y ≠ z → l ≤ n + 1 → m ≤ n + 1 → n < S.depth →
      May S seed x₀ out (.walks r S.weak n)

/-- What a search comes upon whatever the order of the calls: a call of a node with one of some labels,
no deeper than `n`, and an expansion with one of some labels. -/
inductive Certainty (κ L : Type*) where
  | called (r : κ) (P : L → Prop) (closed : Bool) (n : ℕ)
  | walks (r : κ) (P : L → Prop) (n : ℕ)

/-- **What every order of the calls gives.**  A call that opens its node has it expanded, with the label
of the call or the weakest; two calls that differ have it expanded with the weakest; a call that every
label of the expansion admits is made. -/
inductive Sure (S : System κ ε L) (seed : κ) (x₀ : L) (out : κ → L → ℕ → Prop) :
    Certainty κ L → Prop
  | seed : Sure S seed x₀ out (.called seed (· = x₀) false 0)
  | opened {r P Q n} : Sure S seed x₀ out (.called r P false n) → n < S.depth →
      (∀ x d, P x ∨ x = S.weak → d ≤ n → May S seed x₀ out (.walks r x d) → Q x) →
      Sure S seed x₀ out (.walks r Q n)
  | cleared {r P Q R cy cz n m k} : Sure S seed x₀ out (.called r P cy n) →
      Sure S seed x₀ out (.called r Q cz m) → (∀ x, P x → ¬ Q x) →
      Sure S seed x₀ out (.called r R false k) → max (max n m) k < S.depth →
      Sure S seed x₀ out (.walks r (· = S.weak) (max (max n m) k))
  | called {a P Q e n} : Sure S seed x₀ out (.walks a P n) → e ∈ S.callers a →
      (∀ x, P x → ∃ y, S.carry a x e = some y ∧ Q y) →
      Sure S seed x₀ out (.called (S.source e) Q (S.closed e) (n + 1))

/-- **What is ruled out is so for a reason**: by the depth of the expansion every order has made a call
of the node with another label. -/
def RuledOut (S : System κ ε L) (seed : κ) (x₀ : L) (out : κ → L → ℕ → Prop) : Prop :=
  ∀ r y n, out r y n → ∃ P closed m, m ≤ n ∧ Sure S seed x₀ out (.called r P closed m) ∧ ¬ P y

variable {out : κ → L → ℕ → Prop}

omit [DecidableEq κ] [DecidableEq L] in
theorem ruledOut_none : RuledOut S seed x₀ fun _ _ _ => False := fun _ _ _ h => h.elim

/-- What has been expanded is among what some order gives. -/
def Possible (S : System κ ε L) (seed : κ) (x₀ : L) (out : κ → L → ℕ → Prop)
    (walks : List (κ × L × ℕ)) : Prop :=
  ∀ a x d, (a, x, d) ∈ walks → May S seed x₀ out (.walks a x d)

omit [DecidableEq κ] [DecidableEq L] in
/-- A call made is among these, and but for the seed's own an expansion made it. -/
theorem Possible.may {r : κ} {y : L} {closed : Bool} {n : ℕ} (hw : Possible S seed x₀ out walks)
    (h : Made S seed x₀ walks r y closed n) : ∃ a, May S seed x₀ out (.called a r y closed n) ∧
      ∀ d, n = d + 1 → ∃ z, (a, z, d) ∈ walks := by
  rcases h with ⟨rfl, rfl, rfl, rfl⟩ | ⟨a, z, d, ha, e, he, hcarry, rfl, rfl, rfl⟩
  · exact ⟨r, .seed, fun d hd => absurd hd.symm (Nat.succ_ne_zero d)⟩
  · exact ⟨a, .called (hw a z d ha) he hcarry, fun k hk => ⟨z, Nat.succ.inj hk ▸ ha⟩⟩

/-- That a search has come upon it. -/
def Certainty.Met (S : System κ ε L) (seed : κ) (x₀ : L) (walks : List (κ × L × ℕ)) :
    Certainty κ L → Prop
  | .called r P closed n => ∃ y m, P y ∧ m ≤ n ∧ Made S seed x₀ walks r y closed m
  | .walks r P n => ∃ x d, P x ∧ d ≤ n ∧ (r, x, d) ∈ walks

/-- The queue is deep enough for it: what makes it is expanded. -/
def Certainty.Due (queue : List (κ × ℕ)) : Certainty κ L → Prop
  | .called _ _ _ n => ∀ p ∈ queue, n ≤ p.2
  | .walks _ _ n => ∀ p ∈ queue, n < p.2

omit [DecidableEq L] in
/-- **Nothing is missed.** -/
theorem Sure.met {f : Certainty κ L} (hi : Inv S (Made S seed x₀ walks) walks c s)
    (hw : Possible S seed x₀ out walks) (h : Sure S seed x₀ out f) (hdue : f.Due s.queue) :
    f.Met S seed x₀ walks := by
  have hwalked : ∀ {r x n N}, Ready S s walks r x n → n ≤ N → N < S.depth →
      (∀ p ∈ s.queue, N < p.2) → ∃ z d, (r, z, d) ∈ walks ∧ d ≤ N ∧ (z = x ∨ z = S.weak) := by
    intro r x n N h hn hN hqueue
    rcases h with h | ⟨z, d, hz, hd, hx⟩ | ⟨d, hq, hd, -⟩
    · omega
    · exact ⟨z, d, hz, hd.trans hn, hx⟩
    · exact absurd (hqueue _ hq) (by dsimp only; omega)
  induction h with
  | seed => exact ⟨x₀, 0, rfl, le_rfl, Or.inl ⟨rfl, rfl, rfl, rfl⟩⟩
  | @opened r P Q n _ hn hQ ih =>
    have hqueue : ∀ p ∈ s.queue, n < p.2 := hdue
    obtain ⟨y, m, hy, hm, hmade⟩ := ih fun p hp => (hqueue p hp).le
    obtain ⟨z, d, hz, hd, hzy⟩ :=
      hwalked ((hi.answered r y false m hmade).2 rfl).2 hm hn hqueue
    refine ⟨z, d, hQ z d ?_ hd (hw r z d hz), hd, hz⟩
    rcases hzy with rfl | h
    · exact Or.inl hy
    · exact Or.inr h
  | @cleared r P Q R cy cz n m k _ _ hPQ _ hn ih₁ ih₂ ih₃ =>
    have hqueue : ∀ p ∈ s.queue, max (max n m) k < p.2 := hdue
    have hle : ∀ {j}, j ≤ max (max n m) k → ∀ p ∈ s.queue, j ≤ p.2 :=
      fun hj p hp => hj.trans (hqueue p hp).le
    obtain ⟨y, n', hy, hn', hmade⟩ := ih₁ (hle (by omega))
    obtain ⟨z, m', hz, hm', hmade'⟩ := ih₂ (hle (by omega))
    obtain ⟨w, k', -, hk', hopen⟩ := ih₃ (hle (by omega))
    have hne : y ≠ z := by
      rintro rfl
      exact hPQ y hy hz
    obtain ⟨v, d, hv, hd, hvw⟩ := hwalked (hi.cleared r y z w cy cz n' m' k' hmade hmade' hne hopen)
      (max_le_max (max_le_max hn' hm') hk') hn hqueue
    exact ⟨v, d, or_self_iff.mp hvw, hd, hv⟩
  | @called a P Q e n _ he hP ih =>
    have hqueue : ∀ p ∈ s.queue, n + 1 ≤ p.2 := hdue
    obtain ⟨x, d, hx, hd, hwalk⟩ := ih fun p hp => hqueue p hp
    obtain ⟨y, hy, hQ⟩ := hP x hx
    exact ⟨y, d + 1, hQ, by omega, Or.inr ⟨a, x, d, hwalk, e, he, hy, rfl, rfl, rfl⟩⟩

/-! ## 5. Nothing is invented -/

omit [DecidableEq L] in
/-- What a node's calls so far have in common is not ruled out. -/
theorem Inv.not_out {a : κ} {x : L} {d : ℕ} (hi : Inv S (Made S seed x₀ walks) walks c s)
    (hw : Possible S seed x₀ out walks) (hout : RuledOut S seed x₀ out)
    (hd : ∀ p ∈ s.queue, d ≤ p.2)
    (hall : ∀ y closed n, Made S seed x₀ walks a y closed n → y = x) : ¬ out a x d := by
  intro h
  obtain ⟨P, closed, m, hm, hsure, hP⟩ := hout a x d h
  obtain ⟨y, n, hy, -, hmade⟩ := hsure.met hi hw fun p hp => hm.trans (hd p hp)
  exact hP (hall y closed n hmade ▸ hy)

omit [DecidableEq L] in
/-- The next expansion is among what some order gives. -/
theorem Inv.may_walk {a : κ} {x : L} {d : ℕ} (hi : Inv S (Made S seed x₀ walks) walks c s)
    (hw : Possible S seed x₀ out walks) (hout : RuledOut S seed x₀ out) (hq : (a, d) ∈ s.queue)
    (hfirst : ∀ p ∈ s.queue, d ≤ p.2) (hd : d < S.depth) (ha : a ∈ s.opened)
    (hx : s.reached.lookup a = some x) : May S seed x₀ out (.walks a x d) := by
  have hc := (hi.level _ hq).1
  obtain ⟨u, cu, hu⟩ := hi.queued _ hq
  obtain ⟨w, k, hk⟩ := hi.opened a ha
  have hkd := hi.deep _ _ _ _ hk
  obtain ⟨q, hmayu, -⟩ := hw.may hu
  obtain ⟨o, hmayo, -⟩ := hw.may hk
  rcases hi.label a x hx with ⟨-, hall⟩ | ⟨rfl, y, cy, l, z, cz, m, hy, hz, hne⟩
  · obtain rfl := hall u cu d hu
    exact .first hmayu hmayo (by omega) hd (hi.not_out hw hout hfirst hall)
  · have hl := hi.deep _ _ _ _ hy
    have hm := hi.deep _ _ _ _ hz
    obtain ⟨b, hmayy, hby⟩ := hw.may hy
    obtain ⟨b', hmayz, hbz⟩ := hw.may hz
    by_cases hself : ∃ v, (a, v, d) ∈ walks
    · obtain ⟨v, hv⟩ := hself
      by_cases hweak : v = S.weak
      · exact hweak ▸ hw a v d hv
      · obtain ⟨⟨t, ht⟩, t', ht'⟩ := hi.again a v d hv hq hweak
        obtain ⟨p, hmayt, -⟩ := hw.may ht
        obtain ⟨p', hmayt', -⟩ := hw.may ht'
        exact .again hmayt hmayt' hmayy hmayz hne (by omega) (by omega) hd
    · have hheard : ∀ {b l}, l ≤ c + 1 → (∀ d, l = d + 1 → ∃ z, (b, z, d) ∈ walks) →
          Heard a d b l := by
        intro b l hlc hb
        by_cases hle : l ≤ d
        · exact Or.inl hle
        · obtain rfl : l = d + 1 := by omega
          obtain ⟨v, hv⟩ := hb d rfl
          exact Or.inr ⟨rfl, fun hba => hself ⟨v, hba ▸ hv⟩⟩
      exact .weakened hmayu hmayy hmayz hne (hheard hl hby) (hheard hm hbz) hmayo (by omega) hd

/-- **One expansion** answers its calls and invents nothing. -/
theorem inv_step {s' : Search κ L} (hout : RuledOut S seed x₀ out)
    (hi : Inv S (Made S seed x₀ walks) walks c s) (hw : Possible S seed x₀ out walks)
    (h : step S s = some s') :
    ∃ walks' c', Inv S (Made S seed x₀ walks') walks' c' s' ∧ Possible S seed x₀ out walks' := by
  unfold step at h
  split at h
  · cases h
  rename_i a d rest hq
  dsimp only at h
  split at h
  · rename_i hdeep
    obtain rfl := Option.some.inj h
    exact ⟨walks, d, inv_pop hi hq (List.Subset.refl _) (fun _ _ _ h => Or.inl h) (Or.inl hdeep), hw⟩
  rename_i hdeep
  split at h
  · rename_i hopen
    obtain ⟨w, n, hn⟩ := hi.opened a hopen
    obtain ⟨x, hx⟩ := (hi.answered a w false n hn).1
    rw [hx] at h
    obtain rfl := Option.some.inj h
    have hadded : ∀ r y k, (r, y, k) ∈ (a, x, d) :: walks → (r, y, k) ∈ walks ∨
        r = a ∧ k = d ∧ s.reached.lookup a = some y := by
      intro r y k h
      rcases List.mem_cons.mp h with heq | h
      · cases heq
        exact Or.inr ⟨rfl, rfl, hx⟩
      · exact Or.inl h
    have hpop := inv_pop hi hq (List.subset_cons_self (a, x, d) walks) hadded
      (Or.inr (Or.inr ⟨x, hx, List.mem_cons_self⟩))
    have hsorted := hi.sorted
    rw [hq] at hsorted
    have hfirst : ∀ p ∈ s.queue, d ≤ p.2 := by
      intro p hp
      rw [hq] at hp
      rcases List.mem_cons.mp hp with rfl | hp
      · exact le_rfl
      · exact (List.pairwise_cons.mp hsorted).1 p hp
    refine ⟨(a, x, d) :: walks, d, (inv_calls (x := x) (S.callers a) hpop).congr made_cons, ?_⟩
    intro b z k hb
    rcases List.mem_cons.mp hb with heq | hb
    · cases heq
      exact hi.may_walk hw hout (by rw [hq]; exact List.mem_cons_self) hfirst (not_le.mp hdeep) hopen
        hx
    · exact hw b z k hb
  · rename_i hopen
    obtain rfl := Option.some.inj h
    exact ⟨walks, d, inv_pop hi hq (List.Subset.refl _) (fun _ _ _ h => Or.inl h)
      (Or.inr (Or.inl hopen)), hw⟩

omit [DecidableEq L] in
theorem inv_initial : Inv S (Made S seed x₀ []) [] 0 (initial seed x₀) := by
  have hl : (initial seed x₀).reached.lookup seed = some x₀ := by
    exact List.dlookup_cons_eq _ _ _
  have hready : ∀ n, Ready S (initial seed x₀) [] seed x₀ n := fun n =>
    Or.inr (Or.inr ⟨0, List.mem_singleton.mpr rfl, Nat.zero_le n, x₀, hl, Or.inl rfl⟩)
  have hmade : ∀ {r y closed n}, Made S seed x₀ [] r y closed n →
      r = seed ∧ y = x₀ ∧ closed = false ∧ n = 0 := by
    rintro r y closed n (h | ⟨a, z, d, hmem, -⟩)
    · exact h
    · exact absurd hmem List.not_mem_nil
  have hseed : Made S seed x₀ [] seed x₀ false 0 := Or.inl ⟨rfl, rfl, rfl, rfl⟩
  have honce : ∀ r d, (initial seed x₀).queue.count (r, d) ≤ 1 := fun r d =>
    List.count_le_length
  refine ⟨List.pairwise_singleton _ _, ?_, ?_, ?_, ?_, ?_, ?_, ?_, ?_,
    fun _ _ _ h => absurd h List.not_mem_nil, fun r d h => absurd (honce r d) (by omega),
    fun _ _ _ h => absurd h List.not_mem_nil⟩
  · intro p hp
    rw [List.mem_singleton.mp hp]
    exact ⟨le_rfl, Nat.zero_le 1⟩
  · intro r y closed n h
    rw [(hmade h).2.2.2]
    exact Nat.zero_le 1
  · intro p hp
    rw [List.mem_singleton.mp hp]
    exact ⟨x₀, false, hseed⟩
  · intro r hr
    obtain rfl := Finset.mem_singleton.mp hr
    exact ⟨x₀, 0, hseed⟩
  · intro r x hx
    have hmem : r ∈ AList.singleton (β := fun _ : κ => L) seed x₀ :=
      AList.lookup_isSome.mp (Option.isSome_iff_exists.mpr ⟨x, hx⟩)
    obtain rfl : r = seed := List.mem_singleton.mp hmem
    obtain rfl := Option.some.inj (hl.symm.trans hx)
    exact Or.inl ⟨⟨_, _, hseed⟩, fun y closed n h => (hmade h).2.1⟩
  · intro r hr x hx
    obtain rfl := Finset.mem_singleton.mp hr
    obtain rfl := Option.some.inj (hl.symm.trans hx)
    exact hready _
  · intro r y closed n h
    obtain ⟨rfl, rfl, rfl, rfl⟩ := hmade h
    exact ⟨⟨y, hl⟩, fun _ => ⟨Finset.mem_singleton_self _, hready _⟩⟩
  · intro r y z w cy cz n m k hy hz hne
    exact absurd ((hmade hy).2.1.trans (hmade hz).2.1.symm) hne

/-- The invariant at the end of a search. -/
theorem inv_of_run (hout : RuledOut S seed x₀ out) {fuel : ℕ} (h : run S fuel seed x₀ = some s) :
    ∃ walks c, Inv S (Made S seed x₀ walks) walks c s ∧ Possible S seed x₀ out walks :=
  @Loop.run_inv _ (step S)
    (fun s => ∃ walks c, Inv S (Made S seed x₀ walks) walks c s ∧ Possible S seed x₀ out walks)
    (fun _ _ ⟨_, _, hi, hw⟩ hst => inv_step hout hi hw hst) _ _ _
    ⟨[], 0, inv_initial, fun _ _ _ h => absurd h List.not_mem_nil⟩ h

omit [DecidableEq L] in
/-- What is found was called. -/
theorem Inv.called {r : κ} (hi : Inv S (Made S seed x₀ walks) walks c s) (hr : r ∈ s.reached) :
    ∃ y closed n, Made S seed x₀ walks r y closed n := by
  obtain ⟨x, hx⟩ := Option.isSome_iff_exists.mp (AList.lookup_isSome.mpr hr)
  rcases hi.label r x hx with ⟨⟨closed, n, h⟩, -⟩ | ⟨-, y, cy, n, -, -, -, h, -⟩
  · exact ⟨x, closed, n, h⟩
  · exact ⟨y, cy, n, h⟩

omit [DecidableEq L] in
theorem Inv.mem {r : κ} {y : L} {closed : Bool} {n : ℕ}
    (hi : Inv S (Made S seed x₀ walks) walks c s) (h : Made S seed x₀ walks r y closed n) :
    r ∈ s.reached := by
  obtain ⟨v, hv⟩ := (hi.answered r y closed n h).1
  exact AList.lookup_isSome.mp (by rw [hv]; rfl)

/-- **A chain of calls** from `a` up to a node, with the labels `P` carried along it: each of them is
carried by the call to one of the caller's labels, and the weakest is one of these.  No call but the
last is closed. -/
inductive Route (S : System κ ε L) : κ → (L → Prop) → ℕ → κ → Prop
  | here {a P} : Route S a P 0 a
  | call {a e P Q n r} : e ∈ S.callers a → (∀ x, P x → ∃ y, S.carry a x e = some y ∧ Q y) →
      Q S.weak → (n ≠ 0 → S.closed e = false) → Route S (S.source e) Q n r → Route S a P (n + 1) r

omit [DecidableEq κ] [DecidableEq L] in
/-- The end of a chain no longer than the depth is called. -/
theorem sure_of_route {a r : κ} {P : L → Prop} {n : ℕ} (h : Route S a P n r) {closed : Bool} {d : ℕ}
    (ha : Sure S seed x₀ out (.called a P closed d)) (hweak : P S.weak)
    (hcl : n ≠ 0 → closed = false) (hd : d + n ≤ S.depth) :
    ∃ Q closed m, Sure S seed x₀ out (.called r Q closed m) := by
  induction h generalizing closed d with
  | here => exact ⟨_, _, _, ha⟩
  | @call a e P Q n r he hcarry hQ hclosed _ ih =>
    obtain rfl := hcl (Nat.succ_ne_zero n)
    have hwalk : Sure S seed x₀ out (.walks a P d) := .opened ha (by omega) fun x _ hx _ _ => by
      rcases hx with hx | rfl
      · exact hx
      · exact hweak
    exact ih (.called hwalk he hcarry) hQ hclosed (by omega)

/-- What a chain no longer than the depth reaches is found. -/
theorem mem_of_route {fuel : ℕ} (h : run S fuel seed x₀ = some s) (hend : s.queue = [])
    {P : L → Prop} (hP : P x₀) (hweak : P S.weak) {n : ℕ} {r : κ} (hroute : Route S seed P n r)
    (hn : n ≤ S.depth) : r ∈ s.reached := by
  obtain ⟨walks, c, hi, hw⟩ := inv_of_run ruledOut_none h
  cases hroute with
  | here => exact hi.mem (Or.inl ⟨rfl, rfl, rfl, rfl⟩)
  | call he hcarry hQ hclosed hrest =>
    have hwalk : Sure S seed x₀ (fun _ _ _ => False) (.walks seed P 0) := .opened .seed (by omega) fun x _ hx _ _ => by
      rcases hx with rfl | rfl
      · exact hP
      · exact hweak
    obtain ⟨Q, closed, m, hsure⟩ :=
      sure_of_route hrest (.called hwalk he hcarry) hQ hclosed (by omega)
    obtain ⟨y, k, -, -, hmade⟩ := hsure.met hi hw (by rw [hend]; exact fun p hp => nomatch hp)
    exact hi.mem hmade

/-! ## 6. Every order of the calls -/

/-- The calls in another order. -/
def System.reorder (S : System κ ε L) (callers : κ → List ε) : System κ ε L :=
  { S with callers := callers }

variable {callers : κ → List ε}

omit [DecidableEq κ] [DecidableEq L] in
theorem May.reorder (hc : ∀ a, S.callers a ⊆ callers a) {f : Fact κ L} (h : May S seed x₀ out f) :
    May (S.reorder callers) seed x₀ out f := by
  induction h with
  | seed => exact .seed
  | called _ he hcarry ih => exact .called ih (hc _ he) hcarry
  | first _ _ hk hd hout ih₁ ih₂ => exact .first ih₁ ih₂ hk hd hout
  | weakened _ _ _ hne hl hm _ hk hd ih₁ ih₂ ih₃ ih₄ =>
    exact .weakened ih₁ ih₂ ih₃ hne hl hm ih₄ hk hd
  | again _ _ _ _ hne hl hm hd ih₁ ih₂ ih₃ ih₄ => exact .again ih₁ ih₂ ih₃ ih₄ hne hl hm hd

omit [DecidableEq κ] [DecidableEq L] in
theorem may_reorder (hc : ∀ a e, e ∈ callers a ↔ e ∈ S.callers a) (f : Fact κ L) :
    May (S.reorder callers) seed x₀ out f ↔ May S seed x₀ out f := by
  refine ⟨fun h => ?_, fun h => h.reorder fun a e he => (hc a e).mpr he⟩
  have h' := @May.reorder _ _ _ _ _ _ _ S.callers (fun a e he => (hc a e).mp he) _ h
  exact h'

omit [DecidableEq κ] [DecidableEq L] in
theorem Sure.reorder (hc : ∀ a e, e ∈ callers a ↔ e ∈ S.callers a) {f : Certainty κ L}
    (h : Sure S seed x₀ out f) : Sure (S.reorder callers) seed x₀ out f := by
  induction h with
  | seed => exact .seed
  | opened _ hn hQ ih =>
    exact .opened ih hn fun x d hx hd hmay => hQ x d hx hd ((may_reorder hc _).mp hmay)
  | cleared _ _ hPQ _ hn ih₁ ih₂ ih₃ => exact .cleared ih₁ ih₂ hPQ ih₃ hn
  | called _ he hP ih => exact .called ih ((hc _ _).mpr he) hP

end Weakening
