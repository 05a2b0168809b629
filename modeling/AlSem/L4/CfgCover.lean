/-
# Walks that cover paths

What is followed along a path is a history, and a history asks something of the walker's state.  A
walk covers a path when a state it gives for the path's outcome meets what the path's history asks.
Blocks, branches and loops pass cover on.  A loop has rounds enough because there are no more
histories than rounds: a head state that meets the next head's history stands for it, and where it
does not, the state of the next round meets one history more.
-/
import AlSem.L4.CfgShape

namespace AlSem.L4

open AlSem.Model

variable {ctx : WalkCtx}

/-! ## 1. What is followed along a path -/

/-- What the walk sees of a run: the nodes it takes, and `none` where it gives a subtree up. -/
abbrev Path := List (Option PCFNNode)

/-- A history of paths, and what it asks of a state. -/
structure Tracking where
  Hist : Type
  step : Hist → PCFNNode → Hist
  /-- Behind a subtree given up. -/
  blur : Hist → Hist
  Asks : Hist → PerParamState → Prop

namespace Tracking

variable (T : Tracking)

def run (h : T.Hist) (t : List PCFNNode) : T.Hist := t.foldl T.step h

def see (h : T.Hist) : Option PCFNNode → T.Hist
  | some n => T.step h n
  | none => T.blur h

/-- The history behind a path. -/
def walk (h : T.Hist) (p : Path) : T.Hist := p.foldl T.see h

@[simp] theorem run_nil (h : T.Hist) : T.run h [] = h := rfl

theorem run_append (h : T.Hist) (t₁ t₂ : List PCFNNode) :
    T.run h (t₁ ++ t₂) = T.run (T.run h t₁) t₂ :=
  List.foldl_append

theorem run_cons (h : T.Hist) (n : PCFNNode) (t : List PCFNNode) :
    T.run h (n :: t) = T.run (T.step h n) t := rfl

@[simp] theorem walk_nil (h : T.Hist) : T.walk h [] = h := rfl

theorem walk_append (h : T.Hist) (p₁ p₂ : Path) :
    T.walk h (p₁ ++ p₂) = T.walk (T.walk h p₁) p₂ :=
  List.foldl_append

theorem walk_cons (h : T.Hist) (n : PCFNNode) (p : Path) :
    T.walk h (some n :: p) = T.walk (T.step h n) p := rfl

end Tracking

/-- **What the walker's transfers owe a history.** -/
structure Lawful (ctx : WalkCtx) (T : Tracking) : Prop where
  join_left : ∀ {h a} b, T.Asks h a → T.Asks h (joinStates a b)
  join_right : ∀ {h} a {b}, T.Asks h b → T.Asks h (joinStates a b)
  saturate : ∀ {h s}, T.Asks h s → T.Asks h (saturateUnknown s)
  blur : ∀ {h s}, T.Asks h s → T.Asks (T.blur h) (saturateUnknown s)
  fieldRead : ∀ {h s} fa, T.Asks h s → T.Asks h (applyFieldRead ctx s fa)
  op : ∀ {h s n}, n.kind = .op → T.Asks h s → T.Asks (T.step h n) (walkOp ctx n s)
  call : ∀ {h s n}, n.kind = .call → T.Asks h s → T.Asks (T.step h n) (walkCall ctx n s)
  other : ∀ {n} h, n.kind ≠ .op → n.kind ≠ .call → T.step h n = h
  /-- There are no more histories than rounds of a loop. -/
  few : ∀ l : List T.Hist, l.Nodup → l.length ≤ loopBound

/-! ## 2. What a walk owes a run -/

/-- The states a walk keeps for an outcome that does not fall through. -/
def WalkResult.collected (r : WalkResult) (o : Outcome) : List PerParamState :=
  match o with
  | .broke => r.breaks
  | .continued => r.continues
  | _ => r.exits

/-- **The walk covers a path**: where the path falls through, the state behind is as asked, and
where it does not, one of the states kept for its outcome is. -/
def Covers (P : PerParamState → Prop) (o : Outcome) (r : WalkResult) : Prop :=
  o ≠ .failed →
    (o = .normal → r.reach = .normal ∧ P r.state) ∧ (o ≠ .normal → ∃ s ∈ r.collected o, P s)

variable {P Q : PerParamState → Prop}

theorem covers_normal {r : WalkResult} (hr : r.reach = .normal) (hs : P r.state) :
    Covers P .normal r :=
  fun _ => ⟨fun _ => ⟨hr, hs⟩, fun hne => absurd rfl hne⟩

theorem covers_of_mem {o : Outcome} {r : WalkResult} {s : PerParamState} (ho : o ≠ .normal)
    (hs : s ∈ r.collected o) (hP : P s) : Covers P o r :=
  fun _ => ⟨fun he => absurd he ho, fun _ => ⟨s, hs, hP⟩⟩

/-- Where a covered run falls through, it is seen to. -/
theorem Covers.reach {r : WalkResult} (hc : Covers P .normal r) : r.reach = .normal :=
  ((hc (by simp)).1 rfl).1

/-- Where a covered run falls through, the state behind is as asked. -/
theorem Covers.state {r : WalkResult} (hc : Covers P .normal r) : P r.state :=
  ((hc (by simp)).1 rfl).2

/-- A walk that keeps at least as much covers at least as much. -/
theorem Covers.mono {o : Outcome} {r q : WalkResult} (ho : o ≠ .normal)
    (hsub : r.collected o ⊆ q.collected o) (hc : Covers P o r) : Covers P o q := by
  intro hfail
  obtain ⟨s, hs, hP⟩ := (hc hfail).2 ho
  exact ⟨fun he => absurd he ho, fun _ => ⟨s, hsub hs, hP⟩⟩

theorem collected_andThen (r : WalkResult) (f : Transfer) (o : Outcome) :
    (r.andThen f).collected o = r.collected o ++ (f r.state).collected o := by
  cases o <;> rfl

theorem Covers.andThen_left {o : Outcome} {r : WalkResult} (ho : o ≠ .normal)
    (hc : Covers P o r) (f : Transfer) : Covers P o (r.andThen f) :=
  hc.mono ho (collected_andThen r f o ▸ List.subset_append_left _ _)

theorem Covers.andThen_right {o : Outcome} {r : WalkResult} {f : Transfer}
    (hc : Covers P o (f r.state)) : Covers P o (r.andThen f) := by
  intro hfail
  refine ⟨(hc hfail).1, fun ho => ?_⟩
  obtain ⟨s, hs, hP⟩ := (hc hfail).2 ho
  exact ⟨s, collected_andThen r f o ▸ List.mem_append_right _ hs, hP⟩

/-- One state as asked makes a join of many so. -/
theorem foldl_join_of_mem (hleft : ∀ a b, P a → P (joinStates a b))
    (hright : ∀ a b, P b → P (joinStates a b)) : ∀ {l : List PerParamState}
    {a x : PerParamState}, x ∈ a :: l → P x → P (l.foldl joinStates a)
  | [], a, x, hx, hs => by
    rw [List.mem_singleton] at hx
    exact hx ▸ hs
  | b :: l, a, x, hx, hs => by
    rw [List.foldl_cons]
    rcases List.mem_cons.mp hx with rfl | hx
    · exact foldl_join_of_mem hleft hright List.mem_cons_self (hleft _ b hs)
    · rcases List.mem_cons.mp hx with rfl | hx
      · exact foldl_join_of_mem hleft hright List.mem_cons_self (hright a _ hs)
      · exact foldl_join_of_mem hleft hright (List.mem_cons_of_mem _ hx) hs

variable {T : Tracking}

theorem Lawful.foldl_join (hT : Lawful ctx T) {h : T.Hist} {l : List PerParamState}
    {a x : PerParamState} (hx : x ∈ a :: l) (hs : T.Asks h x) :
    T.Asks h (l.foldl joinStates a) :=
  foldl_join_of_mem (fun _ b ha => hT.join_left b ha) (fun a _ hb => hT.join_right a hb) hx hs

/-- Field reads come between the statements and cost nothing. -/
theorem Lawful.runEvents_nil (hT : Lawful ctx T) {h : T.Hist} {es : List BlockEvent} :
    ∀ {s : PerParamState}, childrenOf es = [] → T.Asks h s →
      Covers (T.Asks h) .normal (runEvents ctx es s) := by
  induction es with
  | nil => exact fun _ hs => covers_normal rfl hs
  | cons e es ih =>
    intro s hes hs
    cases e with
    | child f => exact nomatch hes
    | field fa =>
      rw [runEvents]
      exact ih hes (hT.fieldRead fa hs)

theorem Lawful.runEvents_skip (hT : Lawful ctx T) {h : T.Hist} {f : Transfer}
    {fs : List Transfer} {es : List BlockEvent} :
    ∀ {s : PerParamState}, childrenOf es = f :: fs → T.Asks h s →
      ∃ (s' : PerParamState) (es' : List BlockEvent), T.Asks h s' ∧ childrenOf es' = fs ∧
        runEvents ctx es s = runEvents ctx (.child f :: es') s' := by
  induction es with
  | nil => exact fun hes => nomatch hes
  | cons e es ih =>
    intro s hes hs
    cases e with
    | child g =>
      obtain ⟨rfl, hrest⟩ := List.cons.inj hes
      exact ⟨s, es, hs, hrest, rfl⟩
    | field fa =>
      obtain ⟨s', es', hs', hes', hrun⟩ := ih hes (hT.fieldRead fa hs)
      exact ⟨s', es', hs', hes', by rw [runEvents, hrun]⟩

/-- A statement that does not fall through ends the block's run. -/
theorem Lawful.covers_stop (hT : Lawful ctx T) {h : T.Hist} {o : Outcome} {f : Transfer}
    {fs : List Transfer} {es : List BlockEvent} {s : PerParamState}
    (hes : childrenOf es = f :: fs) (hs : T.Asks h s) (ho : o ≠ .normal)
    (hf : ∀ s, T.Asks h s → Covers P o (f s)) : Covers P o (runEvents ctx es s) := by
  obtain ⟨s', es', hs', -, hrun⟩ := hT.runEvents_skip hes hs
  rw [hrun, runEvents]
  split
  · exact hf s' hs'
  · exact (hf s' hs').andThen_left ho _

/-- A statement that falls through is followed by the rest of the block. -/
theorem Lawful.covers_cons (hT : Lawful ctx T) {h h₁ : T.Hist} {o : Outcome} {f : Transfer}
    {fs : List Transfer} {es : List BlockEvent} {s : PerParamState}
    (hes : childrenOf es = f :: fs) (hs : T.Asks h s)
    (hf : ∀ s, T.Asks h s → Covers (T.Asks h₁) .normal (f s))
    (hrest : ∀ es s, childrenOf es = fs → T.Asks h₁ s → Covers P o (runEvents ctx es s)) :
    Covers P o (runEvents ctx es s) := by
  obtain ⟨s', es', hs', hes', hrun⟩ := hT.runEvents_skip hes hs
  have hcov := hf s' hs'
  rw [hrun, runEvents]
  simp only [hcov.reach]
  exact (hrest es' _ hes' hcov.state).andThen_right

/-! ## 3. Branches -/

theorem collected_walkIf (t e : Transfer) (s : PerParamState) (o : Outcome) :
    (walkIf t e s).collected o = (t s).collected o ++ (e s).collected o := by
  cases o <;> rfl

theorem Lawful.covers_then (hT : Lawful ctx T) {h : T.Hist} {o : Outcome} {t e : Transfer}
    {s : PerParamState} (hc : Covers (T.Asks h) o (t s)) :
    Covers (T.Asks h) o (walkIf t e s) := by
  intro hfail
  refine ⟨fun ho => ?_, fun ho => ?_⟩
  · obtain ⟨hreach, hs⟩ := (hc hfail).1 ho
    simp only [walkIf, hreach]
    cases (e s).reach with
    | normal => exact ⟨trivial, hT.join_left _ hs⟩
    | abrupt => exact ⟨trivial, hs⟩
  · obtain ⟨x, hx, hs⟩ := (hc hfail).2 ho
    exact ⟨x, collected_walkIf t e s o ▸ List.mem_append_left _ hx, hs⟩

theorem Lawful.covers_else (hT : Lawful ctx T) {h : T.Hist} {o : Outcome} {t e : Transfer}
    {s : PerParamState} (hc : Covers (T.Asks h) o (e s)) :
    Covers (T.Asks h) o (walkIf t e s) := by
  intro hfail
  refine ⟨fun ho => ?_, fun ho => ?_⟩
  · obtain ⟨hreach, hs⟩ := (hc hfail).1 ho
    simp only [walkIf, hreach]
    cases (t s).reach with
    | normal => exact ⟨rfl, hT.join_right _ hs⟩
    | abrupt => exact ⟨rfl, hs⟩
  · obtain ⟨x, hx, hs⟩ := (hc hfail).2 ho
    exact ⟨x, collected_walkIf t e s o ▸ List.mem_append_right _ hx, hs⟩

theorem collected_walkCase (hasElse : Bool) (fs : List Transfer) (s : PerParamState)
    (o : Outcome) : (walkCase hasElse fs s).collected o =
      (fs.map fun f => f s).flatMap fun r => r.collected o := by
  cases o <;> rfl

/-- A branch's run is covered by the case. -/
theorem Lawful.covers_case (hT : Lawful ctx T) {h : T.Hist} {o : Outcome} {hasElse : Bool}
    {fs : List Transfer} {f : Transfer} {s : PerParamState} (hf : f ∈ fs)
    (hc : Covers (T.Asks h) o (f s)) : Covers (T.Asks h) o (walkCase hasElse fs s) := by
  intro hfail
  refine ⟨fun ho => ?_, fun ho => ?_⟩
  · obtain ⟨hreach, hs⟩ := (hc hfail).1 ho
    have hmem : (f s).state ∈ ((fs.map fun f => f s).filter fun r => r.reach = .normal).map
        WalkResult.state :=
      List.mem_map_of_mem (List.mem_filter.mpr ⟨List.mem_map_of_mem hf, by simp [hreach]⟩)
    unfold walkCase
    dsimp only
    split
    · rename_i hnil
      rw [hnil] at hmem
      simp at hmem
    · rename_i p ps hcons
      rw [hcons] at hmem
      refine ⟨rfl, ?_⟩
      have hjoin : T.Asks h (ps.foldl joinStates p) := hT.foldl_join hmem hs
      dsimp only
      split
      · exact hjoin
      · exact hT.join_left _ hjoin
  · obtain ⟨x, hx, hs⟩ := (hc hfail).2 ho
    refine ⟨x, ?_, hs⟩
    rw [collected_walkCase]
    exact List.mem_flatMap.mpr ⟨f s, List.mem_map_of_mem hf, hx⟩

/-- Without an `else` the state before the case falls through. -/
theorem Lawful.covers_case_none (hT : Lawful ctx T) {h : T.Hist} {fs : List Transfer}
    {s : PerParamState} (hs : T.Asks h s) :
    Covers (T.Asks h) .normal (walkCase false fs s) := by
  unfold walkCase
  dsimp only
  split
  · exact covers_normal rfl hs
  · exact covers_normal rfl (hT.join_right _ hs)

/-! ## 4. Loops -/

/-- A covered round gives the condition a state as asked. -/
theorem Lawful.foldContinue (hT : Lawful ctx T) {h : T.Hist} {o : Outcome} {b : WalkResult}
    (pre : PerParamState) (ho : o.latches) (hc : Covers (T.Asks h) o b) :
    T.Asks h (foldContinueStates b.reach b.state pre b.continues) := by
  have hlive : ∃ x ∈ (if b.reach = .normal then [b.state] else []) ++ b.continues,
      T.Asks h x := by
    rcases ho with rfl | rfl
    · exact ⟨b.state, List.mem_append_left _ (by simp [hc.reach]), hc.state⟩
    · obtain ⟨x, hx, hs⟩ := (hc (by simp)).2 (by simp)
      exact ⟨x, List.mem_append_right _ hx, hs⟩
  obtain ⟨x, hx, hs⟩ := hlive
  unfold foldContinueStates
  dsimp only
  split
  · rename_i hnil
    rw [hnil] at hx
    simp at hx
  · rename_i m ms hcons
    rw [hcons] at hx
    exact hT.foldl_join hx hs

variable {body cond : Transfer}

/-- What one round of a loop gives, from a head state. -/
def roundResult (body cond : Transfer) (s : PerParamState) : WalkResult :=
  let b := body s
  let c := cond (foldContinueStates b.reach b.state s b.continues)
  { state := joinStates s c.state, exits := b.exits ++ c.exits, breaks := b.breaks ++ c.breaks }

/-- The head states of a loop stay as asked. -/
theorem Lawful.walkRounds_state (hT : Lawful ctx T) {h : T.Hist} :
    ∀ {k : ℕ} {s : PerParamState}, T.Asks h s → T.Asks h (walkRounds body cond k s).state
  | 0, _, hs => hT.saturate hs
  | k + 1, s, hs => by
    rw [walkRounds]
    dsimp only
    split
    · exact hT.join_left _ hs
    · exact hT.walkRounds_state (hT.join_left _ hs)

/-- The states a loop keeps for an outcome. -/
def LoopResult.collected (r : LoopResult) (o : Outcome) : List PerParamState :=
  match o with
  | .normal => r.state :: r.breaks
  | .broke => r.breaks
  | .continued => []
  | _ => r.exits

/-- What a round keeps, the loop keeps. -/
theorem collected_walkRounds_head (k : ℕ) (s : PerParamState) {o : Outcome}
    (ho : o = .broke ∨ o.leaves) :
    (roundResult body cond s).collected o ⊆ (walkRounds body cond (k + 1) s).collected o := by
  rw [walkRounds]
  dsimp only
  split
  · rcases ho with rfl | rfl | rfl | rfl <;> exact List.Subset.refl _
  · rcases ho with rfl | rfl | rfl | rfl <;>
      simp only [roundResult, WalkResult.collected, LoopResult.collected, ← List.append_assoc] <;>
      exact List.subset_append_left _ _

/-- What later rounds keep, the loop keeps. -/
theorem collected_walkRounds_tail (k : ℕ) {s : PerParamState}
    (hne : (roundResult body cond s).state ≠ s) (o : Outcome) :
    (walkRounds body cond k (roundResult body cond s).state).collected o ⊆
      (walkRounds body cond (k + 1) s).collected o := by
  have hrounds : walkRounds body cond (k + 1) s =
      let rest := walkRounds body cond k (roundResult body cond s).state
      { state := rest.state
        exits := (roundResult body cond s).exits ++ rest.exits
        breaks := (roundResult body cond s).breaks ++ rest.breaks } := by
    simp only [roundResult] at hne ⊢
    rw [walkRounds]
    dsimp only
    rw [if_neg hne]
    simp only [List.append_assoc]
  rw [hrounds]
  cases o with
  | normal =>
    intro x hx
    rcases List.mem_cons.mp hx with rfl | hx
    · exact List.mem_cons_self
    · exact List.mem_cons_of_mem _ (List.mem_append_right _ hx)
  | continued => exact List.Subset.refl _
  | _ => exact List.subset_append_right _ _

/-- A loop covers a run of its rounds. -/
def LoopCovers (P : PerParamState → Prop) (o : Outcome) (r : LoopResult) : Prop :=
  o ≠ .failed → ∃ s ∈ r.collected o, P s

/-- A head state that meets the history at the head, and the ones seen there before, with a round left
for each that it does not meet. -/
def Heads (T : Tracking) (h : T.Hist) (k : ℕ) (s : PerParamState) : Prop :=
  ∃ seen : List T.Hist, seen.Nodup ∧ h ∈ seen ∧ (∀ g ∈ seen, T.Asks g s) ∧
    loopBound < k + seen.length

theorem Lawful.rounds_pos (hT : Lawful ctx T) {h : T.Hist} {k : ℕ} {s : PerParamState}
    (hh : Heads T h k s) : 1 ≤ k := by
  obtain ⟨seen, hnodup, -, -, hrounds⟩ := hh
  have hfew := hT.few seen hnodup
  omega

theorem Heads.asks {h : T.Hist} {k : ℕ} {s : PerParamState} (hh : Heads T h k s) : T.Asks h s := by
  obtain ⟨seen, -, hmem, hall, -⟩ := hh
  exact hall h hmem

/-- Where a loop begins there are rounds enough. -/
theorem Heads.ofAsks {h : T.Hist} {s : PerParamState} (hs : T.Asks h s) :
    Heads T h loopBound s :=
  ⟨[h], List.nodup_singleton h, List.mem_singleton.mpr rfl,
    fun _ hg => List.mem_singleton.mp hg ▸ hs, Nat.lt_succ_self _⟩

/-- A head state that meets another history as well. -/
theorem Heads.more {h h' : T.Hist} {k : ℕ} {s : PerParamState} (hh : Heads T h k s)
    (hs : T.Asks h' s) : Heads T h' k s := by
  obtain ⟨seen, hnodup, hmem, hall, hrounds⟩ := hh
  by_cases hseen : h' ∈ seen
  · exact ⟨seen, hnodup, hseen, hall, hrounds⟩
  · refine ⟨h' :: seen, List.nodup_cons.mpr ⟨hseen, hnodup⟩, List.mem_cons_self, fun g hg => ?_,
      ?_⟩
    · rcases List.mem_cons.mp hg with rfl | hg
      · exact hs
      · exact hall g hg
    · rw [List.length_cons]
      omega

/-- No further round. -/
theorem Lawful.loop_stop (hT : Lawful ctx T) {h : T.Hist} {k : ℕ} {s : PerParamState}
    (hs : T.Asks h s) : LoopCovers (T.Asks h) .normal (walkRounds body cond k s) :=
  fun _ => ⟨_, List.mem_cons_self, hT.walkRounds_state hs⟩

/-- A round that leaves the loop. -/
theorem loopCovers_leave {o : Outcome} {k : ℕ} {s : PerParamState} (hk : 1 ≤ k)
    (ho : o = .broke ∨ o.leaves) (hc : Covers P o (roundResult body cond s)) :
    LoopCovers P o (walkRounds body cond k s) := by
  intro hfail
  obtain ⟨j, rfl⟩ := Nat.exists_eq_add_of_le hk
  have hnormal : o ≠ .normal := by
    rcases ho with rfl | rfl | rfl | rfl <;> simp
  obtain ⟨x, hx, hP⟩ := (hc hfail).2 hnormal
  rw [Nat.add_comm]
  exact ⟨x, collected_walkRounds_head j s ho hx, hP⟩

/-- **A round that falls through.**  A head state that meets the next head's history stands for it;
where it does not, the walk moves on to a state that meets it too, at the price of a round. -/
theorem Lawful.loop_round (hT : Lawful ctx T) {h h' : T.Hist} {o : Outcome} {k : ℕ}
    {s : PerParamState} (hh : Heads T h k s)
    (hround : Covers (T.Asks h') .normal (roundResult body cond s))
    (hrest : ∀ k s, Heads T h' k s → LoopCovers P o (walkRounds body cond k s)) :
    LoopCovers P o (walkRounds body cond k s) := by
  by_cases hmet : T.Asks h' s
  · exact hrest k s (hh.more hmet)
  · have hpos := hT.rounds_pos hh
    obtain ⟨seen, hnodup, hmem, hall, hrounds⟩ := hh
    obtain ⟨j, rfl⟩ := Nat.exists_eq_add_of_le' hpos
    have hmove : (roundResult body cond s).state ≠ s := fun hfix => hmet (hfix ▸ hround.state)
    have hnext : Heads T h' j (roundResult body cond s).state := by
      refine ⟨h' :: seen, List.nodup_cons.mpr ⟨fun hseen => hmet (hall h' hseen), hnodup⟩,
        List.mem_cons_self, fun g hg => ?_, ?_⟩
      · rcases List.mem_cons.mp hg with rfl | hg
        · exact hround.state
        · exact hT.join_left _ (hall g hg)
      · rw [List.length_cons]
        omega
    intro hfail
    obtain ⟨x, hx, hP⟩ := hrest j _ hnext hfail
    exact ⟨x, collected_walkRounds_tail j hmove o hx, hP⟩

/-- **The loop covers what its rounds cover**: the `break` states are joined behind it. -/
theorem Lawful.covers_loop (hT : Lawful ctx T) {h : T.Hist} {o : Outcome} {s : PerParamState}
    (ho : o = .normal ∨ o.leaves)
    (hc : LoopCovers (T.Asks h) o (walkRounds body cond loopBound s)) :
    Covers (T.Asks h) o (walkLoop body cond s) := by
  intro hfail
  obtain ⟨x, hx, hs⟩ := hc hfail
  rcases ho with rfl | rfl | rfl | rfl
  · exact ⟨fun _ => ⟨rfl, hT.foldl_join hx hs⟩, fun hn => absurd rfl hn⟩
  · exact ⟨fun hn => Outcome.noConfusion hn, fun _ => ⟨x, hx, hs⟩⟩
  · exact ⟨fun hn => Outcome.noConfusion hn, fun _ => ⟨x, hx, hs⟩⟩
  · exact absurd rfl hfail

end AlSem.L4
