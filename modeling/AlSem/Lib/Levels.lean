/-
# Level by level

The mathematics of a search that goes level by level from seeds of which some come in late: seed
`s` may be given with a distance of its own.  A level is the states at one distance, each once;
the next level is what the steps out of it and the seeds of that distance newly reach
(`Level.next`), and when a level is empty and no seed is left the search has met everything there
is (`Level.complete`).  Where every state of a level carries a label, and a state takes the least
label among its parents, the label names the least source at the state's distance (`Labelled.next`).
-/
import Mathlib.Data.Nat.Find
import Mathlib.Data.Set.Basic

namespace Levels

variable {σ : Type*}

/-- `s` is reached at distance `n`: a seed given with it, or one step from distance `n - 1`. -/
inductive Walk (seeds : ℕ → σ → Prop) (succ : σ → σ → Prop) : ℕ → σ → Prop
  | seed {n : ℕ} {s : σ} : seeds n s → Walk seeds succ n s
  | step {n : ℕ} {a b : σ} : Walk seeds succ n a → succ a b → Walk seeds succ (n + 1) b

/-- `n` is the least distance `s` is reached at. -/
def IsDist (seeds : ℕ → σ → Prop) (succ : σ → σ → Prop) (n : ℕ) (s : σ) : Prop :=
  Walk seeds succ n s ∧ ∀ m, Walk seeds succ m s → n ≤ m

variable {seeds : ℕ → σ → Prop} {succ : σ → σ → Prop}

/-! ## 1. Distances -/

theorem Walk.mono {seeds' : ℕ → σ → Prop} (h : ∀ n s, seeds n s → seeds' n s) {n : ℕ} {s : σ}
    (hw : Walk seeds succ n s) : Walk seeds' succ n s := by
  induction hw with
  | seed hs => exact .seed (h _ _ hs)
  | step _ hstep ih => exact .step ih hstep

theorem exists_isDist {n : ℕ} {s : σ} (h : Walk seeds succ n s) :
    ∃ m ≤ n, IsDist seeds succ m s := by
  classical
  have hex : ∃ n, Walk seeds succ n s := ⟨n, h⟩
  exact ⟨Nat.find hex, Nat.find_min' hex h, Nat.find_spec hex, fun m hm => Nat.find_min' hex hm⟩

theorem IsDist.unique {m n : ℕ} {s : σ} (hm : IsDist seeds succ m s) (hn : IsDist seeds succ n s) :
    m = n := le_antisymm (hm.2 n hn.1) (hn.2 m hm.1)

/-- A walk from several families of seeds is a walk from one of them. -/
theorem walk_union {ι : Type*} {family : ι → ℕ → σ → Prop} {n : ℕ} {s : σ} :
    Walk (fun n s => ∃ i, family i n s) succ n s ↔ ∃ i, Walk (family i) succ n s := by
  constructor
  · intro h
    induction h with
    | seed hs =>
      obtain ⟨i, hi⟩ := hs
      exact ⟨i, .seed hi⟩
    | step _ hstep ih =>
      obtain ⟨i, hi⟩ := ih
      exact ⟨i, .step hi hstep⟩
  · rintro ⟨i, hi⟩
    exact hi.mono fun n s hs => ⟨i, hs⟩

@[simp] theorem walk_zero {s : σ} : Walk seeds succ 0 s ↔ seeds 0 s := by
  constructor
  · intro h
    cases h with
    | seed hs => exact hs
  · exact .seed

/-! ## 2. One level -/

/-- **Level `n`**: `now` is the states at distance `n`, each once, and `V` those at `n` or less. -/
structure Level (seeds : ℕ → σ → Prop) (succ : σ → σ → Prop) (n : ℕ) (V : Set σ) (now : List σ) :
    Prop where
  visited : ∀ s, s ∈ V ↔ ∃ m ≤ n, Walk seeds succ m s
  mem_now : ∀ s, s ∈ now ↔ IsDist seeds succ n s
  nodup : now.Nodup

theorem Level.isDist_iff {n : ℕ} {V : Set σ} {now : List σ} (h : Level seeds succ n V now) {b : σ} :
    IsDist seeds succ (n + 1) b ↔ b ∉ V ∧ (seeds (n + 1) b ∨ ∃ a ∈ now, succ a b) := by
  constructor
  · rintro ⟨hw, hmin⟩
    have hnot : b ∉ V := by
      intro hb
      obtain ⟨m, hm, hwm⟩ := (h.visited b).mp hb
      exact absurd (hmin m hwm) (by omega)
    refine ⟨hnot, ?_⟩
    cases hw with
    | seed hs => exact Or.inl hs
    | @step _ a _ ha hstep =>
      refine Or.inr ⟨a, (h.mem_now a).mpr ⟨ha, fun m hm => ?_⟩, hstep⟩
      have := hmin _ (.step hm hstep)
      omega
  · rintro ⟨hnot, hcause⟩
    have hw : Walk seeds succ (n + 1) b := by
      rcases hcause with hs | ⟨a, ha, hstep⟩
      · exact .seed hs
      · exact .step ((h.mem_now a).mp ha).1 hstep
    refine ⟨hw, fun m hm => ?_⟩
    by_contra hlt
    exact hnot ((h.visited b).mpr ⟨m, by omega, hm⟩)

/-- The first level is the seeds at distance zero. -/
theorem Level.zero {V : Set σ} {now : List σ} (hV : ∀ s, s ∈ V ↔ seeds 0 s)
    (hnow : ∀ s, s ∈ now ↔ seeds 0 s) (hnd : now.Nodup) : Level seeds succ 0 V now where
  nodup := hnd
  mem_now s := by
    rw [hnow, IsDist, walk_zero]
    exact ⟨fun h => ⟨h, fun m _ => Nat.zero_le m⟩, And.left⟩
  visited s := by
    rw [hV]
    constructor
    · exact fun h => ⟨0, le_rfl, .seed h⟩
    · rintro ⟨m, hm, hw⟩
      obtain rfl := Nat.le_zero.mp hm
      exact walk_zero.mp hw

/-- **The next level** is what the steps and the late seeds newly reach. -/
theorem Level.next {n : ℕ} {V V' : Set σ} {now next : List σ} (h : Level seeds succ n V now)
    (hV : ∀ s, s ∈ V' ↔ s ∈ V ∨ s ∈ next)
    (hnext : ∀ s, s ∈ next ↔ s ∉ V ∧ (seeds (n + 1) s ∨ ∃ a ∈ now, succ a s)) (hnd : next.Nodup) :
    Level seeds succ (n + 1) V' next where
  nodup := hnd
  mem_now s := (hnext s).trans h.isDist_iff.symm
  visited s := by
    rw [hV, hnext, ← h.isDist_iff, h.visited]
    constructor
    · rintro (⟨m, hm, hw⟩ | hd)
      · exact ⟨m, by omega, hw⟩
      · exact ⟨n + 1, le_rfl, hd.1⟩
    · rintro ⟨m, hm, hw⟩
      obtain ⟨k, hk, hd⟩ := exists_isDist hw
      rcases Nat.lt_or_ge n k with hlt | hle
      · have hkn : k = n + 1 := by omega
        exact Or.inr (hkn ▸ hd)
      · exact Or.inl ⟨k, hle, hd.1⟩

/-- **An empty level with no seed left is the end**: everything was visited. -/
theorem Level.complete {n : ℕ} {V : Set σ} (h : Level seeds succ n V [])
    (hseeds : ∀ m s, seeds m s → m ≤ n) {m : ℕ} {s : σ} (hw : Walk seeds succ m s) : s ∈ V := by
  induction hw with
  | @seed k s hs => exact (h.visited s).mpr ⟨k, hseeds k s hs, .seed hs⟩
  | @step k a b _ hstep ih =>
    obtain ⟨j, hj, hwj⟩ := (h.visited a).mp ih
    obtain ⟨i, hi, hd⟩ := exists_isDist hwj
    have hne : i ≠ n := by
      rintro rfl
      exact absurd ((h.mem_now a).mpr hd) List.not_mem_nil
    exact (h.visited b).mpr ⟨i + 1, by omega, .step hd.1 hstep⟩

/-! ## 3. Labels -/

/-- **The labels of a level** name the least source at each state's distance, the states a walk of
that length from `late` reaches left out. -/
def Labelled (source : ℕ → ℕ → σ → Prop) (late : ℕ → σ → Prop) (succ : σ → σ → Prop) (n : ℕ)
    (items : List (ℕ × σ)) : Prop :=
  ∀ e ∈ items, ¬ Walk late succ n e.2 → Walk (source e.1) succ n e.2 ∧
    ∀ i, Walk (source i) succ n e.2 → e.1 ≤ i

/-- **Labels pass on** where each new state takes the least label among its parents and every seed
of the next distance is a late one. -/
theorem Labelled.next {source : ℕ → ℕ → σ → Prop} {late : ℕ → σ → Prop} {n : ℕ}
    {items next : List (ℕ × σ)} (h : Labelled source late succ n items)
    (hseeds : ∀ i s, ¬ source i (n + 1) s)
    (hall : ∀ i a b, Walk (source i) succ n a → succ a b → (∃ e ∈ next, e.2 = b) →
      ∃ e ∈ items, e.2 = a)
    (hnext : ∀ e ∈ next, late (n + 1) e.2 ∨ (∃ a, (e.1, a) ∈ items ∧ succ a e.2) ∧
      ∀ p ∈ items, succ p.2 e.2 → e.1 ≤ p.1) :
    Labelled source late succ (n + 1) next := by
  intro e he hnot
  rcases hnext e he with hlate | ⟨⟨a, ha, hstep⟩, hleast⟩
  · exact absurd (.seed hlate) hnot
  · have hparent := h (e.1, a) ha fun hw => hnot (.step hw hstep)
    refine ⟨.step hparent.1 hstep, fun i hi => ?_⟩
    generalize hm : n + 1 = m at hi
    cases hi with
    | seed hs => exact absurd (hm ▸ hs) (hseeds i _)
    | @step k b _ hb hbe =>
      obtain rfl : n = k := by omega
      obtain ⟨p, hp, rfl⟩ := hall i b e.2 hb hbe ⟨e, he, rfl⟩
      have hpl := h p hp fun hw => hnot (.step hw hbe)
      exact le_trans (hleast p hp hbe) (hpl.2 i hb)

end Levels
