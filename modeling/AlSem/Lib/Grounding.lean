/-
# Grounded goals

The mathematics of a proof search over goals of which each has a list of checks: a check fails,
passes, or asks for another goal.  A goal is GROUNDED when no check of it fails and every goal it
asks for is grounded: the least set closed under that.  The search goes depth first, answers
`false` for a goal that is still open above, and remembers every answer, also the ones found
while other goals were open.

The crux is that the remembered `false` is never early.  All checks of a goal must pass, so a
goal that asks for itself, through however many others, is not grounded at all
(`Grounded.not_transGen`), and an answer found below an open goal is the right answer by itself.
-/
import AlSem.Lib.HashMap
import Mathlib.Data.Finset.Card
import Mathlib.Logic.Relation
import Mathlib.Order.FixedPoints
import Mathlib.Order.CompletePartialOrder

namespace Grounding

/-- One condition of a goal. -/
inductive Check (κ : Type*) where
  | fail
  | pass
  | ask (goal : κ)
  deriving DecidableEq, Repr

variable {κ : Type*}

/-- The least set of goals closed under "no check fails, and what is asked for is in the set". -/
inductive Grounded (checks : κ → List (Check κ)) : κ → Prop
  | intro {k : κ} : .fail ∉ checks k → (∀ j, .ask j ∈ checks k → Grounded checks j) →
      Grounded checks k

/-- Goal `k` asks for goal `j`. -/
def Asks (checks : κ → List (Check κ)) (k j : κ) : Prop := .ask j ∈ checks k

variable {checks : κ → List (Check κ)}

/-! ## 1. Grounded goals -/

theorem grounded_iff {k : κ} :
    Grounded checks k ↔ .fail ∉ checks k ∧ ∀ j, .ask j ∈ checks k → Grounded checks j := by
  constructor
  · rintro ⟨hfail, hask⟩
    exact ⟨hfail, hask⟩
  · rintro ⟨hfail, hask⟩
    exact .intro hfail hask

/-- It is the least such set. -/
theorem Grounded.least {S : Set κ}
    (hS : ∀ k, .fail ∉ checks k → (∀ j, .ask j ∈ checks k → j ∈ S) → k ∈ S) {k : κ}
    (h : Grounded checks k) : k ∈ S := by
  induction h with
  | intro hfail _ ih => exact hS _ hfail ih

/-- **Grounded goals are a least fixed point**: of any monotone rule that lets a goal in exactly
when its checks do. -/
theorem mem_lfp_iff {rule : Set κ →o Set κ}
    (hrule : ∀ S k, k ∈ rule S ↔ .fail ∉ checks k ∧ ∀ j, .ask j ∈ checks k → j ∈ S) {k : κ} :
    k ∈ rule.lfp ↔ Grounded checks k := by
  constructor
  · intro h
    have hle : rule.lfp ≤ {k | Grounded checks k} := rule.lfp_le fun j hj =>
      grounded_iff.mpr ((hrule _ j).mp hj)
    exact hle h
  · intro h
    refine h.least fun j hfail hask => ?_
    rw [← rule.map_lfp]
    exact (hrule _ j).mpr ⟨hfail, hask⟩

/-- **A goal that asks for itself is not grounded.** -/
theorem Grounded.not_transGen {k : κ} (h : Grounded checks k) :
    ¬ Relation.TransGen (Asks checks) k k := by
  induction h with
  | intro hfail hask ih =>
    intro hcycle
    obtain ⟨j, hkj, hjk⟩ := Relation.TransGen.head'_iff.mp hcycle
    exact ih j hkj (Relation.TransGen.tail' hjk hkj)

/-! ## 2. The search -/

variable [DecidableEq κ]

/-- The answers found so far. -/
abbrev Answers (κ : Type*) := HashMap κ Bool

/-- Go through the checks of a goal in order, up to the first that does not pass. -/
def scan (ask : κ → Answers κ → Option (Bool × Answers κ)) :
    List (Check κ) → Answers κ → Option (Bool × Answers κ)
  | [], memo => some (true, memo)
  | .fail :: _, memo => some (false, memo)
  | .pass :: cs, memo => scan ask cs memo
  | .ask j :: cs, memo =>
    (ask j memo).bind fun p => if p.1 then scan ask cs p.2 else some (false, p.2)

/-- **The search for a goal** under the goals that are open; `none` is a search that is not over
at its depth. -/
def search (checks : κ → List (Check κ)) :
    ℕ → List κ → κ → Answers κ → Option (Bool × Answers κ)
  | 0, _, _, _ => none
  | fuel + 1, visiting, k, memo =>
    match memo.lookup k with
    | some v => some (v, memo)
    | none =>
      if k ∈ visiting then some (false, memo)
      else
        (scan (search checks fuel (k :: visiting)) (checks k) memo).map fun p =>
          (p.1, p.2.insert k p.1)

/-- Search for one goal after another; the goals that were found. -/
def searchAll (checks : κ → List (Check κ)) (fuel : ℕ) :
    List κ → Answers κ → Option (List κ)
  | [], _ => some []
  | k :: ks, memo =>
    (search checks fuel [] k memo).bind fun p =>
      (searchAll checks fuel ks p.2).map fun found => if p.1 then k :: found else found

/-! ## 3. Every answer is right -/

/-- The answers so far are right. -/
def Right (checks : κ → List (Check κ)) (memo : Answers κ) : Prop :=
  ∀ k v, memo.lookup k = some v → (v = true ↔ Grounded checks k)

theorem right_empty : Right checks ∅ := by
  intro k v h
  simp at h

theorem Right.insert {memo : Answers κ} (h : Right checks memo) {k : κ} {v : Bool}
    (hk : v = true ↔ Grounded checks k) : Right checks (memo.insert k v) := by
  intro j w hj
  by_cases hjk : j = k
  · subst hjk
    rw [AList.lookup_insert] at hj
    obtain rfl := Option.some.inj hj
    exact hk
  · rw [AList.lookup_insert_ne hjk] at hj
    exact h j w hj

/-- The scan of checks whose asked goals are answered rightly. -/
theorem scan_right {ask : κ → Answers κ → Option (Bool × Answers κ)} {cs : List (Check κ)}
    (hask : ∀ j memo p, .ask j ∈ cs → Right checks memo → ask j memo = some p →
      (p.1 = true ↔ Grounded checks j) ∧ Right checks p.2) :
    ∀ (memo : Answers κ) (p : Bool × Answers κ), Right checks memo → scan ask cs memo = some p →
      (p.1 = true ↔ .fail ∉ cs ∧ ∀ j, .ask j ∈ cs → Grounded checks j) ∧ Right checks p.2 := by
  induction cs with
  | nil =>
    intro memo p hm h
    obtain rfl := Option.some.inj h
    exact ⟨by simp, hm⟩
  | cons c cs ih =>
    have hrest := ih fun j memo p hj => hask j memo p (List.mem_cons_of_mem _ hj)
    intro memo p hm h
    cases c with
    | fail =>
      obtain rfl := Option.some.inj h
      exact ⟨by simp, hm⟩
    | pass =>
      obtain ⟨hp, hm'⟩ := hrest memo p hm h
      exact ⟨hp.trans (by simp), hm'⟩
    | ask j =>
      obtain ⟨q, hq, h⟩ := Option.bind_eq_some_iff.mp h
      obtain ⟨hj, hmq⟩ := hask j memo q List.mem_cons_self hm hq
      by_cases hok : q.1 = true
      · rw [if_pos hok] at h
        obtain ⟨hp, hm'⟩ := hrest q.2 p hmq h
        have hgj := hj.mp hok
        refine ⟨hp.trans ?_, hm'⟩
        constructor
        · rintro ⟨hfail, hall⟩
          refine ⟨by simpa using hfail, fun i hi => ?_⟩
          rcases List.mem_cons.mp hi with hi | hi
          · obtain rfl := Check.ask.inj hi
            exact hgj
          · exact hall i hi
        · rintro ⟨hfail, hall⟩
          exact ⟨by simpa using hfail, fun i hi => hall i (List.mem_cons_of_mem _ hi)⟩
      · rw [if_neg hok] at h
        obtain rfl := Option.some.inj h
        refine ⟨iff_of_false Bool.false_ne_true ?_, hmq⟩
        rintro ⟨-, hall⟩
        exact hok (hj.mpr (hall j List.mem_cons_self))

/-- **The search answers what is grounded**, whatever is open above and whatever was asked
before. -/
theorem search_right : ∀ {fuel : ℕ} {visiting : List κ} {k : κ} {memo : Answers κ}
    {p : Bool × Answers κ}, (∀ v ∈ visiting, Relation.TransGen (Asks checks) v k) →
    Right checks memo → search checks fuel visiting k memo = some p →
    (p.1 = true ↔ Grounded checks k) ∧ Right checks p.2 := by
  intro fuel
  induction fuel with
  | zero => intro visiting k memo p _ _ h; exact absurd h nofun
  | succ fuel ih =>
    intro visiting k memo p hopen hm h
    unfold search at h
    cases hk : memo.lookup k with
    | some v =>
      rw [hk] at h
      obtain rfl := Option.some.inj h
      exact ⟨hm k v hk, hm⟩
    | none =>
      simp only [hk] at h
      by_cases hv : k ∈ visiting
      · -- a goal that is open above asks for itself
        rw [if_pos hv] at h
        obtain rfl := Option.some.inj h
        exact ⟨iff_of_false Bool.false_ne_true fun hg => hg.not_transGen (hopen k hv), hm⟩
      · rw [if_neg hv] at h
        obtain ⟨q, hq, rfl⟩ := Option.map_eq_some_iff.mp h
        have hscan := scan_right (fun j memo p hj hm hp => by
          refine ih ?_ hm hp
          intro v hv
          rcases List.mem_cons.mp hv with rfl | hv
          · exact Relation.TransGen.single hj
          · exact (hopen v hv).tail hj) memo q hm hq
        have hgk : q.1 = true ↔ Grounded checks k := hscan.1.trans grounded_iff.symm
        exact ⟨hgk, hscan.2.insert hgk⟩

/-! ## 4. The search ends -/

omit [DecidableEq κ] in
theorem scan_isSome {ask : κ → Answers κ → Option (Bool × Answers κ)} {cs : List (Check κ)}
    (hask : ∀ j memo, .ask j ∈ cs → (ask j memo).isSome) (memo : Answers κ) :
    (scan ask cs memo).isSome := by
  induction cs generalizing memo with
  | nil => rfl
  | cons c cs ih =>
    have hrest := ih fun j memo hj => hask j memo (List.mem_cons_of_mem _ hj)
    cases c with
    | fail => rfl
    | pass => exact hrest memo
    | ask j =>
      obtain ⟨q, hq⟩ := Option.isSome_iff_exists.mp (hask j memo List.mem_cons_self)
      rw [scan, hq, Option.bind_some]
      split
      · exact hrest q.2
      · rfl

/-- As many goals as can be asked for bound the depth. -/
theorem search_isSome {U : Finset κ} (hU : ∀ k j, .ask j ∈ checks k → j ∈ U) :
    ∀ {fuel : ℕ} {visiting : List κ} {k : κ} {memo : Answers κ}, k ∈ U → visiting.Nodup →
      (∀ v ∈ visiting, v ∈ U) → U.card < fuel + visiting.length →
      (search checks fuel visiting k memo).isSome := by
  intro fuel
  induction fuel with
  | zero =>
    intro visiting k memo _ hnd hsub hlt
    have hle : visiting.toFinset.card ≤ U.card :=
      Finset.card_le_card fun v hv => hsub v (List.mem_toFinset.mp hv)
    rw [List.toFinset_card_of_nodup hnd] at hle
    omega
  | succ fuel ih =>
    intro visiting k memo hk hnd hsub hlt
    unfold search
    split
    · rfl
    · split
      · rfl
      · rename_i hv
        rw [Option.isSome_map]
        refine scan_isSome (fun j memo hj => ih (hU k j hj) (List.nodup_cons.mpr ⟨hv, hnd⟩) ?_ ?_)
          memo
        · intro v hv
          rcases List.mem_cons.mp hv with rfl | hv
          · exact hk
          · exact hsub v hv
        · rw [List.length_cons]
          omega

theorem searchAll_isSome {U : Finset κ} (hU : ∀ k j, .ask j ∈ checks k → j ∈ U) {fuel : ℕ}
    (hfuel : U.card < fuel) {goals : List κ} (hgoals : ∀ k ∈ goals, k ∈ U) (memo : Answers κ) :
    (searchAll checks fuel goals memo).isSome := by
  induction goals generalizing memo with
  | nil => rfl
  | cons k ks ih =>
    obtain ⟨p, hp⟩ := Option.isSome_iff_exists.mp
      (@search_isSome _ _ _ _ hU _ [] k memo (hgoals k List.mem_cons_self) List.nodup_nil nofun
        (by simpa using hfuel))
    rw [searchAll, hp, Option.bind_some, Option.isSome_map]
    exact ih (fun j hj => hgoals j (List.mem_cons_of_mem _ hj)) p.2

/-- **The goals found are the grounded ones.** -/
theorem mem_searchAll {fuel : ℕ} {goals : List κ} : ∀ {memo : Answers κ} {found : List κ},
    Right checks memo → searchAll checks fuel goals memo = some found →
      ∀ k, k ∈ found ↔ k ∈ goals ∧ Grounded checks k := by
  induction goals with
  | nil =>
    intro memo found _ h k
    obtain rfl := Option.some.inj h
    simp
  | cons k ks ih =>
    intro memo found hm h j
    obtain ⟨p, hp, h⟩ := Option.bind_eq_some_iff.mp h
    obtain ⟨rest, hrest, rfl⟩ := Option.map_eq_some_iff.mp h
    obtain ⟨hk, hm'⟩ := search_right nofun hm hp
    have hmem := ih hm' hrest
    by_cases hok : p.1 = true
    · rw [if_pos hok, List.mem_cons, List.mem_cons, hmem j, or_and_right]
      refine or_congr ⟨?_, And.left⟩ Iff.rfl
      rintro rfl
      exact ⟨rfl, hk.mp hok⟩
    · rw [if_neg hok, List.mem_cons, hmem j, or_and_right]
      refine ⟨Or.inr, ?_⟩
      rintro (⟨rfl, hg⟩ | h)
      · exact absurd (hk.mpr hg) hok
      · exact h

end Grounding
