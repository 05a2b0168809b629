/-
# The invariant of Tarjan's loops

Between two turns of the inner loop every node is white (not numbered), on the stack, or in an
emitted component.  `Core` says what then holds:

* the stack is ordered by number, and the frames of the work stack are a subsequence of it;
* a frame reaches every stack node above it, and every stack node reaches a frame below it;
* the lowlink of a frame is the number of a stack node it reaches, and no edge read so far from
  above a frame leads below the lowlinks from that frame up;
* the emitted components are exact and closed: an edge out of one leads to itself or to an
  earlier one.

`visit`, `advance` and `settle` each keep it (`visit_core`, `advance_inv`, `settle_inv`).  The
one moment at which `Core` is open is between the push of a child's frame and its visit: the
child is then `pend`.
-/
import AlSem.L4.Scc
import Mathlib.Logic.Relation

namespace AlSem.L4.Tarjan

variable {V : Type*} [DecidableEq V] {g : SccInputGraph V}

/-! ## 1. Reachability in the input graph -/

/-- `b` is a target of `a`. -/
def Edge (g : SccInputGraph V) (a b : V) : Prop := b ∈ children g a

/-- `b` is reachable from `a`. -/
def Reach (g : SccInputGraph V) : V → V → Prop := Relation.ReflTransGen (Edge g)

/-- An edge out of a component of the list leads to that component or to an earlier one. -/
def TopoClosed (g : SccInputGraph V) (sccs : List (List V)) : Prop :=
  ∀ before C after, sccs = before ++ C :: after →
    ∀ v ∈ C, ∀ w, Edge g v w → w ∈ C ∨ w ∈ before.flatten

/-- `C` is a whole class of mutually reachable nodes. -/
def IsClass (g : SccInputGraph V) (C : List V) : Prop :=
  C ≠ [] ∧ ∀ v ∈ C, ∀ u, u ∈ C ↔ Reach g v u ∧ Reach g u v

/-- **Closed lists are closed under reachability.** -/
theorem TopoClosed.reach {sccs : List (List V)} (h : TopoClosed g sccs) {v w : V}
    (hv : v ∈ sccs.flatten) (hr : Reach g v w) : w ∈ sccs.flatten := by
  induction hr with
  | refl => exact hv
  | tail _ hedge ih =>
    obtain ⟨C, hC, hmem⟩ := List.mem_flatten.mp ih
    obtain ⟨before, after, rfl⟩ := List.append_of_mem hC
    rcases h before C after rfl _ hmem _ hedge with hw | hw
    · exact List.mem_flatten.mpr ⟨C, hC, hw⟩
    · rw [List.flatten_append]
      exact List.mem_append_left _ hw

/-- A component all of whose edges lead to itself or to the list may be appended. -/
theorem TopoClosed.snoc {sccs : List (List V)} (h : TopoClosed g sccs) {C : List V}
    (hC : ∀ v ∈ C, ∀ w, Edge g v w → w ∈ C ∨ w ∈ sccs.flatten) :
    TopoClosed g (sccs ++ [C]) := by
  intro before D after heq v hv w hw
  rcases List.eq_nil_or_concat after with rfl | ⟨after', E, rfl⟩
  · obtain ⟨rfl, hlast⟩ := List.append_inj' heq rfl
    obtain rfl : C = D := by simpa using hlast
    exact hC v hv w hw
  · have heq' : sccs ++ [C] = (before ++ D :: after') ++ [E] := by simpa using heq
    obtain ⟨rfl, -⟩ := List.append_inj' heq' rfl
    exact h before D after' rfl v hv w hw

/-! ## 2. The invariant -/

/-- The number of a node, `0` when it has none. -/
def ix (s : TarjanState V) (v : V) : ℕ := (s.index v).getD 0

/-- The lowlink of a node, `0` when it has none. -/
def low (s : TarjanState V) (v : V) : ℕ := (s.lowlink v).getD 0

/-- The edge `v → w` has been read: the frame of `v`, if it still has one, is past it. -/
def Processed (g : SccInputGraph V) (s : TarjanState V) (v w : V) : Prop :=
  Edge g v w ∧ ∀ f ∈ s.work, f.node = v → w ∈ (children g v).take f.childIdx

/-- What holds between two turns of the inner loop; `pend` is the child whose frame was just
pushed. -/
structure Core (g : SccInputGraph V) (pend : Option V) (s : TarjanState V) : Prop where
  indexed : ∀ v, (s.index v).isSome ↔ v ∈ s.stack ∨ v ∈ s.rawSccs.flatten
  lt_next : ∀ v ∈ s.stack, ix s v < s.nextIndex
  sorted : s.stack.Pairwise (fun a b => ix s b < ix s a)
  onStack : ∀ v, s.onStack v = true ↔ v ∈ s.stack
  disj : ∀ v ∈ s.stack, v ∉ s.rawSccs.flatten
  nodup : s.rawSccs.flatten.Nodup
  rooted : ∀ v, (s.index v).isSome → ∃ n ∈ g.nodes, Reach g n v
  frames : (s.work.map Frame.node).Sublist s.stack
  low_spec : ∀ f ∈ s.work, ∃ l, s.lowlink f.node = some l ∧ l ≤ ix s f.node ∧
    ∃ w ∈ s.stack, ix s w = l ∧ Reach g f.node w
  toFrame : ∀ v ∈ s.stack, ∃ f ∈ s.work, ix s f.node ≤ ix s v ∧ Reach g v f.node
  ofFrame : ∀ f ∈ s.work, ∀ v ∈ s.stack, ix s f.node ≤ ix s v → Reach g f.node v
  seen : ∀ v ∈ s.stack, ∀ w, Processed g s v w → (s.index w).isSome ∨ pend = some w
  lowLe : ∀ f ∈ s.work, ∀ v ∈ s.stack, ix s f.node ≤ ix s v → ∀ w, Processed g s v w →
    w ∈ s.stack → ∃ f' ∈ s.work, ix s f.node ≤ ix s f'.node ∧ low s f'.node ≤ ix s w
  classes : ∀ C ∈ s.rawSccs, IsClass g C
  topo : TopoClosed g s.rawSccs

/-- The invariant of the inner loop: either the top frame is new, its node white and the child
of the frame below, or every frame is past its first turn. -/
def Inv (g : SccInputGraph V) (s : TarjanState V) : Prop :=
  (∃ x rest, s.work = ⟨x, 0⟩ :: rest ∧ s.index x = none ∧
      (∀ p ∈ rest.head?, Edge g p.node x) ∧ (∃ n ∈ g.nodes, Reach g n x) ∧
      (∀ f ∈ rest, 0 < f.childIdx) ∧ Core g (some x) { s with work := rest }) ∨
    ((∀ f ∈ s.work, 0 < f.childIdx) ∧ Core g none s)

namespace Core

variable {pend : Option V} {s : TarjanState V}

/-- The stack has no repetition. -/
theorem stack_nodup (h : Core g pend s) : s.stack.Nodup :=
  h.sorted.imp fun {a b} hlt heq => by
    rw [heq] at hlt
    exact absurd hlt (lt_irrefl _)

/-- The frames are ordered by number, the top one last numbered. -/
theorem frames_sorted (h : Core g pend s) :
    (s.work.map Frame.node).Pairwise (fun a b => ix s b < ix s a) :=
  h.sorted.sublist h.frames

/-- The node of a frame is on the stack. -/
theorem frame_mem (h : Core g pend s) {f : Frame V} (hf : f ∈ s.work) : f.node ∈ s.stack :=
  h.frames.subset (List.mem_map_of_mem hf)

/-- A frame below the top one has a smaller number. -/
theorem ix_lt_top (h : Core g pend s) {v : V} {c : ℕ} {rest : List (Frame V)}
    (hw : s.work = ⟨v, c⟩ :: rest) {f : Frame V} (hf : f ∈ rest) : ix s f.node < ix s v := by
  have hs := h.frames_sorted
  rw [hw, List.map_cons, List.pairwise_cons] at hs
  exact hs.1 _ (List.mem_map_of_mem hf)

/-- No frame is above the top one. -/
theorem ix_le_top (h : Core g pend s) {v : V} {c : ℕ} {rest : List (Frame V)}
    (hw : s.work = ⟨v, c⟩ :: rest) {f : Frame V} (hf : f ∈ s.work) : ix s f.node ≤ ix s v := by
  rw [hw] at hf
  rcases List.mem_cons.mp hf with rfl | hf
  · exact le_rfl
  · exact (h.ix_lt_top hw hf).le

/-- The lowlink of a frame is at most its number. -/
theorem low_le_ix (h : Core g pend s) {f : Frame V} (hf : f ∈ s.work) :
    low s f.node ≤ ix s f.node := by
  obtain ⟨l, hl, hle, -⟩ := h.low_spec f hf
  simpa [low, hl] using hle

/-- The frame of a node is unique. -/
theorem frame_eq_top (h : Core g pend s) {v : V} {c : ℕ} {rest : List (Frame V)}
    (hw : s.work = ⟨v, c⟩ :: rest) {f : Frame V} (hf : f ∈ s.work) (hv : f.node = v) :
    f = ⟨v, c⟩ := by
  rw [hw] at hf
  rcases List.mem_cons.mp hf with rfl | hf
  · rfl
  · exact absurd (h.ix_lt_top hw hf) (by rw [hv]; exact lt_irrefl _)

end Core

/-! ## 3. The first turn of a frame -/

section Visit

variable {s : TarjanState V} {x : V} {rest : List (Frame V)}

/-- Numbers after a visit: the visited node has the next one, the others keep theirs. -/
theorem ix_visit (s : TarjanState V) (x v : V) :
    ix (visit x s) v = if v = x then s.nextIndex else ix s v := by
  unfold ix visit
  by_cases hv : v = x <;> simp [hv]

theorem ix_visit_of_ne {v : V} (hv : v ≠ x) : ix (visit x s) v = ix s v := by
  rw [ix_visit, if_neg hv]

/-- After a visit no edge of the visited node is read yet, and those of the others are as they
were. -/
theorem processed_visit (hw : s.work = ⟨x, 0⟩ :: rest) {v w : V}
    (h : Processed g (visit x s) v w) : v ≠ x ∧ Processed g { s with work := rest } v w := by
  have hne : v ≠ x := by
    rintro rfl
    have := h.2 ⟨v, 0⟩ (by simp [visit, hw]) rfl
    simp at this
  refine ⟨hne, h.1, fun f hf hfv => h.2 f ?_ hfv⟩
  simp only [visit, hw]
  exact List.mem_cons_of_mem _ hf

/-- **A visit keeps the invariant**, and closes the pending child. -/
theorem visit_core (hw : s.work = ⟨x, 0⟩ :: rest) (hx : s.index x = none)
    (hedge : ∀ p ∈ rest.head?, Edge g p.node x) (hroot : ∃ n ∈ g.nodes, Reach g n x)
    (h : Core g (some x) { s with work := rest }) : Core g none (visit x s) := by
  have hxs : x ∉ s.stack := fun hm => by
    have := (h.indexed x).mpr (Or.inl hm)
    simp [hx] at this
  have hxf : x ∉ s.rawSccs.flatten := fun hm => by
    have := (h.indexed x).mpr (Or.inr hm)
    simp [hx] at this
  have hne : ∀ v ∈ s.stack, v ≠ x := fun v hv hvx => hxs (hvx ▸ hv)
  have hix : ∀ v ∈ s.stack, ix (visit x s) v = ix s v := fun v hv => ix_visit_of_ne (hne v hv)
  have hixx : ix (visit x s) x = s.nextIndex := by rw [ix_visit, if_pos rfl]
  have hlt : ∀ v ∈ s.stack, ix s v < s.nextIndex := h.lt_next
  have hstack : (visit x s).stack = x :: s.stack := rfl
  have hwork : (visit x s).work = ⟨x, 0⟩ :: rest := hw
  have hrestne : ∀ f ∈ rest, f.node ≠ x := fun f hf => hne _ (h.frame_mem hf)
  have hrest : ∀ f ∈ rest, f.node ∈ s.stack := fun f hf => h.frame_mem hf
  have hlow : ∀ v, v ≠ x → (visit x s).lowlink v = s.lowlink v := fun v hv => by
    simp [visit, hv]
  refine ⟨?_, ?_, ?_, ?_, ?_, h.nodup, ?_, ?_, ?_, ?_, ?_, ?_, ?_, h.classes, h.topo⟩
  · -- indexed
    intro v
    by_cases hv : v = x
    · subst hv; simp [visit]
    · have := h.indexed v
      simpa [visit, hv] using this
  · -- lt_next
    intro v hv
    rw [ix_visit]
    split
    · exact Nat.lt_succ_self _
    · rename_i hvx
      rcases List.mem_cons.mp (hstack ▸ hv) with rfl | hv
      · exact absurd rfl hvx
      · exact Nat.lt_succ_of_lt (hlt v hv)
  · -- sorted
    rw [hstack, List.pairwise_cons]
    refine ⟨fun v hv => ?_, ?_⟩
    · rw [hixx, hix v hv]; exact hlt v hv
    · refine h.sorted.imp_of_mem fun {a b} ha hb hab => ?_
      rw [hix a ha, hix b hb]
      exact hab
  · -- onStack
    intro v
    by_cases hv : v = x
    · subst hv; simp [visit]
    · have := h.onStack v
      simpa [visit, hv] using this
  · -- disj
    intro v hv
    rcases List.mem_cons.mp (hstack ▸ hv) with rfl | hv
    · exact hxf
    · exact h.disj v hv
  · -- rooted
    intro v hv
    by_cases hvx : v = x
    · subst hvx; exact hroot
    · exact h.rooted v (by simpa [visit, hvx] using hv)
  · -- frames
    rw [hwork, hstack, List.map_cons]
    exact h.frames.cons_cons x
  · -- low_spec
    intro f hf
    rcases List.mem_cons.mp (hwork ▸ hf) with rfl | hf
    · refine ⟨s.nextIndex, by simp [visit], by rw [hixx], x, by simp [hstack], hixx, ?_⟩
      exact Relation.ReflTransGen.refl
    · obtain ⟨l, hl, hle, w, hws, hwl, hr⟩ := h.low_spec f hf
      refine ⟨l, ?_, ?_, w, by simp [hstack, hws], by rw [hix w hws]; exact hwl, hr⟩
      · rw [hlow _ (hrestne f hf)]; exact hl
      · rw [hix _ (hrest f hf)]; exact hle
  · -- toFrame
    intro v hv
    rcases List.mem_cons.mp (hstack ▸ hv) with rfl | hv
    · exact ⟨⟨v, 0⟩, by simp [hwork], le_rfl, Relation.ReflTransGen.refl⟩
    · obtain ⟨f, hf, hle, hr⟩ := h.toFrame v hv
      refine ⟨f, by rw [hwork]; exact List.mem_cons_of_mem _ hf, ?_, hr⟩
      rw [hix v hv, hix _ (hrest f hf)]
      exact hle
  · -- ofFrame: a lower frame reaches the new node through the top of the rest
    intro f hf v hv hle
    rcases List.mem_cons.mp (hwork ▸ hf) with rfl | hfr
    · rcases List.mem_cons.mp (hstack ▸ hv) with rfl | hv
      · exact Relation.ReflTransGen.refl
      · rw [hixx, hix v hv] at hle
        exact absurd (hlt v hv) (by omega)
    · rcases List.mem_cons.mp (hstack ▸ hv) with rfl | hv
      · obtain ⟨p, rest', hrest'⟩ : ∃ p rest', rest = p :: rest' := by
          cases rest with
          | nil => simp at hfr
          | cons p rest' => exact ⟨p, rest', rfl⟩
        have hp : Edge g p.node v := hedge p (by simp [hrest'])
        have hfp : Reach g f.node p.node :=
          h.ofFrame f hfr p.node (h.frame_mem (by simp [hrest']))
            (h.ix_le_top (show rest = ⟨p.node, p.childIdx⟩ :: rest' from hrest') hfr)
        exact hfp.tail hp
      · rw [hix v hv, hix _ (hrest f hfr)] at hle
        exact h.ofFrame f hfr v hv hle
  · -- seen
    intro v hv w hpr
    obtain ⟨hvx, hpr'⟩ := processed_visit hw hpr
    rcases List.mem_cons.mp (hstack ▸ hv) with hvx' | hv
    · exact absurd hvx' hvx
    · left
      rcases h.seen v hv w hpr' with hw' | hw'
      · by_cases hwx : w = x
        · subst hwx; simp [visit]
        · simpa [visit, hwx] using hw'
      · obtain rfl : x = w := by simpa using hw'
        simp [visit]
  · -- lowLe
    intro f hf v hv hle w hpr hws
    obtain ⟨hvx, hpr'⟩ := processed_visit hw hpr
    rcases List.mem_cons.mp (hstack ▸ hv) with hvx' | hv
    · exact absurd hvx' hvx
    · rcases List.mem_cons.mp (hwork ▸ hf) with rfl | hfr
      · rw [hixx, hix v hv] at hle
        exact absurd (hlt v hv) (by omega)
      · rcases List.mem_cons.mp (hstack ▸ hws) with rfl | hws
        · -- the new node is above every lowlink
          refine ⟨f, by rw [hwork]; exact List.mem_cons_of_mem _ hfr, le_rfl, ?_⟩
          have h1 : low s f.node ≤ ix s f.node := h.low_le_ix (s := { s with work := rest }) hfr
          have h2 := hlt _ (hrest f hfr)
          rw [hixx, low, hlow _ (hrestne f hfr)]
          unfold low at h1
          omega
        · rw [hix v hv, hix _ (hrest f hfr)] at hle
          obtain ⟨f', hf', hle', hlow'⟩ := h.lowLe f hfr v hv hle w hpr' hws
          refine ⟨f', by rw [hwork]; exact List.mem_cons_of_mem _ hf', ?_, ?_⟩
          · rw [hix _ (hrest f hfr), hix _ (hrest f' hf')]; exact hle'
          · rw [hix w hws, low, hlow _ (hrestne f' hf')]; exact hlow'

end Visit

/-! ## 4. Reading a child -/

section Advance

variable {s : TarjanState V} {v w : V} {c : ℕ} {rest : List (Frame V)}

/-- The frame of `v` one child further, its lowlink lowered to `l`. -/
def turn (v : V) (c l : ℕ) (rest : List (Frame V)) (s : TarjanState V) : TarjanState V :=
  { s with
    work := ⟨v, c + 1⟩ :: rest
    lowlink := Function.update s.lowlink v (some l) }

/-- The edges read after one more child: those read before, and the new one. -/
theorem processed_turn (h : Core g none s) (hw : s.work = ⟨v, c⟩ :: rest)
    (hc : (children g v)[c]? = some w) {l : ℕ} {a b : V}
    (hpr : Processed g (turn v c l rest s) a b) : Processed g s a b ∨ (a = v ∧ b = w) := by
  obtain ⟨hedge, hframes⟩ := hpr
  by_cases hav : a = v
  · subst hav
    have hb : b ∈ (children g a).take (c + 1) := hframes ⟨a, c + 1⟩ (by simp [turn]) rfl
    rw [List.take_add_one, hc, Option.toList_some, List.mem_append, List.mem_singleton] at hb
    rcases hb with hb | hb
    · refine Or.inl ⟨hedge, fun f hf hfa => ?_⟩
      rw [h.frame_eq_top hw hf hfa]
      exact hb
    · exact Or.inr ⟨rfl, hb⟩
  · refine Or.inl ⟨hedge, fun f hf hfa => hframes f ?_ hfa⟩
    rw [hw] at hf
    rcases List.mem_cons.mp hf with rfl | hf
    · exact absurd hfa.symm hav
    · exact List.mem_cons_of_mem _ hf

/-- **One more child keeps the invariant**, provided the new lowlink is the number of a stack
node that `v` reaches, and the child is numbered (and not below the lowlink) or pending. -/
theorem turn_core (h : Core g none s) (hw : s.work = ⟨v, c⟩ :: rest)
    (hc : (children g v)[c]? = some w) {l : ℕ} (hl : l ≤ low s v)
    (hwit : ∃ u ∈ s.stack, ix s u = l ∧ Reach g v u) (pend : Option V)
    (hseen : (s.index w).isSome ∨ pend = some w) (hle : w ∈ s.stack → l ≤ ix s w) :
    Core g pend (turn v c l rest s) := by
  have hvw : (⟨v, c⟩ : Frame V) ∈ s.work := by rw [hw]; exact List.mem_cons_self
  have hlix : l ≤ ix s v := le_trans hl (h.low_le_ix hvw)
  have hlowv : low (turn v c l rest s) v = l := by simp [low, turn]
  have hlow : ∀ u, low (turn v c l rest s) u ≤ low s u := by
    intro u
    by_cases hu : u = v
    · subst hu; rw [hlowv]; exact hl
    · simp [low, turn, hu]
  -- a frame of the new work stack has the node of a frame of the old one, and conversely
  have hto : ∀ f ∈ (turn v c l rest s).work, ∃ f' ∈ s.work, f'.node = f.node := by
    intro f hf
    rcases List.mem_cons.mp hf with rfl | hf
    · exact ⟨_, hvw, rfl⟩
    · exact ⟨f, by rw [hw]; exact List.mem_cons_of_mem _ hf, rfl⟩
  have hof : ∀ f ∈ s.work, ∃ f' ∈ (turn v c l rest s).work, f'.node = f.node := by
    intro f hf
    rw [hw] at hf
    rcases List.mem_cons.mp hf with rfl | hf
    · exact ⟨⟨v, c + 1⟩, List.mem_cons_self, rfl⟩
    · exact ⟨f, List.mem_cons_of_mem _ hf, rfl⟩
  refine ⟨h.indexed, h.lt_next, h.sorted, h.onStack, h.disj, h.nodup, h.rooted, ?_, ?_, ?_, ?_,
    ?_, ?_, h.classes, h.topo⟩
  · -- frames
    have := h.frames
    rw [hw] at this
    exact this
  · -- low_spec
    intro f hf
    by_cases hfv : f.node = v
    · rw [hfv]
      obtain ⟨u, hus, hul, hr⟩ := hwit
      exact ⟨l, by simp [turn], hlix, u, hus, hul, hr⟩
    · obtain ⟨f', hf', hnode⟩ := hto f hf
      obtain ⟨l', hl', hrest⟩ := h.low_spec f' hf'
      rw [hnode] at hl' hrest
      exact ⟨l', by simpa [turn, hfv] using hl', hrest⟩
  · -- toFrame
    intro a ha
    obtain ⟨f, hf, hfa⟩ := h.toFrame a ha
    obtain ⟨f', hf', hnode⟩ := hof f hf
    exact ⟨f', hf', by rw [hnode]; exact hfa⟩
  · -- ofFrame
    intro f hf a ha hfa
    obtain ⟨f', hf', hnode⟩ := hto f hf
    rw [← hnode] at hfa ⊢
    exact h.ofFrame f' hf' a ha hfa
  · -- seen
    intro a ha b hpr
    rcases processed_turn h hw hc hpr with hpr | ⟨-, rfl⟩
    · exact Or.inl ((h.seen a ha b hpr).resolve_right (by simp))
    · exact hseen
  · -- lowLe
    intro f hf a ha hfa b hpr hb
    obtain ⟨f₀, hf₀, hnode₀⟩ := hto f hf
    rcases processed_turn h hw hc hpr with hpr | ⟨rfl, rfl⟩
    · rw [← hnode₀] at hfa
      obtain ⟨f', hf', hff', hl'⟩ := h.lowLe f₀ hf₀ a ha hfa b hpr hb
      obtain ⟨f'', hf'', hnode⟩ := hof f' hf'
      refine ⟨f'', hf'', ?_, ?_⟩
      · rw [hnode, ← hnode₀]; exact hff'
      · rw [hnode]; exact le_trans (hlow _) hl'
    · exact ⟨⟨a, c + 1⟩, List.mem_cons_self, hfa, by rw [hlowv]; exact hle hb⟩

/-- **Reading a child keeps the invariant.** -/
theorem advance_inv (h : Core g none s) (hw : s.work = ⟨v, c⟩ :: rest)
    (hrest : ∀ f ∈ rest, 0 < f.childIdx) (hc : (children g v)[c]? = some w) :
    Inv g (advance v w c rest s) := by
  have hvw : (⟨v, c⟩ : Frame V) ∈ s.work := by rw [hw]; exact List.mem_cons_self
  have hedge : Edge g v w := List.mem_of_getElem? hc
  have hvs : v ∈ s.stack := h.frame_mem hvw
  obtain ⟨l, hl, hlix, hwit⟩ := h.low_spec _ hvw
  have hlow : low s v = l := by simp [low, hl]
  have hself : turn v c l rest s = { s with work := ⟨v, c + 1⟩ :: rest } := by
    unfold turn
    rw [← hl, Function.update_eq_self]
  have hpos : ∀ f ∈ (⟨v, c + 1⟩ :: rest : List (Frame V)), 0 < f.childIdx := by
    intro f hf
    rcases List.mem_cons.mp hf with rfl | hf
    · exact Nat.succ_pos c
    · exact hrest f hf
  unfold advance
  dsimp only
  split
  · -- a white child: its frame is pushed
    rename_i hwhite
    have hnone : s.index w = none := by simpa using hwhite
    left
    refine ⟨w, ⟨v, c + 1⟩ :: rest, rfl, hnone, by simpa using hedge, ?_, hpos, ?_⟩
    · obtain ⟨n, hn, hr⟩ := h.rooted v ((h.indexed v).mpr (Or.inl hvs))
      exact ⟨n, hn, hr.tail hedge⟩
    · have hcore := turn_core h hw hc (l := l) (by rw [hlow]) hwit (some w)
        (Or.inr rfl) fun hws => by
          have := (h.indexed w).mpr (Or.inl hws)
          simp [hnone] at this
      rw [hself] at hcore
      exact hcore
  · rename_i hgray
    have hsome : (s.index w).isSome := by
      cases hi : s.index w with
      | none => simp [hi] at hgray
      | some _ => rfl
    right
    split
    · -- a child on the stack lowers the lowlink
      rename_i hon
      have hws : w ∈ s.stack := (h.onStack w).mp hon
      refine ⟨hpos, ?_⟩
      have hcore := turn_core h hw hc (l := min (low s v) (ix s w)) (min_le_left _ _)
        (by
          rcases le_total (low s v) (ix s w) with hm | hm
          · rw [min_eq_left hm, hlow]; exact hwit
          · rw [min_eq_right hm]
            exact ⟨w, hws, rfl, Relation.ReflTransGen.single hedge⟩)
        none (Or.inl hsome) fun _ => min_le_right _ _
      exact hcore
    · -- a child in an emitted component is left alone
      rename_i hoff
      have hws : w ∉ s.stack := fun hm => hoff ((h.onStack w).mpr hm)
      refine ⟨hpos, ?_⟩
      have hcore := turn_core h hw hc (l := l) (by rw [hlow]) hwit none
        (Or.inl hsome) fun hm => absurd hm hws
      rw [hself] at hcore
      exact hcore

end Advance

/-! ## 5. Settling a node -/

/-- `popUntil` splits the stack at the node. -/
theorem popUntil_spec {v : V} : ∀ {stack : List V}, v ∈ stack →
    ∃ above rest, stack = above ++ v :: rest ∧ popUntil v stack = (above ++ [v], rest)
  | [], h => by simp at h
  | w :: stack, h => by
    by_cases hwv : w = v
    · exact ⟨[], stack, by simp [hwv], by simp [popUntil, hwv]⟩
    · have hv : v ∈ stack := (List.mem_cons.mp h).resolve_left (Ne.symm hwv)
      obtain ⟨above, rest, hstack, hpop⟩ := popUntil_spec hv
      exact ⟨w :: above, rest, by simp [hstack], by simp [popUntil, hwv, hpop]⟩

section Settle

variable {s : TarjanState V} {v : V} {c : ℕ} {rest : List (Frame V)}

/-- An edge of a node at or above a frame whose children are all read has been read, whatever
becomes of the work stack below. -/
theorem processed_pop (h : Core g none s) (hw : s.work = ⟨v, c⟩ :: rest)
    (hc : (children g v).length ≤ c) {a b : V}
    (hpr : Processed g { s with work := rest } a b) : Processed g s a b := by
  refine ⟨hpr.1, fun f hf hfa => ?_⟩
  by_cases hav : a = v
  · have := h.frame_eq_top hw hf (hfa.trans hav)
    subst this
    rw [hav, List.take_of_length_le hc, ← hav]
    exact hpr.1
  · rw [hw] at hf
    rcases List.mem_cons.mp hf with rfl | hf
    · exact absurd hfa.symm hav
    · exact hpr.2 f hf hfa

/-- **Dropping the frame of a node that is not a root keeps the invariant**: its lowlink goes to
the parent, which exists. -/
theorem pop_core (h : Core g none s) (hw : s.work = ⟨v, c⟩ :: rest)
    (hc : (children g v).length ≤ c) (hne : low s v ≠ ix s v) :
    ∃ p rest', rest = p :: rest' ∧ Core g none (lower p.node (low s v) { s with work := rest }) := by
  have hvw : (⟨v, c⟩ : Frame V) ∈ s.work := by rw [hw]; exact List.mem_cons_self
  have hvs : v ∈ s.stack := h.frame_mem hvw
  obtain ⟨l, hl, hlix, u, hus, hul, hvu⟩ := h.low_spec _ hvw
  have hlowv : low s v = l := by simp [low, hl]
  have hlt : ix s u < ix s v := by
    have : ix s u ≠ ix s v := fun heq => hne (by rw [hlowv, ← hul, heq])
    have hle : ix s u ≤ ix s v := by rw [hul]; exact hlix
    omega
  -- `v` reaches a lower frame through `u`
  obtain ⟨f₀, hf₀, hf₀u, huf₀⟩ := h.toFrame u hus
  have hf₀r : f₀ ∈ rest := by
    rw [hw] at hf₀
    rcases List.mem_cons.mp hf₀ with rfl | hf₀
    · exact absurd hf₀u (by simpa using hlt)
    · exact hf₀
  obtain ⟨p, rest', rfl⟩ : ∃ p rest', rest = p :: rest' := by
    cases rest with
    | nil => simp at hf₀r
    | cons p rest' => exact ⟨p, rest', rfl⟩
  refine ⟨p, rest', rfl, ?_⟩
  have hold : ∀ f ∈ (p :: rest' : List (Frame V)), f ∈ s.work := fun f hf => by
    rw [hw]; exact List.mem_cons_of_mem _ hf
  have hps : p ∈ s.work := hold p List.mem_cons_self
  have hple : ∀ f ∈ (p :: rest' : List (Frame V)), ix s f.node ≤ ix s p.node := by
    intro f hf
    rcases List.mem_cons.mp hf with rfl | hf
    · exact le_rfl
    · have hs := h.frames_sorted
      rw [hw, List.map_cons, List.map_cons, List.pairwise_cons, List.pairwise_cons] at hs
      exact (hs.2.1 _ (List.mem_map_of_mem hf)).le
  have hlow : ∀ a, low (lower p.node (low s v) { s with work := p :: rest' }) a ≤ low s a := by
    intro a
    by_cases ha : a = p.node
    · subst ha; simp [low, lower]
    · simp [low, lower, ha]
  have hlowp : low (lower p.node (low s v) { s with work := p :: rest' }) p.node ≤ low s v := by
    simp [low, lower]
  refine ⟨h.indexed, h.lt_next, h.sorted, h.onStack, h.disj, h.nodup, h.rooted, ?_, ?_, ?_, ?_,
    ?_, ?_, h.classes, h.topo⟩
  · -- frames
    have := h.frames
    rw [hw, List.map_cons] at this
    exact (List.sublist_cons_self _ _).trans this
  · -- low_spec: the parent's new lowlink is its own or that of `v`
    intro f hf
    obtain ⟨lf, hlf, hlfix, wf, hwfs, hwfl, hr⟩ := h.low_spec f (hold f hf)
    by_cases hfp : f.node = p.node
    · rw [hfp] at hlf hlfix hr ⊢
      have hval : (lower p.node (low s v) { s with work := p :: rest' }).lowlink p.node
          = some (min lf l) := by simp [lower, hlf, hlowv]
      rcases le_total lf l with hm | hm
      · exact ⟨lf, by rw [hval, min_eq_left hm], hlfix, wf, hwfs, hwfl, hr⟩
      · refine ⟨l, by rw [hval, min_eq_right hm], le_trans hm hlfix, u, hus, hul, ?_⟩
        exact (h.ofFrame p hps v hvs (h.ix_lt_top hw List.mem_cons_self).le).trans hvu
    · refine ⟨lf, ?_, hlfix, wf, hwfs, hwfl, hr⟩
      simpa [lower, hfp] using hlf
  · -- toFrame: what reached `v` now reaches the lower frame
    intro a ha
    obtain ⟨f, hf, hfa, hr⟩ := h.toFrame a ha
    rw [hw] at hf
    rcases List.mem_cons.mp hf with rfl | hf
    · refine ⟨f₀, hf₀r, ?_, (hr.trans hvu).trans huf₀⟩
      exact le_trans hf₀u (le_trans hlt.le hfa)
    · exact ⟨f, hf, hfa, hr⟩
  · -- ofFrame
    exact fun f hf => h.ofFrame f (hold f hf)
  · -- seen
    exact fun a ha b hpr => h.seen a ha b (processed_pop h hw hc hpr)
  · -- lowLe: where `v` was the low frame its parent is now
    intro f hf a ha hfa b hpr hb
    obtain ⟨f', hf', hff', hl'⟩ :=
      h.lowLe f (hold f hf) a ha hfa b (processed_pop h hw hc hpr) hb
    rw [hw] at hf'
    rcases List.mem_cons.mp hf' with rfl | hf'
    · exact ⟨p, List.mem_cons_self, hple f hf, le_trans hlowp hl'⟩
    · exact ⟨f', hf', hff', le_trans (hlow _) hl'⟩

/-- **Emitting the component of a root keeps the invariant.** -/
theorem emit_core (h : Core g none s) (hw : s.work = ⟨v, c⟩ :: rest)
    (hc : (children g v).length ≤ c) (heq : low s v = ix s v) :
    Core g none { emit v s with work := rest } := by
  have hvw : (⟨v, c⟩ : Frame V) ∈ s.work := by rw [hw]; exact List.mem_cons_self
  have hvs : v ∈ s.stack := h.frame_mem hvw
  obtain ⟨above, below, hstack, hpop⟩ := popUntil_spec hvs
  have hemit : emit v s = { s with
      stack := below
      onStack := fun u => s.onStack u && !decide (u ∈ above ++ [v])
      rawSccs := s.rawSccs ++ [above ++ [v]] } := by
    unfold emit
    rw [hpop]
  have hsorted := h.sorted
  rw [hstack, List.pairwise_append, List.pairwise_cons] at hsorted
  obtain ⟨-, ⟨hbelow, hsortedB⟩, hcross⟩ := hsorted
  have hnodup := h.stack_nodup
  rw [hstack] at hnodup
  have hsegs : ∀ a ∈ above ++ [v], a ∈ s.stack ∧ ix s v ≤ ix s a := by
    intro a ha
    rcases List.mem_append.mp ha with ha | ha
    · exact ⟨by rw [hstack]; exact List.mem_append_left _ ha,
        (hcross a ha v List.mem_cons_self).le⟩
    · rw [List.mem_singleton.mp ha]; exact ⟨hvs, le_rfl⟩
  have hsegof : ∀ a ∈ s.stack, ix s v ≤ ix s a → a ∈ above ++ [v] := by
    intro a ha hva
    rw [hstack] at ha
    rcases List.mem_append.mp ha with ha | ha
    · exact List.mem_append_left _ ha
    · rcases List.mem_cons.mp ha with rfl | ha
      · simp
      · exact absurd (hbelow a ha) (by omega)
  have hbelows : ∀ a ∈ below, a ∈ s.stack := fun a ha => by
    rw [hstack]; exact List.mem_append_right _ (List.mem_cons_of_mem _ ha)
  have hbelownot : ∀ a ∈ below, a ∉ above ++ [v] := fun a ha hm =>
    absurd (hbelow a ha) (by have := (hsegs a hm).2; omega)
  have hsplit : ∀ a, a ∈ s.stack ↔ a ∈ above ++ [v] ∨ a ∈ below := by
    intro a
    rw [hstack]
    simp [or_assoc]
  -- the component is closed up to what was emitted before
  have hclosed : ∀ a ∈ above ++ [v], ∀ w, Edge g a w →
      w ∈ above ++ [v] ∨ w ∈ s.rawSccs.flatten := by
    intro a ha w hedge
    obtain ⟨has, hva⟩ := hsegs a ha
    have hpr : Processed g s a w := by
      refine processed_pop h hw hc ⟨hedge, fun f hf hfa => ?_⟩
      have hlt : ix s f.node < ix s v := h.ix_lt_top hw hf
      rw [hfa] at hlt
      exact absurd hva (by omega)
    have hidx : (s.index w).isSome := (h.seen a has w hpr).resolve_right (by simp)
    rcases (h.indexed w).mp hidx with hws | hwf
    · left
      obtain ⟨f', hf', hff', hl'⟩ := h.lowLe _ hvw a has hva w hpr hws
      rw [hw] at hf'
      rcases List.mem_cons.mp hf' with rfl | hf'
      · exact hsegof w hws (by rw [heq] at hl'; exact hl')
      · have hlt := h.ix_lt_top hw hf'
        simp only at hff'
        exact absurd hlt (by omega)
    · exact Or.inr hwf
  have hfrom : ∀ a ∈ above ++ [v], Reach g v a := fun a ha =>
    h.ofFrame _ hvw a (hsegs a ha).1 (hsegs a ha).2
  have hto : ∀ a ∈ above ++ [v], Reach g a v := by
    intro a ha
    obtain ⟨f, hf, -, hr⟩ := h.toFrame a (hsegs a ha).1
    exact hr.trans (h.ofFrame f hf v hvs (h.ix_le_top hw hf))
  have hclass : IsClass g (above ++ [v]) := by
    refine ⟨by simp, fun a ha u => ⟨fun hu => ?_, fun ⟨hau, hua⟩ => ?_⟩⟩
    · exact ⟨(hto a ha).trans (hfrom u hu), (hto u hu).trans (hfrom a ha)⟩
    · have htopo := h.topo.snoc hclosed
      have hmem : u ∈ (s.rawSccs ++ [above ++ [v]]).flatten :=
        htopo.reach (by rw [List.flatten_append]; simp_all) hau
      rw [List.flatten_append, List.mem_append] at hmem
      rcases hmem with hmem | hmem
      · exact absurd (h.topo.reach hmem hua) (h.disj a (hsegs a ha).1)
      · simpa using hmem
  have hrestold : ∀ f ∈ rest, f ∈ s.work := fun f hf => by
    rw [hw]; exact List.mem_cons_of_mem _ hf
  have hrestbelow : ∀ f ∈ rest, f.node ∈ below := by
    intro f hf
    rcases (hsplit f.node).mp (h.frame_mem (hrestold f hf)) with hm | hm
    · exact absurd (h.ix_lt_top hw hf) (by have := (hsegs _ hm).2; omega)
    · exact hm
  rw [hemit]
  refine ⟨?_, ?_, hsortedB, ?_, ?_, ?_, h.rooted, ?_, ?_, ?_, ?_, ?_, ?_, ?_, h.topo.snoc hclosed⟩
  · -- indexed
    intro a
    rw [h.indexed a, hsplit a]
    simp only [List.flatten_append, List.flatten_singleton, List.mem_append]
    tauto
  · -- lt_next
    exact fun a ha => h.lt_next a (hbelows a ha)
  · -- onStack
    intro a
    simp only [Bool.and_eq_true, Bool.not_eq_true', decide_eq_false_iff_not, h.onStack a, hsplit a]
    constructor
    · rintro ⟨hm | hm, hn⟩
      · exact absurd hm hn
      · exact hm
    · exact fun hm => ⟨Or.inr hm, hbelownot a hm⟩
  · -- disj
    intro a ha hm
    rw [List.flatten_append, List.mem_append] at hm
    rcases hm with hm | hm
    · exact h.disj a (hbelows a ha) hm
    · exact hbelownot a ha (by simpa using hm)
  · -- nodup
    rw [List.flatten_append, List.nodup_append]
    refine ⟨h.nodup, ?_, ?_⟩
    · have hsub : (above ++ [v]).Sublist (above ++ v :: below) :=
        (List.Sublist.refl above).append (by simp)
      simpa using hsub.nodup hnodup
    · rintro a ha b hb rfl
      exact h.disj a (hsegs a (by simpa using hb)).1 ha
  · -- frames
    have hf := h.frames
    have hsub : (rest.map Frame.node).Sublist s.stack := by
      rw [hw, List.map_cons] at hf
      exact (List.sublist_cons_self _ _).trans hf
    rw [hstack] at hsub
    have hdisj : ∀ a ∈ rest.map Frame.node, a ∉ above ++ [v] := by
      intro a ha
      obtain ⟨f, hfr, rfl⟩ := List.mem_map.mp ha
      exact hbelownot _ (hrestbelow f hfr)
    have hsplit' : above ++ v :: below = (above ++ [v]) ++ below := by simp
    rw [hsplit'] at hsub
    obtain ⟨l₁, l₂, hl, hl₁, hl₂⟩ := List.sublist_append_iff.mp hsub
    have hnil : l₁ = [] := by
      cases l₁ with
      | nil => rfl
      | cons a l₁ =>
        exact absurd (hl₁.subset List.mem_cons_self) (hdisj a (by rw [hl]; simp))
    rw [hl, hnil]
    exact hl₂
  · -- low_spec
    intro f hf
    obtain ⟨lf, hlf, hlfix, wf, hwfs, hwfl, hr⟩ := h.low_spec f (hrestold f hf)
    refine ⟨lf, hlf, hlfix, wf, ?_, hwfl, hr⟩
    rcases (hsplit wf).mp hwfs with hm | hm
    · have hlt := h.ix_lt_top hw hf
      exact absurd (hsegs _ hm).2 (by rw [hwfl]; omega)
    · exact hm
  · -- toFrame
    intro a ha
    obtain ⟨f, hf, hfa, hr⟩ := h.toFrame a (hbelows a ha)
    rw [hw] at hf
    rcases List.mem_cons.mp hf with rfl | hf
    · exact absurd (hbelow a ha) (by simp only at hfa; omega)
    · exact ⟨f, hf, hfa, hr⟩
  · -- ofFrame
    exact fun f hf a ha => h.ofFrame f (hrestold f hf) a (hbelows a ha)
  · -- seen
    intro a ha b hpr
    exact h.seen a (hbelows a ha) b (processed_pop h hw hc hpr)
  · -- lowLe
    intro f hf a ha hfa b hpr hb
    obtain ⟨f', hf', hff', hl'⟩ :=
      h.lowLe f (hrestold f hf) a (hbelows a ha) hfa b (processed_pop h hw hc hpr) (hbelows b hb)
    rw [hw] at hf'
    rcases List.mem_cons.mp hf' with rfl | hf'
    · exact absurd (hbelow b hb) (by rw [heq] at hl'; omega)
    · exact ⟨f', hf', hff', hl'⟩
  · -- classes
    intro C hC
    rcases List.mem_append.mp hC with hC | hC
    · exact h.classes C hC
    · rw [List.mem_singleton.mp hC]; exact hclass

/-- **Settling a node keeps the invariant.** -/
theorem settle_inv (h : Core g none s) (hw : s.work = ⟨v, c⟩ :: rest)
    (hrest : ∀ f ∈ rest, 0 < f.childIdx) (hc : (children g v).length ≤ c) :
    Inv g (settle v rest s) := by
  have hvw : (⟨v, c⟩ : Frame V) ∈ s.work := by rw [hw]; exact List.mem_cons_self
  have hvs : v ∈ s.stack := h.frame_mem hvw
  obtain ⟨l, hl, -⟩ := h.low_spec _ hvw
  obtain ⟨i, hi⟩ : ∃ i, s.index v = some i :=
    Option.isSome_iff_exists.mp ((h.indexed v).mpr (Or.inl hvs))
  have hlow : low s v = l := by simp [low, hl]
  have hix : ix s v = i := by simp [ix, hi]
  right
  unfold settle
  by_cases hroot : s.lowlink v = s.index v
  · -- a root: the parent's lowlink is already lower
    have heq : low s v = ix s v := by rw [low, ix, hroot]
    have hcore := emit_core h hw hc heq
    have hlowlink : (emit v s).lowlink = s.lowlink := by simp [emit]
    simp only [if_pos hroot]
    cases hr : rest with
    | nil =>
      rw [hr] at hcore
      exact ⟨by simp, hcore⟩
    | cons p rest' =>
      rw [hr] at hcore hrest
      have hp : p ∈ s.work := by rw [hw, hr]; simp
      have hle : low s p.node ≤ ix s v :=
        le_trans (h.low_le_ix hp) (h.ix_lt_top hw (by rw [hr]; exact List.mem_cons_self)).le
      obtain ⟨lp, hlp, -⟩ := h.low_spec p hp
      have hself : lower p.node (((emit v s).lowlink v).getD 0)
          { emit v s with work := p :: rest' } = { emit v s with work := p :: rest' } := by
        unfold lower
        have hmin : min ((s.lowlink p.node).getD 0) ((s.lowlink v).getD 0) = lp := by
          have h1 : (s.lowlink p.node).getD 0 = lp := by simp [hlp]
          have h2 : (s.lowlink v).getD 0 = ix s v := heq
          rw [h1, h2]
          have : low s p.node = lp := h1
          omega
        simp only [hlowlink, hmin]
        rw [← hlp, Function.update_eq_self]
      refine ⟨?_, ?_⟩
      · simpa [lower] using hrest
      · show Core g none (lower p.node (((emit v s).lowlink v).getD 0)
          { emit v s with work := p :: rest' })
        rw [hself]
        exact hcore
  · -- not a root
    have hne : low s v ≠ ix s v := fun heq => hroot (by rw [hl, hi, ← hlow, ← hix, heq])
    obtain ⟨p, rest', hr, hcore⟩ := pop_core h hw hc hne
    simp only [if_neg hroot]
    subst hr
    exact ⟨by simpa [lower] using hrest, hcore⟩

end Settle

/-! ## 6. One turn -/

/-- **The step lemma**: a turn of the inner loop keeps the invariant. -/
theorem step_inv {s s' : TarjanState V} (h : Inv g s) (hst : step g s = some s') : Inv g s' := by
  unfold step at hst
  rcases h with ⟨x, rest, hw, hx, hedge, hroot, hrest, hcore⟩ | ⟨hpos, hcore⟩
  · have hvisit := visit_core hw hx hedge hroot hcore
    have hw' : (visit x s).work = ⟨x, 0⟩ :: rest := hw
    rw [hw] at hst
    simp only [if_true] at hst
    cases hc : (children g x)[0]? with
    | some child =>
      simp only [hc, Option.some.injEq] at hst
      exact hst ▸ advance_inv hvisit hw' hrest hc
    | none =>
      simp only [hc, Option.some.injEq] at hst
      exact hst ▸ settle_inv hvisit hw' hrest (List.getElem?_eq_none_iff.mp hc)
  · cases hw : s.work with
    | nil => simp [hw] at hst
    | cons f rest =>
      obtain ⟨v, c⟩ := f
      have hc0 : c ≠ 0 := by
        have := hpos ⟨v, c⟩ (by simp [hw])
        simp only at this
        omega
      have hrest : ∀ f ∈ rest, 0 < f.childIdx := fun f hf => hpos f (by simp [hw, hf])
      rw [hw] at hst
      simp only [if_neg hc0] at hst
      cases hc : (children g v)[c]? with
      | some child =>
        simp only [hc, Option.some.injEq] at hst
        exact hst ▸ advance_inv hcore hw hrest hc
      | none =>
        simp only [hc, Option.some.injEq] at hst
        exact hst ▸ settle_inv hcore hw hrest (List.getElem?_eq_none_iff.mp hc)

end AlSem.L4.Tarjan
