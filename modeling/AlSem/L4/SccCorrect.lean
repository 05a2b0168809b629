/-
# Tarjan's algorithm is correct

The inner loop ends (`search_spec`): each turn lowers the work left (`left_lt`), which counts the
children still to be read of the white nodes and of the frames.  Over all nodes the algorithm
therefore returns (`searchAll_spec`), and its components are what `IsSccOrder` says: the classes
of mutually reachable nodes, each once, of exactly the nodes reachable from the input, callees
first (`tarjanScc_isSccOrder`).
-/
import AlSem.L4.SccInvariant
import Mathlib.Algebra.BigOperators.Group.Finset.Basic
import Mathlib.Algebra.Order.BigOperators.Group.Finset

namespace AlSem.L4.Tarjan

variable {V : Type*} [DecidableEq V] {g : SccInputGraph V}

/-! ## 1. The nodes the algorithm can meet -/

/-- An edge leads to a node of the list. -/
theorem edge_mem_allNodes {a b : V} (h : Edge g a b) : b ∈ allNodes g := by
  obtain ⟨e, he, -, hb⟩ := HashMap.mem_of_mem_getList h
  rw [allNodes, List.mem_dedup]
  exact List.mem_append_right _ (List.mem_flatMap.mpr ⟨e, he, hb⟩)

/-- What is reachable from an input node is in the list. -/
theorem reach_mem_allNodes {n v : V} (hn : n ∈ g.nodes) (h : Reach g n v) : v ∈ allNodes g := by
  cases h with
  | refl => exact List.mem_dedup.mpr (List.mem_append_left _ hn)
  | tail _ hedge => exact edge_mem_allNodes hedge

/-! ## 2. The work left -/

/-- The turns a white node still needs: one a child, and one to settle. -/
def whiteCost (g : SccInputGraph V) (s : TarjanState V) (v : V) : ℕ :=
  if (s.index v).isNone then (children g v).length + 1 else 0

/-- The turns a frame still needs; a new frame is counted at its white node. -/
def frameCost (g : SccInputGraph V) (f : Frame V) : ℕ :=
  if f.childIdx = 0 then 0 else ((children g f.node).length - f.childIdx) + 1

/-- The turns the inner loop still needs. -/
def left (g : SccInputGraph V) (s : TarjanState V) : ℕ :=
  (∑ v ∈ (allNodes g).toFinset, whiteCost g s v) + (s.work.map (frameCost g)).sum

/-- The fuel is enough at any point of the outer loop. -/
theorem left_lt_fuel (s : TarjanState V) (start : V) :
    left g { s with work := [⟨start, 0⟩] } < fuel g := by
  have hsum : ∑ v ∈ (allNodes g).toFinset, whiteCost g { s with work := [⟨start, 0⟩] } v
      ≤ ∑ v ∈ (allNodes g).toFinset, ((children g v).length + 1) :=
    Finset.sum_le_sum fun v _ => by unfold whiteCost; split <;> omega
  have hlist : ∑ v ∈ (allNodes g).toFinset, ((children g v).length + 1)
      = ((allNodes g).map fun v => (children g v).length + 1).sum :=
    List.sum_toFinset _ (List.nodup_dedup _)
  simp only [left, fuel, frameCost, List.map_cons, List.map_nil, List.sum_cons, List.sum_nil,
    if_true]
  omega

/-- A visit takes the visited node's turns out of the white part. -/
theorem white_visit {s : TarjanState V} {x : V} (hx : s.index x = none) (hmem : x ∈ allNodes g) :
    (∑ v ∈ (allNodes g).toFinset, whiteCost g (visit x s) v) + ((children g x).length + 1)
      = ∑ v ∈ (allNodes g).toFinset, whiteCost g s v := by
  have hxm : x ∈ (allNodes g).toFinset := List.mem_toFinset.mpr hmem
  rw [← Finset.add_sum_erase _ _ hxm, ← Finset.add_sum_erase _ (whiteCost g s) hxm]
  have hrest : ∑ v ∈ (allNodes g).toFinset.erase x, whiteCost g (visit x s) v
      = ∑ v ∈ (allNodes g).toFinset.erase x, whiteCost g s v := by
    refine Finset.sum_congr rfl fun v hv => ?_
    have hvx : v ≠ x := Finset.ne_of_mem_erase hv
    simp [whiteCost, visit, hvx]
  have hnew : whiteCost g (visit x s) x = 0 := by simp [whiteCost, visit]
  have hold : whiteCost g s x = (children g x).length + 1 := by simp [whiteCost, hx]
  rw [hrest, hnew, hold]
  omega

/-- The work left after a child is read: the same white nodes, the frame one child further. -/
theorem left_advance (s : TarjanState V) (v child : V) (c : ℕ) (rest : List (Frame V)) :
    left g (advance v child c rest s)
      = (∑ u ∈ (allNodes g).toFinset, whiteCost g s u)
        + (frameCost g ⟨v, c + 1⟩ + (rest.map (frameCost g)).sum) := by
  unfold advance
  dsimp only
  split
  · simp [left, whiteCost, frameCost]
  · split <;> simp [left, whiteCost, lower]

/-- The work left after a node is settled: the same white nodes, one frame less. -/
theorem left_settle (s : TarjanState V) (v : V) (rest : List (Frame V)) :
    left g (settle v rest s)
      = (∑ u ∈ (allNodes g).toFinset, whiteCost g s u) + (rest.map (frameCost g)).sum := by
  have hindex : (emit v s).index = s.index := by simp [emit]
  unfold settle
  split <;> cases rest <;> simp [left, whiteCost, lower, hindex]

/-- **A turn of the inner loop lowers the work left.** -/
theorem left_lt {s s' : TarjanState V} (h : Inv g s) (hst : step g s = some s') :
    left g s' < left g s := by
  unfold step at hst
  rcases h with ⟨x, rest, hw, hx, -, ⟨n, hn, hr⟩, -, -⟩ | ⟨hpos, -⟩
  · have hwhite := white_visit hx (reach_mem_allNodes hn hr)
    have hleft : left g s = (∑ v ∈ (allNodes g).toFinset, whiteCost g s v)
        + (rest.map (frameCost g)).sum := by simp [left, hw, frameCost]
    rw [hw] at hst
    simp only [if_true] at hst
    cases hc : (children g x)[0]? with
    | some child =>
      simp only [hc, Option.some.injEq] at hst
      have hlen : 0 < (children g x).length := (List.getElem?_eq_some_iff.mp hc).1
      rw [← hst, left_advance, hleft, ← hwhite]
      simp only [frameCost, Nat.zero_add, one_ne_zero, if_false]
      omega
    | none =>
      simp only [hc, Option.some.injEq] at hst
      rw [← hst, left_settle, hleft, ← hwhite]
      omega
  · cases hw : s.work with
    | nil => simp [hw] at hst
    | cons f rest =>
      obtain ⟨v, c⟩ := f
      have hc0 : c ≠ 0 := by
        have := hpos ⟨v, c⟩ (by simp [hw])
        simp only at this
        omega
      have hleft : left g s = (∑ u ∈ (allNodes g).toFinset, whiteCost g s u)
          + (frameCost g ⟨v, c⟩ + (rest.map (frameCost g)).sum) := by simp [left, hw]
      have hcost : frameCost g ⟨v, c⟩ = ((children g v).length - c) + 1 := by
        simp [frameCost, hc0]
      rw [hw] at hst
      simp only [if_neg hc0] at hst
      cases hc : (children g v)[c]? with
      | some child =>
        simp only [hc, Option.some.injEq] at hst
        have hlen : c < (children g v).length := (List.getElem?_eq_some_iff.mp hc).1
        rw [← hst, left_advance, hleft, hcost]
        simp only [frameCost, Nat.add_eq_zero_iff, one_ne_zero, and_false, if_false]
        omega
      | none =>
        simp only [hc, Option.some.injEq] at hst
        rw [← hst, left_settle, hleft, hcost]
        omega

/-! ## 3. The outer loop -/

/-- Between two searches: the invariant, and nothing left to do. -/
def Idle (g : SccInputGraph V) (s : TarjanState V) : Prop := Core g none s ∧ s.work = []

/-- With no frame the stack is empty. -/
theorem Idle.stack_nil {s : TarjanState V} (h : Idle g s) : s.stack = [] := by
  cases hs : s.stack with
  | nil => rfl
  | cons v st =>
    obtain ⟨f, hf, -⟩ := h.1.toFrame v (by rw [hs]; exact List.mem_cons_self)
    rw [h.2] at hf
    simp at hf

/-- Between two searches a node is numbered exactly when it is in a component. -/
theorem Idle.indexed_iff {s : TarjanState V} (h : Idle g s) (v : V) :
    (s.index v).isSome ↔ v ∈ s.rawSccs.flatten := by
  rw [h.1.indexed v, h.stack_nil]
  simp

/-- Before the first search. -/
theorem initial_idle (g : SccInputGraph V) : Idle g (initial : TarjanState V) := by
  refine ⟨?_, rfl⟩
  constructor <;> simp [initial, TopoClosed]

/-- The pending child of a state without frames does not matter. -/
theorem Core.pend {s : TarjanState V} {x : Option V} (h : Core g none s) : Core g x s :=
  { h with seen := fun v hv w hw => Or.inl ((h.seen v hv w hw).resolve_right (by simp)) }

/-- A turn numbers nodes and forgets none. -/
theorem step_indexed {s s' : TarjanState V} (hst : step g s = some s') {v : V}
    (hv : (s.index v).isSome) : (s'.index v).isSome := by
  have hemit : ∀ (u : V) (t : TarjanState V), (emit u t).index = t.index := by simp [emit]
  have hadv : ∀ (u child : V) (c : ℕ) (rest : List (Frame V)) (t : TarjanState V),
      (advance u child c rest t).index = t.index := by
    intro u child c rest t
    unfold advance
    dsimp only
    split
    · rfl
    · split <;> rfl
  have hset : ∀ (u : V) (rest : List (Frame V)) (t : TarjanState V),
      (settle u rest t).index = t.index := by
    intro u rest t
    unfold settle
    split <;> cases rest <;> simp [lower, hemit]
  unfold step at hst
  cases hw : s.work with
  | nil => simp [hw] at hst
  | cons f rest =>
    have hvisit : ((if f.childIdx = 0 then visit f.node s else s).index v).isSome := by
      split
      · by_cases hvf : v = f.node
        · simp [visit, hvf]
        · simpa [visit, hvf] using hv
      · exact hv
    rw [hw] at hst
    simp only at hst
    split at hst <;> (simp only [Option.some.injEq] at hst; subst hst)
    · rw [hadv]; exact hvisit
    · rw [hset]; exact hvisit

/-- The first turn of a search numbers its start. -/
theorem step_start {s s' : TarjanState V} {start : V} (hw : s.work = [⟨start, 0⟩])
    (hst : step g s = some s') : (s'.index start).isSome := by
  have hvis : ((visit start s).index start).isSome := by simp [visit]
  unfold step at hst
  rw [hw] at hst
  simp only [if_true] at hst
  split at hst <;> (simp only [Option.some.injEq] at hst; subst hst)
  · unfold advance
    dsimp only
    split
    · exact hvis
    · split <;> exact hvis
  · unfold settle
    split <;> simp [emit, visit]

/-- **One search ends**, numbers its start and forgets no number. -/
theorem search_spec {s : TarjanState V} (h : Idle g s) {start : V} (hs : start ∈ g.nodes) :
    ∃ s', search g start s = some s' ∧ Idle g s' ∧ (s'.index start).isSome ∧
      ∀ v, (s.index v).isSome → (s'.index v).isSome := by
  unfold search
  by_cases hi : (s.index start).isSome
  · rw [if_pos hi]
    exact ⟨s, rfl, h, hi, fun _ hv => hv⟩
  · rw [if_neg hi]
    have hnone : s.index start = none := by simpa using hi
    have hinv : Inv g { s with work := [⟨start, 0⟩] } := by
      left
      refine ⟨start, [], rfl, hnone, by simp, ⟨start, hs, Relation.ReflTransGen.refl⟩, by simp, ?_⟩
      have hcore : Core g (some start) s := h.1.pend
      have hself : s = { s with work := [] } := by rw [← h.2]
      exact hself ▸ hcore
    obtain ⟨s', hrun, ⟨hinv', hstart, hmono⟩, hend⟩ :=
      Loop.run_spec (step g)
        (fun t => Inv g t ∧ ((t.index start).isSome ∨ t.work = [⟨start, 0⟩]) ∧
          ∀ v, (s.index v).isSome → (t.index v).isSome)
        (left g)
        (fun t t' ht hstep =>
          ⟨step_inv ht.1 hstep,
            Or.inl (ht.2.1.elim (fun hx => step_indexed hstep hx) fun hw => step_start hw hstep),
            fun v hv => step_indexed hstep (ht.2.2 v hv)⟩)
        (fun t t' ht hstep => left_lt ht.1 hstep)
        (fuel g) { s with work := [⟨start, 0⟩] }
        ⟨hinv, Or.inr rfl, fun v hv => hv⟩ (left_lt_fuel s start)
    have hwork : s'.work = [] := by
      cases hw : s'.work with
      | nil => rfl
      | cons f rest =>
        unfold step at hend
        rw [hw] at hend
        simp only at hend
        split at hend <;> simp at hend
    refine ⟨s', hrun, ⟨?_, hwork⟩, ?_, hmono⟩
    · rcases hinv' with ⟨x, rest, hw, -⟩ | ⟨-, hcore⟩
      · rw [hwork] at hw; simp at hw
      · exact hcore
    · exact hstart.resolve_right (by rw [hwork]; simp)

/-- **The outer loop ends**, and numbers every node it was given. -/
theorem searchAll_spec : ∀ (nodes : List V) {s : TarjanState V}, Idle g s →
    (∀ n ∈ nodes, n ∈ g.nodes) →
    ∃ s', searchAll g nodes s = some s' ∧ Idle g s' ∧ (∀ n ∈ nodes, (s'.index n).isSome) ∧
      ∀ v, (s.index v).isSome → (s'.index v).isSome
  | [], s, h, _ => ⟨s, rfl, h, by simp, fun _ hv => hv⟩
  | start :: nodes, s, h, hsub => by
    obtain ⟨s₁, hs₁, hidle, hstart, hmono⟩ := search_spec h (hsub start List.mem_cons_self)
    obtain ⟨s₂, hs₂, hidle₂, hnodes, hmono₂⟩ :=
      searchAll_spec nodes hidle fun n hn => hsub n (List.mem_cons_of_mem _ hn)
    refine ⟨s₂, by simp [searchAll, hs₁, hs₂], hidle₂, ?_, fun v hv => hmono₂ v (hmono v hv)⟩
    intro n hn
    rcases List.mem_cons.mp hn with rfl | hn
    · exact hmono₂ n hstart
    · exact hnodes n hn

/-! ## 4. The result -/

/-- `sccs` lists the classes of mutually reachable nodes of the graph, each class once, callees
first, of exactly the nodes reachable from the input nodes. -/
structure IsSccOrder (g : SccInputGraph V) (sccs : List (List V)) : Prop where
  nodup : sccs.flatten.Nodup
  classes : ∀ C ∈ sccs, IsClass g C
  topo : TopoClosed g sccs
  mem : ∀ v, v ∈ sccs.flatten ↔ ∃ n ∈ g.nodes, Reach g n v

/-- An SCC order stays one when each component is listed in another order. -/
theorem IsSccOrder.map_perm {sccs : List (List V)} (h : IsSccOrder g sccs)
    {f : List V → List V} (hf : ∀ C, (f C).Perm C) : IsSccOrder g (sccs.map f) := by
  have hmem : ∀ (L : List (List V)) v, v ∈ (L.map f).flatten ↔ v ∈ L.flatten := by
    intro L v
    simp only [List.mem_flatten, List.mem_map, exists_exists_and_eq_and, (hf _).mem_iff]
  refine ⟨?_, ?_, ?_, fun v => by rw [hmem, h.mem]⟩
  · have hperm : (sccs.map f).flatten.Perm sccs.flatten := by
      have hlen : ∀ L : List (List V), (L.map f).flatten.Perm L.flatten := by
        intro L
        induction L with
        | nil => exact List.Perm.refl _
        | cons C L ih => simpa using (hf C).append ih
      exact hlen sccs
    exact hperm.nodup_iff.mpr h.nodup
  · intro D hD
    obtain ⟨C, hC, rfl⟩ := List.mem_map.mp hD
    obtain ⟨hne, hcl⟩ := h.classes C hC
    have hne' : f C ≠ [] := fun hnil => hne (hnil ▸ hf C).nil_eq.symm
    refine ⟨hne', fun v hv u => ?_⟩
    rw [(hf C).mem_iff]
    exact hcl v ((hf C).mem_iff.mp hv) u
  · intro before D after heq v hv w hw
    obtain ⟨before', rest', rfl, rfl, hrest⟩ := List.map_eq_append_iff.mp heq
    obtain ⟨C, after', rfl, rfl, rfl⟩ := List.map_eq_cons_iff.mp hrest
    rcases h.topo before' C after' rfl v ((hf C).mem_iff.mp hv) w hw with hm | hm
    · exact Or.inl ((hf C).mem_iff.mpr hm)
    · exact Or.inr ((hmem before' w).mpr hm)

end Tarjan

open Tarjan

variable {V : Type*} [LinearOrder V]

/-- **Tarjan's algorithm returns the strongly connected components, callees first.** -/
theorem tarjanScc_isSccOrder (g : SccInputGraph V) :
    IsSccOrder g ((tarjanScc g).sccs.map Scc.members) := by
  obtain ⟨s, hs, hidle, hnodes, -⟩ :=
    searchAll_spec g.nodes (initial_idle g) fun _ hn => hn
  have hraw : IsSccOrder g s.rawSccs := by
    refine ⟨hidle.1.nodup, hidle.1.classes, hidle.1.topo, fun v => ⟨fun hv => ?_, ?_⟩⟩
    · exact hidle.1.rooted v ((hidle.indexed_iff v).mpr hv)
    · rintro ⟨n, hn, hr⟩
      exact hidle.1.topo.reach ((hidle.indexed_iff n).mp (hnodes n hn)) hr
  have heq : (tarjanScc g).sccs.map Scc.members = s.rawSccs.map (fun C => C.mergeSort) := by
    simp only [tarjanScc, hs, Option.getD_some, List.map_map]
    rfl
  rw [heq]
  exact hraw.map_perm fun C => List.mergeSort_perm C _

/-! ## 5. The component map and the flag -/

namespace Tarjan

omit [LinearOrder V] in
theorem foldl_update_eq [DecidableEq V] (ms : List V) (ids : V → Option ℕ) (i : ℕ) (v : V) :
    ms.foldl (fun ids m => Function.update ids m (some i)) ids v =
      if v ∈ ms then some i else ids v := by
  induction ms generalizing ids with
  | nil => simp
  | cons m ms ih =>
    rw [List.foldl_cons, ih]
    by_cases hm : v ∈ ms
    · simp [hm]
    · by_cases hv : v = m <;> simp [hm, hv]

omit [LinearOrder V] in
/-- A node of two components of a list without repeats is in one. -/
theorem index_unique {sccs : List (Scc V)} (hnd : (sccs.map Scc.members).flatten.Nodup) {i j : ℕ}
    {c d : Scc V} (hc : sccs[i]? = some c) (hd : sccs[j]? = some d) {v : V} (hvc : v ∈ c.members)
    (hvd : v ∈ d.members) : i = j := by
  obtain ⟨hi, rfl⟩ := List.getElem?_eq_some_iff.mp hc
  obtain ⟨hj, rfl⟩ := List.getElem?_eq_some_iff.mp hd
  have hpair := List.pairwise_iff_getElem.mp (List.nodup_flatten.mp hnd).2
  rcases Nat.lt_trichotomy i j with hij | hij | hij
  · have := hpair i j (by simpa using hi) (by simpa using hj) hij
    simp only [List.getElem_map] at this
    exact absurd hvd (this hvc)
  · exact hij
  · have := hpair j i (by simpa using hj) (by simpa using hi) hij
    simp only [List.getElem_map] at this
    exact absurd hvc (this hvd)

/-- **Each member has its component.** -/
theorem sccIds_eq_some_iff {sccs : List (Scc V)} (hnd : (sccs.map Scc.members).flatten.Nodup) (v : V)
    (i : ℕ) : sccIds sccs v = some i ↔ ∃ c, sccs[i]? = some c ∧ v ∈ c.members := by
  induction sccs using List.reverseRecOn with
  | nil => simp [sccIds]
  | append_singleton sccs c ih =>
    have hstep : sccIds (sccs ++ [c]) v =
        if v ∈ c.members then some sccs.length else sccIds sccs v := by
      simp only [sccIds, List.zipIdx_append, List.zipIdx_singleton, List.foldl_append,
        List.foldl_cons, List.foldl_nil, Nat.zero_add]
      exact foldl_update_eq c.members _ sccs.length v
    have hlast : (sccs ++ [c])[sccs.length]? = some c := by simp
    rw [hstep]
    split
    · rename_i hv
      constructor
      · intro h
        obtain rfl := Option.some.inj h
        exact ⟨c, hlast, hv⟩
      · rintro ⟨d, hd, hvd⟩
        rw [index_unique hnd hlast hd hv hvd]
    · rename_i hv
      have hnd' : (sccs.map Scc.members).flatten.Nodup := by
        rw [List.map_append, List.flatten_append] at hnd
        exact hnd.of_append_left
      rw [ih hnd']
      constructor
      · rintro ⟨d, hd, hvd⟩
        have hi := (List.getElem?_eq_some_iff.mp hd).1
        exact ⟨d, by rw [List.getElem?_append_left hi]; exact hd, hvd⟩
      · rintro ⟨d, hd, hvd⟩
        rcases Nat.lt_or_ge i sccs.length with hi | hi
        · exact ⟨d, by rwa [List.getElem?_append_left hi] at hd, hvd⟩
        · rw [List.getElem?_append_right hi] at hd
          rw [List.mem_singleton.mp (List.mem_of_getElem? hd)] at hvd
          exact absurd hvd hv

/-- An edge to another component leads to an earlier one. -/
theorem edge_earlier {g : SccInputGraph V} {sccs : List (Scc V)}
    (h : IsSccOrder g (sccs.map Scc.members)) {i j : ℕ} {c d : Scc V} (hc : sccs[i]? = some c)
    (hd : sccs[j]? = some d) {u v : V} (hu : u ∈ c.members) (hv : v ∈ d.members) (hedge : Edge g u v)
    (hne : i ≠ j) : j < i := by
  obtain ⟨hi, hget⟩ := List.getElem?_eq_some_iff.mp hc
  have hsplit : sccs = sccs.take i ++ c :: sccs.drop (i + 1) := by
    rw [← hget, List.getElem_cons_drop, List.take_append_drop]
  have hmap : sccs.map Scc.members =
      (sccs.take i).map Scc.members ++ c.members :: (sccs.drop (i + 1)).map Scc.members := by
    conv_lhs => rw [hsplit]
    rw [List.map_append, List.map_cons]
  rcases h.topo _ _ _ hmap u hu v hedge with hvc | hvb
  · exact absurd (index_unique h.nodup hc hd hvc hv) hne
  · obtain ⟨ms, hms, hvm⟩ := List.mem_flatten.mp hvb
    obtain ⟨e, he, rfl⟩ := List.mem_map.mp hms
    obtain ⟨k, hk, rfl⟩ := List.mem_take_iff_getElem.mp he
    have hlt : k < sccs.length := by omega
    have hk' : sccs[k]? = some sccs[k] := List.getElem?_eq_getElem _
    rw [← index_unique h.nodup hk' hd hvm hv]
    omega

theorem finishScc_recursive (g : SccInputGraph V) (ms : List V) :
    (finishScc g ms).recursive = true ↔
      1 < (finishScc g ms).members.length ∨ ∃ v, (finishScc g ms).members = [v] ∧ Edge g v v := by
  simp only [finishScc, Bool.or_eq_true, decide_eq_true_eq]
  refine or_congr_right' fun hlen => ?_
  rcases hm : ms.mergeSort with _ | ⟨v, _ | ⟨b, rest⟩⟩
  · simp [hm]
  · simp [hm, Edge]
  · rw [hm] at hlen
    simp at hlen

end Tarjan

/-- **Tarjan's algorithm.**  The search ends; the components are nonempty and share no node, and hold the
nodes reachable from the given ones; two of these are in one component if each reaches the other; an edge
between components leads to an earlier one; every member is mapped to its component; and the flag says that
a component has two members or a self-edge. -/
theorem tarjanScc_correct (g : SccInputGraph V) :
    (searchAll g g.nodes initial).isSome = true ∧
    ((tarjanScc g).sccs.map Scc.members).flatten.Nodup ∧
    (∀ c ∈ (tarjanScc g).sccs, c.members ≠ []) ∧
    (∀ v, v ∈ ((tarjanScc g).sccs.map Scc.members).flatten ↔ ∃ n ∈ g.nodes, Reach g n v) ∧
    (∀ c ∈ (tarjanScc g).sccs, ∀ u ∈ c.members, ∀ v,
      v ∈ c.members ↔ Reach g u v ∧ Reach g v u) ∧
    (∀ (i j : ℕ) (c d : Scc V), (tarjanScc g).sccs[i]? = some c → (tarjanScc g).sccs[j]? = some d →
      ∀ u ∈ c.members, ∀ v ∈ d.members, Edge g u v → i ≠ j → j < i) ∧
    (∀ v i, (tarjanScc g).sccIdByRoutine v = some i ↔
      ∃ c, (tarjanScc g).sccs[i]? = some c ∧ v ∈ c.members) ∧
    ∀ c ∈ (tarjanScc g).sccs, c.recursive = true ↔
      1 < c.members.length ∨ ∃ v, c.members = [v] ∧ Edge g v v := by
  have horder := tarjanScc_isSccOrder g
  have hclass : ∀ c ∈ (tarjanScc g).sccs, IsClass g c.members :=
    fun c hc => horder.classes _ (List.mem_map_of_mem hc)
  refine ⟨?_, horder.nodup, fun c hc => (hclass c hc).1, horder.mem, fun c hc => (hclass c hc).2,
    fun i j c d hc hd u hu v hv hedge hne => edge_earlier horder hc hd hu hv hedge hne,
    sccIds_eq_some_iff horder.nodup, fun c hc => ?_⟩
  · obtain ⟨s, hs, -⟩ := searchAll_spec g.nodes (initial_idle g) fun _ hn => hn
    rw [hs]
    rfl
  · obtain ⟨ms, -, rfl⟩ := List.mem_map.mp hc
    exact finishScc_recursive g ms

end AlSem.L4
