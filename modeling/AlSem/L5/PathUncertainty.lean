/-
# The uncertainties of a path

`path_uncertainty_ids` of `engine/l5/d1_dataflow.rs`: the union of the uncertainty sets of a path's nodes,
as ids, with `UncertaintyIndex` of `detector_context.rs` under it, which names every value and every set
once.  A set that comes again later on the path is dropped, and the union is kept in a cache under the
sets that remain.

The answer is the list `dedupe_uncertainties` gives for the values along the whole path
(`pathUncertaintyIds_exact`): the last value of every key, in key order.

Ids out of range end the source's run; here they have the empty value.
-/
import AlSem.L4.UncertaintyKey
import AlSem.Lib.HashMap

namespace AlSem.L5

open AlSem.L4 JoinedKey LastWins

/-! ## 1. The index -/

/-- The values and the sets, each named once.  A set is a window of `setElems`. -/
structure UncertaintyIndex where
  values : List Uncertainty := []
  keys : List String := []
  byValue : HashMap Uncertainty ℕ := ∅
  setElems : List ℕ := []
  setSpan : List (ℕ × ℕ) := []
  bySet : HashMap (List ℕ) ℕ := ∅

namespace UncertaintyIndex

/-- `intern_value`. -/
def internValue (ix : UncertaintyIndex) (u : Uncertainty) : ℕ × UncertaintyIndex :=
  match ix.byValue.lookup u with
  | some id => (id, ix)
  | none =>
    (ix.values.length,
      { ix with
        values := ix.values ++ [u]
        keys := ix.keys ++ [uncertaintyKey u]
        byValue := ix.byValue.insert u ix.values.length })

/-- The ids of some values, in order. -/
def internValues (ix : UncertaintyIndex) : List Uncertainty → List ℕ × UncertaintyIndex
  | [] => ([], ix)
  | u :: us =>
    let (id, ix) := ix.internValue u
    let (ids, ix) := ix.internValues us
    (id :: ids, ix)

/-- A new set at the end of the pool. -/
def pushSet (ix : UncertaintyIndex) (ids : List ℕ) : UncertaintyIndex :=
  { ix with
    setElems := ix.setElems ++ ids
    setSpan := ix.setSpan ++ [(ix.setElems.length, ix.setElems.length + ids.length)]
    bySet := ix.bySet.insert ids ix.setSpan.length }

/-- `intern_set`. -/
def internSet (ix : UncertaintyIndex) (set : List Uncertainty) : ℕ × UncertaintyIndex :=
  let (ids, ix) := ix.internValues set
  match ix.bySet.lookup ids with
  | some sid => (sid, ix)
  | none => (ix.setSpan.length, ix.pushSet ids)

def key (ix : UncertaintyIndex) (id : ℕ) : String := ix.keys.getD id ""

def value (ix : UncertaintyIndex) (id : ℕ) : Option Uncertainty := ix.values[id]?

def elements (ix : UncertaintyIndex) (sid : ℕ) : List ℕ :=
  match ix.setSpan[sid]? with
  | some (a, b) => (ix.setElems.take b).drop a
  | none => []

/-- `dedupe`: a map sorted by key, a later id overwriting an earlier one. -/
def dedupe (ix : UncertaintyIndex) (ids : List ℕ) : List ℕ :=
  insertAll (fun id => asBytes (ix.key id)) ids

end UncertaintyIndex

/-! ## 2. What the index holds -/

/-- **Every value and every set has one name.** -/
structure UncertaintyIndex.Wf (ix : UncertaintyIndex) : Prop where
  keys : ix.keys = ix.values.map uncertaintyKey
  byValue : ∀ u id, ix.byValue.lookup u = some id ↔ ix.value id = some u
  elems : ∀ id ∈ ix.setElems, id < ix.values.length
  span : ∀ p ∈ ix.setSpan, p.2 ≤ ix.setElems.length
  bySet : ∀ ids sid, ix.bySet.lookup ids = some sid → sid < ix.setSpan.length ∧ ix.elements sid = ids

/-- What was interned stays as it was. -/
structure UncertaintyIndex.Extends (ix' ix : UncertaintyIndex) : Prop where
  value : ∀ id u, ix.value id = some u → ix'.value id = some u
  elements : ∀ sid, sid < ix.setSpan.length → sid < ix'.setSpan.length ∧ ix'.elements sid = ix.elements sid

theorem UncertaintyIndex.Extends.refl (ix : UncertaintyIndex) : ix.Extends ix :=
  ⟨fun _ _ h => h, fun _ h => ⟨h, rfl⟩⟩

theorem UncertaintyIndex.Extends.trans {a b c : UncertaintyIndex} (h : a.Extends b) (h' : b.Extends c) :
    a.Extends c :=
  ⟨fun id u hu => h.value id u (h'.value id u hu), fun sid hs => by
    obtain ⟨hb, heq⟩ := h'.elements sid hs
    obtain ⟨ha, heq'⟩ := h.elements sid hb
    exact ⟨ha, heq'.trans heq⟩⟩

variable {ix : UncertaintyIndex}

theorem wf_empty : UncertaintyIndex.Wf {} := by
  constructor
  · rfl
  · intro u id
    simp [UncertaintyIndex.value]
  · exact fun _ h => absurd h List.not_mem_nil
  · exact fun _ h => absurd h List.not_mem_nil
  · exact fun _ _ h => nomatch h

/-- Equal values have equal ids. -/
theorem UncertaintyIndex.Wf.id_unique (h : ix.Wf) {u : Uncertainty} {i j : ℕ} (hi : ix.value i = some u)
    (hj : ix.value j = some u) : i = j :=
  Option.some.inj (((h.byValue u i).mpr hi).symm.trans ((h.byValue u j).mpr hj))

theorem UncertaintyIndex.Wf.key_eq (h : ix.Wf) {id : ℕ} {u : Uncertainty} (hu : ix.value id = some u) :
    ix.key id = uncertaintyKey u := by
  unfold UncertaintyIndex.key
  rw [h.keys, List.getD_eq_getElem?_getD, List.getElem?_map]
  unfold UncertaintyIndex.value at hu
  rw [hu]
  rfl

/-- **Interning a value.** -/
theorem internValue_spec (h : ix.Wf) (u : Uncertainty) :
    (ix.internValue u).2.Wf ∧ (ix.internValue u).2.Extends ix ∧
      (ix.internValue u).2.value (ix.internValue u).1 = some u ∧
      (ix.internValue u).2.setSpan = ix.setSpan := by
  unfold UncertaintyIndex.internValue
  cases hl : ix.byValue.lookup u with
  | some id => exact ⟨h, .refl ix, (h.byValue u id).mp hl, rfl⟩
  | none =>
    dsimp only
    have hlast : (ix.values ++ [u])[ix.values.length]? = some u := by simp
    refine ⟨?_, ⟨fun id v hv => ?_, fun sid hs => ⟨hs, rfl⟩⟩, hlast, rfl⟩
    · constructor
      · simp [h.keys]
      · intro v id
        unfold UncertaintyIndex.value
        dsimp only
        by_cases hv : v = u
        · subst hv
          rw [AList.lookup_insert]
          constructor
          · intro hid
            rw [← Option.some.inj hid]
            exact hlast
          · intro hid
            rcases Nat.lt_or_ge id ix.values.length with hlt | hge
            · rw [List.getElem?_append_left hlt] at hid
              rw [(h.byValue v id).mpr hid] at hl
              cases hl
            · have hlen := (List.getElem?_eq_some_iff.mp hid).1
              rw [List.length_append, List.length_singleton] at hlen
              rw [show id = ix.values.length by omega]
        · rw [AList.lookup_insert_ne hv, h.byValue v id]
          unfold UncertaintyIndex.value
          rcases Nat.lt_or_ge id ix.values.length with hlt | hge
          · rw [List.getElem?_append_left hlt]
          · rw [List.getElem?_append_right hge, List.getElem?_eq_none_iff.mpr hge]
            refine iff_of_false nofun fun hid => hv ?_
            exact List.mem_singleton.mp (List.mem_of_getElem? hid)
      · intro id hid
        have := h.elems id hid
        simp only [List.length_append, List.length_singleton]
        omega
      · exact h.span
      · exact h.bySet
    · unfold UncertaintyIndex.value at hv ⊢
      rw [List.getElem?_append_left (List.getElem?_eq_some_iff.mp hv).1]
      exact hv

theorem internValues_spec (h : ix.Wf) (us : List Uncertainty) :
    (ix.internValues us).2.Wf ∧ (ix.internValues us).2.Extends ix ∧
      (ix.internValues us).1.map (ix.internValues us).2.value = us.map some ∧
      (ix.internValues us).2.setSpan = ix.setSpan := by
  induction us generalizing ix with
  | nil => exact ⟨h, .refl ix, rfl, rfl⟩
  | cons u us ih =>
    obtain ⟨hwf, hext, hval, hspan⟩ := internValue_spec h u
    obtain ⟨hwf', hext', hvals, hspan'⟩ := ih hwf
    refine ⟨hwf', hext'.trans hext, ?_, hspan'.trans hspan⟩
    simp only [UncertaintyIndex.internValues, List.map_cons]
    rw [hext'.value _ _ hval, hvals]

/-- The ids of interned values are in range. -/
theorem lt_of_value {id : ℕ} {u : Uncertainty} (h : ix.value id = some u) : id < ix.values.length :=
  (List.getElem?_eq_some_iff.mp h).1

/-- The sets before a new one. -/
theorem elements_pushSet_of_lt (h : ix.Wf) (ids : List ℕ) {sid : ℕ} (hsid : sid < ix.setSpan.length) :
    (ix.pushSet ids).elements sid = ix.elements sid := by
  unfold UncertaintyIndex.elements UncertaintyIndex.pushSet
  dsimp only
  rw [List.getElem?_append_left hsid, List.getElem?_eq_getElem hsid]
  dsimp only
  rw [List.take_append_of_le_length (h.span _ (List.getElem_mem hsid))]

theorem elements_pushSet_self (ix : UncertaintyIndex) (ids : List ℕ) :
    (ix.pushSet ids).elements ix.setSpan.length = ids := by
  unfold UncertaintyIndex.elements UncertaintyIndex.pushSet
  dsimp only
  rw [List.getElem?_append_right (Nat.le_refl _), Nat.sub_self, List.getElem?_cons_zero]
  dsimp only
  rw [← List.length_append, List.take_length, List.drop_left]

theorem pushSet_wf (h : ix.Wf) {ids : List ℕ} (hids : ∀ id ∈ ids, id < ix.values.length) :
    (ix.pushSet ids).Wf := by
  refine ⟨h.keys, h.byValue, fun id hid => ?_, fun p hp => ?_, fun js sid hs => ?_⟩
  · rcases List.mem_append.mp hid with hid | hid
    · exact h.elems id hid
    · exact hids id hid
  · have hlen : (ix.pushSet ids).setElems.length = ix.setElems.length + ids.length := List.length_append
    rw [hlen]
    rcases List.mem_append.mp hp with hp | hp
    · exact (h.span p hp).trans (Nat.le_add_right _ _)
    · rw [List.mem_singleton.mp hp]
  · have hlen : (ix.pushSet ids).setSpan.length = ix.setSpan.length + 1 := List.length_append
    rw [hlen]
    by_cases hj : js = ids
    · subst hj
      have hsid := Option.some.inj ((AList.lookup_insert ix.bySet).symm.trans hs)
      rw [← hsid]
      exact ⟨Nat.lt_succ_self _, elements_pushSet_self ix js⟩
    · obtain ⟨hlt, heq⟩ := h.bySet js sid ((AList.lookup_insert_ne hj).symm.trans hs)
      exact ⟨Nat.lt_succ_of_lt hlt, (elements_pushSet_of_lt h ids hlt).trans heq⟩

/-- **Interning a set.** -/
theorem internSet_spec (h : ix.Wf) (us : List Uncertainty) :
    (ix.internSet us).2.Wf ∧ (ix.internSet us).2.Extends ix ∧
      (ix.internSet us).1 < (ix.internSet us).2.setSpan.length ∧
      ((ix.internSet us).2.elements (ix.internSet us).1).map (ix.internSet us).2.value =
        us.map some := by
  obtain ⟨hwf, hext, hvals, -⟩ := internValues_spec h us
  unfold UncertaintyIndex.internSet
  dsimp only
  generalize (ix.internValues us).1 = ids at hvals
  generalize (ix.internValues us).2 = ix₁ at hwf hext hvals
  cases hl : ix₁.bySet.lookup ids with
  | some sid =>
    obtain ⟨hlt, heq⟩ := hwf.bySet ids sid hl
    exact ⟨hwf, hext, hlt, by rw [heq]; exact hvals⟩
  | none =>
    have hids : ∀ id ∈ ids, id < ix₁.values.length := by
      intro id hid
      have hmem : ix₁.value id ∈ us.map some := hvals ▸ List.mem_map_of_mem hid
      obtain ⟨u, -, hu⟩ := List.mem_map.mp hmem
      exact lt_of_value hu.symm
    have hlen : (ix₁.pushSet ids).setSpan.length = ix₁.setSpan.length + 1 := List.length_append
    have hpush : (ix₁.pushSet ids).Extends ix₁ :=
      ⟨fun _ _ hu => hu, fun sid hs => ⟨by omega, elements_pushSet_of_lt hwf ids hs⟩⟩
    refine ⟨pushSet_wf hwf hids, hpush.trans hext, by dsimp only; omega, ?_⟩
    dsimp only
    rw [elements_pushSet_self]
    exact hvals

/-! ## 3. The sets of the nodes -/

/-- The index and the set of each node. -/
structure OwnedUncertainties where
  index : UncertaintyIndex := {}
  byNode : HashMap String ℕ := ∅

/-- Intern a set and give it to a node, in place of one it has. -/
def OwnedUncertainties.insert (o : OwnedUncertainties) (node : String) (set : List Uncertainty) :
    OwnedUncertainties :=
  let (sid, index) := o.index.internSet set
  { index, byNode := o.byNode.insert node sid }

/-- The sets as they are given to the nodes. -/
def assignAll (sets : List (String × List Uncertainty)) : OwnedUncertainties :=
  sets.foldl (fun o p => o.insert p.1 p.2) {}

/-- The set given to a node last, nothing when it has none. -/
def assigned (sets : List (String × List Uncertainty)) (node : String) : List Uncertainty :=
  ((sets.filter fun p => p.1 = node).getLast?.map Prod.snd).getD []

/-- The values of the set of a node. -/
def OwnedUncertainties.elementsOf (o : OwnedUncertainties) (node : String) : List ℕ :=
  ((o.byNode.lookup node).map o.index.elements).getD []

/-- **Each node has the values it was given last**, whatever was interned before and since. -/
theorem assignAll_spec (sets : List (String × List Uncertainty)) :
    (assignAll sets).index.Wf ∧
      (∀ node sid, (assignAll sets).byNode.lookup node = some sid →
        sid < (assignAll sets).index.setSpan.length) ∧
      ∀ node, ((assignAll sets).elementsOf node).map (assignAll sets).index.value =
        (assigned sets node).map some := by
  induction sets using List.reverseRecOn with
  | nil => exact ⟨wf_empty, fun _ _ h => by simp [assignAll] at h, fun _ => rfl⟩
  | append_singleton sets p ih =>
    obtain ⟨hwf, hin, hval⟩ := ih
    have hstep : assignAll (sets ++ [p]) = (assignAll sets).insert p.1 p.2 := List.foldl_concat ..
    rw [hstep]
    generalize assignAll sets = o at hwf hin hval
    obtain ⟨hwf', hext, hlt, hnew⟩ := internSet_spec hwf p.2
    refine ⟨hwf', fun node sid hs => ?_, fun node => ?_⟩
    · by_cases hn : node = p.1
      · subst hn
        rw [← Option.some.inj ((AList.lookup_insert o.byNode).symm.trans hs)]
        exact hlt
      · exact (hext.elements sid (hin node sid ((AList.lookup_insert_ne hn).symm.trans hs))).1
    · unfold assigned OwnedUncertainties.elementsOf OwnedUncertainties.insert
      dsimp only
      rw [List.filter_append, List.getLast?_append]
      by_cases hn : node = p.1
      · subst hn
        rw [AList.lookup_insert]
        simpa using hnew
      · have hne : (fun q : String × List Uncertainty => decide (q.1 = node)) p = false := by
          simpa using Ne.symm hn
        rw [AList.lookup_insert_ne hn, List.filter_cons_of_neg (by simpa using Ne.symm hn),
          List.filter_nil, List.getLast?_nil, Option.none_or]
        have hold := hval node
        unfold assigned OwnedUncertainties.elementsOf at hold
        rw [← hold]
        cases hl : o.byNode.lookup node with
        | none => rfl
        | some sid =>
          rw [Option.map_some, Option.map_some, Option.getD_some, Option.getD_some,
            (hext.elements sid (hin node sid hl)).2]
          refine List.map_congr_left fun id hid => ?_
          have hmem : o.index.value id ∈ (assigned sets node).map some := by
            rw [← hval node]
            refine List.mem_map_of_mem ?_
            unfold OwnedUncertainties.elementsOf
            rw [hl]
            exact hid
          obtain ⟨u, -, hu⟩ := List.mem_map.mp hmem
          rw [← hu]
          exact hext.value id u hu.symm

/-! ## 4. The union along a path -/

/-- The unions found so far, under the sets they are of. -/
abbrev PathUncertaintyCache := HashMap (List ℕ) (List ℕ)

/-- The nodes of a path from the seed to the terminal. -/
def pathNodes (nodeIds : ℕ → String) (hops : List (ℕ × ℕ)) (terminal : ℕ) : List String :=
  (hops.reverse.map fun hop => nodeIds hop.1) ++ [nodeIds terminal]

/-- `path_uncertainty_ids`, with the hops from the terminal to the seed. -/
def pathUncertaintyIds (o : OwnedUncertainties) (nodeIds : ℕ → String) (hops : List (ℕ × ℕ))
    (terminal : ℕ) (cache : PathUncertaintyCache) : List ℕ × PathUncertaintyCache :=
  let sets := (pathNodes nodeIds hops terminal).filterMap fun node => o.byNode.lookup node
  let sig := keepLastBlocks sets
  match cache.lookup sig with
  | some hit => (hit, cache)
  | none =>
    let out := o.index.dedupe (sig.flatMap o.index.elements)
    (out, cache.insert sig out)

/-- The cache behind some calls. -/
def cacheAfter (o : OwnedUncertainties) (nodeIds : ℕ → String) (calls : List (List (ℕ × ℕ) × ℕ)) :
    PathUncertaintyCache :=
  calls.foldl (fun cache c => (pathUncertaintyIds o nodeIds c.1 c.2 cache).2) ∅

/-- What a cache holds is what would be computed. -/
def Remembers (o : OwnedUncertainties) (cache : PathUncertaintyCache) : Prop :=
  ∀ sig out, cache.lookup sig = some out → out = o.index.dedupe (sig.flatMap o.index.elements)

variable {o : OwnedUncertainties} {nodeIds : ℕ → String}

/-- **A call answers from the sets of the path alone**, and keeps the cache. -/
theorem pathUncertaintyIds_spec {cache : PathUncertaintyCache} (h : Remembers o cache)
    (hops : List (ℕ × ℕ)) (terminal : ℕ) :
    (pathUncertaintyIds o nodeIds hops terminal cache).1 =
      o.index.dedupe ((keepLastBlocks ((pathNodes nodeIds hops terminal).filterMap fun node =>
        o.byNode.lookup node)).flatMap o.index.elements) ∧
    Remembers o (pathUncertaintyIds o nodeIds hops terminal cache).2 := by
  unfold pathUncertaintyIds
  dsimp only
  generalize keepLastBlocks ((pathNodes nodeIds hops terminal).filterMap fun node =>
    o.byNode.lookup node) = sig
  cases hl : cache.lookup sig with
  | some hit => exact ⟨h sig hit hl, h⟩
  | none =>
    refine ⟨rfl, fun sig' out hout => ?_⟩
    by_cases hs : sig' = sig
    · subst hs
      exact (Option.some.inj ((AList.lookup_insert cache).symm.trans hout)).symm
    · exact h sig' out ((AList.lookup_insert_ne hs).symm.trans hout)

theorem cacheAfter_remembers (calls : List (List (ℕ × ℕ) × ℕ)) :
    Remembers o (cacheAfter o nodeIds calls) := by
  unfold cacheAfter
  induction calls using List.reverseRecOn with
  | nil => exact fun _ _ h => nomatch h
  | append_singleton calls c ih =>
    rw [List.foldl_concat]
    exact (pathUncertaintyIds_spec ih c.1 c.2).2

/-- The ids of the sets of a path are those of its nodes. -/
theorem flatMap_elements (nodes : List String) :
    (nodes.filterMap fun node => o.byNode.lookup node).flatMap o.index.elements =
      nodes.flatMap o.elementsOf := by
  induction nodes with
  | nil => rfl
  | cons node nodes ih =>
    rw [List.flatMap_cons, ← ih]
    unfold OwnedUncertainties.elementsOf
    cases hl : o.byNode.lookup node with
    | none => simp [hl]
    | some sid => simp [hl]

/-- The nodes of a path from its seed on: each hop stands before the one that was taken after it, and the
terminal last. -/
def seedToTerminal (nodeIds : ℕ → String) : List (ℕ × ℕ) → ℕ → List String
  | [], terminal => [nodeIds terminal]
  | hop :: hops, terminal => seedToTerminal nodeIds hops hop.1 ++ [nodeIds terminal]

theorem pathNodes_eq_seedToTerminal (nodeIds : ℕ → String) (hops : List (ℕ × ℕ)) (terminal : ℕ) :
    pathNodes nodeIds hops terminal = seedToTerminal nodeIds hops terminal := by
  induction hops generalizing terminal with
  | nil => rfl
  | cons hop hops ih =>
    rw [seedToTerminal, ← ih hop.1]
    simp only [pathNodes, List.reverse_cons, List.map_append, List.map_cons, List.map_nil]

/-- **The union along a path.**  Whatever calls came before, the ids returned are those of the list
`dedupe_uncertainties` gives for the values of all the nodes from the seed to the terminal, in its order;
that list has the last value of every key, in key order; and a value has one id. -/
theorem pathUncertaintyIds_exact (sets : List (String × List Uncertainty)) (nodeIds : ℕ → String)
    (calls : List (List (ℕ × ℕ) × ℕ)) (hops : List (ℕ × ℕ)) (terminal : ℕ) :
    ((pathUncertaintyIds (assignAll sets) nodeIds hops terminal
        (cacheAfter (assignAll sets) nodeIds calls)).1.map (assignAll sets).index.value =
      (sortDedupUncertainties ((seedToTerminal nodeIds hops terminal).flatMap (assigned sets))).map some) ∧
    IsDedup keyBytes
      (sortDedupUncertainties ((seedToTerminal nodeIds hops terminal).flatMap (assigned sets)))
      ((seedToTerminal nodeIds hops terminal).flatMap (assigned sets)) ∧
    ∀ (u : Uncertainty) (i j : ℕ), (assignAll sets).index.value i = some u →
      (assignAll sets).index.value j = some u → i = j := by
  obtain ⟨hwf, -, hval⟩ := assignAll_spec sets
  rw [(pathUncertaintyIds_spec (cacheAfter_remembers calls) hops terminal).1]
  rw [pathNodes_eq_seedToTerminal]
  generalize seedToTerminal nodeIds hops terminal = nodes
  generalize assignAll sets = o at hwf hval
  refine ⟨?_, isDedup_sortDedup _, fun u i j hi hj => hwf.id_unique hi hj⟩
  have hids : (nodes.flatMap o.elementsOf).map o.index.value = (nodes.flatMap (assigned sets)).map some := by
    rw [List.map_flatMap, List.map_flatMap]
    exact List.flatMap_congr fun node _ => hval node
  -- the sets that were dropped decide nothing
  have hfull : o.index.dedupe ((keepLastBlocks (nodes.filterMap fun node =>
      o.byNode.lookup node)).flatMap o.index.elements) = o.index.dedupe (nodes.flatMap o.elementsOf) := by
    refine (isDedup_insertAll _).unique (isDedup_insertAll _) fun x => ?_
    rw [lastOf_flatMap_keepLastBlocks, flatMap_elements]
  rw [hfull]
  generalize nodes.flatMap o.elementsOf = ids at hids
  generalize nodes.flatMap (assigned sets) = us at hids
  have hread : ∀ id ∈ ids, ∃ u, o.index.value id = some u := fun id hid => by
    have hmem : o.index.value id ∈ us.map some := hids ▸ List.mem_map_of_mem hid
    obtain ⟨u, -, hu⟩ := List.mem_map.mp hmem
    exact ⟨u, hu.symm⟩
  let read : ℕ → Uncertainty := fun id => (o.index.value id).getD { kind := "" }
  have hsome : ∀ id ∈ ids, o.index.value id = some (read id) := fun id hid => by
    obtain ⟨u, hu⟩ := hread id hid
    simp only [read, hu, Option.getD_some]
  have hus : ids.map read = us := by
    refine List.map_injective_iff.mpr (Option.some_injective _) ?_
    rw [← hids, List.map_map]
    exact List.map_congr_left fun id hid => (hsome id hid).symm
  have hdedup : IsDedup (fun id => asBytes (o.index.key id)) (o.index.dedupe ids) ids := isDedup_insertAll ids
  have hmap : IsDedup keyBytes ((o.index.dedupe ids).map read) us := by
    rw [← hus]
    refine hdedup.map fun id hid => ?_
    rw [hwf.key_eq (hsome id hid)]
    rfl
  rw [(isDedup_sortDedup us).unique hmap fun _ => rfl, List.map_map]
  exact List.map_congr_left fun id hid => hsome id (hdedup.subset hid)

end AlSem.L5
