/-
# The reverse index agrees with the rows

The postings are followed back to the bundle pass by pass: which classes a set's effects post
(`mem_classPass_effects`, `mem_classPass_tables`), which routines the rows' own effects post
(`mem_deltaPass_effects`, `mem_deltaPass_tables`), and what an expansion makes of them
(`mem_expand`).  A routine whose own effect is on a table that its class has is not posted under
the table, and is found through the class.

* `reverseIndex_agrees`: both directions of the index and the bundle's rows say the same.
-/
import AlSem.L4.ReverseIndex
import AlSem.L4.BundleRun

namespace AlSem.L4

open Buckets

/-! ## 1. Posting lists -/

theorem hasBit_foldl_setBit (ids : List ℕ) : ∀ (bits : Bits) (n : ℕ),
    hasBit (ids.foldl setBit bits) n = true ↔ hasBit bits n = true ∨ n ∈ ids := by
  induction ids with
  | nil => simp
  | cons id ids ih =>
    intro bits n
    rw [List.foldl_cons, ih, hasBit_setBit, Bool.or_eq_true, decide_eq_true_iff, List.mem_cons]
    tauto

theorem hasBit_replicate_zero (k n : ℕ) : hasBit (List.replicate k 0) n = false := by
  rw [hasBit_eq, List.getD_eq_getElem?_getD, List.getElem?_replicate]
  split <;> simp

/-- Sorting and dropping repeats leaves the numbers, ascending. -/
theorem sortDedup_spec (ids : List ℕ) :
    (Ranking.dropRepeats (ids.mergeSort fun a b => decide (a ≤ b))).Pairwise (· < ·) ∧
      ∀ n, n ∈ Ranking.dropRepeats (ids.mergeSort fun a b => decide (a ≤ b)) ↔ n ∈ ids := by
  have hsorted := @List.pairwise_mergeSort ℕ (fun a b => decide (a ≤ b))
    (fun a b c hab hbc => by
      rw [decide_eq_true_iff] at *
      exact le_trans hab hbc)
    (fun a b => by
      rw [Bool.or_eq_true, decide_eq_true_iff, decide_eq_true_iff]
      exact le_total a b) ids
  constructor
  · have hle : (ids.mergeSort fun a b => decide (a ≤ b)).Pairwise fun a b =>
        (compare a b).isLE = true := by
      refine hsorted.imp fun {a b} hab => ?_
      rw [Nat.isLE_compare]
      exact decide_eq_true_iff.mp hab
    have hlt := Ranking.dropRepeats_lt (fun a b h => Nat.compare_eq_eq.mp h) hle
    exact hlt.imp fun h => Nat.compare_eq_lt.mp h
  · intro n
    rw [Ranking.mem_dropRepeats, (List.mergeSort_perm _ _).mem_iff]

namespace PostingList

theorem iter_fromIds_pairwise (ids : List ℕ) : (fromIds ids).iter.Pairwise (· < ·) := by
  unfold fromIds
  dsimp only
  split
  · exact (sortDedup_spec ids).1
  · exact iterSetBits_pairwise _

theorem mem_iter_fromIds (ids : List ℕ) (n : ℕ) : n ∈ (fromIds ids).iter ↔ n ∈ ids := by
  unfold fromIds
  dsimp only
  split
  · exact (sortDedup_spec ids).2 n
  · show n ∈ iterSetBits _ ↔ _
    rw [mem_iterSetBits, hasBit_foldl_setBit, hasBit_replicate_zero]
    simp [(sortDedup_spec ids).2 n]

/-- **A posting list says membership without expanding.** -/
theorem contains_fromIds (ids : List ℕ) (n : ℕ) : (fromIds ids).contains n = true ↔ n ∈ ids := by
  rw [← mem_iter_fromIds]
  unfold fromIds
  dsimp only
  split
  · exact List.isSome_idxOf?
  · exact (mem_iterSetBits _ n).symm

end PostingList

namespace ReverseEffectIndex

theorem mem_postedAt (t : List (List ℕ)) (i x : ℕ) :
    x ∈ postedAt (t.map PostingList.fromIds) i ↔ x ∈ bucket t i := by
  unfold postedAt bucket
  rw [List.getElem?_map, List.getD_eq_getElem?_getD]
  cases t[i]? with
  | none => simp
  | some ids => exact PostingList.mem_iter_fromIds ids x

theorem touchedAt_iff (t : List (List ℕ)) (i x : ℕ) :
    touchedAt (t.map PostingList.fromIds) i x = true ↔ x ∈ bucket t i := by
  unfold touchedAt bucket
  rw [List.getElem?_map, List.getD_eq_getElem?_getD]
  cases t[i]? with
  | none => simp
  | some ids => exact PostingList.contains_fromIds ids x

theorem mem_postedUnder (m : HashMap String (List ℕ)) (t : String) (x : ℕ) :
    x ∈ postedUnder (m.mapValues PostingList.fromIds) t ↔ x ∈ m.getList t := by
  unfold postedUnder HashMap.getList
  rw [HashMap.lookup_mapValues]
  cases m.lookup t with
  | none => simp
  | some ids => exact PostingList.mem_iter_fromIds ids x

theorem touchedUnder_iff (m : HashMap String (List ℕ)) (t : String) (x : ℕ) :
    touchedUnder (m.mapValues PostingList.fromIds) t x = true ↔ x ∈ m.getList t := by
  unfold touchedUnder HashMap.getList
  rw [HashMap.lookup_mapValues]
  cases m.lookup t with
  | none => simp
  | some ids => exact PostingList.contains_fromIds ids x

end ReverseEffectIndex

/-! ## 2. What the bundle says -/

/-- The bundle lists an id for a routine: its set has it, or its own effects. -/
def SummaryBundle.Has (b : SummaryBundle) (r id : ℕ) : Prop :=
  (∃ c set, b.terminalBase r = some c ∧ b.effects.sets[c]? = some set ∧ id ∈ set.iter) ∨
    id ∈ b.pdDeltaIds r

/-- The bundle's rows point inside its tables, and their lists show what they have. -/
structure SummaryBundle.Sound (b : SummaryBundle) : Prop where
  inv : b.effects.Inv
  base : ∀ r c, b.terminalBase r = some c → ∃ set, b.effects.sets[c]? = some set
  own : ∀ r, ∀ id ∈ b.pdDeltaIds r, id < b.effects.effectUniverse.len
  lists : ∀ r, ∃ refs, b.dbEffects r = some refs ∧
    ∀ i, (∃ e ∈ refs, e.identity = i) ↔
      ∃ id, b.Has r id ∧ b.effects.effectUniverse.identity id = some i

/-- Only a routine with a row has effects of its own. -/
theorem terminalBase_of_pdDelta {b : SummaryBundle} {r id : ℕ} (h : id ∈ b.pdDeltaIds r) :
    ∃ c, b.terminalBase r = some c := by
  unfold SummaryBundle.pdDeltaIds at h
  unfold SummaryBundle.terminalBase
  cases hrow : b.summaries.lookup r with
  | none =>
    rw [hrow] at h
    exact absurd h List.not_mem_nil
  | some row => exact ⟨row.terminalBase, rfl⟩

theorem mem_routinesWithRows (b : SummaryBundle) (r : ℕ) :
    r ∈ b.routinesWithRows ↔ ∃ c, b.terminalBase r = some c := by
  unfold SummaryBundle.routinesWithRows SummaryBundle.terminalBase
  rw [← AList.mem_keys, ← AList.lookup_isSome, Option.isSome_iff_exists]
  constructor
  · rintro ⟨row, hrow⟩
    exact ⟨row.terminalBase, by rw [hrow]; rfl⟩
  · rintro ⟨c, hc⟩
    obtain ⟨row, hrow, -⟩ := Option.map_eq_some_iff.mp hc
    exact ⟨row, hrow⟩

namespace ReverseEffectIndex

variable {b : SummaryBundle}

/-! ## 3. Classes and their members -/

theorem length_foldl_pushAt {β : Type} (key : β → ℕ) (val : β → ℕ) (l : List β) :
    ∀ t : List (List ℕ), (l.foldl (fun t b => pushAt t (key b) (val b)) t).length = t.length := by
  induction l with
  | nil => exact fun _ => rfl
  | cons b l ih =>
    intro t
    rw [List.foldl_cons, ih, length_pushAt]

theorem length_membersByClass : (membersByClass b).length = b.effects.sets.length := by
  unfold membersByClass
  dsimp only
  rw [List.length_map, length_foldl_pushAt, List.length_replicate]

/-- The members of a class are the routines that have it. -/
theorem mem_membersByClass (hb : b.Sound) (c r : ℕ) :
    r ∈ bucket (membersByClass b) c ↔ b.terminalBase r = some c := by
  have hrows : ∀ m : ℕ × ℕ, m ∈ (b.routinesWithRows.filterMap fun r =>
      (b.terminalBase r).map fun setId => (setId, r)) ↔ b.terminalBase m.2 = some m.1 := by
    rintro ⟨c, r⟩
    rw [List.mem_filterMap]
    constructor
    · rintro ⟨r', -, hr'⟩
      obtain ⟨c', hc', heq⟩ := Option.map_eq_some_iff.mp hr'
      obtain ⟨rfl, rfl⟩ := Prod.mk.inj heq
      exact hc'
    · intro h
      exact ⟨r, (mem_routinesWithRows b r).mpr ⟨c, h⟩, by rw [h]; rfl⟩
  have hinside : ∀ m ∈ (b.routinesWithRows.filterMap fun r =>
      (b.terminalBase r).map fun setId => (setId, r)),
      m.1 < (List.replicate b.effects.sets.length ([] : List ℕ)).length := by
    intro m hm
    obtain ⟨set, hset⟩ := hb.base m.2 m.1 ((hrows m).mp hm)
    rw [List.length_replicate]
    exact (List.getElem?_eq_some_iff.mp hset).1
  have hpush := mem_bucket_foldl_pushAt (fun m : ℕ × ℕ => m.1) (fun m => m.2) hinside c r
  have hsort : ∀ t : List (List ℕ),
      r ∈ bucket (t.map fun members => members.mergeSort fun a b => decide (a ≤ b)) c ↔
        r ∈ bucket t c := by
    intro t
    unfold bucket
    rw [List.getD_eq_getElem?_getD, List.getD_eq_getElem?_getD, List.getElem?_map]
    cases t[c]? with
    | none => rfl
    | some members => exact (List.mergeSort_perm _ _).mem_iff
  unfold membersByClass
  dsimp only
  rw [hsort, hpush]
  constructor
  · rintro (hmem | ⟨m, hm, rfl, rfl⟩)
    · exact absurd hmem (mem_bucket_replicate _ _ _)
    · exact (hrows m).mp hm
  · intro h
    exact Or.inr ⟨(c, r), (hrows (c, r)).mpr h, rfl, rfl⟩

/-- **The pool gives every class back**, behind what was pooled before. -/
theorem poolMembers_spec (members : List (List ℕ)) : ∀ (done : List (List ℕ)) (pool : List ℕ)
    (ranges : List Span), ranges.length = done.length →
    (∀ (c : ℕ) (l : List ℕ), done[c]? = some l → ∃ range : Span, ranges[c]? = some range ∧
      range.slice pool = some l ∧ (range.start = range.stop ↔ l = [])) →
    let res := members.foldl (fun (acc : List ℕ × List Span) members =>
      ((pushAll acc.1 members).2, acc.2 ++ [(pushAll acc.1 members).1])) (pool, ranges)
    res.2.length = (done ++ members).length ∧
      ∀ (c : ℕ) (l : List ℕ), (done ++ members)[c]? = some l → ∃ range : Span,
        res.2[c]? = some range ∧ range.slice res.1 = some l ∧ (range.start = range.stop ↔ l = []) := by
  induction members with
  | nil =>
    intro done pool ranges hlen h
    simpa using ⟨hlen, h⟩
  | cons head members ih =>
    intro done pool ranges hlen h
    have hnext := ih (done ++ [head]) (pushAll pool head).2 (ranges ++ [(pushAll pool head).1])
      (by rw [List.length_append, List.length_append, hlen]; rfl) ?_
    · rw [List.append_assoc, List.singleton_append] at hnext
      exact hnext
    · intro c l hc
      rcases Nat.lt_trichotomy c done.length with hlt | heq | hgt
      · rw [List.getElem?_append_left hlt] at hc
        obtain ⟨range, hrange, hslice, hempty⟩ := h c l hc
        refine ⟨range, ?_, slice_append head hslice, hempty⟩
        rw [List.getElem?_append_left (by omega)]
        exact hrange
      · subst heq
        rw [List.getElem?_concat_length] at hc
        obtain rfl := Option.some.inj hc
        refine ⟨(pushAll pool head).1, ?_, slice_pushAll pool head, ?_⟩
        · rw [← hlen]
          exact List.getElem?_concat_length
        · show pool.length = pool.length + head.length ↔ head = []
          rw [← List.length_eq_zero_iff]
          omega
      · rw [List.getElem?_eq_none (by rw [List.length_append, List.length_singleton]; omega)] at hc
        cases hc

/-- The range of a class, and what the pool has there. -/
theorem poolMembers_range (members : List (List ℕ)) (c : ℕ) (l : List ℕ)
    (h : members[c]? = some l) : ∃ range : Span, (poolMembers members).2[c]? = some range ∧
      range.slice (poolMembers members).1 = some l ∧ (range.start = range.stop ↔ l = []) :=
  (poolMembers_spec members [] [] [] rfl (fun c l hc => by simp at hc)).2 c l h

theorem length_poolMembers (members : List (List ℕ)) :
    (poolMembers members).2.length = members.length :=
  (poolMembers_spec members [] [] [] rfl (fun c l hc => by simp at hc)).1

/-- **`class_members` lists the routines of a class.** -/
theorem mem_classMembers (hb : b.Sound) (c r : ℕ) :
    r ∈ (build b).classMembers c ↔ b.terminalBase r = some c := by
  rw [← mem_membersByClass hb]
  have hranges : (build b).classMembersRanges = (poolMembers (membersByClass b)).2 := rfl
  have hpool : (build b).classMembersPool = (poolMembers (membersByClass b)).1 := rfl
  unfold classMembers
  rw [hranges, hpool]
  unfold bucket
  rw [List.getD_eq_getElem?_getD]
  cases hc : (membersByClass b)[c]? with
  | none =>
    have hnone : (poolMembers (membersByClass b)).2[c]? = none := by
      rw [List.getElem?_eq_none_iff, length_poolMembers]
      exact List.getElem?_eq_none_iff.mp hc
    rw [hnone]
    rfl
  | some l =>
    obtain ⟨range, hrange, hslice, -⟩ := poolMembers_range _ c l hc
    simp only [hrange, hslice, Option.getD_some]

/-! ## 4. The pass over the classes -/

/-- What the class pass walks: the effects of the classes that have a member. -/
theorem mem_classMemberships (hb : b.Sound) (c eid : ℕ) :
    (c, eid) ∈ classMemberships b (poolMembers (membersByClass b)).2 ↔
      (∃ r, b.terminalBase r = some c) ∧
        ∃ set, b.effects.sets[c]? = some set ∧ eid ∈ set.iter := by
  have hmember : ∀ l : List ℕ, (membersByClass b)[c]? = some l →
      (l ≠ [] ↔ ∃ r, b.terminalBase r = some c) := by
    intro l hl
    have hbucket : bucket (membersByClass b) c = l := by
      unfold bucket
      rw [List.getD_eq_getElem?_getD, hl]
      rfl
    have hmem : ∀ r, r ∈ l ↔ b.terminalBase r = some c := by
      intro r
      rw [← hbucket]
      exact mem_membersByClass hb c r
    constructor
    · intro hne
      obtain ⟨r, hr⟩ := List.exists_mem_of_ne_nil l hne
      exact ⟨r, (hmem r).mp hr⟩
    · rintro ⟨r, hr⟩
      exact List.ne_nil_of_mem ((hmem r).mpr hr)
  unfold classMemberships
  rw [List.mem_flatMap]
  constructor
  · rintro ⟨⟨range, c'⟩, hrange, hmem⟩
    rw [List.mk_mem_zipIdx_iff_getElem?] at hrange
    dsimp only at hmem
    by_cases hempty : range.start = range.stop
    · rw [if_pos hempty] at hmem
      exact absurd hmem List.not_mem_nil
    rw [if_neg hempty] at hmem
    cases hset : b.effects.sets[c']? with
    | none =>
      rw [hset] at hmem
      exact absurd hmem List.not_mem_nil
    | some set =>
      rw [hset] at hmem
      obtain ⟨eid', heid, heq⟩ := List.mem_map.mp hmem
      obtain ⟨rfl, rfl⟩ := Prod.mk.inj heq
      have hlt : c' < (membersByClass b).length := by
        rw [← length_poolMembers]
        exact (List.getElem?_eq_some_iff.mp hrange).1
      obtain ⟨range', hrange', -, hiff⟩ :=
        poolMembers_range _ c' _ (List.getElem?_eq_getElem hlt)
      rw [hrange] at hrange'
      obtain rfl := Option.some.inj hrange'
      have hne := fun h => hempty (hiff.mpr h)
      exact ⟨(hmember _ (List.getElem?_eq_getElem hlt)).mp hne, set, hset, heid⟩
  · rintro ⟨hmem, set, hset, heid⟩
    have hlt : c < (membersByClass b).length := by
      rw [length_membersByClass]
      exact (List.getElem?_eq_some_iff.mp hset).1
    obtain ⟨range, hrange, -, hiff⟩ := poolMembers_range _ c _ (List.getElem?_eq_getElem hlt)
    have hne := (hmember _ (List.getElem?_eq_getElem hlt)).mpr hmem
    refine ⟨(range, c), List.mk_mem_zipIdx_iff_getElem?.mpr hrange, ?_⟩
    dsimp only
    rw [if_neg fun h => hne (hiff.mp h), hset]
    exact List.mem_map_of_mem heid

/-- The class pass, one table at a time. -/
theorem foldl_post (u : FrozenEffectUniverse) (l : List (ℕ × ℕ)) : ∀ p : ClassPostings,
    (l.foldl (ClassPostings.post u) p).effects =
        l.foldl (fun t m => pushAt t m.2 m.1) p.effects ∧
      (l.foldl (ClassPostings.post u) p).tables =
        l.foldl (fun t m => t.push (u.tableOf m.2) m.1) p.tables ∧
      (l.foldl (ClassPostings.post u) p).classTables =
        l.foldl (fun t m => pushAt t m.1 (u.tableOf m.2)) p.classTables := by
  induction l with
  | nil => exact fun _ => ⟨rfl, rfl, rfl⟩
  | cons m l ih => exact fun p => ih (p.post u m)

/-- The effects the class pass posts. -/
theorem mem_classPass_effects (hb : b.Sound) (eid c : ℕ) :
    c ∈ bucket (classPass b (poolMembers (membersByClass b)).2).effects eid ↔
      (∃ r, b.terminalBase r = some c) ∧
        ∃ set, b.effects.sets[c]? = some set ∧ eid ∈ set.iter := by
  have hinside : ∀ m ∈ classMemberships b (poolMembers (membersByClass b)).2,
      m.2 < (List.replicate b.effects.effectUniverse.len ([] : List ℕ)).length := by
    intro m hm
    obtain ⟨-, set, hset, heid⟩ := (mem_classMemberships hb m.1 m.2).mp hm
    rw [List.length_replicate]
    exact (hb.inv.valid set (List.mem_of_getElem? hset)).2 m.2 heid
  unfold classPass
  rw [(foldl_post _ _ _).1,
    mem_bucket_foldl_pushAt (fun m : ℕ × ℕ => m.2) (fun m => m.1) hinside eid c]
  constructor
  · rintro (hmem | ⟨m, hm, rfl, rfl⟩)
    · exact absurd hmem (mem_bucket_replicate _ _ _)
    · exact (mem_classMemberships hb m.1 m.2).mp hm
  · intro h
    exact Or.inr ⟨(c, eid), (mem_classMemberships hb c eid).mpr h, rfl, rfl⟩

/-- A class that has a member has an effect on a table. -/
def ClassTouches (b : SummaryBundle) (c : ℕ) (t : String) : Prop :=
  (∃ r, b.terminalBase r = some c) ∧ ∃ set, b.effects.sets[c]? = some set ∧
    ∃ eid ∈ set.iter, b.effects.effectUniverse.tableOf eid = t

theorem classTouches_iff (hb : b.Sound) (c : ℕ) (t : String) :
    ClassTouches b c t ↔ ∃ m ∈ classMemberships b (poolMembers (membersByClass b)).2,
      b.effects.effectUniverse.tableOf m.2 = t ∧ m.1 = c := by
  constructor
  · rintro ⟨hmember, set, hset, eid, heid, rfl⟩
    exact ⟨(c, eid), (mem_classMemberships hb c eid).mpr ⟨hmember, set, hset, heid⟩, rfl, rfl⟩
  · rintro ⟨m, hm, rfl, rfl⟩
    obtain ⟨hmember, set, hset, heid⟩ := (mem_classMemberships hb m.1 m.2).mp hm
    exact ⟨hmember, set, hset, m.2, heid, rfl⟩

/-- The tables the class pass posts. -/
theorem mem_classPass_tables (hb : b.Sound) (t : String) (c : ℕ) :
    c ∈ (classPass b (poolMembers (membersByClass b)).2).tables.getList t ↔
      ClassTouches b c t := by
  unfold classPass
  rw [(foldl_post _ _ _).2.1, HashMap.mem_getList_foldl_push
    (fun m : ℕ × ℕ => b.effects.effectUniverse.tableOf m.2) (fun m => m.1), classTouches_iff hb]
  simp

/-- The tables the class pass notes for a class. -/
theorem mem_classPass_classTables (hb : b.Sound) (c : ℕ) (t : String) :
    t ∈ bucket (classPass b (poolMembers (membersByClass b)).2).classTables c ↔
      ClassTouches b c t := by
  have hinside : ∀ m ∈ classMemberships b (poolMembers (membersByClass b)).2,
      m.1 < (List.replicate b.effects.sets.length ([] : List String)).length := by
    intro m hm
    obtain ⟨-, set, hset, -⟩ := (mem_classMemberships hb m.1 m.2).mp hm
    rw [List.length_replicate]
    exact (List.getElem?_eq_some_iff.mp hset).1
  unfold classPass
  rw [(foldl_post _ _ _).2.2, mem_bucket_foldl_pushAt (fun m : ℕ × ℕ => m.1)
    (fun m => b.effects.effectUniverse.tableOf m.2) hinside c t, classTouches_iff hb]
  constructor
  · rintro (hmem | ⟨m, hm, hc, ht⟩)
    · exact absurd hmem (mem_bucket_replicate _ _ _)
    · exact ⟨m, hm, ht, hc⟩
  · rintro ⟨m, hm, ht, hc⟩
    exact Or.inr ⟨m, hm, hc, ht⟩

/-! ## 5. The pass over the routines -/

/-- The effects that one routine posts. -/
theorem foldl_deltaPost_effects (u : FrozenEffectUniverse) (classTables : List String) (r : ℕ)
    (eids : List ℕ) : ∀ p : DeltaPostings,
    (eids.foldl (DeltaPostings.post u classTables r) p).effects =
      eids.foldl (fun t eid => pushAt t eid r) p.effects := by
  induction eids with
  | nil => exact fun _ => rfl
  | cons eid eids ih =>
    intro p
    have hstep : (p.post u classTables r eid).effects = pushAt p.effects eid r := by
      unfold DeltaPostings.post
      dsimp only
      split <;> rfl
    rw [List.foldl_cons, List.foldl_cons, ih, hstep]

/-- **The tables that one routine posts**: those of its own effects that its class does not have;
a table already added is already posted. -/
theorem foldl_deltaPost_tables (u : FrozenEffectUniverse) (classTables : List String) (r : ℕ)
    (eids : List ℕ) : ∀ p : DeltaPostings, (∀ t ∈ p.added, r ∈ p.tables.getList t) →
    ∀ (t : String) (x : ℕ),
      x ∈ (eids.foldl (DeltaPostings.post u classTables r) p).tables.getList t ↔
        x ∈ p.tables.getList t ∨
          x = r ∧ t ∉ classTables ∧ ∃ eid ∈ eids, u.tableOf eid = t := by
  induction eids with
  | nil => intro p _ t x; simp
  | cons eid eids ih =>
    intro p hadded t x
    rw [List.foldl_cons]
    by_cases hnew : u.tableOf eid ∉ classTables ∧ u.tableOf eid ∉ p.added
    · have hstep : p.post u classTables r eid =
          { effects := pushAt p.effects eid r
            tables := p.tables.push (u.tableOf eid) r
            added := u.tableOf eid :: p.added } := if_pos hnew
      have hadded' : ∀ t' ∈ u.tableOf eid :: p.added,
          r ∈ (p.tables.push (u.tableOf eid) r).getList t' := by
        intro t' ht'
        rw [HashMap.mem_getList_push]
        rcases List.mem_cons.mp ht' with rfl | ht'
        · exact Or.inr ⟨rfl, rfl⟩
        · exact Or.inl (hadded t' ht')
      rw [hstep, ih _ hadded']
      dsimp only
      rw [HashMap.mem_getList_push]
      constructor
      · rintro ((h | ⟨rfl, rfl⟩) | ⟨rfl, hnot, e, he, heq⟩)
        · exact Or.inl h
        · exact Or.inr ⟨rfl, hnew.1, eid, List.mem_cons_self, rfl⟩
        · exact Or.inr ⟨rfl, hnot, e, List.mem_cons_of_mem _ he, heq⟩
      · rintro (h | ⟨rfl, hnot, e, he, heq⟩)
        · exact Or.inl (Or.inl h)
        · rcases List.mem_cons.mp he with rfl | he
          · exact Or.inl (Or.inr ⟨heq.symm, rfl⟩)
          · exact Or.inr ⟨rfl, hnot, e, he, heq⟩
    · have hstep : p.post u classTables r eid = { p with effects := pushAt p.effects eid r } :=
        if_neg hnew
      rw [hstep, ih { p with effects := pushAt p.effects eid r } hadded]
      dsimp only
      constructor
      · rintro (h | ⟨rfl, hnot, e, he, heq⟩)
        · exact Or.inl h
        · exact Or.inr ⟨rfl, hnot, e, List.mem_cons_of_mem _ he, heq⟩
      · rintro (h | ⟨rfl, hnot, e, he, heq⟩)
        · exact Or.inl h
        · rcases List.mem_cons.mp he with rfl | he
          · -- Not posted, so its class has the table or it was added before.
            rw [heq] at hnew
            have hmem : t ∈ p.added := by
              by_contra hno
              exact hnew ⟨hnot, hno⟩
            exact Or.inl (hadded t hmem)
          · exact Or.inr ⟨rfl, hnot, e, he, heq⟩

/-- One routine of the delta pass. -/
def deltaStep (b : SummaryBundle) (classTables : List (List String))
    (acc : List (List ℕ) × HashMap String (List ℕ)) (r : ℕ) :
    List (List ℕ) × HashMap String (List ℕ) :=
  match b.terminalBase r with
  | none => acc
  | some classIx =>
    let p := (b.pdDeltaIds r).foldl
      (DeltaPostings.post b.effects.effectUniverse (bucket classTables classIx) r)
      { effects := acc.1, tables := acc.2, added := [] }
    (p.effects, p.tables)

theorem deltaPass_eq (b : SummaryBundle) (classTables : List (List String)) :
    deltaPass b classTables = b.routinesWithRows.foldl (deltaStep b classTables)
      (List.replicate b.effects.effectUniverse.len [], ∅) := rfl

/-- A routine's own effect is on a table that its class does not have. -/
def DeltaTouches (b : SummaryBundle) (classTables : List (List String)) (r : ℕ) (t : String) :
    Prop :=
  ∃ c, b.terminalBase r = some c ∧ t ∉ bucket classTables c ∧
    ∃ eid ∈ b.pdDeltaIds r, b.effects.effectUniverse.tableOf eid = t

/-- One step of the delta pass posts the routine's effects and tables. -/
theorem deltaStep_spec (hb : b.Sound) (classTables : List (List String))
    {acc : List (List ℕ) × HashMap String (List ℕ)}
    (hlen : acc.1.length = b.effects.effectUniverse.len) (r : ℕ) :
    (deltaStep b classTables acc r).1.length = b.effects.effectUniverse.len ∧
      (∀ eid x, x ∈ bucket (deltaStep b classTables acc r).1 eid ↔
        x ∈ bucket acc.1 eid ∨ x = r ∧ eid ∈ b.pdDeltaIds r) ∧
      ∀ t x, x ∈ (deltaStep b classTables acc r).2.getList t ↔
        x ∈ acc.2.getList t ∨ x = r ∧ DeltaTouches b classTables r t := by
  unfold deltaStep
  cases hc : b.terminalBase r with
  | none =>
    have hno : ∀ eid, eid ∉ b.pdDeltaIds r := by
      intro eid heid
      obtain ⟨c, hc'⟩ := terminalBase_of_pdDelta heid
      rw [hc] at hc'
      cases hc'
    refine ⟨hlen, fun eid x => ?_, fun t x => ?_⟩
    · simp [hno]
    · constructor
      · exact Or.inl
      · rintro (h | ⟨-, c, hc', -⟩)
        · exact h
        · rw [hc] at hc'
          cases hc'
  | some c =>
    dsimp only
    rw [foldl_deltaPost_effects]
    have hinside : ∀ eid ∈ b.pdDeltaIds r, eid < acc.1.length := by
      intro eid heid
      rw [hlen]
      exact hb.own r eid heid
    refine ⟨?_, fun eid x => ?_, fun t x => ?_⟩
    · rw [length_foldl_pushAt (fun eid : ℕ => eid) (fun _ => r)]
      exact hlen
    · rw [mem_bucket_foldl_pushAt (fun eid : ℕ => eid) (fun _ => r) hinside]
      constructor
      · rintro (h | ⟨e, he, rfl, rfl⟩)
        · exact Or.inl h
        · exact Or.inr ⟨rfl, he⟩
      · rintro (h | ⟨rfl, he⟩)
        · exact Or.inl h
        · exact Or.inr ⟨eid, he, rfl, rfl⟩
    · rw [foldl_deltaPost_tables _ _ _ _ _ fun t ht => absurd ht List.not_mem_nil]
      constructor
      · rintro (h | ⟨rfl, hnot, hex⟩)
        · exact Or.inl h
        · exact Or.inr ⟨rfl, c, hc, hnot, hex⟩
      · rintro (h | ⟨rfl, c', hc', hnot, hex⟩)
        · exact Or.inl h
        · rw [hc] at hc'
          obtain rfl := Option.some.inj hc'
          exact Or.inr ⟨rfl, hnot, hex⟩

/-- **The whole delta pass**, behind what was posted before. -/
theorem foldl_deltaStep (hb : b.Sound) (classTables : List (List String)) (rs : List ℕ) :
    ∀ {acc : List (List ℕ) × HashMap String (List ℕ)},
      acc.1.length = b.effects.effectUniverse.len →
      (∀ eid x, x ∈ bucket (rs.foldl (deltaStep b classTables) acc).1 eid ↔
        x ∈ bucket acc.1 eid ∨ x ∈ rs ∧ eid ∈ b.pdDeltaIds x) ∧
      ∀ t x, x ∈ (rs.foldl (deltaStep b classTables) acc).2.getList t ↔
        x ∈ acc.2.getList t ∨ x ∈ rs ∧ DeltaTouches b classTables x t := by
  induction rs with
  | nil => intro acc _; simp
  | cons r rs ih =>
    intro acc hlen
    obtain ⟨hlen', heffects, htables⟩ := deltaStep_spec hb classTables hlen r
    obtain ⟨hrest, hrest'⟩ := ih hlen'
    refine ⟨fun eid x => ?_, fun t x => ?_⟩
    · rw [List.foldl_cons, hrest, heffects, List.mem_cons]
      constructor
      · rintro ((h | ⟨rfl, h⟩) | ⟨hx, h⟩)
        · exact Or.inl h
        · exact Or.inr ⟨Or.inl rfl, h⟩
        · exact Or.inr ⟨Or.inr hx, h⟩
      · rintro (h | ⟨rfl | hx, h⟩)
        · exact Or.inl (Or.inl h)
        · exact Or.inl (Or.inr ⟨rfl, h⟩)
        · exact Or.inr ⟨hx, h⟩
    · rw [List.foldl_cons, hrest', htables, List.mem_cons]
      constructor
      · rintro ((h | ⟨rfl, h⟩) | ⟨hx, h⟩)
        · exact Or.inl h
        · exact Or.inr ⟨Or.inl rfl, h⟩
        · exact Or.inr ⟨Or.inr hx, h⟩
      · rintro (h | ⟨rfl | hx, h⟩)
        · exact Or.inl (Or.inl h)
        · exact Or.inl (Or.inr ⟨rfl, h⟩)
        · exact Or.inr ⟨hx, h⟩

/-- The routines that the delta pass posts under an effect. -/
theorem mem_deltaPass_effects (hb : b.Sound) (classTables : List (List String)) (eid r : ℕ) :
    r ∈ bucket (deltaPass b classTables).1 eid ↔ eid ∈ b.pdDeltaIds r := by
  rw [deltaPass_eq, (foldl_deltaStep hb classTables _ (by simp)).1]
  constructor
  · rintro (h | ⟨-, h⟩)
    · exact absurd h (mem_bucket_replicate _ _ _)
    · exact h
  · intro h
    exact Or.inr ⟨(mem_routinesWithRows b r).mpr (terminalBase_of_pdDelta h), h⟩

/-- The routines that the delta pass posts under a table. -/
theorem mem_deltaPass_tables (hb : b.Sound) (classTables : List (List String)) (t : String)
    (r : ℕ) : r ∈ (deltaPass b classTables).2.getList t ↔ DeltaTouches b classTables r t := by
  rw [deltaPass_eq, (foldl_deltaStep hb classTables _ (by simp)).2]
  constructor
  · rintro (h | ⟨-, h⟩)
    · exact absurd h List.not_mem_nil
    · exact h
  · rintro ⟨c, hc, hrest⟩
    exact Or.inr ⟨(mem_routinesWithRows b r).mpr ⟨c, hc⟩, c, hc, hrest⟩

/-! ## 6. Queries -/

theorem hasBit_foldl_classes (ix : ReverseEffectIndex) (classes : List ℕ) : ∀ (bits : Bits) (n : ℕ),
    hasBit (classes.foldl (fun bits c => (ix.classMembers c).foldl setBitU32 bits) bits) n = true ↔
      hasBit bits n = true ∨ ∃ c ∈ classes, n ∈ ix.classMembers c := by
  induction classes with
  | nil => simp
  | cons c classes ih =>
    intro bits n
    rw [List.foldl_cons, ih]
    show hasBit ((ix.classMembers c).foldl setBit bits) n = true ∨ _ ↔ _
    rw [hasBit_foldl_setBit]
    simp only [List.mem_cons, exists_eq_or_imp, or_assoc]

/-- **An expansion** has the routines of the classes and the routines given, ascending. -/
theorem mem_expand (ix : ReverseEffectIndex) (classes routines : List ℕ) (r : ℕ) :
    r ∈ ix.expand classes routines ↔ (∃ c ∈ classes, r ∈ ix.classMembers c) ∨ r ∈ routines := by
  show r ∈ iterSetBits (routines.foldl setBit _) ↔ _
  rw [mem_iterSetBits, hasBit_foldl_setBit, hasBit_foldl_classes]
  simp

theorem expand_pairwise (ix : ReverseEffectIndex) (classes routines : List ℕ) :
    (ix.expand classes routines).Pairwise (· < ·) := iterSetBits_pairwise _

/-- **Up from an effect**: the routines that have it. -/
theorem mem_upEffect (hb : b.Sound) (eid r : ℕ) : r ∈ (build b).upEffect eid ↔ b.Has r eid := by
  unfold upEffect
  rw [mem_expand]
  unfold effectClasses effectDeltaRoutines
  show (∃ c ∈ postedAt ((classPass b (poolMembers (membersByClass b)).2).effects.map _) eid, _) ∨
    r ∈ postedAt ((deltaPass b _).1.map _) eid ↔ _
  rw [mem_postedAt, mem_deltaPass_effects hb]
  unfold SummaryBundle.Has
  refine or_congr_left ?_
  constructor
  · rintro ⟨c, hc, hr⟩
    rw [mem_postedAt, mem_classPass_effects hb] at hc
    obtain ⟨-, set, hset, heid⟩ := hc
    exact ⟨c, set, (mem_classMembers hb c r).mp hr, hset, heid⟩
  · rintro ⟨c, set, hc, hset, heid⟩
    refine ⟨c, ?_, (mem_classMembers hb c r).mpr hc⟩
    rw [mem_postedAt, mem_classPass_effects hb]
    exact ⟨⟨r, hc⟩, set, hset, heid⟩

/-- **Down to an effect**: the same membership. -/
theorem touchesEffect_iff (hb : b.Sound) (r eid : ℕ) :
    (build b).touchesEffect b r eid = true ↔ b.Has r eid := by
  unfold touchesEffect classOf
  cases hc : b.terminalBase r with
  | none =>
    refine ⟨fun h => absurd h Bool.false_ne_true, ?_⟩
    rintro (⟨c, set, hc', -⟩ | hown)
    · rw [hc] at hc'
      cases hc'
    · obtain ⟨c, hc'⟩ := terminalBase_of_pdDelta hown
      rw [hc] at hc'
      cases hc'
  | some c =>
    dsimp only
    rw [Bool.or_eq_true]
    unfold effectTouchesViaBase effectTouchesViaDeltaRoutine
    show touchedAt ((classPass b (poolMembers (membersByClass b)).2).effects.map _) eid c = true ∨
      touchedAt ((deltaPass b _).1.map _) eid r = true ↔ _
    rw [touchedAt_iff, touchedAt_iff, mem_classPass_effects hb, mem_deltaPass_effects hb]
    unfold SummaryBundle.Has
    refine or_congr_left ?_
    constructor
    · rintro ⟨-, set, hset, heid⟩
      exact ⟨c, set, hc, hset, heid⟩
    · rintro ⟨c', set, hc', hset, heid⟩
      rw [hc] at hc'
      obtain rfl := Option.some.inj hc'
      exact ⟨⟨r, hc⟩, set, hset, heid⟩

/-- A routine has an effect on a table: its class has one, or it has one its class has not. -/
theorem touches_table_iff (hb : b.Sound) (r : ℕ) (t : String) :
    (∃ eid, b.Has r eid ∧ b.effects.effectUniverse.tableOf eid = t) ↔
      (∃ c, b.terminalBase r = some c ∧ ClassTouches b c t) ∨
        DeltaTouches b (classPass b (poolMembers (membersByClass b)).2).classTables r t := by
  constructor
  · rintro ⟨eid, ⟨c, set, hc, hset, heid⟩ | hown, ht⟩
    · exact Or.inl ⟨c, hc, ⟨r, hc⟩, set, hset, eid, heid, ht⟩
    · obtain ⟨c, hc⟩ := terminalBase_of_pdDelta hown
      by_cases hclass : ClassTouches b c t
      · exact Or.inl ⟨c, hc, hclass⟩
      · refine Or.inr ⟨c, hc, fun hmem => hclass ?_, eid, hown, ht⟩
        exact (mem_classPass_classTables hb c t).mp hmem
  · rintro (⟨c, hc, -, set, hset, eid, heid, ht⟩ | ⟨c, -, -, eid, hown, ht⟩)
    · exact ⟨eid, Or.inl ⟨c, set, hc, hset, heid⟩, ht⟩
    · exact ⟨eid, Or.inr hown, ht⟩

/-- **Up from a table**: the routines that have an effect on it. -/
theorem mem_upTable (hb : b.Sound) (t : String) (r : ℕ) :
    r ∈ (build b).upTable t ↔
      ∃ eid, b.Has r eid ∧ b.effects.effectUniverse.tableOf eid = t := by
  rw [touches_table_iff hb]
  unfold upTable
  rw [mem_expand]
  show (∃ c ∈ postedUnder ((classPass b (poolMembers (membersByClass b)).2).tables.mapValues _) t,
    _) ∨ r ∈ postedUnder ((deltaPass b _).2.mapValues _) t ↔ _
  rw [mem_postedUnder, mem_deltaPass_tables hb]
  refine or_congr_left (exists_congr fun c => ?_)
  rw [mem_postedUnder, mem_classPass_tables hb, mem_classMembers hb]
  exact and_comm

/-- **Down to a table**: the same membership. -/
theorem touchesTable_iff (hb : b.Sound) (r : ℕ) (t : String) :
    (build b).touchesTable b r t = true ↔
      ∃ eid, b.Has r eid ∧ b.effects.effectUniverse.tableOf eid = t := by
  rw [touches_table_iff hb]
  unfold touchesTable classOf
  cases hc : b.terminalBase r with
  | none =>
    refine ⟨fun h => absurd h Bool.false_ne_true, ?_⟩
    rintro (⟨c, hc', -⟩ | ⟨c, hc', -⟩)
    · cases hc'
    · rw [hc] at hc'
      cases hc'
  | some c =>
    dsimp only
    rw [Bool.or_eq_true]
    unfold tableTouchesViaBase tableTouchesViaDeltaRoutine
    show touchedUnder ((classPass b (poolMembers (membersByClass b)).2).tables.mapValues _) t c =
      true ∨ touchedUnder ((deltaPass b _).2.mapValues _) t r = true ↔ _
    rw [touchedUnder_iff, touchedUnder_iff, mem_classPass_tables hb, mem_deltaPass_tables hb]
    refine or_congr_left ?_
    simp

end ReverseEffectIndex

/-! ## 7. Every bundle the builder gives -/

/-- A bundle that `finish` gives after a run whose pushes fit. -/
def SummaryBundle.Built (b : SummaryBundle) : Prop :=
  ∃ (pushes : List Push) (u : FrozenEffectUniverse) (walk : (build pushes).Walk)
    (rvidByOpid : HashMap String (Option String)),
    PushesFit SummaryBundleBuilder.new pushes ∧ (build pushes).CoveredBy u ∧
      (build pushes).finish walk u rvidByOpid = some b

/-- A represented row's own ids are the row's. -/
theorem mem_pdDeltaIds {b : SummaryBundle} {r : ℕ} {row : CompactRoutineSummary} {ids : List ℕ}
    {raw : RawRow} (hrow : b.summaries.lookup r = some row) (hrep : b.Represents row ids raw)
    (hlen : raw.deltaVia.length = raw.pdDelta.length) (id : ℕ) :
    id ∈ b.pdDeltaIds r ↔ id ∈ raw.pdDelta := by
  obtain ⟨pdIds, pdVia, hslice, -, hpd, hperm, -⟩ := hrep.delta
  have hids : b.pdDeltaIds r = pdIds := by
    unfold SummaryBundle.pdDeltaIds
    rw [hrow]
    show (row.pdDelta.slice b.deltaPool).getD [] = pdIds
    rw [hslice]
    rfl
  have hfst := (hperm.map Prod.fst).mem_iff (a := id)
  rw [List.map_fst_zip (Nat.le_of_eq hpd), List.map_fst_zip (Nat.le_of_eq hlen.symm)] at hfst
  rw [hids]
  exact hfst

/-- The effects of a list are those of the ids in it. -/
theorem exists_identity_iff {b : SummaryBundle} {effects out : List (ℕ × ViaRank)}
    {refs : List DbEffectRef} (h : b.Lists effects out refs) (i : EffectIdentity) :
    (∃ e ∈ refs, e.identity = i) ↔
      ∃ id ∈ effects.map Prod.fst, b.effects.effectUniverse.identity id = some i := by
  constructor
  · rintro ⟨e, he, rfl⟩
    obtain ⟨x, hx, hshow⟩ := exists_of_mem_right h.shown he
    exact ⟨x.1, List.mem_map_of_mem (h.perm.mem_iff.mp hx), hshow.1⟩
  · rintro ⟨id, hid, hi⟩
    obtain ⟨x, hx, rfl⟩ := List.mem_map.mp hid
    obtain ⟨e, he, hshow⟩ := exists_of_mem_right h.shown.flip (h.perm.mem_iff.mpr hx)
    refine ⟨e, he, ?_⟩
    have hid := hshow.1
    rw [hi] at hid
    exact (Option.some.inj hid).symm

/-- **A built bundle has what the builder's rows have.** -/
theorem has_iff {pushes : List Push} (hfit : PushesFit SummaryBundleBuilder.new pushes)
    {u : FrozenEffectUniverse} (hcover : (build pushes).CoveredBy u) {walk : (build pushes).Walk}
    {rvidByOpid : HashMap String (Option String)} {b : SummaryBundle}
    (hb : (build pushes).finish walk u rvidByOpid = some b) (r id : ℕ) :
    b.Has r id ↔ ∃ effects, (build pushes).rowEffects r = some effects ∧
      id ∈ effects.map Prod.fst := by
  have hpar : (build pushes).Parallel :=
    build_parallel (fun r raw h => absurd h.symm (Option.some_ne_none raw)) hfit
  obtain ⟨bundle, hfinish, -, -, hnone, hrows⟩ := finish_spec hpar hcover walk rvidByOpid
  rw [hb] at hfinish
  obtain rfl := Option.some.inj hfinish
  unfold SummaryBundle.Has SummaryBundleBuilder.rowEffects
  cases hraw : (build pushes).rows r with
  | none =>
    unfold SummaryBundle.terminalBase SummaryBundle.pdDeltaIds
    rw [hnone r hraw]
    simp
  | some raw =>
    obtain ⟨row, bits, hrow, hbits, -, hrep⟩ := hrows r raw hraw
    obtain ⟨bits', hbits', hlen, -⟩ := (hpar r raw hraw).terminal
    rw [hbits] at hbits'
    obtain rfl := Option.some.inj hbits'
    have hbase : b.terminalBase r = some row.terminalBase := by
      unfold SummaryBundle.terminalBase
      rw [hrow]
      rfl
    have hget : (build pushes).arena.getD raw.terminalSet [] = bits := by
      rw [List.getD_eq_getElem?_getD, hbits]
      rfl
    obtain ⟨set, hset, hiter⟩ := hrep.terminal
    have hstored : (∃ c set, b.terminalBase r = some c ∧ b.effects.sets[c]? = some set ∧
        id ∈ set.iter) ↔ id ∈ iterSetBits bits := by
      rw [← hiter]
      constructor
      · rintro ⟨c, set', hc, hset', hid⟩
        rw [hbase] at hc
        obtain rfl := Option.some.inj hc
        rw [hset] at hset'
        rwa [Option.some.inj hset']
      · exact fun hid => ⟨row.terminalBase, set, hbase, hset, hid⟩
    rw [hstored, mem_pdDeltaIds hrow hrep (hpar r raw hraw).deltaVia, Option.map_some, hget]
    simp only [Option.some.injEq, exists_eq_left']
    rw [List.map_append, List.mem_append, List.map_fst_zip (Nat.le_of_eq hlen.symm),
      List.map_fst_zip (Nat.le_of_eq (hpar r raw hraw).deltaVia.symm)]

/-- **A built bundle is sound.** -/
theorem SummaryBundle.Built.sound {b : SummaryBundle} (h : b.Built) : b.Sound := by
  obtain ⟨pushes, u, walk, rvidByOpid, hfit, hcover, hb⟩ := h
  have hpar : (AlSem.L4.build pushes).Parallel :=
    build_parallel (fun r raw h => absurd h.symm (Option.some_ne_none raw)) hfit
  have hhas := has_iff hfit hcover hb
  obtain ⟨bundle, hfinish, hu, hinv, hnone, hrows⟩ := finish_spec hpar hcover walk rvidByOpid
  rw [hb] at hfinish
  obtain rfl := Option.some.inj hfinish
  have hown : ∀ r raw, (AlSem.L4.build pushes).rows r = some raw →
      ∀ id ∈ raw.pdDelta, id < b.effects.effectUniverse.len := by
    intro r raw hraw
    rw [hu]
    exact hcover.rows r raw hraw
  refine ⟨hinv, fun r c hc => ?_, fun r id hid => ?_, fun r => ?_⟩
  · obtain ⟨row, hrow, rfl⟩ := Option.map_eq_some_iff.mp hc
    cases hraw : (AlSem.L4.build pushes).rows r with
    | none =>
      rw [hnone r hraw] at hrow
      cases hrow
    | some raw =>
      obtain ⟨row', bits, hrow', -, -, hrep⟩ := hrows r raw hraw
      rw [hrow] at hrow'
      obtain rfl := Option.some.inj hrow'
      obtain ⟨set, hset, -⟩ := hrep.terminal
      exact ⟨set, hset⟩
  · cases hraw : (AlSem.L4.build pushes).rows r with
    | none =>
      unfold SummaryBundle.pdDeltaIds at hid
      rw [hnone r hraw] at hid
      exact absurd hid List.not_mem_nil
    | some raw =>
      obtain ⟨row, bits, hrow, -, -, hrep⟩ := hrows r raw hraw
      exact hown r raw hraw id ((mem_pdDeltaIds hrow hrep (hpar r raw hraw).deltaVia id).mp hid)
  · cases hraw : (AlSem.L4.build pushes).rows r with
    | none =>
      refine ⟨[], ?_, fun i => ?_⟩
      · unfold SummaryBundle.dbEffects
        rw [hnone r hraw]
      · simp only [hhas, SummaryBundleBuilder.rowEffects, hraw]
        simp
    | some raw =>
      obtain ⟨row, bits, hrow, hbits, -, hrep⟩ := hrows r raw hraw
      obtain ⟨out, refs, hproject, hlists⟩ :=
        projectRow_lists hinv (hpar r raw hraw) hbits hrep (hown r raw hraw)
      refine ⟨refs, ?_, fun i => ?_⟩
      · unfold SummaryBundle.dbEffects
        rw [hrow]
        exact hproject
      · have hget : (AlSem.L4.build pushes).arena.getD raw.terminalSet [] = bits := by
          rw [List.getD_eq_getElem?_getD, hbits]
          rfl
        rw [exists_identity_iff hlists]
        simp only [hhas, SummaryBundleBuilder.rowEffects, hraw, Option.map_some, hget,
          Option.some.injEq, exists_eq_left']

/-! ## 8. The index and the rows -/

/-- `db_effects(r)` has an effect with the property. -/
def SummaryBundle.HasEffect (b : SummaryBundle) (r : ℕ) (P : DbEffectRef → Prop) : Prop :=
  ∃ refs, b.dbEffects r = some refs ∧ ∃ e ∈ refs, P e

/-- **The index agrees with the rows.**  For every bundle, table, effect and routine: going up
gives exactly the routines whose rows have the effect, or an effect on the table, ascending, and
asking about one routine gives the same answer. -/
theorem reverseIndex_agrees (b : SummaryBundle) (hb : b.Built) (t : String) (x r : ℕ) :
    ((ReverseEffectIndex.build b).upTable t).Pairwise (· < ·) ∧
      (r ∈ (ReverseEffectIndex.build b).upTable t ↔ b.HasEffect r fun e => e.tableId = t) ∧
      ((ReverseEffectIndex.build b).upEffect x).Pairwise (· < ·) ∧
      (r ∈ (ReverseEffectIndex.build b).upEffect x ↔
        b.HasEffect r fun e => b.effects.effectUniverse.identity x = some e.identity) ∧
      ((ReverseEffectIndex.build b).touchesTable b r t = true ↔
        r ∈ (ReverseEffectIndex.build b).upTable t) ∧
      ((ReverseEffectIndex.build b).touchesEffect b r x = true ↔
        r ∈ (ReverseEffectIndex.build b).upEffect x) := by
  have hs := hb.sound
  obtain ⟨refs, hrefs, hids⟩ := hs.lists r
  have hlists : ∀ P : DbEffectRef → Prop, b.HasEffect r P ↔ ∃ e ∈ refs, P e := by
    intro P
    constructor
    · rintro ⟨refs', hrefs', hex⟩
      rw [hrefs] at hrefs'
      rwa [Option.some.inj hrefs']
    · exact fun h => ⟨refs, hrefs, h⟩
  have hlt : ∀ id, b.Has r id → id < b.effects.effectUniverse.len := by
    rintro id (⟨c, set, -, hset, hid⟩ | hown)
    · exact (hs.inv.valid set (List.mem_of_getElem? hset)).2 id hid
    · exact hs.own r id hown
  refine ⟨ReverseEffectIndex.expand_pairwise _ _ _, ?_, ReverseEffectIndex.expand_pairwise _ _ _,
    ?_, ?_, ?_⟩
  · rw [ReverseEffectIndex.mem_upTable hs, hlists]
    constructor
    · rintro ⟨eid, hhas, rfl⟩
      obtain ⟨i, hi⟩ := b.effects.effectUniverse.identity_isSome (hlt eid hhas)
      obtain ⟨e, he, hei⟩ := (hids i).mpr ⟨eid, hhas, hi⟩
      refine ⟨e, he, ?_⟩
      unfold FrozenEffectUniverse.tableOf
      rw [hi, ← hei]
      rfl
    · rintro ⟨e, he, rfl⟩
      obtain ⟨eid, hhas, hi⟩ := (hids e.identity).mp ⟨e, he, rfl⟩
      refine ⟨eid, hhas, ?_⟩
      unfold FrozenEffectUniverse.tableOf
      rw [hi]
      rfl
  · rw [ReverseEffectIndex.mem_upEffect hs, hlists]
    constructor
    · intro hhas
      obtain ⟨i, hi⟩ := b.effects.effectUniverse.identity_isSome (hlt x hhas)
      obtain ⟨e, he, hei⟩ := (hids i).mpr ⟨x, hhas, hi⟩
      exact ⟨e, he, by rw [hi, hei]⟩
    · rintro ⟨e, he, hx⟩
      obtain ⟨eid, hhas, hi⟩ := (hids e.identity).mp ⟨e, he, rfl⟩
      rw [Interner.value_inj hx hi]
      exact hhas
  · rw [ReverseEffectIndex.touchesTable_iff hs, ReverseEffectIndex.mem_upTable hs]
  · rw [ReverseEffectIndex.touchesEffect_iff hs, ReverseEffectIndex.mem_upEffect hs]

/-- Both routines are found under the table of the shared effects, and under the table of the
effect of its own only the one that has it. -/
theorem reverseIndex_agrees_wide :
    ∃ b : SummaryBundle, b.Built ∧
      0 ∈ (ReverseEffectIndex.build b).upTable "C" ∧
      1 ∈ (ReverseEffectIndex.build b).upTable "C" ∧
      0 ∈ (ReverseEffectIndex.build b).upTable "D" ∧
      1 ∉ (ReverseEffectIndex.build b).upTable "D" ∧
      (ReverseEffectIndex.build b).touchesTable b 0 "D" = true := by
  have hpar : (build widePushes).Parallel :=
    build_parallel (fun r raw h => absurd h.symm (Option.some_ne_none raw)) wide_fits
  obtain ⟨b, hfinish, hu, -⟩ := finish_spec hpar wide_covered wideWalk ∅
  have hb : b.Built := ⟨_, _, _, _, wide_fits, wide_covered, hfinish⟩
  -- An effect of a row is in the routine's list.
  have hlists : ∀ r id i, b.Has r id → wideUniverse.identity id = some i →
      b.HasEffect r fun e => e.tableId = i.tableId := by
    intro r id i hhas hi
    obtain ⟨refs, hrefs, hids⟩ := hb.sound.lists r
    obtain ⟨e, he, hei⟩ := (hids i).mpr ⟨id, hhas, by rw [hu, hi]⟩
    exact ⟨refs, hrefs, e, he, congrArg EffectIdentity.tableId hei⟩
  obtain ⟨effects, heffects, hids⟩ := owning_rowIds
  obtain ⟨effects', heffects', hids'⟩ := inheriting_rowIds
  have hhas := has_iff wide_fits wide_covered hfinish
  have hzero : (0 : ℕ) ∈ List.range sparseThreshold := by decide
  have h0 : b.Has 0 0 := by
    rw [hhas, heffects]
    exact ⟨effects, rfl, by rw [hids]; exact List.mem_append_left _ hzero⟩
  have hown : b.Has 0 sparseThreshold := by
    rw [hhas, heffects]
    exact ⟨effects, rfl, by rw [hids]; exact List.mem_append_right _ List.mem_cons_self⟩
  have h1 : b.Has 1 0 := by
    rw [hhas, heffects']
    exact ⟨effects', rfl, by rw [hids']; exact List.mem_append_left _ hzero⟩
  have hD : 0 ∈ (ReverseEffectIndex.build b).upTable "D" :=
    (reverseIndex_agrees b hb "D" 0 0).2.1.mpr (hlists 0 _ _ hown wideUniverse_own)
  refine ⟨b, hb, (reverseIndex_agrees b hb "C" 0 0).2.1.mpr
    (hlists 0 _ _ h0 (wideUniverse_shared (by decide))),
    (reverseIndex_agrees b hb "C" 0 1).2.1.mpr
    (hlists 1 _ _ h1 (wideUniverse_shared (by decide))), hD, fun hmem => ?_,
    (reverseIndex_agrees b hb "D" 0 0).2.2.2.2.1.mpr hD⟩
  -- All the second routine has is of the shared table.
  obtain ⟨refs, hrefs, e, he, htable⟩ := (reverseIndex_agrees b hb "D" 0 1).2.1.mp hmem
  obtain ⟨refs', hrefs', hall⟩ := hb.sound.lists 1
  rw [hrefs] at hrefs'
  obtain rfl := Option.some.inj hrefs'
  obtain ⟨id, hid, hi⟩ := (hall e.identity).mp ⟨e, he, rfl⟩
  rw [hhas, heffects'] at hid
  obtain ⟨_, heq, hid⟩ := hid
  obtain rfl := Option.some.inj heq
  rw [hids', List.mem_append, List.mem_range] at hid
  rcases hid with hid | hid
  · rw [hu, wideUniverse_shared hid] at hi
    have htable' : "C" = e.tableId := congrArg EffectIdentity.tableId (Option.some.inj hi)
    rw [htable] at htable'
    exact absurd htable' (by decide)
  · exact absurd hid List.not_mem_nil

end AlSem.L4
