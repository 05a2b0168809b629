/-
# Signature pairs keep the normalization injective

`gate/diff/renames.rs`, `pair_signature_changes`.  A group holds the candidates of its key, so a
candidate is in one pair at most, on either side.  A pair's new id is no id an old routine normalizes
to, so moving the pair's old routine there joins no two keys; its old id is no key of the user's, so
no entry of the user's is replaced.
-/
import AlSem.Diff.RenameIndexes

namespace AlSem.Diff

open AlSem.Snapshot

/-! ## 1. The groups -/

/-- The group of a key, empty when it has none. -/
def groupOf (groups : Groups) (key : String × String × Bool) : List String × List String :=
  (IndexMap.get groups key).getD ([], [])

theorem groupOf_pushOld (groups : Groups) (key key' : String × String × Bool) (id : String) :
    groupOf (pushOld groups key id) key' =
      if key' = key then ((groupOf groups key').1 ++ [id], (groupOf groups key').2)
      else groupOf groups key' := by
  unfold groupOf pushOld
  rw [IndexMap.get_insert]
  by_cases hkey : key' = key
  · rw [if_pos hkey, if_pos hkey, hkey]
    rfl
  · rw [if_neg hkey, if_neg hkey]

theorem groupOf_pushNew (groups : Groups) (key key' : String × String × Bool) (id : String) :
    groupOf (pushNew groups key id) key' =
      if key' = key then ((groupOf groups key').1, (groupOf groups key').2 ++ [id])
      else groupOf groups key' := by
  unfold groupOf pushNew
  rw [IndexMap.get_insert]
  by_cases hkey : key' = key
  · rw [if_pos hkey, if_pos hkey, hkey]
    rfl
  · rw [if_neg hkey, if_neg hkey]

variable (P : Prims)

/-- The ids of the candidates with a key. -/
def idsOf (candidates : List (String × RoutineRow)) (key : String × String × Bool) : List String :=
  (candidates.filter fun e => e.2.key P = key).map Prod.fst

theorem idsOf_append_singleton (l : List (String × RoutineRow)) (e : String × RoutineRow)
    (key : String × String × Bool) :
    idsOf P (l ++ [e]) key = if key = e.2.key P then idsOf P l key ++ [e.1] else idsOf P l key := by
  unfold idsOf
  rw [List.filter_append, List.filter_singleton, List.map_append]
  by_cases hkey : key = e.2.key P
  · rw [if_pos hkey]
    simp [hkey]
  · rw [if_neg hkey]
    simp [Ne.symm hkey]

theorem mem_idsOf {candidates : List (String × RoutineRow)} {key : String × String × Bool}
    {id : String} :
    id ∈ idsOf P candidates key ↔ ∃ row, (id, row) ∈ candidates ∧ row.key P = key := by
  unfold idsOf
  rw [List.mem_map]
  constructor
  · rintro ⟨e, he, rfl⟩
    obtain ⟨hmem, hkey⟩ := List.mem_filter.mp he
    exact ⟨e.2, hmem, of_decide_eq_true hkey⟩
  · rintro ⟨row, hmem, hkey⟩
    exact ⟨(id, row), List.mem_filter.mpr ⟨hmem, decide_eq_true hkey⟩, rfl⟩

theorem groupOf_foldl_pushOld (l : List (String × RoutineRow)) (groups : Groups)
    (key : String × String × Bool) :
    groupOf (l.foldl (fun g e => pushOld g (e.2.key P) e.1) groups) key =
      ((groupOf groups key).1 ++ idsOf P l key, (groupOf groups key).2) := by
  induction l using List.reverseRecOn with
  | nil => exact Prod.ext (List.append_nil _).symm rfl
  | append_singleton l e ih =>
    rw [List.foldl_append, List.foldl_cons, List.foldl_nil, groupOf_pushOld, ih,
      idsOf_append_singleton]
    by_cases hkey : key = e.2.key P
    · rw [if_pos hkey, if_pos hkey, List.append_assoc]
    · rw [if_neg hkey, if_neg hkey]

theorem groupOf_foldl_pushNew (l : List (String × RoutineRow)) (groups : Groups)
    (key : String × String × Bool) :
    groupOf (l.foldl (fun g e => pushNew g (e.2.key P) e.1) groups) key =
      ((groupOf groups key).1, (groupOf groups key).2 ++ idsOf P l key) := by
  induction l using List.reverseRecOn with
  | nil => exact Prod.ext rfl (List.append_nil _).symm
  | append_singleton l e ih =>
    rw [List.foldl_append, List.foldl_cons, List.foldl_nil, groupOf_pushNew, ih,
      idsOf_append_singleton]
    by_cases hkey : key = e.2.key P
    · rw [if_pos hkey, if_pos hkey, List.append_assoc]
    · rw [if_neg hkey, if_neg hkey]

/-- Folds of inserts keep keys distinct. -/
theorem nodup_foldl_insert {α β κ : Type} [DecidableEq κ] (f : IndexMap κ α → β → IndexMap κ α)
    (hf : ∀ m b, (m.map Prod.fst).Nodup → ((f m b).map Prod.fst).Nodup) (l : List β) :
    ∀ {m : IndexMap κ α}, (m.map Prod.fst).Nodup → ((l.foldl f m).map Prod.fst).Nodup := by
  induction l with
  | nil => exact fun hm => hm
  | cons b l ih => exact fun hm => ih (hf _ b hm)

/-! ## 2. The pairs -/

/-- The pair of a group with one candidate on each side. -/
def pairOf (g : List String × List String) : Option (String × String) :=
  match g with
  | ([o], [n]) => some (o, n)
  | _ => none

theorem pairOf_eq_some {g : List String × List String} {p : String × String}
    (h : pairOf g = some p) : g = ([p.1], [p.2]) := by
  unfold pairOf at h
  split at h
  · rw [← Option.some.inj h]
  · cases h

variable (oldSnap newSnap : CborValue) (user : RenameTable)

/-- The groups the pairs are read from. -/
def signatureGroups : Groups :=
  (newCandidates (routineRows oldSnap) (routineRows newSnap) user).foldl
    (fun g e => pushNew g (e.2.key P) e.1)
    ((oldCandidates (routineRows oldSnap) (routineRows newSnap) user).foldl
      (fun g e => pushOld g (e.2.key P) e.1) [])

theorem pairSignatureChanges_eq :
    pairSignatureChanges P oldSnap newSnap user =
      (signatureGroups P oldSnap newSnap user).filterMap fun e => pairOf e.2 := rfl

theorem nodup_signatureGroups : ((signatureGroups P oldSnap newSnap user).map Prod.fst).Nodup := by
  unfold signatureGroups
  refine nodup_foldl_insert _ (fun m e hm => IndexMap.nodup_insert hm _ _) _ ?_
  exact nodup_foldl_insert _ (fun m e hm => IndexMap.nodup_insert hm _ _) _ List.nodup_nil

theorem groupOf_signatureGroups (key : String × String × Bool) :
    groupOf (signatureGroups P oldSnap newSnap user) key =
      (idsOf P (oldCandidates (routineRows oldSnap) (routineRows newSnap) user) key,
        idsOf P (newCandidates (routineRows oldSnap) (routineRows newSnap) user) key) := by
  unfold signatureGroups
  rw [groupOf_foldl_pushNew, groupOf_foldl_pushOld]
  rfl

/-- **A pair is a candidate of each side, of one key.** -/
theorem candidates_of_group {e : (String × String × Bool) × List String × List String}
    (he : e ∈ signatureGroups P oldSnap newSnap user) {p : String × String}
    (hp : pairOf e.2 = some p) :
    (∃ row, (p.1, row) ∈ oldCandidates (routineRows oldSnap) (routineRows newSnap) user ∧
        row.key P = e.1) ∧
      ∃ row, (p.2, row) ∈ newCandidates (routineRows oldSnap) (routineRows newSnap) user ∧
        row.key P = e.1 := by
  have hgroup := groupOf_signatureGroups P oldSnap newSnap user e.1
  unfold groupOf at hgroup
  rw [IndexMap.get_of_mem (nodup_signatureGroups P oldSnap newSnap user) he, Option.getD_some,
    pairOf_eq_some hp] at hgroup
  obtain ⟨holds, hnews⟩ := Prod.mk.inj hgroup
  exact ⟨(mem_idsOf P).mp (holds ▸ List.mem_cons_self), (mem_idsOf P).mp (hnews ▸ List.mem_cons_self)⟩

/-- A row is its id's only one. -/
theorem row_unique {snap : CborValue} {id : String} {row row' : RoutineRow}
    (h : (id, row) ∈ routineRows snap) (h' : (id, row') ∈ routineRows snap) : row = row' := by
  have hget := IndexMap.get_of_mem (IndexMap.nodup_ofEntries _) h
  rw [IndexMap.get_of_mem (IndexMap.nodup_ofEntries _) h'] at hget
  exact (Option.some.inj hget).symm

/-- Pairs of two groups share no id on a side where a candidate has one key. -/
theorem nodup_side (side : String × String → String)
    (hside : ∀ e ∈ signatureGroups P oldSnap newSnap user,
      ∀ e' ∈ signatureGroups P oldSnap newSnap user, ∀ p p', pairOf e.2 = some p →
        pairOf e'.2 = some p' → side p = side p' → e.1 = e'.1) :
    ((pairSignatureChanges P oldSnap newSnap user).map side).Nodup := by
  rw [pairSignatureChanges_eq, List.map_filterMap]
  unfold List.Nodup
  rw [List.pairwise_filterMap]
  refine (List.pairwise_map.mp (nodup_signatureGroups P oldSnap newSnap user)).imp_of_mem ?_
  intro e e' he he' hne i hi i' hi' heq
  obtain ⟨p, hp, rfl⟩ := Option.map_eq_some_iff.mp hi
  obtain ⟨p', hp', rfl⟩ := Option.map_eq_some_iff.mp hi'
  exact hne (hside e he e' he' p p' hp hp' heq)

theorem nodup_pairs_old : ((pairSignatureChanges P oldSnap newSnap user).map Prod.fst).Nodup := by
  refine nodup_side P oldSnap newSnap user Prod.fst ?_
  intro e he e' he' p p' hp hp' heq
  obtain ⟨⟨row, hrow, hkey⟩, _⟩ := candidates_of_group P oldSnap newSnap user he hp
  obtain ⟨⟨row', hrow', hkey'⟩, _⟩ := candidates_of_group P oldSnap newSnap user he' hp'
  have hsame : row = row' := row_unique (List.mem_filter.mp hrow).1
    (heq ▸ (List.mem_filter.mp hrow').1)
  rw [← hkey, ← hkey', hsame]

theorem nodup_pairs_new : ((pairSignatureChanges P oldSnap newSnap user).map Prod.snd).Nodup := by
  refine nodup_side P oldSnap newSnap user Prod.snd ?_
  intro e he e' he' p p' hp hp' heq
  obtain ⟨_, row, hrow, hkey⟩ := candidates_of_group P oldSnap newSnap user he hp
  obtain ⟨_, row', hrow', hkey'⟩ := candidates_of_group P oldSnap newSnap user he' hp'
  have hsame : row = row' := row_unique (List.mem_filter.mp hrow).1
    (heq ▸ (List.mem_filter.mp hrow').1)
  rw [← hkey, ← hkey', hsame]

/-- The routine ids of a snapshot. -/
def routineIds (snap : CborValue) : List String := (routineRows snap).map Prod.fst

/-- **Which ids pair.** -/
structure PairOk (p : String × String) : Prop where
  old : p.1 ∈ routineIds oldSnap
  notNew : p.1 ∉ routineIds newSnap
  notKey : IndexMap.get user p.1 = none
  new : p.2 ∈ routineIds newSnap
  notTarget : ∀ e ∈ user, e.2.newId ≠ p.2
  notNormal : ∀ id ∈ routineIds oldSnap, normalize id user ≠ p.2

variable {oldSnap newSnap user}

theorem pairOk_of_mem {p : String × String} (hp : p ∈ pairSignatureChanges P oldSnap newSnap user) :
    PairOk oldSnap newSnap user p := by
  rw [pairSignatureChanges_eq] at hp
  obtain ⟨e, he, hpair⟩ := List.mem_filterMap.mp hp
  obtain ⟨⟨row, hold, _⟩, row', hnew, _⟩ := candidates_of_group P oldSnap newSnap user he hpair
  obtain ⟨holdRow, holdCond⟩ := List.mem_filter.mp hold
  obtain ⟨hnewRow, hnewCond⟩ := List.mem_filter.mp hnew
  rw [Bool.and_eq_true, Bool.and_eq_true, Bool.not_eq_true', Bool.not_eq_true'] at holdCond
  dsimp only at hnewCond
  rw [Bool.and_eq_true, Bool.and_eq_true, Bool.not_eq_true', Bool.not_eq_true'] at hnewCond
  have hnot : ∀ {l : List String}, l.contains p.2 = false → p.2 ∉ l := by
    intro l hl hmem
    rw [List.contains_iff_mem.mpr hmem] at hl
    cases hl
  obtain ⟨⟨_, hkey⟩, hgone⟩ := holdCond
  obtain ⟨⟨_, htarget⟩, hnormal⟩ := hnewCond
  refine
    { old := List.mem_map.mpr ⟨_, holdRow, rfl⟩
      notNew := ?_
      notKey := ?_
      new := List.mem_map.mpr ⟨_, hnewRow, rfl⟩
      notTarget := fun e he heq => hnot htarget (List.mem_map.mpr ⟨e, he, heq⟩)
      notNormal := ?_ }
  · intro hmem
    obtain ⟨⟨id, row''⟩, hrow'', rfl⟩ := List.mem_map.mp hmem
    have hcontains := IndexMap.containsKey_iff.mpr ⟨row'', hrow''⟩
    rw [hgone] at hcontains
    cases hcontains
  · unfold IndexMap.containsKey at hkey
    rwa [Option.isSome_eq_false_iff, Option.isNone_iff_eq_none] at hkey
  · intro id hid heq
    obtain ⟨e', he', rfl⟩ := List.mem_map.mp hid
    exact hnot hnormal (List.mem_map.mpr ⟨e', he', heq⟩)

/-! ## 3. The table with the pairs -/

/-- The table with a list of pairs added. -/
def addPairs (pairs : List (String × String)) (user : RenameTable) : RenameTable :=
  pairs.foldl (fun t p => IndexMap.insert t p.1 ⟨p.2, true⟩) user

theorem get_addPairs_of_notMem {pairs : List (String × String)} {id : String}
    (h : id ∉ pairs.map Prod.fst) (user : RenameTable) :
    IndexMap.get (addPairs pairs user) id = IndexMap.get user id := by
  unfold addPairs
  induction pairs generalizing user with
  | nil => rfl
  | cons p pairs ih =>
    rw [List.map_cons, List.mem_cons, not_or] at h
    rw [List.foldl_cons, ih h.2, IndexMap.get_insert, if_neg h.1]

theorem get_addPairs_of_mem {pairs : List (String × String)} (hnodup : (pairs.map Prod.fst).Nodup)
    {p : String × String} (hp : p ∈ pairs) (user : RenameTable) :
    IndexMap.get (addPairs pairs user) p.1 = some ⟨p.2, true⟩ := by
  induction pairs generalizing user with
  | nil => exact absurd hp List.not_mem_nil
  | cons q pairs ih =>
    rw [List.map_cons, List.nodup_cons] at hnodup
    rcases List.mem_cons.mp hp with rfl | hp
    · have hrest := get_addPairs_of_notMem hnodup.1 (IndexMap.insert user p.1 ⟨p.2, true⟩)
      unfold addPairs at hrest ⊢
      rw [List.foldl_cons, hrest, IndexMap.get_insert, if_pos rfl]
    · exact ih hnodup.2 hp (IndexMap.insert user q.1 ⟨q.2, true⟩)

/-- The old routines whose ids a table sends to one id are one routine. -/
def InjectiveOnOld (oldSnap : CborValue) (table : RenameTable) : Prop :=
  ∀ a ∈ routineIds oldSnap, ∀ b ∈ routineIds oldSnap,
    normalize a table = normalize b table → a = b

theorem normalize_paired {p : String × String}
    (hp : p ∈ pairSignatureChanges P oldSnap newSnap user) :
    normalize p.1 (fullRenameTable P oldSnap newSnap user) = p.2 := by
  unfold normalize
  rw [show fullRenameTable P oldSnap newSnap user =
      addPairs (pairSignatureChanges P oldSnap newSnap user) user from rfl,
    get_addPairs_of_mem (nodup_pairs_old P oldSnap newSnap user) hp]

theorem normalize_unpaired {id : String}
    (h : id ∉ (pairSignatureChanges P oldSnap newSnap user).map Prod.fst) :
    normalize id (fullRenameTable P oldSnap newSnap user) = normalize id user := by
  unfold normalize
  rw [show fullRenameTable P oldSnap newSnap user =
      addPairs (pairSignatureChanges P oldSnap newSnap user) user from rfl,
    get_addPairs_of_notMem h]

/-- **The pairs keep the normalization injective** on the old routines. -/
theorem injective_fullRenameTable (hinj : InjectiveOnOld oldSnap user) :
    InjectiveOnOld oldSnap (fullRenameTable P oldSnap newSnap user) := by
  -- the key of a pair's old routine is no other old routine's
  have hpaired : ∀ p ∈ pairSignatureChanges P oldSnap newSnap user, ∀ b ∈ routineIds oldSnap,
      normalize b (fullRenameTable P oldSnap newSnap user) = p.2 → p.1 = b := by
    intro p hp b hb heq
    by_cases hbp : b ∈ (pairSignatureChanges P oldSnap newSnap user).map Prod.fst
    · obtain ⟨q, hq, rfl⟩ := List.mem_map.mp hbp
      rw [normalize_paired P hq] at heq
      have hsame := List.inj_on_of_nodup_map (nodup_pairs_new P oldSnap newSnap user) hq hp heq
      rw [hsame]
    · rw [normalize_unpaired P hbp] at heq
      exact absurd heq ((pairOk_of_mem P hp).notNormal b hb)
  intro a ha b hb heq
  by_cases hap : a ∈ (pairSignatureChanges P oldSnap newSnap user).map Prod.fst
  · obtain ⟨p, hp, rfl⟩ := List.mem_map.mp hap
    rw [normalize_paired P hp] at heq
    exact hpaired p hp b hb heq.symm
  · by_cases hbp : b ∈ (pairSignatureChanges P oldSnap newSnap user).map Prod.fst
    · obtain ⟨p, hp, rfl⟩ := List.mem_map.mp hbp
      rw [normalize_paired P hp] at heq
      exact (hpaired p hp a ha heq).symm
    · rw [normalize_unpaired P hap, normalize_unpaired P hbp] at heq
      exact hinj a ha b hb heq

/-- An id that is only on the old side, or that the user's table moves away. -/
theorem key_of_new_in_old {p : String × String}
    (hp : p ∈ pairSignatureChanges P oldSnap newSnap user) (hold : p.2 ∈ routineIds oldSnap) :
    ∃ e, IndexMap.get user p.2 = some e ∧ e.newId ≠ p.2 := by
  have hnormal := (pairOk_of_mem P hp).notNormal p.2 hold
  unfold normalize at hnormal
  cases hget : IndexMap.get user p.2 with
  | none =>
    rw [hget] at hnormal
    exact absurd rfl hnormal
  | some e =>
    rw [hget] at hnormal
    exact ⟨e, rfl, hnormal⟩

/-- **Rename pairing keeps normalization injective.**  For all snapshots and every user table that is
injective on the old routines: with the pairs added it still is; no user entry is replaced; a pair's
old id is only in old, its new id is in new, and in old only when the user's table moves that old
routine to another id; and no new id is in two pairs. -/
theorem pairSignatureChanges_keep_injective (hinj : InjectiveOnOld oldSnap user) :
    InjectiveOnOld oldSnap (fullRenameTable P oldSnap newSnap user) ∧
      (∀ id e, IndexMap.get user id = some e →
        IndexMap.get (fullRenameTable P oldSnap newSnap user) id = some e) ∧
      (∀ p ∈ pairSignatureChanges P oldSnap newSnap user,
        (p.1 ∈ routineIds oldSnap ∧ p.1 ∉ routineIds newSnap) ∧
          p.2 ∈ routineIds newSnap ∧ (p.2 ∈ routineIds oldSnap →
            ∃ e, IndexMap.get user p.2 = some e ∧ e.newId ≠ p.2)) ∧
      ((pairSignatureChanges P oldSnap newSnap user).map Prod.snd).Nodup := by
  refine ⟨injective_fullRenameTable P hinj, ?_, ?_, nodup_pairs_new P oldSnap newSnap user⟩
  · intro id e hget
    refine (get_addPairs_of_notMem ?_ user).trans hget
    intro hmem
    obtain ⟨p, hp, rfl⟩ := List.mem_map.mp hmem
    rw [(pairOk_of_mem P hp).notKey] at hget
    cases hget
  · intro p hp
    have hok := pairOk_of_mem P hp
    exact ⟨⟨hok.old, hok.notNew⟩, hok.new, key_of_new_in_old P hp⟩

/-- A snapshot of routines of one object, all named `Foo`, by their signatures. -/
def overloads (signatures : List String) : CborValue :=
  .map
    [("identities", .map
        [("stableIds", .array (signatures.map fun s => .text ("a#" ++ s))),
          ("displayNames", .array (signatures.map fun _ => .text "Foo"))]),
      ("contractFacts", .array (signatures.map fun s => .map
        [("kind", .text "routine"), ("stableId", .text ("a#" ++ s)),
          ("signatureFingerprint", .text s)]))]

/-- The user says that old `a#2` is new `a#3`. -/
def movedAway : RenameTable := [("a#2", ⟨"a#3", false⟩)]

theorem pairSignatureChanges_keep_injective_overloads :
    InjectiveOnOld (overloads ["1", "2"]) movedAway ∧
      (InjectiveOnOld (overloads ["1", "2"])
          (fullRenameTable ⟨id, id⟩ (overloads ["1", "2"]) (overloads ["2", "3"]) movedAway) ∧
        (∀ id' e, IndexMap.get movedAway id' = some e →
          IndexMap.get (fullRenameTable ⟨id, id⟩ (overloads ["1", "2"]) (overloads ["2", "3"])
            movedAway) id' = some e) ∧
        (∀ p ∈ pairSignatureChanges ⟨id, id⟩ (overloads ["1", "2"]) (overloads ["2", "3"]) movedAway,
          (p.1 ∈ routineIds (overloads ["1", "2"]) ∧ p.1 ∉ routineIds (overloads ["2", "3"])) ∧
            p.2 ∈ routineIds (overloads ["2", "3"]) ∧ (p.2 ∈ routineIds (overloads ["1", "2"]) →
              ∃ e, IndexMap.get movedAway p.2 = some e ∧ e.newId ≠ p.2)) ∧
        ((pairSignatureChanges ⟨id, id⟩ (overloads ["1", "2"]) (overloads ["2", "3"])
          movedAway).map Prod.snd).Nodup) := by
  have hinj : InjectiveOnOld (overloads ["1", "2"]) movedAway := by
    unfold InjectiveOnOld
    decide
  exact ⟨hinj, pairSignatureChanges_keep_injective ⟨id, id⟩ hinj⟩

/-- **A pair's new id can be in old too**: the user's table has moved that old routine away. -/
theorem pair_new_id_in_old :
    InjectiveOnOld (overloads ["1", "2"]) movedAway ∧
      pairSignatureChanges ⟨id, id⟩ (overloads ["1", "2"]) (overloads ["2", "3"]) movedAway =
        [("a#1", "a#2")] ∧
      "a#2" ∈ routineIds (overloads ["1", "2"]) := by
  unfold InjectiveOnOld
  decide

end AlSem.Diff
