/-
# The indexes of a pure rename

A diff of a snapshot with its renamed self, under the overlay that renamed it: no routine is paired,
the old subjects go to their new ids, and each map of the new side is the old side's with every
fact renamed.
-/
import AlSem.Diff.PureRename

namespace AlSem.Diff

open AlSem.Snapshot

/-! ## 1. The arrays of the renamed snapshot -/

variable (ρ : String → String) (snap : CborValue)

theorem contractFacts_rename : snapshotArray (renameSnapshot ρ snap) "contractFacts" =
    (snapshotArray snap "contractFacts").map (renameAt ρ "stableId") := by
  simp [renameSnapshot, snapshotArray_mapField_ne, snapshotArray_mapField_self]

theorem schemaFacts_rename : snapshotArray (renameSnapshot ρ snap) "schemaFacts" =
    (snapshotArray snap "schemaFacts").map (renameAt ρ "stableId") := by
  simp [renameSnapshot, snapshotArray_mapField_ne, snapshotArray_mapField_self]

theorem permissionFacts_rename : snapshotArray (renameSnapshot ρ snap) "permissionFacts" =
    (snapshotArray snap "permissionFacts").map (renamePermission ρ) := by
  simp [renameSnapshot, snapshotArray_mapField_ne, snapshotArray_mapField_self]

theorem eventDeclarations_rename : snapshotArray (renameSnapshot ρ snap) "eventDeclarations" =
    (snapshotArray snap "eventDeclarations").map (renameEvent ρ) := by
  simp [renameSnapshot, snapshotArray_mapField_ne, snapshotArray_mapField_self]

theorem capabilityFacts_rename : snapshotArray (renameSnapshot ρ snap) "capabilityFacts" =
    (snapshotArray snap "capabilityFacts").map (renameCapability ρ) := by
  simp [renameSnapshot, snapshotArray_mapField_ne, snapshotArray_mapField_self]

/-- What a renaming leaves alone at the top of the tree. -/
theorem field_rename_of_scalar {k : String}
    (h : k ∉ ["identities", "contractFacts", "schemaFacts", "permissionFacts", "eventDeclarations",
      "capabilityFacts", "coverage"]) : field (renameSnapshot ρ snap) k = field snap k := by
  simp only [List.mem_cons, List.not_mem_nil, or_false, not_or] at h
  obtain ⟨h1, h2, h3, h4, h5, h6, h7⟩ := h
  unfold renameSnapshot
  rw [field_mapField_ne _ h1, field_mapField_ne _ h2, field_mapField_ne _ h3,
    field_mapField_ne _ h4, field_mapField_ne _ h5, field_mapField_ne _ h6, field_mapField_ne _ h7]

/-! ## 2. The overlay's table -/

/-- An id goes where the overlay puts it. -/
theorem normalize_buildRenameTable (overlay : RenameOverlay) (id : String) :
    normalize id (buildRenameTable overlay).1 = overlay.apply id := by
  have huniq : ∀ {t t'}, (id, t) ∈ overlay.entries → (id, t') ∈ overlay.entries → t = t' := by
    intro t t' h h'
    have hget := IndexMap.get_of_mem overlay.nodup h
    rw [IndexMap.get_of_mem overlay.nodup h'] at hget
    exact (Option.some.inj hget).symm
  unfold normalize RenameOverlay.apply
  cases htable : IndexMap.get (buildRenameTable overlay).1 id with
  | some entry =>
    obtain ⟨e, he, heq⟩ := List.mem_map.mp (IndexMap.mem_ofEntries (IndexMap.mem_of_get htable))
    have hmem := (List.mem_filter.mp he).1
    obtain ⟨hid, hentry⟩ := Prod.mk.inj heq
    have hget := IndexMap.get_of_mem overlay.nodup hmem
    rw [hid] at hget
    rw [hget, ← hentry]
    rfl
  | none =>
    cases hget : IndexMap.get overlay.entries id with
    | none => rfl
    | some t =>
      have hmem := IndexMap.mem_of_get hget
      by_cases ht : id = t
      · exact ht
      · have hkey : IndexMap.containsKey (buildRenameTable overlay).1 id = true :=
          IndexMap.containsKey_ofEntries.mpr ⟨⟨t, false⟩,
            List.mem_map.mpr ⟨(id, t), List.mem_filter.mpr ⟨hmem, by simpa using ht⟩, rfl⟩⟩
        unfold IndexMap.containsKey at hkey
        rw [htable] at hkey
        cases hkey

/-! ## 3. No routine is paired -/

/-- A fact has a row exactly when its id has the form of a routine's. -/
theorem routineRow_isSome_iff (names : IndexMap String String) (f : CborValue) (id : String) :
    (∃ row, routineRow names f = some (id, row)) ↔
      getStr f "stableId" = some id ∧ ∃ p, Text.rsplitOnce "#" id = some p := by
  unfold routineRow
  constructor
  · rintro ⟨row, h⟩
    obtain ⟨sid, hsid, h⟩ := Option.bind_eq_some_iff.mp h
    obtain ⟨p, hsplit, h⟩ := Option.bind_eq_some_iff.mp h
    obtain rfl : sid = id := (Prod.mk.inj (Option.some.inj h)).1
    exact ⟨hsid, p, hsplit⟩
  · rintro ⟨hsid, p, hsplit⟩
    refine ⟨_, Option.bind_eq_some_iff.mpr ⟨id, hsid, Option.bind_eq_some_iff.mpr ⟨p, hsplit, rfl⟩⟩⟩

/-- A routine the overlay does not rename keeps its row. -/
theorem containsKey_routineRows_rename {id : String}
    (h : IndexMap.containsKey (routineRows snap) id = true) (hid : ρ id = id) :
    IndexMap.containsKey (routineRows (renameSnapshot ρ snap)) id = true := by
  obtain ⟨row, hrow⟩ := IndexMap.containsKey_ofEntries.mp h
  obtain ⟨f, hf, hfrow⟩ := List.mem_filterMap.mp hrow
  obtain ⟨hfact, hkind⟩ := List.mem_filter.mp hf
  obtain ⟨hsid, hsplit⟩ := (routineRow_isSome_iff _ f id).mp ⟨row, hfrow⟩
  have hsid' : getStr (renameAt ρ "stableId" f) "stableId" = some id := by
    rw [getStr_renameAt_self, hsid, Option.map_some, hid]
  obtain ⟨row', hrow'⟩ := (routineRow_isSome_iff (nameOf (renameSnapshot ρ snap))
    (renameAt ρ "stableId" f) id).mpr ⟨hsid', hsplit⟩
  have hkind' : (getStr (renameAt ρ "stableId" f) "kind" == some "routine") = true := by
    rw [getStr_renameAt_ne _ _ (by decide)]
    exact hkind
  refine IndexMap.containsKey_ofEntries.mpr ⟨row', List.mem_filterMap.mpr
    ⟨renameAt ρ "stableId" f, List.mem_filter.mpr ⟨?_, hkind'⟩, hrow'⟩⟩
  rw [contractFacts_rename]
  exact List.mem_map.mpr ⟨f, hfact, rfl⟩

theorem oldCandidates_rename (overlay : RenameOverlay) :
    oldCandidates (routineRows snap) (routineRows (renameSnapshot overlay.apply snap))
      (buildRenameTable overlay).1 = [] := by
  refine List.filter_eq_nil_iff.mpr ?_
  intro e he hcand
  rw [Bool.and_eq_true, Bool.and_eq_true, Bool.not_eq_true', Bool.not_eq_true'] at hcand
  obtain ⟨⟨-, huser⟩, hnew⟩ := hcand
  have hid : overlay.apply e.1 = e.1 := by
    rw [← normalize_buildRenameTable]
    unfold normalize
    unfold IndexMap.containsKey at huser
    rw [Option.isSome_eq_false_iff, Option.isNone_iff_eq_none] at huser
    rw [huser]
  rw [containsKey_routineRows_rename overlay.apply snap
    (IndexMap.containsKey_iff.mpr ⟨e.2, he⟩) hid] at hnew
  cases hnew

/-- A new candidate adds no old one. -/
theorem pushNew_old {groups : Groups} (h : ∀ e ∈ groups, e.2.1 = []) (key : String × String × Bool)
    (id : String) : ∀ e ∈ pushNew groups key id, e.2.1 = [] := by
  intro e he
  unfold pushNew at he
  rcases IndexMap.mem_insert he with he | he
  · exact h e he
  · rw [he]
    cases hget : IndexMap.get groups key with
    | none => rfl
    | some g => exact h _ (IndexMap.mem_of_get hget)

/-- Groups that new candidates alone make have no old one. -/
theorem foldl_pushNew_old (P : Prims) (l : List (String × RoutineRow)) :
    ∀ e ∈ l.foldl (fun g e => pushNew g (e.2.key P) e.1) [], e.2.1 = [] := by
  induction l using List.reverseRecOn with
  | nil => exact fun e he => absurd he List.not_mem_nil
  | append_singleton l c ih =>
    rw [List.foldl_append, List.foldl_cons, List.foldl_nil]
    exact pushNew_old ih _ _

/-- **A rename pairs no routines.** -/
theorem fullRenameTable_rename (P : Prims) (overlay : RenameOverlay) :
    fullRenameTable P snap (renameSnapshot overlay.apply snap) (buildRenameTable overlay).1 =
      (buildRenameTable overlay).1 := by
  have hpairs : pairSignatureChanges P snap (renameSnapshot overlay.apply snap)
      (buildRenameTable overlay).1 = [] := by
    simp only [pairSignatureChanges, oldCandidates_rename, List.foldl_nil]
    refine List.filterMap_eq_nil_iff.mpr ?_
    intro e he
    have hold := foldl_pushNew_old P _ e he
    rw [← Prod.mk.eta (p := e.2), hold]
  unfold fullRenameTable
  rw [hpairs, List.foldl_nil]

/-! ## 4. The sides -/

theorem keyed_rename {subject : CborValue → Option String} {rn : CborValue → CborValue}
    (h : ∀ f, subject (rn f) = (subject f).map ρ) (facts : List CborValue) :
    keyed subject id (facts.map rn) = (keyed subject ρ facts).map fun e => (e.1, rn e.2) := by
  unfold keyed
  rw [List.filterMap_map, List.map_filterMap]
  refine List.filterMap_congr ?_
  intro f _
  rw [Function.comp_apply, h]
  cases subject f <;> rfl

theorem permissionFactSubject_rename (f : CborValue) :
    permissionFactSubject (renamePermission ρ f) = (permissionFactSubject f).map ρ := by
  have hkind : getStr (renamePermission ρ f) "kind" = getStr f "kind" := by
    unfold renamePermission
    rw [getStr_renameAt_ne _ _ (by decide), getStr_renameAt_ne _ _ (by decide),
      getStr_renameAt_ne _ _ (by decide)]
  have hsubject : getStr (renamePermission ρ f) "subject" = (getStr f "subject").map ρ := by
    unfold renamePermission
    rw [getStr_renameAt_self, getStr_renameAt_ne _ _ (by decide),
      getStr_renameAt_ne _ _ (by decide)]
  have hset : getStr (renamePermission ρ f) "permissionSet" =
      (getStr f "permissionSet").map ρ := by
    unfold renamePermission
    rw [getStr_renameAt_ne _ _ (by decide), getStr_renameAt_self,
      getStr_renameAt_ne _ _ (by decide)]
  unfold permissionFactSubject
  rw [hkind, hsubject, hset]
  split <;> rfl

theorem routine_renameEvent (d : CborValue) :
    getStr (renameEvent ρ d) "routine" = (getStr d "routine").map ρ := by
  unfold renameEvent
  rw [getStr_renameAt_self, getStr_renameAt_ne _ _ (by decide)]

theorem subject_renameCapability (f : CborValue) :
    getStr (renameCapability ρ f) "subject" = (getStr f "subject").map ρ := by
  unfold renameCapability
  rw [getStr_renameAt_self, getStr_renameAt_ne _ _ (by decide)]

/-- One side's maps against the other's: the same subjects with renamed facts. -/
structure Correspond (old new : SideIndexes) : Prop where
  contracts : new.contractsBySubject =
    IndexMap.mapValues (renameAt ρ "stableId") old.contractsBySubject
  schema : new.schemaBySubject =
    IndexMap.mapValues (List.map (renameAt ρ "stableId")) old.schemaBySubject
  permissions : new.permissionsBySubject =
    IndexMap.mapValues (List.map (renamePermission ρ)) old.permissionsBySubject
  events : new.eventsBySubject =
    IndexMap.mapValues (List.map (renameEvent ρ)) old.eventsBySubject
  capabilities : new.capabilityFactsBySubject =
    IndexMap.mapValues (List.map (renameCapability ρ)) old.capabilityFactsBySubject

/-- **The new side is the old side renamed.** -/
theorem sideIndexes_rename :
    Correspond ρ (sideIndexes snap ρ) (sideIndexes (renameSnapshot ρ snap) id) where
  contracts := by
    unfold sideIndexes lastBySubject
    rw [contractFacts_rename, keyed_rename ρ (fun f => getStr_renameAt_self ρ f "stableId"),
      IndexMap.ofEntries_map]
  schema := by
    unfold sideIndexes allBySubject
    rw [schemaFacts_rename, keyed_rename ρ (fun f => getStr_renameAt_self ρ f "stableId"),
      IndexMap.groupEntries_map]
  permissions := by
    unfold sideIndexes allBySubject
    rw [permissionFacts_rename, keyed_rename ρ (permissionFactSubject_rename ρ),
      IndexMap.groupEntries_map]
  events := by
    unfold sideIndexes allBySubject
    rw [eventDeclarations_rename, keyed_rename ρ (routine_renameEvent ρ),
      IndexMap.groupEntries_map]
  capabilities := by
    unfold sideIndexes allBySubject
    rw [capabilityFacts_rename, keyed_rename ρ (subject_renameCapability ρ),
      IndexMap.groupEntries_map]

/-- A keyed fact is one of the array, under its subject's key. -/
theorem mem_keyed {subject : CborValue → Option String} {norm : String → String}
    {facts : List CborValue} {k : String} {f : CborValue} :
    (k, f) ∈ keyed subject norm facts ↔ f ∈ facts ∧ ∃ s, subject f = some s ∧ norm s = k := by
  unfold keyed
  rw [List.mem_filterMap]
  constructor
  · rintro ⟨f', hf', heq⟩
    obtain ⟨s, hs, heq⟩ := Option.map_eq_some_iff.mp heq
    obtain ⟨rfl, rfl⟩ := Prod.mk.inj heq
    exact ⟨hf', s, hs, rfl⟩
  · rintro ⟨hf, s, hs, rfl⟩
    exact ⟨f, hf, by rw [hs]; rfl⟩

end AlSem.Diff
