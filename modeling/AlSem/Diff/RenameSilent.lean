/-
# The passes on a pure rename

Each pass over indexes whose new side is the old side renamed (`Correspond`).  The contract and
schema passes read no id from a fact's body and find nothing; the others find nothing once the ids
they read from the bodies are the same on both sides.
-/
import AlSem.Diff.RenameIndexes

namespace AlSem.Diff

open AlSem.Snapshot

theorem sortById_nil_iff (l : List DiffFinding) : sortById l = [] ↔ l = [] := by
  unfold sortById
  rw [← List.length_eq_zero_iff, List.length_mergeSort, List.length_eq_zero_iff]

/-! ## 1. Contracts -/

section

variable (ρ : String → String)

theorem isAbiSurface_renameAt (f : CborValue) :
    isAbiSurface (renameAt ρ "stableId" f) = isAbiSurface f := by
  unfold isAbiSurface carriesAttribute isInApp
  rw [getStr_renameAt_ne _ _ (by decide), getStr_renameAt_ne _ _ (by decide),
    getStr_renameAt_ne _ _ (by decide), getArray_renameAt]

/-- A list of texts equals itself. -/
theorem textsEq_self {ps : List CborValue} (h : ∀ p ∈ ps, (asText p).isSome) :
    textsEq ps ps = true := by
  unfold textsEq
  rw [beq_self_eq_true, Bool.true_and, List.all_eq_true]
  intro p hp
  obtain ⟨hfst, -⟩ := List.of_mem_zip hp
  have heq : p.2 = p.1 := by
    rw [List.zip_eq_zipWith] at hp
    rw [List.zipWith_self] at hp
    obtain ⟨q, -, rfl⟩ := List.mem_map.mp hp
    rfl
  obtain ⟨s, hs⟩ := Option.isSome_iff_exists.mp (h p.1 hfst)
  rw [heq, hs]
  exact beq_self_eq_true s

/-- A renamed contract has the signature it had. -/
theorem signatureChange_renameAt (P : Prims) {f : CborValue}
    (h : ∀ ps, getArray f "parameters" = some ps → ∀ p ∈ ps, (asText p).isSome) :
    signatureChange P f (renameAt ρ "stableId" f) = .unchanged := by
  have hparams : paramsChanged f (renameAt ρ "stableId" f) = false := by
    unfold paramsChanged
    rw [getArray_renameAt]
    cases hps : getArray f "parameters" with
    | none => rfl
    | some ps =>
      dsimp only
      rw [textsEq_self (h ps hps), Bool.not_true]
  unfold signatureChange
  rw [hparams, getStr_renameAt_ne _ _ (by decide)]
  simp

variable (P : Prims) {ix : DiffIndexes}

/-- **The contract pass finds nothing.** -/
theorem diffAbi_rename (h : Correspond ρ ix.old ix.new)
    (hnodup : (ix.old.contractsBySubject.map Prod.fst).Nodup)
    (hparams : ∀ e ∈ ix.old.contractsBySubject, ∀ ps, getArray e.2 "parameters" = some ps →
      ∀ p ∈ ps, (asText p).isSome) :
    diffAbi P ix = [] := by
  unfold diffAbi
  rw [sortById_nil_iff, List.append_eq_nil_iff, List.flatMap_eq_nil_iff, List.flatMap_eq_nil_iff]
  constructor
  · intro e he
    unfold abiOld
    rw [h.contracts, IndexMap.get_mapValues, IndexMap.get_of_mem hnodup he, Option.map_some]
    dsimp only
    rw [isAbiSurface_renameAt]
    by_cases habi : isAbiSurface e.2 = true
    · rw [if_pos habi]
      unfold abiChanges
      rw [signatureChange_renameAt ρ P (hparams e he), getStr_renameAt_ne _ _ (by decide),
        getStr_renameAt_ne _ _ (by decide)]
      simp [isNarrowed]
    · rw [if_neg habi, if_neg habi]
  · intro e he
    unfold abiAdded
    have hkey : IndexMap.containsKey ix.old.contractsBySubject e.1 = true := by
      rw [h.contracts] at he
      rw [← IndexMap.containsKey_mapValues (renameAt ρ "stableId")]
      exact IndexMap.containsKey_iff.mpr ⟨e.2, he⟩
    rw [hkey, Bool.true_or, if_pos rfl]

/-! ## 2. Schema -/

/-- **The schema pass finds nothing.** -/
theorem diffSchema_rename (h : Correspond ρ ix.old ix.new)
    (hnodup : (ix.old.schemaBySubject.map Prod.fst).Nodup) : diffSchema P ix = [] := by
  unfold diffSchema
  rw [sortById_nil_iff, List.append_eq_nil_iff, List.flatMap_eq_nil_iff, List.flatMap_eq_nil_iff]
  constructor
  · intro e he
    unfold schemaOld
    rw [h.schema, IndexMap.get_mapValues, IndexMap.get_of_mem hnodup he, Option.map_some,
      Option.bind_some, List.head?_map]
    cases e.2.head? with
    | none => rfl
    | some f =>
      dsimp only [Option.map_some]
      have hclass : dataClassChange P ix e.1 (getStr f "dataClassification")
          (getStr f "dataClassification") = [] := by
        unfold dataClassChange
        cases getStr f "dataClassification" with
        | none => rfl
        | some dc => exact if_pos rfl
      unfold schemaChanges
      rw [getStr_renameAt_ne _ _ (by decide), getStr_renameAt_ne _ _ (by decide), hclass]
      simp
  · intro e he
    unfold schemaAdded
    have hkey : IndexMap.containsKey ix.old.schemaBySubject e.1 = true := by
      rw [h.schema] at he
      rw [← IndexMap.containsKey_mapValues (List.map (renameAt ρ "stableId"))]
      exact IndexMap.containsKey_iff.mpr ⟨e.2, he⟩
    rw [if_pos hkey]

/-! ## 3. Capabilities -/

theorem getStr_renameCapability_ne (f : CborValue) {k : String} (h : k ≠ "subject")
    (h' : k ≠ "resourceId") : getStr (renameCapability ρ f) k = getStr f k := by
  unfold renameCapability
  rw [getStr_renameAt_ne _ _ h, getStr_renameAt_ne _ _ h']

theorem resourceId_renameCapability (f : CborValue) :
    getStr (renameCapability ρ f) "resourceId" =
      (getStr f "resourceId").map (renameResource ρ f) := by
  unfold renameCapability
  rw [getStr_renameAt_ne _ _ (by decide), getStr_renameAt_self]

/-- A capability fact whose resource is not renamed keeps its key. -/
theorem capFactKey_rename {f : CborValue}
    (h : ∀ r, getStr f "resourceId" = some r → renameResource ρ f r = r) :
    capFactKey (renameCapability ρ f) = capFactKey f := by
  have hid : getStr (renameCapability ρ f) "resourceId" = getStr f "resourceId" := by
    rw [resourceId_renameCapability]
    cases hr : getStr f "resourceId" with
    | none => rfl
    | some r => rw [Option.map_some, h r hr]
  unfold capFactKey
  rw [getStr_renameCapability_ne ρ f (by decide) (by decide),
    getStr_renameCapability_ne ρ f (by decide) (by decide), hid]

theorem get_mapValues_getD {α β : Type} (m : IndexMap String (List α)) (f : α → β) (k : String) :
    (IndexMap.get (IndexMap.mapValues (List.map f) m) k).getD [] =
      ((IndexMap.get m k).getD []).map f := by
  rw [IndexMap.get_mapValues]
  cases IndexMap.get m k <;> rfl

/-- The facts of a subject whose resources are not renamed are the same facts on both sides. -/
theorem capsByKey_rename {facts : List CborValue}
    (h : ∀ f ∈ facts, ∀ r, getStr f "resourceId" = some r → renameResource ρ f r = r) :
    capsByKey (facts.map (renameCapability ρ)) =
      IndexMap.mapValues (renameCapability ρ) (capsByKey facts) := by
  unfold capsByKey
  rw [← IndexMap.ofEntries_map, List.map_map, List.map_map]
  congr 1
  refine List.map_congr_left ?_
  intro f hf
  exact Prod.ext (capFactKey_rename ρ (h f hf)) rfl

/-- **The capability pass finds nothing** when no resource is renamed. -/
theorem diffCapabilities_rename (h : Correspond ρ ix.old ix.new)
    (hres : ∀ subject, ∀ f ∈ (IndexMap.get ix.old.capabilityFactsBySubject subject).getD [],
      ∀ r, getStr f "resourceId" = some r → renameResource ρ f r = r) :
    diffCapabilities P ix = [] := by
  unfold diffCapabilities
  rw [sortById_nil_iff, List.flatMap_eq_nil_iff]
  intro subject _
  unfold capabilityDelta
  rw [h.capabilities, get_mapValues_getD, capsByKey_rename ρ (hres subject)]
  dsimp only
  rw [List.append_eq_nil_iff, List.flatMap_eq_nil_iff, List.flatMap_eq_nil_iff]
  constructor
  · intro e he
    rw [← IndexMap.containsKey_mapValues (renameCapability ρ),
      IndexMap.containsKey_iff.mpr ⟨e.2, he⟩, if_pos rfl]
  · intro e he
    rw [IndexMap.containsKey_mapValues, IndexMap.containsKey_iff.mpr ⟨e.2, he⟩, if_pos rfl]

/-! ## 4. Permissions -/

theorem getStr_renamePermission_ne (f : CborValue) {k : String} (h : k ≠ "subject")
    (h' : k ≠ "permissionSet") (h'' : k ≠ "target") :
    getStr (renamePermission ρ f) k = getStr f k := by
  unfold renamePermission
  rw [getStr_renameAt_ne _ _ h, getStr_renameAt_ne _ _ h', getStr_renameAt_ne _ _ h'']

theorem target_renamePermission (f : CborValue) :
    getStr (renamePermission ρ f) "target" = (getStr f "target").map ρ := by
  unfold renamePermission
  rw [getStr_renameAt_ne _ _ (by decide), getStr_renameAt_ne _ _ (by decide), getStr_renameAt_self]

theorem rightsOf_renamePermission (f : CborValue) :
    rightsOf (renamePermission ρ f) = rightsOf f := by
  unfold rightsOf renamePermission
  rw [getArray_renameAt, getArray_renameAt, getArray_renameAt]

/-- The required permissions among renamed facts. -/
theorem filter_required_rename (facts : List CborValue) :
    ((facts.map (renamePermission ρ)).filter fun f => getStr f "kind" == some "required") =
      (facts.filter fun f => getStr f "kind" == some "required").map (renamePermission ρ) := by
  rw [List.filter_map]
  congr 1
  refine List.filter_congr ?_
  intro f _
  rw [Function.comp_apply, getStr_renamePermission_ne ρ f (by decide) (by decide) (by decide)]

/-- Required permissions whose targets are not renamed ask for the same on both sides. -/
theorem rightsByTarget_rename {facts : List CborValue}
    (h : ∀ f ∈ facts, getStr f "kind" = some "required" →
      ∀ t, getStr f "target" = some t → ρ t = t) :
    rightsByTarget (facts.map (renamePermission ρ)) = rightsByTarget facts := by
  unfold rightsByTarget
  rw [filter_required_rename, List.map_map]
  congr 1
  refine List.map_congr_left ?_
  intro f hf
  obtain ⟨hf, hkind⟩ := List.mem_filter.mp hf
  have htarget : getStr (renamePermission ρ f) "target" = getStr f "target" := by
    rw [target_renamePermission]
    cases ht : getStr f "target" with
    | none => rfl
    | some t => rw [Option.map_some, h f hf (by simpa using hkind) t ht]
  refine Prod.ext ?_ (rightsOf_renamePermission ρ f)
  unfold permKey
  rw [Function.comp_apply, getStr_renamePermission_ne ρ f (by decide) (by decide) (by decide),
    htarget]

/-- **The permission pass finds nothing** when no target is renamed. -/
theorem diffPermissions_rename (h : Correspond ρ ix.old ix.new)
    (htarget : ∀ subject, ∀ f ∈ (IndexMap.get ix.old.permissionsBySubject subject).getD [],
      getStr f "kind" = some "required" → ∀ t, getStr f "target" = some t → ρ t = t) :
    diffPermissions P ix = [] := by
  unfold diffPermissions
  rw [sortById_nil_iff, List.flatMap_eq_nil_iff]
  intro subject _
  unfold permissionDelta
  rw [h.permissions, get_mapValues_getD, rightsByTarget_rename ρ (htarget subject)]
  dsimp only
  rw [List.append_eq_nil_iff, List.flatMap_eq_nil_iff, List.flatMap_eq_nil_iff]
  constructor
  · intro e he
    have hget : IndexMap.get (rightsByTarget
        ((IndexMap.get ix.old.permissionsBySubject subject).getD [])) e.1 = some e.2 :=
      IndexMap.get_of_mem (IndexMap.nodup_ofEntries _) he
    unfold permOld
    rw [hget]
    exact if_pos rfl
  · intro e he
    rw [IndexMap.containsKey_iff.mpr ⟨e.2, he⟩, if_pos rfl]

end

end AlSem.Diff
