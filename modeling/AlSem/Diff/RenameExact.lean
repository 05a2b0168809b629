/-
# When a pure rename is silent

A rename is silent exactly when no renamed id stands in the body of a fact: the old side's subjects
go through the rename table, but the resource of a capability fact, the target of a permission and
the publisher object of an event id are compared as they are, so a renamed one is a lost finding on
the old side.
-/
import AlSem.Diff.RenameEvents
import AlSem.Lib.Lines

namespace AlSem.Diff

open AlSem.Snapshot

/-! ## 1. From the engine to its passes -/

section

variable (P : Prims) (overlay : RenameOverlay) (snap : CborValue)

/-- The indexes of a snapshot and its renamed self. -/
def renameIndexes : DiffIndexes :=
  buildDiffIndexes snap (renameSnapshot overlay.apply snap) (buildRenameTable overlay).1

/-- A renamed snapshot belongs with the snapshot. -/
theorem runPreflight_rename (ρ : String → String) (policy : CoveragePolicy) :
    runPreflight snap (renameSnapshot ρ snap) policy = [] := by
  have hversion : schemaVersion (renameSnapshot ρ snap) = schemaVersion snap := by
    unfold schemaVersion
    rw [field_rename_of_scalar ρ snap (by decide)]
  have hstr : ∀ k ∈ ["analysisUniverse", "alsemVersion"],
      getStr (renameSnapshot ρ snap) k = getStr snap k := by
    intro k hk
    unfold getStr
    rw [field_rename_of_scalar ρ snap]
    rcases List.mem_pair.mp hk with rfl | rfl <;> decide
  have happ : primaryAppId (renameSnapshot ρ snap) = primaryAppId snap := by
    unfold primaryAppId getArray
    rw [field_rename_of_scalar ρ snap (by decide)]
  unfold runPreflight
  rw [hversion, hstr _ (by simp), hstr _ (by simp), happ]
  dsimp only
  rw [if_pos rfl, if_pos rfl, if_pos rfl]
  cases primaryAppId snap with
  | none => rfl
  | some guid => simp [Text.eqIgnoreAsciiCase]

/-- The loose policy keeps every finding. -/
theorem policyStep_loose (ix : DiffIndexes) (f : DiffFinding) :
    ∃ f', policyStep ix .loose f = .inl f' := by
  unfold policyStep
  by_cases h : isCoverageSensitive f.kind = true
  · rw [if_pos h]
    dsimp only
    split
    · exact ⟨_, rfl⟩
    · exact ⟨_, rfl⟩
  · rw [if_neg h]
    exact ⟨f, rfl⟩

theorem applyCoveragePolicy_loose_nil_iff (ix : DiffIndexes) (findings : List DiffFinding) :
    (applyCoveragePolicy findings ix .loose).1 = [] ↔ findings = [] := by
  unfold applyCoveragePolicy
  cases findings with
  | nil => exact ⟨fun _ => rfl, fun _ => rfl⟩
  | cons f fs =>
    obtain ⟨f', hf'⟩ := policyStep_loose ix f
    constructor
    · intro h
      rw [List.map_cons, hf'] at h
      cases h
    · intro h
      cases h

/-- **The engine is silent when the passes are.** -/
theorem runDiffEngine_rename_nil_iff :
    (runDiffEngine P snap (renameSnapshot overlay.apply snap) .loose (some overlay)).findings = [] ↔
      passFindings P (renameIndexes overlay snap) = [] := by
  simp only [runDiffEngine, runPreflight_rename, List.any_nil, Bool.false_eq_true, if_false,
    Option.getD_some, fullRenameTable_rename]
  unfold sortFindings
  rw [← List.length_eq_zero_iff, List.length_mergeSort, List.length_eq_zero_iff]
  exact applyCoveragePolicy_loose_nil_iff _ _

theorem passFindings_nil_iff (ix : DiffIndexes) :
    passFindings P ix = [] ↔ diffAbi P ix = [] ∧ diffSchema P ix = [] ∧ diffEvents P ix = [] ∧
      diffCapabilities P ix = [] ∧ diffPermissions P ix = [] := by
  unfold passFindings
  simp only [List.append_eq_nil_iff, and_assoc]

theorem old_renameIndexes :
    (renameIndexes overlay snap).old = sideIndexes snap overlay.apply := by
  have hnorm : (normalize · (buildRenameTable overlay).1) = overlay.apply :=
    funext fun id => normalize_buildRenameTable overlay id
  unfold renameIndexes buildDiffIndexes
  dsimp only
  rw [hnorm]

theorem correspond_renameIndexes : Correspond overlay.apply (renameIndexes overlay snap).old
    (renameIndexes overlay snap).new := by
  rw [old_renameIndexes]
  exact sideIndexes_rename overlay.apply snap

end

/-! ## 2. Untouched bodies -/

section

variable {ρ : String → String} {snap : CborValue}

/-- The facts of a capability subject. -/
theorem mem_capabilities {subject : String} {f : CborValue} :
    f ∈ (IndexMap.get (sideIndexes snap ρ).capabilityFactsBySubject subject).getD [] ↔
      f ∈ snapshotArray snap "capabilityFacts" ∧ ∃ s, getStr f "subject" = some s ∧ ρ s = subject :=
  IndexMap.mem_get_groupEntries.trans mem_keyed

/-- The facts of a permission subject. -/
theorem mem_permissions {subject : String} {f : CborValue} :
    f ∈ (IndexMap.get (sideIndexes snap ρ).permissionsBySubject subject).getD [] ↔
      f ∈ snapshotArray snap "permissionFacts" ∧
        ∃ s, permissionFactSubject f = some s ∧ ρ s = subject :=
  IndexMap.mem_get_groupEntries.trans mem_keyed

theorem permissionFactSubject_required {f : CborValue} (h : getStr f "kind" = some "required") :
    permissionFactSubject f = getStr f "subject" := by
  unfold permissionFactSubject
  rw [h]
  rfl

end

/-- **An untouched rename is silent.** -/
theorem silent_of_untouched (P : Prims) {overlay : RenameOverlay} {snap : CborValue}
    (hw : WellFormed snap) (hr : Renames overlay.apply snap) (hu : Untouched overlay.apply snap) :
    passFindings P (renameIndexes overlay snap) = [] := by
  have h := correspond_renameIndexes overlay snap
  have hold := old_renameIndexes overlay snap
  have hres : ∀ subject,
      ∀ f ∈ (IndexMap.get (renameIndexes overlay snap).old.capabilityFactsBySubject subject).getD [],
      ∀ r, getStr f "resourceId" = some r → renameResource overlay.apply f r = r := by
    intro subject f hf
    rw [hold] at hf
    obtain ⟨hmem, s, hs, -⟩ := mem_capabilities.mp hf
    exact hu.resource f hmem (by rw [hs]; rfl)
  refine (passFindings_nil_iff P _).mpr ⟨?_, ?_, ?_, ?_, ?_⟩
  · refine diffAbi_rename overlay.apply P h ?_ ?_
    · rw [hold]
      exact IndexMap.nodup_ofEntries _
    · intro e he
      rw [hold] at he
      exact hw.parameters e.2 (mem_keyed.mp (IndexMap.mem_ofEntries he)).1
  · refine diffSchema_rename overlay.apply P h ?_
    rw [hold]
    exact IndexMap.nodup_groupEntries _
  · exact diffEvents_rename P hold h (normalize_buildRenameTable overlay) hw hr hu hres
  · exact diffCapabilities_rename overlay.apply P h hres
  · refine diffPermissions_rename overlay.apply P h ?_
    intro subject f hf hkind
    rw [hold] at hf
    obtain ⟨hmem, s, hs, -⟩ := mem_permissions.mp hf
    rw [permissionFactSubject_required hkind] at hs
    exact hu.target f hmem hkind (by rw [hs]; rfl)

/-! ## 3. Silent renames -/

section

variable {ρ : String → String} {snap : CborValue}

/-- An id of a body that some id is renamed to is not renamed itself: the rename is to fresh ids. -/
theorem fixed_of_image (hr : Renames ρ snap) {x y : String} (hx : BodyId snap x) (h : ρ y = x) :
    ρ x = x := by
  by_cases hy : ρ y = y
  · rw [hy] at h
    rw [← h]
    exact hy
  · exact absurd (h ▸ hx) (hr.fresh y hy)

/-- What stands before the first bar is read back. -/
theorem bar_inj {a a' b b' : String} (ha : '|' ∉ a.toList) (ha' : '|' ∉ a'.toList)
    (h : a ++ "|" ++ b = a' ++ "|" ++ b') : a = a' ∧ b = b' := by
  have hlist := congrArg String.toList h
  rw [String.toList_append, String.toList_append, String.toList_append, String.toList_append,
    List.append_assoc, List.append_assoc] at hlist
  obtain ⟨hfst, hsnd⟩ := Lines.eq_of_append_sep '|' ha ha' hlist
  exact ⟨String.toList_inj.mp hfst, String.toList_inj.mp hsnd⟩

theorem bars_inj {a a' b b' c c' : String} (ha : '|' ∉ a.toList) (ha' : '|' ∉ a'.toList)
    (hb : '|' ∉ b.toList) (hb' : '|' ∉ b'.toList)
    (h : a ++ "|" ++ b ++ "|" ++ c = a' ++ "|" ++ b' ++ "|" ++ c') : b = b' ∧ c = c' := by
  have hassoc : a ++ "|" ++ (b ++ "|" ++ c) = a' ++ "|" ++ (b' ++ "|" ++ c') := by
    simpa only [String.append_assoc] using h
  exact bar_inj hb hb' (bar_inj ha ha' hassoc).2

theorem renameEventId_empty (ρ : String → String) : renameEventId ρ "" = "" := by
  unfold renameEventId
  exact if_pos (by decide)

/-- The resource a fact shares its key with, after the rename, is not renamed. -/
theorem renameResource_of_image (hr : Renames ρ snap) {f g : CborValue} {r : String}
    (hf : f ∈ snapshotArray snap "capabilityFacts")
    (hid : getStr f "resourceId" = some r)
    (hkind : getStr f "resourceKind" = some "event" ↔ getStr g "resourceKind" = some "event")
    (himage : ((getStr g "resourceId").map (renameResource ρ g)).getD "" = r) :
    renameResource ρ f r = r := by
  unfold renameResource at himage ⊢
  by_cases hevent : getStr f "resourceKind" = some "event"
  · rw [if_pos hevent]
    rw [if_pos (hkind.mp hevent)] at himage
    cases hgid : getStr g "resourceId" with
    | none =>
      rw [hgid] at himage
      rw [← himage]
      exact renameEventId_empty ρ
    | some r' =>
      rw [hgid, Option.map_some, Option.getD_some] at himage
      by_cases hlen : (eventParts r').length < 3
      · have hsame : renameEventId ρ r' = r' := if_pos hlen
        rw [← himage, hsame, hsame]
      · have hparse := parse_renameEventId ρ (Nat.not_lt.mp hlen) (hr.shape _)
        rw [himage] at hparse
        have hobject : publisherObject r = ρ (publisherObject r') :=
          congrArg EventIdentity.publisherObject hparse
        exact renameEventId_of_eq ρ
          (fixed_of_image hr (.eventResource hf hid hevent) hobject.symm)
  · rw [if_neg hevent]
    rw [if_neg (fun h => hevent (hkind.mpr h))] at himage
    cases hgid : getStr g "resourceId" with
    | none =>
      rw [hgid] at himage
      rw [← himage]
      exact hr.nonempty
    | some r' =>
      rw [hgid] at himage
      exact fixed_of_image hr (.resource hf hid) himage

theorem event_iff_of_getD {f g : CborValue}
    (h : (getStr f "resourceKind").getD "" = (getStr g "resourceKind").getD "") :
    getStr f "resourceKind" = some "event" ↔ getStr g "resourceKind" = some "event" := by
  have hword : ∀ o : Option String, o = some "event" ↔ o.getD "" = "event" := by
    intro o
    cases o with
    | none => exact ⟨fun h => (by cases h), fun h => absurd h (by decide)⟩
    | some s => exact ⟨fun h => Option.some.inj h, fun h => congrArg some h⟩
  rw [hword, hword, h]

end

section

variable (P : Prims) {overlay : RenameOverlay} {snap : CborValue}

/-- A subject of the old side is among the subjects gone over. -/
theorem mem_unionKeys_left {α β : Type} {m : IndexMap String α} {n : IndexMap String β} {k : String}
    (h : IndexMap.containsKey m k = true) : k ∈ unionKeys m n := by
  obtain ⟨a, ha⟩ := IndexMap.containsKey_iff.mp h
  exact List.mem_append_left _ (List.mem_map.mpr ⟨(k, a), ha, rfl⟩)

/-- **A renamed resource is a lost capability.** -/
theorem resource_of_silent (hw : WellFormed snap) (hr : Renames overlay.apply snap)
    (h : diffCapabilities P (renameIndexes overlay snap) = []) :
    ∀ f ∈ snapshotArray snap "capabilityFacts", (getStr f "subject").isSome →
      ∀ r, getStr f "resourceId" = some r → renameResource overlay.apply f r = r := by
  intro f hf hsubject r hid
  obtain ⟨s, hs⟩ := Option.isSome_iff_exists.mp hsubject
  have hold := old_renameIndexes overlay snap
  have hkeyed : (overlay.apply s, f) ∈ keyed (getStr · "subject") overlay.apply
      (snapshotArray snap "capabilityFacts") := mem_keyed.mpr ⟨hf, s, hs, rfl⟩
  have hthere : IndexMap.containsKey (renameIndexes overlay snap).old.capabilityFactsBySubject
      (overlay.apply s) = true := by
    rw [hold]
    exact IndexMap.containsKey_groupEntries hkeyed
  unfold diffCapabilities at h
  rw [sortById_nil_iff, List.flatMap_eq_nil_iff] at h
  have hdelta := h _ (mem_unionKeys_left hthere)
  unfold capabilityDelta at hdelta
  rw [List.append_eq_nil_iff, List.flatMap_eq_nil_iff, List.flatMap_eq_nil_iff] at hdelta
  -- the fact's key is among the old ones, so it is among the new ones
  have holdKey : IndexMap.containsKey (capsByKey ((IndexMap.get
      (renameIndexes overlay snap).old.capabilityFactsBySubject (overlay.apply s)).getD []))
      (capFactKey f) = true := by
    refine IndexMap.containsKey_ofEntries.mpr ⟨f, List.mem_map.mpr ⟨f, ?_, rfl⟩⟩
    rw [hold]
    exact mem_capabilities.mpr ⟨hf, s, hs, rfl⟩
  obtain ⟨f', hf'⟩ := IndexMap.containsKey_iff.mp holdKey
  have hnewKey : IndexMap.containsKey (capsByKey ((IndexMap.get
      (renameIndexes overlay snap).new.capabilityFactsBySubject (overlay.apply s)).getD []))
      (capFactKey f) = true := by
    by_contra hgone
    have hloss := hdelta.2 _ hf'
    rw [if_neg hgone] at hloss
    cases hloss
  obtain ⟨g', hg'⟩ := IndexMap.containsKey_ofEntries.mp hnewKey
  rw [(correspond_renameIndexes overlay snap).capabilities, get_mapValues_getD, hold,
    List.map_map] at hg'
  obtain ⟨g, hg, heq⟩ := List.mem_map.mp hg'
  have hgmem := (mem_capabilities.mp hg).1
  have hkey : capFactKey (renameCapability overlay.apply g) = capFactKey f :=
    (Prod.mk.inj heq).1
  unfold capFactKey at hkey
  rw [getStr_renameCapability_ne _ _ (by decide) (by decide),
    getStr_renameCapability_ne _ _ (by decide) (by decide), resourceId_renameCapability] at hkey
  obtain ⟨hkind, hresource⟩ := bars_inj (hw.operation g hgmem).1 (hw.operation f hf).1
    (hw.operation g hgmem).2 (hw.operation f hf).2 hkey
  refine renameResource_of_image hr hf hid (event_iff_of_getD hkind.symm) ?_
  rw [hresource, hid]
  rfl

/-- **A renamed target is a removed permission.** -/
theorem target_of_silent (hw : WellFormed snap) (hr : Renames overlay.apply snap)
    (h : diffPermissions P (renameIndexes overlay snap) = []) :
    ∀ f ∈ snapshotArray snap "permissionFacts", getStr f "kind" = some "required" →
      (getStr f "subject").isSome → ∀ t, getStr f "target" = some t → overlay.apply t = t := by
  intro f hf hrequired hsubject t htarget
  obtain ⟨s, hs⟩ := Option.isSome_iff_exists.mp hsubject
  rw [← permissionFactSubject_required hrequired] at hs
  have hold := old_renameIndexes overlay snap
  have hkeyed : (overlay.apply s, f) ∈ keyed permissionFactSubject overlay.apply
      (snapshotArray snap "permissionFacts") := mem_keyed.mpr ⟨hf, s, hs, rfl⟩
  have hthere : IndexMap.containsKey (renameIndexes overlay snap).old.permissionsBySubject
      (overlay.apply s) = true := by
    rw [hold]
    exact IndexMap.containsKey_groupEntries hkeyed
  unfold diffPermissions at h
  rw [sortById_nil_iff, List.flatMap_eq_nil_iff] at h
  have hdelta := h _ (mem_unionKeys_left hthere)
  unfold permissionDelta at hdelta
  rw [List.append_eq_nil_iff, List.flatMap_eq_nil_iff] at hdelta
  have holdKey : IndexMap.containsKey (rightsByTarget ((IndexMap.get
      (renameIndexes overlay snap).old.permissionsBySubject (overlay.apply s)).getD []))
      (permKey f) = true := by
    refine IndexMap.containsKey_ofEntries.mpr ⟨rightsOf f, List.mem_map.mpr
      ⟨f, List.mem_filter.mpr ⟨?_, by rw [hrequired]; rfl⟩, rfl⟩⟩
    rw [hold]
    exact mem_permissions.mpr ⟨hf, s, hs, rfl⟩
  obtain ⟨rights, hrights⟩ := IndexMap.containsKey_iff.mp holdKey
  have hnewKey : IndexMap.containsKey (rightsByTarget ((IndexMap.get
      (renameIndexes overlay snap).new.permissionsBySubject (overlay.apply s)).getD []))
      (permKey f) = true := by
    have hkept := hdelta.1 _ hrights
    unfold permOld at hkept
    unfold IndexMap.containsKey
    cases hget : IndexMap.get (rightsByTarget ((IndexMap.get
        (renameIndexes overlay snap).new.permissionsBySubject (overlay.apply s)).getD []))
        (permKey f) with
    | none =>
      rw [hget] at hkept
      cases hkept
    | some r => rfl
  obtain ⟨rights', hg'⟩ := IndexMap.containsKey_ofEntries.mp hnewKey
  rw [(correspond_renameIndexes overlay snap).permissions, get_mapValues_getD, hold,
    filter_required_rename, List.map_map] at hg'
  obtain ⟨g, hg, heq⟩ := List.mem_map.mp hg'
  have hgmem := (mem_permissions.mp (List.mem_filter.mp hg).1).1
  have hkey : permKey (renamePermission overlay.apply g) = permKey f := (Prod.mk.inj heq).1
  unfold permKey at hkey
  rw [getStr_renamePermission_ne _ _ (by decide) (by decide) (by decide),
    target_renamePermission] at hkey
  obtain ⟨-, himage⟩ := bar_inj (hw.targetKind g hgmem) (hw.targetKind f hf) hkey
  rw [htarget, Option.getD_some] at himage
  cases hgt : getStr g "target" with
  | none =>
    rw [hgt] at himage
    rw [← himage]
    exact hr.nonempty
  | some t' =>
    rw [hgt] at himage
    exact fixed_of_image hr (.target hf htarget) himage

/-- A publisher that is gone is reported as removed. -/
theorem publisherOld_gone (ix : DiffIndexes) {news : IndexMap String CborValue} {key : String}
    (h : IndexMap.get news key = none) (changed : IndexMap String (Severity × Details))
    (d : CborValue) :
    ∃ f ∈ publisherOld P ix news changed key d, f.kind = .eventPublisherRemoved := by
  unfold publisherOld
  rw [h]
  exact ⟨_, List.mem_singleton_self _, rfl⟩

/-- **A renamed published event is a removed publisher.** -/
theorem publisher_of_silent (hw : WellFormed snap) (hr : Renames overlay.apply snap)
    (h : diffEvents P (renameIndexes overlay snap) = []) :
    ∀ d ∈ snapshotArray snap "eventDeclarations", getStr d "kind" = some "publisher" →
      (getStr d "routine").isSome → ∀ e, getStr d "eventId" = some e →
        renameEventId overlay.apply e = e := by
  intro d hd hkind hroutine e he
  obtain ⟨e', he', hlen⟩ := hw.eventId d hd
  obtain rfl : e = e' := Option.some.inj (he.symm.trans he')
  have hold := old_renameIndexes overlay snap
  have hdecl : d ∈ declsOf (renameIndexes overlay snap).old.eventsBySubject "publisher" := by
    rw [hold]
    exact mem_declsOf.mpr ⟨hd, hkind, hroutine⟩
  have holdKey : IndexMap.containsKey
      (publishersOf (renameIndexes overlay snap).old.eventsBySubject) (publisherIdentityKey d) =
        true :=
    IndexMap.containsKey_ofEntries.mpr ⟨d, List.mem_map.mpr ⟨d, hdecl, rfl⟩⟩
  obtain ⟨p, hp⟩ := IndexMap.containsKey_iff.mp holdKey
  unfold diffEvents at h
  dsimp only at h
  rw [sortById_nil_iff, List.append_eq_nil_iff, List.append_eq_nil_iff, List.filter_append,
    List.append_eq_nil_iff, List.filter_eq_nil_iff] at h
  obtain ⟨⟨⟨hgone, -⟩, -⟩, -⟩ := h
  have hnewKey : IndexMap.containsKey
      (publishersOf (renameIndexes overlay snap).new.eventsBySubject) (publisherIdentityKey d) =
        true := by
    unfold IndexMap.containsKey
    cases hget : IndexMap.get (publishersOf (renameIndexes overlay snap).new.eventsBySubject)
        (publisherIdentityKey d) with
    | some q => rfl
    | none =>
      -- a publisher that is gone is reported, and its finding is never suppressed
      exfalso
      obtain ⟨f, hf, hfkind⟩ := publisherOld_gone P (renameIndexes overlay snap) hget
        (changedPublishers P (renameIndexes overlay snap)
          (publishersOf (renameIndexes overlay snap).old.eventsBySubject)
          (publishersOf (renameIndexes overlay snap).new.eventsBySubject)) p
      refine hgone f (List.mem_flatMap.mpr ⟨_, hp, hf⟩) ?_
      unfold isSuppressed
      rw [hfkind]
      rfl
  obtain ⟨q, hq⟩ := IndexMap.containsKey_iff.mp hnewKey
  obtain ⟨hqdecl, hqkey⟩ : q ∈ declsOf (renameIndexes overlay snap).new.eventsBySubject "publisher" ∧
      publisherIdentityKey q = publisherIdentityKey d := mem_publishersOf hq
  rw [(correspond_renameIndexes overlay snap).events, hold, declsOf_rename] at hqdecl
  obtain ⟨g, hg, rfl⟩ := List.mem_map.mp hqdecl
  obtain ⟨ge, hge, hglen⟩ := hw.eventId g (mem_declsOf.mp hg).1
  rw [identity_renameEvent hr hge hglen, identity_eq he] at hqkey
  have hsep : Separable (overlay.apply (publisherObject ge)) := by
    by_cases hsame : overlay.apply (publisherObject ge) = publisherObject ge
    · rw [hsame]
      exact separable_publisherObject hglen
    · exact separable_of_clean (hr.shape _ hsame)
  obtain ⟨hobject, -⟩ := identity_inj hsep (separable_publisherObject hlen)
    (whole_eventName hglen) (whole_eventName hlen) hqkey
  exact renameEventId_of_eq _ (fixed_of_image hr (.publisher hd he) hobject)

/-- **When a pure rename is silent**: the engine reports nothing under the loose policy exactly when
no renamed id stands in the body of a fact. -/
theorem runDiffEngine_rename_silent_iff (hw : WellFormed snap) (hr : Renames overlay.apply snap) :
    (runDiffEngine P snap (renameSnapshot overlay.apply snap) .loose (some overlay)).findings = [] ↔
      Untouched overlay.apply snap := by
  rw [runDiffEngine_rename_nil_iff]
  constructor
  · intro h
    obtain ⟨-, -, hevents, hcaps, hperms⟩ := (passFindings_nil_iff P _).mp h
    exact ⟨resource_of_silent P hw hr hcaps, target_of_silent P hw hr hperms,
      publisher_of_silent P hw hr hevents⟩
  · exact silent_of_untouched P hw hr

end

/-! ## 4. A renamed routine and a renamed table -/

/-- A snapshot of one routine that inserts into one table. -/
def insertSnapshot : CborValue :=
  .map
    [("identities", .map
        [("stableIds", .array [.text "app:Codeunit:1#h", .text "app:Table:5"]),
          ("displayNames", .array [.text "Post", .text "Item"])]),
      ("capabilityFacts", .array
        [.map [("subject", .text "app:Codeunit:1#h"), ("op", .text "insert"),
          ("resourceKind", .text "table"), ("resourceId", .text "app:Table:5")]])]

/-- The overlay with one entry. -/
def renameOne (oldId newId : String) : RenameOverlay := ⟨[(oldId, newId)], List.nodup_singleton _⟩

theorem apply_renameOne (oldId newId id : String) :
    (renameOne oldId newId).apply id = if id = oldId then newId else id := by
  unfold RenameOverlay.apply renameOne
  rw [IndexMap.get_cons, IndexMap.get_nil]
  by_cases h : id = oldId
  · rw [if_pos h, if_pos h, Option.getD_some]
  · rw [if_neg h, if_neg h, Option.getD_none]

/-- The snapshot's one capability fact. -/
theorem capabilityFacts_insertSnapshot : snapshotArray insertSnapshot "capabilityFacts" =
    [.map [("subject", .text "app:Codeunit:1#h"), ("op", .text "insert"),
      ("resourceKind", .text "table"), ("resourceId", .text "app:Table:5")]] := rfl

theorem wellFormed_insertSnapshot : WellFormed insertSnapshot where
  parameters := fun f hf => absurd hf List.not_mem_nil
  eventId := fun d hd => absurd hd List.not_mem_nil
  operation := by
    intro f hf
    rw [capabilityFacts_insertSnapshot] at hf
    rw [List.mem_singleton.mp hf]
    decide
  targetKind := fun f hf => absurd hf List.not_mem_nil

/-- The table is the only id in a body. -/
theorem bodyId_insertSnapshot {id : String} (h : BodyId insertSnapshot id) : id = "app:Table:5" := by
  cases h with
  | resource hf hr =>
    rw [capabilityFacts_insertSnapshot] at hf
    rw [List.mem_singleton.mp hf] at hr
    exact (Option.some.inj hr).symm
  | eventResource hf hr hevent =>
    rw [capabilityFacts_insertSnapshot] at hf
    rw [List.mem_singleton.mp hf] at hevent
    exact absurd hevent (by decide)
  | target hf => exact absurd hf List.not_mem_nil
  | publisher hd => exact absurd hd List.not_mem_nil

theorem renames_renameOne {oldId newId : String} (hold : oldId ≠ "") (hnew : newId ≠ "app:Table:5")
    (hclean : PairSplit.Clean ':' newId.toList) :
    Renames (renameOne oldId newId).apply insertSnapshot := by
  have himage : ∀ id, (renameOne oldId newId).apply id ≠ id →
      (renameOne oldId newId).apply id = newId := by
    intro id hid
    rw [apply_renameOne] at hid ⊢
    by_cases h : id = oldId
    · exact if_pos h
    · rw [if_neg h] at hid
      exact absurd rfl hid
  refine ⟨?_, ?_, ?_⟩
  · rw [apply_renameOne, if_neg hold.symm]
  · intro id hid hbody
    rw [himage id hid] at hbody
    exact hnew (bodyId_insertSnapshot hbody)
  · intro id hid
    rw [himage id hid]
    exact hclean

/-- Renaming the routine, a subject, is silent. -/
theorem runDiffEngine_rename_silent_iff_routine :
    (runDiffEngine ⟨id, id⟩ insertSnapshot
      (renameSnapshot (renameOne "app:Codeunit:1#h" "app:Codeunit:1#k").apply insertSnapshot) .loose
      (some (renameOne "app:Codeunit:1#h" "app:Codeunit:1#k"))).findings = [] := by
  refine (runDiffEngine_rename_silent_iff ⟨id, id⟩ wellFormed_insertSnapshot
    (renames_renameOne (by decide) (by decide) (by decide))).mpr ⟨?_, ?_, ?_⟩
  · intro f hf _ r hr
    rw [capabilityFacts_insertSnapshot] at hf
    rw [List.mem_singleton.mp hf] at hr ⊢
    rw [← Option.some.inj hr]
    unfold renameResource
    rw [if_neg (by decide), apply_renameOne, if_neg (by decide)]
  · exact fun f hf => absurd hf List.not_mem_nil
  · exact fun d hd => absurd hd List.not_mem_nil

/-- **Renaming the table is not silent**, although the ids are distinct, the overlay is injective
and its target is no id of the snapshot. -/
theorem runDiffEngine_rename_table_found :
    ((identitiesField insertSnapshot "stableIds").filterMap asText).Nodup ∧
      ((renameOne "app:Table:5" "app:Table:6").entries.map Prod.snd).Nodup ∧
      (∀ e ∈ (renameOne "app:Table:5" "app:Table:6").entries,
        e.2 ∉ liveIds insertSnapshot (identitiesField insertSnapshot "stableIds") ∧
          ¬BodyId insertSnapshot e.2) ∧
      ∀ P, (runDiffEngine P insertSnapshot
        (renameSnapshot (renameOne "app:Table:5" "app:Table:6").apply insertSnapshot) .loose
        (some (renameOne "app:Table:5" "app:Table:6"))).findings ≠ [] := by
  refine ⟨by decide, by decide, ?_, ?_⟩
  · intro e he
    rw [List.mem_singleton.mp he]
    exact ⟨by decide, fun h => absurd (bodyId_insertSnapshot h) (by decide)⟩
  · intro P h
    rw [runDiffEngine_rename_nil_iff] at h
    have hcaps := ((passFindings_nil_iff P _).mp h).2.2.2.1
    have hsame := resource_of_silent P wellFormed_insertSnapshot
      (renames_renameOne (by decide) (by decide) (by decide)) hcaps _
      (by rw [capabilityFacts_insertSnapshot]; exact List.mem_singleton_self _) rfl
      "app:Table:5" rfl
    unfold renameResource at hsame
    rw [if_neg (by decide), apply_renameOne, if_pos rfl] at hsame
    exact absurd hsame (by decide)

end AlSem.Diff
