/-
# The event pass on a pure rename

When no published event is renamed the publishers are the same on both sides.  A subscriber may
still follow a renamed event of another app: it then belongs to no publisher on either side, so each
publisher keeps its subscribers and what they write.
-/
import AlSem.Diff.EventIds
import AlSem.Diff.RenameSilent

namespace AlSem.Diff

open AlSem.Snapshot

/-- The old identity of a declaration, and the new one. -/
theorem identity_renameEvent {ρ : String → String} {snap d : CborValue} {e : String}
    (hr : Renames ρ snap) (he : getStr d "eventId" = some e) (hlen : 3 ≤ (eventParts e).length) :
    publisherIdentityKey (renameEvent ρ d) =
      ρ (publisherObject e) ++ "::" ++ (parseEventIdentity e).eventName := by
  have hid : getStr (renameEvent ρ d) "eventId" = some (renameEventId ρ e) := by
    unfold renameEvent
    rw [getStr_renameAt_ne _ _ (by decide), getStr_renameAt_self, he, Option.map_some]
  unfold publisherIdentityKey
  rw [hid, Option.getD_some, parse_renameEventId ρ hlen (hr.shape _)]

theorem identity_eq {d : CborValue} {e : String} (he : getStr d "eventId" = some e) :
    publisherIdentityKey d = publisherObject e ++ "::" ++ (parseEventIdentity e).eventName := by
  unfold publisherIdentityKey
  rw [he]
  rfl

theorem kind_renameEvent (ρ : String → String) (d : CborValue) :
    getStr (renameEvent ρ d) "kind" = getStr d "kind" := by
  unfold renameEvent
  rw [getStr_renameAt_ne _ _ (by decide), getStr_renameAt_ne _ _ (by decide)]

/-- The declarations of the new side are the old side's renamed. -/
theorem declsOf_rename (ρ : String → String) (events : IndexMap String (List CborValue))
    (kind : String) :
    declsOf (IndexMap.mapValues (List.map (renameEvent ρ)) events) kind =
      (declsOf events kind).map (renameEvent ρ) := by
  unfold declsOf IndexMap.mapValues
  rw [List.flatMap_map, ← List.map_flatMap, List.filter_map]
  congr 1
  refine List.filter_congr ?_
  intro d _
  rw [Function.comp_apply, kind_renameEvent]

section

variable {ρ : String → String} {snap : CborValue}

/-- A declaration of the indexes is one of the snapshot, with a routine. -/
theorem mem_declsOf {d : CborValue} {kind : String} :
    d ∈ declsOf (sideIndexes snap ρ).eventsBySubject kind ↔
      d ∈ snapshotArray snap "eventDeclarations" ∧ getStr d "kind" = some kind ∧
        (getStr d "routine").isSome := by
  unfold declsOf
  rw [List.mem_filter, List.mem_flatMap, beq_iff_eq]
  constructor
  · rintro ⟨⟨e, he, hd⟩, hkind⟩
    obtain ⟨hmem, r, hroutine, -⟩ := mem_keyed.mp (IndexMap.mem_groupEntries he hd)
    exact ⟨hmem, hkind, by rw [hroutine]; rfl⟩
  · rintro ⟨hmem, hkind, hroutine⟩
    obtain ⟨r, hr⟩ := Option.isSome_iff_exists.mp hroutine
    have hkeyed : (ρ r, d) ∈ keyed (getStr · "routine") ρ (snapshotArray snap "eventDeclarations") :=
      mem_keyed.mpr ⟨hmem, r, hr, rfl⟩
    have hget := IndexMap.mem_get_groupEntries.mpr hkeyed
    cases hg : IndexMap.get (IndexMap.groupEntries
        (keyed (getStr · "routine") ρ (snapshotArray snap "eventDeclarations"))) (ρ r) with
    | none =>
      rw [hg] at hget
      cases hget
    | some items =>
      rw [hg] at hget
      exact ⟨⟨(ρ r, items), IndexMap.mem_of_get hg, hget⟩, hkind⟩

/-- An untouched publisher's event keeps its object. -/
theorem object_of_untouched (hw : WellFormed snap) (hr : Renames ρ snap) (hu : Untouched ρ snap)
    {d : CborValue} {e : String}
    (hd : d ∈ declsOf (sideIndexes snap ρ).eventsBySubject "publisher")
    (he : getStr d "eventId" = some e) : ρ (publisherObject e) = publisherObject e := by
  obtain ⟨hmem, hkind, hroutine⟩ := mem_declsOf.mp hd
  obtain ⟨e', he', hlen⟩ := hw.eventId d hmem
  obtain rfl : e = e' := Option.some.inj (he.symm.trans he')
  exact (renameEventId_eq_iff ρ hlen (hr.shape _)).mp (hu.publisher d hmem hkind hroutine e he)

/-- The publishers of the new side are the old side's renamed, under the same identities. -/
theorem publishersOf_rename (hw : WellFormed snap) (hr : Renames ρ snap) (hu : Untouched ρ snap) :
    publishersOf (IndexMap.mapValues (List.map (renameEvent ρ))
        (sideIndexes snap ρ).eventsBySubject) =
      IndexMap.mapValues (renameEvent ρ) (publishersOf (sideIndexes snap ρ).eventsBySubject) := by
  unfold publishersOf
  rw [declsOf_rename, ← IndexMap.ofEntries_map, List.map_map, List.map_map]
  congr 1
  refine List.map_congr_left ?_
  intro d hd
  obtain ⟨e, he, hlen⟩ := hw.eventId d (mem_declsOf.mp hd).1
  refine Prod.ext ?_ rfl
  rw [Function.comp_apply, Function.comp_apply]
  dsimp only
  rw [identity_renameEvent hr he hlen, object_of_untouched hw hr hu hd he, identity_eq he]

/-- **A publisher keeps its subscribers**: under a publisher's identity both sides have the same
subscribers. -/
theorem subsByEvent_rename (hw : WellFormed snap) (hr : Renames ρ snap) (hu : Untouched ρ snap)
    {p : CborValue} (hp : p ∈ declsOf (sideIndexes snap ρ).eventsBySubject "publisher") :
    (IndexMap.get (subsByEvent (IndexMap.mapValues (List.map (renameEvent ρ))
        (sideIndexes snap ρ).eventsBySubject)) (publisherIdentityKey p)).getD [] =
      ((IndexMap.get (subsByEvent (sideIndexes snap ρ).eventsBySubject)
        (publisherIdentityKey p)).getD []).map (renameEvent ρ) := by
  have hpmem := (mem_declsOf.mp hp).1
  obtain ⟨pe, hpe, hplen⟩ := hw.eventId p hpmem
  unfold subsByEvent
  rw [declsOf_rename, IndexMap.get_groupEntries, IndexMap.get_groupEntries, List.map_map,
    List.filter_map, List.filter_map, List.map_map, List.map_map, List.map_map]
  have hfilter : (declsOf (sideIndexes snap ρ).eventsBySubject "subscriber").filter
        ((fun e : String × CborValue => decide (e.1 = publisherIdentityKey p)) ∘
          ((fun d => (publisherIdentityKey d, d)) ∘ renameEvent ρ)) =
      (declsOf (sideIndexes snap ρ).eventsBySubject "subscriber").filter
        ((fun e : String × CborValue => decide (e.1 = publisherIdentityKey p)) ∘
          fun d => (publisherIdentityKey d, d)) := by
    refine List.filter_congr ?_
    intro d hd
    obtain ⟨e, he, hlen⟩ := hw.eventId d (mem_declsOf.mp hd).1
    rw [Function.comp_apply, Function.comp_apply, Function.comp_apply]
    refine decide_eq_decide.mpr ?_
    dsimp only
    rw [identity_renameEvent hr he hlen, identity_eq he, identity_eq hpe]
    by_cases hsame : ρ (publisherObject e) = publisherObject e
    · rw [hsame]
    · -- a renamed event is no publisher's here, before or after
      have hsep := separable_of_clean (hr.shape _ hsame)
      constructor
      · intro heq
        obtain ⟨hobject, -⟩ := identity_inj hsep (separable_publisherObject hplen)
          (whole_eventName hlen) (whole_eventName hplen) heq
        exact absurd (hobject ▸ BodyId.publisher hpmem hpe) (hr.fresh _ hsame)
      · intro heq
        obtain ⟨hobject, -⟩ := identity_inj (separable_publisherObject hlen)
          (separable_publisherObject hplen) (whole_eventName hlen) (whole_eventName hplen) heq
        rw [hobject] at hsame
        exact absurd (object_of_untouched hw hr hu hp hpe) hsame
  rw [hfilter]
  rfl

/-- A write on a table that is not renamed is the same write. -/
theorem writeOf_rename {f : CborValue}
    (h : ∀ r, getStr f "resourceId" = some r → renameResource ρ f r = r) :
    writeOf (renameCapability ρ f) = writeOf f := by
  have hid : getStr (renameCapability ρ f) "resourceId" = getStr f "resourceId" := by
    rw [resourceId_renameCapability]
    cases hr : getStr f "resourceId" with
    | none => rfl
    | some r => rw [Option.map_some, h r hr]
  unfold writeOf
  rw [hid, getStr_renameCapability_ne ρ f (by decide) (by decide),
    getStr_renameCapability_ne ρ f (by decide) (by decide)]

/-- **The same subscribers write the same.** -/
theorem writesOf_rename {subs newSubs : Option (List CborValue)}
    {caps : IndexMap String (List CborValue)} {norm : String → String}
    (hsubs : newSubs.getD [] = (subs.getD []).map (renameEvent ρ)) (hempty : ρ "" = "")
    (hnorm : ∀ id, norm id = ρ id)
    (hres : ∀ subject, ∀ f ∈ (IndexMap.get caps subject).getD [],
      ∀ r, getStr f "resourceId" = some r → renameResource ρ f r = r) :
    writesOf newSubs (IndexMap.mapValues (List.map (renameCapability ρ)) caps) id =
      writesOf subs caps norm := by
  unfold writesOf
  rw [hsubs, List.flatMap_map]
  congr 1
  refine List.flatMap_congr ?_
  intro s _
  have hkey : id ((getStr (renameEvent ρ s) "routine").getD "") =
      norm ((getStr s "routine").getD "") := by
    rw [routine_renameEvent, hnorm]
    cases getStr s "routine" with
    | none => exact hempty.symm
    | some r => rfl
  rw [hkey, get_mapValues_getD, List.filterMap_map]
  refine List.filterMap_congr ?_
  intro f hf
  exact writeOf_rename (hres _ f hf)

end

/-- A map of writes has each table once. -/
theorem nodup_writesOf (subs : Option (List CborValue)) (caps : IndexMap String (List CborValue))
    (keyOf : String → String) : ((writesOf subs caps keyOf).map Prod.fst).Nodup := by
  unfold writesOf
  generalize ((subs.getD []).flatMap fun s =>
    ((IndexMap.get caps (keyOf ((getStr s "routine").getD ""))).getD []).filterMap writeOf) = ws
  induction ws using List.reverseRecOn with
  | nil => exact List.nodup_nil
  | append_singleton ws w ih =>
    rw [List.foldl_append, List.foldl_cons, List.foldl_nil]
    exact IndexMap.nodup_insert ih _ _

/-- Nothing is gained over the same writes, nor lost. -/
theorem inducedDelta_self (P : Prims) (ix : DiffIndexes) (kind : DiffKind)
    (subject object name : String) {writes : IndexMap String (Finset String)}
    (h : (writes.map Prod.fst).Nodup) :
    inducedDelta P ix kind subject object name writes writes = [] := by
  unfold inducedDelta
  rw [List.flatMap_eq_nil_iff]
  intro e he
  rw [List.map_eq_nil_iff, List.filter_eq_nil_iff]
  intro op hop
  rw [IndexMap.get_of_mem h he, Option.getD_some]
  have hmem : op ∈ e.2 := (Finset.mem_sort _).mp hop
  rw [decide_eq_true hmem]
  exact Bool.false_ne_true

/-! ## The pass -/

section

variable {ρ : String → String} {snap : CborValue} {ix : DiffIndexes}

theorem mem_publishersOf {events : IndexMap String (List CborValue)} {e : String × CborValue}
    (h : e ∈ publishersOf events) :
    e.2 ∈ declsOf events "publisher" ∧ publisherIdentityKey e.2 = e.1 := by
  obtain ⟨d, hd, rfl⟩ := List.mem_map.mp (IndexMap.mem_ofEntries h)
  exact ⟨hd, rfl⟩

/-- A publisher whose event is not renamed has the signature it had. -/
theorem publisherSignatureSeverity_rename (P : Prims) (hold : ix.old = sideIndexes snap ρ)
    (h : Correspond ρ ix.old ix.new) (hw : WellFormed snap) (hu : Untouched ρ snap)
    {d : CborValue} (hd : d ∈ declsOf ix.old.eventsBySubject "publisher") :
    publisherSignatureSeverity P ix d (renameEvent ρ d) = none := by
  rw [hold] at hd
  obtain ⟨hmem, hkind, hroutine⟩ := mem_declsOf.mp hd
  obtain ⟨e, he, -⟩ := hw.eventId d hmem
  have hid : getStr (renameEvent ρ d) "eventId" = getStr d "eventId" := by
    unfold renameEvent
    rw [getStr_renameAt_ne _ _ (by decide), getStr_renameAt_self, he, Option.map_some,
      hu.publisher d hmem hkind hroutine e he]
  unfold publisherSignatureSeverity
  dsimp only
  rw [h.contracts, IndexMap.get_mapValues, hid]
  cases hc : IndexMap.get ix.old.contractsBySubject
      ((getStr (renameEvent ρ d) "routine").getD "") with
  | none => simp
  | some f =>
    have hfact : f ∈ snapshotArray snap "contractFacts" := by
      rw [hold] at hc
      exact (mem_keyed.mp (IndexMap.mem_ofEntries (IndexMap.mem_of_get hc))).1
    rw [Option.map_some]
    dsimp only
    rw [signatureChange_renameAt ρ P (hw.parameters f hfact)]
    simp

/-- Without a changed publisher there is no contract finding. -/
theorem contractFinding_nil (P : Prims) (news : IndexMap String CborValue)
    (oldSubs newSubs : IndexMap String (List CborValue)) (key : String) (d : CborValue) :
    contractFinding P ix news [] oldSubs newSubs key d = none := by
  unfold contractFinding
  cases IndexMap.get news key <;> rfl

/-- **The event pass finds nothing** when no published event and no resource is renamed. -/
theorem diffEvents_rename (P : Prims) (hold : ix.old = sideIndexes snap ρ)
    (h : Correspond ρ ix.old ix.new) (hnorm : ∀ id, ix.normalizeOld id = ρ id)
    (hw : WellFormed snap) (hr : Renames ρ snap) (hu : Untouched ρ snap)
    (hres : ∀ subject, ∀ f ∈ (IndexMap.get ix.old.capabilityFactsBySubject subject).getD [],
      ∀ r, getStr f "resourceId" = some r → renameResource ρ f r = r) :
    diffEvents P ix = [] := by
  have hnews : publishersOf ix.new.eventsBySubject =
      IndexMap.mapValues (renameEvent ρ) (publishersOf ix.old.eventsBySubject) := by
    rw [h.events, hold]
    exact publishersOf_rename hw hr hu
  have hgetNew : ∀ e ∈ publishersOf ix.old.eventsBySubject,
      IndexMap.get (publishersOf ix.new.eventsBySubject) e.1 = some (renameEvent ρ e.2) := by
    intro e he
    have hget : IndexMap.get (publishersOf ix.old.eventsBySubject) e.1 = some e.2 :=
      IndexMap.get_of_mem (IndexMap.nodup_ofEntries _) he
    rw [hnews, IndexMap.get_mapValues, hget, Option.map_some]
  have hchanged : changedPublishers P ix (publishersOf ix.old.eventsBySubject)
      (publishersOf ix.new.eventsBySubject) = [] := by
    refine List.filterMap_eq_nil_iff.mpr ?_
    intro e he
    rw [hgetNew e he, Option.bind_some,
      publisherSignatureSeverity_rename P hold h hw hu (mem_publishersOf he).1, Option.map_none]
  have hold' : ∀ e ∈ publishersOf ix.old.eventsBySubject,
      publisherOld P ix (publishersOf ix.new.eventsBySubject) [] e.1 e.2 = [] := by
    intro e he
    unfold publisherOld
    rw [hgetNew e he]
    rfl
  have hadded : ∀ e ∈ publishersOf ix.new.eventsBySubject,
      publisherAdded P ix (publishersOf ix.old.eventsBySubject) e.1 e.2 = [] := by
    intro e he
    rw [hnews] at he
    have hkey : IndexMap.containsKey (publishersOf ix.old.eventsBySubject) e.1 = true := by
      rw [← IndexMap.containsKey_mapValues (renameEvent ρ)]
      exact IndexMap.containsKey_iff.mpr ⟨e.2, he⟩
    exact if_pos hkey
  have hinduced : ∀ key, inducedFindings P ix (publishersOf ix.old.eventsBySubject)
      (publishersOf ix.new.eventsBySubject) (subsByEvent ix.old.eventsBySubject)
      (subsByEvent ix.new.eventsBySubject) key = [] := by
    intro key
    unfold inducedFindings
    dsimp only
    cases hsubject : inducedSubject ix (publishersOf ix.old.eventsBySubject)
        (publishersOf ix.new.eventsBySubject) key with
    | none => rfl
    | some subject =>
      -- the event has a publisher, so its subscribers are the same
      obtain ⟨d, hd⟩ : ∃ d, IndexMap.get (publishersOf ix.old.eventsBySubject) key = some d := by
        unfold inducedSubject at hsubject
        rw [hnews, IndexMap.get_mapValues] at hsubject
        cases hget : IndexMap.get (publishersOf ix.old.eventsBySubject) key with
        | none =>
          rw [hget] at hsubject
          cases hsubject
        | some d => exact ⟨d, rfl⟩
      obtain ⟨hdecl, hkey⟩ : d ∈ declsOf ix.old.eventsBySubject "publisher" ∧
          publisherIdentityKey d = key := mem_publishersOf (IndexMap.mem_of_get hd)
      have hsubs : (IndexMap.get (subsByEvent ix.new.eventsBySubject) key).getD [] =
          ((IndexMap.get (subsByEvent ix.old.eventsBySubject) key).getD []).map
            (renameEvent ρ) := by
        rw [← hkey, h.events, hold]
        rw [hold] at hdecl
        exact subsByEvent_rename hw hr hu hdecl
      have hwrites := writesOf_rename hsubs hr.nonempty hnorm hres
      dsimp only
      rw [h.capabilities, hwrites, inducedDelta_self P ix _ _ _ _ (nodup_writesOf _ _ _),
        inducedDelta_self P ix _ _ _ _ (nodup_writesOf _ _ _), List.append_nil]
  unfold diffEvents
  dsimp only
  rw [sortById_nil_iff, hchanged, List.flatMap_eq_nil_iff.mpr hold',
    List.flatMap_eq_nil_iff.mpr hadded, List.flatMap_eq_nil_iff.mpr fun key _ => hinduced key,
    List.filterMap_eq_nil_iff.mpr fun e _ => contractFinding_nil P _ _ _ e.1 e.2]
  rfl

end

end AlSem.Diff
