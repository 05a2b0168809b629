/-
# A pure rename of a snapshot

The statement a release gate relies on, in its own terms: what a snapshot looks like after some of
its ids have been replaced everywhere they occur, and nothing else has changed.  An id occurs as an
identity row, as the subject of a fact, as the resource of a capability fact, as the target of a
permission, as the routine of an event declaration, and as the publisher object an event id begins
with.

`Untouched` says that no id inside a fact's body is among the replaced ones.
-/
import AlSem.Diff.Engine

namespace AlSem.Diff

open AlSem.Snapshot

/-! ## 1. Replacing ids -/

/-- The value under `key` through `g`. -/
def mapField (key : String) (g : CborValue → CborValue) : CborValue → CborValue
  | .map m => .map (IndexMap.modify m key g)
  | v => v

/-- A text through `ρ`. -/
def mapText (ρ : String → String) : CborValue → CborValue
  | .text s => .text (ρ s)
  | v => v

/-- Every item of an array through `g`. -/
def mapItems (g : CborValue → CborValue) : CborValue → CborValue
  | .array a => .array (a.map g)
  | v => v

/-- The text under `key` through `ρ`. -/
def renameAt (ρ : String → String) (key : String) : CborValue → CborValue :=
  mapField key (mapText ρ)

/-- The parts of an event id. -/
def eventParts (eventId : String) : List (List Char) := PairSplit.split ':' eventId.toList

/-- The publisher object of an event id: what is before its name and its hash. -/
def publisherObject (eventId : String) : String := (parseEventIdentity eventId).publisherObject

/-- An event id with its publisher object replaced. -/
def renameEventId (ρ : String → String) (eventId : String) : String :=
  let parts := eventParts eventId
  if parts.length < 3 then eventId
  else
    ρ (publisherObject eventId) ++ "::" ++
      String.ofList (PairSplit.join ':' (parts.drop (parts.length - 2)))

/-- What is put in place of a capability's resource: an event's resource is an event id. -/
def renameResource (ρ : String → String) (fact : CborValue) : String → String :=
  if getStr fact "resourceKind" = some "event" then renameEventId ρ else ρ

def renameCapability (ρ : String → String) (fact : CborValue) : CborValue :=
  renameAt ρ "subject" (renameAt (renameResource ρ fact) "resourceId" fact)

def renamePermission (ρ : String → String) (fact : CborValue) : CborValue :=
  renameAt ρ "subject" (renameAt ρ "permissionSet" (renameAt ρ "target" fact))

def renameEvent (ρ : String → String) (decl : CborValue) : CborValue :=
  renameAt ρ "routine" (renameAt (renameEventId ρ) "eventId" decl)

/-- **The snapshot with every id replaced.** -/
def renameSnapshot (ρ : String → String) (snap : CborValue) : CborValue :=
  mapField "identities" (mapField "stableIds" (mapItems (mapText ρ))) <|
  mapField "contractFacts" (mapItems (renameAt ρ "stableId")) <|
  mapField "schemaFacts" (mapItems (renameAt ρ "stableId")) <|
  mapField "permissionFacts" (mapItems (renamePermission ρ)) <|
  mapField "eventDeclarations" (mapItems (renameEvent ρ)) <|
  mapField "capabilityFacts" (mapItems (renameCapability ρ)) <|
  mapField "coverage" (mapItems (renameAt ρ "subject")) snap

/-- The id an overlay puts in place of another. -/
def RenameOverlay.apply (overlay : RenameOverlay) (id : String) : String :=
  (IndexMap.get overlay.entries id).getD id

/-! ## 2. Well-formed snapshots and renames -/

/-- What the snapshot's writer promises of the facts: parameters are texts, an event id is a
publisher object, a name and a hash, and a kind or an operation is a word without a bar. -/
structure WellFormed (snap : CborValue) : Prop where
  parameters : ∀ f ∈ snapshotArray snap "contractFacts", ∀ ps, getArray f "parameters" = some ps →
    ∀ p ∈ ps, (asText p).isSome
  eventId : ∀ d ∈ snapshotArray snap "eventDeclarations",
    ∃ e, getStr d "eventId" = some e ∧ 3 ≤ (eventParts e).length
  operation : ∀ f ∈ snapshotArray snap "capabilityFacts",
    '|' ∉ ((getStr f "op").getD "").toList ∧ '|' ∉ ((getStr f "resourceKind").getD "").toList
  targetKind : ∀ f ∈ snapshotArray snap "permissionFacts",
    '|' ∉ ((getStr f "targetKind").getD "").toList

/-- An id inside the body of a fact. -/
inductive BodyId (snap : CborValue) : String → Prop where
  | resource {f r} : f ∈ snapshotArray snap "capabilityFacts" → getStr f "resourceId" = some r →
      BodyId snap r
  | eventResource {f r} : f ∈ snapshotArray snap "capabilityFacts" →
      getStr f "resourceId" = some r → getStr f "resourceKind" = some "event" →
      BodyId snap (publisherObject r)
  | target {f t} : f ∈ snapshotArray snap "permissionFacts" → getStr f "target" = some t →
      BodyId snap t
  | publisher {d e} : d ∈ snapshotArray snap "eventDeclarations" → getStr d "eventId" = some e →
      BodyId snap (publisherObject e)

/-- The overlay renames ids of the snapshot to fresh ones: none is empty, no new id is one the
snapshot holds in a body, and a new id, like every stable id, does not end in a colon. -/
structure Renames (ρ : String → String) (snap : CborValue) : Prop where
  nonempty : ρ "" = ""
  fresh : ∀ id, ρ id ≠ id → ¬BodyId snap (ρ id)
  shape : ∀ id, ρ id ≠ id → PairSplit.Clean ':' (ρ id).toList

/-- **No id in a fact's body is renamed**: not the resource of a capability fact, not the target of
a required permission, not the publisher object of a published event. -/
structure Untouched (ρ : String → String) (snap : CborValue) : Prop where
  resource : ∀ f ∈ snapshotArray snap "capabilityFacts", (getStr f "subject").isSome →
    ∀ r, getStr f "resourceId" = some r → renameResource ρ f r = r
  target : ∀ f ∈ snapshotArray snap "permissionFacts", getStr f "kind" = some "required" →
    (getStr f "subject").isSome → ∀ t, getStr f "target" = some t → ρ t = t
  publisher : ∀ d ∈ snapshotArray snap "eventDeclarations", getStr d "kind" = some "publisher" →
    (getStr d "routine").isSome → ∀ e, getStr d "eventId" = some e → renameEventId ρ e = e

/-! ## 3. Reading a renamed tree -/

theorem field_mapField (v : CborValue) (key k : String) (g : CborValue → CborValue) :
    field (mapField key g v) k = if k = key then (field v key).map g else field v k := by
  cases v with
  | map m => exact IndexMap.get_modify m key k g
  | _ => by_cases h : k = key <;> simp [mapField, field, h]

theorem field_mapField_ne {v : CborValue} {key k : String} (g : CborValue → CborValue)
    (h : k ≠ key) : field (mapField key g v) k = field v k := by
  rw [field_mapField, if_neg h]

theorem asText_mapText (ρ : String → String) (v : CborValue) :
    asText (mapText ρ v) = (asText v).map ρ := by
  cases v <;> rfl

theorem asArray_mapText (ρ : String → String) (v : CborValue) :
    asArray (mapText ρ v) = asArray v := by
  cases v <;> rfl

theorem asArray_mapItems (g : CborValue → CborValue) (v : CborValue) :
    asArray (mapItems g v) = (asArray v).map (List.map g) := by
  cases v <;> rfl

theorem getStr_renameAt_self (ρ : String → String) (v : CborValue) (key : String) :
    getStr (renameAt ρ key v) key = (getStr v key).map ρ := by
  unfold getStr renameAt
  rw [field_mapField, if_pos rfl]
  cases field v key with
  | none => rfl
  | some w => exact asText_mapText ρ w

theorem getStr_renameAt_ne {key k : String} (ρ : String → String) (v : CborValue) (h : k ≠ key) :
    getStr (renameAt ρ key v) k = getStr v k := by
  unfold getStr renameAt
  rw [field_mapField_ne _ h]

theorem getArray_renameAt (ρ : String → String) (v : CborValue) (key k : String) :
    getArray (renameAt ρ key v) k = getArray v k := by
  unfold getArray renameAt
  rw [field_mapField]
  by_cases h : k = key
  · rw [if_pos h, h]
    cases field v key with
    | none => rfl
    | some w => exact asArray_mapText ρ w
  · rw [if_neg h]

theorem snapshotArray_mapField_self (g : CborValue → CborValue) (v : CborValue) (key : String) :
    snapshotArray (mapField key (mapItems g) v) key = (snapshotArray v key).map g := by
  unfold snapshotArray getArray
  rw [field_mapField, if_pos rfl]
  cases field v key with
  | none => rfl
  | some w =>
    rw [Option.map_some, Option.bind_some, Option.bind_some, asArray_mapItems]
    cases asArray w <;> rfl

theorem snapshotArray_mapField_ne {key k : String} (g : CborValue → CborValue) (v : CborValue)
    (h : k ≠ key) : snapshotArray (mapField key g v) k = snapshotArray v k := by
  unfold snapshotArray getArray
  rw [field_mapField_ne _ h]

end AlSem.Diff
