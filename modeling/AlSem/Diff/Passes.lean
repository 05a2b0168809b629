/-
# The five passes

`gate/diff/passes.rs`: each pass goes over the indexes in insertion order, makes its findings and
sorts them by id.
-/
import AlSem.Diff.Indexes
import AlSem.Lib.PairSplit
import Mathlib.Data.Finset.Sort

namespace AlSem.Diff

open AlSem.Snapshot Text

/-! ## 1. Findings -/

/-- A finding about `subjectId`, named and traced by the indexes. -/
def makeFinding (P : Prims) (ix : DiffIndexes) (category : DiffCategory) (kind : DiffKind)
    (severity : Severity) (subjectId : String) (secondaryKey : Option String) (details : Details) :
    DiffFinding :=
  let origin := ix.originFor subjectId
  { id := computeDiffFingerprint P category kind subjectId secondaryKey
    category := category
    kind := kind
    severity := severity
    subject := ⟨subjectId, origin.oldOriginalStableId, origin.newStableId, ix.displayFor subjectId⟩
    comparisonCone := [subjectId]
    details := details
    coverageState := none }

/-- A `details` map with just `{kind}`. -/
def detailsKind (kind : DiffKind) : Details := [("kind", .text kind.asStr)]

def sortById (findings : List DiffFinding) : List DiffFinding :=
  findings.mergeSort fun a b => decide (a.id ≤ b.id)

/-! ## 2. ABI -/

def visibilityOrder : List String := ["local", "internal", "protected", "public"]

/-- The place in the order, none for another word: the `-1` of the source. -/
def visibilityIndex (v : String) : ℤ :=
  match visibilityOrder.idxOf? v with
  | some i => i
  | none => -1

def isNarrowed (oldV newV : String) : Bool :=
  decide (visibilityIndex oldV > visibilityIndex newV ∧ visibilityIndex newV ≥ 0)

def isProcedureLike (fact : CborValue) : Bool :=
  getStr fact "kind" == some "routine" || getStr fact "kind" == some "event-publisher"

def abiSeverity : DiffKind → Severity
  | .objectRemoved | .objectAccessibilityNarrowed | .procedureRemoved | .procedureSignatureChanged
  | .procedureVarDirectionChanged => .critical
  | .procedureObsoletionRegressed => .high
  | .procedureObsoletionProgressed | .objectAdded | .procedureAdded => .info
  | _ => .medium

def abiFinding (P : Prims) (ix : DiffIndexes) (kind : DiffKind) (subject : String)
    (details : Details) : DiffFinding :=
  makeFinding P ix .abi kind (abiSeverity kind) subject none details

def obsoletionRank : Option String → ℕ
  | some "Pending" => 1
  | some "Removed" => 2
  | _ => 0

def obsoletionDetails (kind : DiffKind) (oldObs newObs : Option String) : Details :=
  [("kind", .text kind.asStr)] ++ (oldObs.map fun o => ("oldObsoleteState", .text o)).toList ++
    (newObs.map fun n => ("newObsoleteState", .text n)).toList

/-- What both sides' facts of an ABI subject differ in: its visibility, its obsoletion and its
signature. -/
def abiChanges (P : Prims) (ix : DiffIndexes) (subject : String) (oldFact newFact : CborValue) :
    List DiffFinding :=
  let oldVis := (getStr oldFact "visibility").getD ""
  let newVis := (getStr newFact "visibility").getD ""
  let oldObs := getStr oldFact "obsoleteState"
  let newObs := getStr newFact "obsoleteState"
  let oldSig := (getStr oldFact "signatureFingerprint").getD ""
  let newSig := (getStr newFact "signatureFingerprint").getD ""
  (if isNarrowed oldVis newVis then
      [abiFinding P ix .objectAccessibilityNarrowed subject
        (detailsKind .objectAccessibilityNarrowed ++
          [("oldAccessibility", .text oldVis), ("newAccessibility", .text newVis)])]
    else []) ++
  (if obsoletionRank newObs > obsoletionRank oldObs then
      [abiFinding P ix .procedureObsoletionProgressed subject
        (obsoletionDetails .procedureObsoletionProgressed oldObs newObs)]
    else if obsoletionRank newObs < obsoletionRank oldObs then
      [abiFinding P ix .procedureObsoletionRegressed subject
        (obsoletionDetails .procedureObsoletionRegressed oldObs newObs)]
    else []) ++
  (if signatureChange P oldFact newFact = .breaking then
      [abiFinding P ix .procedureSignatureChanged subject
        (detailsKind .procedureSignatureChanged ++
          [("oldSignatureHash", .text oldSig), ("newSignatureHash", .text newSig)] ++
          parameterDetails oldFact newFact)]
    else [])

/-- The findings of one old contract. -/
def abiOld (P : Prims) (ix : DiffIndexes) (subject : String) (oldFact : CborValue) :
    List DiffFinding :=
  match IndexMap.get ix.new.contractsBySubject subject with
  | none =>
      if isAbiSurface oldFact then
        let removalKind := if isProcedureLike oldFact then .procedureRemoved else .objectRemoved
        [abiFinding P ix removalKind subject (detailsKind removalKind)]
      else []
  | some newFact =>
      if isAbiSurface oldFact then abiChanges P ix subject oldFact newFact
      else if isAbiSurface newFact then
        [abiFinding P ix .procedureAdded subject (detailsKind .procedureAdded)]
      else []

/-- The finding of one new contract the old side does not have. -/
def abiAdded (P : Prims) (ix : DiffIndexes) (subject : String) (newFact : CborValue) :
    List DiffFinding :=
  if IndexMap.containsKey ix.old.contractsBySubject subject || !isAbiSurface newFact then []
  else
    let addKind := if isProcedureLike newFact then .procedureAdded else .objectAdded
    [abiFinding P ix addKind subject (detailsKind addKind)]

def diffAbi (P : Prims) (ix : DiffIndexes) : List DiffFinding :=
  sortById (ix.old.contractsBySubject.flatMap (fun e => abiOld P ix e.1 e.2) ++
    ix.new.contractsBySubject.flatMap fun e => abiAdded P ix e.1 e.2)

/-! ## 3. Schema -/

def dataClassRank : String → ℕ
  | "SystemMetadata" => 0
  | "AccountData" => 1
  | "OrganizationIdentifiableInformation" => 2
  | "EndUserPseudonymousIdentifiers" => 3
  | "EndUserIdentifiableInformation" => 4
  | "CustomerContent" => 5
  | _ => 0

def schemaSeverity : DiffKind → Severity
  | .tableFieldRemoved | .tableFieldTypeNarrowed | .enumValueRemoved | .enumValueRenumbered =>
    .critical
  | .tableFieldDataClassificationTightened | .tableKeyRemoved => .high
  | .tableFieldTypeWidened => .low
  | .tableFieldDataClassificationRelaxed | .tableFieldAdded | .enumValueAdded | .tableKeyAdded =>
    .info
  | _ => .medium

def schemaFinding (P : Prims) (ix : DiffIndexes) (kind : DiffKind) (stableId : String)
    (details : Details) : DiffFinding :=
  makeFinding P ix .schema kind (schemaSeverity kind) stableId none details

def shapeDetails (kind : DiffKind) (oldFp newFp : String) : Details :=
  detailsKind kind ++ [("oldShapeFingerprint", .text oldFp), ("newShapeFingerprint", .text newFp)]

def dataClassDetails (kind : DiffKind) (oldDc newDc : String) : Details :=
  detailsKind kind ++
    [("oldDataClassification", .text oldDc), ("newDataClassification", .text newDc)]

/-- A field's data classification moved. -/
def dataClassChange (P : Prims) (ix : DiffIndexes) (stableId : String) (oldDc newDc : Option String) :
    List DiffFinding :=
  match oldDc, newDc with
  | some o, some n =>
      if o = n then []
      else if dataClassRank n > dataClassRank o then
        [schemaFinding P ix .tableFieldDataClassificationTightened stableId
          (dataClassDetails .tableFieldDataClassificationTightened o n)]
      else if dataClassRank n < dataClassRank o then
        [schemaFinding P ix .tableFieldDataClassificationRelaxed stableId
          (dataClassDetails .tableFieldDataClassificationRelaxed o n)]
      else []
  | _, _ => []

/-- What the first facts of both sides differ in. -/
def schemaChanges (P : Prims) (ix : DiffIndexes) (stableId : String) (oldFact newFact : CborValue) :
    List DiffFinding :=
  let oldKind := (getStr oldFact "kind").getD ""
  let oldFp := (getStr oldFact "shapeFingerprint").getD ""
  let newFp := (getStr newFact "shapeFingerprint").getD ""
  if oldKind = "field" then
    (if oldFp ≠ newFp then
      [schemaFinding P ix .tableFieldTypeNarrowed stableId
        (shapeDetails .tableFieldTypeNarrowed oldFp newFp)]
    else []) ++
    dataClassChange P ix stableId (getStr oldFact "dataClassification")
      (getStr newFact "dataClassification")
  else if (oldKind = "enum-value" ∨ oldKind = "key") ∧ oldFp ≠ newFp then
    let kind := if oldKind = "key" then .tableKeyFieldsChanged else .enumValueRenumbered
    [schemaFinding P ix kind stableId (shapeDetails kind oldFp newFp)]
  else []

/-- A schema fact only one side has, with the finding kinds of a field, a key and an enum value. -/
def schemaOneSided (P : Prims) (ix : DiffIndexes) (stableId : String) (fact : CborValue)
    (fieldKind keyKind enumKind : DiffKind) : List DiffFinding :=
  let k := (getStr fact "kind").getD ""
  if k = "field" then [schemaFinding P ix fieldKind stableId (detailsKind fieldKind)]
  else if k = "enum-value" ∨ k = "key" then
    let kind := if k = "key" then keyKind else enumKind
    [schemaFinding P ix kind stableId (detailsKind kind)]
  else []

/-- The findings of one old schema subject, by its first fact. -/
def schemaOld (P : Prims) (ix : DiffIndexes) (stableId : String) (oldFacts : List CborValue) :
    List DiffFinding :=
  match oldFacts.head? with
  | none => []
  | some oldFact =>
      match (IndexMap.get ix.new.schemaBySubject stableId).bind List.head? with
      | none =>
          schemaOneSided P ix stableId oldFact .tableFieldRemoved .tableKeyRemoved .enumValueRemoved
      | some newFact => schemaChanges P ix stableId oldFact newFact

def schemaAdded (P : Prims) (ix : DiffIndexes) (stableId : String) (newFacts : List CborValue) :
    List DiffFinding :=
  if IndexMap.containsKey ix.old.schemaBySubject stableId then []
  else
    match newFacts.head? with
    | none => []
    | some newFact =>
        schemaOneSided P ix stableId newFact .tableFieldAdded .tableKeyAdded .enumValueAdded

def diffSchema (P : Prims) (ix : DiffIndexes) : List DiffFinding :=
  sortById (ix.old.schemaBySubject.flatMap (fun e => schemaOld P ix e.1 e.2) ++
    ix.new.schemaBySubject.flatMap fun e => schemaAdded P ix e.1 e.2)

/-! ## 4. Events -/

def eventSeverity : DiffKind → Severity
  | .eventPublisherRemoved | .eventSubscriberInducedCapabilityGained => .medium
  | .eventPublisherAdded => .info
  | .eventSubscriberInducedCapabilityLost => .low
  | _ => .medium

/-- The severity of a kept publisher's signature finding with its parameter details, `none` when its
signature did not change.  The contract facts are looked up by the new declaration's routine. -/
def publisherSignatureSeverity (P : Prims) (ix : DiffIndexes) (oldDecl newDecl : CborValue) :
    Option (Severity × Details) :=
  let routine := (getStr newDecl "routine").getD ""
  let (change, extra) :=
    match IndexMap.get ix.old.contractsBySubject routine,
        IndexMap.get ix.new.contractsBySubject routine with
    | some old, some new => (signatureChange P old new, parameterDetails old new)
    | _, _ => (SignatureChange.unchanged, [])
  match change with
  | .nonBreakingAppend => some (.low, extra)
  | .breaking => some (.critical, extra)
  | .unchanged =>
      if getStr oldDecl "eventId" ≠ getStr newDecl "eventId" then some (.critical, extra) else none

structure EventIdentity where
  publisherObject : String
  eventName : String
  deriving DecidableEq

/-- The publisher object and the name of an event id: all but its last two parts, and the one before
the last. -/
def parseEventIdentity (eventId : String) : EventIdentity :=
  let parts := PairSplit.split ':' eventId.toList
  if parts.length < 3 then
    ⟨String.ofList (parts[0]?.getD []), String.ofList (parts[1]?.getD [])⟩
  else
    ⟨String.ofList (PairSplit.join ':' (parts.take (parts.length - 2))),
      String.ofList (parts[parts.length - 2]?.getD [])⟩

/-- `{publisherObject}::{eventName}` of a declaration's event. -/
def publisherIdentityKey (decl : CborValue) : String :=
  let p := parseEventIdentity ((getStr decl "eventId").getD "")
  p.publisherObject ++ "::" ++ p.eventName

def eventFinding (P : Prims) (ix : DiffIndexes) (kind : DiffKind) (severity : Severity)
    (subjectId secondaryKey : String) (details : Details) : DiffFinding :=
  makeFinding P ix .events kind severity subjectId (some secondaryKey) details

def eventDetails (kind : DiffKind) (p : EventIdentity) (oldEventId newEventId : Option String) :
    Details :=
  [("kind", .text kind.asStr), ("publisherObject", .text p.publisherObject),
    ("eventName", .text p.eventName)] ++
    (oldEventId.map fun o => ("oldEventId", .text o)).toList ++
    (newEventId.map fun n => ("newEventId", .text n)).toList

/-- The declarations of one kind, in index order. -/
def declsOf (events : IndexMap String (List CborValue)) (kind : String) : List CborValue :=
  (events.flatMap fun e => e.2).filter fun d => getStr d "kind" == some kind

/-- The publishers by identity, the last of an identity. -/
def publishersOf (events : IndexMap String (List CborValue)) : IndexMap String CborValue :=
  IndexMap.ofEntries ((declsOf events "publisher").map fun d => (publisherIdentityKey d, d))

/-- The subscribers by the identity of their event. -/
def subsByEvent (events : IndexMap String (List CborValue)) : IndexMap String (List CborValue) :=
  IndexMap.groupEntries ((declsOf events "subscriber").map fun d => (publisherIdentityKey d, d))

/-- The kept publishers whose signature changed. -/
def changedPublishers (P : Prims) (ix : DiffIndexes) (olds news : IndexMap String CborValue) :
    IndexMap String (Severity × Details) :=
  olds.filterMap fun e =>
    (IndexMap.get news e.1).bind fun newDecl =>
      (publisherSignatureSeverity P ix e.2 newDecl).map fun s => (e.1, s)

/-- The finding of one old publisher: gone, or with another signature. -/
def publisherOld (P : Prims) (ix : DiffIndexes) (news : IndexMap String CborValue)
    (changed : IndexMap String (Severity × Details)) (key : String) (oldDecl : CborValue) :
    List DiffFinding :=
  let oldId := (getStr oldDecl "eventId").getD ""
  let parsed := parseEventIdentity oldId
  match IndexMap.get news key with
  | none =>
      let routine := ix.normalizeOld ((getStr oldDecl "routine").getD "")
      [eventFinding P ix .eventPublisherRemoved (eventSeverity .eventPublisherRemoved) routine
        parsed.eventName (eventDetails .eventPublisherRemoved parsed (some oldId) none)]
  | some newDecl =>
      let newId := (getStr newDecl "eventId").getD ""
      match IndexMap.get changed key with
      | none => []
      | some (severity, extra) =>
          [eventFinding P ix .eventPublisherSignatureChanged severity
            ((getStr newDecl "routine").getD "") parsed.eventName
            (eventDetails .eventPublisherSignatureChanged parsed (some oldId) (some newId) ++ extra)]

/-- The finding of one new publisher the old side does not have. -/
def publisherAdded (P : Prims) (ix : DiffIndexes) (olds : IndexMap String CborValue) (key : String)
    (newDecl : CborValue) : List DiffFinding :=
  if IndexMap.containsKey olds key then []
  else
    let newId := (getStr newDecl "eventId").getD ""
    let parsed := parseEventIdentity newId
    [eventFinding P ix .eventPublisherAdded (eventSeverity .eventPublisherAdded)
      ((getStr newDecl "routine").getD "") parsed.eventName
      (eventDetails .eventPublisherAdded parsed none (some newId))]

/-- The contract finding of a changed publisher that has subscribers, with its key. -/
def contractFinding (P : Prims) (ix : DiffIndexes) (news : IndexMap String CborValue)
    (changed : IndexMap String (Severity × Details))
    (oldSubs newSubs : IndexMap String (List CborValue)) (key : String) (oldDecl : CborValue) :
    Option (String × DiffFinding) := do
  let newDecl ← IndexMap.get news key
  let oldId := (getStr oldDecl "eventId").getD ""
  let newId := (getStr newDecl "eventId").getD ""
  let (severity, extra) ← IndexMap.get changed key
  if ((IndexMap.get oldSubs key).getD []).length + ((IndexMap.get newSubs key).getD []).length > 0
  then
    let parsed := parseEventIdentity newId
    some (key, eventFinding P ix .eventContractChangedWithAffectedSubscribers severity
      ((getStr newDecl "routine").getD "") parsed.eventName
      (eventDetails .eventContractChangedWithAffectedSubscribers parsed (some oldId) (some newId) ++
        extra))
  else none

/-- The first text under a key of the details, empty when there is none. -/
def detailStr (details : Details) (key : String) : String :=
  ((details.findSome? fun e => if e.1 = key then asText e.2 else none)).getD ""

/-- A generic signature finding whose event has a contract finding. -/
def isSuppressed (suppressKeys : List String) (f : DiffFinding) : Bool :=
  f.kind == .eventPublisherSignatureChanged &&
    suppressKeys.contains
      (detailStr f.details "publisherObject" ++ "::" ++ detailStr f.details "eventName")

/-- The write operations on a table of one capability fact. -/
def writeOf (f : CborValue) : Option (String × String) :=
  let op := (getStr f "op").getD ""
  if getStr f "resourceKind" == some "table" && ["insert", "modify", "delete"].contains op then
    (getStr f "resourceId").map fun rid => (rid, op)
  else none

/-- The write operations of a subscriber set's capability facts, table by table.  `keyOf` maps a
declaration's routine to the key the facts are under. -/
def writesOf (subs : Option (List CborValue)) (caps : IndexMap String (List CborValue))
    (keyOf : String → String) : IndexMap String (Finset String) :=
  ((subs.getD []).flatMap fun s =>
    ((IndexMap.get caps (keyOf ((getStr s "routine").getD ""))).getD []).filterMap writeOf).foldl
    (fun m w => IndexMap.insert m w.1 (insert w.2 ((IndexMap.get m w.1).getD ∅))) []

/-- The writes of `here` that are not in `there`, each as a finding of `kind`. -/
def inducedDelta (P : Prims) (ix : DiffIndexes) (kind : DiffKind) (subject publisherObject eventName :
    String) (here there : IndexMap String (Finset String)) : List DiffFinding :=
  here.flatMap fun e =>
    ((e.2.sort (· ≤ ·)).filter fun op => !decide (op ∈ (IndexMap.get there e.1).getD ∅)).map fun op =>
      eventFinding P ix kind (eventSeverity kind) subject (eventName ++ "|" ++ e.1 ++ "|" ++ op)
        [("kind", .text kind.asStr), ("publisherObject", .text publisherObject),
          ("eventName", .text eventName)]

/-- Whom the delta of an event is about: the new publisher's routine, else the old one's. -/
def inducedSubject (ix : DiffIndexes) (olds news : IndexMap String CborValue) (key : String) :
    Option String :=
  match IndexMap.get news key, IndexMap.get olds key with
  | some d, _ => getStr d "routine"
  | none, some d => (getStr d "routine").map ix.normalizeOld
  | none, none => none

/-- The subscriber-induced capability delta of one event. -/
def inducedFindings (P : Prims) (ix : DiffIndexes) (olds news : IndexMap String CborValue)
    (oldSubs newSubs : IndexMap String (List CborValue)) (key : String) : List DiffFinding :=
  let oldWrites :=
    writesOf (IndexMap.get oldSubs key) ix.old.capabilityFactsBySubject ix.normalizeOld
  let newWrites := writesOf (IndexMap.get newSubs key) ix.new.capabilityFactsBySubject id
  let publisherObject := String.ofList (PairSplit.splitFirst ':' key.toList).1
  let eventName := String.ofList (PairSplit.splitFirst ':' key.toList).2
  match inducedSubject ix olds news key with
  | none => []
  | some subject =>
      inducedDelta P ix .eventSubscriberInducedCapabilityGained subject publisherObject eventName
        newWrites oldWrites ++
      inducedDelta P ix .eventSubscriberInducedCapabilityLost subject publisherObject eventName
        oldWrites newWrites

/-- The keys of both maps, the first one's first. -/
def unionKeys {α β : Type} (m : IndexMap String α) (n : IndexMap String β) : List String :=
  m.map Prod.fst ++ ((n.map Prod.fst).filter fun k => !IndexMap.containsKey m k)

def diffEvents (P : Prims) (ix : DiffIndexes) : List DiffFinding :=
  let olds := publishersOf ix.old.eventsBySubject
  let news := publishersOf ix.new.eventsBySubject
  let changed := changedPublishers P ix olds news
  let generic := olds.flatMap (fun e => publisherOld P ix news changed e.1 e.2) ++
    news.flatMap fun e => publisherAdded P ix olds e.1 e.2
  let oldSubs := subsByEvent ix.old.eventsBySubject
  let newSubs := subsByEvent ix.new.eventsBySubject
  let contract := olds.filterMap fun e => contractFinding P ix news changed oldSubs newSubs e.1 e.2
  let out := generic.filter (fun f => !isSuppressed (contract.map Prod.fst) f) ++
    contract.map Prod.snd
  sortById (out ++ (unionKeys oldSubs newSubs).flatMap
    (inducedFindings P ix olds news oldSubs newSubs))

/-! ## 5. Capabilities -/

def capabilitySeverity : DiffKind → Severity
  | .capabilityGainedCommit | .capabilityGainedDynamicDispatch => .high
  | .capabilityGainedWrite | .capabilityGainedRead | .capabilityGainedHttp
  | .capabilityGainedTelemetry | .capabilityGainedIsolatedStorage | .capabilityGainedFile
  | .capabilityGainedEventPublish | .capabilityLost => .medium
  | .capabilityLostUnderCoverage => .low
  | _ => .medium

/-- The gained kind of a new capability fact, `none` when it is not a tracked gain. -/
def gainedKindFor (fact : CborValue) : Option DiffKind :=
  let kind := (getStr fact "resourceKind").getD ""
  let op := (getStr fact "op").getD ""
  if kind = "table" ∧ op = "read" then some .capabilityGainedRead
  else if kind = "table" ∧ op ∈ ["insert", "modify", "delete"] then some .capabilityGainedWrite
  else if kind = "transaction" ∧ op = "commit" then some .capabilityGainedCommit
  else if kind = "http" then some .capabilityGainedHttp
  else if kind = "telemetry" then some .capabilityGainedTelemetry
  else if kind = "isolated-storage" then some .capabilityGainedIsolatedStorage
  else if kind = "file" then some .capabilityGainedFile
  else if kind = "event" ∧ op = "publish" then some .capabilityGainedEventPublish
  else if kind ∈ ["codeunit", "page", "report"] ∧ op = "execute" ∧
      ((field fact "extra").bind fun extra => getStr extra "kind") = some "dispatch" ∧
      getStr fact "resourceId" = none then
    some .capabilityGainedDynamicDispatch
  else none

/-- `op|resourceKind|resourceId`. -/
def capFactKey (fact : CborValue) : String :=
  (getStr fact "op").getD "" ++ "|" ++ (getStr fact "resourceKind").getD "" ++ "|" ++
    (getStr fact "resourceId").getD ""

def capDetails (kind : DiffKind) (fact : CborValue) : Details :=
  [("kind", .text kind.asStr), ("resourceKind", .text ((getStr fact "resourceKind").getD ""))] ++
    ((getStr fact "resourceId").map fun rid => ("resourceId", .text rid)).toList ++
    [("op", .text ((getStr fact "op").getD ""))]

def capFinding (P : Prims) (ix : DiffIndexes) (kind : DiffKind) (subject key : String)
    (fact : CborValue) : DiffFinding :=
  makeFinding P ix .capabilities kind (capabilitySeverity kind) subject (some key)
    (capDetails kind fact)

/-- A subject's capability facts by key, the last of a key. -/
def capsByKey (facts : List CborValue) : IndexMap String CborValue :=
  IndexMap.ofEntries (facts.map fun f => (capFactKey f, f))

/-- The gains and losses of one subject. -/
def capabilityDelta (P : Prims) (ix : DiffIndexes) (subject : String) : List DiffFinding :=
  let oldByKey := capsByKey ((IndexMap.get ix.old.capabilityFactsBySubject subject).getD [])
  let newByKey := capsByKey ((IndexMap.get ix.new.capabilityFactsBySubject subject).getD [])
  newByKey.flatMap (fun e =>
    if IndexMap.containsKey oldByKey e.1 then []
    else ((gainedKindFor e.2).map fun kind => capFinding P ix kind subject e.1 e.2).toList) ++
  oldByKey.flatMap fun e =>
    if IndexMap.containsKey newByKey e.1 then []
    else [capFinding P ix .capabilityLost subject e.1 e.2]

def diffCapabilities (P : Prims) (ix : DiffIndexes) : List DiffFinding :=
  sortById ((unionKeys ix.old.capabilityFactsBySubject ix.new.capabilityFactsBySubject).flatMap
    (capabilityDelta P ix))

/-! ## 6. Permissions -/

def permissionSeverity : DiffKind → Severity
  | .permissionRightsExpanded | .permissionTargetAdded => .high
  | .permissionRightsContracted | .permissionTargetRemoved => .low
  | _ => .medium

def rightsOf (fact : CborValue) : List String :=
  ((getArray fact "rights").getD []).filterMap asText

def isExpansion (oldRights newRights : List String) : Bool :=
  if newRights.toFinset.card ≤ oldRights.toFinset.card then false
  else decide (oldRights.toFinset ⊆ newRights.toFinset)

def isContraction (oldRights newRights : List String) : Bool :=
  if oldRights.toFinset.card ≤ newRights.toFinset.card then false
  else decide (newRights.toFinset ⊆ oldRights.toFinset)

def permDetails (kind : DiffKind) (targetKind targetId : String)
    (oldRights newRights : Option (List String)) : Details :=
  [("kind", .text kind.asStr), ("targetKind", .text targetKind), ("targetId", .text targetId)] ++
    (oldRights.map fun o => ("oldRights", .array (o.map CborValue.text))).toList ++
    (newRights.map fun n => ("newRights", .array (n.map CborValue.text))).toList

/-- `targetKind|target` of a permission fact. -/
def permKey (f : CborValue) : String :=
  (getStr f "targetKind").getD "" ++ "|" ++ (getStr f "target").getD ""

/-- The rights a subject's required permissions ask for, target by target, the last of a target. -/
def rightsByTarget (facts : List CborValue) : IndexMap String (List String) :=
  IndexMap.ofEntries ((facts.filter fun f => getStr f "kind" == some "required").map fun f =>
    (permKey f, rightsOf f))

/-- A finding about one target; its kind and id are what is before and after the key's first bar. -/
def permFinding (P : Prims) (ix : DiffIndexes) (kind : DiffKind) (subject key : String)
    (oldRights newRights : Option (List String)) : DiffFinding :=
  let sep := (key.toList.findIdx? (· == '|')).getD 0
  makeFinding P ix .permissions kind (permissionSeverity kind) subject (some key)
    (permDetails kind (String.ofList (key.toList.take sep))
      (String.ofList (key.toList.drop (sep + 1))) oldRights newRights)

/-- A removed target, or one with other rights; a mixed change counts as an expansion. -/
def permOld (P : Prims) (ix : DiffIndexes) (subject : String)
    (newByTarget : IndexMap String (List String)) (key : String) (oldRights : List String) :
    List DiffFinding :=
  match IndexMap.get newByTarget key with
  | none => [permFinding P ix .permissionTargetRemoved subject key (some oldRights) none]
  | some newRights =>
      if oldRights.toFinset = newRights.toFinset then []
      else
        let kind :=
          if isExpansion oldRights newRights then .permissionRightsExpanded
          else if isContraction oldRights newRights then .permissionRightsContracted
          else .permissionRightsExpanded
        [permFinding P ix kind subject key (some oldRights) (some newRights)]

/-- The permission findings of one subject. -/
def permissionDelta (P : Prims) (ix : DiffIndexes) (subject : String) : List DiffFinding :=
  let oldByTarget := rightsByTarget ((IndexMap.get ix.old.permissionsBySubject subject).getD [])
  let newByTarget := rightsByTarget ((IndexMap.get ix.new.permissionsBySubject subject).getD [])
  oldByTarget.flatMap (fun e => permOld P ix subject newByTarget e.1 e.2) ++
  newByTarget.flatMap fun e =>
    if IndexMap.containsKey oldByTarget e.1 then []
    else [permFinding P ix .permissionTargetAdded subject e.1 none (some e.2)]

def diffPermissions (P : Prims) (ix : DiffIndexes) : List DiffFinding :=
  sortById ((unionKeys ix.old.permissionsBySubject ix.new.permissionsBySubject).flatMap
    (permissionDelta P ix))

end AlSem.Diff
