/-
# What a snapshot diff reports

`gate/diff/mod.rs` and `fingerprint.rs`: the categories, kinds and severities of a finding, the
finding itself with its id, and the reads of a snapshot's tree every pass shares.  A snapshot is the
deserialized tree itself, read by key.

The hash of an id and the lower casing of a name are other libraries': `Prims` stands for them.
-/
import AlSem.Lib.IndexMap
import AlSem.Lib.Text
import AlSem.Snapshot.Cbor

namespace AlSem.Diff

open AlSem.Snapshot

/-! ## 1. Reading a tree by key -/

/-- `m.get(key)` of a map, nothing of another value. -/
def field (v : CborValue) (key : String) : Option CborValue :=
  match v with
  | .map m => IndexMap.get m key
  | _ => none

/-- The text of a value that is one. -/
def asText : CborValue → Option String
  | .text s => some s
  | _ => none

/-- The items of a value that is an array. -/
def asArray : CborValue → Option (List CborValue)
  | .array a => some a
  | _ => none

/-- Read a string field off a map. -/
def getStr (v : CborValue) (key : String) : Option String := (field v key).bind asText

/-- Read an array field off a map. -/
def getArray (v : CborValue) (key : String) : Option (List CborValue) := (field v key).bind asArray

/-- Read a top-level array (snapshot fact list), defaulting to empty. -/
def snapshotArray (snap : CborValue) (key : String) : List CborValue := (getArray snap key).getD []

/-- `identities.<name>` as an array, empty when absent. -/
def identitiesField (snap : CborValue) (name : String) : List CborValue :=
  match field snap "identities" with
  | some ident => (getArray ident name).getD []
  | none => []

/-! ## 2. Findings -/

inductive DiffCategory where
  | abi | schema | events | capabilities | permissions
  deriving DecidableEq, Repr

def DiffCategory.asStr : DiffCategory → String
  | .abi => "abi"
  | .schema => "schema"
  | .events => "events"
  | .capabilities => "capabilities"
  | .permissions => "permissions"

inductive DiffKind where
  | objectRemoved | objectAccessibilityNarrowed | procedureRemoved | procedureSignatureChanged
  | procedureVarDirectionChanged | procedureObsoletionRegressed | procedureObsoletionProgressed
  | objectAdded | procedureAdded
  | tableFieldRemoved | tableFieldTypeNarrowed | tableFieldTypeWidened
  | tableFieldDataClassificationTightened | tableFieldDataClassificationRelaxed | enumValueRemoved
  | enumValueRenumbered | tableFieldAdded | enumValueAdded | tableKeyAdded | tableKeyRemoved
  | tableKeyFieldsChanged
  | eventPublisherRemoved | eventPublisherSignatureChanged | eventPublisherAdded
  | eventSubscriberInducedCapabilityGained | eventSubscriberInducedCapabilityLost
  | eventContractChangedWithAffectedSubscribers
  | capabilityGainedWrite | capabilityGainedRead | capabilityGainedCommit | capabilityGainedHttp
  | capabilityGainedTelemetry | capabilityGainedIsolatedStorage | capabilityGainedFile
  | capabilityGainedDynamicDispatch | capabilityGainedEventPublish | capabilityLost
  | capabilityLostUnderCoverage
  | permissionRightsExpanded | permissionRightsContracted | permissionTargetAdded
  | permissionTargetRemoved
  deriving DecidableEq, Repr

def DiffKind.asStr : DiffKind → String
  | .objectRemoved => "object-removed"
  | .objectAccessibilityNarrowed => "object-accessibility-narrowed"
  | .procedureRemoved => "procedure-removed"
  | .procedureSignatureChanged => "procedure-signature-changed"
  | .procedureVarDirectionChanged => "procedure-var-direction-changed"
  | .procedureObsoletionRegressed => "procedure-obsoletion-regressed"
  | .procedureObsoletionProgressed => "procedure-obsoletion-progressed"
  | .objectAdded => "object-added"
  | .procedureAdded => "procedure-added"
  | .tableFieldRemoved => "table-field-removed"
  | .tableFieldTypeNarrowed => "table-field-type-narrowed"
  | .tableFieldTypeWidened => "table-field-type-widened"
  | .tableFieldDataClassificationTightened => "table-field-data-classification-tightened"
  | .tableFieldDataClassificationRelaxed => "table-field-data-classification-relaxed"
  | .enumValueRemoved => "enum-value-removed"
  | .enumValueRenumbered => "enum-value-renumbered"
  | .tableFieldAdded => "table-field-added"
  | .enumValueAdded => "enum-value-added"
  | .tableKeyAdded => "table-key-added"
  | .tableKeyRemoved => "table-key-removed"
  | .tableKeyFieldsChanged => "table-key-fields-changed"
  | .eventPublisherRemoved => "event-publisher-removed"
  | .eventPublisherSignatureChanged => "event-publisher-signature-changed"
  | .eventPublisherAdded => "event-publisher-added"
  | .eventSubscriberInducedCapabilityGained => "event-subscriber-induced-capability-gained"
  | .eventSubscriberInducedCapabilityLost => "event-subscriber-induced-capability-lost"
  | .eventContractChangedWithAffectedSubscribers =>
    "event-contract-changed-with-affected-subscribers"
  | .capabilityGainedWrite => "capability-gained-write"
  | .capabilityGainedRead => "capability-gained-read"
  | .capabilityGainedCommit => "capability-gained-commit"
  | .capabilityGainedHttp => "capability-gained-http"
  | .capabilityGainedTelemetry => "capability-gained-telemetry"
  | .capabilityGainedIsolatedStorage => "capability-gained-isolated-storage"
  | .capabilityGainedFile => "capability-gained-file"
  | .capabilityGainedDynamicDispatch => "capability-gained-dynamic-dispatch"
  | .capabilityGainedEventPublish => "capability-gained-event-publish"
  | .capabilityLost => "capability-lost"
  | .capabilityLostUnderCoverage => "capability-lost-under-coverage"
  | .permissionRightsExpanded => "permission-rights-expanded"
  | .permissionRightsContracted => "permission-rights-contracted"
  | .permissionTargetAdded => "permission-target-added"
  | .permissionTargetRemoved => "permission-target-removed"

inductive Severity where
  | critical | high | medium | low | info
  deriving DecidableEq, Repr

/-- Severity sort rank. -/
def Severity.rank : Severity → ℕ
  | .critical => 0
  | .high => 1
  | .medium => 2
  | .low => 3
  | .info => 4

/-- The details of a finding, a diagnostic's fields: ordered key/value pairs. -/
abbrev Details := List (String × CborValue)

/-- The subject of a finding, with the slots behind a renderer's "renamed from" note. -/
structure DiffSubject where
  normalizedStableId : String
  oldOriginalStableId : Option String
  newStableId : Option String
  displayName : String

/-- A single finding; `coverageState` is attached by the coverage policy. -/
structure DiffFinding where
  id : String
  category : DiffCategory
  kind : DiffKind
  severity : Severity
  subject : DiffSubject
  comparisonCone : List String
  details : Details
  coverageState : Option (String × String)

/-- A preflight, rename or policy diagnostic. -/
structure DiffDiagnostic where
  kind : String
  fields : Details

/-- The code of other libraries: SHA-256 as 64 lower-case hex digits, and Unicode lower casing. -/
structure Prims where
  sha256Hex : String → String
  toLowercase : String → String

/-- `category|kind|normalizedStableId|secondaryKey` hashed, truncated to 16 hex digits. -/
def computeDiffFingerprint (P : Prims) (category : DiffCategory) (kind : DiffKind)
    (normalizedStableId : String) (secondaryKey : Option String) : String :=
  let payload := category.asStr ++ "|" ++ kind.asStr ++ "|" ++ normalizedStableId ++ "|" ++
    secondaryKey.getD ""
  String.ofList ((P.sha256Hex payload).toList.take 16)

inductive CoveragePolicy where
  | loose | strict
  deriving DecidableEq, Repr

/-- The diff summary block. -/
structure DiffSummary where
  findingsByCategory : List (DiffCategory × ℕ)
  findingsBySeverity : List ℕ
  coverageIncompleteCones : ℕ
  renamesApplied : ℕ

structure DiffEngineResult where
  findings : List DiffFinding
  diagnostics : List DiffDiagnostic
  summary : DiffSummary
  fatal : Bool

end AlSem.Diff
