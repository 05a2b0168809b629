/-
# The indexes of a diff

`gate/diff/indexes.rs`: each snapshot's facts by their subject, with the display names and the
origins of the subjects.  The old side's subjects go through the rename table, the new side's do
not; the facts themselves stay as they are.
-/
import AlSem.Diff.Renames

namespace AlSem.Diff

open AlSem.Snapshot

/-! ## 1. Subjects -/

/-- Origin tracking for one normalized subject id. -/
structure SubjectOrigin where
  oldOriginalStableId : Option String
  newStableId : Option String

/-- The primary subject id of a permission fact: declared → permissionSet, required → subject. -/
def permissionFactSubject (fact : CborValue) : Option String :=
  match getStr fact "kind" with
  | some "required" => getStr fact "subject"
  | _ => getStr fact "permissionSet"

/-- The fact arrays the indexes key by a field of each fact, but the permissions. -/
def subjectFields : List (String × String) :=
  [("contractFacts", "stableId"), ("schemaFacts", "stableId"), ("eventDeclarations", "routine"),
    ("capabilityFacts", "subject"), ("coverage", "subject")]

/-- The ids a snapshot holds: every identity row plus every fact subject. -/
def liveIds (snap : CborValue) (identityIds : List CborValue) : List String :=
  identityIds.filterMap asText ++
    subjectFields.flatMap (fun p => (snapshotArray snap p.1).filterMap fun f => getStr f p.2) ++
    (snapshotArray snap "permissionFacts").filterMap permissionFactSubject

/-! ## 2. Facts by subject -/

/-- The facts that have a subject, with its key. -/
def keyed (subject : CborValue → Option String) (norm : String → String) (facts : List CborValue) :
    List (String × CborValue) :=
  facts.filterMap fun f => (subject f).map fun s => (norm s, f)

/-- One fact a subject: the last. -/
def lastBySubject (subject : CborValue → Option String) (norm : String → String)
    (facts : List CborValue) : IndexMap String CborValue :=
  IndexMap.ofEntries (keyed subject norm facts)

/-- Every fact of a subject, in order. -/
def allBySubject (subject : CborValue → Option String) (norm : String → String)
    (facts : List CborValue) : IndexMap String (List CborValue) :=
  IndexMap.groupEntries (keyed subject norm facts)

/-- One side of the indexes. -/
structure SideIndexes where
  contractsBySubject : IndexMap String CborValue
  schemaBySubject : IndexMap String (List CborValue)
  permissionsBySubject : IndexMap String (List CborValue)
  eventsBySubject : IndexMap String (List CborValue)
  capabilityFactsBySubject : IndexMap String (List CborValue)
  coverageBySubject : IndexMap String CborValue

/-- The facts of a snapshot by subject, each subject through `norm`. -/
def sideIndexes (snap : CborValue) (norm : String → String) : SideIndexes where
  contractsBySubject :=
    lastBySubject (getStr · "stableId") norm (snapshotArray snap "contractFacts")
  schemaBySubject := allBySubject (getStr · "stableId") norm (snapshotArray snap "schemaFacts")
  permissionsBySubject :=
    allBySubject permissionFactSubject norm (snapshotArray snap "permissionFacts")
  eventsBySubject := allBySubject (getStr · "routine") norm (snapshotArray snap "eventDeclarations")
  capabilityFactsBySubject :=
    allBySubject (getStr · "subject") norm (snapshotArray snap "capabilityFacts")
  coverageBySubject := lastBySubject (getStr · "subject") norm (snapshotArray snap "coverage")

/-! ## 3. Names and origins -/

/-- The identity rows with a non-empty id, each with its display name. -/
def identityRows (snap : CborValue) : List (String × String) :=
  let names := identitiesField snap "displayNames"
  ((identitiesField snap "stableIds").zipIdx).filterMap fun p =>
    let id := (asText p.1).getD ""
    if id = "" then none else some (id, ((names[p.2]?).bind asText).getD "")

/-- The display names of a side: its identity rows, then the names of its schema facts. -/
def displayByStableId (snap : CborValue) (norm : String → String) : IndexMap String String :=
  let byRow := IndexMap.ofEntries ((identityRows snap).map fun r => (norm r.1, r.2))
  (snapshotArray snap "schemaFacts").foldl (fun m fact =>
    match getStr fact "stableId", getStr fact "name" with
    | some sid, some name => IndexMap.insertNew m (norm sid) name
    | _, _ => m) byRow

/-- Where each subject comes from. -/
def originByNormalized (oldSnap newSnap : CborValue) (table : RenameTable) :
    IndexMap String SubjectOrigin :=
  let olds : IndexMap String SubjectOrigin := IndexMap.ofEntries ((identityRows oldSnap).map fun r =>
    let renameApplied :=
      match IndexMap.get table r.1 with
      | some e => !e.auto
      | none => false
    (normalize r.1 table, ⟨if renameApplied then some r.1 else none, none⟩))
  (identityRows newSnap).foldl (fun m r =>
    match IndexMap.get m r.1 with
    | some origin => IndexMap.insert m r.1 { origin with newStableId := some r.1 }
    | none => IndexMap.insert m r.1 ⟨none, some r.1⟩) olds

/-! ## 4. The indexes -/

structure DiffIndexes where
  oldDisplayByStableId : IndexMap String String
  newDisplayByStableId : IndexMap String String
  originByNormalized : IndexMap String SubjectOrigin
  old : SideIndexes
  new : SideIndexes
  renameDiagnostics : List DiffDiagnostic
  renameTable : RenameTable

/-- The old side keyed through the rename table, the new side verbatim. -/
def buildDiffIndexes (oldSnap newSnap : CborValue) (table : RenameTable) : DiffIndexes where
  oldDisplayByStableId := displayByStableId oldSnap (normalize · table)
  newDisplayByStableId := displayByStableId newSnap id
  originByNormalized := originByNormalized oldSnap newSnap table
  old := sideIndexes oldSnap (normalize · table)
  new := sideIndexes newSnap id
  renameDiagnostics := validateOverlayAgainstSnapshots table
    (liveIds oldSnap (identitiesField oldSnap "stableIds"))
    (liveIds newSnap (identitiesField newSnap "stableIds"))
  renameTable := table

/-- The display name for a normalized subject id: new, else old, else the id. -/
def DiffIndexes.displayFor (ix : DiffIndexes) (subjectId : String) : String :=
  ((IndexMap.get ix.newDisplayByStableId subjectId).orElse fun _ =>
    IndexMap.get ix.oldDisplayByStableId subjectId).getD subjectId

/-- An old-side id read from a fact body, normalized the way the index keys are. -/
def DiffIndexes.normalizeOld (ix : DiffIndexes) (id : String) : String :=
  normalize id ix.renameTable

/-- The origin of a normalized subject. -/
def DiffIndexes.originFor (ix : DiffIndexes) (subjectId : String) : SubjectOrigin :=
  (IndexMap.get ix.originByNormalized subjectId).getD ⟨none, none⟩

end AlSem.Diff
