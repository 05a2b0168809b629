/-
# The diff engine

`gate/diff/{preflight,policy,mod}.rs`: preflight, renames, indexes, the five passes, the coverage
policy, the sort and the summary.
-/
import AlSem.Diff.Passes

namespace AlSem.Diff

open AlSem.Snapshot Text

/-! ## 1. Preflight -/

/-- The snapshot's `schemaVersion` as an integer. -/
def schemaVersion (snap : CborValue) : Option ℤ :=
  match field snap "schemaVersion" with
  | some (.int n) => some n
  | _ => none

/-- The primary app guid: the `apps` row whose `role` is `primary`. -/
def primaryAppId (snap : CborValue) : Option String := do
  let apps ← getArray snap "apps"
  let app ← apps.find? fun a => getStr a "role" == some "primary"
  getStr app "appGuid"

/-- A diagnostic of two differing values. -/
def mismatch (kind : String) (fields : Details) : DiffDiagnostic :=
  ⟨kind, ("kind", .text kind) :: fields⟩

/-- The diagnostics of two snapshots that do not belong together, each with whether it is fatal. -/
def runPreflight (oldSnap newSnap : CborValue) (policy : CoveragePolicy) :
    List (DiffDiagnostic × Bool) :=
  let oldSv := schemaVersion oldSnap
  let newSv := schemaVersion newSnap
  let oldU := (getStr oldSnap "analysisUniverse").getD ""
  let newU := (getStr newSnap "analysisUniverse").getD ""
  let oldAv := (getStr oldSnap "alsemVersion").getD ""
  let newAv := (getStr newSnap "alsemVersion").getD ""
  (if oldSv = newSv then []
    else [(mismatch "schema-version-mismatch"
      [("old", .int (oldSv.getD 0)), ("new", .int (newSv.getD 0))], true)]) ++
  (if oldU = newU then []
    else [(mismatch "analysis-universe-mismatch" [("old", .text oldU), ("new", .text newU)], true)]) ++
  (if oldAv = newAv then []
    else
      let severity := if policy = .strict then "error" else "warning"
      [(mismatch "alsem-version-mismatch"
        [("old", .text oldAv), ("new", .text newAv), ("severity", .text severity)],
        severity == "error")]) ++
  match primaryAppId oldSnap, primaryAppId newSnap with
  | some o, some n =>
      if eqIgnoreAsciiCase o n then []
      else [(mismatch "app-identity-mismatch" [("oldAppId", .text o), ("newAppId", .text n)], true)]
  | _, _ => []

/-! ## 2. The coverage policy -/

/-- The cone coverage status: `complete` unless a member is `partial` (→ partial) or unknown
(→ unknown, at once). -/
def coneStatus (cone : List String) (coverage : IndexMap String CborValue) : String :=
  let statuses := cone.map fun id =>
    ((IndexMap.get coverage id).bind fun r => getStr r "inheritedStatus").getD "unknown"
  if statuses.contains "unknown" then "unknown"
  else if statuses.contains "partial" then "partial"
  else "complete"

def isCoverageSensitive : DiffKind → Bool
  | .capabilityLost | .capabilityGainedWrite | .capabilityGainedRead | .capabilityGainedCommit
  | .capabilityGainedHttp | .capabilityGainedTelemetry | .capabilityGainedIsolatedStorage
  | .capabilityGainedFile | .capabilityGainedDynamicDispatch | .capabilityGainedEventPublish => true
  | _ => false

/-- The loose policy's wording of a loss. -/
def lossKind (newPartial : Bool) : DiffKind :=
  if newPartial then .capabilityLostUnderCoverage else .capabilityLost

/-- What the policy makes of one finding: the finding as it is kept, or the diagnostic it becomes. -/
def policyStep (ix : DiffIndexes) (policy : CoveragePolicy) (f : DiffFinding) :
    DiffFinding ⊕ DiffDiagnostic :=
  if isCoverageSensitive f.kind then
    let oldStatus := coneStatus f.comparisonCone ix.old.coverageBySubject
    let newStatus := coneStatus f.comparisonCone ix.new.coverageBySubject
    let oldPartial := oldStatus != "complete"
    let newPartial := newStatus != "complete"
    let annotated := { f with coverageState := some (oldStatus, newStatus) }
    match policy with
    | .strict =>
        if oldPartial || newPartial then
          let cone := if oldPartial && newPartial then "both" else if oldPartial then "old" else "new"
          .inr (mismatch "coverage-incomplete"
            [("subject", .text (annotated.comparisonCone.head?.getD "")), ("cone", .text cone)])
        else .inl annotated
    | .loose =>
        if annotated.kind = .capabilityLost then .inl { annotated with kind := lossKind newPartial }
        else .inl annotated
  else .inl f

def applyCoveragePolicy (findings : List DiffFinding) (ix : DiffIndexes) (policy : CoveragePolicy) :
    List DiffFinding × List DiffDiagnostic :=
  let steps := findings.map (policyStep ix policy)
  (steps.filterMap Sum.getLeft?, steps.filterMap Sum.getRight?)

/-! ## 3. The engine -/

/-- Severity rank, then category, then kind, then id. -/
def findingLe (a b : DiffFinding) : Bool :=
  if a.severity.rank ≠ b.severity.rank then decide (a.severity.rank ≤ b.severity.rank)
  else if a.category.asStr ≠ b.category.asStr then decide (a.category.asStr ≤ b.category.asStr)
  else if a.kind.asStr ≠ b.kind.asStr then decide (a.kind.asStr ≤ b.kind.asStr)
  else decide (a.id ≤ b.id)

def sortFindings (findings : List DiffFinding) : List DiffFinding := findings.mergeSort findingLe

def computeSummary (findings : List DiffFinding) (policyDiags : List DiffDiagnostic)
    (renamesApplied : ℕ) : DiffSummary where
  findingsByCategory :=
    [DiffCategory.abi, .schema, .events, .capabilities, .permissions].map fun c =>
      (c, findings.countP fun f => f.category == c)
  findingsBySeverity := (List.range 5).map fun r => findings.countP fun f => f.severity.rank == r
  coverageIncompleteCones := policyDiags.countP fun d => d.kind == "coverage-incomplete"
  renamesApplied := renamesApplied

/-- The user's table with the signature pairs added. -/
def fullRenameTable (P : Prims) (oldSnap newSnap : CborValue) (user : RenameTable) : RenameTable :=
  (pairSignatureChanges P oldSnap newSnap user).foldl
    (fun t p => IndexMap.insert t p.1 ⟨p.2, true⟩) user

/-- The findings of all five passes. -/
def passFindings (P : Prims) (ix : DiffIndexes) : List DiffFinding :=
  diffAbi P ix ++ diffSchema P ix ++ diffEvents P ix ++ diffCapabilities P ix ++
    diffPermissions P ix

/-- **Run the full diff engine.** -/
def runDiffEngine (P : Prims) (oldSnap newSnap : CborValue) (policy : CoveragePolicy)
    (renameOverlay : Option RenameOverlay) : DiffEngineResult :=
  let preflight := runPreflight oldSnap newSnap policy
  if preflight.any fun d => d.2 then
    ⟨[], preflight.map Prod.fst, computeSummary [] [] 0, true⟩
  else
    let (user, renameDiags) := buildRenameTable (renameOverlay.getD .empty)
    let ix := buildDiffIndexes oldSnap newSnap (fullRenameTable P oldSnap newSnap user)
    let (policyFindings, policyDiags) := applyCoveragePolicy (passFindings P ix) ix policy
    let sorted := sortFindings policyFindings
    ⟨sorted, preflight.map Prod.fst ++ renameDiags ++ ix.renameDiagnostics ++ policyDiags,
      computeSummary sorted policyDiags user.length, false⟩

end AlSem.Diff
