/-
# The rename table

`gate/diff/renames.rs`: the user's overlay as a table with its chain, overlap, stale and collision
diagnostics, and the pairs of routines whose signature changed, which join the table as automatic
entries.
-/
import AlSem.Diff.Contracts

namespace AlSem.Diff

open AlSem.Snapshot Text

/-! ## 1. The overlay and its table -/

/-- A raw rename overlay, old id to new id. -/
structure RenameOverlay where
  entries : IndexMap String String
  nodup : (entries.map Prod.fst).Nodup

/-- The default overlay. -/
def RenameOverlay.empty : RenameOverlay := ⟨[], List.nodup_nil⟩

/-- An entry of the table; `auto` when `pairSignatureChanges` made it, not the user. -/
structure RenameEntry where
  newId : String
  auto : Bool

/-- Old id to entry.  Identity mappings are dropped. -/
abbrev RenameTable := IndexMap String RenameEntry

def chainDiagnostic (oldId via target : String) : DiffDiagnostic :=
  ⟨"rename-overlay-chain",
    [("kind", .text "rename-overlay-chain"), ("from", .text oldId), ("via", .text via),
      ("to", .text target)]⟩

def overlapDiagnostic (newId : String) (olds : List String) : DiffDiagnostic :=
  ⟨"rename-overlay-overlap",
    [("kind", .text "rename-overlay-overlap"),
      ("targets", .array (olds.map CborValue.text ++ [.text newId]))]⟩

/-- Build the normalized rename table from a raw overlay, with chains (`A→B`, `B→C`) and overlaps
(several olds to one new). -/
def buildRenameTable (overlay : RenameOverlay) : RenameTable × List DiffDiagnostic :=
  let kept := overlay.entries.filter fun e => e.1 != e.2
  let table : RenameTable := IndexMap.ofEntries (kept.map fun e => (e.1, ⟨e.2, false⟩))
  let newToOlds := IndexMap.groupEntries (kept.map fun e => (e.2, e.1))
  let chains := table.filterMap fun e =>
    (IndexMap.get table e.2.newId).map fun next => chainDiagnostic e.1 e.2.newId next.newId
  let overlaps := newToOlds.filterMap fun e =>
    if e.2.length > 1 then some (overlapDiagnostic e.1 e.2) else none
  (table, chains ++ overlaps)

def stale (staleId reason : String) : DiffDiagnostic :=
  ⟨"rename-overlay-stale",
    [("kind", .text "rename-overlay-stale"), ("staleId", .text staleId),
      ("reason", .text reason)]⟩

def collision (oldId newId : String) : DiffDiagnostic :=
  ⟨"rename-overlay-collision",
    [("kind", .text "rename-overlay-collision"), ("from", .text oldId), ("to", .text newId)]⟩

/-- Validate the overlay against the ids each snapshot holds. -/
def validateOverlayAgainstSnapshots (table : RenameTable) (oldIds newIds : List String) :
    List DiffDiagnostic :=
  table.flatMap fun e =>
    (if oldIds.contains e.1 then [] else [stale e.1 "not-in-old"]) ++
    (if newIds.contains e.2.newId then [] else [stale e.2.newId "not-in-new"]) ++
    (if oldIds.contains e.1 && oldIds.contains e.2.newId &&
        !IndexMap.containsKey table e.2.newId then [collision e.1 e.2.newId] else [])

/-- One hop: an entry's target is never looked up again as an old id. -/
def normalize (id : String) (table : RenameTable) : String :=
  match IndexMap.get table id with
  | some e => e.newId
  | none => id

/-! ## 2. Routines whose signature changed -/

structure RoutineRow where
  object : String
  name : String
  abi : Bool
  pairable : Bool

/-- The group a row belongs to. -/
def RoutineRow.key (P : Prims) (r : RoutineRow) : String × String × Bool :=
  (r.object, P.toLowercase r.name, r.abi)

/-- The display names by id, of the rows that have both. -/
def nameOf (snap : CborValue) : IndexMap String String :=
  IndexMap.ofEntries
    (((identitiesField snap "stableIds").zip (identitiesField snap "displayNames")).filterMap
      fun p =>
        match asText p.1, asText p.2 with
        | some i, some n => some (i, n)
        | _, _ => none)

/-- The row of one routine contract fact. -/
def routineRow (names : IndexMap String String) (f : CborValue) : Option (String × RoutineRow) := do
  let id ← getStr f "stableId"
  let sig := (getStr f "signatureFingerprint").getD ""
  let name := (IndexMap.get names id).getD ""
  let (object, suffix) ← rsplitOnce "#" id
  some (id, ⟨object, name, isAbiSurface f, name != "" && sig != "" && suffix == sig⟩)

/-- The routine contract facts of one snapshot by stable id, with their display names.  A repeated
id keeps its last row. -/
def routineRows (snap : CborValue) : IndexMap String RoutineRow :=
  IndexMap.ofEntries
    (((snapshotArray snap "contractFacts").filter fun f => getStr f "kind" == some "routine").filterMap
      (routineRow (nameOf snap)))

/-- (object, lowercased name, ABI) to the old-only and the new-only candidates. -/
abbrev Groups := IndexMap (String × String × Bool) (List String × List String)

/-- `groups.entry(key).or_default().0.push(id)`. -/
def pushOld (groups : Groups) (key : String × String × Bool) (id : String) : Groups :=
  let g := (IndexMap.get groups key).getD ([], [])
  IndexMap.insert groups key (g.1 ++ [id], g.2)

/-- `groups.entry(key).or_default().1.push(id)`. -/
def pushNew (groups : Groups) (key : String × String × Bool) (id : String) : Groups :=
  let g := (IndexMap.get groups key).getD ([], [])
  IndexMap.insert groups key (g.1, g.2 ++ [id])

/-- The old candidates: not a user key, and gone from the new side. -/
def oldCandidates (oldRows newRows : IndexMap String RoutineRow) (user : RenameTable) :
    List (String × RoutineRow) :=
  oldRows.filter fun e => e.2.pairable && !IndexMap.containsKey user e.1 &&
    !IndexMap.containsKey newRows e.1

/-- The new candidates: not a user target, and no id an old routine normalizes to. -/
def newCandidates (oldRows newRows : IndexMap String RoutineRow) (user : RenameTable) :
    List (String × RoutineRow) :=
  let userTargets := user.map fun e => e.2.newId
  let oldIds := oldRows.map fun e => normalize e.1 user
  newRows.filter fun e => e.2.pairable && !userTargets.contains e.1 && !oldIds.contains e.1

/-- **Pair each routine whose signature changed**: one only in old and one only in new, in the same
object with the same name and ABI status, when that group holds exactly one of each. -/
def pairSignatureChanges (P : Prims) (oldSnap newSnap : CborValue) (user : RenameTable) :
    List (String × String) :=
  let oldRows := routineRows oldSnap
  let newRows := routineRows newSnap
  let groups : Groups :=
    (oldCandidates oldRows newRows user).foldl (fun g e => pushOld g (e.2.key P) e.1) []
  let groups :=
    (newCandidates oldRows newRows user).foldl (fun g e => pushNew g (e.2.key P) e.1) groups
  groups.filterMap fun e =>
    match e.2 with
    | ([o], [n]) => some (o, n)
    | _ => none

end AlSem.Diff
