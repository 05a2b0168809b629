/-
# Rung 1: one file's save, patched in

`lsp/updater.rs`, `apply_rung1_core`: a batch of saves that change no definition surface.  For each
saved file the indexes of the published snapshot are patched: the file's old contributions go, its
new ones come.  What `recompute_file` makes of a saved file is an input here.
-/
import Mathlib.Data.Finset.Sort
import AlSem.Lsp.SnapshotIndex

namespace AlSem.Lsp

variable {RoutineNodeId : Type} [LinearOrder RoutineNodeId]

/-! ## 1. The input and the output -/

/-- **A save**: the file's edges and declarations as recomputed, each declaration with its file's
path. -/
structure Save (RoutineNodeId : Type) where
  vp : VirtualPath
  edges : List (LspEdge RoutineNodeId)
  decls : List (DeclEntry RoutineNodeId)
  paths : ∀ d ∈ decls, d.virtualPath = vp.1

/-- The files a batch touched, in save order, and every routine whose callers or declaration may
have changed, sorted. -/
structure Rung1Delta (RoutineNodeId : Type) where
  files : List VirtualPath
  affectedIds : List RoutineNodeId

/-- The maps a batch works on. -/
structure Rung1Work (RoutineNodeId : Type) where
  edgesByFile : EdgesByFile RoutineNodeId
  declsByFile : DeclsByFile RoutineNodeId
  declById : HashMap RoutineNodeId (DeclEntry RoutineNodeId)
  incoming : HashMap RoutineNodeId (List EdgeRef)
  mult : HashMap RoutineNodeId ℕ
  touched : List VirtualPath
  affected : Finset RoutineNodeId

/-! ## 2. The declarations -/

/-- The declaration index and its reference counts. -/
abbrev DeclIndex (RoutineNodeId : Type) :=
  HashMap RoutineNodeId (DeclEntry RoutineNodeId) × HashMap RoutineNodeId ℕ

/-- A declaration of an id in a file other than `vp`. -/
def otherDecl (declsByFile : DeclsByFile RoutineNodeId) (vp : VirtualPath) (id : RoutineNodeId) :
    Option (DeclEntry RoutineNodeId) :=
  (declsByFile.entries.filter fun f => f.1 ≠ vp).findSome? fun f => f.2.find? fun d => d.id = id

/-- An id that the file `vp` no longer declares. -/
def removeDecl (declsByFile : DeclsByFile RoutineNodeId) (vp : VirtualPath)
    (ix : DeclIndex RoutineNodeId) (id : RoutineNodeId) : DeclIndex RoutineNodeId :=
  match ix.2.lookup id with
  | none => ix
  | some count =>
    if count - 1 = 0 then (ix.1.erase id, ix.2.erase id)
    else
      let mult := ix.2.insert id (count - 1)
      if (ix.1.lookup id).any fun e => e.virtualPath = vp.1 then
        -- this file was the winner: another declaring file takes its place
        match otherDecl declsByFile vp id with
        | some d => (ix.1.insert id d, mult)
        | none => (ix.1, mult)
      else (ix.1, mult)

/-- A declaration of the file's new list. -/
def addDecl (oldIds : List RoutineNodeId) (ix : DeclIndex RoutineNodeId)
    (d : DeclEntry RoutineNodeId) : DeclIndex RoutineNodeId :=
  (ix.1.insert d.id d, if oldIds.contains d.id then ix.2 else HashMap.bump ix.2 d.id 1)

/-- The ids of a declaration list. -/
def idsOf (decls : List (DeclEntry RoutineNodeId)) : List RoutineNodeId := decls.map DeclEntry.id

/-- The ids the old list has and the new one has not, each once. -/
def droppedIds (old new : List (DeclEntry RoutineNodeId)) : List RoutineNodeId :=
  (idsOf old).dedup.filter fun id => !(idsOf new).contains id

/-- The declaration index with a file's list replaced. -/
def patchDecls (declsByFile : DeclsByFile RoutineNodeId) (vp : VirtualPath)
    (old new : List (DeclEntry RoutineNodeId)) (ix : DeclIndex RoutineNodeId) :
    DeclIndex RoutineNodeId :=
  new.foldl (addDecl (idsOf old)) ((droppedIds old new).foldl (removeDecl declsByFile vp) ix)

/-! ## 3. The callers -/

/-- The routine targets of a list of edges. -/
def targetsOf (edges : List (LspEdge RoutineNodeId)) : List RoutineNodeId := edges.flatMap edgeTargets

/-- The callers with a file's edges replaced: out of the lists of its old targets, into those of
its new ones. -/
def patchIncoming (vp : VirtualPath) (old new : List (LspEdge RoutineNodeId))
    (incoming : HashMap RoutineNodeId (List EdgeRef)) : HashMap RoutineNodeId (List EdgeRef) :=
  pushFile ((targetsOf old).foldl (fun inc t => HashMap.retain inc t fun r => r.file ≠ vp.1) incoming)
    vp.1 new

/-! ## 4. The batch -/

/-- One save. -/
def applySave (w : Rung1Work RoutineNodeId) (sv : Save RoutineNodeId) : Rung1Work RoutineNodeId :=
  -- read from the working maps: a batch may save one file twice
  let oldDecls := (w.declsByFile.lookup sv.vp).getD []
  let oldEdges := (w.edgesByFile.lookup sv.vp).getD []
  let ix := patchDecls w.declsByFile sv.vp oldDecls sv.decls (w.declById, w.mult)
  { edgesByFile := w.edgesByFile.insert sv.vp sv.edges
    declsByFile := w.declsByFile.insert sv.vp sv.decls
    declById := ix.1
    incoming := patchIncoming sv.vp oldEdges sv.edges w.incoming
    mult := ix.2
    touched := w.touched ++ [sv.vp]
    affected := w.affected ∪ ((droppedIds oldDecls sv.decls).toFinset ∪ (idsOf sv.decls).toFinset) ∪
      ((targetsOf oldEdges).toFinset ∪ (targetsOf sv.edges).toFinset) }

/-- The work before the first save; the reference counts are built when they are not there. -/
def startWork (cur : LspSnapshot RoutineNodeId) (mult : Option (HashMap RoutineNodeId ℕ)) :
    Rung1Work RoutineNodeId where
  edgesByFile := cur.edgesByFile
  declsByFile := cur.declsByFile
  declById := cur.declById
  incoming := cur.wsIncoming
  mult := mult.getD (buildDeclMultiplicity cur.declsByFile)
  touched := []
  affected := ∅

/-- **`apply_rung1_core`**: the patched snapshot, the delta, and the reference counts. -/
def applyRung1Core (cur : LspSnapshot RoutineNodeId) (saves : List (Save RoutineNodeId))
    (mult : Option (HashMap RoutineNodeId ℕ)) :
    LspSnapshot RoutineNodeId × Rung1Delta RoutineNodeId × HashMap RoutineNodeId ℕ :=
  let w := saves.foldl applySave (startWork cur mult)
  ({ generation := cur.generation + 1
     edgesByFile := w.edgesByFile
     wsEventEdges := cur.wsEventEdges
     wsIncoming := w.incoming
     wsPublisherFanout := cur.wsPublisherFanout
     declsByFile := w.declsByFile
     declById := w.declById },
    { files := w.touched, affectedIds := w.affected.sort },
    w.mult)

end AlSem.Lsp
