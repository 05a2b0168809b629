/-
# The reverse effect index

`ReverseEffectIndex` (`reverse_index.rs`) answers which routines touch a table or an effect.  It
is built once from a finished bundle: for every class (the routines that share a stored set) the
set's effects and tables are posted under the class, and for every routine its own effects, its
own tables only where its class does not have them.  A query expands classes and adds routines.

The build indexes tables by set and effect ids; the bundle's invariant keeps these inside.
-/
import AlSem.Lib.Buckets
import AlSem.L4.SummaryBundle

namespace AlSem.L4

open Buckets

/-! ## 1. Posting lists -/

def postingSparseThreshold : ℕ := 256

/-- A set of numbers: an ascending list, or words from `postingSparseThreshold` numbers on. -/
inductive PostingList where
  | sparse (ids : List ℕ)
  | dense (words : Bits)
  deriving DecidableEq, Repr

/-- `iter_bits`: the bit scan over numbers that are no effect ids. -/
def iterBits (words : Bits) : List ℕ := iterSetBits words

/-- `set_bit_u32`. -/
def setBitU32 (bits : Bits) (id : ℕ) : Bits := setBit bits id

namespace PostingList

/-- Sorted and without repeats; the words have room for the largest number. -/
def fromIds (ids : List ℕ) : PostingList :=
  let ids := Ranking.dropRepeats (ids.mergeSort fun a b => decide (a ≤ b))
  if ids.length < postingSparseThreshold then sparse ids
  else
    let max := ids.getLastD 0
    dense (ids.foldl setBit (List.replicate (max / 64 + 1) 0))

def contains (p : PostingList) (id : ℕ) : Bool :=
  match p with
  | sparse ids => (binarySearch ids id).isSome
  | dense words => hasBit words id

def iter : PostingList → List ℕ
  | sparse ids => ids
  | dense words => iterBits words

end PostingList

/-! ## 2. The index -/

structure ReverseEffectIndex where
  classMembersPool : List ℕ
  classMembersRanges : List Span
  effectToSccs : List PostingList
  effectToDeltaRoutines : List PostingList
  tableToSccs : HashMap String PostingList
  tableToDeltaRoutines : HashMap String PostingList

/-- The table of an effect of the universe. -/
def FrozenEffectUniverse.tableOf (u : FrozenEffectUniverse) (id : ℕ) : String :=
  ((u.identity id).map EffectIdentity.tableId).getD ""

/-- What the pass over the classes has posted: classes by effect, classes by table, and the
tables of every class. -/
structure ClassPostings where
  effects : List (List ℕ)
  tables : HashMap String (List ℕ)
  classTables : List (List String)

/-- One effect of one class. -/
def ClassPostings.post (u : FrozenEffectUniverse) (p : ClassPostings) (m : ℕ × ℕ) :
    ClassPostings :=
  let table := u.tableOf m.2
  { effects := pushAt p.effects m.2 m.1
    tables := p.tables.push table m.1
    classTables := pushAt p.classTables m.1 table }

/-- What the pass over the routines has posted, and the tables the routine at hand has added. -/
structure DeltaPostings where
  effects : List (List ℕ)
  tables : HashMap String (List ℕ)
  added : List String

/-- One effect of the routine `r`'s own, its class having `classTables`. -/
def DeltaPostings.post (u : FrozenEffectUniverse) (classTables : List String) (r : ℕ)
    (p : DeltaPostings) (eid : ℕ) : DeltaPostings :=
  let table := u.tableOf eid
  let effects := pushAt p.effects eid r
  if table ∉ classTables ∧ table ∉ p.added then
    { effects, tables := p.tables.push table r, added := table :: p.added }
  else { p with effects }

namespace ReverseEffectIndex

/-- The routines of every class, ascending. -/
def membersByClass (b : SummaryBundle) : List (List ℕ) :=
  let rows := b.routinesWithRows.filterMap fun r => (b.terminalBase r).map fun setId => (setId, r)
  let members := rows.foldl (fun members m => pushAt members m.1 m.2)
    (List.replicate b.effects.sets.length [])
  members.map fun members => members.mergeSort fun a b => decide (a ≤ b)

/-- The classes' members in one pool. -/
def poolMembers (members : List (List ℕ)) : List ℕ × List Span :=
  members.foldl (fun (pool, ranges) members =>
    let (range, pool) := pushAll pool members
    (pool, ranges ++ [range])) ([], [])

/-- The effects of every class that has a member, each with its class. -/
def classMemberships (b : SummaryBundle) (ranges : List Span) : List (ℕ × ℕ) :=
  ranges.zipIdx.flatMap fun (range, classIx) =>
    if range.start = range.stop then []
    else
      match b.effects.sets[classIx]? with
      | some set => set.iter.map fun eid => (classIx, eid)
      | none => []

/-- The pass over the classes. -/
def classPass (b : SummaryBundle) (ranges : List Span) : ClassPostings :=
  (classMemberships b ranges).foldl (ClassPostings.post b.effects.effectUniverse)
    { effects := List.replicate b.effects.effectUniverse.len []
      tables := ∅
      classTables := List.replicate b.effects.sets.length [] }

/-- The pass over the routines' own effects. -/
def deltaPass (b : SummaryBundle) (classTables : List (List String)) :
    List (List ℕ) × HashMap String (List ℕ) :=
  b.routinesWithRows.foldl (fun (effects, tables) r =>
    match b.terminalBase r with
    | none => (effects, tables)
    | some classIx =>
      let p := (b.pdDeltaIds r).foldl
        (DeltaPostings.post b.effects.effectUniverse (bucket classTables classIx) r)
        { effects, tables, added := [] }
      (p.effects, p.tables)) (List.replicate b.effects.effectUniverse.len [], ∅)

def build (b : SummaryBundle) : ReverseEffectIndex :=
  let (classMembersPool, classMembersRanges) := poolMembers (membersByClass b)
  let classes := classPass b classMembersRanges
  let (deltaEffects, deltaTables) := deltaPass b classes.classTables
  { classMembersPool
    classMembersRanges
    effectToSccs := classes.effects.map PostingList.fromIds
    effectToDeltaRoutines := deltaEffects.map PostingList.fromIds
    tableToSccs := classes.tables.mapValues PostingList.fromIds
    tableToDeltaRoutines := deltaTables.mapValues PostingList.fromIds }

/-! ## 3. Queries -/

variable (ix : ReverseEffectIndex)

/-- A class's routines, ascending; the range is inside the pool. -/
def classMembers (c : ℕ) : List ℕ :=
  match ix.classMembersRanges[c]? with
  | some range => (range.slice ix.classMembersPool).getD []
  | none => []

/-- The numbers a list of postings has under a place. -/
def postedAt (postings : List PostingList) (i : ℕ) : List ℕ :=
  match postings[i]? with
  | some p => p.iter
  | none => []

/-- Whether a list of postings has a number under a place. -/
def touchedAt (postings : List PostingList) (i x : ℕ) : Bool :=
  match postings[i]? with
  | some p => p.contains x
  | none => false

/-- The numbers a map of postings has under a table. -/
def postedUnder (postings : HashMap String PostingList) (t : String) : List ℕ :=
  match postings.lookup t with
  | some p => p.iter
  | none => []

/-- Whether a map of postings has a number under a table. -/
def touchedUnder (postings : HashMap String PostingList) (t : String) (x : ℕ) : Bool :=
  match postings.lookup t with
  | some p => p.contains x
  | none => false

def effectClasses (eid : ℕ) : List ℕ := postedAt ix.effectToSccs eid

def effectDeltaRoutines (eid : ℕ) : List ℕ := postedAt ix.effectToDeltaRoutines eid

def tableTouchesViaBase (t : String) (c : ℕ) : Bool := touchedUnder ix.tableToSccs t c

def tableTouchesViaDeltaRoutine (t : String) (r : ℕ) : Bool :=
  touchedUnder ix.tableToDeltaRoutines t r

def effectTouchesViaBase (eid c : ℕ) : Bool := touchedAt ix.effectToSccs eid c

def effectTouchesViaDeltaRoutine (eid r : ℕ) : Bool := touchedAt ix.effectToDeltaRoutines eid r

/-- `class_of`. -/
def classOf (b : SummaryBundle) (r : ℕ) : Option ℕ := b.terminalBase r

def touchesTable (b : SummaryBundle) (r : ℕ) (t : String) : Bool :=
  match classOf b r with
  | none => false
  | some c => ix.tableTouchesViaBase t c || ix.tableTouchesViaDeltaRoutine t r

def touchesEffect (b : SummaryBundle) (r eid : ℕ) : Bool :=
  match classOf b r with
  | none => false
  | some c => ix.effectTouchesViaBase eid c || ix.effectTouchesViaDeltaRoutine eid r

/-- The routines of some classes and some routines more, through a bitmap. -/
def expand (classes routines : List ℕ) : List ℕ :=
  let bits := classes.foldl (fun bits c => (ix.classMembers c).foldl setBitU32 bits) []
  iterBits (routines.foldl setBitU32 bits)

def upTable (t : String) : List ℕ :=
  ix.expand (postedUnder ix.tableToSccs t) (postedUnder ix.tableToDeltaRoutines t)

def upEffect (eid : ℕ) : List ℕ :=
  ix.expand (ix.effectClasses eid) (ix.effectDeltaRoutines eid)

end ReverseEffectIndex

end AlSem.L4
