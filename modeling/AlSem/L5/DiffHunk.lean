/-
# Hunks of a unified diff

`l5/diff_parser.rs`: a hunk header, and the body of an open hunk read line by line.  The body ends
when the header's counts are used up; a line that does not fit them is not body.
-/
import AlSem.L5.DiffPaths
import Mathlib.Data.Int.Notation

namespace AlSem.L5

open Text

/-! ## 1. Hunks -/

/-- One change of a hunk body, by new-file line number; a deletion stands in the gap after its
line. -/
inductive HunkChange where
  | added (n : ℤ)
  | deletedAfter (n : ℤ)
  | deletedAttributesAfter (n : ℤ)
  deriving DecidableEq, Repr

/-- The new-file line number the change carries. -/
def HunkChange.line : HunkChange → ℤ
  | .added n => n
  | .deletedAfter n => n
  | .deletedAttributesAfter n => n

structure DiffHunk where
  newStart : ℕ
  newCount : ℕ
  oldCount : ℕ
  changes : List HunkChange
  deleted : List (List String)
  newSide : List (ℤ × String)
  deriving DecidableEq, Repr

/-! ## 2. The header -/

/-- `\s` of the header's grammar. -/
def isHeaderSpace (c : Char) : Bool :=
  c == ' ' || c == '\t' || c == '\r' || c == '\n' || c == '\x0c' || c == '\x0b'

/-- `\s+`. -/
def eatWs1 (cs : List Char) : Option (List Char) :=
  match cs with
  | c :: rest => if isHeaderSpace c then some (rest.dropWhile isHeaderSpace) else none
  | [] => none

def i64Max : ℕ := 2 ^ 63 - 1

def i32Max : ℕ := 2 ^ 31 - 1

/-- Digits, saturating. -/
def eatDigits (cs : List Char) : Option (ℕ × List Char) :=
  let digits := cs.takeWhile Char.isDigit
  if digits = [] then none
  else some (min (Nat.ofDigitChars 10 digits 0) i64Max, cs.dropWhile Char.isDigit)

/-- A start and an optional count, which is 1 when omitted, after the sign `c`. -/
def eatRange (c : Char) (cs : List Char) : Option (ℕ × ℕ × List Char) :=
  match cs with
  | [] => none
  | d :: cs =>
    if d = c then
      match eatDigits cs with
      | none => none
      | some (start, ',' :: cs) => (eatDigits cs).map fun p => (start, p.1, p.2)
      | some (start, cs) => some (start, 1, cs)
    else none

/-- The ranges of a line `@@ -s,c +s,c @@ …`: the old start and count, the new start and count. -/
def headerRanges (line : List Char) : Option ((ℕ × ℕ) × ℕ × ℕ) := do
  let cs ← stripPrefix "@@" line
  let cs ← eatWs1 cs
  let (oldStart, oldCount, cs) ← eatRange '-' cs
  let cs ← eatWs1 cs
  let (newStart, newCount, cs) ← eatRange '+' cs
  let cs ← eatWs1 cs
  let _ ← stripPrefix "@@" cs
  some ((oldStart, oldCount), newStart, newCount)

/-- `none`: not a hunk header.  An error: a header whose line range does not fit. -/
def parseHunkHeader (line : List Char) : Option (Except String DiffHunk) :=
  (headerRanges line).map fun r =>
    let (oldStart, oldCount) := r.1
    let (newStart, newCount) := r.2
    if oldStart ≤ i32Max ∧ oldCount ≤ i32Max ∧ newStart + max newCount 1 ≤ i32Max then
      .ok ⟨newStart, newCount, oldCount, [], [], []⟩
    else .error ("hunk at +" ++ Nat.repr newStart ++ " has an invalid line range")

/-! ## 3. The body -/

/-- The current deletion run: whether it is still only attribute groups, and the bracket depth of its
open group. -/
structure DeletionRun where
  attributeRun : Bool
  attributeDepth : ℕ
  deriving DecidableEq

/-- The run before its first line. -/
def DeletionRun.start : DeletionRun := ⟨true, 0⟩

/-- The brackets of one line, from the depth before it. -/
def scanAttributes : ℕ → List Char → DeletionRun
  | depth, [] => ⟨true, depth⟩
  | depth, c :: cs =>
    if c = '[' then scanAttributes (depth + 1) cs
    else if c = ']' ∧ 0 < depth then scanAttributes (depth - 1) cs
    else if 0 < depth ∨ isWhitespace c then scanAttributes depth cs
    else if startsWith "//" (c :: cs) then ⟨true, depth⟩
    else ⟨false, depth⟩

/-- One more deleted line of the run. -/
def DeletionRun.next (r : DeletionRun) (line : List Char) : DeletionRun :=
  let text := trimList line
  if r.attributeRun ∧ (r.attributeDepth ≠ 0 ∨ startsWith "[" text) then
    scanAttributes r.attributeDepth text
  else ⟨false, r.attributeDepth⟩

/-- The run as a change after line `n`: a group still open leaves a plain deletion. -/
def DeletionRun.change (r : DeletionRun) (n : ℤ) : HunkChange :=
  if r.attributeRun ∧ r.attributeDepth = 0 then .deletedAttributesAfter n else .deletedAfter n

/-- The hunk whose body is being read. -/
structure OpenHunk where
  newStart : ℕ
  oldLeft : ℕ
  newLeft : ℕ
  cursor : ℤ
  inDeletionRun : Bool
  run : DeletionRun

def OpenHunk.new (h : DiffHunk) : OpenHunk where
  newStart := h.newStart
  oldLeft := h.oldCount
  newLeft := h.newCount
  cursor := if h.newCount = 0 then h.newStart + 1 else h.newStart
  inDeletionRun := false
  run := ⟨false, 0⟩

def OpenHunk.isComplete (h : OpenHunk) : Bool := h.oldLeft == 0 && h.newLeft == 0

/-- `if let Some(last) = l.last_mut() { *last = f(last) }`. -/
def mapLast {α : Type} (f : α → α) : List α → List α
  | [] => []
  | [a] => [f a]
  | a :: b :: l => a :: mapLast f (b :: l)

/-- A context line. -/
def OpenHunk.acceptContext (h : OpenHunk) (text : List Char) (hunk : DiffHunk) :
    OpenHunk × DiffHunk :=
  ({ h with
      oldLeft := h.oldLeft - 1
      newLeft := h.newLeft - 1
      cursor := h.cursor + 1
      inDeletionRun := false },
    { hunk with newSide := hunk.newSide ++ [(h.cursor, String.ofList text)] })

/-- A deleted line: the first of a run opens its change and its texts; the change is classified
after every line. -/
def OpenHunk.acceptDeleted (h : OpenHunk) (text : List Char) (hunk : DiffHunk) :
    OpenHunk × DiffHunk :=
  let run := (if h.inDeletionRun then h.run else .start).next text
  let changes :=
    if h.inDeletionRun then hunk.changes else hunk.changes ++ [.deletedAfter (h.cursor - 1)]
  let deleted := if h.inDeletionRun then hunk.deleted else hunk.deleted ++ [[]]
  ({ h with oldLeft := h.oldLeft - 1, inDeletionRun := true, run := run },
    { hunk with
      changes := mapLast (fun c => run.change c.line) changes
      deleted := mapLast (fun r => r ++ [String.ofList text]) deleted })

/-- An added line. -/
def OpenHunk.acceptAdded (h : OpenHunk) (text : List Char) (hunk : DiffHunk) :
    OpenHunk × DiffHunk :=
  ({ h with newLeft := h.newLeft - 1, cursor := h.cursor + 1, inDeletionRun := false },
    { hunk with
      changes := hunk.changes ++ [.added h.cursor]
      newSide := hunk.newSide ++ [(h.cursor, String.ofList text)] })

/-- **Consume one line as body**, `none` when it is not body: its side has no count left, or it is
no body line. -/
def OpenHunk.accept (h : OpenHunk) (line : List Char) (hunk : DiffHunk) :
    Option (OpenHunk × DiffHunk) :=
  match line with
  | '\\' :: _ => some (h, hunk)
  | [] => if 0 < h.oldLeft ∧ 0 < h.newLeft then some (h.acceptContext [] hunk) else none
  | ' ' :: text => if 0 < h.oldLeft ∧ 0 < h.newLeft then some (h.acceptContext text hunk) else none
  | '-' :: text => if 0 < h.oldLeft then some (h.acceptDeleted text hunk) else none
  | '+' :: text => if 0 < h.newLeft then some (h.acceptAdded text hunk) else none
  | _ => none

end AlSem.L5
