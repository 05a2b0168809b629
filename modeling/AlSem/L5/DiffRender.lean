/-
# A line edit script as a unified diff

What the parser is for, in its own terms.  A `FileDiff` is a line edit script between an old and a
new file, cut into hunks: the unchanged lines between the hunks and each hunk's context, deleted and
inserted lines.  `render` writes it as `diff -u` does; `expectedHunks` says what a reader of the
script would record, with the new file's own line numbers.

A line shows without the carriage returns at its end.
-/
import AlSem.L5.DiffParser

namespace AlSem.L5

open Text

/-! ## 1. Edit scripts -/

/-- A line of text: anything without a newline. -/
abbrev Line := { cs : List Char // '\n' ∉ cs }

/-- One line of a hunk. -/
inductive Edit where
  | keep (t : Line)
  | del (t : Line)
  | ins (t : Line)

/-- A line of a hunk's body, with a `\ No newline` marker behind it or not. -/
structure BodyLine where
  edit : Edit
  noNewline : Bool

/-- A hunk, the unchanged lines between the hunk before it and itself, and the text after its
header's ranges. -/
structure Hunk where
  before : List Line
  body : List BodyLine
  heading : Line

/-- **An edit script of one file**, cut into hunks; `rest` is unchanged after the last of them.  The
labels are the texts after `--- ` and `+++ `, the header the text after `diff --git `. -/
structure FileDiff where
  gitHeader : Option Line
  oldLabel : Line
  newLabel : Line
  hunks : List Hunk
  rest : List Line

/-- The lines of the old side. -/
def oldLines (es : List Edit) : List Line :=
  es.filterMap fun e =>
    match e with
    | .keep t | .del t => some t
    | .ins _ => none

/-- The lines of the new side. -/
def newLines (es : List Edit) : List Line :=
  es.filterMap fun e =>
    match e with
    | .keep t | .ins t => some t
    | .del _ => none

def Hunk.edits (h : Hunk) : List Edit := h.body.map BodyLine.edit

/-- The old file. -/
def FileDiff.oldFile (d : FileDiff) : List Line :=
  d.hunks.flatMap (fun h => h.before ++ oldLines h.edits) ++ d.rest

/-- The new file. -/
def FileDiff.newFile (d : FileDiff) : List Line :=
  d.hunks.flatMap (fun h => h.before ++ newLines h.edits) ++ d.rest

/-! ## 2. Rendering -/

/-- A side's range after `before` lines: an empty side names the line before the gap, a count of one
is left out. -/
def renderRange (before count : ℕ) : List Char :=
  Nat.toDigits 10 (if count = 0 then before else before + 1) ++
    if count = 1 then [] else ',' :: Nat.toDigits 10 count

/-- The header of a hunk after `o` old and `n` new lines. -/
def renderHeader (o n : ℕ) (h : Hunk) : List Char :=
  "@@ -".toList ++ renderRange o (oldLines h.edits).length ++ " +".toList ++
    renderRange n (newLines h.edits).length ++ " @@".toList ++ h.heading.1

def renderEdit : Edit → List Char
  | .keep t => ' ' :: t.1
  | .del t => '-' :: t.1
  | .ins t => '+' :: t.1

def marker : List Char := "\\ No newline at end of file".toList

def renderBodyLine (b : BodyLine) : List (List Char) :=
  if b.noNewline then [renderEdit b.edit, marker] else [renderEdit b.edit]

/-- The lines of the hunks after `o` old and `n` new lines. -/
def renderHunks : ℕ → ℕ → List Hunk → List (List Char)
  | _, _, [] => []
  | o, n, h :: hs =>
    renderHeader (o + h.before.length) (n + h.before.length) h :: h.body.flatMap renderBodyLine ++
      renderHunks (o + h.before.length + (oldLines h.edits).length)
        (n + h.before.length + (newLines h.edits).length) hs

/-- The lines of the diff. -/
def FileDiff.renderLines (d : FileDiff) : List (List Char) :=
  (d.gitHeader.map fun t => "diff --git ".toList ++ t.1).toList ++
    ["--- ".toList ++ d.oldLabel.1, "+++ ".toList ++ d.newLabel.1] ++ renderHunks 0 0 d.hunks

/-- Lines with a newline behind each. -/
def unlines (ls : List (List Char)) : List Char := ls.flatMap fun l => l ++ ['\n']

/-- **The diff as text.** -/
def FileDiff.render (d : FileDiff) : String := String.ofList (unlines d.renderLines)

/-! ## 3. What the diff says -/

/-- The text a line is shown with. -/
def shown (t : Line) : String := String.ofList (trimCr t.1)

/-- The new-file lines of a body with their numbers, `c` the number of the next one. -/
def newSideOf : ℤ → List Edit → List (ℤ × String)
  | _, [] => []
  | c, .keep t :: es => (c, shown t) :: newSideOf (c + 1) es
  | c, .ins t :: es => (c, shown t) :: newSideOf (c + 1) es
  | c, .del _ :: es => newSideOf c es

/-- The lines of the deletion run a body begins with. -/
def leadingDeleted : List Edit → List Line
  | .del t :: es => t :: leadingDeleted es
  | _ => []

/-- A run of deleted lines before new-file line `c`: a gap after the line before it. -/
def runChange (c : ℤ) (run : List Line) : HunkChange :=
  (run.foldl (fun r t => r.next (trimCr t.1)) DeletionRun.start).change (c - 1)

/-- The changes of a body: each inserted line by its number, each maximal run of deleted lines once,
at its first line.  `inRun` when the line before is deleted too. -/
def changesOf : Bool → ℤ → List Edit → List HunkChange
  | _, _, [] => []
  | _, c, .keep _ :: es => changesOf false (c + 1) es
  | _, c, .ins _ :: es => .added c :: changesOf false (c + 1) es
  | false, c, .del t :: es => runChange c (t :: leadingDeleted es) :: changesOf true c es
  | true, c, .del _ :: es => changesOf true c es

/-- The texts of the maximal runs of deleted lines. -/
def deletedOf : Bool → List Edit → List (List String)
  | _, [] => []
  | _, .keep _ :: es => deletedOf false es
  | _, .ins _ :: es => deletedOf false es
  | false, .del t :: es => (t :: leadingDeleted es).map shown :: deletedOf true es
  | true, .del _ :: es => deletedOf true es

/-- What is to be recorded of a hunk after `n` new lines. -/
def expectedHunk (n : ℕ) (h : Hunk) : DiffHunk where
  newStart := if (newLines h.edits).length = 0 then n else n + 1
  newCount := (newLines h.edits).length
  oldCount := (oldLines h.edits).length
  changes := changesOf false (n + 1) h.edits
  deleted := deletedOf false h.edits
  newSide := newSideOf (n + 1) h.edits

/-- **What is to be recorded of the hunks**, the first after `n` new lines. -/
def expectedHunks : ℕ → List Hunk → List DiffHunk
  | _, [] => []
  | n, h :: hs =>
    expectedHunk (n + h.before.length) h ::
      expectedHunks (n + h.before.length + (newLines h.edits).length) hs

/-- The file the labels name. -/
def FileDiff.file (d : FileDiff) : DiffFile :=
  openFile ((extractPath ("--- ".toList ++ trimCr d.oldLabel.1)).map String.ofList)
    ((extractPath ("+++ ".toList ++ trimCr d.newLabel.1)).map String.ofList) none none

end AlSem.L5
