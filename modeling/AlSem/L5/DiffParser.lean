/-
# The unified diff parser

`l5/diff_parser.rs`, `parse_unified_diff`: the lines of a diff read one by one.  While a hunk is open
its body takes the lines; every other line is matched against the headers in turn.
-/
import AlSem.L5.DiffHunk

namespace AlSem.L5

open Text

/-! ## 1. The result -/

inductive DiffFileKind where
  | modified | added | deleted | renamed
  deriving DecidableEq, Repr

structure DiffFile where
  path : String
  kind : DiffFileKind
  oldPath : Option String
  hunks : List DiffHunk
  deriving DecidableEq, Repr

/-- A hunk-header error of one file section. -/
structure FileError where
  path : String
  detail : String
  deriving DecidableEq, Repr

structure DiffParseResult where
  files : List DiffFile
  errors : List String
  fileErrors : List FileError
  onlyIn : List String
  deriving DecidableEq, Repr

/-! ## 2. The state -/

/-- The header-error state of the current file section. -/
structure Section where
  pending : List String
  dest : Option String
  git : Bool
  skip : Bool
  deriving DecidableEq, Repr

def Section.default : Section := ⟨[], none, false, false⟩

/-- The parser between two lines.  `pendingOldPath` is `none` before a `---` line, `some none` after
one of `/dev/null`. -/
structure ParseState where
  openHunk : Option OpenHunk
  files : List DiffFile
  errors : List String
  onlyIn : List String
  currentFile : Option DiffFile
  pendingRenameFrom : Option String
  pendingRenameTo : Option String
  pendingOldPath : Option (Option String)
  fileErrors : List FileError
  fileSection : Section
  inSection : Bool

def ParseState.init : ParseState :=
  ⟨none, [], [], [], none, none, none, none, [], .default, false⟩

/-- Closes the section: its pending errors go to `dest`, global without one. -/
def ParseState.closeSection (s : ParseState) : ParseState :=
  match s.fileSection.dest with
  | some path =>
      { s with
        fileErrors := s.fileErrors ++ s.fileSection.pending.map fun detail => ⟨path, detail⟩
        fileSection := .default }
  | none => { s with errors := s.errors ++ s.fileSection.pending, fileSection := .default }

/-- The current file is done; the pending renames are dropped only with it. -/
def ParseState.finalize (s : ParseState) : ParseState :=
  match s.currentFile with
  | some f =>
      { s with
        files := s.files ++ [f]
        currentFile := none
        pendingRenameFrom := none
        pendingRenameTo := none
        pendingOldPath := none }
  | none => { s with pendingOldPath := none }

/-- A rename without hunks becomes a file of its own, any other open file is finalized. -/
def ParseState.endFile (s : ParseState) : ParseState :=
  match s.pendingRenameFrom, s.pendingRenameTo, s.currentFile with
  | some old, some path, none =>
      { s with
        files := s.files ++ [⟨path, .renamed, some old, []⟩]
        fileSection := { s.fileSection with dest := some path }
        pendingRenameFrom := none
        pendingRenameTo := none }
  | _, _, _ => s.finalize

/-! ## 3. The lines -/

/-- `--- `: the old-side path. -/
def ParseState.oldPathLine (s : ParseState) (line : List Char) : ParseState :=
  let s := if s.currentFile.isSome || !s.fileSection.pending.isEmpty then s.closeSection else s
  let s := s.finalize
  let old := (extractPath line).map String.ofList
  { s with
    fileSection :=
      if s.fileSection.dest.isNone then { s.fileSection with dest := old } else s.fileSection
    pendingOldPath := some old
    inSection := true }

/-- The file a `+++ ` line opens after the old path. -/
def openFile (oldP newP : Option String) (renameFrom renameTo : Option String) : DiffFile :=
  match newP, oldP with
  | none, oldP => ⟨oldP.getD "unknown", .deleted, oldP, []⟩
  | some newP, some oldReal =>
      let isRename := renameFrom.isSome || renameTo.isSome
      ⟨newP, if isRename then .renamed else .modified,
        if isRename then renameFrom else if oldReal != newP then some oldReal else none, []⟩
  | some newP, none => ⟨newP, .added, none, []⟩

/-- `+++ ` after a `--- ` line: the new-side path. -/
def ParseState.newPathLine (s : ParseState) (line : List Char) : ParseState :=
  let f := openFile s.pendingOldPath.join ((extractPath line).map String.ofList) s.pendingRenameFrom
    s.pendingRenameTo
  { s with
    currentFile := some f
    fileSection := { s.fileSection with dest := some f.path }
    pendingOldPath := none
    pendingRenameFrom := none
    pendingRenameTo := none }

/-- A section header with its destination. -/
def ParseState.sectionLine (s : ParseState) (dest : Option (List Char)) : ParseState :=
  let s := s.endFile.closeSection
  { s with
    fileSection := { s.fileSection with dest := dest.map String.ofList, git := true }
    inSection := true
    pendingRenameFrom := none
    pendingRenameTo := none
    pendingOldPath := none }

/-- A header error inside a file section. -/
def ParseState.headerError (s : ParseState) (e : String) : ParseState :=
  if s.inSection then
    { s with
      fileSection :=
        { s.fileSection with pending := s.fileSection.pending ++ [e], skip := s.fileSection.git } }
  else s

/-- A valid hunk header opens its hunk in the current file; a hunk without lines stays closed. -/
def ParseState.pushHunk (s : ParseState) (hunk : DiffHunk) : ParseState :=
  match s.currentFile with
  | some f =>
      { s with
        currentFile := some { f with hunks := f.hunks ++ [hunk] }
        openHunk := if (OpenHunk.new hunk).isComplete then s.openHunk else some (.new hunk) }
  | none => s

/-- `@@`: a hunk header. -/
def ParseState.hunkLine (s : ParseState) (line : List Char) : ParseState :=
  match parseHunkHeader line with
  | some (.ok hunk) => s.pushHunk hunk
  | some (.error e) => s.headerError e
  | none => s.headerError ("malformed hunk header `" ++ String.ofList line ++ "`")

/-- `Only in <dir>: <name>`. -/
def ParseState.onlyInLine (s : ParseState) (line : List Char) : ParseState :=
  match (stripPrefix "Only in " line).bind (splitOnceList ": ".toList) with
  | some (dir, name) =>
      { s with
        onlyIn := s.onlyIn ++
          [String.ofList (trimEndBy (· == '/') dir) ++ "/" ++ String.ofList name] }
  | none => s

/-- A line outside a hunk body. -/
def ParseState.topLevel (s : ParseState) (line : List Char) : ParseState :=
  if startsWith "\\ " line then s
  else if startsWith "--- " line then s.oldPathLine line
  else if startsWith "+++ " line && s.pendingOldPath.isSome then s.newPathLine line
  else
    match stripPrefix "rename from " line with
    | some «from» =>
        { s with
          pendingRenameFrom :=
            some (String.ofList (forwardSlashes (unquotePath (trimList «from»))))
          inSection := true }
    | none =>
      match stripPrefix "rename to " line with
      | some «to» =>
          let path := String.ofList (forwardSlashes (unquotePath (trimList «to»)))
          { s with
            fileSection := { s.fileSection with dest := some path }
            pendingRenameTo := some path
            inSection := true }
      | none =>
        match sectionHeaderDest line with
        | some dest => s.sectionLine dest
        | none => (if startsWith "@@" line then s.hunkLine line else s).onlyInLine line

/-- The hunk of the current file that is last. -/
def ParseState.lastHunk (s : ParseState) : Option DiffHunk :=
  s.currentFile.bind fun f => f.hunks.getLast?

/-- The current file's last hunk replaced. -/
def ParseState.setLastHunk (s : ParseState) (hunk : DiffHunk) : ParseState :=
  { s with
    currentFile := s.currentFile.map fun f => { f with hunks := mapLast (fun _ => hunk) f.hunks } }

def truncated (h : OpenHunk) : String := "hunk at +" ++ Nat.repr h.newStart ++ " truncated"

/-- `trim_end_matches('\r')`. -/
def trimCr (line : List Char) : List Char := trimEndBy (· == '\r') line

/-- **One line.** -/
def ParseState.step (s : ParseState) (rawLine : List Char) : ParseState :=
  let line := trimCr rawLine
  if s.fileSection.skip && (sectionHeaderDest line).isNone then s
  else
    match s.openHunk with
    | none => s.topLevel line
    | some h =>
      match s.lastHunk with
      | none => { s with openHunk := none }.topLevel line
      | some hunk =>
        match h.accept line hunk with
        | some (h', hunk') =>
            { s.setLastHunk hunk' with openHunk := if h'.isComplete then none else some h' }
        | none =>
            { s with openHunk := none, errors := s.errors ++ [truncated h] }.topLevel line

/-- The end of the input. -/
def ParseState.finish (s : ParseState) : DiffParseResult :=
  let s :=
    match s.openHunk with
    | some h => { s with errors := s.errors ++ [truncated h] }
    | none => s
  let s := s.endFile.closeSection
  ⟨s.files, s.errors, s.fileErrors, s.onlyIn⟩

/-- `replace("\r\n", "\n")`. -/
def replaceCrLf : List Char → List Char
  | [] => []
  | [c] => [c]
  | c :: d :: cs =>
    if c = '\r' ∧ d = '\n' then '\n' :: replaceCrLf cs else c :: replaceCrLf (d :: cs)

/-- The lines of the text: a final newline is the last line's terminator. -/
def diffLines (text : List Char) : List (List Char) :=
  let normalized := replaceCrLf text
  let lines := normalized.splitOn '\n'
  if normalized.getLast? = some '\n' then lines.dropLast else lines

/-- **Parse a unified diff.** -/
def parseUnifiedDiff (text : String) : DiffParseResult :=
  if trimList text.toList = [] then ⟨[], [], [], []⟩
  else ((diffLines text.toList).foldl ParseState.step .init).finish

end AlSem.L5
