/-
# The parser recovers the script

Parsing a rendered edit script gives back, for its file, what the script says of every hunk, and no
error.  The header lines leave the parser in the file (`InFile`), each rendered hunk is appended to
it, and a line of a body is never taken for a header: while the hunk is open its counts decide.
-/
import AlSem.L5.DiffBody
import Mathlib.Data.List.DropRight

namespace AlSem.L5

open Text

/-! ## 1. The parser inside a file -/

/-- The parser has read the headers of `f` and its hunks so far, and nothing is wrong. -/
structure InFile (f : DiffFile) (s : ParseState) : Prop where
  openHunk : s.openHunk = none
  files : s.files = []
  errors : s.errors = []
  onlyIn : s.onlyIn = []
  currentFile : s.currentFile = some f
  fileErrors : s.fileErrors = []
  pending : s.fileSection.pending = []
  skip : s.fileSection.skip = false

/-- The parser in a hunk of the file `f`, after the hunks `hs`. -/
def ParseState.inHunk (s : ParseState) (f : DiffFile) (h : Option OpenHunk) (hunk : DiffHunk) :
    ParseState :=
  { s with openHunk := h, currentFile := some { f with hunks := f.hunks ++ [hunk] } }

variable {f : DiffFile} {s : ParseState}

theorem lastHunk_inHunk (h : Option OpenHunk) (hunk : DiffHunk) :
    (s.inHunk f h hunk).lastHunk = some hunk := by
  unfold ParseState.lastHunk ParseState.inHunk
  rw [Option.bind_some, List.getLast?_append]
  rfl

/-- A line the body takes. -/
theorem step_inHunk (hskip : s.fileSection.skip = false) {h h' : OpenHunk} {hunk hunk' : DiffHunk}
    {line : List Char} (haccept : h.accept (trimCr line) hunk = some (h', hunk')) :
    (s.inHunk f (some h) hunk).step line =
      s.inHunk f (if h'.isComplete then none else some h') hunk' := by
  have hskip' : (s.inHunk f (some h) hunk).fileSection.skip = false := hskip
  have hopen : (s.inHunk f (some h) hunk).openHunk = some h := rfl
  unfold ParseState.step
  dsimp only
  rw [hskip', Bool.false_and, if_neg Bool.false_ne_true, hopen, lastHunk_inHunk]
  dsimp only
  rw [haccept]
  unfold ParseState.setLastHunk ParseState.inHunk
  dsimp only [Option.map_some]
  rw [mapLast_append_singleton]

/-- A marker line changes nothing, in a body or behind it. -/
theorem step_marker (hskip : s.fileSection.skip = false) (h : Option OpenHunk) (hunk : DiffHunk)
    (hopen : ∀ h', h = some h' → h'.isComplete = false) :
    (s.inHunk f h hunk).step marker = s.inHunk f h hunk := by
  have hmarker : trimCr marker = marker := by decide
  cases h with
  | some h =>
    have haccept : h.accept (trimCr marker) hunk = some (h, hunk) := by
      rw [hmarker]
      rfl
    rw [step_inHunk hskip haccept, hopen h rfl]
    rfl
  | none =>
    have hskip' : (s.inHunk f none hunk).fileSection.skip = false := hskip
    rw [step_eq_topLevel hskip' rfl, hmarker]
    rfl

/-- **One body line of the script**, its marker included. -/
theorem foldl_step_bodyLine (hskip : s.fileSection.skip = false) {h : OpenHunk} {b : BodyLine}
    (es : List Edit) (hfits : h.Fits (b.edit :: es)) (hunk : DiffHunk) :
    (renderBodyLine b).foldl ParseState.step (s.inHunk f (some h) hunk) =
      s.inHunk f (if es = [] then none else some (h.acceptEdit b.edit hunk).1)
        (h.acceptEdit b.edit hunk).2 := by
  have hcomplete := isComplete_iff_of_fits (fits_acceptEdit hfits hunk)
  have hline : (s.inHunk f (some h) hunk).step (renderEdit b.edit) =
      s.inHunk f (if es = [] then none else some (h.acceptEdit b.edit hunk).1)
        (h.acceptEdit b.edit hunk).2 := by
    have haccept : h.accept (trimCr (renderEdit b.edit)) hunk =
        some ((h.acceptEdit b.edit hunk).1, (h.acceptEdit b.edit hunk).2) :=
      accept_renderEdit hfits hunk
    refine (step_inHunk hskip haccept).trans ?_
    by_cases hes : es = []
    · rw [if_pos hes, if_pos (hcomplete.mpr hes)]
    · rw [if_neg hes, if_neg (fun hc => hes (hcomplete.mp hc))]
  unfold renderBodyLine
  by_cases hm : b.noNewline = true
  · rw [if_pos hm, List.foldl_cons, List.foldl_cons, List.foldl_nil, hline]
    refine step_marker hskip _ _ ?_
    intro h' hh'
    by_cases hes : es = []
    · rw [if_pos hes] at hh'
      cases hh'
    · rw [if_neg hes] at hh'
      rw [← Option.some.inj hh']
      rw [← Bool.not_eq_true]
      exact fun hc => hes (hcomplete.mp hc)
  · rw [if_neg hm, List.foldl_cons, List.foldl_nil, hline]

/-- **A whole body**: the hunk is closed at its end and has what the script leaves in it. -/
theorem foldl_step_body (hskip : s.fileSection.skip = false) (body : List BodyLine) :
    ∀ {h : OpenHunk} (hunk : DiffHunk), h.Fits (body.map BodyLine.edit) →
      (body.flatMap renderBodyLine).foldl ParseState.step
          (s.inHunk f (if body = [] then none else some h) hunk) =
        s.inHunk f none (acceptEdits (h, hunk) (body.map BodyLine.edit)).2 := by
  induction body with
  | nil =>
    intro h hunk _
    rw [if_pos rfl]
    rfl
  | cons b body ih =>
    intro h hunk hfits
    have hrest := ih (h.acceptEdit b.edit hunk).2 (fits_acceptEdit hfits hunk)
    have hline := foldl_step_bodyLine (f := f) hskip (body.map BodyLine.edit) hfits hunk
    simp only [List.map_eq_nil_iff] at hline
    rw [if_neg (List.cons_ne_nil b body), List.flatMap_cons, List.foldl_append, hline, hrest]
    rfl

/-! ## 2. The hunk header -/

theorem eatDigits_toDigits {n : ℕ} (hn : n ≤ i32Max) {c : Char} (hc : c.isDigit = false)
    (rest : List Char) : eatDigits (Nat.toDigits 10 n ++ c :: rest) = some (n, c :: rest) := by
  have hdigits : ∀ d ∈ Nat.toDigits 10 n, d.isDigit = true := fun d hd =>
    Nat.isDigit_of_mem_toDigits (by decide) (by decide) hd
  have htake : (Nat.toDigits 10 n ++ c :: rest).takeWhile Char.isDigit = Nat.toDigits 10 n := by
    rw [List.takeWhile_append_of_pos hdigits, List.takeWhile_cons_of_neg (by simp [hc]),
      List.append_nil]
  have hdrop : (Nat.toDigits 10 n ++ c :: rest).dropWhile Char.isDigit = c :: rest := by
    rw [List.dropWhile_append_of_pos hdigits, List.dropWhile_cons_of_neg (by simp [hc])]
  have hmax : min n i64Max = n := by
    refine min_eq_left (hn.trans ?_)
    decide
  unfold eatDigits
  rw [htake, hdrop]
  dsimp only
  rw [if_neg Nat.toDigits_ne_nil, Nat.ofDigitChars_toDigits (by decide) (by decide), hmax]

/-- The start a range is rendered with. -/
def rangeStart (before count : ℕ) : ℕ := if count = 0 then before else before + 1

/-- **A rendered range is read back.** -/
theorem eatRange_renderRange {c : Char} {before count : ℕ} (hstart : rangeStart before count ≤ i32Max)
    (hcount : count ≤ i32Max) (rest : List Char) :
    eatRange c (c :: (renderRange before count ++ ' ' :: rest)) =
      some (rangeStart before count, count, ' ' :: rest) := by
  unfold eatRange renderRange
  dsimp only
  rw [if_pos rfl, List.append_assoc]
  by_cases hone : count = 1
  · rw [if_pos hone, List.nil_append, hone]
    have heat := eatDigits_toDigits (n := rangeStart before 1) (c := ' ') (by rw [← hone]; exact hstart)
      (by decide) rest
    unfold rangeStart at heat ⊢
    rw [heat]
    rfl
  · rw [if_neg hone, List.cons_append]
    have heat := eatDigits_toDigits (c := ',') hstart (by decide) (Nat.toDigits 10 count ++ ' ' :: rest)
    unfold rangeStart at heat ⊢
    rw [heat]
    simp only
    rw [eatDigits_toDigits hcount (by decide) rest]
    rfl

theorem notMem_renderRange {c : Char} (hdigit : c.isDigit = false) (hcomma : c ≠ ',')
    (before count : ℕ) : c ∉ renderRange before count := by
  have hdigits : ∀ n, c ∉ Nat.toDigits 10 n := fun n hmem => by
    have hmem := Nat.isDigit_of_mem_toDigits (by decide) (by decide) hmem
    rw [hdigit] at hmem
    exact absurd hmem Bool.false_ne_true
  unfold renderRange
  rw [List.mem_append, not_or]
  refine ⟨hdigits _, ?_⟩
  split
  · exact List.not_mem_nil
  · rw [List.mem_cons, not_or]
    exact ⟨hcomma, hdigits _⟩

/-- A header stands for the hunk it was rendered from. -/
theorem headerRanges_renderHeader {o n : ℕ} {h : Hunk}
    (hos : rangeStart o (oldLines h.edits).length ≤ i32Max)
    (hoc : (oldLines h.edits).length ≤ i32Max)
    (hns : rangeStart n (newLines h.edits).length ≤ i32Max)
    (hnc : (newLines h.edits).length ≤ i32Max) (heading : List Char) :
    headerRanges ("@@ -".toList ++ renderRange o (oldLines h.edits).length ++ " +".toList ++
        renderRange n (newLines h.edits).length ++ " @@".toList ++ heading) =
      some ((rangeStart o (oldLines h.edits).length, (oldLines h.edits).length),
        rangeStart n (newLines h.edits).length, (newLines h.edits).length) := by
  have hline : "@@ -".toList ++ renderRange o (oldLines h.edits).length ++ " +".toList ++
      renderRange n (newLines h.edits).length ++ " @@".toList ++ heading =
    '@' :: '@' :: ' ' :: '-' :: (renderRange o (oldLines h.edits).length ++ ' ' :: '+' ::
      (renderRange n (newLines h.edits).length ++ ' ' :: '@' :: '@' :: heading)) := by
    simp [List.append_assoc]
  have hats : ∀ cs, stripPrefix "@@" ('@' :: '@' :: cs) = some cs := fun cs => rfl
  have hws : ∀ {c : Char} cs, isHeaderSpace c = false →
      eatWs1 (' ' :: c :: cs) = some (c :: cs) := by
    intro c cs hc
    unfold eatWs1
    dsimp only
    rw [if_pos (by decide), List.dropWhile_cons_of_neg (by rw [hc]; exact Bool.false_ne_true)]
  unfold headerRanges
  rw [hline]
  simp only [Option.bind_eq_bind]
  rw [hats, Option.bind_some, hws _ (by decide), Option.bind_some,
    eatRange_renderRange hos hoc, Option.bind_some]
  dsimp only
  rw [hws _ (by decide), Option.bind_some, eatRange_renderRange hns hnc, Option.bind_some]
  dsimp only
  rw [hws _ (by decide), Option.bind_some, hats]
  rfl

/-! ## 3. One hunk -/

/-- A hunk's header as read. -/
def headerHunk (n : ℕ) (h : Hunk) : DiffHunk where
  newStart := rangeStart n (newLines h.edits).length
  newCount := (newLines h.edits).length
  oldCount := (oldLines h.edits).length
  changes := []
  deleted := []
  newSide := []

/-- The cursor of the open hunk is the next new line, also when the new side is empty. -/
theorem cursor_new_headerHunk (n : ℕ) (h : Hunk) :
    (OpenHunk.new (headerHunk n h)).cursor = (n : ℤ) + 1 := by
  unfold OpenHunk.new headerHunk rangeStart
  dsimp only
  by_cases hc : (newLines h.edits).length = 0
  · rw [if_pos hc, if_pos hc]
  · rw [if_neg hc, if_neg hc]
    rfl

theorem fits_new_headerHunk (n : ℕ) (h : Hunk) : (OpenHunk.new (headerHunk n h)).Fits h.edits :=
  ⟨rfl, rfl⟩

/-- The lines before and of the hunk are numbered below `2 ^ 31`. -/
structure Numbered (o n : ℕ) (h : Hunk) : Prop where
  old : o + (oldLines h.edits).length ≤ i32Max
  new : n + (newLines h.edits).length < i32Max

theorem parseHunkHeader_renderHeader {o n : ℕ} {h : Hunk} (hnum : Numbered o n h) :
    parseHunkHeader (trimCr (renderHeader o n h)) = some (.ok (headerHunk n h)) := by
  obtain ⟨hold, hnew⟩ := hnum
  have hos : rangeStart o (oldLines h.edits).length ≤ i32Max := by
    unfold rangeStart
    split <;> omega
  have hns : rangeStart n (newLines h.edits).length + max (newLines h.edits).length 1 ≤ i32Max := by
    unfold rangeStart
    split <;> omega
  have hranges : '\r' ∉ "@@ -".toList ++ renderRange o (oldLines h.edits).length ++ " +".toList ++
      renderRange n (newLines h.edits).length ++ " @@".toList := by
    simp only [List.mem_append, not_or]
    have hcr := notMem_renderRange (c := '\r') (by decide) (by decide)
    exact ⟨⟨⟨⟨by decide, hcr _ _⟩, by decide⟩, hcr _ _⟩, by decide⟩
  unfold parseHunkHeader renderHeader
  rw [trimCr_append hranges,
    headerRanges_renderHeader hos (by omega) (by omega) (by omega) (trimCr h.heading.1),
    Option.map_some]
  dsimp only
  rw [if_pos ⟨hos, by omega, hns⟩]
  rfl

/-- **A header opens its hunk.** -/
theorem step_renderHeader (hin : InFile f s) {o n : ℕ} {h : Hunk} (hnum : Numbered o n h) :
    s.step (renderHeader o n h) =
      s.inHunk f (if h.body = [] then none else some (.new (headerHunk n h))) (headerHunk n h) := by
  have hline : trimCr (renderHeader o n h) = '@' :: '@' :: (trimCr (renderHeader o n h)).drop 2 := by
    unfold renderHeader
    simp only [List.append_assoc]
    rw [trimCr_append (by decide)]
    rfl
  have hcomplete := isComplete_iff_of_fits (fits_new_headerHunk n h)
  rw [step_eq_topLevel hin.skip hin.openHunk, hline, topLevel_at, ← hline]
  unfold ParseState.hunkLine
  rw [parseHunkHeader_renderHeader hnum]
  unfold ParseState.pushHunk ParseState.inHunk
  dsimp only
  rw [hin.currentFile, hin.openHunk]
  dsimp only
  by_cases hbody : h.body = []
  · rw [if_pos hbody, if_pos (hcomplete.mpr (congrArg (List.map BodyLine.edit) hbody))]
  · rw [if_neg hbody, if_neg fun hc => hbody (List.map_eq_nil_iff.mp (hcomplete.mp hc))]

/-- **A rendered hunk is read as the script says**, and the parser is in the file again. -/
theorem foldl_step_hunk (hin : InFile f s) {o n : ℕ} {h : Hunk} (hnum : Numbered o n h) :
    InFile { f with hunks := f.hunks ++ [expectedHunk n h] }
      ((renderHeader o n h :: h.body.flatMap renderBodyLine).foldl ParseState.step s) := by
  have hrecord : (acceptEdits (.new (headerHunk n h), headerHunk n h) h.edits).2 =
      expectedHunk n h := by
    rw [(acceptEdits_spec h.edits).1 _ _ rfl, cursor_new_headerHunk]
    rfl
  have hbody := foldl_step_body (f := f) hin.skip h.body (headerHunk n h) (fits_new_headerHunk n h)
  rw [List.foldl_cons, step_renderHeader hin hnum, hbody]
  unfold Hunk.edits at hrecord
  rw [hrecord]
  exact { hin with openHunk := rfl, currentFile := rfl }

/-- **All hunks**, with the line numbers of the whole script. -/
theorem foldl_step_hunks (hs : List Hunk) : ∀ {f : DiffFile} {s : ParseState} {o n : ℕ},
    InFile f s →
      o + (hs.flatMap fun h => h.before ++ oldLines h.edits).length ≤ i32Max →
      n + (hs.flatMap fun h => h.before ++ newLines h.edits).length < i32Max →
      InFile { f with hunks := f.hunks ++ expectedHunks n hs }
        ((renderHunks o n hs).foldl ParseState.step s) := by
  induction hs with
  | nil =>
    intro f s o n hin _ _
    unfold expectedHunks
    rw [List.append_nil]
    exact hin
  | cons h hs ih =>
    intro f s o n hin hold hnew
    rw [List.flatMap_cons, List.length_append, List.length_append] at hold hnew
    have hnum : Numbered (o + h.before.length) (n + h.before.length) h := ⟨by omega, by omega⟩
    have hrest := ih (o := o + h.before.length + (oldLines h.edits).length)
      (n := n + h.before.length + (newLines h.edits).length) (foldl_step_hunk hin hnum)
      (by omega) (by omega)
    unfold renderHunks expectedHunks
    rw [List.foldl_append]
    rw [List.append_assoc, List.singleton_append] at hrest
    exact hrest

/-! ## 4. The header lines and the end -/

/-- The parser before the file: at most the section's destination is known. -/
def atSection (dest : Option String) (git inSection : Bool) : ParseState :=
  { ParseState.init with fileSection := ⟨[], dest, git, false⟩, inSection := inSection }

theorem topLevel_old (s : ParseState) (cs : List Char) :
    s.topLevel ("--- ".toList ++ cs) = s.oldPathLine ("--- ".toList ++ cs) := rfl

theorem topLevel_new {s : ParseState} (hpending : s.pendingOldPath.isSome = true) (cs : List Char) :
    s.topLevel ("+++ ".toList ++ cs) = s.newPathLine ("+++ ".toList ++ cs) :=
  if_pos hpending

/-- The two path lines open the file. -/
theorem inFile_pathLines (d : FileDiff) (dest : Option String) (git inSection : Bool) :
    InFile d.file
      (((atSection dest git inSection).step ("--- ".toList ++ d.oldLabel.1)).step
        ("+++ ".toList ++ d.newLabel.1)) := by
  have hold : trimCr ("--- ".toList ++ d.oldLabel.1) = "--- ".toList ++ trimCr d.oldLabel.1 :=
    trimCr_append (by decide) _
  have hnew : trimCr ("+++ ".toList ++ d.newLabel.1) = "+++ ".toList ++ trimCr d.newLabel.1 :=
    trimCr_append (by decide) _
  rw [step_eq_topLevel (s := atSection dest git inSection) rfl rfl, hold, topLevel_old]
  cases dest with
  | none =>
    rw [step_eq_topLevel rfl rfl, hnew, topLevel_new rfl]
    exact ⟨rfl, rfl, rfl, rfl, rfl, rfl, rfl, rfl⟩
  | some path =>
    rw [step_eq_topLevel rfl rfl, hnew, topLevel_new rfl]
    exact ⟨rfl, rfl, rfl, rfl, rfl, rfl, rfl, rfl⟩

/-- A section header starts the section. -/
theorem step_gitHeader (t : Line) :
    ∃ dest, ParseState.init.step ("diff --git ".toList ++ t.1) = atSection dest true true := by
  have htrim : trimCr ("diff --git ".toList ++ t.1) = "diff --git ".toList ++ trimCr t.1 :=
    trimCr_append (by decide) _
  refine ⟨(gitHeaderDest (trimCr t.1)).map String.ofList, ?_⟩
  rw [step_eq_topLevel rfl rfl, htrim]
  rfl

theorem finish_inFile (hin : InFile f s) : s.finish = ⟨[f], [], [], []⟩ := by
  obtain ⟨hopen, hfiles, herrors, honly, hcurrent, hfileErrors, hpending, _⟩ := hin
  have hend : s.endFile = s.finalize := by
    unfold ParseState.endFile
    rw [hcurrent]
    cases s.pendingRenameFrom <;> cases s.pendingRenameTo <;> rfl
  unfold ParseState.finish
  rw [hopen]
  dsimp only
  rw [hend]
  unfold ParseState.finalize ParseState.closeSection
  rw [hcurrent]
  dsimp only
  cases s.fileSection.dest with
  | none =>
    dsimp only
    rw [hpending, hfiles, herrors, honly, hfileErrors]
    rfl
  | some path =>
    dsimp only
    rw [hpending, hfiles, herrors, honly, hfileErrors]
    rfl

/-- **The lines of the diff.** -/
theorem foldl_step_renderLines (d : FileDiff) (hold : d.oldFile.length ≤ i32Max)
    (hnew : d.newFile.length < i32Max) :
    (d.renderLines.foldl ParseState.step .init).finish =
      ⟨[{ d.file with hunks := expectedHunks 0 d.hunks }], [], [], []⟩ := by
  unfold FileDiff.oldFile at hold
  unfold FileDiff.newFile at hnew
  rw [List.length_append] at hold hnew
  have hhunks : ∀ {s : ParseState}, InFile d.file s →
      InFile { d.file with hunks := expectedHunks 0 d.hunks }
        ((renderHunks 0 0 d.hunks).foldl ParseState.step s) := by
    intro s hin
    have hempty : d.file.hunks = [] := by
      unfold FileDiff.file openFile
      split <;> rfl
    have hrun := foldl_step_hunks d.hunks hin (o := 0) (n := 0) (by omega) (by omega)
    rwa [hempty, List.nil_append] at hrun
  refine finish_inFile ?_
  unfold FileDiff.renderLines
  rw [List.foldl_append, List.foldl_append]
  cases d.gitHeader with
  | none => exact hhunks (inFile_pathLines d none false false)
  | some t =>
    obtain ⟨dest, hdest⟩ := step_gitHeader t
    refine hhunks ?_
    rw [Option.map_some, Option.toList_some]
    simp only [List.foldl_cons, List.foldl_nil]
    rw [hdest]
    exact inFile_pathLines d dest true true

/-! ## 5. The text -/

theorem trimCr_idem (cs : List Char) : trimCr (trimCr cs) = trimCr cs :=
  List.rdropWhile_idempotent _ cs

/-- A step looks at its line without the carriage returns at its end. -/
theorem foldl_step_congr {ls ls' : List (List Char)} (h : ls.map trimCr = ls'.map trimCr)
    (s : ParseState) : ls.foldl ParseState.step s = ls'.foldl ParseState.step s := by
  have hstep : ∀ (ls : List (List Char)) (s : ParseState),
      ls.foldl ParseState.step s = (ls.map trimCr).foldl ParseState.step s := by
    intro ls s
    rw [List.foldl_map]
    refine congrArg (fun step => ls.foldl step s) ?_
    funext s l
    unfold ParseState.step
    rw [trimCr_idem]
  rw [hstep ls, h, ← hstep ls']

theorem trimCr_cons_congr {cs cs' : List Char} (h : trimCr cs = trimCr cs') (c : Char) :
    trimCr (c :: cs) = trimCr (c :: cs') := by
  unfold trimCr trimEndBy at h ⊢
  rw [List.reverse_cons, List.reverse_cons, List.dropWhile_append, List.dropWhile_append,
    List.reverse_injective h]

/-- The newline normalization takes at most one carriage return off a line. -/
theorem replaceCrLf_line {l : List Char} (hl : '\n' ∉ l) (rest : List Char) :
    ∃ l', '\n' ∉ l' ∧ trimCr l' = trimCr l ∧
      replaceCrLf (l ++ '\n' :: rest) = l' ++ '\n' :: replaceCrLf rest := by
  have hnewline : ∀ rest, replaceCrLf ('\n' :: rest) = '\n' :: replaceCrLf rest := by
    intro rest
    cases rest with
    | nil => rfl
    | cons c rest =>
      rw [replaceCrLf, if_neg]
      rintro ⟨hc, _⟩
      revert hc
      decide
  induction l with
  | nil => exact ⟨[], List.not_mem_nil, rfl, hnewline rest⟩
  | cons c l ih =>
    rw [List.mem_cons, not_or] at hl
    obtain ⟨l', hl', htrim, hreplace⟩ := ih hl.2
    have hkeep : ¬(c = '\r' ∧ (l ++ '\n' :: rest).head? = some '\n') →
        replaceCrLf (c :: (l ++ '\n' :: rest)) = c :: replaceCrLf (l ++ '\n' :: rest) := by
      intro hne
      cases l with
      | nil => rw [List.nil_append, replaceCrLf, if_neg fun h => hne ⟨h.1, rfl⟩]
      | cons d l =>
        rw [List.cons_append, replaceCrLf, if_neg]
        rintro ⟨hc, hd⟩
        exact hne ⟨hc, congrArg some hd⟩
    by_cases hcr : c = '\r' ∧ (l ++ '\n' :: rest).head? = some '\n'
    · obtain ⟨rfl, hhead⟩ := hcr
      cases l with
      | nil => exact ⟨[], List.not_mem_nil, rfl, by rw [List.singleton_append, replaceCrLf,
          if_pos ⟨rfl, rfl⟩, List.nil_append]⟩
      | cons d l => exact absurd (Option.some.inj hhead).symm fun hd => hl.2 (hd ▸ List.mem_cons_self)
    · refine ⟨c :: l', ?_, trimCr_cons_congr htrim c, ?_⟩
      · rw [List.mem_cons, not_or]
        exact ⟨hl.1, hl'⟩
      · rw [List.cons_append, hkeep hcr, hreplace, List.cons_append]

theorem replaceCrLf_unlines {ls : List (List Char)} (hls : ∀ l ∈ ls, '\n' ∉ l) :
    ∃ ls' : List (List Char), (∀ l ∈ ls', '\n' ∉ l) ∧ ls'.map trimCr = ls.map trimCr ∧
      replaceCrLf (unlines ls) = unlines ls' := by
  induction ls with
  | nil => exact ⟨[], fun _ h => absurd h List.not_mem_nil, rfl, rfl⟩
  | cons l ls ih =>
    obtain ⟨ls', hls', hmap, hreplace⟩ := ih fun l' hl' => hls l' (List.mem_cons_of_mem l hl')
    obtain ⟨l', hl', htrim, hline⟩ := replaceCrLf_line (hls l List.mem_cons_self) (unlines ls)
    refine ⟨l' :: ls', ?_, ?_, ?_⟩
    · intro m hm
      rcases List.mem_cons.mp hm with rfl | hm
      · exact hl'
      · exact hls' m hm
    · rw [List.map_cons, List.map_cons, htrim, hmap]
    · unfold unlines at hline hreplace ⊢
      rw [List.flatMap_cons, List.flatMap_cons, List.append_assoc, List.singleton_append, hline,
        hreplace, List.append_assoc, List.singleton_append]

theorem splitOn_unlines {ls : List (List Char)} (hls : ∀ l ∈ ls, '\n' ∉ l) :
    (unlines ls).splitOn '\n' = ls ++ [[]] := by
  induction ls with
  | nil => rfl
  | cons l ls ih =>
    unfold unlines at ih ⊢
    rw [List.flatMap_cons, List.append_assoc, List.singleton_append,
      List.splitOn_append_cons_self_of_not_mem (hls l List.mem_cons_self),
      ih fun l' hl' => hls l' (List.mem_cons_of_mem l hl'), List.cons_append]

/-- **The lines of the text are the rendered lines**, up to carriage returns at their ends. -/
theorem diffLines_unlines {ls : List (List Char)} (hne : ls ≠ []) (hls : ∀ l ∈ ls, '\n' ∉ l) :
    (diffLines (unlines ls)).map trimCr = ls.map trimCr := by
  obtain ⟨ls', hls', hmap, hreplace⟩ := replaceCrLf_unlines hls
  have hsplit := splitOn_unlines hls'
  have hne' : ls' ≠ [] := by
    rintro rfl
    exact hne (List.map_eq_nil_iff.mp hmap.symm)
  obtain ⟨init, last, rfl⟩ := (List.eq_nil_or_concat ls').resolve_left hne'
  have hlast : (unlines (init ++ [last])).getLast? = some '\n' := by
    unfold unlines
    rw [List.flatMap_append, List.flatMap_cons, List.flatMap_nil, List.append_nil,
      ← List.append_assoc, List.getLast?_concat]
  rw [List.concat_eq_append] at hreplace hsplit hmap
  unfold diffLines
  dsimp only
  rw [hreplace, hsplit, if_pos hlast, List.dropLast_concat, hmap]

theorem trimList_ne_nil {cs : List Char} {c : Char} (hc : c ∈ cs) (hword : isWhitespace c = false) :
    trimList cs ≠ [] := by
  intro hnil
  have hstart : trimStartList cs = [] := by
    by_contra hne
    have hspaces : ∀ d ∈ trimStartList cs, isWhitespace d = true :=
      List.rdropWhile_eq_nil_iff.mp hnil
    have hhead := hspaces _ (List.head_mem hne)
    have hstop := List.head_dropWhile_not isWhitespace hne
    rw [show (trimStartList cs).head hne = (cs.dropWhile isWhitespace).head hne from rfl, hstop]
      at hhead
    exact absurd hhead Bool.false_ne_true
  have hspaces := List.dropWhile_eq_nil_iff.mp hstart c hc
  rw [hword] at hspaces
  exact absurd hspaces Bool.false_ne_true

/-! ## 6. The parser recovers the script -/

theorem newline_notMem_renderHunks (hs : List Hunk) :
    ∀ (o n : ℕ), ∀ l ∈ renderHunks o n hs, '\n' ∉ l := by
  have hrange := notMem_renderRange (c := '\n') (by decide) (by decide)
  have hedit : ∀ e, '\n' ∉ renderEdit e := by
    intro e
    cases e with
    | keep t => exact List.not_mem_cons_of_ne_of_not_mem (by decide) t.2
    | del t => exact List.not_mem_cons_of_ne_of_not_mem (by decide) t.2
    | ins t => exact List.not_mem_cons_of_ne_of_not_mem (by decide) t.2
  have hbody : ∀ b, ∀ l ∈ renderBodyLine b, '\n' ∉ l := by
    intro b l hl
    unfold renderBodyLine at hl
    split at hl
    · rcases List.mem_pair.mp hl with rfl | rfl
      · exact hedit _
      · decide
    · rw [List.mem_singleton.mp hl]
      exact hedit _
  induction hs with
  | nil => exact fun _ _ _ hl => absurd hl List.not_mem_nil
  | cons h hs ih =>
    intro o n l hl
    unfold renderHunks at hl
    rcases List.mem_append.mp hl with hl | hl
    · rcases List.mem_cons.mp hl with rfl | hl
      · unfold renderHeader
        simp only [List.mem_append, not_or]
        exact ⟨⟨⟨⟨⟨by decide, hrange _ _⟩, by decide⟩, hrange _ _⟩, by decide⟩, h.heading.2⟩
      · obtain ⟨b, _, hl⟩ := List.mem_flatMap.mp hl
        exact hbody b l hl
    · exact ih _ _ l hl

theorem newline_notMem_renderLines (d : FileDiff) : ∀ l ∈ d.renderLines, '\n' ∉ l := by
  intro l hl
  unfold FileDiff.renderLines at hl
  rcases List.mem_append.mp hl with hl | hl
  · rcases List.mem_append.mp hl with hl | hl
    · obtain ⟨t, _, rfl⟩ := Option.map_eq_some_iff.mp (Option.mem_toList.mp hl)
      exact fun hmem => (List.mem_append.mp hmem).elim (by decide) t.2
    · rcases List.mem_pair.mp hl with rfl | rfl
      · exact fun hmem => (List.mem_append.mp hmem).elim (by decide) d.oldLabel.2
      · exact fun hmem => (List.mem_append.mp hmem).elim (by decide) d.newLabel.2
  · exact newline_notMem_renderHunks d.hunks 0 0 l hl

/-- **The result of parsing a rendered script.** -/
theorem parse_render (d : FileDiff) (hold : d.oldFile.length ≤ i32Max)
    (hnew : d.newFile.length < i32Max) :
    parseUnifiedDiff d.render =
      ⟨[{ d.file with hunks := expectedHunks 0 d.hunks }], [], [], []⟩ := by
  have hne : d.renderLines ≠ [] := by
    unfold FileDiff.renderLines
    simp
  have htext : d.render.toList = unlines d.renderLines := by
    unfold FileDiff.render
    exact String.toList_ofList
  have hdash : '-' ∈ unlines d.renderLines := by
    unfold unlines FileDiff.renderLines
    simp
  unfold parseUnifiedDiff
  rw [htext, if_neg (trimList_ne_nil hdash (by decide)),
    foldl_step_congr (diffLines_unlines hne (newline_notMem_renderLines d)),
    foldl_step_renderLines d hold hnew]

/-- A path that no quoting, trimming or slash changes. -/
structure PlainPath (path : List Char) : Prop where
  tab : '\t' ∉ path
  backslash : '\\' ∉ path
  last : ∀ c, path.getLast? = some c → isWhitespace c = false

theorem trimEndBy_eq_self {p : Char → Bool} {cs : List Char}
    (h : ∀ c, cs.getLast? = some c → p c = false) : trimEndBy p cs = cs := by
  refine List.rdropWhile_eq_self_iff.mpr ?_
  intro hne
  rw [h _ (List.getLast?_eq_some_getLast hne)]
  exact Bool.false_ne_true

/-- The label `a/path` or `b/path` is read as the path. -/
theorem extractPath_label {path : List Char} (hpath : PlainPath path) {mark side : Char}
    (hside : side = 'a' ∨ side = 'b') :
    extractPath (mark :: mark :: mark :: ' ' :: side :: '/' :: trimCr path) = some path := by
  obtain ⟨htab, hbackslash, hlast⟩ := hpath
  have hcr : trimCr path = path := by
    refine trimEndBy_eq_self fun c hc => ?_
    have hword := hlast c hc
    rw [beq_eq_false_iff_ne]
    rintro rfl
    revert hword
    decide
  have hword : isWhitespace side = false := by
    rcases hside with rfl | rfl <;> decide
  have hne : ∀ c, c ≠ 'a' → c ≠ 'b' → c ≠ side := by
    rcases hside with rfl | rfl
    · exact fun c ha _ => ha
    · exact fun c _ hb => hb
  have hend : trimEndList (side :: '/' :: path) = side :: '/' :: path := by
    unfold trimEndList
    rw [trimEndBy_cons hword, trimEndBy_cons (by decide), trimEndBy_eq_self hlast]
  have hstart : trimStartList (side :: '/' :: path) = side :: '/' :: path :=
    List.dropWhile_cons_of_neg (by rw [hword]; exact Bool.false_ne_true)
  have htake : (side :: '/' :: path).takeWhile (· != '\t') = side :: '/' :: path := by
    refine List.takeWhile_eq_self_iff.mpr fun c hc => ?_
    rw [bne_iff_ne]
    rintro rfl
    rcases List.mem_cons.mp hc with hc | hc
    · exact hne '\t' (by decide) (by decide) hc
    · rcases List.mem_cons.mp hc with hc | hc
      · revert hc
        decide
      · exact htab hc
  have hunquote : unquotePath (side :: '/' :: path) = side :: '/' :: path := by
    unfold unquotePath trimList
    rw [hstart, hend]
    dsimp only
    split
    · rename_i heq
      exact absurd (List.cons.inj heq).1.symm (hne '"' (by decide) (by decide))
    · rfl
  have hslashes : forwardSlashes (side :: '/' :: path) = side :: '/' :: path := by
    refine (List.map_congr_left fun c hc => ?_).trans (List.map_id _)
    refine if_neg ?_
    rintro rfl
    rcases List.mem_cons.mp hc with hc | hc
    · exact hne '\\' (by decide) (by decide) hc
    · rcases List.mem_cons.mp hc with hc | hc
      · revert hc
        decide
      · exact hbackslash hc
  unfold extractPath
  rw [hcr, List.drop_succ_cons, List.drop_succ_cons, List.drop_succ_cons, List.drop_succ_cons,
    List.drop_zero, hstart]
  dsimp only
  rw [htake, hend, if_neg, hunquote, hslashes]
  · rcases hside with rfl | rfl <;> rfl
  · intro hnull
    exact hne '/' (by decide) (by decide) (List.cons.inj hnull).1.symm

/-- **Labels `a/path` and `b/path` name a modified file.** -/
theorem file_plain (d : FileDiff) {path : List Char} (hpath : PlainPath path)
    (hold : d.oldLabel.1 = 'a' :: '/' :: path) (hnew : d.newLabel.1 = 'b' :: '/' :: path) :
    d.file = ⟨String.ofList path, .modified, none, []⟩ := by
  have htrim : ∀ side, side = 'a' ∨ side = 'b' →
      trimCr (side :: '/' :: path) = side :: '/' :: trimCr path := by
    intro side hside
    rw [trimCr_cons (by rcases hside with rfl | rfl <;> decide), trimCr_cons (by decide)]
  unfold FileDiff.file
  rw [hold, hnew, htrim 'a' (.inl rfl), htrim 'b' (.inr rfl)]
  have ha := @extractPath_label path hpath '-' 'a' (.inl rfl)
  have hb := @extractPath_label path hpath '+' 'b' (.inr rfl)
  rw [show "--- ".toList ++ 'a' :: '/' :: trimCr path =
      '-' :: '-' :: '-' :: ' ' :: 'a' :: '/' :: trimCr path from rfl, ha,
    show "+++ ".toList ++ 'b' :: '/' :: trimCr path =
      '+' :: '+' :: '+' :: ' ' :: 'b' :: '/' :: trimCr path from rfl, hb]
  unfold openFile
  simp

/-- A number and the text of the line it stands for. -/
def NumberedLine (file : List Line) (p : ℤ × String) : Prop :=
  ∃ (k : ℕ) (t : Line), file[k]? = some t ∧ p = ((k : ℤ) + 1, shown t)

theorem numberedLine_newSideOf (es : List Edit) : ∀ (pre post : List Line),
    ∀ p ∈ newSideOf ((pre.length : ℤ) + 1) es, NumberedLine (pre ++ newLines es ++ post) p := by
  induction es with
  | nil => exact fun _ _ _ hp => absurd hp List.not_mem_nil
  | cons e es ih =>
    intro pre post p hp
    -- a line that is kept or inserted is the new file's next one
    have hline : ∀ t : Line, p ∈ ((pre.length : ℤ) + 1, shown t) ::
        newSideOf ((pre.length : ℤ) + 1 + 1) es →
        NumberedLine (pre ++ t :: newLines es ++ post) p := by
      intro t hp
      rcases List.mem_cons.mp hp with rfl | hp
      · refine ⟨pre.length, t, ?_, rfl⟩
        rw [List.append_assoc, List.getElem?_append_right (le_refl _), Nat.sub_self]
        rfl
      · have hrest := ih (pre ++ [t]) post p (by
          rw [List.length_append, List.length_singleton]
          exact hp)
        rwa [List.append_assoc pre [t], List.singleton_append] at hrest
    cases e with
    | keep t => exact hline t hp
    | ins t => exact hline t hp
    | del t => exact ih pre post p hp

theorem numberedLine_expectedHunks (hs : List Hunk) : ∀ (pre post : List Line),
    ∀ h ∈ expectedHunks pre.length hs, ∀ p ∈ h.newSide,
      NumberedLine (pre ++ (hs.flatMap fun h => h.before ++ newLines h.edits) ++ post) p := by
  induction hs with
  | nil => exact fun _ _ _ hh => absurd hh List.not_mem_nil
  | cons h hs ih =>
    intro pre post h' hh' p hp
    rw [List.flatMap_cons]
    rcases List.mem_cons.mp hh' with rfl | hh'
    · have hbody := numberedLine_newSideOf h.edits (pre ++ h.before)
        ((hs.flatMap fun h => h.before ++ newLines h.edits) ++ post) p (by
          rw [List.length_append]
          exact hp)
      simpa only [List.append_assoc] using hbody
    · have hrest := ih (pre ++ h.before ++ newLines h.edits) post h' (by
        rw [List.length_append, List.length_append]
        exact hh') p hp
      simpa only [List.append_assoc] using hrest

/-- **The parser recovers the edit script.**  Of a rendered script whose files have fewer than
`2 ^ 31` lines it returns one file with one hunk for each rendered hunk, and no error: the changes,
the deleted texts and the new side are the script's, and each line of a new side is the line of the
new file with that number. -/
theorem parseUnifiedDiff_render (d : FileDiff) (hold : d.oldFile.length ≤ i32Max)
    (hnew : d.newFile.length < i32Max) :
    parseUnifiedDiff d.render =
        ⟨[{ d.file with hunks := expectedHunks 0 d.hunks }], [], [], []⟩ ∧
      ∀ h ∈ expectedHunks 0 d.hunks, ∀ p ∈ h.newSide, NumberedLine d.newFile p :=
  ⟨parse_render d hold hnew, numberedLine_expectedHunks d.hunks [] d.rest⟩

/-- A diff whose body has a line that looks like a path line, and a deleted line that ends in a
carriage return. -/
def carriageDiff : FileDiff where
  gitHeader := none
  oldLabel := ⟨"a/x.al".toList, by decide⟩
  newLabel := ⟨"b/x.al".toList, by decide⟩
  hunks :=
    [{ before := [⟨"one".toList, by decide⟩]
       body :=
        [⟨.del ⟨"-- old".toList, by decide⟩, false⟩, ⟨.del ⟨"x\r".toList, by decide⟩, true⟩,
          ⟨.ins ⟨"++ new".toList, by decide⟩, false⟩]
       heading := ⟨[], by decide⟩ }]
  rest := []

/-- The bounds hold of a file of a few lines. -/
theorem parseUnifiedDiff_render_carriage :
    carriageDiff.oldFile.length ≤ i32Max ∧ carriageDiff.newFile.length < i32Max ∧
      (parseUnifiedDiff carriageDiff.render =
          ⟨[{ carriageDiff.file with hunks := expectedHunks 0 carriageDiff.hunks }], [], [], []⟩ ∧
        ∀ h ∈ expectedHunks 0 carriageDiff.hunks, ∀ p ∈ h.newSide,
          NumberedLine carriageDiff.newFile p) :=
  ⟨by decide, by decide, parseUnifiedDiff_render carriageDiff (by decide) (by decide)⟩

/-- The deleted texts are recorded without the carriage return. -/
theorem deleted_carriage :
    ((parseUnifiedDiff carriageDiff.render).files.flatMap DiffFile.hunks).map DiffHunk.deleted =
        [[["-- old", "x"]]] ∧
      ((parseUnifiedDiff carriageDiff.render).files.flatMap DiffFile.hunks).map DiffHunk.deleted ≠
        [[["-- old", "x\r"]]] := by
  rw [parse_render carriageDiff (by decide) (by decide)]
  decide

end AlSem.L5
