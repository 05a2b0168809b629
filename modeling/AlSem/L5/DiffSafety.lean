/-
# No hunk and no rejected header is lost

`l5/diff_parser.rs` over any text.  Each header line flushes a part of the pending state; none of
them touches the hunks read so far.  So the hunks of the result are the hunks opened, in order, each
within its header, each short one with its `truncated` error; and a rejected header stays pending
until its section is closed, which attaches it to the section's path.
-/
import AlSem.L5.DiffInvariant

namespace AlSem.L5

open Text

/-! ## 1. The hunks of a state -/

/-- The hunks of the files done and of the current one. -/
def ParseState.hunks (s : ParseState) : List DiffHunk :=
  s.files.flatMap DiffFile.hunks ++ (s.currentFile.map DiffFile.hunks).getD []

/-- The error of a hunk that ends too early. -/
def truncatedError (hunk : DiffHunk) : String :=
  "hunk at +" ++ Nat.repr hunk.newStart ++ " truncated"

/-- The errors the short hunks of a list should have. -/
def truncations (hunks : List DiffHunk) : List String :=
  (hunks.filter fun hunk => !hunk.isFilled).map truncatedError

/-- Hunks that are done. -/
structure Settled (hunks : List DiffHunk) (errors : List String) : Prop where
  sound : ∀ hunk ∈ hunks, hunk.Sound
  truncated : (truncations hunks).Sublist errors

theorem Settled.mono {hunks : List DiffHunk} {errors errors' : List String}
    (h : Settled hunks errors) (hsub : errors.Sublist errors') : Settled hunks errors' :=
  ⟨h.sound, h.truncated.trans hsub⟩

/-- A hunk that used up its counts. -/
theorem Settled.filled {hunks : List DiffHunk} {errors : List String} {hunk : DiffHunk}
    (h : Settled hunks errors) (hsound : hunk.Sound) (hfilled : hunk.isFilled = true) :
    Settled (hunks ++ [hunk]) errors where
  sound := by
    intro x hx
    rcases List.mem_append.mp hx with hx | hx
    · exact h.sound x hx
    · rw [List.mem_singleton.mp hx]
      exact hsound
  truncated := by
    unfold truncations
    rw [List.filter_append, List.filter_singleton, hfilled, Bool.not_true, cond_false,
      List.append_nil]
    exact h.truncated

/-- A hunk that ended too early, with its error. -/
theorem Settled.short {hunks : List DiffHunk} {errors : List String} {hunk : DiffHunk}
    (h : Settled hunks errors) (hsound : hunk.Sound) (hshort : hunk.isFilled = false) :
    Settled (hunks ++ [hunk]) (errors ++ [truncatedError hunk]) where
  sound := by
    intro x hx
    rcases List.mem_append.mp hx with hx | hx
    · exact h.sound x hx
    · rw [List.mem_singleton.mp hx]
      exact hsound
  truncated := by
    unfold truncations
    rw [List.filter_append, List.filter_singleton, hshort, List.map_append]
    exact List.Sublist.append h.truncated (List.Sublist.refl _)

/-! ## 2. What a flush keeps -/

/-- Errors are only added. -/
structure Grows (s s' : ParseState) : Prop where
  errors : s.errors.Sublist s'.errors
  fileErrors : s.fileErrors.Sublist s'.fileErrors

/-- The hunks are the same. -/
structure Flushes (s s' : ParseState) : Prop extends Grows s s' where
  openHunk : s'.openHunk = s.openHunk
  hunks : s'.hunks = s.hunks

theorem Grows.refl (s : ParseState) : Grows s s := ⟨List.Sublist.refl _, List.Sublist.refl _⟩

theorem Grows.trans {s₁ s₂ s₃ : ParseState} (h : Grows s₁ s₂) (h' : Grows s₂ s₃) : Grows s₁ s₃ :=
  ⟨h.errors.trans h'.errors, h.fileErrors.trans h'.fileErrors⟩

theorem Flushes.of_eq {s s' : ParseState} (herrors : s'.errors = s.errors)
    (hfileErrors : s'.fileErrors = s.fileErrors) (hopen : s'.openHunk = s.openHunk)
    (hhunks : s'.hunks = s.hunks) : Flushes s s' where
  errors := by rw [herrors]
  fileErrors := by rw [hfileErrors]
  openHunk := hopen
  hunks := hhunks

theorem Flushes.refl (s : ParseState) : Flushes s s := .of_eq rfl rfl rfl rfl

theorem Flushes.trans {s₁ s₂ s₃ : ParseState} (h : Flushes s₁ s₂) (h' : Flushes s₂ s₃) :
    Flushes s₁ s₃ :=
  ⟨h.toGrows.trans h'.toGrows, h'.openHunk.trans h.openHunk, h'.hunks.trans h.hunks⟩

variable {s : ParseState}

theorem flushes_closeSection (s : ParseState) : Flushes s s.closeSection := by
  unfold ParseState.closeSection
  split
  · exact ⟨⟨List.Sublist.refl _, List.sublist_append_left _ _⟩, rfl, rfl⟩
  · exact ⟨⟨List.sublist_append_left _ _, List.Sublist.refl _⟩, rfl, rfl⟩

theorem flushes_finalize (s : ParseState) : Flushes s s.finalize := by
  unfold ParseState.finalize
  cases hf : s.currentFile with
  | none =>
    refine .of_eq rfl rfl rfl ?_
    unfold ParseState.hunks
    rw [hf]
  | some f =>
    refine .of_eq rfl rfl rfl ?_
    unfold ParseState.hunks
    rw [hf, List.flatMap_append]
    simp

theorem currentFile_finalize (s : ParseState) : s.finalize.currentFile = none := by
  unfold ParseState.finalize
  split
  · rfl
  · assumption

theorem fileSection_finalize (s : ParseState) : s.finalize.fileSection = s.fileSection := by
  unfold ParseState.finalize
  split <;> rfl

theorem endFile_cases (s : ParseState) :
    (∃ old path, s.currentFile = none ∧ s.endFile =
      { s with
        files := s.files ++ [⟨path, .renamed, some old, []⟩]
        fileSection := { s.fileSection with dest := some path }
        pendingRenameFrom := none
        pendingRenameTo := none }) ∨ s.endFile = s.finalize := by
  unfold ParseState.endFile
  split
  · rename_i old path _ _ hf
    exact .inl ⟨old, path, hf, rfl⟩
  · exact .inr rfl

theorem flushes_endFile (s : ParseState) : Flushes s s.endFile := by
  rcases endFile_cases s with ⟨old, path, hf, hend⟩ | hend
  · rw [hend]
    refine .of_eq rfl rfl rfl ?_
    unfold ParseState.hunks
    rw [List.flatMap_append]
    simp
  · rw [hend]
    exact flushes_finalize s

theorem currentFile_endFile (s : ParseState) : s.endFile.currentFile = none := by
  rcases endFile_cases s with ⟨old, path, hf, hend⟩ | hend
  · rw [hend]
    exact hf
  · rw [hend]
    exact currentFile_finalize s

theorem pending_endFile (s : ParseState) :
    s.endFile.fileSection.pending = s.fileSection.pending := by
  rcases endFile_cases s with ⟨old, path, hf, hend⟩ | hend
  · rw [hend]
  · rw [hend, fileSection_finalize]

theorem currentFile_closeSection (s : ParseState) :
    s.closeSection.currentFile = s.currentFile := by
  unfold ParseState.closeSection
  split <;> rfl

theorem fileSection_closeSection (s : ParseState) : s.closeSection.fileSection = .default := by
  unfold ParseState.closeSection
  split <;> rfl

/-! ## 3. The invariant of the headers -/

/-- A `---` line is pending only without a current file; a section is skipped only after an error;
the section of a file is about its path, or a later rename's. -/
structure FileInv (s : ParseState) : Prop where
  pendingOldPath : s.pendingOldPath.isSome = true → s.currentFile = none
  skip : s.fileSection.skip = true → s.fileSection.pending ≠ []
  dest : ∀ f, s.currentFile = some f → s.fileSection.dest = some f.path ∨
    ∃ path, s.pendingRenameTo = some path ∧ s.fileSection.dest = some path

/-- A state without a current file and with a section just begun. -/
theorem FileInv.of_none (hfile : s.currentFile = none) (hskip : s.fileSection.skip = false) :
    FileInv s where
  pendingOldPath := fun _ => hfile
  skip := fun h => absurd (hskip.symm.trans h) Bool.false_ne_true
  dest := fun f hf => by
    rw [hfile] at hf
    cases hf

theorem flushes_oldPathLine (s : ParseState) (line : List Char) : Flushes s (s.oldPathLine line) := by
  have hclosed : Flushes s
      (if s.currentFile.isSome || !s.fileSection.pending.isEmpty then s.closeSection else s) := by
    split
    · exact flushes_closeSection s
    · exact .refl s
  exact (hclosed.trans (flushes_finalize _)).trans (.of_eq rfl rfl rfl rfl)

theorem fileInv_oldPathLine (hinv : FileInv s) (line : List Char) : FileInv (s.oldPathLine line) := by
  refine .of_none (currentFile_finalize _) ?_
  unfold ParseState.oldPathLine
  dsimp only
  rw [fileSection_finalize]
  by_cases hclose : (s.currentFile.isSome || !s.fileSection.pending.isEmpty) = true
  · rw [if_pos hclose, fileSection_closeSection]
    rfl
  · rw [if_neg hclose]
    -- nothing is pending, so the section is not skipped
    have hpending : s.fileSection.pending = [] := by
      rw [Bool.or_eq_true, not_or, Bool.not_eq_true', Bool.not_eq_false, List.isEmpty_iff] at hclose
      exact hclose.2
    have hskip : s.fileSection.skip = false := by
      rw [← Bool.not_eq_true]
      exact fun h => hinv.skip h hpending
    split <;> exact hskip

theorem hunks_openFile (oldP newP renameFrom renameTo : Option String) :
    (openFile oldP newP renameFrom renameTo).hunks = [] := by
  unfold openFile
  split <;> rfl

theorem flushes_newPathLine (hinv : FileInv s) (hpending : s.pendingOldPath.isSome = true)
    (line : List Char) : Flushes s (s.newPathLine line) := by
  refine .of_eq rfl rfl rfl ?_
  unfold ParseState.hunks ParseState.newPathLine
  dsimp only
  rw [Option.map_some, hunks_openFile, hinv.pendingOldPath hpending]
  rfl

theorem fileInv_newPathLine (hinv : FileInv s) (line : List Char) : FileInv (s.newPathLine line) where
  pendingOldPath := fun h => absurd h (by unfold ParseState.newPathLine; simp)
  skip := hinv.skip
  dest := fun f hf => .inl (congrArg (Option.map DiffFile.path) hf)

theorem flushes_sectionLine (s : ParseState) (dest : Option (List Char)) :
    Flushes s (s.sectionLine dest) :=
  ((flushes_endFile s).trans (flushes_closeSection _)).trans (.of_eq rfl rfl rfl rfl)

theorem fileInv_sectionLine (s : ParseState) (dest : Option (List Char)) :
    FileInv (s.sectionLine dest) := by
  refine .of_none ?_ ?_
  · exact (currentFile_closeSection _).trans (currentFile_endFile s)
  · unfold ParseState.sectionLine
    dsimp only
    rw [fileSection_closeSection]
    rfl

theorem flushes_headerError (s : ParseState) (e : String) : Flushes s (s.headerError e) := by
  unfold ParseState.headerError
  split
  · exact .of_eq rfl rfl rfl rfl
  · exact .refl s

theorem fileInv_headerError (hinv : FileInv s) (e : String) : FileInv (s.headerError e) := by
  unfold ParseState.headerError
  split
  · exact ⟨hinv.pendingOldPath, fun _ => by simp, hinv.dest⟩
  · exact hinv

theorem flushes_onlyInLine (s : ParseState) (line : List Char) : Flushes s (s.onlyInLine line) := by
  unfold ParseState.onlyInLine
  split
  · exact .of_eq rfl rfl rfl rfl
  · exact .refl s

theorem fileInv_onlyInLine (hinv : FileInv s) (line : List Char) : FileInv (s.onlyInLine line) := by
  unfold ParseState.onlyInLine
  split
  · exact ⟨hinv.pendingOldPath, hinv.skip, hinv.dest⟩
  · exact hinv

/-- **A top-level line that is no hunk line flushes.** -/
theorem flushes_topLevel (hinv : FileInv s) {line : List Char} (hat : startsWith "@@" line = false) :
    Flushes s (s.topLevel line) ∧ FileInv (s.topLevel line) := by
  unfold ParseState.topLevel
  split
  · exact ⟨.refl s, hinv⟩
  split
  · exact ⟨flushes_oldPathLine s line, fileInv_oldPathLine hinv line⟩
  split
  · rename_i hplus
    rw [Bool.and_eq_true] at hplus
    exact ⟨flushes_newPathLine hinv hplus.2 line, fileInv_newPathLine hinv line⟩
  split
  · exact ⟨.of_eq rfl rfl rfl rfl, hinv.pendingOldPath, hinv.skip, hinv.dest⟩
  split
  · exact ⟨.of_eq rfl rfl rfl rfl, hinv.pendingOldPath, hinv.skip, fun _ _ => .inr ⟨_, rfl, rfl⟩⟩
  split
  · exact ⟨flushes_sectionLine s _, fileInv_sectionLine s _⟩
  · rw [hat, if_neg Bool.false_ne_true]
    exact ⟨flushes_onlyInLine s line, fileInv_onlyInLine hinv line⟩

/-! ## 4. The invariant of the hunks -/

/-- **Between two lines**: the hunks done are settled, the open one is the last of the current file
and follows its record. -/
structure Kept (s : ParseState) : Prop extends FileInv s where
  closed : s.openHunk = none → Settled s.hunks s.errors
  opened : ∀ h, s.openHunk = some h → ∃ f done hunk, s.currentFile = some f ∧
    f.hunks = done ++ [hunk] ∧ h.Tracks hunk ∧ h.isComplete = false ∧
      Settled (s.files.flatMap DiffFile.hunks ++ done) s.errors

theorem Kept.of_closed (hinv : FileInv s) (hopen : s.openHunk = none)
    (hsettled : Settled s.hunks s.errors) : Kept s where
  toFileInv := hinv
  closed := fun _ => hsettled
  opened := fun h hh => by
    rw [hopen] at hh
    cases hh

/-- The headers of a list of hunks. -/
def headers (hunks : List DiffHunk) : List (ℕ × ℕ × ℕ) := hunks.map DiffHunk.header

/-- The hunk a top-level line opens: a header the parser accepts, in a file. -/
def ParseState.opensAt (s : ParseState) (line : List Char) : Option DiffHunk :=
  match parseHunkHeader line with
  | some (.ok hunk) => s.currentFile.map fun _ => hunk
  | _ => none

/-- The hunk a line opens: none in a skipped section. -/
def ParseState.opensHunk (s : ParseState) (rawLine : List Char) : Option DiffHunk :=
  if s.fileSection.skip then none else s.opensAt (trimCr rawLine)

/-- What a top-level line does to the hunks. -/
structure Opens (s s' : ParseState) (hunk : Option DiffHunk) : Prop where
  kept : Kept s'
  grows : Grows s s'
  headers : headers s'.hunks = headers s.hunks ++ headers hunk.toList

theorem isSome_stripPrefix (pat : String) (cs : List Char) :
    (stripPrefix pat cs).isSome = startsWith pat cs := by
  unfold stripPrefix startsWith
  generalize pat.toList = p
  induction p generalizing cs with
  | nil => cases cs <;> rfl
  | cons c p ih =>
    cases cs with
    | nil => rfl
    | cons d cs =>
      rw [List.isPrefixOf_cons_cons, List.isPrefixOf?]
      cases c == d with
      | true =>
        rw [if_pos rfl, Bool.true_and]
        exact ih cs
      | false => rfl

theorem parseHunkHeader_of_not_at {line : List Char} (hat : startsWith "@@" line = false) :
    parseHunkHeader line = none := by
  rw [← isSome_stripPrefix, Option.isSome_eq_false_iff, Option.isNone_iff_eq_none] at hat
  unfold parseHunkHeader headerRanges
  rw [hat]
  rfl

theorem eq_cons_of_at {line : List Char} (hat : startsWith "@@" line = true) :
    ∃ cs, line = '@' :: '@' :: cs := by
  obtain ⟨cs, rfl⟩ := List.isPrefixOf_iff_prefix.mp hat
  exact ⟨cs, rfl⟩

theorem opens_pushHunk (hinv : FileInv s) (hopen : s.openHunk = none)
    (hsettled : Settled s.hunks s.errors) {line : List Char} {hunk : DiffHunk}
    (hparse : parseHunkHeader line = some (.ok hunk)) :
    Opens s (s.pushHunk hunk) (s.currentFile.map fun _ => hunk) := by
  have htracks := tracks_new hparse
  unfold ParseState.pushHunk
  cases hf : s.currentFile with
  | none =>
    refine ⟨.of_closed hinv hopen hsettled, .refl s, ?_⟩
    exact (List.append_nil _).symm
  | some f =>
    have hhunks : s.hunks = s.files.flatMap DiffFile.hunks ++ f.hunks := by
      unfold ParseState.hunks
      rw [hf]
      rfl
    have hinv' : ∀ o : Option OpenHunk, FileInv
        { s with openHunk := o, currentFile := some { f with hunks := f.hunks ++ [hunk] } } := by
      intro o
      refine ⟨fun h => ?_, hinv.skip, fun f' hf' => ?_⟩
      · have hnone := hinv.pendingOldPath h
        rw [hf] at hnone
        cases hnone
      · obtain rfl := Option.some.inj hf'
        exact hinv.dest f hf
    have hheaders : ∀ o : Option OpenHunk,
        headers ({ s with
          openHunk := o
          currentFile := some { f with hunks := f.hunks ++ [hunk] } } : ParseState).hunks =
          headers s.hunks ++ headers [hunk] := by
      intro o
      rw [hhunks]
      unfold headers ParseState.hunks
      simp
    dsimp only
    by_cases hcomplete : (OpenHunk.new hunk).isComplete = true
    · rw [if_pos hcomplete, hopen]
      refine ⟨.of_closed (hinv' none) rfl ?_, ⟨.refl _, .refl _⟩, hheaders none⟩
      have hfilled := hsettled.filled htracks.sound (htracks.isFilled_eq.trans hcomplete)
      rw [hhunks, List.append_assoc] at hfilled
      exact hfilled
    · rw [if_neg hcomplete]
      refine ⟨⟨hinv' _, fun h => ?_, fun h hh => ?_⟩, ⟨.refl _, .refl _⟩, hheaders _⟩
      · cases h
      · obtain rfl := Option.some.inj hh
        rw [hhunks] at hsettled
        exact ⟨_, f.hunks, hunk, rfl, rfl, htracks, Bool.not_eq_true _ ▸ hcomplete, hsettled⟩

/-- A flush opens nothing. -/
theorem Flushes.opens {s' : ParseState} (hflush : Flushes s s') (hinv : FileInv s')
    (hopen : s.openHunk = none) (hsettled : Settled s.hunks s.errors) : Opens s s' none where
  kept := .of_closed hinv (hflush.openHunk.trans hopen) (by
    rw [hflush.hunks]
    exact hsettled.mono hflush.errors)
  grows := hflush.toGrows
  headers := by
    rw [hflush.hunks]
    exact (List.append_nil _).symm

theorem opens_topLevel (hinv : FileInv s) (hopen : s.openHunk = none)
    (hsettled : Settled s.hunks s.errors) (line : List Char) :
    Opens s (s.topLevel line) (s.opensAt line) := by
  cases hat : startsWith "@@" line with
  | false =>
    obtain ⟨hflush, hinv'⟩ := flushes_topLevel hinv hat
    have hnone : s.opensAt line = none := by
      unfold ParseState.opensAt
      rw [parseHunkHeader_of_not_at hat]
    rw [hnone]
    exact hflush.opens hinv' hopen hsettled
  | true =>
    obtain ⟨cs, rfl⟩ := eq_cons_of_at hat
    rw [topLevel_at]
    have herror : ∀ e, Opens s (s.headerError e) none := fun e =>
      (flushes_headerError s e).opens (fileInv_headerError hinv e) hopen hsettled
    unfold ParseState.hunkLine ParseState.opensAt
    cases hparse : parseHunkHeader ('@' :: '@' :: cs) with
    | none => exact herror _
    | some r =>
      cases r with
      | error e => exact herror e
      | ok hunk => exact opens_pushHunk hinv hopen hsettled hparse

/-! ## 5. One line -/

/-- A hunk header is no body line. -/
theorem parseHunkHeader_of_accept {h : OpenHunk} {line : List Char} {hunk : DiffHunk}
    {r : OpenHunk × DiffHunk} (haccept : h.accept line hunk = some r) :
    parseHunkHeader line = none := by
  refine parseHunkHeader_of_not_at ?_
  rw [← Bool.not_eq_true]
  intro hat
  obtain ⟨cs, rfl⟩ := eq_cons_of_at hat
  cases haccept

/-- A body line changes the current file's last hunk, under its header. -/
theorem opens_body (hinv : FileInv s) {f : DiffFile} {done : List DiffHunk} {hunk hunk' : DiffHunk}
    {h' : OpenHunk} (hf : s.currentFile = some f) (hhunks : f.hunks = done ++ [hunk])
    (hsettled : Settled (s.files.flatMap DiffFile.hunks ++ done) s.errors) (htracks : h'.Tracks hunk')
    (hheader : hunk'.header = hunk.header) :
    Opens s { s.setLastHunk hunk' with openHunk := if h'.isComplete then none else some h' } none := by
  have hlast : (s.setLastHunk hunk').currentFile = some { f with hunks := done ++ [hunk'] } := by
    unfold ParseState.setLastHunk
    dsimp only
    rw [hf, Option.map_some, hhunks, mapLast_append_singleton]
  have hall : (s.setLastHunk hunk').hunks = s.files.flatMap DiffFile.hunks ++ done ++ [hunk'] := by
    unfold ParseState.hunks
    rw [hlast, Option.map_some, Option.getD_some, List.append_assoc]
    rfl
  have hinv' : ∀ o : Option OpenHunk, FileInv { s.setLastHunk hunk' with openHunk := o } := by
    intro o
    refine ⟨fun h => ?_, hinv.skip, fun f' hf' => ?_⟩
    · have hnone := hinv.pendingOldPath h
      rw [hf] at hnone
      cases hnone
    · obtain rfl := Option.some.inj (hlast.symm.trans hf')
      exact hinv.dest f hf
  refine ⟨?_, ⟨.refl _, .refl _⟩, ?_⟩
  · by_cases hcomplete : h'.isComplete = true
    · rw [if_pos hcomplete]
      refine .of_closed (hinv' none) rfl ?_
      have hfilled := hsettled.filled htracks.sound (htracks.isFilled_eq.trans hcomplete)
      rw [← hall] at hfilled
      exact hfilled
    · rw [if_neg hcomplete]
      refine ⟨hinv' _, fun h => (by cases h), fun h hh => ?_⟩
      obtain rfl := Option.some.inj hh
      exact ⟨_, done, hunk', hlast, rfl, htracks, Bool.not_eq_true _ ▸ hcomplete, hsettled⟩
  · have hbefore : s.hunks = s.files.flatMap DiffFile.hunks ++ done ++ [hunk] := by
      unfold ParseState.hunks
      rw [hf, Option.map_some, Option.getD_some, hhunks, List.append_assoc]
    have hafter := congrArg headers hall
    rw [hbefore]
    refine hafter.trans ?_
    unfold headers
    simp [hheader]

/-- **One line keeps the invariant**, and the headers of the hunks grow by the one it opens. -/
theorem opens_step (hkept : Kept s) (rawLine : List Char) :
    Opens s (s.step rawLine) (s.opensHunk rawLine) := by
  unfold ParseState.step ParseState.opensHunk
  dsimp only
  by_cases hskip : (s.fileSection.skip && (sectionHeaderDest (trimCr rawLine)).isNone) = true
  · rw [if_pos hskip, if_pos (Bool.and_eq_true _ _ ▸ hskip).1]
    exact ⟨hkept, .refl s, (List.append_nil _).symm⟩
  rw [if_neg hskip]
  -- a line that is not skipped opens what it opens at top level
  have hopens : (if s.fileSection.skip = true then none else s.opensAt (trimCr rawLine)) =
      s.opensAt (trimCr rawLine) := by
    by_cases hs : s.fileSection.skip = true
    · rw [if_pos hs]
      rw [hs, Bool.true_and, Option.isNone_iff_eq_none] at hskip
      have hat : startsWith "@@" (trimCr rawLine) = false := by
        rw [← Bool.not_eq_true]
        intro hat
        obtain ⟨cs, hcs⟩ := eq_cons_of_at hat
        rw [hcs] at hskip
        exact hskip rfl
      unfold ParseState.opensAt
      rw [parseHunkHeader_of_not_at hat]
    · rw [if_neg hs]
  rw [hopens]
  cases hopen : s.openHunk with
  | none => exact opens_topLevel hkept.toFileInv hopen (hkept.closed hopen) _
  | some h =>
    obtain ⟨f, done, hunk, hf, hhunks, htracks, hcomplete, hsettled⟩ := hkept.opened h hopen
    have hlast : s.lastHunk = some hunk := by
      unfold ParseState.lastHunk
      rw [hf, Option.bind_some, hhunks, List.getLast?_concat]
    have hall : s.hunks = s.files.flatMap DiffFile.hunks ++ done ++ [hunk] := by
      unfold ParseState.hunks
      rw [hf, Option.map_some, Option.getD_some, hhunks, List.append_assoc]
    dsimp only
    rw [hlast]
    dsimp only
    cases haccept : h.accept (trimCr rawLine) hunk with
    | some r =>
      obtain ⟨h', hunk'⟩ := r
      obtain ⟨htracks', hheader⟩ := tracks_accept htracks haccept
      have hnone : s.opensAt (trimCr rawLine) = none := by
        unfold ParseState.opensAt
        rw [parseHunkHeader_of_accept haccept]
      rw [hnone]
      exact opens_body hkept.toFileInv hf hhunks hsettled htracks' hheader
    | none =>
      have hshort : hunk.isFilled = false := htracks.isFilled_eq.trans hcomplete
      have hsettled' := hsettled.short htracks.sound hshort
      have herror : truncated h = truncatedError hunk := by
        unfold truncated truncatedError
        rw [htracks.start]
      rw [← hall, ← herror] at hsettled'
      -- the hunk ends here, short; the line is read again at top level
      have htop := opens_topLevel
        (s := { s with openHunk := none, errors := s.errors ++ [truncated h] })
        ⟨hkept.pendingOldPath, hkept.skip, hkept.dest⟩ rfl hsettled' (trimCr rawLine)
      exact ⟨htop.kept, ⟨(List.sublist_append_left _ _).trans htop.grows.errors,
        htop.grows.fileErrors⟩, htop.headers⟩

/-! ## 6. A whole text -/

/-- The lines of the input: a blank one has none. -/
def inputLines (text : String) : List (List Char) :=
  if trimList text.toList = [] then [] else diffLines text.toList

theorem parseUnifiedDiff_eq (text : String) :
    parseUnifiedDiff text = ((inputLines text).foldl ParseState.step .init).finish := by
  unfold parseUnifiedDiff inputLines
  split <;> rfl

/-- The hunks the lines open, one after the other. -/
def openedHunks : ParseState → List (List Char) → List DiffHunk
  | _, [] => []
  | s, l :: ls => (s.opensHunk l).toList ++ openedHunks (s.step l) ls

theorem kept_init : Kept .init :=
  .of_closed (.of_none rfl rfl) rfl
    ⟨fun _ h => absurd h List.not_mem_nil, List.Sublist.refl _⟩

/-- **A run of lines.** -/
theorem run_step (ls : List (List Char)) : ∀ {s : ParseState}, Kept s →
    Kept (ls.foldl ParseState.step s) ∧ Grows s (ls.foldl ParseState.step s) ∧
      headers (ls.foldl ParseState.step s).hunks =
        headers s.hunks ++ headers (openedHunks s ls) := by
  induction ls with
  | nil =>
    intro s hkept
    exact ⟨hkept, .refl s, (List.append_nil _).symm⟩
  | cons l ls ih =>
    intro s hkept
    obtain ⟨hkept', hgrows, hheaders⟩ := opens_step hkept l
    obtain ⟨hrun, hgrows', hheaders'⟩ := ih hkept'
    refine ⟨hrun, hgrows.trans hgrows', ?_⟩
    have hopened : headers (openedHunks s (l :: ls)) =
        headers (s.opensHunk l).toList ++ headers (openedHunks (s.step l) ls) := List.map_append
    rw [List.foldl_cons, hheaders', hheaders, hopened, List.append_assoc]

/-- The state at the end of the input, an open hunk ended. -/
def ParseState.ended (s : ParseState) : ParseState :=
  match s.openHunk with
  | some h => { s with errors := s.errors ++ [truncated h] }
  | none => s

theorem finish_eq (s : ParseState) :
    s.finish = ⟨s.ended.endFile.closeSection.files, s.ended.endFile.closeSection.errors,
      s.ended.endFile.closeSection.fileErrors, s.ended.endFile.closeSection.onlyIn⟩ := rfl

theorem grows_ended (s : ParseState) : Grows s s.ended := by
  unfold ParseState.ended
  split
  · exact ⟨List.sublist_append_left _ _, .refl _⟩
  · exact .refl s

/-- **The end of the input**: all hunks are done and listed. -/
theorem settled_finish (hkept : Kept s) :
    Settled (s.finish.files.flatMap DiffFile.hunks) s.finish.errors ∧
      headers (s.finish.files.flatMap DiffFile.hunks) = headers s.hunks := by
  have hflush := (flushes_endFile s.ended).trans (flushes_closeSection s.ended.endFile)
  have hhunks : s.ended.hunks = s.hunks := by
    unfold ParseState.ended
    split <;> rfl
  have hfiles : s.finish.files.flatMap DiffFile.hunks = s.hunks := by
    have hlisted : s.ended.endFile.closeSection.hunks =
        s.finish.files.flatMap DiffFile.hunks := by
      unfold ParseState.hunks
      rw [currentFile_closeSection, currentFile_endFile, finish_eq]
      exact List.append_nil _
    rw [← hlisted, hflush.hunks, hhunks]
  have hsettled : Settled s.hunks s.ended.errors := by
    unfold ParseState.ended
    cases hopen : s.openHunk with
    | none => exact hkept.closed hopen
    | some h =>
      obtain ⟨f, done, hunk, hf, hdone, htracks, hcomplete, hsettled⟩ := hkept.opened h hopen
      have hshort := hsettled.short htracks.sound (htracks.isFilled_eq.trans hcomplete)
      have hall : s.hunks = s.files.flatMap DiffFile.hunks ++ done ++ [hunk] := by
        unfold ParseState.hunks
        rw [hf, Option.map_some, Option.getD_some, hdone, List.append_assoc]
      have herror : truncated h = truncatedError hunk := by
        unfold truncated truncatedError
        rw [htracks.start]
      rw [hall]
      dsimp only
      rw [herror]
      exact hshort
  rw [hfiles]
  exact ⟨hsettled.mono hflush.errors, rfl⟩

/-! ## 7. Rejected headers -/

/-- The error of a `@@` line that is no well-formed header. -/
def rejectedHeader (line : List Char) : Option String :=
  match parseHunkHeader line with
  | some (.ok _) => none
  | some (.error e) => some e
  | none => some ("malformed hunk header `" ++ String.ofList line ++ "`")

/-- The line is a line of the open hunk's body. -/
def ParseState.takes (s : ParseState) (line : List Char) : Bool :=
  match s.openHunk, s.lastHunk with
  | some h, some hunk => (h.accept line hunk).isSome
  | _, _ => false

/-- Whether a top-level line closes the section, and the path the section then has: a `--- ` line
behind a file or an error, and each section header. -/
def ParseState.topDest (s : ParseState) (line : List Char) : Option (Option String) :=
  if startsWith "--- " line then
    if s.currentFile.isSome || !s.fileSection.pending.isEmpty then some s.fileSection.dest else none
  else (sectionHeaderDest line).map fun _ => s.endFile.fileSection.dest

/-- The same of any line. -/
def ParseState.closingDest (s : ParseState) (rawLine : List Char) : Option (Option String) :=
  let line := trimCr rawLine
  if s.fileSection.skip && (sectionHeaderDest line).isNone then none
  else if s.takes line then none
  else s.topDest line

/-- **The path of the section** a state is in: its destination when a later line, or the end of the
input, closes it. -/
def sectionPath : ParseState → List (List Char) → Option String
  | s, [] => s.endFile.fileSection.dest
  | s, l :: ls =>
    match s.closingDest l with
    | some dest => dest
    | none => sectionPath (s.step l) ls

/-- An error is attached to a path, or global without one. -/
def Reported (errors : List String) (fileErrors : List FileError) (e : String) :
    Option String → Prop
  | some path => ⟨path, e⟩ ∈ fileErrors
  | none => e ∈ errors

theorem Grows.reported {s s' : ParseState} (h : Grows s s') {e : String} {dest : Option String}
    (hr : Reported s.errors s.fileErrors e dest) : Reported s'.errors s'.fileErrors e dest := by
  cases dest with
  | none => exact h.errors.subset hr
  | some path => exact h.fileErrors.subset hr

/-- Closing a section reports what is pending. -/
theorem reported_closeSection {e : String} (he : e ∈ s.fileSection.pending) :
    Reported s.closeSection.errors s.closeSection.fileErrors e s.fileSection.dest := by
  unfold ParseState.closeSection
  cases s.fileSection.dest with
  | none => exact List.mem_append_right _ he
  | some path => exact List.mem_append_right _ (List.mem_map_of_mem he)

theorem eq_cons_of_sectionHeader {line : List Char} {dest : Option (List Char)}
    (h : sectionHeaderDest line = some dest) : ∃ cs, line = 'd' :: cs := by
  have hstrip : ∀ pat : String, pat.toList.head? = some 'd' → (stripPrefix pat line).isSome = true →
      ∃ cs, line = 'd' :: cs := by
    intro pat hd hsome
    rw [isSome_stripPrefix] at hsome
    obtain ⟨cs, rfl⟩ := List.isPrefixOf_iff_prefix.mp hsome
    cases hpat : pat.toList with
    | nil =>
      rw [hpat] at hd
      cases hd
    | cons c pat' =>
      rw [hpat] at hd
      obtain rfl := Option.some.inj hd
      exact ⟨pat' ++ cs, rfl⟩
  unfold sectionHeaderDest at h
  cases hgit : stripPrefix "diff --git " line with
  | some rest => exact hstrip "diff --git " (by decide) (by rw [hgit]; rfl)
  | none =>
    rw [hgit] at h
    dsimp only at h
    cases hcc : stripPrefix "diff --cc " line with
    | some rest => exact hstrip "diff --cc " (by decide) (by rw [hcc]; rfl)
    | none =>
      rw [hcc] at h
      cases hcombined : stripPrefix "diff --combined " line with
      | some rest => exact hstrip "diff --combined " (by decide) (by rw [hcombined]; rfl)
      | none =>
        rw [hcombined] at h
        cases h

/-- A pending error at a top-level line: reported when the line closes the section, else still
pending. -/
theorem pending_topLevel {e : String} (he : e ∈ s.fileSection.pending) (line : List Char) :
    match s.topDest line with
    | some dest => Reported (s.topLevel line).errors (s.topLevel line).fileErrors e dest
    | none => e ∈ (s.topLevel line).fileSection.pending := by
  unfold ParseState.topDest
  cases hold : startsWith "--- " line with
  | true =>
    obtain ⟨cs, rfl⟩ := List.isPrefixOf_iff_prefix.mp hold
    have htop : s.topLevel ("--- ".toList ++ cs) = s.oldPathLine ("--- ".toList ++ cs) := rfl
    rw [htop, if_pos rfl]
    by_cases hclose : (s.currentFile.isSome || !s.fileSection.pending.isEmpty) = true
    · rw [if_pos hclose]
      have hgrows : Grows s.closeSection (s.oldPathLine ("--- ".toList ++ cs)) := by
        unfold ParseState.oldPathLine
        rw [if_pos hclose]
        have hflush := flushes_finalize s.closeSection
        exact ⟨hflush.errors, hflush.fileErrors⟩
      exact hgrows.reported (reported_closeSection he)
    · rw [Bool.or_eq_true, not_or, Bool.not_eq_true', Bool.not_eq_false, List.isEmpty_iff] at hclose
      rw [hclose.2] at he
      exact absurd he List.not_mem_nil
  | false =>
    rw [if_neg Bool.false_ne_true]
    cases hheader : sectionHeaderDest line with
    | some dest =>
      obtain ⟨cs, rfl⟩ := eq_cons_of_sectionHeader hheader
      have htop : s.topLevel ('d' :: cs) = s.sectionLine dest := by
        unfold ParseState.topLevel
        rw [hold, hheader]
        rfl
      rw [htop]
      have hgrows : Grows s.endFile.closeSection (s.sectionLine dest) := ⟨.refl _, .refl _⟩
      refine hgrows.reported (reported_closeSection ?_)
      rw [pending_endFile]
      exact he
    | none =>
      have hkeep : ∀ s' : ParseState, e ∈ s'.fileSection.pending →
          e ∈ (s'.onlyInLine line).fileSection.pending := by
        intro s' he'
        unfold ParseState.onlyInLine
        split <;> exact he'
      have herror : ∀ e', e ∈ (s.headerError e').fileSection.pending := by
        intro e'
        unfold ParseState.headerError
        split
        · exact List.mem_append_left _ he
        · exact he
      have hhunk : e ∈ (s.hunkLine line).fileSection.pending := by
        unfold ParseState.hunkLine
        split
        · unfold ParseState.pushHunk
          split <;> exact he
        · exact herror _
        · exact herror _
      have htop : e ∈ (s.topLevel line).fileSection.pending := by
        unfold ParseState.topLevel
        rw [hold, hheader]
        split
        · exact he
        rw [if_neg Bool.false_ne_true]
        split
        · exact he
        split
        · exact he
        split
        · exact he
        · refine hkeep _ ?_
          split
          · exact hhunk
          · exact he
      exact htop

/-- The destination of a section does not depend on the open hunk or the errors. -/
theorem fileSection_endFile_with (s : ParseState) (o : Option OpenHunk) (errors : List String) :
    ({ s with openHunk := o, errors := errors } : ParseState).endFile.fileSection =
      s.endFile.fileSection := by
  unfold ParseState.endFile ParseState.finalize
  cases s.pendingRenameFrom <;> cases s.pendingRenameTo <;> cases s.currentFile <;> rfl

/-- **What becomes of a line**: it is skipped, it is a body line, or it is read at top level, perhaps
behind a hunk that ends with it. -/
theorem step_cases (s : ParseState) (rawLine : List Char) :
    (s.fileSection.skip && (sectionHeaderDest (trimCr rawLine)).isNone) = true ∧
      s.step rawLine = s ∨
    (s.fileSection.skip && (sectionHeaderDest (trimCr rawLine)).isNone) = false ∧
      s.takes (trimCr rawLine) = true ∧ (s.step rawLine).fileSection = s.fileSection ∨
    (s.fileSection.skip && (sectionHeaderDest (trimCr rawLine)).isNone) = false ∧
      s.takes (trimCr rawLine) = false ∧ ∃ o errors,
        s.step rawLine =
          ({ s with openHunk := o, errors := errors } : ParseState).topLevel (trimCr rawLine) := by
  unfold ParseState.step ParseState.takes
  dsimp only
  cases hskip : (s.fileSection.skip && (sectionHeaderDest (trimCr rawLine)).isNone) with
  | true => exact .inl ⟨rfl, rfl⟩
  | false =>
    rw [if_neg Bool.false_ne_true]
    refine .inr ?_
    cases hopen : s.openHunk with
    | none =>
      exact .inr ⟨rfl, rfl, s.openHunk, s.errors, rfl⟩
    | some h =>
      cases hlast : s.lastHunk with
      | none => exact .inr ⟨rfl, rfl, none, s.errors, rfl⟩
      | some hunk =>
        dsimp only
        cases h.accept (trimCr rawLine) hunk with
        | some r => exact .inl ⟨rfl, rfl, rfl⟩
        | none => exact .inr ⟨rfl, rfl, none, s.errors ++ [truncated h], rfl⟩

/-- **A pending error is carried** from line to line until its section is closed. -/
theorem pending_step {e : String} (he : e ∈ s.fileSection.pending) (rawLine : List Char) :
    match s.closingDest rawLine with
    | some dest => Reported (s.step rawLine).errors (s.step rawLine).fileErrors e dest
    | none => e ∈ (s.step rawLine).fileSection.pending := by
  unfold ParseState.closingDest
  dsimp only
  rcases step_cases s rawLine with ⟨hskip, hstep⟩ | ⟨hskip, htakes, hstep⟩ |
    ⟨hskip, htakes, o, errors, hstep⟩
  · rw [if_pos hskip, hstep]
    exact he
  · rw [hskip, if_neg Bool.false_ne_true, if_pos htakes, hstep]
    exact he
  · have htop := pending_topLevel (s := { s with openHunk := o, errors := errors }) he
      (trimCr rawLine)
    have hdest : ({ s with openHunk := o, errors := errors } : ParseState).topDest
        (trimCr rawLine) = s.topDest (trimCr rawLine) := by
      unfold ParseState.topDest
      rw [fileSection_endFile_with]
    rw [hdest, ← hstep] at htop
    rw [hskip, if_neg Bool.false_ne_true, htakes, if_neg Bool.false_ne_true]
    exact htop

/-- **A pending error is reported** under the section's path. -/
theorem reported_of_pending {e : String} (ls : List (List Char)) :
    ∀ {s : ParseState}, Kept s → e ∈ s.fileSection.pending →
      Reported (ls.foldl ParseState.step s).finish.errors
        (ls.foldl ParseState.step s).finish.fileErrors e (sectionPath s ls) := by
  have hfinish : ∀ s : ParseState, Grows s s.ended.endFile.closeSection := fun s =>
    ((grows_ended s).trans (flushes_endFile s.ended).toGrows).trans
      (flushes_closeSection s.ended.endFile).toGrows
  induction ls with
  | nil =>
    intro s _ he
    have hended : s.ended.endFile.fileSection = s.endFile.fileSection := by
      unfold ParseState.ended
      split
      · exact fileSection_endFile_with s s.openHunk _
      · rfl
    have hpending : e ∈ s.ended.endFile.fileSection.pending := by
      rw [hended, pending_endFile]
      exact he
    have hreported := reported_closeSection hpending
    rw [hended] at hreported
    exact hreported
  | cons l ls ih =>
    intro s hkept he
    have hstep := pending_step he l
    have hkept' := (opens_step hkept l).kept
    rw [List.foldl_cons]
    unfold sectionPath
    cases hclosing : s.closingDest l with
    | none =>
      rw [hclosing] at hstep
      exact ih hkept' hstep
    | some dest =>
      rw [hclosing] at hstep
      exact ((run_step ls hkept').2.1.trans (hfinish _)).reported hstep

/-- A rejected header is pending at once. -/
theorem pending_of_rejected (hin : s.inSection = true) (hskip : s.fileSection.skip = false)
    {rawLine : List Char} (hat : startsWith "@@" (trimCr rawLine) = true) {e : String}
    (he : rejectedHeader (trimCr rawLine) = some e) :
    e ∈ (s.step rawLine).fileSection.pending := by
  have htop : ∀ s' : ParseState, s'.inSection = true →
      e ∈ (s'.topLevel (trimCr rawLine)).fileSection.pending := by
    intro s' hin'
    have herror : e ∈ (s'.headerError e).fileSection.pending := by
      unfold ParseState.headerError
      rw [if_pos hin']
      exact List.mem_append_right _ List.mem_cons_self
    obtain ⟨cs, hcs⟩ := eq_cons_of_at hat
    rw [hcs] at he ⊢
    rw [topLevel_at]
    unfold rejectedHeader at he
    unfold ParseState.hunkLine
    rcases hparse : parseHunkHeader ('@' :: '@' :: cs) with _ | _ | hunk
    · rw [hparse] at he
      rw [Option.some.inj he]
      exact herror
    · rw [hparse] at he
      rw [Option.some.inj he]
      exact herror
    · rw [hparse] at he
      cases he
  have htakes : s.takes (trimCr rawLine) = false := by
    obtain ⟨cs, hcs⟩ := eq_cons_of_at hat
    rw [hcs]
    unfold ParseState.takes
    split <;> rfl
  rcases step_cases s rawLine with ⟨hskipped, _⟩ | ⟨_, htaken, _⟩ | ⟨_, _, o, errors, hstep⟩
  · rw [hskip, Bool.false_and] at hskipped
    cases hskipped
  · rw [htakes] at htaken
    cases htaken
  · rw [hstep]
    exact htop _ hin

/-! ## 8. Any text -/

/-- The state before the lines behind `done`. -/
def stateAfter (done : List (List Char)) : ParseState := done.foldl ParseState.step .init

theorem kept_stateAfter (done : List (List Char)) : Kept (stateAfter done) :=
  (run_step done kept_init).1

/-- The section of a file is about the file's path, or the path a later `rename to` line names. -/
theorem dest_stateAfter {done : List (List Char)} {f : DiffFile}
    (hf : (stateAfter done).currentFile = some f) :
    (stateAfter done).fileSection.dest = some f.path ∨
      ∃ path, (stateAfter done).pendingRenameTo = some path ∧
        (stateAfter done).fileSection.dest = some path :=
  (kept_stateAfter done).dest f hf

/-- **Parsing loses nothing silently and never overflows.**  For every text: the cursor of the open
hunk stays within `i32`; the hunks listed are the hunks opened, in order, each within its counts with
its positions up to the line behind it; each that did not use up its counts has its `truncated`
error, one for each; and each `@@` line of a file section that is no well-formed header has its error
attached to the section's path, unless the section already skips, and then it has an earlier one. -/
theorem parseUnifiedDiff_safe (text : String) :
    (∀ done, done <+: inputLines text → ∀ h, (stateAfter done).openHunk = some h →
        0 ≤ h.cursor ∧ h.cursor ≤ i32Max) ∧
      headers ((parseUnifiedDiff text).files.flatMap DiffFile.hunks) =
        headers (openedHunks .init (inputLines text)) ∧
      (∀ hunk ∈ (parseUnifiedDiff text).files.flatMap DiffFile.hunks, hunk.Sound) ∧
      (truncations ((parseUnifiedDiff text).files.flatMap DiffFile.hunks)).Sublist
        (parseUnifiedDiff text).errors ∧
      ∀ done line rest, inputLines text = done ++ line :: rest →
        (stateAfter done).inSection = true → startsWith "@@" (trimCr line) = true →
        ∀ e, rejectedHeader (trimCr line) = some e →
          ∃ e', ((stateAfter done).fileSection.skip = false → e' = e) ∧
            Reported (parseUnifiedDiff text).errors (parseUnifiedDiff text).fileErrors e'
              (sectionPath ((stateAfter done).step line) rest) := by
  obtain ⟨hkept, _, hheaders⟩ := run_step (inputLines text) kept_init
  obtain ⟨hsettled, hlisted⟩ := settled_finish hkept
  rw [← parseUnifiedDiff_eq] at hsettled hlisted
  refine ⟨?_, hlisted.trans hheaders, hsettled.sound, hsettled.truncated, ?_⟩
  · intro done _ h hopen
    obtain ⟨_, _, hunk, _, _, htracks, _, _⟩ := (kept_stateAfter done).opened h hopen
    obtain ⟨hlow, hhigh⟩ := htracks.cursor_le
    have hfits := htracks.fits
    exact ⟨hlow, by omega⟩
  · intro done line rest hlines hin hat e he
    have hkept' := kept_stateAfter done
    have hstep := (opens_step hkept' line).kept
    have hparse : parseUnifiedDiff text =
        (rest.foldl ParseState.step ((stateAfter done).step line)).finish := by
      rw [parseUnifiedDiff_eq, hlines, List.foldl_append, List.foldl_cons]
      rfl
    rw [hparse]
    cases hskip : (stateAfter done).fileSection.skip with
    | false => exact ⟨e, fun _ => rfl, reported_of_pending rest hstep
        (pending_of_rejected hin hskip hat he)⟩
    | true =>
      -- the line is skipped behind an error that is still pending
      obtain ⟨e', he'⟩ := List.exists_mem_of_ne_nil _ (hkept'.skip hskip)
      have hsame : (stateAfter done).step line = stateAfter done := by
        have hheader : (sectionHeaderDest (trimCr line)).isNone = true := by
          obtain ⟨cs, hcs⟩ := eq_cons_of_at hat
          rw [hcs]
          rfl
        unfold ParseState.step
        dsimp only
        rw [hskip, hheader, Bool.true_and, if_pos rfl]
      refine ⟨e', fun h => (by cases h), reported_of_pending rest hstep ?_⟩
      rw [hsame]
      exact he'

/-- A git section with two malformed headers. -/
def twoMalformed : String := "diff --git a/x b/x\n--- a/x\n+++ b/x\n@@ one\n@@ two\n"

/-- The second one has no error: the section is skipped behind the first. -/
theorem rejected_skipped :
    inputLines twoMalformed =
        ["diff --git a/x b/x".toList, "--- a/x".toList, "+++ b/x".toList, "@@ one".toList] ++
          "@@ two".toList :: [] ∧
      (stateAfter ["diff --git a/x b/x".toList, "--- a/x".toList, "+++ b/x".toList,
        "@@ one".toList]).inSection = true ∧
      rejectedHeader "@@ two".toList = some "malformed hunk header `@@ two`" ∧
      (parseUnifiedDiff twoMalformed).errors = [] ∧
      (parseUnifiedDiff twoMalformed).fileErrors = [⟨"x", "malformed hunk header `@@ one`"⟩] := by
  decide

end AlSem.L5
