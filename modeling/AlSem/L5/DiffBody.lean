/-
# Reading a rendered hunk

The body of an open hunk over the lines of an edit script: the counts go down with the script, so the
body closes at its end and not before; what it records is what the script says.  The induction is on
the script, with one statement for a script that starts after a deleted line and one for any other.
-/
import AlSem.L5.DiffRender

namespace AlSem.L5

open Text

/-! ## 1. Carriage returns -/

theorem trimEndBy_cons {p : Char → Bool} {c : Char} (h : p c = false) (cs : List Char) :
    trimEndBy p (c :: cs) = c :: trimEndBy p cs := by
  unfold trimEndBy
  rw [List.reverse_cons, List.dropWhile_append]
  split
  · rename_i hnil
    rw [List.isEmpty_iff] at hnil
    rw [hnil, List.dropWhile_cons_of_neg (by rw [h]; exact Bool.false_ne_true)]
    rfl
  · rw [List.reverse_append]
    rfl

theorem trimCr_cons {c : Char} (h : c ≠ '\r') (cs : List Char) :
    trimCr (c :: cs) = c :: trimCr cs :=
  trimEndBy_cons (by simpa using h) cs

/-- Behind characters that are no carriage returns only the rest is trimmed. -/
theorem trimCr_append {a : List Char} (h : '\r' ∉ a) (b : List Char) :
    trimCr (a ++ b) = a ++ trimCr b := by
  induction a with
  | nil => rfl
  | cons c a ih =>
    rw [List.mem_cons, not_or] at h
    rw [List.cons_append, trimCr_cons (Ne.symm h.1), ih h.2, List.cons_append]

/-! ## 2. One line of a script -/

/-- The counts a script needs are the hunk's. -/
structure OpenHunk.Fits (h : OpenHunk) (es : List Edit) : Prop where
  old : h.oldLeft = (oldLines es).length
  new : h.newLeft = (newLines es).length

/-- What the open hunk makes of a line of the script. -/
def OpenHunk.acceptEdit (h : OpenHunk) (e : Edit) (hunk : DiffHunk) : OpenHunk × DiffHunk :=
  match e with
  | .keep t => h.acceptContext (trimCr t.1) hunk
  | .del t => h.acceptDeleted (trimCr t.1) hunk
  | .ins t => h.acceptAdded (trimCr t.1) hunk

variable {h : OpenHunk} {e : Edit} {es : List Edit}

/-- A line of the script is body while the counts hold it. -/
theorem accept_renderEdit (hfits : h.Fits (e :: es)) (hunk : DiffHunk) :
    h.accept (trimCr (renderEdit e)) hunk = some (h.acceptEdit e hunk) := by
  obtain ⟨hold, hnew⟩ := hfits
  cases e with
  | keep t =>
    have hroom : 0 < h.oldLeft ∧ 0 < h.newLeft := by
      rw [hold, hnew]
      exact ⟨Nat.succ_pos _, Nat.succ_pos _⟩
    rw [renderEdit, trimCr_cons (by decide)]
    exact if_pos hroom
  | del t =>
    have hroom : 0 < h.oldLeft := by
      rw [hold]
      exact Nat.succ_pos _
    rw [renderEdit, trimCr_cons (by decide)]
    exact if_pos hroom
  | ins t =>
    have hroom : 0 < h.newLeft := by
      rw [hnew]
      exact Nat.succ_pos _
    rw [renderEdit, trimCr_cons (by decide)]
    exact if_pos hroom

/-- The counts go down with the script. -/
theorem fits_acceptEdit (hfits : h.Fits (e :: es)) (hunk : DiffHunk) :
    (h.acceptEdit e hunk).1.Fits es := by
  obtain ⟨hold, hnew⟩ := hfits
  cases e with
  | keep t => exact ⟨congrArg (· - 1) hold, congrArg (· - 1) hnew⟩
  | del t => exact ⟨congrArg (· - 1) hold, hnew⟩
  | ins t => exact ⟨hold, congrArg (· - 1) hnew⟩

/-- **The body is complete at the end of the script, and not before.** -/
theorem isComplete_iff_of_fits (hfits : h.Fits es) : h.isComplete = true ↔ es = [] := by
  unfold OpenHunk.isComplete
  rw [hfits.old, hfits.new, Bool.and_eq_true, beq_iff_eq, beq_iff_eq]
  constructor
  · rintro ⟨hold, hnew⟩
    cases es with
    | nil => rfl
    | cons e es =>
      cases e with
      | keep t => cases hold
      | del t => cases hold
      | ins t => cases hnew
  · rintro rfl
    exact ⟨rfl, rfl⟩

/-! ## 3. What a script leaves in the hunk -/

theorem mapLast_append_singleton {α : Type} (f : α → α) (l : List α) (a : α) :
    mapLast f (l ++ [a]) = l ++ [f a] := by
  induction l with
  | nil => rfl
  | cons b l ih =>
    cases l with
    | nil => rfl
    | cons c l => rw [List.cons_append, List.cons_append, mapLast, ← List.cons_append, ih]; rfl

theorem line_change (r : DeletionRun) (n : ℤ) : (r.change n).line = n := by
  unfold DeletionRun.change
  split <;> rfl

/-- The open hunk and its record after a script. -/
def acceptEdits (s : OpenHunk × DiffHunk) (es : List Edit) : OpenHunk × DiffHunk :=
  es.foldl (fun s e => s.1.acceptEdit e s.2) s

/-- One more line of a run. -/
def nextLine (r : DeletionRun) (t : Line) : DeletionRun := r.next (trimCr t.1)

/-- **What a script adds to the record**: after a line that is not deleted, and after the line `n` of
a run, whose change and texts are then the record's last. -/
theorem acceptEdits_spec (es : List Edit) :
    (∀ (h : OpenHunk) (hunk : DiffHunk), h.inDeletionRun = false →
      (acceptEdits (h, hunk) es).2 =
        { hunk with
          changes := hunk.changes ++ changesOf false h.cursor es
          deleted := hunk.deleted ++ deletedOf false es
          newSide := hunk.newSide ++ newSideOf h.cursor es }) ∧
    ∀ (h : OpenHunk) (hunk : DiffHunk) (changes : List HunkChange) (deleted : List (List String))
      (n : ℤ) (run : List String), h.inDeletionRun = true →
      hunk.changes = changes ++ [h.run.change n] → hunk.deleted = deleted ++ [run] →
      (acceptEdits (h, hunk) es).2 =
        { hunk with
          changes := changes ++ ((leadingDeleted es).foldl nextLine h.run).change n ::
            changesOf true h.cursor es
          deleted := deleted ++ (run ++ (leadingDeleted es).map shown) :: deletedOf true es
          newSide := hunk.newSide ++ newSideOf h.cursor es } := by
  induction es with
  | nil =>
    constructor
    · intro h hunk _
      unfold changesOf deletedOf newSideOf
      rw [List.append_nil, List.append_nil, List.append_nil]
      rfl
    · intro h hunk changes deleted n run _ hchanges hdeleted
      unfold changesOf deletedOf newSideOf leadingDeleted
      rw [List.map_nil, List.append_nil, List.append_nil, List.foldl_nil, ← hchanges, ← hdeleted]
      rfl
  | cons e es ih =>
    obtain ⟨ihOut, ihIn⟩ := ih
    constructor
    · intro h hunk hout
      cases e with
      | keep t =>
        refine (ihOut _ _ rfl).trans ?_
        simp [changesOf, deletedOf, newSideOf, shown]
      | ins t =>
        refine (ihOut _ _ rfl).trans ?_
        simp [changesOf, deletedOf, newSideOf, shown]
      | del t =>
        -- the line opens a run: its change and its texts are the last ones
        have hstep : h.acceptDeleted (trimCr t.1) hunk =
            ({ h with
                oldLeft := h.oldLeft - 1
                inDeletionRun := true
                run := nextLine .start t },
              { hunk with
                changes := hunk.changes ++ [(nextLine .start t).change (h.cursor - 1)]
                deleted := hunk.deleted ++ [[shown t]] }) := by
          unfold OpenHunk.acceptDeleted
          rw [hout]
          dsimp only [Bool.false_eq_true, if_false]
          rw [if_neg Bool.false_ne_true, if_neg Bool.false_ne_true, if_neg Bool.false_ne_true,
            mapLast_append_singleton, mapLast_append_singleton]
          rfl
        unfold acceptEdits
        rw [List.foldl_cons]
        dsimp only [OpenHunk.acceptEdit]
        rw [hstep]
        refine (ihIn _ _ hunk.changes hunk.deleted (h.cursor - 1) [shown t] rfl rfl rfl).trans ?_
        rfl
    · intro h hunk changes deleted n run hin hchanges hdeleted
      cases e with
      | keep t =>
        refine (ihOut _ _ rfl).trans ?_
        simp [changesOf, deletedOf, newSideOf, shown, leadingDeleted,
          hchanges, hdeleted]
      | ins t =>
        refine (ihOut _ _ rfl).trans ?_
        simp [changesOf, deletedOf, newSideOf, shown, leadingDeleted,
          hchanges, hdeleted]
      | del t =>
        -- the run goes on: its change is classified anew, its texts grow
        have hstep : h.acceptDeleted (trimCr t.1) hunk =
            ({ h with
                oldLeft := h.oldLeft - 1
                inDeletionRun := true
                run := nextLine h.run t },
              { hunk with
                changes := changes ++ [(nextLine h.run t).change n]
                deleted := deleted ++ [run ++ [shown t]] }) := by
          unfold OpenHunk.acceptDeleted
          rw [hin, hchanges, hdeleted]
          dsimp only
          rw [if_pos rfl, if_pos rfl, if_pos rfl, mapLast_append_singleton,
            mapLast_append_singleton, line_change]
          rfl
        unfold acceptEdits
        rw [List.foldl_cons]
        dsimp only [OpenHunk.acceptEdit]
        rw [hstep]
        refine (ihIn _ _ changes deleted n (run ++ [shown t]) rfl rfl rfl).trans ?_
        simp [changesOf, deletedOf, newSideOf, leadingDeleted]

/-! ## 4. A line outside a hunk -/

/-- Outside a hunk a line is a header line. -/
theorem step_eq_topLevel {s : ParseState} (hskip : s.fileSection.skip = false) (hopen : s.openHunk = none)
    (line : List Char) : s.step line = s.topLevel (trimCr line) := by
  unfold ParseState.step
  dsimp only
  rw [hskip, Bool.false_and, if_neg Bool.false_ne_true, hopen]

/-- A line that starts with `@@` is a hunk line, whatever comes before it. -/
theorem topLevel_at (s : ParseState) (cs : List Char) :
    s.topLevel ('@' :: '@' :: cs) = s.hunkLine ('@' :: '@' :: cs) := by
  rfl

end AlSem.L5
