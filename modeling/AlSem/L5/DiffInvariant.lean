/-
# What the parser keeps, on any input

`l5/diff_parser.rs` over any text, well-formed or not.  A hunk that is being read has read what its
header's counts have lost, and its cursor stands that far behind its start; every hunk done is within
its counts, and each one that did not use them up has its `truncated` error, in order.  The flush of a
header line moves hunks between the current file and the list and loses none.
-/
import AlSem.L5.DiffBody

namespace AlSem.L5

open Text

/-! ## 1. What a hunk has read -/

def HunkChange.isAdded : HunkChange → Bool
  | .added _ => true
  | _ => false

/-- The new-side lines a hunk has read. -/
def DiffHunk.newRead (hunk : DiffHunk) : ℕ := hunk.newSide.length

def DiffHunk.addedRead (hunk : DiffHunk) : ℕ := hunk.changes.countP HunkChange.isAdded

/-- The old-side lines a hunk has read: the deleted ones, and the new side's that were not added. -/
def DiffHunk.oldRead (hunk : DiffHunk) : ℕ :=
  (hunk.deleted.map List.length).sum + (hunk.newRead - hunk.addedRead)

/-- The line behind the hunk, the largest position it may name. -/
def DiffHunk.bound (hunk : DiffHunk) : ℕ := hunk.newStart + max hunk.newCount 1

/-- Both counts are used up exactly. -/
def DiffHunk.isFilled (hunk : DiffHunk) : Bool :=
  hunk.oldRead == hunk.oldCount && hunk.newRead == hunk.newCount

/-- The header of a hunk: its start and its counts. -/
def DiffHunk.header (hunk : DiffHunk) : ℕ × ℕ × ℕ := (hunk.newStart, hunk.newCount, hunk.oldCount)

/-- **A hunk within its header**: counts and positions. -/
structure DiffHunk.Sound (hunk : DiffHunk) : Prop where
  fits : hunk.bound ≤ i32Max
  addedRead : hunk.addedRead ≤ hunk.newRead
  oldRead : hunk.oldRead ≤ hunk.oldCount
  newRead : hunk.newRead ≤ hunk.newCount
  changes : ∀ c ∈ hunk.changes, -1 ≤ c.line ∧ c.line ≤ hunk.bound
  newSide : ∀ p ∈ hunk.newSide, 0 ≤ p.1 ∧ p.1 ≤ hunk.bound

/-! ## 2. The open hunk -/

/-- The first new line of the body. -/
def DiffHunk.firstLine (hunk : DiffHunk) : ℕ :=
  if hunk.newCount = 0 then hunk.newStart + 1 else hunk.newStart

/-- **The open hunk follows its record.** -/
structure OpenHunk.Tracks (h : OpenHunk) (hunk : DiffHunk) : Prop where
  start : h.newStart = hunk.newStart
  fits : hunk.bound ≤ i32Max
  addedRead : hunk.addedRead ≤ hunk.newRead
  oldLeft : h.oldLeft + hunk.oldRead = hunk.oldCount
  newLeft : h.newLeft + hunk.newRead = hunk.newCount
  cursor : h.cursor = hunk.firstLine + hunk.newRead
  run : h.inDeletionRun = true → ∃ changes c deleted run, hunk.changes = changes ++ [c] ∧
    c.isAdded = false ∧ hunk.deleted = deleted ++ [run]
  changes : ∀ c ∈ hunk.changes, -1 ≤ c.line ∧ c.line ≤ hunk.bound
  newSide : ∀ p ∈ hunk.newSide, 0 ≤ p.1 ∧ p.1 ≤ hunk.bound

variable {h h' : OpenHunk} {hunk hunk' : DiffHunk}

/-- The cursor stays in the range the header was checked for. -/
theorem OpenHunk.Tracks.cursor_le (ht : h.Tracks hunk) : 0 ≤ h.cursor ∧ h.cursor ≤ hunk.bound := by
  obtain ⟨_, _, _, _, hnew, hcursor, _, _, _⟩ := ht
  unfold DiffHunk.firstLine at hcursor
  unfold DiffHunk.bound
  split at hcursor <;> constructor <;> omega

theorem OpenHunk.Tracks.sound (ht : h.Tracks hunk) : hunk.Sound where
  fits := ht.fits
  addedRead := ht.addedRead
  oldRead := by
    have hold := ht.oldLeft
    omega
  newRead := by
    have hnew := ht.newLeft
    omega
  changes := ht.changes
  newSide := ht.newSide

/-- A complete hunk has used up its counts, and only that one. -/
theorem OpenHunk.Tracks.isFilled_eq (ht : h.Tracks hunk) : hunk.isFilled = h.isComplete := by
  have hold := ht.oldLeft
  have hnew := ht.newLeft
  unfold DiffHunk.isFilled OpenHunk.isComplete
  rw [Bool.eq_iff_iff, Bool.and_eq_true, Bool.and_eq_true, beq_iff_eq, beq_iff_eq, beq_iff_eq,
    beq_iff_eq]
  omega

/-- A header the parser accepts opens a hunk that follows it. -/
theorem tracks_new {line : List Char} (hparse : parseHunkHeader line = some (.ok hunk)) :
    (OpenHunk.new hunk).Tracks hunk := by
  unfold parseHunkHeader at hparse
  obtain ⟨⟨⟨oldStart, oldCount⟩, newStart, newCount⟩, _, hhunk⟩ := Option.map_eq_some_iff.mp hparse
  dsimp only at hhunk
  split at hhunk
  · rename_i hfits
    have heq := Except.ok.inj hhunk
    subst heq
    exact
      { start := rfl
        fits := hfits.2.2
        addedRead := le_refl _
        oldLeft := rfl
        newLeft := rfl
        cursor := by
          unfold OpenHunk.new DiffHunk.firstLine DiffHunk.newRead
          dsimp only
          split <;> simp
        run := fun hrun => absurd hrun Bool.false_ne_true
        changes := fun c hc => absurd hc List.not_mem_nil
        newSide := fun p hp => absurd hp List.not_mem_nil }
  · cases hhunk

/-- **What a body line does.** -/
theorem accept_cases {line : List Char} (haccept : h.accept line hunk = some (h', hunk')) :
    (h', hunk') = (h, hunk) ∨
    (∃ text, 0 < h.oldLeft ∧ 0 < h.newLeft ∧ (h', hunk') = h.acceptContext text hunk) ∨
    (∃ text, 0 < h.oldLeft ∧ (h', hunk') = h.acceptDeleted text hunk) ∨
    ∃ text, 0 < h.newLeft ∧ (h', hunk') = h.acceptAdded text hunk := by
  unfold OpenHunk.accept at haccept
  split at haccept
  · exact .inl (Option.some.inj haccept).symm
  · split at haccept
    · rename_i hroom
      exact .inr (.inl ⟨[], hroom.1, hroom.2, (Option.some.inj haccept).symm⟩)
    · cases haccept
  · rename_i text
    split at haccept
    · rename_i hroom
      exact .inr (.inl ⟨text, hroom.1, hroom.2, (Option.some.inj haccept).symm⟩)
    · cases haccept
  · rename_i text
    split at haccept
    · rename_i hroom
      exact .inr (.inr (.inl ⟨text, hroom, (Option.some.inj haccept).symm⟩))
    · cases haccept
  · rename_i text
    split at haccept
    · rename_i hroom
      exact .inr (.inr (.inr ⟨text, hroom, (Option.some.inj haccept).symm⟩))
    · cases haccept
  · cases haccept

theorem tracks_acceptContext (ht : h.Tracks hunk) (hold : 0 < h.oldLeft) (hnew : 0 < h.newLeft)
    (text : List Char) : (h.acceptContext text hunk).1.Tracks (h.acceptContext text hunk).2 := by
  have hcursor := ht.cursor_le
  have hread : (h.acceptContext text hunk).2.newRead = hunk.newRead + 1 :=
    List.length_append
  have hadded := ht.addedRead
  exact
    { start := ht.start
      fits := ht.fits
      addedRead := by
        rw [hread]
        exact hadded.trans (Nat.le_succ _)
      oldLeft := by
        have hleft := ht.oldLeft
        unfold DiffHunk.oldRead at hleft ⊢
        rw [hread]
        unfold OpenHunk.acceptContext DiffHunk.addedRead at *
        dsimp only
        omega
      newLeft := by
        have hleft := ht.newLeft
        rw [hread]
        unfold OpenHunk.acceptContext
        dsimp only
        omega
      cursor := by
        have hc := ht.cursor
        rw [hread]
        unfold OpenHunk.acceptContext DiffHunk.firstLine at *
        dsimp only
        omega
      run := fun hrun => absurd hrun Bool.false_ne_true
      changes := ht.changes
      newSide := by
        intro p hp
        rcases List.mem_append.mp hp with hp | hp
        · exact ht.newSide p hp
        · rw [List.mem_singleton.mp hp]
          exact hcursor }

theorem tracks_acceptAdded (ht : h.Tracks hunk) (hnew : 0 < h.newLeft) (text : List Char) :
    (h.acceptAdded text hunk).1.Tracks (h.acceptAdded text hunk).2 := by
  have hcursor := ht.cursor_le
  have hread : (h.acceptAdded text hunk).2.newRead = hunk.newRead + 1 :=
    List.length_append
  have hadds : (h.acceptAdded text hunk).2.addedRead = hunk.addedRead + 1 := by
    unfold DiffHunk.addedRead OpenHunk.acceptAdded
    rw [List.countP_append]
    rfl
  have hadded := ht.addedRead
  exact
    { start := ht.start
      fits := ht.fits
      addedRead := by
        rw [hread, hadds]
        exact Nat.succ_le_succ hadded
      oldLeft := by
        have hleft := ht.oldLeft
        unfold DiffHunk.oldRead at hleft ⊢
        rw [hread, hadds, Nat.add_sub_add_right]
        exact hleft
      newLeft := by
        have hleft := ht.newLeft
        rw [hread]
        unfold OpenHunk.acceptAdded
        dsimp only
        omega
      cursor := by
        have hc := ht.cursor
        rw [hread]
        unfold OpenHunk.acceptAdded DiffHunk.firstLine at *
        dsimp only
        omega
      run := fun hrun => absurd hrun Bool.false_ne_true
      changes := by
        intro c hc
        rcases List.mem_append.mp hc with hc | hc
        · exact ht.changes c hc
        · rw [List.mem_singleton.mp hc]
          exact ⟨by have := hcursor.1; exact le_trans (by decide) this, hcursor.2⟩
      newSide := by
        intro p hp
        rcases List.mem_append.mp hp with hp | hp
        · exact ht.newSide p hp
        · rw [List.mem_singleton.mp hp]
          exact hcursor }

theorem isAdded_change (r : DeletionRun) (n : ℤ) : (r.change n).isAdded = false := by
  unfold DeletionRun.change
  split <;> rfl

/-- A deleted line: one more text in the last run, whose change keeps its line. -/
theorem acceptDeleted_spec (ht : h.Tracks hunk) (text : List Char) :
    ∃ changes c deleted run, (h.acceptDeleted text hunk).2.changes = changes ++ [c] ∧
      (h.acceptDeleted text hunk).2.deleted = deleted ++ [run] ∧ c.isAdded = false ∧
      (∀ c' ∈ changes, c' ∈ hunk.changes) ∧
      (c.line = h.cursor - 1 ∨ ∃ c' ∈ hunk.changes, c.line = c'.line) ∧
      changes.countP HunkChange.isAdded = hunk.addedRead ∧
      ((deleted ++ [run]).map List.length).sum = (hunk.deleted.map List.length).sum + 1 := by
  by_cases hin : h.inDeletionRun = true
  · obtain ⟨changes, c, deleted, run, hchanges, hc, hdeleted⟩ := ht.run hin
    have hadds : changes.countP HunkChange.isAdded = hunk.addedRead := by
      unfold DiffHunk.addedRead
      rw [hchanges, List.countP_append, List.countP_singleton, if_neg (by rw [hc]; exact Bool.false_ne_true),
        Nat.add_zero]
    refine ⟨changes, ((h.run.next text).change c.line), deleted, run ++ [String.ofList text],
      ?_, ?_, isAdded_change _ _, ?_, .inr ⟨c, ?_, line_change _ _⟩, hadds, ?_⟩
    · unfold OpenHunk.acceptDeleted
      rw [hin, hchanges]
      exact mapLast_append_singleton _ _ _
    · unfold OpenHunk.acceptDeleted
      rw [hin, hdeleted]
      exact mapLast_append_singleton _ _ _
    · intro c' hc'
      rw [hchanges]
      exact List.mem_append_left _ hc'
    · rw [hchanges]
      exact List.mem_append_right _ List.mem_cons_self
    · rw [hdeleted]
      simp
      omega
  · have hout : h.inDeletionRun = false := Bool.not_eq_true _ ▸ hin
    refine ⟨hunk.changes, ((DeletionRun.start.next text).change (h.cursor - 1)), hunk.deleted,
      [String.ofList text], ?_, ?_, isAdded_change _ _, fun _ hc' => hc', .inl (line_change _ _),
      rfl, ?_⟩
    · unfold OpenHunk.acceptDeleted
      rw [hout]
      exact mapLast_append_singleton _ _ _
    · unfold OpenHunk.acceptDeleted
      rw [hout]
      exact mapLast_append_singleton _ _ _
    · simp

theorem tracks_acceptDeleted (ht : h.Tracks hunk) (hold : 0 < h.oldLeft) (text : List Char) :
    (h.acceptDeleted text hunk).1.Tracks (h.acceptDeleted text hunk).2 := by
  have hcursor := ht.cursor_le
  have hadded := ht.addedRead
  obtain ⟨changes, c, deleted, run, hchanges, hdeleted, hc, hmem, hline, hcount, hsum⟩ :=
    acceptDeleted_spec ht text
  have hadds : (h.acceptDeleted text hunk).2.addedRead = hunk.addedRead := by
    unfold DiffHunk.addedRead at hcount ⊢
    rw [hchanges, List.countP_append, hcount, List.countP_singleton,
      if_neg (by rw [hc]; exact Bool.false_ne_true), Nat.add_zero]
  have hread : (h.acceptDeleted text hunk).2.newRead = hunk.newRead := rfl
  exact
    { start := ht.start
      fits := ht.fits
      addedRead := by
        rw [hadds, hread]
        exact hadded
      oldLeft := by
        have hleft := ht.oldLeft
        unfold DiffHunk.oldRead at hleft ⊢
        rw [hdeleted, hsum, hadds, hread]
        unfold OpenHunk.acceptDeleted
        dsimp only
        omega
      newLeft := ht.newLeft
      cursor := ht.cursor
      run := fun _ => ⟨changes, c, deleted, run, hchanges, hc, hdeleted⟩
      changes := by
        intro c' hc'
        rw [hchanges] at hc'
        rcases List.mem_append.mp hc' with hc' | hc'
        · exact ht.changes c' (hmem c' hc')
        · rw [List.mem_singleton.mp hc']
          rcases hline with hline | ⟨d, hd, hline⟩
          · rw [hline]
            have hbound := hcursor.2
            have hlow := hcursor.1
            exact ⟨by omega, by
              change h.cursor - 1 ≤ (hunk.bound : ℤ)
              omega⟩
          · rw [hline]
            exact ht.changes d hd
      newSide := ht.newSide }

/-- **A body line keeps the open hunk with its record**, under the same header. -/
theorem tracks_accept (ht : h.Tracks hunk) {line : List Char}
    (haccept : h.accept line hunk = some (h', hunk')) :
    h'.Tracks hunk' ∧ hunk'.header = hunk.header := by
  rcases accept_cases haccept with heq | ⟨text, hold, hnew, heq⟩ | ⟨text, hold, heq⟩ |
    ⟨text, hnew, heq⟩
  · obtain ⟨rfl, rfl⟩ := Prod.mk.inj heq
    exact ⟨ht, rfl⟩
  · obtain ⟨rfl, rfl⟩ := Prod.mk.inj heq
    exact ⟨tracks_acceptContext ht hold hnew text, rfl⟩
  · obtain ⟨rfl, rfl⟩ := Prod.mk.inj heq
    exact ⟨tracks_acceptDeleted ht hold text, rfl⟩
  · obtain ⟨rfl, rfl⟩ := Prod.mk.inj heq
    exact ⟨tracks_acceptAdded ht hnew text, rfl⟩

end AlSem.L5
