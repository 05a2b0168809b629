/-
# The conversions agree

A `LineIndex` answers outward as the `LineTable` of the same text does.  An inward column is a
character boundary and monotone, and a boundary sent outward and back is the same boundary.
-/
import AlSem.Lsp.Encoding

namespace AlSem.Lsp

open Offsets

/-! ## 1. The corrections of a line -/

theorem byteLen_cons (c : Char) (cs : List Char) : byteLen (c :: cs) = lenUtf8 c + byteLen cs :=
  total_cons lenUtf8 c cs

/-- The non-ASCII characters of a line from byte `start` on. -/
def wideFrom (line start : ℕ) (part : List Char) : List WideChar :=
  ((charIndices start part).filter fun p => !isAscii p.2).map fun p =>
    { line := asU32 line, start := asU32 p.1, len8 := asU8 (lenUtf8 p.2)
      len16 := asU8 (lenUtf16 p.2) }

theorem filter_charIndices_of_ascii {part : List Char} (h : part.all isAscii = true)
    (start : ℕ) : (charIndices start part).filter (fun p => !isAscii p.2) = [] := by
  induction part generalizing start with
  | nil => rfl
  | cons c cs ih =>
    rw [List.all_cons, Bool.and_eq_true] at h
    rw [charIndices, List.filter_cons_of_neg (by simp [h.1])]
    exact ih h.2 _

/-- The check that skips a line changes nothing. -/
theorem wideChars_eq (line : ℕ) (part : List Char) : wideChars line part = wideFrom line 0 part := by
  unfold wideChars wideFrom
  split
  · rename_i hall
    rw [filter_charIndices_of_ascii hall]
    rfl
  · rfl

theorem asU32_of_lt {n : ℕ} (h : n < 2 ^ 32) : asU32 n = n := Nat.mod_eq_of_lt h

theorem asU8_lenUtf8 (c : Char) : asU8 (lenUtf8 c) = lenUtf8 c := by
  have hle : lenUtf8 c ≤ 4 := c.utf8Size_le_four
  exact Nat.mod_eq_of_lt (by omega)

theorem asU8_lenUtf16 (c : Char) : asU8 (lenUtf16 c) = lenUtf16 c := by
  have hle := lenUtf16_le c
  exact Nat.mod_eq_of_lt (by omega)

theorem wideFrom_cons (line start : ℕ) (c : Char) (cs : List Char) :
    wideFrom line start (c :: cs) =
      if isAscii c then wideFrom line (start + lenUtf8 c) cs
      else ⟨asU32 line, asU32 start, lenUtf8 c, lenUtf16 c⟩ ::
        wideFrom line (start + lenUtf8 c) cs := by
  unfold wideFrom
  rw [charIndices]
  split
  · rename_i hc
    rw [List.filter_cons_of_neg (by simp [hc])]
  · rename_i hc
    rw [List.filter_cons_of_pos (by simp [hc]), List.map_cons, asU8_lenUtf8, asU8_lenUtf16]

theorem mem_wideFrom_line {line start : ℕ} {part : List Char} {w : WideChar}
    (h : w ∈ wideFrom line start part) : w.line = asU32 line := by
  obtain ⟨p, -, rfl⟩ := List.mem_map.mp h
  rfl

/-- Every non-ASCII character starts at `start` or later. -/
theorem le_start_of_mem {line start : ℕ} {part : List Char} {w : WideChar}
    (hsize : start + byteLen part < 2 ^ 32) (h : w ∈ wideFrom line start part) :
    start ≤ w.start := by
  induction part generalizing start with
  | nil => simp [wideFrom, charIndices] at h
  | cons c cs ih =>
    rw [byteLen_cons] at hsize
    have hrest : w ∈ wideFrom line (start + lenUtf8 c) cs → start ≤ w.start := by
      intro hmem
      have hle : start + lenUtf8 c ≤ w.start := ih (by omega) hmem
      omega
    rw [wideFrom_cons] at h
    split at h
    · exact hrest h
    · rcases List.mem_cons.mp h with rfl | h
      · exact (asU32_of_lt (by omega)).ge
      · exact hrest h

/-- The corrections a byte column asks for. -/
abbrev before (line b : ℕ) (w : WideChar) : Bool :=
  decide (w.line = line) && decide (w.start < b)

/-- **A byte count put right is a count of units.**  Along the line from byte `start`, where
`units` still counts each byte up to `b` as one. -/
theorem foldl_correct {line b : ℕ} (hline : line < 2 ^ 32) : ∀ (cs : List Char) (start units : ℕ),
    start + byteLen cs < 2 ^ 32 → b ≤ start + byteLen cs → b - start ≤ units →
    ((wideFrom line start cs).takeWhile (before line b)).foldl (LineIndex.correct b) units =
      units - (b - start) + total lenUtf16 (cs.take (count lenUtf8 cs (b - start)))
  | [], start, units, _, hb, _ => by
    have hzero : b - start = 0 := by
      simp at hb
      omega
    simp [wideFrom, charIndices, hzero]
  | c :: cs, start, units, hsize, hb, hunits => by
    have hpos := lenUtf8_pos c
    rw [byteLen_cons] at hsize hb
    have hrest : start + lenUtf8 c + byteLen cs < 2 ^ 32 := by omega
    by_cases hdone : b ≤ start
    · -- no character that starts later is before the column
      have hzero : b - start = 0 := by omega
      have hnone : (wideFrom line start (c :: cs)).takeWhile (before line b) = [] := by
        cases hw : wideFrom line start (c :: cs) with
        | nil => rfl
        | cons w ws =>
          have hmem : w ∈ wideFrom line start (c :: cs) := by
            rw [hw]
            exact List.mem_cons_self
          have hsize' : start + byteLen (c :: cs) < 2 ^ 32 := by
            rw [byteLen_cons]
            exact hsize
          have hstart := le_start_of_mem hsize' hmem
          have hnot : before line b w = false := by
            simp [before]
            omega
          rw [List.takeWhile_cons, hnot]
          rfl
      rw [hnone, hzero]
      simp
    · have hne : b - start ≠ 0 := by omega
      have hsub : b - start - lenUtf8 c = b - (start + lenUtf8 c) := by omega
      rw [count, if_neg hne, List.take_succ_cons, total_cons, hsub, wideFrom_cons]
      by_cases hc : isAscii c = true
      · have hone : lenUtf8 c = 1 := isAscii_iff.mp hc
        have ih := foldl_correct (b := b) hline cs (start + lenUtf8 c) units hrest (by omega)
          (by omega)
        rw [if_pos hc, ih, lenUtf16_ascii hc]
        omega
      · have hstart : asU32 start = start := asU32_of_lt (by omega)
        have hin : before line b ⟨asU32 line, asU32 start, lenUtf8 c, lenUtf16 c⟩ = true := by
          simp only [before, asU32_of_lt hline, hstart, decide_true, Bool.true_and,
            decide_eq_true_eq]
          omega
        rw [if_neg hc, List.takeWhile_cons, if_pos hin, List.foldl_cons]
        have hcorrect : LineIndex.correct b units ⟨asU32 line, asU32 start, lenUtf8 c, lenUtf16 c⟩ =
            units - min (lenUtf8 c) (b - start) + lenUtf16 c := by
          rw [LineIndex.correct, hstart]
        rw [hcorrect]
        by_cases hinside : b ≤ start + lenUtf8 c
        · -- the column falls inside the character, or at its end
          have hmin : min (lenUtf8 c) (b - start) = b - start := Nat.min_eq_right (by omega)
          have hzero : b - (start + lenUtf8 c) = 0 := by omega
          have ih := foldl_correct (b := b) hline cs (start + lenUtf8 c)
            (units - (b - start) + lenUtf16 c) hrest (by omega) (by omega)
          rw [hmin, ih, hzero]
          simp
        · have hmin : min (lenUtf8 c) (b - start) = lenUtf8 c := Nat.min_eq_left (by omega)
          have ih := foldl_correct (b := b) hline cs (start + lenUtf8 c)
            (units - lenUtf8 c + lenUtf16 c) hrest (by omega) (by omega)
          rw [hmin, ih]
          omega

/-! ## 2. The characters of a line among those of a text -/

section Find

variable {α : Type*} {p : α → Bool}

theorem takeWhile_append_of_none (a : List α) {b : List α} (hb : ∀ x ∈ b, p x = false) :
    (a ++ b).takeWhile p = a.takeWhile p := by
  induction a with
  | nil =>
    cases b with
    | nil => rfl
    | cons x xs => rw [List.nil_append, List.takeWhile_cons, hb x List.mem_cons_self]; rfl
  | cons x xs ih =>
    rw [List.cons_append, List.takeWhile_cons, List.takeWhile_cons, ih]

theorem takeWhile_of_none {a : List α} (ha : ∀ x ∈ a, p x = false) : a.takeWhile p = [] := by
  rw [← List.nil_append a]
  exact takeWhile_append_of_none [] ha

end Find

/-- The non-ASCII characters of the lines from `k` on. -/
def wideLines (k : ℕ) (parts : List (List Char)) : List WideChar :=
  (parts.zipIdx k).flatMap fun p => wideChars p.2 p.1

theorem wideLines_cons (k : ℕ) (part : List Char) (parts : List (List Char)) :
    wideLines k (part :: parts) = wideFrom k 0 part ++ wideLines (k + 1) parts := by
  simp [wideLines, wideChars_eq]

theorem le_line_of_mem {parts : List (List Char)} {k : ℕ} (hk : k + parts.length ≤ 2 ^ 32)
    {w : WideChar} (h : w ∈ wideLines k parts) : k ≤ w.line := by
  obtain ⟨⟨part, i⟩, hp, hw⟩ := List.mem_flatMap.mp h
  have hi := List.mem_zipIdx hp
  rw [wideChars_eq] at hw
  rw [mem_wideFrom_line hw, asU32_of_lt (by simp only at hi ⊢; omega)]
  exact hi.1

/-- **The search finds the line's characters.** -/
theorem takeWhile_wideLines {line b : ℕ} : ∀ (parts : List (List Char)) (k : ℕ),
    k + parts.length ≤ 2 ^ 32 → k ≤ line →
    ((wideLines k parts).drop
        ((wideLines k parts).takeWhile fun w => decide (w.line < line)).length).takeWhile
        (before line b) =
      (wideFrom line 0 ((parts[line - k]?).getD [])).takeWhile (before line b)
  | [], k, _, _ => by simp [wideLines, wideFrom, charIndices]
  | part :: parts, k, hk, hle => by
    have hk32 : k < 2 ^ 32 := by
      rw [List.length_cons] at hk
      omega
    have hrest : k + 1 + parts.length ≤ 2 ^ 32 := by
      rw [List.length_cons] at hk
      omega
    have hhere : ∀ w ∈ wideFrom k 0 part, w.line = k := fun w hw => by
      rw [mem_wideFrom_line hw, asU32_of_lt hk32]
    rw [wideLines_cons]
    by_cases hline : line = k
    · subst hline
      have hlow : (wideFrom line 0 part ++ wideLines (line + 1) parts).takeWhile
          (fun w => decide (w.line < line)) = [] := by
        refine takeWhile_of_none fun w hw => ?_
        rcases List.mem_append.mp hw with hw | hw
        · simp [hhere w hw]
        · have hge := le_line_of_mem hrest hw
          simp
          omega
      have hothers : ∀ w ∈ wideLines (line + 1) parts, before line b w = false := by
        intro w hw
        have hge := le_line_of_mem hrest hw
        simp [before]
        omega
      rw [hlow, List.length_nil, List.drop_zero, takeWhile_append_of_none _ hothers,
        Nat.sub_self, List.getElem?_cons_zero, Option.getD_some]
    · have hlow : ∀ w ∈ wideFrom k 0 part, decide (w.line < line) = true := by
        intro w hw
        rw [hhere w hw]
        simp
        omega
      have hindex : line - k = (line - (k + 1)) + 1 := by omega
      rw [List.takeWhile_append_of_pos hlow, List.length_append, ← List.drop_drop,
        List.drop_left, takeWhile_wideLines parts (k + 1) hrest (by omega), hindex,
        List.getElem?_cons_succ]

/-! ## 3. Outward -/

variable {text : String}

/-- No line is longer than the text. -/
theorem byteLen_lineText_lt (htext : byteLen text.toList < 2 ^ 32) (line : ℕ) :
    byteLen ((LineTable.new text).lineText line) < 2 ^ 32 := by
  rw [lineText_eq, List.getElem?_map]
  cases hpart : (splitLines text.toList)[line]? with
  | none => simp
  | some part =>
    have hmem : part ∈ splitLines text.toList := List.mem_of_getElem? hpart
    have hle : byteLen part ≤ byteLen text.toList := by
      conv_rhs => rw [← joinLines_splitLines text.toList]
      exact byteLen_part_le hmem
    have hstrip := byteLen_stripCr_le part
    simp only [Option.map_some, Option.getD_some]
    omega

theorem lineLens_new (line : ℕ) : (((LineIndex.new text).lineLens[line]?).getD 0) =
    asU32 (byteLen ((LineTable.new text).lineText line)) := by
  rw [lineText_eq]
  simp only [LineIndex.new, List.getElem?_map]
  cases (splitLines text.toList)[line]? <;> rfl

theorem wide_new : (LineIndex.new text).wide =
    wideLines 0 ((splitLines text.toList).map stripCr) := rfl

/-- **A `LineIndex` answers as the `LineTable` does.** -/
theorem lineIndex_colOut (htext : byteLen text.toList < 2 ^ 32) (line byteCol : ℕ)
    (enc : PositionEncoding) : (LineIndex.new text).colOut line byteCol enc =
      (LineTable.new text).colOut line byteCol enc := by
  have hlen := asU32_of_lt (byteLen_lineText_lt htext line)
  cases enc with
  | utf8 => simp only [LineIndex.colOut, LineTable.colOut, lineLens_new]
  | utf16 =>
    have hlines : 0 + ((splitLines text.toList).map stripCr).length ≤ 2 ^ 32 := by
      have hle := length_le_joinLines (splitLines text.toList)
      rw [joinLines_splitLines] at hle
      rw [List.length_map]
      omega
    simp only [LineIndex.colOut, LineTable.colOut, lineLens_new, hlen, wide_new]
    rw [takeWhile_wideLines _ 0 hlines (Nat.zero_le line), Nat.sub_zero, ← lineText_eq]
    generalize hcs : (LineTable.new text).lineText line = cs
    have hsize : byteLen cs < 2 ^ 32 := hcs ▸ byteLen_lineText_lt htext line
    by_cases hline : line < 2 ^ 32
    · have hfold := foldl_correct (b := min byteCol (byteLen cs)) hline cs 0
        (min byteCol (byteLen cs)) (by omega) (by omega) (by omega)
      rw [hfold, convert_eq, Nat.sub_zero, Nat.sub_self]
      by_cases hle : byteCol ≤ byteLen cs
      · rw [Nat.min_eq_left hle, Nat.sub_zero]
      · have hge : byteLen cs ≤ byteCol := by omega
        rw [Nat.min_eq_right hge, take_count_of_le lenUtf8_pos (Nat.le_refl _),
          Nat.sub_zero, take_count_of_le lenUtf8_pos hge]
    · -- behind the last line
      have hnone : cs = [] := by
        rw [← hcs, lineText_eq, List.getElem?_eq_none (by omega)]
        rfl
      subst hnone
      simp [wideFrom, charIndices, convert]

/-! ## 4. Inward -/

theorem isCharBoundary_succ (c : Char) (cs : List Char) (b : ℕ) :
    LineTable.isCharBoundary (c :: cs) (b + 1) =
      if lenUtf8 c ≤ b + 1 then LineTable.isCharBoundary cs (b + 1 - lenUtf8 c) else false := rfl

/-- `is_char_boundary` holds where the characters that start before add up. -/
theorem isCharBoundary_iff (cs : List Char) (b : ℕ) : LineTable.isCharBoundary cs b = true ↔
    total lenUtf8 (cs.take (count lenUtf8 cs b)) = b := by
  induction cs generalizing b with
  | nil => cases b <;> simp [LineTable.isCharBoundary]
  | cons c cs ih =>
    cases b with
    | zero => simp [LineTable.isCharBoundary]
    | succ b =>
      have hpos := lenUtf8_pos c
      rw [isCharBoundary_succ, count, if_neg (Nat.succ_ne_zero b), List.take_succ_cons,
        total_cons]
      split
      · rw [ih]
        omega
      · have hzero : b + 1 - lenUtf8 c = 0 := by omega
        rw [hzero, count_zero]
        simp
        omega

/-- Inside a character the next byte is of the same character. -/
theorem count_succ {cs : List Char} {b : ℕ} (h : LineTable.isCharBoundary cs b = false) :
    count lenUtf8 cs (b + 1) = count lenUtf8 cs b := by
  induction cs generalizing b with
  | nil => rfl
  | cons c cs ih =>
    cases b with
    | zero => simp [LineTable.isCharBoundary] at h
    | succ b =>
      rw [isCharBoundary_succ] at h
      rw [count, count, if_neg (Nat.succ_ne_zero _), if_neg (Nat.succ_ne_zero _)]
      split at h
      · have hsub : b + 1 + 1 - lenUtf8 c = (b + 1 - lenUtf8 c) + 1 := by omega
        rw [hsub, ih h]
      · have hzero : b + 1 + 1 - lenUtf8 c = 0 := by omega
        have hzero' : b + 1 - lenUtf8 c = 0 := by omega
        rw [hzero, hzero']

/-- **Rounding up** reaches the end of the character a byte is in. -/
theorem roundUp_eq {cs : List Char} : ∀ (steps b : ℕ), b + steps = byteLen cs →
    LineTable.roundUp cs steps b = total lenUtf8 (cs.take (count lenUtf8 cs b))
  | 0, b, hb => by
    have hend : b = byteLen cs := by omega
    rw [LineTable.roundUp, take_count_of_le lenUtf8_pos (Nat.le_of_eq hend.symm)]
    exact hend
  | steps + 1, b, hb => by
    rw [LineTable.roundUp]
    split
    · rename_i hbound
      exact ((isCharBoundary_iff cs b).mp hbound).symm
    · rename_i hbound
      rw [roundUp_eq steps (b + 1) (by omega), count_succ (by simpa using hbound)]

/-- The size of a line's characters in an encoding. -/
def lenIn (enc : PositionEncoding) (c : Char) : ℕ :=
  match enc with
  | .utf8 => lenUtf8 c
  | .utf16 => lenUtf16 c

theorem lenIn_pos (enc : PositionEncoding) (c : Char) : 0 < lenIn enc c := by
  cases enc
  · exact lenUtf8_pos c
  · exact lenUtf16_pos c

/-- **An inward column** is a conversion from the encoding to bytes. -/
theorem colIn_eq (htext : byteLen text.toList < 2 ^ 32) (line encCol : ℕ)
    (enc : PositionEncoding) : (LineTable.new text).colIn line encCol enc =
      convert (lenIn enc) lenUtf8 encCol ((LineTable.new text).lineText line) 0 0 := by
  cases enc with
  | utf16 => rfl
  | utf8 =>
    have hsize := byteLen_lineText_lt htext line
    simp only [LineTable.colIn]
    generalize (LineTable.new text).lineText line = cs at hsize ⊢
    have hround := @roundUp_eq cs (byteLen cs - min encCol (byteLen cs))
      (min encCol (byteLen cs)) (by omega)
    have hle : total lenUtf8 (cs.take (count lenUtf8 cs (min encCol (byteLen cs)))) ≤
        byteLen cs := total_take_le lenUtf8 cs _
    have hmeasure : lenIn .utf8 = lenUtf8 := rfl
    rw [hround, asU32_of_lt (by omega), hmeasure, convert_eq, Nat.zero_add, Nat.sub_zero]
    by_cases hcol : encCol ≤ byteLen cs
    · rw [Nat.min_eq_left hcol]
    · have hge : byteLen cs ≤ encCol := by omega
      rw [Nat.min_eq_right hge, take_count_of_le lenUtf8_pos (Nat.le_refl _),
        take_count_of_le lenUtf8_pos hge]

/-- At a boundary an outward column is a conversion from bytes to the encoding. -/
theorem colOut_boundary (htext : byteLen text.toList < 2 ^ 32) {line b : ℕ}
    (enc : PositionEncoding) (hb : IsBoundary lenUtf8 ((LineTable.new text).lineText line) b) :
    (LineTable.new text).colOut line b enc =
      convert lenUtf8 (lenIn enc) b ((LineTable.new text).lineText line) 0 0 := by
  cases enc with
  | utf16 => rfl
  | utf8 =>
    have hle := hb.le
    have hmeasure : lenIn .utf8 = lenUtf8 := rfl
    simp only [LineTable.colOut]
    rw [asU32_of_lt (byteLen_lineText_lt htext line), Nat.min_eq_left hle, hmeasure, convert_eq,
      Nat.zero_add, Nat.sub_zero]
    obtain ⟨k, rfl⟩ := hb
    rw [take_count lenUtf8_pos]

/-- **The column conversions of a file.**  For a text of less than `2 ^ 32` bytes a `LineIndex`
answers as the `LineTable`, a character boundary sent outward and back is the same, and an inward
column is a character boundary of the line and monotone. -/
theorem lineTable_exact (htext : byteLen text.toList < 2 ^ 32) :
    (∀ line byteCol enc, (LineIndex.new text).colOut line byteCol enc =
      (LineTable.new text).colOut line byteCol enc) ∧
    (∀ line b enc, IsBoundary lenUtf8 ((LineTable.new text).lineText line) b →
      (LineTable.new text).colIn line ((LineTable.new text).colOut line b enc) enc = b) ∧
    (∀ line encCol enc, IsBoundary lenUtf8 ((LineTable.new text).lineText line)
      ((LineTable.new text).colIn line encCol enc)) ∧
    ∀ line enc, Monotone fun encCol => (LineTable.new text).colIn line encCol enc := by
  refine ⟨lineIndex_colOut htext, ?_, ?_, ?_⟩
  · intro line b enc hb
    rw [colIn_eq htext, colOut_boundary htext enc hb]
    exact convert_convert lenUtf8_pos (lenIn_pos enc) hb
  · intro line encCol enc
    rw [colIn_eq htext]
    exact convert_isBoundary _ _ _ _
  · intro line enc
    have hsame : (fun encCol => (LineTable.new text).colIn line encCol enc) = fun encCol =>
        convert (lenIn enc) lenUtf8 encCol ((LineTable.new text).lineText line) 0 0 :=
      funext fun encCol => colIn_eq htext line encCol enc
    rw [hsame]
    exact convert_mono _ _ _

/-- A text with a two-byte and a four-byte character, a `'\r'` and no last newline. -/
def wideText : String := "æ🚀\r\nx"

/-- Byte 3 is inside the second character, which is two units; behind it is byte 6, and the unit
inside it is put in front. -/
theorem lineTable_exact_wide :
    (LineIndex.new wideText).colOut 0 3 .utf16 = 3 ∧
      (LineTable.new wideText).colOut 0 3 .utf16 = 3 ∧
      (LineTable.new wideText).colIn 0 ((LineTable.new wideText).colOut 0 6 .utf16) .utf16 = 6 ∧
      IsBoundary lenUtf8 ((LineTable.new wideText).lineText 0)
        ((LineTable.new wideText).colIn 0 2 .utf16) ∧
      (LineTable.new wideText).colIn 0 1 .utf16 ≤ (LineTable.new wideText).colIn 0 2 .utf16 := by
  obtain ⟨hout, hround, hboundary, hmono⟩ := @lineTable_exact wideText (by decide)
  have hindex : (LineIndex.new wideText).colOut 0 3 .utf16 = 3 := by decide
  have hbehind : IsBoundary lenUtf8 ((LineTable.new wideText).lineText 0) 6 :=
    ⟨2, by decide⟩
  exact ⟨hindex, hout 0 3 .utf16 ▸ hindex, hround 0 6 .utf16 hbehind, hboundary 0 2 .utf16,
    hmono 0 .utf16 (by decide)⟩

end AlSem.Lsp
