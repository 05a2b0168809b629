/-
# Column encodings

`lsp/encoding.rs`: the engine's columns are UTF-8 bytes, a client's are bytes or UTF-16 code units.
A `LineTable` converts from a file's text, both ways; a `LineIndex` has no text and converts
outward only, from each line's length and its non-ASCII characters.  No sum below passes the size
of a line, so the `u32` arithmetic of the source is that of the natural numbers; its casts are kept.
-/
import AlSem.Lib.Offsets
import Mathlib.Data.List.Basic

namespace AlSem.Lsp

open Offsets

/-! ## 1. Characters and lines -/

/-- The column encoding of a session. -/
inductive PositionEncoding where
  | utf8
  | utf16
  deriving DecidableEq, Repr

/-- `len_utf8`. -/
def lenUtf8 (c : Char) : ℕ := c.utf8Size

/-- `len_utf16`: one code unit, or a surrogate pair outside the basic plane. -/
def lenUtf16 (c : Char) : ℕ := if c.val ≤ 0xFFFF then 1 else 2

def isAscii (c : Char) : Bool := decide (c.val ≤ 127)

/-- The bytes of a text. -/
abbrev byteLen (cs : List Char) : ℕ := total lenUtf8 cs

/-- `as u32`. -/
def asU32 (n : ℕ) : ℕ := n % 2 ^ 32

/-- `as u8`. -/
def asU8 (n : ℕ) : ℕ := n % 2 ^ 8

/-- `split('\n')`. -/
def splitLines (text : List Char) : List (List Char) := text.splitOn '\n'

/-- `strip_suffix('\r')`, or the line. -/
def stripCr (part : List Char) : List Char :=
  if part.getLast? = some '\r' then part.dropLast else part

/-! ## 2. With the text -/

/-- The byte range of each line in a text. -/
structure LineTable where
  text : List Char
  lines : List (ℕ × ℕ)

/-- The ranges of the lines from byte `start` on, a `'\r'` at the end trimmed off. -/
def lineRanges : ℕ → List (List Char) → List (ℕ × ℕ)
  | _, [] => []
  | start, part :: parts =>
    let rawEnd := start + byteLen part
    let «end» := if part.getLast? = some '\r' then rawEnd - 1 else rawEnd
    (start, «end») :: lineRanges (rawEnd + 1) parts

/-- What starts at byte `n` or later. -/
def dropBytes (n : ℕ) (cs : List Char) : List Char := cs.drop (count lenUtf8 cs n)

/-- What starts before byte `n`. -/
def takeBytes (n : ℕ) (cs : List Char) : List Char := cs.take (count lenUtf8 cs n)

namespace LineTable

def new (text : String) : LineTable where
  text := text.toList
  lines := lineRanges 0 (splitLines text.toList)

variable (t : LineTable)

/-- A line's text; nothing behind the last line. -/
def lineText (line : ℕ) : List Char :=
  ((t.lines[line]?).map fun r => takeBytes (r.2 - r.1) (dropBytes r.1 t.text)).getD []

/-- A byte column as a column of `enc`; behind the line's end, the line's end. -/
def colOut (line byteCol : ℕ) (enc : PositionEncoding) : ℕ :=
  let text := t.lineText line
  match enc with
  | .utf8 => min byteCol (asU32 (byteLen text))
  | .utf16 => convert lenUtf8 lenUtf16 byteCol text 0 0

/-- `is_char_boundary`. -/
def isCharBoundary : List Char → ℕ → Bool
  | _, 0 => true
  | [], _ + 1 => false
  | c :: cs, b => if lenUtf8 c ≤ b then isCharBoundary cs (b - lenUtf8 c) else false

/-- Round up to the next boundary, in at most the steps to the end. -/
def roundUp (text : List Char) : ℕ → ℕ → ℕ
  | 0, b => b
  | steps + 1, b => if isCharBoundary text b then b else roundUp text steps (b + 1)

/-- A column of `enc` as a byte column; behind the line's end, the line's end. -/
def colIn (line encCol : ℕ) (enc : PositionEncoding) : ℕ :=
  let text := t.lineText line
  match enc with
  | .utf8 =>
    let byteCol := min encCol (byteLen text)
    asU32 (roundUp text (byteLen text - byteCol) byteCol)
  | .utf16 => convert lenUtf16 lenUtf8 encCol text 0 0

end LineTable

/-! ## 3. Without the text -/

/-- A non-ASCII character: its line, its byte offset there, and its sizes. -/
structure WideChar where
  line : ℕ
  start : ℕ
  len8 : ℕ
  len16 : ℕ
  deriving DecidableEq, Repr

structure LineIndex where
  lineLens : List ℕ
  /-- By line and start. -/
  wide : List WideChar

/-- `char_indices`, from byte `start` on. -/
def charIndices : ℕ → List Char → List (ℕ × Char)
  | _, [] => []
  | start, c :: cs => (start, c) :: charIndices (start + lenUtf8 c) cs

/-- The non-ASCII characters of a line. -/
def wideChars (line : ℕ) (part : List Char) : List WideChar :=
  if part.all isAscii then []
  else ((charIndices 0 part).filter fun p => !isAscii p.2).map fun p =>
    { line := asU32 line, start := asU32 p.1, len8 := asU8 (lenUtf8 p.2)
      len16 := asU8 (lenUtf16 p.2) }

namespace LineIndex

def new (text : String) : LineIndex :=
  let parts := (splitLines text.toList).map stripCr
  { lineLens := parts.map fun part => asU32 (byteLen part)
    wide := parts.zipIdx.flatMap fun p => wideChars p.2 p.1 }

/-- The units of a column once the character `w` is put right. -/
def correct (b units : ℕ) (w : WideChar) : ℕ := units - min w.len8 (b - w.start) + w.len16

def colOut (t : LineIndex) (line byteCol : ℕ) (enc : PositionEncoding) : ℕ :=
  let len := (t.lineLens[line]?).getD 0
  let b := min byteCol len
  match enc with
  | .utf8 => b
  | .utf16 =>
    -- `partition_point`: the list is sorted by line
    let first := (t.wide.takeWhile fun w => decide (w.line < line)).length
    ((t.wide.drop first).takeWhile fun w => decide (w.line = line) && decide (w.start < b)).foldl
      (correct b) b

end LineIndex

/-! ## 4. The text of a line -/

theorem lenUtf8_pos (c : Char) : 0 < lenUtf8 c := c.utf8Size_pos

theorem lenUtf16_pos (c : Char) : 0 < lenUtf16 c := by
  unfold lenUtf16
  split <;> decide

theorem lenUtf16_le (c : Char) : lenUtf16 c ≤ 2 := by
  unfold lenUtf16
  split <;> decide

theorem isAscii_iff {c : Char} : isAscii c = true ↔ lenUtf8 c = 1 := by
  rw [isAscii, decide_eq_true_eq, lenUtf8, Char.utf8Size_eq_one_iff]

theorem lenUtf16_ascii {c : Char} (h : isAscii c = true) : lenUtf16 c = 1 := by
  have hval : c.val ≤ 127 := of_decide_eq_true h
  exact if_pos (UInt32.le_trans hval (by decide))

/-- The first bytes of a text that begins with a piece of that size. -/
theorem count_append_self (a b : List Char) : count lenUtf8 (a ++ b) (byteLen a) = a.length := by
  induction a with
  | nil => simp
  | cons c a ih =>
    have hpos := lenUtf8_pos c
    have hne : lenUtf8 c + byteLen a ≠ 0 := by omega
    rw [byteLen, total_cons, List.cons_append, count, if_neg hne, Nat.add_sub_cancel_left, ih,
      List.length_cons]

theorem dropBytes_append (a b : List Char) : dropBytes (byteLen a) (a ++ b) = b := by
  rw [dropBytes, count_append_self, List.drop_left]

theorem takeBytes_append (a b : List Char) : takeBytes (byteLen a) (a ++ b) = a := by
  rw [takeBytes, count_append_self, List.take_left]

/-- A line is what stands before its `'\r'`, then that. -/
theorem stripCr_append (part : List Char) : ∃ rest, part = stripCr part ++ rest ∧
    byteLen (stripCr part) =
      if part.getLast? = some '\r' then byteLen part - 1 else byteLen part := by
  unfold stripCr
  split
  · rename_i hlast
    have hsplit : part = part.dropLast ++ ['\r'] := by
      obtain ⟨h, hmem⟩ := List.getLast?_eq_some_iff.mp hlast
      rw [hmem, List.dropLast_concat]
    refine ⟨['\r'], hsplit, ?_⟩
    have hsize : byteLen part = byteLen part.dropLast + 1 := by
      conv_lhs => rw [hsplit]
      rw [byteLen, total_append]
      rfl
    omega
  · exact ⟨[], by simp, rfl⟩

/-- Lines joined by `'\n'`. -/
def joinLines (parts : List (List Char)) : List Char := List.intercalate ['\n'] parts

theorem joinLines_cons (part : List Char) {parts : List (List Char)} (hne : parts ≠ []) :
    joinLines (part :: parts) = part ++ ('\n' :: joinLines parts) := by
  cases parts with
  | nil => exact absurd rfl hne
  | cons p ps => simp [joinLines, List.intercalate]

theorem byteLen_joinLines_cons (part : List Char) {parts : List (List Char)} (hne : parts ≠ []) :
    byteLen (joinLines (part :: parts)) = byteLen part + (1 + byteLen (joinLines parts)) := by
  have hnewline : lenUtf8 '\n' = 1 := rfl
  rw [joinLines_cons part hne, byteLen, total_append, total_cons, hnewline]

theorem joinLines_splitLines (text : List Char) : joinLines (splitLines text) = text :=
  List.intercalate_splitOn '\n'

/-- **A line's range holds the line**, where `pre` is the text before the remaining lines. -/
theorem lineRanges_slice (pre : List Char) : ∀ (parts : List (List Char)) (line : ℕ),
    ((lineRanges (byteLen pre) parts)[line]?).map
        (fun r => takeBytes (r.2 - r.1) (dropBytes r.1 (pre ++ joinLines parts))) =
      (parts[line]?).map stripCr := by
  intro parts
  induction parts generalizing pre with
  | nil => simp [lineRanges]
  | cons part parts ih =>
    intro line
    cases line with
    | zero =>
      obtain ⟨rest, hpart, hlen⟩ := stripCr_append part
      have hbegin : ∃ tail, joinLines (part :: parts) = stripCr part ++ tail := by
        by_cases hne : parts = []
        · subst hne
          refine ⟨rest, ?_⟩
          rw [← hpart]
          simp [joinLines, List.intercalate]
        · refine ⟨rest ++ ('\n' :: joinLines parts), ?_⟩
          rw [joinLines_cons part hne, ← List.append_assoc, ← hpart]
      obtain ⟨tail, htail⟩ := hbegin
      have hsize : (if part.getLast? = some '\r' then byteLen pre + byteLen part - 1
          else byteLen pre + byteLen part) - byteLen pre = byteLen (stripCr part) := by
        rw [hlen]
        split <;> omega
      simp only [lineRanges, List.getElem?_cons_zero, Option.map_some, hsize, dropBytes_append]
      rw [htail, takeBytes_append]
    | succ line =>
      rw [lineRanges, List.getElem?_cons_succ, List.getElem?_cons_succ]
      by_cases hne : parts = []
      · subst hne
        simp [lineRanges]
      · have hsize : byteLen pre + byteLen part + 1 = byteLen (pre ++ (part ++ ['\n'])) := by
          simp only [byteLen, total_append]
          rfl
        have htext : pre ++ joinLines (part :: parts) =
            (pre ++ (part ++ ['\n'])) ++ joinLines parts := by
          rw [joinLines_cons part hne]
          simp
        rw [hsize, htext]
        exact ih (pre ++ (part ++ ['\n'])) line

/-- **The text of a line** is the line, without a `'\r'` at its end. -/
theorem lineText_eq (text : String) (line : ℕ) :
    (LineTable.new text).lineText line =
      ((((splitLines text.toList).map stripCr)[line]?).getD []) := by
  have hslice := lineRanges_slice [] (splitLines text.toList) line
  rw [joinLines_splitLines] at hslice
  unfold LineTable.lineText LineTable.new
  rw [List.getElem?_map, ← hslice]
  rfl

/-- No line is longer than the text. -/
theorem byteLen_part_le {parts : List (List Char)} {part : List Char} (h : part ∈ parts) :
    byteLen part ≤ byteLen (joinLines parts) := by
  induction parts with
  | nil => simp at h
  | cons p ps ih =>
    by_cases hne : ps = []
    · subst hne
      rw [List.mem_singleton] at h
      subst h
      simp [joinLines, List.intercalate]
    · rw [byteLen_joinLines_cons p hne]
      rcases List.mem_cons.mp h with rfl | h
      · exact Nat.le_add_right _ _
      · have hle := ih h
        omega

theorem byteLen_stripCr_le (part : List Char) : byteLen (stripCr part) ≤ byteLen part := by
  obtain ⟨rest, -, hlen⟩ := stripCr_append part
  rw [hlen]
  split <;> omega

/-- There are no more lines than bytes, and one. -/
theorem length_le_joinLines (parts : List (List Char)) :
    parts.length ≤ byteLen (joinLines parts) + 1 := by
  induction parts with
  | nil => exact Nat.zero_le _
  | cons p ps ih =>
    by_cases hne : ps = []
    · subst hne
      simp
    · rw [byteLen_joinLines_cons p hne, List.length_cons]
      omega

end AlSem.Lsp
