/-
# Frames off a buffered stream

`read_frame` reads one line off a buffered reader, no further than the limit plus one byte; a
longer line is refused, and `skip_rest` drops what is left of it.  The reader's buffer and the
reads it still makes are explicit, and so are the standard library's `Take::fill_buf` and
`read_until`: the stream is cut into chunks anywhere.

However the stream is cut, the frames read are its lines, one report for one line
(`readAll_lines`).
-/
import AlSem.Lib.Lines

namespace AlSem.Wire

open Lines

abbrev Bytes := List UInt8

def newline : UInt8 := 10

/-! ## 1. A buffered reader -/

/-- What one read of the stream gives; an empty read is the end of input. -/
structure Chunk where
  bytes : Bytes
  nonempty : bytes ≠ []

/-- A buffered reader: what is buffered and not consumed, and the reads to come. -/
structure Reader where
  buf : Bytes
  source : List Chunk

/-- The bytes the reader still gives. -/
def Reader.bytes (r : Reader) : Bytes := r.buf ++ (r.source.map Chunk.bytes).flatten

/-- `fill_buf`: read once when the buffer is used up. -/
def Reader.fillBuf (r : Reader) : Reader :=
  match r.buf, r.source with
  | [], c :: source => ⟨c.bytes, source⟩
  | _, _ => r

/-- `consume`: `n` bytes of the buffer are used. -/
def Reader.consume (r : Reader) (n : ℕ) : Reader := { r with buf := r.buf.drop n }

/-- `position` of the newline. -/
def position (buf : Bytes) : Option ℕ := buf.findIdx? fun b => decide (b = newline)

@[simp] theorem fillBuf_bytes (r : Reader) : r.fillBuf.bytes = r.bytes := by
  obtain ⟨buf, source⟩ := r
  cases buf with
  | cons b buf => rfl
  | nil =>
    cases source with
    | nil => rfl
    | cons c source => simp [Reader.fillBuf, Reader.bytes]

/-- After a read an empty buffer is the end of input. -/
theorem bytes_of_fillBuf_nil {r : Reader} (h : r.fillBuf.buf = []) : r.bytes = [] := by
  obtain ⟨buf, source⟩ := r
  cases buf with
  | cons b buf => simp [Reader.fillBuf] at h
  | nil =>
    cases source with
    | nil => rfl
    | cons c source => exact absurd h c.nonempty

theorem consume_bytes (r : Reader) {n : ℕ} (hn : n ≤ r.buf.length) :
    (r.consume n).bytes = r.bytes.drop n := by
  simp only [Reader.consume, Reader.bytes]
  rw [List.drop_append_of_le_length hn]

theorem position_le {buf : Bytes} {i : ℕ} (h : position buf = some i) : i + 1 ≤ buf.length := by
  obtain ⟨hi, -⟩ := List.findIdx?_eq_some_iff_findIdx_eq.mp h
  omega

theorem position_none {buf : Bytes} (h : position buf = none) : newline ∉ buf := by
  intro hmem
  have := List.findIdx?_eq_none_iff.mp h newline hmem
  simp at this

/-! ## 2. Reading a line -/

/-- `read_until` off `take limit`: the bytes read, and the reader behind them. -/
def readUntil (limit : ℕ) (r : Reader) : Bytes × Reader :=
  if limit = 0 then ([], r)
  else
    let r := r.fillBuf
    let available := r.buf.take limit
    match position available with
    | some i => (available.take (i + 1), r.consume (i + 1))
    | none =>
      if available = [] then ([], r)
      else
        let rest := readUntil (limit - available.length) (r.consume available.length)
        (available ++ rest.1, rest.2)
termination_by limit
decreasing_by
  have hlimit : ¬ limit = 0 := by assumption
  have hpos : 0 < available.length := List.length_pos_of_ne_nil (by assumption)
  exact Nat.sub_lt (Nat.pos_of_ne_zero hlimit) hpos

/-- **What `read_until` reads**: the first line of the stream, cut at the limit. -/
theorem readUntil_spec (limit : ℕ) (r : Reader) :
    (readUntil limit r).1 = (firstLine newline r.bytes).take limit ∧
      (readUntil limit r).2.bytes = r.bytes.drop (readUntil limit r).1.length := by
  induction limit using Nat.strongRecOn generalizing r with
  | ind limit ih =>
    rw [readUntil]
    by_cases hzero : limit = 0
    · simp [hzero]
    rw [if_neg hzero]
    dsimp only
    -- The stream is what is available and the rest of it.
    have hsplit : r.bytes = r.fillBuf.buf.take limit ++
        (r.fillBuf.buf.drop limit ++ (r.fillBuf.source.map Chunk.bytes).flatten) := by
      rw [← List.append_assoc, List.take_append_drop]
      exact (fillBuf_bytes r).symm
    have hlen : (r.fillBuf.buf.take limit).length ≤ r.fillBuf.buf.length :=
      List.length_take_le' _ _
    cases hpos : position (r.fillBuf.buf.take limit) with
    | some i =>
      have hi := position_le hpos
      dsimp only
      have hline : firstLine newline r.bytes = (r.fillBuf.buf.take limit).take (i + 1) := by
        rw [hsplit]
        exact firstLine_append_of_index newline _ hpos
      have hle : i + 1 ≤ limit := Nat.le_trans hi (List.length_take_le _ _)
      refine ⟨?_, ?_⟩
      · rw [hline, List.take_take, List.take_take, Nat.min_eq_left hle, Nat.min_eq_right hle]
      · rw [consume_bytes _ (Nat.le_trans hi hlen), fillBuf_bytes, List.length_take,
          Nat.min_eq_left hi]
    | none =>
      dsimp only
      by_cases havail : r.fillBuf.buf.take limit = []
      · have hbuf : r.fillBuf.buf = [] := by
          rcases List.take_eq_nil_iff.mp havail with h | h
          · exact absurd h hzero
          · exact h
        rw [if_pos havail]
        simp [bytes_of_fillBuf_nil hbuf]
      · rw [if_neg havail]
        have hpositive := List.length_pos_of_ne_nil havail
        obtain ⟨hline, hrest⟩ := ih (limit - (r.fillBuf.buf.take limit).length) (by omega)
          (r.fillBuf.consume (r.fillBuf.buf.take limit).length)
        have hafter : (r.fillBuf.consume (r.fillBuf.buf.take limit).length).bytes
            = r.bytes.drop (r.fillBuf.buf.take limit).length := by
          rw [consume_bytes _ hlen, fillBuf_bytes]
        have hfirst : firstLine newline r.bytes = r.fillBuf.buf.take limit ++
            firstLine newline (r.bytes.drop (r.fillBuf.buf.take limit).length) := by
          conv_lhs => rw [hsplit, firstLine_append_of_notMem newline _ (position_none hpos)]
          conv_rhs => rw [hsplit, List.drop_left]
        refine ⟨?_, ?_⟩
        · rw [hline, hafter, hfirst, List.take_append]
          rw [List.take_of_length_le (List.length_take_le _ _)]
        · rw [hrest, hafter, List.drop_drop, List.length_append]

/-- `skip_line`: discard the rest of the current line; the bytes skipped. -/
def skipLine (r : Reader) : ℕ × Reader :=
  if r.fillBuf.buf = [] then (0, r.fillBuf)
  else
    match position r.fillBuf.buf with
    | some i => (i + 1, r.fillBuf.consume (i + 1))
    | none =>
      let rest := skipLine (r.fillBuf.consume r.fillBuf.buf.length)
      (r.fillBuf.buf.length + rest.1, rest.2)
termination_by r.bytes.length
decreasing_by
  rename_i hbuf
  have hpos := List.length_pos_of_ne_nil hbuf
  have hle : r.fillBuf.buf.length ≤ r.fillBuf.bytes.length := by simp [Reader.bytes]
  rw [consume_bytes _ (Nat.le_refl _), List.length_drop, fillBuf_bytes]
  rw [fillBuf_bytes] at hle
  omega

/-- **What `skip_line` skips**: the first line of the stream. -/
theorem skipLine_spec (r : Reader) :
    (skipLine r).1 = (firstLine newline r.bytes).length ∧
      (skipLine r).2.bytes = r.bytes.drop (firstLine newline r.bytes).length := by
  induction hn : r.bytes.length using Nat.strongRecOn generalizing r with
  | ind n ih =>
    rw [skipLine]
    have hsplit : r.bytes = r.fillBuf.buf ++ (r.fillBuf.source.map Chunk.bytes).flatten :=
      (fillBuf_bytes r).symm
    by_cases hbuf : r.fillBuf.buf = []
    · rw [if_pos hbuf, fillBuf_bytes, bytes_of_fillBuf_nil hbuf]
      simp
    rw [if_neg hbuf]
    cases hpos : position r.fillBuf.buf with
    | some i =>
      have hi := position_le hpos
      have hline : firstLine newline r.bytes = r.fillBuf.buf.take (i + 1) := by
        rw [hsplit]
        exact firstLine_append_of_index newline _ hpos
      have hlength : (firstLine newline r.bytes).length = i + 1 := by
        rw [hline, List.length_take, Nat.min_eq_left hi]
      dsimp only
      rw [hlength, consume_bytes _ hi, fillBuf_bytes]
      exact ⟨rfl, rfl⟩
    | none =>
      dsimp only
      have hpositive := List.length_pos_of_ne_nil hbuf
      have hle : r.fillBuf.buf.length ≤ r.bytes.length := by
        rw [hsplit, List.length_append]
        omega
      have hafter : (r.fillBuf.consume r.fillBuf.buf.length).bytes
          = r.bytes.drop r.fillBuf.buf.length := by
        rw [consume_bytes _ (Nat.le_refl _), fillBuf_bytes]
      obtain ⟨hcount, hrest⟩ := ih _ (by rw [hafter, List.length_drop]; omega)
        (r.fillBuf.consume r.fillBuf.buf.length) rfl
      have hfirst : firstLine newline r.bytes = r.fillBuf.buf ++
          firstLine newline (r.bytes.drop r.fillBuf.buf.length) := by
        conv_lhs => rw [hsplit, firstLine_append_of_notMem newline _ (position_none hpos)]
        conv_rhs => rw [hsplit, List.drop_left]
      rw [hcount, hrest, hafter, hfirst, List.length_append, List.drop_drop]
      exact ⟨rfl, rfl⟩

/-! ## 3. Frames -/

/-- The most bytes of a frame, its newline included. -/
def MAX_FRAME_BYTES : ℕ := 16 * 1024 * 1024

/-- A refused oversized line: how much was read, and whether its newline was among it. -/
structure Oversized where
  read : ℕ
  delimiterConsumed : Bool
  deriving DecidableEq

/-- What `read_frame` read. -/
inductive ReadFrame where
  | frame (line : Bytes)
  | eof
  | oversized (o : Oversized)
  deriving DecidableEq

/-- `read_frame`: the next frame of the reader. -/
def readFrame (r : Reader) : ReadFrame × Reader :=
  let read := readUntil (MAX_FRAME_BYTES + 1) r
  if read.1.length = 0 then (.eof, read.2)
  else if MAX_FRAME_BYTES < read.1.length then
    (.oversized ⟨read.1.length, decide (read.1.getLast? = some newline)⟩, read.2)
  else (.frame read.1, read.2)

/-- `Oversized::skip_rest`: the bytes skipped, and the reader behind them. -/
def Oversized.skipRest (o : Oversized) (r : Reader) : ℕ × Reader :=
  if o.delimiterConsumed then (0, r) else skipLine r

/-- Read to the end of input: after each oversized report its line is skipped.  `none` when the
calls do not reach the end. -/
def readAll : ℕ → Reader → Option (List ReadFrame)
  | 0, _ => none
  | calls + 1, r =>
    match readFrame r with
    | (.eof, _) => some []
    | (.frame line, r') => (readAll calls r').map (.frame line :: ·)
    | (.oversized o, r') => (readAll calls (o.skipRest r').2).map (.oversized o :: ·)

/-- **What a line is reported as**: itself, or, over the limit, that the limit plus one byte was
read, and whether the line's newline was the last of them. -/
def report (line : Bytes) : ReadFrame :=
  if line.length ≤ MAX_FRAME_BYTES then .frame line
  else
    .oversized ⟨MAX_FRAME_BYTES + 1,
      decide (line.length = MAX_FRAME_BYTES + 1 ∧ line.getLast? = some newline)⟩

/-- A cut line ends in the newline only where it was not cut: a newline stands at a line's end. -/
theorem getLast_take {line : Bytes} {n : ℕ} (hline : newline ∉ line.dropLast)
    (hn : n + 1 ≤ line.length) :
    ((line.take (n + 1)).getLast? = some newline) ↔
      (line.length = n + 1 ∧ line.getLast? = some newline) := by
  by_cases heq : line.length = n + 1
  · rw [List.take_of_length_le (Nat.le_of_eq heq)]
    simp [heq]
  · have hcut : line.take (n + 1) = line.dropLast.take (n + 1) := by
      rw [List.dropLast_eq_take, List.take_take, Nat.min_eq_left (by omega)]
    constructor
    · intro hlast
      rw [hcut] at hlast
      exact absurd (List.mem_of_mem_take (List.mem_of_getLast? hlast)) hline
    · rintro ⟨h, -⟩
      exact absurd h heq

/-- **One call of `read_frame`** at a stream that has not ended reports its first line and leaves
the lines behind it, once an oversized line is skipped. -/
theorem readFrame_spec (r : Reader) (hne : r.bytes ≠ []) :
    (readFrame r).1 = report (firstLine newline r.bytes) ∧
      match (readFrame r).1 with
      | .oversized o => (o.skipRest (readFrame r).2).2.bytes
          = r.bytes.drop (firstLine newline r.bytes).length
      | _ => (readFrame r).2.bytes = r.bytes.drop (firstLine newline r.bytes).length := by
  obtain ⟨hread, hrest⟩ := readUntil_spec (MAX_FRAME_BYTES + 1) r
  have hpos := List.length_pos_of_ne_nil (firstLine_ne_nil newline hne)
  by_cases hle : (firstLine newline r.bytes).length ≤ MAX_FRAME_BYTES
  · -- The whole line was read.
    have hall : (readUntil (MAX_FRAME_BYTES + 1) r).1 = firstLine newline r.bytes := by
      rw [hread, List.take_of_length_le (by omega)]
    have hframe : readFrame r
        = (.frame (firstLine newline r.bytes), (readUntil (MAX_FRAME_BYTES + 1) r).2) := by
      simp only [readFrame, hall]
      rw [if_neg (by omega), if_neg (by omega)]
    rw [hframe]
    refine ⟨by rw [report, if_pos hle], ?_⟩
    rw [hrest, hall]
  · -- The limit plus one byte of it were read.
    have hlength : (readUntil (MAX_FRAME_BYTES + 1) r).1.length = MAX_FRAME_BYTES + 1 := by
      rw [hread, List.length_take, Nat.min_eq_left (by omega)]
    have hlast := getLast_take (n := MAX_FRAME_BYTES) (firstLine_dropLast newline r.bytes)
      (by omega)
    rw [← hread] at hlast
    have hframe : readFrame r = (.oversized ⟨MAX_FRAME_BYTES + 1,
        decide ((readUntil (MAX_FRAME_BYTES + 1) r).1.getLast? = some newline)⟩,
        (readUntil (MAX_FRAME_BYTES + 1) r).2) := by
      simp only [readFrame, hlength]
      rw [if_neg (by omega), if_pos (by omega)]
    rw [hframe]
    refine ⟨?_, ?_⟩
    · rw [report, if_neg hle]
      simp only [hlast]
    · dsimp only [Oversized.skipRest]
      rw [hlength] at hrest
      -- The rest of the stream starts with what is left of the line.
      have hline : r.bytes = firstLine newline r.bytes ++
          r.bytes.drop (firstLine newline r.bytes).length := firstLine_append_rest newline r.bytes
      split
      · rename_i hdelim
        rw [hrest, (hlast.mp (of_decide_eq_true hdelim)).1]
      · rename_i hdelim
        have hnot : ¬ ((firstLine newline r.bytes).length = MAX_FRAME_BYTES + 1 ∧
            (firstLine newline r.bytes).getLast? = some newline) :=
          fun h => hdelim (decide_eq_true (hlast.mpr h))
        rw [(skipLine_spec _).2, hrest, List.drop_drop,
          firstLine_drop newline r.bytes (MAX_FRAME_BYTES + 1) (by omega) hnot]
        congr 1
        rw [List.length_drop]
        omega

/-- Reading to the end of a stream gives one report for each of its lines, in order. -/
theorem readAll_eq (r : Reader) (more : ℕ) :
    readAll ((lines newline r.bytes).length + 1 + more) r
      = some ((lines newline r.bytes).map report) := by
  induction hn : r.bytes.length using Nat.strongRecOn generalizing r with
  | ind n ih =>
    by_cases hne : r.bytes = []
    · have hread := (readUntil_spec (MAX_FRAME_BYTES + 1) r).1
      rw [hne] at hread
      have heof : readFrame r = (.eof, (readUntil (MAX_FRAME_BYTES + 1) r).2) := by
        simp [readFrame, hread]
      rw [hne, lines_nil, List.length_nil, Nat.zero_add, Nat.add_comm, readAll, heof]
      rfl
    · obtain ⟨hreport, hrest⟩ := readFrame_spec r hne
      have hpos := List.length_pos_of_ne_nil (firstLine_ne_nil newline hne)
      have hle := firstLine_length_le newline r.bytes
      -- One call, and the calls on the lines behind it.
      have hnext : ∀ r' : Reader, r'.bytes = r.bytes.drop (firstLine newline r.bytes).length →
          readAll ((lines newline (r.bytes.drop (firstLine newline r.bytes).length)).length + 1
            + more) r' = some ((lines newline (r.bytes.drop
              (firstLine newline r.bytes).length)).map report) := by
        intro r' hr'
        have h := ih r'.bytes.length (by rw [hr', List.length_drop]; omega) r' rfl
        rwa [hr'] at h
      rw [lines_eq_cons newline hne, List.length_cons, List.map_cons]
      rw [show (lines newline (r.bytes.drop (firstLine newline r.bytes).length)).length + 1 + 1
        + more = ((lines newline (r.bytes.drop (firstLine newline r.bytes).length)).length + 1
        + more) + 1 by omega, readAll]
      rcases hf : readFrame r with ⟨frame, r'⟩
      rw [hf] at hreport hrest
      dsimp only at hreport hrest
      cases frame with
      | eof =>
        exfalso
        unfold report at hreport
        split at hreport <;> cases hreport
      | frame line =>
        dsimp only at hrest ⊢
        rw [hnext r' hrest, ← hreport]
        rfl
      | oversized o =>
        dsimp only at hrest ⊢
        rw [hnext _ hrest, ← hreport]
        rfl

/-- **Frame reading resynchronises on every stream.**  However the stream's bytes are split over
the reads, reading to its end gives one report for each of its lines, in order; the lines make up
the stream, and each holds a newline at its end only. -/
theorem readAll_lines (r : Reader) (more : ℕ) :
    readAll ((lines newline r.bytes).length + 1 + more) r
        = some ((lines newline r.bytes).map report) ∧
      (lines newline r.bytes).flatten = r.bytes ∧
      ∀ line ∈ lines newline r.bytes, line ≠ [] ∧ newline ∉ line.dropLast :=
  ⟨readAll_eq r more, lines_flatten newline r.bytes, line_of_mem newline⟩

end AlSem.Wire
