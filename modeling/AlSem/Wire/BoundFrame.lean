/-
# One frame for every answer

`bound_frame` turns an answer into one line of at most `limit` bytes.  While the line is too long it moves
the stdout to a file, then the stderr, then cuts the changed paths to 256; after that it gives up, writes
the whole answer to a file and sends a failure that names the file.

The library that prints and reads JSON (`Serde`), the transport's envelope around an answer (`Envelope`)
and what is on disk are explicit.
-/
import AlSem.Wire.Answer

namespace AlSem.Wire

open JsonText

/-! ## 1. The parts around an answer -/

/-- A JSON library: what it prints it reads back, on one line. -/
structure Serde where
  toVec : Json → Bytes
  fromSlice : Bytes → Except String Json
  fromSlice_toVec : ∀ v, fromSlice (toVec v) = .ok v
  newline_notMem : ∀ v, newline ∉ toVec v

/-- The transport's envelope around an answer, and how its reader finds the outcome in it. -/
structure Envelope where
  wrap : Answer → Json
  read : Json → Option Outcome
  read_wrap : ∀ a, read (wrap a) = some a.outcome.received

/-- A JSON-RPC response. -/
def rpc : Envelope where
  wrap a := record [("jsonrpc", some (.string "2.0")), ("id", some a.id), ("result", some a.toJson)]
  read := ofRecord fun fields => (required "result" Answer.ofJson fields).map (·.outcome)
  read_wrap a := by
    simp only [record, ofRecord]
    rw [required_present (v := a.toJson) (by simp) (by simp), Answer.ofJson_toJson]
    rfl

/-- The files: each path with its bytes, the newest first. -/
abbrev Disk := List (String × Bytes)

def Disk.read (d : Disk) (path : String) : Option Bytes := d.lookup path

/-- Writes bytes to a file and describes it, or fails. -/
abbrev Spill := SpillKind → Bytes → Disk → Except String SpillFile × Disk

/-! ## 2. The code -/

def CHANGED_PATHS_KEPT : ℕ := 256

/-- A text's bytes. -/
def textBytes (t : String) : Bytes := Utf8.encode t.toList

/-- A message and the newline behind it. -/
def frameOf (S : Serde) (message : Json) : Bytes := S.toVec message ++ [newline]

def encodeFrameWithin (S : Serde) (message : Json) (limit : ℕ) : Except WireError Bytes :=
  if limit < (frameOf S message).length then .error (.frameTooLarge (frameOf S message).length)
  else .ok (frameOf S message)

/-- One frame, with or without its newline. -/
def decodeFrame (S : Serde) (frame : Bytes) : Except WireError Json :=
  if MAX_FRAME_BYTES < frame.length then .error (.frameTooLarge frame.length)
  else
    let body := if frame.getLast? = some newline then frame.dropLast else frame
    if newline ∈ body then .error .notOneLine
    else
      match S.fromSlice body with
      | .ok v => .ok v
      | .error e => .error (.json e)

/-- Nothing but that something went wrong. -/
def bareAnswer : Answer := .terminal .null none .protocol "" none

/-- Stdout goes to a file. -/
def Cli.spillStdout (spill : Spill) (c : Cli) (d : Disk) : Except String Cli × Disk :=
  match c.stdout with
  | .text t =>
    match spill .stdout (textBytes t) d with
    | (.ok f, d) => (.ok { c with stdout := .file f }, d)
    | (.error e, d) => (.error e, d)
  | .file _ => (.ok c, d)

/-- Stderr goes to a file, as the bytes the lines hold. -/
def Cli.spillStderr (spill : Spill) (c : Cli) (d : Disk) : Except String Cli × Disk :=
  match c.stderr with
  | .lines l =>
    match spill .stderr l.bytes d with
    | (.ok f, d) => (.ok { c with stderr := .file f }, d)
    | (.error e, d) => (.error e, d)
  | .file _ => (.ok c, d)

/-- The changed paths are cut. -/
def Cli.cutPaths (c : Cli) : Cli :=
  if CHANGED_PATHS_KEPT < c.changedPaths.length then
    { c with changedPaths := c.changedPaths.take CHANGED_PATHS_KEPT, changedPathsTruncated := true }
  else c

def Answer.withCli (a : Answer) (c : Cli) : Answer := { a with outcome := .cli c }

section Code

variable (S : Serde) (wrap : Answer → Json) (limit : ℕ) (spill : Spill)

/-- The terminal frame of an answer. -/
def terminalFrame (a : Answer) (message : String) (diagnosticFile : Option SpillFile) : Bytes :=
  match encodeFrameWithin S (wrap (.terminal a.id a.revision .protocol message diagnosticFile))
    limit with
  | .ok frame => frame
  -- Not even that fits: an id or a limit that leaves no room.
  | .error _ => frameOf S (wrap bareAnswer)

/-- The message rule holds whatever the frame's size. -/
def capMessage (a : Answer) (d : Disk) : Except String Answer × Disk :=
  match a.outcome with
  | .failed outcome message _ =>
    if MESSAGE_INLINE_BYTES < (textBytes message).length then
      match spill .diagnostic (textBytes message) d with
      | (.ok f, d) =>
        (.ok { a with outcome := .failed outcome (cut message MESSAGE_INLINE_BYTES) (some f) }, d)
      | (.error e, d) => (.error e, d)
    else (.ok a, d)
  | .cli _ => (.ok a, d)

/-- What one step does to a command's outcome. -/
def shrink (step : ℕ) (c : Cli) (d : Disk) : Except String Cli × Disk :=
  match step with
  | 0 => c.spillStdout spill d
  | 1 => c.spillStderr spill d
  | 2 => (.ok c.cutPaths, d)
  | _ => (.ok c, d)

/-- The steps: the frame to send, or the answer that is still too long. -/
def boundLoop : List ℕ → Answer → Disk → (Bytes ⊕ Answer) × Disk
  | [], a, d => (.inr a, d)
  | step :: steps, a, d =>
    match encodeFrameWithin S (wrap a) limit with
    | .ok frame => (.inl frame, d)
    | .error (.frameTooLarge _) =>
      match a.outcome with
      | .cli c =>
        match shrink spill step c d with
        | (.ok c, d) => boundLoop steps (a.withCli c) d
        | (.error e, d) =>
          (.inl (terminalFrame S wrap limit a s!"answer exceeded the frame limit; spill failed: {e}"
            none), d)
      | .failed _ _ _ => (.inr a, d)
    | .error e =>
      (.inl (terminalFrame S wrap limit a s!"encoding the answer failed: {e.display}" none), d)

/-- **An answer as one frame.** -/
def boundFrame (a : Answer) (d : Disk) : Bytes × Disk :=
  match capMessage spill a d with
  | (.error e, d) =>
    (terminalFrame S wrap limit a s!"spilling the message failed: {e}" none, d)
  | (.ok a, d) =>
    match boundLoop S wrap limit spill (List.range 4) a d with
    | (.inl frame, d) => (frame, d)
    | (.inr a, d) =>
      match spill .diagnostic (S.toVec a.toJson) d with
      | (.ok f, d) => (terminalFrame S wrap limit a "answer exceeded the frame limit" (some f), d)
      | (.error e, d) =>
        (terminalFrame S wrap limit a s!"answer exceeded the frame limit; spill failed: {e}" none, d)

end Code

/-! ## 3. Every result is one line -/

section Line

variable (S : Serde) (wrap : Answer → Json) (limit : ℕ) (spill : Spill)

/-- The answer is short enough. -/
def Fits (a : Answer) : Prop := (frameOf S (wrap a)).length ≤ limit

instance (a : Answer) : Decidable (Fits S wrap limit a) := inferInstanceAs (Decidable (_ ≤ _))

/-- The terminal answer of a request. -/
abbrev terminalOf (a : Answer) (message : String) (file : Option SpillFile) : Answer :=
  .terminal a.id a.revision .protocol message file

/-- The message and the file of the terminal answer that the steps end with; nothing where they end
otherwise. -/
def loopTried : List ℕ → Answer → Disk → Option (String × Option SpillFile)
  | [], _, _ => none
  | step :: steps, a, d =>
    if Fits S wrap limit a then none
    else
      match a.outcome with
      | .failed _ _ _ => none
      | .cli c =>
        match shrink spill step c d with
        | (.ok c, d) => loopTried steps (a.withCli c) d
        | (.error e, _) => some (s!"answer exceeded the frame limit; spill failed: {e}", none)

/-- **The terminal answer that is tried for an answer**: its message and its file, or nothing where a form
of the answer fits. -/
def terminalTried (a : Answer) (d : Disk) : Option (String × Option SpillFile) :=
  match capMessage spill a d with
  | (.error e, _) => some (s!"spilling the message failed: {e}", none)
  | (.ok a, d) =>
    match boundLoop S wrap limit spill (List.range 4) a d with
    | (.inl _, _) => loopTried S wrap limit spill (List.range 4) a d
    | (.inr a, d) =>
      match spill .diagnostic (S.toVec a.toJson) d with
      | (.ok f, _) => some ("answer exceeded the frame limit", some f)
      | (.error e, _) => some (s!"answer exceeded the frame limit; spill failed: {e}", none)

/-- The answer a frame carries, given the terminal answer tried: one of the same request that fits, or the
terminal answer, or the bare one where that does not fit. -/
def Carries (a : Answer) (tried : Option (String × Option SpillFile)) (b : Answer) : Prop :=
  match tried with
  | none => Fits S wrap limit b ∧ b.id = a.id
  | some (message, file) =>
    b = if Fits S wrap limit (terminalOf a message file) then terminalOf a message file else bareAnswer

variable {S wrap limit}

theorem encodeFrameWithin_of_fits {a : Answer} (h : Fits S wrap limit a) :
    encodeFrameWithin S (wrap a) limit = .ok (frameOf S (wrap a)) := by
  unfold encodeFrameWithin
  exact if_neg (Nat.not_lt.mpr h)

theorem encodeFrameWithin_of_not_fits {a : Answer} (h : ¬ Fits S wrap limit a) :
    encodeFrameWithin S (wrap a) limit
      = .error (.frameTooLarge (frameOf S (wrap a)).length) := by
  unfold encodeFrameWithin
  exact if_pos (Nat.not_le.mp h)

/-- The terminal answer that names a diagnostic file, where it fits. -/
theorem terminalFrame_of_fits {a : Answer} {message : String} {file : Option SpillFile}
    (h : Fits S wrap limit (.terminal a.id a.revision .protocol message file)) :
    terminalFrame S wrap limit a message file
      = frameOf S (wrap (.terminal a.id a.revision .protocol message file)) := by
  unfold terminalFrame
  rw [encodeFrameWithin_of_fits h]

theorem terminalFrame_of_not_fits {a : Answer} {message : String} {file : Option SpillFile}
    (h : ¬ Fits S wrap limit (.terminal a.id a.revision .protocol message file)) :
    terminalFrame S wrap limit a message file = frameOf S (wrap bareAnswer) := by
  unfold terminalFrame
  rw [encodeFrameWithin_of_not_fits h]

theorem terminalFrame_carries (a : Answer) (message : String) (file : Option SpillFile) :
    ∃ b, terminalFrame S wrap limit a message file = frameOf S (wrap b) ∧
      Carries S wrap limit a (some (message, file)) b := by
  by_cases h : Fits S wrap limit (terminalOf a message file)
  · exact ⟨_, terminalFrame_of_fits h, (if_pos h).symm⟩
  · exact ⟨_, terminalFrame_of_not_fits h, (if_neg h).symm⟩

/-- Only the request an answer is of matters. -/
theorem Carries.of_same {a b c : Answer} {tried : Option (String × Option SpillFile)}
    (h : Carries S wrap limit b tried c) (hid : b.id = a.id) (hrevision : b.revision = a.revision) :
    Carries S wrap limit a tried c := by
  cases tried with
  | none => exact ⟨h.1, h.2.trans hid⟩
  | some t =>
    obtain ⟨message, file⟩ := t
    unfold Carries terminalOf at h ⊢
    rw [hid, hrevision] at h
    exact h

/-- Whatever the spill does, a frame the steps end with carries an answer. -/
theorem boundLoop_carries : ∀ (steps : List ℕ) (a : Answer) (d : Disk) (frame : Bytes),
    (boundLoop S wrap limit spill steps a d).1 = .inl frame →
      ∃ b, frame = frameOf S (wrap b) ∧
        Carries S wrap limit a (loopTried S wrap limit spill steps a d) b
  | [], _, _, _, h => absurd h (by simp [boundLoop])
  | step :: steps, a, d, frame, h => by
    rw [boundLoop] at h
    rw [loopTried]
    by_cases hfits : Fits S wrap limit a
    · rw [encodeFrameWithin_of_fits hfits] at h
      rw [if_pos hfits]
      exact ⟨a, (Sum.inl.inj h).symm, hfits, rfl⟩
    · rw [encodeFrameWithin_of_not_fits hfits] at h
      rw [if_neg hfits]
      dsimp only at h
      cases hout : a.outcome with
      | failed outcome message file =>
        rw [hout] at h
        exact absurd h (by simp)
      | cli c =>
        rw [hout] at h
        dsimp only at h ⊢
        cases hshrink : shrink spill step c d with
        | mk result d' =>
          rw [hshrink] at h
          cases result with
          | ok c =>
            obtain ⟨b, hframe, hb⟩ := boundLoop_carries steps (a.withCli c) d' frame h
            exact ⟨b, hframe, hb.of_same rfl rfl⟩
          | error e =>
            rw [← Sum.inl.inj h]
            exact terminalFrame_carries a _ none

/-- The answer that is still too long is of the same request. -/
theorem boundLoop_same : ∀ (steps : List ℕ) (a : Answer) (d : Disk) (b : Answer),
    (boundLoop S wrap limit spill steps a d).1 = .inr b → b.id = a.id ∧ b.revision = a.revision
  | [], a, _, b, h => by
    obtain rfl : a = b := by simpa [boundLoop] using h
    exact ⟨rfl, rfl⟩
  | step :: steps, a, d, b, h => by
    rw [boundLoop] at h
    by_cases hfits : Fits S wrap limit a
    · rw [encodeFrameWithin_of_fits hfits] at h
      exact absurd h (by simp)
    · rw [encodeFrameWithin_of_not_fits hfits] at h
      dsimp only at h
      cases hout : a.outcome with
      | failed outcome message file =>
        rw [hout] at h
        obtain rfl := Sum.inr.inj h
        exact ⟨rfl, rfl⟩
      | cli c =>
        rw [hout] at h
        dsimp only at h
        cases hshrink : shrink spill step c d with
        | mk result d' =>
          rw [hshrink] at h
          cases result with
          | ok c => exact boundLoop_same steps (a.withCli c) d' b h
          | error e => exact absurd h (by simp)

theorem capMessage_same {a b : Answer} {d d' : Disk} (h : capMessage spill a d = (.ok b, d')) :
    b.id = a.id ∧ b.revision = a.revision := by
  unfold capMessage at h
  cases hout : a.outcome with
  | cli c =>
    rw [hout] at h
    cases h
    exact ⟨rfl, rfl⟩
  | failed outcome message file =>
    rw [hout] at h
    dsimp only at h
    split at h
    · cases hspill : spill .diagnostic (textBytes message) d with
      | mk result d₁ =>
        rw [hspill] at h
        cases result with
        | ok f =>
          cases h
          exact ⟨rfl, rfl⟩
        | error e =>
          dsimp only at h
          simp at h
    · cases h
      exact ⟨rfl, rfl⟩

/-- **Whatever the answer and the spill, what comes out is one frame**, of the answer that the terminal
answer tried leaves. -/
theorem boundFrame_carries (S : Serde) (wrap : Answer → Json) (limit : ℕ) (spill : Spill)
    (a : Answer) (d : Disk) :
    ∃ b, (boundFrame S wrap limit spill a d).1 = frameOf S (wrap b) ∧
      Carries S wrap limit a (terminalTried S wrap limit spill a d) b := by
  unfold boundFrame terminalTried
  cases hcap : capMessage spill a d with
  | mk result d₁ =>
    cases result with
    | error e => exact terminalFrame_carries a _ none
    | ok b =>
      obtain ⟨hid, hrevision⟩ := capMessage_same spill hcap
      dsimp only
      cases hloop : boundLoop S wrap limit spill (List.range 4) b d₁ with
      | mk result d₂ =>
        cases result with
        | inl frame =>
          obtain ⟨c, hframe, hc⟩ := boundLoop_carries spill (List.range 4) b d₁ frame (by rw [hloop])
          exact ⟨c, hframe, hc.of_same hid hrevision⟩
        | inr c =>
          obtain ⟨hid', hrevision'⟩ := boundLoop_same spill (List.range 4) b d₁ c (by rw [hloop])
          dsimp only
          cases spill .diagnostic (S.toVec c.toJson) d₂ with
          | mk result d₃ =>
            cases result with
            | ok f =>
              obtain ⟨b', hframe, hb'⟩ := @terminalFrame_carries S wrap limit c
                "answer exceeded the frame limit" (some f)
              exact ⟨b', hframe, hb'.of_same (hid'.trans hid) (hrevision'.trans hrevision)⟩
            | error e =>
              obtain ⟨b', hframe, hb'⟩ := @terminalFrame_carries S wrap limit c
                s!"answer exceeded the frame limit; spill failed: {e}" none
              exact ⟨b', hframe, hb'.of_same (hid'.trans hid) (hrevision'.trans hrevision)⟩

/-- Where the bare answer fits, every answer carried does. -/
theorem Carries.fits {a b : Answer} {tried : Option (String × Option SpillFile)}
    (h : Carries S wrap limit a tried b) (hbare : Fits S wrap limit bareAnswer) :
    Fits S wrap limit b := by
  cases tried with
  | none => exact h.1
  | some t =>
    obtain ⟨message, file⟩ := t
    unfold Carries at h
    rw [h]
    by_cases hfits : Fits S wrap limit (terminalOf a message file)
    · rw [if_pos hfits]
      exact hfits
    · rw [if_neg hfits]
      exact hbare

/-- A frame no longer than a reader takes is decoded as the message it holds. -/
theorem decodeFrame_frameOf {v : Json} (h : (frameOf S v).length ≤ MAX_FRAME_BYTES) :
    decodeFrame S (frameOf S v) = .ok v := by
  have hlast : (frameOf S v).getLast? = some newline := by simp [frameOf]
  have hbody : (frameOf S v).dropLast = S.toVec v := by simp [frameOf]
  unfold decodeFrame
  rw [if_neg (Nat.not_lt.mpr h)]
  simp only [hlast, if_true, hbody, if_neg (S.newline_notMem v), S.fromSlice_toVec]

/-- **Under the limit every reader has, the bounded frame is decoded**, whatever the answer and whether or
not the spill fails.  Where no terminal answer is tried it is an answer of the same request; else it is
the terminal answer tried, and the bare one exactly where that does not fit. -/
theorem decodeFrame_boundFrame (hlimit : limit ≤ MAX_FRAME_BYTES)
    (hbare : Fits S wrap limit bareAnswer) (a : Answer) (d : Disk) :
    ∃ b, decodeFrame S (boundFrame S wrap limit spill a d).1 = .ok (wrap b) ∧
      (boundFrame S wrap limit spill a d).1.length ≤ limit ∧
      match terminalTried S wrap limit spill a d with
      | none => b.id = a.id
      | some (message, file) =>
        b = if Fits S wrap limit (.terminal a.id a.revision .protocol message file) then
            .terminal a.id a.revision .protocol message file
          else bareAnswer := by
  obtain ⟨b, hframe, hb⟩ := boundFrame_carries S wrap limit spill a d
  have hlength : (frameOf S (wrap b)).length ≤ limit := hb.fits hbare
  refine ⟨b, ?_, ?_, ?_⟩
  · rw [hframe]
    exact decodeFrame_frameOf (hlength.trans hlimit)
  · rw [hframe]
    exact hlength
  · cases htried : terminalTried S wrap limit spill a d with
    | none =>
      rw [htried] at hb
      exact hb.2
    | some t =>
      rw [htried] at hb
      exact hb

end Line

/-- The answer in a response. -/
def rpcAnswer : Json → Option Answer := ofRecord fun fields => required "result" Answer.ofJson fields

/-- **An answer that is written as a frame is read back**: through its text, its envelope and its fields,
whatever the library that prints and reads the text. -/
theorem wire_round_trip {S : Serde} {a : Answer} {frame : Bytes}
    (h : encodeFrameWithin S (rpc.wrap a) MAX_FRAME_BYTES = .ok frame) :
    ∃ v, decodeFrame S frame = .ok v ∧ rpcAnswer v = some a.received := by
  unfold encodeFrameWithin at h
  split at h
  · simp at h
  · rename_i hfits
    obtain rfl := Except.ok.inj h
    refine ⟨rpc.wrap a, decodeFrame_frameOf (Nat.le_of_not_lt hfits), ?_⟩
    simp only [rpcAnswer, rpc, record, ofRecord]
    rw [required_present (v := a.toJson) (by simp) (by simp), Answer.ofJson_toJson]

/-! ## 4. What the steps keep -/

/-- A spill that succeeds: it has a new name for every file. -/
structure SpillDir where
  path : SpillKind → Bytes → Disk → String
  fresh : ∀ kind bytes (d : Disk), path kind bytes d ∉ d.map Prod.fst

/-- Every file of a disk is still there, as it was. -/
def Disk.Extends (d d' : Disk) : Prop :=
  ∀ path bytes, d.read path = some bytes → d'.read path = some bytes

theorem Disk.Extends.refl (d : Disk) : d.Extends d := fun _ _ h => h

section Steps

variable (sha256 : Bytes → String) (D : SpillDir)

/-- The file a spill writes. -/
def SpillDir.file (kind : SpillKind) (bytes : Bytes) (d : Disk) : SpillFile :=
  .of sha256 (D.path kind bytes d) bytes

/-- The disk after it. -/
def SpillDir.after (kind : SpillKind) (bytes : Bytes) (d : Disk) : Disk :=
  (D.path kind bytes d, bytes) :: d

def SpillDir.spill : Spill := fun kind bytes d =>
  (.ok (D.file sha256 kind bytes d), D.after kind bytes d)

theorem SpillDir.after_extends (kind : SpillKind) (bytes : Bytes) (d : Disk) :
    d.Extends (D.after kind bytes d) := by
  intro path content hread
  have hne : (path == D.path kind bytes d) = false := by
    rw [beq_eq_false_iff_ne]
    rintro rfl
    have hnone : d.read (D.path kind bytes d) = none := by
      refine List.lookup_eq_none_iff.mpr fun e he => ?_
      rw [bne_iff_ne]
      intro heq
      exact D.fresh kind bytes d (List.mem_map.mpr ⟨e, he, heq.symm⟩)
    rw [hnone] at hread
    exact absurd hread (by simp)
  unfold Disk.read SpillDir.after
  rw [List.lookup_cons, hne]
  exact hread

theorem SpillDir.read_after (kind : SpillKind) (bytes : Bytes) (d : Disk) :
    (D.after kind bytes d).read (D.file sha256 kind bytes d).path = some bytes := by
  simp [Disk.read, SpillDir.after, SpillDir.file, SpillFile.of]

/-- The bytes of a stdout, inline or read back from its file. -/
def Stdout.held (d : Disk) : Stdout → Option Bytes
  | .text t => some (textBytes t)
  | .file f => d.read f.path

/-- The bytes of a stderr, inline or read back from its file. -/
def Stderr.held (d : Disk) : Stderr → Option Bytes
  | .lines l => some l.bytes
  | .file f => d.read f.path

/-- The same exit, and exactly the bytes of stdout and stderr. -/
def Cli.SameStreams (d d' : Disk) (c c' : Cli) : Prop :=
  c'.exitCode = c.exitCode ∧
    (∀ bytes, c.stdout.held d = some bytes → c'.stdout.held d' = some bytes) ∧
    ∀ bytes, c.stderr.held d = some bytes → c'.stderr.held d' = some bytes

theorem Cli.SameStreams.trans {d d' d'' : Disk} {c c' c'' : Cli} (h : c.SameStreams d d' c')
    (h' : c'.SameStreams d' d'' c'') : c.SameStreams d d'' c'' :=
  ⟨h'.1.trans h.1, fun bytes hb => h'.2.1 bytes (h.2.1 bytes hb),
    fun bytes hb => h'.2.2 bytes (h.2.2 bytes hb)⟩

/-- A larger disk holds what a disk holds. -/
theorem Stdout.held_extends {d d' : Disk} (h : d.Extends d') (s : Stdout) {bytes : Bytes}
    (hs : s.held d = some bytes) : s.held d' = some bytes := by
  cases s with
  | text t => exact hs
  | file f => exact h f.path bytes hs

theorem Stderr.held_extends {d d' : Disk} (h : d.Extends d') (s : Stderr) {bytes : Bytes}
    (hs : s.held d = some bytes) : s.held d' = some bytes := by
  cases s with
  | lines l => exact hs
  | file f => exact h f.path bytes hs

/-- An outcome with the streams of another one, over a larger disk. -/
theorem Cli.sameStreams_of_extends {d d' : Disk} (h : d.Extends d') {c c' : Cli}
    (hexit : c'.exitCode = c.exitCode) (hout : c'.stdout = c.stdout) (herr : c'.stderr = c.stderr) :
    c.SameStreams d d' c' :=
  ⟨hexit, fun _ hs => hout ▸ c.stdout.held_extends h hs,
    fun _ hs => herr ▸ c.stderr.held_extends h hs⟩

/-- The outcome with its stdout in a file, and the disk with that file. -/
def Cli.stdoutInFile (c : Cli) (d : Disk) : Cli × Disk :=
  match c.stdout with
  | .text t =>
    ({ c with stdout := .file (D.file sha256 .stdout (textBytes t) d) },
      D.after .stdout (textBytes t) d)
  | .file _ => (c, d)

/-- The outcome with its stderr in a file, and the disk with that file. -/
def Cli.stderrInFile (c : Cli) (d : Disk) : Cli × Disk :=
  match c.stderr with
  | .lines l =>
    ({ c with stderr := .file (D.file sha256 .stderr l.bytes d) }, D.after .stderr l.bytes d)
  | .file _ => (c, d)

/-- The forms an outcome is tried in: as it is, then with more and more of it in files, then with its
paths cut. -/
def Cli.forms (c : Cli) (d : Disk) : List (Cli × Disk) :=
  let f := c.stdoutInFile sha256 D d
  let g := f.1.stderrInFile sha256 D f.2
  [(c, d), f, g, (g.1.cutPaths, g.2)]

/-- The last of them. -/
def Cli.lastForm (c : Cli) (d : Disk) : Cli × Disk :=
  let f := c.stdoutInFile sha256 D d
  let g := f.1.stderrInFile sha256 D f.2
  (g.1.cutPaths, g.2)

theorem spillStdout_eq (c : Cli) (d : Disk) :
    c.spillStdout (D.spill sha256) d
      = (.ok (c.stdoutInFile sha256 D d).1, (c.stdoutInFile sha256 D d).2) := by
  obtain ⟨exit, stdout, stderr, paths, truncated, summary⟩ := c
  cases stdout <;> rfl

theorem spillStderr_eq (c : Cli) (d : Disk) :
    c.spillStderr (D.spill sha256) d
      = (.ok (c.stderrInFile sha256 D d).1, (c.stderrInFile sha256 D d).2) := by
  obtain ⟨exit, stdout, stderr, paths, truncated, summary⟩ := c
  cases stderr <;> rfl

theorem stdoutInFile_sameStreams (c : Cli) (d : Disk) :
    c.SameStreams d (c.stdoutInFile sha256 D d).2 (c.stdoutInFile sha256 D d).1 := by
  obtain ⟨exit, stdout, stderr, paths, truncated, summary⟩ := c
  cases stdout with
  | file f => exact Cli.sameStreams_of_extends (.refl d) rfl rfl rfl
  | text t =>
    refine ⟨rfl, fun bytes h => ?_, fun bytes h => ?_⟩
    · rw [← h]
      exact D.read_after sha256 .stdout (textBytes t) d
    · exact stderr.held_extends (D.after_extends .stdout (textBytes t) d) h

theorem stderrInFile_sameStreams (c : Cli) (d : Disk) :
    c.SameStreams d (c.stderrInFile sha256 D d).2 (c.stderrInFile sha256 D d).1 := by
  obtain ⟨exit, stdout, stderr, paths, truncated, summary⟩ := c
  cases stderr with
  | file f => exact Cli.sameStreams_of_extends (.refl d) rfl rfl rfl
  | lines l =>
    refine ⟨rfl, fun bytes h => ?_, fun bytes h => ?_⟩
    · exact stdout.held_extends (D.after_extends .stderr l.bytes d) h
    · rw [← h]
      exact D.read_after sha256 .stderr l.bytes d

theorem cutPaths_sameStreams (c : Cli) (d : Disk) : c.SameStreams d d c.cutPaths := by
  unfold Cli.cutPaths
  split <;> exact Cli.sameStreams_of_extends (.refl d) rfl rfl rfl

/-- **Every form has the streams of the outcome.** -/
theorem forms_sameStreams {c : Cli} {d : Disk} {f : Cli × Disk} (h : f ∈ c.forms sha256 D d) :
    c.SameStreams d f.2 f.1 := by
  have hstdout := stdoutInFile_sameStreams sha256 D c d
  have hstderr := hstdout.trans (stderrInFile_sameStreams sha256 D _ _)
  simp only [Cli.forms, List.mem_cons, List.not_mem_nil, or_false] at h
  rcases h with rfl | rfl | rfl | rfl
  · exact Cli.sameStreams_of_extends (.refl d) rfl rfl rfl
  · exact hstdout
  · exact hstderr
  · exact hstderr.trans (cutPaths_sameStreams _ _)

theorem stdoutInFile_mem (c : Cli) (d : Disk) : c.stdoutInFile sha256 D d ∈ c.forms sha256 D d := by
  simp [Cli.forms]

theorem lastForm_mem (c : Cli) (d : Disk) : c.lastForm sha256 D d ∈ c.forms sha256 D d := by
  simp [Cli.lastForm, Cli.forms]

/-- What the last form has beside the streams: the paths, cut where there are too many. -/
theorem lastForm_rest (c : Cli) (d : Disk) :
    (c.lastForm sha256 D d).1.summary = c.summary ∧
      (c.lastForm sha256 D d).1.changedPaths = c.changedPaths.take CHANGED_PATHS_KEPT ∧
      (c.changedPaths.length ≤ CHANGED_PATHS_KEPT →
        (c.lastForm sha256 D d).1.changedPathsTruncated = c.changedPathsTruncated) := by
  have hrest : ∃ stdout stderr, (c.lastForm sha256 D d).1
      = ({ c with stdout, stderr } : Cli).cutPaths := by
    obtain ⟨exit, stdout, stderr, paths, truncated, summary⟩ := c
    cases stdout <;> cases stderr <;> exact ⟨_, _, rfl⟩
  obtain ⟨stdout, stderr, heq⟩ := hrest
  rw [heq]
  unfold Cli.cutPaths
  by_cases h : CHANGED_PATHS_KEPT < c.changedPaths.length
  · rw [if_pos h]
    exact ⟨rfl, rfl, fun hle => absurd h (Nat.not_lt.mpr hle)⟩
  · rw [if_neg h]
    exact ⟨rfl, (List.take_of_length_le (Nat.not_lt.mp h)).symm, fun _ => rfl⟩

theorem withCli_of_outcome {a : Answer} {c : Cli} (h : a.outcome = .cli c) : a.withCli c = a := by
  obtain ⟨id, outcome, revision, fields⟩ := a
  obtain rfl : outcome = .cli c := h
  rfl

/-- One step: the frame, if the form fits, or the steps that are left. -/
theorem boundLoop_step {S : Serde} {wrap : Answer → Json} {limit : ℕ} {spill : Spill} {a : Answer}
    {c c' : Cli} {d d' : Disk} (step : ℕ) (steps : List ℕ)
    (h : shrink spill step c d = (.ok c', d')) :
    boundLoop S wrap limit spill (step :: steps) (a.withCli c) d
      = if Fits S wrap limit (a.withCli c) then (.inl (frameOf S (wrap (a.withCli c))), d)
        else boundLoop S wrap limit spill steps (a.withCli c') d' := by
  rw [boundLoop]
  by_cases hfits : Fits S wrap limit (a.withCli c)
  · rw [if_pos hfits, encodeFrameWithin_of_fits hfits]
  · rw [if_neg hfits, encodeFrameWithin_of_not_fits hfits]
    simp only [Answer.withCli, h]

/-- **The steps send the first form that fits**, or give the last one back. -/
theorem boundLoop_cli {S : Serde} {wrap : Answer → Json} {limit : ℕ} {a : Answer} {c : Cli}
    (hout : a.outcome = .cli c) (d : Disk) :
    boundLoop S wrap limit (D.spill sha256) (List.range 4) a d
      = match (c.forms sha256 D d).find? fun f => Fits S wrap limit (a.withCli f.1) with
        | some f => (.inl (frameOf S (wrap (a.withCli f.1))), f.2)
        | none => (.inr (a.withCli (c.lastForm sha256 D d).1), (c.lastForm sha256 D d).2) := by
  have hrange : List.range 4 = [0, 1, 2, 3] := rfl
  have hstdout : shrink (D.spill sha256) 0 c d = _ := spillStdout_eq sha256 D c d
  have hstderr : shrink (D.spill sha256) 1 (c.stdoutInFile sha256 D d).1
      (c.stdoutInFile sha256 D d).2 = _ := spillStderr_eq sha256 D _ _
  rw [← withCli_of_outcome hout, hrange, boundLoop_step 0 _ hstdout, boundLoop_step 1 _ hstderr,
    boundLoop_step 2 _ rfl, boundLoop_step 3 _ rfl, boundLoop]
  simp only [Cli.forms, Cli.lastForm, List.find?_cons, List.find?_nil, withCli_of_outcome hout]
  split_ifs with h₀ h₁ h₂ h₃
  · simp [h₀, withCli_of_outcome hout]
  · simp [h₀, h₁]
  · simp [h₀, h₁, h₂]
  · simp [h₀, h₁, h₂, h₃]
  · simp [h₀, h₁, h₂, h₃]

end Steps

/-! ## 5. What a frame gives back -/

section Keeps

variable (S : Serde) (E : Envelope) (limit : ℕ) (sha256 : Bytes → String) (D : SpillDir)

/-- The text of the terminal answer. -/
def exceeded : String := "answer exceeded the frame limit"

/-- The file holds an answer that says all of `a`, whose outcome is `c`: the streams read back from the
disk, everything else as it is. -/
def HoldsWhole (d d' : Disk) (f : SpillFile) (a : Answer) (c : Cli) : Prop :=
  ∃ bytes v b c', d'.read f.path = some bytes ∧ S.fromSlice bytes = .ok v ∧
    Answer.ofJson v = some b ∧ b.outcome = .cli c' ∧ c.SameStreams d d' c' ∧
    c'.changedPaths = c.changedPaths ∧ c'.changedPathsTruncated = c.changedPathsTruncated ∧
    c'.summary = nonNull c.summary ∧ b.id = a.id ∧ b.revision = a.revision ∧ b.meta' = a.meta'

/-- **A bounded answer loses nothing**: one line within the limit, whose reader gets the streams of the
command, or is told so and finds the whole answer in the diagnostic file. -/
def LosesNothing (a : Answer) (d : Disk) (r : Bytes × Disk) : Prop :=
  r.1.length ≤ limit ∧ ∃ body, r.1 = body ++ [newline] ∧ newline ∉ body ∧
    ∃ v o, S.fromSlice body = .ok v ∧ E.read v = some o ∧ ∀ c, a.outcome = .cli c →
      (∃ c', o = .cli c' ∧ c.SameStreams d r.2 c') ∨
        ∃ message f, o = .failed .protocol message (some f) ∧ HoldsWhole S d r.2 f a c

/-- The file a given-up answer is written to. -/
def diagnosticFile (a : Answer) (c : Cli) (d : Disk) : SpillFile :=
  D.file sha256 .diagnostic (S.toVec (a.withCli (c.lastForm sha256 D d).1).toJson)
    (c.lastForm sha256 D d).2

/-- A form of the outcome fits; or no more paths changed than a frame keeps, and the terminal answer that
names the diagnostic file fits. -/
def Keepable (a : Answer) (d : Disk) : Prop :=
  ∀ c, a.outcome = .cli c →
    (∃ f ∈ c.forms sha256 D d, Fits S E.wrap limit (a.withCli f.1)) ∨
      c.changedPaths.length ≤ CHANGED_PATHS_KEPT ∧
        Fits S E.wrap limit (.terminal a.id a.revision .protocol exceeded
          (some (diagnosticFile S sha256 D a c d)))

variable {S E limit sha256 D}

/-- The bounded frame of a command's outcome: the first form that fits, or the terminal answer. -/
theorem boundFrame_cli {a : Answer} {c : Cli} (hout : a.outcome = .cli c) (d : Disk) :
    boundFrame S E.wrap limit (D.spill sha256) a d
      = match (c.forms sha256 D d).find? fun f => Fits S E.wrap limit (a.withCli f.1) with
        | some f => (frameOf S (E.wrap (a.withCli f.1)), f.2)
        | none =>
          (terminalFrame S E.wrap limit a exceeded (some (diagnosticFile S sha256 D a c d)),
            D.after .diagnostic (S.toVec (a.withCli (c.lastForm sha256 D d).1).toJson)
              (c.lastForm sha256 D d).2) := by
  have hcap : capMessage (D.spill sha256) a d = (.ok a, d) := by
    unfold capMessage
    rw [hout]
  unfold boundFrame
  rw [hcap]
  dsimp only
  rw [boundLoop_cli sha256 D hout]
  cases (c.forms sha256 D d).find? fun f => Fits S E.wrap limit (a.withCli f.1) with
  | some f => rfl
  | none => rfl

/-- The diagnostic file holds the last form of the answer. -/
theorem holdsWhole_iff {a : Answer} {c : Cli} (d : Disk) :
    HoldsWhole S d (D.after .diagnostic (S.toVec (a.withCli (c.lastForm sha256 D d).1).toJson)
        (c.lastForm sha256 D d).2) (diagnosticFile S sha256 D a c d) a c
      ↔ c.changedPaths.length ≤ CHANGED_PATHS_KEPT := by
  obtain ⟨hsummary, hpaths, htruncated⟩ := lastForm_rest sha256 D c d
  have hread := D.read_after sha256 .diagnostic
    (S.toVec (a.withCli (c.lastForm sha256 D d).1).toJson) (c.lastForm sha256 D d).2
  have hdecode := Answer.ofJson_toJson (a.withCli (c.lastForm sha256 D d).1)
  constructor
  · rintro ⟨bytes, v, b, c', hbytes, hv, hb, hc', -, hkept, -⟩
    rw [diagnosticFile, hread, Option.some_inj] at hbytes
    rw [← hbytes, S.fromSlice_toVec, Except.ok.injEq] at hv
    rw [← hv, hdecode, Option.some_inj] at hb
    have hlast : c' = { (c.lastForm sha256 D d).1 with
        summary := nonNull (c.lastForm sha256 D d).1.summary } := by
      rw [← hb] at hc'
      exact (Outcome.cli.inj hc').symm
    rw [hlast] at hkept
    have hlength := congrArg List.length (hpaths.symm.trans hkept)
    rw [List.length_take] at hlength
    omega
  · intro hle
    refine ⟨_, _, _, _, hread, S.fromSlice_toVec _, hdecode, rfl, ?_, ?_, htruncated hle, ?_, rfl, rfl,
      rfl⟩
    · refine (forms_sameStreams sha256 D (lastForm_mem sha256 D c d)).trans ?_
      exact Cli.sameStreams_of_extends (D.after_extends _ _ _) rfl rfl rfl
    · exact hpaths.trans (List.take_of_length_le hle)
    · exact congrArg nonNull hsummary

/-- What a reader gets of the frame of an answer. -/
theorem losesNothing_frameOf {a b : Answer} {d d' : Disk}
    (hlength : (frameOf S (E.wrap b)).length ≤ limit) :
    LosesNothing S E limit a d (frameOf S (E.wrap b), d') ↔ ∀ c, a.outcome = .cli c →
      (∃ c', b.outcome.received = .cli c' ∧ c.SameStreams d d' c') ∨
        ∃ message f, b.outcome.received = .failed .protocol message (some f) ∧
          HoldsWhole S d d' f a c := by
  constructor
  · rintro ⟨-, body, hbody, -, v, o, hv, ho, h⟩
    obtain rfl : S.toVec (E.wrap b) = body := List.append_cancel_right hbody
    rw [S.fromSlice_toVec, Except.ok.injEq] at hv
    rw [← hv, E.read_wrap, Option.some_inj] at ho
    rw [ho]
    exact h
  · intro h
    exact ⟨hlength, _, rfl, S.newline_notMem _, _, _, S.fromSlice_toVec _, E.read_wrap b, h⟩

/-- The answer of a command loses nothing exactly where it can be kept. -/
theorem boundFrame_cli_losesNothing_iff (hbare : (frameOf S (E.wrap bareAnswer)).length ≤ limit)
    {a : Answer} {c : Cli} (hout : a.outcome = .cli c) (d : Disk) :
    LosesNothing S E limit a d (boundFrame S E.wrap limit (D.spill sha256) a d)
      ↔ Keepable S E limit sha256 D a d := by
  rw [boundFrame_cli hout]
  cases hfind : (c.forms sha256 D d).find? fun f => Fits S E.wrap limit (a.withCli f.1) with
  | some f =>
    have hmem := List.mem_of_find?_eq_some hfind
    have hfits : Fits S E.wrap limit (a.withCli f.1) := by
      simpa using List.find?_some hfind
    dsimp only
    rw [losesNothing_frameOf hfits]
    refine ⟨fun _ c' hc' => .inl ?_, fun _ c' hc' => .inl ⟨_, rfl, ?_⟩⟩
    · obtain rfl : c = c' := Outcome.cli.inj (hout.symm.trans hc')
      exact ⟨f, hmem, hfits⟩
    · obtain rfl : c = c' := Outcome.cli.inj (hout.symm.trans hc')
      exact (forms_sameStreams sha256 D hmem).trans
        (Cli.sameStreams_of_extends (.refl _) rfl rfl rfl)
  | none =>
    have hnone : ∀ f ∈ c.forms sha256 D d, ¬ Fits S E.wrap limit (a.withCli f.1) := by
      simpa using hfind
    dsimp only
    by_cases hfits : Fits S E.wrap limit (.terminal a.id a.revision .protocol exceeded
        (some (diagnosticFile S sha256 D a c d)))
    · -- The terminal answer: whether its file holds all of the answer is a matter of the paths.
      rw [terminalFrame_of_fits hfits, losesNothing_frameOf hfits]
      constructor
      · intro h c' hc'
        obtain rfl : c = c' := Outcome.cli.inj (hout.symm.trans hc')
        rcases h c hout with ⟨c', hc', -⟩ | ⟨message, f, hf, hwhole⟩
        · exact absurd hc' (by simp [Answer.terminal, Outcome.received])
        · obtain ⟨-, rfl⟩ : cut exceeded MESSAGE_INLINE_BYTES = message ∧
              diagnosticFile S sha256 D a c d = f := by
            simpa [Answer.terminal, Outcome.received] using hf
          exact .inr ⟨(holdsWhole_iff d).mp hwhole, hfits⟩
      · intro h c' hc'
        obtain rfl : c = c' := Outcome.cli.inj (hout.symm.trans hc')
        rcases h c hout with ⟨f, hf, hfit⟩ | ⟨hle, -⟩
        · exact absurd hfit (hnone f hf)
        · exact .inr ⟨_, diagnosticFile S sha256 D a c d, rfl, (holdsWhole_iff d).mpr hle⟩
    · -- The bare answer names no file.
      rw [terminalFrame_of_not_fits hfits, losesNothing_frameOf hbare]
      constructor
      · intro h
        rcases h c hout with ⟨c', hc', -⟩ | ⟨message, f, hf, -⟩
        · exact absurd hc' (by simp [bareAnswer, Answer.terminal, Outcome.received])
        · exact absurd hf (by simp [bareAnswer, Answer.terminal, Outcome.received])
      · intro h
        rcases h c hout with ⟨f, hf, hfit⟩ | ⟨-, hfit⟩
        · exact absurd hfit (hnone f hf)
        · exact absurd hfit hfits

/-- **A bounded answer loses nothing exactly where a form of it fits, or the terminal answer that names
its diagnostic file fits and no path was cut.** -/
theorem boundFrame_losesNothing_iff (hbare : (frameOf S (E.wrap bareAnswer)).length ≤ limit)
    (a : Answer) (d : Disk) :
    LosesNothing S E limit a d (boundFrame S E.wrap limit (D.spill sha256) a d)
      ↔ Keepable S E limit sha256 D a d := by
  cases hout : a.outcome with
  | cli c => exact boundFrame_cli_losesNothing_iff hbare hout d
  | failed outcome message file =>
    -- Every result is a frame its reader takes; there are no streams to keep.
    obtain ⟨b, heq, hb⟩ := boundFrame_carries S E.wrap limit (D.spill sha256) a d
    have hlength : (frameOf S (E.wrap b)).length ≤ limit := hb.fits hbare
    have hresult : boundFrame S E.wrap limit (D.spill sha256) a d
        = (frameOf S (E.wrap b), (boundFrame S E.wrap limit (D.spill sha256) a d).2) :=
      Prod.ext heq rfl
    rw [hresult, losesNothing_frameOf hlength]
    have hno : ∀ c, a.outcome ≠ .cli c := fun c h => by
      rw [hout] at h
      exact absurd h (by simp)
    exact ⟨fun _ c h => absurd h (hno c), fun _ c h => absurd h (hno c)⟩

end Keeps

/-! ## 6. A library, a directory and an answer -/

/-- A library that keeps its promises: compact JSON over the UTF-8 of its text. -/
def Serde.compact : Serde where
  toVec v := Utf8.encode (print v)
  fromSlice bytes :=
    match (Utf8.decode bytes).bind parse with
    | some v => .ok v
    | none => .error "invalid JSON"
  fromSlice_toVec v := by rw [Utf8.decode_encode, Option.bind_some, parse_print]
  newline_notMem v h := by
    obtain ⟨c, hc, hval⟩ := Utf8.ascii_mem_encode (by decide) h
    have hnewline : c = '\n' := by
      rw [← Char.ofNat_toNat c, hval]
      rfl
    exact newline_notMem_print v (hnewline ▸ hc)

/-- A command that printed a line. -/
def okAnswer : Answer :=
  ⟨ofNat 1, .cli ⟨0, .text "ok\n", .lines ⟨[], .inl rfl⟩, [], false, none⟩, none, {}⟩

/-- A name longer than every name there is. -/
def longerName (d : Disk) : String :=
  String.ofList ("spill".toList ++ List.replicate ((d.map fun f => f.1.length).sum + 1) '1')

theorem length_lt_longerName (d : Disk) {f : String × Bytes} (h : f ∈ d) :
    f.1.length < (longerName d).length := by
  have hle : ∀ d : Disk, f ∈ d → f.1.length ≤ (d.map fun f => f.1.length).sum := by
    intro d h
    induction d with
    | nil => exact absurd h List.not_mem_nil
    | cons e d ih =>
      rw [List.map_cons, List.sum_cons]
      rcases List.mem_cons.mp h with rfl | h
      · omega
      · have := ih h
        omega
  have hlength : (longerName d).length = 5 + ((d.map fun f => f.1.length).sum + 1) := by
    have hword : "spill".toList.length = 5 := by decide
    unfold longerName
    simp only [String.length_ofList, List.length_append, List.length_replicate, hword]
  have := hle d h
  omega

def spillDir : SpillDir where
  path _ _ d := longerName d
  fresh _ _ d h := by
    obtain ⟨f, hf, heq⟩ := List.mem_map.mp h
    have hlt := length_lt_longerName d hf
    rw [heq] at hlt
    exact Nat.lt_irrefl _ hlt

/-- A command that printed a long line. -/
def longCli : Cli :=
  ⟨0, .text (String.ofList (List.replicate 64 'x')), .lines ⟨[], .inl rfl⟩, [], false, none⟩

/-- Its stdout goes to a file of 64 bytes. -/
theorem longCli_stdoutInFile : (longCli.stdoutInFile (fun _ => "") spillDir []).1 =
    { longCli with stdout := .file ⟨"spill1", 64, ""⟩ } := by
  have hbytes : (textBytes (String.ofList (List.replicate 64 'x'))).length = 64 := by
    rw [textBytes, String.toList_ofList, Utf8.encode, List.length_flatMap, List.map_replicate,
      List.sum_replicate_nat]
    rfl
  have hpath : longerName [] = "spill1" := by decide
  simp only [Cli.stdoutInFile, longCli, SpillDir.file, SpillFile.of, spillDir, hbytes, hpath]
  rfl

/-- Too long to be sent as it is, its stdout goes to a file, and nothing is lost. -/
theorem boundFrame_losesNothing_ok :
    ¬ Fits .compact rpc.wrap 160 (okAnswer.withCli longCli) ∧
      LosesNothing .compact rpc 160 (okAnswer.withCli longCli) []
        (boundFrame .compact rpc.wrap 160 (spillDir.spill fun _ => "") (okAnswer.withCli longCli)
          []) := by
  have hbare : (frameOf .compact (rpc.wrap bareAnswer)).length ≤ 160 := by decide +kernel
  have hfits : Fits .compact rpc.wrap 160
      ((okAnswer.withCli longCli).withCli (longCli.stdoutInFile (fun _ => "") spillDir []).1) := by
    rw [longCli_stdoutInFile]
    decide +kernel
  refine ⟨by decide +kernel,
    (boundFrame_losesNothing_iff hbare (okAnswer.withCli longCli) []).mpr fun c hc => .inl ?_⟩
  obtain ⟨f, hf⟩ : ∃ f, f = longCli.stdoutInFile (fun _ => "") spillDir [] := ⟨_, rfl⟩
  have hmem : f ∈ longCli.forms (fun _ => "") spillDir [] := hf ▸ stdoutInFile_mem _ _ longCli []
  rw [← hf] at hfits
  have hout : longCli = c := Outcome.cli.inj hc
  exact ⟨f, hout ▸ hmem, hfits⟩

/-- With a spill that fails, an answer that does not fit is told to be too long. -/
theorem decodeFrame_boundFrame_ok :
    ∃ b, decodeFrame .compact
        (boundFrame .compact rpc.wrap 116 (fun _ _ d => (.error "full", d)) okAnswer []).1
          = .ok (rpc.wrap b) ∧ b = bareAnswer := by
  have hlimit : 116 ≤ MAX_FRAME_BYTES := by decide
  have hbare : Fits .compact rpc.wrap 116 bareAnswer := by decide +kernel
  have htried : terminalTried .compact rpc.wrap 116 (fun _ _ d => (.error "full", d)) okAnswer []
      = some ("answer exceeded the frame limit; spill failed: full", none) := by decide +kernel
  have hnot : ¬ Fits .compact rpc.wrap 116 (.terminal okAnswer.id okAnswer.revision .protocol
      "answer exceeded the frame limit; spill failed: full" none) := by decide +kernel
  have hdecoded := decodeFrame_boundFrame (fun _ _ d => (.error "full", d)) hlimit hbare okAnswer []
  rw [htried] at hdecoded
  obtain ⟨b, hdecode, -, hb⟩ := hdecoded
  exact ⟨b, hdecode, hb.trans (if_neg hnot)⟩

/-- A command's answer, through a frame and back. -/
theorem wire_round_trip_ok :
    ∃ v, decodeFrame .compact (frameOf .compact (rpc.wrap okAnswer)) = .ok v ∧
      rpcAnswer v = some okAnswer := by
  have hlength : ¬ MAX_FRAME_BYTES < (frameOf .compact (rpc.wrap okAnswer)).length := by decide +kernel
  exact wire_round_trip (if_neg hlength)

end AlSem.Wire
