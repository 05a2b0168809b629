/-
# An answer on the wire

An `Answer` is what one request gets: a command's exit, stdout and stderr, or why no command answered.  On
the wire it is a flat record of optional fields (`RawAnswer`), checked into the typed form when it is read:
a stdout stands inline or in a file, and in exactly one of the two.

`StderrLines` holds the bytes its lines stand for, and the lines give them back (`fromLines_lines`).
Reading a written answer gives the answer (`Answer.ofJson_toJson`), but for a summary that is an explicit
`null`, which is read as none (`Answer.received`).
-/
import AlSem.Lib.Json
import AlSem.Wire.Frame
import Mathlib.Algebra.GroupWithZero.Nat

namespace AlSem.Wire

open JsonText

/-! ## 1. Bytes in files and in lines -/

/-- Bytes written to a file instead of inlining them. -/
structure SpillFile where
  path : String
  bytes : UInt64
  sha256 : String
  deriving DecidableEq

/-- The description of bytes written at a path. -/
def SpillFile.of (sha256 : Bytes → String) (path : String) (bytes : Bytes) : SpillFile :=
  ⟨path, UInt64.ofNat bytes.length, sha256 bytes⟩

inductive SpillKind where
  | stdout
  | stderr
  | diagnostic
  deriving DecidableEq

/-- A command's stdout: the text, or the file that holds it. -/
inductive Stdout where
  | text (t : String)
  | file (f : SpillFile)

/-- What the line form carries: nothing, or text whose last line ends. -/
def Carried (bytes : Bytes) : Prop :=
  bytes = [] ∨ bytes.getLast? = some newline ∧ (Utf8.decode bytes).isSome

instance (bytes : Bytes) : Decidable (Carried bytes) :=
  inferInstanceAs (Decidable (_ ∨ _ ∧ _))

/-- The stderr bytes that lines carry exactly. -/
structure StderrLines where
  bytes : Bytes
  carried : Carried bytes

def StderrLines.exact (bytes : Bytes) : Option StderrLines :=
  if h : Carried bytes then some ⟨bytes, h⟩ else none

/-- The bytes of lines, each with its newline. -/
def bytesOfLines (ls : List String) : Bytes :=
  ls.flatMap fun l => Utf8.encode l.toList ++ [newline]

theorem newline_eq_encode : [newline] = Utf8.encode ['\n'] := rfl

theorem bytesOfLines_eq_encode (ls : List String) :
    bytesOfLines ls = Utf8.encode (ls.flatMap fun l => l.toList ++ ['\n']) := by
  induction ls with
  | nil => rfl
  | cons l ls ih =>
    rw [bytesOfLines, List.flatMap_cons, List.flatMap_cons, Utf8.encode_append, Utf8.encode_append,
      ← newline_eq_encode, ← ih]
    rfl

theorem bytesOfLines_carried (ls : List String) : Carried (bytesOfLines ls) := by
  rcases List.eq_nil_or_concat ls with rfl | ⟨front, l, rfl⟩
  · exact .inl rfl
  · refine .inr ⟨?_, ?_⟩
    · rw [List.concat_eq_append, bytesOfLines, List.flatMap_append]
      simp
    · rw [bytesOfLines_eq_encode, Utf8.decode_encode]
      rfl

/-- Lines received from the wire. -/
def StderrLines.fromLines (ls : List String) : StderrLines :=
  ⟨bytesOfLines ls, bytesOfLines_carried ls⟩

/-- The bytes as lines, each without its newline. -/
def StderrLines.lines (l : StderrLines) : List String :=
  match Utf8.decode l.bytes with
  | none => []
  | some text =>
    if text.getLast? = some '\n' then (text.dropLast.splitOn '\n').map String.ofList else []

theorem ended_pieces : ∀ pieces : List (List Char), pieces ≠ [] →
    (pieces.flatMap fun p => p ++ ['\n']) = ['\n'].intercalate pieces ++ ['\n']
  | [], h => absurd rfl h
  | [p], _ => by simp
  | p :: q :: rest, _ => by
    have ih := ended_pieces (q :: rest) (List.cons_ne_nil _ _)
    rw [List.flatMap_cons, ih, List.intercalate_cons_cons]
    simp

/-- Text whose bytes end in a newline ends in one. -/
theorem getLast?_of_encode {text : List Char}
    (h : (Utf8.encode text).getLast? = some newline) : text.getLast? = some '\n' := by
  rcases List.eq_nil_or_concat text with rfl | ⟨front, c, rfl⟩
  · exact absurd h (by simp)
  · rw [List.concat_eq_append] at h ⊢
    have hne : Utf8.encode [c] ≠ [] := by
      simp [Utf8.encode]
    rw [Utf8.encode_append, List.getLast?_append_of_ne_nil _ hne] at h
    have hmem : newline ∈ Utf8.encode [c] := List.mem_of_getLast? h
    obtain ⟨d, hd, hval⟩ := Utf8.ascii_mem_encode (by decide) hmem
    rw [List.mem_singleton] at hd
    subst hd
    have hd : d = '\n' := by
      rw [← Char.ofNat_toNat d, hval]
      rfl
    rw [hd]
    simp

/-- **The lines give the bytes back.** -/
theorem fromLines_lines (l : StderrLines) : StderrLines.fromLines l.lines = l := by
  obtain ⟨bytes, h⟩ := l
  have hbytes : bytesOfLines (StderrLines.lines ⟨bytes, h⟩) = bytes := by
    rcases h with rfl | ⟨hlast, hvalid⟩
    · rfl
    · obtain ⟨text, htext⟩ := Option.isSome_iff_exists.mp hvalid
      have hencode := Utf8.encode_of_decode htext
      rw [← hencode] at hlast
      have hend := getLast?_of_encode hlast
      have hsplit : text = text.dropLast ++ ['\n'] := by
        rw [List.dropLast_append_getLast?]
        exact hend
      unfold StderrLines.lines
      simp only [htext, if_pos hend]
      rw [bytesOfLines_eq_encode, ← hencode, List.flatMap_map]
      congr 1
      calc (text.dropLast.splitOn '\n').flatMap (fun p => (String.ofList p).toList ++ ['\n'])
          = (text.dropLast.splitOn '\n').flatMap (fun p => p ++ ['\n']) := by
            simp only [String.toList_ofList]
        _ = ['\n'].intercalate (text.dropLast.splitOn '\n') ++ ['\n'] :=
            ended_pieces _ (List.splitOn_ne_nil _ _)
        _ = text.dropLast ++ ['\n'] := by rw [List.intercalate_splitOn]
        _ = text := hsplit.symm
  unfold StderrLines.fromLines
  simp only [hbytes]

/-- A command's stderr: lines that carry it, or the file that holds it. -/
inductive Stderr where
  | lines (l : StderrLines)
  | file (f : SpillFile)

/-! ## 2. Answers -/

/-- The revision that answered. -/
structure RevisionId where
  engineInstanceId : String
  generation : UInt64
  inputsStamp : String

/-- Why no command answered. -/
inductive FailedOutcome where
  | cancelled
  | deadline
  | budget
  | busy
  | engineError
  | refusedPath
  | notThisWorkspace
  | inputsUnstable
  | protocol
  deriving DecidableEq

/-- The wire spelling. -/
def FailedOutcome.asStr : FailedOutcome → String
  | .cancelled => "cancelled"
  | .deadline => "deadline"
  | .budget => "budget"
  | .busy => "busy"
  | .engineError => "engineError"
  | .refusedPath => "refusedPath"
  | .notThisWorkspace => "notThisWorkspace"
  | .inputsUnstable => "inputsUnstable"
  | .protocol => "protocol"

/-- A command's outcome: its exit, its stdout and stderr, and the paths changed since the revision. -/
structure Cli where
  exitCode : UInt8
  stdout : Stdout
  stderr : Stderr
  changedPaths : List String
  changedPathsTruncated : Bool
  summary : Option Json

/-- What answered a request. -/
inductive Outcome where
  | cli (c : Cli)
  | failed (outcome : FailedOutcome) (message : String) (diagnosticFile : Option SpillFile)

structure Timing where
  queuedMs : UInt64
  waitedForBuildMs : UInt64
  sharedFillMs : UInt64
  computeMs : UInt64

/-- A stopped request's progress. -/
structure WorkDone where
  workDoneMs : UInt64
  skippedPhases : List String

structure BudgetFigures where
  estimateKib : UInt64
  budgetKib : UInt64
  retainedFloorKib : UInt64

/-- An answer's fields beside its outcome. -/
structure AnswerMeta where
  stale : Bool := false
  universe' : Option String := none
  timing : Option Timing := none
  work : Option WorkDone := none
  budget : Option BudgetFigures := none

structure Answer where
  id : Json
  outcome : Outcome
  revision : Option RevisionId
  meta' : AnswerMeta

def MESSAGE_INLINE_BYTES : ℕ := 4096

/-- The most characters whose bytes fit into `max`. -/
def cutChars : ℕ → List Char → List Char
  | _, [] => []
  | max, c :: cs => if c.utf8Size ≤ max then c :: cutChars (max - c.utf8Size) cs else []

/-- A text cut on a character boundary. -/
def cut (text : String) (max : ℕ) : String := String.ofList (cutChars max text.toList)

/-- The terminal answer: a failure, and no other field. -/
def Answer.terminal (id : Json) (revision : Option RevisionId) (outcome : FailedOutcome)
    (message : String) (diagnosticFile : Option SpillFile) : Answer :=
  { id, revision, outcome := .failed outcome (cut message MESSAGE_INLINE_BYTES) diagnosticFile,
    meta' := {} }

/-! ## 3. The wire shape -/

/-- The discriminator and every optional field. -/
structure RawAnswer where
  id : Json
  kind : String
  exitCode : Option UInt8 := none
  stdoutText : Option String := none
  stdoutFile : Option SpillFile := none
  stderr : Option (List String) := none
  stderrFile : Option SpillFile := none
  changedPaths : List String := []
  changedPathsTruncated : Bool := false
  summary : Option Json := none
  outcome : Option FailedOutcome := none
  message : Option String := none
  diagnosticFile : Option SpillFile := none
  revision : Option RevisionId
  stale : Bool
  universe' : Option String
  timing : Option Timing
  workDoneMs : Option UInt64
  skippedPhases : Option (List String)
  estimateKib : Option UInt64
  budgetKib : Option UInt64
  retainedFloorKib : Option UInt64

/-- The envelope fields, beside those of one kind of outcome. -/
def Answer.envelope (a : Answer) (kind : String) : RawAnswer :=
  { id := a.id
    kind
    revision := a.revision
    stale := a.meta'.stale
    universe' := a.meta'.universe'
    timing := a.meta'.timing
    workDoneMs := a.meta'.work.map (·.workDoneMs)
    skippedPhases := a.meta'.work.map (·.skippedPhases)
    estimateKib := a.meta'.budget.map (·.estimateKib)
    budgetKib := a.meta'.budget.map (·.budgetKib)
    retainedFloorKib := a.meta'.budget.map (·.retainedFloorKib) }

/-- An answer as its wire shape. -/
def Answer.toRaw (a : Answer) : RawAnswer :=
  match a.outcome with
  | .cli c =>
    let raw := { a.envelope "cli" with
      exitCode := some c.exitCode, summary := c.summary,
      changedPaths := c.changedPaths, changedPathsTruncated := c.changedPathsTruncated }
    let raw :=
      match c.stdout with
      | .text t => { raw with stdoutText := some t }
      | .file f => { raw with stdoutFile := some f }
    match c.stderr with
    | .lines l => { raw with stderr := some l.lines }
    | .file f => { raw with stderrFile := some f }
  | .failed outcome message diagnosticFile =>
    { a.envelope "failed" with
      outcome := some outcome, message := some message, diagnosticFile }

/-- What can go wrong encoding or decoding a frame or an answer. -/
inductive WireError where
  | frameTooLarge (n : ℕ)
  | notOneLine
  | json (e : String)
  | stdoutNotExclusive
  deriving DecidableEq

def WireError.display : WireError → String
  | .frameTooLarge n => s!"frame of {n} bytes exceeds {MAX_FRAME_BYTES}"
  | .notOneLine => "frame is not one line"
  | .json e => s!"frame JSON: {e}"
  | .stdoutNotExclusive => "a cli answer carries exactly one of stdoutText and stdoutFile"

def RawAnswer.toStdout (raw : RawAnswer) : Except WireError Stdout :=
  match raw.stdoutText, raw.stdoutFile with
  | some t, none => .ok (.text t)
  | none, some f => .ok (.file f)
  | _, _ => .error .stdoutNotExclusive

def RawAnswer.toStderr (raw : RawAnswer) : Except WireError Stderr :=
  match raw.stderr, raw.stderrFile with
  | some l, none => .ok (.lines (.fromLines l))
  | none, some f => .ok (.file f)
  | _, _ => .error (.json "a cli answer carries exactly one of stderr and stderrFile")

def RawAnswer.toOutcome (raw : RawAnswer) : Except WireError Outcome :=
  if raw.kind = "cli" then do
    let stdout ← raw.toStdout
    let stderr ← raw.toStderr
    match raw.exitCode with
    | some exitCode => .ok (.cli ⟨exitCode, stdout, stderr, raw.changedPaths,
        raw.changedPathsTruncated, raw.summary⟩)
    | none => .error (.json "a cli answer has an exitCode")
  else if raw.kind = "failed" then
    match raw.outcome with
    | some outcome => .ok (.failed outcome (raw.message.getD "") raw.diagnosticFile)
    | none => .error (.json "a failed answer has an outcome")
  else .error (.json s!"unknown kind '{raw.kind}'")

/-- The wire shape checked into the typed form. -/
def RawAnswer.toAnswer (raw : RawAnswer) : Except WireError Answer := do
  let outcome ← raw.toOutcome
  return {
    id := raw.id
    outcome
    revision := raw.revision
    meta' := {
      stale := raw.stale
      universe' := raw.universe'
      timing := raw.timing
      work := raw.workDoneMs.map fun ms => ⟨ms, raw.skippedPhases.getD []⟩
      budget :=
        match raw.estimateKib, raw.budgetKib, raw.retainedFloorKib with
        | some estimate, some budget, some floor => some ⟨estimate, budget, floor⟩
        | _, _, _ => none } }

section ToRaw

variable {a : Answer} {c : Cli} (h : a.outcome = .cli c)
include h

theorem toStdout_toRaw : a.toRaw.toStdout = .ok c.stdout := by
  obtain ⟨exit, stdout, stderr, paths, truncated, summary⟩ := c
  unfold Answer.toRaw
  rw [h]
  cases stdout <;> cases stderr <;> rfl

theorem toStderr_toRaw : a.toRaw.toStderr = .ok c.stderr := by
  obtain ⟨exit, stdout, stderr, paths, truncated, summary⟩ := c
  unfold Answer.toRaw
  rw [h]
  cases stderr with
  | file f => cases stdout <;> rfl
  | lines l =>
    have hlines : Except.ok (Stderr.lines (.fromLines l.lines))
        = (Except.ok (.lines l) : Except WireError Stderr) := by rw [fromLines_lines]
    cases stdout <;> exact hlines

end ToRaw

theorem toOutcome_toRaw (a : Answer) : a.toRaw.toOutcome = .ok a.outcome := by
  cases h : a.outcome with
  | failed outcome message file =>
    unfold Answer.toRaw
    rw [h]
    rfl
  | cli c =>
    have hkind : a.toRaw.kind = "cli" ∧ a.toRaw.exitCode = some c.exitCode ∧
        a.toRaw.changedPaths = c.changedPaths ∧
        a.toRaw.changedPathsTruncated = c.changedPathsTruncated ∧ a.toRaw.summary = c.summary := by
      obtain ⟨exit, stdout, stderr, paths, truncated, summary⟩ := c
      unfold Answer.toRaw
      rw [h]
      cases stdout <;> cases stderr <;> exact ⟨rfl, rfl, rfl, rfl, rfl⟩
    obtain ⟨hcli, hexit, hpaths, htruncated, hsummary⟩ := hkind
    unfold RawAnswer.toOutcome
    rw [if_pos hcli, toStdout_toRaw h, toStderr_toRaw h, hexit, hpaths, htruncated, hsummary]
    rfl

/-- What stands beside the outcome is in every wire shape as the envelope has it. -/
theorem toRaw_envelope (a : Answer) : ∃ kind,
    (a.toRaw.id, a.toRaw.revision, a.toRaw.stale, a.toRaw.universe', a.toRaw.timing,
        a.toRaw.workDoneMs, a.toRaw.skippedPhases)
      = ((a.envelope kind).id, (a.envelope kind).revision, (a.envelope kind).stale,
        (a.envelope kind).universe', (a.envelope kind).timing, (a.envelope kind).workDoneMs,
        (a.envelope kind).skippedPhases) ∧
    (a.toRaw.estimateKib, a.toRaw.budgetKib, a.toRaw.retainedFloorKib)
      = ((a.envelope kind).estimateKib, (a.envelope kind).budgetKib,
        (a.envelope kind).retainedFloorKib) := by
  obtain ⟨id, outcome, revision, fields⟩ := a
  cases outcome with
  | failed outcome message file => exact ⟨"failed", rfl, rfl⟩
  | cli c =>
    obtain ⟨exit, stdout, stderr, paths, truncated, summary⟩ := c
    refine ⟨"cli", ?_⟩
    cases stdout <;> cases stderr <;> exact ⟨rfl, rfl⟩

/-- **An answer's wire shape is checked back into it.** -/
theorem toAnswer_toRaw (a : Answer) : a.toRaw.toAnswer = .ok a := by
  obtain ⟨kind, hfields, hbudget⟩ := toRaw_envelope a
  simp only [Prod.mk.injEq] at hfields hbudget
  obtain ⟨hid, hrevision, hstale, huniverse, htiming, hwork, hphases⟩ := hfields
  obtain ⟨hestimate, hbudget, hfloor⟩ := hbudget
  unfold RawAnswer.toAnswer
  rw [toOutcome_toRaw, hid, hrevision, hstale, huniverse, htiming, hwork, hphases, hestimate,
    hbudget, hfloor]
  obtain ⟨id, outcome, revision, stale, u, timing, work, budget⟩ := a
  cases work <;> cases budget <;> rfl

/-! ## 4. The wire shape as JSON -/

def ofUInt64 (n : UInt64) : Json := ofNat n.toNat

def toUInt64? (v : Json) : Option UInt64 :=
  (toNat? v).bind fun n => if n < 2 ^ 64 then some (UInt64.ofNat n) else none

theorem toUInt64?_ofUInt64 (n : UInt64) : toUInt64? (ofUInt64 n) = some n := by
  unfold toUInt64? ofUInt64
  rw [toNat?_ofNat, Option.bind_some, if_pos n.toNat_lt]
  simp

def ofUInt8 (n : UInt8) : Json := ofNat n.toNat

def toUInt8? (v : Json) : Option UInt8 :=
  (toNat? v).bind fun n => if n < 2 ^ 8 then some (UInt8.ofNat n) else none

theorem toUInt8?_ofUInt8 (n : UInt8) : toUInt8? (ofUInt8 n) = some n := by
  unfold toUInt8? ofUInt8
  rw [toNat?_ofNat, Option.bind_some, if_pos n.toNat_lt]
  simp

/-- A list of texts. -/
def ofStrings (ss : List String) : Json := .array (ss.map .string)

def toStrings? : Json → Option (List String) := toList? toString?

theorem toStrings?_ofStrings (ss : List String) : toStrings? (ofStrings ss) = some ss :=
  toList?_array .string (fun _ => rfl) ss

/-- The object of a record. -/
def record (entries : List (String × Option Json)) : Json := .object (present entries)

/-- What a reader of records makes of an object. -/
def ofRecord {α : Type} (read : List (String × Json) → Option α) : Json → Option α
  | .object fields => read fields
  | _ => none

def SpillFile.entries (f : SpillFile) : List (String × Option Json) :=
  [("path", some (.string f.path)), ("bytes", some (ofUInt64 f.bytes)),
    ("sha256", some (.string f.sha256))]

def SpillFile.toJson (f : SpillFile) : Json := record f.entries

def SpillFile.ofJson : Json → Option SpillFile := ofRecord fun fields => do
  let path ← required "path" toString? fields
  let bytes ← required "bytes" toUInt64? fields
  let sha256 ← required "sha256" toString? fields
  return ⟨path, bytes, sha256⟩

theorem SpillFile.ofJson_toJson (f : SpillFile) : SpillFile.ofJson f.toJson = some f := by
  have hnodup : (f.entries.map Prod.fst).Nodup := by simp [SpillFile.entries]
  simp only [SpillFile.ofJson, SpillFile.toJson, record, ofRecord]
  rw [required_present hnodup (v := .string f.path) (by simp [SpillFile.entries]),
    required_present hnodup (v := ofUInt64 f.bytes) (by simp [SpillFile.entries]),
    required_present hnodup (v := .string f.sha256) (by simp [SpillFile.entries])]
  simp only [toUInt64?_ofUInt64]
  rfl

def RevisionId.entries (r : RevisionId) : List (String × Option Json) :=
  [("engineInstanceId", some (.string r.engineInstanceId)),
    ("generation", some (ofUInt64 r.generation)), ("inputsStamp", some (.string r.inputsStamp))]

def RevisionId.toJson (r : RevisionId) : Json := record r.entries

def RevisionId.ofJson : Json → Option RevisionId := ofRecord fun fields => do
  let engineInstanceId ← required "engineInstanceId" toString? fields
  let generation ← required "generation" toUInt64? fields
  let inputsStamp ← required "inputsStamp" toString? fields
  return ⟨engineInstanceId, generation, inputsStamp⟩

theorem RevisionId.ofJson_toJson (r : RevisionId) : RevisionId.ofJson r.toJson = some r := by
  have hnodup : (r.entries.map Prod.fst).Nodup := by simp [RevisionId.entries]
  simp only [RevisionId.ofJson, RevisionId.toJson, record, ofRecord]
  rw [required_present hnodup (v := .string r.engineInstanceId) (by simp [RevisionId.entries]),
    required_present hnodup (v := ofUInt64 r.generation) (by simp [RevisionId.entries]),
    required_present hnodup (v := .string r.inputsStamp) (by simp [RevisionId.entries])]
  simp only [toUInt64?_ofUInt64]
  rfl

def Timing.entries (t : Timing) : List (String × Option Json) :=
  [("queuedMs", some (ofUInt64 t.queuedMs)),
    ("waitedForBuildMs", some (ofUInt64 t.waitedForBuildMs)),
    ("sharedFillMs", some (ofUInt64 t.sharedFillMs)), ("computeMs", some (ofUInt64 t.computeMs))]

def Timing.toJson (t : Timing) : Json := record t.entries

def Timing.ofJson : Json → Option Timing := ofRecord fun fields => do
  let queuedMs ← required "queuedMs" toUInt64? fields
  let waitedForBuildMs ← required "waitedForBuildMs" toUInt64? fields
  let sharedFillMs ← required "sharedFillMs" toUInt64? fields
  let computeMs ← required "computeMs" toUInt64? fields
  return ⟨queuedMs, waitedForBuildMs, sharedFillMs, computeMs⟩

theorem Timing.ofJson_toJson (t : Timing) : Timing.ofJson t.toJson = some t := by
  have hnodup : (t.entries.map Prod.fst).Nodup := by simp [Timing.entries]
  simp only [Timing.ofJson, Timing.toJson, record, ofRecord]
  rw [required_present hnodup (v := ofUInt64 t.queuedMs) (by simp [Timing.entries]),
    required_present hnodup (v := ofUInt64 t.waitedForBuildMs) (by simp [Timing.entries]),
    required_present hnodup (v := ofUInt64 t.sharedFillMs) (by simp [Timing.entries]),
    required_present hnodup (v := ofUInt64 t.computeMs) (by simp [Timing.entries])]
  simp only [toUInt64?_ofUInt64]
  rfl

def FailedOutcome.all : List FailedOutcome :=
  [.cancelled, .deadline, .budget, .busy, .engineError, .refusedPath, .notThisWorkspace,
    .inputsUnstable, .protocol]

def FailedOutcome.toJson (o : FailedOutcome) : Json := .string o.asStr

def FailedOutcome.ofJson (v : Json) : Option FailedOutcome :=
  (toString? v).bind fun s => FailedOutcome.all.find? fun o => o.asStr = s

theorem FailedOutcome.ofJson_toJson (o : FailedOutcome) : FailedOutcome.ofJson o.toJson = some o := by
  cases o <;> rfl

/-- The fields of the wire shape, under their names on the wire. -/
def RawAnswer.entries (raw : RawAnswer) : List (String × Option Json) :=
  [("id", some raw.id), ("kind", some (.string raw.kind)),
    ("exitCode", raw.exitCode.map ofUInt8), ("stdoutText", raw.stdoutText.map .string),
    ("stdoutFile", raw.stdoutFile.map (·.toJson)), ("stderr", raw.stderr.map ofStrings),
    ("stderrFile", raw.stderrFile.map (·.toJson)),
    ("changedPaths", if raw.changedPaths = [] then none else some (ofStrings raw.changedPaths)),
    ("changedPathsTruncated", flag raw.changedPathsTruncated), ("summary", raw.summary),
    ("outcome", raw.outcome.map (·.toJson)), ("message", raw.message.map .string),
    ("diagnosticFile", raw.diagnosticFile.map (·.toJson)),
    ("revision", some ((raw.revision.map (·.toJson)).getD .null)), ("stale", flag raw.stale),
    ("universe", raw.universe'.map .string), ("timing", raw.timing.map (·.toJson)),
    ("workDoneMs", raw.workDoneMs.map ofUInt64), ("skippedPhases", raw.skippedPhases.map ofStrings),
    ("estimateKiB", raw.estimateKib.map ofUInt64), ("budgetKiB", raw.budgetKib.map ofUInt64),
    ("retainedFloorKiB", raw.retainedFloorKib.map ofUInt64)]

def RawAnswer.toJson (raw : RawAnswer) : Json := record raw.entries

def RawAnswer.ofJson : Json → Option RawAnswer := ofRecord fun fields => do
  let id ← required "id" some fields
  let kind ← required "kind" toString? fields
  let exitCode ← maybe "exitCode" toUInt8? fields
  let stdoutText ← maybe "stdoutText" toString? fields
  let stdoutFile ← maybe "stdoutFile" SpillFile.ofJson fields
  let stderr ← maybe "stderr" toStrings? fields
  let stderrFile ← maybe "stderrFile" SpillFile.ofJson fields
  let changedPaths ← defaulted [] "changedPaths" toStrings? fields
  let changedPathsTruncated ← defaulted false "changedPathsTruncated" toBool? fields
  let summary ← maybe "summary" some fields
  let outcome ← maybe "outcome" FailedOutcome.ofJson fields
  let message ← maybe "message" toString? fields
  let diagnosticFile ← maybe "diagnosticFile" SpillFile.ofJson fields
  let revision ← maybe "revision" RevisionId.ofJson fields
  let stale ← defaulted false "stale" toBool? fields
  let universe' ← maybe "universe" toString? fields
  let timing ← maybe "timing" Timing.ofJson fields
  let workDoneMs ← maybe "workDoneMs" toUInt64? fields
  let skippedPhases ← maybe "skippedPhases" toStrings? fields
  let estimateKib ← maybe "estimateKiB" toUInt64? fields
  let budgetKib ← maybe "budgetKiB" toUInt64? fields
  let retainedFloorKib ← maybe "retainedFloorKiB" toUInt64? fields
  return { id, kind, exitCode, stdoutText, stdoutFile, stderr, stderrFile, changedPaths,
           changedPathsTruncated, summary, outcome, message, diagnosticFile, revision, stale,
           universe', timing, workDoneMs, skippedPhases, estimateKib, budgetKib, retainedFloorKib }

/-- What the wire shape is read as. -/
def RawAnswer.received (raw : RawAnswer) : RawAnswer := { raw with summary := nonNull raw.summary }

theorem RawAnswer.entries_nodup (raw : RawAnswer) : (raw.entries.map Prod.fst).Nodup := by
  simp [RawAnswer.entries]

section Read

variable (raw : RawAnswer)

theorem read_changedPaths :
    defaulted [] "changedPaths" toStrings? (present raw.entries) = some raw.changedPaths := by
  have hmem : ("changedPaths",
      if raw.changedPaths = [] then none else some (ofStrings raw.changedPaths)) ∈ raw.entries := by
    simp [RawAnswer.entries]
  refine defaulted_present raw.entries_nodup hmem ?_ ?_
  · intro hnone
    by_contra hne
    rw [if_neg hne] at hnone
    exact absurd hnone (by simp)
  · intro v hv
    split at hv
    · exact absurd hv (by simp)
    · rw [← Option.some_inj.mp hv]
      exact toStrings?_ofStrings _

theorem read_revision :
    maybe "revision" RevisionId.ofJson (present raw.entries) = some raw.revision := by
  have hmember := member_present raw.entries_nodup
    (show ("revision", some ((raw.revision.map (·.toJson)).getD .null)) ∈ raw.entries by
      simp [RawAnswer.entries])
  rw [maybe, hmember, Option.bind_some]
  cases raw.revision with
  | none => rfl
  | some r =>
    change (RevisionId.ofJson r.toJson).map some = _
    rw [RevisionId.ofJson_toJson]
    rfl

theorem read_maybe {α : Type} {name : String} {write : α → Json} {read : Json → Option α}
    (value : Option α) (h : (name, value.map write) ∈ raw.entries)
    (hread : ∀ a, read (write a) = some a) (hnull : ∀ a, write a ≠ .null) :
    maybe name read (present raw.entries) = some value :=
  maybe_present raw.entries_nodup hread hnull h

end Read

/-- **The wire shape is read as it was written.** -/
theorem RawAnswer.ofJson_toJson (raw : RawAnswer) :
    RawAnswer.ofJson raw.toJson = some raw.received := by
  have hnodup := raw.entries_nodup
  have hstring : ∀ s, toString? (.string s) = some s := fun _ => rfl
  simp only [RawAnswer.ofJson, RawAnswer.toJson, record, ofRecord]
  rw [required_present hnodup (v := raw.id) (by simp [RawAnswer.entries]),
    required_present hnodup (v := .string raw.kind) (by simp [RawAnswer.entries]),
    read_maybe raw raw.exitCode (by simp [RawAnswer.entries]) toUInt8?_ofUInt8
      (fun _ => Json.noConfusion),
    read_maybe raw raw.stdoutText (by simp [RawAnswer.entries]) hstring
      (fun _ => Json.noConfusion),
    read_maybe raw raw.stdoutFile (by simp [RawAnswer.entries])
      SpillFile.ofJson_toJson (fun _ => Json.noConfusion),
    read_maybe raw raw.stderr (by simp [RawAnswer.entries]) toStrings?_ofStrings
      (fun _ => Json.noConfusion),
    read_maybe raw raw.stderrFile (by simp [RawAnswer.entries])
      SpillFile.ofJson_toJson (fun _ => Json.noConfusion),
    read_changedPaths raw,
    flag_present hnodup (b := raw.changedPathsTruncated) (by simp [RawAnswer.entries]),
    maybe_value_present hnodup (v := raw.summary) (by simp [RawAnswer.entries]),
    read_maybe raw raw.outcome (by simp [RawAnswer.entries])
      FailedOutcome.ofJson_toJson (fun _ => Json.noConfusion),
    read_maybe raw raw.message (by simp [RawAnswer.entries]) hstring
      (fun _ => Json.noConfusion),
    read_maybe raw raw.diagnosticFile (by simp [RawAnswer.entries])
      SpillFile.ofJson_toJson (fun _ => Json.noConfusion),
    read_revision raw,
    flag_present hnodup (b := raw.stale) (by simp [RawAnswer.entries]),
    read_maybe raw raw.universe' (by simp [RawAnswer.entries]) hstring
      (fun _ => Json.noConfusion),
    read_maybe raw raw.timing (by simp [RawAnswer.entries])
      Timing.ofJson_toJson (fun _ => Json.noConfusion),
    read_maybe raw raw.workDoneMs (by simp [RawAnswer.entries]) toUInt64?_ofUInt64
      (fun _ => Json.noConfusion),
    read_maybe raw raw.skippedPhases (by simp [RawAnswer.entries])
      toStrings?_ofStrings (fun _ => Json.noConfusion),
    read_maybe raw raw.estimateKib (by simp [RawAnswer.entries]) toUInt64?_ofUInt64
      (fun _ => Json.noConfusion),
    read_maybe raw raw.budgetKib (by simp [RawAnswer.entries]) toUInt64?_ofUInt64
      (fun _ => Json.noConfusion),
    read_maybe raw raw.retainedFloorKib (by simp [RawAnswer.entries])
      toUInt64?_ofUInt64 (fun _ => Json.noConfusion)]
  rfl

/-! ## 5. Answers as JSON -/

def Answer.toJson (a : Answer) : Json := a.toRaw.toJson

def Answer.ofJson (v : Json) : Option Answer :=
  (RawAnswer.ofJson v).bind fun raw => raw.toAnswer.toOption

/-- What an outcome is read as: no summary where it was an explicit `null`. -/
def Outcome.received : Outcome → Outcome
  | .cli c => .cli { c with summary := nonNull c.summary }
  | o => o

def Answer.received (a : Answer) : Answer := { a with outcome := a.outcome.received }

theorem toRaw_received (a : Answer) : a.toRaw.received = a.received.toRaw := by
  obtain ⟨id, outcome, revision, fields⟩ := a
  cases outcome with
  | failed outcome message file => rfl
  | cli c =>
    obtain ⟨exit, stdout, stderr, paths, truncated, summary⟩ := c
    cases stdout <;> cases stderr <;> rfl

/-- **A written answer is read back.** -/
theorem Answer.ofJson_toJson (a : Answer) : Answer.ofJson a.toJson = some a.received := by
  unfold Answer.ofJson Answer.toJson
  rw [RawAnswer.ofJson_toJson, Option.bind_some, toRaw_received, toAnswer_toRaw]
  rfl

end AlSem.Wire
