/-
# The snapshot's CBOR bytes

`encode` writes a value in the byte form the snapshots are kept in, `Decoder` reads one back.
The two were written apart: the encoder picks the smallest of four argument widths (a map always
has a two-byte count, an integer beyond 32 bits is a double), the decoder takes every width.
Positions and indices are machine words with their checks: what the code would abort on is
`Fault.panic`, what it reports is `Fault.err`.
-/
import AlSem.Lib.BigEndian
import AlSem.Lib.StateExcept

namespace AlSem.Snapshot

open BigEndian StateExcept

/-! ## 1. Values -/

/-- A value of a snapshot; a map keeps its entries in insertion order. -/
inductive CborValue where
  | null
  | undefined
  | bool (b : Bool)
  | int (n : ℤ)
  | float (f : Float)
  | text (s : String)
  | array (items : List CborValue)
  | map (entries : List (String × CborValue))

/-- `IndexMap::insert`: a key that is there keeps its place and takes the new value. -/
def indexInsert (m : List (String × CborValue)) (k : String) (v : CborValue) :
    List (String × CborValue) :=
  match m with
  | [] => [(k, v)]
  | (k', v') :: rest => if k' = k then (k', v) :: rest else (k', v') :: indexInsert rest k v

/-- `as_bytes` of a string. -/
def asBytes (s : String) : List UInt8 := s.toByteArray.data.toList

/-! ## 2. Encoding

`none` is the `assert!` that fails. -/

/-- `major` with the smallest argument that holds `n`. -/
def encodeUintHeader (major : UInt8) (n : ℕ) (out : List UInt8) : Option (List UInt8) :=
  if n ≤ 0xffffffff then
    if n ≤ 23 then some (out ++ [major ||| UInt8.ofNat n])
    else if n ≤ 0xff then some (out ++ [major ||| 0x18] ++ toBeBytes 1 n)
    else if n ≤ 0xffff then some (out ++ [major ||| 0x19] ++ toBeBytes 2 n)
    else some (out ++ [major ||| 0x1a] ++ toBeBytes 4 n)
  else none

def encodeF64 (f : Float) (out : List UInt8) : List UInt8 :=
  out ++ [0xfb] ++ toBeBytes 8 f.toBits.toNat

def encodeInt (n : ℤ) (out : List UInt8) : Option (List UInt8) :=
  if 0 ≤ n then
    if n.toNat ≤ 0xffffffff then encodeUintHeader 0x00 n.toNat out
    else some (encodeF64 (Float.ofInt n) out)
  else
    let mag := (-(n + 1)).toNat
    if mag ≤ 0xffffffff then encodeUintHeader 0x20 mag out
    else some (encodeF64 (Float.ofInt n) out)

def encodeText (s : String) (out : List UInt8) : Option (List UInt8) := do
  let out ← encodeUintHeader 0x60 (asBytes s).length out
  some (out ++ asBytes s)

def encodeArrayHeader (len : ℕ) (out : List UInt8) : Option (List UInt8) :=
  encodeUintHeader 0x80 len out

mutual

def encodeInto (value : CborValue) (out : List UInt8) : Option (List UInt8) :=
  match value with
  | .null => some (out ++ [0xf6])
  | .undefined => some (out ++ [0xf7])
  | .bool true => some (out ++ [0xf5])
  | .bool false => some (out ++ [0xf4])
  | .int n => encodeInt n out
  | .float f => some (encodeF64 f out)
  | .text s => encodeText s out
  | .array items => do
    let out ← encodeArrayHeader items.length out
    encodeItems items out
  | .map entries =>
    if entries.length ≤ 65535 then
      encodeEntries entries (out ++ [0xb9] ++ toBeBytes 2 entries.length)
    else none

/-- The loop over an array's items. -/
def encodeItems (items : List CborValue) (out : List UInt8) : Option (List UInt8) :=
  match items with
  | [] => some out
  | item :: rest => do
    let out ← encodeInto item out
    encodeItems rest out

/-- The loop over a map's entries. -/
def encodeEntries (entries : List (String × CborValue)) (out : List UInt8) :
    Option (List UInt8) :=
  match entries with
  | [] => some out
  | (k, v) :: rest => do
    let out ← encodeText k out
    let out ← encodeInto v out
    encodeEntries rest out

end

def encode (value : CborValue) : Option (List UInt8) := encodeInto value []

/-! ## 3. Decoding -/

/-- Bytes in memory: no slice is longer than `isize::MAX`. -/
structure ByteSlice where
  bytes : List UInt8
  fits : bytes.length < 2 ^ 63

/-- What the decoder reports. -/
inductive CborError where
  | unexpectedEnd
  | truncated
  | lengthOverflow
  | unsupportedInfo (info : UInt8)
  | nestingTooDeep
  | invalidUtf8
  | nonTextMapKey (key : CborValue)
  | unsupportedSimple (info : UInt8)
  | unsupportedMajor (major : UInt8)

/-- An error reported, or an access or a sum out of range. -/
inductive Fault where
  | err (e : CborError)
  | panic

structure Decoder where
  buf : ByteSlice
  pos : ℕ

abbrev Read (α : Type) := StateT Decoder (Except Fault) α

def Decoder.new (buf : ByteSlice) : Decoder := ⟨buf, 0⟩

/-- `+` of two `usize`. -/
def addUsize (a b : ℕ) : Read ℕ := if a + b < 2 ^ 64 then pure (a + b) else throw .panic

/-- A range of a slice. -/
def slice (bs : List UInt8) (lo hi : ℕ) : Read (List UInt8) :=
  if lo ≤ hi ∧ hi ≤ bs.length then pure ((bs.take hi).drop lo) else throw .panic

def readU8 : Read UInt8 := do
  let d ← get
  match d.buf.bytes[d.pos]? with
  | none => throw (.err .unexpectedEnd)
  | some b =>
    let pos ← addUsize d.pos 1
    set { d with pos }
    pure b

def readBytes (n : ℕ) : Read (List UInt8) := do
  let d ← get
  let sum := d.pos + n
  if 2 ^ 64 ≤ sum then throw (.err .lengthOverflow)
  else if d.buf.bytes.length < sum then throw (.err .truncated)
  else
    let bs ← slice d.buf.bytes d.pos sum
    set { d with pos := sum }
    pure bs

/-- `from_be_bytes([b[0], …, b[k - 1]])`: an index out of range aborts. -/
def fromBeBytes (k : ℕ) (bs : List UInt8) : Read ℕ :=
  if k ≤ bs.length then pure (ofBeBytes (bs.take k)) else throw .panic

def readArgument (info : UInt8) : Read ℕ :=
  if info ≤ 23 then pure info.toNat
  else if info = 24 then do
    let b ← readU8
    pure b.toNat
  else if info = 25 then do
    let b ← readBytes 2
    fromBeBytes 2 b
  else if info = 26 then do
    let b ← readBytes 4
    fromBeBytes 4 b
  else if info = 27 then do
    let b ← readBytes 8
    fromBeBytes 8 b
  else throw (.err (.unsupportedInfo info))

def i64Max : ℕ := 2 ^ 63 - 1

/-- `-1 - n` in an `i64`. -/
def negInt (n : ℕ) : Read CborValue :=
  if -(2 ^ 63 : ℤ) ≤ -1 - (n : ℤ) then pure (.int (-1 - (n : ℤ))) else throw .panic

def intToCbor (n : ℕ) (negative : Bool) : Read CborValue :=
  if negative then
    if n ≤ i64Max then negInt n
    else pure (.float (-1.0 - (UInt64.ofNat n).toFloat))
  else if n ≤ i64Max then pure (.int n)
  else pure (.float (UInt64.ofNat n).toFloat)

/-- `trunc`: towards zero. -/
def truncF (f : Float) : Float := if f < 0.0 then f.ceil else f.floor

def floatToCbor (f : Float) : CborValue :=
  if f.isFinite && f == truncF f && f.abs < 9.007199254740992e15 then .int f.toInt64.toInt
  else .float f

/-- A half-precision number. -/
def halfToF64 (h : ℕ) : Float :=
  let sign : ℕ := h / 2 ^ 15 % 2
  let exp : ℕ := h / 2 ^ 10 % 2 ^ 5
  let frac : ℕ := h % 2 ^ 10
  let val : Float :=
    if exp = 0 then (Float.ofNat frac).scaleB (-24)
    else if exp = 0x1f then if frac = 0 then 1.0 / 0.0 else 0.0 / 0.0
    else (1.0 + Float.ofNat frac / 1024.0).scaleB ((exp : ℤ) - 15)
  if sign = 1 then -val else val

def maxCborDepth : ℕ := 256

/-- `from_utf8`. -/
def fromUtf8 (bs : List UInt8) : Option String := String.fromUTF8? ⟨bs.toArray⟩

/-- The arm of `decode_value` for a text. -/
def decodeText (info : UInt8) : Read CborValue := do
  let len ← readArgument info
  let bytes ← readBytes len
  match fromUtf8 bytes with
  | some s => pure (.text s)
  | none => throw (.err .invalidUtf8)

/-- The loop body of an array: `item` reads a value one level down. -/
def pushItem (item : Read CborValue) (items : List CborValue) : Read (List CborValue) := do
  let v ← item
  pure (items ++ [v])

/-- The loop body of a map: `item` reads a value one level down. -/
def insertEntry (item : Read CborValue) (m : List (String × CborValue)) :
    Read (List (String × CborValue)) := do
  let key ← item
  match key with
  | .text s =>
    let val ← item
    pure (indexInsert m s val)
  | other => throw (.err (.nonTextMapKey other))

/-- The arm of `decode_value` for a simple value or a float. -/
def decodeSimple (info : UInt8) : Read CborValue :=
  if info = 20 then pure (.bool false)
  else if info = 21 then pure (.bool true)
  else if info = 22 then pure .null
  else if info = 23 then pure .undefined
  else if info = 25 then do
    let b ← readBytes 2
    let h ← fromBeBytes 2 b
    pure (.float (halfToF64 h))
  else if info = 26 then do
    let b ← readBytes 4
    let bits ← fromBeBytes 4 b
    pure (.float (Float32.ofBits (UInt32.ofNat bits)).toFloat)
  else if info = 27 then do
    let b ← readBytes 8
    let bits ← fromBeBytes 8 b
    pure (floatToCbor (Float.ofBits (UInt64.ofNat bits)))
  else throw (.err (.unsupportedSimple info))

/-- The `match` of `decode_value` on the major type; `item` reads one level down. -/
def decodeMajor (item : Read CborValue) (major info : UInt8) : Read CborValue :=
  if major = 0 then do
    let n ← readArgument info
    intToCbor n false
  else if major = 1 then do
    let n ← readArgument info
    intToCbor n true
  else if major = 3 then decodeText info
  else if major = 4 then do
    let len ← readArgument info
    let items ← repeatN (pushItem item) len []
    pure (.array items)
  else if major = 5 then do
    let len ← readArgument info
    let m ← repeatN (insertEntry item) len []
    pure (.map m)
  else if major = 7 then decodeSimple info
  else throw (.err (.unsupportedMajor major))

/-- `decode_value` behind its depth check. -/
def decodeBody (item : Read CborValue) : Read CborValue := do
  let initial ← readU8
  let major := initial >>> 5
  let info := initial &&& 0x1f
  decodeMajor item major info

/-- `decode_value` with `levels` levels left: at none the nesting is too deep. -/
def decodeLevels : ℕ → Read CborValue
  | 0 => throw (.err .nestingTooDeep)
  | levels + 1 => decodeBody (decodeLevels levels)

def decodeValue (depth : ℕ) : Read CborValue := decodeLevels (maxCborDepth + 1 - depth)

/-- `decode_value` as the source has it: the check, then the body one level deeper. -/
theorem decodeValue_eq (depth : ℕ) :
    decodeValue depth =
      if maxCborDepth < depth then throw (.err .nestingTooDeep)
      else decodeBody (decodeValue (depth + 1)) := by
  unfold decodeValue
  by_cases hdeep : maxCborDepth < depth
  · have hzero : maxCborDepth + 1 - depth = 0 := by omega
    rw [if_pos hdeep, hzero]
    rfl
  · have hsucc : maxCborDepth + 1 - depth = (maxCborDepth + 1 - (depth + 1)) + 1 := by omega
    rw [if_neg hdeep, hsucc]
    rfl

def cborDecode (bytes : ByteSlice) : Except Fault CborValue :=
  (decodeValue 0 (Decoder.new bytes)).map Prod.fst

end AlSem.Snapshot
