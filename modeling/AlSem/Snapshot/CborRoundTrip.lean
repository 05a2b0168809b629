/-
# The snapshot's CBOR bytes read back

Both sides are described by the bytes they move: a writer `Emits` bytes whatever is in front of
them, a reader `Reads` bytes into a value wherever they stand and whatever is behind.  Both
compose along `++`, so the encoder's bytes and the decoder's reads meet construct by construct.

* `encodeInto_reads`: what the encoder writes for a value the decoder reads into that value.
* `decodeLevels_sound`: on any bytes the decoder ends within bounds, or with an error it reports.
* `cbor_roundTrip`: the two together, with what they say of two encodings.
-/
import AlSem.Snapshot.Cbor
import Mathlib.Data.List.Nodup
import Mathlib.Data.List.Infix

namespace AlSem.Snapshot

open BigEndian StateExcept

/-! ## 1. Writers -/

/-- The writer appends `bs`. -/
def Emits (p : List UInt8 → Option (List UInt8)) (bs : List UInt8) : Prop :=
  ∀ out, p out = some (out ++ bs)

theorem Emits.bind {p q : List UInt8 → Option (List UInt8)} {bs bs' : List UInt8}
    (hp : Emits p bs) (hq : Emits q bs') : Emits (fun out => p out >>= q) (bs ++ bs') := by
  intro out
  show (p out >>= q) = _
  rw [hp out, ← List.append_assoc]
  exact hq (out ++ bs)

theorem Emits.append (bs : List UInt8) : Emits (fun out => some (out ++ bs)) bs := fun _ => rfl

/-! ## 2. Readers -/

/-- The decoder stands inside its bytes. -/
def Decoder.Valid (d : Decoder) : Prop := d.pos ≤ d.buf.bytes.length

/-- In front of the decoder are `bs`, then `suf`. -/
def Decoder.Holds (d : Decoder) (bs suf : List UInt8) : Prop :=
  d.Valid ∧ d.buf.bytes.drop d.pos = bs ++ suf

def Decoder.advance (d : Decoder) (n : ℕ) : Decoder := { d with pos := d.pos + n }

theorem Decoder.Holds.length {d : Decoder} {bs suf : List UInt8} (h : d.Holds bs suf) :
    d.pos + bs.length ≤ d.buf.bytes.length := by
  obtain ⟨hvalid, hdrop⟩ := h
  have hlen := congrArg List.length hdrop
  rw [List.length_drop, List.length_append] at hlen
  unfold Decoder.Valid at hvalid
  omega

theorem Decoder.Holds.advance {d : Decoder} {bs bs' suf : List UInt8}
    (h : d.Holds (bs ++ bs') suf) : (d.advance bs.length).Holds bs' suf := by
  have hlen := h.length
  rw [List.length_append] at hlen
  refine ⟨?_, ?_⟩
  · show d.pos + bs.length ≤ d.buf.bytes.length
    omega
  · show d.buf.bytes.drop (d.pos + bs.length) = bs' ++ suf
    rw [← List.drop_drop, h.2, List.append_assoc, List.drop_left]

/-- The reader takes `bs` for `a` and stops behind them. -/
def Reads {α : Type} (p : Read α) (bs : List UInt8) (a : α) : Prop :=
  ∀ (d : Decoder) (suf : List UInt8), d.Holds bs suf → Yields p d a (d.advance bs.length)

theorem Reads.pure {α : Type} (a : α) : Reads (pure a : Read α) [] a :=
  fun d _ _ => Yields.pure a d

theorem Reads.bind {α β : Type} {p : Read α} {f : α → Read β} {bs bs' : List UInt8} {a : α} {b : β}
    (hp : Reads p bs a) (hf : Reads (f a) bs' b) : Reads (p >>= f) (bs ++ bs') b := by
  intro d suf h
  have hfirst : d.Holds bs (bs' ++ suf) := ⟨h.1, by rw [h.2, List.append_assoc]⟩
  have hrest := hf _ suf h.advance
  have hpos : (d.advance bs.length).advance bs'.length = d.advance (bs ++ bs').length := by
    simp only [Decoder.advance, List.length_append, Nat.add_assoc]
  rw [hpos] at hrest
  exact (hp d _ hfirst).bind hrest

/-- A reader of nothing behind another. -/
theorem Reads.andThen {α β : Type} {p : Read α} {f : α → Read β} {bs : List UInt8} {a : α} {b : β}
    (hp : Reads p bs a) (hf : Reads (f a) [] b) : Reads (p >>= f) bs b := by
  have h := hp.bind hf
  rwa [List.append_nil] at h

/-- `read_u8` takes the byte it stands at; its sum stays in the word. -/
theorem readU8_run (d : Decoder) :
    readU8 d = match d.buf.bytes[d.pos]? with
      | none => .error (.err .unexpectedEnd)
      | some b => .ok (b, d.advance 1) := by
  show (match d.buf.bytes[d.pos]? with
    | none => _
    | some b => _ : Read UInt8) d = _
  cases hget : d.buf.bytes[d.pos]? with
  | none => rfl
  | some b =>
    obtain ⟨hpos, -⟩ := List.getElem?_eq_some_iff.mp hget
    have hsum : d.pos + 1 < 2 ^ 64 := by have := d.buf.fits; omega
    show (addUsize d.pos 1 >>= _) d = _
    rw [addUsize, if_pos hsum]
    rfl

/-- `read_bytes` takes the range in front of it; the range is inside the slice. -/
theorem readBytes_run (n : ℕ) (d : Decoder) :
    readBytes n d =
      if 2 ^ 64 ≤ d.pos + n then .error (.err .lengthOverflow)
      else if d.buf.bytes.length < d.pos + n then .error (.err .truncated)
      else .ok ((d.buf.bytes.take (d.pos + n)).drop d.pos, d.advance n) := by
  show (if 2 ^ 64 ≤ d.pos + n then _ else if d.buf.bytes.length < d.pos + n then _ else _ :
    Read (List UInt8)) d = _
  by_cases hsum : 2 ^ 64 ≤ d.pos + n
  · rw [if_pos hsum, if_pos hsum]
    rfl
  by_cases hend : d.buf.bytes.length < d.pos + n
  · rw [if_neg hsum, if_neg hsum, if_pos hend, if_pos hend]
    rfl
  · rw [if_neg hsum, if_neg hsum, if_neg hend, if_neg hend]
    show (slice d.buf.bytes d.pos (d.pos + n) >>= _) d = _
    rw [slice, if_pos ⟨Nat.le_add_right _ _, Nat.le_of_not_lt hend⟩]
    rfl

theorem readU8_reads (b : UInt8) : Reads readU8 [b] b := by
  intro d suf h
  have hget : d.buf.bytes[d.pos]? = some b := by
    have := congrArg List.head? h.2
    rwa [List.head?_drop] at this
  have hrun := readU8_run d
  rw [hget] at hrun
  exact hrun

theorem readBytes_reads {n : ℕ} {bs : List UInt8} (hn : bs.length = n) :
    Reads (readBytes n) bs bs := by
  intro d suf h
  have hlen := h.length
  have hsum : ¬ 2 ^ 64 ≤ d.pos + n := by have := d.buf.fits; omega
  have hend : ¬ d.buf.bytes.length < d.pos + n := by omega
  have hslice : (d.buf.bytes.take (d.pos + n)).drop d.pos = bs := by
    rw [List.drop_take, h.2, Nat.add_sub_cancel_left, ← hn, List.take_left]
  have hrun := readBytes_run n d
  rw [if_neg hsum, if_neg hend, hslice] at hrun
  rw [hn]
  exact hrun

theorem fromBeBytes_reads {k : ℕ} {bs : List UInt8} (hk : bs.length = k) :
    Reads (fromBeBytes k bs) [] (ofBeBytes bs) := by
  rw [fromBeBytes, if_pos (Nat.le_of_eq hk.symm), List.take_of_length_le (Nat.le_of_eq hk)]
  exact Reads.pure _

/-- A `k`-byte argument. -/
theorem readWord_reads {k n : ℕ} (hn : n < 256 ^ k) :
    Reads (readBytes k >>= fun b => fromBeBytes k b) (toBeBytes k n) n := by
  have hword := fromBeBytes_reads (length_toBeBytes k n)
  rw [ofBeBytes_toBeBytes hn] at hword
  exact (readBytes_reads (length_toBeBytes k n)).andThen hword

/-! ## 3. Headers -/

/-- The major type and the additional information share a byte. -/
theorem header_split : ∀ (mt : Fin 8) (i : Fin 32),
    ((UInt8.ofNat mt <<< 5) ||| UInt8.ofNat i) >>> 5 = UInt8.ofNat mt ∧
      ((UInt8.ofNat mt <<< 5) ||| UInt8.ofNat i) &&& 0x1f = UInt8.ofNat i := by
  decide

/-- **The argument of a header**: one additional information and its bytes for both sides. -/
theorem encodeUintHeader_reads (major : UInt8) {n : ℕ} (hn : n ≤ 0xffffffff) :
    ∃ (i : ℕ) (arg : List UInt8), i < 32 ∧
      Emits (encodeUintHeader major n) ((major ||| UInt8.ofNat i) :: arg) ∧
      Reads (readArgument (UInt8.ofNat i)) arg n := by
  by_cases h1 : n ≤ 23
  · refine ⟨n, [], by omega, fun out => ?_, ?_⟩
    · simp [encodeUintHeader, hn, h1]
    · have hinfo : UInt8.ofNat n ≤ 23 := by
        rw [UInt8.le_iff_toNat_le]
        simp only [UInt8.toNat_ofNat']
        exact le_trans (Nat.mod_le _ _) h1
      have hval : (UInt8.ofNat n).toNat = n := by
        simp only [UInt8.toNat_ofNat']
        omega
      show Reads (readArgument (UInt8.ofNat n)) [] n
      rw [readArgument, if_pos hinfo, hval]
      exact Reads.pure n
  by_cases h2 : n ≤ 0xff
  · refine ⟨24, toBeBytes 1 n, by decide, fun out => ?_, ?_⟩
    · simp [encodeUintHeader, hn, h1, h2]
    · have hbyte : toBeBytes 1 n = [UInt8.ofNat n] := rfl
      have hval : (UInt8.ofNat n).toNat = n := by
        simp only [UInt8.toNat_ofNat']
        omega
      rw [hbyte]
      refine (readU8_reads (UInt8.ofNat n)).andThen ?_
      rw [hval]
      exact Reads.pure n
  by_cases h3 : n ≤ 0xffff
  · refine ⟨25, toBeBytes 2 n, by decide, fun out => ?_, ?_⟩
    · simp [encodeUintHeader, hn, h1, h2, h3]
    · exact readWord_reads (k := 2) (by omega)
  · refine ⟨26, toBeBytes 4 n, by decide, fun out => ?_, ?_⟩
    · simp [encodeUintHeader, hn, h1, h2, h3]
    · exact readWord_reads (k := 4) (by omega)

/-! ## 4. Values that fit -/

mutual

/-- No float, integers of 33 bits, lengths of 32 bits, at most 65535 entries with keys of their
own. -/
def CborValue.Encodable : CborValue → Prop
  | .float _ => False
  | .int n => -(2 ^ 32 : ℤ) ≤ n ∧ n ≤ 2 ^ 32 - 1
  | .text s => (asBytes s).length < 2 ^ 32
  | .array items => items.length < 2 ^ 32 ∧ EncodableItems items
  | .map entries =>
    entries.length ≤ 65535 ∧ (entries.map Prod.fst).Nodup ∧ EncodableEntries entries
  | _ => True

def EncodableItems : List CborValue → Prop
  | [] => True
  | v :: rest => v.Encodable ∧ EncodableItems rest

def EncodableEntries : List (String × CborValue) → Prop
  | [] => True
  | (k, v) :: rest => (asBytes k).length < 2 ^ 32 ∧ v.Encodable ∧ EncodableEntries rest

end

mutual

/-- How deep the deepest value lies. -/
def CborValue.nesting : CborValue → ℕ
  | .array items => nestingItems items
  | .map entries => nestingEntries entries
  | _ => 0

def nestingItems : List CborValue → ℕ
  | [] => 0
  | v :: rest => max (v.nesting + 1) (nestingItems rest)

def nestingEntries : List (String × CborValue) → ℕ
  | [] => 0
  | (_, v) :: rest => max (v.nesting + 1) (nestingEntries rest)

end

theorem fromUtf8_asBytes (s : String) : fromUtf8 (asBytes s) = some s := by
  have hbytes : (⟨(asBytes s).toArray⟩ : ByteArray) = s.toByteArray := by
    simp [asBytes]
  rw [fromUtf8, hbytes]
  simp [String.fromUTF8?, s.isValidUTF8, String.fromUTF8]

theorem indexInsert_new {m : List (String × CborValue)} {k : String} (v : CborValue)
    (h : k ∉ m.map Prod.fst) : indexInsert m k v = m ++ [(k, v)] := by
  induction m with
  | nil => rfl
  | cons entry m ih =>
    obtain ⟨k', v'⟩ := entry
    simp only [List.map_cons, List.mem_cons, not_or] at h
    rw [indexInsert, if_neg (Ne.symm h.1), ih h.2]
    rfl

/-! ## 5. Each kind of value -/

theorem decodeBody_reads {item : Read CborValue} (mt : Fin 8) {i : ℕ} (hi : i < 32)
    {bs : List UInt8} {v : CborValue}
    (h : Reads (decodeMajor item (UInt8.ofNat mt) (UInt8.ofNat i)) bs v) :
    Reads (decodeBody item) (((UInt8.ofNat mt <<< 5) ||| UInt8.ofNat i) :: bs) v := by
  obtain ⟨hmajor, hinfo⟩ := header_split mt ⟨i, hi⟩
  have hhead := readU8_reads ((UInt8.ofNat mt <<< 5) ||| UInt8.ofNat i)
  show Reads (decodeBody item) ([(UInt8.ofNat mt <<< 5) ||| UInt8.ofNat i] ++ bs) v
  refine hhead.bind ?_
  dsimp only
  rw [hmajor, hinfo]
  exact h

/-- A value that is its own header. -/
theorem simple_reads {item : Read CborValue} {i : ℕ} (hi : i < 32) {v : CborValue}
    (h : decodeSimple (UInt8.ofNat i) = pure v) :
    Reads (decodeBody item) [((7 : UInt8) <<< 5) ||| UInt8.ofNat i] v := by
  have harm : Reads (decodeMajor item 7 (UInt8.ofNat i)) [] v := by
    show Reads (decodeSimple (UInt8.ofNat i)) [] v
    rw [h]
    exact Reads.pure v
  exact decodeBody_reads 7 hi harm

theorem encodeInt_reads {n : ℤ} (hlow : -(2 ^ 32 : ℤ) ≤ n) (hhigh : n ≤ 2 ^ 32 - 1) :
    ∃ bs, Emits (encodeInt n) bs ∧ ∀ item, Reads (decodeBody item) bs (.int n) := by
  by_cases hneg : 0 ≤ n
  · have hn : n.toNat ≤ 0xffffffff := by omega
    obtain ⟨i, arg, hi, hemit, hread⟩ := encodeUintHeader_reads 0x00 hn
    refine ⟨(0x00 ||| UInt8.ofNat i) :: arg, fun out => ?_, fun item => decodeBody_reads 0 hi ?_⟩
    · rw [encodeInt, if_pos hneg, if_pos hn]
      exact hemit out
    · refine Reads.andThen (f := fun n => intToCbor n false) hread ?_
      have hmax : n.toNat ≤ i64Max := by unfold i64Max; omega
      have hcast : (n.toNat : ℤ) = n := Int.toNat_of_nonneg hneg
      rw [intToCbor, if_neg (by decide), if_pos hmax, hcast]
      exact Reads.pure _
  · have hn : (-(n + 1)).toNat ≤ 0xffffffff := by omega
    obtain ⟨i, arg, hi, hemit, hread⟩ := encodeUintHeader_reads 0x20 hn
    refine ⟨(0x20 ||| UInt8.ofNat i) :: arg, fun out => ?_, fun item => decodeBody_reads 1 hi ?_⟩
    · rw [encodeInt, if_neg hneg]
      dsimp only
      rw [if_pos hn]
      exact hemit out
    · refine Reads.andThen (f := fun n => intToCbor n true) hread ?_
      have hmax : (-(n + 1)).toNat ≤ i64Max := by unfold i64Max; omega
      have hcast : -1 - ((-(n + 1)).toNat : ℤ) = n := by omega
      have hrange : -(2 ^ 63 : ℤ) ≤ n := by omega
      rw [intToCbor, if_pos rfl, if_pos hmax, negInt, hcast, if_pos hrange]
      exact Reads.pure _

theorem encodeText_reads {s : String} (hs : (asBytes s).length < 2 ^ 32) :
    ∃ bs, Emits (encodeText s) bs ∧ ∀ item, Reads (decodeBody item) bs (.text s) := by
  obtain ⟨i, arg, hi, hemit, hread⟩ :=
    encodeUintHeader_reads 0x60 (n := (asBytes s).length) (by omega)
  refine ⟨_, hemit.bind (Emits.append (asBytes s)), fun item => decodeBody_reads 3 hi ?_⟩
  refine Reads.bind hread (Reads.andThen (readBytes_reads rfl) ?_)
  rw [fromUtf8_asBytes]
  exact Reads.pure _

/-! ## 6. The whole tree -/

/-- The items of an array, each with its bytes. -/
theorem pushItem_reads {item : Read CborValue} {v : CborValue} {rest acc : List CborValue}
    {bs bs' : List UInt8} (hv : Reads item bs v)
    (hrest : ∀ acc, Reads (repeatN (pushItem item) rest.length acc) bs' (acc ++ rest)) :
    Reads (repeatN (pushItem item) (v :: rest).length acc) (bs ++ bs') (acc ++ v :: rest) := by
  have hpush : Reads (pushItem item acc) bs (acc ++ [v]) := hv.andThen (Reads.pure _)
  have htail := hrest (acc ++ [v])
  rw [List.append_assoc, List.singleton_append] at htail
  exact hpush.bind htail

/-- The entries of a map, each key new. -/
theorem insertEntry_reads {item : Read CborValue} {k : String} {v : CborValue}
    {rest acc : List (String × CborValue)} {bk bs bs' : List UInt8}
    (hk : Reads item bk (.text k)) (hv : Reads item bs v) (hnew : k ∉ acc.map Prod.fst)
    (hrest : Reads (repeatN (insertEntry item) rest.length (acc ++ [(k, v)])) bs'
      (acc ++ [(k, v)] ++ rest)) :
    Reads (repeatN (insertEntry item) ((k, v) :: rest).length acc) (bk ++ bs ++ bs')
      (acc ++ (k, v) :: rest) := by
  have hinsert : Reads (insertEntry item acc) (bk ++ bs) (acc ++ [(k, v)]) := by
    refine hk.bind (Reads.andThen hv ?_)
    rw [indexInsert_new v hnew]
    exact Reads.pure _
  rw [List.append_assoc, List.singleton_append] at hrest
  exact hinsert.bind hrest

mutual

/-- **What the encoder writes for a value, the decoder reads into it**, with the levels left that
its nesting needs. -/
theorem encodeInto_reads (v : CborValue) (hv : v.Encodable) :
    ∃ bs, Emits (encodeInto v) bs ∧
      ∀ levels, v.nesting < levels → Reads (decodeLevels levels) bs v := by
  have lift : ∀ {p : List UInt8 → Option (List UInt8)},
      (∃ bs, Emits p bs ∧ ∀ item, Reads (decodeBody item) bs v) →
      ∃ bs, Emits p bs ∧ ∀ levels, v.nesting < levels → Reads (decodeLevels levels) bs v := by
    rintro p ⟨bs, hemit, hread⟩
    refine ⟨bs, hemit, fun levels hlevels => ?_⟩
    obtain ⟨l, rfl⟩ := Nat.exists_eq_succ_of_ne_zero (Nat.ne_zero_of_lt hlevels)
    exact hread (decodeLevels l)
  match v with
  | .null => exact lift ⟨_, Emits.append _, fun _ => simple_reads (i := 22) (by decide) rfl⟩
  | .undefined => exact lift ⟨_, Emits.append _, fun _ => simple_reads (i := 23) (by decide) rfl⟩
  | .bool true => exact lift ⟨_, Emits.append _, fun _ => simple_reads (i := 21) (by decide) rfl⟩
  | .bool false => exact lift ⟨_, Emits.append _, fun _ => simple_reads (i := 20) (by decide) rfl⟩
  | .int n => exact lift (encodeInt_reads hv.1 hv.2)
  | .float f => exact absurd hv id
  | .text s => exact lift (encodeText_reads hv)
  | .array items =>
    obtain ⟨i, arg, hi, hemit, hread⟩ :=
      encodeUintHeader_reads 0x80 (n := items.length) (Nat.le_of_lt_succ hv.1)
    obtain ⟨bs, hemits, hreads⟩ := encodeItems_reads items hv.2
    refine ⟨_, hemit.bind hemits, fun levels hlevels => ?_⟩
    obtain ⟨l, rfl⟩ := Nat.exists_eq_succ_of_ne_zero (Nat.ne_zero_of_lt hlevels)
    refine decodeBody_reads 4 hi (hread.bind (Reads.andThen ?_ (Reads.pure _)))
    exact hreads l (Nat.le_of_lt_succ hlevels) []
  | .map entries =>
    obtain ⟨hcount, hkeys, hentries⟩ := hv
    obtain ⟨bs, hemits, hreads⟩ := encodeEntries_reads entries hentries
    refine ⟨[0xb9] ++ toBeBytes 2 entries.length ++ bs, fun out => ?_, fun levels hlevels => ?_⟩
    · rw [encodeInto, if_pos hcount, hemits]
      simp only [List.append_assoc]
    · obtain ⟨l, rfl⟩ := Nat.exists_eq_succ_of_ne_zero (Nat.ne_zero_of_lt hlevels)
      refine decodeBody_reads 5 (i := 25) (by decide) ?_
      refine (readWord_reads (k := 2) (by omega)).bind (Reads.andThen ?_ (Reads.pure _))
      exact hreads l (Nat.le_of_lt_succ hlevels) [] hkeys

theorem encodeItems_reads (items : List CborValue) (h : EncodableItems items) :
    ∃ bs, Emits (encodeItems items) bs ∧
      ∀ levels, nestingItems items ≤ levels →
        ∀ acc, Reads (repeatN (pushItem (decodeLevels levels)) items.length acc) bs
          (acc ++ items) := by
  match items with
  | [] => exact ⟨[], fun out => by rw [encodeItems, List.append_nil],
      fun _ _ acc => by rw [List.append_nil]; exact Reads.pure acc⟩
  | v :: rest =>
    obtain ⟨bs, hemit, hread⟩ := encodeInto_reads v h.1
    obtain ⟨bs', hemits, hreads⟩ := encodeItems_reads rest h.2
    refine ⟨bs ++ bs', hemit.bind hemits, fun levels hlevels acc => ?_⟩
    have hnest : max (v.nesting + 1) (nestingItems rest) ≤ levels := hlevels
    have hv := hread levels (le_trans (le_max_left _ _) hnest)
    exact pushItem_reads hv (hreads levels (le_trans (le_max_right _ _) hnest))

theorem encodeEntries_reads (entries : List (String × CborValue)) (h : EncodableEntries entries) :
    ∃ bs, Emits (encodeEntries entries) bs ∧
      ∀ levels, nestingEntries entries ≤ levels →
        ∀ acc : List (String × CborValue), ((acc ++ entries).map Prod.fst).Nodup →
          Reads (repeatN (insertEntry (decodeLevels levels)) entries.length acc) bs
            (acc ++ entries) := by
  match entries with
  | [] => exact ⟨[], fun out => by rw [encodeEntries, List.append_nil],
      fun _ _ acc _ => by rw [List.append_nil]; exact Reads.pure acc⟩
  | (k, v) :: rest =>
    obtain ⟨hk, hv, hrest⟩ := h
    obtain ⟨bk, hemitk, hreadk⟩ := encodeText_reads hk
    obtain ⟨bs, hemit, hread⟩ := encodeInto_reads v hv
    obtain ⟨bs', hemits, hreads⟩ := encodeEntries_reads rest hrest
    refine ⟨bk ++ bs ++ bs', fun out => ?_, fun levels hlevels acc hkeys => ?_⟩
    · rw [encodeEntries, hemitk]
      show (encodeInto v (out ++ bk) >>= _) = _
      rw [hemit]
      show encodeEntries rest (out ++ bk ++ bs) = _
      rw [hemits]
      simp only [List.append_assoc]
    · have hnest : max (v.nesting + 1) (nestingEntries rest) ≤ levels := hlevels
      have hlevel : v.nesting < levels := le_trans (le_max_left _ _) hnest
      obtain ⟨l, rfl⟩ := Nat.exists_eq_succ_of_ne_zero (Nat.ne_zero_of_lt hlevel)
      have hkeys' : ((acc ++ [(k, v)] ++ rest).map Prod.fst).Nodup := by
        rwa [List.append_assoc, List.singleton_append]
      have hnew : k ∉ acc.map Prod.fst := by
        rw [List.map_append, List.map_append, List.nodup_append, List.nodup_append] at hkeys'
        intro hmem
        exact hkeys'.1.2.2 k hmem k (by simp) rfl
      exact insertEntry_reads (hreadk _) (hread _ hlevel) hnew
        (hreads _ (le_trans (le_max_right _ _) hnest) _ hkeys')

end

/-! ## 7. Any bytes -/

/-- The program ends inside the bytes, or with an error it reports. -/
abbrev Total {α : Type} (p : Read α) (Q : α → Prop) : Prop :=
  Sound (fun d : Decoder => d.Valid) (· ≠ Fault.panic) p Q

theorem readU8_total : Total readU8 fun _ => True := by
  intro d hd
  rw [readU8_run]
  cases hget : d.buf.bytes[d.pos]? with
  | none => exact Fault.noConfusion
  | some b =>
    obtain ⟨hpos, -⟩ := List.getElem?_eq_some_iff.mp hget
    exact ⟨trivial, hpos⟩

theorem readBytes_total (n : ℕ) : Total (readBytes n) fun bs => bs.length = n := by
  intro d hd
  have hvalid : d.pos ≤ d.buf.bytes.length := hd
  rw [readBytes_run]
  by_cases hsum : 2 ^ 64 ≤ d.pos + n
  · rw [if_pos hsum]
    exact Fault.noConfusion
  by_cases hend : d.buf.bytes.length < d.pos + n
  · rw [if_neg hsum, if_pos hend]
    exact Fault.noConfusion
  · rw [if_neg hsum, if_neg hend]
    have hinside : d.pos + n ≤ d.buf.bytes.length := Nat.le_of_not_lt hend
    have hlen : ((d.buf.bytes.take (d.pos + n)).drop d.pos).length = n := by
      rw [List.length_drop, List.length_take]
      omega
    exact ⟨hlen, hinside⟩

theorem fromBeBytes_total {k : ℕ} {bs : List UInt8} (h : bs.length = k) :
    Total (fromBeBytes k bs) fun _ => True := by
  rw [fromBeBytes, if_pos (Nat.le_of_eq h.symm)]
  exact Sound.pure trivial

theorem readWord_total (k : ℕ) :
    Total (readBytes k >>= fun b => fromBeBytes k b) fun _ => True :=
  (readBytes_total k).bind fun _ hlen => fromBeBytes_total hlen

theorem readArgument_total (info : UInt8) : Total (readArgument info) fun _ => True := by
  unfold readArgument
  split_ifs
  · exact Sound.pure trivial
  · exact readU8_total.bind fun _ _ => Sound.pure trivial
  · exact readWord_total 2
  · exact readWord_total 4
  · exact readWord_total 8
  · exact Sound.throw Fault.noConfusion

theorem intToCbor_total (n : ℕ) (negative : Bool) :
    Total (intToCbor n negative) fun _ => True := by
  unfold intToCbor
  split_ifs with hneg hmax hmax
  · have hrange : -(2 ^ 63 : ℤ) ≤ -1 - (n : ℤ) := by
      unfold i64Max at hmax
      omega
    rw [negInt, if_pos hrange]
    exact Sound.pure trivial
  all_goals exact Sound.pure trivial

theorem decodeText_total (info : UInt8) : Total (decodeText info) fun _ => True := by
  refine (readArgument_total info).bind fun len _ => (readBytes_total len).bind fun bytes _ => ?_
  split
  · exact Sound.pure trivial
  · exact Sound.throw Fault.noConfusion

theorem decodeSimple_total (info : UInt8) : Total (decodeSimple info) fun _ => True := by
  unfold decodeSimple
  split_ifs
  · exact Sound.pure trivial
  · exact Sound.pure trivial
  · exact Sound.pure trivial
  · exact Sound.pure trivial
  · exact (readBytes_total 2).bind fun _ hlen =>
      (fromBeBytes_total hlen).bind fun _ _ => Sound.pure trivial
  · exact (readBytes_total 4).bind fun _ hlen =>
      (fromBeBytes_total hlen).bind fun _ _ => Sound.pure trivial
  · exact (readBytes_total 8).bind fun _ hlen =>
      (fromBeBytes_total hlen).bind fun _ _ => Sound.pure trivial
  · exact Sound.throw Fault.noConfusion

theorem insertEntry_total {item : Read CborValue} (hitem : Total item fun _ => True)
    (m : List (String × CborValue)) : Total (insertEntry item m) fun _ => True := by
  refine hitem.bind fun key _ => ?_
  split
  · exact hitem.bind fun _ _ => Sound.pure trivial
  · exact Sound.throw Fault.noConfusion

theorem decodeMajor_total {item : Read CborValue} (hitem : Total item fun _ => True)
    (major info : UInt8) : Total (decodeMajor item major info) fun _ => True := by
  unfold decodeMajor
  split_ifs
  · exact (readArgument_total info).bind fun n _ => intToCbor_total n false
  · exact (readArgument_total info).bind fun n _ => intToCbor_total n true
  · exact decodeText_total info
  · refine (readArgument_total info).bind fun len _ => Sound.bind (Q := fun _ => True) ?_
      fun _ _ => Sound.pure trivial
    exact Sound.repeatN (fun items _ => hitem.bind fun _ _ => Sound.pure trivial) len trivial
  · refine (readArgument_total info).bind fun len _ => Sound.bind (Q := fun _ => True) ?_
      fun _ _ => Sound.pure trivial
    exact Sound.repeatN (fun m _ => insertEntry_total hitem m) len trivial
  · exact decodeSimple_total info
  · exact Sound.throw Fault.noConfusion

/-- **On any bytes** the decoder stays inside them: one level at a time. -/
theorem decodeLevels_total (levels : ℕ) : Total (decodeLevels levels) fun _ => True := by
  induction levels with
  | zero => exact Sound.throw Fault.noConfusion
  | succ levels ih => exact readU8_total.bind fun _ _ => decodeMajor_total ih _ _

theorem cborDecode_ne_panic (buf : ByteSlice) : cborDecode buf ≠ .error .panic := by
  have htotal := decodeLevels_total (maxCborDepth + 1) (Decoder.new buf) (Nat.zero_le _)
  have hrun : cborDecode buf =
      (decodeLevels (maxCborDepth + 1) (Decoder.new buf)).map Prod.fst := rfl
  rw [hrun]
  cases hres : decodeLevels (maxCborDepth + 1) (Decoder.new buf) with
  | ok r =>
    intro h
    cases h
  | error e =>
    rw [hres] at htotal
    intro h
    cases h
    exact htotal rfl

/-! ## 8. The round trip -/

/-- The values both sides agree on. -/
def CborValue.InRange (v : CborValue) : Prop := v.Encodable ∧ v.nesting ≤ maxCborDepth

/-- A value's bytes, wherever they stand. -/
theorem encode_decodes {v : CborValue} (hv : v.InRange) {bs : List UInt8}
    (hbs : encode v = some bs) : Reads (decodeValue 0) bs v := by
  obtain ⟨bs', hemit, hread⟩ := encodeInto_reads v hv.1
  have hsame : bs' = bs := by
    have h := (hemit []).symm.trans hbs
    rw [List.nil_append] at h
    exact Option.some.inj h
  rw [← hsame]
  exact hread _ (Nat.lt_succ_of_le hv.2)

/-- A value at the front of some bytes is what they decode to. -/
theorem encode_front {v : CborValue} (hv : v.InRange) {bs suf : List UInt8}
    (hbs : encode v = some bs) {buf : ByteSlice} (hbuf : buf.bytes = bs ++ suf) :
    decodeValue 0 (Decoder.new buf) = .ok (v, (Decoder.new buf).advance bs.length) :=
  encode_decodes hv hbs (Decoder.new buf) suf ⟨Nat.zero_le _, hbuf⟩

/-- **The round trip.**  Every value in range has an encoding; wherever it stands, the decoder
reads exactly it and gives the value back, so no encoding is the start of another's; and on no
bytes does the decoder leave its bounds. -/
theorem cbor_roundTrip :
    (∀ v : CborValue, v.InRange → ∃ bs, encode v = some bs ∧
      (∀ buf : ByteSlice, buf.bytes = bs → cborDecode buf = .ok v) ∧
      (∀ (d : Decoder) (pre suf : List UInt8), d.buf.bytes = pre ++ bs ++ suf →
        d.pos = pre.length →
        decodeValue 0 d = .ok (v, { d with pos := pre.length + bs.length }))) ∧
    (∀ (v w : CborValue), v.InRange → w.InRange → ∀ a b : ByteSlice,
      encode v = some a.bytes → encode w = some b.bytes → a.bytes <+: b.bytes →
      v = w ∧ a.bytes = b.bytes) ∧
    (∀ buf : ByteSlice, cborDecode buf ≠ .error .panic) := by
  refine ⟨fun v hv => ?_, fun v w hv hw a b ha hb hprefix => ?_, cborDecode_ne_panic⟩
  · obtain ⟨bs, hemit, -⟩ := encodeInto_reads v hv.1
    have hbs : encode v = some bs := hemit []
    refine ⟨bs, hbs, fun buf hbuf => ?_, fun d pre suf hbytes hpos => ?_⟩
    · have hbytes : buf.bytes = bs ++ [] := by rw [hbuf, List.append_nil]
      have hrun := encode_front hv hbs hbytes
      show (decodeValue 0 (Decoder.new buf)).map Prod.fst = _
      rw [hrun]
      rfl
    · have hholds : d.Holds bs suf := by
        refine ⟨?_, ?_⟩
        · show d.pos ≤ d.buf.bytes.length
          rw [hbytes, hpos, List.append_assoc, List.length_append]
          omega
        · rw [hbytes, hpos, List.append_assoc, List.drop_left]
      have hrun := encode_decodes hv hbs d suf hholds
      rw [← hpos]
      exact hrun
  · obtain ⟨suf, hsuf⟩ := hprefix
    have hv' := encode_front hv ha hsuf.symm
    have hw' := encode_front hw hb (List.append_nil b.bytes).symm
    have hsame := hv'.symm.trans hw'
    injection hsame with hsame
    have hvalue : v = w := congrArg Prod.fst hsame
    refine ⟨hvalue, ?_⟩
    rw [← hvalue, ha] at hb
    exact Option.some.inj hb

/-- The bytes of a map with one negative number. -/
theorem cbor_roundTrip_entry :
    encode (.map [("a", .int (-300))]) = some [0xb9, 0x00, 0x01, 0x61, 0x61, 0x39, 0x01, 0x2b] ∧
      cborDecode ⟨[0xb9, 0x00, 0x01, 0x61, 0x61, 0x39, 0x01, 0x2b], by decide⟩ =
        .ok (.map [("a", .int (-300))]) := by
  have hv : (CborValue.map [("a", .int (-300))]).InRange := by
    refine ⟨⟨by decide, by decide, ⟨by decide, ⟨by decide, by decide⟩, trivial⟩⟩, by decide⟩
  have hbs : encode (.map [("a", .int (-300))]) =
      some [0xb9, 0x00, 0x01, 0x61, 0x61, 0x39, 0x01, 0x2b] := rfl
  obtain ⟨bs, hencode, hdecode, -⟩ := cbor_roundTrip.1 _ hv
  have hsame : bs = [0xb9, 0x00, 0x01, 0x61, 0x61, 0x39, 0x01, 0x2b] :=
    Option.some.inj (hencode.symm.trans hbs)
  exact ⟨hbs, hdecode _ hsame.symm⟩

end AlSem.Snapshot
