-- SUMMARY: Chunks as a sender writes them, and what the parser reads of a chunk written so.
import OmegaStreamer.Rtmp.ChunkParse

/-!
# The chunk format

The format of the comments in `RtmpHeader.h`, from the writing side: a chunk is
a basic header in one of three forms, a message header in one of four formats,
four bytes of extended timestamp in some chunks, and data. `parseOneChunk` is
proved to read back a chunk that it expects to have, or not to have, the
extended timestamp that the chunk has or has not.
-/

open Resumable BytesReader

/-- A three-byte field. -/
abbrev UInt24 := Fin (2 ^ 24)

def UInt24.toUInt32 (n : UInt24) : UInt32 := UInt32.ofNat n.val

@[simp] theorem UInt24.toNat_toUInt32 (n : UInt24) : n.toUInt32.toNat = n.val := by
  have := n.isLt
  simp only [UInt24.toUInt32, UInt32.toNat_ofNat']
  omega

/-! ## Basic headers -/

/-- The three forms of a basic header. -/
inductive BasicForm where
  | one
  | two
  | three
  deriving DecidableEq, Repr

/-- The chunk stream ids that a form holds. -/
def BasicForm.Holds : BasicForm → Nat → Prop
  | .one, csid => 2 ≤ csid ∧ csid < 64
  | .two, csid => 64 ≤ csid ∧ csid < 320
  | .three, csid => 64 ≤ csid ∧ csid < 65600

instance (form : BasicForm) (csid : Nat) : Decidable (form.Holds csid) := by
  cases form <;> exact inferInstanceAs (Decidable (_ ∧ _))

/-- A chunk stream id with a form that holds it. -/
structure ChunkStreamId where
  csid : Nat
  form : BasicForm
  holds : form.Holds csid

namespace ChunkStreamId

/-- The ids that can be written are those from 2 to 65599. -/
theorem exists_iff (csid : Nat) :
    (∃ id : ChunkStreamId, id.csid = csid) ↔ 2 ≤ csid ∧ csid ≤ 65599 := by
  constructor
  · rintro ⟨⟨_, form, holds⟩, rfl⟩
    cases form <;> simp only [BasicForm.Holds] at holds ⊢ <;> omega
  · intro h
    by_cases h64 : csid < 64
    · exact ⟨⟨csid, .one, h.1, h64⟩, rfl⟩
    · exact ⟨⟨csid, .three, show 64 ≤ csid ∧ csid < 65600 by omega⟩, rfl⟩

def encode (fmt : ChunkFmt) (id : ChunkStreamId) : Bytes :=
  let high := fmt.toUInt8 <<< 6
  match id.form with
  | .one => [high ||| UInt8.ofNat id.csid]
  | .two => [high, UInt8.ofNat (id.csid - 64)]
  | .three => [high ||| 1, UInt8.ofNat ((id.csid - 64) % 256), UInt8.ofNat ((id.csid - 64) / 256)]

theorem length_encode_pos (fmt : ChunkFmt) (id : ChunkStreamId) :
    0 < (id.encode fmt).length := by
  unfold encode
  cases id.form <;> simp

theorem length_encode_le (fmt : ChunkFmt) (id : ChunkStreamId) :
    (id.encode fmt).length ≤ 3 := by
  unfold encode
  cases id.form <;> simp

/-- The two parts of the first byte are read back. -/
private theorem first_byte (fmt : ChunkFmt) (low : Nat) (h : low < 64) :
    ChunkFmt.ofByte (fmt.toUInt8 <<< 6 ||| UInt8.ofNat low) = fmt ∧
      ((fmt.toUInt8 <<< 6 ||| UInt8.ofNat low) &&& 0x3F).toNat = low := by
  have hall : ∀ fmt ∈ [ChunkFmt.fmt0, .fmt1, .fmt2, .fmt3], ∀ low : Fin 64,
      ChunkFmt.ofByte (fmt.toUInt8 <<< 6 ||| UInt8.ofNat low) = fmt ∧
        ((fmt.toUInt8 <<< 6 ||| UInt8.ofNat low) &&& 0x3F).toNat = low := by
    decide +kernel
  exact hall fmt (by cases fmt <;> simp) ⟨low, h⟩

theorem parseBasicHeader_encode (fmt : ChunkFmt) (id : ChunkStreamId) (rest : Bytes) :
    parseBasicHeader (id.encode fmt ++ rest) =
      some ⟨fmt, id.csid, (id.encode fmt).length⟩ := by
  obtain ⟨csid, form, holds⟩ := id
  cases form with
  | one =>
    have hcsid : 2 ≤ csid ∧ csid < 64 := holds
    obtain ⟨hfmt, hlow⟩ := first_byte fmt csid hcsid.2
    simp [encode, parseBasicHeader, hfmt, hlow, show csid ≠ 0 by omega, show csid ≠ 1 by omega]
  | two =>
    have hcsid : 64 ≤ csid ∧ csid < 320 := holds
    obtain ⟨hfmt, hlow⟩ := first_byte fmt 0 (by omega)
    rw [show UInt8.ofNat 0 = 0 from rfl, UInt8.or_zero] at hfmt hlow
    simp [encode, parseBasicHeader, hfmt, hlow]
    omega
  | three =>
    have hcsid : 64 ≤ csid ∧ csid < 65600 := holds
    obtain ⟨hfmt, hlow⟩ := first_byte fmt 1 (by omega)
    rw [show UInt8.ofNat 1 = 1 from rfl] at hfmt hlow
    simp [encode, parseBasicHeader, hfmt, hlow]
    omega

end ChunkStreamId

/-! ## Message headers -/

/-- A message header in one of the four formats. -/
inductive ChunkMsgHeader where
  | fmt0 (timestamp msgLen : UInt24) (msgType : UInt8) (msgStreamId : UInt32)
  | fmt1 (delta msgLen : UInt24) (msgType : UInt8)
  | fmt2 (delta : UInt24)
  | fmt3
  deriving DecidableEq, Repr

namespace ChunkMsgHeader

def fmt : ChunkMsgHeader → ChunkFmt
  | .fmt0 .. => .fmt0
  | .fmt1 .. => .fmt1
  | .fmt2 .. => .fmt2
  | .fmt3 => .fmt3

def encode : ChunkMsgHeader → Bytes
  | .fmt0 timestamp msgLen msgType msgStreamId =>
    Endian.toBE 3 timestamp ++ Endian.toBE 3 msgLen ++ [msgType] ++
      Endian.toLE 4 msgStreamId.toNat
  | .fmt1 delta msgLen msgType => Endian.toBE 3 delta ++ Endian.toBE 3 msgLen ++ [msgType]
  | .fmt2 delta => Endian.toBE 3 delta
  | .fmt3 => []

@[simp] theorem length_encode (h : ChunkMsgHeader) :
    h.encode.length = h.fmt.kMsgHeaderSize := by
  cases h <;> simp [encode, fmt, ChunkFmt.kMsgHeaderSize]

/-- The header after `prev` on chunk stream `csid`, extended timestamps apart. -/
def after (h : ChunkMsgHeader) (csid : Nat) (prev : RtmpMsgHeader) : RtmpMsgHeader :=
  let header := { prev with fmt := h.fmt, csid := csid }
  match h with
  | .fmt0 timestamp msgLen msgType msgStreamId =>
    { header with
      timestamp := timestamp.toUInt32
      msgLen := msgLen.toUInt32
      msgType := msgType
      msgStreamId := msgStreamId }
  | .fmt1 delta msgLen msgType =>
    { header with
      timestamp := prev.timestamp + delta.toUInt32
      msgLen := msgLen.toUInt32
      msgType := msgType }
  | .fmt2 delta => { header with timestamp := prev.timestamp + delta.toUInt32 }
  | .fmt3 => header

@[simp] theorem after_fmt (h : ChunkMsgHeader) (csid : Nat) (prev : RtmpMsgHeader) :
    (h.after csid prev).fmt = h.fmt := by
  cases h <;> rfl

@[simp] theorem after_csid (h : ChunkMsgHeader) (csid : Nat) (prev : RtmpMsgHeader) :
    (h.after csid prev).csid = csid := by
  cases h <;> rfl

@[simp] theorem after_hasExtTs (h : ChunkMsgHeader) (csid : Nat) (prev : RtmpMsgHeader) :
    (h.after csid prev).hasExtTs = prev.hasExtTs := by
  cases h <;> rfl

/-- Whether the parser expects an extended timestamp after the header. -/
def expectsExt (h : ChunkMsgHeader) (prev : RtmpMsgHeader) : Bool :=
  match h with
  | .fmt0 timestamp .. => timestamp.val = 0xFFFFFF
  | .fmt1 .. => false
  | .fmt2 .. => false
  | .fmt3 => prev.hasExtTs

/-! ### Reading back -/

theorem readUint24BE_field (n : UInt24) (rest : Bytes) :
    readUint24BE (Endian.toBE 3 n ++ rest) = n.toUInt32 := by
  rw [← UInt32.toNat_inj, readUint24BE_toBE, UInt24.toNat_toUInt32]
  exact Nat.mod_eq_of_lt n.isLt

theorem readUint32LE_field (n : UInt32) (rest : Bytes) :
    readUint32LE (Endian.toLE 4 n.toNat ++ rest) = n := by
  rw [← UInt32.toNat_inj, readUint32LE_toLE]
  exact Nat.mod_eq_of_lt n.toNat_lt

theorem readUint32BE_field (n : UInt32) (rest : Bytes) :
    readUint32BE (Endian.toBE 4 n.toNat ++ rest) = n := by
  rw [← UInt32.toNat_inj, readUint32BE_toBE]
  exact Nat.mod_eq_of_lt n.toNat_lt

private theorem drop_field (w n : Nat) (rest : Bytes) :
    (Endian.toBE w n ++ rest).drop w = rest :=
  List.drop_left' (Endian.length_toBE w n)

theorem readMessageHeader_encode (h : ChunkMsgHeader) (prev : RtmpMsgHeader) (bh : BasicHeader)
    (hf : bh.fmt = h.fmt) (rest : Bytes) :
    readMessageHeader prev bh (h.encode ++ rest) = h.after bh.csid prev := by
  -- the fields behind the length are found from the end of the length
  have hdrop6 : ∀ (n l : Nat) (q : Bytes),
      (Endian.toBE 3 n ++ (Endian.toBE 3 l ++ q)).drop 6 = q := by
    intro n l q
    rw [show 6 = 3 + 3 from rfl, ← List.drop_drop, drop_field, drop_field]
  have hdrop7 : ∀ (n l : Nat) (b : UInt8) (q : Bytes),
      (Endian.toBE 3 n ++ (Endian.toBE 3 l ++ b :: q)).drop 7 = q := by
    intro n l b q
    rw [show 7 = 6 + 1 from rfl, ← List.drop_drop, hdrop6]
    rfl
  cases h with
  | fmt0 timestamp msgLen msgType msgStreamId =>
    simp only [readMessageHeader, hf, fmt, after, encode, List.append_assoc, List.cons_append,
      List.nil_append, readUint24BE_field, drop_field, hdrop6, hdrop7, readUint32LE_field,
      readUint8, Bytes.at_cons_zero]
  | fmt1 delta msgLen msgType =>
    simp only [readMessageHeader, hf, fmt, after, encode, List.append_assoc, List.cons_append,
      List.nil_append, readUint24BE_field, drop_field, hdrop6, readUint8, Bytes.at_cons_zero]
  | fmt2 delta =>
    simp only [readMessageHeader, hf, fmt, after, encode, readUint24BE_field]
  | fmt3 => simp only [readMessageHeader, hf, fmt, after]

theorem extTsLen_encode (h : ChunkMsgHeader) (prev : RtmpMsgHeader) (csid : Nat) (rest : Bytes) :
    extTsLen prev (h.after csid prev) (h.encode ++ rest) =
      if h.expectsExt prev then 4 else 0 := by
  cases h with
  | fmt0 timestamp msgLen msgType msgStreamId =>
    have hle : timestamp.toUInt32 ≥ kMaxTimestampInHeader ↔ timestamp.val = 0xFFFFFF := by
      have := timestamp.isLt
      rw [ge_iff_le, UInt32.le_iff_toNat_le, UInt24.toNat_toUInt32]
      simp only [kMaxTimestampInHeader, UInt32.reduceToNat]
      omega
    simp only [extTsLen, after, fmt, expectsExt, hle, decide_eq_true_eq]
  | fmt1 delta msgLen msgType => exact extTsLen_delta _ (.inl rfl)
  | fmt2 delta => exact extTsLen_delta _ (.inr rfl)
  | fmt3 => rfl

end ChunkMsgHeader

/-! ## Chunks -/

/-- A chunk as it is written. -/
structure Chunk where
  id : ChunkStreamId
  header : ChunkMsgHeader
  extTs : Option UInt32
  data : Bytes

namespace Chunk

def encodeExt : Option UInt32 → Bytes
  | none => []
  | some t => Endian.toBE 4 t.toNat

/-- The bytes before the data. -/
def encodeHead (c : Chunk) : Bytes :=
  c.id.encode c.header.fmt ++ c.header.encode ++ encodeExt c.extTs

def encode (c : Chunk) : Bytes := c.encodeHead ++ c.data

theorem length_encodeHead_le (c : Chunk) : c.encodeHead.length ≤ 18 := by
  have hid := c.id.length_encode_le c.header.fmt
  have hsize := c.header.fmt.kMsgHeaderSize_le
  simp only [encodeHead, List.length_append, ChunkMsgHeader.length_encode]
  cases c.extTs with
  | none => simp only [encodeExt, List.length_nil]; omega
  | some t => simp only [encodeExt, Endian.length_toBE]; omega

theorem length_encodeHead_pos (c : Chunk) : 0 < c.encodeHead.length := by
  have hid := c.id.length_encode_pos c.header.fmt
  simp only [encodeHead, List.length_append]
  omega

/-- The header that the parser makes of the chunk. -/
def after (c : Chunk) (prev : RtmpMsgHeader) : RtmpMsgHeader :=
  match c.extTs with
  | none => c.header.after c.id.csid prev
  | some t => { c.header.after c.id.csid prev with hasExtTs := true, timestamp := t }

@[simp] theorem after_fmt (c : Chunk) (prev : RtmpMsgHeader) :
    (c.after prev).fmt = c.header.fmt := by
  unfold after; cases c.extTs <;> simp

@[simp] theorem after_csid (c : Chunk) (prev : RtmpMsgHeader) :
    (c.after prev).csid = c.id.csid := by
  unfold after; cases c.extTs <;> simp

/-- A chunk whose extended timestamp is there exactly when it is expected has its
header read back. -/
theorem parseChunkHead_encode {c : Chunk} {prevHeaders : Nat → RtmpMsgHeader}
    (hext : c.header.expectsExt (prevHeaders c.id.csid) = c.extTs.isSome) {rest : Bytes}
    (hlen : (c.encodeHead ++ rest).length < 2 ^ 31) :
    parseChunkHead prevHeaders (c.encodeHead ++ rest) =
      some ⟨c.after (prevHeaders c.id.csid), c.encodeHead.length⟩ := by
  obtain ⟨id, header, extTs, data⟩ := c
  simp only [encodeHead, List.append_assoc] at hext hlen ⊢
  have hdrop : (id.encode header.fmt ++ (header.encode ++ (encodeExt extTs ++ rest))).drop
      (id.encode header.fmt).length = header.encode ++ (encodeExt extTs ++ rest) :=
    List.drop_left
  have hint := asInt_of_lt hlen
  simp only [List.length_append, ChunkMsgHeader.length_encode] at hint
  simp only [parseChunkHead, id.parseBasicHeader_encode, hdrop,
    ChunkMsgHeader.readMessageHeader_encode header _ ⟨header.fmt, id.csid, _⟩ rfl,
    ChunkMsgHeader.extTsLen_encode, hext, List.length_append, ChunkMsgHeader.length_encode, hint]
  cases extTs with
  | none =>
    simp only [Option.isSome_none, Bool.false_eq_true, if_false, encodeExt, List.length_nil]
    rw [if_neg (by omega), if_neg (by omega), if_neg (by omega)]
    simp [after]
  | some t =>
    have hdrop' : (id.encode header.fmt ++ (header.encode ++ (encodeExt (some t) ++ rest))).drop
        ((id.encode header.fmt).length + header.fmt.kMsgHeaderSize) =
          Endian.toBE 4 t.toNat ++ rest := by
      rw [← List.drop_drop, hdrop, ← ChunkMsgHeader.length_encode, List.drop_left]
      rfl
    simp only [Option.isSome_some, if_true, encodeExt, Endian.length_toBE]
    rw [if_neg (by omega), if_neg (by omega)]
    simp only [encodeExt] at hdrop'
    rw [hdrop', ChunkMsgHeader.readUint32BE_field]
    simp [after, Nat.add_assoc]

end Chunk

namespace RtmpChunkParse

/-! ## Reading a whole chunk -/

/-- A chunk with as much data as the parser looks for is read back, and its data
is added to the message it belongs to. -/
theorem parseOneChunk_encode {cb : MessageCallback} {st : RtmpChunkParse} {c : Chunk}
    (hext : c.header.expectsExt (st.prevHeaders c.id.csid) = c.extTs.isSome)
    (hsize : st.dataSize (st.openMessage (c.after (st.prevHeaders c.id.csid))) = c.data.length)
    (hlen : c.encode.length < 2 ^ 31) :
    st.parseOneChunk cb c.encode =
      .item (st.finishChunk cb (c.after (st.prevHeaders c.id.csid))
          (st.openMessage (c.after (st.prevHeaders c.id.csid))) c.data).1 c.encode.length
        (st.finishChunk cb (c.after (st.prevHeaders c.id.csid))
          (st.openMessage (c.after (st.prevHeaders c.id.csid))) c.data).2 := by
  have hhead : parseChunkHead st.prevHeaders (c.encodeHead ++ c.data) = _ :=
    Chunk.parseChunkHead_encode hext hlen
  have hdata : ((c.encodeHead ++ c.data).drop c.encodeHead.length).take c.data.length = c.data := by
    rw [List.drop_left, List.take_length]
  have h : st.parseOneChunk cb (c.encodeHead ++ c.data) = _ :=
    parseOneChunk_data hhead hsize (by
      rw [show (c.encodeHead ++ c.data).length = c.encode.length from rfl, asInt_of_lt hlen]
      simp [Chunk.encode])
  simp only [hdata] at h
  rw [Chunk.encode, h, List.length_append]

/-- A format 0 chunk that is a whole message delivers it, whatever the parser has kept of
its chunk stream. -/
theorem parseOneChunk_whole (cb : MessageCallback) {st : RtmpChunkParse} {c : Chunk}
    {msg : RtmpMessage} (hmsg : msg = ⟨c.after (st.prevHeaders c.id.csid), c.data⟩)
    (hfmt : c.header.fmt = .fmt0)
    (hext : c.header.expectsExt (st.prevHeaders c.id.csid) = c.extTs.isSome)
    (hlen : c.data.length < 2 ^ 24) (hml : msg.header.msgLen.toNat = c.data.length)
    (hsize : c.data.length ≤ st.inChunkSize) :
    ∃ st', st.parseOneChunk cb c.encode = .item st' c.encode.length [msg] ∧
      st'.inChunkSize = cb msg st.inChunkSize := by
  subst hmsg
  have hopen : st.openMessage (c.after (st.prevHeaders c.id.csid)) =
      { header := c.after (st.prevHeaders c.id.csid), payload := [] } :=
    openMessage_start (.inl (by rw [Chunk.after_fmt, hfmt]))
  have hdata : st.dataSize (st.openMessage (c.after (st.prevHeaders c.id.csid))) =
      c.data.length := by
    rw [hopen, dataSize_fresh st (by rw [hml]; exact hlen), hml]
    exact Int.min_eq_left hsize
  have hshort : c.encode.length < 2 ^ 31 := by
    have hhead := c.length_encodeHead_le
    rw [Chunk.encode, List.length_append]
    omega
  have hcomplete : ({ header := c.after (st.prevHeaders c.id.csid), payload := [] ++ c.data } :
      RtmpMessage).isComplete = true := by
    rw [RtmpMessage.isComplete_iff, hml]
    exact Nat.le_refl _
  have hparse : st.parseOneChunk cb c.encode = _ := parseOneChunk_encode hext hdata hshort
  rw [hopen, finishChunk_complete hcomplete] at hparse
  exact ⟨_, hparse, rfl⟩

end RtmpChunkParse
