-- SUMMARY: The chunk parser: one chunk at a time from the receive buffer, and the loop over the buffer.
import OmegaStreamer.Lib.Resumable
import OmegaStreamer.Rtmp.Header
import Mathlib.Logic.Function.Basic

/-!
# RtmpChunkParse

The parser of `RtmpChunkParse.cpp`. The receive buffer is the string of its
unread bytes. One call of `parseOneChunk` is an attempt of a resumable parser:
`wait` where the code returns 1, `item` where it returns 0 after consuming a
chunk, and `abort` where `payload.append` is called with a negative length,
which throws. The return value `-1` is never produced.

The two maps of the parser are only ever read through `operator[]`, which
creates missing entries; a map is the function from keys to entries.
-/

open Resumable BytesReader

/-- The conversion of a `size_t` or a `uint32_t` to `int`. -/
def asInt (n : Nat) : Int := Int.bmod n (2 ^ 32)

theorem asInt_of_lt {n : Nat} (h : n < 2 ^ 31) : asInt n = n := by
  unfold asInt
  rw [Int.bmod_eq_of_le_mul_two] <;> omega

theorem asInt_le (n : Nat) : asInt n ≤ n := by
  unfold asInt
  have h := Int.emod_nonneg (n : Int) (b := 2 ^ 32) (by decide)
  have h' := Int.emod_add_mul_ediv (n : Int) (2 ^ 32)
  have h'' : 0 ≤ (n : Int) / 2 ^ 32 := Int.ediv_nonneg (by omega) (by decide)
  rw [Int.bmod_def]
  split <;> omega

/-! ## Basic header -/

/-- What `parseBasicHeader` puts into its output parameters. -/
structure BasicHeader where
  fmt : ChunkFmt
  csid : Nat
  headerLen : Nat
  deriving DecidableEq, Repr

/-- One to three bytes: the format, and the chunk stream id in one of three
forms. `none` when bytes are missing. -/
def parseBasicHeader (buf : Bytes) : Option BasicHeader :=
  if buf.length < 1 then none
  else
    let fmt := ChunkFmt.ofByte (buf.at 0)
    let csid := (buf.at 0 &&& 0x3F).toNat
    if csid = 0 then
      if buf.length < 2 then none
      else some ⟨fmt, (buf.at 1).toNat + 64, 2⟩
    else if csid = 1 then
      if buf.length < 3 then none
      else some ⟨fmt, (buf.at 2).toNat * 256 + (buf.at 1).toNat + 64, 3⟩
    else some ⟨fmt, csid, 1⟩

theorem parseBasicHeader_some {buf : Bytes} {bh : BasicHeader}
    (h : parseBasicHeader buf = some bh) :
    1 ≤ bh.headerLen ∧ bh.headerLen ≤ 3 ∧ bh.headerLen ≤ buf.length := by
  unfold parseBasicHeader at h
  simp only at h
  split at h
  · cases h
  split at h
  · split at h
    · cases h
    · cases h; simp only; omega
  split at h
  · split at h
    · cases h
    · cases h; simp only; omega
  · cases h; simp only; omega

/-- A complete basic header is found whatever follows it. -/
theorem parseBasicHeader_append {buf : Bytes} {bh : BasicHeader}
    (h : parseBasicHeader buf = some bh) (more : Bytes) :
    parseBasicHeader (buf ++ more) = some bh := by
  obtain ⟨h1, -, hlen⟩ := parseBasicHeader_some h
  have h0 : (buf ++ more).at 0 = buf.at 0 := Bytes.at_append (by omega) more
  unfold parseBasicHeader at h ⊢
  simp only [List.length_append, h0] at h ⊢
  rw [if_neg (by omega)] at h ⊢
  split at h
  · rename_i hz
    split at h
    · cases h
    · rw [if_pos hz, if_neg (by omega), Bytes.at_append (by omega)]; exact h
  rename_i hz
  split at h
  · rename_i ho
    split at h
    · cases h
    · rw [if_neg hz, if_pos ho, if_neg (by omega), Bytes.at_append (by omega),
        Bytes.at_append (by omega)]
      exact h
  · rename_i ho
    rw [if_neg hz, if_neg ho]; exact h

theorem parseBasicHeader_none {buf : Bytes} (h : parseBasicHeader buf = none) :
    buf.length < 3 := by
  unfold parseBasicHeader at h
  simp only at h
  split at h
  · omega
  split at h
  · split at h
    · omega
    · cases h
  split at h
  · split at h
    · omega
    · cases h
  · cases h

/-! ## Message header and extended timestamp -/

/-- The fields of the message header at `p`, over the previous header of the
chunk stream. -/
def readMessageHeader (prev : RtmpMsgHeader) (bh : BasicHeader) (p : Bytes) : RtmpMsgHeader :=
  let header := { prev with fmt := bh.fmt, csid := bh.csid }
  match bh.fmt with
  | .fmt0 =>
    { header with
      timestamp := readUint24BE p
      msgLen := readUint24BE (p.drop 3)
      msgType := readUint8 (p.drop 6)
      msgStreamId := readUint32LE (p.drop 7) }
  | .fmt1 =>
    { header with
      msgLen := readUint24BE (p.drop 3)
      msgType := readUint8 (p.drop 6)
      timestamp := prev.timestamp + readUint24BE p }
  | .fmt2 => { header with timestamp := prev.timestamp + readUint24BE p }
  | .fmt3 => header

@[simp] theorem readMessageHeader_fmt (prev : RtmpMsgHeader) (bh : BasicHeader) (p : Bytes) :
    (readMessageHeader prev bh p).fmt = bh.fmt := by
  unfold readMessageHeader; cases bh.fmt <;> rfl

@[simp] theorem readMessageHeader_csid (prev : RtmpMsgHeader) (bh : BasicHeader) (p : Bytes) :
    (readMessageHeader prev bh p).csid = bh.csid := by
  unfold readMessageHeader; cases bh.fmt <;> rfl

/-- The length field has three bytes, so it stays below 2^24. -/
theorem readMessageHeader_msgLen_lt {prev : RtmpMsgHeader} (h : prev.msgLen.toNat < 2 ^ 24)
    (bh : BasicHeader) (p : Bytes) : (readMessageHeader prev bh p).msgLen.toNat < 2 ^ 24 := by
  unfold readMessageHeader
  cases bh.fmt with
  | fmt0 => exact readUint24BE_lt _
  | fmt1 => exact readUint24BE_lt _
  | fmt2 => exact h
  | fmt3 => exact h

/-- A complete message header is read the same whatever follows it. -/
theorem readMessageHeader_append {prev : RtmpMsgHeader} {bh : BasicHeader} {p : Bytes}
    (h : bh.fmt.kMsgHeaderSize ≤ p.length) (q : Bytes) :
    readMessageHeader prev bh (p ++ q) = readMessageHeader prev bh p := by
  have hdrop : ∀ {n : Nat}, n ≤ p.length → (p ++ q).drop n = p.drop n ++ q :=
    fun hn => List.drop_append_of_le_length hn
  unfold readMessageHeader
  cases hf : bh.fmt with
  | fmt0 =>
    simp only [hf, ChunkFmt.kMsgHeaderSize] at h
    simp only [readUint24BE_append (p := p) (by omega), hdrop (n := 3) (by omega),
      hdrop (n := 6) (by omega), hdrop (n := 7) (by omega),
      readUint24BE_append (p := p.drop 3) (by simp; omega), readUint8,
      Bytes.at_append (p := p.drop 6) (i := 0) (by simp; omega),
      readUint32LE_append (p := p.drop 7) (by simp; omega)]
  | fmt1 =>
    simp only [hf, ChunkFmt.kMsgHeaderSize] at h
    simp only [readUint24BE_append (p := p) (by omega), hdrop (n := 3) (by omega),
      hdrop (n := 6) (by omega),
      readUint24BE_append (p := p.drop 3) (by simp; omega), readUint8,
      Bytes.at_append (p := p.drop 6) (i := 0) (by simp; omega)]
  | fmt2 =>
    simp only [hf, ChunkFmt.kMsgHeaderSize] at h
    simp only [readUint24BE_append (p := p) (by omega)]
  | fmt3 => rfl

/-- `ext_ts_len`: whether four bytes of extended timestamp follow the message
header at `p`, which has been read into `header`. -/
def extTsLen (prev header : RtmpMsgHeader) (p : Bytes) : Nat :=
  match header.fmt with
  | .fmt0 => if header.timestamp ≥ kMaxTimestampInHeader then 4 else 0
  -- the comparison is `>`, and a three-byte field is never greater than 0xFFFFFF
  | .fmt1 | .fmt2 => if readUint24BE p > kMaxTimestampInHeader then 4 else 0
  | .fmt3 => if prev.hasExtTs then 4 else 0

theorem extTsLen_le (prev header : RtmpMsgHeader) (p : Bytes) : extTsLen prev header p ≤ 4 := by
  unfold extTsLen
  cases header.fmt <;> simp only <;> split <;> omega

/-- No extended timestamp is ever found in a format 1 or 2 chunk. -/
theorem extTsLen_delta {prev header : RtmpMsgHeader} (p : Bytes)
    (h : header.fmt = .fmt1 ∨ header.fmt = .fmt2) : extTsLen prev header p = 0 := by
  have hlt := readUint24BE_lt p
  have hno : ¬ readUint24BE p > kMaxTimestampInHeader := by
    intro hgt
    have := UInt32.lt_iff_toNat_lt.mp hgt
    simp only [kMaxTimestampInHeader, UInt32.reduceToNat] at this
    omega
  unfold extTsLen
  rcases h with h | h <;> simp only [h] <;> exact if_neg hno

theorem extTsLen_append {prev header : RtmpMsgHeader} (p q : Bytes) :
    extTsLen prev header (p ++ q) = extTsLen prev header p := by
  cases hf : header.fmt with
  | fmt0 => simp only [extTsLen, hf]
  | fmt1 => rw [extTsLen_delta _ (.inl hf), extTsLen_delta _ (.inl hf)]
  | fmt2 => rw [extTsLen_delta _ (.inr hf), extTsLen_delta _ (.inr hf)]
  | fmt3 => simp only [extTsLen, hf]

/-- The header of a chunk once it is complete, and its length in bytes. -/
structure ChunkHead where
  header : RtmpMsgHeader
  totalHeaderLen : Nat
  deriving DecidableEq, Repr

/-- Steps 1 to 5 of `parseOneChunk`: everything before the chunk data. They read
the previous headers and change nothing. `none` when bytes are missing. -/
def parseChunkHead (prevHeaders : Nat → RtmpMsgHeader) (buf : Bytes) : Option ChunkHead :=
  match parseBasicHeader buf with
  | none => none
  | some bh =>
    let need := bh.headerLen + bh.fmt.kMsgHeaderSize
    if asInt buf.length < need then none
    else
      let prev := prevHeaders bh.csid
      let header := readMessageHeader prev bh (buf.drop bh.headerLen)
      let extLen := extTsLen prev header (buf.drop bh.headerLen)
      if asInt buf.length < (need + extLen : Nat) then none
      else if extLen = 4 then
        some ⟨{ header with hasExtTs := true, timestamp := readUint32BE (buf.drop need) },
          need + extLen⟩
      else some ⟨header, need + extLen⟩

/-- What a complete header is made of. Only the timestamp is read behind the message
header. -/
theorem parseChunkHead_parts {prevHeaders : Nat → RtmpMsgHeader} {buf : Bytes}
    {head : ChunkHead} (h : parseChunkHead prevHeaders buf = some head) :
    ∃ bh header extLen, parseBasicHeader buf = some bh ∧
      header = readMessageHeader (prevHeaders bh.csid) bh (buf.drop bh.headerLen) ∧
      extLen ≤ 4 ∧
      head.totalHeaderLen = bh.headerLen + bh.fmt.kMsgHeaderSize + extLen ∧
      (head.totalHeaderLen : Int) ≤ asInt buf.length ∧
      head.header.fmt = header.fmt ∧ head.header.csid = header.csid ∧
      head.header.msgLen = header.msgLen := by
  unfold parseChunkHead at h
  cases hbh : parseBasicHeader buf with
  | none => rw [hbh] at h; cases h
  | some bh =>
    simp only [hbh] at h
    generalize hext : extTsLen _ _ _ = extLen at h
    have hext4 : extLen ≤ 4 := hext ▸ extTsLen_le _ _ _
    refine ⟨bh, _, extLen, rfl, rfl, hext4, ?_⟩
    split at h
    · cases h
    split at h
    · cases h
    rename_i hlen
    split at h
    · cases h
      exact ⟨rfl, Int.not_lt.mp hlen, rfl, rfl, rfl⟩
    · cases h
      exact ⟨rfl, Int.not_lt.mp hlen, rfl, rfl, rfl⟩

/-- A complete header lies in the buffer. -/
theorem parseChunkHead_some {prevHeaders : Nat → RtmpMsgHeader} {buf : Bytes} {head : ChunkHead}
    (h : parseChunkHead prevHeaders buf = some head) :
    1 ≤ head.totalHeaderLen ∧ head.totalHeaderLen ≤ 18 ∧
      head.totalHeaderLen ≤ buf.length := by
  obtain ⟨bh, header, extLen, hbh, -, hext4, htotal, hlen, -⟩ := parseChunkHead_parts h
  obtain ⟨h1, h3, -⟩ := parseBasicHeader_some hbh
  have hsize := bh.fmt.kMsgHeaderSize_le
  have hle := asInt_le buf.length
  omega

/-- A complete header starts with a basic header of the same format and chunk
stream. -/
theorem parseChunkHead_basic {prevHeaders : Nat → RtmpMsgHeader} {buf : Bytes}
    {head : ChunkHead} (h : parseChunkHead prevHeaders buf = some head) :
    ∃ bh, parseBasicHeader buf = some bh ∧ bh.fmt = head.header.fmt ∧
      bh.csid = head.header.csid := by
  obtain ⟨bh, header, extLen, hbh, rfl, -, -, -, hfmt, hcsid, -⟩ := parseChunkHead_parts h
  refine ⟨bh, hbh, ?_, ?_⟩
  · rw [hfmt, readMessageHeader_fmt]
  · rw [hcsid, readMessageHeader_csid]

/-- A format 1 header never has an extended timestamp. -/
theorem parseChunkHead_fmt1 (prevHeaders : Nat → RtmpMsgHeader) {buf : Bytes} {bh : BasicHeader}
    (hbh : parseBasicHeader buf = some bh) (hf : bh.fmt = .fmt1) :
    parseChunkHead prevHeaders buf =
      if asInt buf.length < (bh.headerLen + 7 : Nat) then none
      else some ⟨readMessageHeader (prevHeaders bh.csid) bh (buf.drop bh.headerLen),
        bh.headerLen + 7⟩ := by
  have hext : extTsLen (prevHeaders bh.csid)
      (readMessageHeader (prevHeaders bh.csid) bh (buf.drop bh.headerLen))
      (buf.drop bh.headerLen) = 0 := extTsLen_delta _ (.inl (by simpa using hf))
  simp only [parseChunkHead, hbh, hext, hf, ChunkFmt.kMsgHeaderSize, Nat.add_zero]
  split <;> simp

/-- A complete header is found whatever follows it. -/
theorem parseChunkHead_append {prevHeaders : Nat → RtmpMsgHeader} {buf more : Bytes}
    {head : ChunkHead} (hlen : (buf ++ more).length < 2 ^ 31)
    (h : parseChunkHead prevHeaders buf = some head) :
    parseChunkHead prevHeaders (buf ++ more) = some head := by
  unfold parseChunkHead at h ⊢
  cases hbh : parseBasicHeader buf with
  | none => rw [hbh] at h; cases h
  | some bh =>
    obtain ⟨-, -, hbl⟩ := parseBasicHeader_some hbh
    simp only [List.length_append] at hlen
    simp only [hbh, parseBasicHeader_append hbh more, List.length_append] at h ⊢
    rw [asInt_of_lt (show buf.length < 2 ^ 31 by omega)] at h
    rw [asInt_of_lt hlen, List.drop_append_of_le_length hbl]
    split at h
    · cases h
    rename_i hneed
    have hmsg : bh.fmt.kMsgHeaderSize ≤ (buf.drop bh.headerLen).length := by
      simp only [List.length_drop]; omega
    rw [readMessageHeader_append hmsg, extTsLen_append]
    split at h
    · cases h
    rename_i hext
    rw [if_neg (by omega), if_neg (by omega)]
    split at h
    · rename_i h4
      rw [if_pos h4, List.drop_append_of_le_length (by omega),
        readUint32BE_append (by simp only [List.length_drop]; omega)]
      exact h
    · rename_i h4
      rw [if_neg h4]; exact h

/-- Only a short buffer holds no complete header. -/
theorem parseChunkHead_none {prevHeaders : Nat → RtmpMsgHeader} {buf : Bytes}
    (hlen : buf.length < 2 ^ 31) (h : parseChunkHead prevHeaders buf = none) :
    buf.length < 18 := by
  unfold parseChunkHead at h
  cases hbh : parseBasicHeader buf with
  | none => have := parseBasicHeader_none hbh; omega
  | some bh =>
    obtain ⟨-, h3, -⟩ := parseBasicHeader_some hbh
    have hsize := bh.fmt.kMsgHeaderSize_le
    simp only [hbh, asInt_of_lt hlen] at h
    generalize hext : extTsLen _ _ _ = extLen at h
    have hext4 : extLen ≤ 4 := hext ▸ extTsLen_le _ _ _
    split at h
    · omega
    split at h
    · omega
    split at h <;> cases h

/-- The header read for a chunk stream keeps lengths below 2^24. -/
theorem parseChunkHead_msgLen_lt {prevHeaders : Nat → RtmpMsgHeader} {buf : Bytes}
    {head : ChunkHead} (hprev : ∀ csid, (prevHeaders csid).msgLen.toNat < 2 ^ 24)
    (h : parseChunkHead prevHeaders buf = some head) : head.header.msgLen.toNat < 2 ^ 24 := by
  obtain ⟨bh, header, extLen, -, rfl, -, -, -, -, -, hmsgLen⟩ := parseChunkHead_parts h
  rw [hmsgLen]
  exact readMessageHeader_msgLen_lt (hprev bh.csid) bh _

/-! ## Chunk data -/

/-- The parser: the last header and the message in progress of every chunk
stream, and the size its peer cuts chunks with. -/
@[ext] structure RtmpChunkParse where
  prevHeaders : Nat → RtmpMsgHeader := fun _ => {}
  inProgress : Nat → Option RtmpMessage := fun _ => none
  inChunkSize : Int := kDefaultChunkSize

/-- What the message callback leaves in the chunk size when it is given a
message. It cannot reach any other part of the parser. -/
abbrev MessageCallback := RtmpMessage → Int → Int

namespace RtmpChunkParse

/-- The message the chunk belongs to, as it stands before the chunk's data: a
new one if the last is complete or the chunk is a format 0 chunk, otherwise the
one in progress with the fields the chunk changes. -/
def openMessage (st : RtmpChunkParse) (header : RtmpMsgHeader) : RtmpMessage :=
  let msg := (st.inProgress header.csid).getD {}
  if header.fmt = .fmt0 ∨ msg.isComplete then { header := header, payload := [] }
  else
    let h := { msg.header with timestamp := header.timestamp, fmt := header.fmt }
    if header.fmt = .fmt1 then
      { msg with header := { h with msgLen := header.msgLen, msgType := header.msgType } }
    else { msg with header := h }

/-- A chunk that starts a message. -/
theorem openMessage_start {st : RtmpChunkParse} {header : RtmpMsgHeader}
    (h : header.fmt = .fmt0 ∨ ((st.inProgress header.csid).getD {}).isComplete = true) :
    st.openMessage header = { header := header, payload := [] } := by
  unfold openMessage
  exact if_pos h

/-- A chunk that continues a message in a format other than 1. -/
theorem openMessage_continue {st : RtmpChunkParse} {header : RtmpMsgHeader} {msg : RtmpMessage}
    (hm : st.inProgress header.csid = some msg) (hc : msg.isComplete = false)
    (h0 : header.fmt ≠ .fmt0) (h1 : header.fmt ≠ .fmt1) :
    st.openMessage header =
      { msg with header :=
        { msg.header with timestamp := header.timestamp, fmt := header.fmt } } := by
  simp [openMessage, hm, hc, h0, h1]

/-- A format 1 chunk that continues a message gives it a new length and type. -/
theorem openMessage_continue_fmt1 {st : RtmpChunkParse} {header : RtmpMsgHeader}
    {msg : RtmpMessage} (hm : st.inProgress header.csid = some msg)
    (hc : msg.isComplete = false) (h1 : header.fmt = .fmt1) :
    st.openMessage header =
      { msg with header :=
        { msg.header with
          timestamp := header.timestamp
          fmt := header.fmt
          msgLen := header.msgLen
          msgType := header.msgType } } := by
  simp [openMessage, hm, hc, h1]

/-- `msg_len - payload.size()` in 32 bits. -/
def remaining (msg : RtmpMessage) : UInt32 :=
  msg.header.msgLen - UInt32.ofNat msg.payload.length

/-- The number of data bytes of the chunk. -/
def dataSize (st : RtmpChunkParse) (msg : RtmpMessage) : Int :=
  min (asInt (remaining msg).toNat) st.inChunkSize

def setInProgress (st : RtmpChunkParse) (csid : Nat) (msg : RtmpMessage) : RtmpChunkParse :=
  { st with inProgress := Function.update st.inProgress csid (some msg) }

def setPrev (st : RtmpChunkParse) (csid : Nat) (header : RtmpMsgHeader) : RtmpChunkParse :=
  { st with prevHeaders := Function.update st.prevHeaders csid header }

/-- Steps 7 to 9 of `parseOneChunk`: the data is appended to the message, the
header is kept for the next chunk, and a complete message is delivered. -/
def finishChunk (cb : MessageCallback) (st : RtmpChunkParse) (header : RtmpMsgHeader)
    (msg : RtmpMessage) (data : Bytes) : RtmpChunkParse × List RtmpMessage :=
  let msg := { msg with payload := msg.payload ++ data }
  let st := st.setPrev header.csid header
  if msg.isComplete then
    ({ st.setInProgress header.csid {} with inChunkSize := cb msg st.inChunkSize }, [msg])
  else (st.setInProgress header.csid msg, [])

/-- The last chunk of a message delivers it. -/
theorem finishChunk_complete {cb : MessageCallback} {st : RtmpChunkParse}
    {header : RtmpMsgHeader} {msg : RtmpMessage} {data : Bytes}
    (h : ({ msg with payload := msg.payload ++ data } : RtmpMessage).isComplete = true) :
    st.finishChunk cb header msg data =
      ({ (st.setPrev header.csid header).setInProgress header.csid {} with
          inChunkSize := cb { msg with payload := msg.payload ++ data } st.inChunkSize },
        [{ msg with payload := msg.payload ++ data }]) := by
  simp only [finishChunk, h, if_true]
  rfl

/-- Any other chunk only adds to it. -/
theorem finishChunk_incomplete {cb : MessageCallback} {st : RtmpChunkParse}
    {header : RtmpMsgHeader} {msg : RtmpMessage} {data : Bytes}
    (h : ({ msg with payload := msg.payload ++ data } : RtmpMessage).isComplete = false) :
    st.finishChunk cb header msg data =
      ((st.setPrev header.csid header).setInProgress header.csid
          { msg with payload := msg.payload ++ data }, []) := by
  simp only [finishChunk, h, Bool.false_eq_true, if_false]

/-- One chunk. The message in progress is already changed when the data turns
out to be incomplete. -/
def parseOneChunk (cb : MessageCallback) (st : RtmpChunkParse) (buf : Bytes) :
    Attempt RtmpChunkParse RtmpMessage :=
  match parseChunkHead st.prevHeaders buf with
  | none => .wait st
  | some ⟨header, totalHeaderLen⟩ =>
    let msg := st.openMessage header
    let size := st.dataSize msg
    let st := st.setInProgress header.csid msg
    if asInt buf.length < totalHeaderLen + size then .wait st
    else if size < 0 then .abort st
    else
      let data := (buf.drop totalHeaderLen).take size.toNat
      let (st, out) := st.finishChunk cb header msg data
      .item st (totalHeaderLen + size.toNat) out

/-! ### The outcomes of one attempt -/

/-- The message in progress is overwritten when the chunk is finished. -/
theorem finishChunk_setInProgress (cb : MessageCallback) (st : RtmpChunkParse)
    (header : RtmpMsgHeader) (msg msg' : RtmpMessage) (data : Bytes) :
    (st.setInProgress header.csid msg').finishChunk cb header msg data =
      st.finishChunk cb header msg data := by
  simp [finishChunk, setInProgress, setPrev]

/-- What `parseOneChunk` can do, with what it found out on the way. -/
inductive Outcome (cb : MessageCallback) (st : RtmpChunkParse) (buf : Bytes) :
    Attempt RtmpChunkParse RtmpMessage → Prop where
  /-- The header is incomplete. -/
  | headless (h : parseChunkHead st.prevHeaders buf = none) : Outcome cb st buf (.wait st)
  /-- The data is incomplete. -/
  | short (head : ChunkHead) (h : parseChunkHead st.prevHeaders buf = some head)
      (hs : asInt buf.length <
        head.totalHeaderLen + st.dataSize (st.openMessage head.header)) :
      Outcome cb st buf
        (.wait (st.setInProgress head.header.csid (st.openMessage head.header)))
  /-- The data has a negative length. -/
  | negative (head : ChunkHead) (h : parseChunkHead st.prevHeaders buf = some head)
      (hs : head.totalHeaderLen + st.dataSize (st.openMessage head.header) ≤ asInt buf.length)
      (hneg : st.dataSize (st.openMessage head.header) < 0) :
      Outcome cb st buf
        (.abort (st.setInProgress head.header.csid (st.openMessage head.header)))
  /-- The chunk is complete. -/
  | data (head : ChunkHead) (size : Nat) (h : parseChunkHead st.prevHeaders buf = some head)
      (hsize : st.dataSize (st.openMessage head.header) = size)
      (hs : (head.totalHeaderLen + size : Nat) ≤ asInt buf.length)
      (out : RtmpChunkParse × List RtmpMessage)
      (hout : out = st.finishChunk cb head.header (st.openMessage head.header)
        ((buf.drop head.totalHeaderLen).take size)) :
      Outcome cb st buf (.item out.1 (head.totalHeaderLen + size) out.2)

theorem parseOneChunk_outcome (cb : MessageCallback) (st : RtmpChunkParse) (buf : Bytes) :
    Outcome cb st buf (st.parseOneChunk cb buf) := by
  unfold parseOneChunk
  cases h : parseChunkHead st.prevHeaders buf with
  | none => exact .headless h
  | some head =>
    simp only
    split
    · rename_i hs; exact .short head h hs
    rename_i hs
    split
    · rename_i hneg; exact .negative head h (by omega) hneg
    rename_i hneg
    rw [finishChunk_setInProgress]
    exact .data head _ h (by omega) (by omega) _ rfl

/-- A complete chunk, recognised by its header and the size of its data. -/
theorem parseOneChunk_data {cb : MessageCallback} {st : RtmpChunkParse} {buf : Bytes}
    {head : ChunkHead} {size : Nat} (h : parseChunkHead st.prevHeaders buf = some head)
    (hsize : st.dataSize (st.openMessage head.header) = size)
    (hs : (head.totalHeaderLen + size : Nat) ≤ asInt buf.length) :
    st.parseOneChunk cb buf =
      .item (st.finishChunk cb head.header (st.openMessage head.header)
          ((buf.drop head.totalHeaderLen).take size)).1 (head.totalHeaderLen + size)
        (st.finishChunk cb head.header (st.openMessage head.header)
          ((buf.drop head.totalHeaderLen).take size)).2 := by
  have hs' : ¬ asInt buf.length < head.totalHeaderLen + (size : Int) := by push_cast at hs; omega
  simp [parseOneChunk, h, hsize, hs', finishChunk_setInProgress]

/-- A negative data size, recognised in the same way. -/
theorem parseOneChunk_negative {cb : MessageCallback} {st : RtmpChunkParse} {buf : Bytes}
    {head : ChunkHead} (h : parseChunkHead st.prevHeaders buf = some head)
    (hs : head.totalHeaderLen + st.dataSize (st.openMessage head.header) ≤ asInt buf.length)
    (hneg : st.dataSize (st.openMessage head.header) < 0) :
    st.parseOneChunk cb buf =
      .abort (st.setInProgress head.header.csid (st.openMessage head.header)) := by
  simp [parseOneChunk, h, hneg, Int.not_lt.mpr hs]

/-! ### Well-formed parsers -/

/-- The lengths a parser keeps: those of headers have 24 bits, and no message in
progress has outgrown them. -/
structure WellFormed (st : RtmpChunkParse) : Prop where
  prev_lt (csid : Nat) : (st.prevHeaders csid).msgLen.toNat < 2 ^ 24
  msgLen_lt {csid : Nat} {msg : RtmpMessage} :
    st.inProgress csid = some msg → msg.header.msgLen.toNat < 2 ^ 24
  payload_lt {csid : Nat} {msg : RtmpMessage} :
    st.inProgress csid = some msg → msg.payload.length < 2 ^ 24

theorem wellFormed_init : WellFormed {} where
  prev_lt _ := by show (0 : UInt32).toNat < 2 ^ 24; decide
  msgLen_lt h := by cases h
  payload_lt h := by cases h

namespace WellFormed

variable {st : RtmpChunkParse}

theorem setInProgress (hw : st.WellFormed) {csid : Nat} {msg : RtmpMessage}
    (hlen : msg.header.msgLen.toNat < 2 ^ 24) (hp : msg.payload.length < 2 ^ 24) :
    (st.setInProgress csid msg).WellFormed where
  prev_lt := hw.prev_lt
  msgLen_lt {c m} h := by
    by_cases hc : c = csid
    · subst hc
      simp only [RtmpChunkParse.setInProgress, Function.update_self, Option.some.injEq] at h
      exact h ▸ hlen
    · simp only [RtmpChunkParse.setInProgress, Function.update_of_ne hc] at h
      exact hw.msgLen_lt h
  payload_lt {c m} h := by
    by_cases hc : c = csid
    · subst hc
      simp only [RtmpChunkParse.setInProgress, Function.update_self, Option.some.injEq] at h
      exact h ▸ hp
    · simp only [RtmpChunkParse.setInProgress, Function.update_of_ne hc] at h
      exact hw.payload_lt h

theorem setPrev (hw : st.WellFormed) {csid : Nat} {header : RtmpMsgHeader}
    (hlen : header.msgLen.toNat < 2 ^ 24) : (st.setPrev csid header).WellFormed where
  prev_lt c := by
    by_cases hc : c = csid
    · subst hc; simpa [RtmpChunkParse.setPrev] using hlen
    · simpa [RtmpChunkParse.setPrev, Function.update_of_ne hc] using hw.prev_lt c
  msgLen_lt := hw.msgLen_lt
  payload_lt := hw.payload_lt

/-- The message a chunk is added to, whatever the chunk's header. -/
theorem openMessage (hw : st.WellFormed) {header : RtmpMsgHeader}
    (hlen : header.msgLen.toNat < 2 ^ 24) :
    (st.openMessage header).header.msgLen.toNat < 2 ^ 24 ∧
      (st.openMessage header).payload.length < 2 ^ 24 := by
  have hold : ((st.inProgress header.csid).getD {}).header.msgLen.toNat < 2 ^ 24 ∧
      ((st.inProgress header.csid).getD {}).payload.length < 2 ^ 24 := by
    cases h : st.inProgress header.csid with
    | none => exact ⟨by decide, by decide⟩
    | some msg => exact ⟨hw.msgLen_lt h, hw.payload_lt h⟩
  unfold RtmpChunkParse.openMessage
  simp only
  split
  · exact ⟨hlen, Nat.two_pow_pos 24⟩
  · split
    · exact ⟨hlen, hold.2⟩
    · exact hold

end WellFormed

/-- While both lengths have 24 bits the subtraction is that of integers, read as
an `int`. -/
theorem asInt_remaining {msg : RtmpMessage} (hlen : msg.header.msgLen.toNat < 2 ^ 24)
    (hp : msg.payload.length < 2 ^ 24) :
    asInt (remaining msg).toNat = (msg.header.msgLen.toNat : Int) - msg.payload.length := by
  unfold remaining asInt
  rw [UInt32.toNat_sub, UInt32.toNat_ofNat', Nat.mod_eq_of_lt (show msg.payload.length < 2 ^ 32 by omega),
    Int.bmod_def]
  omega

/-- The data of a chunk is what remains of its message, up to the chunk size. -/
theorem dataSize_eq (st : RtmpChunkParse) {msg : RtmpMessage}
    (hlen : msg.header.msgLen.toNat < 2 ^ 24) (hp : msg.payload.length < 2 ^ 24) :
    st.dataSize msg = min ((msg.header.msgLen.toNat : Int) - msg.payload.length) st.inChunkSize := by
  rw [dataSize, asInt_remaining hlen hp]

theorem dataSize_fresh (st : RtmpChunkParse) {header : RtmpMsgHeader}
    (hlen : header.msgLen.toNat < 2 ^ 24) :
    st.dataSize { header := header, payload := [] } =
      min (header.msgLen.toNat : Int) st.inChunkSize := by
  rw [← Int.sub_zero (header.msgLen.toNat : Int)]
  exact dataSize_eq st hlen (Nat.two_pow_pos 24)

/-- A chunk whose data is incomplete belongs to a message that is. -/
theorem WellFormed.not_isComplete_of_dataSize_pos {st : RtmpChunkParse} (hw : st.WellFormed)
    {header : RtmpMsgHeader} (hlen : header.msgLen.toNat < 2 ^ 24)
    (h : 0 < st.dataSize (st.openMessage header)) :
    (st.openMessage header).isComplete = false := by
  obtain ⟨hml, hpl⟩ := hw.openMessage hlen
  rw [dataSize_eq st hml hpl] at h
  simp only [RtmpMessage.isComplete, decide_eq_false_iff_not]
  omega

/-- The part of the data that is in the chunk does not outgrow the message. -/
theorem WellFormed.finishChunk {cb : MessageCallback} {st : RtmpChunkParse} (hw : st.WellFormed)
    {header : RtmpMsgHeader} (hlen : header.msgLen.toNat < 2 ^ 24) (data : Bytes) :
    (st.finishChunk cb header (st.openMessage header) data).1.WellFormed := by
  obtain ⟨hml, -⟩ := hw.openMessage hlen
  unfold RtmpChunkParse.finishChunk
  simp only
  split
  · have h : ((st.setPrev header.csid header).setInProgress header.csid {}).WellFormed :=
      (hw.setPrev hlen).setInProgress (Nat.two_pow_pos 24) (Nat.two_pow_pos 24)
    exact ⟨h.prev_lt, h.msgLen_lt, h.payload_lt⟩
  · rename_i hcomplete
    simp only [RtmpMessage.isComplete_iff, Nat.not_le] at hcomplete
    exact (hw.setPrev hlen).setInProgress hml (by simp only; omega)

/-- `Parse`: as many chunks as the buffer holds. -/
def parse (cb : MessageCallback) (st : RtmpChunkParse) (buf : Bytes) :
    Config RtmpChunkParse UInt8 RtmpMessage :=
  drain (parseOneChunk cb) st buf

/-- A fresh parser and an empty buffer: the segments are appended one after
another and `Parse` is called after each. -/
def receive (cb : MessageCallback) (segs : List Bytes) :
    Config RtmpChunkParse UInt8 RtmpMessage :=
  feedAll (parseOneChunk cb) { state := {} } segs

end RtmpChunkParse

/-! ## The callback of the context -/

/-- `RtmpContext::handleSetChunkSize`, as a function of the chunk size it may
replace. -/
def handleSetChunkSize (msg : RtmpMessage) (inChunkSize : Int) : Int :=
  if msg.payload.length < 4 then inChunkSize
  else
    let newSize := readUint32BE msg.payload &&& 0x7FFFFFFF
    if newSize = 0 ∨ newSize > kMaxChunkSize then inChunkSize
    else newSize.toNat

/-- A chunk size that a peer can set. -/
def ChunkSizeInRange (n : Int) : Prop := 1 ≤ n ∧ n ≤ 65535

theorem handleSetChunkSize_range {n : Int} (h : ChunkSizeInRange n) (msg : RtmpMessage) :
    ChunkSizeInRange (handleSetChunkSize msg n) := by
  unfold handleSetChunkSize
  split
  · exact h
  · simp only
    split
    · exact h
    · rename_i hbad
      simp only [not_or, gt_iff_lt, UInt32.not_lt] at hbad
      obtain ⟨hzero, hmax⟩ := hbad
      have hpos : (readUint32BE msg.payload &&& 0x7FFFFFFF).toNat ≠ 0 := fun h0 =>
        hzero (UInt32.toNat_inj.mp h0)
      have hle := UInt32.le_iff_toNat_le.mp hmax
      simp only [kMaxChunkSize, UInt32.reduceToNat] at hle
      constructor <;> omega

/-- The part of `RtmpContext::handleMessage` that reaches the parser: only a
SetChunkSize message does. -/
def chunkSizeCallback : MessageCallback := fun msg inChunkSize =>
  if msg.header.msgType = kMsgTypeSetChunkSize then handleSetChunkSize msg inChunkSize
  else inChunkSize

theorem chunkSizeCallback_range (msg : RtmpMessage) (n : Int) (h : ChunkSizeInRange n) :
    ChunkSizeInRange (chunkSizeCallback msg n) := by
  unfold chunkSizeCallback
  split
  · exact handleSetChunkSize_range h msg
  · exact h

theorem kDefaultChunkSize_range : ChunkSizeInRange kDefaultChunkSize := by
  simp [ChunkSizeInRange, kDefaultChunkSize]
