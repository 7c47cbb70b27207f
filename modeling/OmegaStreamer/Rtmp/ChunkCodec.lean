-- SUMMARY: The parser recognises chunks: whatever bytes it is given, it consumes the encodings of chunks that it expects.
import OmegaStreamer.Lib.Codec
import OmegaStreamer.Rtmp.ChunkFormat
import OmegaStreamer.Rtmp.Segmentation

/-!
# Chunk recognition

The other direction of `ChunkFormat`: the bytes that `parseOneChunk` consumes are those of
a chunk that is expected where it comes, with an extended timestamp exactly when the parser
looks for one and with as much data as it looks for. So the bytes of any peer, however they
arrive, are chunks and a rest that is the beginning of none.
-/

open Resumable BytesReader

/-! ## Fields -/

theorem exists_field24 {p : Bytes} (h : 3 ≤ p.length) :
    ∃ (n : UInt24) (rest : Bytes), p = Endian.toBE 3 n ++ rest := by
  obtain ⟨n, hlt, rest, hp⟩ := Endian.exists_toBE h
  exact ⟨⟨n, hlt⟩, rest, hp⟩

theorem exists_field32 {p : Bytes} (h : 4 ≤ p.length) :
    ∃ (n : UInt32) (rest : Bytes), p = Endian.toBE 4 n.toNat ++ rest := by
  obtain ⟨n, hlt, rest, hp⟩ := Endian.exists_toBE h
  refine ⟨UInt32.ofNat n, rest, ?_⟩
  have hback : n % 2 ^ 32 = n := Nat.mod_eq_of_lt hlt
  rw [UInt32.toNat_ofNat', hback]
  exact hp

theorem exists_field32LE {p : Bytes} (h : 4 ≤ p.length) :
    ∃ (n : UInt32) (rest : Bytes), p = Endian.toLE 4 n.toNat ++ rest := by
  obtain ⟨n, hlt, rest, hp⟩ := Endian.exists_toLE h
  have hback : n % 2 ^ 32 = n := Nat.mod_eq_of_lt hlt
  refine ⟨UInt32.ofNat n, rest, ?_⟩
  rw [UInt32.toNat_ofNat', hback]
  exact hp

/-! ## Headers -/

/-- A byte is made of its format and its low six bits. -/
theorem first_byte_parts (b : UInt8) :
    (ChunkFmt.ofByte b).toUInt8 <<< 6 ||| UInt8.ofNat (b &&& 0x3F).toNat = b := by
  have hall : ∀ n : Fin 256, (ChunkFmt.ofByte (UInt8.ofFin n)).toUInt8 <<< 6 |||
      UInt8.ofNat (UInt8.ofFin n &&& 0x3F).toNat = UInt8.ofFin n := by
    decide +kernel
  exact hall b.toFin

theorem exists_id_of_parseBasicHeader {buf : Bytes} {bh : BasicHeader}
    (h : parseBasicHeader buf = some bh) :
    ∃ (id : ChunkStreamId) (rest : Bytes), buf = id.encode bh.fmt ++ rest := by
  cases buf with
  | nil => cases h
  | cons b buf =>
    have hparts := first_byte_parts b
    have hlow : (b &&& 0x3F).toNat < 64 := by
      rw [UInt8.toNat_and]
      exact Nat.and_lt_two_pow _ (n := 6) (by decide)
    unfold parseBasicHeader at h
    rw [Bytes.at_cons_zero, List.length_cons, if_neg (by omega)] at h
    simp only at h
    by_cases hzero : (b &&& 0x3F).toNat = 0
    · rw [if_pos hzero] at h
      cases buf with
      | nil => cases h
      | cons b₁ buf =>
        rw [List.length_cons, if_neg (by omega), Bytes.at_cons_succ, Bytes.at_cons_zero] at h
        cases h
        have hb₁ := b₁.toNat_lt
        refine ⟨⟨b₁.toNat + 64, .two, by constructor <;> omega⟩, buf, ?_⟩
        rw [hzero, show UInt8.ofNat 0 = 0 from rfl, UInt8.or_zero] at hparts
        simp [ChunkStreamId.encode, hparts]
    rw [if_neg hzero] at h
    by_cases hone : (b &&& 0x3F).toNat = 1
    · rw [if_pos hone] at h
      rcases buf with - | ⟨b₁, - | ⟨b₂, buf⟩⟩
      · cases h
      · cases h
      · rw [List.length_cons, List.length_cons, if_neg (by omega)] at h
        cases h
        have hb₁ := b₁.toNat_lt
        have hb₂ := b₂.toNat_lt
        refine ⟨⟨b₂.toNat * 256 + b₁.toNat + 64, .three, by constructor <;> omega⟩, buf, ?_⟩
        have hdigits : (b₂.toNat * 256 + b₁.toNat) % 256 = b₁.toNat ∧
            (b₂.toNat * 256 + b₁.toNat) / 256 = b₂.toNat := by omega
        rw [hone, show UInt8.ofNat 1 = 1 from rfl] at hparts
        simp [ChunkStreamId.encode, hdigits, hparts]
    · rw [if_neg hone] at h
      cases h
      refine ⟨⟨(b &&& 0x3F).toNat, .one, by constructor <;> omega⟩, buf, ?_⟩
      simp only [ChunkStreamId.encode, hparts, List.singleton_append]

theorem exists_msgHeader (fmt : ChunkFmt) {p : Bytes} (h : fmt.kMsgHeaderSize ≤ p.length) :
    ∃ (header : ChunkMsgHeader) (rest : Bytes), header.fmt = fmt ∧ p = header.encode ++ rest := by
  cases fmt with
  | fmt0 =>
    simp only [ChunkFmt.kMsgHeaderSize] at h
    obtain ⟨timestamp, p, rfl⟩ := exists_field24 (p := p) (by omega)
    simp only [List.length_append, Endian.length_toBE] at h
    obtain ⟨msgLen, p, rfl⟩ := exists_field24 (p := p) (by omega)
    simp only [List.length_append, Endian.length_toBE] at h
    rcases p with - | ⟨msgType, p⟩
    · simp only [List.length_nil] at h
      omega
    rw [List.length_cons] at h
    obtain ⟨msgStreamId, rest, rfl⟩ := exists_field32LE (p := p) (by omega)
    refine ⟨.fmt0 timestamp msgLen msgType msgStreamId, rest, rfl, ?_⟩
    simp [ChunkMsgHeader.encode]
  | fmt1 =>
    simp only [ChunkFmt.kMsgHeaderSize] at h
    obtain ⟨delta, p, rfl⟩ := exists_field24 (p := p) (by omega)
    simp only [List.length_append, Endian.length_toBE] at h
    obtain ⟨msgLen, p, rfl⟩ := exists_field24 (p := p) (by omega)
    simp only [List.length_append, Endian.length_toBE] at h
    rcases p with - | ⟨msgType, rest⟩
    · simp only [List.length_nil] at h
      omega
    refine ⟨.fmt1 delta msgLen msgType, rest, rfl, ?_⟩
    simp [ChunkMsgHeader.encode]
  | fmt2 =>
    obtain ⟨delta, rest, rfl⟩ := exists_field24 h
    exact ⟨.fmt2 delta, rest, rfl, rfl⟩
  | fmt3 => exact ⟨.fmt3, p, rfl, rfl⟩

namespace Chunk

/-- A complete header is that of a chunk whose extended timestamp is there exactly when it is
expected. -/
theorem exists_of_parseChunkHead {prevHeaders : Nat → RtmpMsgHeader} {buf : Bytes}
    {head : ChunkHead} (hlen : buf.length < 2 ^ 31)
    (h : parseChunkHead prevHeaders buf = some head) :
    ∃ (c : Chunk) (rest : Bytes), buf = c.encodeHead ++ rest ∧
      c.header.expectsExt (prevHeaders c.id.csid) = c.extTs.isSome ∧
      head = ⟨c.after (prevHeaders c.id.csid), c.encodeHead.length⟩ := by
  obtain ⟨bh, -, extLen, hbh, -, -, htotal, hfit, -⟩ := parseChunkHead_parts h
  rw [asInt_of_lt hlen] at hfit
  obtain ⟨id, rest, hid⟩ := exists_id_of_parseBasicHeader hbh
  obtain ⟨fmt, csid, headerLen⟩ := bh
  simp only at hid htotal
  have hback := id.parseBasicHeader_encode fmt rest
  rw [← hid, hbh, Option.some.injEq, BasicHeader.mk.injEq] at hback
  obtain ⟨-, rfl, rfl⟩ := hback
  have hmsg : fmt.kMsgHeaderSize ≤ rest.length := by
    rw [hid, List.length_append] at hfit
    omega
  obtain ⟨header, rest, rfl, rfl⟩ := exists_msgHeader fmt hmsg
  -- the header is complete, so an expected extended timestamp is there
  have hext : ∃ (extTs : Option UInt32) (rest' : Bytes), rest = encodeExt extTs ++ rest' ∧
      header.expectsExt (prevHeaders id.csid) = extTs.isSome := by
    cases hexpects : header.expectsExt (prevHeaders id.csid) with
    | false => exact ⟨none, rest, rfl, rfl⟩
    | true =>
      have hfour : 4 ≤ rest.length := by
        have hdrop : (id.encode header.fmt ++ (header.encode ++ rest)).drop
            (id.encode header.fmt).length = header.encode ++ rest := List.drop_left
        rw [hid] at h hlen
        simp only [parseChunkHead, id.parseBasicHeader_encode, hdrop, asInt_of_lt hlen,
          ChunkMsgHeader.readMessageHeader_encode header _ ⟨header.fmt, id.csid, _⟩ rfl,
          ChunkMsgHeader.extTsLen_encode, hexpects, if_true] at h
        split at h
        · cases h
        split at h
        · cases h
        rename_i hfit
        simp only [List.length_append, ChunkMsgHeader.length_encode] at hfit
        omega
      obtain ⟨t, rest', rfl⟩ := exists_field32 hfour
      exact ⟨some t, rest', rfl, rfl⟩
  obtain ⟨extTs, rest', rfl, hexpects⟩ := hext
  have hbuf : buf = (Chunk.mk id header extTs []).encodeHead ++ rest' := by
    rw [hid, encodeHead, List.append_assoc, List.append_assoc]
  refine ⟨⟨id, header, extTs, []⟩, rest', hbuf, hexpects, ?_⟩
  have hparsed := parseChunkHead_encode (c := ⟨id, header, extTs, []⟩) hexpects (hbuf ▸ hlen)
  rw [← hbuf, h] at hparsed
  exact Option.some.inj hparsed

theorem after_msgLen_lt (c : Chunk) {prev : RtmpMsgHeader}
    (h : prev.msgLen.toNat < 2 ^ 24) : (c.after prev).msgLen.toNat < 2 ^ 24 := by
  have hafter : (c.after prev).msgLen = (c.header.after c.id.csid prev).msgLen := by
    unfold after
    cases c.extTs with
    | none => rfl
    | some t => rfl
  rw [hafter]
  cases c.header with
  | fmt0 timestamp msgLen msgType msgStreamId =>
    exact (UInt24.toNat_toUInt32 msgLen).trans_lt msgLen.isLt
  | fmt1 delta msgLen msgType => exact (UInt24.toNat_toUInt32 msgLen).trans_lt msgLen.isLt
  | fmt2 delta => exact h
  | fmt3 => exact h

end Chunk

/-! ## Reading is unambiguous -/

theorem field24_inj {n m : UInt24} {rest rest' : Bytes}
    (h : Endian.toBE 3 n ++ rest = Endian.toBE 3 m ++ rest') : n = m ∧ rest = rest' := by
  obtain ⟨hfield, hrest⟩ := Endian.toBE_append_inj n.isLt m.isLt h
  exact ⟨Fin.ext hfield, hrest⟩

theorem field32_inj {n m : UInt32} {rest rest' : Bytes}
    (h : Endian.toBE 4 n.toNat ++ rest = Endian.toBE 4 m.toNat ++ rest') :
    n = m ∧ rest = rest' := by
  obtain ⟨hfield, hrest⟩ := Endian.toBE_append_inj n.toNat_lt m.toNat_lt h
  exact ⟨UInt32.toNat_inj.mp hfield, hrest⟩

theorem field32LE_inj {n m : UInt32} {rest rest' : Bytes}
    (h : Endian.toLE 4 n.toNat ++ rest = Endian.toLE 4 m.toNat ++ rest') :
    n = m ∧ rest = rest' := by
  obtain ⟨hfield, hrest⟩ := Endian.toLE_append_inj n.toNat_lt m.toNat_lt h
  exact ⟨UInt32.toNat_inj.mp hfield, hrest⟩

/-- The form of a basic header is told from its length. -/
theorem ChunkStreamId.encode_inj {fmt fmt' : ChunkFmt} {id id' : ChunkStreamId}
    {rest rest' : Bytes} (h : id.encode fmt ++ rest = id'.encode fmt' ++ rest') :
    fmt = fmt' ∧ id = id' ∧ rest = rest' := by
  have hread := id.parseBasicHeader_encode fmt rest
  rw [h, parseBasicHeader_encode, Option.some.injEq, BasicHeader.mk.injEq] at hread
  obtain ⟨rfl, hcsid, hlength⟩ := hread
  refine ⟨rfl, ?_, (List.append_inj h hlength.symm).2⟩
  obtain ⟨csid, form, holds⟩ := id
  obtain ⟨csid', form', holds'⟩ := id'
  obtain rfl : csid' = csid := hcsid
  cases form <;> cases form' <;> first | rfl | cases hlength

theorem ChunkMsgHeader.encode_inj {header header' : ChunkMsgHeader} {rest rest' : Bytes}
    (hfmt : header.fmt = header'.fmt) (h : header.encode ++ rest = header'.encode ++ rest') :
    header = header' ∧ rest = rest' := by
  cases header with
  | fmt0 timestamp msgLen msgType msgStreamId =>
    cases header' with
    | fmt0 timestamp' msgLen' msgType' msgStreamId' =>
      simp only [encode, List.append_assoc, List.cons_append, List.nil_append] at h
      obtain ⟨rfl, h₁⟩ := field24_inj h
      obtain ⟨rfl, h₂⟩ := field24_inj h₁
      obtain ⟨rfl, h₃⟩ := List.cons_eq_cons.mp h₂
      obtain ⟨rfl, rfl⟩ := field32LE_inj h₃
      exact ⟨rfl, rfl⟩
    | fmt1 => cases hfmt
    | fmt2 => cases hfmt
    | fmt3 => cases hfmt
  | fmt1 delta msgLen msgType =>
    cases header' with
    | fmt1 delta' msgLen' msgType' =>
      simp only [encode, List.append_assoc, List.cons_append, List.nil_append] at h
      obtain ⟨rfl, h₁⟩ := field24_inj h
      obtain ⟨rfl, h₂⟩ := field24_inj h₁
      obtain ⟨rfl, rfl⟩ := List.cons_eq_cons.mp h₂
      exact ⟨rfl, rfl⟩
    | fmt0 => cases hfmt
    | fmt2 => cases hfmt
    | fmt3 => cases hfmt
  | fmt2 delta =>
    cases header' with
    | fmt2 delta' =>
      obtain ⟨rfl, rfl⟩ := field24_inj h
      exact ⟨rfl, rfl⟩
    | fmt0 => cases hfmt
    | fmt1 => cases hfmt
    | fmt3 => cases hfmt
  | fmt3 =>
    cases header' with
    | fmt3 => exact ⟨rfl, h⟩
    | fmt0 => cases hfmt
    | fmt1 => cases hfmt
    | fmt2 => cases hfmt

/-- Whether an extended timestamp is there is told from what comes before it. -/
theorem Chunk.encode_inj {c c' : Chunk} {prevHeaders : Nat → RtmpMsgHeader}
    (hext : c.header.expectsExt (prevHeaders c.id.csid) = c.extTs.isSome)
    (hext' : c'.header.expectsExt (prevHeaders c'.id.csid) = c'.extTs.isSome)
    (h : c.encode = c'.encode) : c = c' := by
  obtain ⟨id, header, extTs, data⟩ := c
  obtain ⟨id', header', extTs', data'⟩ := c'
  simp only [encode, encodeHead, List.append_assoc] at h
  obtain ⟨hfmt, rfl, hrest⟩ := ChunkStreamId.encode_inj h
  obtain ⟨rfl, htail⟩ := ChunkMsgHeader.encode_inj hfmt hrest
  simp only at hext hext'
  rw [hext] at hext'
  cases extTs with
  | none =>
    cases extTs' with
    | none =>
      obtain rfl : data = data' := htail
      rfl
    | some t' => cases hext'
  | some t =>
    cases extTs' with
    | none => cases hext'
    | some t' =>
      obtain ⟨rfl, rfl⟩ := field32_inj htail
      rfl

namespace RtmpChunkParse

/-! ## The codec -/

/-- A chunk may come when it has an extended timestamp exactly if the parser looks for one,
and as much data as the parser looks for. -/
def Expects (st : RtmpChunkParse) (c : Chunk) : Prop :=
  c.header.expectsExt (st.prevHeaders c.id.csid) = c.extTs.isSome ∧
    st.dataSize (st.openMessage (c.after (st.prevHeaders c.id.csid))) = c.data.length

def chunkCodec (cb : MessageCallback) : Codec RtmpChunkParse Chunk UInt8 RtmpMessage where
  encode := Chunk.encode
  Expects := Expects
  read st c :=
    st.finishChunk cb (c.after (st.prevHeaders c.id.csid))
      (st.openMessage (c.after (st.prevHeaders c.id.csid))) c.data

/-- A chunk leaves the other chunk streams alone. -/
theorem read_other {cb : MessageCallback} {st : RtmpChunkParse} {c : Chunk} {csid : Nat}
    (hne : c.id.csid ≠ csid) :
    ((chunkCodec cb).read st c).1.prevHeaders csid = st.prevHeaders csid ∧
      ((chunkCodec cb).read st c).1.inProgress csid = st.inProgress csid := by
  have hread : (chunkCodec cb).read st c = st.finishChunk cb (c.after (st.prevHeaders c.id.csid))
    (st.openMessage (c.after (st.prevHeaders c.id.csid))) c.data := rfl
  rw [hread]
  unfold finishChunk
  simp only
  split
  · simp [setPrev, setInProgress, Function.update_of_ne hne.symm]
  · simp [setPrev, setInProgress, Function.update_of_ne hne.symm]

theorem parseOneChunk_recognises (cb : MessageCallback) :
    Recognises (parseOneChunk cb) (chunkCodec cb) (2 ^ 31) where
  complete {st c rest} hexpects hlen := by
    have hshort : c.encode.length < 2 ^ 31 := by
      have h : (c.encode ++ rest).length < 2 ^ 31 := hlen
      rw [List.length_append] at h
      omega
    exact parseOneChunk_append hlen (parseOneChunk_encode hexpects.1 hexpects.2 hshort)
  sound {st st' buf n out} hlen h := by
    have ho := parseOneChunk_outcome cb st buf
    rw [h] at ho
    cases ho with
    | data head size hhead hsize hfit out hout =>
      obtain ⟨c, rest, rfl, hext, rfl⟩ := Chunk.exists_of_parseChunkHead hlen hhead
      rw [asInt_of_lt hlen] at hfit
      simp only [List.length_append] at hsize hout hfit
      rw [List.drop_left] at hout
      have htake : (rest.take size).length = size := by
        rw [List.length_take]
        omega
      refine ⟨{ c with data := rest.take size }, ⟨hext, ?_⟩, ?_, hout.symm⟩
      · rw [htake]
        exact hsize
      · exact List.take_length_add_append size
  injective hc hc' h := Chunk.encode_inj hc.1 hc'.1 h

theorem receive_eq_drain (cb : MessageCallback) {segs : List Bytes}
    (hlen : segs.flatten.length < 2 ^ 31) :
    receive cb segs = drain (parseOneChunk cb) {} segs.flatten := by
  have hl : Lawful (parseOneChunk cb) _ (2 ^ 31) :=
    parseOneChunk_lawful (fun _ => True) fun _ _ _ => trivial
  have hone : [segs.flatten].flatten = segs.flatten := List.flatten_singleton
  have hcut : receive cb segs = receive cb [segs.flatten] := by
    refine hl.feedAll_congr (quiet_init cb) (fun _ => ⟨wellFormed_init, trivial⟩) ?_ ?_ hone.symm
    · exact Lawful.fits_of_total hl.progressive (by simpa using hlen)
    · exact Lawful.fits_of_total hl.progressive (by simpa [hone] using hlen)
  rw [hcut, receive, feedAll_cons, feedAll_nil, feed_running rfl, List.nil_append,
    Config.prepend_nil]

/-- The bytes are these chunks, each one expected where it comes, and behind them the beginning
of none. -/
structure Cut (cb : MessageCallback) (bytes : Bytes) (chunks : List Chunk) (rest : Bytes) :
    Prop where
  accepts : (chunkCodec cb).Accepts {} chunks
  eq : bytes = (chunkCodec cb).encodeAll chunks ++ rest
  stuck : (chunkCodec cb).Stuck ((chunkCodec cb).run {} chunks).1 rest

/-- There is only one way to cut. -/
theorem Cut.unique {cb : MessageCallback} {bytes : Bytes} {chunks chunks' : List Chunk}
    {rest rest' : Bytes} (hlen : bytes.length < 2 ^ 31) (h : Cut cb bytes chunks rest)
    (h' : Cut cb bytes chunks' rest') : chunks = chunks' ∧ rest = rest' :=
  (parseOneChunk_recognises cb).unambiguous h.accepts h'.accepts h.stuck h'.stuck
    (h.eq.symm.trans h'.eq) (h.eq ▸ hlen)

/-- What a parser makes of the bytes of a peer, in whatever segments they arrive: the messages
are those of the chunks that the bytes are, and the rest is unread. -/
theorem receive_iff (cb : MessageCallback) {segs : List Bytes}
    (hlen : segs.flatten.length < 2 ^ 31) {msgs : List RtmpMessage} {rest : Bytes} :
    ((receive cb segs).delivered = msgs ∧ (receive cb segs).unread = rest ↔
      ∃ chunks, Cut cb segs.flatten chunks rest ∧ ((chunkCodec cb).run {} chunks).2 = msgs) ∧
    ∀ chunks chunks' rest', Cut cb segs.flatten chunks rest →
      Cut cb segs.flatten chunks' rest' → chunks = chunks' ∧ rest = rest' := by
  refine ⟨?_, fun _ _ _ h h' => h.unique hlen h'⟩
  rw [receive_eq_drain cb hlen,
    (parseOneChunk_recognises cb).drain_iff (parseOneChunk_progressive cb) hlen]
  constructor
  · rintro ⟨chunks, haccepts, hbytes, hmsgs, hstuck⟩
    exact ⟨chunks, ⟨haccepts, hbytes, hstuck⟩, hmsgs⟩
  · rintro ⟨chunks, hcut, hmsgs⟩
    exact ⟨chunks, hcut.accepts, hcut.eq, hmsgs, hcut.stuck⟩

/-- A chunk in two segments, and the first byte of another. -/
theorem receive_iff_two :
    let segs : List Bytes := [[0x04, 0, 0], [0, 0, 0, 1, 8, 1, 0, 0, 0, 0xAF, 0xC4]]
    let msg : RtmpMessage := ⟨⟨4, 0, 1, 8, 1, .fmt0, false⟩, [0xAF]⟩
    ∃ chunks, Cut chunkSizeCallback segs.flatten chunks [0xC4] ∧
      ((chunkCodec chunkSizeCallback).run {} chunks).2 = [msg] ∧
      ∀ chunks' rest', Cut chunkSizeCallback segs.flatten chunks' rest' →
        chunks' = chunks ∧ rest' = [0xC4] := by
  intro segs msg
  obtain ⟨hiff, hunique⟩ :=
    @receive_iff chunkSizeCallback segs (by decide) [msg] [0xC4]
  obtain ⟨chunks, hcut, hmsgs⟩ := hiff.mp ⟨by decide, by decide⟩
  refine ⟨chunks, hcut, hmsgs, fun chunks' rest' hcut' => ?_⟩
  obtain ⟨rfl, rfl⟩ := hunique chunks chunks' rest' hcut hcut'
  exact ⟨rfl, rfl⟩

end RtmpChunkParse
