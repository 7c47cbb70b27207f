-- SUMMARY: Reassembly inverts chunking: the parser delivers the messages a sender sends.
import OmegaStreamer.Rtmp.Segmentation
import OmegaStreamer.Rtmp.Sender

/-!
# Reassembly

A parser that is fed with the bytes of a sender stays in step with it. Per chunk
stream, the header it keeps is that of the sender's last message and the payload
it has is what has been sent of it (`StreamSim`). Each chunk preserves this and
delivers the message that it completes, provided that the parser expects an
extended timestamp in a format 3 chunk exactly when there is one (`Aligned`).
-/

open Resumable BytesReader

/-! ## Messages sent and delivered -/

/-- What a message is, timestamps apart. -/
structure MessageContent where
  csid : Nat
  msgType : UInt8
  msgLen : Nat
  msgStreamId : UInt32
  payload : Bytes
  deriving DecidableEq, Repr

def RtmpMessage.content (msg : RtmpMessage) : MessageContent where
  csid := msg.header.csid
  msgType := msg.header.msgType
  msgLen := msg.header.msgLen.toNat
  msgStreamId := msg.header.msgStreamId
  payload := msg.payload

def SentMessage.content (m : SentMessage) : MessageContent where
  csid := m.csid
  msgType := m.msgType
  msgLen := m.payload.val.length
  msgStreamId := m.msgStreamId
  payload := m.payload.val

/-- The header is that of the message `m`. -/
structure HeaderFor (m : SentMessage) (h : RtmpMsgHeader) : Prop where
  csid : h.csid = m.csid
  timestamp : h.timestamp = m.shown
  msgLen : h.msgLen.toNat = m.payload.val.length
  msgType : h.msgType = m.msgType
  msgStreamId : h.msgStreamId = m.msgStreamId

/-- A delivered message with its timestamp. -/
def RtmpMessage.stamped (msg : RtmpMessage) : MessageContent × UInt32 :=
  (msg.content, msg.header.timestamp)

/-- A sent message with the timestamp that is written for it. -/
def SentMessage.stamped (m : SentMessage) : MessageContent × UInt32 := (m.content, m.shown)

theorem HeaderFor.stamped_eq {m : SentMessage} {msg : RtmpMessage} (h : HeaderFor m msg.header)
    (hp : msg.payload = m.payload.val) : msg.stamped = m.stamped := by
  simp [RtmpMessage.stamped, RtmpMessage.content, SentMessage.stamped, SentMessage.content,
    h.csid, h.timestamp, h.msgLen, h.msgType, h.msgStreamId, hp]

/-! ## The simulation -/

/-- What the parser keeps for a chunk stream fits the sender's state of it. -/
structure StreamSim (csid : Nat) (str : SendStream) (prev : RtmpMsgHeader)
    (prog : Option RtmpMessage) : Prop where
  hasExtTs : prev.hasExtTs = str.extSeen
  last {m : SentMessage} : str.last = some m → m.csid = csid ∧ m.Permitted ∧ HeaderFor m prev
  extTs {m : SentMessage} {t : UInt32} : str.last = some m → str.extTs = some t → t = m.shown
  idle : str.rest = [] → (prog.getD {}).isComplete = true
  busy {m : SentMessage} : str.last = some m → str.rest ≠ [] →
    ∃ msg, prog = some msg ∧ HeaderFor m msg.header ∧ msg.payload ++ str.rest = m.payload.val

/-- What the parser keeps fits the sender's state. -/
structure Sim (s : Sender) (st : RtmpChunkParse) : Prop where
  chunkSize : st.inChunkSize = s.chunkSize
  range : ChunkSizeInRange st.inChunkSize
  stream (csid : Nat) :
    StreamSim csid (s.streams csid) (st.prevHeaders csid) (st.inProgress csid)

theorem sim_init : Sim {} {} where
  chunkSize := rfl
  range := kDefaultChunkSize_range
  stream _ := {
    hasExtTs := rfl
    last := fun h => by cases h
    extTs := fun h => by cases h
    idle := fun _ => rfl
    busy := fun h => by cases h }

/-- A format 3 chunk has an extended timestamp exactly when its chunk stream ever
had one. -/
def Aligned (s : Sender) : SendEvent → Prop
  | .start id .fmt3 _ => (s.streams id.csid).extSeen = (s.streams id.csid).extTs.isSome
  | .start _ _ _ => True
  | .more id => (s.streams id.csid).extSeen = (s.streams id.csid).extTs.isSome

/-! ### Headers -/

/-- An extended timestamp is the timestamp of its message. -/
theorem StreamSim.extTs_start {csid : Nat} {str : SendStream} {prev : RtmpMsgHeader}
    {prog : Option RtmpMessage} (hsim : StreamSim csid str prev prog) {how : MessageStart}
    {payload : Payload} {m : SentMessage} (hm : how.message str csid payload = some m)
    {t : UInt32} (ht : how.extTs str = some t) : t = m.shown := by
  cases MessageStart.message_begun hm with
  | fmt0 timestamp msgType msgStreamId =>
    simp only [MessageStart.extTs] at ht
    split at ht
    · cases ht; rfl
    · cases ht
  | fmt1 hlast delta msgType => cases ht
  | fmt2 hlast hlen delta => cases ht
  | fmt3 hlast hlen repeated =>
    have hshown := hsim.extTs hlast ht
    exact hshown

/-- A format 3 chunk: the header is that of the last message once more. -/
theorem StreamSim.after_fmt3 {csid : Nat} {str : SendStream} {prev : RtmpMsgHeader}
    {prog : Option RtmpMessage} (hsim : StreamSim csid str prev prog) {m : SentMessage}
    (hlast : str.last = some m) (haligned : str.extSeen = str.extTs.isSome) {c : Chunk}
    (hid : c.id.csid = csid) (hheader : c.header = .fmt3) (hext : c.extTs = str.extTs) :
    HeaderFor m (c.after prev) ∧ (c.after prev).hasExtTs = str.extSeen ∧
      c.header.expectsExt prev = c.extTs.isSome := by
  obtain ⟨hcsid, -, hprev⟩ := hsim.last hlast
  have hseen := hsim.hasExtTs
  refine ⟨?_, ?_, ?_⟩
  · cases ht : str.extTs with
    | none =>
      constructor <;> simp [Chunk.after, hext, ht, hheader, ChunkMsgHeader.after, hid, hcsid,
        hprev.timestamp, hprev.msgStreamId, hprev.msgLen, hprev.msgType]
    | some t =>
      constructor <;> simp [Chunk.after, hext, ht, hheader, ChunkMsgHeader.after, hid, hcsid,
        hprev.msgStreamId, hprev.msgLen, hprev.msgType, hsim.extTs hlast ht]
  · cases ht : str.extTs with
    | none => simp [Chunk.after, hext, ht, hseen]
    | some t => simp [Chunk.after, hext, ht, haligned]
  · simp [hheader, hext, ChunkMsgHeader.expectsExt, hseen, haligned]

/-- The first chunk of a message: the parser makes the header of the message of
it, and expects an extended timestamp if there is one. -/
theorem StreamSim.after_start {csid : Nat} {str : SendStream} {prev : RtmpMsgHeader}
    {prog : Option RtmpMessage} (hsim : StreamSim csid str prev prog) {how : MessageStart}
    {payload : Payload} {m : SentMessage} (hm : how.message str csid payload = some m)
    (haligned : how = .fmt3 → str.extSeen = str.extTs.isSome) {c : Chunk}
    (hid : c.id.csid = csid) (hheader : c.header = how.header payload)
    (hext : c.extTs = how.extTs str) :
    HeaderFor m (c.after prev) ∧ (c.after prev).hasExtTs = (how.stream str m).extSeen ∧
      c.header.expectsExt prev = c.extTs.isSome := by
  have hseen := hsim.hasExtTs
  have hmsgLen : payload.msgLen.toUInt32.toNat = payload.val.length := UInt24.toNat_toUInt32 _
  cases MessageStart.message_begun hm with
  | fmt0 timestamp msgType msgStreamId =>
    have hfield : timestamp.toNat < 0xFFFFFF →
        UInt24.toUInt32 ⟨min timestamp.toNat 0xFFFFFF, by omega⟩ = timestamp := by
      intro hlt
      rw [← UInt32.toNat_inj, UInt24.toNat_toUInt32]
      exact Nat.min_eq_left (by omega)
    by_cases hbig : timestamp.toNat ≥ 0xFFFFFF
    · simp only [MessageStart.extTs, if_pos hbig] at hext
      refine ⟨?_, ?_, ?_⟩
      · constructor <;> simp [Chunk.after, hext, hheader, MessageStart.header,
          ChunkMsgHeader.after, hid, hmsgLen]
      · simp [Chunk.after, hext, MessageStart.stream, MessageStart.extTs, hbig]
      · simp [hheader, hext, MessageStart.header, ChunkMsgHeader.expectsExt, hbig]
    · simp only [MessageStart.extTs, if_neg hbig] at hext
      refine ⟨?_, ?_, ?_⟩
      · constructor <;> simp [Chunk.after, hext, hheader, MessageStart.header,
          ChunkMsgHeader.after, hid, hmsgLen, hfield (by omega)]
      · simp [Chunk.after, hext, MessageStart.stream, MessageStart.extTs, hbig, hseen]
      · simp [hheader, hext, MessageStart.header, ChunkMsgHeader.expectsExt]
        omega
  | fmt1 hlast delta msgType =>
    obtain ⟨-, -, hprev⟩ := hsim.last hlast
    simp only [MessageStart.extTs] at hext
    refine ⟨?_, ?_, ?_⟩
    · constructor <;> simp [Chunk.after, hext, hheader, MessageStart.header,
        ChunkMsgHeader.after, hid, hmsgLen, hprev.timestamp, hprev.msgStreamId]
    · simp [Chunk.after, hext, MessageStart.stream, MessageStart.extTs, hseen]
    · simp [hheader, hext, MessageStart.header, ChunkMsgHeader.expectsExt]
  | fmt2 hlast hlen delta =>
    obtain ⟨-, -, hprev⟩ := hsim.last hlast
    simp only [MessageStart.extTs] at hext
    refine ⟨?_, ?_, ?_⟩
    · constructor <;> simp [Chunk.after, hext, hheader, MessageStart.header,
        ChunkMsgHeader.after, hid, hprev.timestamp, hprev.msgStreamId, hprev.msgLen,
        hprev.msgType, hlen]
    · simp [Chunk.after, hext, MessageStart.stream, MessageStart.extTs, hseen]
    · simp [hheader, hext, MessageStart.header, ChunkMsgHeader.expectsExt]
  | fmt3 hlast hlen repeated =>
    obtain ⟨hcsid, -, -⟩ := hsim.last hlast
    have hall := haligned rfl
    obtain ⟨hfor, hflag, hexpects⟩ := hsim.after_fmt3 hlast hall hid hheader hext
    refine ⟨⟨hfor.csid.trans hcsid, hfor.timestamp, hfor.msgLen.trans hlen.symm,
      hfor.msgType, hfor.msgStreamId⟩, ?_, hexpects⟩
    rw [hflag]
    simp [MessageStart.stream, MessageStart.extTs, hall]

/-! ### One chunk -/

/-- A SetChunkSize message sets the size that its sender goes on with. -/
theorem chunkSizeCallback_sent {m : SentMessage} (hp : m.Permitted) (msg : RtmpMessage)
    (hfor : HeaderFor m msg.header) (hpayload : msg.payload = m.payload.val) (n : Int) :
    chunkSizeCallback msg n =
      if m.msgType = kMsgTypeSetChunkSize then (m.newChunkSize : Int) else n := by
  unfold chunkSizeCallback
  rw [hfor.msgType]
  split
  · rename_i htype
    obtain ⟨hlen, hpos, hmax⟩ := hp htype
    have hread : (readUint32BE msg.payload).toNat = m.newChunkSize := by
      rw [readUint32BE_toNat, SentMessage.newChunkSize, hpayload]
      match m.payload.val, hlen with
      | [a, b, c, d], _ => rfl
    have hmask : (readUint32BE msg.payload &&& 0x7FFFFFFF).toNat = m.newChunkSize := by
      rw [UInt32.toNat_and, hread]
      exact (Nat.and_two_pow_sub_one_eq_mod _ 31).trans (Nat.mod_eq_of_lt (by omega))
    have hzero : readUint32BE msg.payload &&& 0x7FFFFFFF ≠ 0 := by
      intro h0
      rw [h0] at hmask
      exact absurd hmask (by simp; omega)
    have hle : ¬ (readUint32BE msg.payload &&& 0x7FFFFFFF) > kMaxChunkSize := by
      rw [gt_iff_lt, UInt32.lt_iff_toNat_lt, hmask]
      simp only [kMaxChunkSize, UInt32.reduceToNat]
      omega
    simp only [handleSetChunkSize]
    rw [if_neg (by rw [hpayload]; omega), if_neg (not_or.mpr ⟨hzero, hle⟩), hmask]
  · rfl

/-- A chunk stream after a piece of its message, in the sender and in the
parser. -/
private theorem streamSim_finish {csid : Nat} {str : SendStream} {m : SentMessage}
    {header : RtmpMsgHeader} {msg : RtmpMessage} {n : Nat} (hlast : str.last = some m)
    (hcsid : m.csid = csid) (hp : m.Permitted) (hext : ∀ t, str.extTs = some t → t = m.shown)
    (hfor : HeaderFor m header) (hflag : header.hasExtTs = str.extSeen)
    (hmsg : HeaderFor m msg.header) (hsplit : msg.payload ++ str.rest = m.payload.val) :
    (str.rest.drop n = [] → StreamSim csid { str with rest := str.rest.drop n } header (some {})) ∧
      (str.rest.drop n ≠ [] → StreamSim csid { str with rest := str.rest.drop n } header
        (some { msg with payload := msg.payload ++ str.rest.take n })) := by
  have hlast' : ∀ m', str.last = some m' → m' = m := by
    intro m' h
    rw [hlast] at h
    exact (Option.some.inj h).symm
  constructor
  · intro hdone
    exact {
      hasExtTs := hflag
      last := fun h => hlast' _ h ▸ ⟨hcsid, hp, hfor⟩
      extTs := fun h ht => hlast' _ h ▸ hext _ ht
      idle := fun _ => rfl
      busy := fun _ hne => absurd hdone hne }
  · intro hrest
    exact {
      hasExtTs := hflag
      last := fun h => hlast' _ h ▸ ⟨hcsid, hp, hfor⟩
      extTs := fun h ht => hlast' _ h ▸ hext _ ht
      idle := fun h => absurd h hrest
      busy := fun h _ => hlast' _ h ▸ ⟨_, rfl, hmsg, by
        simp only [List.append_assoc, List.take_append_drop, hsplit]⟩ }

/-- One chunk stream changes in the sender and in the parser, and no other. -/
private theorem Sim.stream_update {s : Sender} {st : RtmpChunkParse} (hsim : Sim s st)
    {csid : Nat} {str : SendStream} {header : RtmpMsgHeader} {prog : Option RtmpMessage}
    (hone : StreamSim csid str header prog) (c : Nat) :
    StreamSim c (Function.update s.streams csid str c)
      (Function.update st.prevHeaders csid header c)
      (Function.update st.inProgress csid prog c) := by
  by_cases hne : c = csid
  · subst hne
    simpa using hone
  · simpa [Function.update_of_ne hne] using hsim.stream c

/-- The parser takes a chunk of the message `m`, which it has opened as `msg`. It
stays in step with the sender and delivers the message if the chunk completes
it. -/
theorem Sim.sendPiece {s : Sender} {st : RtmpChunkParse} (hsim : Sim s st) {id : ChunkStreamId}
    {header : ChunkMsgHeader} {str : SendStream} {m : SentMessage} {c : Chunk}
    {msg : RtmpMessage} (hc : c = (s.sendPiece id header str m).2.chunk)
    (hlast : str.last = some m) (hcsid : m.csid = id.csid) (hp : m.Permitted)
    (hext : ∀ t, str.extTs = some t → t = m.shown)
    (hfor : HeaderFor m (c.after (st.prevHeaders id.csid)))
    (hflag : (c.after (st.prevHeaders id.csid)).hasExtTs = str.extSeen)
    (hexpects : c.header.expectsExt (st.prevHeaders id.csid) = c.extTs.isSome)
    (hopen : st.openMessage (c.after (st.prevHeaders id.csid)) = msg)
    (hmsg : HeaderFor m msg.header) (hsplit : msg.payload ++ str.rest = m.payload.val) :
    ∃ st' out, st.parseOneChunk chunkSizeCallback c.encode = .item st' c.encode.length out ∧
      Sim (s.sendPiece id header str m).1 st' ∧
      out.map RtmpMessage.stamped =
        (s.sendPiece id header str m).2.completed.toList.map SentMessage.stamped := by
  rw [Sender.sendPiece_chunk] at hc
  have hid : c.id = id := by rw [hc]
  have hdata : c.data = str.rest.take s.chunkSize := by rw [hc]
  obtain ⟨hpos, hmax⟩ := hsim.range
  have hsize := hsim.chunkSize
  have hpl := m.payload.property
  have hlen : msg.payload.length + str.rest.length = m.payload.val.length := by
    rw [← hsplit, List.length_append]
  have hhead := c.length_encodeHead_le
  -- the parser looks for the data that the chunk has
  have hdataSize : st.dataSize msg = c.data.length := by
    have hml := hmsg.msgLen
    rw [RtmpChunkParse.dataSize_eq st (by omega) (by omega), hdata, List.length_take]
    omega
  have hparse : st.parseOneChunk chunkSizeCallback c.encode = _ :=
    RtmpChunkParse.parseOneChunk_encode (by rw [hid]; exact hexpects)
      (by rw [hid, hopen]; exact hdataSize)
      (by simp only [Chunk.encode, List.length_append, hdata, List.length_take]; omega)
  rw [hid, hopen] at hparse
  refine ⟨_, _, hparse, ?_⟩
  have hfinish := streamSim_finish (n := s.chunkSize) hlast hcsid hp hext hfor hflag hmsg hsplit
  have hcomplete : ({ msg with payload := msg.payload ++ c.data } : RtmpMessage).isComplete = true ↔
      str.rest.drop s.chunkSize = [] := by
    have hml := hmsg.msgLen
    rw [RtmpMessage.isComplete_iff, ← List.length_eq_zero_iff]
    simp only [List.length_append, hdata, List.length_take, List.length_drop]
    omega
  by_cases hdone : str.rest.drop s.chunkSize = []
  · obtain ⟨hcompleted, hchunkSize⟩ := Sender.sendPiece_last hdone id header m
    have hwhole : msg.payload ++ c.data = m.payload.val := by
      rw [hdata, ← hsplit, ← List.take_append_drop s.chunkSize str.rest, hdone]
      simp
    have hset := chunkSizeCallback_sent hp { msg with payload := msg.payload ++ c.data } hmsg
      hwhole st.inChunkSize
    rw [RtmpChunkParse.finishChunk_complete (hcomplete.mpr hdone)]
    refine ⟨⟨?_, ?_, ?_⟩, ?_⟩
    · simp only [hset, hchunkSize]
      split
      · rfl
      · exact hsize
    · exact chunkSizeCallback_range _ _ hsim.range
    · intro c'
      rw [Sender.sendPiece_streams, Chunk.after_csid, hid]
      exact hsim.stream_update (hfinish.1 hdone) c'
    · rw [hcompleted]
      simp only [List.map_cons, List.map_nil, Option.toList_some]
      rw [show RtmpMessage.stamped { msg with payload := msg.payload ++ c.data } = m.stamped from
        HeaderFor.stamped_eq hmsg hwhole]
  · obtain ⟨hcompleted, hchunkSize⟩ := Sender.sendPiece_not_last hdone id header m
    rw [RtmpChunkParse.finishChunk_incomplete (Bool.eq_false_iff.mpr (mt hcomplete.mp hdone))]
    refine ⟨⟨?_, ?_, ?_⟩, ?_⟩
    · rw [hchunkSize]
      exact hsize
    · exact hsim.range
    · intro c'
      rw [Sender.sendPiece_streams, Chunk.after_csid, hid, hdata]
      exact hsim.stream_update (hfinish.2 hdone) c'
    · rw [hcompleted]
      rfl

/-- One step of the sender: the parser takes the chunk as a whole. -/
theorem Sim.step {s s' : Sender} {st : RtmpChunkParse} {e : SendEvent} {o : ChunkSent}
    (hsim : Sim s st) (h : s.step e = some (s', o)) (haligned : Aligned s e) :
    ∃ st' out,
      st.parseOneChunk chunkSizeCallback o.chunk.encode = .item st' o.chunk.encode.length out ∧
      Sim s' st' ∧ out.map RtmpMessage.stamped = o.completed.toList.map SentMessage.stamped := by
  cases Sender.step_eq_some h with
  | @start id how payload m idle hm hp =>
    have hstr := hsim.stream id.csid
    obtain ⟨hpayload, hcsid⟩ := (MessageStart.message_begun hm).payload_csid
    have hall : how = .fmt3 →
        (s.streams id.csid).extSeen = (s.streams id.csid).extTs.isSome := by
      rintro rfl
      exact haligned
    generalize hc : (s.sendPiece id (how.header payload)
      (how.stream (s.streams id.csid) m) m).2.chunk = c
    have hc' := hc
    rw [Sender.sendPiece_chunk] at hc'
    obtain ⟨hfor, hflag, hexpects⟩ := hstr.after_start hm hall (c := c) (by rw [← hc'])
      (by rw [← hc']) (by rw [← hc']; rfl)
    have hopen : st.openMessage (c.after (st.prevHeaders id.csid)) =
        { header := c.after (st.prevHeaders id.csid), payload := [] } := by
      refine RtmpChunkParse.openMessage_start (.inr ?_)
      rw [Chunk.after_csid, ← hc']
      exact hstr.idle idle
    exact hsim.sendPiece hc.symm rfl hcsid hp (fun t ht => hstr.extTs_start hm ht) hfor hflag
      hexpects hopen hfor rfl
  | @more id m busy hm =>
    have hstr := hsim.stream id.csid
    obtain ⟨hcsid, hp, -⟩ := hstr.last hm
    obtain ⟨msg, hprog, hmsg, hsplit⟩ := hstr.busy hm busy
    generalize hc : (s.sendPiece id .fmt3 (s.streams id.csid) m).2.chunk = c
    have hc' := hc
    rw [Sender.sendPiece_chunk] at hc'
    obtain ⟨hfor, hflag, hexpects⟩ := hstr.after_fmt3 hm haligned (c := c) (by rw [← hc'])
      (by rw [← hc']) (by rw [← hc'])
    have hincomplete : msg.isComplete = false := by
      have hml := hmsg.msgLen
      have hrest := List.length_pos_iff.mpr busy
      rw [← Bool.not_eq_true, RtmpMessage.isComplete_iff, hml, ← hsplit, List.length_append]
      omega
    have hfmt : (c.after (st.prevHeaders id.csid)).fmt = .fmt3 := by
      rw [Chunk.after_fmt, ← hc']
      rfl
    have hopen : st.openMessage (c.after (st.prevHeaders id.csid)) = _ :=
      RtmpChunkParse.openMessage_continue (by rw [Chunk.after_csid, ← hc']; exact hprog)
        hincomplete (by rw [hfmt]; nofun) (by rw [hfmt]; nofun)
    exact hsim.sendPiece hc.symm hm hcsid hp (fun t => hstr.extTs hm) hfor hflag hexpects hopen
      ⟨hmsg.csid, hfor.timestamp, hmsg.msgLen, hmsg.msgType, hmsg.msgStreamId⟩ hsplit

/-! ## Whole runs -/

namespace RtmpChunkParse

/-- The parser only waits for the rest of a chunk. -/
theorem length_lt_of_wait {st st' : RtmpChunkParse} {buf : Bytes}
    (hr : ChunkSizeInRange st.inChunkSize) (hlen : buf.length < 2 ^ 31)
    (h : st.parseOneChunk chunkSizeCallback buf = .wait st') : buf.length < 65553 := by
  have ho := parseOneChunk_outcome chunkSizeCallback st buf
  rw [h] at ho
  cases ho with
  | headless hhead => have := parseChunkHead_none hlen hhead; omega
  | short head hhead hs =>
    obtain ⟨-, h18, -⟩ := parseChunkHead_some hhead
    have hsize : st.dataSize (st.openMessage head.header) ≤ st.inChunkSize :=
      Int.min_le_right _ _
    have hmax := hr.2
    rw [asInt_of_lt hlen] at hs
    omega

/-- The segments that a byte string arrives in. A read event is far from filling
a segment of 2^30 bytes. -/
structure Segments (bytes : Bytes) (segs : List Bytes) : Prop where
  flatten_eq : segs.flatten = bytes
  length_le : ∀ seg ∈ segs, seg.length ≤ 2 ^ 30

/-- However a byte string is cut, it leads to the same configuration. -/
theorem receive_congr {bytes : Bytes} {segs segs' : List Bytes} (h : Segments bytes segs)
    (h' : Segments bytes segs') :
    receive chunkSizeCallback segs = receive chunkSizeCallback segs' := by
  have hl := parseOneChunk_lawful _ chunkSizeCallback_range
  have hinit : ((⟨{}, [], [], false⟩ : Config RtmpChunkParse UInt8 RtmpMessage).aborted = false →
      WellFormed {} ∧ ChunkSizeInRange ({} : RtmpChunkParse).inChunkSize) :=
    fun _ => ⟨wellFormed_init, kDefaultChunkSize_range⟩
  have hfits : ∀ segs : List Bytes, (∀ seg ∈ segs, seg.length ≤ 2 ^ 30) →
      Lawful.Fits (parseOneChunk chunkSizeCallback) (2 ^ 31) { state := {} } segs := by
    intro segs hle
    refine hl.fits_of_short (m := 65553) (by omega) ?_ hinit (fun _ => by decide) ?_
    · intro st st' buf hi hlen hwait
      exact length_lt_of_wait hi.2 hlen hwait
    · intro seg hseg
      have := hle seg hseg
      omega
  exact hl.feedAll_congr (quiet_init _) hinit (hfits segs h.length_le) (hfits segs' h'.length_le)
    (h.flatten_eq.trans h'.flatten_eq.symm)

/-- The chunks of a run arrive one by one, the parser staying in step. -/
theorem receive_chunks {es : List SendEvent} {sent : List ChunkSent} {s : Sender}
    (hrun : Mealy.run Sender.step {} es = some (s, sent)) :
    Mealy.Along Sender.step Aligned {} es →
    (∀ o ∈ sent, o.chunk.encode.length ≤ 2 ^ 30) ∧ ∃ st, Sim s st ∧ ∃ out,
      receive chunkSizeCallback (sent.map fun o => o.chunk.encode) = ⟨st, [], out, false⟩ ∧
      out.map RtmpMessage.stamped = (Sender.completed sent).map SentMessage.stamped := by
  refine Mealy.run_induction (motive := fun es sent s => Mealy.Along Sender.step Aligned {} es →
    (∀ o ∈ sent, o.chunk.encode.length ≤ 2 ^ 30) ∧ ∃ st, Sim s st ∧ ∃ out,
      receive chunkSizeCallback (sent.map fun o => o.chunk.encode) = ⟨st, [], out, false⟩ ∧
      out.map RtmpMessage.stamped = (Sender.completed sent).map SentMessage.stamped) ?_ ?_ hrun
  · intro _
    exact ⟨List.forall_mem_nil _, {}, sim_init, [], rfl, rfl⟩
  · intro es sent s e s' o hrun ih hstep haligned
    obtain ⟨hbefore, hlast⟩ := (Mealy.along_concat hrun).mp haligned
    obtain ⟨hlen, st, hsim, out, hrecv, hout⟩ := ih hbefore
    obtain ⟨st', out', hparse, hsim', hout'⟩ := hsim.step hstep hlast
    refine ⟨?_, st', hsim', out ++ out', ?_, ?_⟩
    · intro o' ho'
      rcases List.mem_append.mp ho' with ho' | ho'
      · exact hlen o' ho'
      · have hshort := Sender.length_encode_of_step hstep
        have hsize := hsim.chunkSize
        have hmax := hsim.range.2
        rw [List.mem_singleton.mp ho']
        omega
    · unfold receive at hrecv ⊢
      rw [List.map_append, feedAll_append, hrecv, List.map_cons, List.map_nil, feedAll_cons,
        feedAll_nil]
      exact feed_item (c := ⟨st, [], out, false⟩) (parseOneChunk_progressive _) rfl rfl hparse
    · rw [Sender.completed_concat, List.map_append, List.map_append, hout, hout']

/-- The bytes of a run arrive in any segments: the parser is in step with the
sender and has delivered what the sender has completed. -/
theorem receive_sent {es : List SendEvent} {sent : List ChunkSent} {s : Sender}
    (hrun : Mealy.run Sender.step {} es = some (s, sent))
    (haligned : Mealy.Along Sender.step Aligned {} es) {segs : List Bytes}
    (hsegs : Segments (Sender.bytes sent) segs) :
    ∃ st, Sim s st ∧ ∃ out, receive chunkSizeCallback segs = ⟨st, [], out, false⟩ ∧
      out.map RtmpMessage.stamped = (Sender.completed sent).map SentMessage.stamped := by
  obtain ⟨hlen, st, hsim, out, hrecv, hout⟩ := receive_chunks hrun haligned
  refine ⟨st, hsim, out, ?_, hout⟩
  have hchunks : Segments (Sender.bytes sent) (sent.map fun o => o.chunk.encode) := by
    refine ⟨rfl, ?_⟩
    intro seg hseg
    obtain ⟨o, ho, rfl⟩ := List.mem_map.mp hseg
    exact hlen o ho
  rw [receive_congr hsegs hchunks, hrecv]

end RtmpChunkParse

/-! ## Senders of short timestamps -/

/-- The timestamp field is below the value that announces an extended
timestamp. -/
def SendEvent.ShortField : SendEvent → Prop
  | .start _ (.fmt0 timestamp ..) _ => timestamp.toNat < 0xFFFFFF
  | _ => True

instance (e : SendEvent) : Decidable e.ShortField :=
  match e with
  | .start _ (.fmt0 timestamp ..) _ => inferInstanceAs (Decidable (timestamp.toNat < 0xFFFFFF))
  | .start _ (.fmt1 ..) _ => .isTrue trivial
  | .start _ (.fmt2 ..) _ => .isTrue trivial
  | .start _ .fmt3 _ => .isTrue trivial
  | .more _ => .isTrue trivial

/-- A sender of short timestamps never writes an extended one. -/
theorem Sender.aligned_of_shortField {es : List SendEvent} {sent : List ChunkSent} {s : Sender}
    (hrun : Mealy.run Sender.step {} es = some (s, sent)) (hshort : ∀ e ∈ es, e.ShortField) :
    Mealy.Along Sender.step Aligned {} es := by
  have hplain : (∀ e ∈ es, e.ShortField) →
      (∀ csid, (s.streams csid).extSeen = false ∧ (s.streams csid).extTs = none) ∧
        Mealy.Along Sender.step Aligned {} es := by
    refine Mealy.run_induction (motive := fun es _ s => (∀ e ∈ es, e.ShortField) →
      (∀ csid, (s.streams csid).extSeen = false ∧ (s.streams csid).extTs = none) ∧
        Mealy.Along Sender.step Aligned {} es) ?_ ?_ hrun
    · intro _
      exact ⟨fun _ => ⟨rfl, rfl⟩, trivial⟩
    · intro es sent s e s' o hrun ih hstep hshort
      obtain ⟨hnone, hbefore⟩ := ih fun e he => hshort e (List.mem_append_left _ he)
      have hlast := hshort e (by simp)
      refine ⟨?_, (Mealy.along_concat hrun).mpr ⟨hbefore, ?_⟩⟩
      · let P : Nat → SendStream → Prop := fun _ str => str.extSeen = false ∧ str.extTs = none
        cases Sender.step_eq_some hstep with
        | @start id how payload m idle hm hp =>
          obtain ⟨hseen, hext⟩ := hnone id.csid
          have hnew : how.extTs (s.streams id.csid) = none := by
            cases how with
            | fmt0 timestamp msgType msgStreamId =>
              simp only [SendEvent.ShortField] at hlast
              exact if_neg (by omega)
            | fmt1 delta msgType => rfl
            | fmt2 delta => rfl
            | fmt3 => exact hext
          refine Sender.forall_sendPiece P hnone ?_
          simp only [P, MessageStart.stream, hseen, hnew, Option.isSome_none, Bool.or_false,
            and_self]
        | @more id m busy hm => exact Sender.forall_sendPiece P hnone (hnone id.csid)
      · have hall : ∀ csid, (s.streams csid).extSeen = (s.streams csid).extTs.isSome := by
          intro csid
          obtain ⟨hseen, hext⟩ := hnone csid
          rw [hseen, hext]
          rfl
        cases e with
        | start id how payload => cases how <;> first | trivial | exact hall id.csid
        | more id => exact hall id.csid
  exact (hplain hshort).2

/-! ## Reassembly inverts chunking -/

namespace RtmpChunkParse

/-- Whatever a sender of short timestamps sends, and however its bytes are cut
into segments, the parser delivers each message that was completed, once, in the
order in which the messages were completed, and leaves nothing unread. -/
theorem receive_reassembles {es : List SendEvent} {sent : List ChunkSent} {s : Sender}
    (hrun : Mealy.run Sender.step {} es = some (s, sent)) (hshort : ∀ e ∈ es, e.ShortField)
    {segs : List Bytes} (hsegs : Segments (Sender.bytes sent) segs) :
    (receive chunkSizeCallback segs).delivered.map RtmpMessage.content =
        (Sender.completed sent).map SentMessage.content ∧
      (receive chunkSizeCallback segs).unread = [] ∧
      (receive chunkSizeCallback segs).aborted = false := by
  obtain ⟨st, -, out, hrecv, hout⟩ :=
    receive_sent hrun (Sender.aligned_of_shortField hrun hshort) hsegs
  have hcontent := congrArg (List.map Prod.fst) hout
  simp only [List.map_map] at hcontent
  rw [hrecv]
  exact ⟨hcontent, rfl, rfl⟩

/-- The chunk stream of control messages. -/
def controlStream : ChunkStreamId := ⟨kChunkCsidControl, .one, by decide⟩

def commandStream : ChunkStreamId := ⟨kChunkCsidCommand, .one, by decide⟩

/-- The payload that sets the chunk size to 1. -/
def chunkSizeOne : Payload := ⟨[0, 0, 0, 1], by decide⟩

def twoBytes : Payload := ⟨[0xAF, 0x01], by decide⟩

def noBytes : Payload := ⟨[], by decide⟩

/-- The chunk size is set to 1, and a message of two bytes is interrupted by an
empty one on another chunk stream. -/
def interleavedEvents : List SendEvent := [
  .start controlStream (.fmt0 0 1 0) chunkSizeOne,
  .start commandStream (.fmt0 5 8 1) twoBytes,
  .start ⟨64, .two, by decide⟩ (.fmt0 0 9 1) noBytes,
  .more commandStream]

/-- Their bytes, with cuts inside headers. -/
def interleavedSegments : List Bytes :=
  [[0x02, 0, 0, 0, 0, 0, 4, 1, 0, 0, 0, 0, 0, 0, 0, 1, 0x03, 0, 0, 5, 0],
    [0, 2, 8, 1, 0, 0, 0, 0xAF, 0x00, 0, 0, 0, 0, 0, 0, 0, 9, 1, 0, 0, 0],
    [0xC3, 0x01]]

theorem receive_reassembles_interleaved :
    (receive chunkSizeCallback interleavedSegments).delivered.map RtmpMessage.content =
      [⟨2, 1, 4, 0, [0, 0, 0, 1]⟩, ⟨64, 9, 0, 1, []⟩, ⟨3, 8, 2, 1, [0xAF, 0x01]⟩] := by
  have hrun : Mealy.run Sender.step {} interleavedEvents = some (_, _) := rfl
  exact (receive_reassembles hrun (by decide)
    (show Segments _ interleavedSegments from ⟨rfl, by decide⟩)).1

end RtmpChunkParse
