-- SUMMARY: The server's output is decoded to the replies that its input calls for.
import OmegaStreamer.Rtmp.Reassembly
import OmegaStreamer.Rtmp.Session

/-!
# Replies

What a session sends, read by a parser at the other end. A packet of `sendChunk`
is one whole message if its payload fits the chunk size that has been announced
when it arrives (`Sendable`), and every packet of a session does. Which replies
there have to be is said of the input messages alone (`repliesTo`): a count of the
`createStream` commands is all that is kept of the past.
-/

open Resumable BytesReader BytesWriter

/-! ## Packets -/

namespace MessageContent

/-- The packet that `sendChunk` makes of it. -/
def packet (c : MessageContent) : Bytes := sendChunk c.csid c.msgType c.msgStreamId c.payload

/-- The peer's chunk size after the message. -/
def sizeAfter (c : MessageContent) (n : Int) : Int :=
  chunkSizeCallback { header := { msgType := c.msgType }, payload := c.payload } n

/-- A message that one chunk of the size `n` holds. -/
structure Sendable (n : Int) (c : MessageContent) : Prop where
  csid : 2 ≤ c.csid ∧ c.csid < 64
  msgLen : c.msgLen = c.payload.length
  fits : (c.payload.length : Int) ≤ n

/-- Each of the messages fits the chunk size that is in force when it is sent. -/
def AllSendable : Int → List MessageContent → Prop
  | _, [] => True
  | n, c :: cs => Sendable n c ∧ AllSendable (c.sizeAfter n) cs

/-- Messages that are no SetChunkSize leave the size as it is. -/
theorem allSendable_of_forall {n : Int} {cs : List MessageContent}
    (h : ∀ c ∈ cs, Sendable n c ∧ c.msgType ≠ kMsgTypeSetChunkSize) : AllSendable n cs := by
  induction cs with
  | nil => exact trivial
  | cons c cs ih =>
    obtain ⟨hc, ht⟩ := h c List.mem_cons_self
    have hsize : c.sizeAfter n = n := if_neg ht
    refine ⟨hc, ?_⟩
    rw [hsize]
    exact ih fun c' hc' => h c' (List.mem_cons_of_mem _ hc')

end MessageContent

/-- A packet is far from filling a segment. -/
theorem MessageContent.AllSendable.length_packet_le {n : Int} (hr : ChunkSizeInRange n)
    {cs : List MessageContent} (h : AllSendable n cs) :
    ∀ c ∈ cs, c.packet.length ≤ 2 ^ 30 := by
  induction cs generalizing n with
  | nil => exact nofun
  | cons c cs ih =>
    obtain ⟨hc, hcs⟩ := h
    intro c' hc'
    rcases List.mem_cons.mp hc' with rfl | hc'
    · have hfits := hc.fits
      have hmax := hr.2
      rw [MessageContent.packet, length_sendChunk]
      omega
    · exact ih (chunkSizeCallback_range _ _ hr) hcs c' hc'

/-- The callback looks at the content only. -/
theorem chunkSizeCallback_content (msg : RtmpMessage) (n : Int) :
    chunkSizeCallback msg n = msg.content.sizeAfter n := rfl

/-- `sendChunk` writes one format 0 chunk with timestamp 0. -/
theorem sendChunk_eq {csid : Nat} (h : 2 ≤ csid ∧ csid < 64) (msgType : UInt8)
    (msgStreamId : UInt32) {data : Bytes} (hlen : data.length < 2 ^ 24) :
    sendChunk csid msgType msgStreamId data = Chunk.encode {
      id := ⟨csid, .one, h⟩
      header := .fmt0 0 ⟨data.length, hlen⟩ msgType msgStreamId
      extTs := none
      data } := by
  have hcsid : UInt8.ofNat csid &&& 0x3F = UInt8.ofNat csid := by
    apply UInt8.toNat_inj.mp
    have hmask := Nat.and_two_pow_sub_one_eq_mod csid 6
    rw [UInt8.toNat_and, UInt8.toNat_ofNat', Nat.mod_eq_of_lt (by omega)]
    simp only [UInt8.reduceToNat, Nat.reducePow, Nat.reduceSub] at hmask ⊢
    rw [hmask, Nat.mod_eq_of_lt h.2]
  have hdata : (UInt32.ofNat data.length).toNat = data.length := by
    rw [UInt32.toNat_ofNat', Nat.mod_eq_of_lt (by omega)]
  have hfirst : (0 : UInt8) <<< 6 ||| UInt8.ofNat csid = UInt8.ofNat csid := UInt8.zero_or
  simp only [sendChunk, hcsid, writeUint24BE_eq, writeUint32LE_eq, hdata, Chunk.encode,
    Chunk.encodeHead, ChunkStreamId.encode, ChunkMsgHeader.fmt, ChunkFmt.toUInt8, hfirst,
    ChunkMsgHeader.encode, Chunk.encodeExt, List.append_assoc, List.append_nil]
  rfl

namespace RtmpChunkParse

/-- A packet is one message for every parser that has a large enough chunk size,
whatever else the parser keeps. -/
theorem parseOneChunk_packet {st : RtmpChunkParse} (hr : ChunkSizeInRange st.inChunkSize)
    {c : MessageContent} (h : c.Sendable st.inChunkSize) :
    ∃ st' msg, st.parseOneChunk chunkSizeCallback c.packet = .item st' c.packet.length [msg] ∧
      msg.content = c ∧ st'.inChunkSize = c.sizeAfter st.inChunkSize := by
  obtain ⟨csid, msgType, msgLen, msgStreamId, data⟩ := c
  obtain ⟨hcsid, hmsgLen, hfits⟩ := h
  simp only at hcsid hmsgLen hfits
  subst hmsgLen
  have hmax := hr.2
  have hlen : data.length < 2 ^ 24 := by omega
  have hpacket := sendChunk_eq hcsid msgType msgStreamId hlen
  generalize hchunk : Chunk.mk ⟨csid, .one, hcsid⟩ (.fmt0 0 ⟨data.length, hlen⟩ msgType msgStreamId)
    none data = chunk at hpacket
  -- the message that the parser makes of the chunk
  obtain ⟨msg, hmsg⟩ : ∃ msg : RtmpMessage,
      msg = ⟨chunk.after (st.prevHeaders chunk.id.csid), chunk.data⟩ := ⟨_, rfl⟩
  have hml : msg.header.msgLen.toNat = data.length := by
    rw [hmsg, ← hchunk]
    exact UInt24.toNat_toUInt32 ⟨data.length, hlen⟩
  have hcontent : msg.content = ⟨csid, msgType, data.length, msgStreamId, data⟩ := by
    rw [RtmpMessage.content, hml, hmsg, ← hchunk]
    rfl
  have hwhole := parseOneChunk_whole chunkSizeCallback hmsg
  rw [← hchunk] at hwhole
  obtain ⟨st', hparse, hsize⟩ := hwhole rfl rfl hlen hml hfits
  rw [hchunk, ← hpacket] at hparse
  refine ⟨st', msg, hparse, hcontent, ?_⟩
  rw [hsize, ← hcontent]
  exact chunkSizeCallback_content _ _

/-- Packets that arrive one by one are delivered one by one. -/
theorem feedAll_packets {cs : List MessageContent} (st : RtmpChunkParse)
    (out : List RtmpMessage) (hr : ChunkSizeInRange st.inChunkSize)
    (h : MessageContent.AllSendable st.inChunkSize cs) :
    ∃ st' out', feedAll (parseOneChunk chunkSizeCallback) ⟨st, [], out, false⟩
        (cs.map MessageContent.packet) = ⟨st', [], out ++ out', false⟩ ∧
      out'.map RtmpMessage.content = cs := by
  induction cs generalizing st out with
  | nil =>
    refine ⟨st, [], ?_, rfl⟩
    rw [List.map_nil, feedAll_nil, List.append_nil]
  | cons c cs ih =>
    obtain ⟨hc, hcs⟩ := h
    obtain ⟨st', msg, hparse, hmsg, hsize⟩ := parseOneChunk_packet hr hc
    rw [← hsize] at hcs
    have hr' : ChunkSizeInRange st'.inChunkSize := by
      rw [hsize]
      exact chunkSizeCallback_range _ _ hr
    obtain ⟨st'', out', hfeed, hout⟩ := ih st' (out ++ [msg]) hr' hcs
    have hitem : feed (parseOneChunk chunkSizeCallback) ⟨st, [], out, false⟩ c.packet =
        ⟨st', [], out ++ [msg], false⟩ :=
      feed_item (parseOneChunk_progressive _) rfl rfl hparse
    refine ⟨st'', msg :: out', ?_, ?_⟩
    · rw [List.map_cons, feedAll_cons, hitem, hfeed, List.append_assoc, List.singleton_append]
    · rw [List.map_cons, hmsg, hout]

/-- The bytes of sendable messages, in any segments, are delivered as these messages. -/
theorem receive_packets {cs : List MessageContent}
    (h : MessageContent.AllSendable kDefaultChunkSize cs) {segs : List Bytes}
    (hsegs : Segments (cs.map MessageContent.packet).flatten segs) :
    ∃ st out, receive chunkSizeCallback segs = ⟨st, [], out, false⟩ ∧
      out.map RtmpMessage.content = cs := by
  have hpackets : Segments (cs.map MessageContent.packet).flatten
      (cs.map MessageContent.packet) := by
    refine ⟨rfl, ?_⟩
    intro seg hseg
    obtain ⟨c, hc, rfl⟩ := List.mem_map.mp hseg
    exact h.length_packet_le kDefaultChunkSize_range c hc
  obtain ⟨st, out, hfeed, hout⟩ := feedAll_packets {} [] kDefaultChunkSize_range h
  refine ⟨st, out, ?_, hout⟩
  rw [receive_congr hsegs hpackets]
  exact hfeed

end RtmpChunkParse

/-! ## The replies called for -/

/-- A reply, as its reader has it. -/
inductive Reply where
  | control (msgType : UInt8) (payload : Bytes)
  | command (msgStreamId : UInt32) (vals : List AMF0Value)

namespace Reply

/-- The message is the reply. The values of a command are all that its payload has. -/
def Is : Reply → MessageContent → Prop
  | .control msgType payload, c => c = ⟨kChunkCsidControl, msgType, payload.length, 0, payload⟩
  | .command msgStreamId vals, c => ∃ payload : Bytes,
    c = ⟨kChunkCsidCommand, kMsgTypeAMF0Command, payload.length, msgStreamId, payload⟩ ∧
    AMF0Decoder.decodeMany vals.length { data := payload } =
      some (vals, { data := payload, pos := payload.length })

/-- WindowAckSize, PeerBandwidth and SetChunkSize. -/
def greeting : List Reply := [
  .control kMsgTypeWindowAckSize (Endian.toBE 4 2500000),
  .control kMsgTypePeerBandwidth (Endian.toBE 4 2500000 ++ [2]),
  .control kMsgTypeSetChunkSize (Endian.toBE 4 4096)]

def text (s : String) : AMF0Value := .string (Bytes.ofAscii s)

def integer (n : Nat) : AMF0Value := .number (Binary64.ofNat n)

def named (name : String) (v : AMF0Value) : Bytes × AMF0Value := (Bytes.ofAscii name, v)

def connectResult (txnId : UInt64) : Reply := .command 0 [
  text "_result", .number txnId,
  .object [named "fmsVer" (text "FMS/3,0,1,123"), named "capabilities" (integer 31)],
  .object [named "level" (text "status"), named "code" (text "NetConnection.Connect.Success"),
    named "description" (text "Connection successded"), named "objectEncoding" (integer 0)]]

def createStreamResult (txnId : UInt64) (streamId : UInt32) : Reply := .command 0 [
  text "_result", .number txnId, .null, integer streamId.toNat]

/-- The number in a reply to `createStream` has the value of the id. -/
theorem value_streamId (streamId : UInt32) :
    Binary64.value (Binary64.ofNat streamId.toNat) = streamId.toNat :=
  Binary64.value_ofNat (Nat.lt_trans streamId.toNat_lt (by decide))

/-- Different ids are told apart by the replies. -/
theorem createStreamResult_inj {txnId : UInt64} {streamId streamId' : UInt32}
    (h : createStreamResult txnId streamId = createStreamResult txnId streamId') :
    streamId = streamId' := by
  have hbits : Binary64.ofNat streamId.toNat = Binary64.ofNat streamId'.toNat := by
    simpa [createStreamResult, integer] using h
  have hlt (id : UInt32) : id.toNat < 2 ^ 53 := Nat.lt_trans id.toNat_lt (by decide)
  exact UInt32.toNat_inj.mp (Binary64.ofNat_injOn (hlt streamId) (hlt streamId') hbits)

def streamBegin (streamId : UInt32) : Reply :=
  .control kMsgTypeUserControl (Endian.toBE 2 0 ++ Endian.toBE 4 streamId.toNat)

def onStatus (streamId : UInt32) (code description : String) : Reply := .command streamId [
  text "onStatus", integer 0, .null,
  .object [named "level" (text "status"), named "code" (text code),
    named "description" (text description)]]

/-- The name and the transaction of an AMF0 command whose first two values are a string
and a number. -/
def requestOf (msg : RtmpMessage) : Option (Bytes × UInt64) :=
  if msg.header.msgType = kMsgTypeAMF0Command then
    match AMF0Decoder.decodeMany 2 { data := msg.payload } with
    | some ([.string name, .number txnId], _) => some (name, txnId)
    | _ => none
  else none

/-- The replies to a command when `created` streams have been created before it. Ids
are given from 1 on. -/
def repliesTo (created : Nat) (name : Bytes) (txnId : UInt64) : List Reply :=
  if name = Bytes.ofAscii "connect" then [connectResult txnId]
  else if name = Bytes.ofAscii "createStream" then
    [createStreamResult txnId (UInt32.ofNat (created + 1))]
  else if name = Bytes.ofAscii "publish" then
    [streamBegin (UInt32.ofNat created),
      onStatus (UInt32.ofNat created) "NetStream.Publish.Start" "Start publishing"]
  else if name = Bytes.ofAscii "play" then
    [streamBegin (UInt32.ofNat created),
      onStatus (UInt32.ofNat created) "Netstream.Play.Start" "Start playing"]
  else []

def createdAfter (created : Nat) (name : Bytes) : Nat :=
  if name = Bytes.ofAscii "createStream" then created + 1 else created

/-- The replies to messages, in order. Any other message has none. -/
def repliesToAll : Nat → List RtmpMessage → List Reply
  | _, [] => []
  | created, msg :: msgs =>
    match requestOf msg with
    | none => repliesToAll created msgs
    | some (name, txnId) =>
      repliesTo created name txnId ++ repliesToAll (createdAfter created name) msgs

/-- The context looks for the same two values. -/
theorem requestOf_eq (msg : RtmpMessage) :
    requestOf msg = (RtmpSession.commandOf msg).map fun cmd => (cmd.name, cmd.txnId) := by
  unfold requestOf RtmpSession.commandOf
  split
  · cases hread : RtmpSession.readCommand msg.payload with
    | some cmd =>
      rw [(RtmpSession.readCommand_eq_some _ _).mp hread]
      rfl
    | none =>
      have hnot (name : Bytes) (txnId : UInt64) (d : AMF0Decoder) :
          AMF0Decoder.decodeMany 2 { data := msg.payload } ≠
            some ([.string name, .number txnId], d) := by
        intro hdecode
        rw [(RtmpSession.readCommand_eq_some _ ⟨name, txnId, d⟩).mpr hdecode] at hread
        cases hread
      split
      · rename_i name txnId d hdecode
        exact absurd hdecode (hnot name txnId d)
      · rfl
  · rfl

/-! ## The replies sent -/

/-- The packet is the reply, and fits a chunk of the announced size. -/
def Sent (r : Reply) (packet : Bytes) : Prop :=
  ∃ c : MessageContent, r.Is c ∧ packet = c.packet ∧ c.Sendable 4096 ∧
    c.msgType ≠ kMsgTypeSetChunkSize

theorem sent_control {msgType : UInt8} {payload : Bytes} (ht : msgType ≠ kMsgTypeSetChunkSize)
    (hlen : payload.length ≤ 4096) :
    (control msgType payload).Sent (sendChunk kChunkCsidControl msgType 0 payload) := by
  have hcsid : 2 ≤ kChunkCsidControl ∧ kChunkCsidControl < 64 := by decide
  exact ⟨_, rfl, rfl, ⟨hcsid, rfl, Int.ofNat_le.mpr hlen⟩, ht⟩

theorem sent_command {enc : AMF0Encoder} {vals : List AMF0Value} (h : enc.Holds vals)
    (hlen : enc.buf.length ≤ 4096) (msgStreamId : UInt32) :
    (command msgStreamId vals).Sent
      (sendChunk kChunkCsidCommand kMsgTypeAMF0Command msgStreamId enc.buf) := by
  have hcsid : 2 ≤ kChunkCsidCommand ∧ kChunkCsidCommand < 64 := by decide
  have ht : kMsgTypeAMF0Command ≠ kMsgTypeSetChunkSize := by decide
  exact ⟨_, ⟨enc.buf, rfl, h.decodeMany⟩, rfl, ⟨hcsid, rfl, Int.ofNat_le.mpr hlen⟩, ht⟩

theorem sent_handleConnect (txnId : UInt64) : (connectResult txnId).Sent (handleConnect txnId) := by
  have h := AMF0Encoder.holds_nil.encodeString (Bytes.ofAscii "_result")
  have h := (h.encodeNumber txnId).encodeObjectStart
  have h := h.encodeNamedString (Bytes.ofAscii "fmsVer") (Bytes.ofAscii "FMS/3,0,1,123")
  have h := h.encodeNamedNumber (Bytes.ofAscii "capabilities") (Binary64.ofNat 31)
  have h := h.encodeObjectEnd.encodeObjectStart
  have h := h.encodeNamedString (Bytes.ofAscii "level") (Bytes.ofAscii "status")
  have h := h.encodeNamedString (Bytes.ofAscii "code")
    (Bytes.ofAscii "NetConnection.Connect.Success")
  have h := h.encodeNamedString (Bytes.ofAscii "description")
    (Bytes.ofAscii "Connection successded")
  have h := h.encodeNamedNumber (Bytes.ofAscii "objectEncoding") (Binary64.ofNat 0)
  apply sent_command h.encodeObjectEnd
  simp only [AMF0Encoder.length_encodeObjectEnd, AMF0Encoder.length_encodeNamedNumber,
    AMF0Encoder.length_encodeNamedString, AMF0Encoder.length_encodeObjectStart,
    AMF0Encoder.length_encodeNumber, AMF0Encoder.length_encodeString]
  decide

theorem sent_streamBegin (streamId : UInt32) :
    (streamBegin streamId).Sent (sendUserControlStreamBegin streamId) := by
  have hpayload : writeUint16BE 0 ++ writeUint32BE streamId =
      Endian.toBE 2 0 ++ Endian.toBE 4 streamId.toNat := by
    rw [writeUint16BE_eq, writeUint32BE_eq]
    rfl
  rw [sendUserControlStreamBegin, hpayload]
  apply sent_control (by decide)
  simp only [List.length_append, Endian.length_toBE, Nat.reduceAdd, Nat.reduceLeDiff]

/-- The texts of an `onStatus` are short. -/
theorem sent_onStatus (streamId : UInt32) {code description : String}
    (hcode : (Bytes.ofAscii code).length ≤ 1000)
    (hdescription : (Bytes.ofAscii description).length ≤ 1000) :
    (onStatus streamId code description).Sent
      (sendOnStatus streamId (Bytes.ofAscii "status") (Bytes.ofAscii code)
        (Bytes.ofAscii description)) := by
  have h := AMF0Encoder.holds_nil.encodeString (Bytes.ofAscii "onStatus")
  have h := (h.encodeNumber (Binary64.ofNat 0)).encodeNull.encodeObjectStart
  have h := h.encodeNamedString (Bytes.ofAscii "level") (Bytes.ofAscii "status")
  have h := h.encodeNamedString (Bytes.ofAscii "code") (Bytes.ofAscii code) (by decide)
    (Nat.le_trans hcode (by decide))
  have h := h.encodeNamedString (Bytes.ofAscii "description") (Bytes.ofAscii description)
    (by decide) (Nat.le_trans hdescription (by decide))
  apply sent_command h.encodeObjectEnd
  have hnames : (Bytes.ofAscii "onStatus").length + (Bytes.ofAscii "level").length +
      (Bytes.ofAscii "status").length + (Bytes.ofAscii "code").length +
      (Bytes.ofAscii "description").length ≤ 100 := by
    decide
  simp only [AMF0Encoder.length_encodeObjectEnd, AMF0Encoder.length_encodeNamedString,
    AMF0Encoder.length_encodeObjectStart, AMF0Encoder.length_encodeNull,
    AMF0Encoder.length_encodeNumber, AMF0Encoder.length_encodeString, List.length_nil]
  omega

theorem sent_createStreamResult (txnId : UInt64) (s : RtmpSession) :
    ∃ packet, (s.handleCreateStream txnId).2 = [.send packet] ∧
      (createStreamResult txnId s.nextStreamId).Sent packet := by
  refine ⟨_, rfl, ?_⟩
  have h := AMF0Encoder.holds_nil.encodeString (Bytes.ofAscii "_result")
  have h := (h.encodeNumber txnId).encodeNull.encodeNumber (Binary64.ofNat s.nextStreamId.toNat)
  apply sent_command h
  simp only [AMF0Encoder.length_encodeNull, AMF0Encoder.length_encodeNumber,
    AMF0Encoder.length_encodeString]
  decide

end Reply

/-! ## Whole sessions -/

namespace RtmpSession

/-- The ids of the session are those of `created` streams. -/
structure Created (created : Nat) (s : RtmpSession) : Prop where
  streamId : s.streamId = UInt32.ofNat created
  nextStreamId : s.nextStreamId = UInt32.ofNat (created + 1)

/-- Serving a command sends its replies, one packet each. -/
theorem Created.serve {created : Nat} {s : RtmpSession} (h : Created created s)
    (cmd : Command) :
    Created (Reply.createdAfter created cmd.name) (s.serve cmd).1 ∧
      List.Forall₂ Reply.Sent (Reply.repliesTo created cmd.name cmd.txnId)
        (sends (s.serve cmd).2) := by
  have hserved := serve_served s cmd
  generalize s.serve cmd = out at hserved ⊢
  unfold Reply.createdAfter Reply.repliesTo
  cases hserved with
  | connect hname =>
    rw [hname, if_neg (by decide), if_pos rfl]
    exact ⟨⟨h.streamId, h.nextStreamId⟩, .cons (Reply.sent_handleConnect _) .nil⟩
  | createStream hname =>
    obtain ⟨packet, heffects, hsent⟩ := Reply.sent_createStreamResult cmd.txnId s
    rw [hname, if_pos rfl, if_neg (by decide), if_pos rfl, heffects, ← h.nextStreamId]
    refine ⟨⟨h.nextStreamId, ?_⟩, .cons hsent .nil⟩
    show s.nextStreamId + 1 = UInt32.ofNat (created + 1 + 1)
    rw [h.nextStreamId, UInt32.ofNat_add (created + 1) 1]
    rfl
  | publish hname =>
    rw [hname, if_neg (by decide), if_neg (by decide), if_neg (by decide), if_pos rfl,
      ← h.streamId]
    refine ⟨⟨h.streamId, h.nextStreamId⟩, .cons (Reply.sent_streamBegin _) (.cons ?_ .nil)⟩
    exact Reply.sent_onStatus s.streamId (by decide) (by decide)
  | play hname =>
    rw [hname, if_neg (by decide), if_neg (by decide), if_neg (by decide), if_neg (by decide),
      if_pos rfl, ← h.streamId]
    refine ⟨⟨h.streamId, h.nextStreamId⟩, .cons (Reply.sent_streamBegin _) (.cons ?_ .nil)⟩
    exact Reply.sent_onStatus s.streamId (by decide) (by decide)
  | other hconnect hcreate hpublish hplay =>
    rw [if_neg hcreate, if_neg hconnect, if_neg hcreate, if_neg hpublish, if_neg hplay]
    exact ⟨h, .nil⟩

/-- Handling messages sends the replies to them, one packet each. -/
theorem Created.run {created : Nat} {s : RtmpSession} (h : Created created s)
    (msgs : List RtmpMessage) :
    List.Forall₂ Reply.Sent (Reply.repliesToAll created msgs) (sends (s.run msgs).2) := by
  induction msgs generalizing created s with
  | nil => exact .nil
  | cons msg msgs ih =>
    have hrun : s.run (msg :: msgs) = (((s.handleMessage msg).1.run msgs).1,
        (s.handleMessage msg).2 ++ ((s.handleMessage msg).1.run msgs).2) := rfl
    rw [hrun, sends_append, Reply.repliesToAll, Reply.requestOf_eq]
    cases hcmd : commandOf msg with
    | none =>
      obtain ⟨hsame, hsilent⟩ := handleMessage_quiet s hcmd
      rw [hsilent.sends_eq]
      apply ih
      exact ⟨hsame.streamId.trans h.streamId, hsame.nextStreamId.trans h.nextStreamId⟩
    | some cmd =>
      obtain ⟨hcreated, hsent⟩ := h.serve cmd
      rw [handleMessage_command s hcmd]
      exact List.rel_append hsent (ih hcreated)

/-- The bytes that `Send` is given from `onHandShakeDone` on. -/
def output (msgs : List RtmpMessage) : Bytes :=
  (RtmpContext.initialMessages.map (·.bytes) ++ sends (run {} msgs).2).flatten

/-- Packets that are replies are those of messages that are them. -/
theorem contents_of_sent {rs : List Reply} {packets : List Bytes}
    (h : List.Forall₂ Reply.Sent rs packets) :
    ∃ cs : List MessageContent, List.Forall₂ Reply.Is rs cs ∧
      packets = cs.map MessageContent.packet ∧
      ∀ c ∈ cs, c.Sendable 4096 ∧ c.msgType ≠ kMsgTypeSetChunkSize := by
  induction h with
  | nil => exact ⟨[], .nil, rfl, nofun⟩
  | cons hsent _ ih =>
    obtain ⟨c, his, rfl, hsendable, ht⟩ := hsent
    obtain ⟨cs, hall, rfl, hcs⟩ := ih
    refine ⟨c :: cs, .cons his hall, rfl, ?_⟩
    intro c' hc'
    rcases List.mem_cons.mp hc' with rfl | hc'
    · exact ⟨hsendable, ht⟩
    · exact hcs c' hc'

/-- The messages of `onHandShakeDone`. -/
def greetingContents : List MessageContent := [
  ⟨kChunkCsidControl, kMsgTypeWindowAckSize, 4, 0, Endian.toBE 4 2500000⟩,
  ⟨kChunkCsidControl, kMsgTypePeerBandwidth, 5, 0, Endian.toBE 4 2500000 ++ [2]⟩,
  ⟨kChunkCsidControl, kMsgTypeSetChunkSize, 4, 0, Endian.toBE 4 4096⟩]

theorem initialMessages_bytes :
    RtmpContext.initialMessages.map (·.bytes) = greetingContents.map MessageContent.packet := by
  decide

theorem greeting_is : List.Forall₂ Reply.Is Reply.greeting greetingContents :=
  .cons rfl (.cons rfl (.cons rfl .nil))

/-- The third of them makes room for the replies. -/
theorem allSendable_greeting {cs : List MessageContent}
    (h : MessageContent.AllSendable 4096 cs) :
    MessageContent.AllSendable kDefaultChunkSize (greetingContents ++ cs) := by
  have hcsid : 2 ≤ kChunkCsidControl ∧ kChunkCsidControl < 64 := by decide
  exact ⟨⟨hcsid, rfl, by decide⟩, ⟨hcsid, rfl, by decide⟩, ⟨hcsid, rfl, by decide⟩, h⟩

/-- A fresh parser delivers the greeting and then the replies to the messages, in the
order of the messages, and has no byte left. -/
theorem output_delivered (msgs : List RtmpMessage) {segs : List Bytes}
    (h : RtmpChunkParse.Segments (output msgs) segs) :
    ∃ st delivered, RtmpChunkParse.receive chunkSizeCallback segs = ⟨st, [], delivered, false⟩ ∧
      List.Forall₂ (fun r msg => r.Is msg.content)
        (Reply.greeting ++ Reply.repliesToAll 0 msgs) delivered := by
  have hstart : Created 0 {} := ⟨rfl, rfl⟩
  obtain ⟨cs, hall, hpackets, hcs⟩ := contents_of_sent (hstart.run msgs)
  have hsendable := allSendable_greeting (MessageContent.allSendable_of_forall hcs)
  have hbytes : output msgs = ((greetingContents ++ cs).map MessageContent.packet).flatten := by
    rw [output, initialMessages_bytes, hpackets, List.map_append]
  rw [hbytes] at h
  obtain ⟨st, delivered, hreceive, hcontent⟩ := RtmpChunkParse.receive_packets hsendable h
  refine ⟨st, delivered, hreceive, ?_⟩
  rw [← List.forall₂_map_right_iff, hcontent]
  exact List.rel_append greeting_is hall

/-- An unknown command, and a publisher with its three commands. -/
def publisherMessages : List RtmpMessage :=
  [connectTo 1 "live", commandMessage (request "FCPublish" 2), createStream 3,
    streamCommand "publish" 4 "test"]

/-- They arrive byte by byte. -/
theorem output_delivered_publisher :
    ∃ st delivered,
      RtmpChunkParse.receive chunkSizeCallback ((output publisherMessages).map ([·])) =
        ⟨st, [], delivered, false⟩ ∧
      List.Forall₂ (fun r msg => r.Is msg.content)
        (Reply.greeting ++ [Reply.connectResult (Binary64.ofNat 1),
          Reply.createStreamResult (Binary64.ofNat 3) 1, Reply.streamBegin 1,
          Reply.onStatus 1 "NetStream.Publish.Start" "Start publishing"]) delivered := by
  have hsegs : RtmpChunkParse.Segments (output publisherMessages)
      ((output publisherMessages).map ([·])) := by
    refine ⟨List.flatMap_singleton' _, ?_⟩
    intro seg hseg
    obtain ⟨b, -, rfl⟩ := List.mem_map.mp hseg
    rw [List.length_singleton]
    decide
  exact output_delivered publisherMessages hsegs

end RtmpSession
