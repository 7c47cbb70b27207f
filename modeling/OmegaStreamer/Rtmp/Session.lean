-- SUMMARY: What the context does with complete messages: commands, metadata, audio, video, and closing.
import OmegaStreamer.Media.MediaSource
import OmegaStreamer.Media.MediaSourceMgr
import OmegaStreamer.Rtmp.AMF0Encoder
import OmegaStreamer.Rtmp.Context

/-!
# The session of a context

The handlers of `RtmpContext.cpp`, over the fields that they read and write. The
rest of the context is in `Context`; a handler reaches it, the media source and
the registry only through the calls it makes, which are its effects, in order.
Log lines are left out.
-/

open BytesReader BytesWriter

inductive RtmpRole where
  /-- Before `publish` and `play`. -/
  | unknown
  | publish
  | player
  deriving DecidableEq, Repr

inductive TrackType where
  | audio
  | video
  | metaData
  deriving DecidableEq, Repr

/-- A packet with what `makePacket` and the handlers put into it. -/
structure RtmpPacket extends Packet where
  type : TrackType
  /-- Four bits of the tag header. -/
  codec : UInt8 := 0
  dts : UInt64
  pts : UInt64
  timestamp : UInt32
  isConfig : Bool := false
  isMetadata : Bool := false
  deriving DecidableEq, Repr

/-- A call on `m_media_source`. A context adds no consumers. -/
abbrev SourceCall : Type := MediaSource.Call Empty RtmpPacket

/-- What a handler does outside its fields. -/
inductive Effect where
  /-- `m_connection->Send`. -/
  | send (packet : Bytes)
  /-- `m_chunk_parse.SetInChunkSize`. -/
  | setInChunkSize (size : UInt32)
  | call (source : SourceRef) (call : SourceCall)
  /-- `MediaSourceMgrIns.Remove`. -/
  | remove (app stream : Bytes)
  deriving DecidableEq, Repr

structure RtmpSession where
  app : Bytes := []
  tcUrl : Bytes := []
  streamName : Bytes := []
  /-- What the next `createStream` is given. -/
  nextStreamId : UInt32 := 1
  streamId : UInt32 := 0
  role : RtmpRole := .unknown
  mediaSource : Option SourceRef := none
  audioCount : UInt32 := 0
  videoCount : UInt32 := 0
  videoKeyframeCount : UInt32 := 0
  deriving DecidableEq, Repr

/-! ## Replies -/

/-- An `onStatus` command. -/
def sendOnStatus (streamId : UInt32) (level code description : Bytes) : Bytes :=
  let enc : AMF0Encoder := {}
  let enc := enc.encodeString (Bytes.ofAscii "onStatus")
  let enc := enc.encodeNumber (Binary64.ofNat 0)
  let enc := enc.encodeNull
  let enc := enc.encodeObjectStart
  let enc := enc.encodeNamedString (Bytes.ofAscii "level") level
  let enc := enc.encodeNamedString (Bytes.ofAscii "code") code
  let enc := enc.encodeNamedString (Bytes.ofAscii "description") description
  let enc := enc.encodeObjectEnd
  sendChunk kChunkCsidCommand kMsgTypeAMF0Command streamId enc.buf

/-- The event type of StreamBegin is 0. -/
def sendUserControlStreamBegin (streamId : UInt32) : Bytes :=
  sendChunk kChunkCsidControl kMsgTypeUserControl 0 (writeUint16BE 0 ++ writeUint32BE streamId)

/-- The bytes of the answer to `connect`. -/
def handleConnect (txnId : UInt64) : Bytes :=
  let enc : AMF0Encoder := {}
  let enc := enc.encodeString (Bytes.ofAscii "_result")
  let enc := enc.encodeNumber txnId
  let enc := enc.encodeObjectStart
  let enc := enc.encodeNamedString (Bytes.ofAscii "fmsVer") (Bytes.ofAscii "FMS/3,0,1,123")
  let enc := enc.encodeNamedNumber (Bytes.ofAscii "capabilities") (Binary64.ofNat 31)
  let enc := enc.encodeObjectEnd
  let enc := enc.encodeObjectStart
  let enc := enc.encodeNamedString (Bytes.ofAscii "level") (Bytes.ofAscii "status")
  let enc := enc.encodeNamedString (Bytes.ofAscii "code")
    (Bytes.ofAscii "NetConnection.Connect.Success")
  let enc := enc.encodeNamedString (Bytes.ofAscii "description")
    (Bytes.ofAscii "Connection successded")
  let enc := enc.encodeNamedNumber (Bytes.ofAscii "objectEncoding") (Binary64.ofNat 0)
  let enc := enc.encodeObjectEnd
  sendChunk kChunkCsidCommand kMsgTypeAMF0Command 0 enc.buf

/-- The place of the last occurrence. -/
def rfind (c : UInt8) : Bytes → Option Nat
  | [] => none
  | b :: rest =>
    match rfind c rest with
    | some pos => some (pos + 1)
    | none => if b = c then some 0 else none

namespace RtmpSession

/-! ## Commands -/

/-- A command message: its first two values, and the decoder behind them. -/
structure Command where
  name : Bytes
  txnId : UInt64
  decoder : AMF0Decoder
  deriving DecidableEq, Repr

/-- The start of `handleAMF0Command`. -/
def readCommand (payload : Bytes) : Option Command :=
  let decoder : AMF0Decoder := { data := payload }
  let (cmdVal, decoder) := decoder.decodeNext
  match cmdVal with
  | .string cmdName =>
    let (txnVal, decoder) := decoder.decodeNext
    match txnVal with
    | .number txnId => some ⟨cmdName, txnId, decoder⟩
    | _ => none
  | _ => none

/-- The value as a string, or what stands for any other value. -/
def stringOr (other : Bytes) : AMF0Value → Bytes
  | .string s => s
  | _ => other

/-- The app and the url after a `connect` command with the given third value. An app
that is not named is the last part of the url. -/
def connectNames (names : Bytes × Bytes) (objVal : AMF0Value) : Bytes × Bytes :=
  let (app, tcUrl) := match objVal with
    | .object properties =>
      (AMF0Object.getString properties (Bytes.ofAscii "app"),
        AMF0Object.getString properties (Bytes.ofAscii "tcUrl"))
    | _ => names
  if app = [] ∧ tcUrl ≠ [] then
    match rfind 0x2F tcUrl with
    | some pos => (tcUrl.drop (pos + 1), tcUrl)
    | none => (app, tcUrl)
  else (app, tcUrl)

def connect (s : RtmpSession) (objVal : AMF0Value) : RtmpSession :=
  let (app, tcUrl) := connectNames (s.app, s.tcUrl) objVal
  { s with app, tcUrl }

def handleCreateStream (s : RtmpSession) (txnId : UInt64) : RtmpSession × List Effect :=
  let s := { s with streamId := s.nextStreamId, nextStreamId := s.nextStreamId + 1 }
  let enc : AMF0Encoder := {}
  let enc := enc.encodeString (Bytes.ofAscii "_result")
  let enc := enc.encodeNumber txnId
  let enc := enc.encodeNull
  let enc := enc.encodeNumber (Binary64.ofNat s.streamId.toNat)
  (s, [.send (sendChunk kChunkCsidCommand kMsgTypeAMF0Command 0 enc.buf)])

def handlePublish (s : RtmpSession) (streamName : Bytes) : RtmpSession × List Effect :=
  let s := { s with streamName := streamName, role := .publish }
  (s, [.send (sendUserControlStreamBegin s.streamId),
    .send (sendOnStatus s.streamId (Bytes.ofAscii "status")
      (Bytes.ofAscii "NetStream.Publish.Start") (Bytes.ofAscii "Start publishing"))])

def handlePlay (s : RtmpSession) (streamName : Bytes) : RtmpSession × List Effect :=
  let s := { s with streamName := streamName, role := .player }
  (s, [.send (sendUserControlStreamBegin s.streamId),
    .send (sendOnStatus s.streamId (Bytes.ofAscii "status")
      (Bytes.ofAscii "Netstream.Play.Start") (Bytes.ofAscii "Start playing"))])

/-- The fourth value of `publish` and `play`. -/
def streamNameOf (decoder : AMF0Decoder) : Bytes :=
  let (_, decoder) := decoder.decodeNext
  stringOr [] decoder.decodeNext.1

/-- What `handleAMF0Command` does with a command. The stream type that `publish` has
as well is only logged. -/
def serve (s : RtmpSession) (cmd : Command) : RtmpSession × List Effect :=
  if cmd.name = Bytes.ofAscii "connect" then
    (s.connect cmd.decoder.decodeNext.1, [.send (handleConnect cmd.txnId)])
  else if cmd.name = Bytes.ofAscii "createStream" then s.handleCreateStream cmd.txnId
  else if cmd.name = Bytes.ofAscii "publish" then s.handlePublish (streamNameOf cmd.decoder)
  else if cmd.name = Bytes.ofAscii "play" then s.handlePlay (streamNameOf cmd.decoder)
  else (s, [])

def handleAMF0Command (s : RtmpSession) (msg : RtmpMessage) : RtmpSession × List Effect :=
  match readCommand msg.payload with
  | none => (s, [])
  | some cmd => s.serve cmd

/-! ## Media -/

def makePacket (msg : RtmpMessage) (track : TrackType) : RtmpPacket where
  type := track
  pts := msg.header.timestamp.toUInt64
  dts := msg.header.timestamp.toUInt64
  timestamp := msg.header.timestamp
  payload := msg.payload

/-- A call on the source, if there is one. -/
def callSource (s : RtmpSession) (call : SourceCall) : List Effect :=
  match s.mediaSource with
  | some source => [.call source call]
  | none => []

/-- The values behind the first one are only logged. -/
def handleAMF0Data (s : RtmpSession) (msg : RtmpMessage) : List Effect :=
  let decoder : AMF0Decoder := { data := msg.payload }
  match decoder.decodeNext.1 with
  | .string first =>
    if first = Bytes.ofAscii "@setDataFrame" ∨ first = Bytes.ofAscii "@onMetaData" then
      s.callSource (.setMetaData { makePacket msg .metaData with isMetadata := true })
    else []
  | _ => []

/-- The call for an audio message with a payload. -/
def audioCall (msg : RtmpMessage) : SourceCall :=
  let format := msg.payload.at 0 >>> 4 &&& 0x0F
  let pkt := { makePacket msg .audio with codec := format }
  if format = 10 ∧ msg.payload.length ≥ 2 ∧ msg.payload.at 1 = 0 then
    .setAudioHeader { pkt with isConfig := true }
  else .onAudio pkt

def handleAudioData (s : RtmpSession) (msg : RtmpMessage) : RtmpSession × List Effect :=
  let s := { s with audioCount := s.audioCount + 1 }
  if msg.payload = [] then (s, []) else (s, s.callSource (audioCall msg))

def isKeyframe (msg : RtmpMessage) : Bool := msg.payload.at 0 >>> 4 &&& 0x0F = 1

/-- The call for a video message with a payload. -/
def videoCall (msg : RtmpMessage) : SourceCall :=
  let codecId := msg.payload.at 0 &&& 0x0F
  let pkt := { makePacket msg .video with codec := codecId, isKeyframe := isKeyframe msg }
  if (codecId = 7 ∨ codecId = 12) ∧ msg.payload.length ≥ 2 ∧ msg.payload.at 1 = 0 then
    .setVideoHeader { pkt with isConfig := true }
  else .onVideo pkt

def handleVideoData (s : RtmpSession) (msg : RtmpMessage) : RtmpSession × List Effect :=
  let s := { s with videoCount := s.videoCount + 1 }
  if msg.payload = [] then (s, [])
  else
    let s := if isKeyframe msg then { s with videoKeyframeCount := s.videoKeyframeCount + 1 }
      else s
    (s, s.callSource (videoCall msg))

/-! ## Messages -/

def handleSetChunkSize (msg : RtmpMessage) : List Effect :=
  if msg.payload.length < 4 then []
  else
    let newSize := readUint32BE msg.payload &&& 0x7FFFFFFF
    if newSize = 0 ∨ newSize > kMaxChunkSize then [] else [.setInChunkSize newSize]

/-- Messages of the other types are logged at most. -/
def handleMessage (s : RtmpSession) (msg : RtmpMessage) : RtmpSession × List Effect :=
  if msg.header.msgType = kMsgTypeSetChunkSize then (s, handleSetChunkSize msg)
  else if msg.header.msgType = kMsgTypeAMF0Command then s.handleAMF0Command msg
  else if msg.header.msgType = kMsgTypeAMF0Data then (s, s.handleAMF0Data msg)
  else if msg.header.msgType = kMsgTypeAudio then s.handleAudioData msg
  else if msg.header.msgType = kMsgTypeVideo then s.handleVideoData msg
  else (s, [])

def onClose (s : RtmpSession) : RtmpSession × List Effect :=
  let removed := if s.role = .publish ∧ s.app ≠ [] ∧ s.streamName ≠ [] then
    [Effect.remove s.app s.streamName] else []
  ({ s with mediaSource := none }, removed)

/-- The session after messages, and their effects. -/
def run (s : RtmpSession) (msgs : List RtmpMessage) : RtmpSession × List Effect :=
  Mealy.exec handleMessage s msgs

/-! ## What a handler can do -/

/-- The first two values of a payload are those that `Decode` returns. -/
theorem readCommand_eq_some (payload : Bytes) (cmd : Command) :
    readCommand payload = some cmd ↔
      AMF0Decoder.decodeMany 2 { data := payload } =
        some ([.string cmd.name, .number cmd.txnId], cmd.decoder) := by
  have hstart : ({ data := payload } : AMF0Decoder).pos ≤ ({ data := payload } : AMF0Decoder).len :=
    Nat.zero_le _
  have hfirst := AMF0Decoder.decode_eq_some hstart
  have hahead := AMF0Decoder.decodeNext_ahead hstart
  simp only [readCommand, AMF0Decoder.decodeMany, hfirst,
    AMF0Decoder.decode_eq_some hahead.pos_le_len]
  generalize AMF0Decoder.decodeNext { data := payload } = first
  obtain ⟨cmdVal, d₁⟩ := first
  generalize AMF0Decoder.decodeNext d₁ = second
  obtain ⟨txnVal, d₂⟩ := second
  obtain ⟨name, txnId, decoder⟩ := cmd
  cases cmdVal with
  | string s =>
    cases txnVal with
    | number n => simp [and_assoc]
    | boolean b => simp
    | string s' => simp
    | object properties => simp
    | null => simp
  | number n => simp
  | boolean b => simp
  | object properties => simp
  | null => simp

/-- The command that a message is. -/
def commandOf (msg : RtmpMessage) : Option Command :=
  if msg.header.msgType = kMsgTypeAMF0Command then readCommand msg.payload else none

theorem msgType_of_command {msg : RtmpMessage} {cmd : Command} (h : commandOf msg = some cmd) :
    msg.header.msgType = kMsgTypeAMF0Command := by
  unfold commandOf at h
  split at h
  · assumption
  · cases h

/-- The ways in which a command is served. -/
inductive Served (s : RtmpSession) (cmd : Command) : RtmpSession × List Effect → Prop where
  | connect (h : cmd.name = Bytes.ofAscii "connect") :
      Served s cmd (s.connect cmd.decoder.decodeNext.1, [.send (handleConnect cmd.txnId)])
  | createStream (h : cmd.name = Bytes.ofAscii "createStream") :
      Served s cmd (s.handleCreateStream cmd.txnId)
  | publish (h : cmd.name = Bytes.ofAscii "publish") :
      Served s cmd (s.handlePublish (streamNameOf cmd.decoder))
  | play (h : cmd.name = Bytes.ofAscii "play") :
      Served s cmd (s.handlePlay (streamNameOf cmd.decoder))
  | other (hconnect : cmd.name ≠ Bytes.ofAscii "connect")
      (hcreate : cmd.name ≠ Bytes.ofAscii "createStream")
      (hpublish : cmd.name ≠ Bytes.ofAscii "publish") (hplay : cmd.name ≠ Bytes.ofAscii "play") :
      Served s cmd (s, [])

theorem serve_served (s : RtmpSession) (cmd : Command) : Served s cmd (s.serve cmd) := by
  unfold serve
  split
  · rename_i h
    exact .connect h
  rename_i hconnect
  split
  · rename_i h
    exact .createStream h
  rename_i hcreate
  split
  · rename_i h
    exact .publish h
  rename_i hpublish
  split
  · rename_i h
    exact .play h
  · rename_i hplay
    exact .other hconnect hcreate hpublish hplay

/-- The ways in which a message is handled. -/
inductive Handled (s : RtmpSession) (msg : RtmpMessage) : RtmpSession × List Effect → Prop where
  | command {cmd : Command} (h : commandOf msg = some cmd) : Handled s msg (s.serve cmd)
  | setChunkSize (ht : msg.header.msgType = kMsgTypeSetChunkSize) (h : commandOf msg = none) :
      Handled s msg (s, handleSetChunkSize msg)
  | metaData (ht : msg.header.msgType = kMsgTypeAMF0Data) (h : commandOf msg = none) :
      Handled s msg (s, s.handleAMF0Data msg)
  | audio (ht : msg.header.msgType = kMsgTypeAudio) (h : commandOf msg = none) :
      Handled s msg (s.handleAudioData msg)
  | video (ht : msg.header.msgType = kMsgTypeVideo) (h : commandOf msg = none) :
      Handled s msg (s.handleVideoData msg)
  | other (hsize : msg.header.msgType ≠ kMsgTypeSetChunkSize)
      (hdata : msg.header.msgType ≠ kMsgTypeAMF0Data)
      (haudio : msg.header.msgType ≠ kMsgTypeAudio)
      (hvideo : msg.header.msgType ≠ kMsgTypeVideo) (h : commandOf msg = none) :
      Handled s msg (s, [])

theorem handleMessage_handled (s : RtmpSession) (msg : RtmpMessage) :
    Handled s msg (s.handleMessage msg) := by
  have hnot {t : UInt8} (ht : msg.header.msgType = t) (hne : t ≠ kMsgTypeAMF0Command) :
      commandOf msg = none := by
    rw [commandOf, ht, if_neg hne]
  unfold handleMessage
  split
  · rename_i ht
    exact .setChunkSize ht (hnot ht (by decide))
  rename_i hsize
  split
  · rename_i ht
    have hread : commandOf msg = readCommand msg.payload := if_pos ht
    unfold handleAMF0Command
    split
    · rename_i hnone
      refine .other hsize ?_ ?_ ?_ (hread.trans hnone)
      · rw [ht]; decide
      · rw [ht]; decide
      · rw [ht]; decide
    · rename_i cmd hsome
      exact .command (hread.trans hsome)
  rename_i hcommand
  have hnone : commandOf msg = none := if_neg hcommand
  split
  · rename_i ht
    exact .metaData ht hnone
  rename_i hdata
  split
  · rename_i ht
    exact .audio ht hnone
  rename_i haudio
  split
  · rename_i ht
    exact .video ht hnone
  · rename_i hvideo
    exact .other hsize hdata haudio hvideo hnone

/-! ## Reading effects -/

/-- The packets passed to `Send`. -/
def sends (effects : List Effect) : List Bytes :=
  effects.filterMap fun
    | .send packet => some packet
    | _ => none

/-- The calls on media sources. -/
def sourceCalls (effects : List Effect) : List (SourceRef × SourceCall) :=
  effects.filterMap fun
    | .call source call => some (source, call)
    | _ => none

/-- The calls of `Remove`. -/
def removals (effects : List Effect) : List (Bytes × Bytes) :=
  effects.filterMap fun
    | .remove app stream => some (app, stream)
    | _ => none

/-- The chunk size after effects. -/
def inChunkSizeAfter (n : Int) (effects : List Effect) : Int :=
  effects.foldl (fun n effect =>
    match effect with
    | .setInChunkSize size => size.toNat
    | _ => n) n

@[simp] theorem sends_append (es es' : List Effect) : sends (es ++ es') = sends es ++ sends es' :=
  List.filterMap_append

@[simp] theorem sourceCalls_append (es es' : List Effect) :
    sourceCalls (es ++ es') = sourceCalls es ++ sourceCalls es' :=
  List.filterMap_append

@[simp] theorem removals_append (es es' : List Effect) :
    removals (es ++ es') = removals es ++ removals es' :=
  List.filterMap_append

/-- A handler that only calls the source or sets the chunk size. -/
structure Silent (effects : List Effect) : Prop where
  sends_eq : sends effects = []
  removals_eq : removals effects = []

theorem silent_nil : Silent [] := ⟨rfl, rfl⟩

theorem silent_callSource (s : RtmpSession) (call : SourceCall) : Silent (s.callSource call) := by
  unfold callSource
  cases s.mediaSource with
  | none => exact silent_nil
  | some source => exact ⟨rfl, rfl⟩

theorem silent_handleAMF0Data (s : RtmpSession) (msg : RtmpMessage) :
    Silent (s.handleAMF0Data msg) := by
  unfold handleAMF0Data
  simp only
  split
  · split
    · exact silent_callSource s _
    · exact silent_nil
  · exact silent_nil

theorem silent_handleSetChunkSize (msg : RtmpMessage) : Silent (handleSetChunkSize msg) := by
  unfold handleSetChunkSize
  split
  · exact silent_nil
  · simp only
    split
    · exact silent_nil
    · exact ⟨rfl, rfl⟩

/-- The two sessions differ in their counters only. -/
structure SameNames (s s' : RtmpSession) : Prop where
  app : s'.app = s.app
  tcUrl : s'.tcUrl = s.tcUrl
  streamName : s'.streamName = s.streamName
  nextStreamId : s'.nextStreamId = s.nextStreamId
  streamId : s'.streamId = s.streamId
  role : s'.role = s.role
  mediaSource : s'.mediaSource = s.mediaSource

theorem handleAudioData_quiet (s : RtmpSession) (msg : RtmpMessage) :
    SameNames s (s.handleAudioData msg).1 ∧ Silent (s.handleAudioData msg).2 := by
  unfold handleAudioData
  simp only
  split
  · exact ⟨⟨rfl, rfl, rfl, rfl, rfl, rfl, rfl⟩, silent_nil⟩
  · exact ⟨⟨rfl, rfl, rfl, rfl, rfl, rfl, rfl⟩, silent_callSource _ _⟩

theorem handleVideoData_quiet (s : RtmpSession) (msg : RtmpMessage) :
    SameNames s (s.handleVideoData msg).1 ∧ Silent (s.handleVideoData msg).2 := by
  unfold handleVideoData
  simp only
  split
  · exact ⟨⟨rfl, rfl, rfl, rfl, rfl, rfl, rfl⟩, silent_nil⟩
  · split
    · exact ⟨⟨rfl, rfl, rfl, rfl, rfl, rfl, rfl⟩, silent_callSource _ _⟩
    · exact ⟨⟨rfl, rfl, rfl, rfl, rfl, rfl, rfl⟩, silent_callSource _ _⟩

theorem handleMessage_command (s : RtmpSession) {msg : RtmpMessage} {cmd : Command}
    (h : commandOf msg = some cmd) : s.handleMessage msg = s.serve cmd := by
  have hhandled := handleMessage_handled s msg
  generalize s.handleMessage msg = out at hhandled ⊢
  cases hhandled with
  | command h' =>
    rw [h] at h'
    cases h'
    rfl
  | setChunkSize ht h' => simp only [h, reduceCtorEq] at h'
  | metaData ht h' => simp only [h, reduceCtorEq] at h'
  | audio ht h' => simp only [h, reduceCtorEq] at h'
  | video ht h' => simp only [h, reduceCtorEq] at h'
  | other _ _ _ _ h' => simp only [h, reduceCtorEq] at h'

/-- A message that is no command sends nothing and removes nothing. -/
theorem handleMessage_quiet (s : RtmpSession) {msg : RtmpMessage} (h : commandOf msg = none) :
    SameNames s (s.handleMessage msg).1 ∧ Silent (s.handleMessage msg).2 := by
  have hsame : SameNames s s := ⟨rfl, rfl, rfl, rfl, rfl, rfl, rfl⟩
  have hhandled := handleMessage_handled s msg
  generalize s.handleMessage msg = out at hhandled ⊢
  cases hhandled with
  | command h' => simp only [h, reduceCtorEq] at h'
  | setChunkSize ht _ => exact ⟨hsame, silent_handleSetChunkSize msg⟩
  | metaData ht _ => exact ⟨hsame, silent_handleAMF0Data s msg⟩
  | audio ht _ => exact handleAudioData_quiet s msg
  | video ht _ => exact handleVideoData_quiet s msg
  | other _ _ _ _ _ => exact ⟨hsame, silent_nil⟩

/-! ### The chunk size -/

@[simp] theorem inChunkSizeAfter_callSource (n : Int) (s : RtmpSession) (call : SourceCall) :
    inChunkSizeAfter n (s.callSource call) = n := by
  unfold callSource
  cases s.mediaSource <;> rfl

theorem inChunkSizeAfter_serve (n : Int) (s : RtmpSession) (cmd : Command) :
    inChunkSizeAfter n (s.serve cmd).2 = n := by
  have hserved := serve_served s cmd
  generalize s.serve cmd = out at hserved ⊢
  cases hserved <;> rfl

theorem inChunkSizeAfter_handleSetChunkSize (n : Int) {msg : RtmpMessage}
    (ht : msg.header.msgType = kMsgTypeSetChunkSize) :
    inChunkSizeAfter n (handleSetChunkSize msg) = chunkSizeCallback msg n := by
  rw [chunkSizeCallback, if_pos ht]
  unfold handleSetChunkSize
  split
  · rename_i hshort
    exact (if_pos hshort).symm
  rename_i hlong
  refine Eq.trans ?_ (if_neg hlong).symm
  simp only
  split <;> rfl

/-- Handling a message does to the chunk size what the parser's callback says. -/
theorem inChunkSizeAfter_handleMessage (n : Int) (s : RtmpSession) (msg : RtmpMessage) :
    inChunkSizeAfter n (s.handleMessage msg).2 = chunkSizeCallback msg n := by
  have hother (h : msg.header.msgType ≠ kMsgTypeSetChunkSize) : chunkSizeCallback msg n = n :=
    if_neg h
  have hhandled := handleMessage_handled s msg
  generalize s.handleMessage msg = out at hhandled ⊢
  cases hhandled with
  | command h =>
    rw [inChunkSizeAfter_serve, hother]
    rw [msgType_of_command h]
    decide
  | setChunkSize ht _ =>
    exact inChunkSizeAfter_handleSetChunkSize n ht
  | metaData ht _ =>
    rw [hother (by rw [ht]; decide)]
    unfold handleAMF0Data
    simp only
    split
    · split
      · exact inChunkSizeAfter_callSource n s _
      · rfl
    · rfl
  | audio ht _ =>
    rw [hother (by rw [ht]; decide)]
    unfold handleAudioData
    simp only
    split
    · rfl
    · exact inChunkSizeAfter_callSource n _ _
  | video ht _ =>
    rw [hother (by rw [ht]; decide)]
    unfold handleVideoData
    simp only
    split
    · rfl
    · exact inChunkSizeAfter_callSource n _ _
  | other hsize _ _ _ _ => exact (hother hsize).symm

/-! ## Commands of a client -/

def commandMessage (enc : AMF0Encoder) : RtmpMessage where
  header := {
    csid := kChunkCsidCommand
    msgLen := UInt32.ofNat enc.buf.length
    msgType := kMsgTypeAMF0Command }
  payload := enc.buf

/-- A name and a transaction. -/
def request (name : String) (txnId : Nat) : AMF0Encoder :=
  (({} : AMF0Encoder).encodeString (Bytes.ofAscii name)).encodeNumber (Binary64.ofNat txnId)

def connectTo (txnId : Nat) (app : String) : RtmpMessage :=
  let enc := (request "connect" txnId).encodeObjectStart
  let enc := enc.encodeNamedString (Bytes.ofAscii "app") (Bytes.ofAscii app)
  commandMessage enc.encodeObjectEnd

def createStream (txnId : Nat) : RtmpMessage :=
  commandMessage (request "createStream" txnId).encodeNull

/-- `publish` or `play` of a stream. -/
def streamCommand (name : String) (txnId : Nat) (stream : String) : RtmpMessage :=
  commandMessage ((request name txnId).encodeNull.encodeString (Bytes.ofAscii stream))

end RtmpSession
