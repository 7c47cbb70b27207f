-- SUMMARY: A sender of messages in chunks, as a machine whose outputs are the chunks it writes.
import OmegaStreamer.Lib.Mealy
import OmegaStreamer.Rtmp.ChunkFormat

/-!
# A sender of chunks

The peer of the parser, as the comments of `RtmpHeader.h` describe the format. It
cuts messages into chunks no longer than its chunk size, may interleave the
chunks of different chunk streams in any order, and may change its chunk size by
a SetChunkSize message. It is the abstract side of the chunk parser: nothing here
is translated from the code.
-/

open BytesReader

/-- A payload whose length fits the three-byte field. -/
abbrev Payload := { p : Bytes // p.length < 2 ^ 24 }

def Payload.msgLen (p : Payload) : UInt24 := ⟨p.val.length, p.property⟩

/-- A timestamp delta below the value that announces an extended timestamp. -/
abbrev ShortDelta := Fin 0xFFFFFF

def ShortDelta.toUInt24 (d : ShortDelta) : UInt24 := Fin.castLE (by decide) d

/-- A message as its sender knows it. -/
structure SentMessage where
  csid : Nat
  msgType : UInt8
  msgStreamId : UInt32
  payload : Payload
  /-- The timestamp by the delta rules. -/
  timestamp : UInt32
  /-- The delta that a message begun with a format 3 chunk adds once more. -/
  repeated : UInt32 := 0
  /-- The timestamp without any delta that is added once more: the last absolute
  timestamp and the deltas written since. -/
  shown : UInt32
  deriving DecidableEq

/-- One direction of one chunk stream. -/
structure SendStream where
  last : Option SentMessage := none
  /-- The last explicit delta, if it is newer than the last absolute timestamp. -/
  delta : Option ShortDelta := none
  /-- The extended timestamp of the message under way. -/
  extTs : Option UInt32 := none
  /-- Whether an extended timestamp was ever written. -/
  extSeen : Bool := false
  /-- What is left of the message under way. -/
  rest : Bytes := []

structure Sender where
  streams : Nat → SendStream := fun _ => {}
  chunkSize : Nat := 128

/-- How a message is begun. -/
inductive MessageStart where
  | fmt0 (timestamp : UInt32) (msgType : UInt8) (msgStreamId : UInt32)
  | fmt1 (delta : ShortDelta) (msgType : UInt8)
  | fmt2 (delta : ShortDelta)
  | fmt3
  deriving DecidableEq, Repr

/-- What a sender does next: it begins a message, or sends the next chunk of the
message under way on a chunk stream. -/
inductive SendEvent where
  | start (id : ChunkStreamId) (how : MessageStart) (payload : Payload)
  | more (id : ChunkStreamId)

/-- A chunk, with the message that it completes. -/
structure ChunkSent where
  chunk : Chunk
  completed : Option SentMessage

/-! ## Beginning a message -/

namespace MessageStart

/-- The message begun. Formats 1 to 3 need an earlier message on the chunk
stream, whose stream id they keep; formats 2 and 3 keep the length and the type
as well. -/
def message (how : MessageStart) (str : SendStream) (csid : Nat) (payload : Payload) :
    Option SentMessage :=
  match how, str.last with
  | .fmt0 timestamp msgType msgStreamId, _ =>
    some { csid, msgType, msgStreamId, payload, timestamp, shown := timestamp }
  | .fmt1 delta msgType, some m =>
    some {
      csid, msgType, payload
      msgStreamId := m.msgStreamId
      timestamp := m.timestamp + delta.toUInt24.toUInt32
      shown := m.shown + delta.toUInt24.toUInt32 }
  | .fmt2 delta, some m =>
    if payload.msgLen = m.payload.msgLen then
      some {
        csid, payload
        msgType := m.msgType
        msgStreamId := m.msgStreamId
        timestamp := m.timestamp + delta.toUInt24.toUInt32
        shown := m.shown + delta.toUInt24.toUInt32 }
    else none
  | .fmt3, some m =>
    if payload.msgLen = m.payload.msgLen then
      let repeated := (str.delta.map fun d => d.toUInt24.toUInt32).getD 0
      some {
        csid, payload, repeated
        msgType := m.msgType
        msgStreamId := m.msgStreamId
        timestamp := m.timestamp + repeated
        shown := m.shown }
    else none
  | _, none => none

/-- What can be begun: one constructor for each format of the first chunk, `m₀` the
last message of the chunk stream. -/
inductive Begun (str : SendStream) (csid : Nat) (payload : Payload) :
    MessageStart → SentMessage → Prop where
  | fmt0 (timestamp : UInt32) (msgType : UInt8) (msgStreamId : UInt32) :
      Begun str csid payload (.fmt0 timestamp msgType msgStreamId)
        { csid, msgType, msgStreamId, payload, timestamp, shown := timestamp }
  | fmt1 {m₀ : SentMessage} (hlast : str.last = some m₀) (delta : ShortDelta) (msgType : UInt8) :
      Begun str csid payload (.fmt1 delta msgType)
        { csid, msgType, payload
          msgStreamId := m₀.msgStreamId
          timestamp := m₀.timestamp + delta.toUInt24.toUInt32
          shown := m₀.shown + delta.toUInt24.toUInt32 }
  | fmt2 {m₀ : SentMessage} (hlast : str.last = some m₀)
      (hlen : payload.val.length = m₀.payload.val.length) (delta : ShortDelta) :
      Begun str csid payload (.fmt2 delta)
        { csid, payload
          msgType := m₀.msgType
          msgStreamId := m₀.msgStreamId
          timestamp := m₀.timestamp + delta.toUInt24.toUInt32
          shown := m₀.shown + delta.toUInt24.toUInt32 }
  | fmt3 {m₀ : SentMessage} (hlast : str.last = some m₀)
      (hlen : payload.val.length = m₀.payload.val.length) (repeated : UInt32) :
      Begun str csid payload .fmt3
        { csid, payload, repeated
          msgType := m₀.msgType
          msgStreamId := m₀.msgStreamId
          timestamp := m₀.timestamp + repeated
          shown := m₀.shown }

theorem message_begun {how : MessageStart} {str : SendStream} {csid : Nat} {payload : Payload}
    {m : SentMessage} (h : how.message str csid payload = some m) :
    Begun str csid payload how m := by
  unfold message at h
  split at h
  · cases h
    exact .fmt0 _ _ _
  · rename_i hlast
    cases h
    exact .fmt1 hlast _ _
  · rename_i hlast
    split at h
    · rename_i hsame
      cases h
      exact .fmt2 hlast (congrArg Fin.val hsame) _
    · cases h
  · rename_i hlast
    split at h
    · rename_i hsame
      cases h
      exact .fmt3 hlast (congrArg Fin.val hsame) _
    · cases h
  · cases h

/-- The message begun has the payload and the chunk stream asked for. -/
theorem Begun.payload_csid {how : MessageStart} {str : SendStream} {csid : Nat}
    {payload : Payload} {m : SentMessage} (h : Begun str csid payload how m) :
    m.payload = payload ∧ m.csid = csid := by
  cases h with
  | fmt0 => exact ⟨rfl, rfl⟩
  | fmt1 => exact ⟨rfl, rfl⟩
  | fmt2 => exact ⟨rfl, rfl⟩
  | fmt3 => exact ⟨rfl, rfl⟩

/-- The message header of the first chunk. A large timestamp leaves `0xFFFFFF`
in the three-byte field. -/
def header (how : MessageStart) (payload : Payload) : ChunkMsgHeader :=
  match how with
  | .fmt0 timestamp msgType msgStreamId =>
    .fmt0 ⟨min timestamp.toNat 0xFFFFFF, by omega⟩ payload.msgLen msgType msgStreamId
  | .fmt1 delta msgType => .fmt1 delta.toUInt24 payload.msgLen msgType
  | .fmt2 delta => .fmt2 delta.toUInt24
  | .fmt3 => .fmt3

/-- The extended timestamp of the message begun. A format 3 chunk repeats the
last one. -/
def extTs (how : MessageStart) (str : SendStream) : Option UInt32 :=
  match how with
  | .fmt0 timestamp .. => if timestamp.toNat ≥ 0xFFFFFF then some timestamp else none
  | .fmt1 .. => none
  | .fmt2 .. => none
  | .fmt3 => str.extTs

def delta (how : MessageStart) (str : SendStream) : Option ShortDelta :=
  match how with
  | .fmt0 .. => none
  | .fmt1 delta _ => some delta
  | .fmt2 delta => some delta
  | .fmt3 => str.delta

/-- The chunk stream with the message `m` begun and nothing of it sent. -/
def stream (how : MessageStart) (str : SendStream) (m : SentMessage) : SendStream where
  last := some m
  delta := how.delta str
  extTs := how.extTs str
  extSeen := str.extSeen || (how.extTs str).isSome
  rest := m.payload.val

end MessageStart

/-! ## Sending a chunk -/

/-- The number in the payload of a SetChunkSize message. -/
def SentMessage.newChunkSize (m : SentMessage) : Nat := Endian.ofBE m.payload.val

/-- A SetChunkSize message holds a four-byte number from 1 to 65535. -/
def SentMessage.Permitted (m : SentMessage) : Prop :=
  m.msgType = kMsgTypeSetChunkSize →
    m.payload.val.length = 4 ∧ 1 ≤ m.newChunkSize ∧ m.newChunkSize ≤ 65535

instance (m : SentMessage) : Decidable m.Permitted := inferInstanceAs (Decidable (_ → _))

namespace Sender

/-- The next chunk of the message `m`, which is under way on the chunk stream
`str`. A SetChunkSize message takes effect after its last chunk. -/
def sendPiece (s : Sender) (id : ChunkStreamId) (header : ChunkMsgHeader) (str : SendStream)
    (m : SentMessage) : Sender × ChunkSent :=
  let rest := str.rest.drop s.chunkSize
  let streams := Function.update s.streams id.csid { str with rest := rest }
  let chunk := { id, header, extTs := str.extTs, data := str.rest.take s.chunkSize }
  if rest = [] then
    let chunkSize := if m.msgType = kMsgTypeSetChunkSize then m.newChunkSize else s.chunkSize
    ({ streams, chunkSize }, { chunk, completed := some m })
  else ({ s with streams }, { chunk, completed := none })

def step (s : Sender) : SendEvent → Option (Sender × ChunkSent)
  | .start id how payload =>
    let str := s.streams id.csid
    if str.rest = [] then
      match how.message str id.csid payload with
      | none => none
      | some m =>
        if m.Permitted then some (s.sendPiece id (how.header payload) (how.stream str m) m)
        else none
    else none
  | .more id =>
    let str := s.streams id.csid
    if str.rest = [] then none
    else
      match str.last with
      | none => none
      | some m => some (s.sendPiece id .fmt3 str m)

/-- The bytes of the chunks, in order. -/
def bytes (sent : List ChunkSent) : Bytes := (sent.map fun o => o.chunk.encode).flatten

/-- The messages completed, in the order of their last chunks. -/
def completed (sent : List ChunkSent) : List SentMessage := sent.filterMap (·.completed)

@[simp] theorem completed_concat (sent : List ChunkSent) (o : ChunkSent) :
    completed (sent ++ [o]) = completed sent ++ o.completed.toList := by
  cases h : o.completed <;> simp [completed, h]

/-! ## The steps of a sender -/

/-- What a step can do: both events send a piece of a message that is under way
on the chunk stream. -/
inductive Stepped (s : Sender) : SendEvent → Sender → ChunkSent → Prop where
  | start {id : ChunkStreamId} {how : MessageStart} {payload : Payload} {m : SentMessage}
      (idle : (s.streams id.csid).rest = [])
      (hm : how.message (s.streams id.csid) id.csid payload = some m) (hp : m.Permitted) :
      Stepped s (.start id how payload)
        (s.sendPiece id (how.header payload) (how.stream (s.streams id.csid) m) m).1
        (s.sendPiece id (how.header payload) (how.stream (s.streams id.csid) m) m).2
  | more {id : ChunkStreamId} {m : SentMessage} (busy : (s.streams id.csid).rest ≠ [])
      (hm : (s.streams id.csid).last = some m) :
      Stepped s (.more id) (s.sendPiece id .fmt3 (s.streams id.csid) m).1
        (s.sendPiece id .fmt3 (s.streams id.csid) m).2

theorem step_eq_some {s s' : Sender} {e : SendEvent} {o : ChunkSent}
    (h : s.step e = some (s', o)) : Stepped s e s' o := by
  cases e with
  | start id how payload =>
    simp only [step] at h
    split at h
    · rename_i idle
      split at h
      · cases h
      · rename_i m hm
        split at h
        · rename_i hp
          have hstart := Stepped.start idle hm hp
          rw [Option.some.inj h] at hstart
          exact hstart
        · cases h
    · cases h
  | more id =>
    simp only [step] at h
    split at h
    · cases h
    · rename_i busy
      split at h
      · cases h
      · rename_i m hm
        have hmore := Stepped.more busy hm
        rw [Option.some.inj h] at hmore
        exact hmore

@[simp] theorem sendPiece_streams (s : Sender) (id : ChunkStreamId) (header : ChunkMsgHeader)
    (str : SendStream) (m : SentMessage) :
    (s.sendPiece id header str m).1.streams =
      Function.update s.streams id.csid { str with rest := str.rest.drop s.chunkSize } := by
  unfold sendPiece
  simp only
  split <;> rfl

/-- A piece of a message changes its own chunk stream only. -/
theorem forall_sendPiece (P : Nat → SendStream → Prop) {s : Sender}
    (hs : ∀ csid, P csid (s.streams csid)) {id : ChunkStreamId} {header : ChunkMsgHeader}
    {str : SendStream} {m : SentMessage}
    (hone : P id.csid { str with rest := str.rest.drop s.chunkSize }) (csid : Nat) :
    P csid ((s.sendPiece id header str m).1.streams csid) := by
  rw [sendPiece_streams]
  by_cases hid : csid = id.csid
  · subst hid
    rw [Function.update_self]
    exact hone
  · rw [Function.update_of_ne hid]
    exact hs csid

@[simp] theorem sendPiece_chunk (s : Sender) (id : ChunkStreamId) (header : ChunkMsgHeader)
    (str : SendStream) (m : SentMessage) :
    (s.sendPiece id header str m).2.chunk =
      { id, header, extTs := str.extTs, data := str.rest.take s.chunkSize } := by
  unfold sendPiece
  simp only
  split <;> rfl

theorem length_encode_of_step {s s' : Sender} {e : SendEvent} {o : ChunkSent}
    (h : s.step e = some (s', o)) : o.chunk.encode.length ≤ 18 + s.chunkSize := by
  have hpiece : ∀ id header str m,
      (s.sendPiece id header str m).2.chunk.encode.length ≤ 18 + s.chunkSize := by
    intro id header str m
    have hhead := (s.sendPiece id header str m).2.chunk.length_encodeHead_le
    have hdata : (s.sendPiece id header str m).2.chunk.data.length ≤ s.chunkSize := by
      rw [sendPiece_chunk]
      exact List.length_take_le _ _
    rw [Chunk.encode, List.length_append]
    omega
  cases step_eq_some h with
  | start => exact hpiece _ _ _ _
  | more => exact hpiece _ _ _ _

/-- The last piece completes the message. -/
theorem sendPiece_last {s : Sender} {str : SendStream} (h : str.rest.drop s.chunkSize = [])
    (id : ChunkStreamId) (header : ChunkMsgHeader) (m : SentMessage) :
    (s.sendPiece id header str m).2.completed = some m ∧
      (s.sendPiece id header str m).1.chunkSize =
        if m.msgType = kMsgTypeSetChunkSize then m.newChunkSize else s.chunkSize := by
  simp [sendPiece, h]

theorem sendPiece_not_last {s : Sender} {str : SendStream} (h : str.rest.drop s.chunkSize ≠ [])
    (id : ChunkStreamId) (header : ChunkMsgHeader) (m : SentMessage) :
    (s.sendPiece id header str m).2.completed = none ∧
      (s.sendPiece id header str m).1.chunkSize = s.chunkSize := by
  unfold sendPiece
  simp only
  rw [if_neg h]
  exact ⟨rfl, rfl⟩

end Sender
