-- SUMMARY: RTMP chunk and message headers, and the constants of the chunk format.
import OmegaStreamer.Base.BytesReader

/-!
# RTMP headers

The chunk format, from `RtmpHeader.h`. A message is cut into chunks; each chunk
starts with a basic header (its `fmt` and chunk stream id), a message header
whose size depends on `fmt`, and possibly an extended timestamp.
-/

def kDefaultChunkSize : Int := 128

def kMaxChunkSize : UInt32 := 65535

/-- From this value on a timestamp is sent in the extended field. -/
def kMaxTimestampInHeader : UInt32 := 0xFFFFFF

/-- The two-bit format of a chunk (`kChunkFmt0` to `kChunkFmt3`). -/
inductive ChunkFmt where
  | fmt0
  | fmt1
  | fmt2
  | fmt3
  deriving DecidableEq, Repr

namespace ChunkFmt

/-- `(p[0] >> 6) & 0x03`. -/
def ofByte (b : UInt8) : ChunkFmt :=
  match (b >>> 6 &&& 0x03).toNat with
  | 0 => .fmt0
  | 1 => .fmt1
  | 2 => .fmt2
  | _ => .fmt3

def toUInt8 : ChunkFmt → UInt8
  | .fmt0 => 0
  | .fmt1 => 1
  | .fmt2 => 2
  | .fmt3 => 3

/-- The size of the message header by format. -/
def kMsgHeaderSize : ChunkFmt → Nat
  | .fmt0 => 11
  | .fmt1 => 7
  | .fmt2 => 3
  | .fmt3 => 0

theorem kMsgHeaderSize_le (fmt : ChunkFmt) : fmt.kMsgHeaderSize ≤ 11 := by
  cases fmt <;> decide

end ChunkFmt

/-! ## Message types -/

def kMsgTypeSetChunkSize : UInt8 := 1
def kMsgTypeUserControl : UInt8 := 4
def kMsgTypeWindowAckSize : UInt8 := 5
def kMsgTypePeerBandwidth : UInt8 := 6
def kMsgTypeAudio : UInt8 := 8
def kMsgTypeVideo : UInt8 := 9
def kMsgTypeAMF0Data : UInt8 := 18
def kMsgTypeAMF0Command : UInt8 := 20

/-- Protocol control messages travel on this chunk stream. -/
def kChunkCsidControl : Nat := 2
def kChunkCsidCommand : Nat := 3

/-! ## Messages -/

/-- A chunk message header as it is kept for the later chunks of its chunk
stream. -/
structure RtmpMsgHeader where
  csid : Nat := 0
  /-- Absolute, in milliseconds. -/
  timestamp : UInt32 := 0
  msgLen : UInt32 := 0
  msgType : UInt8 := 0
  msgStreamId : UInt32 := 0
  fmt : ChunkFmt := .fmt0
  hasExtTs : Bool := false
  deriving DecidableEq, Repr

/-- A message, complete or still being put together from its chunks. -/
structure RtmpMessage where
  header : RtmpMsgHeader := {}
  payload : Bytes := []
  deriving DecidableEq, Repr

def RtmpMessage.isComplete (msg : RtmpMessage) : Bool :=
  msg.header.msgLen.toNat ≤ msg.payload.length

@[simp] theorem RtmpMessage.isComplete_iff (msg : RtmpMessage) :
    msg.isComplete = true ↔ msg.header.msgLen.toNat ≤ msg.payload.length := by
  simp [RtmpMessage.isComplete]
