-- SUMMARY: Stream metadata: the value that the data handler reads it from, and the object that publishers send.
import OmegaStreamer.Rtmp.AMF0Format
import OmegaStreamer.Rtmp.Session

/-!
# Metadata

A data message is the string `@setDataFrame`, the string `onMetaData` and an object.
The handler takes the value behind the first string for the metadata, and that is the
second string. It takes one value more only behind `@onMetaData`, which is none of the
two. So it reads no object; the message itself is passed on to the source.
-/

namespace AMF0Object

/-- The value of the property, if that is a number. -/
def getNumber (properties : List (Bytes × AMF0Value)) (key : Bytes)
    (default : UInt64 := Binary64.ofNat 0) : UInt64 :=
  match get properties key with
  | some (.number n) => n
  | _ => default

end AMF0Object

/-- The properties of a value that is an object. -/
def AMF0Value.asObject : AMF0Value → Option (List (Bytes × AMF0Value))
  | .object properties => some properties
  | _ => none

/-- What is logged of the metadata, before the conversion to `int`. -/
structure MetaLog where
  width : UInt64
  height : UInt64
  framerate : UInt64
  videodatarate : UInt64
  audiosamplerate : UInt64
  audiodatarate : UInt64
  deriving DecidableEq, Repr

def MetaLog.ofObject (properties : List (Bytes × AMF0Value)) : MetaLog where
  width := AMF0Object.getNumber properties (Bytes.ofAscii "width")
  height := AMF0Object.getNumber properties (Bytes.ofAscii "height")
  framerate := AMF0Object.getNumber properties (Bytes.ofAscii "framerate")
  videodatarate := AMF0Object.getNumber properties (Bytes.ofAscii "videodatarate")
  audiosamplerate := AMF0Object.getNumber properties (Bytes.ofAscii "audiosamplerate")
  audiodatarate := AMF0Object.getNumber properties (Bytes.ofAscii "audiodatarate")

namespace RtmpSession

/-- `handleAMF0Data` with what it logs. -/
def handleAMF0DataLogged (s : RtmpSession) (msg : RtmpMessage) : Option MetaLog × List Effect :=
  let decoder : AMF0Decoder := { data := msg.payload }
  let (first, decoder) := decoder.decodeNext
  match first with
  | .string first =>
    if first = Bytes.ofAscii "@setDataFrame" ∨ first = Bytes.ofAscii "@onMetaData" then
      let decoder := if first = Bytes.ofAscii "@onMetaData" then decoder.decodeNext.2 else decoder
      let metaVal := decoder.decodeNext.1
      (metaVal.asObject.map MetaLog.ofObject,
        s.callSource (.setMetaData { makePacket msg .metaData with isMetadata := true }))
    else (none, [])
  | _ => (none, [])

/-- The object that `handleAMF0Data` reads. -/
def metaObject (payload : Bytes) : Option (List (Bytes × AMF0Value)) :=
  let decoder : AMF0Decoder := { data := payload }
  let (first, decoder) := decoder.decodeNext
  match first with
  | .string first =>
    if first = Bytes.ofAscii "@setDataFrame" then decoder.decodeNext.1.asObject
    else if first = Bytes.ofAscii "@onMetaData" then decoder.decodeNext.2.decodeNext.1.asObject
    else none
  | _ => none

/-- The log is of that object, and the effects do not depend on it. -/
theorem handleAMF0DataLogged_eq (s : RtmpSession) (msg : RtmpMessage) :
    s.handleAMF0DataLogged msg =
      ((metaObject msg.payload).map MetaLog.ofObject, s.handleAMF0Data msg) := by
  unfold handleAMF0DataLogged metaObject handleAMF0Data
  simp only
  generalize AMF0Decoder.decodeNext { data := msg.payload } = r
  obtain ⟨first, decoder⟩ := r
  cases first with
  | string first =>
    by_cases hframe : first = Bytes.ofAscii "@setDataFrame"
    · have hne : Bytes.ofAscii "@setDataFrame" ≠ Bytes.ofAscii "@onMetaData" := by decide
      simp only [hframe, hne, true_or, if_true, if_false]
    · by_cases hmeta : first = Bytes.ofAscii "@onMetaData"
      · have hne : Bytes.ofAscii "@onMetaData" ≠ Bytes.ofAscii "@setDataFrame" := by decide
        simp only [hmeta, hne, or_true, if_true, if_false]
      · simp only [hframe, hmeta, or_self, if_false, Option.map_none]
  | number n => rfl
  | boolean b => rfl
  | object properties => rfl
  | null => rfl

/-! ## Where the object has to stand -/

/-- The first value of what was written, with the decoder at the second one. -/
theorem decodeNext_encodeAll (past : Bytes) (v : AMF0Syntax) (vals : List AMF0Syntax)
    (rest : Bytes) :
    (AMF0Decoder.reading past (encodeAll (v :: vals) ++ rest)).decodeNext =
      (v.value, AMF0Decoder.reading (past ++ v.encode) (encodeAll vals ++ rest)) := by
  have hahead : encodeAll (v :: vals) ++ rest = v.encode ++ (encodeAll vals ++ rest) := by
    rw [encodeAll, List.flatMap_cons, List.append_assoc]
    rfl
  rw [hahead, AMF0Decoder.decodeNext, AMF0Decoder.decode_encode]
  rfl

theorem decodeNext_first (v : AMF0Syntax) (vals : List AMF0Syntax) (rest : Bytes) :
    ({ data := encodeAll (v :: vals) ++ rest } : AMF0Decoder).decodeNext =
      (v.value, AMF0Decoder.reading v.encode (encodeAll vals ++ rest)) :=
  decodeNext_encodeAll [] v vals rest

def setDataFrame : AMF0String := ⟨Bytes.ofAscii "@setDataFrame", by decide⟩

def onMetaData : AMF0String := ⟨Bytes.ofAscii "onMetaData", by decide⟩

def atOnMetaData : AMF0String := ⟨Bytes.ofAscii "@onMetaData", by decide⟩

/-- Behind `@setDataFrame` the next value is read. -/
theorem metaObject_setDataFrame (v : AMF0Syntax) (vals : List AMF0Syntax) (rest : Bytes) :
    metaObject (encodeAll (.string setDataFrame :: v :: vals) ++ rest) = v.value.asObject := by
  unfold metaObject
  simp only [decodeNext_first, decodeNext_encodeAll, AMF0Syntax.value, setDataFrame, if_true]

/-- Behind `@onMetaData` one value is left out. -/
theorem metaObject_atOnMetaData (skipped v : AMF0Syntax) (vals : List AMF0Syntax) (rest : Bytes) :
    metaObject (encodeAll (.string atOnMetaData :: skipped :: v :: vals) ++ rest) =
      v.value.asObject := by
  have hne : Bytes.ofAscii "@onMetaData" ≠ Bytes.ofAscii "@setDataFrame" := by decide
  unfold metaObject
  simp only [decodeNext_first, decodeNext_encodeAll, AMF0Syntax.value, atOnMetaData, hne, if_false,
    if_true]

/-! ## Messages of the documented form -/

/-- A data message with `@setDataFrame`, `onMetaData` and an object. -/
structure MetaMessage where
  header : RtmpMsgHeader := {}
  /-- The count of an array; an object has none. -/
  count : Option UInt32 := none
  pairs : AMF0Pairs
  /-- What follows the object. -/
  rest : Bytes := []

namespace MetaMessage

/-- The third value. -/
def object (m : MetaMessage) : AMF0Syntax :=
  match m.count with
  | none => .object m.pairs
  | some count => .ecmaArray count m.pairs

def message (m : MetaMessage) : RtmpMessage where
  header := { m.header with msgType := kMsgTypeAMF0Data }
  payload := encodeAll [.string setDataFrame, .string onMetaData, m.object] ++ m.rest

end MetaMessage

/-- A source that is attached is given the message once, unchanged. -/
def StoredOnce (s : RtmpSession) (m : MetaMessage) : Prop :=
  ∀ source, s.mediaSource = some source → ∃ pkt : RtmpPacket,
    sourceCalls (s.handleMessage m.message).2 = [(source, .setMetaData pkt)] ∧
      pkt.payload = m.message.payload

/-- The metadata is read from the third value, and the message is stored. -/
structure Taken (s : RtmpSession) (m : MetaMessage) : Prop where
  object : metaObject m.message.payload = some m.pairs.properties
  stored : StoredOnce s m

/-- The second string is read, which is no object. -/
theorem metaObject_message (m : MetaMessage) : metaObject m.message.payload = none :=
  metaObject_setDataFrame (.string onMetaData) [m.object] m.rest

theorem handleAMF0Data_message (s : RtmpSession) (m : MetaMessage) :
    s.handleAMF0Data m.message =
      s.callSource (.setMetaData { makePacket m.message .metaData with isMetadata := true }) := by
  have hpayload : m.message.payload =
      encodeAll [.string setDataFrame, .string onMetaData, m.object] ++ m.rest := rfl
  unfold handleAMF0Data
  rw [hpayload]
  simp only [decodeNext_first, AMF0Syntax.value, setDataFrame, true_or, if_true]

theorem handleMessage_message (s : RtmpSession) (m : MetaMessage) :
    s.handleMessage m.message = (s, s.handleAMF0Data m.message) := by
  have ht : m.message.header.msgType = kMsgTypeAMF0Data := rfl
  unfold handleMessage
  rw [ht, if_neg (by decide), if_neg (by decide), if_pos rfl]

theorem storedOnce (s : RtmpSession) (m : MetaMessage) : StoredOnce s m := by
  intro source hsource
  refine ⟨{ makePacket m.message .metaData with isMetadata := true }, ?_, rfl⟩
  rw [handleMessage_message, handleAMF0Data_message, callSource, hsource]
  rfl

/-- The metadata of no documented message is taken; all that happens is that it is
stored. -/
theorem metaData_missed (s : RtmpSession) (m : MetaMessage) : ¬ Taken s m ∧ StoredOnce s m := by
  constructor
  · intro htaken
    have hobject := htaken.object
    rw [metaObject_message] at hobject
    cases hobject
  · exact storedOnce s m

/-- A publisher with its source. -/
def attached : RtmpSession where
  app := Bytes.ofAscii "live"
  streamName := Bytes.ofAscii "test"
  role := .publish
  mediaSource := some ⟨0, Bytes.ofAscii "live", Bytes.ofAscii "test"⟩

/-- The width of the picture is 1920. -/
def widthMessage : MetaMessage where
  count := some 1
  pairs := .cons ⟨Bytes.ofAscii "width", by decide⟩ (.number (Binary64.ofNat 1920)) .nil

theorem widthMessage_missed : ¬ Taken attached widthMessage := by
  intro htaken
  have hread : (metaObject widthMessage.message.payload).isNone := by decide +kernel
  rw [htaken.object] at hread
  cases hread

end RtmpSession
