-- SUMMARY: The context of one connection: how read and write events drive the handshake and the chunk parser.
import OmegaStreamer.Lib.Mealy
import OmegaStreamer.Network.TcpConnection
import OmegaStreamer.Rtmp.ChunkParse
import OmegaStreamer.Rtmp.HandShake

/-!
# RtmpContext

The server's side of one connection: the callbacks of `RtmpContext.cpp` over the
connection, the handshake and the chunk parser. The events are the completions
of reads and writes, in the order in which the loop runs them. Each step answers
with the actions it performs, so that a run leaves a trace.

What the handlers of complete messages send in answer is not decided here: a
read event comes with the packets that are sent while its messages are handled.
-/

open Resumable BytesReader BytesWriter

/-- Who gives a buffer to `Send`. -/
inductive Origin where
  /-- The handshake. -/
  | packet (p : HandShakePacket)
  /-- `onHandShakeDone`. -/
  | control
  /-- A message handler. -/
  | reply
  deriving DecidableEq, Repr

structure Outgoing where
  origin : Origin
  bytes : Bytes
  deriving DecidableEq, Repr

structure RtmpContext where
  connection : TcpConnection Outgoing := {}
  handShake : RtmpHandShake := {}
  chunkParse : RtmpChunkParse := {}
  /-- `onHandShakeDone` has set the callback of the parser. -/
  hasMessageCallback : Bool := false
  /-- An exception has left `Parse`. Nobody catches it. -/
  terminated : Bool := false

/-! ## Protocol messages -/

/-- One format 0 chunk that is a whole message. -/
def sendChunk (csid : Nat) (msgType : UInt8) (msgStreamId : UInt32) (data : Bytes) : Bytes :=
  [UInt8.ofNat csid &&& 0x3F] ++ writeUint24BE 0 ++ writeUint24BE (UInt32.ofNat data.length) ++
    [msgType] ++ writeUint32LE msgStreamId ++ data

theorem length_sendChunk (csid : Nat) (msgType : UInt8) (msgStreamId : UInt32) (data : Bytes) :
    (sendChunk csid msgType msgStreamId data).length = 12 + data.length := by
  simp only [sendChunk, writeUint24BE_eq, writeUint32LE_eq, List.length_append,
    Endian.length_toBE, Endian.length_toLE, List.length_cons, List.length_nil]

def sendSetChunkSize (chunkSize : UInt32) : Bytes :=
  sendChunk kChunkCsidControl kMsgTypeSetChunkSize 0 (writeUint32BE chunkSize)

def sendWindowAckSize (ackSize : UInt32) : Bytes :=
  sendChunk kChunkCsidControl kMsgTypeWindowAckSize 0 (writeUint32BE ackSize)

def sendPeerBandwidth (size : UInt32) (limitType : UInt8) : Bytes :=
  sendChunk kChunkCsidControl kMsgTypePeerBandwidth 0 (writeUint32BE size ++ [limitType])

namespace RtmpContext

/-- What can be seen of a run. -/
inductive Action where
  /-- Bytes of the client have been read into the buffer. -/
  | received (seg : Bytes)
  /-- The handshake has taken bytes from the buffer. -/
  | retrieved (data : Bytes)
  | send (out : Outgoing)
  /-- The write of a buffer is complete. -/
  | written (out : Outgoing)
  /-- The state of the handshake has become `done`. -/
  | handShakeDone
  /-- `Parse` was given a buffer and left some of it unread. -/
  | parse (given left : Bytes)
  | close
  deriving DecidableEq, Repr

/-! ## Callbacks -/

def sendAll (ctx : RtmpContext) (outs : List Outgoing) : RtmpContext × List Action :=
  ({ ctx with connection := ctx.connection.sendAll outs }, outs.map .send)

def close (ctx : RtmpContext) : RtmpContext × List Action :=
  ({ ctx with connection := ctx.connection.close }, [.close])

/-- The messages that `onHandShakeDone` sends. -/
def initialMessages : List Outgoing := [
  ⟨.control, sendWindowAckSize 2500000⟩,
  ⟨.control, sendPeerBandwidth 2500000 2⟩,
  ⟨.control, sendSetChunkSize 4096⟩]

def onHandShakeDone (ctx : RtmpContext) : RtmpContext × List Action :=
  { ctx with hasMessageCallback := true }.sendAll initialMessages

/-- The handshake's packets, as they are given to `Send`. -/
def packets (sends : List (HandShakePacket × Bytes)) : List Outgoing :=
  sends.map fun (p, bytes) => ⟨.packet p, bytes⟩

/-- The handshake may have become `done`. -/
def doneAction (hs : RtmpHandShake) : List Action :=
  if hs.isDone then [.handShakeDone] else []

/-- What the message handlers send. -/
def answers (replies : List Bytes) : List Outgoing := replies.map fun bytes => ⟨.reply, bytes⟩

/-- The second phase of `onMessage`. `Parse` never returns a negative value. -/
def parse (ctx : RtmpContext) (replies : List Bytes) : RtmpContext × List Action :=
  let given := ctx.connection.recvBuf
  let cb : MessageCallback := if ctx.hasMessageCallback then chunkSizeCallback else fun _ n => n
  let r := ctx.chunkParse.parse cb given
  let ctx := { ctx with
    chunkParse := r.state
    connection := { ctx.connection with recvBuf := r.unread }
    terminated := r.aborted }
  let (ctx, sent) := ctx.sendAll (answers replies)
  (ctx, .parse given r.unread :: sent)

/-- The first phase of `onMessage`: a call of `HandShake`, and its value. -/
def shake (env : HandShakeEnv) (ctx : RtmpContext) : Int × RtmpContext × List Action :=
  let buf := ctx.connection.recvBuf
  let r := ctx.handShake.handShake env buf
  let ctx := { ctx with
    handShake := r.handShake
    connection := { ctx.connection with recvBuf := buf.drop r.retrieved } }
  let (ctx, sent) := ctx.sendAll (packets r.sends)
  let taken := if r.retrieved = 0 then [] else [Action.retrieved (buf.take r.retrieved)]
  (r.ret, ctx, taken ++ sent ++ doneAction r.handShake)

def onMessage (env : HandShakeEnv) (ctx : RtmpContext) (replies : List Bytes) :
    RtmpContext × List Action :=
  if ctx.handShake.isDone then ctx.parse replies
  else
    let (ret, ctx, shaken) := ctx.shake env
    if ret < 0 then
      let (ctx, closed) := ctx.close
      (ctx, shaken ++ closed)
    else if ret = 0 then
      let (ctx, sent) := ctx.onHandShakeDone
      if ctx.connection.recvBuf = [] then (ctx, shaken ++ sent)
      else
        let (ctx, parsed) := ctx.parse replies
        (ctx, shaken ++ sent ++ parsed)
    else (ctx, shaken)

def onWriteComplete (ctx : RtmpContext) : RtmpContext × List Action :=
  if ctx.handShake.isDone then (ctx, [])
  else
    let (hs, sends) := ctx.handShake.writeComplete
    let (ctx, sent) := { ctx with handShake := hs }.sendAll (packets sends)
    (ctx, sent ++ doneAction hs)

/-- `doRead` has put a segment into the buffer. -/
def received (ctx : RtmpContext) (seg : Bytes) : RtmpContext :=
  { ctx with connection := ctx.connection.received seg }

/-! ## Events -/

/-- What the loop runs. -/
inductive Event where
  /-- A read has succeeded; the handlers of its messages send `replies`. -/
  | read (seg : Bytes) (replies : List Bytes)
  | readFailed
  | writeSucceeded
  | writeFailed
  deriving DecidableEq, Repr

/-- One event. A successful read has at least one byte, a write completes only
when one is outstanding, and nothing happens after the program has ended. A read
that had succeeded before the connection was closed may still be run. -/
def step (env : HandShakeEnv) (ctx : RtmpContext) (e : Event) :
    Option (RtmpContext × List Action) :=
  if ctx.terminated then none
  else
    match e with
    | .read seg replies =>
      if seg = [] then none
      else
        let (ctx, acts) := (ctx.received seg).onMessage env replies
        some (ctx, .received seg :: acts)
    | .readFailed => some ctx.close
    | .writeSucceeded =>
      if ctx.connection.outstanding then
        match ctx.connection.writeQueue with
        | [] => none
        | out :: _ =>
          let (connection, callback) := ctx.connection.writeSucceeded
          let ctx := { ctx with connection := connection }
          if callback then
            let (ctx, acts) := ctx.onWriteComplete
            some (ctx, .written out :: acts)
          else some (ctx, [.written out])
      else none
    | .writeFailed =>
      if ctx.connection.outstanding then
        some ({ ctx with connection := ctx.connection.writeFailed }, [.close])
      else none

/-- The context after `Start`, in the role of the server. -/
def start (env : HandShakeEnv) : RtmpContext :=
  { handShake := (RtmpHandShake.start env {}).1 }

/-- A run from `Start`, with its trace. -/
def run (env : HandShakeEnv) (es : List Event) : Option (RtmpContext × List Action) :=
  (Mealy.run (step env) (start env) es).map fun (ctx, acts) => (ctx, acts.flatten)

/-! ## Reading a trace -/

/-- The client's bytes that have arrived. -/
def arrived (trace : List Action) : Bytes :=
  trace.flatMap fun
    | .received seg => seg
    | _ => []

/-- The bytes that the handshake has taken from the buffer. -/
def retrieved (trace : List Action) : Bytes :=
  trace.flatMap fun
    | .retrieved data => data
    | _ => []

/-- The bytes that `Parse` has taken from the buffer. -/
def parsed (trace : List Action) : Bytes :=
  trace.flatMap fun
    | .parse given left => given.take (given.length - left.length)
    | _ => []

/-- The actions of the handshake and of `onHandShakeDone`. -/
def isHandShakeAction : Action → Bool
  | .retrieved _ => true
  | .send ⟨.packet _, _⟩ => true
  | .send ⟨.control, _⟩ => true
  | .written ⟨.packet _, _⟩ => true
  | .handShakeDone => true
  | _ => false

def handShakeActions (trace : List Action) : List Action := trace.filter isHandShakeAction

/-- The server's first packet is made at the start. -/
def s0s1 (env : HandShakeEnv) : Bytes := (start env).handShake.c1s1

/-- Its second packet answers the client's first. -/
def s2 (env : HandShakeEnv) (c0c1 : Bytes) : Bytes := (start env).handShake.c2s2For env c0c1

/-- What the handshake does from the first byte to the last, with its packets. -/
def script (c0c1 s0s1 s2 c2 : Bytes) : List Action :=
  [.retrieved c0c1, .send ⟨.packet .c1s1, s0s1⟩, .written ⟨.packet .c1s1, s0s1⟩,
    .send ⟨.packet .c2s2, s2⟩, .written ⟨.packet .c2s2, s2⟩, .retrieved c2, .handShakeDone] ++
  initialMessages.map .send

end RtmpContext
