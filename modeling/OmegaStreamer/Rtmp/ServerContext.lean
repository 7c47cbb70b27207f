-- SUMMARY: The whole context of a server: the handlers run while the buffer is parsed, and closing ends the session.
import OmegaStreamer.Rtmp.HandShakeRuns
import OmegaStreamer.Rtmp.Publishing

/-!
# The whole context

`RtmpContext` with the session of its handlers. A message is handled as soon as its
last chunk has been parsed, and the handler may set the size of the next chunk.
`Close` calls the close callback once. Every step is one of `RtmpContext`, in which
the replies are those that the handlers send.
-/

open Resumable RtmpSession

structure ServerContext extends RtmpContext where
  session : RtmpSession := {}

namespace ServerContext

/-! ## Parsing and handling -/

/-- `m_msg_cb`, which is empty before `onHandShakeDone`. -/
def deliver (hasMessageCallback : Bool) (s : RtmpSession) (msg : RtmpMessage) :
    RtmpSession × List Effect :=
  if hasMessageCallback then s.handleMessage msg else (s, [])

/-- What the callback leaves in the chunk size. -/
def chunkSizeAfter (hasMessageCallback : Bool) (s : RtmpSession) : MessageCallback :=
  fun msg n => inChunkSizeAfter n (deliver hasMessageCallback s msg).2

/-- One chunk, with the handling of the message that it completes. -/
def parseOneChunk (hasMessageCallback : Bool) :
    RtmpChunkParse × RtmpSession → Bytes → Attempt (RtmpChunkParse × RtmpSession) Effect :=
  handling (fun s => RtmpChunkParse.parseOneChunk (chunkSizeAfter hasMessageCallback s))
    (deliver hasMessageCallback)

/-! ## Callbacks -/

/-- What a callback leaves behind: the context, its actions, and what the handlers
have done. -/
abbrev Outcome : Type := ServerContext × List RtmpContext.Action × List Effect

/-- `Close`, and the first time `onClose`. -/
def close (ctx : ServerContext) : Outcome :=
  if ctx.connection.closed then (ctx, [.close], [])
  else
    let (session, effects) := ctx.session.onClose
    ({ ctx with connection := ctx.connection.close, session := session }, [.close], effects)

/-- The second phase of `onMessage`. -/
def parse (ctx : ServerContext) : Outcome :=
  let given := ctx.connection.recvBuf
  let r := drain (parseOneChunk ctx.hasMessageCallback) (ctx.chunkParse, ctx.session) given
  let outs := RtmpContext.answers (sends r.delivered)
  ({ ctx with
      chunkParse := r.state.1
      session := r.state.2
      connection := { ctx.connection with recvBuf := r.unread }.sendAll outs
      terminated := r.aborted },
    .parse given r.unread :: outs.map .send, r.delivered)

def onMessage (env : HandShakeEnv) (ctx : ServerContext) : Outcome :=
  if ctx.handShake.isDone then ctx.parse
  else
    let (ret, shaken, acts) := ctx.toRtmpContext.shake env
    let ctx := { ctx with toRtmpContext := shaken }
    if ret < 0 then
      let (ctx, closed, effects) := ctx.close
      (ctx, acts ++ closed, effects)
    else if ret = 0 then
      let (greeted, sent) := ctx.onHandShakeDone
      let ctx := { ctx with toRtmpContext := greeted }
      if ctx.connection.recvBuf = [] then (ctx, acts ++ sent, [])
      else
        let (ctx, parsed, effects) := ctx.parse
        (ctx, acts ++ sent ++ parsed, effects)
    else (ctx, acts, [])

/-! ## Events -/

inductive Event where
  | read (seg : Bytes)
  | readFailed
  | writeSucceeded
  | writeFailed
  deriving DecidableEq, Repr

/-- One event, under the conditions of `RtmpContext.step`. -/
def step (env : HandShakeEnv) (ctx : ServerContext) (e : Event) : Option Outcome :=
  if ctx.terminated then none
  else
    match e with
    | .read seg =>
      if seg = [] then none
      else
        let (ctx, acts, effects) :=
          { ctx with toRtmpContext := ctx.toRtmpContext.received seg }.onMessage env
        some (ctx, .received seg :: acts, effects)
    | .readFailed => some ctx.close
    | .writeSucceeded =>
      if ctx.connection.outstanding then
        match ctx.connection.writeQueue with
        | [] => none
        | out :: _ =>
          let (connection, callback) := ctx.connection.writeSucceeded
          let ctx := { ctx with connection := connection }
          if callback then
            let (next, acts) := ctx.onWriteComplete
            some ({ ctx with toRtmpContext := next }, .written out :: acts, [])
          else some (ctx, [.written out], [])
      else none
    | .writeFailed =>
      if ctx.connection.outstanding then
        some { ctx with connection := { ctx.connection with outstanding := false } }.close
      else none

/-- Nothing is done once an exception has left `Parse`. -/
theorem running_of_step {env : HandShakeEnv} {ctx : ServerContext} {e : Event} {out : Outcome}
    (h : step env ctx e = some out) : ctx.terminated = false := by
  cases hterm : ctx.terminated with
  | false => rfl
  | true => simp only [step, hterm, if_true, reduceCtorEq] at h

/-- The context after `Start`. -/
def start (env : HandShakeEnv) : ServerContext :=
  { toRtmpContext := RtmpContext.start env }

/-- A run from `Start`: the context, the trace, and what the handlers have done. -/
def run (env : HandShakeEnv) (es : List Event) : Option Outcome :=
  (Mealy.run (step env) (start env) es).map fun (ctx, outs) =>
    (ctx, outs.flatMap (·.1), outs.flatMap (·.2))

/-! ## The parser and its handler -/

/-- The parser need not wait for the handler to know the next chunk size. -/
theorem chunkSizeAfter_true (s : RtmpSession) : chunkSizeAfter true s = chunkSizeCallback := by
  funext msg n
  exact inChunkSizeAfter_handleMessage n s msg

/-- Handling the messages while the buffer is parsed does what handling them afterwards
does. -/
theorem drain_parseOneChunk (has : Bool) (st : RtmpChunkParse) (s : RtmpSession) (buf : Bytes) :
    drain (parseOneChunk has) (st, s) buf =
      (st.parse (if has then chunkSizeCallback else fun _ n => n) buf).handled (deliver has) s := by
  have hsame (t : RtmpSession) : RtmpChunkParse.parseOneChunk (chunkSizeAfter has t) =
      RtmpChunkParse.parseOneChunk (if has then chunkSizeCallback else fun _ n => n) := by
    cases has with
    | true => rw [chunkSizeAfter_true]; rfl
    | false => rfl
  exact drain_handling (RtmpChunkParse.parseOneChunk_progressive _) hsame st s buf

/-! ## Steps of the context without its session -/

/-- The event with what the handlers send in it. -/
def Event.answered (effects : List Effect) : Event → RtmpContext.Event
  | .read seg => .read seg (sends effects)
  | .readFailed => .readFailed
  | .writeSucceeded => .writeSucceeded
  | .writeFailed => .writeFailed

theorem parse_refines (ctx : ServerContext) :
    ctx.toRtmpContext.parse (sends ctx.parse.2.2) =
      (ctx.parse.1.toRtmpContext, ctx.parse.2.1) := by
  simp only [parse, RtmpContext.parse, drain_parseOneChunk]
  rfl

theorem close_refines (ctx : ServerContext) :
    ctx.close.1.toRtmpContext = ctx.toRtmpContext.close.1 ∧ ctx.close.2.1 = [.close] ∧
      sends ctx.close.2.2 = [] := by
  unfold close
  split
  · rename_i hclosed
    refine ⟨?_, rfl, rfl⟩
    show ctx.toRtmpContext = { ctx.toRtmpContext with connection := ctx.connection.close }
    rw [TcpConnection.close, ← hclosed]
  · refine ⟨rfl, rfl, ?_⟩
    simp only [onClose]
    split <;> rfl

theorem onMessage_refines (env : HandShakeEnv) (ctx : ServerContext) :
    ctx.toRtmpContext.onMessage env (sends (ctx.onMessage env).2.2) =
      ((ctx.onMessage env).1.toRtmpContext, (ctx.onMessage env).2.1) := by
  simp only [onMessage, RtmpContext.onMessage]
  split
  · exact parse_refines ctx
  generalize ctx.toRtmpContext.shake env = r
  obtain ⟨ret, shaken, acts⟩ := r
  simp only
  split
  · obtain ⟨hctx, hacts, -⟩ := close_refines { ctx with toRtmpContext := shaken }
    rw [hctx, hacts]
    rfl
  split
  · split
    · rfl
    · have hparse := parse_refines
        { ctx with toRtmpContext := shaken.onHandShakeDone.1 }
      simp only at hparse ⊢
      rw [hparse]
  · rfl

/-- Every step is one of `RtmpContext`. -/
theorem step_refines {env : HandShakeEnv} {ctx next : ServerContext} {e : Event}
    {acts : List RtmpContext.Action} {effects : List Effect}
    (h : step env ctx e = some (next, acts, effects)) :
    RtmpContext.step env ctx.toRtmpContext (e.answered effects) =
      some (next.toRtmpContext, acts) := by
  unfold step at h
  unfold RtmpContext.step
  split at h
  · cases h
  rename_i hrunning
  rw [if_neg hrunning]
  cases e with
  | read seg =>
    simp only [Event.answered] at h ⊢
    split at h
    · cases h
    rename_i hseg
    rw [if_neg hseg]
    cases h
    have hon := onMessage_refines env { ctx with toRtmpContext := ctx.toRtmpContext.received seg }
    simp only at hon ⊢
    rw [hon]
  | readFailed =>
    obtain ⟨hctx, hacts, -⟩ := close_refines ctx
    simp only [Event.answered, Option.some.injEq] at h ⊢
    rw [h] at hctx hacts
    simp only at hctx hacts
    rw [hctx, hacts]
    rfl
  | writeSucceeded =>
    simp only [Event.answered] at h ⊢
    split at h
    swap
    · cases h
    rename_i ho
    rw [if_pos ho]
    cases hq : ctx.connection.writeQueue with
    | nil =>
      rw [hq] at h
      cases h
    | cons out rest =>
      rw [hq] at h
      dsimp only at h ⊢
      split at h
      · rename_i hcallback
        cases h
        exact if_pos hcallback
      · rename_i hcallback
        cases h
        exact if_neg hcallback
  | writeFailed =>
    simp only [Event.answered] at h ⊢
    split at h
    swap
    · cases h
    rename_i ho
    rw [if_pos ho]
    have hclose := close_refines
      { ctx with connection := { ctx.connection with outstanding := false } }
    obtain ⟨hctx, hacts, -⟩ := hclose
    simp only [Option.some.injEq] at h ⊢
    rw [h] at hctx hacts
    simp only at hctx hacts
    rw [hctx, hacts]
    rfl

end ServerContext
