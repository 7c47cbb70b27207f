-- SUMMARY: A server over its receive buffer in memory: it stays inside the vector, and does what it does over strings of bytes.
import OmegaStreamer.Network.ReadLoop
import OmegaStreamer.Rtmp.ServerRuns

/-!
# A server over memory

The read loop of a connection with the message callback of a server. The handshake
and the parser look at the readable bytes of the buffer, and retrieve their packets
and chunks from it. Its runs are those of the server over strings of bytes.
-/

open Resumable RtmpSession

/-- The context of a server whose bytes to read are in memory. -/
structure ServerMemory where
  context : ServerContext
  recvBuf : MsgBuffer

namespace ServerMemory

open RtmpContext (Action)
open ServerContext (Event)

/-! ## Callbacks -/

/-- What a callback leaves behind. -/
abbrev Outcome : Type := ServerMemory × List Action × List Effect

/-- The second phase of `onMessage`. -/
def parse (mem : ServerMemory) : Option Outcome := do
  let ctx := mem.context
  let given ← mem.recvBuf.peek
  let r ← drainIn MsgBuffer.ops (ServerContext.parseOneChunk ctx.hasMessageCallback)
    (ctx.chunkParse, ctx.session) mem.recvBuf
  let left ← r.buffer.peek
  let outs := RtmpContext.answers (sends r.delivered)
  let ctx := { ctx with
    chunkParse := r.state.1
    session := r.state.2
    connection := ctx.connection.sendAll outs
    terminated := r.aborted }
  some ({ context := ctx, recvBuf := r.buffer }, .parse given left :: outs.map .send, r.delivered)

/-- The handshake retrieves its packet, if it has accepted one. -/
def retrievePacket (buf : MsgBuffer) (n : Nat) : Option MsgBuffer :=
  if n = 0 then some buf else buf.retrieveAsserted n

/-- The first phase of `onMessage`. -/
def shake (env : HandShakeEnv) (mem : ServerMemory) :
    Option (Int × ServerMemory × List Action) := do
  let ctx := mem.context
  let buf ← mem.recvBuf.peek
  let r := ctx.handShake.handShake env buf
  let recvBuf ← retrievePacket mem.recvBuf r.retrieved
  let outs := RtmpContext.packets r.sends
  let ctx := { ctx with handShake := r.handShake, connection := ctx.connection.sendAll outs }
  let taken := if r.retrieved = 0 then [] else [Action.retrieved (buf.take r.retrieved)]
  some (r.ret, { context := ctx, recvBuf },
    taken ++ outs.map .send ++ RtmpContext.doneAction r.handShake)

def onMessage (env : HandShakeEnv) (mem : ServerMemory) : Option Outcome :=
  if mem.context.handShake.isDone then mem.parse
  else do
    let (ret, mem, acts) ← mem.shake env
    if ret < 0 then
      let (ctx, closed, effects) := mem.context.close
      some ({ mem with context := ctx }, acts ++ closed, effects)
    else if ret = 0 then
      let (greeted, sent) := mem.context.onHandShakeDone
      let mem := { mem with context := { mem.context with toRtmpContext := greeted } }
      if mem.recvBuf.readableBytes = 0 then some (mem, acts ++ sent, [])
      else
        let (mem, parsed, effects) ← mem.parse
        some (mem, acts ++ sent ++ parsed, effects)
    else some (mem, acts, [])

/-- `doRead` again, unless an exception has left the callback. -/
def doRead (mem : ServerMemory) : Option ServerMemory :=
  if mem.context.terminated then some mem
  else mem.recvBuf.prepareRead.map fun recvBuf => { mem with recvBuf }

/-! ## Events -/

/-- One event. A read is followed by the next `doRead`. There is no state behind an access
outside of the vector, a failed assertion, or an exception of `resize`. -/
def step (env : HandShakeEnv) (mem : ServerMemory) (e : Event) : Option Outcome :=
  match e with
  | .read seg =>
    if mem.context.terminated ∨ seg = [] then none
    else do
      let data ← Block.ofBytes seg
      let recvBuf ← mem.recvBuf.write data
      let (mem, acts, effects) ← { mem with recvBuf }.onMessage env
      let mem ← mem.doRead
      some (mem, .received seg :: acts, effects)
  | e => (ServerContext.step env mem.context e).map fun (ctx, acts, effects) =>
    ({ mem with context := ctx }, acts, effects)

/-- A read puts no more into the buffer than `doRead` has offered. -/
def Fits (mem : ServerMemory) : Event → Prop
  | .read seg => seg.length ≤ mem.recvBuf.writableBytes.toNat
  | _ => True

/-- The connection after `Start`. -/
def start (env : HandShakeEnv) : Option ServerMemory := do
  let recvBuf ← MsgBuffer.create
  let recvBuf ← recvBuf.prepareRead
  some { context := ServerContext.start env, recvBuf }

/-- A run from `Start`, with its trace and what the handlers have done. -/
def run (env : HandShakeEnv) (es : List Event) : Option Outcome := do
  let mem ← start env
  (Mealy.run (step env) mem es).map fun (mem, outs) =>
    (mem, outs.flatMap (·.1), outs.flatMap (·.2))

end ServerMemory

/-! ## The bytes of the buffer -/

/-- `HandShake` takes what is there. -/
theorem RtmpHandShake.retrieved_le (env : HandShakeEnv) (hs : RtmpHandShake) (buf : Bytes) :
    (hs.handShake env buf).retrieved ≤ buf.length := by
  unfold RtmpHandShake.handShake
  split
  · split
    · exact Nat.zero_le _
    · rename_i hlen
      simp only
      split
      · exact Nat.le_of_not_lt hlen
      · exact Nat.zero_le _
  · split
    · exact Nat.zero_le _
    · rename_i hlen
      split
      · exact Nat.le_of_not_lt hlen
      · exact Nat.zero_le _
  · split
    · exact Nat.zero_le _
    · rename_i hlen
      simp only
      split
      · split
        · simp only at *; omega
        · exact Nat.le_of_not_lt hlen
      · exact Nat.zero_le _
  · split
    · exact Nat.zero_le _
    · rename_i hlen
      exact Nat.le_of_not_lt hlen
  · exact Nat.zero_le _

/-- The context without the bytes to read. -/
def ServerContext.unloaded (ctx : ServerContext) : ServerContext :=
  { ctx with connection := { ctx.connection with recvBuf := [] } }

/-- The unread bytes and the room for the next read, if there is one. -/
def ServerContext.needed (ctx : ServerContext) : Nat :=
  if ctx.terminated then 0
  else ctx.connection.recvBuf.length + MsgBuffer.kReadRoom.toNat

namespace ServerMemory

open RtmpContext (Action)
open ServerContext (Event)

/-- The memory holds the context: its bytes to read are in a vector of this length. -/
structure HoldsIn (length : Nat) (mem : ServerMemory) (ctx : ServerContext) : Prop where
  context : mem.context = ctx.unloaded
  recvBuf : MsgBuffer.HoldsIn length mem.recvBuf ctx.connection.recvBuf

variable {length : Nat} {mem : ServerMemory} {ctx : ServerContext}

theorem HoldsIn.parse (h : HoldsIn length mem ctx) :
    ∃ mem', mem.parse = some (mem', ctx.parse.2.1, ctx.parse.2.2) ∧
      HoldsIn length mem' ctx.parse.1 := by
  have hp : Progressive (ServerContext.parseOneChunk ctx.hasMessageCallback) :=
    handling_progressive fun s => RtmpChunkParse.parseOneChunk_progressive _
  obtain ⟨recvBuf, hdrain, hrest⟩ := drainIn_eq (MsgBuffer.ops_isQueue length) hp
    (s := (ctx.chunkParse, ctx.session)) h.recvBuf
  obtain ⟨context, buf⟩ := mem
  obtain rfl : context = ctx.unloaded := h.context
  have hgiven : buf.peek = some ctx.connection.recvBuf := h.recvBuf.peek_eq
  have hleft := hrest.peek_eq
  have hctx : ctx.unloaded.hasMessageCallback = ctx.hasMessageCallback ∧
      ctx.unloaded.chunkParse = ctx.chunkParse ∧ ctx.unloaded.session = ctx.session :=
    ⟨rfl, rfl, rfl⟩
  simp only [ServerMemory.parse, hctx, hgiven, hdrain, hleft, Option.bind_eq_bind,
    Option.bind_some]
  refine ⟨_, rfl, ?_, ?_⟩
  · have hsend := TcpConnection.setRecvBuf_sendAll
      { ctx.connection with recvBuf := ctx.parse.1.connection.recvBuf }
      (RtmpContext.answers (sends ctx.parse.2.2)) []
    simp only [ServerContext.parse, ServerContext.unloaded,
      TcpConnection.sendAll_recvBuf] at hsend ⊢
    rw [hsend]
  · simp only [ServerContext.parse, TcpConnection.sendAll_recvBuf]
    exact hrest

theorem HoldsIn.shake (env : HandShakeEnv) (h : HoldsIn length mem ctx) :
    ∃ mem', mem.shake env = some ((ctx.toRtmpContext.shake env).1, mem',
        (ctx.toRtmpContext.shake env).2.2) ∧
      HoldsIn length mem' { ctx with toRtmpContext := (ctx.toRtmpContext.shake env).2.1 } := by
  obtain ⟨context, buf⟩ := mem
  obtain rfl : context = ctx.unloaded := h.context
  have hpeek : buf.peek = some ctx.connection.recvBuf := h.recvBuf.peek_eq
  have hctx : ctx.unloaded.handShake = ctx.handShake := rfl
  have hle := RtmpHandShake.retrieved_le env ctx.handShake ctx.connection.recvBuf
  simp only [ServerMemory.shake, RtmpContext.shake, hpeek, hctx, Option.bind_eq_bind,
    Option.bind_some]
  generalize ctx.handShake.handShake env ctx.connection.recvBuf = r at hle
  have htaken : ∃ recvBuf, retrievePacket buf r.retrieved = some recvBuf ∧
      MsgBuffer.HoldsIn length recvBuf (ctx.connection.recvBuf.drop r.retrieved) := by
    unfold retrievePacket
    split
    · rename_i hnone
      rw [hnone, List.drop_zero]
      exact ⟨buf, rfl, h.recvBuf⟩
    · exact (MsgBuffer.ops_isQueue length).retrieve h.recvBuf hle
  obtain ⟨recvBuf, htake, hrest⟩ := htaken
  simp only [htake, Option.bind_some]
  refine ⟨_, rfl, ?_, ?_⟩
  · have hsend := TcpConnection.setRecvBuf_sendAll
      { ctx.connection with recvBuf := ctx.connection.recvBuf.drop r.retrieved }
      (RtmpContext.packets r.sends) []
    simp only [RtmpContext.sendAll, ServerContext.unloaded] at hsend ⊢
    rw [hsend]
  · simp only [RtmpContext.sendAll, TcpConnection.sendAll_recvBuf]
    exact hrest

theorem unloaded_close (ctx : ServerContext) :
    ctx.unloaded.close = (ctx.close.1.unloaded, ctx.close.2.1, ctx.close.2.2) := by
  have hclosed : ctx.unloaded.connection.closed = ctx.connection.closed := rfl
  unfold ServerContext.close
  rw [hclosed]
  split <;> rfl

theorem HoldsIn.onMessage (env : HandShakeEnv) (h : HoldsIn length mem ctx) :
    ∃ mem', mem.onMessage env = some (mem', (ctx.onMessage env).2.1, (ctx.onMessage env).2.2) ∧
      HoldsIn length mem' (ctx.onMessage env).1 := by
  have hstate : mem.context.handShake = ctx.handShake := by rw [h.context]; rfl
  simp only [ServerMemory.onMessage, ServerContext.onMessage, hstate]
  split
  · exact h.parse
  obtain ⟨shaken, hshake, hholds⟩ := h.shake env
  simp only [hshake, Option.bind_eq_bind, Option.bind_some]
  generalize ctx.toRtmpContext.shake env = r at hholds
  obtain ⟨ret, next, acts⟩ := r
  simp only at hholds ⊢
  split
  · rw [hholds.context, unloaded_close]
    refine ⟨_, rfl, rfl, ?_⟩
    have hbuf : ({ ctx with toRtmpContext := next } : ServerContext).close.1.connection.recvBuf =
        next.connection.recvBuf := by
      unfold ServerContext.close
      split <;> rfl
    rw [hbuf]
    exact hholds.recvBuf
  split
  · have hgreeted : HoldsIn length
        { shaken with
          context := { shaken.context with toRtmpContext := shaken.context.onHandShakeDone.1 } }
        { ctx with toRtmpContext := next.onHandShakeDone.1 } := by
      have hsend := TcpConnection.setRecvBuf_sendAll next.connection
        RtmpContext.initialMessages []
      refine ⟨?_, ?_⟩
      · simp only [hholds.context, ServerContext.unloaded, RtmpContext.onHandShakeDone,
          RtmpContext.sendAll] at hsend ⊢
        rw [hsend]
      · have hbuf : next.onHandShakeDone.1.connection.recvBuf = next.connection.recvBuf :=
          TcpConnection.sendAll_recvBuf _ _
        simp only [hbuf]
        exact hholds.recvBuf
    have hempty : shaken.recvBuf.readableBytes = 0 ↔
        next.onHandShakeDone.1.connection.recvBuf = [] := by
      have hlen := hgreeted.recvBuf.toRepresents.length_eq
      simp only at hlen
      rw [← List.length_eq_zero_iff, hlen, ← UInt64.toNat_inj, UInt64.toNat_zero]
    have hsent : shaken.context.onHandShakeDone.2 = next.onHandShakeDone.2 := rfl
    split
    · rename_i hnone
      rw [if_pos (hempty.mp hnone), hsent]
      exact ⟨_, rfl, hgreeted⟩
    · rename_i hsome
      rw [if_neg (fun h => hsome (hempty.mpr h)), hsent]
      obtain ⟨mem', hparse, hholds'⟩ := hgreeted.parse
      rw [hparse]
      exact ⟨mem', rfl, hholds'⟩
  · exact ⟨shaken, rfl, hholds⟩

/-! ## Steps -/

/-- The memory holds the context, with room for the next read. -/
structure Holds (mem : ServerMemory) (ctx : ServerContext) : Prop where
  context : mem.context = ctx.unloaded
  ready : ctx.terminated = false → MsgBuffer.Ready mem.recvBuf ctx.connection.recvBuf

/-- The bytes of the vector. -/
def vectorLength (mem : ServerMemory) : Nat := mem.recvBuf.buf.bytes.length

/-- A callback, and the read that is started after it. -/
theorem HoldsIn.doRead (h : HoldsIn length mem ctx) (hsize : ctx.needed ≤ kMaxObjectSize) :
    ∃ mem', mem.doRead = some mem' ∧ Holds mem' ctx ∧
      mem'.vectorLength ≤ max length ctx.needed := by
  have hterm : mem.context.terminated = ctx.terminated := by rw [h.context]; rfl
  unfold ServerMemory.doRead
  unfold ServerContext.needed at hsize ⊢
  cases hend : ctx.terminated with
  | true =>
    rw [hterm, hend]
    refine ⟨mem, rfl, ⟨h.context, fun hrun => ?_⟩, ?_⟩
    · rw [hend] at hrun
      cases hrun
    · exact Nat.le_trans (Nat.le_of_eq h.recvBuf.length_eq) (Nat.le_max_left _ _)
  | false =>
    rw [hend, if_neg Bool.false_ne_true] at hsize
    obtain ⟨recvBuf, hprepare, hready, -, hlength⟩ := h.recvBuf.toRepresents.prepareRead hsize
    rw [h.recvBuf.length_eq] at hlength
    rw [hterm, hend]
    simp only [Bool.false_eq_true, if_false, hprepare, Option.map_some]
    exact ⟨_, rfl, ⟨h.context, fun _ => hready⟩, hlength⟩

theorem setRecvBuf_writeSucceeded {β : Type} (c : TcpConnection β) (buf : Bytes) :
    { c with recvBuf := buf }.writeSucceeded =
      ({ c.writeSucceeded.1 with recvBuf := buf }, c.writeSucceeded.2) := by
  unfold TcpConnection.writeSucceeded TcpConnection.doWrite
  simp only
  split
  · rfl
  · split <;> rfl

theorem unloaded_onWriteComplete (ctx : ServerContext) :
    ctx.unloaded.onWriteComplete =
      ((ServerContext.unloaded { ctx with
        toRtmpContext := ctx.toRtmpContext.onWriteComplete.1 }).toRtmpContext,
        ctx.toRtmpContext.onWriteComplete.2) := by
  have hsend := TcpConnection.setRecvBuf_sendAll ctx.connection
    (RtmpContext.packets ctx.handShake.writeComplete.2) []
  unfold RtmpContext.onWriteComplete ServerContext.unloaded
  simp only [RtmpContext.sendAll] at hsend ⊢
  split
  · rfl
  · simp only [hsend]

/-- Only a read looks at the bytes to read. -/
theorem unloaded_step {env : HandShakeEnv} {e : Event} (hread : ∀ seg, e ≠ .read seg) :
    ServerContext.step env ctx.unloaded e =
      (ServerContext.step env ctx e).map fun (next, acts, effects) =>
        (next.unloaded, acts, effects) := by
  have hterm : ctx.unloaded.terminated = ctx.terminated := rfl
  have hout : ctx.unloaded.connection.outstanding = ctx.connection.outstanding := rfl
  have hqueue : ctx.unloaded.connection.writeQueue = ctx.connection.writeQueue := rfl
  unfold ServerContext.step
  rw [hterm]
  split
  · rfl
  cases e with
  | read seg => exact absurd rfl (hread seg)
  | readFailed => simp only [unloaded_close, Option.map_some]
  | writeSucceeded =>
    simp only [hout, hqueue]
    split
    swap
    · rfl
    split
    · rfl
    · have hwrote := setRecvBuf_writeSucceeded ctx.connection []
      have hconn : ctx.unloaded.connection = { ctx.connection with recvBuf := [] } := rfl
      rw [hconn, hwrote]
      split
      · have hcomplete := unloaded_onWriteComplete
          { ctx with connection := ctx.connection.writeSucceeded.1 }
        simp only [ServerContext.unloaded] at hcomplete ⊢
        rw [hcomplete]
        rfl
      · rfl
  | writeFailed =>
    simp only [hout]
    split
    · have hclose := unloaded_close
        { ctx with connection := { ctx.connection with outstanding := false } }
      simp only [ServerContext.unloaded] at hclose ⊢
      rw [hclose]
      rfl
    · rfl

/-- Whatever is not a read leaves the bytes to read alone. -/
theorem recvBuf_of_stepped {env : HandShakeEnv} {ctx next : RtmpContext} {e : RtmpContext.Event}
    {acts : List Action} (h : RtmpContext.Stepped env ctx e next acts)
    (hread : ∀ seg replies, e ≠ .read seg replies) :
    next.connection.recvBuf = ctx.connection.recvBuf ∧ next.terminated = ctx.terminated := by
  cases h with
  | readFailed => exact ⟨rfl, rfl⟩
  | wrote => exact ⟨TcpConnection.writeSucceeded_recvBuf _, rfl⟩
  | wroteS0S1 => simp
  | wroteS2 => simp
  | writeFailed => exact ⟨rfl, rfl⟩
  | _ => exact absurd rfl (hread _ _)

variable {env : HandShakeEnv} {t acts : List Action} {effects : List Effect}
  {next : ServerContext} {e : Event}

/-- What the server does is done in memory, up to the next `doRead` after a read. -/
theorem Holds.step_cases (hinv : RtmpContext.Inv env t ctx.toRtmpContext) (h : Holds mem ctx)
    (hfits : mem.Fits e) (hstep : ServerContext.step env ctx e = some (next, acts, effects)) :
    (∃ mem', mem.step env e = some (mem', acts, effects) ∧ Holds mem' next ∧
        mem'.vectorLength = mem.vectorLength) ∨
      ∃ mem', HoldsIn mem.vectorLength mem' next ∧
        mem.step env e = mem'.doRead.map fun mem' => (mem', acts, effects) := by
  have hother (hread : ∀ seg, e ≠ .read seg) : ∃ mem',
      (ServerContext.step env mem.context e).map (fun (ctx, acts, effects) =>
        (({ mem with context := ctx } : ServerMemory), acts, effects)) =
          some (mem', acts, effects) ∧ Holds mem' next ∧
      mem'.vectorLength = mem.vectorLength := by
    have hbase := RtmpContext.step_eq_some hinv.phase.server (ServerContext.step_refines hstep)
    obtain ⟨hbuf, hterm⟩ := recvBuf_of_stepped hbase fun seg replies => by
      cases e with
      | read seg => exact absurd rfl (hread seg)
      | _ => nofun
    rw [h.context, unloaded_step hread, hstep]
    refine ⟨_, rfl, ⟨rfl, fun hrun => ?_⟩, rfl⟩
    rw [hbuf]
    exact h.ready (hterm ▸ hrun)
  cases e with
  | readFailed => exact .inl (hother nofun)
  | writeSucceeded => exact .inl (hother nofun)
  | writeFailed => exact .inl (hother nofun)
  | read seg =>
    unfold ServerContext.step at hstep
    split at hstep
    · cases hstep
    rename_i hrunning
    simp only at hstep
    split at hstep
    · cases hstep
    rename_i hseg
    have hready := h.ready (Bool.eq_false_iff.mpr hrunning)
    have hterm : mem.context.terminated = ctx.terminated := by rw [h.context]; rfl
    -- what fits into the vector is an object in memory
    have hblock : seg.length ≤ kMaxObjectSize := by
      have hvector := mem.recvBuf.buf.length_le
      have hroom := MsgBuffer.toNat_writableBytes hready.tail_le
      simp only [Fits] at hfits
      omega
    have hdata : Block.size ⟨seg, hblock⟩ ≤ mem.recvBuf.writableBytes := by
      rw [UInt64.le_iff_toNat_le, Block.toNat_size]
      exact hfits
    obtain ⟨recvBuf, hwrite, hwrote⟩ := hready.toRepresents.write hdata
    have hlength := (MsgBuffer.write_eq_some hwrite).2
    have hreceived : HoldsIn mem.vectorLength { mem with recvBuf }
        { ctx with toRtmpContext := ctx.toRtmpContext.received seg } :=
      ⟨h.context, hwrote, hlength⟩
    obtain ⟨mem', hmessage, hmem'⟩ := hreceived.onMessage env
    generalize ({ ctx with toRtmpContext := ctx.toRtmpContext.received seg } :
      ServerContext).onMessage env = r at hstep hmessage hmem'
    cases hstep
    refine .inr ⟨mem', hmem', ?_⟩
    unfold ServerMemory.step
    simp only [hterm, hrunning, hseg, or_self, Bool.false_eq_true, if_false,
      Block.ofBytes_of_le hblock, Option.bind_eq_bind, Option.bind_some, hwrite, hmessage]
    cases mem'.doRead <;> rfl

/-- What the server can do, it can do in memory, and the vector grows only for what is left
unread. -/
theorem Holds.step (hinv : RtmpContext.Inv env t ctx.toRtmpContext) (h : Holds mem ctx)
    (hfits : mem.Fits e) (hstep : ServerContext.step env ctx e = some (next, acts, effects))
    (hsize : next.needed ≤ kMaxObjectSize) :
    ∃ mem', mem.step env e = some (mem', acts, effects) ∧ Holds mem' next ∧
      mem'.vectorLength ≤ max mem.vectorLength next.needed := by
  rcases h.step_cases hinv hfits hstep with ⟨mem', hmem, hholds, hlength⟩ | ⟨mem₁, hmem₁, hmem⟩
  · exact ⟨mem', hmem, hholds, Nat.le_trans (Nat.le_of_eq hlength) (Nat.le_max_left _ _)⟩
  · obtain ⟨mem', hread, hholds, hbound⟩ := hmem₁.doRead hsize
    exact ⟨mem', by rw [hmem, hread, Option.map_some], hholds, hbound⟩

/-- What the server cannot do, it cannot do in memory. -/
theorem Holds.step_eq_none (h : Holds mem ctx) (hstep : ServerContext.step env ctx e = none) :
    mem.step env e = none := by
  have hterm : mem.context.terminated = ctx.terminated := by rw [h.context]; rfl
  unfold ServerMemory.step
  cases e with
  | read seg =>
    unfold ServerContext.step at hstep
    simp only [hterm]
    split at hstep
    · rename_i hend
      rw [if_pos (.inl hend)]
    · simp only at hstep
      split at hstep
      · rename_i hseg
        rw [if_pos (.inr hseg)]
      · cases hstep
  | _ => simp only [h.context, unloaded_step, hstep, ne_eq, reduceCtorEq, not_false_eq_true,
      implies_true, Option.map_none]

/-- What has been written into the vector did fit. -/
theorem Holds.fits {mem' : ServerMemory} (h : Holds mem ctx)
    (hstep : mem.step env e = some (mem', acts, effects)) : mem.Fits e := by
  cases e with
  | read seg =>
    have hterm : mem.context.terminated = ctx.terminated := by rw [h.context]; rfl
    unfold ServerMemory.step at hstep
    simp only [Option.bind_eq_bind] at hstep
    split at hstep
    · cases hstep
    rename_i hgo
    obtain ⟨data, hdata, hstep⟩ := Option.bind_eq_some_iff.mp hstep
    obtain ⟨recvBuf, hwrite, -⟩ := Option.bind_eq_some_iff.mp hstep
    have hrunning : ctx.terminated = false := by
      rw [← hterm]
      exact Bool.eq_false_iff.mpr fun hend => hgo (.inl hend)
    have hroom := MsgBuffer.toNat_writableBytes (h.ready hrunning).tail_le
    have hfits := (MsgBuffer.write_eq_some hwrite).1
    have hbytes : data.bytes = seg := by
      unfold Block.ofBytes at hdata
      split at hdata
      · cases hdata
        rfl
      · cases hdata
    rw [hbytes] at hfits
    show seg.length ≤ mem.recvBuf.writableBytes.toNat
    omega
  | _ => trivial

/-- What is done in memory is what the server does. -/
theorem Holds.step_of_memory {mem' : ServerMemory}
    (hinv : RtmpContext.Inv env t ctx.toRtmpContext) (h : Holds mem ctx)
    (hstep : mem.step env e = some (mem', acts, effects)) :
    ∃ next, ServerContext.step env ctx e = some (next, acts, effects) := by
  have hfits := h.fits hstep
  cases hnext : ServerContext.step env ctx e with
  | none =>
    rw [h.step_eq_none hnext] at hstep
    cases hstep
  | some r =>
    obtain ⟨next, acts', effects'⟩ := r
    refine ⟨next, ?_⟩
    rcases h.step_cases hinv hfits hnext with ⟨mem₁, hmem, -⟩ | ⟨mem₁, -, hmem⟩
    · rw [hmem] at hstep
      cases hstep
      rfl
    · rw [hmem] at hstep
      obtain ⟨mem₂, -, heq⟩ := Option.map_eq_some_iff.mp hstep
      cases heq
      rfl

end ServerMemory
