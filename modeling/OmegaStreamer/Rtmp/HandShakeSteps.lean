-- SUMMARY: What one event can do to a server's context.
import OmegaStreamer.Rtmp.Context
import OmegaStreamer.Rtmp.Segmentation

/-!
# Steps of the handshake

`Stepped` says once what an event can do to the context of a server. The
invariants of its runs are derived from it.
-/

open Resumable

namespace RtmpContext

/-! ## What an event can do to a server -/

/-- The states that a server's handshake goes through. -/
def IsServerState (s : RtmpHandShakeState) : Prop :=
  s = .waitC0C1 ∨ s = .postS0S1 ∨ s = .postS2 ∨ s = .waitC2 ∨ s = .done

/-- `HandShake` does nothing about the buffer in the state. -/
def Ignores (s : RtmpHandShakeState) (buf : Bytes) : Prop :=
  s = .waitC0C1 ∧ buf.length < 1537 ∨ s = .postS0S1 ∨ s = .postS2 ∨
    s = .waitC2 ∧ buf.length < 1536

/-- The context with a handshake, the unread bytes and what is sent exchanged. -/
def moved (ctx : RtmpContext) (hs : RtmpHandShake) (buf : Bytes) (outs : List Outgoing) :
    RtmpContext :=
  { ctx with
    handShake := hs
    connection := { ctx.connection with recvBuf := buf }.sendAll outs }

/-- What a step can do. The buffer of a read is the old one with the segment at
its end. -/
inductive Stepped (env : HandShakeEnv) (ctx : RtmpContext) :
    Event → RtmpContext → List Action → Prop where
  /-- A read that the handshake does nothing about. -/
  | idle {seg : Bytes} {replies : List Bytes}
      (h : Ignores ctx.handShake.state (ctx.connection.recvBuf ++ seg)) :
      Stepped env ctx (.read seg replies)
        (ctx.moved ctx.handShake (ctx.connection.recvBuf ++ seg) []) [.received seg]
  | accept {seg : Bytes} {replies : List Bytes} {buf : Bytes} {hs : RtmpHandShake}
      (hbuf : buf = ctx.connection.recvBuf ++ seg) (h : ctx.handShake.state = .waitC0C1)
      (hlen : 1537 ≤ buf.length) (hversion : buf.at 0 = 0x03) (hstate : hs.state = .postS0S1)
      (hc2s2 : hs.c2s2 = ctx.handShake.c2s2For env (buf.take 1537)) :
      Stepped env ctx (.read seg replies)
        (ctx.moved hs (buf.drop 1537) [⟨.packet .c1s1, ctx.handShake.c1s1⟩])
        [.received seg, .retrieved (buf.take 1537),
          .send ⟨.packet .c1s1, ctx.handShake.c1s1⟩]
  | refuse {seg : Bytes} {replies : List Bytes} {buf : Bytes}
      (hbuf : buf = ctx.connection.recvBuf ++ seg) (h : ctx.handShake.state = .waitC0C1)
      (hlen : 1537 ≤ buf.length) (hversion : buf.at 0 ≠ 0x03) :
      Stepped env ctx (.read seg replies) (ctx.moved ctx.handShake buf []).close.1
        [.received seg, .close]
  /-- The handshake is done and nothing is left to parse. -/
  | finish {seg : Bytes} {replies : List Bytes} {buf : Bytes} {hs : RtmpHandShake}
      (hbuf : buf = ctx.connection.recvBuf ++ seg) (h : ctx.handShake.state = .waitC2)
      (hlen : buf.length = 1536) (hstate : hs.state = .done) :
      Stepped env ctx (.read seg replies)
        ({ ctx with hasMessageCallback := true }.moved hs [] initialMessages)
        ([.received seg, .retrieved buf, .handShakeDone] ++ initialMessages.map .send)
  /-- The handshake is done and the rest is parsed. -/
  | finishParse {seg : Bytes} {replies : List Bytes} {buf left : Bytes} {hs : RtmpHandShake}
      {chunkParse : RtmpChunkParse} {terminated : Bool}
      (hbuf : buf = ctx.connection.recvBuf ++ seg) (h : ctx.handShake.state = .waitC2)
      (hlen : 1536 < buf.length) (hstate : hs.state = .done) (hleft : left <:+ buf.drop 1536) :
      Stepped env ctx (.read seg replies)
        ({ ctx with hasMessageCallback := true, chunkParse, terminated }.moved hs left
          (initialMessages ++ answers replies))
        ([.received seg, .retrieved (buf.take 1536), .handShakeDone] ++
          initialMessages.map .send ++ .parse (buf.drop 1536) left :: (answers replies).map .send)
  | parse {seg : Bytes} {replies : List Bytes} {buf left : Bytes}
      {chunkParse : RtmpChunkParse} {terminated : Bool}
      (hbuf : buf = ctx.connection.recvBuf ++ seg) (h : ctx.handShake.state = .done)
      (hleft : left <:+ buf) :
      Stepped env ctx (.read seg replies)
        ({ ctx with chunkParse, terminated }.moved ctx.handShake left (answers replies))
        ([.received seg, .parse buf left] ++ (answers replies).map .send)
  | readFailed : Stepped env ctx .readFailed ctx.close.1 [.close]
  /-- A completed write that the handshake does nothing about. -/
  | wrote {out : Outgoing} {rest : List Outgoing} (ho : ctx.connection.outstanding = true)
      (hq : ctx.connection.writeQueue = out :: rest)
      (h : ctx.handShake.state ≠ .postS0S1 ∧ ctx.handShake.state ≠ .postS2 ∨ rest ≠ []) :
      Stepped env ctx .writeSucceeded
        { ctx with connection := ctx.connection.writeSucceeded.1 } [.written out]
  | wroteS0S1 {out : Outgoing} (ho : ctx.connection.outstanding = true)
      (hq : ctx.connection.writeQueue = [out]) (h : ctx.handShake.state = .postS0S1) :
      Stepped env ctx .writeSucceeded
        { ctx with
          handShake := { ctx.handShake with state := .postS2 }
          connection := ctx.connection.writeSucceeded.1.sendAll
            [⟨.packet .c2s2, ctx.handShake.c2s2⟩] }
        [.written out, .send ⟨.packet .c2s2, ctx.handShake.c2s2⟩]
  | wroteS2 {out : Outgoing} (ho : ctx.connection.outstanding = true)
      (hq : ctx.connection.writeQueue = [out]) (h : ctx.handShake.state = .postS2) :
      Stepped env ctx .writeSucceeded
        { ctx with
          handShake := { ctx.handShake with state := .waitC2 }
          connection := ctx.connection.writeSucceeded.1 }
        [.written out]
  | writeFailed (ho : ctx.connection.outstanding = true) :
      Stepped env ctx .writeFailed { ctx with connection := ctx.connection.writeFailed } [.close]

/-- `Parse` leaves the end of the buffer that it is given. -/
theorem parse_spec (ctx : RtmpContext) (replies : List Bytes) :
    ∃ chunkParse terminated left, left <:+ ctx.connection.recvBuf ∧
      ctx.parse replies =
        ({ ctx with chunkParse, terminated }.moved ctx.handShake left (answers replies),
          .parse ctx.connection.recvBuf left :: (answers replies).map .send) := by
  generalize hcb : (if ctx.hasMessageCallback then chunkSizeCallback else fun _ n => n) = cb
  have hleft : (ctx.chunkParse.parse cb ctx.connection.recvBuf).unread <:+
      ctx.connection.recvBuf :=
    drain_unread_suffix (RtmpChunkParse.parseOneChunk_progressive cb) _ _
  refine ⟨(ctx.chunkParse.parse cb ctx.connection.recvBuf).state,
    (ctx.chunkParse.parse cb ctx.connection.recvBuf).aborted, _, hleft, ?_⟩
  simp only [parse, hcb]
  rfl

/-! ### One read -/

section Read

variable {env : HandShakeEnv} {ctx : RtmpContext} {replies : List Bytes}
  {r : RtmpHandShake.Result}

/-- The actions of one call of `HandShake`. -/
def shaken (buf : Bytes) (r : RtmpHandShake.Result) : List Action :=
  (if r.retrieved = 0 then [] else [.retrieved (buf.take r.retrieved)]) ++
    (packets r.sends).map .send ++ doneAction r.handShake

theorem onMessage_waiting (hnot : ctx.handShake.isDone = false)
    (hr : ctx.handShake.handShake env ctx.connection.recvBuf = r) (hret : r.ret = 1) :
    ctx.onMessage env replies =
      (ctx.moved r.handShake (ctx.connection.recvBuf.drop r.retrieved) (packets r.sends),
        shaken ctx.connection.recvBuf r) := by
  subst hr
  simp only [onMessage, hnot, shake, hret]
  rfl

theorem onMessage_refused (hnot : ctx.handShake.isDone = false)
    (hr : ctx.handShake.handShake env ctx.connection.recvBuf = r) (hret : r.ret = -1) :
    ctx.onMessage env replies =
      ((ctx.moved r.handShake (ctx.connection.recvBuf.drop r.retrieved) (packets r.sends)).close.1,
        shaken ctx.connection.recvBuf r ++ [Action.close]) := by
  subst hr
  simp only [onMessage, hnot, shake, hret]
  rfl

/-- The handshake is done: the initial messages are sent, and what is left in the
buffer is parsed. -/
theorem onMessage_finished (hnot : ctx.handShake.isDone = false)
    (hr : ctx.handShake.handShake env ctx.connection.recvBuf = r) (hret : r.ret = 0)
    (hsends : r.sends = []) :
    ctx.onMessage env replies =
      let next := { ctx with hasMessageCallback := true }.moved r.handShake
        (ctx.connection.recvBuf.drop r.retrieved) initialMessages
      let acts := shaken ctx.connection.recvBuf r ++ initialMessages.map .send
      if ctx.connection.recvBuf.drop r.retrieved = [] then (next, acts)
      else ((next.parse replies).1, acts ++ (next.parse replies).2) := by
  subst hr
  simp only [onMessage, hnot, shake, hret, hsends, onHandShakeDone, sendAll, shaken,
    TcpConnection.sendAll_recvBuf, Bool.false_eq_true, if_false, Int.lt_irrefl, if_true]
  rfl

end Read

theorem isDone_eq_false {hs : RtmpHandShake} (h : hs.state ≠ .done) : hs.isDone = false := by
  simp [RtmpHandShake.isDone, h]

/-- A read that changes nothing in the handshake. -/
private theorem read_idle {env : HandShakeEnv} {ctx : RtmpContext} {seg : Bytes}
    {replies : List Bytes}
    (hr : (ctx.received seg).handShake.handShake env (ctx.received seg).connection.recvBuf =
      { ret := 1, handShake := ctx.handShake })
    (h : Ignores ctx.handShake.state (ctx.connection.recvBuf ++ seg))
    {next : RtmpContext} {acts : List Action}
    (hon : (ctx.received seg).onMessage env replies = (next, acts)) :
    Stepped env ctx (.read seg replies) next (.received seg :: acts) := by
  have hnot : (ctx.received seg).handShake.isDone = false := by
    apply isDone_eq_false
    show ctx.handShake.state ≠ .done
    rcases h with ⟨h, -⟩ | h | h | ⟨h, -⟩ <;> simp [h]
  have hacts : shaken (ctx.received seg).connection.recvBuf
      { ret := 1, handShake := ctx.handShake } = [] := by
    have hnot' : ctx.handShake.isDone = false := hnot
    simp [shaken, packets, doneAction, hnot']
  rw [onMessage_waiting hnot hr rfl, hacts] at hon
  obtain ⟨rfl, rfl⟩ := Prod.mk.inj hon
  exact .idle h

private theorem read_waitC0C1 {env : HandShakeEnv} {ctx : RtmpContext}
    (h : ctx.handShake.state = .waitC0C1) {seg : Bytes} {replies : List Bytes}
    {next : RtmpContext} {acts : List Action}
    (hon : (ctx.received seg).onMessage env replies = (next, acts)) :
    Stepped env ctx (.read seg replies) next (.received seg :: acts) := by
  have hnot : (ctx.received seg).handShake.isDone = false :=
    isDone_eq_false (by simp [received, h])
  have hwait := RtmpHandShake.handShake_waitC0C1 env h (ctx.received seg).connection.recvBuf
  generalize hr : ctx.handShake.handShake env (ctx.received seg).connection.recvBuf = r at hwait
  have hr' : (ctx.received seg).handShake.handShake env (ctx.received seg).connection.recvBuf =
      r := hr
  cases hwait with
  | short hlen => exact read_idle hr (.inl ⟨h, hlen⟩) hon
  | accepted hs hlen hversion hstate hc2s2 =>
    have hnot' : hs.isDone = false := isDone_eq_false (by simp [hstate])
    rw [onMessage_waiting hnot hr' rfl] at hon
    obtain ⟨rfl, rfl⟩ := Prod.mk.inj hon
    simp only [shaken, doneAction, hnot']
    exact .accept rfl h hlen hversion hstate hc2s2
  | refused hlen hversion =>
    have hnot' : ctx.handShake.isDone = false := hnot
    rw [onMessage_refused hnot hr' rfl] at hon
    obtain ⟨rfl, rfl⟩ := Prod.mk.inj hon
    simp only [shaken, doneAction, hnot']
    exact .refuse rfl h hlen hversion

private theorem read_waitC2 {env : HandShakeEnv} {ctx : RtmpContext}
    (h : ctx.handShake.state = .waitC2) {seg : Bytes} {replies : List Bytes}
    {next : RtmpContext} {acts : List Action}
    (hon : (ctx.received seg).onMessage env replies = (next, acts)) :
    Stepped env ctx (.read seg replies) next (.received seg :: acts) := by
  have hnot : (ctx.received seg).handShake.isDone = false :=
    isDone_eq_false (by simp [received, h])
  generalize hbuf : (ctx.received seg).connection.recvBuf = buf
  have hbuf' : buf = ctx.connection.recvBuf ++ seg := hbuf.symm
  have hr := RtmpHandShake.handShake_waitC2 env h buf
  split at hr
  · rename_i hlen
    rw [hbuf'] at hr hlen
    exact read_idle hr (.inr (.inr (.inr ⟨h, hlen⟩))) hon
  · rename_i hlen
    rw [← hbuf] at hr
    rw [onMessage_finished hnot hr rfl rfl, hbuf] at hon
    have hshaken : shaken buf
        { ret := 0, handShake := { ctx.handShake with state := .done }, retrieved := 1536 } =
        [.retrieved (buf.take 1536), .handShakeDone] := rfl
    simp only [hshaken] at hon
    split at hon
    · rename_i hempty
      obtain ⟨rfl, rfl⟩ := Prod.mk.inj hon
      rw [hempty]
      rw [List.drop_eq_nil_iff] at hempty
      rw [List.take_of_length_le hempty]
      exact .finish hbuf' h (by omega) rfl
    · rename_i hrest
      rw [List.drop_eq_nil_iff] at hrest
      obtain ⟨chunkParse, terminated, left, hleft, hparse⟩ :=
        parse_spec ({ ctx.received seg with hasMessageCallback := true }.moved
          { ctx.handShake with state := .done } (buf.drop 1536) initialMessages) replies
      have hgiven : ({ ctx.received seg with hasMessageCallback := true }.moved
          { ctx.handShake with state := .done } (buf.drop 1536)
          initialMessages).connection.recvBuf = buf.drop 1536 :=
        TcpConnection.sendAll_recvBuf _ _
      rw [hgiven] at hleft hparse
      rw [hparse] at hon
      obtain ⟨rfl, rfl⟩ := Prod.mk.inj hon
      have hfinish : Stepped env ctx (.read seg replies)
          ({ ctx with hasMessageCallback := true, chunkParse, terminated }.moved
            { ctx.handShake with state := .done } left (initialMessages ++ answers replies))
          ([Action.received seg, .retrieved (buf.take 1536), .handShakeDone] ++
            initialMessages.map .send ++ Action.parse (buf.drop 1536) left ::
              (answers replies).map .send) :=
        .finishParse hbuf' h (by omega) rfl hleft
      simp only [moved, TcpConnection.setRecvBuf_sendAll, TcpConnection.sendAll_append,
        List.append_assoc] at hfinish ⊢
      exact hfinish

/-- The last write of the queue is complete. -/
private theorem write_stepped {env : HandShakeEnv} {ctx : RtmpContext}
    (hserver : IsServerState ctx.handShake.state)
    {out : Outgoing} (ho : ctx.connection.outstanding = true)
    (hq : ctx.connection.writeQueue = [out]) {next : RtmpContext} {acts : List Action}
    (hon : { ctx with connection := ctx.connection.writeSucceeded.1 }.onWriteComplete =
      (next, acts)) : Stepped env ctx .writeSucceeded next (.written out :: acts) := by
  -- the states in which `WriteComplete` does nothing
  have hidle : ctx.handShake.state ≠ .postS0S1 ∧ ctx.handShake.state ≠ .postS2 →
      (next, acts) = ({ ctx with connection := ctx.connection.writeSucceeded.1 }, []) →
      Stepped env ctx .writeSucceeded next (.written out :: acts) := by
    intro hstate heq
    obtain ⟨rfl, rfl⟩ := Prod.mk.inj heq
    exact .wrote ho hq (.inl hstate)
  rcases hserver with h | h | h | h | h
  · apply hidle (by simp [h])
    rw [← hon]
    simp [onWriteComplete, RtmpHandShake.isDone, RtmpHandShake.writeComplete, h, packets,
      sendAll, doneAction, TcpConnection.sendAll]
  · have hwrote : Stepped env ctx _ _ _ := .wroteS0S1 ho hq h
    simp only [onWriteComplete, RtmpHandShake.isDone, RtmpHandShake.writeComplete, h] at hon
    obtain ⟨rfl, rfl⟩ := Prod.mk.inj hon
    exact hwrote
  · have hwrote : Stepped env ctx _ _ _ := .wroteS2 ho hq h
    simp only [onWriteComplete, RtmpHandShake.isDone, RtmpHandShake.writeComplete, h] at hon
    obtain ⟨rfl, rfl⟩ := Prod.mk.inj hon
    exact hwrote
  · apply hidle (by simp [h])
    rw [← hon]
    simp [onWriteComplete, RtmpHandShake.isDone, RtmpHandShake.writeComplete, h, packets,
      sendAll, doneAction, TcpConnection.sendAll]
  · apply hidle (by simp [h])
    rw [← hon]
    simp [onWriteComplete, RtmpHandShake.isDone, h]

/-- What an event does to a server. -/
theorem step_eq_some {env : HandShakeEnv} {ctx next : RtmpContext} {e : Event}
    {acts : List Action} (hserver : IsServerState ctx.handShake.state)
    (h : step env ctx e = some (next, acts)) : Stepped env ctx e next acts := by
  unfold step at h
  split at h
  · cases h
  cases e with
  | read seg replies =>
    simp only at h
    split at h
    · cases h
    generalize hon : (ctx.received seg).onMessage env replies = r at h
    obtain ⟨next', acts'⟩ := r
    cases h
    rcases hserver with hs | hs | hs | hs | hs
    · exact read_waitC0C1 hs hon
    · exact read_idle (RtmpHandShake.handShake_post env (.inl hs) _) (.inr (.inl hs)) hon
    · exact read_idle (RtmpHandShake.handShake_post env (.inr hs) _) (.inr (.inr (.inl hs))) hon
    · exact read_waitC2 hs hon
    · have hdone : (ctx.received seg).handShake.isDone = true := by
        simp [received, RtmpHandShake.isDone, hs]
      simp only [onMessage, hdone, if_true] at hon
      obtain ⟨chunkParse, terminated, left, hleft, hparse⟩ := parse_spec (ctx.received seg) replies
      rw [hparse] at hon
      obtain ⟨rfl, rfl⟩ := Prod.mk.inj hon
      have hparsed : Stepped env ctx (.read seg replies)
          ({ ctx with chunkParse, terminated }.moved ctx.handShake left (answers replies))
          ([.received seg, .parse (ctx.connection.recvBuf ++ seg) left] ++
            (answers replies).map .send) := .parse rfl hs hleft
      exact hparsed
  | readFailed =>
    cases h
    exact .readFailed
  | writeSucceeded =>
    simp only at h
    split at h
    · rename_i ho
      split at h
      · cases h
      · rename_i out rest hq
        have hcallback := ctx.connection.writeSucceeded_callback
        rw [hq, List.tail_cons] at hcallback
        split at h
        · rename_i htrue
          obtain rfl := hcallback.mp htrue
          generalize hon : ({ ctx with
            connection := ctx.connection.writeSucceeded.1 } : RtmpContext).onWriteComplete = r at h
          obtain ⟨next', acts'⟩ := r
          cases h
          exact write_stepped hserver ho hq hon
        · rename_i hfalse
          cases h
          exact .wrote ho hq (.inr (mt hcallback.mpr hfalse))
    · cases h
  | writeFailed =>
    simp only at h
    split at h
    · rename_i ho
      cases h
      exact .writeFailed ho
    · cases h

end RtmpContext
