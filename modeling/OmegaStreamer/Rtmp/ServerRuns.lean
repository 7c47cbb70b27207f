-- SUMMARY: A server's output is a function of the bytes it has received: no segmentation and no order of writes changes it.
import OmegaStreamer.Rtmp.ServerSteps

/-!
# Runs of a server

What a server sends, and what its handlers do, is decided by the state of the
handshake and the bytes that have arrived. The session is a run of the handlers on
the messages in these bytes, and closing the connection adds the effects of
`onClose` at one point.
-/

open Resumable RtmpSession

open RtmpChunkParse (decoded)

namespace ServerContext

open RtmpContext (Action Inv Stepped arrived parsed sent written)

/-- What a run of a server has come to: the session and the effects are those of the
messages in the bytes offered. -/
structure Serving (t : List Action) (effects : List Effect) (ctx : ServerContext) : Prop
    extends Offering t ctx.toRtmpContext where
  session : ctx.session = (RtmpSession.run {} (decoded (offered ctx.toRtmpContext t)).delivered).1
  effected :
    Effected ctx.connection.closed (decoded (offered ctx.toRtmpContext t)).delivered effects

/-- What `Parse` leaves behind, by what the parser makes of the buffer. -/
structure Parsed (given : ServerContext) (r : Config RtmpChunkParse UInt8 RtmpMessage) : Prop where
  chunkParse : given.parse.1.chunkParse = r.state
  terminated : given.parse.1.terminated = r.aborted
  recvBuf : given.parse.1.connection.recvBuf = r.unread
  closed : given.parse.1.connection.closed = given.connection.closed
  session : given.parse.1.session = (given.session.run r.delivered).1
  effects : given.parse.2.2 = (given.session.run r.delivered).2

theorem parsed_parse {given : ServerContext} (hcallback : given.hasMessageCallback = true) :
    Parsed given (given.chunkParse.parse chunkSizeCallback given.connection.recvBuf) := by
  have hdrain : drain (parseOneChunk given.hasMessageCallback) (given.chunkParse, given.session)
      given.connection.recvBuf =
      (given.chunkParse.parse chunkSizeCallback given.connection.recvBuf).handled handleMessage
        given.session := by
    rw [hcallback, drain_parseOneChunk]
    rfl
  constructor
  · exact congrArg (·.state.1) hdrain
  · exact congrArg (·.aborted) hdrain
  · exact (TcpConnection.sendAll_recvBuf _ _).trans (congrArg (·.unread) hdrain)
  · exact TcpConnection.sendAll_closed _ _
  · exact congrArg (·.state.2) hdrain
  · exact congrArg (·.delivered) hdrain

/-- The messages of a buffer are parsed and handled. -/
theorem Serving.parse {t acts : List Action} {effects : List Effect} {ctx given : ServerContext}
    (hserving : Serving t effects ctx) (hrunning : ctx.terminated = false)
    (hparser : given.chunkParse = ctx.chunkParse) (hsession : given.session = ctx.session)
    (hclosed : given.connection.closed = ctx.connection.closed)
    (hcallback : given.hasMessageCallback = true) {seg : Bytes}
    (hoffered : offered given.parse.1.toRtmpContext (t ++ acts) =
      offered ctx.toRtmpContext t ++ seg)
    (hgiven : given.connection.recvBuf =
      (decoded (offered ctx.toRtmpContext t)).unread ++ seg)
    (hlen : given.connection.recvBuf.length < 2 ^ 31) :
    Serving (t ++ acts) (effects ++ given.parse.2.2) given.parse.1 := by
  have hterm := hserving.terminated
  rw [hrunning] at hterm
  have hdecoded := RtmpChunkParse.parse_decoded seg hterm.symm (hgiven ▸ hlen)
  rw [← hserving.chunkParse, ← hparser, ← hgiven] at hdecoded
  have hparsed := parsed_parse hcallback
  generalize given.chunkParse.parse chunkSizeCallback given.connection.recvBuf = r
    at hparsed hdecoded
  refine ⟨⟨?_, ?_, fun _ => ?_⟩, ?_, ?_⟩
  · rw [hoffered, ← hdecoded, hparsed.chunkParse, Config.prepend_state]
  · rw [hoffered, ← hdecoded, hparsed.terminated, Config.prepend_aborted]
  · rw [hoffered, ← hdecoded, hparsed.recvBuf, Config.prepend_unread]
  · rw [hoffered, ← hdecoded, hparsed.session, hsession, hserving.session,
      Config.prepend_delivered, run_append]
  · rw [hoffered, ← hdecoded, hparsed.closed, hclosed, hparsed.effects, hsession,
      hserving.session, Config.prepend_delivered]
    exact hserving.effected.handle r.delivered

/-- Every step of a server keeps to what it has come to. -/
theorem Serving.step {env : HandShakeEnv} {t acts : List Action} {effects effects' : List Effect}
    {ctx next : ServerContext} {e : Event} (hinv : Inv env t ctx.toRtmpContext)
    (hserving : Serving t effects ctx)
    (hstep : ServerContext.step env ctx e = some (next, acts, effects'))
    (hlen : ∀ given left, .parse given left ∈ acts → given.length < 2 ^ 31) :
    Serving (t ++ acts) (effects ++ effects') next := by
  have hrunning := running_of_step hstep
  have hbase := RtmpContext.step_eq_some hinv.phase.server (step_refines hstep)
  have hsession := sessionStep (fun hdone => hinv.callback (of_decide_eq_true hdone)) hstep
  cases hsession with
  | idle hparser hsame hterm hclosed hacts =>
    obtain ⟨hoffered, -⟩ := offered_of_no_parse hinv hbase hacts
    refine ⟨hserving.toOffering.rest hinv hbase hacts hparser hterm, ?_, ?_⟩
    · rw [hsame, hoffered, hserving.session]
    · rw [hclosed, hoffered, List.append_nil]
      exact hserving.effected
  | close hparser hsame hterm hopen hclosed hacts =>
    obtain ⟨hoffered, -⟩ := offered_of_no_parse hinv hbase hacts
    have heffects := hserving.effected
    rw [hopen] at heffects
    refine ⟨hserving.toOffering.rest hinv hbase hacts hparser hterm, ?_, ?_⟩
    · rw [hsame, hoffered, hserving.session, onClose_run]
    · rw [hclosed, hoffered, hserving.session]
      exact heffects.close
  | parse hparser hsame hclosed hcallback hnext hacts =>
    obtain ⟨hdone, seg, hoffered, hgiven⟩ := offered_of_parse hinv hbase hacts
    have hlen' := hlen _ _ hacts
    subst hnext
    refine hserving.parse hrunning hparser hsame hclosed hcallback hoffered ?_ hlen'
    rcases hgiven with ⟨hwas, hgiven⟩ | ⟨hnone, hgiven⟩
    · rw [hgiven, hserving.unread hwas]
    · rw [hgiven, hnone]
      rfl

/-- Before the handshake is done no handler has sent anything. -/
theorem Serving.sends_eq_nil {t : List Action} {effects : List Effect} {ctx : ServerContext}
    (hserving : Serving t effects ctx) (h : ctx.handShake.state ≠ .done) : sends effects = [] := by
  rw [hserving.effected.sends_eq, offered_of_not_done h]
  rfl

/-- Induction on a run from `Start`: every step is one of the server's, and the trace,
the effects and the context go on together. -/
theorem run_induction {env : HandShakeEnv}
    {motive : List Action → List Effect → ServerContext → Prop} (start : motive [] [] (start env))
    (step : ∀ t effects ctx e next acts effects', Inv env t ctx.toRtmpContext →
      motive t effects ctx → ServerContext.step env ctx e = some (next, acts, effects') →
      motive (t ++ acts) (effects ++ effects') next)
    {es : List Event} {t : List Action} {effects : List Effect} {ctx : ServerContext}
    (hrun : run env es = some (ctx, t, effects)) :
    Inv env t ctx.toRtmpContext ∧ motive t effects ctx := by
  obtain ⟨⟨ctx', outs⟩, hmealy, heq⟩ := Option.map_eq_some_iff.mp hrun
  cases heq
  refine Mealy.run_induction
    (motive := fun _ (outs : List (List Action × List Effect)) (ctx : ServerContext) =>
      Inv env (outs.flatMap (·.1)) ctx.toRtmpContext ∧
        motive (outs.flatMap (·.1)) (outs.flatMap (·.2)) ctx)
    ?_ ?_ hmealy
  · exact ⟨RtmpContext.inv_start env, start⟩
  · rintro es outs ctx e next ⟨acts, effects'⟩ - ⟨hinv, hmotive⟩ hstep
    have hbase := RtmpContext.step_eq_some hinv.phase.server (step_refines hstep)
    simp only [List.flatMap_append, List.flatMap_cons, List.flatMap_nil, List.append_nil]
    exact ⟨hinv.step hbase, step _ _ _ _ _ _ _ hinv hmotive hstep⟩

theorem inv_run {env : HandShakeEnv} {es : List Event} {t : List Action} {effects : List Effect}
    {ctx : ServerContext} (hrun : run env es = some (ctx, t, effects)) :
    Inv env t ctx.toRtmpContext :=
  (run_induction (motive := fun _ _ _ => True) trivial
    (fun _ _ _ _ _ _ _ _ _ _ => trivial) hrun).1

theorem run_concat {env : HandShakeEnv} {es : List Event} {e : Event} {t acts : List Action}
    {effects effects' : List Effect} {ctx next : ServerContext}
    (hrun : run env es = some (ctx, t, effects))
    (hstep : step env ctx e = some (next, acts, effects')) :
    run env (es ++ [e]) = some (next, t ++ acts, effects ++ effects') := by
  obtain ⟨⟨ctx', outs⟩, hmealy, heq⟩ := Option.map_eq_some_iff.mp hrun
  cases heq
  rw [run, Mealy.run_concat hmealy hstep]
  simp

theorem run_concat_eq_some {env : HandShakeEnv} {es : List Event} {e : Event} {t : List Action}
    {effects : List Effect} {ctx : ServerContext}
    (hrun : run env (es ++ [e]) = some (ctx, t, effects)) :
    ∃ before t₁ effects₁ acts effects₂, run env es = some (before, t₁, effects₁) ∧
      step env before e = some (ctx, acts, effects₂) ∧ t = t₁ ++ acts ∧
      effects = effects₁ ++ effects₂ := by
  obtain ⟨⟨ctx', outs⟩, hmealy, heq⟩ := Option.map_eq_some_iff.mp hrun
  cases heq
  obtain ⟨before, outs₁, ⟨acts, effects₂⟩, hbefore, hstep, rfl⟩ := Mealy.run_concat_eq_some hmealy
  refine ⟨before, outs₁.flatMap (·.1), outs₁.flatMap (·.2), acts, effects₂, ?_, hstep, ?_, ?_⟩
  · rw [run, hbefore]
    rfl
  · simp
  · simp

/-- What a server has sent in a state of its handshake, given the client's bytes. -/
def output (env : HandShakeEnv) (state : RtmpHandShakeState) (bytes : Bytes) : List Outgoing :=
  RtmpContext.handShakeOutput env state bytes ++
    if state = .done then
      RtmpContext.answers (sends (RtmpSession.run {} (decoded (bytes.drop 3073)).delivered).2)
    else []

/-- The messages that have been handled. -/
def handled (state : RtmpHandShakeState) (bytes : Bytes) : List RtmpMessage :=
  if state = .done then (decoded (bytes.drop 3073)).delivered else []

/-- A server is what its handshake and the client's bytes make of it. -/
structure Served (env : HandShakeEnv) (t : List Action) (effects : List Effect)
    (ctx : ServerContext) : Prop where
  sent : sent t = output env ctx.handShake.state (arrived t)
  /-- The packets are written in this order. -/
  written : written t ++ ctx.connection.writeQueue = RtmpContext.sent t
  session : ctx.session = (RtmpSession.run {} (handled ctx.handShake.state (arrived t))).1
  effects : Effected ctx.connection.closed (handled ctx.handShake.state (arrived t)) effects
  unread : ctx.handShake.state = .done →
    ctx.connection.recvBuf = (decoded ((arrived t).drop 3073)).unread

theorem sends_eq_nil_of_no_parse {ctx next : ServerContext} {acts : List Action}
    {effects : List Effect} (h : SessionStep ctx next acts effects) :
    (∃ given left, .parse given left ∈ acts) ∨ sends effects = [] := by
  cases h with
  | idle => exact .inr rfl
  | close =>
    refine .inr ?_
    simp only [onClose]
    split <;> rfl
  | parse hparser hsession hclosed hcallback hnext hacts => exact .inl ⟨_, _, hacts⟩

/-- What `Parse` is given can be counted with an `int`. -/
def Counted : Action → Prop
  | .parse given _ => given.length < 2 ^ 31
  | _ => True

instance : (a : Action) → Decidable (Counted a)
  | .received _ => .isTrue trivial
  | .retrieved _ => .isTrue trivial
  | .send _ => .isTrue trivial
  | .written _ => .isTrue trivial
  | .handShakeDone => .isTrue trivial
  | .parse given _ => inferInstanceAs (Decidable (given.length < 2 ^ 31))
  | .close => .isTrue trivial

/-- `Parse` is never given as much as an `int` cannot count. -/
def Countable (t : List Action) : Prop := ∀ a ∈ t, Counted a

/-- What a run keeps: the handshake's packets come first, then the replies, and all of
them are written in this order. -/
structure Kept (t : List Action) (effects : List Effect) (ctx : ServerContext) : Prop
    extends Serving t effects ctx where
  queue : written t ++ ctx.connection.writeQueue = sent t
  sent : sent t =
    sent (RtmpContext.handShakeActions t) ++ RtmpContext.answers (sends effects)

theorem kept_start (env : HandShakeEnv) : Kept [] [] (start env) where
  chunkParse := rfl
  terminated := rfl
  unread := nofun
  session := rfl
  effected := .opened []
  queue := rfl
  sent := rfl

theorem Kept.step {env : HandShakeEnv} {t acts : List Action} {effects effects' : List Effect}
    {ctx next : ServerContext} {e : Event} (hinv : Inv env t ctx.toRtmpContext)
    (hkept : Kept t effects ctx)
    (hstep : ServerContext.step env ctx e = some (next, acts, effects'))
    (hlen : Countable acts) : Kept (t ++ acts) (effects ++ effects') next := by
  have hbase := RtmpContext.step_eq_some hinv.phase.server (step_refines hstep)
  have hserving := hkept.toServing
  have hcounted {given left : Bytes} (hmem : .parse given left ∈ acts) : given.length < 2 ^ 31 :=
    hlen (.parse given left) hmem
  refine ⟨hserving.step hinv hstep fun _ _ => hcounted, hbase.queue hkept.queue, ?_⟩
  have hnone := sends_eq_nil_of_no_parse
    (sessionStep (fun hdone => hinv.callback (of_decide_eq_true hdone)) hstep)
  have hreplies : (e.answered effects').replies = sends effects' := by
    rcases hnone with ⟨given, left, hmem⟩ | hnone
    · obtain ⟨seg, heq⟩ := hbase.read_of_parse hmem
      cases e with
      | read seg => rfl
      | _ => cases heq
    · cases e with
      | read seg => rfl
      | _ => exact hnone.symm
  have hacts := hbase.sent_eq (hreplies ▸ hnone)
  rw [hreplies] at hacts
  rw [RtmpContext.sent_append, hkept.sent, hacts, RtmpContext.handShakeActions_append,
    RtmpContext.sent_append, sends_append]
  -- once the handlers send, the handshake sends nothing more
  by_cases hdone : ctx.handShake.state = .done
  · rw [hbase.sent_of_done hdone, List.nil_append, List.append_nil, List.append_assoc,
      RtmpContext.answers, RtmpContext.answers, RtmpContext.answers, List.map_append]
  · have hsilent : RtmpContext.answers ([] : List Bytes) = [] := rfl
    rw [hserving.sends_eq_nil hdone, hsilent, List.nil_append, List.append_nil,
      List.append_assoc]

theorem run_kept {env : HandShakeEnv} {es : List Event} {t : List Action}
    {effects : List Effect} {ctx : ServerContext} (hrun : run env es = some (ctx, t, effects))
    (hlen : Countable t) : Inv env t ctx.toRtmpContext ∧ Kept t effects ctx := by
  have hmotive := run_induction (motive := fun t effects ctx => Countable t → Kept t effects ctx)
    (fun _ => kept_start env)
    (fun t effects ctx e next acts effects' hinv hkept hstep hlen =>
      (hkept fun a hmem => hlen a (List.mem_append_left _ hmem)).step hinv hstep
        fun a hmem => hlen a (List.mem_append_right _ hmem)) hrun
  exact ⟨hmotive.1, hmotive.2 hlen⟩

theorem Kept.served {env : HandShakeEnv} {t : List Action} {effects : List Effect}
    {ctx : ServerContext} (hinv : Inv env t ctx.toRtmpContext) (hkept : Kept t effects ctx) :
    Served env t effects ctx := by
  have hoffered : (decoded (offered ctx.toRtmpContext t)).delivered =
      handled ctx.handShake.state (arrived t) := by
    unfold handled
    split
    · rename_i hdone
      rw [offered_of_done hdone]
    · rename_i hnot
      rw [offered_of_not_done hnot]
      rfl
  have hsession := hkept.session
  have heffects := hkept.effected
  rw [hoffered] at hsession heffects
  refine ⟨?_, hkept.queue, hsession, heffects, fun hdone => ?_⟩
  · rw [hkept.sent, hinv.sent_handShake, heffects.sends_eq, output, handled]
    congr 1
    split
    · rfl
    · rfl
  · rw [hkept.unread hdone, offered_of_done hdone]

/-- However the client's bytes are cut and whenever the writes are complete, a server's
packets, its session and what its handlers do are decided by the bytes that have
arrived, and by how far the handshake has come. -/
theorem run_served {env : HandShakeEnv} {es : List Event} {t : List Action}
    {effects : List Effect} {ctx : ServerContext} (hrun : run env es = some (ctx, t, effects))
    (hlen : Countable t) : Served env t effects ctx := by
  obtain ⟨hinv, hkept⟩ := run_kept hrun hlen
  exact hkept.served hinv

/-- A command that arrives in two parts, the first of them with the end of the
handshake. -/
def cutCommand : Bytes :=
  sendChunk kChunkCsidCommand kMsgTypeAMF0Command 0 (createStream 2).payload

def cutClient : List Event :=
  [.read RtmpContext.simpleC0C1, .writeSucceeded, .writeSucceeded,
    .read (List.replicate 1536 0 ++ cutCommand.take 20), .writeSucceeded,
    .read (cutCommand.drop 20)]

theorem run_served_cutClient : ∃ ctx t effects,
    run RtmpContext.zeroEnv cutClient = some (ctx, t, effects) ∧
      (handled ctx.handShake.state (arrived t)).length = 1 ∧
      Served RtmpContext.zeroEnv t effects ctx := by
  have hstate : (run RtmpContext.zeroEnv cutClient).any fun r =>
      decide ((∀ a ∈ r.2.1, Counted a) ∧
        (handled r.1.handShake.state (arrived r.2.1)).length = 1) := by
    decide +kernel
  obtain ⟨⟨ctx, t, effects⟩, hrun, h⟩ := (Option.any_eq_true _ _).mp hstate
  obtain ⟨hlen, hone⟩ := of_decide_eq_true h
  exact ⟨ctx, t, effects, hrun, hone, run_served hrun hlen⟩

end ServerContext
