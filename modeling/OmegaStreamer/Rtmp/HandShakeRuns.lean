-- SUMMARY: Runs of the server's handshake: the order of its actions, what it consumes, and when it finishes.
import OmegaStreamer.Lib.Trace
import OmegaStreamer.Rtmp.HandShakeSteps

/-!
# Runs of the handshake

Reads and completed writes reach the context in any order. Three invariants are
derived from what a step can do. `Inv` ties the state of the handshake to what
has been received, consumed, sent and written. `Offers` says that nothing is kept
from the parser. `Progress` counts the completed writes of an open connection.
-/

namespace RtmpContext

/-! ## Traces -/

@[simp] theorem arrived_append (t u : List Action) :
    arrived (t ++ u) = arrived t ++ arrived u := by
  simp [arrived]

@[simp] theorem retrieved_append (t u : List Action) :
    retrieved (t ++ u) = retrieved t ++ retrieved u := by
  simp [retrieved]

@[simp] theorem parsed_append (t u : List Action) : parsed (t ++ u) = parsed t ++ parsed u := by
  simp [parsed]

@[simp] theorem handShakeActions_append (t u : List Action) :
    handShakeActions (t ++ u) = handShakeActions t ++ handShakeActions u := by
  simp [handShakeActions]

/-- What the handshake has retrieved is among its actions. -/
theorem retrieved_handShakeActions (t : List Action) :
    retrieved (handShakeActions t) = retrieved t := by
  induction t with
  | nil => rfl
  | cons a t ih =>
    have hcons : ∀ u, retrieved (a :: u) = retrieved [a] ++ retrieved u :=
      fun u => retrieved_append [a] u
    rw [hcons, handShakeActions, List.filter_cons]
    cases ha : isHandShakeAction a with
    | true => rw [if_pos rfl, hcons]; exact congrArg _ ih
    | false =>
      have hnone : retrieved [a] = [] := by
        cases a with
        | retrieved data => cases ha
        | _ => rfl
      rw [if_neg nofun, hnone]
      exact ih

/-- Sending leaves no other mark on a trace. -/
theorem marks_map_send (outs : List Outgoing) :
    arrived (outs.map .send) = [] ∧ retrieved (outs.map .send) = [] ∧
      parsed (outs.map .send) = [] := by
  induction outs with
  | nil => exact ⟨rfl, rfl, rfl⟩
  | cons out outs ih => exact ih

/-- Bytes taken from the front of the buffer and put at its end keep the account.
The handshake takes none once something has been parsed. -/
theorem bytes_append {t acts : List Action} {buf buf' : Bytes}
    (h : retrieved t ++ parsed t ++ buf = arrived t)
    (hacts : retrieved acts ++ parsed acts ++ buf' = buf ++ arrived acts)
    (horder : parsed t = [] ∨ retrieved acts = []) :
    retrieved (t ++ acts) ++ parsed (t ++ acts) ++ buf' = arrived (t ++ acts) := by
  rw [retrieved_append, parsed_append, arrived_append, ← h]
  rcases horder with hnone | hnone
  · simp only [hnone, List.nil_append, List.append_nil, List.append_assoc] at hacts ⊢
    rw [hacts]
  · simp only [hnone, List.nil_append, List.append_nil, List.append_assoc] at hacts ⊢
    rw [hacts]

/-! ### What may come when -/

/-- The action may come after the actions `t`. The handshake is done when it has
taken the client's first 3073 bytes. `Parse` and the message handlers only run
after that, and `Parse` is given what comes in the client's bytes after the
handshake and what was parsed before. -/
def Allowed (t : List Action) : Action → Prop
  | .handShakeDone => (retrieved t).length = 3073 ∧ retrieved t <+: arrived t
  | .parse given _ => .handShakeDone ∈ t ∧ parsed t ++ given = (arrived t).drop 3073
  | .send ⟨.reply, _⟩ => .handShakeDone ∈ t
  | _ => True

/-- Before the handshake is done nothing has been parsed and nothing answered. -/
theorem nothing_before_done {t : List Action} (h : Trace.Each Allowed [] t)
    (hdone : .handShakeDone ∉ t) : parsed t = [] ∧ ∀ bytes, .send ⟨.reply, bytes⟩ ∉ t := by
  have hno : ∀ a ∈ t, (∀ given left, a ≠ .parse given left) ∧
      ∀ bytes, a ≠ .send ⟨.reply, bytes⟩ := by
    intro a ha
    obtain ⟨t₁, t₂, hsplit⟩ := List.append_of_mem ha
    have hallowed : Allowed t₁ a := h.of_split hsplit
    have hbefore : .handShakeDone ∉ t₁ := fun hmem => hdone (by rw [hsplit]; simp [hmem])
    constructor
    · rintro given left rfl
      exact hbefore hallowed.1
    · rintro bytes rfl
      exact hbefore hallowed
  constructor
  · refine List.flatMap_eq_nil_iff.mpr fun a ha => ?_
    cases a with
    | parse given left => exact absurd rfl ((hno _ ha).1 given left)
    | _ => rfl
  · intro bytes hmem
    exact (hno _ hmem).2 bytes rfl

theorem each_allowed_replies {t : List Action} (h : .handShakeDone ∈ t) (replies : List Bytes) :
    Trace.Each Allowed t ((answers replies).map .send) := by
  induction replies generalizing t with
  | nil => trivial
  | cons bytes replies ih => exact ⟨h, ih (by simp [h])⟩

/-! ## The invariant -/

theorem mem_handShakeActions {a : Action} {t : List Action} :
    a ∈ handShakeActions t ↔ a ∈ t ∧ isHandShakeAction a = true :=
  List.mem_filter

theorem handShakeActions_answers (replies : List Bytes) :
    handShakeActions ((answers replies).map .send) = [] := by
  induction replies with
  | nil => rfl
  | cons bytes replies ih => exact ih

/-- The client's first packet, as the server accepts it. -/
structure FirstPacket (c0c1 : Bytes) : Prop where
  length_eq : c0c1.length = 1537
  version : c0c1.at 0 = 0x03

/-- The state of the handshake, what is being written, and what the handshake has
done so far. -/
inductive Phase (env : HandShakeEnv) : RtmpHandShake → List Outgoing → List Action → Prop where
  | waitC0C1 {hs : RtmpHandShake} (h : hs.state = .waitC0C1)
      (hstart : hs = (start env).handShake) : Phase env hs [] []
  | postS0S1 {hs : RtmpHandShake} {c0c1 : Bytes} (h : hs.state = .postS0S1)
      (hfirst : FirstPacket c0c1) (hc2s2 : hs.c2s2 = s2 env c0c1) :
      Phase env hs [⟨.packet .c1s1, s0s1 env⟩]
        [.retrieved c0c1, .send ⟨.packet .c1s1, s0s1 env⟩]
  | postS2 {hs : RtmpHandShake} {c0c1 : Bytes} (h : hs.state = .postS2)
      (hfirst : FirstPacket c0c1) :
      Phase env hs [⟨.packet .c2s2, s2 env c0c1⟩]
        [.retrieved c0c1, .send ⟨.packet .c1s1, s0s1 env⟩, .written ⟨.packet .c1s1, s0s1 env⟩,
          .send ⟨.packet .c2s2, s2 env c0c1⟩]
  | waitC2 {hs : RtmpHandShake} {c0c1 : Bytes} (h : hs.state = .waitC2)
      (hfirst : FirstPacket c0c1) :
      Phase env hs []
        [.retrieved c0c1, .send ⟨.packet .c1s1, s0s1 env⟩, .written ⟨.packet .c1s1, s0s1 env⟩,
          .send ⟨.packet .c2s2, s2 env c0c1⟩, .written ⟨.packet .c2s2, s2 env c0c1⟩]
  | done {hs : RtmpHandShake} {queue : List Outgoing} {c0c1 c2 : Bytes} (h : hs.state = .done)
      (hfirst : FirstPacket c0c1) (hc2 : c2.length = 1536)
      (hqueue : ∀ out ∈ queue, ∀ p, out.origin ≠ .packet p) :
      Phase env hs queue (script c0c1 (s0s1 env) (s2 env c0c1) c2)

namespace Phase

variable {env : HandShakeEnv} {hs : RtmpHandShake} {queue : List Outgoing} {acts : List Action}

theorem server (h : Phase env hs queue acts) : IsServerState hs.state := by
  unfold IsServerState
  cases h with
  | waitC0C1 h => simp [h]
  | postS0S1 h => simp [h]
  | postS2 h => simp [h]
  | waitC2 h => simp [h]
  | done h => simp [h]

theorem done_mem_iff (h : Phase env hs queue acts) :
    .handShakeDone ∈ acts ↔ hs.state = .done := by
  cases h with
  | waitC0C1 h => simp [h]
  | postS0S1 h => simp [h]
  | postS2 h => simp [h]
  | waitC2 h => simp [h]
  | done h => simp [h, script]

theorem of_waitC0C1 (hphase : Phase env hs queue acts) (h : hs.state = .waitC0C1) :
    queue = [] ∧ acts = [] ∧ hs = (start env).handShake := by
  cases hphase with
  | waitC0C1 _ hstart => exact ⟨rfl, rfl, hstart⟩
  | _ => simp_all

theorem of_postS0S1 (hphase : Phase env hs queue acts) (h : hs.state = .postS0S1) :
    ∃ c0c1, FirstPacket c0c1 ∧ hs.c2s2 = s2 env c0c1 ∧
      queue = [⟨.packet .c1s1, s0s1 env⟩] ∧
      acts = [.retrieved c0c1, .send ⟨.packet .c1s1, s0s1 env⟩] := by
  cases hphase with
  | postS0S1 _ hfirst hc2s2 => exact ⟨_, hfirst, hc2s2, rfl, rfl⟩
  | _ => simp_all

theorem of_postS2 (hphase : Phase env hs queue acts) (h : hs.state = .postS2) :
    ∃ c0c1, FirstPacket c0c1 ∧ queue = [⟨.packet .c2s2, s2 env c0c1⟩] ∧
      acts = [.retrieved c0c1, .send ⟨.packet .c1s1, s0s1 env⟩,
        .written ⟨.packet .c1s1, s0s1 env⟩, .send ⟨.packet .c2s2, s2 env c0c1⟩] := by
  cases hphase with
  | postS2 _ hfirst => exact ⟨_, hfirst, rfl, rfl⟩
  | _ => simp_all

theorem of_waitC2 (hphase : Phase env hs queue acts) (h : hs.state = .waitC2) :
    ∃ c0c1, FirstPacket c0c1 ∧ queue = [] ∧
      acts = [.retrieved c0c1, .send ⟨.packet .c1s1, s0s1 env⟩,
        .written ⟨.packet .c1s1, s0s1 env⟩, .send ⟨.packet .c2s2, s2 env c0c1⟩,
        .written ⟨.packet .c2s2, s2 env c0c1⟩] := by
  cases hphase with
  | waitC2 _ hfirst => exact ⟨_, hfirst, rfl, rfl⟩
  | _ => simp_all

theorem of_done (hphase : Phase env hs queue acts) (h : hs.state = .done) :
    ∃ c0c1 c2, FirstPacket c0c1 ∧ c2.length = 1536 ∧
      (∀ out ∈ queue, ∀ p, out.origin ≠ .packet p) ∧
      acts = script c0c1 (s0s1 env) (s2 env c0c1) c2 := by
  cases hphase with
  | done _ hfirst hc2 hqueue => exact ⟨_, _, hfirst, hc2, hqueue, rfl⟩
  | _ => simp_all

/-- Once the first packet has been taken it is known to begin with the version. -/
theorem first (hphase : Phase env hs queue acts) (h : hs.state ≠ .waitC0C1) :
    ∃ c0c1 rest, acts = .retrieved c0c1 :: rest ∧ FirstPacket c0c1 := by
  cases hphase with
  | waitC0C1 hwait => exact absurd hwait h
  | postS0S1 _ hfirst => exact ⟨_, _, rfl, hfirst⟩
  | postS2 _ hfirst => exact ⟨_, _, rfl, hfirst⟩
  | waitC2 _ hfirst => exact ⟨_, _, rfl, hfirst⟩
  | done _ hfirst => exact ⟨_, _, rfl, hfirst⟩

/-- Before the handshake is done, what is being written is one of its packets, and
it is alone in the queue. -/
theorem done_of_wrote (hphase : Phase env hs queue acts) {out : Outgoing} {rest : List Outgoing}
    (hq : queue = out :: rest)
    (h : hs.state ≠ .postS0S1 ∧ hs.state ≠ .postS2 ∨ rest ≠ []) : hs.state = .done := by
  cases hphase with
  | waitC0C1 => cases hq
  | postS0S1 hstate =>
    cases hq
    exact h.elim (fun hnot => absurd hstate hnot.1) (absurd rfl)
  | postS2 hstate =>
    cases hq
    exact h.elim (fun hnot => absurd hstate hnot.2) (absurd rfl)
  | waitC2 => cases hq
  | done hdone => exact hdone

end Phase

/-- What holds of the context after the actions `t`. -/
structure Inv (env : HandShakeEnv) (t : List Action) (ctx : RtmpContext) : Prop where
  wf : ctx.connection.WellFormed
  bytes : retrieved t ++ parsed t ++ ctx.connection.recvBuf = arrived t
  allowed : Trace.Each Allowed [] t
  phase : Phase env ctx.handShake ctx.connection.writeQueue (handShakeActions t)
  callback : ctx.handShake.state = .done → ctx.hasMessageCallback = true

namespace Inv

variable {env : HandShakeEnv} {t : List Action} {ctx : RtmpContext}

theorem done_mem_iff (hinv : Inv env t ctx) : .handShakeDone ∈ t ↔ ctx.handShake.state = .done := by
  rw [← hinv.phase.done_mem_iff, mem_handShakeActions]
  simp [isHandShakeAction]

theorem parsed_eq_nil (hinv : Inv env t ctx) (h : ctx.handShake.state ≠ .done) : parsed t = [] :=
  (nothing_before_done hinv.allowed (mt hinv.done_mem_iff.mp h)).1

/-- Before the first packet everything that has arrived is in the buffer. -/
theorem arrived_of_waitC0C1 (hinv : Inv env t ctx) (h : ctx.handShake.state = .waitC0C1) :
    arrived t = ctx.connection.recvBuf := by
  obtain ⟨-, hacts, -⟩ := hinv.phase.of_waitC0C1 h
  rw [← hinv.bytes, hinv.parsed_eq_nil (by simp [h]), ← retrieved_handShakeActions, hacts]
  rfl

/-- While S0S1 and S2 are on their way and C2 is awaited, the first packet is all
that has been consumed. -/
theorem arrived_of_exchange (hinv : Inv env t ctx) (h : ctx.handShake.state = .postS0S1 ∨
    ctx.handShake.state = .postS2 ∨ ctx.handShake.state = .waitC2) :
    ∃ c0c1, c0c1.length = 1537 ∧ arrived t = c0c1 ++ ctx.connection.recvBuf := by
  have hnot : ctx.handShake.state ≠ .done := by rcases h with h | h | h <;> simp [h]
  rw [← hinv.bytes, hinv.parsed_eq_nil hnot, ← retrieved_handShakeActions]
  rcases h with h | h | h
  · obtain ⟨c0c1, hfirst, -, -, hacts⟩ := hinv.phase.of_postS0S1 h
    exact ⟨c0c1, hfirst.length_eq, by simp [hacts, retrieved]⟩
  · obtain ⟨c0c1, hfirst, -, hacts⟩ := hinv.phase.of_postS2 h
    exact ⟨c0c1, hfirst.length_eq, by simp [hacts, retrieved]⟩
  · obtain ⟨c0c1, hfirst, -, hacts⟩ := hinv.phase.of_waitC2 h
    exact ⟨c0c1, hfirst.length_eq, by simp [hacts, retrieved]⟩

/-- When the handshake is done it has consumed both packets, and what was parsed
and what is in the buffer are the bytes after them. -/
theorem arrived_of_done (hinv : Inv env t ctx) (h : ctx.handShake.state = .done) :
    3073 ≤ (arrived t).length ∧
      parsed t ++ ctx.connection.recvBuf = (arrived t).drop 3073 := by
  obtain ⟨c0c1, c2, hfirst, hc2, -, hacts⟩ := hinv.phase.of_done h
  have hlen : (retrieved t).length = 3073 := by
    rw [← retrieved_handShakeActions, hacts]
    simp [script, retrieved, initialMessages, hfirst.length_eq, hc2]
  rw [← hinv.bytes, List.append_assoc]
  constructor
  · rw [List.length_append]
    omega
  · rw [← hlen, List.drop_left]

theorem version (hinv : Inv env t ctx) (h : ctx.handShake.state ≠ .waitC0C1) :
    (arrived t).at 0 = 0x03 := by
  obtain ⟨c0c1, rest, hacts, hfirst⟩ := hinv.phase.first h
  have hhead : retrieved (handShakeActions t) = c0c1 ++ retrieved rest := by
    rw [hacts]
    exact retrieved_append [.retrieved c0c1] rest |>.trans (by simp [retrieved])
  have hpos : 0 < c0c1.length := by rw [hfirst.length_eq]; omega
  rw [← hinv.bytes, ← retrieved_handShakeActions, hhead, List.append_assoc, List.append_assoc,
    Bytes.at_append hpos, hfirst.version]

/-- Without a packet nothing is sent. -/
theorem nothing_sent (hinv : Inv env t ctx) (h : ctx.handShake.state = .waitC0C1) (out : Outgoing) :
    .send out ∉ t := by
  intro hmem
  obtain ⟨-, hacts, -⟩ := hinv.phase.of_waitC0C1 h
  have hnone : ∀ {a : Action}, a ∈ t → isHandShakeAction a = true → False := by
    intro a ha hact
    have hin := mem_handShakeActions.mpr ⟨ha, hact⟩
    rw [hacts] at hin
    exact absurd hin List.not_mem_nil
  obtain ⟨origin, bytes⟩ := out
  cases origin with
  | packet p => exact hnone hmem rfl
  | control => exact hnone hmem rfl
  | reply =>
    have hdone : .handShakeDone ∉ t := mt hinv.done_mem_iff.mp (by simp [h])
    exact (nothing_before_done hinv.allowed hdone).2 bytes hmem

/-! ### What a step is made of -/

theorem received (hinv : Inv env t ctx) (seg : Bytes) :
    Inv env (t ++ [Action.received seg]) (ctx.received seg) where
  wf := hinv.wf.setRecvBuf _
  bytes := by
    refine bytes_append hinv.bytes ?_ (.inr rfl)
    simp [retrieved, parsed, arrived, RtmpContext.received, TcpConnection.received]
  allowed := (Trace.each_append _ _ _).mpr ⟨hinv.allowed, trivial, trivial⟩
  phase := by
    have hacts : handShakeActions [.received seg] = [] := rfl
    rw [handShakeActions_append, hacts, List.append_nil]
    exact hinv.phase
  callback := hinv.callback

/-- The end of the connection changes nothing else. -/
theorem closed (hinv : Inv env t ctx) {connection : TcpConnection Outgoing}
    (hwf : connection.WellFormed) (hbuf : connection.recvBuf = ctx.connection.recvBuf)
    (hqueue : connection.writeQueue = ctx.connection.writeQueue) :
    Inv env (t ++ [Action.close]) { ctx with connection := connection } where
  wf := hwf
  bytes := bytes_append hinv.bytes (hbuf.trans (List.append_nil _).symm) (.inr rfl)
  allowed := (Trace.each_append _ _ _).mpr ⟨hinv.allowed, trivial, trivial⟩
  phase := by
    have hacts : handShakeActions [.close] = [] := rfl
    rw [handShakeActions_append, hacts, List.append_nil]
    simp only [hqueue]
    exact hinv.phase
  callback := hinv.callback

/-- The first packet is taken and S0S1 is sent. -/
theorem accept (hinv : Inv env t ctx) (h : ctx.handShake.state = .waitC0C1)
    (hlen : 1537 ≤ ctx.connection.recvBuf.length) (hversion : ctx.connection.recvBuf.at 0 = 0x03)
    {hs : RtmpHandShake} (hstate : hs.state = .postS0S1)
    (hc2s2 : hs.c2s2 = ctx.handShake.c2s2For env (ctx.connection.recvBuf.take 1537)) :
    Inv env (t ++ [Action.retrieved (ctx.connection.recvBuf.take 1537),
        .send ⟨.packet .c1s1, ctx.handShake.c1s1⟩])
      (ctx.moved hs (ctx.connection.recvBuf.drop 1537)
        [⟨.packet .c1s1, ctx.handShake.c1s1⟩]) where
  wf := (hinv.wf.setRecvBuf _).sendAll _
  bytes := by
    refine bytes_append hinv.bytes ?_ (.inl (hinv.parsed_eq_nil (by simp [h])))
    simp [moved, retrieved, parsed, arrived]
  allowed := (Trace.each_append _ _ _).mpr ⟨hinv.allowed, trivial, trivial, trivial⟩
  phase := by
    obtain ⟨hqueue, hacts, hstart⟩ := hinv.phase.of_waitC0C1 h
    rw [hstart] at hc2s2 ⊢
    rw [handShakeActions_append, hacts]
    simp only [moved, TcpConnection.sendAll_writeQueue, hqueue]
    refine .postS0S1 hstate ⟨?_, ?_⟩ hc2s2
    · rw [List.length_take]
      omega
    · simpa [Bytes.at] using hversion
  callback hdone := absurd (hstate.symm.trans hdone) nofun

/-- The second packet is taken, and the initial messages are sent. -/
theorem finish (hinv : Inv env t ctx) (h : ctx.handShake.state = .waitC2)
    (hlen : 1536 ≤ ctx.connection.recvBuf.length) {hs : RtmpHandShake} (hstate : hs.state = .done) :
    Inv env (t ++ ([.retrieved (ctx.connection.recvBuf.take 1536), .handShakeDone] ++
        initialMessages.map .send))
      ({ ctx with hasMessageCallback := true }.moved hs (ctx.connection.recvBuf.drop 1536)
        initialMessages) where
  wf := (hinv.wf.setRecvBuf _).sendAll _
  bytes := by
    refine bytes_append hinv.bytes ?_ (.inl (hinv.parsed_eq_nil (by simp [h])))
    simp [moved, retrieved, parsed, arrived, initialMessages]
  allowed := by
    have htaken : Allowed (t ++ [Action.retrieved (ctx.connection.recvBuf.take 1536)])
        .handShakeDone := by
      obtain ⟨c0c1, hfirst, hqueue, hacts⟩ := hinv.phase.of_waitC2 h
      have hretrieved : retrieved t = c0c1 := by
        rw [← retrieved_handShakeActions, hacts]
        simp [retrieved]
      have hbytes := hinv.bytes
      rw [hinv.parsed_eq_nil (by simp [h]), hretrieved, List.append_nil] at hbytes
      rw [Allowed, retrieved_append, arrived_append, hretrieved, ← hbytes]
      constructor
      · simp [retrieved, hfirst.length_eq]
        omega
      · simp [retrieved, arrived, List.take_prefix]
    exact (Trace.each_append _ _ _).mpr
      ⟨hinv.allowed, trivial, htaken, trivial, trivial, trivial, trivial⟩
  phase := by
    obtain ⟨c0c1, hfirst, hqueue, hacts⟩ := hinv.phase.of_waitC2 h
    rw [handShakeActions_append, hacts]
    simp only [moved, TcpConnection.sendAll_writeQueue, hqueue]
    refine .done hstate hfirst ?_ ?_
    · rw [List.length_take]
      omega
    · simp [initialMessages]
  callback _ := rfl

/-- `Parse` takes bytes from the buffer, and the handlers answer. -/
theorem parse (hinv : Inv env t ctx) (h : ctx.handShake.state = .done) {left : Bytes}
    (hleft : left <:+ ctx.connection.recvBuf) (chunkParse : RtmpChunkParse) (terminated : Bool)
    (replies : List Bytes) :
    Inv env (t ++ Action.parse ctx.connection.recvBuf left :: (answers replies).map .send)
      ({ ctx with chunkParse, terminated }.moved ctx.handShake left (answers replies)) where
  wf := (hinv.wf.setRecvBuf _).sendAll _
  bytes := by
    obtain ⟨taken, htaken⟩ := hleft
    obtain ⟨harrived, hretrieved, hparsed⟩ := marks_map_send (answers replies)
    have hparse : retrieved (t ++ [Action.parse ctx.connection.recvBuf left]) ++
        parsed (t ++ [Action.parse ctx.connection.recvBuf left]) ++ left =
        arrived (t ++ [Action.parse ctx.connection.recvBuf left]) := by
      refine bytes_append hinv.bytes ?_ (.inr rfl)
      simp [retrieved, parsed, arrived, ← htaken]
    rw [moved, TcpConnection.sendAll_recvBuf, List.append_cons]
    refine bytes_append hparse ?_ (.inr hretrieved)
    rw [hretrieved, hparsed, harrived, List.nil_append, List.nil_append, List.append_nil]
  allowed := by
    have hmem := hinv.done_mem_iff.mpr h
    refine (Trace.each_append _ _ _).mpr ⟨hinv.allowed, ⟨hmem, (hinv.arrived_of_done h).2⟩, ?_⟩
    exact each_allowed_replies (List.mem_append_left _ hmem) replies
  phase := by
    obtain ⟨c0c1, c2, hfirst, hc2, hqueue, hacts⟩ := hinv.phase.of_done h
    have hnone : handShakeActions [.parse ctx.connection.recvBuf left] = [] := rfl
    rw [List.append_cons, handShakeActions_append, handShakeActions_append, hacts, hnone,
      handShakeActions_answers, List.append_nil, List.append_nil]
    apply Phase.done h hfirst hc2
    simp only [moved, TcpConnection.sendAll_writeQueue, List.mem_append]
    rintro out (hout | hout) p
    · exact hqueue out hout p
    · obtain ⟨bytes, -, rfl⟩ := List.mem_map.mp hout
      simp
  callback := hinv.callback

/-- A buffer that does not belong to the handshake has been written. -/
theorem wrote (hinv : Inv env t ctx) (h : ctx.handShake.state = .done) {out : Outgoing}
    {rest : List Outgoing} (hq : ctx.connection.writeQueue = out :: rest) :
    Inv env (t ++ [Action.written out])
      { ctx with connection := ctx.connection.writeSucceeded.1 } where
  wf := hinv.wf.writeSucceeded
  bytes := by
    refine bytes_append hinv.bytes ?_ (.inr rfl)
    simp [retrieved, parsed, arrived]
  allowed := (Trace.each_append _ _ _).mpr ⟨hinv.allowed, trivial, trivial⟩
  phase := by
    obtain ⟨c0c1, c2, hfirst, hc2, hqueue, hacts⟩ := hinv.phase.of_done h
    rw [hq] at hqueue
    have hnone : handShakeActions [.written out] = [] := by
      have hnot := hqueue out List.mem_cons_self
      obtain ⟨origin, bytes⟩ := out
      cases origin with
      | packet p => exact absurd rfl (hnot p)
      | control => rfl
      | reply => rfl
    rw [handShakeActions_append, hacts, hnone, List.append_nil]
    apply Phase.done h hfirst hc2
    simp only [TcpConnection.writeSucceeded_writeQueue, hq, List.tail_cons]
    exact fun out' hout' => hqueue out' (List.mem_cons_of_mem _ hout')
  callback := hinv.callback

/-- S0S1 has been written, and S2 is sent. -/
theorem wroteS0S1 (hinv : Inv env t ctx) (h : ctx.handShake.state = .postS0S1) {out : Outgoing}
    (hq : ctx.connection.writeQueue = [out]) :
    Inv env (t ++ [Action.written out, .send ⟨.packet .c2s2, ctx.handShake.c2s2⟩])
      { ctx with
        handShake := { ctx.handShake with state := .postS2 }
        connection := ctx.connection.writeSucceeded.1.sendAll
          [⟨.packet .c2s2, ctx.handShake.c2s2⟩] } where
  wf := hinv.wf.writeSucceeded.sendAll _
  bytes := by
    refine bytes_append hinv.bytes ?_ (.inr rfl)
    simp [retrieved, parsed, arrived]
  allowed := (Trace.each_append _ _ _).mpr ⟨hinv.allowed, trivial, trivial, trivial⟩
  phase := by
    obtain ⟨c0c1, hfirst, hc2s2, hqueue, hacts⟩ := hinv.phase.of_postS0S1 h
    obtain rfl : out = ⟨.packet .c1s1, s0s1 env⟩ := List.singleton_inj.mp (hq.symm.trans hqueue)
    rw [handShakeActions_append, hacts, hc2s2]
    simp only [TcpConnection.sendAll_writeQueue, TcpConnection.writeSucceeded_writeQueue, hq]
    exact .postS2 rfl hfirst
  callback := nofun

/-- S2 has been written. -/
theorem wroteS2 (hinv : Inv env t ctx) (h : ctx.handShake.state = .postS2) {out : Outgoing}
    (hq : ctx.connection.writeQueue = [out]) :
    Inv env (t ++ [Action.written out])
      { ctx with
        handShake := { ctx.handShake with state := .waitC2 }
        connection := ctx.connection.writeSucceeded.1 } where
  wf := hinv.wf.writeSucceeded
  bytes := by
    refine bytes_append hinv.bytes ?_ (.inr rfl)
    simp [retrieved, parsed, arrived]
  allowed := (Trace.each_append _ _ _).mpr ⟨hinv.allowed, trivial, trivial⟩
  phase := by
    obtain ⟨c0c1, hfirst, hqueue, hacts⟩ := hinv.phase.of_postS2 h
    obtain rfl : out = ⟨.packet .c2s2, s2 env c0c1⟩ :=
      List.singleton_inj.mp (hq.symm.trans hqueue)
    rw [handShakeActions_append, hacts]
    simp only [TcpConnection.writeSucceeded_writeQueue, hq]
    exact .waitC2 rfl hfirst
  callback := nofun

/-- Every step preserves the invariant: one case for each thing that a step can
do. -/
theorem step {next : RtmpContext} {e : Event} {acts : List Action} (hinv : Inv env t ctx)
    (h : Stepped env ctx e next acts) : Inv env (t ++ acts) next := by
  cases h with
  | @idle seg replies h => exact hinv.received seg
  | @accept seg replies buf hs hbuf h hlen hversion hstate hc2s2 =>
    subst hbuf
    have haccept := (hinv.received seg).accept h hlen hversion hstate hc2s2
    rw [List.append_assoc] at haccept
    exact haccept
  | @refuse seg replies buf hbuf h hlen hversion =>
    subst hbuf
    have hreceived := hinv.received seg
    have hclosed := hreceived.closed hreceived.wf.close rfl rfl
    rw [List.append_assoc] at hclosed
    exact hclosed
  | @finish seg replies buf hs hbuf h hlen hstate =>
    subst hbuf
    have hfinish := (hinv.received seg).finish h (Nat.le_of_eq hlen.symm) hstate
    rw [List.append_assoc] at hfinish
    have hbuf : (ctx.received seg).connection.recvBuf = ctx.connection.recvBuf ++ seg := rfl
    rw [hbuf, List.take_of_length_le (Nat.le_of_eq hlen),
      List.drop_of_length_le (Nat.le_of_eq hlen)] at hfinish
    exact hfinish
  | @finishParse seg replies buf left hs chunkParse terminated hbuf h hlen hstate hleft =>
    subst hbuf
    have hfinish := (hinv.received seg).finish h (Nat.le_of_lt hlen) hstate
    have hrest : ({ ctx.received seg with hasMessageCallback := true }.moved hs
        ((ctx.connection.recvBuf ++ seg).drop 1536) initialMessages).connection.recvBuf =
        (ctx.connection.recvBuf ++ seg).drop 1536 := TcpConnection.sendAll_recvBuf _ _
    have hparse := hfinish.parse hstate (hleft.trans (by rw [← hrest]; exact List.suffix_refl _))
      chunkParse terminated replies
    simp only [List.append_assoc, moved, TcpConnection.setRecvBuf_sendAll,
      TcpConnection.sendAll_recvBuf, ← TcpConnection.sendAll_append] at hparse ⊢
    exact hparse
  | @parse seg replies buf left chunkParse terminated hbuf h hleft =>
    subst hbuf
    have hparse := (hinv.received seg).parse h hleft chunkParse terminated replies
    rw [List.append_assoc] at hparse
    exact hparse
  | readFailed => exact hinv.closed hinv.wf.close rfl rfl
  | wrote ho hq h => exact hinv.wrote (hinv.phase.done_of_wrote hq h) hq
  | wroteS0S1 ho hq h => exact hinv.wroteS0S1 h hq
  | wroteS2 ho hq h => exact hinv.wroteS2 h hq
  | writeFailed ho => exact hinv.closed hinv.wf.writeFailed rfl rfl

end Inv

/-! ## Runs -/

theorem inv_start (env : HandShakeEnv) : Inv env [] (start env) where
  wf := TcpConnection.wellFormed_init
  bytes := rfl
  allowed := trivial
  phase := .waitC0C1 rfl rfl
  callback := nofun

/-- Induction on a run from `Start`. The motive sees the events, the trace and the
context, and every step is one of a server. -/
theorem run_induction {env : HandShakeEnv} {motive : List Event → List Action → RtmpContext → Prop}
    (start : motive [] [] (start env))
    (step : ∀ es t ctx e next acts, Inv env t ctx → motive es t ctx → Stepped env ctx e next acts →
      motive (es ++ [e]) (t ++ acts) next)
    {es : List Event} {t : List Action} {ctx : RtmpContext} (hrun : run env es = some (ctx, t)) :
    Inv env t ctx ∧ motive es t ctx := by
  obtain ⟨⟨ctx', outs⟩, hmealy, heq⟩ := Option.map_eq_some_iff.mp hrun
  obtain ⟨rfl, rfl⟩ := Prod.mk.inj heq
  refine Mealy.run_induction
    (motive := fun es outs ctx => Inv env outs.flatten ctx ∧ motive es outs.flatten ctx)
    ⟨inv_start env, start⟩ ?_ hmealy
  rintro es outs ctx e next acts - ⟨hinv, hmotive⟩ hstep
  have hstepped := step_eq_some hinv.phase.server hstep
  rw [List.flatten_append, List.flatten_singleton]
  exact ⟨hinv.step hstepped, step _ _ _ _ _ _ hinv hmotive hstepped⟩

/-! ## Progress -/

/-- The number of completed writes. -/
def writes (es : List Event) : Nat := es.count .writeSucceeded

/-- A read comes after the second completed write. -/
def ReadAfterWrites (es : List Event) : Prop :=
  ∃ es₁ seg replies es₂, es = es₁ ++ .read seg replies :: es₂ ∧ 2 ≤ writes es₁

theorem writes_append (es es' : List Event) : writes (es ++ es') = writes es + writes es' :=
  List.count_append

theorem ReadAfterWrites.two_le_writes {es : List Event} (h : ReadAfterWrites es) :
    2 ≤ writes es := by
  obtain ⟨es₁, seg, replies, es₂, rfl, hwrites⟩ := h
  rw [writes_append]
  omega

theorem readAfterWrites_concat (es : List Event) (e : Event) :
    ReadAfterWrites (es ++ [e]) ↔
      ReadAfterWrites es ∨ (∃ seg replies, e = .read seg replies) ∧ 2 ≤ writes es := by
  constructor
  · rintro ⟨es₁, seg, replies, es₂, heq, hwrites⟩
    rcases List.eq_nil_or_concat es₂ with rfl | ⟨es₂, e', rfl⟩
    · obtain ⟨rfl, rfl⟩ := List.append_inj' heq rfl |>.imp id List.singleton_inj.mp
      exact .inr ⟨⟨seg, replies, rfl⟩, hwrites⟩
    · have heq' : es ++ [e] = (es₁ ++ Event.read seg replies :: es₂) ++ [e'] := by
        simpa using heq
      exact .inl ⟨es₁, seg, replies, es₂, (List.append_inj' heq' rfl).1, hwrites⟩
  · rintro (⟨es₁, seg, replies, es₂, rfl, hwrites⟩ | ⟨⟨seg, replies, rfl⟩, hwrites⟩)
    · exact ⟨es₁, seg, replies, es₂ ++ [e], by simp, hwrites⟩
    · exact ⟨es, seg, replies, [], rfl, hwrites⟩

/-- All that has arrived after the handshake has been given to `Parse`. -/
def Offered (t : List Action) : Prop :=
  ∃ t₁ given left t₂, t = t₁ ++ .parse given left :: t₂ ∧
    parsed t₁ ++ given = (arrived t).drop 3073

theorem offered_of_last {t₁ : List Action} {given left : Bytes} {replies : List Bytes}
    (h : Trace.Each Allowed [] (t₁ ++ Action.parse given left :: (answers replies).map .send)) :
    Offered (t₁ ++ Action.parse given left :: (answers replies).map .send) := by
  refine ⟨t₁, given, left, _, rfl, ?_⟩
  have hlast : arrived [.parse given left] = [] := rfl
  rw [List.append_cons, arrived_append, arrived_append, hlast, (marks_map_send _).1,
    List.append_nil, List.append_nil]
  exact (h.of_split rfl).2

/-- Nothing more has arrived. -/
theorem Offered.append {t acts : List Action} (h : Offered t) (hacts : arrived acts = []) :
    Offered (t ++ acts) := by
  obtain ⟨t₁, given, left, t₂, rfl, hgiven⟩ := h
  refine ⟨t₁, given, left, t₂ ++ acts, by simp, ?_⟩
  rw [arrived_append, hacts, List.append_nil]
  exact hgiven

/-- Once the handshake is done, whatever has arrived behind it has been given to `Parse`. -/
def Offers (t : List Action) (ctx : RtmpContext) : Prop :=
  ctx.handShake.state = .done → 3073 < (arrived t).length → Offered t

/-- Every step offers what it has received: one case for each thing that a step can do. -/
theorem Offers.step {env : HandShakeEnv} {t : List Action} {ctx next : RtmpContext} {e : Event}
    {acts : List Action} (hinv : Inv env t ctx) (hoffers : Offers t ctx)
    (h : Stepped env ctx e next acts) : Offers (t ++ acts) next := by
  have hnext := hinv.step h
  -- a step in which nothing arrives
  have hkeep (hacts : arrived acts = []) (hwas : ctx.handShake.state = .done) (hmore :
      3073 < (arrived (t ++ acts)).length) : Offered (t ++ acts) := by
    rw [arrived_append, hacts, List.append_nil] at hmore
    exact (hoffers hwas hmore).append hacts
  intro hdone hmore
  cases h with
  | idle h =>
    simp only [moved] at hdone
    rcases h with ⟨h, -⟩ | h | h | ⟨h, -⟩ <;> rw [hdone] at h <;> cases h
  | accept hbuf h hlen hversion hstate =>
    simp only [moved, hstate] at hdone
    cases hdone
  | refuse hbuf h =>
    have hwas : ctx.handShake.state = .done := hdone
    rw [h] at hwas
    cases hwas
  | @finish seg replies buf hs hbuf h hlen hstate =>
    -- the two packets are all that has arrived
    obtain ⟨c0c1, hc0c1, harrived⟩ := hinv.arrived_of_exchange (.inr (.inr h))
    have hacts : arrived ([.received seg, .retrieved buf, .handShakeDone] ++
        initialMessages.map .send) = seg := List.append_nil seg
    rw [arrived_append, hacts, harrived, List.append_assoc, ← hbuf, List.length_append, hc0c1,
      hlen] at hmore
    exact absurd hmore (Nat.lt_irrefl _)
  | @finishParse seg replies buf left hs chunkParse terminated hbuf h hlen hstate hleft =>
    have hallowed := hnext.allowed
    rw [← List.append_assoc] at hallowed ⊢
    exact offered_of_last hallowed
  | @parse seg replies buf left chunkParse terminated hbuf h hleft =>
    have hallowed := hnext.allowed
    have hsplit : t ++ ([.received seg, .parse buf left] ++ (answers replies).map .send) =
        t ++ [Action.received seg] ++ Action.parse buf left :: (answers replies).map .send := by
      simp
    rw [hsplit] at hallowed ⊢
    exact offered_of_last hallowed
  | readFailed => exact hkeep rfl hdone hmore
  | wrote => exact hkeep rfl hdone hmore
  | wroteS0S1 => cases hdone
  | wroteS2 => cases hdone
  | writeFailed => exact hkeep rfl hdone hmore

/-- How far the handshake of an open connection has come in a state. -/
def Progress (es : List Event) (t : List Action) : RtmpHandShakeState → Prop
  | .waitC0C1 => (arrived t).length < 1537 ∧ writes es = 0
  | .postS0S1 => writes es = 0
  | .postS2 => writes es = 1
  | .waitC2 => writes es = 2 ∧ (ReadAfterWrites es → (arrived t).length < 3073)
  | .done => ReadAfterWrites es
  | _ => False

theorem writes_concat_read (es : List Event) (seg : Bytes) (replies : List Bytes) :
    writes (es ++ [Event.read seg replies]) = writes es := by
  rw [writes_append]
  rfl

theorem writes_concat_written (es : List Event) :
    writes (es ++ [Event.writeSucceeded]) = writes es + 1 := by
  rw [writes_append]
  rfl

/-- A read that the handshake does nothing about. -/
private theorem Progress.idle {es : List Event} {t : List Action} {ctx : RtmpContext}
    (hinv : Inv env t ctx) (hp : Progress es t ctx.handShake.state) {seg : Bytes}
    {replies : List Bytes} (h : Ignores ctx.handShake.state (ctx.connection.recvBuf ++ seg)) :
    Progress (es ++ [Event.read seg replies]) (t ++ [Action.received seg]) ctx.handShake.state := by
  have hseg : arrived [.received seg] = seg := List.append_nil seg
  rcases h with ⟨h, hshort⟩ | h | h | ⟨h, hshort⟩
  · rw [h] at hp ⊢
    refine ⟨?_, (writes_concat_read _ _ _).trans hp.2⟩
    rw [arrived_append, hseg, hinv.arrived_of_waitC0C1 h]
    exact hshort
  · rw [h] at hp ⊢
    exact (writes_concat_read _ _ _).trans hp
  · rw [h] at hp ⊢
    exact (writes_concat_read _ _ _).trans hp
  · obtain ⟨c0c1, hc0c1, harrived⟩ := hinv.arrived_of_exchange (.inr (.inr h))
    rw [h] at hp ⊢
    refine ⟨(writes_concat_read _ _ _).trans hp.1, fun _ => ?_⟩
    rw [arrived_append, hseg, harrived, List.append_assoc, List.length_append, hc0c1]
    omega

/-- Every step of an open connection preserves `Progress`: one case for each thing
that a step can do. -/
theorem Progress.step {es : List Event} {t : List Action} {ctx next : RtmpContext} {e : Event}
    {acts : List Action} (hinv : Inv env t ctx)
    (hp : ctx.connection.closed = false → Progress es t ctx.handShake.state)
    (h : Stepped env ctx e next acts) (hopen : next.connection.closed = false) :
    Progress (es ++ [e]) (t ++ acts) next.handShake.state := by
  cases h with
  | idle h => exact (hp hopen).idle hinv h
  | @accept seg replies buf hs hbuf h hlen hversion hstate hc2s2 =>
    have hp := hp (by simpa [moved] using hopen)
    rw [h] at hp
    simp only [moved, hstate]
    exact (writes_concat_read _ _ _).trans hp.2
  | refuse => cases hopen
  | @finish seg replies buf hs hbuf h hlen hstate =>
    have hp := hp (by simpa [moved] using hopen)
    rw [h] at hp
    simp only [moved, hstate]
    exact (readAfterWrites_concat _ _).mpr (.inr ⟨⟨seg, replies, rfl⟩, hp.1.ge⟩)
  | @finishParse seg replies buf left hs chunkParse terminated hbuf h hlen hstate hleft =>
    have hp := hp (by simpa [moved] using hopen)
    rw [h] at hp
    simp only [moved, hstate]
    exact (readAfterWrites_concat _ _).mpr (.inr ⟨⟨seg, replies, rfl⟩, hp.1.ge⟩)
  | @parse seg replies buf left chunkParse terminated hbuf h hleft =>
    have hp := hp (by simpa [moved] using hopen)
    rw [h] at hp
    simp only [moved, h]
    exact (readAfterWrites_concat _ _).mpr (.inl hp)
  | readFailed => cases hopen
  | @wrote out rest ho hq h =>
    have hdone := hinv.phase.done_of_wrote hq h
    have hp := hp (by simpa using hopen)
    rw [hdone] at hp
    simp only [hdone]
    exact (readAfterWrites_concat _ _).mpr (.inl hp)
  | wroteS0S1 ho hq h =>
    have hp := hp (by simpa using hopen)
    rw [h] at hp
    exact (writes_concat_written es).trans (congrArg (· + 1) hp)
  | wroteS2 ho hq h =>
    have hp := hp (by simpa using hopen)
    rw [h] at hp
    refine ⟨(writes_concat_written es).trans (congrArg (· + 1) hp), fun hread => ?_⟩
    -- no read has come after the write that has just been completed
    rcases (readAfterWrites_concat _ _).mp hread with hread | ⟨⟨seg, replies, hread⟩, -⟩
    · have htwo := hread.two_le_writes
      rw [show writes es = 1 from hp] at htwo
      omega
    · cases hread
  | writeFailed ho => cases hopen

/-- What holds after every run from `Start`. -/
theorem run_spec {env : HandShakeEnv} {es : List Event} {t : List Action} {ctx : RtmpContext}
    (hrun : run env es = some (ctx, t)) :
    Inv env t ctx ∧ Offers t ctx ∧
      (ctx.connection.closed = false → Progress es t ctx.handShake.state) := by
  refine run_induction (motive := fun es t ctx => Offers t ctx ∧
    (ctx.connection.closed = false → Progress es t ctx.handShake.state)) ?_ ?_ hrun
  · exact ⟨nofun, fun _ => ⟨Nat.zero_lt_succ _, rfl⟩⟩
  · rintro es t ctx e next acts hinv ⟨hoffers, hp⟩ h
    exact ⟨hoffers.step hinv h, Progress.step hinv hp h⟩

/-! ## The order of the handshake -/

/-- The order of a server's actions, and what its handshake and its parser take
from the client's bytes. -/
structure Ordered (env : HandShakeEnv) (t : List Action) (ctx : RtmpContext) : Prop where
  /-- What the handshake does is the beginning of its script, and the whole script
  when it is done. -/
  script : ∃ c0c1 c2 : Bytes, c0c1.length = 1537 ∧ c2.length = 1536 ∧
    handShakeActions t <+: RtmpContext.script c0c1 (s0s1 env) (s2 env c0c1) c2 ∧
    (ctx.handShake.isDone →
      handShakeActions t = RtmpContext.script c0c1 (s0s1 env) (s2 env c0c1) c2)
  s0s1_length : (s0s1 env).length = 1537
  s2_length (c0c1 : Bytes) : (s2 env c0c1).length = 1536
  done : ctx.handShake.isDone ↔ .handShakeDone ∈ t
  /-- The handshake is done when it has taken the client's first 3073 bytes. -/
  consumed : ∀ t₁ t₂, t = t₁ ++ .handShakeDone :: t₂ →
    (retrieved t₁).length = 3073 ∧ retrieved t₁ <+: arrived t₁
  /-- `Parse` is given what follows them and what it has taken before. -/
  given : ∀ t₁ given left t₂, t = t₁ ++ .parse given left :: t₂ →
    .handShakeDone ∈ t₁ ∧ parsed t₁ ++ given = (arrived t₁).drop 3073
  /-- None of them is kept from it. -/
  offered : ctx.handShake.isDone → 3073 < (arrived t).length → Offered t
  refused : (arrived t).at 0 ≠ 0x03 →
    (∀ out, .send out ∉ t) ∧ (1537 ≤ (arrived t).length → ctx.connection.closed = true)

theorem Inv.script {env : HandShakeEnv} {t : List Action} {ctx : RtmpContext}
    (hinv : Inv env t ctx) :
    ∃ c0c1 c2 : Bytes, c0c1.length = 1537 ∧ c2.length = 1536 ∧
      handShakeActions t <+: RtmpContext.script c0c1 (s0s1 env) (s2 env c0c1) c2 ∧
      (ctx.handShake.isDone →
        handShakeActions t = RtmpContext.script c0c1 (s0s1 env) (s2 env c0c1) c2) := by
  -- what has not been received yet can be anything
  have hlen (n : Nat) : (List.replicate n (0 : UInt8)).length = n := List.length_replicate
  have hnot : ctx.handShake.state ≠ .done → ¬ ctx.handShake.isDone := by
    simp [RtmpHandShake.isDone]
  rcases hinv.phase.server with h | h | h | h | h
  · obtain ⟨-, hacts, -⟩ := hinv.phase.of_waitC0C1 h
    refine ⟨_, _, hlen _, hlen _, ?_, fun hdone => ?_⟩
    · rw [hacts]
      exact List.nil_prefix
    · exact absurd hdone (hnot (by simp [h]))
  · obtain ⟨c0c1, hfirst, -, -, hacts⟩ := hinv.phase.of_postS0S1 h
    refine ⟨c0c1, _, hfirst.length_eq, hlen _, ?_, fun hdone => ?_⟩
    · rw [hacts]
      exact List.prefix_append [_, _] _
    · exact absurd hdone (hnot (by simp [h]))
  · obtain ⟨c0c1, hfirst, -, hacts⟩ := hinv.phase.of_postS2 h
    refine ⟨c0c1, _, hfirst.length_eq, hlen _, ?_, fun hdone => ?_⟩
    · rw [hacts]
      exact List.prefix_append [_, _, _, _] _
    · exact absurd hdone (hnot (by simp [h]))
  · obtain ⟨c0c1, hfirst, -, hacts⟩ := hinv.phase.of_waitC2 h
    refine ⟨c0c1, _, hfirst.length_eq, hlen _, ?_, fun hdone => ?_⟩
    · rw [hacts]
      exact List.prefix_append [_, _, _, _, _] _
    · exact absurd hdone (hnot (by simp [h]))
  · obtain ⟨c0c1, c2, hfirst, hc2, -, hacts⟩ := hinv.phase.of_done h
    refine ⟨c0c1, c2, hfirst.length_eq, hc2, ?_, fun _ => hacts⟩
    rw [hacts]

/-- The server's handshake keeps its order, and takes exactly what is its own, in
every run. -/
theorem run_ordered {env : HandShakeEnv} {es : List Event} {t : List Action} {ctx : RtmpContext}
    (hrun : run env es = some (ctx, t)) : Ordered env t ctx := by
  obtain ⟨hinv, hoffers, hprogress⟩ := run_spec hrun
  refine ⟨hinv.script, RtmpHandShake.length_createC1S1 env {},
    RtmpHandShake.length_c2s2For env _, ?_, fun t₁ t₂ h => hinv.allowed.of_split h,
    fun t₁ given left t₂ h => hinv.allowed.of_split h,
    fun hdone => hoffers (of_decide_eq_true hdone), fun hversion => ?_⟩
  · rw [hinv.done_mem_iff, RtmpHandShake.isDone, decide_eq_true_iff]
  · have hwait : ctx.handShake.state = .waitC0C1 := by
      by_contra h
      exact hversion (hinv.version h)
    refine ⟨hinv.nothing_sent hwait, fun hlong => ?_⟩
    cases hclosed : ctx.connection.closed with
    | true => rfl
    | false =>
      have hshort := hprogress hclosed
      rw [hwait] at hshort
      exact absurd hlong (Nat.not_le_of_lt hshort.1)

/-! ### Runs on one environment -/

/-- Random bytes that are all zero. The only digest that the runs below compute is
that of S1, under the open part of the server's key. -/
def zeroEnv : HandShakeEnv where
  hmac _ _ := ⟨[0xCD, 0xC8, 0x90, 0xD3, 0x7A, 0xCB, 0x99, 0xAC, 0xA7, 0x99, 0xF8, 0xA4, 0x1C,
    0x4F, 0x0D, 0x3E, 0xDE, 0x6A, 0x7C, 0x42, 0xAF, 0x14, 0x3D, 0x2D, 0x7E, 0x12, 0x7C, 0xC8,
    0xEB, 0xBD, 0x1E, 0x00], rfl⟩
  randomC1S1 := ⟨List.replicate 1537 0, List.length_replicate⟩
  randomC2S2 := ⟨List.replicate 1536 0, List.length_replicate⟩
  now := 0

/-- The first packet of a simple handshake. -/
def simpleC0C1 : Bytes := 0x03 :: List.replicate 1536 0

/-- The client sends its second packet after it has received both of the server's,
and a byte of the first chunk with it. The server writes its initial messages. -/
def politeClient : List Event :=
  [.read simpleC0C1 [], .writeSucceeded, .writeSucceeded, .read (List.replicate 1537 0) [],
    .writeSucceeded, .writeSucceeded, .writeSucceeded]

theorem run_ordered_polite : ∃ ctx t, run zeroEnv politeClient = some (ctx, t) ∧
    .handShakeDone ∈ t ∧ .parse [0] [0] ∈ t ∧ Ordered zeroEnv t ctx := by
  have hdone : (run zeroEnv politeClient).any fun r =>
      decide (.handShakeDone ∈ r.2 ∧ .parse [0] [0] ∈ r.2) := by
    decide +kernel
  obtain ⟨⟨ctx, t⟩, hrun, hmem⟩ := (Option.any_eq_true _ _).mp hdone
  obtain ⟨hmem, hparse⟩ := of_decide_eq_true hmem
  exact ⟨ctx, t, hrun, hmem, hparse, run_ordered hrun⟩

/-! ## The end of the handshake -/

/-- The handshake is done, `onHandShakeDone` has run, and the client's bytes after
the handshake have been given to `Parse`. -/
structure Finished (t : List Action) (ctx : RtmpContext) : Prop where
  done : ctx.handShake.isDone
  callback : ctx.hasMessageCallback
  sent : ∀ out ∈ initialMessages, .send out ∈ t
  offered : 3073 < (arrived t).length → Offered t

theorem Inv.initialMessages_sent {env : HandShakeEnv} {t : List Action} {ctx : RtmpContext}
    (hinv : Inv env t ctx) (h : ctx.handShake.state = .done) :
    ∀ out ∈ initialMessages, .send out ∈ t := by
  intro out hout
  obtain ⟨c0c1, c2, -, -, -, hacts⟩ := hinv.phase.of_done h
  have hmem : .send out ∈ handShakeActions t := by
    rw [hacts]
    exact List.mem_append_right _ (List.mem_map_of_mem hout)
  exact (mem_handShakeActions.mp hmem).1

/-- When both packets have arrived and nothing is being written on the open
connection, the handshake is over if and only if a read has come after the second
completed write: until then `HandShake` ignores what is in the buffer, and
`WriteComplete` does not look at it. -/
theorem finished_iff_readAfterWrites {env : HandShakeEnv} {es : List Event} {t : List Action}
    {ctx : RtmpContext} (hrun : run env es = some (ctx, t)) (hlen : 3073 ≤ (arrived t).length)
    (hopen : ctx.connection.closed = false) (hidle : ctx.connection.outstanding = false) :
    Finished t ctx ↔ ReadAfterWrites es := by
  obtain ⟨hinv, hoffers, hprogress⟩ := run_spec hrun
  have hp := hprogress hopen
  -- an open connection on which nothing is being written has an empty queue
  have hqueue : ctx.connection.writeQueue = [] := by
    by_contra hne
    rw [hinv.wf.outstanding_of_queue hopen hne] at hidle
    cases hidle
  constructor
  · intro hfinished
    have hdone : ctx.handShake.state = .done := of_decide_eq_true hfinished.done
    rw [hdone] at hp
    exact hp
  · intro hread
    have hdone : ctx.handShake.state = .done := by
      rcases hinv.phase.server with h | h | h | h | h
      · rw [h] at hp
        have hshort := hp.1
        omega
      · obtain ⟨_, -, -, hbusy, -⟩ := hinv.phase.of_postS0S1 h
        rw [hbusy] at hqueue
        cases hqueue
      · obtain ⟨_, -, hbusy, -⟩ := hinv.phase.of_postS2 h
        rw [hbusy] at hqueue
        cases hqueue
      · rw [h] at hp
        have hshort := hp.2 hread
        omega
      · exact h
    exact ⟨decide_eq_true hdone, hinv.callback hdone, hinv.initialMessages_sent hdone,
      hoffers hdone⟩

theorem finished_iff_readAfterWrites_polite :
    ∃ ctx t, run zeroEnv politeClient = some (ctx, t) ∧ Finished t ctx := by
  have hstate : (run zeroEnv politeClient).any fun r =>
      decide (3073 ≤ (arrived r.2).length ∧ r.1.connection.closed = false ∧
        r.1.connection.outstanding = false) := by
    decide +kernel
  obtain ⟨⟨ctx, t⟩, hrun, h⟩ := (Option.any_eq_true _ _).mp hstate
  obtain ⟨hlength, hopen, hidle⟩ := of_decide_eq_true h
  have hread : ReadAfterWrites politeClient :=
    ⟨[.read simpleC0C1 [], .writeSucceeded, .writeSucceeded], _, _, _, rfl, Nat.le_refl 2⟩
  exact ⟨ctx, t, hrun, (finished_iff_readAfterWrites hrun hlength hopen hidle).mpr hread⟩

/-- The client sends both packets at once and waits for the server. -/
def pipeliningClient : List Event :=
  [.read (simpleC0C1 ++ List.replicate 1536 0) [], .writeSucceeded, .writeSucceeded]

/-- The client's second packet stays in the buffer. -/
theorem pipeliningClient_stuck : ∃ ctx t, run zeroEnv pipeliningClient = some (ctx, t) ∧
    (arrived t).at 0 = 0x03 ∧ (arrived t).length = 3073 ∧ ctx.connection.closed = false ∧
    ctx.connection.outstanding = false ∧ ¬ Finished t ctx := by
  have hstate : (run zeroEnv pipeliningClient).any fun r =>
      decide ((arrived r.2).at 0 = 0x03 ∧ (arrived r.2).length = 3073 ∧
        r.1.connection.closed = false ∧ r.1.connection.outstanding = false ∧
        ¬ r.1.handShake.isDone) := by
    decide +kernel
  obtain ⟨⟨ctx, t⟩, hrun, h⟩ := (Option.any_eq_true _ _).mp hstate
  obtain ⟨hversion, hlength, hopen, hidle, hnot⟩ := of_decide_eq_true h
  exact ⟨ctx, t, hrun, hversion, hlength, hopen, hidle, fun hfinished => hnot hfinished.done⟩

end RtmpContext
