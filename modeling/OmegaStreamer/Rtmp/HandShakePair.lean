-- SUMMARY: The handshake of a client with a server: both do their parts with each other's packets, under every interleaving.
import OmegaStreamer.Lib.Duplex
import OmegaStreamer.Rtmp.ClientHandShake
import OmegaStreamer.Rtmp.Digests
import OmegaStreamer.Rtmp.ServerSteps

/-!
# Both sides of a handshake

The client role of `RtmpHandShake` and a server's context, with the two byte streams of
a TCP connection between them. A packet is in its stream from `Send` on, and arrives in
segments of any size, at any time. What the server sends after its handshake is not read
by the client's handshake, and is left out of the stream.
-/

open RtmpHandShake
open RtmpContext (Action handShakeActions s0s1 sent)

namespace HandShakePair

/-- The bytes of the handshake's packets among what is sent. -/
def packetBytes (outs : List Outgoing) : Bytes :=
  outs.flatMap fun
    | ⟨.packet _, bytes⟩ => bytes
    | _ => []

def clientParty (env : HandShakeEnv) :
    Duplex.Party UInt8 Client ClientEvent (List (HandShakePacket × Bytes)) where
  step := Client.step env
  takes := fun
    | .arrive seg => seg
    | _ => []
  gives sends := sends.flatMap Prod.snd

def serverParty (env : HandShakeEnv) :
    Duplex.Party UInt8 RtmpContext RtmpContext.Event (List Action) where
  step := RtmpContext.step env
  takes := RtmpContext.Event.bytes
  gives acts := packetBytes (sent acts)

/-- The client is on the left. -/
abbrev Pair := Duplex.Link UInt8 Client RtmpContext

abbrev Event := Duplex.Event ClientEvent RtmpContext.Event

section Packets

variable (env env' : HandShakeEnv)

/-- The client's first packet. -/
def c0c1 : Bytes := (sentC0C1 env).c1s1

/-- The server's answer to it. -/
def s2 : Bytes := RtmpContext.s2 env' (c0c1 env)

/-- The client's answer to S0S1. -/
def c2 : Bytes := (wroteC0C1 env).c2s2For env (s0s1 env')

/-- Both have been started. -/
def start : Pair where
  left := Client.start env
  right := RtmpContext.start env'
  toLeft := []
  toRight := c0c1 env

def step : Pair → Event → Option (Pair × (List (HandShakePacket × Bytes) ⊕ List Action)) :=
  Duplex.step (clientParty env) (serverParty env')

end Packets

/-! ## The packets -/

section Created

variable {env env' : HandShakeEnv}

theorem length_c0c1 : (c0c1 env).length = 1537 := length_createC1S1 env { isClient := true }

theorem length_s0s1 : (s0s1 env').length = 1537 := length_createC1S1 env' {}

theorem length_s2 : (s2 env env').length = 1536 := length_c2s2For env' _ _

theorem length_c2 : (c2 env env').length = 1536 := length_c2s2For env _ _

theorem c0c1_version : (c0c1 env).at 0 = 0x03 := createC1S1_zero env rfl

theorem s0s1_version : (s0s1 env').at 0 = 0x03 := createC1S1_zero env' rfl

theorem serverPackets : ServerPackets (s0s1 env') (s2 env env') where
  length_s0s1 := length_s0s1
  version := s0s1_version
  length_s2 := length_s2

end Created

/-- The packet ends with the MAC of what is in front of it, under a key that is made of the
role's whole key and the other role's digest. -/
def Answers (env : HandShakeEnv) (key digest packet : Bytes) : Prop :=
  packet.drop 1504 = env.hmac (env.hmac key digest) (packet.take 1504)

/-- The answer to a packet that the opposite role has created. -/
theorem answers_c2s2For {env env' : HandShakeEnv} (hhmac : env'.hmac = env.hmac)
    (hs hs' : RtmpHandShake) (hcomplex : hs.isComplexHandshake = true)
    (hcomplex' : hs'.isComplexHandshake = true) (hrole : hs'.isClient = !hs.isClient) :
    Answers env' (if hs'.isClient then rtmpPlayerKey else rtmpServerKey)
      (hs.createC1S1 env).digest (hs'.c2s2For env' (hs.createC1S1 env).c1s1) := by
  obtain ⟨hcheck, hstored⟩ := recognised hhmac hcomplex hrole
  have hrandom : env'.randomC2S2.val.length = 1536 := env'.randomC2S2.property
  -- what is found at the offset is the digest
  have hdigest : (((hs.createC1S1 env).c1s1.drop 1).drop (storedOffset env)).take
      SHA256_DIGEST_LENGTH = (hs.createC1S1 env).digest := by
    rw [Memory.load] at hstored
    split at hstored
    · exact Option.some.inj hstored
    · cases hstored
  simp only [Answers, c2s2For, hcheck, Int.toNat_natCast, createC2S2, if_pos hcomplex',
    calculateDigest, if_true, hdigest, List.take_length]
  have hfront : (((hs.createC1S1 env).c1s1.drop 1).take 8).length = 8 := by
    rw [List.length_take, List.length_drop, length_createC1S1]
    rfl
  generalize ((hs.createC1S1 env).c1s1.drop 1).take 8 = front at hfront
  have hcopied : (Bytes.overwrite env'.randomC2S2.val 0 front).length = 1536 := by
    rw [Bytes.length_overwrite _ _ _ (by rw [hfront, hrandom]; decide), hrandom]
  have hstamped : ((Bytes.overwrite env'.randomC2S2.val 0 front).overwrite 0
      (BytesWriter.writeUint32BE env'.now)).length = 1536 := by
    rw [Bytes.length_overwrite _ _ _ (by rw [hcopied]; exact Nat.le_of_ble_eq_true rfl), hcopied]
  generalize (Bytes.overwrite env'.randomC2S2.val 0 front).overwrite 0
    (BytesWriter.writeUint32BE env'.now) = packet at hstamped
  generalize env'.hmac (if hs'.isClient then rtmpPlayerKey else rtmpServerKey)
    (hs.createC1S1 env).digest = key
  have hkey : key.val.take SHA256_DIGEST_LENGTH = key.val :=
    List.take_of_length_le (Nat.le_of_eq key.property)
  have hplace : kRtmpHandShakePacketSize - SHA256_DIGEST_LENGTH = 1504 := rfl
  have hinside : 1504 ≤ packet.length := by
    rw [hstamped]
    decide
  have hbehind (mac : { digest : Bytes // digest.length = SHA256_DIGEST_LENGTH }) :
      packet.drop (1504 + mac.val.length) = [] := by
    rw [mac.property]
    exact List.drop_eq_nil_of_le (Nat.le_of_eq hstamped)
  rw [hkey, hplace, Bytes.take_overwrite hinside, Bytes.drop_overwrite hinside, hbehind,
    List.append_nil]

/-! ## The client -/

/-- A call of `HandShake` finds both packets of the server when C0C1 is written. -/
def FoundBoth (es : List ClientEvent) : Prop :=
  ∃ es₁ es₂, es = es₁ ++ .call :: es₂ ∧ .written ∈ es₁ ∧ 3073 ≤ (arrived es₁).length

theorem FoundBoth.append {es : List ClientEvent} (h : FoundBoth es) (late : List ClientEvent) :
    FoundBoth (es ++ late) := by
  obtain ⟨es₁, es₂, rfl, hwritten, harrived⟩ := h
  exact ⟨es₁, es₂ ++ late, by rw [List.append_assoc, List.cons_append], hwritten, harrived⟩

section Client

variable {env : HandShakeEnv} {s0s1 s2 : Bytes} {es : List ClientEvent}
  {sends : List (HandShakePacket × Bytes)} {s : Client}

/-- C2 is the only packet that can follow C0C1. -/
theorem sends_cases (h : ClientPhase env s0s1 s2 es sends s) :
    sends = [] ∨ sends = [clientC2 env s0s1] := by
  cases h with
  | writing => exact .inl rfl
  | waiting => exact .inl rfl
  | doning => exact .inr rfl
  | done => exact .inr rfl
  | stuck => exact .inl rfl

theorem calledInTime_of_sends (h : ClientPhase env s0s1 s2 es sends s) (hsends : sends ≠ []) :
    CalledInTime es := by
  cases h with
  | writing => exact absurd rfl hsends
  | waiting => exact absurd rfl hsends
  | doning _ htime => exact htime
  | done _ htime => exact htime
  | stuck => exact absurd rfl hsends

theorem calledInTime_of_append {late : List ClientEvent} (h : CalledInTime (es ++ late)) :
    CalledInTime es :=
  ((Trace.each_append [] es late).mp h).1

/-- The step that sends C2 is a call that finds both packets. -/
theorem sends_eq_nil_or_foundBoth (h : ClientPhase env s0s1 s2 es [] s)
    (hserver : ServerPackets s0s1 s2) {e : ClientEvent}
    (hsofar : arrived (es ++ [e]) <+: s0s1 ++ s2) {s' : Client}
    (hstep : s.step env e = some (s', sends)) : sends = [] ∨ FoundBoth (es ++ [e]) := by
  have hnext := h.step hserver hsofar hstep
  rw [List.nil_append] at hnext
  cases e with
  | arrive seg =>
    cases hstep
    exact .inl rfl
  | written =>
    cases h with
    | writing =>
      simp only [Client.step, writeComplete, sentC0C1_state, Option.some.injEq,
        Prod.mk.injEq] at hstep
      exact .inl hstep.2.symm
    | waiting => cases hstep
    | stuck => cases hstep
  | call =>
    cases h with
    | writing =>
      have hignored : (sentC0C1 env).handShake env (arrived es) =
          { ret := 1, handShake := sentC0C1 env } := by
        simp [handShake, sentC0C1_state]
      rw [ClientPhase.call_ignored hignored] at hstep
      cases hstep
      exact .inl rfl
    | waiting _ hwritten =>
      have hfull (h : arrived (es ++ [ClientEvent.call]) = s0s1 ++ s2) :
          FoundBoth (es ++ [ClientEvent.call]) := by
        refine ⟨es, [], rfl, hwritten, ?_⟩
        have hsame : arrived (es ++ [ClientEvent.call]) = arrived es := by simp [arrived]
        rw [← hsame, h, List.length_append, hserver.length_s0s1, hserver.length_s2]
      cases hnext with
      | writing => exact .inl rfl
      | waiting => exact .inl rfl
      | doning _ _ harrived => exact .inr (hfull harrived)
      | done _ _ harrived => exact .inr (hfull harrived)
      | stuck => exact .inl rfl
    | stuck hstate =>
      rw [ClientPhase.call_ignored (by simp [handShake, hstate])] at hstep
      cases hstep
      exact .inl rfl

/-- A call that is in time and finds both packets sends C2, if it has not been sent. -/
theorem sends_ne_nil (h : ClientPhase env s0s1 s2 (es ++ [ClientEvent.call]) sends s)
    (htime : CalledInTime (es ++ [ClientEvent.call])) (hwritten : .written ∈ es)
    (hlen : 3073 ≤ (arrived es).length) : sends ≠ [] := by
  have hsame : arrived (es ++ [ClientEvent.call]) = arrived es := by simp [arrived]
  cases h with
  | writing _ hnot => exact absurd (List.mem_append_left _ hwritten) hnot
  | waiting _ _ hlast =>
    have hshort := hlast List.getLast?_concat
    rw [hsame] at hshort
    omega
  | doning => exact List.cons_ne_nil _ _
  | done => exact List.cons_ne_nil _ _
  | stuck _ hlate => exact absurd htime hlate

/-- C2 has been sent if and only if the calls have been in time and one of them has found
both packets. -/
theorem sends_iff {outs : List (List (HandShakePacket × Bytes))}
    (hserver : ServerPackets s0s1 s2) (hsofar : arrived es <+: s0s1 ++ s2)
    (hrun : Mealy.run (Client.step env) (Client.start env) es = some (s, outs)) :
    outs.flatten ≠ [] ↔ CalledInTime es ∧ FoundBoth es := by
  constructor
  · intro hsends
    refine ⟨calledInTime_of_sends (clientPhase_of_run hserver hsofar hrun) hsends, ?_⟩
    refine Mealy.run_induction
      (motive := fun es outs _ => arrived es <+: s0s1 ++ s2 → outs.flatten ≠ [] → FoundBoth es)
      ?_ ?_ hrun hsofar hsends
    · exact fun _ hne => absurd rfl hne
    · intro es outs t e t' sends hrun ih hstep hsofar hsends
      have hbefore : arrived es <+: s0s1 ++ s2 := by
        rw [arrived_append] at hsofar
        exact (List.prefix_append _ _).trans hsofar
      by_cases hnone : outs.flatten = []
      · have hphase := clientPhase_of_run hserver hbefore hrun
        rw [hnone] at hphase
        rw [List.flatten_concat, hnone, List.nil_append] at hsends
        exact (sends_eq_nil_or_foundBoth hphase hserver hsofar hstep).resolve_left hsends
      · exact (ih hbefore hnone).append [e]
  · rintro ⟨htime, es₁, es₂, rfl, hwritten, hlen⟩
    rw [List.append_cons] at hrun htime hsofar
    obtain ⟨t, outs₁, outs₂, hfirst, -, rfl⟩ := Mealy.run_append_eq_some hrun
    have hbefore : arrived (es₁ ++ [ClientEvent.call]) <+: s0s1 ++ s2 := by
      rw [arrived_append] at hsofar
      exact (List.prefix_append _ _).trans hsofar
    have hphase := clientPhase_of_run hserver hbefore hfirst
    have hne := sends_ne_nil hphase (calledInTime_of_append htime) hwritten hlen
    rw [List.flatten_append]
    exact fun hnil => hne (List.append_eq_nil_iff.mp hnil).1

end Client

/-! ## The server -/

section Server

variable {env : HandShakeEnv} {es : List RtmpContext.Event} {t : List Action} {ctx : RtmpContext}
  {c0c1 : Bytes}

theorem packetBytes_append (outs outs' : List Outgoing) :
    packetBytes (outs ++ outs') = packetBytes outs ++ packetBytes outs' := List.flatMap_append

/-- The handshake's packets are among its actions. -/
theorem packetBytes_handShakeActions (t : List Action) :
    packetBytes (sent (handShakeActions t)) = packetBytes (sent t) := by
  induction t with
  | nil => rfl
  | cons a t ih =>
    rw [← List.singleton_append, RtmpContext.handShakeActions_append, RtmpContext.sent_append,
      RtmpContext.sent_append, packetBytes_append, packetBytes_append, ih]
    congr 1
    cases a with
    | send out =>
      obtain ⟨origin, bytes⟩ := out
      cases origin <;> rfl
    | written out =>
      obtain ⟨origin, bytes⟩ := out
      cases origin <;> rfl
    | _ => rfl

/-- The server's bytes are its two packets, the second one for the first that it has taken. -/
theorem packetBytes_of_inv (hinv : RtmpContext.Inv env t ctx) {rest : Bytes}
    (hlen : c0c1.length = 1537) (harrived : RtmpContext.arrived t <+: c0c1 ++ rest) :
    packetBytes (sent t) <+: s0s1 env ++ RtmpContext.s2 env c0c1 ∧
      (ctx.handShake.state = .waitC2 ∨ ctx.handShake.state = .done →
        packetBytes (sent t) = s0s1 env ++ RtmpContext.s2 env c0c1) := by
  have htake (hlong : 1537 ≤ (RtmpContext.arrived t).length) :
      (RtmpContext.arrived t).take 1537 = c0c1 := by
    obtain ⟨late, hlate⟩ := harrived
    have hfront : (RtmpContext.arrived t ++ late).take 1537 = (RtmpContext.arrived t).take 1537 :=
      List.take_append_of_le_length hlong
    rw [← hfront, hlate, ← hlen, List.take_left]
  have hexchange (h : ctx.handShake.state = .postS0S1 ∨ ctx.handShake.state = .postS2 ∨
      ctx.handShake.state = .waitC2) : (RtmpContext.arrived t).take 1537 = c0c1 := by
    obtain ⟨first, hfirst, heq⟩ := hinv.arrived_of_exchange h
    refine htake ?_
    rw [heq, List.length_append, hfirst]
    exact Nat.le_add_right _ _
  rw [← packetBytes_handShakeActions, hinv.sent_handShake]
  rcases hinv.phase.server with h | h | h | h | h
  · simp only [h, RtmpContext.handShakeOutput]
    exact ⟨List.nil_prefix, by simp⟩
  · simp only [h, RtmpContext.handShakeOutput]
    refine ⟨?_, by simp⟩
    exact ⟨RtmpContext.s2 env c0c1, by simp [packetBytes]⟩
  · simp only [h, RtmpContext.handShakeOutput, hexchange (.inr (.inl h))]
    exact ⟨by simp [packetBytes], by simp⟩
  · simp only [h, RtmpContext.handShakeOutput, hexchange (.inr (.inr h))]
    exact ⟨by simp [packetBytes], by simp [packetBytes]⟩
  · have hlong := (hinv.arrived_of_done h).1
    simp only [h, RtmpContext.handShakeOutput, htake (by omega)]
    exact ⟨by simp [packetBytes, RtmpContext.initialMessages],
      by simp [packetBytes, RtmpContext.initialMessages]⟩

/-- The server's actions are those of its script for the two packets that it reads. -/
theorem script_of_inv (hinv : RtmpContext.Inv env t ctx) {c2 : Bytes}
    (hc0c1 : c0c1.length = 1537) (hc2 : c2.length = 1536)
    (harrived : RtmpContext.arrived t <+: c0c1 ++ c2) :
    handShakeActions t <+:
        RtmpContext.script c0c1 (s0s1 env) (RtmpContext.s2 env c0c1) c2 ∧
      (ctx.handShake.state = .done → handShakeActions t =
        RtmpContext.script c0c1 (s0s1 env) (RtmpContext.s2 env c0c1) c2) := by
  have hretrieved : RtmpContext.retrieved (handShakeActions t) <+: c0c1 ++ c2 := by
    rw [RtmpContext.retrieved_handShakeActions]
    refine List.IsPrefix.trans ?_ harrived
    rw [← hinv.bytes, List.append_assoc]
    exact List.prefix_append _ _
  -- what has been taken first is the first packet
  have hfirst {packet rest : Bytes} (hlen : packet.length = 1537)
      (heq : RtmpContext.retrieved (handShakeActions t) = packet ++ rest) : packet = c0c1 := by
    rw [heq] at hretrieved
    have hpacket := (List.prefix_append packet rest).trans hretrieved
    have hboth := List.prefix_of_prefix_length_le hpacket (List.prefix_append c0c1 c2)
      (by rw [hlen, hc0c1])
    exact hboth.eq_of_length (by rw [hlen, hc0c1])
  rcases hinv.phase.server with h | h | h | h | h
  · obtain ⟨-, hacts, -⟩ := hinv.phase.of_waitC0C1 h
    rw [hacts, h]
    exact ⟨List.nil_prefix, by simp⟩
  · obtain ⟨packet, hpacket, -, -, hacts⟩ := hinv.phase.of_postS0S1 h
    obtain rfl := hfirst hpacket.length_eq (by rw [hacts]; rfl)
    rw [hacts, h]
    exact ⟨List.prefix_append [_, _] _, by simp⟩
  · obtain ⟨packet, hpacket, -, hacts⟩ := hinv.phase.of_postS2 h
    obtain rfl := hfirst hpacket.length_eq (by rw [hacts]; rfl)
    rw [hacts, h]
    exact ⟨List.prefix_append [_, _, _, _] _, by simp⟩
  · obtain ⟨packet, hpacket, -, hacts⟩ := hinv.phase.of_waitC2 h
    obtain rfl := hfirst hpacket.length_eq (by rw [hacts]; rfl)
    rw [hacts, h]
    exact ⟨List.prefix_append [_, _, _, _, _] _, by simp⟩
  · obtain ⟨packet, packet', hpacket, hpacket', -, hacts⟩ := hinv.phase.of_done h
    have htaken : RtmpContext.retrieved (handShakeActions t) = packet ++ packet' := by
      rw [hacts]
      simp [RtmpContext.script, RtmpContext.retrieved, RtmpContext.initialMessages]
    obtain rfl := hfirst hpacket.length_eq htaken
    rw [htaken, List.prefix_append_right_inj] at hretrieved
    obtain rfl := hretrieved.eq_of_length (by rw [hpacket', hc2])
    rw [hacts]
    exact ⟨List.prefix_rfl, fun _ => rfl⟩

/-- What has arrived are the bytes of the events. -/
theorem arrived_of_run (hrun : RtmpContext.run env es = some (ctx, t)) :
    RtmpContext.arrived t = (serverParty env).taken es := by
  refine (RtmpContext.run_induction
    (motive := fun es t _ => RtmpContext.arrived t = (serverParty env).taken es) rfl ?_ hrun).2
  intro es t ctx e next acts _ ih hstepped
  rw [RtmpContext.arrived_append, ih, hstepped.arrived_eq, Duplex.Party.taken,
    Duplex.Party.taken, List.flatMap_append, List.flatMap_singleton]
  rfl

/-- A connection is closed when a read or a write has failed, or the first byte is not the
version. -/
def ClosedFor (es : List RtmpContext.Event) (t : List Action) : Prop :=
  .readFailed ∈ es ∨ .writeFailed ∈ es ∨
    0 < (RtmpContext.arrived t).length ∧ (RtmpContext.arrived t).at 0 ≠ 0x03

theorem ClosedFor.append (h : ClosedFor es t) (late : List RtmpContext.Event)
    (acts : List Action) : ClosedFor (es ++ late) (t ++ acts) := by
  rcases h with h | h | ⟨hlen, hversion⟩
  · exact .inl (List.mem_append_left _ h)
  · exact .inr (.inl (List.mem_append_left _ h))
  · refine .inr (.inr ⟨?_, ?_⟩)
    · rw [RtmpContext.arrived_append, List.length_append]
      exact Nat.lt_of_lt_of_le hlen (Nat.le_add_right _ _)
    · rw [RtmpContext.arrived_append, Bytes.at_append hlen]
      exact hversion

theorem closedFor_of_run (hrun : RtmpContext.run env es = some (ctx, t))
    (hclosed : ctx.connection.closed = true) : ClosedFor es t := by
  refine (RtmpContext.run_induction
    (motive := fun es t ctx => ctx.connection.closed = true → ClosedFor es t) ?_ ?_ hrun).2 hclosed
  · exact nofun
  · intro es t ctx e next acts hinv ih hstepped hclosed
    cases hstepped with
    | idle => exact (ih (by simpa [RtmpContext.moved] using hclosed)).append _ _
    | accept => exact (ih (by simpa [RtmpContext.moved] using hclosed)).append _ _
    | @refuse seg replies buf hbuf h hlen hversion =>
      have harrived : RtmpContext.arrived (t ++ [Action.received seg, .close]) = buf := by
        rw [RtmpContext.arrived_append, hinv.arrived_of_waitC0C1 h, hbuf]
        simp [RtmpContext.arrived]
      refine .inr (.inr ?_)
      rw [harrived]
      exact ⟨by omega, hversion⟩
    | finish => exact (ih (by simpa [RtmpContext.moved] using hclosed)).append _ _
    | finishParse => exact (ih (by simpa [RtmpContext.moved] using hclosed)).append _ _
    | parse => exact (ih (by simpa [RtmpContext.moved] using hclosed)).append _ _
    | readFailed => exact .inl (List.mem_append_right _ (List.mem_singleton_self _))
    | wrote => exact (ih (by simpa using hclosed)).append _ _
    | wroteS0S1 => exact (ih (by simpa using hclosed)).append _ _
    | wroteS2 => exact (ih (by simpa using hclosed)).append _ _
    | writeFailed => exact .inr (.inl (List.mem_append_right _ (List.mem_singleton_self _)))

end Server

/-! ## Runs -/

section Runs

variable {env env' : HandShakeEnv} {es : List Event} {l : Pair}
  {outs : List (List (HandShakePacket × Bytes) ⊕ List Action)}

/-- What the client has sent since its start. -/
def clientSends (outs : List (List (HandShakePacket × Bytes) ⊕ List Action)) :
    List (HandShakePacket × Bytes) := (Duplex.leftOutputs outs).flatten

/-- What the server has done. -/
def serverActions (outs : List (List (HandShakePacket × Bytes) ⊕ List Action)) : List Action :=
  (Duplex.rightOutputs outs).flatten

/-- Each side of a run, with what is known of it. -/
structure Sides (env env' : HandShakeEnv) (es : List Event) (l : Pair)
    (sends : List (HandShakePacket × Bytes)) (t : List Action) : Prop where
  phase : ClientPhase env (s0s1 env') (s2 env env') (Duplex.lefts es) sends l.left
  sends_iff : sends ≠ [] ↔ CalledInTime (Duplex.lefts es) ∧ FoundBoth (Duplex.lefts es)
  run : RtmpContext.run env' (Duplex.rights es) = some (l.right, t)
  toClient : arrived (Duplex.lefts es) ++ l.toLeft = packetBytes (sent t)
  toServer : RtmpContext.arrived t ++ l.toRight = c0c1 env ++ sends.flatMap Prod.snd

theorem taken_clientParty (env : HandShakeEnv) (es : List ClientEvent) :
    (clientParty env).taken es = arrived es := rfl

theorem given_clientParty (env : HandShakeEnv) (os : List (List (HandShakePacket × Bytes))) :
    (clientParty env).given os = os.flatten.flatMap Prod.snd := by
  rw [List.flatten_eq_flatMap, List.flatMap_assoc]
  rfl

theorem given_serverParty (env : HandShakeEnv) (os : List (List Action)) :
    (serverParty env).given os = packetBytes (sent os.flatten) := by
  induction os with
  | nil => rfl
  | cons acts os ih =>
    rw [Duplex.Party.given_cons, ih, List.flatten_cons, RtmpContext.sent_append,
      packetBytes_append]
    rfl

theorem sides_of_run (hrun : Mealy.run (step env env') (start env env') es = some (l, outs)) :
    Sides env env' es l (clientSends outs) (serverActions outs) := by
  obtain ⟨hclient, hserver, htoClient, htoServer⟩ := Duplex.run_parties hrun
  have hserver' : RtmpContext.run env' (Duplex.rights es) = some (l.right, serverActions outs) := by
    have hmealy : Mealy.run (RtmpContext.step env') (RtmpContext.start env') (Duplex.rights es) =
        some (l.right, Duplex.rightOutputs outs) := hserver
    rw [RtmpContext.run, hmealy]
    rfl
  rw [taken_clientParty, given_serverParty] at htoClient
  rw [given_clientParty, ← arrived_of_run hserver'] at htoServer
  -- the server reads the client's first packet first, whatever comes behind it
  have hreads : RtmpContext.arrived (serverActions outs) <+:
      c0c1 env ++ (clientSends outs).flatMap Prod.snd := ⟨_, htoServer⟩
  have hwrites := (packetBytes_of_inv (RtmpContext.run_spec hserver').1 length_c0c1 hreads).1
  have hsofar : arrived (Duplex.lefts es) <+: s0s1 env' ++ s2 env env' :=
    List.IsPrefix.trans ⟨_, htoClient⟩ hwrites
  exact {
    phase := clientPhase_of_run serverPackets hsofar hclient
    sends_iff := sends_iff serverPackets hsofar hclient
    run := hserver'
    toClient := htoClient
    toServer := htoServer }

namespace Sides

variable {sends : List (HandShakePacket × Bytes)} {t : List Action}

/-- The bytes for the server are the beginning of the client's two packets, and all of them
when C2 has been sent and has arrived. -/
theorem arrived_server (h : Sides env env' es l sends t) :
    RtmpContext.arrived t <+: c0c1 env ++ c2 env env' := by
  refine List.IsPrefix.trans ⟨_, h.toServer⟩ ((List.prefix_append_right_inj _).mpr ?_)
  rcases sends_cases h.phase with hsends | hsends
  · rw [hsends]
    exact List.nil_prefix
  · rw [hsends, List.flatMap_singleton]
    exact List.prefix_rfl

theorem arrived_client (h : Sides env env' es l sends t) :
    arrived (Duplex.lefts es) <+: s0s1 env' ++ s2 env env' :=
  List.IsPrefix.trans ⟨_, h.toClient⟩
    (packetBytes_of_inv (RtmpContext.run_spec h.run).1 length_c0c1 ⟨_, h.toServer⟩).1

/-- The client does not refuse what is in its buffer. -/
theorem accepted (h : Sides env env' es l sends t) :
    (l.left.handShake.handShake env l.left.buf).ret ≠ -1 := by
  have hsofar := h.arrived_client
  have hphase := h.phase
  generalize l.left = s at hphase
  cases hphase with
  | writing => simp [handShake, sentC0C1_state]
  | waiting =>
    have hstate : (wroteC0C1 env).state = .waitS0S1 := rfl
    have hresult := handShake_waitS0S1 env hstate (arrived (Duplex.lefts es))
    generalize (wroteC0C1 env).handShake env (arrived (Duplex.lefts es)) = r at hresult
    cases hresult with
    | short => simp
    | both => simp
    | first => simp
    | refused hlen hbad =>
      obtain ⟨rest, hrest⟩ := hsofar
      have hbyte := Bytes.at_append (p := arrived (Duplex.lefts es)) (i := 0) (by omega) rest
      rw [hrest, Bytes.at_append (by rw [length_s0s1]; decide), s0s1_version] at hbyte
      exact absurd hbyte.symm hbad
  | doning hstate => simp [handShake, hstate]
  | done hstate => simp [handShake, hstate]
  | stuck hstate => simp [handShake, hstate]

/-- When the server is done the client has sent C2, and has taken both of the server's
packets. -/
theorem client_of_done (h : Sides env env' es l sends t)
    (hdone : l.right.handShake.state = .done) :
    sends = [(.c2s2, c2 env env')] ∧ l.left.retrieved = 3073 := by
  have hlong := ((RtmpContext.run_spec h.run).1.arrived_of_done hdone).1
  have hne : sends ≠ [] := by
    intro hnil
    have hbytes := congrArg List.length h.toServer
    rw [hnil, List.flatMap_nil, List.append_nil, List.length_append, length_c0c1] at hbytes
    omega
  have hphase := h.phase
  generalize l.left = s at hphase
  cases hphase with
  | writing => exact absurd rfl hne
  | waiting => exact absurd rfl hne
  | doning => exact ⟨rfl, rfl⟩
  | done => exact ⟨rfl, rfl⟩
  | stuck => exact absurd rfl hne

/-- The server closes the connection for a failure only. -/
theorem failed_of_closed (h : Sides env env' es l sends t)
    (hclosed : l.right.connection.closed = true) :
    .readFailed ∈ Duplex.rights es ∨ .writeFailed ∈ Duplex.rights es := by
  rcases closedFor_of_run h.run hclosed with hfailed | hfailed | ⟨hlen, hversion⟩
  · exact .inl hfailed
  · exact .inr hfailed
  · have hbyte := Bytes.at_append hlen l.toRight
    rw [h.toServer, Bytes.at_append (by rw [length_c0c1]; decide), c0c1_version] at hbyte
    exact absurd hbyte.symm hversion

end Sides

/-! ## Agreement -/

/-- Everything that has been sent is written and read, and the connection is open. -/
structure AtRest (l : Pair) : Prop where
  toLeft : l.toLeft = []
  toRight : l.toRight = []
  client : l.left.unwritten = []
  server : l.right.connection.outstanding = false
  opened : l.right.connection.closed = false

instance (l : Pair) : Decidable (AtRest l) :=
  decidable_of_iff (l.toLeft = [] ∧ l.toRight = [] ∧ l.left.unwritten = [] ∧
      l.right.connection.outstanding = false ∧ l.right.connection.closed = false)
    ⟨fun ⟨h₁, h₂, h₃, h₄, h₅⟩ => ⟨h₁, h₂, h₃, h₄, h₅⟩, fun h => ⟨h.1, h.2, h.3, h.4, h.5⟩⟩

/-- The client's digest, which its first packet carries. -/
def clientDigest (env : HandShakeEnv) : Bytes := (sentC0C1 env).digest

def serverDigest (env' : HandShakeEnv) : Bytes := (RtmpContext.start env').handShake.digest

/-- Both sides do their parts with the packets that the other has made. -/
structure Agreed (env env' : HandShakeEnv) (es : List Event) (l : Pair)
    (sends : List (HandShakePacket × Bytes)) (t : List Action) : Prop where
  client : sends <+: [(.c2s2, c2 env env')]
  server : handShakeActions t <+:
    RtmpContext.script (c0c1 env) (s0s1 env') (s2 env env') (c2 env env')
  /-- The server is done only after all of its script, and only with a client that has taken
  both of its packets. -/
  finished : l.right.handShake.isDone →
    handShakeActions t = RtmpContext.script (c0c1 env) (s0s1 env') (s2 env env') (c2 env env') ∧
      sends = [(.c2s2, c2 env env')] ∧ l.left.retrieved = 3073
  accepted : (l.left.handShake.handShake env l.left.buf).ret ≠ -1
  closed : l.right.connection.closed = true →
    .readFailed ∈ Duplex.rights es ∨ .writeFailed ∈ Duplex.rights es
  answered : Answers env' rtmpServerKey (clientDigest env) (s2 env env')
  answered' : Answers env rtmpPlayerKey (serverDigest env') (c2 env env')

/-- In every interleaving both sides agree on the packets, and neither refuses the other. -/
theorem run_agreed (hhmac : env'.hmac = env.hmac)
    (hrun : Mealy.run (step env env') (start env env') es = some (l, outs)) :
    Agreed env env' es l (clientSends outs) (serverActions outs) := by
  have hsides := sides_of_run hrun
  have hinv := (RtmpContext.run_spec hsides.run).1
  obtain ⟨hserver, hfinished⟩ := script_of_inv hinv length_c0c1 length_c2 hsides.arrived_server
  constructor
  · rcases sends_cases hsides.phase with hsends | hsends
    · rw [hsends]
      exact List.nil_prefix
    · rw [hsends]
      exact List.prefix_rfl
  · exact hserver
  · intro hdone
    have hstate := of_decide_eq_true hdone
    exact ⟨hfinished hstate, hsides.client_of_done hstate⟩
  · exact hsides.accepted
  · exact hsides.failed_of_closed
  · exact answers_c2s2For hhmac { isClient := true } (RtmpContext.start env').handShake rfl rfl rfl
  · exact answers_c2s2For hhmac.symm {} (wroteC0C1 env) rfl rfl rfl

/-! ### A run -/

/-- HMAC-SHA256 where the run below computes it: the keys tell its messages apart. -/
def runHmac (key msg : Bytes) : { digest : Bytes // digest.length = SHA256_DIGEST_LENGTH } :=
  if key = rtmpPlayerKey.take PLAYER_KEY_OPEN_PART_LEN then
    ⟨[0x59, 0xAA, 0x67, 0x89, 0x3C, 0x84, 0x97, 0xBF, 0x9D, 0x8F, 0xB8, 0xB8, 0xA1, 0x1A, 0x70,
      0x32, 0xDE, 0x92, 0xD3, 0x74, 0x5C, 0x51, 0x74, 0xB5, 0x73, 0xD9, 0xB2, 0x0E, 0xD5, 0x1E,
      0x48, 0x37], rfl⟩
  else if key = rtmpServerKey.take SERVER_KEY_OPEN_PART_LEN then RtmpContext.zeroEnv.hmac key msg
  else if key = rtmpServerKey then
    ⟨[0xA7, 0x75, 0x40, 0x09, 0xC0, 0xFD, 0x9B, 0x18, 0xD8, 0x7F, 0xF8, 0x63, 0xBC, 0x52, 0x48,
      0xFD, 0x95, 0xBC, 0xB6, 0x55, 0xCF, 0x59, 0xB0, 0xAD, 0xA0, 0xAB, 0xD3, 0xF6, 0x6C, 0x7B,
      0x1B, 0x57], rfl⟩
  else if key = rtmpPlayerKey then
    ⟨[0xA6, 0x04, 0xD2, 0x80, 0x2F, 0x30, 0xDB, 0x0D, 0x14, 0x8D, 0x7E, 0x7A, 0x55, 0x2C, 0x86,
      0xDB, 0x2B, 0xCF, 0xE4, 0x50, 0x1A, 0x5F, 0x7B, 0x68, 0xD4, 0xA2, 0xF6, 0x0F, 0x4B, 0xCD,
      0x26, 0x2A], rfl⟩
  else if key.at 0 = 0xA7 then
    ⟨[0x24, 0xB4, 0x57, 0xE0, 0xA1, 0x19, 0x70, 0x3C, 0x9D, 0x13, 0x99, 0x52, 0x6A, 0x48, 0x0B,
      0xED, 0x8C, 0x0D, 0x74, 0xB0, 0x85, 0xAE, 0x36, 0x53, 0xF6, 0x68, 0xD3, 0xFC, 0xAB, 0xC8,
      0x1A, 0xBC], rfl⟩
  else
    ⟨[0x85, 0x98, 0x98, 0x65, 0xD7, 0x0D, 0x71, 0xE1, 0x82, 0x51, 0xB2, 0x89, 0x77, 0xF8, 0x25,
      0xE1, 0x2F, 0x88, 0xD1, 0x84, 0x62, 0x2E, 0x46, 0xBB, 0x10, 0x0B, 0x55, 0xC8, 0xDA, 0x88,
      0x51, 0xE3], rfl⟩

/-- A client whose random bytes are all 1. -/
def clientEnv : HandShakeEnv where
  hmac := runHmac
  randomC1S1 := ⟨List.replicate 1537 1, List.length_replicate⟩
  randomC2S2 := ⟨List.replicate 1536 1, List.length_replicate⟩
  now := 7

/-- A server whose random bytes are all 0. -/
def serverEnv : HandShakeEnv := { RtmpContext.zeroEnv with hmac := runHmac }

/-- The rest of S0S1 comes with S2. -/
def joinedRun : List Event := [
  .left .written,
  .right (.read ((c0c1 clientEnv).take 1000) []),
  .right (.read ((c0c1 clientEnv).drop 1000) []),
  .right .writeSucceeded,
  .left (.arrive ((s0s1 serverEnv).take 100)),
  .left .call,
  .right .writeSucceeded,
  .left (.arrive ((s0s1 serverEnv).drop 100 ++ s2 clientEnv serverEnv)),
  .left .call,
  .left .written,
  .right (.read (c2 clientEnv serverEnv) []),
  .right .writeSucceeded,
  .right .writeSucceeded,
  .right .writeSucceeded]

theorem joinedRun_ends :
    (Mealy.run (step clientEnv serverEnv) (start clientEnv serverEnv) joinedRun).any fun r =>
      decide (AtRest r.1 ∧ r.1.left.handShake.isDone ∧ r.1.right.handShake.isDone) := by
  decide +kernel

theorem run_agreed_joined : ∃ l outs,
    Mealy.run (step clientEnv serverEnv) (start clientEnv serverEnv) joinedRun = some (l, outs) ∧
      l.right.handShake.isDone ∧
      Agreed clientEnv serverEnv joinedRun l (clientSends outs) (serverActions outs) := by
  obtain ⟨⟨l, outs⟩, hrun, h⟩ := (Option.any_eq_true _ _).mp joinedRun_ends
  exact ⟨l, outs, hrun, (of_decide_eq_true h).2.2, run_agreed rfl hrun⟩

/-! ## The end of the handshake -/

/-- At rest the server waits for C2 or is done, and both of its packets have arrived. -/
theorem Sides.server_of_rest {sends : List (HandShakePacket × Bytes)} {t : List Action}
    (h : Sides env env' es l sends t) (hrest : AtRest l) :
    (l.right.handShake.state = .waitC2 ∨ l.right.handShake.state = .done) ∧
      arrived (Duplex.lefts es) = s0s1 env' ++ s2 env env' := by
  obtain ⟨hinv, -, hprogress⟩ := RtmpContext.run_spec h.run
  have hp := hprogress hrest.opened
  have hqueue : l.right.connection.writeQueue = [] := by
    by_contra hne
    have hbusy := hinv.wf.outstanding_of_queue hrest.opened hne
    rw [hrest.server] at hbusy
    cases hbusy
  have hstate : l.right.handShake.state = .waitC2 ∨ l.right.handShake.state = .done := by
    rcases hinv.phase.server with hs | hs | hs | hs | hs
    · rw [hs] at hp
      have hbytes := congrArg List.length h.toServer
      rw [hrest.toRight, List.append_nil, List.length_append, length_c0c1] at hbytes
      have hshort := hp.1
      omega
    · obtain ⟨_, -, -, hbusy, -⟩ := hinv.phase.of_postS0S1 hs
      rw [hqueue] at hbusy
      cases hbusy
    · obtain ⟨_, -, hbusy, -⟩ := hinv.phase.of_postS2 hs
      rw [hqueue] at hbusy
      cases hbusy
    · exact .inl hs
    · exact .inr hs
  refine ⟨hstate, ?_⟩
  have hbytes := h.toClient
  rw [hrest.toLeft, List.append_nil] at hbytes
  exact hbytes.trans ((packetBytes_of_inv hinv length_c0c1 ⟨_, h.toServer⟩).2 hstate)

/-- At rest the client is done if and only if it has sent C2. -/
theorem Sides.client_of_rest {sends : List (HandShakePacket × Bytes)} {t : List Action}
    (h : Sides env env' es l sends t) (hrest : AtRest l) :
    l.left.handShake.isDone ↔ sends ≠ [] := by
  have hwritten := hrest.client
  have hphase := h.phase
  generalize l.left = s at hphase hwritten
  rw [isDone, decide_eq_true_iff]
  cases hphase with
  | writing => cases hwritten
  | waiting => simp [wroteC0C1]
  | doning => cases hwritten
  | done hstate => simp [hstate]
  | stuck hstate => simp [hstate]

/-- At rest both sides are done if and only if the first call that found S0S1 behind the write
of C0C1 found S2 as well, and the server has read something after its second write. -/
theorem bothDone_iff
    (hrun : Mealy.run (step env env') (start env env') es = some (l, outs)) (hrest : AtRest l) :
    l.left.handShake.isDone ∧ l.right.handShake.isDone ↔
      (CalledInTime (Duplex.lefts es) ∧ FoundBoth (Duplex.lefts es)) ∧
        RtmpContext.ReadAfterWrites (Duplex.rights es) := by
  have hsides := sides_of_run hrun
  have hp := (RtmpContext.run_spec hsides.run).2.2 hrest.opened
  rw [hsides.client_of_rest hrest, ← hsides.sends_iff]
  refine and_congr_right fun hsends => ?_
  rcases (hsides.server_of_rest hrest).1 with hstate | hstate
  · -- C2 is in the buffer, and has not been looked at
    have hlong : 3073 ≤ (RtmpContext.arrived (serverActions outs)).length := by
      have hc2 := (sends_cases hsides.phase).resolve_left hsends
      have hbytes := congrArg List.length hsides.toServer
      rw [hrest.toRight, List.append_nil, hc2, List.flatMap_singleton, List.length_append,
        length_c0c1] at hbytes
      rw [hbytes]
      exact Nat.le_of_eq (congrArg (1537 + ·) length_c2.symm)
    rw [hstate] at hp
    constructor
    · intro hdone
      simp [isDone, hstate] at hdone
    · intro hread
      exact absurd hlong (Nat.not_le_of_lt (hp.2 hread))
  · rw [hstate] at hp
    exact ⟨fun _ => hp, fun _ => decide_eq_true hstate⟩

theorem bothDone_iff_joined : ∃ l outs,
    Mealy.run (step clientEnv serverEnv) (start clientEnv serverEnv) joinedRun = some (l, outs) ∧
      AtRest l ∧ (CalledInTime (Duplex.lefts joinedRun) ∧ FoundBoth (Duplex.lefts joinedRun)) ∧
        RtmpContext.ReadAfterWrites (Duplex.rights joinedRun) := by
  obtain ⟨⟨l, outs⟩, hrun, h⟩ := (Option.any_eq_true _ _).mp joinedRun_ends
  obtain ⟨hrest, hdone⟩ := of_decide_eq_true h
  exact ⟨l, outs, hrun, hrest, (bothDone_iff hrun hrest).mp hdone⟩

end Runs

end HandShakePair
