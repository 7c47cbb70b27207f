-- SUMMARY: The handshake in the role of the client, under every order of arrivals, writes and calls.
import OmegaStreamer.Lib.Mealy
import OmegaStreamer.Lib.Trace
import OmegaStreamer.Rtmp.HandShakeRuns

/-!
# The client's handshake

A handshake created for a client and started, with the bytes of a server that
arrive in any segments. `HandShake` and `WriteComplete` are called in any order
that the writes allow. S2 may have arrived with S0S1 or not, and the two branches
of `kHandShakeWaitS0S1` do not do the same.
-/

namespace RtmpHandShake

inductive ClientEvent where
  | arrive (seg : Bytes)
  /-- `HandShake` is called on the buffer. -/
  | call
  /-- A packet is written, and `WriteComplete` is called. -/
  | written
  deriving DecidableEq, Repr

/-- The bytes that have arrived. -/
def arrived (es : List ClientEvent) : Bytes :=
  es.flatMap fun
    | .arrive seg => seg
    | _ => []

@[simp] theorem arrived_append (es es' : List ClientEvent) :
    arrived (es ++ es') = arrived es ++ arrived es' := List.flatMap_append

structure Client where
  handShake : RtmpHandShake
  buf : Bytes := []
  /-- Sent and not written yet. -/
  unwritten : List (HandShakePacket × Bytes)
  /-- The number of bytes consumed. -/
  retrieved : Nat := 0
  deriving DecidableEq, Repr

namespace Client

def start (env : HandShakeEnv) : Client :=
  let (handShake, sends) := RtmpHandShake.start env { isClient := true }
  { handShake := handShake, unwritten := sends }

/-- A step, and the packets that it sends. -/
def step (env : HandShakeEnv) (s : Client) :
    ClientEvent → Option (Client × List (HandShakePacket × Bytes))
  | .arrive seg => some ({ s with buf := s.buf ++ seg }, [])
  | .call =>
    let r := s.handShake.handShake env s.buf
    some ({ handShake := r.handShake
            buf := s.buf.drop r.retrieved
            unwritten := s.unwritten ++ r.sends
            retrieved := s.retrieved + r.retrieved }, r.sends)
  | .written =>
    match s.unwritten with
    | [] => none
    | _ :: rest =>
      let (handShake, sends) := s.handShake.writeComplete
      some ({ s with handShake := handShake, unwritten := rest ++ sends }, sends)

end Client

/-! ## The phases -/

/-- The client that has sent C0C1. -/
def sentC0C1 (env : HandShakeEnv) : RtmpHandShake := (Client.start env).handShake

/-- The client that has written it. -/
def wroteC0C1 (env : HandShakeEnv) : RtmpHandShake :=
  { sentC0C1 env with state := .waitS0S1 }

/-- The packet that answers S0S1. -/
def clientC2 (env : HandShakeEnv) (s0s1 : Bytes) : HandShakePacket × Bytes :=
  (.c2s2, (wroteC0C1 env).c2s2For env s0s1)

theorem createC1S1_isClient (env : HandShakeEnv) :
    (createC1S1 env { isClient := true }).isClient = true := by
  unfold createC1S1
  simp only
  split <;> rfl

theorem start_unwritten (env : HandShakeEnv) :
    (Client.start env).unwritten = [(.c1s1, (sentC0C1 env).c1s1)] := by
  simp [Client.start, sentC0C1, RtmpHandShake.start, createC1S1_isClient, sendC1S1]

theorem sentC0C1_state (env : HandShakeEnv) : (sentC0C1 env).state = .postC0C1 := by
  simp [Client.start, sentC0C1, RtmpHandShake.start, createC1S1_isClient]

/-- A call that comes when C0C1 is written does not find S0S1 without S2. -/
def InTime (before : List ClientEvent) (e : ClientEvent) : Prop :=
  e = .call → .written ∈ before →
    (arrived before).length < 1537 ∨ 3073 ≤ (arrived before).length

/-- Every call of a run is in time. -/
def CalledInTime (es : List ClientEvent) : Prop := Trace.Each InTime [] es

theorem calledInTime_concat (es : List ClientEvent) (e : ClientEvent) :
    CalledInTime (es ++ [e]) ↔ CalledInTime es ∧ InTime es e := by
  rw [CalledInTime, Trace.each_append, List.nil_append, Trace.each_singleton]
  exact Iff.rfl

theorem inTime_of_ne {before : List ClientEvent} {e : ClientEvent} (h : e ≠ .call) :
    InTime before e := fun hcall => absurd hcall h

/-- What the first packet of the server is. -/
structure ServerPackets (s0s1 s2 : Bytes) : Prop where
  length_s0s1 : s0s1.length = 1537
  version : s0s1.at 0 = 0x03
  length_s2 : s2.length = 1536

/-- Where a run is, by its events and what it has sent since the start. -/
inductive ClientPhase (env : HandShakeEnv) (s0s1 s2 : Bytes) :
    List ClientEvent → List (HandShakePacket × Bytes) → Client → Prop where
  /-- C0C1 is being written. -/
  | writing {es : List ClientEvent} (htime : CalledInTime es) (hnot : .written ∉ es) :
      ClientPhase env s0s1 s2 es []
        { handShake := sentC0C1 env, buf := arrived es,
          unwritten := [(.c1s1, (sentC0C1 env).c1s1)] }
  /-- S0S1 is waited for. -/
  | waiting {es : List ClientEvent} (htime : CalledInTime es) (hwritten : .written ∈ es)
      (hlast : es.getLast? = some .call → (arrived es).length < 1537) :
      ClientPhase env s0s1 s2 es []
        { handShake := wroteC0C1 env, buf := arrived es, unwritten := [] }
  /-- C2 is being written. -/
  | doning {es : List ClientEvent} {hs : RtmpHandShake} (hstate : hs.state = .doning)
      (htime : CalledInTime es) (harrived : arrived es = s0s1 ++ s2) :
      ClientPhase env s0s1 s2 es [clientC2 env s0s1]
        { handShake := hs, unwritten := [clientC2 env s0s1], retrieved := 3073 }
  | done {es : List ClientEvent} {hs : RtmpHandShake} (hstate : hs.state = .done)
      (htime : CalledInTime es) (harrived : arrived es = s0s1 ++ s2) :
      ClientPhase env s0s1 s2 es [clientC2 env s0s1]
        { handShake := hs, unwritten := [], retrieved := 3073 }
  /-- C2 has not been sent, and never will be. -/
  | stuck {es : List ClientEvent} {hs : RtmpHandShake} {buf : Bytes}
      (hstate : hs.state = .postC2) (hlate : ¬ CalledInTime es) :
      ClientPhase env s0s1 s2 es []
        { handShake := hs, buf := buf, unwritten := [], retrieved := 1537 }

namespace ClientPhase

variable {env : HandShakeEnv} {s0s1 s2 : Bytes} {es : List ClientEvent}
  {sent : List (HandShakePacket × Bytes)} {s : Client}

theorem arrive (h : ClientPhase env s0s1 s2 es sent s) (seg : Bytes)
    (hsofar : arrived (es ++ [ClientEvent.arrive seg]) <+: s0s1 ++ s2) :
    ClientPhase env s0s1 s2 (es ++ [ClientEvent.arrive seg]) sent
      { s with buf := s.buf ++ seg } := by
  have hconcat : arrived (es ++ [ClientEvent.arrive seg]) = arrived es ++ seg := by
    simp [arrived]
  have htime (ht : CalledInTime es) : CalledInTime (es ++ [ClientEvent.arrive seg]) :=
    (calledInTime_concat es _).mpr ⟨ht, inTime_of_ne nofun⟩
  -- nothing more comes when everything has arrived
  have hnothing (harrived : arrived es = s0s1 ++ s2) : seg = [] := by
    rw [hconcat, harrived] at hsofar
    exact List.append_right_eq_self.mp (hsofar.eq_of_length_le (by simp))
  cases h with
  | writing ht hnot =>
    rw [← hconcat]
    exact .writing (htime ht) (by simpa using hnot)
  | waiting ht hwritten hlast =>
    rw [← hconcat]
    exact .waiting (htime ht) (List.mem_append_left _ hwritten) (by simp)
  | doning hstate ht harrived =>
    obtain rfl := hnothing harrived
    exact .doning hstate (htime ht) (by rw [hconcat, List.append_nil, harrived])
  | done hstate ht harrived =>
    obtain rfl := hnothing harrived
    exact .done hstate (htime ht) (by rw [hconcat, List.append_nil, harrived])
  | stuck hstate hlate =>
    exact .stuck hstate fun ht => hlate ((calledInTime_concat es _).mp ht).1

/-- A call in a state in which `HandShake` does nothing. -/
theorem call_ignored {hs : RtmpHandShake} {buf : Bytes}
    {unwritten : List (HandShakePacket × Bytes)} {retrieved : Nat}
    (h : hs.handShake env buf = { ret := 1, handShake := hs }) :
    Client.step env { handShake := hs, buf := buf, unwritten := unwritten,
                      retrieved := retrieved } .call =
      some ({ handShake := hs, buf := buf, unwritten := unwritten, retrieved := retrieved },
        []) := by
  simp [Client.step, h]

theorem call (h : ClientPhase env s0s1 s2 es sent s) (hserver : ServerPackets s0s1 s2)
    (hsofar : arrived es <+: s0s1 ++ s2) {s' : Client}
    {sends : List (HandShakePacket × Bytes)} (hstep : s.step env .call = some (s', sends)) :
    ClientPhase env s0s1 s2 (es ++ [ClientEvent.call]) (sent ++ sends) s' := by
  have harrived : arrived (es ++ [ClientEvent.call]) = arrived es := by simp [arrived]
  have hall (hfull : arrived es = s0s1 ++ s2) : (arrived es).length = 3073 := by
    rw [hfull, List.length_append, hserver.length_s0s1, hserver.length_s2]
  have htime (ht : CalledInTime es) (hin : InTime es .call) :
      CalledInTime (es ++ [ClientEvent.call]) :=
    (calledInTime_concat es _).mpr ⟨ht, hin⟩
  cases h with
  | writing ht hnot =>
    have hignored : (sentC0C1 env).handShake env (arrived es) =
        { ret := 1, handShake := sentC0C1 env } := by
      simp [handShake, sentC0C1_state]
    rw [call_ignored hignored] at hstep
    cases hstep
    rw [← harrived]
    exact .writing (htime ht fun _ hw => absurd hw hnot) (by simpa using hnot)
  | waiting ht hwritten hlast =>
    have hstate : (wroteC0C1 env).state = .waitS0S1 := rfl
    have hresult := handShake_waitS0S1 env hstate (arrived es)
    have hversion (hlen : 1537 ≤ (arrived es).length) : (arrived es).at 0 = 0x03 := by
      obtain ⟨rest, hrest⟩ := hsofar
      have hbyte := Bytes.at_append (p := arrived es) (i := 0) (by omega) rest
      rw [hrest, Bytes.at_append (by rw [hserver.length_s0s1]; decide)] at hbyte
      rw [← hbyte, hserver.version]
    simp only [Client.step, Option.some.injEq, Prod.mk.injEq] at hstep
    obtain ⟨rfl, rfl⟩ := hstep
    generalize (wroteC0C1 env).handShake env (arrived es) = r at hresult
    cases hresult with
    | short hlen =>
      rw [← harrived]
      exact .waiting (htime ht fun _ _ => .inl hlen) (List.mem_append_left _ hwritten)
        fun _ => by rwa [harrived]
    | both hs' hlen _ hstate =>
      have hfull : arrived es = s0s1 ++ s2 := by
        refine hsofar.eq_of_length_le ?_
        rw [List.length_append, hserver.length_s0s1, hserver.length_s2]
        exact hlen
      have hpacket : (arrived es).take 1537 = s0s1 := by
        rw [hfull, ← hserver.length_s0s1, List.take_left]
      have hnone : (arrived es).drop 3073 = [] :=
        List.drop_eq_nil_of_le (Nat.le_of_eq (hall hfull))
      simp only [hpacket, hnone]
      exact .doning hstate (htime ht fun _ _ => .inr hlen) (harrived.trans hfull)
    | first hs' hlen hshort _ hstate =>
      refine .stuck hstate fun hin => ?_
      rcases ((calledInTime_concat es _).mp hin).2 rfl hwritten with h | h
      · exact absurd hlen (Nat.not_le_of_lt h)
      · exact absurd hshort (Nat.not_lt_of_le h)
    | refused hlen hbad => exact absurd (hversion hlen) hbad
  | doning hstate ht hfull =>
    rw [call_ignored (by simp [handShake, hstate])] at hstep
    cases hstep
    exact .doning hstate (htime ht fun _ _ => .inr (Nat.le_of_eq (hall hfull).symm))
      (harrived.trans hfull)
  | done hstate ht hfull =>
    rw [call_ignored (by simp [handShake, hstate])] at hstep
    cases hstep
    exact .done hstate (htime ht fun _ _ => .inr (Nat.le_of_eq (hall hfull).symm))
      (harrived.trans hfull)
  | stuck hstate hlate =>
    rw [call_ignored (by simp [handShake, hstate])] at hstep
    cases hstep
    exact .stuck hstate fun hin => hlate ((calledInTime_concat es _).mp hin).1

theorem written (h : ClientPhase env s0s1 s2 es sent s) {s' : Client}
    {sends : List (HandShakePacket × Bytes)} (hstep : s.step env .written = some (s', sends)) :
    ClientPhase env s0s1 s2 (es ++ [ClientEvent.written]) (sent ++ sends) s' := by
  have harrived : arrived (es ++ [ClientEvent.written]) = arrived es := by simp [arrived]
  have htime (ht : CalledInTime es) : CalledInTime (es ++ [ClientEvent.written]) :=
    (calledInTime_concat es _).mpr ⟨ht, inTime_of_ne nofun⟩
  cases h with
  | writing ht hnot =>
    simp only [Client.step, writeComplete, sentC0C1_state, Option.some.injEq,
      Prod.mk.injEq] at hstep
    obtain ⟨rfl, rfl⟩ := hstep
    rw [← harrived]
    exact .waiting (htime ht) (by simp) (by simp)
  | waiting ht hwritten hlast => cases hstep
  | doning hstate ht hfull =>
    simp only [Client.step, writeComplete, hstate, Option.some.injEq, Prod.mk.injEq] at hstep
    obtain ⟨rfl, rfl⟩ := hstep
    exact .done rfl (htime ht) (harrived.trans hfull)
  | done hstate ht hfull => cases hstep
  | stuck hstate hlate => cases hstep

theorem step (h : ClientPhase env s0s1 s2 es sent s) (hserver : ServerPackets s0s1 s2)
    {e : ClientEvent} (hsofar : arrived (es ++ [e]) <+: s0s1 ++ s2) {s' : Client}
    {sends : List (HandShakePacket × Bytes)} (hstep : s.step env e = some (s', sends)) :
    ClientPhase env s0s1 s2 (es ++ [e]) (sent ++ sends) s' := by
  cases e with
  | arrive seg =>
    cases hstep
    rw [List.append_nil]
    exact h.arrive seg hsofar
  | call =>
    have hsame : arrived (es ++ [ClientEvent.call]) = arrived es := by simp [arrived]
    rw [hsame] at hsofar
    exact h.call hserver hsofar hstep
  | written => exact h.written hstep

end ClientPhase

/-- Every run is in a phase, while the bytes that arrive are the server's. -/
theorem clientPhase_of_run {env : HandShakeEnv} {s0s1 s2 : Bytes} {es : List ClientEvent}
    {s : Client} {outs : List (List (HandShakePacket × Bytes))}
    (hserver : ServerPackets s0s1 s2) (hsofar : arrived es <+: s0s1 ++ s2)
    (hrun : Mealy.run (Client.step env) (Client.start env) es = some (s, outs)) :
    ClientPhase env s0s1 s2 es outs.flatten s := by
  have hstart : ClientPhase env s0s1 s2 [] [] (Client.start env) := by
    have heta : Client.start env =
        { handShake := sentC0C1 env, buf := [],
          unwritten := [(.c1s1, (sentC0C1 env).c1s1)] } := by
      rw [← start_unwritten]
      rfl
    rw [heta]
    exact .writing (Trace.each_nil []) List.not_mem_nil
  refine Mealy.run_induction
    (motive := fun es outs s => arrived es <+: s0s1 ++ s2 →
      ClientPhase env s0s1 s2 es outs.flatten s) (fun _ => hstart) ?_ hrun hsofar
  intro es outs t e t' sends _ ih hstep hsofar
  have hbefore : arrived es <+: arrived (es ++ [e]) := by
    rw [arrived_append]
    exact List.prefix_append _ _
  rw [List.flatten_concat]
  exact (ih (hbefore.trans hsofar)).step hserver hsofar hstep

/-! ## The end of the handshake -/

/-- The handshake is done: C0C1 and then C2 have been sent, and the server's
packets have been consumed. -/
structure ClientDone (env : HandShakeEnv) (s0s1 : Bytes) (s : Client)
    (sent : List (HandShakePacket × Bytes)) : Prop where
  state : s.handShake.state = .done
  sent : (Client.start env).unwritten ++ sent =
    [(.c1s1, (sentC0C1 env).c1s1), clientC2 env s0s1]
  retrieved : s.retrieved = 1537 + 1536

/-- When the server's packets have arrived, nothing is being written and
`HandShake` has been called last, the handshake is done if and only if no call
found S0S1 without S2 after C0C1 had been written. -/
theorem clientDone_iff {env : HandShakeEnv} {s0s1 s2 : Bytes} {es : List ClientEvent}
    {s : Client} {outs : List (List (HandShakePacket × Bytes))}
    (hserver : ServerPackets s0s1 s2)
    (hrun : Mealy.run (Client.step env) (Client.start env) es = some (s, outs))
    (harrived : arrived es = s0s1 ++ s2) (hwritten : s.unwritten = [])
    (hlast : es.getLast? = some .call) :
    ClientDone env s0s1 s outs.flatten ↔ CalledInTime es := by
  have hsofar : arrived es <+: s0s1 ++ s2 := by simp only [harrived, List.prefix_rfl]
  have hphase := clientPhase_of_run hserver hsofar hrun
  generalize outs.flatten = sent at hphase
  cases hphase with
  | writing => cases hwritten
  | waiting _ _ hshort =>
    have hlt := hshort hlast
    rw [harrived, List.length_append, hserver.length_s0s1] at hlt
    exact absurd (Nat.le_add_right 1537 s2.length) (Nat.not_le_of_lt hlt)
  | doning => cases hwritten
  | done hstate htime =>
    refine ⟨fun _ => htime, fun _ => ⟨hstate, ?_, rfl⟩⟩
    rw [start_unwritten]
    rfl
  | stuck hstate hlate =>
    refine ⟨fun hdone => ?_, fun htime => absurd htime hlate⟩
    have hdone' := hdone.state
    rw [hstate] at hdone'
    cases hdone'

/-! ### Two runs -/

def simpleS0S1 : Bytes := 0x03 :: List.replicate 1536 0

def simpleS2 : Bytes := List.replicate 1536 0

theorem serverPackets_simple : ServerPackets simpleS0S1 simpleS2 where
  length_s0s1 := by rw [simpleS0S1, List.length_cons, List.length_replicate]
  version := rfl
  length_s2 := by rw [simpleS2, List.length_replicate]

/-- The server's packets come together. -/
def joinedPackets : List ClientEvent :=
  [.written, .call, .arrive (simpleS0S1 ++ simpleS2), .call, .written, .call]

theorem clientDone_joined :
    ∃ s outs, Mealy.run (Client.step RtmpContext.zeroEnv) (Client.start RtmpContext.zeroEnv)
        joinedPackets = some (s, outs) ∧
      (ClientDone RtmpContext.zeroEnv simpleS0S1 s outs.flatten ↔
        CalledInTime joinedPackets) := by
  have hend : (Mealy.run (Client.step RtmpContext.zeroEnv) (Client.start RtmpContext.zeroEnv)
      joinedPackets).any fun r => decide (r.1.unwritten = []) := by
    decide +kernel
  obtain ⟨⟨s, outs⟩, hrun, h⟩ := (Option.any_eq_true _ _).mp hend
  have harrived : arrived joinedPackets = simpleS0S1 ++ simpleS2 := by
    simp only [arrived, joinedPackets, List.flatMap_cons, List.flatMap_nil, List.nil_append,
      List.append_nil]
  exact ⟨s, outs, hrun,
    clientDone_iff serverPackets_simple hrun harrived (of_decide_eq_true h) rfl⟩

/-- The server's packets come one after another. -/
def separatePackets : List ClientEvent :=
  [.written, .call, .arrive simpleS0S1, .call, .arrive simpleS2, .call]

/-- The client never answers. -/
theorem separatePackets_stuck :
    ∃ s outs, Mealy.run (Client.step RtmpContext.zeroEnv) (Client.start RtmpContext.zeroEnv)
        separatePackets = some (s, outs) ∧
      ServerPackets simpleS0S1 simpleS2 ∧ arrived separatePackets = simpleS0S1 ++ simpleS2 ∧
      s.unwritten = [] ∧ separatePackets.getLast? = some .call ∧
      s.handShake.state = .postC2 ∧ outs.flatten = [] ∧ s.retrieved = 1537 ∧
      ¬ ClientDone RtmpContext.zeroEnv simpleS0S1 s outs.flatten := by
  have hend : (Mealy.run (Client.step RtmpContext.zeroEnv) (Client.start RtmpContext.zeroEnv)
      separatePackets).any fun r => decide (r.1.unwritten = [] ∧
        r.1.handShake.state = .postC2 ∧ r.2.flatten = [] ∧ r.1.retrieved = 1537) := by
    decide +kernel
  obtain ⟨⟨s, outs⟩, hrun, h⟩ := (Option.any_eq_true _ _).mp hend
  obtain ⟨hwritten, hstate, hsent, hretrieved⟩ := of_decide_eq_true h
  have harrived : arrived separatePackets = simpleS0S1 ++ simpleS2 := by
    simp only [arrived, separatePackets, List.flatMap_cons, List.flatMap_nil, List.nil_append,
      List.append_nil]
  refine ⟨s, outs, hrun, serverPackets_simple, harrived, hwritten, rfl, hstate, hsent, hretrieved,
    fun hdone => ?_⟩
  have hdone' := hdone.state
  rw [hstate] at hdone'
  cases hdone'

end RtmpHandShake
