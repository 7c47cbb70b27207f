-- SUMMARY: In which states of the handshake a client can make an open server keep unread bytes without a bound.
import OmegaStreamer.Rtmp.MemoryRuns

/-!
# The backlog of a server

What an open server has received and not yet consumed. While C0C1 is awaited, and behind
the handshake, it is bounded. In the three states between, `HandShake` is not called or does
nothing with what a write has left behind, and a client that sends on without waiting
makes it as long as it likes, however little the library reads at a time.
-/

open RtmpSession

namespace ServerContext

open RtmpContext (Action Inv arrived IsServerState Ignores)

variable {P : Bytes → Prop} {env : HandShakeEnv}

/-- An open server in a state of its handshake, with these bytes unread, after reads that have
brought such segments. -/
def Reaches (P : Bytes → Prop) (env : HandShakeEnv) (state : RtmpHandShakeState)
    (unread : Bytes) : Prop :=
  ∃ es ctx t effects, run env es = some (ctx, t, effects) ∧ (∀ seg, .read seg ∈ es → P seg) ∧
    Countable t ∧ ctx.connection.closed = false ∧ ctx.terminated = false ∧
    ctx.handShake.state = state ∧ ctx.connection.recvBuf = unread

/-! ## What is awaited -/

theorem step_read_eq_some (env : HandShakeEnv) {ctx : ServerContext} {seg : Bytes}
    (hrun : ctx.terminated = false) (hseg : seg ≠ []) :
    ∃ next acts effects, step env ctx (.read seg) = some (next, acts, effects) := by
  unfold step
  rw [if_neg (by rw [hrun]; exact Bool.false_ne_true)]
  simp only [hseg, if_false]
  exact ⟨_, _, _, rfl⟩

theorem step_writeSucceeded_eq_some (env : HandShakeEnv) {ctx : ServerContext}
    (hrun : ctx.terminated = false) (ho : ctx.connection.outstanding = true)
    (hq : ctx.connection.writeQueue ≠ []) :
    ∃ next acts effects, step env ctx .writeSucceeded = some (next, acts, effects) := by
  unfold step
  rw [if_neg (by rw [hrun]; exact Bool.false_ne_true)]
  simp only [ho, if_true]
  split
  · rename_i hnone
    exact absurd hnone hq
  · split
    · exact ⟨_, _, _, rfl⟩
    · exact ⟨_, _, _, rfl⟩

/-- What is not enough in any of the states. -/
theorem short_of_ignores {state : RtmpHandShakeState} {buf : Bytes} (h : Ignores state buf) :
    (state = .waitC0C1 → buf.length < 1537) ∧ (state = .waitC2 → buf.length < 1536) ∧
      state ≠ .done := by
  rcases h with ⟨rfl, h⟩ | rfl | rfl | ⟨rfl, h⟩
  · exact ⟨fun _ => h, nofun, nofun⟩
  · exact ⟨nofun, nofun, nofun⟩
  · exact ⟨nofun, nofun, nofun⟩
  · exact ⟨nofun, fun _ => h, nofun⟩

/-- One more event of an open server. -/
theorem Reaches.step {state state' : RtmpHandShakeState} {unread unread' : Bytes} {e : Event}
    (h : Reaches P env state unread) (he : ∀ seg, e = .read seg → P seg)
    (hstep : ∀ t ctx, Inv env t ctx.toRtmpContext →
      ctx.connection.closed = false → ctx.terminated = false → ctx.handShake.state = state →
      ctx.connection.recvBuf = unread → ∃ next acts effects,
        ServerContext.step env ctx e = some (next, acts, effects) ∧ Countable acts ∧
        next.connection.closed = false ∧ next.terminated = false ∧
        next.handShake.state = state' ∧ next.connection.recvBuf = unread') :
    Reaches P env state' unread' := by
  obtain ⟨es, ctx, t, effects, hrun, hreads, hcountable, hopen, hgo, hstate, hbuf⟩ := h
  obtain ⟨next, acts, effects', hnext, hacts, hrest⟩ :=
    hstep t ctx (inv_run hrun) hopen hgo hstate hbuf
  refine ⟨es ++ [e], next, t ++ acts, effects ++ effects', run_concat hrun hnext, ?_, ?_, hrest⟩
  · intro seg hmem
    rcases List.mem_append.mp hmem with hmem | hmem
    · exact hreads seg hmem
    · exact he seg (List.mem_singleton.mp hmem).symm
  · intro a hmem
    exact (List.mem_append.mp hmem).elim (hcountable a) (hacts a)

/-- What `HandShake` does nothing about stays in the buffer. -/
theorem Reaches.read {state : RtmpHandShakeState} {unread seg : Bytes}
    (h : Reaches P env state unread) (hseg : P seg) (hne : seg ≠ [])
    (hignores : Ignores state (unread ++ seg)) : Reaches P env state (unread ++ seg) := by
  refine h.step (e := .read seg) ?_ fun t ctx hinv hopen hrun hstate hbuf => ?_
  · rintro seg' heq
    cases heq
    exact hseg
  obtain ⟨next, acts, effects, hstep⟩ := step_read_eq_some env hrun hne
  refine ⟨next, acts, effects, hstep, ?_⟩
  have hbase := RtmpContext.step_eq_some hinv.phase.server (step_refines hstep)
  have hterm : next.terminated = next.toRtmpContext.terminated := rfl
  rw [hterm]
  rw [← hstate, ← hbuf] at hignores
  obtain ⟨hfirst, hsecond, hdone⟩ := short_of_ignores hignores
  generalize next.toRtmpContext = next' at hbase ⊢
  generalize he : Event.answered effects (.read seg) = e' at hbase
  cases hbase with
  | idle =>
    cases he
    refine ⟨?_, ?_, hrun, hstate, ?_⟩
    · intro a hmem
      rw [List.mem_singleton] at hmem
      rw [hmem]
      trivial
    · exact (TcpConnection.sendAll_closed _ _).trans hopen
    · exact (TcpConnection.sendAll_recvBuf _ _).trans (congrArg (· ++ seg) hbuf)
  | accept hbuf' h hlen =>
    cases he
    exact absurd (hfirst h) (Nat.not_lt.mpr (hbuf' ▸ hlen))
  | refuse hbuf' h hlen =>
    cases he
    exact absurd (hfirst h) (Nat.not_lt.mpr (hbuf' ▸ hlen))
  | finish hbuf' h hlen =>
    cases he
    exact absurd (hsecond h) (Nat.not_lt.mpr (hbuf' ▸ Nat.le_of_eq hlen.symm))
  | finishParse hbuf' h hlen =>
    cases he
    exact absurd (hsecond h) (Nat.not_lt.mpr (hbuf' ▸ Nat.le_of_lt hlen))
  | parse hbuf' h => exact absurd h hdone
  | _ => cases he

/-- The last byte of C0C1. -/
theorem Reaches.accept {unread seg : Bytes} (h : Reaches P env .waitC0C1 unread) (hseg : P seg)
    (hne : seg ≠ []) (hlen : (unread ++ seg).length = 1537)
    (hversion : (unread ++ seg).at 0 = 0x03) : Reaches P env .postS0S1 [] := by
  refine h.step (e := .read seg) ?_ fun t ctx hinv hopen hrun hstate hbuf => ?_
  · rintro seg' heq
    cases heq
    exact hseg
  obtain ⟨next, acts, effects, hstep⟩ := step_read_eq_some env hrun hne
  refine ⟨next, acts, effects, hstep, ?_⟩
  have hbase := RtmpContext.step_eq_some hinv.phase.server (step_refines hstep)
  have hterm : next.terminated = next.toRtmpContext.terminated := rfl
  rw [hterm]
  rw [← hbuf] at hlen hversion
  generalize next.toRtmpContext = next' at hbase ⊢
  generalize he : Event.answered effects (.read seg) = e' at hbase
  cases hbase with
  | idle hignores =>
    cases he
    have hshort := (short_of_ignores hignores).1 hstate
    omega
  | accept hbuf' h hlen' hversion' hs =>
    cases he
    refine ⟨?_, ?_, hrun, hs, ?_⟩
    · intro a hmem
      simp only [List.mem_cons, List.not_mem_nil, or_false] at hmem
      rcases hmem with rfl | rfl | rfl <;> trivial
    · exact (TcpConnection.sendAll_closed _ _).trans hopen
    · refine (TcpConnection.sendAll_recvBuf _ _).trans ?_
      rw [hbuf']
      exact List.drop_eq_nil_of_le (Nat.le_of_eq hlen)
  | refuse hbuf' h hlen' hversion' =>
    cases he
    rw [hbuf'] at hversion'
    exact absurd hversion hversion'
  | finish hbuf' h => exact absurd (hstate.symm.trans h) (by decide)
  | finishParse hbuf' h => exact absurd (hstate.symm.trans h) (by decide)
  | parse hbuf' h => exact absurd (hstate.symm.trans h) (by decide)
  | _ => cases he

/-- The next write is complete, and `HandShake` is not called. -/
theorem Reaches.wrote {state state' : RtmpHandShakeState} {unread : Bytes}
    (h : Reaches P env state unread)
    (hwrite : state = .postS0S1 ∧ state' = .postS2 ∨ state = .postS2 ∧ state' = .waitC2) :
    Reaches P env state' unread := by
  refine h.step (e := .writeSucceeded) nofun fun t ctx hinv hopen hrun hstate hbuf => ?_
  have hne : ctx.connection.writeQueue ≠ [] := by
    rcases hwrite with ⟨hwas, -⟩ | ⟨hwas, -⟩
    · obtain ⟨c0c1, -, -, hq, -⟩ := hinv.phase.of_postS0S1 (hstate.trans hwas)
      rw [hq]
      exact List.cons_ne_nil _ _
    · obtain ⟨c0c1, -, hq, -⟩ := hinv.phase.of_postS2 (hstate.trans hwas)
      rw [hq]
      exact List.cons_ne_nil _ _
  have ho := hinv.wf.outstanding_of_queue hopen hne
  obtain ⟨next, acts, effects, hstep⟩ := step_writeSucceeded_eq_some env hrun ho hne
  refine ⟨next, acts, effects, hstep, ?_⟩
  have hbase := RtmpContext.step_eq_some hinv.phase.server (step_refines hstep)
  have hterm : next.terminated = next.toRtmpContext.terminated := rfl
  rw [hterm]
  generalize next.toRtmpContext = next' at hbase ⊢
  generalize he : Event.answered effects .writeSucceeded = e' at hbase
  have hclosed := (TcpConnection.writeSucceeded_closed ctx.connection).trans hopen
  have hunread := (TcpConnection.writeSucceeded_recvBuf ctx.connection).trans hbuf
  rw [← hstate] at hwrite
  cases hbase with
  | wrote ho' hq' h =>
    have hdone := hinv.phase.done_of_wrote hq' h
    rcases hwrite with ⟨hwas, -⟩ | ⟨hwas, -⟩
    · exact absurd (hwas.symm.trans hdone) (by decide)
    · exact absurd (hwas.symm.trans hdone) (by decide)
  | wroteS0S1 ho' hq' h =>
    obtain ⟨-, rfl⟩ := hwrite.resolve_right fun hnot =>
      absurd (h.symm.trans hnot.1) (by decide)
    refine ⟨?_, (TcpConnection.sendAll_closed _ _).trans hclosed, hrun, rfl,
      (TcpConnection.sendAll_recvBuf _ _).trans hunread⟩
    intro a hmem
    simp only [List.mem_cons, List.not_mem_nil, or_false] at hmem
    rcases hmem with rfl | rfl <;> trivial
  | wroteS2 ho' hq' h =>
    obtain ⟨-, rfl⟩ := hwrite.resolve_left fun hnot =>
      absurd (h.symm.trans hnot.1) (by decide)
    refine ⟨?_, hclosed, hrun, rfl, hunread⟩
    intro a hmem
    rw [List.mem_singleton] at hmem
    rw [hmem]
    trivial
  | _ => cases he

/-! ## Byte by byte -/

section Bytewise

variable (hone : ∀ b, P [b])

include hone

end Bytewise

/-! ## In memory -/

end ServerContext
