-- SUMMARY: Runs of a server over memory: no access goes wrong, and the receive buffer stays short behind the handshake.
import OmegaStreamer.Rtmp.ServerMemory

/-!
# Runs over memory

A run of a server over its receive buffer is a run of the server over strings of bytes,
and no event that the library can report goes wrong in memory. Once the handshake is
done the vector stays as long as what had arrived until then, or as the longest
incomplete chunk with the room for a read.
-/

open Resumable RtmpSession

open RtmpChunkParse (decoded)

namespace ServerContext

theorem needed_le (ctx : ServerContext) :
    ctx.needed ≤ ctx.connection.recvBuf.length + MsgBuffer.kReadRoom.toNat := by
  unfold needed
  split
  · exact Nat.zero_le _
  · exact Nat.le_refl _

end ServerContext

namespace ServerMemory

open RtmpContext (Action Inv Stepped arrived)
open ServerContext (Event Countable Counted Kept)

variable {env : HandShakeEnv}

/-! ## The start of a run -/

theorem start_eq (env : HandShakeEnv) : ∃ mem, start env = some mem ∧
    Holds mem (ServerContext.start env) ∧ mem.vectorLength = MsgBuffer.kReadRoom.toNat := by
  obtain ⟨buf, hresize, hbytes⟩ := Block.resize_of_le ⟨[], Nat.zero_le _⟩
    (n := kBufferDefaultLength) (by decide)
  have hcreate : MsgBuffer.create = some { buf } := by rw [MsgBuffer.create, hresize]; rfl
  have hlength : buf.bytes.length = MsgBuffer.kReadRoom.toNat := by
    rw [hbytes, Memory.length_resize]
    rfl
  have hempty := MsgBuffer.represents_front buf
  have hroom : MsgBuffer.kReadRoom ≤ MsgBuffer.writableBytes { buf } := by
    rw [UInt64.le_iff_toNat_le, MsgBuffer.toNat_writableBytes hempty.tail_le, hlength]
    exact Nat.le_refl _
  have hprepare : MsgBuffer.prepareRead { buf } = some { buf } := by
    have hensure : MsgBuffer.ensureWritableBytes { buf } MsgBuffer.kReadRoom =
        some ({ buf }, .returned) := if_pos hroom
    rw [MsgBuffer.prepareRead, hensure]
  refine ⟨{ context := ServerContext.start env, recvBuf := { buf } }, ?_,
    ⟨rfl, fun _ => ⟨hempty, hroom⟩⟩, hlength⟩
  simp only [start, hcreate, hprepare, Option.bind_eq_bind, Option.bind_some]

theorem run_eq {mem : ServerMemory} (hstart : start env = some mem) (es : List Event) :
    run env es = (Mealy.run (step env) mem es).map fun (mem, outs) =>
      (mem, outs.flatMap (·.1), outs.flatMap (·.2)) := by
  simp only [run, hstart, Option.bind_eq_bind, Option.bind_some]

/-- A run is one that is shorter by an event, and a step. -/
theorem run_concat_eq_some {es : List Event} {e : Event} {mem : ServerMemory} {t : List Action}
    {effects : List Effect} (h : run env (es ++ [e]) = some (mem, t, effects)) :
    ∃ before t₁ effects₁ acts effects₂, run env es = some (before, t₁, effects₁) ∧
      before.step env e = some (mem, acts, effects₂) ∧ t = t₁ ++ acts ∧
      effects = effects₁ ++ effects₂ := by
  obtain ⟨mem₀, hstart, -⟩ := start_eq env
  rw [run_eq hstart] at h
  obtain ⟨⟨mem', outs⟩, hmealy, heq⟩ := Option.map_eq_some_iff.mp h
  cases heq
  obtain ⟨before, outs₁, ⟨acts, effects₂⟩, hrun, hstep, rfl⟩ := Mealy.run_concat_eq_some hmealy
  refine ⟨before, outs₁.flatMap (·.1), outs₁.flatMap (·.2), acts, effects₂, ?_, hstep, ?_, ?_⟩
  · rw [run_eq hstart, hrun]
    rfl
  · simp
  · simp

/-! ## Safety -/

/-- What is in the buffer has arrived. -/
theorem recvBuf_le_arrived {t : List Action} {ctx : RtmpContext} (hinv : Inv env t ctx) :
    ctx.connection.recvBuf.length ≤ (arrived t).length := by
  have hlen := congrArg List.length hinv.bytes
  rw [List.length_append] at hlen
  omega

/-- A run over memory is one of the server. -/
theorem run_holds {es : List Event} {mem : ServerMemory} {t : List Action}
    {effects : List Effect} (hrun : run env es = some (mem, t, effects))
    (hsize : (arrived t).length + MsgBuffer.kReadRoom.toNat ≤ kMaxObjectSize) :
    ∃ ctx, ServerContext.run env es = some (ctx, t, effects) ∧ Holds mem ctx ∧
      mem.vectorLength ≤ (arrived t).length + MsgBuffer.kReadRoom.toNat := by
  induction es using List.reverseRecOn generalizing mem t effects with
  | nil =>
    obtain ⟨mem₀, hstart, hholds, hlength⟩ := start_eq env
    rw [run_eq hstart] at hrun
    cases hrun
    refine ⟨ServerContext.start env, rfl, hholds, ?_⟩
    rw [hlength]
    exact Nat.le_add_left _ _
  | append_singleton es e ih =>
    obtain ⟨before, t₁, effects₁, acts, effects₂, hrun₁, hstep, rfl, rfl⟩ :=
      run_concat_eq_some hrun
    have harrived := RtmpContext.arrived_append t₁ acts
    rw [harrived, List.length_append] at hsize ⊢
    obtain ⟨ctx, hctx, hholds, hlength⟩ := ih hrun₁ (by omega)
    have hinv := ServerContext.inv_run hctx
    obtain ⟨next, hnext⟩ := hholds.step_of_memory hinv hstep
    have hbase := RtmpContext.step_eq_some hinv.phase.server (ServerContext.step_refines hnext)
    have hbuf := recvBuf_le_arrived (hinv.step hbase)
    rw [harrived, List.length_append] at hbuf
    have hneeded := next.needed_le
    obtain ⟨mem', hmem, hholds', hlength'⟩ :=
      hholds.step hinv (hholds.fits hstep) hnext (by omega)
    rw [hmem] at hstep
    cases hstep
    exact ⟨next, ServerContext.run_concat hctx hnext, hholds', by omega⟩

/-- A server never leaves its vector: what it does in memory is what it does over the bytes
that have arrived, each read finds room, and nothing that the library can report goes wrong
as long as what is left unread has room in memory, with the next read. -/
theorem run_safe {es : List Event} {mem : ServerMemory} {t : List Action}
    {effects : List Effect} (hrun : run env es = some (mem, t, effects))
    (hsize : (arrived t).length + MsgBuffer.kReadRoom.toNat ≤ kMaxObjectSize) :
    ∃ ctx, ServerContext.run env es = some (ctx, t, effects) ∧
      (ctx.terminated = false → MsgBuffer.Ready mem.recvBuf ctx.connection.recvBuf) ∧
      ∀ e next acts effects', mem.Fits e →
        ServerContext.step env ctx e = some (next, acts, effects') →
        next.needed ≤ kMaxObjectSize → ∃ mem', mem.step env e = some (mem', acts, effects') := by
  obtain ⟨ctx, hctx, hholds, -⟩ := run_holds hrun hsize
  refine ⟨ctx, hctx, hholds.ready, fun e next acts effects' hfits hstep hroom => ?_⟩
  obtain ⟨mem', hmem, -, -⟩ :=
    hholds.step (ServerContext.inv_run hctx) hfits hstep hroom
  exact ⟨mem', hmem⟩

/-- What the handshake leaves in the vector is moved to the front, and the vector grows. -/
theorem run_safe_cutClient : ∃ mem t effects ctx,
    run RtmpContext.zeroEnv ServerContext.cutClient = some (mem, t, effects) ∧
      mem.vectorLength = 4116 ∧
      ServerContext.run RtmpContext.zeroEnv ServerContext.cutClient = some (ctx, t, effects) ∧
      (ctx.terminated = false → MsgBuffer.Ready mem.recvBuf ctx.connection.recvBuf) := by
  have hstate : (run RtmpContext.zeroEnv ServerContext.cutClient).any fun r =>
      decide (r.1.vectorLength = 4116 ∧
        (arrived r.2.1).length + MsgBuffer.kReadRoom.toNat ≤ kMaxObjectSize) := by
    decide +kernel
  obtain ⟨⟨mem, t, effects⟩, hrun, h⟩ := (Option.any_eq_true _ _).mp hstate
  obtain ⟨hlength, hsize⟩ := of_decide_eq_true h
  obtain ⟨ctx, hctx, hready, -⟩ := run_safe hrun hsize
  exact ⟨mem, t, effects, ctx, hrun, hlength, hctx, hready⟩

/-! ## The length of the vector -/

/-- Behind the handshake less than the longest chunk is unread. -/
theorem unread_lt {t : List Action} {effects : List Effect} {ctx : ServerContext}
    (hkept : Kept t effects ctx) (hdone : ctx.handShake.state = .done)
    (hrun : ctx.terminated = false) : ctx.connection.recvBuf.length < 65553 := by
  rw [hkept.terminated] at hrun
  rw [hkept.unread hdone]
  exact (RtmpChunkParse.parseOneChunk_sound.resting_readAll RtmpChunkParse.parseOneChunk_short
    RtmpChunkParse.sound_init _).unread hrun

/-- What is given to `Parse` has arrived. -/
theorem given_le_arrived {es : List Event} {t : List Action} {effects : List Effect}
    {ctx : ServerContext} (hrun : ServerContext.run env es = some (ctx, t, effects)) :
    ∀ given left, .parse given left ∈ t → given.length ≤ (arrived t).length := by
  refine (ServerContext.run_induction
    (motive := fun (t : List Action) _ _ => ∀ given left, .parse given left ∈ t →
      given.length ≤ (arrived t).length) ?_ ?_ hrun).2
  · intro given left hmem
    cases hmem
  · intro t effects ctx e next acts effects' hinv ih hstep given left hmem
    have hbase := RtmpContext.step_eq_some hinv.phase.server (ServerContext.step_refines hstep)
    rw [RtmpContext.arrived_append, List.length_append]
    rcases List.mem_append.mp hmem with hmem | hmem
    · have hle := ih given left hmem
      omega
    · have hle := hbase.given_le hmem
      have hbuf := recvBuf_le_arrived hinv
      rw [← hbase.arrived_eq] at hle
      omega

/-- What a run behind the handshake keeps. -/
structure Bounded (env : HandShakeEnv) (n : Nat) (t : List Action) (effects : List Effect)
    (mem : ServerMemory) (ctx : ServerContext) : Prop where
  inv : Inv env t ctx.toRtmpContext
  holds : Holds mem ctx
  kept : Kept t effects ctx
  done : ctx.handShake.state = .done
  countable : Countable t
  length : mem.vectorLength ≤ n

/-- A vector that has room for the longest incomplete chunk and a read is long enough. -/
theorem Bounded.step {n : Nat} {t acts : List Action} {effects effects' : List Effect}
    {mem mem' : ServerMemory} {ctx : ServerContext} {e : Event} (hmin : 69648 ≤ n)
    (hmax : n + 65552 < 2 ^ 31) (h : Bounded env n t effects mem ctx)
    (hstep : mem.step env e = some (mem', acts, effects')) :
    ∃ next, ServerContext.step env ctx e = some (next, acts, effects') ∧
      Bounded env n (t ++ acts) (effects ++ effects') mem' next := by
  obtain ⟨next, hnext⟩ := h.holds.step_of_memory h.inv hstep
  have hbase := RtmpContext.step_eq_some h.inv.phase.server (ServerContext.step_refines hnext)
  have hfits := h.holds.fits hstep
  have hrunning := ServerContext.running_of_step hnext
  have hunread := unread_lt h.kept h.done hrunning
  -- what a read brings has room in the vector
  have hbytes : (e.answered effects').bytes.length ≤ n := by
    cases e with
    | read seg =>
      have hroom := MsgBuffer.toNat_writableBytes (h.holds.ready hrunning).tail_le
      have hlength := h.length
      simp only [Fits, vectorLength] at hfits hlength
      show seg.length ≤ n
      omega
    | _ => exact Nat.zero_le _
  have hcountable : Countable acts := by
    intro a hmem
    cases a with
    | parse given left =>
      have hle := hbase.given_le hmem
      show given.length < 2 ^ 31
      omega
    | _ => trivial
  have hinv' := h.inv.step hbase
  have hkept' := h.kept.step h.inv hnext hcountable
  have hdone' : next.handShake.state = .done :=
    hinv'.done_mem_iff.mp (List.mem_append_left _ (h.inv.done_mem_iff.mpr h.done))
  have hneeded : next.needed ≤ 69648 := by
    unfold ServerContext.needed
    split
    · exact Nat.zero_le _
    · rename_i hrun
      have hlt := unread_lt hkept' hdone' (Bool.eq_false_iff.mpr hrun)
      have hroom : MsgBuffer.kReadRoom.toNat = 4096 := rfl
      omega
  obtain ⟨mem₁, hmem, hholds', hlength⟩ :=
    h.holds.step h.inv hfits hnext (Nat.le_trans hneeded (by decide))
  rw [hmem] at hstep
  cases hstep
  have hn := h.length
  refine ⟨next, hnext, hinv', hholds', hkept', hdone', ?_, by omega⟩
  intro a hmem
  exact (List.mem_append.mp hmem).elim (h.countable a) (hcountable a)

/-- Behind the handshake a vector that is long enough stays as it is. However long a
connection lives, its receive buffer is no longer than what had arrived when the handshake
was done, or than the longest incomplete chunk, with the room for a read. -/
theorem run_bounded {before after : List Event} {mem₀ mem : ServerMemory}
    {t₀ t : List Action} {effects₀ effects : List Effect} {n : Nat}
    (hbefore : run env before = some (mem₀, t₀, effects₀))
    (hdone : mem₀.context.handShake.state = .done)
    (hrun : run env (before ++ after) = some (mem, t, effects))
    (hn : max 69648 ((arrived t₀).length + 4096) ≤ n) (hmax : n + 65552 < 2 ^ 31) :
    mem.vectorLength ≤ n ∧ Countable t ∧
      (mem.context.terminated = false → mem.recvBuf.readableBytes.toNat ≤ 65552) := by
  have hroom : MsgBuffer.kReadRoom.toNat = 4096 := rfl
  have hmaxObject : 2 ^ 31 ≤ kMaxObjectSize := by decide
  have hbounded : ∃ ctx, ServerContext.run env (before ++ after) = some (ctx, t, effects) ∧
      Bounded env n t effects mem ctx := by
    induction after using List.reverseRecOn generalizing mem t effects with
    | nil =>
      rw [List.append_nil] at hrun ⊢
      rw [hbefore] at hrun
      cases hrun
      obtain ⟨ctx, hctx, hholds, hlength⟩ := run_holds hbefore (by omega)
      have hcountable : Countable t₀ := by
        intro a hmem
        cases a with
        | parse given left =>
          have hle := given_le_arrived hctx given left hmem
          show given.length < 2 ^ 31
          omega
        | _ => trivial
      have hstate : ctx.handShake.state = .done := by
        rw [hholds.context] at hdone
        exact hdone
      obtain ⟨hinv, hkept⟩ := ServerContext.run_kept hctx hcountable
      exact ⟨ctx, hctx, hinv, hholds, hkept, hstate, hcountable, by omega⟩
    | append_singleton after e ih =>
      rw [← List.append_assoc] at hrun ⊢
      obtain ⟨mem₁, t₁, effects₁, acts, effects₂, hrun₁, hstep, rfl, rfl⟩ :=
        run_concat_eq_some hrun
      obtain ⟨ctx, hctx, hctxBounded⟩ := ih hrun₁
      obtain ⟨next, hnext, hnextBounded⟩ := hctxBounded.step (by omega) hmax hstep
      exact ⟨next, ServerContext.run_concat hctx hnext, hnextBounded⟩
  obtain ⟨ctx, -, hctx⟩ := hbounded
  refine ⟨hctx.length, hctx.countable, fun hterm => ?_⟩
  have hrunning : ctx.terminated = false := by
    rw [hctx.holds.context] at hterm
    exact hterm
  have hunread := unread_lt hctx.kept hctx.done hrunning
  rw [← (hctx.holds.ready hrunning).toRepresents.length_eq]
  omega

/-- The handshake of this client is done after four of its events. -/
theorem run_bounded_cutClient : ∃ mem t effects,
    run RtmpContext.zeroEnv ServerContext.cutClient = some (mem, t, effects) ∧
      mem.vectorLength ≤ 69648 ∧ Countable t := by
  have hstate : (run RtmpContext.zeroEnv (ServerContext.cutClient.take 4)).any fun r =>
      decide (r.1.context.handShake.state = .done ∧
        max 69648 ((arrived r.2.1).length + 4096) ≤ 69648) := by
    decide +kernel
  obtain ⟨⟨mem₀, t₀, effects₀⟩, hbefore, h⟩ := (Option.any_eq_true _ _).mp hstate
  obtain ⟨hdone, hn⟩ := of_decide_eq_true h
  have hend : (run RtmpContext.zeroEnv ServerContext.cutClient).isSome := by decide +kernel
  obtain ⟨⟨mem, t, effects⟩, hrun⟩ := Option.isSome_iff_exists.mp hend
  have hafter : run RtmpContext.zeroEnv
      (ServerContext.cutClient.take 4 ++ ServerContext.cutClient.drop 4) =
        some (mem, t, effects) := hrun
  obtain ⟨hlength, hcountable, -⟩ :=
    run_bounded hbefore hdone hafter hn (by decide)
  exact ⟨mem, t, effects, hrun, hlength, hcountable⟩

end ServerMemory
