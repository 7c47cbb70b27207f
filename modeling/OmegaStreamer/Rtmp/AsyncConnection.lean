-- SUMMARY: A connection with its outstanding read and write: what the loop still runs after the connection is closed.
import OmegaStreamer.Rtmp.MemoryRuns

/-!
# The outstanding operations of a connection

`doRead` keeps one `async_read_some` outstanding, and `doWrite` at most one
`async_write`. The library ends an operation and hands its handler to the loop, which
runs it later; closing the socket ends what is still pending with an error. The handlers
that run are the events of the server, and after the one that closes the connection
there are only a few of them left.
-/

open RtmpSession

/-- An operation of the library, with what a successful one brings. -/
inductive Operation (α : Type) where
  | pending
  /-- The handler waits for the loop. -/
  | succeeded (result : α)
  | failed
  deriving DecidableEq, Repr

/-- `m_socket.close` ends a pending operation, and a new one on a closed socket fails. -/
def Operation.cancelIf {α : Type} (closed : Bool) : Operation α → Operation α
  | .pending => if closed then .failed else .pending
  | op => op

structure AsyncConnection where
  context : ServerContext
  /-- The read that `doRead` has started. None is started after one that has failed. -/
  reading : Option (Operation Bytes) := some .pending
  /-- How far the outstanding `async_write` is, if there is one. -/
  writing : Operation Unit := .pending

namespace AsyncConnection

open RtmpContext (Action written)
open ServerContext (Event)

/-- What the library and the loop do. -/
inductive Happening where
  | readEnds (seg : Bytes)
  | readBreaks
  | writeEnds
  | writeBreaks
  /-- The loop runs the handler of the read. -/
  | runRead
  /-- The loop runs the handler of the write. -/
  | runWrite
  deriving DecidableEq, Repr

/-- What runs: an event, its trace, and what the message handlers do. -/
abbrev Handled : Type := Event × List Action × List Effect

/-- The context after a handler, with the read started again. -/
def readHandled (conn : AsyncConnection) (ctx : ServerContext) (reading : Option (Operation Bytes)) :
    AsyncConnection where
  context := ctx
  reading := reading.map (Operation.cancelIf ctx.connection.closed)
  -- a write that was not outstanding before has been started by the handler
  writing := (if conn.context.connection.outstanding then conn.writing else .pending).cancelIf
    ctx.connection.closed

/-- The context after the handler of a write. -/
def writeHandled (conn : AsyncConnection) (ctx : ServerContext) : AsyncConnection where
  context := ctx
  reading := conn.reading.map (Operation.cancelIf ctx.connection.closed)
  writing := Operation.pending.cancelIf ctx.connection.closed

/-- The handler of an event, and the connection that it leaves. -/
def handle (env : HandShakeEnv) (conn : AsyncConnection) (e : Event)
    (after : ServerContext → AsyncConnection) : Option (AsyncConnection × List Handled) :=
  (conn.context.step env e).map fun (ctx, acts, effects) => (after ctx, [(e, acts, effects)])

def step (env : HandShakeEnv) (conn : AsyncConnection) :
    Happening → Option (AsyncConnection × List Handled)
  | .readEnds seg =>
    if conn.reading = some .pending ∧ seg ≠ [] then
      some ({ conn with reading := some (.succeeded seg) }, [])
    else none
  | .readBreaks =>
    if conn.reading = some .pending then some ({ conn with reading := some .failed }, []) else none
  | .writeEnds =>
    if conn.context.connection.outstanding ∧ conn.writing = .pending then
      some ({ conn with writing := .succeeded () }, [])
    else none
  | .writeBreaks =>
    if conn.context.connection.outstanding ∧ conn.writing = .pending then
      some ({ conn with writing := .failed }, [])
    else none
  | .runRead =>
    match conn.reading with
    | some (.succeeded seg) =>
      conn.handle env (.read seg) fun ctx => conn.readHandled ctx (some .pending)
    | some .failed => conn.handle env .readFailed fun ctx => conn.readHandled ctx none
    | _ => none
  | .runWrite =>
    if conn.context.connection.outstanding then
      match conn.writing with
      | .succeeded _ => conn.handle env .writeSucceeded conn.writeHandled
      | .failed => conn.handle env .writeFailed conn.writeHandled
      | .pending => none
    else none

def start (env : HandShakeEnv) : AsyncConnection := { context := ServerContext.start env }

/-- A run from `Start`, with the events whose handlers have run. -/
def run (env : HandShakeEnv) (hs : List Happening) : Option (AsyncConnection × List Handled) :=
  (Mealy.run (step env) (start env) hs).map fun (conn, outs) => (conn, outs.flatten)

/-! ## What an event does to the socket -/

theorem doWrite_outstanding {β : Type} {c : TcpConnection β} (h : c.closed = true) :
    c.doWrite.outstanding = c.outstanding := by
  unfold TcpConnection.doWrite
  rw [if_pos (.inr h)]

/-- On a closed socket nothing is written any more. -/
theorem sendAll_outstanding {β : Type} {c : TcpConnection β} (h : c.closed = true)
    (bufs : List β) : (c.sendAll bufs).outstanding = c.outstanding := by
  induction bufs generalizing c with
  | nil => rfl
  | cons buf bufs ih =>
    have hsend : (c.send buf).outstanding = c.outstanding := by
      unfold TcpConnection.send
      simp only
      split
      · exact doWrite_outstanding (c := { c with writeQueue := c.writeQueue ++ [buf] }) h
      · rfl
    have hrest := ih (c := c.send buf) ((TcpConnection.send_closed c buf).trans h)
    exact hrest.trans hsend

theorem writeSucceeded_outstanding {β : Type} {c : TcpConnection β} (h : c.closed = true) :
    c.writeSucceeded.1.outstanding = false := by
  unfold TcpConnection.writeSucceeded
  simp only
  split
  · rfl
  · exact doWrite_outstanding (c := { c with writeQueue := c.writeQueue.tail, outstanding := false }) h

/-- What an event does to the socket and to the outstanding write. -/
structure SocketStep (before after : TcpConnection Outgoing) (e : Event) : Prop where
  closed : before.closed = true → after.closed = true
  closed_of_failed : e = .readFailed ∨ e = .writeFailed → after.closed = true
  open_of_written : e = .writeSucceeded → after.closed = before.closed
  outstanding : before.closed = true → after.outstanding = true → before.outstanding = true
  outstanding_of_written : before.closed = true → e = .writeSucceeded → after.outstanding = false
  outstanding_of_failed : e = .writeFailed → after.outstanding = false

theorem socketStep_moved (ctx : RtmpContext) {hs : RtmpHandShake} {buf seg : Bytes}
    {outs : List Outgoing} :
    SocketStep ctx.connection (ctx.moved hs buf outs).connection (.read seg) where
  closed h := (TcpConnection.sendAll_closed _ _).trans h
  closed_of_failed h := by simp at h
  open_of_written h := by simp at h
  outstanding h ho := by
    have hsame := sendAll_outstanding (c := { ctx.connection with recvBuf := buf }) h outs
    exact hsame.symm.trans ho
  outstanding_of_written _ h := by simp at h
  outstanding_of_failed h := by simp at h

/-- Closing the socket ends in a closed socket. -/
theorem socketStep_closed {before after : TcpConnection Outgoing} {e : Event}
    (hclosed : after.closed = true) (hnot : e ≠ .writeSucceeded)
    (ho : after.outstanding = true → before.outstanding = true)
    (hfailed : e = .writeFailed → after.outstanding = false) : SocketStep before after e where
  closed _ := hclosed
  closed_of_failed _ := hclosed
  open_of_written h := absurd h hnot
  outstanding _ := ho
  outstanding_of_written _ h := absurd h hnot
  outstanding_of_failed := hfailed

/-- The handler of a write may start the next one on an open socket. -/
theorem socketStep_written {before after : TcpConnection Outgoing}
    (hclosed : after.closed = before.closed)
    (ho : before.closed = true → after.outstanding = false) :
    SocketStep before after .writeSucceeded where
  closed h := hclosed.trans h
  closed_of_failed h := by simp at h
  open_of_written _ := hclosed
  outstanding h ho' := by
    rw [ho h] at ho'
    cases ho'
  outstanding_of_written h _ := ho h
  outstanding_of_failed h := by simp at h

theorem socketStep {env : HandShakeEnv} {ctx next : RtmpContext} {e : Event}
    {effects : List Effect} {acts : List Action}
    (h : RtmpContext.Stepped env ctx (e.answered effects) next acts) :
    SocketStep ctx.connection next.connection e := by
  cases e with
  | read seg =>
    simp only [Event.answered] at h
    cases h with
    | idle => exact socketStep_moved ctx
    | accept => exact socketStep_moved ctx
    | refuse => exact socketStep_closed rfl (by simp) id (by simp)
    | finish => exact socketStep_moved { ctx with hasMessageCallback := true }
    | @finishParse _ _ _ _ hs chunkParse terminated =>
      exact socketStep_moved { ctx with hasMessageCallback := true, chunkParse, terminated }
    | @parse _ _ _ _ chunkParse terminated =>
      exact socketStep_moved { ctx with chunkParse, terminated }
  | readFailed =>
    simp only [Event.answered] at h
    cases h
    exact socketStep_closed rfl (by simp) id (by simp)
  | writeSucceeded =>
    simp only [Event.answered] at h
    cases h with
    | wrote ho hq h =>
      exact socketStep_written (TcpConnection.writeSucceeded_closed _) writeSucceeded_outstanding
    | wroteS0S1 ho hq h =>
      refine socketStep_written ((TcpConnection.sendAll_closed _ _).trans
        (TcpConnection.writeSucceeded_closed _)) fun hclosed => ?_
      have hsame := sendAll_outstanding
        ((TcpConnection.writeSucceeded_closed ctx.connection).trans hclosed)
        [⟨.packet .c2s2, ctx.handShake.c2s2⟩]
      exact hsame.trans (writeSucceeded_outstanding hclosed)
    | wroteS2 ho hq h =>
      exact socketStep_written (TcpConnection.writeSucceeded_closed _) writeSucceeded_outstanding
  | writeFailed =>
    simp only [Event.answered] at h
    cases h
    exact socketStep_closed rfl (by simp)
      (by simp [TcpConnection.writeFailed, TcpConnection.close]) (fun _ => rfl)

/-! ## What is left to run -/

/-- No operation is pending on a closed socket. -/
structure Ended (conn : AsyncConnection) : Prop where
  reading : conn.reading ≠ some .pending
  writing : conn.context.connection.outstanding = true → conn.writing ≠ .pending

/-- The handlers that a read can still lead to on a closed socket. -/
def readsLeft : Option (Operation Bytes) → Nat
  | some (.succeeded _) => 2
  | some _ => 1
  | none => 0

/-- The segments that a read can still bring on a closed socket. -/
def segmentsLeft : Option (Operation Bytes) → Nat
  | some (.succeeded _) => 1
  | _ => 0

def writesLeft (c : TcpConnection Outgoing) : Nat := if c.outstanding then 1 else 0

/-- The handlers that can still run on a closed socket. -/
def remaining (conn : AsyncConnection) : Nat :=
  readsLeft conn.reading + writesLeft conn.context.connection

/-- The segments that the message callback has been given. -/
def given (es : List Event) : List Bytes :=
  es.filterMap fun
    | .read seg => some seg
    | _ => none

theorem cancelIf_true_ne_pending {α : Type} (op : Operation α) : op.cancelIf true ≠ .pending := by
  cases op <;> simp [Operation.cancelIf]

theorem left_cancelIf (closed : Bool) (reading : Option (Operation Bytes)) :
    readsLeft (reading.map (Operation.cancelIf closed)) = readsLeft reading ∧
      segmentsLeft (reading.map (Operation.cancelIf closed)) = segmentsLeft reading := by
  cases reading with
  | none => exact ⟨rfl, rfl⟩
  | some op => cases op <;> cases closed <;> exact ⟨rfl, rfl⟩

theorem writesLeft_le_one (c : TcpConnection Outgoing) : writesLeft c ≤ 1 := by
  unfold writesLeft
  split <;> omega

theorem writesLeft_of_not {c : TcpConnection Outgoing} (h : c.outstanding = false) :
    writesLeft c = 0 := by
  rw [writesLeft, h, if_neg Bool.false_ne_true]

theorem writesLeft_of_outstanding {c : TcpConnection Outgoing} (h : c.outstanding = true) :
    writesLeft c = 1 :=
  if_pos h

/-- No write is started on a closed socket. -/
theorem SocketStep.writesLeft_le {before after : TcpConnection Outgoing} {e : Event}
    (h : SocketStep before after e) (hclosed : before.closed = true) :
    writesLeft after ≤ writesLeft before := by
  cases ho : after.outstanding with
  | false =>
    rw [writesLeft_of_not ho]
    exact Nat.zero_le _
  | true =>
    rw [writesLeft_of_outstanding ho, writesLeft_of_outstanding (h.outstanding hclosed ho)]

/-- What runs in a handler is an event of the context. -/
theorem handle_eq_some {env : HandShakeEnv} {conn conn' : AsyncConnection} {e : Event}
    {after : ServerContext → AsyncConnection} {handled : List Handled}
    (h : conn.handle env e after = some (conn', handled)) :
    ∃ ctx acts effects, ServerContext.step env conn.context e = some (ctx, acts, effects) ∧
      conn' = after ctx ∧ handled = [(e, acts, effects)] := by
  obtain ⟨⟨ctx, acts, effects⟩, hstep, heq⟩ := Option.map_eq_some_iff.mp h
  cases heq
  exact ⟨ctx, acts, effects, hstep, rfl, rfl⟩

/-- The handler of which operation has run, and what it leaves. -/
inductive Ran (conn : AsyncConnection) (ctx : ServerContext) : Event → AsyncConnection → Prop where
  | read {seg : Bytes} (h : conn.reading = some (.succeeded seg)) :
      Ran conn ctx (.read seg) (conn.readHandled ctx (some .pending))
  | readFailed (h : conn.reading = some .failed) :
      Ran conn ctx .readFailed (conn.readHandled ctx none)
  | writeSucceeded (ho : conn.context.connection.outstanding = true) :
      Ran conn ctx .writeSucceeded (conn.writeHandled ctx)
  | writeFailed (ho : conn.context.connection.outstanding = true) :
      Ran conn ctx .writeFailed (conn.writeHandled ctx)

/-- The library ends a pending operation, or the loop runs a handler. -/
inductive Stepped (env : HandShakeEnv) (conn : AsyncConnection) :
    Happening → AsyncConnection → List Handled → Prop where
  | readEnds {seg : Bytes} (h : conn.reading = some .pending) :
      Stepped env conn (.readEnds seg) { conn with reading := some (.succeeded seg) } []
  | readBreaks (h : conn.reading = some .pending) :
      Stepped env conn .readBreaks { conn with reading := some .failed } []
  | write {hap : Happening} {writing : Operation Unit}
      (ho : conn.context.connection.outstanding = true) (h : conn.writing = .pending)
      (hhap : ∀ seg, hap ≠ .readEnds seg) :
      Stepped env conn hap { conn with writing } []
  | handler {hap : Happening} {e : Event} {ctx : ServerContext} {acts : List Action}
      {effects : List Effect} {conn' : AsyncConnection}
      (hstep : ServerContext.step env conn.context e = some (ctx, acts, effects))
      (hran : Ran conn ctx e conn') (hhap : ∀ seg, hap ≠ .readEnds seg) :
      Stepped env conn hap conn' [(e, acts, effects)]

theorem step_eq_some {env : HandShakeEnv} {conn conn' : AsyncConnection} {hap : Happening}
    {handled : List Handled} (h : conn.step env hap = some (conn', handled)) :
    Stepped env conn hap conn' handled := by
  cases hap with
  | readEnds seg =>
    simp only [step] at h
    split at h
    · rename_i hpending
      cases h
      exact .readEnds hpending.1
    · cases h
  | readBreaks =>
    simp only [step] at h
    split at h
    · rename_i hpending
      cases h
      exact .readBreaks hpending
    · cases h
  | writeEnds =>
    simp only [step] at h
    split at h
    · rename_i hpending
      cases h
      exact .write hpending.1 hpending.2 nofun
    · cases h
  | writeBreaks =>
    simp only [step] at h
    split at h
    · rename_i hpending
      cases h
      exact .write hpending.1 hpending.2 nofun
    · cases h
  | runRead =>
    simp only [step] at h
    split at h
    · rename_i seg hreading
      obtain ⟨ctx, acts, effects, hstep, rfl, rfl⟩ := handle_eq_some h
      exact .handler hstep (.read hreading) nofun
    · rename_i hreading
      obtain ⟨ctx, acts, effects, hstep, rfl, rfl⟩ := handle_eq_some h
      exact .handler hstep (.readFailed hreading) nofun
    · cases h
  | runWrite =>
    simp only [step] at h
    split at h
    · rename_i ho
      split at h
      · obtain ⟨ctx, acts, effects, hstep, rfl, rfl⟩ := handle_eq_some h
        exact .handler hstep (.writeSucceeded ho) nofun
      · obtain ⟨ctx, acts, effects, hstep, rfl, rfl⟩ := handle_eq_some h
        exact .handler hstep (.writeFailed ho) nofun
      · cases h
    · cases h

namespace Ran

variable {conn conn' : AsyncConnection} {ctx : ServerContext} {e : Event}

theorem context_eq (h : Ran conn ctx e conn') : conn'.context = ctx := by
  cases h <;> rfl

/-- Whatever has closed the socket has ended what was pending. -/
theorem ended (h : Ran conn ctx e conn') (hclosed : ctx.connection.closed = true) :
    Ended conn' := by
  have hreading (op : Option (Operation Bytes)) :
      op.map (Operation.cancelIf true) ≠ some .pending := by
    cases op with
    | none => simp
    | some op => simpa using cancelIf_true_ne_pending op
  cases h with
  | read =>
    simp only [readHandled, hclosed]
    exact ⟨hreading (some .pending), fun _ => cancelIf_true_ne_pending _⟩
  | readFailed =>
    simp only [readHandled, hclosed]
    exact ⟨hreading none, fun _ => cancelIf_true_ne_pending _⟩
  | writeSucceeded =>
    simp only [writeHandled, hclosed]
    exact ⟨hreading conn.reading, fun _ => cancelIf_true_ne_pending .pending⟩
  | writeFailed =>
    simp only [writeHandled, hclosed]
    exact ⟨hreading conn.reading, fun _ => cancelIf_true_ne_pending .pending⟩

/-- On a closed socket every handler leaves one handler less to run, and only a read that
has succeeded brings a segment. -/
theorem remaining_lt (h : Ran conn ctx e conn')
    (hstep : SocketStep conn.context.connection ctx.connection e)
    (hclosed : conn.context.connection.closed = true) :
    remaining conn' + 1 ≤ remaining conn ∧
      segmentsLeft conn'.reading + (given [e]).length = segmentsLeft conn.reading := by
  have hwrites := hstep.writesLeft_le hclosed
  cases h with
  | @read seg hreading =>
    obtain ⟨hreads, hsegments⟩ := left_cancelIf ctx.connection.closed (some .pending)
    simp only [remaining, readHandled, hreads, hsegments, hreading]
    exact ⟨by simp only [readsLeft]; omega, rfl⟩
  | readFailed hreading =>
    obtain ⟨hreads, hsegments⟩ := left_cancelIf ctx.connection.closed none
    simp only [remaining, readHandled, hreads, hsegments, hreading]
    exact ⟨by simp only [readsLeft]; omega, rfl⟩
  | writeSucceeded hwas =>
    obtain ⟨hreads, hsegments⟩ := left_cancelIf ctx.connection.closed conn.reading
    have hnone := writesLeft_of_not (hstep.outstanding_of_written hclosed rfl)
    simp only [remaining, writeHandled, hreads, hsegments, hnone, writesLeft_of_outstanding hwas]
    exact ⟨Nat.le_refl _, rfl⟩
  | writeFailed hwas =>
    obtain ⟨hreads, hsegments⟩ := left_cancelIf ctx.connection.closed conn.reading
    have hnone := writesLeft_of_not (hstep.outstanding_of_failed rfl)
    simp only [remaining, writeHandled, hreads, hsegments, hnone, writesLeft_of_outstanding hwas]
    exact ⟨Nat.le_refl _, rfl⟩

/-- The handler that closes the socket leaves at most two others, and a segment only if it
was the handler of a write. -/
theorem remaining_of_closing (h : Ran conn ctx e conn')
    (hstep : SocketStep conn.context.connection ctx.connection e)
    (hopen : conn.context.connection.closed = false) (hclosed : ctx.connection.closed = true) :
    remaining conn' ≤ 2 ∧ segmentsLeft conn'.reading ≤ if e = .writeFailed then 1 else 0 := by
  have hone := writesLeft_le_one ctx.connection
  cases h with
  | @read seg hreading =>
    obtain ⟨hreads, hsegments⟩ := left_cancelIf ctx.connection.closed (some .pending)
    simp only [remaining, readHandled, hreads, hsegments]
    exact ⟨by simp only [readsLeft]; omega, Nat.zero_le _⟩
  | readFailed hreading =>
    obtain ⟨hreads, hsegments⟩ := left_cancelIf ctx.connection.closed none
    simp only [remaining, readHandled, hreads, hsegments]
    exact ⟨by simp only [readsLeft]; omega, Nat.zero_le _⟩
  | writeSucceeded hwas =>
    have hsame := hstep.open_of_written rfl
    rw [hclosed, hopen] at hsame
    cases hsame
  | writeFailed hwas =>
    obtain ⟨hreads, hsegments⟩ := left_cancelIf ctx.connection.closed conn.reading
    have hnone := writesLeft_of_not (hstep.outstanding_of_failed rfl)
    simp only [remaining, writeHandled, hreads, hsegments, hnone, if_true]
    cases conn.reading with
    | none => exact ⟨Nat.zero_le _, Nat.zero_le _⟩
    | some op => cases op <;> simp [readsLeft, segmentsLeft]

end Ran

/-! ## Runs -/

/-- The events whose handlers have run. -/
def events (handled : List Handled) : List Event := handled.map (·.1)

/-- The segments that the library has read. -/
def segments (hs : List Happening) : List Bytes :=
  hs.filterMap fun
    | .readEnds seg => some seg
    | _ => none

/-- The segment whose handler waits for the loop. -/
def waiting (conn : AsyncConnection) : List Bytes :=
  match conn.reading with
  | some (.succeeded seg) => [seg]
  | _ => []

/-- The connection is open after some events, and the next one closes it. -/
def ClosesAt (env : HandShakeEnv) (before : List Event) (e : Event) : Prop :=
  ∃ ctx t effects next t' effects', ServerContext.run env before = some (ctx, t, effects) ∧
    ctx.connection.closed = false ∧
    ServerContext.run env (before ++ [e]) = some (next, t', effects') ∧
    next.connection.closed = true

/-- What an asynchronous run has come to. -/
structure Lived (env : HandShakeEnv) (hs : List Happening) (handled : List Handled)
    (conn : AsyncConnection) : Prop where
  served : ServerContext.run env (events handled) =
    some (conn.context, handled.flatMap (·.2.1), handled.flatMap (·.2.2))
  /-- Every segment is given to the callback once, in order. -/
  segments : segments hs = given (events handled) ++ conn.waiting
  ended : conn.context.connection.closed = true → Ended conn
  closing : ∀ before e after, events handled = before ++ e :: after → ClosesAt env before e →
    after.length + remaining conn ≤ 2 ∧
      (given after).length + segmentsLeft conn.reading ≤ if e = .writeFailed then 1 else 0

theorem closed_of_append {env : HandShakeEnv} {es more : List Event} {ctx ctx' : ServerContext}
    {t t' : List Action} {effects effects' : List Effect}
    (hrun : ServerContext.run env es = some (ctx, t, effects))
    (hmore : ServerContext.run env (es ++ more) = some (ctx', t', effects'))
    (hclosed : ctx.connection.closed = true) : ctx'.connection.closed = true := by
  induction more using List.reverseRecOn generalizing ctx' t' effects' with
  | nil =>
    rw [List.append_nil, hrun] at hmore
    cases hmore
    exact hclosed
  | append_singleton more e ih =>
    rw [← List.append_assoc] at hmore
    obtain ⟨ctx₁, t₁, effects₁, acts, effects₂, hrun₁, hstep, -, -⟩ :=
      ServerContext.run_concat_eq_some hmore
    have hbase := RtmpContext.step_eq_some (ServerContext.inv_run hrun₁).phase.server
      (ServerContext.step_refines hstep)
    exact (socketStep hbase).closed (ih hrun₁)

theorem segments_append (hs hs' : List Happening) :
    segments (hs ++ hs') = segments hs ++ segments hs' :=
  List.filterMap_append

theorem given_append (es es' : List Event) : given (es ++ es') = given es ++ given es' :=
  List.filterMap_append

theorem segments_of_ne {hap : Happening} (h : ∀ seg, hap ≠ .readEnds seg) :
    segments [hap] = [] := by
  cases hap with
  | readEnds seg => exact absurd rfl (h seg)
  | _ => rfl

/-- The segment of the read, if its handler runs, is the one that has waited. -/
theorem Ran.waiting_eq {conn conn' : AsyncConnection} {ctx : ServerContext} {e : Event}
    (h : Ran conn ctx e conn') : conn.waiting = given [e] ++ conn'.waiting := by
  have hcancel (closed : Bool) (op : Option (Operation Bytes)) :
      waiting { conn with reading := op.map (Operation.cancelIf closed) } =
        waiting { conn with reading := op } := by
    cases op with
    | none => rfl
    | some op => cases op <;> cases closed <;> rfl
  cases h with
  | read hreading =>
    have hnone := hcancel ctx.connection.closed (some .pending)
    simp only [waiting, readHandled, hreading] at hnone ⊢
    rw [hnone]
    rfl
  | readFailed hreading =>
    simp only [waiting, readHandled, hreading]
    rfl
  | writeSucceeded => exact (hcancel ctx.connection.closed conn.reading).symm
  | writeFailed => exact (hcancel ctx.connection.closed conn.reading).symm

section Lived

variable {env : HandShakeEnv} {hs : List Happening} {hap : Happening} {handled : List Handled}
  {conn conn' : AsyncConnection}

/-- The end of an operation changes nothing for the events. It does not come on a closed
socket, where nothing is pending. -/
theorem Lived.library (h : Lived env hs handled conn) (hctx : conn'.context = conn.context)
    (hpending : conn.reading = some .pending ∨
      conn.context.connection.outstanding = true ∧ conn.writing = .pending)
    (hwaiting : conn'.waiting = conn.waiting ++ AsyncConnection.segments [hap]) :
    Lived env (hs ++ [hap]) handled conn' := by
  have hopen : conn.context.connection.closed = false := by
    cases hclosed : conn.context.connection.closed with
    | false => rfl
    | true =>
      have hended := h.ended hclosed
      rcases hpending with hreading | ⟨ho, hwriting⟩
      · exact absurd hreading hended.reading
      · exact absurd hwriting (hended.writing ho)
  refine ⟨?_, ?_, fun hclosed => ?_, fun before e after hsplit hcloses => ?_⟩
  · rw [hctx]
    exact h.served
  · rw [segments_append, h.segments, hwaiting, List.append_assoc]
  · rw [hctx, hopen] at hclosed
    cases hclosed
  · obtain ⟨-, -, -, next, t', effects', -, -, hnext, hclosed⟩ := hcloses
    have hserved := h.served
    rw [hsplit, List.append_cons] at hserved
    have hlater := closed_of_append hnext hserved hclosed
    rw [hopen] at hlater
    cases hlater

theorem Lived.handler (h : Lived env hs handled conn) {e : Event} {ctx : ServerContext}
    {acts : List Action} {effects : List Effect}
    (hstep : ServerContext.step env conn.context e = some (ctx, acts, effects))
    (hran : Ran conn ctx e conn') (hhap : ∀ seg, hap ≠ .readEnds seg) :
    Lived env (hs ++ [hap]) (handled ++ [(e, acts, effects)]) conn' := by
  have hinv := ServerContext.inv_run h.served
  have hsocket := socketStep
    (RtmpContext.step_eq_some hinv.phase.server (ServerContext.step_refines hstep))
  have hevents : events (handled ++ [(e, acts, effects)]) = events handled ++ [e] :=
    List.map_append
  have hserved := ServerContext.run_concat h.served hstep
  refine ⟨?_, ?_, fun hclosed => ?_, fun before e' after hsplit hcloses => ?_⟩
  · rw [hevents, hran.context_eq, hserved]
    simp
  · rw [segments_append, segments_of_ne hhap, List.append_nil, h.segments, hevents, given_append,
      hran.waiting_eq, List.append_assoc]
  · exact hran.ended (hran.context_eq ▸ hclosed)
  · rw [hevents] at hsplit
    rcases List.eq_nil_or_concat' after with rfl | ⟨after', last, rfl⟩
    · -- the handler is the one that closes the socket
      obtain ⟨hbefore, hlast⟩ := List.append_inj' hsplit rfl
      cases hlast
      obtain ⟨was, t, effects', next, t', effects'', hwas, hopen, hnext, hclosed⟩ := hcloses
      rw [← hbefore, h.served] at hwas
      rw [← hbefore, hserved] at hnext
      cases hwas
      cases hnext
      obtain ⟨hleft, hsegments⟩ := hran.remaining_of_closing hsocket hopen hclosed
      refine ⟨?_, ?_⟩
      · rw [List.length_nil]
        omega
      · rw [given, List.filterMap_nil, List.length_nil, Nat.zero_add]
        exact hsegments
    · rw [← List.cons_append, ← List.append_assoc] at hsplit
      obtain ⟨hbefore, hlast⟩ := List.append_inj' hsplit rfl
      cases hlast
      obtain ⟨hleft, hsegments⟩ := h.closing before e' after' hbefore hcloses
      obtain ⟨-, -, -, next, t', effects', -, -, hnext, hclosed⟩ := hcloses
      have hafter := h.served
      rw [hbefore, List.append_cons] at hafter
      obtain ⟨hless, hsame⟩ := hran.remaining_lt hsocket (closed_of_append hnext hafter hclosed)
      rw [given_append, List.length_append, List.length_append, List.length_singleton]
      omega

end Lived

/-- Every run of a connection with its operations has come to such a point. -/
theorem lived_run {env : HandShakeEnv} {hs : List Happening} {conn : AsyncConnection}
    {handled : List Handled} (hrun : run env hs = some (conn, handled)) :
    Lived env hs handled conn := by
  obtain ⟨⟨conn', outs⟩, hmealy, heq⟩ := Option.map_eq_some_iff.mp hrun
  cases heq
  have hstart : Lived env [] [] (start env) := by
    refine ⟨rfl, rfl, fun h => ?_, fun before e after h => ?_⟩
    · cases h
    · simp [events] at h
  refine Mealy.run_induction
    (motive := fun (hs : List Happening) (outs : List (List Handled)) (conn : AsyncConnection) =>
      Lived env hs outs.flatten conn) hstart ?_ hmealy
  intro hs outs conn hap conn' handled _ ih hstep
  rw [List.flatten_concat]
  have hstepped := step_eq_some hstep
  cases hstepped with
  | @readEnds seg h =>
    rw [List.append_nil]
    refine ih.library rfl (.inl h) ?_
    simp only [waiting, h]
    rfl
  | readBreaks h =>
    rw [List.append_nil]
    refine ih.library rfl (.inl h) ?_
    simp only [waiting, h]
    rfl
  | write ho h hhap =>
    rw [List.append_nil]
    refine ih.library rfl (.inr ⟨ho, h⟩) ?_
    rw [segments_of_ne hhap, List.append_nil]
    rfl
  | handler hserved hran hhap => exact ih.handler hserved hran hhap

/-! ## After the close -/

/-- What can still be seen behind the close when no segment is left: `Close` is called again,
and a write that was outstanding ends, for which the handshake may queue its answer. -/
inductive Trails (ctx : RtmpContext) : Action → Prop where
  | close : Trails ctx .close
  | written {out : Outgoing} {rest : List Outgoing} (ho : ctx.connection.outstanding = true)
      (hq : ctx.connection.writeQueue = out :: rest) : Trails ctx (.written out)
  | s2 (ho : ctx.connection.outstanding = true) (hs : ctx.handShake.state = .postS0S1) :
      Trails ctx (.send ⟨.packet .c2s2, ctx.handShake.c2s2⟩)

/-- What some events do behind the close. -/
structure Behind (ctx next : RtmpContext) (es : List Event) (acts : List Action)
    (effects : List Effect) : Prop where
  /-- Only an outstanding write can still be completed. -/
  written : (written acts).length + writesLeft next.connection ≤ writesLeft ctx.connection
  /-- It is the same write, and the handshake waits for it. -/
  still : given es = [] → next.connection.outstanding = true →
    ctx.connection.outstanding = true ∧
      next.connection.writeQueue = ctx.connection.writeQueue ∧ next.handShake = ctx.handShake
  quiet : given es = [] → effects = [] ∧ ∀ a ∈ acts, Trails ctx a

/-- No write is completed by a read. -/
theorem written_of_read {env : HandShakeEnv} {ctx next : RtmpContext} {seg : Bytes}
    {replies : List Bytes} {acts : List Action}
    (h : RtmpContext.Stepped env ctx (.read seg replies) next acts) : written acts = [] := by
  have hreplies := RtmpContext.written_map_send (RtmpContext.answers replies)
  cases h with
  | finishParse => exact hreplies
  | parse => exact hreplies
  | _ => rfl

/-- One event on a closed socket. -/
theorem behind_step {env : HandShakeEnv} {ctx next : ServerContext} {e : Event}
    {acts : List Action} {effects : List Effect}
    (hbase : RtmpContext.Stepped env ctx.toRtmpContext (e.answered effects) next.toRtmpContext acts)
    (hclosed : ctx.connection.closed = true)
    (hstep : ServerContext.step env ctx e = some (next, acts, effects)) :
    Behind ctx.toRtmpContext next.toRtmpContext [e] acts effects := by
  have hsocket := socketStep hbase
  have hwrites := hsocket.writesLeft_le hclosed
  have heffects (h : given [e] = []) : effects = [] := by
    refine ServerContext.effects_of_closed hclosed (fun seg hread => ?_) hstep
    rw [hread] at h
    cases h
  cases e with
  | read seg =>
    refine ⟨?_, nofun, nofun⟩
    rw [written_of_read hbase, List.length_nil, Nat.zero_add]
    exact hwrites
  | readFailed =>
    simp only [Event.answered] at hbase
    generalize hnext : next.toRtmpContext = after at hbase hwrites
    cases hbase
    have hnone : written [Action.close] = [] := rfl
    refine ⟨?_, fun _ ho => ⟨ho, rfl, rfl⟩, fun h => ⟨heffects h, ?_⟩⟩
    · rw [hnone, List.length_nil, Nat.zero_add]
      exact hwrites
    · rintro a (_ | ⟨_, ⟨⟩⟩)
      exact .close
  | writeSucceeded =>
    have hdone := hsocket.outstanding_of_written hclosed rfl
    have hleft := writesLeft_of_not hdone
    have hstill : next.connection.outstanding = true → False := fun ho => by
      rw [hdone] at ho
      cases ho
    simp only [Event.answered] at hbase
    generalize hnext : next.toRtmpContext = after at *
    cases hbase with
    | wrote ho hq h =>
      refine ⟨?_, fun _ h => (hstill h).elim, fun h => ⟨heffects h, ?_⟩⟩
      · rw [hleft, writesLeft_of_outstanding ho]
        rfl
      · rintro a (_ | ⟨_, ⟨⟩⟩)
        exact .written ho hq
    | wroteS0S1 ho hq h =>
      refine ⟨?_, fun _ h => (hstill h).elim, fun h' => ⟨heffects h', ?_⟩⟩
      · rw [hleft, writesLeft_of_outstanding ho]
        rfl
      · rintro a (_ | ⟨_, _ | ⟨_, ⟨⟩⟩⟩)
        · exact .written ho hq
        · exact .s2 ho h
    | wroteS2 ho hq h =>
      refine ⟨?_, fun _ h => (hstill h).elim, fun h => ⟨heffects h, ?_⟩⟩
      · rw [hleft, writesLeft_of_outstanding ho]
        rfl
      · rintro a (_ | ⟨_, ⟨⟩⟩)
        exact .written ho hq
  | writeFailed =>
    have hdone := hsocket.outstanding_of_failed rfl
    simp only [Event.answered] at hbase
    generalize hnext : next.toRtmpContext = after at *
    cases hbase
    have hnone : written [Action.close] = [] := rfl
    refine ⟨?_, fun _ ho => ?_, fun h => ⟨heffects h, ?_⟩⟩
    · rw [hnone, List.length_nil, Nat.zero_add]
      exact hwrites
    · rw [hdone] at ho
      cases ho
    · rintro a (_ | ⟨_, ⟨⟩⟩)
      exact .close

/-- What happens later happens behind the close, too. -/
theorem Behind.append {ctx mid next : RtmpContext} {es es' : List Event}
    {acts acts' : List Action} {effects effects' : List Effect}
    (h : Behind ctx mid es acts effects) (h' : Behind mid next es' acts' effects') :
    Behind ctx next (es ++ es') (acts ++ acts') (effects ++ effects') where
  written := by
    have hfirst := h.written
    have hsecond := h'.written
    rw [RtmpContext.written_append, List.length_append]
    omega
  still hnone ho := by
    rw [given_append, List.append_eq_nil_iff] at hnone
    obtain ⟨hmid, hqueue', hshake'⟩ := h'.still hnone.2 ho
    obtain ⟨hctx, hqueue, hshake⟩ := h.still hnone.1 hmid
    exact ⟨hctx, hqueue'.trans hqueue, hshake'.trans hshake⟩
  quiet hnone := by
    rw [given_append, List.append_eq_nil_iff] at hnone
    obtain ⟨rfl, htrails⟩ := h.quiet hnone.1
    obtain ⟨rfl, htrails'⟩ := h'.quiet hnone.2
    refine ⟨rfl, List.forall_mem_append.mpr ⟨htrails, fun a ha => ?_⟩⟩
    -- a write that is outstanding now was so at the close
    cases htrails' a ha with
    | close => exact .close
    | written ho hq =>
      obtain ⟨hctx, hqueue, -⟩ := h.still hnone.1 ho
      exact .written hctx (hqueue.symm.trans hq)
    | s2 ho hs =>
      obtain ⟨hctx, -, hshake⟩ := h.still hnone.1 ho
      rw [hshake] at hs ⊢
      exact .s2 hctx hs

/-- A run goes on behind the close. -/
theorem behind_run {env : HandShakeEnv} {es more : List Event} {ctx ctx' : ServerContext}
    {t t' : List Action} {effects effects' : List Effect}
    (hrun : ServerContext.run env es = some (ctx, t, effects))
    (hmore : ServerContext.run env (es ++ more) = some (ctx', t', effects'))
    (hclosed : ctx.connection.closed = true) :
    ∃ acts later, t' = t ++ acts ∧ effects' = effects ++ later ∧
      Behind ctx.toRtmpContext ctx'.toRtmpContext more acts later := by
  induction more using List.reverseRecOn generalizing ctx' t' effects' with
  | nil =>
    rw [List.append_nil, hrun] at hmore
    cases hmore
    exact ⟨[], [], by simp, by simp, by simp [RtmpContext.written], fun _ ho => ⟨ho, rfl, rfl⟩,
      fun _ => ⟨rfl, nofun⟩⟩
  | append_singleton more e ih =>
    rw [← List.append_assoc] at hmore
    obtain ⟨ctx₁, t₁, effects₁, acts, effects₂, hrun₁, hstep, rfl, rfl⟩ :=
      ServerContext.run_concat_eq_some hmore
    obtain ⟨acts₁, later, rfl, rfl, hbehind⟩ := ih hrun₁
    have hbase := RtmpContext.step_eq_some (ServerContext.inv_run hrun₁).phase.server
      (ServerContext.step_refines hstep)
    have hlast := behind_step hbase (closed_of_append hrun hrun₁ hclosed) hstep
    exact ⟨acts₁ ++ acts, later ++ effects₂, List.append_assoc .., List.append_assoc ..,
      hbehind.append hlast⟩

/-- What is left once an event has closed the connection. -/
structure WindsDown (env : HandShakeEnv) (before : List Event) (e : Event) (after : List Event)
    (t : List Action) (effects : List Effect) : Prop where
  /-- The other operations have their handlers run. -/
  handlers : after.length ≤ 2
  /-- A message callback after the close needs a write that has failed, while a read had
  already succeeded. Its messages are handled behind `onClose`. -/
  segments : (given after).length ≤ if e = .writeFailed then 1 else 0
  /-- Whatever is sent then, only the write that was outstanding at the close can still be
  completed. Unless a segment is handled, there is nothing else to be seen. -/
  behind : ∃ ctx closing now acts later,
    ServerContext.run env (before ++ [e]) = some (ctx, closing, now) ∧
      t = closing ++ acts ∧ effects = now ++ later ∧
      (written acts).length ≤ writesLeft ctx.connection ∧
      (given after = [] → later = [] ∧ ∀ a ∈ acts, Trails ctx.toRtmpContext a)

/-- However the library ends the operations of a connection, the handlers that run are a run
of the server. Each segment is given to the message callback once and in order. Behind the
event that closes the connection at most two handlers still run, and at most one segment is
still given to the callback, that only if a write has failed. -/
theorem run_windsDown {env : HandShakeEnv} {hs : List Happening} {conn : AsyncConnection}
    {handled : List Handled} (hrun : run env hs = some (conn, handled)) :
    ServerContext.run env (events handled) =
        some (conn.context, handled.flatMap (·.2.1), handled.flatMap (·.2.2)) ∧
      segments hs = given (events handled) ++ conn.waiting ∧
      ∀ before e after, events handled = before ++ e :: after → ClosesAt env before e →
        WindsDown env before e after (handled.flatMap (·.2.1)) (handled.flatMap (·.2.2)) := by
  have hlived := lived_run hrun
  refine ⟨hlived.served, hlived.segments, fun before e after hsplit hcloses => ?_⟩
  obtain ⟨hhandlers, hsegments⟩ := hlived.closing before e after hsplit hcloses
  obtain ⟨-, -, -, next, t', effects', -, -, hnext, hclosed⟩ := hcloses
  have hserved := hlived.served
  rw [hsplit, List.append_cons] at hserved
  obtain ⟨acts, later, hacts, hlater, hbehind⟩ := behind_run hnext hserved hclosed
  have hwritten := hbehind.written
  exact ⟨by omega, by omega, next, t', effects', acts, later, hnext, hacts, hlater, by omega,
    hbehind.quiet⟩

/-- The write of S0S1 fails when the next byte has already been read. -/
def brokenWrite : List Happening :=
  [.readEnds RtmpContext.simpleC0C1, .runRead, .readEnds [0], .writeBreaks, .runWrite, .runRead,
    .runRead]

theorem run_windsDown_brokenWrite : ∃ conn handled,
    run RtmpContext.zeroEnv brokenWrite = some (conn, handled) ∧
      events handled = [.read RtmpContext.simpleC0C1] ++
        .writeFailed :: [.read [0], .readFailed] ∧
      WindsDown RtmpContext.zeroEnv [.read RtmpContext.simpleC0C1] .writeFailed
        [.read [0], .readFailed] (handled.flatMap (·.2.1)) (handled.flatMap (·.2.2)) := by
  have hend : (run RtmpContext.zeroEnv brokenWrite).any fun r =>
      decide (events r.2 = [.read RtmpContext.simpleC0C1] ++
        .writeFailed :: [.read [0], .readFailed]) := by
    decide +kernel
  obtain ⟨⟨conn, handled⟩, hrun, h⟩ := (Option.any_eq_true _ _).mp hend
  have hevents := of_decide_eq_true h
  have hbefore : (ServerContext.run RtmpContext.zeroEnv [.read RtmpContext.simpleC0C1]).any
      fun r => decide (r.1.connection.closed = false) := by
    decide +kernel
  have hafter : (ServerContext.run RtmpContext.zeroEnv
      ([.read RtmpContext.simpleC0C1] ++ [.writeFailed])).any
      fun r => decide (r.1.connection.closed = true) := by
    decide +kernel
  obtain ⟨⟨ctx, t, effects⟩, hctx, hopen⟩ := (Option.any_eq_true _ _).mp hbefore
  obtain ⟨⟨next, t', effects'⟩, hnext, hclosed⟩ := (Option.any_eq_true _ _).mp hafter
  obtain ⟨-, -, hwinds⟩ := run_windsDown hrun
  exact ⟨conn, handled, hrun, hevents, hwinds _ _ _ hevents
    ⟨ctx, t, effects, next, t', effects', hctx, of_decide_eq_true hopen, hnext,
      of_decide_eq_true hclosed⟩⟩

end AsyncConnection
