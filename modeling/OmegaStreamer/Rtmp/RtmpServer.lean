-- SUMMARY: The whole server: its connections share the registry of streams, which stays empty, and the process, which any of them can end.
import OmegaStreamer.Media.MediaSourceMgr
import OmegaStreamer.Network.TcpServer
import OmegaStreamer.Rtmp.Accumulation
import OmegaStreamer.Rtmp.Ingest
import OmegaStreamer.Rtmp.ServerRuns

/-!
# RtmpServer

`RtmpServer.cpp`: a `TcpServer` whose connections are contexts, and the registry that they
share. Each connection has its own random bytes and its own clock. The only call of the
registry that a context makes is that of `onClose`. They share the process, too: an
exception that leaves a handler ends it for all of them.
-/

open RtmpSession
open RtmpChunkParse (decoded)
open RtmpContext (Action arrived)

/-- What a handler of a context leaves behind. -/
abbrev HandlerOutput : Type := List Action × List Effect

structure RtmpServer (β : Type) where
  server : TcpServer β (HandShakeEnv × ServerContext)
  sources : MediaSourceMgr := {}
  /-- An exception has left a handler, and the process has ended. -/
  ended : Bool := false

namespace RtmpServer

variable {β : Type}

abbrev Event := TcpServer.Event HandShakeEnv ServerContext.Event

/-- `onNewConnection`, and the handlers of a connection. -/
def handlers : TcpServer.Handlers HandShakeEnv (HandShakeEnv × ServerContext)
    ServerContext.Event HandlerOutput where
  create env := (env, ServerContext.start env)
  step s e := (ServerContext.step s.1 s.2 e).map fun (ctx, acts, effects) =>
    ((s.1, ctx), acts, effects)

/-- The calls of `MediaSourceMgrIns.Remove` among the effects. -/
def removeAll (sources : MediaSourceMgr) (effects : List Effect) : MediaSourceMgr :=
  (removals effects).foldl (fun sources (app, stream) => sources.remove app stream) sources

/-- The registry after what a handler has done. -/
def sourcesAfter (sources : MediaSourceMgr) : Option (Nat × HandlerOutput) → MediaSourceMgr
  | some (_, _, effects) => removeAll sources effects
  | none => sources

def start (baseLoop : β) (threads : List β) : RtmpServer β :=
  { server := TcpServer.start baseLoop threads }

/-- One event. Nobody in the loop of a thread catches what has left `Parse`. -/
def step [DecidableEq β] (s : RtmpServer β) (e : Event) :
    Option (RtmpServer β × Option (Nat × HandlerOutput)) :=
  if s.ended then none
  else
    (TcpServer.step handlers s.server e).map fun (server, o) =>
      ({ server := server
         sources := sourcesAfter s.sources o
         ended := server.connections.any fun (_, _, ctx) => ctx.terminated }, o)

/-! ## The registry -/

theorem removeAll_empty (effects : List Effect) : removeAll {} effects = {} := by
  rw [removeAll]
  induction removals effects with
  | nil => rfl
  | cons name names ih => exact ih

theorem sourcesAfter_empty (o : Option (Nat × HandlerOutput)) : sourcesAfter {} o = {} := by
  cases o with
  | none => rfl
  | some output => exact removeAll_empty output.2.2

/-! ## One connection -/

/-- A session without a source calls none. -/
theorem sourceCalls_handleMessage {s : RtmpSession} (hnone : s.mediaSource = none)
    (msg : RtmpMessage) : sourceCalls (s.handleMessage msg).2 = [] := by
  have hcall {s' : RtmpSession} (hsame : s'.mediaSource = s.mediaSource) (call : SourceCall) :
      s'.callSource call = [] := by
    rw [callSource, hsame, hnone]
  have hhandled := handleMessage_handled s msg
  generalize s.handleMessage msg = r at hhandled
  cases hhandled with
  | @command cmd =>
    have hserved := serve_served s cmd
    generalize s.serve cmd = r at hserved
    cases hserved with
    | connect => rfl
    | createStream => rfl
    | publish => rfl
    | play => rfl
    | other => rfl
  | setChunkSize =>
    unfold RtmpSession.handleSetChunkSize
    split
    · rfl
    · simp only
      split
      · rfl
      · rfl
  | metaData =>
    unfold handleAMF0Data
    simp only [hcall rfl]
    split
    · split
      · rfl
      · rfl
    · rfl
  | audio =>
    unfold handleAudioData
    simp only
    split
    · rfl
    · exact congrArg sourceCalls (hcall rfl _)
  | video =>
    unfold handleVideoData
    simp only
    split
    · rfl
    · exact congrArg sourceCalls (hcall (by split <;> rfl) _)
  | other => rfl

theorem sourceCalls_run {s : RtmpSession} (hnone : s.mediaSource = none)
    (msgs : List RtmpMessage) : sourceCalls (s.run msgs).2 = [] := by
  induction msgs using List.reverseRecOn with
  | nil => rfl
  | append_singleton msgs msg ih =>
    rw [run_concat, sourceCalls_append, ih, List.nil_append]
    exact sourceCalls_handleMessage ((run_mediaSource s msgs).trans hnone) msg

/-- In every run of a context the session has no source, and none is called. -/
theorem sourceless_of_run {env : HandShakeEnv} {es : List ServerContext.Event} {t : List Action}
    {effects : List Effect} {ctx : ServerContext}
    (hrun : ServerContext.run env es = some (ctx, t, effects)) :
    ctx.session.mediaSource = none ∧ sourceCalls effects = [] := by
  refine (ServerContext.run_induction
    (motive := fun _ effects ctx => ctx.session.mediaSource = none ∧ sourceCalls effects = [])
    ⟨rfl, rfl⟩ ?_ hrun).2
  rintro t effects ctx e next acts effects' hinv ⟨hnone, hcalls⟩ hstep
  have hsession := ServerContext.sessionStep
    (fun hdone => hinv.callback (of_decide_eq_true hdone)) hstep
  rw [sourceCalls_append, hcalls, List.nil_append]
  cases hsession with
  | idle _ hsame => exact ⟨hsame ▸ hnone, rfl⟩
  | close _ hsame =>
    refine ⟨hsame ▸ rfl, ?_⟩
    unfold onClose
    simp only
    split
    · rfl
    · rfl
  | @parse given _ hsame _ hcallback hnext =>
    have hparsed := ServerContext.parsed_parse hcallback
    have hgiven : given.session.mediaSource = none := hsame ▸ hnone
    rw [hnext, hparsed.session, hparsed.effects]
    exact ⟨(run_mediaSource _ _).trans hgiven, sourceCalls_run hgiven _⟩

/-- Which bytes end in an exception. -/
theorem terminated_iff_of_run {env : HandShakeEnv} {es : List ServerContext.Event}
    {t : List Action} {effects : List Effect} {ctx : ServerContext}
    (hrun : ServerContext.run env es = some (ctx, t, effects))
    (hlen : ServerContext.Countable t) :
    ctx.terminated = true ↔
      ctx.handShake.state = .done ∧ (decoded ((arrived t).drop 3073)).aborted = true := by
  have hterm := (ServerContext.run_kept hrun hlen).2.terminated
  by_cases hdone : ctx.handShake.state = .done
  · rw [hterm, ServerContext.offered_of_done hdone]
    exact (and_iff_right hdone).symm
  · rw [hterm, ServerContext.offered_of_not_done hdone]
    exact ⟨nofun, fun h => absurd h.1 hdone⟩

theorem run_handlers (env : HandShakeEnv) (es : List ServerContext.Event) :
    Mealy.run handlers.step (handlers.create env) es =
      (Mealy.run (ServerContext.step env) (ServerContext.start env) es).map
        fun r => ((env, r.1), r.2) :=
  Mealy.run_map (fun ctx => (env, ctx)) (fun _ _ => rfl) _ es

/-! ## All connections -/

/-- The contexts of a server. -/
def context? (s : RtmpServer β) (i : Nat) : Option ServerContext :=
  s.server.connections[i]?.map fun (_, _, ctx) => ctx

theorem any_connections {s : RtmpServer β} :
    (s.server.connections.any fun (_, _, ctx) => ctx.terminated) = true ↔
      ∃ i ctx, s.context? i = some ctx ∧ ctx.terminated = true := by
  rw [List.any_eq_true]
  constructor
  · rintro ⟨⟨loop, env, ctx⟩, hmem, hterm⟩
    obtain ⟨i, hi⟩ := List.mem_iff_getElem?.mp hmem
    exact ⟨i, ctx, by rw [context?, hi]; rfl, hterm⟩
  · rintro ⟨i, ctx, hi, hterm⟩
    obtain ⟨⟨loop, env, ctx'⟩, hc, rfl⟩ := Option.map_eq_some_iff.mp hi
    exact ⟨_, List.mem_of_getElem? hc, hterm⟩

/-- How a process is ended: by a read of the connection that an exception has left. -/
structure Ending (es : List Event) (s : RtmpServer β) : Prop where
  ended : s.ended = true ↔ ∃ i ctx, s.context? i = some ctx ∧ ctx.terminated = true
  last : ∀ i ctx, s.context? i = some ctx → ctx.terminated = true →
    ∃ before seg, es = before ++ [.connection i (.read seg)]

/-- The connections of a server have the registry and the process in common, and nothing else. -/
structure Separate (baseLoop : β) (threads : List β) (es : List Event)
    (outs : List (Option (Nat × HandlerOutput))) (s : RtmpServer β) : Prop
    extends Ending es s where
  sources : s.sources = {}
  length : s.server.connections.length = (TcpServer.accepted es).length
  connection : ∀ i k env, (TcpServer.accepted es)[i]? = some (k, env) → ∃ ctx t effects,
    s.server.connections[i]? = some (TcpServer.loopAt baseLoop threads k, env, ctx) ∧
      ServerContext.run env (TcpServer.eventsOf i es) = some (ctx, t, effects) ∧
      t = (TcpServer.outputsOf i outs).flatMap (·.1) ∧
      effects = (TcpServer.outputsOf i outs).flatMap (·.2) ∧ sourceCalls effects = [] ∧
      -- the bytes of the client that end the process for all
      (ServerContext.Countable t → (ctx.terminated = true ↔ ctx.handShake.state = .done ∧
        (decoded ((arrived t).drop 3073)).aborted = true))

section Runs

variable [DecidableEq β] {baseLoop : β} {threads : List β} {es : List Event}
  {outs : List (Option (Nat × HandlerOutput))} {s s' : RtmpServer β}

/-- A step is one of the `TcpServer`, as long as the process runs. -/
theorem step_eq_some {e : Event} {o : Option (Nat × HandlerOutput)}
    (hstep : step s e = some (s', o)) :
    s.ended = false ∧ TcpServer.step handlers s.server e = some (s'.server, o) ∧
      s'.sources = sourcesAfter s.sources o ∧
      s'.ended = s'.server.connections.any fun (_, _, ctx) => ctx.terminated := by
  unfold step at hstep
  split at hstep
  · cases hstep
  rename_i hrunning
  obtain ⟨⟨server, o'⟩, hmoved, heq⟩ := Option.map_eq_some_iff.mp hstep
  cases heq
  exact ⟨Bool.eq_false_of_not_eq_true hrunning, hmoved, rfl, rfl⟩

/-- A run of the server is one of its `TcpServer`, and the registry stays empty. -/
theorem run_server (hrun : Mealy.run step (start baseLoop threads) es = some (s, outs)) :
    Mealy.run (TcpServer.step handlers) (TcpServer.start baseLoop threads) es =
        some (s.server, outs) ∧ s.sources = {} := by
  refine Mealy.run_induction
    (motive := fun es outs (s : RtmpServer β) =>
      Mealy.run (TcpServer.step handlers) (TcpServer.start baseLoop threads) es =
        some (s.server, outs) ∧ s.sources = {}) ⟨rfl, rfl⟩ ?_ hrun
  rintro es outs s e s' o - ⟨hserver, hsources⟩ hstep
  obtain ⟨-, hmoved, hnext, -⟩ := step_eq_some hstep
  refine ⟨Mealy.run_concat hserver hmoved, ?_⟩
  rw [hnext, hsources]
  exact sourcesAfter_empty _

/-- While the process runs, only the connection whose handler runs can end it. -/
theorem Ending.step (h : Ending es s) {e : Event} {o : Option (Nat × HandlerOutput)}
    (hstep : RtmpServer.step s e = some (s', o)) : Ending (es ++ [e]) s' := by
  obtain ⟨hrunning, hmoved, -, hended⟩ := step_eq_some hstep
  have hnone (i : Nat) (ctx : ServerContext) (hi : s.context? i = some ctx) :
      ¬ ctx.terminated = true := by
    intro hterm
    have hover := h.ended.mpr ⟨i, ctx, hi, hterm⟩
    rw [hrunning] at hover
    cases hover
  refine ⟨by rw [hended]; exact any_connections, fun i ctx hi hterm => ?_⟩
  generalize hserver : s'.server = server at hmoved
  rw [context?, hserver] at hi
  cases TcpServer.step_eq_some hmoved with
  | @accepted env =>
    simp only [TcpServer.doAccept, List.getElem?_append] at hi
    split at hi
    · exact absurd hterm (hnone i ctx hi)
    · obtain ⟨⟨loop, env', ctx'⟩, hc, rfl⟩ := Option.map_eq_some_iff.mp hi
      cases List.mem_singleton.mp (List.mem_of_getElem? hc)
      cases hterm
  | acceptFailed => exact absurd hterm (hnone i ctx hi)
  | stop => exact absurd hterm (hnone i ctx hi)
  | @connection j e loop was next out hc hown =>
    by_cases hij : j = i
    · subst hij
      simp only [List.getElem?_set_self (List.getElem?_eq_some_iff.mp hc).1] at hi
      obtain ⟨⟨next', acts, effects⟩, hstep', heq'⟩ := Option.map_eq_some_iff.mp hown
      cases heq'
      cases hi
      cases e with
      | read seg => exact ⟨es, seg, rfl⟩
      | _ =>
        rw [ServerContext.terminated_of_ne_read (by simp) hstep'] at hterm
        cases hterm
    · simp only [List.getElem?_set_ne hij] at hi
      exact absurd hterm (hnone i ctx hi)

theorem ending_of_run (hrun : Mealy.run step (start baseLoop threads) es = some (s, outs)) :
    Ending es s := by
  refine Mealy.run_induction (motive := fun es _ (s : RtmpServer β) => Ending es s) ?_ ?_ hrun
  · refine ⟨⟨nofun, ?_⟩, ?_⟩
    · rintro ⟨i, ctx, hi, -⟩
      cases hi
    · rintro i ctx hi -
      cases hi
  · exact fun _ _ _ _ _ _ _ h hstep => h.step hstep

/-- Every connection of a server is a run of its own events, until an exception leaves `Parse`
on one of them: that one's read is the last event, and the process ends for all. The registry
stays empty, so no stream is ever found, and no media goes anywhere. -/
theorem run_separate (hrun : Mealy.run step (start baseLoop threads) es = some (s, outs)) :
    Separate baseLoop threads es outs s := by
  obtain ⟨hserver, hsources⟩ := run_server hrun
  have hplaced := TcpServer.placed_of_run hserver
  refine ⟨ending_of_run hrun, hsources, hplaced.length, fun i k env hi => ?_⟩
  obtain ⟨c, hc, hown⟩ := hplaced.placed i k env hi
  rw [run_handlers] at hown
  obtain ⟨⟨ctx, os⟩, hmealy, heq⟩ := Option.map_eq_some_iff.mp hown
  cases heq
  have hcontext : ServerContext.run env (TcpServer.eventsOf i es) =
      some (ctx, (TcpServer.outputsOf i outs).flatMap (·.1),
        (TcpServer.outputsOf i outs).flatMap (·.2)) := by
    rw [ServerContext.run, hmealy]
    rfl
  exact ⟨ctx, _, _, hc, hcontext, rfl, rfl, (sourceless_of_run hcontext).2,
    terminated_iff_of_run hcontext⟩

end Runs

/-- Two clients in one thread. The second is refused, and the first ends the process. -/
def twoClients : List Event :=
  [.accepted RtmpContext.zeroEnv, .connection 0 (.read (RtmpContext.simpleC0C1.take 700)),
    .accepted RtmpContext.zeroEnv, .connection 1 (.read (List.replicate 1537 0)),
    .connection 0 (.read (RtmpContext.simpleC0C1.drop 700)), .connection 0 .writeSucceeded,
    .connection 1 .readFailed, .connection 0 .writeSucceeded,
    .connection 0 (.read (List.replicate 1536 0 ++ RtmpChunkParse.shrinkingStream))]

theorem run_separate_two : ∃ s outs,
    Mealy.run step (start 0 [1]) twoClients = some (s, outs) ∧
      s.server.connections.map (·.2.2.connection.closed) = [false, true] ∧ s.ended = true ∧
      Separate 0 [1] twoClients outs s := by
  have hends : (Mealy.run step (start 0 [1]) twoClients).any fun r =>
      decide (r.1.server.connections.map (·.2.2.connection.closed) = [false, true] ∧
        r.1.ended = true) := by
    decide +kernel
  obtain ⟨⟨s, outs⟩, hrun, h⟩ := (Option.any_eq_true _ _).mp hends
  obtain ⟨hclosed, hended⟩ := of_decide_eq_true h
  exact ⟨s, outs, hrun, hclosed, hended, run_separate hrun⟩

end RtmpServer
