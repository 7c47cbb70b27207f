-- SUMMARY: What one event does to a server: the packets it sends, the bytes it parses, and its session.
import OmegaStreamer.Rtmp.Reassembly
import OmegaStreamer.Rtmp.ServerContext

/-!
# Steps of a server

`decoded` is what the parser makes of bytes however they are cut. `SessionStep` says
once what an event does to the parser and the session of a server, and
`Stepped.sent_eq` and `Stepped.queue` what it sends. The buffer holds what is unread
of the bytes offered.
-/

open Resumable RtmpSession

namespace RtmpChunkParse

/-- What the parser makes of bytes, one by one. -/
def decoded (bytes : Bytes) : Config RtmpChunkParse UInt8 RtmpMessage :=
  readAll (parseOneChunk chunkSizeCallback) {} bytes

/-- What holds of a parser that is given chunks with the sizes a peer can set. -/
def Sound (st : RtmpChunkParse) : Prop := st.WellFormed ∧ ChunkSizeInRange st.inChunkSize

theorem sound_init : Sound {} := ⟨wellFormed_init, kDefaultChunkSize_range⟩

theorem parseOneChunk_sound : Lawful (parseOneChunk chunkSizeCallback) Sound (2 ^ 31) :=
  parseOneChunk_lawful _ chunkSizeCallback_range

theorem parseOneChunk_short :
    Short (parseOneChunk chunkSizeCallback) Sound (2 ^ 31) 65553 where
  pos := by decide
  lt_limit := by decide
  of_wait hs := length_lt_of_wait hs.2

/-- A segment that is parsed after other bytes is decoded with them. -/
theorem parse_decoded {bytes : Bytes} (seg : Bytes) (hrun : (decoded bytes).aborted = false)
    (hlen : ((decoded bytes).unread ++ seg).length < 2 ^ 31) :
    ((decoded bytes).state.parse chunkSizeCallback ((decoded bytes).unread ++ seg)).prepend
      (decoded bytes).delivered = decoded (bytes ++ seg) := by
  have hfeed : feed (parseOneChunk chunkSizeCallback) (decoded bytes) seg =
      decoded (bytes ++ seg) :=
    parseOneChunk_sound.feed_readAll parseOneChunk_short sound_init fun _ => hlen
  rw [feed_running hrun] at hfeed
  exact hfeed

/-- Bytes are decoded as they are received in any segments. -/
theorem receive_eq_decoded {bytes : Bytes} {segs : List Bytes} (h : Segments bytes segs) :
    receive chunkSizeCallback segs = decoded bytes := by
  refine receive_congr h ⟨?_, ?_⟩
  · rw [← List.flatMap_def, List.flatMap_singleton']
  · intro seg hseg
    obtain ⟨b, -, rfl⟩ := List.mem_map.mp hseg
    exact Nat.one_le_two_pow

end RtmpChunkParse

open RtmpChunkParse (decoded)

namespace RtmpContext

/-! ## The output of a context -/

/-- The packets given to `Send`. -/
def sent (t : List Action) : List Outgoing :=
  t.filterMap fun
    | .send out => some out
    | _ => none

/-- The packets whose writes are complete. -/
def written (t : List Action) : List Outgoing :=
  t.filterMap fun
    | .written out => some out
    | _ => none

@[simp] theorem sent_append (t u : List Action) : sent (t ++ u) = sent t ++ sent u :=
  List.filterMap_append

@[simp] theorem written_append (t u : List Action) : written (t ++ u) = written t ++ written u :=
  List.filterMap_append

theorem sent_map_send (outs : List Outgoing) : sent (outs.map .send) = outs := by
  induction outs with
  | nil => rfl
  | cons out outs ih => exact congrArg (out :: ·) ih

theorem written_map_send (outs : List Outgoing) : written (outs.map .send) = [] := by
  induction outs with
  | nil => rfl
  | cons out outs ih => exact ih

/-- What has been sent is written in order: the rest of it is in the queue. -/
theorem Stepped.queue {env : HandShakeEnv} {t acts : List Action} {ctx next : RtmpContext}
    {e : Event} (h : Stepped env ctx e next acts)
    (hqueue : written t ++ ctx.connection.writeQueue = sent t) :
    written (t ++ acts) ++ next.connection.writeQueue = sent (t ++ acts) := by
  have hsend {outs : List Outgoing} : written t ++ (ctx.connection.writeQueue ++ outs) =
      sent t ++ outs := by
    rw [← List.append_assoc, hqueue]
  rw [written_append, sent_append]
  cases h with
  | idle h => simpa [moved, sent, written] using hqueue
  | accept => simpa [moved, sent, written] using hsend
  | refuse => simpa [moved, sent, written, close, TcpConnection.close] using hqueue
  | finish => simpa [moved, sent, written, initialMessages] using hsend
  | @finishParse _ replies =>
    have hreplies := written_map_send (answers replies)
    have hreplies' := sent_map_send (answers replies)
    simp only [written, sent] at hreplies hreplies'
    simpa [moved, sent, written, initialMessages, hreplies, hreplies'] using hsend
  | @parse _ replies =>
    have hreplies := written_map_send (answers replies)
    have hreplies' := sent_map_send (answers replies)
    simp only [written, sent] at hreplies hreplies'
    simpa [moved, sent, written, hreplies, hreplies'] using hsend
  | readFailed => simpa [sent, written, close, TcpConnection.close] using hqueue
  | wrote ho hq =>
    rw [hq] at hqueue
    simpa [sent, written, hq] using hqueue
  | wroteS0S1 ho hq =>
    rw [hq] at hqueue
    rw [← hqueue]
    simp [sent, written, hq]
  | wroteS2 ho hq =>
    rw [hq] at hqueue
    simpa [sent, written, hq] using hqueue
  | writeFailed ho =>
    simpa [sent, written, TcpConnection.writeFailed, TcpConnection.close] using hqueue

/-- What the handlers send while an event is run. -/
def Event.replies : Event → List Bytes
  | .read _ replies => replies
  | _ => []

/-- The bytes that arrive with an event. -/
def Event.bytes : Event → Bytes
  | .read seg _ => seg
  | _ => []

theorem Stepped.arrived_eq {env : HandShakeEnv} {ctx next : RtmpContext} {e : Event}
    {acts : List Action} (h : Stepped env ctx e next acts) : arrived acts = e.bytes := by
  have hsends (outs : List Outgoing) : arrived (outs.map .send) = [] := (marks_map_send outs).1
  cases h with
  | finish => simp [arrived, initialMessages, Event.bytes]
  | finishParse =>
    rw [List.append_cons, arrived_append, hsends]
    simp [arrived, initialMessages, Event.bytes]
  | parse =>
    rw [arrived_append, hsends]
    simp [arrived, Event.bytes]
  | _ => simp [arrived, Event.bytes]

/-- What is parsed was in the buffer or arrives with the event. -/
theorem Stepped.given_le {env : HandShakeEnv} {ctx next : RtmpContext} {e : Event}
    {acts : List Action} {given left : Bytes} (h : Stepped env ctx e next acts)
    (hacts : .parse given left ∈ acts) :
    given.length ≤ ctx.connection.recvBuf.length + e.bytes.length := by
  cases h with
  | @finishParse seg replies buf left' hs chunkParse terminated hbuf =>
    have hgiven : given = buf.drop 1536 := by
      simp [initialMessages] at hacts
      exact hacts.1
    rw [hgiven, List.length_drop, hbuf, List.length_append]
    exact Nat.sub_le _ _
  | @parse seg replies buf left' chunkParse terminated hbuf =>
    have hgiven : given = buf := by
      simp at hacts
      exact hacts.1
    rw [hgiven, hbuf, List.length_append]
    exact Nat.le_refl _
  | _ => simp [initialMessages] at hacts

/-- An event sends packets of the handshake, and then replies if it parses something. -/
theorem Stepped.sent_eq {env : HandShakeEnv} {ctx next : RtmpContext} {e : Event}
    {acts : List Action} (h : Stepped env ctx e next acts)
    (hreplies : (∃ given left, .parse given left ∈ acts) ∨ e.replies = []) :
    sent acts = sent (handShakeActions acts) ++ answers e.replies := by
  have hanswers := sent_map_send (answers e.replies)
  cases h with
  | idle =>
    have hnil := hreplies.resolve_left (by simp)
    simp only [hnil]
    rfl
  | accept =>
    have hnil := hreplies.resolve_left (by simp)
    simp only [hnil]
    rfl
  | refuse =>
    have hnil := hreplies.resolve_left (by simp)
    simp only [hnil]
    rfl
  | finish =>
    have hnil := hreplies.resolve_left (by simp [initialMessages])
    simp only [hnil]
    rfl
  | finishParse =>
    simp only [Event.replies] at hanswers ⊢
    rw [List.append_cons, sent_append, handShakeActions_append, handShakeActions_answers,
      List.append_nil, hanswers]
    rfl
  | parse =>
    simp only [Event.replies] at hanswers ⊢
    rw [sent_append, handShakeActions_append, handShakeActions_answers, List.append_nil, hanswers]
    rfl
  | readFailed => rfl
  | @wrote out =>
    obtain ⟨origin, bytes⟩ := out
    cases origin <;> rfl
  | @wroteS0S1 out =>
    obtain ⟨origin, bytes⟩ := out
    cases origin <;> rfl
  | @wroteS2 out =>
    obtain ⟨origin, bytes⟩ := out
    cases origin <;> rfl
  | writeFailed => rfl

/-- Only a read is parsed. -/
theorem Stepped.read_of_parse {env : HandShakeEnv} {ctx next : RtmpContext} {e : Event}
    {acts : List Action} {given left : Bytes} (h : Stepped env ctx e next acts)
    (hacts : .parse given left ∈ acts) : ∃ seg, e = .read seg e.replies := by
  cases h with
  | idle => exact ⟨_, rfl⟩
  | accept => exact ⟨_, rfl⟩
  | refuse => exact ⟨_, rfl⟩
  | finish => exact ⟨_, rfl⟩
  | finishParse => exact ⟨_, rfl⟩
  | parse => exact ⟨_, rfl⟩
  | readFailed => simp at hacts
  | wrote => simp at hacts
  | wroteS0S1 => simp at hacts
  | wroteS2 => simp at hacts
  | writeFailed => simp at hacts

/-- The handshake sends nothing once it is done. -/
theorem Stepped.sent_of_done {env : HandShakeEnv} {ctx next : RtmpContext} {e : Event}
    {acts : List Action} (h : Stepped env ctx e next acts) (hdone : ctx.handShake.state = .done) :
    sent (handShakeActions acts) = [] := by
  cases h with
  | idle => rfl
  | accept hbuf h => rw [hdone] at h; cases h
  | refuse => rfl
  | finish hbuf h => rw [hdone] at h; cases h
  | finishParse hbuf h => rw [hdone] at h; cases h
  | @parse seg replies buf left =>
    rw [handShakeActions_append, handShakeActions_answers]
    rfl
  | readFailed => rfl
  | @wrote out =>
    obtain ⟨origin, bytes⟩ := out
    cases origin <;> rfl
  | wroteS0S1 ho hq h => rw [hdone] at h; cases h
  | wroteS2 ho hq h => rw [hdone] at h; cases h
  | writeFailed => rfl

/-- What the handshake has sent in a state, given the client's bytes. -/
def handShakeOutput (env : HandShakeEnv) (state : RtmpHandShakeState) (bytes : Bytes) :
    List Outgoing :=
  match state with
  | .postS0S1 => [⟨.packet .c1s1, s0s1 env⟩]
  | .postS2 | .waitC2 => [⟨.packet .c1s1, s0s1 env⟩, ⟨.packet .c2s2, s2 env (bytes.take 1537)⟩]
  | .done => [⟨.packet .c1s1, s0s1 env⟩, ⟨.packet .c2s2, s2 env (bytes.take 1537)⟩] ++
      initialMessages
  | _ => []

theorem Inv.sent_handShake {env : HandShakeEnv} {t : List Action} {ctx : RtmpContext}
    (hinv : Inv env t ctx) :
    sent (handShakeActions t) = handShakeOutput env ctx.handShake.state (arrived t) := by
  -- the first packet is the first thing that has been taken from the bytes
  have hfirst {c0c1 rest : Bytes} (hlen : c0c1.length = 1537)
      (hretrieved : retrieved (handShakeActions t) = c0c1 ++ rest) :
      (arrived t).take 1537 = c0c1 := by
    rw [← hinv.bytes, ← retrieved_handShakeActions, hretrieved, List.append_assoc,
      List.append_assoc, ← hlen, List.take_left]
  rcases hinv.phase.server with h | h | h | h | h
  · obtain ⟨-, hacts, -⟩ := hinv.phase.of_waitC0C1 h
    rw [h, hacts]
    rfl
  · obtain ⟨c0c1, -, -, -, hacts⟩ := hinv.phase.of_postS0S1 h
    rw [h, hacts]
    rfl
  · obtain ⟨c0c1, hpacket, -, hacts⟩ := hinv.phase.of_postS2 h
    rw [h, handShakeOutput, hfirst hpacket.length_eq (by rw [hacts]; rfl), hacts]
    rfl
  · obtain ⟨c0c1, hpacket, -, hacts⟩ := hinv.phase.of_waitC2 h
    rw [h, handShakeOutput, hfirst hpacket.length_eq (by rw [hacts]; rfl), hacts]
    rfl
  · obtain ⟨c0c1, c2, hpacket, -, -, hacts⟩ := hinv.phase.of_done h
    rw [h, handShakeOutput, hfirst hpacket.length_eq (by rw [hacts]; rfl), hacts]
    rfl

end RtmpContext

namespace RtmpSession

/-! ## The effects of a session that may be closed -/

theorem run_append (s : RtmpSession) (msgs late : List RtmpMessage) :
    s.run (msgs ++ late) =
      (((s.run msgs).1.run late).1, (s.run msgs).2 ++ ((s.run msgs).1.run late).2) :=
  Mealy.exec_append handleMessage s msgs late

/-- The effects of the messages of a connection, with those of `onClose` among them once
it is closed. Messages that had been read before may be handled after it. -/
inductive Effected : Bool → List RtmpMessage → List Effect → Prop where
  | opened (msgs : List RtmpMessage) : Effected false msgs (run {} msgs).2
  | closed (msgs late : List RtmpMessage) :
      Effected true (msgs ++ late)
        ((run {} msgs).2 ++ (run {} msgs).1.onClose.2 ++ ((run {} msgs).1.run late).2)

namespace Effected

variable {closed : Bool} {msgs : List RtmpMessage} {effects : List Effect}

theorem handle (h : Effected closed msgs effects) (more : List RtmpMessage) :
    Effected closed (msgs ++ more) (effects ++ ((run {} msgs).1.run more).2) := by
  cases h with
  | opened msgs =>
    have hmore : (run {} (msgs ++ more)).2 = (run {} msgs).2 ++ ((run {} msgs).1.run more).2 := by
      rw [run_append]
    rw [← hmore]
    exact .opened _
  | closed msgs late =>
    have hmore : ((run {} msgs).1.run (late ++ more)).2 =
        ((run {} msgs).1.run late).2 ++ ((run {} (msgs ++ late)).1.run more).2 := by
      rw [run_append, run_append]
    rw [List.append_assoc, List.append_assoc, ← hmore, List.append_assoc]
    have hclosed := Effected.closed msgs (late ++ more)
    rw [List.append_assoc] at hclosed
    exact hclosed

theorem close (h : Effected false msgs effects) :
    Effected true msgs (effects ++ (run {} msgs).1.onClose.2) := by
  cases h with
  | opened msgs =>
    have hclosed := Effected.closed msgs []
    have hnone : ((run {} msgs).1.run []).2 = [] := rfl
    rw [hnone, List.append_nil, List.append_nil] at hclosed
    exact hclosed

/-- Closing sends nothing. -/
theorem sends_eq (h : Effected closed msgs effects) : sends effects = sends (run {} msgs).2 := by
  have hclose (s : RtmpSession) : sends s.onClose.2 = [] := by
    simp only [onClose]
    split <;> rfl
  cases h with
  | opened msgs => rfl
  | closed msgs late => rw [run_append, sends_append, sends_append, sends_append, hclose,
      List.append_nil]

end Effected

/-- The session has no source to give up when it is closed. -/
theorem onClose_run (msgs : List RtmpMessage) : (run {} msgs).1.onClose.1 = (run {} msgs).1 := by
  have hsource := (history_run msgs).mediaSource
  generalize (run {} msgs).1 = s at hsource
  simp only [onClose, ← hsource]

end RtmpSession

namespace ServerContext

open RtmpContext (Action Inv Stepped arrived parsed sent written)

/-! ## One event -/

/-- What an event does to the parser and the session. -/
inductive SessionStep (ctx next : ServerContext) (acts : List Action) : List Effect → Prop where
  | idle (hparser : next.chunkParse = ctx.chunkParse) (hsession : next.session = ctx.session)
      (hterm : next.terminated = ctx.terminated)
      (hclosed : next.connection.closed = ctx.connection.closed)
      (hacts : ∀ given left, .parse given left ∉ acts) : SessionStep ctx next acts []
  | close (hparser : next.chunkParse = ctx.chunkParse)
      (hsession : next.session = ctx.session.onClose.1)
      (hterm : next.terminated = ctx.terminated) (hopen : ctx.connection.closed = false)
      (hclosed : next.connection.closed = true)
      (hacts : ∀ given left, .parse given left ∉ acts) :
      SessionStep ctx next acts ctx.session.onClose.2
  | parse {given : ServerContext} (hparser : given.chunkParse = ctx.chunkParse)
      (hsession : given.session = ctx.session)
      (hclosed : given.connection.closed = ctx.connection.closed)
      (hcallback : given.hasMessageCallback = true) (hnext : next = given.parse.1)
      (hacts : .parse given.connection.recvBuf next.connection.recvBuf ∈ acts) :
      SessionStep ctx next acts given.parse.2.2

theorem sessionStep_close (ctx : ServerContext) (acts : List Action)
    (hacts : ∀ given left, .parse given left ∉ acts) :
    SessionStep ctx ctx.close.1 acts ctx.close.2.2 := by
  unfold close
  split
  · exact .idle rfl rfl rfl rfl hacts
  · rename_i hopen
    exact .close rfl rfl rfl (Bool.eq_false_iff.mpr hopen) rfl hacts

theorem parse_not_mem_sends (given left : Bytes) (outs : List Outgoing) :
    .parse given left ∉ outs.map Action.send := by
  simp

/-- A call of `HandShake` parses nothing. -/
theorem shake_acts (env : HandShakeEnv) (ctx : RtmpContext) (given left : Bytes) :
    .parse given left ∉ (ctx.shake env).2.2 := by
  have hsend := parse_not_mem_sends given left
  simp only [RtmpContext.shake, RtmpContext.sendAll, List.mem_append, not_or]
  refine ⟨⟨?_, hsend _⟩, ?_⟩
  · split <;> simp
  · unfold RtmpContext.doneAction
    split <;> simp

theorem sessionStep_onMessage (env : HandShakeEnv) (ctx : ServerContext)
    (hcallback : ctx.handShake.isDone = true → ctx.hasMessageCallback = true) :
    SessionStep ctx (ctx.onMessage env).1 (ctx.onMessage env).2.1 (ctx.onMessage env).2.2 := by
  have hparse (given : ServerContext) : .parse given.connection.recvBuf
      given.parse.1.connection.recvBuf ∈ given.parse.2.1 := by
    simp [parse]
  have hsent := parse_not_mem_sends
  simp only [onMessage]
  split
  · rename_i hdone
    exact .parse rfl rfl rfl (hcallback hdone) rfl (hparse ctx)
  have hacts := shake_acts env ctx.toRtmpContext
  generalize hshake : ctx.toRtmpContext.shake env = r at hacts
  obtain ⟨ret, shaken, acts⟩ := r
  have hsame : shaken.chunkParse = ctx.chunkParse ∧ shaken.terminated = ctx.terminated ∧
      shaken.connection.closed = ctx.connection.closed := by
    have hctx : shaken = (ctx.toRtmpContext.shake env).2.1 := by rw [hshake]
    rw [hctx]
    exact ⟨rfl, rfl, TcpConnection.sendAll_closed _ _⟩
  obtain ⟨hchunk, hterm, hclosed⟩ := hsame
  have hgreeted : shaken.onHandShakeDone.1.connection.closed = ctx.connection.closed :=
    (TcpConnection.sendAll_closed _ _).trans hclosed
  simp only at hacts ⊢
  split
  · have hclose := sessionStep_close { ctx with toRtmpContext := shaken }
      (acts ++ [.close]) (by simp [hacts])
    unfold close at hclose ⊢
    simp only at hclose ⊢
    split at hclose
    · rename_i hwas
      rw [if_pos hwas]
      exact .idle hchunk rfl hterm hclosed (by simp [hacts])
    · rename_i hopen
      rw [if_neg hopen]
      rw [hclosed] at hopen
      exact .close hchunk rfl hterm (Bool.eq_false_iff.mpr hopen) rfl (by simp [hacts])
  split
  · split
    · refine .idle hchunk rfl hterm hgreeted fun given left => ?_
      rw [List.mem_append, not_or]
      exact ⟨hacts given left, hsent given left _⟩
    · exact .parse hchunk rfl hgreeted rfl rfl (List.mem_append_right _ (hparse _))
  · exact .idle hchunk rfl hterm hclosed hacts

/-- Only a read is parsed, so that the session is left as it is, or closed, by the other events. -/
theorem sessionStep_of_ne_read {env : HandShakeEnv} {ctx next : ServerContext} {e : Event}
    {acts : List Action} {effects : List Effect} (he : ∀ seg, e ≠ .read seg)
    (h : step env ctx e = some (next, acts, effects)) :
    SessionStep ctx next acts effects ∧ ∀ given left, .parse given left ∉ acts := by
  unfold step at h
  split at h
  · cases h
  cases e with
  | read seg => exact absurd rfl (he seg)
  | readFailed =>
    have hclose := sessionStep_close ctx [.close] (by simp)
    have hacts := (close_refines ctx).2.1
    simp only [Option.some.injEq] at h
    rw [h] at hclose hacts
    simp only at hacts
    rw [hacts]
    exact ⟨hclose, by simp⟩
  | writeSucceeded =>
    simp only at h
    split at h
    swap
    · cases h
    split at h
    · cases h
    have hclosed := ctx.connection.writeSucceeded_closed
    split at h
    · cases h
      have hacts (connection : TcpConnection Outgoing) (out : Outgoing) (given left : Bytes) :
          .parse given left ∉ Action.written out ::
            ({ ctx with connection := connection } : ServerContext).onWriteComplete.2 := by
        have hsend := parse_not_mem_sends given left
        unfold RtmpContext.onWriteComplete RtmpContext.doneAction
        split
        · simp
        · simp only [RtmpContext.sendAll, List.mem_cons, List.mem_append, not_or]
          refine ⟨by simp, hsend _, ?_⟩
          split <;> simp
      refine ⟨.idle ?_ rfl ?_ ?_ (hacts _ _), hacts _ _⟩
      · unfold RtmpContext.onWriteComplete
        split <;> rfl
      · unfold RtmpContext.onWriteComplete
        split <;> rfl
      · unfold RtmpContext.onWriteComplete
        split
        · exact hclosed
        · exact (TcpConnection.sendAll_closed _ _).trans hclosed
    · cases h
      exact ⟨.idle rfl rfl rfl hclosed (by simp), by simp⟩
  | writeFailed =>
    simp only at h
    split at h
    swap
    · cases h
    have hclose := sessionStep_close
      { ctx with connection := { ctx.connection with outstanding := false } }
      [.close] (by simp)
    have hacts := (close_refines
      { ctx with connection := { ctx.connection with outstanding := false } }).2.1
    simp only [Option.some.injEq] at h
    rw [h] at hclose hacts
    simp only at hacts hclose
    rw [hacts]
    refine ⟨?_, by simp⟩
    cases hclose with
    | idle hparser hsession hterm hclosed hacts =>
      exact .idle hparser hsession hterm hclosed hacts
    | close hparser hsession hterm hopen hclosed hacts =>
      exact .close hparser hsession hterm hopen hclosed hacts
    | parse hparser hsession hclosed hset hnext hacts =>
      simp at hacts

/-- Every event does one of these things. -/
theorem sessionStep {env : HandShakeEnv} {ctx next : ServerContext} {e : Event}
    {acts : List Action} {effects : List Effect}
    (hcallback : ctx.handShake.isDone = true → ctx.hasMessageCallback = true)
    (h : step env ctx e = some (next, acts, effects)) : SessionStep ctx next acts effects := by
  cases e with
  | read seg =>
    unfold step at h
    split at h
    · cases h
    simp only at h
    split at h
    · cases h
    cases h
    have hon := sessionStep_onMessage env
      { ctx with toRtmpContext := ctx.toRtmpContext.received seg } hcallback
    generalize ({ ctx with toRtmpContext := ctx.toRtmpContext.received seg } :
      ServerContext).onMessage env = out at hon ⊢
    obtain ⟨next, acts, effects⟩ := out
    simp only at hon ⊢
    cases hon with
    | idle hparser hsession hterm hclosed hacts =>
      exact .idle hparser hsession hterm hclosed (by simpa using hacts)
    | close hparser hsession hterm hopen hclosed hacts =>
      exact .close hparser hsession hterm hopen hclosed (by simpa using hacts)
    | parse hparser hsession hclosed hset hnext hacts =>
      exact .parse hparser hsession hclosed hset hnext (List.mem_cons_of_mem _ hacts)
  | readFailed => exact (sessionStep_of_ne_read (by simp) h).1
  | writeSucceeded => exact (sessionStep_of_ne_read (by simp) h).1
  | writeFailed => exact (sessionStep_of_ne_read (by simp) h).1

/-- An exception leaves `Parse` only, so it comes with a read. -/
theorem terminated_of_ne_read {env : HandShakeEnv} {ctx next : ServerContext} {e : Event}
    {acts : List Action} {effects : List Effect} (he : ∀ seg, e ≠ .read seg)
    (h : step env ctx e = some (next, acts, effects)) : next.terminated = false := by
  obtain ⟨hsession, hparse⟩ := sessionStep_of_ne_read he h
  cases hsession with
  | idle _ _ hterm => exact hterm.trans (running_of_step h)
  | close _ _ hterm => exact hterm.trans (running_of_step h)
  | parse _ _ _ _ _ hacts => exact absurd hacts (hparse _ _)

/-- On a closed socket only a message does anything. -/
theorem effects_of_closed {env : HandShakeEnv} {ctx next : ServerContext} {e : Event}
    {acts : List Action} {effects : List Effect} (hclosed : ctx.connection.closed = true)
    (he : ∀ seg, e ≠ .read seg) (h : step env ctx e = some (next, acts, effects)) :
    effects = [] := by
  obtain ⟨hsession, hparse⟩ := sessionStep_of_ne_read he h
  cases hsession with
  | idle => rfl
  | close _ _ _ hopen =>
    rw [hclosed] at hopen
    cases hopen
  | parse _ _ _ _ _ hacts => exact absurd hacts (hparse _ _)

/-! ## What the parser has been offered -/

/-- The bytes behind the handshake, once it is done. -/
def offered (ctx : RtmpContext) (t : List Action) : Bytes :=
  if ctx.handShake.isDone then (arrived t).drop 3073 else []

theorem offered_of_done {ctx : RtmpContext} (h : ctx.handShake.state = .done) (t : List Action) :
    offered ctx t = (arrived t).drop 3073 :=
  if_pos (decide_eq_true h)

theorem offered_of_not_done {ctx : RtmpContext} (h : ctx.handShake.state ≠ .done)
    (t : List Action) : offered ctx t = [] := by
  rw [offered, RtmpContext.isDone_eq_false h, if_neg Bool.false_ne_true]

/-- The buffer is what is unread of the bytes offered. -/
structure Offering (t : List Action) (ctx : RtmpContext) : Prop where
  chunkParse : ctx.chunkParse = (decoded (offered ctx t)).state
  terminated : ctx.terminated = (decoded (offered ctx t)).aborted
  unread : ctx.handShake.state = .done → ctx.connection.recvBuf = (decoded (offered ctx t)).unread

/-- Bytes that are not parsed are not offered, and nothing is left behind a finished
handshake that is not parsed. -/
theorem offered_of_no_parse {env : HandShakeEnv} {t acts : List Action} {ctx next : RtmpContext}
    {e : RtmpContext.Event} (hinv : Inv env t ctx) (h : Stepped env ctx e next acts)
    (hacts : ∀ given left, .parse given left ∉ acts) :
    offered next (t ++ acts) = offered ctx t ∧
      (next.handShake.state = .done → next.connection.recvBuf = [] ∧ offered ctx t = [] ∨
        ctx.handShake.state = .done ∧ next.connection.recvBuf = ctx.connection.recvBuf) := by
  have hnext := hinv.step h
  have hnot (hstate : ctx.handShake.state ≠ .done) (hstate' : next.handShake.state ≠ .done) :
      offered next (t ++ acts) = offered ctx t ∧
        (next.handShake.state = .done → next.connection.recvBuf = [] ∧ offered ctx t = [] ∨
          ctx.handShake.state = .done ∧ next.connection.recvBuf = ctx.connection.recvBuf) := by
    rw [offered_of_not_done hstate, offered_of_not_done hstate']
    exact ⟨rfl, fun hdone => absurd hdone hstate'⟩
  cases h with
  | idle h =>
    have hstate : ctx.handShake.state ≠ .done := by
      rcases h with ⟨h, -⟩ | h | h | ⟨h, -⟩ <;> simp [h]
    exact hnot hstate hstate
  | accept hbuf h hlen hversion hstate =>
    exact hnot (by simp [h]) (by simp [RtmpContext.moved, hstate])
  | refuse hbuf h => exact hnot (by simp [h]) (by simp [RtmpContext.moved, RtmpContext.close, h])
  | @finish seg replies buf hs hbuf h hlen hstate =>
    have hleft : (({ ctx with hasMessageCallback := true } : RtmpContext).moved hs []
        RtmpContext.initialMessages).connection.recvBuf = [] := TcpConnection.sendAll_recvBuf _ _
    have hempty := (hnext.arrived_of_done hstate).2
    have hsame : parsed (t ++ ([.received seg, .retrieved buf, .handShakeDone] ++
        RtmpContext.initialMessages.map .send)) = parsed t := by
      simp [parsed, RtmpContext.initialMessages]
    rw [hleft, hsame, hinv.parsed_eq_nil (by simp [h])] at hempty
    rw [offered_of_done hstate, offered_of_not_done (by simp [h])]
    exact ⟨hempty.symm, fun _ => .inl ⟨hleft, rfl⟩⟩
  | @finishParse seg replies buf left => exact absurd (by simp) (hacts (buf.drop 1536) left)
  | @parse seg replies buf left => exact absurd (by simp) (hacts buf left)
  | readFailed =>
    have harrived : arrived (t ++ [.close]) = arrived t := by simp [arrived]
    refine ⟨?_, fun hdone => .inr ⟨hdone, rfl⟩⟩
    rw [offered, offered, harrived]
    rfl
  | @wrote out rest ho hq h =>
    have harrived : arrived (t ++ [.written out]) = arrived t := by simp [arrived]
    refine ⟨?_, fun hdone => .inr ⟨hdone, TcpConnection.writeSucceeded_recvBuf _⟩⟩
    rw [offered, offered, harrived]
  | wroteS0S1 ho hq h => exact hnot (by simp [h]) (by simp)
  | wroteS2 ho hq h => exact hnot (by simp [h]) (by simp)
  | writeFailed =>
    have harrived : arrived (t ++ [.close]) = arrived t := by simp [arrived]
    refine ⟨?_, fun hdone => .inr ⟨hdone, rfl⟩⟩
    rw [offered, offered, harrived]

/-- An event without parsing leaves the parser with what it has been offered. -/
theorem Offering.rest {env : HandShakeEnv} {t acts : List Action} {ctx next : RtmpContext}
    {e : RtmpContext.Event} (hinv : Inv env t ctx) (hoffering : Offering t ctx)
    (h : Stepped env ctx e next acts) (hacts : ∀ given left, .parse given left ∉ acts)
    (hparser : next.chunkParse = ctx.chunkParse) (hterm : next.terminated = ctx.terminated) :
    Offering (t ++ acts) next := by
  obtain ⟨hoffered, hbuf⟩ := offered_of_no_parse hinv h hacts
  refine ⟨?_, ?_, fun hdone => ?_⟩
  · rw [hparser, hoffered, hoffering.chunkParse]
  · rw [hterm, hoffered, hoffering.terminated]
  · rw [hoffered]
    rcases hbuf hdone with ⟨hempty, hnone⟩ | ⟨hwas, hbuf⟩
    · rw [hempty, hnone]
      rfl
    · rw [hbuf, hoffering.unread hwas]

/-- What is parsed is what was unread before, and what has arrived since. -/
theorem offered_of_parse {env : HandShakeEnv} {t acts : List Action} {ctx next : RtmpContext}
    {e : RtmpContext.Event} {given left : Bytes} (hinv : Inv env t ctx)
    (h : Stepped env ctx e next acts) (hacts : .parse given left ∈ acts) :
    next.handShake.state = .done ∧ ∃ seg, offered next (t ++ acts) = offered ctx t ++ seg ∧
      (ctx.handShake.state = .done ∧ given = ctx.connection.recvBuf ++ seg ∨
        offered ctx t = [] ∧ given = seg) := by
  have hnext := hinv.step h
  have hsend := parse_not_mem_sends given left
  cases h with
  | idle => simp at hacts
  | accept => simp at hacts
  | refuse => simp at hacts
  | finish =>
    simp only [List.mem_append, List.mem_cons, List.not_mem_nil, reduceCtorEq, or_false,
      false_or] at hacts
    exact absurd hacts (hsend _)
  | @finishParse seg replies buf left' hs chunkParse terminated hbuf h hlen hstate hleft =>
    have hgiven : given = buf.drop 1536 := by
      have hnone := hsend (RtmpContext.answers replies)
      simp [RtmpContext.initialMessages, hnone] at hacts
      exact hacts.1
    obtain ⟨c0c1, hc0c1, harrived⟩ := hinv.arrived_of_exchange (.inr (.inr h))
    refine ⟨hstate, buf.drop 1536, ?_, .inr ⟨offered_of_not_done (by simp [h]) t, hgiven⟩⟩
    have hall : arrived (t ++ ([Action.received seg, .retrieved (buf.take 1536), .handShakeDone] ++
        RtmpContext.initialMessages.map .send ++
        Action.parse (buf.drop 1536) left' :: (RtmpContext.answers replies).map .send)) =
        c0c1 ++ buf := by
      have hnone := (RtmpContext.marks_map_send (RtmpContext.answers replies)).1
      rw [RtmpContext.arrived_append, harrived, hbuf, List.append_assoc]
      simp only [arrived] at hnone ⊢
      simp [RtmpContext.initialMessages, hnone]
    rw [offered_of_done hstate, offered_of_not_done (by simp [h]), hall, List.drop_append, hc0c1,
      List.drop_of_length_le (by omega)]
  | @parse seg replies buf left' chunkParse terminated hbuf h hleft =>
    have hgiven : given = buf := by
      have hnone := hsend (RtmpContext.answers replies)
      simp [hnone] at hacts
      exact hacts.1
    refine ⟨h, seg, ?_, .inl ⟨h, hgiven.trans hbuf⟩⟩
    have hall : arrived (t ++ ([Action.received seg, .parse buf left'] ++
        (RtmpContext.answers replies).map .send)) = arrived t ++ seg := by
      have hnone := (RtmpContext.marks_map_send (RtmpContext.answers replies)).1
      rw [RtmpContext.arrived_append]
      simp only [arrived] at hnone ⊢
      simp [hnone]
    rw [offered_of_done (by exact h), offered_of_done h, hall,
      List.drop_append_of_le_length (hinv.arrived_of_done h).1]
  | readFailed => simp at hacts
  | wrote => simp at hacts
  | wroteS0S1 => simp at hacts
  | wroteS2 => simp at hacts
  | writeFailed => simp at hacts

end ServerContext
