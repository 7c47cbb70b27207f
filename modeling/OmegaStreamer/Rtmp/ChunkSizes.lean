-- SUMMARY: The chunk size that the peer announces, and the one that the parser cuts chunks with.
import OmegaStreamer.Rtmp.HandShakeRuns

/-!
# Chunk sizes

A SetChunkSize message is handled inside the call of `parseOneChunk` that completes
it. The calls of a run form a history. What the peer has announced in the history is
compared with the size that the parser has after each call.
-/

open Resumable BytesReader

/-! ## The peer's size -/

/-- The size that a message announces, when it is a valid one. -/
def announced (msg : RtmpMessage) : Option Int :=
  let size := readUint32BE msg.payload &&& 0x7FFFFFFF
  if msg.header.msgType = kMsgTypeSetChunkSize ∧ 4 ≤ msg.payload.length ∧ size ≠ 0 then
    some size.toNat
  else none

/-- The size that a peer which has sent the messages cuts its chunks with. -/
def peerChunkSize (msgs : List RtmpMessage) : Int :=
  msgs.foldl (fun n msg => (announced msg).getD n) kDefaultChunkSize

theorem peerChunkSize_append_singleton (msgs : List RtmpMessage) (msg : RtmpMessage) :
    peerChunkSize (msgs ++ [msg]) = (announced msg).getD (peerChunkSize msgs) := by
  rw [peerChunkSize, List.foldl_append]
  rfl

/-- The callback follows an announcement exactly up to `kMaxChunkSize`. -/
theorem chunkSizeCallback_eq (msg : RtmpMessage) (n : Int) :
    chunkSizeCallback msg n =
      match announced msg with
      | some v => if v ≤ kMaxChunkSize.toNat then v else n
      | none => n := by
  unfold chunkSizeCallback announced
  split
  swap
  · rename_i htype
    rw [if_neg fun h => htype h.1]
  rename_i htype
  unfold handleSetChunkSize
  split
  · rename_i hshort
    rw [if_neg fun h => Nat.not_le.mpr hshort h.2.1]
  rename_i hlong
  generalize readUint32BE msg.payload &&& 0x7FFFFFFF = size
  have hmax : size > kMaxChunkSize ↔ ¬ (size.toNat : Int) ≤ kMaxChunkSize.toNat := by
    rw [gt_iff_lt, UInt32.lt_iff_toNat_lt]
    omega
  simp only
  by_cases hzero : size = 0
  · rw [if_pos (.inl hzero), if_neg fun h => h.2.2 hzero]
  · rw [if_pos (c := _ ∧ _) ⟨htype, Nat.le_of_not_lt hlong, hzero⟩]
    simp only [hzero, hmax, false_or, ite_not]

namespace RtmpChunkParse

/-- The parser has the chunk size, and cuts the next chunk of every chunk stream with
it, whatever is half received there. -/
structure CutsWith (st : RtmpChunkParse) (size : Int) : Prop where
  size_eq : st.inChunkSize = size
  dataSize_eq (header : RtmpMsgHeader) (hlen : header.msgLen.toNat < 2 ^ 24) :
    st.dataSize (st.openMessage header) =
      min ((st.openMessage header).header.msgLen.toNat -
        ((st.openMessage header).payload.length : Int)) size

theorem WellFormed.cutsWith {st : RtmpChunkParse} (hw : st.WellFormed) {size : Int}
    (h : st.inChunkSize = size) : st.CutsWith size where
  size_eq := h
  dataSize_eq header hlen := by
    obtain ⟨hml, hpl⟩ := hw.openMessage hlen
    rw [dataSize_eq st hml hpl, h]

/-- One call delivers at most one message, and only that can change the size. -/
theorem parseOneChunk_delivers {cb : MessageCallback} {st st' : RtmpChunkParse} {buf : Bytes}
    {n : Nat} {out : List RtmpMessage} (h : st.parseOneChunk cb buf = .item st' n out) :
    (out = [] ∧ st'.inChunkSize = st.inChunkSize) ∨
      ∃ msg, out = [msg] ∧ st'.inChunkSize = cb msg st.inChunkSize := by
  have ho := parseOneChunk_outcome cb st buf
  rw [h] at ho
  cases ho with
  | data head size hhead hsize hs out hout =>
    subst hout
    unfold finishChunk
    simp only
    split
    · exact .inr ⟨_, rfl, rfl⟩
    · exact .inl ⟨rfl, rfl⟩

/-- A call that waits leaves the size alone. -/
theorem parseOneChunk_wait_inChunkSize {cb : MessageCallback} {st st' : RtmpChunkParse}
    {buf : Bytes} (h : st.parseOneChunk cb buf = .wait st') :
    st'.inChunkSize = st.inChunkSize := by
  have ho := parseOneChunk_outcome cb st buf
  rw [h] at ho
  cases ho with
  | headless => rfl
  | short => rfl

end RtmpChunkParse

namespace RtmpContext

/-! ## The calls of the parser -/

/-- What `Parse` calls for a complete message. -/
def messageCallback (ctx : RtmpContext) : MessageCallback :=
  if ctx.hasMessageCallback then chunkSizeCallback else fun _ n => n

/-- The context that an event calls `Parse` on, if it does. -/
def parsing (env : HandShakeEnv) (ctx : RtmpContext) : Event → Option RtmpContext
  | .read seg _ =>
    let ctx := ctx.received seg
    if ctx.handShake.isDone then some ctx
    else
      let (ret, ctx, _) := ctx.shake env
      if ret = 0 ∧ ctx.onHandShakeDone.1.connection.recvBuf ≠ [] then
        some ctx.onHandShakeDone.1
      else none
  | _ => none

/-- A call of `parseOneChunk`, and the context that `Parse` was called on. -/
structure ChunkCall where
  given : RtmpContext
  state : RtmpChunkParse
  buf : Bytes

namespace ChunkCall

def attempt (c : ChunkCall) : Attempt RtmpChunkParse RtmpMessage :=
  c.state.parseOneChunk c.given.messageCallback c.buf

def messages (c : ChunkCall) : List RtmpMessage := c.attempt.delivered

theorem messages_eq {c : ChunkCall} {a : Attempt RtmpChunkParse RtmpMessage}
    (h : c.attempt = a) : c.messages = a.delivered :=
  congrArg Attempt.delivered h

end ChunkCall

/-- The calls that `Parse` makes. -/
def parseCalls (given : RtmpContext) : List ChunkCall :=
  (attemptsFuel (RtmpChunkParse.parseOneChunk given.messageCallback)
    given.connection.recvBuf.length given.chunkParse given.connection.recvBuf).map
    fun (st, buf) => ⟨given, st, buf⟩

/-- The calls that an event makes. -/
def eventCalls (env : HandShakeEnv) (ctx : RtmpContext) (e : Event) : List ChunkCall :=
  match ctx.parsing env e with
  | none => []
  | some given => given.parseCalls

/-- The calls that the events make, as far as they can happen. -/
def chunkCalls (env : HandShakeEnv) : RtmpContext → List Event → List ChunkCall
  | _, [] => []
  | ctx, e :: es =>
    match step env ctx e with
    | none => []
    | some (next, _) => ctx.eventCalls env e ++ chunkCalls env next es

/-- The messages of a history. -/
def messagesOf (calls : List ChunkCall) : List RtmpMessage := calls.flatMap ChunkCall.messages

/-! ### One event -/

/-- What an event does to the parser. -/
inductive ParserStep (ctx next : RtmpContext) : Option RtmpContext → Prop where
  | idle (h : next.chunkParse = ctx.chunkParse)
      (hopen : next.connection.closed = false → ctx.connection.closed = false) :
      ParserStep ctx next none
  | parse {given : RtmpContext} {replies : List Bytes} (h : given.chunkParse = ctx.chunkParse)
      (hclosed : given.connection.closed = ctx.connection.closed)
      (hcallback : given.hasMessageCallback = true) (hnext : next = (given.parse replies).1) :
      ParserStep ctx next (some given)

theorem ParserStep.closed {ctx next : RtmpContext} (h : next.chunkParse = ctx.chunkParse)
    (hclosed : next.connection.closed = true) : ParserStep ctx next none := by
  refine .idle h fun hopen => ?_
  rw [hclosed] at hopen
  cases hopen

theorem parserStep_onMessage {env : HandShakeEnv} {ctx : RtmpContext}
    (hcallback : ctx.handShake.isDone = true → ctx.hasMessageCallback = true) (seg : Bytes)
    (replies : List Bytes) :
    ParserStep ctx ((ctx.received seg).onMessage env replies).1
      (ctx.parsing env (.read seg replies)) := by
  simp only [parsing, onMessage]
  split
  · rename_i hdone
    exact .parse rfl rfl (hcallback hdone) rfl
  generalize hshake : (ctx.received seg).shake env = r
  obtain ⟨ret, shaken, acts⟩ := r
  have hparse : shaken.chunkParse = ctx.chunkParse := by
    have h := congrArg (fun r => r.2.1.chunkParse) hshake
    exact h.symm
  have hclosed : shaken.connection.closed = ctx.connection.closed := by
    have h := congrArg (fun r => r.2.1.connection.closed) hshake
    exact h.symm.trans (TcpConnection.sendAll_closed _ _)
  have hdone : shaken.onHandShakeDone.1.connection.closed = ctx.connection.closed :=
    (TcpConnection.sendAll_closed _ _).trans hclosed
  simp only
  split
  · rename_i hneg
    rw [if_neg (fun h => absurd h.1 (Int.ne_of_lt hneg))]
    exact .closed hparse rfl
  split
  · rename_i hzero
    split
    · rename_i hempty
      rw [if_neg (fun h => h.2 hempty)]
      exact .idle hparse fun h => hdone ▸ h
    · rename_i hleft
      rw [if_pos ⟨hzero, hleft⟩]
      exact .parse hparse hdone rfl rfl
  · rename_i hwait
    rw [if_neg (fun h => hwait h.1)]
    exact .idle hparse fun h => hclosed ▸ h

theorem parserStep {env : HandShakeEnv} {t : List Action} {ctx next : RtmpContext} {e : Event}
    {acts : List Action} (hinv : Inv env t ctx) (h : step env ctx e = some (next, acts)) :
    ParserStep ctx next (ctx.parsing env e) := by
  unfold step at h
  split at h
  · cases h
  cases e with
  | read seg replies =>
    simp only at h
    split at h
    · cases h
    · cases h
      exact parserStep_onMessage (fun hdone => hinv.callback (of_decide_eq_true hdone)) seg replies
  | readFailed =>
    cases h
    exact .closed rfl rfl
  | writeSucceeded =>
    simp only at h
    split at h
    swap
    · cases h
    split at h
    · cases h
    have hclosed := ctx.connection.writeSucceeded_closed
    split at h
    · cases h
      unfold onWriteComplete
      split
      · exact .idle rfl fun h => hclosed ▸ h
      · refine .idle rfl fun h => ?_
        rw [← hclosed]
        exact (TcpConnection.sendAll_closed _ _).symm.trans h
    · cases h
      exact .idle rfl fun h => hclosed ▸ h
  | writeFailed =>
    simp only at h
    split at h
    · cases h
      exact .closed rfl rfl
    · cases h

/-! ## The history and the size -/

theorem messagesOf_concat (before : List ChunkCall) (c : ChunkCall) :
    messagesOf (before ++ [c]) = messagesOf before ++ c.messages := by
  simp [messagesOf]

/-- What is announced in the call can be followed. -/
def ChunkCall.Within (c : ChunkCall) : Prop :=
  ∀ msg ∈ c.messages, ∀ v, announced msg = some v →
    v ≤ kMaxChunkSize.toNat ∨ c.given.connection.closed = true

/-- After the call, which comes after the history, the parser cuts with the peer's
size, or the connection is closed. -/
def Followed (before : List ChunkCall) (c : ChunkCall) : Prop :=
  ∀ st n out, c.attempt = .item st n out →
    st.CutsWith (peerChunkSize (messagesOf (before ++ [c]))) ∨ c.given.connection.closed = true

/-- In particular the size of an announcement is the parser's after it. -/
theorem Followed.of_announced {before : List ChunkCall} {c : ChunkCall} {st : RtmpChunkParse}
    {n : Nat} {msg : RtmpMessage} {v : Int} (h : Followed before c)
    (hat : c.attempt = .item st n [msg]) (hann : announced msg = some v) :
    st.CutsWith v ∨ c.given.connection.closed = true := by
  have hfollowed := h st n [msg] hat
  have hmessages : c.messages = [msg] := ChunkCall.messages_eq hat
  rw [messagesOf_concat, hmessages, peerChunkSize_append_singleton, hann] at hfollowed
  exact hfollowed

/-- What relates a history to the parser. -/
structure Tracked (closed : Bool) (before : List ChunkCall) (st : RtmpChunkParse) : Prop where
  wf : st.WellFormed
  range : ChunkSizeInRange st.inChunkSize
  size_eq : closed = false → (∀ c ∈ before, c.Within) →
    st.inChunkSize = peerChunkSize (messagesOf before)

section Call

variable {before : List ChunkCall} {given : RtmpContext} {st st' : RtmpChunkParse} {buf : Bytes}

theorem ChunkCall.attempt_eq (hcallback : given.hasMessageCallback = true) :
    (⟨given, st, buf⟩ : ChunkCall).attempt = st.parseOneChunk chunkSizeCallback buf := by
  rw [ChunkCall.attempt, messageCallback, if_pos hcallback]

/-- A chunk leaves the peer's size when everything announced so far can be followed. -/
theorem Tracked.item (hcallback : given.hasMessageCallback = true)
    (htracked : Tracked given.connection.closed before st) {n : Nat} {out : List RtmpMessage}
    (h : (⟨given, st, buf⟩ : ChunkCall).attempt = .item st' n out) :
    Tracked given.connection.closed (before ++ [⟨given, st, buf⟩]) st' := by
  have hmessages : (⟨given, st, buf⟩ : ChunkCall).messages = out := ChunkCall.messages_eq h
  rw [ChunkCall.attempt_eq hcallback] at h
  obtain ⟨hw, hr⟩ := (RtmpChunkParse.parseOneChunk_lawful _ chunkSizeCallback_range).inv_item
    ⟨htracked.wf, htracked.range⟩ h
  refine ⟨hw, hr, fun hopen hwithin => ?_⟩
  rw [List.forall_mem_append, List.forall_mem_singleton] at hwithin
  have hsize := htracked.size_eq hopen hwithin.1
  rw [messagesOf_concat, hmessages]
  rcases RtmpChunkParse.parseOneChunk_delivers h with ⟨rfl, hsame⟩ | ⟨msg, rfl, hset⟩
  · rw [hsame, List.append_nil, hsize]
  · rw [hset, chunkSizeCallback_eq, peerChunkSize_append_singleton, hsize]
    have hlast := hwithin.2 msg (by rw [hmessages]; exact List.mem_singleton_self msg)
    cases hann : announced msg with
    | none => rfl
    | some v =>
      have hle := (hlast v hann).resolve_right (by rw [hopen]; exact Bool.false_ne_true)
      exact if_pos hle

/-- A call that waits leaves everything as it was. -/
theorem Tracked.wait (hcallback : given.hasMessageCallback = true)
    (htracked : Tracked given.connection.closed before st)
    (h : (⟨given, st, buf⟩ : ChunkCall).attempt = .wait st') :
    Tracked given.connection.closed (before ++ [⟨given, st, buf⟩]) st' := by
  have hmessages : (⟨given, st, buf⟩ : ChunkCall).messages = [] := ChunkCall.messages_eq h
  rw [ChunkCall.attempt_eq hcallback] at h
  obtain ⟨hw, hr⟩ := (RtmpChunkParse.parseOneChunk_lawful _ chunkSizeCallback_range).inv_wait
    ⟨htracked.wf, htracked.range⟩ h
  refine ⟨hw, hr, fun hopen hwithin => ?_⟩
  rw [List.forall_mem_append] at hwithin
  rw [RtmpChunkParse.parseOneChunk_wait_inChunkSize h, messagesOf_concat, hmessages,
    List.append_nil]
  exact htracked.size_eq hopen hwithin.1

/-- After a history that can be followed, the call is followed exactly when what it
announces can be. -/
theorem Tracked.followed_iff (hcallback : given.hasMessageCallback = true)
    (htracked : Tracked given.connection.closed before st) (hbefore : ∀ c ∈ before, c.Within) :
    Followed before ⟨given, st, buf⟩ ↔ (⟨given, st, buf⟩ : ChunkCall).Within := by
  constructor
  · intro hfollowed msg hmsg v hann
    by_contra hnot
    obtain ⟨hlarge, hopen⟩ := not_or.mp hnot
    cases hat : (⟨given, st, buf⟩ : ChunkCall).attempt with
    | wait st' => rw [ChunkCall.messages_eq hat] at hmsg; cases hmsg
    | abort st' => rw [ChunkCall.messages_eq hat] at hmsg; cases hmsg
    | item st' n out =>
      -- the parser never takes a size above the largest, and the peer's is above it
      obtain ⟨-, hle⟩ := (htracked.item hcallback hat).range
      have hsize := ((hfollowed st' n out hat).resolve_right hopen).size_eq
      have hmessages : (⟨given, st, buf⟩ : ChunkCall).messages = out :=
        ChunkCall.messages_eq hat
      rw [messagesOf_concat] at hsize
      rw [hmessages] at hmsg hsize
      rw [ChunkCall.attempt_eq hcallback] at hat
      rcases RtmpChunkParse.parseOneChunk_delivers hat with ⟨rfl, -⟩ | ⟨msg', rfl, -⟩
      · cases hmsg
      · obtain rfl := List.mem_singleton.mp hmsg
        rw [peerChunkSize_append_singleton, hann, Option.getD_some] at hsize
        exact hlarge (by rw [← hsize]; exact hle)
  · intro hwithin st' n out hat
    cases hopen : given.connection.closed with
    | true => exact .inr rfl
    | false =>
      have hitem := htracked.item hcallback hat
      refine .inl (hitem.wf.cutsWith (hitem.size_eq hopen ?_))
      exact List.forall_mem_append.mpr ⟨hbefore, List.forall_mem_singleton.mpr hwithin⟩

end Call

/-! ## Runs -/

/-- The condition on one call, in a history that can be followed. -/
def FollowedIff (before : List ChunkCall) (c : ChunkCall) : Prop :=
  (∀ b ∈ before, b.Within) → (Followed before c ↔ c.Within)

theorem Tracked.parseCalls {given : RtmpContext} {before : List ChunkCall}
    (hcallback : given.hasMessageCallback = true)
    (htracked : Tracked given.connection.closed before given.chunkParse) :
    Trace.Each FollowedIff before given.parseCalls ∧
      ((given.chunkParse.parse given.messageCallback given.connection.recvBuf).aborted = false →
        Tracked given.connection.closed (before ++ given.parseCalls)
          (given.chunkParse.parse given.messageCallback given.connection.recvBuf).state) := by
  constructor
  · exact each_attemptsFuel (fun h => h.followed_iff hcallback) (fun h => h.item hcallback)
      htracked
  · exact history_drainFuel (fun h => h.item hcallback) (fun h => h.wait hcallback) htracked

/-- One event. -/
theorem Tracked.step {env : HandShakeEnv} {t : List Action} {ctx next : RtmpContext} {e : Event}
    {acts : List Action} {before : List ChunkCall} (hinv : Inv env t ctx)
    (htracked : Tracked ctx.connection.closed before ctx.chunkParse)
    (h : RtmpContext.step env ctx e = some (next, acts)) :
    Trace.Each FollowedIff before (ctx.eventCalls env e) ∧
      (next.terminated = false →
        Tracked next.connection.closed (before ++ ctx.eventCalls env e) next.chunkParse) := by
  have hstep := parserStep hinv h
  unfold eventCalls
  generalize ctx.parsing env e = given at hstep ⊢
  cases hstep with
  | idle hsame hopen =>
    refine ⟨trivial, fun _ => ?_⟩
    rw [List.append_nil, hsame]
    exact ⟨htracked.wf, htracked.range, fun hnext => htracked.size_eq (hopen hnext)⟩
  | @parse given replies hsame hclosed hcallback hnext =>
    rw [← hsame, ← hclosed] at htracked
    obtain ⟨heach, hafter⟩ := htracked.parseCalls hcallback
    refine ⟨heach, fun hrunning => ?_⟩
    subst hnext
    have hopen : (given.parse replies).1.connection.closed = given.connection.closed :=
      TcpConnection.sendAll_closed _ _
    rw [hopen]
    exact hafter hrunning

/-- The induction is on the events; the history grows by the calls of each. -/
theorem Tracked.chunkCalls {env : HandShakeEnv} {t : List Action} {ctx : RtmpContext}
    {before : List ChunkCall} (es : List Event) (hinv : Inv env t ctx)
    (htracked : ctx.terminated = false →
      Tracked ctx.connection.closed before ctx.chunkParse) :
    Trace.Each FollowedIff before (chunkCalls env ctx es) := by
  induction es generalizing t ctx before with
  | nil => trivial
  | cons e es ih =>
    unfold RtmpContext.chunkCalls
    split
    · trivial
    · rename_i next acts hstep
      have hrunning : ctx.terminated = false := by
        cases hterm : ctx.terminated with
        | false => rfl
        | true => simp only [RtmpContext.step, hterm, if_true, reduceCtorEq] at hstep
      obtain ⟨heach, hnext⟩ := (htracked hrunning).step hinv hstep
      rw [Trace.each_append]
      exact ⟨heach, ih (hinv.step (step_eq_some hinv.phase.server hstep)) hnext⟩

/-- In every run the parser keeps to the peer's size, or the connection is closed,
exactly when no size above `kMaxChunkSize` is announced on an open connection. -/
theorem allFollowed_iff (env : HandShakeEnv) (es : List Event) :
    Trace.Each Followed [] (chunkCalls env (start env) es) ↔
      ∀ c ∈ chunkCalls env (start env) es, c.Within := by
  have hstart : Tracked false [] (start env).chunkParse :=
    ⟨RtmpChunkParse.wellFormed_init, kDefaultChunkSize_range, fun _ _ => rfl⟩
  have hcalls : Trace.Each FollowedIff [] (chunkCalls env (start env) es) :=
    Tracked.chunkCalls es (inv_start env) fun _ => hstart
  exact Trace.each_iff_forall (List.forall_mem_nil _) hcalls

/-- A call that announces a size on an open connection, and does not take it. -/
theorem not_followed {calls : List ChunkCall} {v : Int}
    (hcall : calls.any fun c => decide (c.given.connection.closed = false ∧
      c.messages.map announced = [some v] ∧ c.attempt.state.inChunkSize ≠ v)) :
    ¬ Trace.Each Followed [] calls := by
  intro hfollowed
  obtain ⟨c, hmem, hc⟩ := List.any_eq_true.mp hcall
  obtain ⟨hopen, hann, hsize⟩ := of_decide_eq_true hc
  obtain ⟨msg, hmsg, hann⟩ := List.map_eq_singleton_iff.mp hann
  obtain ⟨before, after, hsplit⟩ := List.append_of_mem hmem
  cases hat : c.attempt with
  | wait st => rw [ChunkCall.messages_eq hat] at hmsg; cases hmsg
  | abort st => rw [ChunkCall.messages_eq hat] at hmsg; cases hmsg
  | item st n out =>
    have hout : out = [msg] := (ChunkCall.messages_eq hat).symm.trans hmsg
    rw [hout] at hat
    rw [hat] at hsize
    rcases (hfollowed.of_split hsplit).of_announced hat hann with hcuts | hclosed
    · exact hsize hcuts.size_eq
    · rw [hopen] at hclosed
      exact Bool.false_ne_true hclosed

/-- A client that announces chunks of 65536 bytes after the handshake. -/
def oversizedClient : List Event :=
  [.read simpleC0C1 [], .writeSucceeded, .writeSucceeded,
    .read (List.replicate 1536 0 ++
      [0x02, 0, 0, 0, 0, 0, 4, 1, 0, 0, 0, 0, 0, 1, 0, 0]) []]

/-- The connection stays open and the parser keeps cutting with 128. -/
theorem oversizedClient_not_followed :
    ¬ Trace.Each Followed [] (chunkCalls zeroEnv (start zeroEnv) oversizedClient) := by
  apply not_followed (v := 65536)
  decide +kernel

end RtmpContext
