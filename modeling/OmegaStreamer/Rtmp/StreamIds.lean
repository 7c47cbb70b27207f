-- SUMMARY: The stream that publish and play are answered on, and when it is that of their message.
import OmegaStreamer.Rtmp.Publishing
import OmegaStreamer.Rtmp.Replies

/-!
# Stream ids

A session keeps one stream id, that of the last `createStream`, and the handlers of
commands are not given the header of their message. A `publish` or `play` is answered on
the stream of its message if and only if that is the last one that was created.
-/

/-- A packet is the reply of one message only. -/
theorem Reply.Sent.content {r r' : Reply} {packet : Bytes} (h : r.Sent packet)
    (h' : r'.Sent packet) : ∃ c : MessageContent, r.Is c ∧ r'.Is c := by
  obtain ⟨c, his, hpacket, hsendable, -⟩ := h
  obtain ⟨c', his', hpacket', hsendable', -⟩ := h'
  -- a parser that reads the packet finds one message in it
  have hrange : ChunkSizeInRange ({ inChunkSize := 4096 } : RtmpChunkParse).inChunkSize :=
    ⟨by decide, by decide⟩
  obtain ⟨st, msg, hparse, hmsg, -⟩ := RtmpChunkParse.parseOneChunk_packet hrange hsendable
  obtain ⟨st', msg', hparse', hmsg', -⟩ := RtmpChunkParse.parseOneChunk_packet hrange hsendable'
  rw [← hpacket, hpacket', hparse'] at hparse
  cases hparse
  rw [← hmsg', hmsg] at his'
  exact ⟨c, his, his'⟩

theorem Reply.streamBegin_sent_inj {id id' : UInt32} {packet : Bytes}
    (h : (streamBegin id).Sent packet) (h' : (streamBegin id').Sent packet) : id = id' := by
  obtain ⟨c, his, his'⟩ := h.content h'
  rw [streamBegin, Is] at his his'
  have hpayload := congrArg MessageContent.payload (his.symm.trans his')
  have hnumber := congrArg Endian.ofBE (List.append_cancel_left hpayload)
  have hfit (id : UInt32) : id.toNat < 256 ^ 4 := Nat.lt_of_lt_of_eq id.toNat_lt (by decide)
  rw [Endian.ofBE_toBE, Endian.ofBE_toBE, Nat.mod_eq_of_lt (hfit id),
    Nat.mod_eq_of_lt (hfit id')] at hnumber
  exact UInt32.toNat_inj.mp hnumber

namespace RtmpSession

/-! ## Streams created -/

/-- The number of `createStream` commands. -/
def created (msgs : List RtmpMessage) : Nat :=
  (msgs.filterMap commandOf).countP fun cmd => cmd.name = Bytes.ofAscii "createStream"

/-- The id that the last of them was answered with. -/
def latestId (msgs : List RtmpMessage) : UInt32 := UInt32.ofNat (created msgs)

theorem created_concat (msgs : List RtmpMessage) (msg : RtmpMessage) :
    created (msgs ++ [msg]) =
      ((commandOf msg).map fun cmd => Reply.createdAfter (created msgs) cmd.name).getD
        (created msgs) := by
  rw [created, List.filterMap_append, List.countP_append]
  cases h : commandOf msg with
  | none =>
    rw [List.filterMap_cons_none h, List.filterMap_nil, List.countP_nil]
    rfl
  | some cmd =>
    rw [List.filterMap_cons_some h, List.filterMap_nil, List.countP_singleton]
    simp only [Option.map_some, Option.getD_some, Reply.createdAfter, decide_eq_true_eq]
    split <;> rfl

/-- The session has the ids of the streams that were created. -/
theorem created_run (msgs : List RtmpMessage) : Created (created msgs) (run {} msgs).1 := by
  induction msgs using List.reverseRecOn with
  | nil => exact ⟨rfl, rfl⟩
  | append_singleton msgs msg ih =>
    rw [run, Mealy.exec_concat, created_concat]
    cases hcmd : commandOf msg with
    | none =>
      obtain ⟨hsame, -⟩ := handleMessage_quiet (run {} msgs).1 hcmd
      exact ⟨hsame.streamId.trans ih.streamId, hsame.nextStreamId.trans ih.nextStreamId⟩
    | some cmd =>
      have hserved := (ih.serve cmd).1
      rw [← handleMessage_command _ hcmd] at hserved
      exact hserved

/-! ## Answers -/

/-- A StreamBegin and an `onStatus` for the stream are sent, and nothing else. -/
def AnsweredOn (id : UInt32) (effects : List Effect) : Prop :=
  ∃ begins status code description, sends effects = [begins, status] ∧
    (Reply.streamBegin id).Sent begins ∧ (Reply.onStatus id code description).Sent status

/-- A `publish` or `play` is answered on the stream that the session has. -/
theorem answeredOn_iff {s : RtmpSession} {msg : RtmpMessage} (h : (streamRequest msg).isSome)
    (id : UInt32) : AnsweredOn id (s.handleMessage msg).2 ↔ id = s.streamId := by
  obtain ⟨stream, hrequest⟩ := Option.isSome_iff_exists.mp h
  obtain ⟨cmd, hcmd, hstream⟩ := Option.bind_eq_some_iff.mp hrequest
  have hanswer (code description : String) {packets : List Bytes}
      (hsends : packets = [sendUserControlStreamBegin s.streamId,
        sendOnStatus s.streamId (Bytes.ofAscii "status") (Bytes.ofAscii code)
          (Bytes.ofAscii description)])
      (hstatus : (Reply.onStatus s.streamId code description).Sent
        (sendOnStatus s.streamId (Bytes.ofAscii "status") (Bytes.ofAscii code)
          (Bytes.ofAscii description))) :
      (∃ begins status code description, packets = [begins, status] ∧
        (Reply.streamBegin id).Sent begins ∧ (Reply.onStatus id code description).Sent status) ↔
      id = s.streamId := by
    constructor
    · rintro ⟨begins, status, code, description, hpackets, hbegins, -⟩
      rw [hsends] at hpackets
      cases hpackets
      exact Reply.streamBegin_sent_inj hbegins (Reply.sent_streamBegin s.streamId)
    · rintro rfl
      exact ⟨_, _, code, description, hsends, Reply.sent_streamBegin _, hstatus⟩
  rw [handleMessage_command s hcmd, AnsweredOn]
  have hserved := serve_served s cmd
  generalize s.serve cmd = out at hserved ⊢
  cases hserved with
  | connect hname =>
    rw [Command.stream_connect hname] at hstream
    cases hstream
  | createStream hname =>
    rw [Command.stream_createStream hname] at hstream
    cases hstream
  | publish hname =>
    apply hanswer "NetStream.Publish.Start" "Start publishing" rfl
    exact Reply.sent_onStatus s.streamId (by decide) (by decide)
  | play hname =>
    apply hanswer "Netstream.Play.Start" "Start playing" rfl
    exact Reply.sent_onStatus s.streamId (by decide) (by decide)
  | other _ _ hpublish hplay =>
    rw [Command.stream_other hpublish hplay] at hstream
    cases hstream

/-! ### Whole runs -/

/-- Every `publish` and `play` is answered on the stream of its message. -/
def AnsweredOnOwn (msgs : List RtmpMessage) : Prop :=
  ∀ before msg after, msgs = before ++ msg :: after → (streamRequest msg).isSome →
    AnsweredOn msg.header.msgStreamId ((run {} before).1.handleMessage msg).2

/-- Every `publish` and `play` comes on the stream that was created last. -/
def OnLatest (msgs : List RtmpMessage) : Prop :=
  ∀ before msg after, msgs = before ++ msg :: after → (streamRequest msg).isSome →
    msg.header.msgStreamId = latestId before

/-- Every `publish` and `play` comes on a stream that has been created. -/
def OnCreated (msgs : List RtmpMessage) : Prop :=
  ∀ before msg after, msgs = before ++ msg :: after → (streamRequest msg).isSome →
    1 ≤ msg.header.msgStreamId.toNat ∧ msg.header.msgStreamId.toNat ≤ created before

/-- All are answered on their own streams if and only if all come on the latest. -/
theorem answeredOnOwn_iff (msgs : List RtmpMessage) : AnsweredOnOwn msgs ↔ OnLatest msgs := by
  have heach (before : List RtmpMessage) {msg : RtmpMessage} (h : (streamRequest msg).isSome) :
      AnsweredOn msg.header.msgStreamId ((run {} before).1.handleMessage msg).2 ↔
        msg.header.msgStreamId = latestId before := by
    rw [answeredOn_iff h, (created_run before).streamId]
    rfl
  constructor
  · intro hanswered before msg after hsplit h
    exact (heach before h).mp (hanswered before msg after hsplit h)
  · intro hlatest before msg after hsplit h
    exact (heach before h).mpr (hlatest before msg after hsplit h)

/-- The message on another stream. -/
def onStream (id : UInt32) (msg : RtmpMessage) : RtmpMessage :=
  { msg with header := { msg.header with msgStreamId := id } }

/-- Two streams are created, and the first one is published. -/
def firstOfTwo : List RtmpMessage :=
  [createStream 2, createStream 3, onStream 1 (streamCommand "publish" 4 "test")]

/-- The answer is for the second. -/
theorem firstOfTwo_not_answered : OnCreated firstOfTwo ∧ ¬ AnsweredOnOwn firstOfTwo := by
  constructor
  · have heach : Trace.Each (fun before msg => (streamRequest msg).isSome →
        1 ≤ msg.header.msgStreamId.toNat ∧ msg.header.msgStreamId.toNat ≤ created before)
        [] firstOfTwo :=
      ⟨by decide +kernel, by decide +kernel, by decide +kernel, trivial⟩
    exact (Trace.each_iff [] firstOfTwo).mp heach
  · intro h
    have hrequest : (streamRequest (onStream 1 (streamCommand "publish" 4 "test"))).isSome := by
      decide +kernel
    have hanswered := h [createStream 2, createStream 3] _ [] rfl hrequest
    rw [answeredOn_iff hrequest] at hanswered
    exact absurd hanswered (by decide +kernel)

end RtmpSession
