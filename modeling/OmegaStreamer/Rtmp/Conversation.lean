-- SUMMARY: A whole conversation: a client's messages are handled in order, and the bytes it gets back decode to the replies.
import OmegaStreamer.Rtmp.Replies
import OmegaStreamer.Rtmp.ServerRuns

/-!
# Conversations

A client sends its two handshake packets and then the chunks of its messages. The
bytes arrive in any segments, and the server's writes are completed at any time.
The server handles exactly the client's messages, and a client that reads the
server's bytes finds both packets of the handshake, the greeting, and the replies to
its messages in their order.
-/

open Resumable RtmpSession

open RtmpChunkParse (decoded)

namespace RtmpSession

/-- What is sent from `onHandShakeDone` on is one packet for each message of the greeting
and each reply. -/
theorem output_packets (msgs : List RtmpMessage) :
    ∃ cs, output msgs = (cs.map MessageContent.packet).flatten ∧
      MessageContent.AllSendable kDefaultChunkSize cs ∧
      List.Forall₂ Reply.Is (Reply.greeting ++ Reply.repliesToAll 0 msgs) cs := by
  have hstart : Created 0 {} := ⟨rfl, rfl⟩
  obtain ⟨cs, hall, hpackets, hcs⟩ := contents_of_sent (hstart.run msgs)
  refine ⟨greetingContents ++ cs, ?_, ?_, List.rel_append greeting_is hall⟩
  · rw [output, initialMessages_bytes, hpackets, List.map_append]
  · exact allSendable_greeting (MessageContent.allSendable_of_forall hcs)

end RtmpSession

namespace ServerContext

open RtmpContext (Action arrived sent written)

/-- The bytes that have been written to the socket. -/
def wire (t : List Action) : Bytes := (written t).flatMap (·.bytes)

/-- What a server has come to in a conversation with a client. -/
structure Conversation (env : HandShakeEnv) (c0c1 : Bytes) (t : List Action)
    (effects : List Effect) (ctx : ServerContext) (msgs : List RtmpMessage) : Prop where
  /-- The handlers have run on these messages. -/
  session : ctx.session = (RtmpSession.run {} msgs).1
  effects : Effected ctx.connection.closed msgs effects
  handShake : (wire t).take 3073 = RtmpContext.s0s1 env ++ RtmpContext.s2 env c0c1
  /-- A client's parser finds the greeting and the replies. -/
  replies (segs : List Bytes) : RtmpChunkParse.Segments ((wire t).drop 3073) segs →
    ∃ st delivered, RtmpChunkParse.receive chunkSizeCallback segs = ⟨st, [], delivered, false⟩ ∧
      List.Forall₂ (fun r msg => r.Is msg.content)
        (Reply.greeting ++ Reply.repliesToAll 0 msgs) delivered

/-- The bytes on the wire when nothing is being written. -/
theorem Served.wire_eq {env : HandShakeEnv} {t : List Action} {effects : List Effect}
    {ctx : ServerContext} (hserved : Served env t effects ctx)
    (hdone : ctx.handShake.state = .done) (hidle : ctx.connection.writeQueue = []) :
    wire t = RtmpContext.s0s1 env ++ RtmpContext.s2 env ((arrived t).take 1537) ++
      RtmpSession.output (decoded ((arrived t).drop 3073)).delivered := by
  have hwritten := hserved.written
  rw [hidle, List.append_nil, hserved.sent, hdone] at hwritten
  have hreplies (replies : List Bytes) :
      (RtmpContext.answers replies).flatMap (·.bytes) = replies.flatten := by
    simp only [RtmpContext.answers, List.flatMap_map, List.flatMap_id']
  have hgreeting : RtmpContext.initialMessages.flatMap (·.bytes) =
      (RtmpContext.initialMessages.map (·.bytes)).flatten := List.flatMap_def
  rw [wire, hwritten, output, if_pos rfl, RtmpContext.handShakeOutput, RtmpSession.output,
    List.flatten_append, ← hgreeting, List.flatMap_append, List.flatMap_append, hreplies]
  simp only [List.flatMap_cons, List.flatMap_nil, List.append_nil, List.append_assoc]

/-- When the handshake is done and nothing is being written, the messages that the client
has completed have been handled, in order, and what it can read are the handshake, the
greeting and the replies to them. -/
theorem conversation {env : HandShakeEnv} {es : List Event} {t : List Action}
    {effects : List Effect} {ctx : ServerContext} (hrun : run env es = some (ctx, t, effects))
    (hlen : Countable t) {c0c1 c2 : Bytes} (hc0c1 : c0c1.length = 1537) (hc2 : c2.length = 1536)
    {sendEvents : List SendEvent} {chunks : List ChunkSent} {s : Sender}
    (hsender : Mealy.run Sender.step {} sendEvents = some (s, chunks))
    (hshort : ∀ e ∈ sendEvents, e.ShortField)
    (harrived : arrived t = c0c1 ++ c2 ++ Sender.bytes chunks)
    (hdone : ctx.handShake.state = .done) (hidle : ctx.connection.writeQueue = []) :
    ∃ msgs, msgs.map RtmpMessage.stamped = (Sender.completed chunks).map SentMessage.stamped ∧
      Conversation env c0c1 t effects ctx msgs := by
  obtain ⟨hinv, hkept⟩ := run_kept hrun hlen
  have hserved := hkept.served hinv
  have hfirst : (arrived t).take 1537 = c0c1 := by
    rw [harrived, List.append_assoc, ← hc0c1, List.take_left]
  have hrest : (arrived t).drop 3073 = Sender.bytes chunks := by
    have hlength : (c0c1 ++ c2).length = 3073 := by rw [List.length_append, hc0c1, hc2]
    rw [harrived, ← hlength, List.drop_left]
  obtain ⟨hsmall, -⟩ := RtmpChunkParse.receive_chunks hsender
    (Sender.aligned_of_shortField hsender hshort)
  have hchunks : RtmpChunkParse.Segments (Sender.bytes chunks)
      (chunks.map fun o => o.chunk.encode) := by
    refine ⟨rfl, fun seg hseg => ?_⟩
    obtain ⟨o, ho, rfl⟩ := List.mem_map.mp hseg
    exact hsmall o ho
  obtain ⟨st, -, msgs, hreceive, hmsgs⟩ := RtmpChunkParse.receive_sent hsender
    (Sender.aligned_of_shortField hsender hshort) hchunks
  rw [RtmpChunkParse.receive_eq_decoded hchunks] at hreceive
  have hhandled : handled ctx.handShake.state (arrived t) = msgs := by
    rw [handled, if_pos hdone, hrest, hreceive]
  have hwire := hserved.wire_eq hdone hidle
  rw [hfirst, hrest, hreceive] at hwire
  have hpackets : (RtmpContext.s0s1 env ++ RtmpContext.s2 env c0c1).length = 3073 := by
    rw [List.length_append]
    have hs0s1 : (RtmpContext.s0s1 env).length = 1537 := RtmpHandShake.length_createC1S1 env {}
    have hs2 : (RtmpContext.s2 env c0c1).length = 1536 :=
      RtmpHandShake.length_c2s2For env _ c0c1
    rw [hs0s1, hs2]
  refine ⟨msgs, hmsgs, ⟨?_, ?_, ?_, fun segs hsegs => ?_⟩⟩
  · rw [hserved.session, hhandled]
  · have heffects := hserved.effects
    rw [hhandled] at heffects
    exact heffects
  · rw [hwire, ← hpackets, List.take_left]
  · rw [hwire, ← hpackets, List.drop_left] at hsegs
    obtain ⟨cs, houtput, hsendable, his⟩ := output_packets msgs
    rw [houtput] at hsegs
    obtain ⟨st', delivered, hdelivered, hcontent⟩ :=
      RtmpChunkParse.receive_packets hsendable hsegs
    refine ⟨st', delivered, hdelivered, ?_⟩
    rw [← List.forall₂_map_right_iff, hcontent]
    exact his

/-! ### A conversation -/

/-- One command, and a second message that has only begun. -/
def sentCommands : List SendEvent := [
  .start RtmpChunkParse.commandStream (.fmt0 0 kMsgTypeAMF0Command 0)
    ⟨(createStream 2).payload, by decide⟩,
  .start RtmpChunkParse.controlStream (.fmt0 7 kMsgTypeAudio 1)
    ⟨List.replicate 200 0xAF, by decide +kernel⟩]

/-- The bytes of the sender, cut where they please the network. -/
def talkingClient (bytes : Bytes) : List Event :=
  [.read RtmpContext.simpleC0C1, .writeSucceeded, .writeSucceeded,
    .read (List.replicate 1536 0 ++ bytes.take 20), .writeSucceeded,
    .read (bytes.drop 20), .writeSucceeded, .writeSucceeded, .writeSucceeded]

theorem conversation_createStream : ∃ t effects ctx msgs,
    msgs.map RtmpMessage.content =
        [(commandMessage (request "createStream" 2).encodeNull).content] ∧
      Conversation RtmpContext.zeroEnv RtmpContext.simpleC0C1 t effects ctx msgs := by
  have hsend : (Mealy.run Sender.step {} sentCommands).any fun r =>
      (run RtmpContext.zeroEnv (talkingClient (Sender.bytes r.2))).any fun r' =>
        decide ((∀ a ∈ r'.2.1, Counted a) ∧
          arrived r'.2.1 = RtmpContext.simpleC0C1 ++ List.replicate 1536 0 ++ Sender.bytes r.2 ∧
          r'.1.handShake.state = .done ∧ r'.1.connection.writeQueue = [] ∧
          (Sender.completed r.2).map SentMessage.content =
            [(commandMessage (request "createStream" 2).encodeNull).content]) := by
    decide +kernel
  obtain ⟨⟨s, chunks⟩, hsender, h⟩ := (Option.any_eq_true _ _).mp hsend
  obtain ⟨⟨ctx, t, effects⟩, hrun, h⟩ := (Option.any_eq_true _ _).mp h
  obtain ⟨hlen, harrived, hdone, hidle, hcompleted⟩ := of_decide_eq_true h
  obtain ⟨msgs, hmsgs, htalk⟩ := conversation hrun hlen (by decide +kernel)
    List.length_replicate hsender (by decide) harrived hdone hidle
  refine ⟨t, effects, ctx, msgs, ?_, htalk⟩
  have hcontent := congrArg (List.map Prod.fst) hmsgs
  simp only [List.map_map] at hcontent
  exact hcontent.trans hcompleted

end ServerContext
