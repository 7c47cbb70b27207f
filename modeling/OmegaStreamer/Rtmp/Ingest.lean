-- SUMMARY: Audio and video on their way to a media source, with and without the source.
import OmegaStreamer.Rtmp.Publishing

/-!
# Ingest

What becomes of the audio and video messages of a publisher. How each of them is to
be handed to a source is said by `Handed`. The handlers do so for a session that has
a source (`handed_of_source`); but a session of the context never has one.
-/

open BytesReader

namespace RtmpSession

/-! ## How media is handed over -/

/-- Format 10 is AAC, and packet type 0 its sequence header. -/
def AacHeader (payload : Bytes) : Prop :=
  (payload.at 0).toNat / 16 = 10 ∧ 2 ≤ payload.length ∧ payload.at 1 = 0

/-- Codec 7 is H.264, codec 12 is H.265, and packet type 0 the sequence header. -/
def VideoHeader (payload : Bytes) : Prop :=
  ((payload.at 0).toNat % 16 = 7 ∨ (payload.at 0).toNat % 16 = 12) ∧ 2 ≤ payload.length ∧
    payload.at 1 = 0

/-- The packet carries the message. -/
structure Carries (pkt : RtmpPacket) (msg : RtmpMessage) : Prop where
  payload : pkt.payload = msg.payload
  timestamp : pkt.timestamp = msg.header.timestamp

/-- The call that a message has to lead to. -/
inductive Handed (msg : RtmpMessage) : SourceCall → Prop where
  | audioHeader {pkt : RtmpPacket} (ht : msg.header.msgType = kMsgTypeAudio)
      (h : AacHeader msg.payload) (hpkt : Carries pkt msg) : Handed msg (.setAudioHeader pkt)
  | audio {pkt : RtmpPacket} (ht : msg.header.msgType = kMsgTypeAudio)
      (h : ¬ AacHeader msg.payload) (hpkt : Carries pkt msg) : Handed msg (.onAudio pkt)
  | videoHeader {pkt : RtmpPacket} (ht : msg.header.msgType = kMsgTypeVideo)
      (h : VideoHeader msg.payload) (hpkt : Carries pkt msg) : Handed msg (.setVideoHeader pkt)
  | video {pkt : RtmpPacket} (ht : msg.header.msgType = kMsgTypeVideo)
      (h : ¬ VideoHeader msg.payload) (hpkt : Carries pkt msg)
      (hkey : pkt.isKeyframe = true ↔ (msg.payload.at 0).toNat / 16 = 1) :
      Handed msg (.onVideo pkt)

/-- An audio or video message with a payload. -/
def isMedia (msg : RtmpMessage) : Bool :=
  (msg.header.msgType = kMsgTypeAudio ∨ msg.header.msgType = kMsgTypeVideo) ∧ msg.payload ≠ []

/-- The calls on sources, metadata apart. -/
def mediaCalls (effects : List Effect) : List (SourceRef × SourceCall) :=
  (sourceCalls effects).filter fun
    | (_, .setMetaData _) => false
    | _ => true

@[simp] theorem mediaCalls_append (es es' : List Effect) :
    mediaCalls (es ++ es') = mediaCalls es ++ mediaCalls es' := by
  simp only [mediaCalls, sourceCalls_append, List.filter_append]

/-! ### The tag header -/

theorem toNat_high_nibble (b : UInt8) : (b >>> 4 &&& 0x0F).toNat = b.toNat / 16 := by
  have hb := b.toNat_lt
  have hmask := Nat.and_two_pow_sub_one_eq_mod (b.toNat / 16) 4
  rw [UInt8.toNat_and, UInt8.toNat_shiftRight]
  simp only [UInt8.reduceToNat, Nat.reducePow, Nat.reduceSub, Nat.reduceMod,
    Nat.shiftRight_eq_div_pow] at hmask ⊢
  rw [hmask]
  omega

theorem toNat_low_nibble (b : UInt8) : (b &&& 0x0F).toNat = b.toNat % 16 :=
  Nat.and_two_pow_sub_one_eq_mod b.toNat 4

theorem aacHeader_iff (payload : Bytes) :
    (payload.at 0 >>> 4 &&& 0x0F = 10 ∧ payload.length ≥ 2 ∧ payload.at 1 = 0) ↔
      AacHeader payload := by
  rw [AacHeader, ← UInt8.toNat_inj, toNat_high_nibble]
  rfl

theorem videoHeader_iff (payload : Bytes) :
    ((payload.at 0 &&& 0x0F = 7 ∨ payload.at 0 &&& 0x0F = 12) ∧ payload.length ≥ 2 ∧
      payload.at 1 = 0) ↔ VideoHeader payload := by
  rw [VideoHeader, ← UInt8.toNat_inj, ← UInt8.toNat_inj (b := 12), toNat_low_nibble]
  rfl

theorem isKeyframe_iff (msg : RtmpMessage) :
    isKeyframe msg = true ↔ (msg.payload.at 0).toNat / 16 = 1 := by
  rw [isKeyframe, decide_eq_true_iff, ← UInt8.toNat_inj, toNat_high_nibble]
  rfl

/-! ## The calls made -/

/-- The call for an audio or video message. -/
def mediaCall (msg : RtmpMessage) : Option SourceCall :=
  if msg.payload = [] then none
  else if msg.header.msgType = kMsgTypeAudio then some (audioCall msg)
  else if msg.header.msgType = kMsgTypeVideo then some (videoCall msg)
  else none

theorem isMedia_iff (msg : RtmpMessage) : isMedia msg = true ↔ (mediaCall msg).isSome := by
  unfold isMedia mediaCall
  by_cases hempty : msg.payload = []
  · simp [hempty]
  · by_cases haudio : msg.header.msgType = kMsgTypeAudio
    · simp [hempty, haudio]
    · by_cases hvideo : msg.header.msgType = kMsgTypeVideo
      · simp [hempty, hvideo, show kMsgTypeVideo ≠ kMsgTypeAudio by decide]
      · simp [hempty, haudio, hvideo]

/-- The handlers make the call that is wanted. -/
theorem handed_mediaCall {msg : RtmpMessage} {call : SourceCall}
    (h : mediaCall msg = some call) : Handed msg call := by
  unfold mediaCall at h
  split at h
  · cases h
  split at h
  · rename_i ht
    cases h
    unfold audioCall
    simp only
    split
    · rename_i hheader
      exact .audioHeader ht ((aacHeader_iff _).mp hheader) ⟨rfl, rfl⟩
    · rename_i hheader
      exact .audio ht (mt (aacHeader_iff _).mpr hheader) ⟨rfl, rfl⟩
  split at h
  · rename_i ht
    cases h
    unfold videoCall
    simp only
    split
    · rename_i hheader
      exact .videoHeader ht ((videoHeader_iff _).mp hheader) ⟨rfl, rfl⟩
    · rename_i hheader
      exact .video ht (mt (videoHeader_iff _).mpr hheader) ⟨rfl, rfl⟩ (isKeyframe_iff msg)
  · cases h

/-- A call on a source that may be missing. -/
def given (source : Option SourceRef) (call : Option SourceCall) :
    List (SourceRef × SourceCall) :=
  match source, call with
  | some source, some call => [(source, call)]
  | _, _ => []

theorem given_none (source : Option SourceRef) : given source none = [] := by
  cases source <;> rfl

theorem mediaCalls_callSource {msg : RtmpMessage} {call : SourceCall} (h : Handed msg call)
    (s : RtmpSession) : mediaCalls (s.callSource call) = given s.mediaSource (some call) := by
  unfold callSource
  cases s.mediaSource with
  | none => rfl
  | some source =>
    cases h with
    | audioHeader => rfl
    | audio => rfl
    | videoHeader => rfl
    | video => rfl

theorem mediaCall_of_ne {msg : RtmpMessage} (haudio : msg.header.msgType ≠ kMsgTypeAudio)
    (hvideo : msg.header.msgType ≠ kMsgTypeVideo) : mediaCall msg = none := by
  unfold mediaCall
  rw [if_neg haudio, if_neg hvideo, ite_self]

theorem mediaCalls_serve (s : RtmpSession) (cmd : Command) : mediaCalls (s.serve cmd).2 = [] := by
  have hserved := serve_served s cmd
  generalize s.serve cmd = out at hserved ⊢
  cases hserved with
  | connect => rfl
  | createStream => rfl
  | publish => rfl
  | play => rfl
  | other => rfl

theorem mediaCalls_handleSetChunkSize (msg : RtmpMessage) :
    mediaCalls (handleSetChunkSize msg) = [] := by
  unfold handleSetChunkSize
  split
  · rfl
  · simp only
    split
    · rfl
    · rfl

/-- Metadata is no media. -/
theorem mediaCalls_handleAMF0Data (s : RtmpSession) (msg : RtmpMessage) :
    mediaCalls (s.handleAMF0Data msg) = [] := by
  unfold handleAMF0Data callSource
  simp only
  split
  · split
    · cases s.mediaSource with
      | none => rfl
      | some source => rfl
    · rfl
  · rfl

/-- A media message leads to its call if there is a source, and to nothing else. -/
theorem mediaCalls_handleMessage (s : RtmpSession) (msg : RtmpMessage) :
    mediaCalls (s.handleMessage msg).2 = given s.mediaSource (mediaCall msg) := by
  have hhandled := handleMessage_handled s msg
  generalize s.handleMessage msg = out at hhandled ⊢
  cases hhandled with
  | command h =>
    have ht := msgType_of_command h
    rw [mediaCall_of_ne (by rw [ht]; decide) (by rw [ht]; decide), given_none]
    exact mediaCalls_serve s _
  | setChunkSize ht _ =>
    rw [mediaCall_of_ne (by rw [ht]; decide) (by rw [ht]; decide), given_none]
    exact mediaCalls_handleSetChunkSize msg
  | metaData ht _ =>
    rw [mediaCall_of_ne (by rw [ht]; decide) (by rw [ht]; decide), given_none]
    exact mediaCalls_handleAMF0Data s msg
  | audio ht _ =>
    unfold handleAudioData mediaCall
    simp only
    split
    · exact (given_none _).symm
    · rename_i hpayload
      have hcall : mediaCall msg = some (audioCall msg) := by
        rw [mediaCall, if_neg hpayload, if_pos ht]
      exact mediaCalls_callSource (handed_mediaCall hcall) _
  | video ht _ =>
    have hne : msg.header.msgType ≠ kMsgTypeAudio := by rw [ht]; decide
    unfold handleVideoData mediaCall
    simp only
    split
    · exact (given_none _).symm
    · rename_i hpayload
      have hcall : mediaCall msg = some (videoCall msg) := by
        rw [mediaCall, if_neg hpayload, if_neg hne, if_pos ht]
      split
      · exact mediaCalls_callSource (handed_mediaCall hcall) _
      · exact mediaCalls_callSource (handed_mediaCall hcall) _
  | other _ _ haudio hvideo _ =>
    rw [mediaCall_of_ne haudio hvideo, given_none]
    rfl

/-- No handler sets or resets the source. -/
theorem handleMessage_mediaSource (s : RtmpSession) (msg : RtmpMessage) :
    (s.handleMessage msg).1.mediaSource = s.mediaSource := by
  cases hcmd : commandOf msg with
  | none => exact (handleMessage_quiet s hcmd).1.mediaSource
  | some cmd =>
    rw [handleMessage_command s hcmd]
    exact (serve_fields s cmd).2.2

theorem run_mediaSource (s : RtmpSession) (msgs : List RtmpMessage) :
    (s.run msgs).1.mediaSource = s.mediaSource := by
  induction msgs using List.reverseRecOn with
  | nil => rfl
  | append_singleton msgs msg ih =>
    rw [run_concat]
    exact (handleMessage_mediaSource _ msg).trans ih

/-- The media of a run, in the order of its messages. -/
theorem mediaCalls_run (s : RtmpSession) (msgs : List RtmpMessage) :
    mediaCalls (s.run msgs).2 = msgs.flatMap fun msg => given s.mediaSource (mediaCall msg) := by
  induction msgs using List.reverseRecOn with
  | nil => rfl
  | append_singleton msgs msg ih =>
    rw [run_concat, mediaCalls_append, ih, mediaCalls_handleMessage, run_mediaSource,
      List.flatMap_append, List.flatMap_singleton]

/-- A session with a source hands every media message to it as it has to be. -/
theorem handed_of_source {s : RtmpSession} {source : SourceRef}
    (h : s.mediaSource = some source) (msgs : List RtmpMessage) :
    List.Forall₂ (fun msg call => call.1 = source ∧ Handed msg call.2) (msgs.filter isMedia)
      (mediaCalls (s.run msgs).2) := by
  rw [mediaCalls_run, h]
  induction msgs with
  | nil => exact .nil
  | cons msg msgs ih =>
    rw [List.flatMap_cons]
    cases hcall : mediaCall msg with
    | none =>
      have hnot : isMedia msg = false := by
        rw [← Bool.not_eq_true, isMedia_iff, hcall]
        exact Bool.false_ne_true
      rw [List.filter_cons_of_neg (by rw [hnot]; exact Bool.false_ne_true)]
      exact ih
    | some call =>
      have hmedia : isMedia msg = true := by rw [isMedia_iff, hcall]; rfl
      rw [List.filter_cons_of_pos hmedia]
      exact .cons ⟨rfl, handed_mediaCall hcall⟩ ih

/-! ## Media of a publisher -/

/-- After every `publish` that has been answered, with both names non-empty, the media
messages are handed one by one to the source that the registry finds. -/
def MediaReaches (mgr : MediaSourceMgr) (msgs : List RtmpMessage) : Prop :=
  ∀ before msg after, msgs = before ++ msg :: after →
    Answered ((run {} before).1.handleMessage msg).2 →
    let s := (run {} (before ++ [msg])).1
    s.app ≠ [] → s.streamName ≠ [] →
    List.Forall₂ (fun m call => mgr.find s.app s.streamName = some call.1 ∧ Handed m call.2)
      (after.filter isMedia) (mediaCalls (s.run after).2)

/-- No audio or video message with a payload comes after a `publish` of two non-empty
names. -/
def NoMedia (msgs : List RtmpMessage) : Prop :=
  ∀ before msg after app name, msgs = before ++ msg :: after → PublishAt before msg app name →
    ∀ m ∈ after, isMedia m = false

/-- A session from the start has no source to hand anything to. -/
theorem mediaCalls_of_history {msgs : List RtmpMessage} {s : RtmpSession}
    (h : History msgs s) (after : List RtmpMessage) : mediaCalls (s.run after).2 = [] := by
  rw [mediaCalls_run, h.mediaSource]
  exact List.flatMap_eq_nil_iff.mpr fun _ _ => rfl

/-- Media reaches its source only where there is no media. -/
theorem mediaReaches_iff (mgr : MediaSourceMgr) (msgs : List RtmpMessage) :
    MediaReaches mgr msgs ↔ NoMedia msgs := by
  constructor
  · intro h before msg after app name hsplit hpublish m hm
    obtain ⟨happ, hname⟩ := names_of_request before hpublish.request
    have hanswered := (answered_iff (run {} before).1 msg).mpr ⟨name, hpublish.request⟩
    have hhanded := h before msg after hsplit hanswered
      (by rw [happ, ← hpublish.app_eq]; exact hpublish.app_ne)
      (by rw [hname]; exact hpublish.name_ne)
    rw [mediaCalls_of_history (history_run _)] at hhanded
    have hnone := List.forall₂_nil_right_iff.mp hhanded
    exact Bool.eq_false_iff.mpr (List.filter_eq_nil_iff.mp hnone m hm)
  · intro h before msg after hsplit hanswered s happ hname
    obtain ⟨name, hrequest⟩ := (answered_iff _ msg).mp hanswered
    obtain ⟨happ', hname'⟩ := names_of_request before hrequest
    have hnone := h before msg after _ name hsplit
      ⟨hrequest, rfl, happ' ▸ happ, hname' ▸ hname⟩
    have hempty : after.filter isMedia = [] := by
      apply List.filter_eq_nil_iff.mpr
      intro m hm
      exact Bool.eq_false_iff.mp (hnone m hm)
    rw [hempty, mediaCalls_of_history (history_run _)]
    exact .nil

/-! ### A keyframe that is lost -/

def keyframe : RtmpMessage where
  header := { csid := 6, msgLen := 3, msgType := kMsgTypeVideo }
  payload := [0x17, 0x01, 0x00]

/-- A publisher with one keyframe. -/
def oneKeyframe : List RtmpMessage :=
  [connectTo 1 "live", streamCommand "publish" 2 "test", keyframe]

/-- The registry that has its stream. -/
def liveTest : MediaSourceMgr :=
  (MediaSourceMgr.findOrCreate {} (Bytes.ofAscii "live") (Bytes.ofAscii "test")).2

/-- The keyframe is handed to nobody, though the registry would find the source. -/
theorem mediaReaches_wrong :
    (MediaSourceMgr.find liveTest (Bytes.ofAscii "live") (Bytes.ofAscii "test")).isSome ∧
      ¬ MediaReaches liveTest oneKeyframe := by
  refine ⟨by decide, ?_⟩
  intro h
  have hanswered : Answered
      ((run {} [connectTo 1 "live"]).1.handleMessage (streamCommand "publish" 2 "test")).2 :=
    ⟨0, by decide +kernel⟩
  have hhanded := h [connectTo 1 "live"] (streamCommand "publish" 2 "test") [keyframe] rfl
    hanswered (by decide +kernel) (by decide +kernel)
  exact absurd hhanded.length_eq (by decide +kernel)

end RtmpSession
