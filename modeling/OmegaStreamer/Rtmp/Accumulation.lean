-- SUMMARY: The accumulation of chunk data: when the remaining length of a message underflows.
import OmegaStreamer.Rtmp.Segmentation

/-!
# Accumulation

Before it appends the data of a chunk, `parseOneChunk` computes what remains of
the message as `msg_len - payload.size()`. A format 1 chunk that arrives in the
middle of a message replaces `msg_len` and keeps the payload, and the subtraction
wraps around when the new length is below what has been received. Nothing else
makes it wrap.
-/

open Resumable BytesReader

namespace RtmpChunkParse

/-- What should hold when `parseOneChunk` is called on a buffer. If the header
of the chunk is complete, the message is not longer than its length, what
remains of it does not wrap around, and the size of the chunk's data is neither
negative nor larger than the chunk size. What is retrieved from the buffer is
there, and nothing of negative length is appended. -/
structure AccumulatesSafely (st : RtmpChunkParse) (buf : Bytes) : Prop where
  payload_le {head : ChunkHead} : parseChunkHead st.prevHeaders buf = some head →
    (st.openMessage head.header).payload.length ≤
      (st.openMessage head.header).header.msgLen.toNat
  no_wrap {head : ChunkHead} : parseChunkHead st.prevHeaders buf = some head →
    (remaining (st.openMessage head.header)).toNat =
      (st.openMessage head.header).header.msgLen.toNat -
        (st.openMessage head.header).payload.length
  size_nonneg {head : ChunkHead} : parseChunkHead st.prevHeaders buf = some head →
    0 ≤ st.dataSize (st.openMessage head.header)
  size_le {head : ChunkHead} : parseChunkHead st.prevHeaders buf = some head →
    st.dataSize (st.openMessage head.header) ≤ st.inChunkSize
  retrieve_le {st' : RtmpChunkParse} {n : Nat} {out : List RtmpMessage} :
    st.parseOneChunk chunkSizeCallback buf = .item st' n out → n ≤ buf.length
  no_throw {st' : RtmpChunkParse} : st.parseOneChunk chunkSizeCallback buf ≠ .abort st'

/-- A complete format 1 header stands at the head of the buffer while a message
is in progress on its chunk stream, and the length in the header is below what
has been received of that message. -/
def ShrinksMessage (st : RtmpChunkParse) (buf : Bytes) : Prop :=
  ∃ bh msg, parseBasicHeader buf = some bh ∧ bh.fmt = .fmt1 ∧
    (bh.headerLen + 7 : Nat) ≤ asInt buf.length ∧
    st.inProgress bh.csid = some msg ∧ msg.isComplete = false ∧
    (readUint24BE ((buf.drop bh.headerLen).drop 3)).toNat < msg.payload.length

/-! ## One chunk -/

/-- A chunk that does not shrink its message finds it no longer than its
length. -/
theorem payload_le_of_not_shrinks {st : RtmpChunkParse} {buf : Bytes}
    (hs : ¬ st.ShrinksMessage buf) {head : ChunkHead}
    (h : parseChunkHead st.prevHeaders buf = some head) :
    (st.openMessage head.header).payload.length ≤
      (st.openMessage head.header).header.msgLen.toNat := by
  by_cases hstart : head.header.fmt = .fmt0 ∨
      ((st.inProgress head.header.csid).getD {}).isComplete = true
  · rw [openMessage_start hstart]
    exact Nat.zero_le _
  · simp only [not_or, Bool.not_eq_true] at hstart
    obtain ⟨h0, hc⟩ := hstart
    cases hm : st.inProgress head.header.csid with
    | none => rw [hm] at hc; cases hc
    | some msg =>
      rw [hm, Option.getD_some] at hc
      by_cases h1 : head.header.fmt = .fmt1
      · rw [openMessage_continue_fmt1 hm hc h1]
        simp only
        obtain ⟨bh, hbh, hfmt, hcsid⟩ := parseChunkHead_basic h
        rw [parseChunkHead_fmt1 _ hbh (hfmt.trans h1)] at h
        split at h
        · cases h
        · rename_i hlen
          cases h
          refine Nat.le_of_not_lt fun hlt => hs ⟨bh, msg, hbh, hfmt.trans h1, by omega,
            hcsid ▸ hm, hc, ?_⟩
          simpa [readMessageHeader, hfmt.trans h1] using hlt
      · rw [openMessage_continue hm hc h0 h1]
        simp only [RtmpMessage.isComplete, decide_eq_false_iff_not] at hc
        exact Nat.le_of_lt (Nat.lt_of_not_le hc)

/-- A chunk that shrinks its message finds it longer than its length. -/
theorem exists_msgLen_lt_of_shrinks {st : RtmpChunkParse} {buf : Bytes}
    (hs : st.ShrinksMessage buf) :
    ∃ head, parseChunkHead st.prevHeaders buf = some head ∧
      (st.openMessage head.header).header.msgLen.toNat <
        (st.openMessage head.header).payload.length := by
  obtain ⟨bh, msg, hbh, hf, hlen, hm, hc, hlt⟩ := hs
  refine ⟨_, (parseChunkHead_fmt1 _ hbh hf).trans (if_neg (by omega)), ?_⟩
  rw [openMessage_continue_fmt1 (by simpa using hm) hc (by simpa using hf)]
  simpa [readMessageHeader, hf] using hlt

/-- In the states of a run, a chunk is accumulated safely unless it shrinks its
message. -/
theorem accumulatesSafely_iff {st : RtmpChunkParse} {buf : Bytes} (hw : st.WellFormed)
    (hr : ChunkSizeInRange st.inChunkSize) :
    st.AccumulatesSafely buf ↔ ¬ st.ShrinksMessage buf := by
  constructor
  · intro hsafe hs
    obtain ⟨head, hhead, hlt⟩ := exists_msgLen_lt_of_shrinks hs
    have := hsafe.payload_le hhead
    omega
  · intro hs
    have hsize : ∀ {head : ChunkHead}, parseChunkHead st.prevHeaders buf = some head →
        0 ≤ st.dataSize (st.openMessage head.header) := by
      intro head hhead
      have hle := payload_le_of_not_shrinks hs hhead
      obtain ⟨hml, hpl⟩ := hw.openMessage (parseChunkHead_msgLen_lt hw.prev_lt hhead)
      rw [dataSize_eq st hml hpl]
      have := hr.1
      omega
    refine ⟨fun hhead => payload_le_of_not_shrinks hs hhead, ?_, hsize,
      fun _ => Int.min_le_right _ _, ?_, ?_⟩
    · intro head hhead
      have hle := payload_le_of_not_shrinks hs hhead
      obtain ⟨hml, hpl⟩ := hw.openMessage (parseChunkHead_msgLen_lt hw.prev_lt hhead)
      rw [remaining, UInt32.toNat_sub, UInt32.toNat_ofNat', Nat.mod_eq_of_lt (a := List.length _)
        (by omega)]
      omega
    · intro st' n out hitem
      exact (parseOneChunk_progressive _ _ _ _ _ _ hitem).2
    · intro st' habort
      have ho := parseOneChunk_outcome chunkSizeCallback st buf
      rw [habort] at ho
      cases ho with
      | negative head hhead _ hneg =>
        have := hsize hhead
        omega

/-! ## Whole runs -/

/-- The states and buffers in which `parseOneChunk` is called while a fresh
parser receives the segments. -/
def calls (segs : List Bytes) : List (RtmpChunkParse × Bytes) :=
  attempts (parseOneChunk chunkSizeCallback) { state := {} } segs

theorem calls_wellFormed {segs : List Bytes} :
    ∀ call ∈ calls segs, call.1.WellFormed ∧ ChunkSizeInRange call.1.inChunkSize :=
  (parseOneChunk_lawful _ chunkSizeCallback_range).inv_attempts
    (fun _ => ⟨wellFormed_init, kDefaultChunkSize_range⟩)

/-- Every chunk of a run is accumulated safely exactly when no chunk of the run
shrinks its message. -/
theorem calls_accumulateSafely_iff (segs : List Bytes) :
    (∀ call ∈ calls segs, call.1.AccumulatesSafely call.2) ↔
      ∀ call ∈ calls segs, ¬ call.1.ShrinksMessage call.2 := by
  constructor
  · intro h call hcall
    obtain ⟨hw, hr⟩ := calls_wellFormed call hcall
    exact (accumulatesSafely_iff hw hr).mp (h call hcall)
  · intro h call hcall
    obtain ⟨hw, hr⟩ := calls_wellFormed call hcall
    exact (accumulatesSafely_iff hw hr).mpr (h call hcall)

/-- A run that ends in an exception made a call that is not safe. -/
theorem not_accumulatesSafely_of_aborted {segs : List Bytes}
    (h : (receive chunkSizeCallback segs).aborted = true) :
    ¬ ∀ call ∈ calls segs, call.1.AccumulatesSafely call.2 := by
  intro hsafe
  obtain ⟨call, hcall, st', hat⟩ := (feedAll_aborted_iff rfl).mp h
  exact (hsafe call hcall).no_throw hat

/-- The chunk size is set to 1, a two-byte message is begun on chunk stream 3,
and a format 1 chunk on that stream announces a message of length 0. -/
def shrinkingStream : Bytes :=
  [0x02, 0, 0, 0, 0, 0, 4, 1, 0, 0, 0, 0, 0, 0, 0, 1] ++
  [0x03, 0, 0, 0, 0, 0, 2, 8, 0, 0, 0, 0, 0xAF] ++
  [0x43, 0, 0, 0, 0, 0, 0, 8]

theorem shrinkingStream_unsafe :
    ¬ ∀ call ∈ calls [shrinkingStream], call.1.AccumulatesSafely call.2 :=
  not_accumulatesSafely_of_aborted (by decide)

end RtmpChunkParse
