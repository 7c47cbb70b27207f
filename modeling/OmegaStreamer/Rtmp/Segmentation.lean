-- SUMMARY: The chunk parser resumes: how the byte stream is cut into segments does not matter.
import OmegaStreamer.Rtmp.ChunkParse

/-!
# Segmentation independence

`parseOneChunk` is an attempt of a resumable parser: an attempt that finds its
chunk incomplete has at most put the opened message into `m_in_progress`, and
opening it again changes nothing (`openMessage_setInProgress`). The cut of the
stream into segments is then irrelevant by the general theory.
-/

open Resumable

namespace RtmpChunkParse

variable {cb : MessageCallback}

/-! ## Half-done attempts -/

/-- Opening a message that is already open gives the same message again: a
chunk that starts a message starts it once more from nothing, and one that
continues a message sets the same fields to the same values. -/
theorem openMessage_setInProgress {st : RtmpChunkParse} {header : RtmpMsgHeader}
    (h : (st.openMessage header).isComplete = false) :
    (st.setInProgress header.csid (st.openMessage header)).openMessage header =
      st.openMessage header := by
  generalize hm : st.openMessage header = msg at h
  simp only [openMessage, setInProgress, Function.update_self, Option.getD_some, h]
  unfold openMessage at hm
  simp only at hm
  split at hm
  · subst hm
    split
    · rfl
    · split <;> rfl
  · rename_i hcont
    have hf : ¬ (header.fmt = .fmt0 ∨ false = true) := by
      intro hf
      rcases hf with hf | hf
      · exact hcont (.inl hf)
      · cases hf
    rw [if_neg hf]
    split at hm
    · rename_i h1
      subst hm
      rw [if_pos h1]
    · rename_i h1
      subst hm
      rw [if_neg h1]

/-- An attempt that waits on a chunk is repeated as if for the first time. -/
theorem parseOneChunk_resume {st st' : RtmpChunkParse} {buf more : Bytes} (hw : st.WellFormed)
    (hlen : (buf ++ more).length < 2 ^ 31) (h : st.parseOneChunk cb buf = .wait st') :
    st'.parseOneChunk cb (buf ++ more) = st.parseOneChunk cb (buf ++ more) := by
  have ho := parseOneChunk_outcome cb st buf
  rw [h] at ho
  cases ho with
  | headless => rfl
  | short head hhead hs =>
    obtain ⟨-, -, hfit⟩ := parseChunkHead_some hhead
    have hml := parseChunkHead_msgLen_lt hw.prev_lt hhead
    have hpos : 0 < st.dataSize (st.openMessage head.header) := by
      rw [asInt_of_lt (by simp at hlen; omega)] at hs
      omega
    have hopen := openMessage_setInProgress (hw.not_isComplete_of_dataSize_pos hml hpos)
    have hhead' := parseChunkHead_append hlen hhead
    simp only [parseOneChunk, hhead',
      show (st.setInProgress head.header.csid (st.openMessage head.header)).prevHeaders =
        st.prevHeaders from rfl, hopen,
      show (st.setInProgress head.header.csid (st.openMessage head.header)).dataSize =
        st.dataSize from rfl]
    simp [setInProgress]

/-! ## The laws -/

theorem parseOneChunk_progressive (cb : MessageCallback) : Progressive (parseOneChunk cb) := by
  intro st st' buf n out h
  have ho := parseOneChunk_outcome cb st buf
  rw [h] at ho
  cases ho with
  | data head size hhead _ hs =>
    obtain ⟨h1, -, -⟩ := parseChunkHead_some hhead
    have hle := asInt_le buf.length
    omega

/-- A complete chunk is found whatever follows it. -/
theorem parseOneChunk_append {st st' : RtmpChunkParse} {buf more : Bytes} {n : Nat}
    {out : List RtmpMessage} (hlen : (buf ++ more).length < 2 ^ 31)
    (h : st.parseOneChunk cb buf = .item st' n out) :
    st.parseOneChunk cb (buf ++ more) = .item st' n out := by
  have ho := parseOneChunk_outcome cb st buf
  rw [h] at ho
  cases ho with
  | data head size hhead hsize hs out hout =>
    obtain ⟨-, -, hfit⟩ := parseChunkHead_some hhead
    have hle := asInt_le buf.length
    have htake : ((buf ++ more).drop head.totalHeaderLen).take size =
        (buf.drop head.totalHeaderLen).take size := by
      rw [List.drop_append_of_le_length hfit,
        List.take_append_of_le_length (by simp only [List.length_drop]; omega)]
    rw [parseOneChunk_data (parseChunkHead_append hlen hhead) hsize, htake, hout]
    rw [asInt_of_lt hlen]
    simp only [List.length_append]
    omega

/-- The parser is lawful in well-formed states, with any property of the chunk
size that the callback preserves. -/
theorem parseOneChunk_lawful (P : Int → Prop) (hP : ∀ msg n, P n → P (cb msg n)) :
    Lawful (parseOneChunk cb) (fun st => st.WellFormed ∧ P st.inChunkSize) (2 ^ 31) where
  progressive := parseOneChunk_progressive cb
  item_append _ hlen h := parseOneChunk_append hlen h
  abort_append {st st' buf more} hi hlen h := by
    have ho := parseOneChunk_outcome cb st buf
    rw [h] at ho
    cases ho with
    | negative head hhead hs hneg =>
      have hle := asInt_le buf.length
      refine parseOneChunk_negative (parseChunkHead_append hlen hhead) ?_ hneg
      rw [asInt_of_lt hlen]
      simp only [List.length_append]
      omega
  resume hi hlen h := parseOneChunk_resume hi.1 hlen h
  inv_item {st st' buf n out} hi h := by
    have ho := parseOneChunk_outcome cb st buf
    rw [h] at ho
    cases ho with
    | data head size hhead _ _ out hout =>
      have hml := parseChunkHead_msgLen_lt hi.1.prev_lt hhead
      refine ⟨hout ▸ hi.1.finishChunk hml _, ?_⟩
      rw [hout]
      unfold finishChunk
      simp only
      split
      · exact hP _ _ hi.2
      · exact hi.2
  inv_wait {st st' buf} hi h := by
    have ho := parseOneChunk_outcome cb st buf
    rw [h] at ho
    cases ho with
    | headless => exact hi
    | short head hhead =>
      have hml := parseChunkHead_msgLen_lt hi.1.prev_lt hhead
      obtain ⟨hlen, hp⟩ := hi.1.openMessage hml
      exact ⟨hi.1.setInProgress hlen hp, hi.2⟩

/-! ## Any two ways of cutting the stream -/

theorem quiet_init (cb : MessageCallback) : Lawful.Quiet (parseOneChunk cb) { state := {} } := by
  simp [Lawful.Quiet, feed, Config.prepend]

/-- Appending the segments of a byte string one after another and parsing after
each leads to what appending the whole string and parsing once leads to: the
same delivered messages, unread bytes and parser, and the same end of the run if
it ends. -/
theorem receive_segments (cb : MessageCallback) (bytes : Bytes) (segs : List Bytes)
    (hcut : segs.flatten = bytes) (hlen : bytes.length < 2 ^ 31) :
    receive cb segs = receive cb [bytes] := by
  have hl : Lawful (parseOneChunk cb) _ (2 ^ 31) :=
    parseOneChunk_lawful (fun _ => True) fun _ _ _ => trivial
  have hone : [bytes].flatten = bytes := by simp
  refine hl.feedAll_congr (quiet_init cb) (fun _ => ⟨wellFormed_init, trivial⟩) ?_ ?_
    (hcut.trans hone.symm)
  · exact Lawful.fits_of_total hl.progressive (by simpa [hcut] using hlen)
  · exact Lawful.fits_of_total hl.progressive (by simpa [hone] using hlen)

/-- A one-byte message, its header cut in two places. -/
theorem receive_segments_three :
    receive chunkSizeCallback [[0x04, 0, 0], [0, 0, 0, 1, 8, 1, 0], [0, 0, 0xAF]] =
      receive chunkSizeCallback [[0x04, 0, 0, 0, 0, 0, 1, 8, 1, 0, 0, 0, 0xAF]] :=
  receive_segments chunkSizeCallback _ _ rfl (by decide)

end RtmpChunkParse
