-- SUMMARY: Chunk streams do not interfere: how their chunks are interleaved does not matter.
import OmegaStreamer.Lib.Sharded
import OmegaStreamer.Rtmp.Segmentation

/-!
# Interleaved chunk streams

While the chunk size stays what it is, `parseOneChunk` is a sharded machine: a
chunk reads and writes the entries of its own chunk stream in the two maps, and
they decide where it ends. The state of the parser is arbitrary, and so are the
formats of the chunks.
-/

open Resumable

namespace RtmpChunkParse

/-- The chunk stream of a chunk. No chunk has the id 0, which is given here to
strings without a complete basic header. -/
def csidOf (chunk : Bytes) : Nat := ((parseBasicHeader chunk).map (·.csid)).getD 0

/-- `parseOneChunk` returns 0 on a buffer that holds the chunk, and consumes it. -/
def takeChunk (cb : MessageCallback) (st : RtmpChunkParse) (chunk : Bytes) :
    Option (RtmpChunkParse × List RtmpMessage) :=
  match st.parseOneChunk cb chunk with
  | .item st' n out => if n = chunk.length then some (st', out) else none
  | _ => none

theorem takeChunk_eq_some {cb : MessageCallback} {st st' : RtmpChunkParse} {chunk : Bytes}
    {out : List RtmpMessage} :
    st.takeChunk cb chunk = some (st', out) ↔
      st.parseOneChunk cb chunk = .item st' chunk.length out := by
  unfold takeChunk
  cases st.parseOneChunk cb chunk with
  | wait t => simp
  | abort t => simp
  | item t n o =>
    by_cases hn : n = chunk.length
    · simp [hn]
    · simp [hn]

/-! ## The parser as a family of chunk streams -/

/-- What the parser keeps of one chunk stream. -/
structure ChunkStream where
  prevHeader : RtmpMsgHeader
  inProgress : Option RtmpMessage

def stream (st : RtmpChunkParse) (csid : Nat) : ChunkStream :=
  ⟨st.prevHeaders csid, st.inProgress csid⟩

def ofStreams (inChunkSize : Int) (streams : Nat → ChunkStream) : RtmpChunkParse where
  prevHeaders csid := (streams csid).prevHeader
  inProgress csid := (streams csid).inProgress
  inChunkSize := inChunkSize

/-- The callback that never changes the chunk size. -/
def keepSize : MessageCallback := fun _ inChunkSize => inChunkSize

/-- What a chunk does to its own chunk stream: the others are given the same
contents here, and do not matter. -/
def streamStep (inChunkSize : Int) (s : ChunkStream) (chunk : Bytes) :
    Option (ChunkStream × List RtmpMessage) :=
  ((ofStreams inChunkSize fun _ => s).takeChunk keepSize chunk).map fun r =>
    (r.1.stream (csidOf chunk), r.2)

/-- A header is read over the previous header of its own chunk stream. -/
theorem parseChunkHead_congr {prevHeaders prevHeaders' : Nat → RtmpMsgHeader} {buf : Bytes}
    (h : prevHeaders (csidOf buf) = prevHeaders' (csidOf buf)) :
    parseChunkHead prevHeaders buf = parseChunkHead prevHeaders' buf := by
  unfold parseChunkHead
  cases hbh : parseBasicHeader buf with
  | none => rfl
  | some bh =>
    have hcsid : csidOf buf = bh.csid := by simp [csidOf, hbh]
    rw [hcsid] at h
    simp only [h]

theorem parseChunkHead_csid {prevHeaders : Nat → RtmpMsgHeader} {buf : Bytes} {head : ChunkHead}
    (h : parseChunkHead prevHeaders buf = some head) : head.header.csid = csidOf buf := by
  obtain ⟨bh, hbh, -, hcsid⟩ := parseChunkHead_basic h
  simp [csidOf, hbh, hcsid]

theorem openMessage_congr {st st' : RtmpChunkParse} {header : RtmpMsgHeader}
    (h : st.inProgress header.csid = st'.inProgress header.csid) :
    st.openMessage header = st'.openMessage header := by
  unfold openMessage
  rw [h]

theorem ofStreams_update (n : Int) (streams : Nat → ChunkStream) (csid : Nat)
    (s : ChunkStream) :
    ofStreams n (Function.update streams csid s) =
      { prevHeaders := Function.update (ofStreams n streams).prevHeaders csid s.prevHeader
        inProgress := Function.update (ofStreams n streams).inProgress csid s.inProgress
        inChunkSize := n } := by
  have hprev := Function.comp_update ChunkStream.prevHeader streams csid s
  have hprogress := Function.comp_update ChunkStream.inProgress streams csid s
  exact RtmpChunkParse.ext hprev hprogress rfl

/-- The entries of its own chunk stream are all that finishing a chunk changes. -/
theorem finishChunk_ofStreams (n : Int) (streams : Nat → ChunkStream) (s : ChunkStream)
    (header : RtmpMsgHeader) (msg : RtmpMessage) (data : Bytes) :
    (ofStreams n streams).finishChunk keepSize header msg data =
      (ofStreams n (Function.update streams header.csid
          (((ofStreams n fun _ => s).finishChunk keepSize header msg data).1.stream header.csid)),
        ((ofStreams n fun _ => s).finishChunk keepSize header msg data).2) := by
  cases hc : ({ msg with payload := msg.payload ++ data } : RtmpMessage).isComplete with
  | true =>
    rw [finishChunk_complete hc, finishChunk_complete hc, ofStreams_update]
    simp [setPrev, setInProgress, stream, keepSize, ofStreams]
  | false =>
    rw [finishChunk_incomplete hc, finishChunk_incomplete hc, ofStreams_update]
    simp [setPrev, setInProgress, stream, ofStreams]

/-- A chunk is taken by its own chunk stream. -/
theorem takeChunk_ofStreams (n : Int) (streams : Nat → ChunkStream) (chunk : Bytes) :
    (ofStreams n streams).takeChunk keepSize chunk =
      (Sharded.step (streamStep n) csidOf streams chunk).map fun r =>
        (ofStreams n r.1, r.2) := by
  have hprev : (ofStreams n streams).prevHeaders (csidOf chunk) =
      (ofStreams n fun _ => streams (csidOf chunk)).prevHeaders (csidOf chunk) := rfl
  have hcongr := parseChunkHead_congr hprev
  cases hhead : parseChunkHead (ofStreams n streams).prevHeaders chunk with
  | none =>
    rw [hhead] at hcongr
    simp [takeChunk, parseOneChunk, Sharded.step, streamStep, hhead, ← hcongr]
  | some head =>
    rw [hhead] at hcongr
    have hcsid := parseChunkHead_csid hhead
    have hopen : (ofStreams n streams).openMessage head.header =
        (ofStreams n fun _ => streams (csidOf chunk)).openMessage head.header :=
      openMessage_congr (by rw [hcsid]; rfl)
    have hsize : (ofStreams n streams).dataSize =
        (ofStreams n fun _ => streams (csidOf chunk)).dataSize := rfl
    simp only [takeChunk, parseOneChunk, Sharded.step, streamStep, hhead, ← hcongr, ← hopen,
      ← hsize, finishChunk_setInProgress]
    by_cases hshort : asInt chunk.length < head.totalHeaderLen +
        (ofStreams n streams).dataSize ((ofStreams n streams).openMessage head.header)
    · simp only [if_pos hshort]
      rfl
    by_cases hneg :
        (ofStreams n streams).dataSize ((ofStreams n streams).openMessage head.header) < 0
    · simp only [if_neg hshort, if_pos hneg]
      rfl
    simp only [if_neg hshort, if_neg hneg]
    rw [finishChunk_ofStreams n streams (streams (csidOf chunk)), hcsid]
    split
    · rfl
    · rfl

/-! ## Callbacks that leave the chunk size alone -/

/-- The callback leaves the chunk size `n` alone when it is given these messages. -/
def Steady (cb : MessageCallback) (n : Int) (msgs : List RtmpMessage) : Prop :=
  ∀ msg ∈ msgs, cb msg n = n

theorem steady_keepSize (n : Int) (msgs : List RtmpMessage) : Steady keepSize n msgs :=
  fun _ _ => rfl

theorem finishChunk_inChunkSize {cb : MessageCallback} {st : RtmpChunkParse}
    {header : RtmpMsgHeader} {msg : RtmpMessage} {data : Bytes}
    (h : Steady cb st.inChunkSize (st.finishChunk cb header msg data).2) :
    (st.finishChunk cb header msg data).1.inChunkSize = st.inChunkSize := by
  unfold finishChunk at h ⊢
  simp only at h ⊢
  split
  · rename_i hc
    rw [if_pos hc] at h
    exact h _ List.mem_cons_self
  · rfl

/-- Two callbacks that leave the chunk size alone do the same. -/
theorem finishChunk_congr {cb cb' : MessageCallback} {st : RtmpChunkParse}
    {header : RtmpMsgHeader} {msg : RtmpMessage} {data : Bytes}
    (h : Steady cb st.inChunkSize (st.finishChunk cb header msg data).2)
    (h' : Steady cb' st.inChunkSize (st.finishChunk cb header msg data).2) :
    st.finishChunk cb' header msg data = st.finishChunk cb header msg data := by
  unfold finishChunk at h h' ⊢
  simp only at h h' ⊢
  split
  · rename_i hc
    rw [if_pos hc] at h h'
    have hcb : cb' { msg with payload := msg.payload ++ data } st.inChunkSize =
        cb { msg with payload := msg.payload ++ data } st.inChunkSize :=
      (h' _ List.mem_cons_self).trans (h _ List.mem_cons_self).symm
    simp only [setPrev, hcb]
  · rfl

theorem takeChunk_steady {cb cb' : MessageCallback} {st st' : RtmpChunkParse} {chunk : Bytes}
    {out : List RtmpMessage} (h : st.takeChunk cb chunk = some (st', out))
    (hcb : Steady cb st.inChunkSize out) (hcb' : Steady cb' st.inChunkSize out) :
    st.takeChunk cb' chunk = some (st', out) ∧ st'.inChunkSize = st.inChunkSize := by
  rw [takeChunk_eq_some] at h ⊢
  have ho := parseOneChunk_outcome cb st chunk
  rw [h] at ho
  generalize chunk.length = len at ho
  cases ho with
  | data head size hhead hsize hs r hout =>
    subst hout
    rw [parseOneChunk_data hhead hsize hs, finishChunk_congr hcb hcb']
    exact ⟨rfl, finishChunk_inChunkSize hcb⟩

theorem run_steady {cb cb' : MessageCallback} {st st' : RtmpChunkParse} {chunks : List Bytes}
    {outs : List (List RtmpMessage)}
    (h : Mealy.run (takeChunk cb) st chunks = some (st', outs))
    (hcb : Steady cb st.inChunkSize outs.flatten)
    (hcb' : Steady cb' st.inChunkSize outs.flatten) :
    Mealy.run (takeChunk cb') st chunks = some (st', outs) := by
  induction chunks generalizing st outs with
  | nil =>
    cases h
    rfl
  | cons chunk chunks ih =>
    obtain ⟨t, out, outs', hstep, hrun, rfl⟩ := Mealy.run_cons_eq_some h
    simp only [Steady, List.flatten_cons, List.forall_mem_append] at hcb hcb'
    obtain ⟨hstep', hsize⟩ := takeChunk_steady hstep hcb.1 hcb'.1
    rw [← hsize] at hcb hcb'
    exact Mealy.run_cons_of_step hstep' (ih hrun hcb.2 hcb'.2)

/-! ## Two interleavings -/

/-- The messages delivered by the chunks of a chunk stream. -/
def deliveredOn (csid : Nat) (chunks : List Bytes) (outs : List (List RtmpMessage)) :
    List RtmpMessage :=
  (Sharded.outputsOf csidOf csid chunks outs).flatten

/-- The parser that keeps its chunk size, as the machine of its chunk streams. -/
theorem run_keepSize (st : RtmpChunkParse) (chunks : List Bytes) :
    Mealy.run (takeChunk keepSize) st chunks =
      (Mealy.run (Sharded.step (streamStep st.inChunkSize) csidOf) st.stream chunks).map
        fun r => (ofStreams st.inChunkSize r.1, r.2) :=
  Mealy.run_map (ofStreams st.inChunkSize) (takeChunk_ofStreams st.inChunkSize) st.stream chunks

/-- The chunks of a run are consumed one after another from a buffer that holds
them all. -/
theorem parse_of_run {cb : MessageCallback} {st st' : RtmpChunkParse} {chunks : List Bytes}
    {outs : List (List RtmpMessage)}
    (h : Mealy.run (takeChunk cb) st chunks = some (st', outs)) {rest : Bytes}
    (hlen : (chunks.flatten ++ rest).length < 2 ^ 31) :
    st.parse cb (chunks.flatten ++ rest) = (st'.parse cb rest).prepend outs.flatten := by
  induction chunks generalizing st outs with
  | nil =>
    cases h
    exact (Config.prepend_nil _).symm
  | cons chunk chunks ih =>
    obtain ⟨t, out, outs', hstep, hrun, rfl⟩ := Mealy.run_cons_eq_some h
    rw [List.flatten_cons, List.append_assoc] at hlen ⊢
    have hitem := parseOneChunk_append hlen (takeChunk_eq_some.mp hstep)
    have hrest : (chunks.flatten ++ rest).length < 2 ^ 31 := by
      rw [List.length_append] at hlen
      omega
    have hdrain : drain (parseOneChunk cb) t (chunks.flatten ++ rest) =
        (drain (parseOneChunk cb) st' rest).prepend outs'.flatten := ih hrun hrest
    rw [parse, drain_item (parseOneChunk_progressive cb) hitem, List.drop_left, hdrain,
      Config.prepend_prepend, List.flatten_cons]
    rfl

/-- Chunks that are accepted in one order are accepted in every other one that
keeps the order on each chunk stream, and each chunk stream delivers the same
messages. The parser is left in the same state. -/
theorem run_interleaved {cb : MessageCallback} {st st' : RtmpChunkParse}
    {chunks chunks' : List Bytes} {outs : List (List RtmpMessage)}
    (hsame : ∀ csid, chunks.filter (csidOf · = csid) = chunks'.filter (csidOf · = csid))
    (hrun : Mealy.run (takeChunk cb) st chunks = some (st', outs))
    (hsteady : Steady cb st.inChunkSize outs.flatten) :
    ∃ outs', Mealy.run (takeChunk cb) st chunks' = some (st', outs') ∧
      (∀ csid, deliveredOn csid chunks' outs' = deliveredOn csid chunks outs) ∧
      ∀ rest, (chunks'.flatten ++ rest).length < 2 ^ 31 →
        st.parse cb (chunks'.flatten ++ rest) = (st'.parse cb rest).prepend outs'.flatten := by
  have hkeep := run_steady hrun hsteady (steady_keepSize _ _)
  rw [run_keepSize] at hkeep
  obtain ⟨⟨streams, outs₀⟩, hshards, heq⟩ := Option.map_eq_some_iff.mp hkeep
  cases heq
  obtain ⟨outs', hshards', houts⟩ := Sharded.run_interleave hsame hshards
  have hkeep' : Mealy.run (takeChunk keepSize) st chunks' =
      some (ofStreams st.inChunkSize streams, outs') := by
    rw [run_keepSize, hshards']
    rfl
  have hsteady' : Steady cb st.inChunkSize outs'.flatten := by
    intro msg hmsg
    obtain ⟨out, hout, hmem⟩ := List.mem_flatten.mp hmsg
    have hsome : ∃ csid, out ∈ Sharded.outputsOf csidOf csid chunks' outs' :=
      Sharded.mem_outputsOf (Mealy.length_run hkeep') hout
    obtain ⟨csid, hin⟩ := hsome
    rw [houts] at hin
    exact hsteady msg (List.mem_flatten.mpr ⟨out, Sharded.mem_of_mem_outputsOf hin, hmem⟩)
  have hrun' := run_steady hkeep' (steady_keepSize _ _) hsteady'
  refine ⟨outs', hrun', fun csid => ?_, fun rest hlen => parse_of_run hrun' hlen⟩
  rw [deliveredOn, deliveredOn, houts]

/-! ### Two chunk streams -/

/-- A parser in the middle of nothing, whose peer cuts chunks of two bytes. -/
def smallChunks : RtmpChunkParse := { inChunkSize := 2 }

/-- Three bytes of audio on chunk stream 4, in two chunks, and one byte of video on
chunk stream 5. -/
def audioThenVideo : List Bytes :=
  [[0x04, 0, 0, 0, 0, 0, 3, 8, 1, 0, 0, 0, 0xAF, 1], [0xC4, 2],
   [0x05, 0, 0, 0, 0, 0, 1, 9, 1, 0, 0, 0, 0x17]]

def videoBetween : List Bytes :=
  [[0x04, 0, 0, 0, 0, 0, 3, 8, 1, 0, 0, 0, 0xAF, 1],
   [0x05, 0, 0, 0, 0, 0, 1, 9, 1, 0, 0, 0, 0x17], [0xC4, 2]]

theorem run_interleaved_two :
    ∃ st' outs outs',
      Mealy.run (takeChunk chunkSizeCallback) smallChunks audioThenVideo = some (st', outs) ∧
      Mealy.run (takeChunk chunkSizeCallback) smallChunks videoBetween = some (st', outs') ∧
      ∀ csid, deliveredOn csid videoBetween outs' = deliveredOn csid audioThenVideo outs := by
  have hsame (csid : Nat) : audioThenVideo.filter (csidOf · = csid) =
      videoBetween.filter (csidOf · = csid) := by
    by_cases h4 : 4 = csid
    · subst h4; decide
    · have hb : csidOf [0xC4, 2] ≠ csid := h4
      simp [audioThenVideo, videoBetween, List.filter_cons, hb]
  have hsome : (Mealy.run (takeChunk chunkSizeCallback) smallChunks audioThenVideo).isSome := by
    decide
  have hout : ((Mealy.run (takeChunk chunkSizeCallback) smallChunks audioThenVideo).elim []
      (·.2)).flatten.map (·.header.msgType) = [8, 9] := by decide
  obtain ⟨⟨st', outs⟩, hrun⟩ := Option.isSome_iff_exists.mp hsome
  rw [hrun] at hout
  have hsteady : Steady chunkSizeCallback smallChunks.inChunkSize outs.flatten := by
    intro msg hmsg
    have htype : msg.header.msgType ∈ [(8 : UInt8), 9] := by
      rw [← hout]
      exact List.mem_map_of_mem hmsg
    refine if_neg fun h => ?_
    rw [h] at htype
    revert htype
    decide
  obtain ⟨outs', hrun', hsame', -⟩ := run_interleaved hsame hrun hsteady
  exact ⟨st', outs, outs', hrun, hrun', hsame'⟩

end RtmpChunkParse
