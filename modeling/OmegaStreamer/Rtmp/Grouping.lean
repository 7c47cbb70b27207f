-- SUMMARY: The chunks of any byte stream, grouped by the messages that the parser puts them together to.
import OmegaStreamer.Rtmp.ChunkCodec

/-!
# Grouping

`ChunkCodec` says which chunks the parser reads of arbitrary bytes. What it does with them is
told here for each chunk stream on its own: they are cut into groups of consecutive chunks.
A group is delivered as one message with the data of its chunks and the length, the type and
the stream id that stand in its headers or in the last before them, or it is given up for a
format 0 chunk, or it is still open.
-/

open Resumable

namespace Chunk

def onStream (csid : Nat) (chunks : List Chunk) : List Chunk := chunks.filter (·.id.csid = csid)

def dataOf (chunks : List Chunk) : Bytes := chunks.flatMap (·.data)

/-- The header behind the chunks of one chunk stream. -/
def lastHeader (chunks : List Chunk) : RtmpMsgHeader :=
  chunks.foldl (fun prev c => c.after prev) {}

@[simp] theorem lastHeader_concat (chunks : List Chunk) (c : Chunk) :
    lastHeader (chunks ++ [c]) = c.after (lastHeader chunks) := List.foldl_concat ..

@[simp] theorem dataOf_concat (chunks : List Chunk) (c : Chunk) :
    dataOf (chunks ++ [c]) = dataOf chunks ++ c.data := by
  simp [dataOf]

theorem onStream_concat_self (chunks : List Chunk) (c : Chunk) :
    onStream c.id.csid (chunks ++ [c]) = onStream c.id.csid chunks ++ [c] := by
  simp [onStream]

theorem onStream_concat_other {csid : Nat} (chunks : List Chunk) {c : Chunk}
    (h : c.id.csid ≠ csid) : onStream csid (chunks ++ [c]) = onStream csid chunks := by
  simp [onStream, h]

end Chunk

open Chunk

/-- A message with the fields of a header. Whether an extended timestamp has been read is
kept from the first chunk. -/
def RtmpMsgHeader.Agrees (h h' : RtmpMsgHeader) : Prop := h = { h' with hasExtTs := h.hasExtTs }

/-- A message is made of the last of these chunks of one chunk stream. -/
structure MadeOf (before chunks : List Chunk) (msg : RtmpMessage) : Prop where
  payload : msg.payload = dataOf chunks
  header : msg.header.Agrees (lastHeader (before ++ chunks))
  length : msg.payload.length = msg.header.msgLen.toNat

/-- Consecutive chunks of a chunk stream, and the message that they have been delivered as. -/
structure ChunkGroup where
  chunks : List Chunk
  message : Option RtmpMessage

/-- Only the first of these chunks can be a format 0 chunk. -/
def OneMessage (chunks : List Chunk) : Prop := ∀ c ∈ chunks.tail, c.header.fmt ≠ .fmt0

/-- The chunks of a chunk stream in groups, the last of which may be open. -/
structure Grouped (chunks : List Chunk) (groups : List ChunkGroup) (opened : List Chunk) : Prop where
  chunks_eq : groups.flatMap (·.chunks) ++ opened = chunks
  group : ∀ g ∈ groups, g.chunks ≠ [] ∧ OneMessage g.chunks
  openGroup : OneMessage opened
  delivered : ∀ before g after msg, groups = before ++ g :: after → g.message = some msg →
    MadeOf (before.flatMap (·.chunks)) g.chunks msg
  givenUp : ∀ before g after, groups = before ++ g :: after → g.message = none →
    ∃ c rest, after.flatMap (·.chunks) ++ opened = c :: rest ∧ c.header.fmt = .fmt0

namespace Grouped

variable {chunks : List Chunk} {groups : List ChunkGroup} {opened : List Chunk}

/-- The last group of a longer list is the new one, or it was there. -/
theorem concat_split {before after : List ChunkGroup} {g last : ChunkGroup}
    (h : groups ++ [last] = before ++ g :: after) :
    (after = [] ∧ before = groups ∧ g = last) ∨
      ∃ after', after = after' ++ [last] ∧ groups = before ++ g :: after' := by
  induction after using List.reverseRecOn with
  | nil =>
    obtain ⟨hgroups, hlast⟩ := List.append_inj' h rfl
    exact .inl ⟨rfl, hgroups.symm, (List.singleton_inj.mp hlast).symm⟩
  | append_singleton after' a =>
    rw [← List.cons_append, ← List.append_assoc] at h
    obtain ⟨hgroups, hlast⟩ := List.append_inj' h rfl
    exact .inr ⟨after', by rw [List.singleton_inj.mp hlast], hgroups⟩

theorem nil : Grouped [] [] [] where
  chunks_eq := rfl
  group _ h := by cases h
  openGroup _ h := by cases h
  delivered before g after msg h := by
    cases before <;> cases h
  givenUp before g after h := by
    cases before <;> cases h

/-- The first chunk of a message. -/
theorem start (h : Grouped chunks groups []) (c : Chunk) : Grouped (chunks ++ [c]) groups [c] where
  chunks_eq := by rw [← h.chunks_eq, List.append_nil]
  group := h.group
  openGroup _ hmem := by cases hmem
  delivered := h.delivered
  givenUp before g after heq hnone := by
    obtain ⟨c', rest, hafter, hfmt⟩ := h.givenUp before g after heq hnone
    rw [List.append_nil] at hafter
    exact ⟨c', rest ++ [c], by rw [hafter, List.cons_append], hfmt⟩

/-- Another chunk of the open message. -/
theorem add (h : Grouped chunks groups opened) (hopen : opened ≠ []) {c : Chunk}
    (hfmt : c.header.fmt ≠ .fmt0) : Grouped (chunks ++ [c]) groups (opened ++ [c]) where
  chunks_eq := by rw [← h.chunks_eq, List.append_assoc]
  group := h.group
  openGroup c' hmem := by
    rw [List.tail_append_of_ne_nil hopen, List.mem_append, List.mem_singleton] at hmem
    rcases hmem with hmem | rfl
    · exact h.openGroup c' hmem
    · exact hfmt
  delivered := h.delivered
  givenUp before g after heq hnone := by
    obtain ⟨c', rest, hafter, hfmt'⟩ := h.givenUp before g after heq hnone
    exact ⟨c', rest ++ [c], by rw [← List.append_assoc, hafter, List.cons_append], hfmt'⟩

/-- The open message is given up. -/
theorem restart (h : Grouped chunks groups opened) (hopen : opened ≠ []) {c : Chunk}
    (hfmt : c.header.fmt = .fmt0) :
    Grouped (chunks ++ [c]) (groups ++ [⟨opened, none⟩]) [c] where
  chunks_eq := by
    rw [← h.chunks_eq, List.flatMap_append, List.flatMap_singleton]
  group g hmem := by
    rw [List.mem_append, List.mem_singleton] at hmem
    rcases hmem with hmem | rfl
    · exact h.group g hmem
    · exact ⟨hopen, h.openGroup⟩
  openGroup _ hmem := by cases hmem
  delivered before g after msg heq hmsg := by
    rcases concat_split heq with ⟨rfl, rfl, rfl⟩ | ⟨after', rfl, hgroups⟩
    · cases hmsg
    · exact h.delivered before g after' msg hgroups hmsg
  givenUp before g after heq hnone := by
    rcases concat_split heq with ⟨rfl, rfl, rfl⟩ | ⟨after', rfl, hgroups⟩
    · exact ⟨c, [], rfl, hfmt⟩
    · obtain ⟨c', rest, hafter, hfmt'⟩ := h.givenUp before g after' hgroups hnone
      refine ⟨c', rest ++ [c], ?_, hfmt'⟩
      rw [List.flatMap_append, List.flatMap_singleton, hafter, List.cons_append]

/-- The open message is delivered. -/
theorem deliver (h : Grouped chunks groups opened) (hopen : opened ≠ []) {msg : RtmpMessage}
    (hmsg : MadeOf (groups.flatMap (·.chunks)) opened msg) :
    Grouped chunks (groups ++ [⟨opened, some msg⟩]) [] where
  chunks_eq := by
    rw [← h.chunks_eq, List.flatMap_append, List.flatMap_singleton, List.append_nil]
  group g hmem := by
    rw [List.mem_append, List.mem_singleton] at hmem
    rcases hmem with hmem | rfl
    · exact h.group g hmem
    · exact ⟨hopen, h.openGroup⟩
  openGroup _ hmem := by cases hmem
  delivered before g after msg' heq hsome := by
    rcases concat_split heq with ⟨rfl, rfl, rfl⟩ | ⟨after', rfl, hgroups⟩
    · cases hsome
      exact hmsg
    · exact h.delivered before g after' msg' hgroups hsome
  givenUp before g after heq hnone := by
    rcases concat_split heq with ⟨rfl, rfl, rfl⟩ | ⟨after', rfl, hgroups⟩
    · cases hnone
    · obtain ⟨c', rest, hafter, hfmt⟩ := h.givenUp before g after' hgroups hnone
      refine ⟨c', rest, ?_, hfmt⟩
      rw [List.flatMap_append, List.flatMap_singleton, List.append_nil, hafter]

end Grouped

/-! ## Headers of one message -/

/-- A chunk that is not of format 0 keeps the stream id, and one that is not of format 1
either keeps the length and the type. -/
theorem Chunk.after_kept (c : Chunk) (prev : RtmpMsgHeader) (hfmt : c.header.fmt ≠ .fmt0) :
    (c.after prev).msgStreamId = prev.msgStreamId ∧
      (c.header.fmt ≠ .fmt1 →
        (c.after prev).msgLen = prev.msgLen ∧ (c.after prev).msgType = prev.msgType) := by
  have hafter : (c.after prev).msgStreamId = (c.header.after c.id.csid prev).msgStreamId ∧
      (c.after prev).msgLen = (c.header.after c.id.csid prev).msgLen ∧
      (c.after prev).msgType = (c.header.after c.id.csid prev).msgType := by
    unfold Chunk.after
    cases c.extTs with
    | none => exact ⟨rfl, rfl, rfl⟩
    | some t => exact ⟨rfl, rfl, rfl⟩
  obtain ⟨hid, hlen, htype⟩ := hafter
  rw [hid, hlen, htype]
  cases hheader : c.header with
  | fmt0 => exact absurd (by rw [hheader]; rfl) hfmt
  | fmt1 => exact ⟨rfl, fun h => absurd rfl h⟩
  | fmt2 => exact ⟨rfl, fun _ => ⟨rfl, rfl⟩⟩
  | fmt3 => exact ⟨rfl, fun _ => ⟨rfl, rfl⟩⟩

namespace RtmpChunkParse

variable {st : RtmpChunkParse} {csid : Nat} {chunks opened : List Chunk}
  {groups : List ChunkGroup}

/-- What the parser keeps of a chunk stream, told from its chunks. -/
structure Keeps (st : RtmpChunkParse) (csid : Nat) (chunks opened : List Chunk) : Prop where
  prev : st.prevHeaders csid = lastHeader chunks
  closed : opened = [] → ((st.inProgress csid).getD {}).isComplete = true
  progress : opened ≠ [] → ∃ msg, st.inProgress csid = some msg ∧ msg.isComplete = false ∧
    msg.payload = dataOf opened ∧ msg.header.Agrees (lastHeader chunks) ∧ msg.header.csid = csid

/-- A message that is continued has the fields of the new header. -/
theorem openMessage_agrees {c : Chunk} {msg : RtmpMessage}
    (hm : st.inProgress c.id.csid = some msg) (hc : msg.isComplete = false)
    (hagrees : msg.header.Agrees (st.prevHeaders c.id.csid)) (hcsid : msg.header.csid = c.id.csid)
    (hfmt : c.header.fmt ≠ .fmt0) :
    (st.openMessage (c.after (st.prevHeaders c.id.csid))).payload = msg.payload ∧
      (st.openMessage (c.after (st.prevHeaders c.id.csid))).header.Agrees
        (c.after (st.prevHeaders c.id.csid)) := by
  obtain ⟨hid, hkept⟩ := c.after_kept (st.prevHeaders c.id.csid) hfmt
  have hmcsid : (c.after (st.prevHeaders c.id.csid)).csid = c.id.csid := c.after_csid _
  generalize hh : c.after (st.prevHeaders c.id.csid) = header at *
  have hm' : st.inProgress header.csid = some msg := by rw [hmcsid]; exact hm
  have hheader : header.fmt = c.header.fmt := by rw [← hh, Chunk.after_fmt]
  have hmid : msg.header.msgStreamId = header.msgStreamId := by rw [hid, hagrees]
  by_cases h1 : c.header.fmt = .fmt1
  · rw [openMessage_continue_fmt1 hm' hc (hheader.trans h1)]
    refine ⟨rfl, ?_⟩
    simp [RtmpMsgHeader.Agrees, hmid, hcsid, hmcsid]
  · obtain ⟨hlen, htype⟩ := hkept h1
    have hmlen : msg.header.msgLen = header.msgLen := by rw [hlen, hagrees]
    have hmtype : msg.header.msgType = header.msgType := by rw [htype, hagrees]
    rw [openMessage_continue hm' hc (by rw [hheader]; exact hfmt) (by rw [hheader]; exact h1)]
    refine ⟨rfl, ?_⟩
    simp [RtmpMsgHeader.Agrees, hmid, hmlen, hmtype, hcsid, hmcsid]

/-- The chunk is put into a group, which is then open. -/
theorem Keeps.openGroup {c : Chunk} (hkeeps : Keeps st c.id.csid chunks opened)
    (hgrouped : Grouped chunks groups opened) :
    ∃ groups' opened', Grouped (chunks ++ [c]) groups' (opened' ++ [c]) ∧
      groups'.filterMap (·.message) = groups.filterMap (·.message) ∧
      (st.openMessage (c.after (st.prevHeaders c.id.csid))).payload = dataOf opened' ∧
      (st.openMessage (c.after (st.prevHeaders c.id.csid))).header.Agrees
        (lastHeader (chunks ++ [c])) ∧
      (st.openMessage (c.after (st.prevHeaders c.id.csid))).header.csid = c.id.csid := by
  rw [lastHeader_concat, ← hkeeps.prev]
  by_cases hopen : opened = []
  · subst hopen
    have hstart : st.openMessage (c.after (st.prevHeaders c.id.csid)) =
        { header := c.after (st.prevHeaders c.id.csid), payload := [] } :=
      openMessage_start (.inr (by rw [Chunk.after_csid]; exact hkeeps.closed rfl))
    rw [hstart]
    exact ⟨groups, [], hgrouped.start c, rfl, rfl, rfl, c.after_csid _⟩
  · by_cases hfmt : c.header.fmt = .fmt0
    · have hstart : st.openMessage (c.after (st.prevHeaders c.id.csid)) =
          { header := c.after (st.prevHeaders c.id.csid), payload := [] } :=
        openMessage_start (.inl (by rw [Chunk.after_fmt]; exact hfmt))
      rw [hstart]
      refine ⟨_, [], hgrouped.restart hopen hfmt, ?_, rfl, rfl, c.after_csid _⟩
      rw [List.filterMap_append]
      exact List.append_nil _
    · obtain ⟨msg, hm, hc, hpayload, hagrees, hcsid⟩ := hkeeps.progress hopen
      rw [← hkeeps.prev] at hagrees
      obtain ⟨hsame, hfields⟩ := openMessage_agrees hm hc hagrees hcsid hfmt
      refine ⟨groups, opened, hgrouped.add hopen hfmt, rfl, hsame.trans hpayload, hfields, ?_⟩
      rw [hfields]
      exact c.after_csid _

/-- A chunk of another chunk stream changes nothing. -/
theorem Keeps.other {st' : RtmpChunkParse} (hkeeps : Keeps st csid chunks opened)
    (hprev : st'.prevHeaders csid = st.prevHeaders csid)
    (hprogress : st'.inProgress csid = st.inProgress csid) : Keeps st' csid chunks opened where
  prev := hprev.trans hkeeps.prev
  closed := by
    rw [hprogress]
    exact hkeeps.closed
  progress := by
    rw [hprogress]
    exact hkeeps.progress

/-- The data of an expected chunk does not outgrow its message. -/
theorem Expects.length_le {c : Chunk} (hw : st.WellFormed) (h : st.Expects c) :
    ((st.openMessage (c.after (st.prevHeaders c.id.csid))).payload ++ c.data).length ≤
      (st.openMessage (c.after (st.prevHeaders c.id.csid))).header.msgLen.toNat := by
  obtain ⟨hlen, hpayload⟩ := hw.openMessage (c.after_msgLen_lt (hw.prev_lt c.id.csid))
  have hsize := h.2
  rw [dataSize_eq st hlen hpayload] at hsize
  rw [List.length_append]
  omega

/-- One more chunk of the chunk stream. -/
theorem Keeps.concat {cb : MessageCallback} {c : Chunk} (hw : st.WellFormed)
    (hexpects : st.Expects c) (hkeeps : Keeps st c.id.csid chunks opened)
    (hgrouped : Grouped chunks groups opened) :
    ∃ groups' opened', Grouped (chunks ++ [c]) groups' opened' ∧
      Keeps ((chunkCodec cb).read st c).1 c.id.csid (chunks ++ [c]) opened' ∧
      groups'.filterMap (·.message) =
        groups.filterMap (·.message) ++ ((chunkCodec cb).read st c).2 ∧
      ∀ msg ∈ ((chunkCodec cb).read st c).2, msg.header.csid = c.id.csid := by
  obtain ⟨groups', opened', hnew, hsame, hpayload, hagrees, hcsid⟩ := hkeeps.openGroup hgrouped
  have hle := hexpects.length_le hw
  have hread : (chunkCodec cb).read st c = st.finishChunk cb (c.after (st.prevHeaders c.id.csid))
    (st.openMessage (c.after (st.prevHeaders c.id.csid))) c.data := rfl
  have hprev : c.after (st.prevHeaders c.id.csid) = lastHeader (chunks ++ [c]) := by
    rw [lastHeader_concat, hkeeps.prev]
  have hopen : opened' ++ [c] ≠ [] := List.append_ne_nil_of_right_ne_nil _ (List.cons_ne_nil _ _)
  generalize st.openMessage (c.after (st.prevHeaders c.id.csid)) = msg at *
  have hdata : msg.payload ++ c.data = dataOf (opened' ++ [c]) := by
    rw [dataOf_concat, hpayload]
  cases hcomplete : ({ msg with payload := msg.payload ++ c.data } : RtmpMessage).isComplete with
  | true =>
    rw [hread, finishChunk_complete hcomplete]
    have hlength := (RtmpMessage.isComplete_iff _).mp hcomplete
    have hmade : MadeOf (groups'.flatMap (·.chunks)) (opened' ++ [c])
        { msg with payload := msg.payload ++ c.data } := by
      refine ⟨hdata, ?_, Nat.le_antisymm hle hlength⟩
      rw [hnew.chunks_eq]
      exact hagrees
    refine ⟨_, [], hnew.deliver hopen hmade, ⟨?_, fun _ => ?_, fun h => absurd rfl h⟩, ?_, ?_⟩
    · simp [setPrev, setInProgress, ← hprev]
    · simp [setPrev, setInProgress]
    · rw [List.filterMap_append, hsame]
      rfl
    · rintro msg' hmem
      rw [List.mem_singleton.mp hmem]
      exact hcsid
  | false =>
    rw [hread, finishChunk_incomplete hcomplete]
    refine ⟨groups', opened' ++ [c], hnew, ⟨?_, fun h => absurd h hopen, fun _ => ?_⟩, ?_, ?_⟩
    · simp [setPrev, setInProgress, ← hprev]
    · refine ⟨_, ?_, hcomplete, hdata, hagrees, hcsid⟩
      simp [setPrev, setInProgress]
    · rw [hsame, List.append_nil]
    · rintro msg' hmem
      cases hmem

/-! ## Whole runs -/

/-- The chunks of every chunk stream behind chunks that have been read. -/
theorem run_grouped {cb : MessageCallback} {read : List Chunk}
    (haccepts : (chunkCodec cb).Accepts {} read) :
    ((chunkCodec cb).run {} read).1.WellFormed ∧
      ∀ csid, ∃ groups opened, Grouped (onStream csid read) groups opened ∧
        Keeps ((chunkCodec cb).run {} read).1 csid (onStream csid read) opened ∧
        groups.filterMap (·.message) =
          ((chunkCodec cb).run {} read).2.filter (·.header.csid = csid) := by
  refine Codec.run_induction
    (motive := fun chunks msgs st => st.WellFormed ∧
      ∀ csid, ∃ groups opened, Grouped (onStream csid chunks) groups opened ∧
        Keeps st csid (onStream csid chunks) opened ∧
        groups.filterMap (·.message) = msgs.filter (·.header.csid = csid)) ?_ ?_ haccepts
  · refine ⟨wellFormed_init, fun csid => ⟨[], [], Grouped.nil, ⟨rfl, fun _ => rfl, ?_⟩, rfl⟩⟩
    exact fun h => absurd rfl h
  · rintro chunks c - hexpects ⟨hw, hstreams⟩
    generalize (chunkCodec cb).run {} chunks = r at hexpects hw hstreams ⊢
    obtain ⟨st, msgs⟩ := r
    refine ⟨hw.finishChunk (c.after_msgLen_lt (hw.prev_lt c.id.csid)) _, fun csid => ?_⟩
    obtain ⟨groups, opened, hgrouped, hkeeps, hmsgs⟩ := hstreams csid
    rw [List.filter_append, ← hmsgs]
    have hcsid : ∀ msg ∈ ((chunkCodec cb).read st c).2, msg.header.csid = c.id.csid := by
      obtain ⟨_, _, hgrouped, hkeeps, -⟩ := hstreams c.id.csid
      obtain ⟨_, _, -, -, -, hcsid⟩ := hkeeps.concat hw hexpects hgrouped
      exact hcsid
    by_cases heq : c.id.csid = csid
    · subst heq
      obtain ⟨groups', opened', hgrouped', hkeeps', hsame, -⟩ :=
        hkeeps.concat hw hexpects hgrouped
      refine ⟨groups', opened', ?_, ?_, ?_⟩
      · rw [onStream_concat_self]
        exact hgrouped'
      · rw [onStream_concat_self]
        exact hkeeps'
      · rw [hsame, List.filter_eq_self.mpr fun msg hmem => decide_eq_true (hcsid msg hmem)]
    · obtain ⟨hprev, hprogress⟩ := read_other heq
      refine ⟨groups, opened, ?_, ?_, ?_⟩
      · rw [onStream_concat_other _ heq]
        exact hgrouped
      · rw [onStream_concat_other _ heq]
        exact hkeeps.other hprev hprogress
      · rw [List.filter_eq_nil_iff.mpr, List.append_nil]
        intro msg hmem h
        exact heq ((hcsid msg hmem).symm.trans (of_decide_eq_true h))

/-- Whatever bytes arrive, the chunks that have been read fall into groups on each chunk
stream, and the messages that have been delivered on it are those of the groups, in order.
An open group lacks data. -/
theorem receive_grouped (cb : MessageCallback) {segs : List Bytes}
    (hlen : segs.flatten.length < 2 ^ 31) :
    ∃ read, (chunkCodec cb).Accepts {} read ∧
      segs.flatten = (chunkCodec cb).encodeAll read ++ (receive cb segs).unread ∧
      ∀ csid, ∃ groups opened, Grouped (onStream csid read) groups opened ∧
        groups.filterMap (·.message) =
          (receive cb segs).delivered.filter (·.header.csid = csid) ∧
        (opened ≠ [] →
          (dataOf opened).length < (lastHeader (onStream csid read)).msgLen.toNat) := by
  rw [receive_eq_drain cb hlen]
  obtain ⟨read, haccepts, hbytes, hdelivered, -⟩ :=
    (parseOneChunk_recognises cb).exists_items (parseOneChunk_progressive cb) (s := {}) hlen
  refine ⟨read, haccepts, hbytes, fun csid => ?_⟩
  obtain ⟨groups, opened, hgrouped, hkeeps, hmsgs⟩ := (run_grouped haccepts).2 csid
  rw [hdelivered]
  refine ⟨groups, opened, hgrouped, hmsgs, fun hopen => ?_⟩
  obtain ⟨msg, -, hincomplete, hpayload, hagrees, -⟩ := hkeeps.progress hopen
  have hlen : msg.header.msgLen = (lastHeader (onStream csid read)).msgLen := by rw [hagrees]
  rw [← hpayload, ← hlen]
  simp only [RtmpMessage.isComplete, decide_eq_false_iff_not] at hincomplete
  omega

/-- The chunk size is set to 1, and the first half of a message is given up for another. -/
def restartedStream : Bytes :=
  [0x02, 0, 0, 0, 0, 0, 4, 1, 0, 0, 0, 0, 0, 0, 0, 1] ++
  [0x03, 0, 0, 0, 0, 0, 2, 8, 1, 0, 0, 0, 0x17] ++
  [0x03, 0, 0, 0, 0, 0, 1, 8, 1, 0, 0, 0, 0xAF]

theorem receive_grouped_restarted : ∃ read groups opened,
    restartedStream = (chunkCodec chunkSizeCallback).encodeAll read ∧
      Grouped (onStream 3 read) groups opened ∧
      (groups.filterMap (·.message)).map (·.payload) = [[0xAF]] := by
  obtain ⟨read, -, hbytes, hgroups⟩ :=
    receive_grouped chunkSizeCallback (show [restartedStream].flatten.length < 2 ^ 31 by decide)
  obtain ⟨groups, opened, hgrouped, hmsgs, -⟩ := hgroups 3
  have hunread : (receive chunkSizeCallback [restartedStream]).unread = [] := by decide
  have hpayloads : ((receive chunkSizeCallback [restartedStream]).delivered.filter
      (·.header.csid = 3)).map (·.payload) = [[0xAF]] := by decide
  rw [hunread, List.append_nil, List.flatten_singleton] at hbytes
  exact ⟨read, groups, opened, hbytes, hgrouped, by rw [hmsgs, hpayloads]⟩

end RtmpChunkParse
