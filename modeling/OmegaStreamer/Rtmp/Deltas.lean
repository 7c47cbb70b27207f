-- SUMMARY: Timestamp deltas that need an extended timestamp, and what the parser makes of them.
import OmegaStreamer.Rtmp.Timestamps

/-!
# Long deltas

A delta from `0xFFFFFF` on is written as `0xFFFFFF`, with the delta behind the message
header and in each continuation chunk. The parser compares the field with `>` and
never finds such a delta. The sender of `Sender` is given long deltas here, and the
runs in which the parser follows it are characterised exactly.
-/

open Resumable BytesReader

/-! ## Long deltas -/

/-- A timestamp delta that needs an extended timestamp. -/
abbrev LongDelta := { d : UInt32 // 0xFFFFFF ≤ d.toNat }

/-- The formats that have a delta. -/
inductive DeltaStart where
  | fmt1 (msgType : UInt8)
  | fmt2
  deriving DecidableEq, Repr

/-- What a sender does next, when it may use long deltas. -/
inductive DeltaEvent where
  | send (e : SendEvent)
  | long (id : ChunkStreamId) (how : DeltaStart) (delta : LongDelta) (payload : Payload)

namespace DeltaStart

/-- The message begun. -/
def message (how : DeltaStart) (str : SendStream) (csid : Nat) (delta : LongDelta)
    (payload : Payload) : Option SentMessage :=
  match how, str.last with
  | .fmt1 msgType, some m =>
    some {
      csid, msgType, payload
      msgStreamId := m.msgStreamId
      timestamp := m.timestamp + delta
      shown := m.shown + delta }
  | .fmt2, some m =>
    if payload.msgLen = m.payload.msgLen then
      some {
        csid, payload
        msgType := m.msgType
        msgStreamId := m.msgStreamId
        timestamp := m.timestamp + delta
        shown := m.shown + delta }
    else none
  | _, none => none

def header (how : DeltaStart) (payload : Payload) : ChunkMsgHeader :=
  match how with
  | .fmt1 msgType => .fmt1 0xFFFFFF payload.msgLen msgType
  | .fmt2 => .fmt2 0xFFFFFF

/-- The chunk stream with the message `m` begun. The delta is not kept for a message
begun with a format 3 chunk: it would change `timestamp` only, and the messages are
compared by `shown`. -/
def stream (m : SentMessage) (delta : LongDelta) : SendStream where
  last := some m
  extTs := some delta
  extSeen := true
  rest := m.payload.val

end DeltaStart

namespace DeltaEvent

def step (s : Sender) : DeltaEvent → Option (Sender × ChunkSent)
  | .send e => s.step e
  | .long id how delta payload =>
    let str := s.streams id.csid
    if str.rest = [] then
      match how.message str id.csid delta payload with
      | none => none
      | some m =>
        if m.Permitted then
          some (s.sendPiece id (how.header payload) (DeltaStart.stream m delta) m)
        else none
    else none

/-- The delta is short, and a format 3 chunk has an extended timestamp exactly when
its chunk stream ever had one. -/
def Plain (s : Sender) : DeltaEvent → Prop
  | .send e => Aligned s e
  | .long .. => False

theorem step_long {s s' : Sender} {id : ChunkStreamId} {how : DeltaStart} {delta : LongDelta}
    {payload : Payload} {o : ChunkSent} (h : step s (.long id how delta payload) = some (s', o)) :
    (s.streams id.csid).rest = [] ∧
      ∃ m, how.message (s.streams id.csid) id.csid delta payload = some m ∧
        s.sendPiece id (how.header payload) (DeltaStart.stream m delta) m = (s', o) := by
  simp only [step] at h
  split at h
  swap
  · cases h
  rename_i idle
  split at h
  · cases h
  rename_i m hm
  split at h
  · exact ⟨idle, m, hm, Option.some.inj h⟩
  · cases h

end DeltaEvent

/-! ## Reading chunk by chunk -/

namespace RtmpChunkParse

/-- The parser takes each chunk with all its bytes and no others, and delivers the
message that the chunk completes, with its timestamp. -/
def Reads : RtmpChunkParse → List ChunkSent → Prop
  | _, [] => True
  | st, o :: sent =>
    ∃ st' out,
      st.parseOneChunk chunkSizeCallback o.chunk.encode = .item st' o.chunk.encode.length out ∧
      out.map RtmpMessage.stamped = o.completed.toList.map SentMessage.stamped ∧
      Reads st' sent

/-- A chunk that has been taken leaves the rest to be read. -/
theorem reads_cons_iff {st st' : RtmpChunkParse} {o : ChunkSent} {sent : List ChunkSent}
    {out : List RtmpMessage}
    (h : st.parseOneChunk chunkSizeCallback o.chunk.encode =
      .item st' o.chunk.encode.length out)
    (hout : out.map RtmpMessage.stamped = o.completed.toList.map SentMessage.stamped) :
    Reads st (o :: sent) ↔ Reads st' sent := by
  constructor
  · rintro ⟨st'', out', h', -, hreads⟩
    rw [h] at h'
    cases h'
    exact hreads
  · exact fun hreads => ⟨st', out, h, hout, hreads⟩

/-- The first chunk of a message: as much data is looked for as there is. -/
theorem dataSize_start {st : RtmpChunkParse} {header : RtmpMsgHeader} {payload : Payload}
    {size : Nat} (hcomplete : ((st.inProgress header.csid).getD {}).isComplete = true)
    (hlen : header.msgLen.toNat = payload.val.length) (hsize : st.inChunkSize = size) :
    st.dataSize (st.openMessage header) = (payload.val.take size).length := by
  have hpl := payload.property
  rw [openMessage_start (.inr hcomplete), dataSize_fresh st (hlen ▸ hpl), hlen, hsize,
    List.length_take]
  omega

/-- Where no extended timestamp is expected, four bytes of a chunk that has one are
left over. -/
theorem parseOneChunk_unexpected {cb : MessageCallback} {st : RtmpChunkParse} {c : Chunk}
    {t : UInt32} (hext : c.extTs = some t)
    (hexpects : c.header.expectsExt (st.prevHeaders c.id.csid) = false)
    (hsize : st.dataSize (st.openMessage (c.header.after c.id.csid (st.prevHeaders c.id.csid))) =
      c.data.length)
    (hlen : c.encode.length < 2 ^ 31) :
    ∃ st' out, st.parseOneChunk cb c.encode = .item st' (c.encode.length - 4) out := by
  obtain ⟨id, header, extTs, data⟩ := c
  simp only at hext hexpects hsize
  subst hext
  -- what the parser takes for the chunk
  generalize hbytes : Endian.toBE 4 t.toNat ++ data = bytes
  have hfour : bytes.length = 4 + data.length := by
    rw [← hbytes, List.length_append, Endian.length_toBE]
  have hsplit : Chunk.encode ⟨id, header, some t, data⟩ =
      Chunk.encode ⟨id, header, none, bytes.take data.length⟩ ++ bytes.drop data.length := by
    simp only [Chunk.encode, Chunk.encodeHead, Chunk.encodeExt, List.append_nil,
      List.append_assoc, List.take_append_drop, hbytes]
  have hleft : (Chunk.encode ⟨id, header, some t, data⟩).length =
      (Chunk.encode ⟨id, header, none, bytes.take data.length⟩).length + 4 := by
    rw [hsplit, List.length_append, List.length_drop, hfour]
    omega
  have hdata : (bytes.take data.length).length = data.length := by
    rw [List.length_take, hfour]
    omega
  obtain ⟨st', out, htaken⟩ : ∃ st' out,
      st.parseOneChunk cb (Chunk.encode ⟨id, header, none, bytes.take data.length⟩) =
        .item st' (Chunk.encode ⟨id, header, none, bytes.take data.length⟩).length out := by
    refine ⟨_, _, parseOneChunk_encode hexpects ?_ (by omega)⟩
    rw [hdata]
    exact hsize
  rw [hleft, Nat.add_sub_cancel, hsplit]
  exact ⟨st', out, parseOneChunk_append (by rw [← hsplit]; exact hlen) htaken⟩

end RtmpChunkParse

/-! ## Losing step -/

/-- Where the parser's expectation is wrong, an extended timestamp was written before
and is missing. -/
theorem Sender.ExtWritten.stale {s : Sender} (hext : s.ExtWritten) {csid : Nat}
    (h : ¬ (s.streams csid).extSeen = (s.streams csid).extTs.isSome) :
    (s.streams csid).extSeen = true ∧ (s.streams csid).extTs = none := by
  have hwritten := hext csid
  cases hts : (s.streams csid).extTs with
  | none =>
    rw [hts, Option.isSome_none, Bool.not_eq_false] at h
    exact ⟨h, rfl⟩
  | some t =>
    rw [hts, Option.isSome_some] at h hwritten
    exact absurd (hwritten rfl) h

/-- A parser in step with the sender waits on a message begun with a stale chunk. -/
theorem Sim.stale_start {s s' : Sender} {st : RtmpChunkParse} {id : ChunkStreamId}
    {payload : Payload} {o : ChunkSent} (hsim : Sim s st)
    (h : s.step (.start id .fmt3 payload) = some (s', o))
    (hseen : (s.streams id.csid).extSeen = true) (hnone : (s.streams id.csid).extTs = none) :
    ∃ st', st.parseOneChunk chunkSizeCallback o.chunk.encode = .wait st' := by
  have hlen := Sender.length_encode_of_step h
  have hsize := hsim.chunkSize
  have hmax := hsim.range.2
  have hstr := hsim.stream id.csid
  cases Sender.step_eq_some h with
  | @start _ _ _ m idle hm hp =>
    cases MessageStart.message_begun hm with
    | fmt3 hlast hsame =>
      obtain ⟨-, -, hprev⟩ := hstr.last hlast
      rw [Sender.sendPiece_chunk] at hlen ⊢
      refine RtmpChunkParse.parseOneChunk_stale rfl hnone (hstr.hasExtTs.trans hseen) ?_
        (by omega)
      intro header hcsid _ hmsgLen
      refine RtmpChunkParse.dataSize_start ?_ ?_ hsize
      · rw [hcsid]
        exact hstr.idle idle
      · rw [hmsgLen, hprev.msgLen, hsame]

/-- A parser in step with the sender waits on a format 3 chunk without the extended
timestamp that its chunk stream had before. -/
theorem Sim.misaligned {s s' : Sender} {st : RtmpChunkParse} {e : SendEvent} {o : ChunkSent}
    (hsim : Sim s st) (hext : s.ExtWritten) (h : s.step e = some (s', o))
    (hbad : ¬ Aligned s e) :
    ∃ st', st.parseOneChunk chunkSizeCallback o.chunk.encode = .wait st' := by
  cases e with
  | more id =>
    obtain ⟨hseen, hnone⟩ := hext.stale hbad
    refine hsim.stale h fun hfresh => ?_
    have hsome := hfresh hseen
    rw [hnone] at hsome
    cases hsome
  | start id how payload =>
    cases how with
    | fmt0 => exact absurd trivial hbad
    | fmt1 => exact absurd trivial hbad
    | fmt2 => exact absurd trivial hbad
    | fmt3 =>
      obtain ⟨hseen, hnone⟩ := hext.stale hbad
      exact hsim.stale_start h hseen hnone

/-- The first header of a long delta: the parser finds the length of the message and
expects no extended timestamp. -/
theorem StreamSim.long_header {csid : Nat} {str : SendStream} {prev : RtmpMsgHeader}
    {prog : Option RtmpMessage} (hsim : StreamSim csid str prev prog) {how : DeltaStart}
    {delta : LongDelta} {payload : Payload} {m : SentMessage}
    (hm : how.message str csid delta payload = some m) :
    m.payload = payload ∧
      ((how.header payload).after csid prev).msgLen.toNat = payload.val.length ∧
      (how.header payload).expectsExt prev = false := by
  have hmsgLen : payload.msgLen.toUInt32.toNat = payload.val.length := UInt24.toNat_toUInt32 _
  unfold DeltaStart.message at hm
  split at hm
  · cases hm
    exact ⟨rfl, hmsgLen, rfl⟩
  · rename_i hlast
    split at hm
    · rename_i hsame
      cases hm
      obtain ⟨-, -, hprev⟩ := hsim.last hlast
      exact ⟨rfl, hprev.msgLen.trans (congrArg Fin.val hsame).symm, rfl⟩
    · cases hm
  · cases hm

/-- A parser in step with the sender leaves four bytes of a chunk with a long delta. -/
theorem Sim.long {s s' : Sender} {st : RtmpChunkParse} {id : ChunkStreamId} {how : DeltaStart}
    {delta : LongDelta} {payload : Payload} {o : ChunkSent} (hsim : Sim s st)
    (h : DeltaEvent.step s (.long id how delta payload) = some (s', o)) :
    4 ≤ o.chunk.encode.length ∧ ∃ st' out,
      st.parseOneChunk chunkSizeCallback o.chunk.encode =
        .item st' (o.chunk.encode.length - 4) out := by
  obtain ⟨idle, m, hm, hpiece⟩ := DeltaEvent.step_long h
  have hstr := hsim.stream id.csid
  have hsize := hsim.chunkSize
  have hmax := hsim.range.2
  have hchunk := Sender.sendPiece_chunk s id (how.header payload) (DeltaStart.stream m delta) m
  rw [hpiece] at hchunk
  simp only at hchunk
  obtain ⟨hpayload, hmsgLen, hexpects⟩ := hstr.long_header hm
  have hpl := payload.property
  have hdata : st.dataSize (st.openMessage
      ((how.header payload).after id.csid (st.prevHeaders id.csid))) =
        (m.payload.val.take s.chunkSize).length := by
    rw [hpayload]
    refine RtmpChunkParse.dataSize_start ?_ hmsgLen hsize
    rw [ChunkMsgHeader.after_csid]
    exact hstr.idle idle
  have hlen : o.chunk.encode.length < 2 ^ 31 := by
    have hhead := o.chunk.length_encodeHead_le
    have htake : o.chunk.data.length ≤ payload.val.length := by
      rw [hchunk, ← hpayload]
      exact List.length_take_le' _ _
    rw [Chunk.encode, List.length_append]
    omega
  have hfour : 4 ≤ o.chunk.encode.length := by
    rw [hchunk, Chunk.encode, Chunk.encodeHead, List.length_append, List.length_append,
      DeltaStart.stream, Chunk.encodeExt, Endian.length_toBE]
    omega
  refine ⟨hfour, ?_⟩
  rw [hchunk] at hlen ⊢
  exact RtmpChunkParse.parseOneChunk_unexpected rfl hexpects hdata hlen

/-! ## Whole runs -/

namespace DeltaEvent

/-- The chunks of a run are read exactly when all of its steps are plain. The induction
is on the events; a plain step keeps the parser in step with the sender. -/
theorem reads_iff_along {es : List DeltaEvent} {s s' : Sender} {st : RtmpChunkParse}
    {sent : List ChunkSent} (hsim : Sim s st) (hext : s.ExtWritten)
    (hrun : Mealy.run step s es = some (s', sent)) :
    st.Reads sent ↔ Mealy.Along step Plain s es := by
  induction es generalizing s st sent with
  | nil =>
    cases hrun
    exact Iff.rfl
  | cons e es ih =>
    obtain ⟨t, o, os, hstep, hrest, rfl⟩ := Mealy.run_cons_eq_some hrun
    rw [Mealy.along_cons hstep]
    by_cases hplain : Plain s e
    · cases e with
      | long => exact False.elim hplain
      | send e =>
        obtain ⟨st', out, hparse, hsim', hout⟩ := hsim.step hstep hplain
        rw [RtmpChunkParse.reads_cons_iff hparse hout, ih hsim' (hext.step hstep) hrest]
        exact (and_iff_right hplain).symm
    · refine iff_of_false ?_ fun h => hplain h.1
      rintro ⟨st', out, hparse, -⟩
      cases e with
      | long id how delta payload =>
        obtain ⟨hfour, st'', out', hshort⟩ := hsim.long hstep
        rw [hparse, Attempt.item.injEq] at hshort
        obtain ⟨-, hlen, -⟩ := hshort
        omega
      | send e =>
        obtain ⟨st'', hwait⟩ := hsim.misaligned hext hstep hplain
        rw [hparse] at hwait
        cases hwait

/-- A run of plain steps is one of a sender of short deltas. -/
theorem run_of_plain {es : List DeltaEvent} {s s' : Sender} {sent : List ChunkSent}
    (hrun : Mealy.run step s es = some (s', sent)) (hplain : Mealy.Along step Plain s es) :
    ∃ es', Mealy.run Sender.step s es' = some (s', sent) ∧
      Mealy.Along Sender.step Aligned s es' := by
  induction es generalizing s sent with
  | nil => exact ⟨[], hrun, trivial⟩
  | cons e es ih =>
    obtain ⟨t, o, os, hstep, hrest, rfl⟩ := Mealy.run_cons_eq_some hrun
    obtain ⟨hfirst, hafter⟩ := (Mealy.along_cons hstep).mp hplain
    obtain ⟨es', hrun', haligned⟩ := ih hrest hafter
    cases e with
    | long => exact False.elim hfirst
    | send e =>
      have hstep' : s.step e = some (t, o) := hstep
      refine ⟨e :: es', ?_, (Mealy.along_cons hstep').mpr ⟨hfirst, haligned⟩⟩
      simp only [Mealy.run, hstep', hrun']

end DeltaEvent

namespace RtmpChunkParse

/-- The parser follows what has been sent: chunk by chunk, and however the bytes
arrive. -/
structure Follows (sent : List ChunkSent) : Prop where
  reads : Reads {} sent
  receives {segs : List Bytes} : Segments (Sender.bytes sent) segs →
    (receive chunkSizeCallback segs).delivered.map RtmpMessage.stamped =
        (Sender.completed sent).map SentMessage.stamped ∧
      (receive chunkSizeCallback segs).unread = [] ∧
      (receive chunkSizeCallback segs).aborted = false

/-- Nothing is left of the bytes when they arrive at once. -/
theorem Follows.unread_eq {sent : List ChunkSent} (h : Follows sent)
    (hlen : (Sender.bytes sent).length ≤ 2 ^ 30) :
    (receive chunkSizeCallback [Sender.bytes sent]).unread = [] := by
  have hsegs : Segments (Sender.bytes sent) [Sender.bytes sent] :=
    ⟨List.append_nil _, List.forall_mem_singleton.mpr hlen⟩
  exact (h.receives hsegs).2.1

/-- The parser follows a sender exactly when the sender uses no long delta, and sends
no format 3 chunk without an extended timestamp on a chunk stream that had one
before. -/
theorem follows_iff {es : List DeltaEvent} {sent : List ChunkSent} {s : Sender}
    (hrun : Mealy.run DeltaEvent.step {} es = some (s, sent)) :
    Follows sent ↔ Mealy.Along DeltaEvent.step DeltaEvent.Plain {} es := by
  have hreads : Reads {} sent ↔ _ :=
    DeltaEvent.reads_iff_along sim_init Sender.extWritten_init hrun
  constructor
  · exact fun h => hreads.mp h.reads
  · intro hplain
    refine ⟨hreads.mpr hplain, fun hsegs => ?_⟩
    obtain ⟨es', hrun', haligned⟩ := DeltaEvent.run_of_plain hrun hplain
    obtain ⟨st, -, out, hrecv, hout⟩ := receive_sent hrun' haligned hsegs
    rw [hrecv]
    exact ⟨hout, rfl, rfl⟩

/-- A payload of one byte. -/
def singleByte (b : UInt8) : Payload := ⟨[b], Nat.one_lt_two_pow (Nat.succ_ne_zero 23)⟩

/-- A message at 10 ms, and one with a delta of 16777214 ms, the longest short one. -/
def longestShortEvents : List DeltaEvent := [
  .send (.start commandStream (.fmt0 10 8 1) (singleByte 0xAF)),
  .send (.start commandStream (.fmt2 ⟨0xFFFFFE, Nat.lt_add_one _⟩) (singleByte 0xAE))]

theorem longestShortEvents_follows : ∃ s sent,
    Mealy.run DeltaEvent.step {} longestShortEvents = some (s, sent) ∧ Follows sent := by
  have hrun : Mealy.run DeltaEvent.step {} longestShortEvents = some (_, _) := rfl
  exact ⟨_, _, hrun, (follows_iff hrun).mpr ⟨trivial, trivial, trivial⟩⟩

/-- A message at 10 ms, and one with a delta of 16777216 ms. -/
def longDeltaEvents : List DeltaEvent := [
  .send (.start commandStream (.fmt0 10 8 1) (singleByte 0xAF)),
  .long commandStream (.fmt1 8) ⟨0x01000000, by decide⟩ (singleByte 0xAE)]

/-- The second message is delivered with the first byte of its delta for its payload,
one millisecond early, and four bytes of its chunk are left over. -/
theorem longDeltaEvents_not_follows : ∃ s sent,
    Mealy.run DeltaEvent.step {} longDeltaEvents = some (s, sent) ∧
      (Sender.completed sent).map (fun m => (m.payload.val, m.shown)) =
        [([0xAF], 10), ([0xAE], 0x0100000A)] ∧
      (receive chunkSizeCallback [Sender.bytes sent]).delivered.map
        (fun msg => (msg.payload, msg.header.timestamp)) =
        [([0xAF], 10), ([0x01], 0x01000009)] ∧
      (receive chunkSizeCallback [Sender.bytes sent]).unread = [0, 0, 0, 0xAE] ∧
      ¬ Follows sent := by
  have hrun : Mealy.run DeltaEvent.step {} longDeltaEvents = some (_, _) := rfl
  refine ⟨_, _, hrun, by decide, by decide, by decide, fun h => ?_⟩
  exact absurd (h.unread_eq (by decide)) (by decide)

end RtmpChunkParse
