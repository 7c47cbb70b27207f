-- SUMMARY: Timestamps: when extended timestamps stay in sync, and when deltas add up.
import OmegaStreamer.Rtmp.Reassembly

/-!
# Timestamps

Two places where the parser and its peer disagree about timestamps. The flag
`has_ext_ts` of a chunk stream is set by an extended timestamp and never taken
back, so that a later message with a small timestamp loses four bytes in each
continuation chunk. And a message that begins with a format 3 chunk is given the
timestamp of the message before it, without the delta it repeats. In both cases
the runs in which nothing goes wrong are characterised exactly.
-/

open Resumable BytesReader

/-- A delivered message with its timestamp, as its sender would have it. -/
def SentMessage.timed (m : SentMessage) : MessageContent × UInt32 := (m.content, m.timestamp)

/-! ## The timestamps of the sender -/

namespace MessageStart

/-- A message is begun with the timestamp written for it and the delta that it
repeats, if the message before it had the timestamp written for it. -/
theorem message_timestamp {how : MessageStart} {str : SendStream} {csid : Nat}
    {payload : Payload} {m : SentMessage} (h : how.message str csid payload = some m)
    (hlast : ∀ m₀, str.last = some m₀ → m₀.shown = m₀.timestamp) :
    m.timestamp = m.shown + m.repeated := by
  cases message_begun h with
  | fmt0 => exact (UInt32.add_zero _).symm
  | fmt1 hm₀ => simp only [hlast _ hm₀, UInt32.add_zero]
  | fmt2 hm₀ => simp only [hlast _ hm₀, UInt32.add_zero]
  | fmt3 hm₀ => simp only [hlast _ hm₀]

end MessageStart

namespace Sender

/-- All completed messages had the timestamp written for them. -/
def ShownTrue (sent : List ChunkSent) : Prop := ∀ m ∈ completed sent, m.shown = m.timestamp

/-- No completed message repeated a delta other than 0. -/
def RepeatsNothing (sent : List ChunkSent) : Prop := ∀ m ∈ completed sent, m.repeated = 0

/-- What holds of the last message of each chunk stream while the completed
messages have the timestamps written for them. -/
structure TimesInv (sent : List ChunkSent) (s : Sender) : Prop where
  done {csid : Nat} {m : SentMessage} : (s.streams csid).last = some m →
    (s.streams csid).rest = [] → m ∈ completed sent
  timestamp {csid : Nat} {m : SentMessage} : ShownTrue sent → (s.streams csid).last = some m →
    m.timestamp = m.shown + m.repeated
  iff : ShownTrue sent ↔ RepeatsNothing sent

theorem mem_completed_concat {sent : List ChunkSent} {o : ChunkSent} {m : SentMessage} :
    m ∈ completed (sent ++ [o]) ↔ m ∈ completed sent ∨ o.completed = some m := by
  rw [completed_concat, List.mem_append, Option.mem_toList]

/-- The last message of a chunk stream after a piece of the message `m`. -/
theorem last_sendPiece {s : Sender} {id : ChunkStreamId} {header : ChunkMsgHeader}
    {str : SendStream} {m : SentMessage} (hlast : str.last = some m) {csid : Nat}
    {m' : SentMessage}
    (h : ((s.sendPiece id header str m).1.streams csid).last = some m') :
    csid = id.csid ∧ m' = m ∨ csid ≠ id.csid ∧ (s.streams csid).last = some m' := by
  rw [sendPiece_streams] at h
  by_cases hid : csid = id.csid
  · subst hid
    rw [Function.update_self, hlast, Option.some.injEq] at h
    exact .inl ⟨rfl, h.symm⟩
  · rw [Function.update_of_ne hid] at h
    exact .inr ⟨hid, h⟩

/-- The messages completed after a piece of the message `m`. -/
theorem mem_completed_sendPiece {sent : List ChunkSent} {s : Sender} {id : ChunkStreamId}
    {header : ChunkMsgHeader} {str : SendStream} {m m' : SentMessage} :
    m' ∈ completed (sent ++ [(s.sendPiece id header str m).2]) ↔
      m' ∈ completed sent ∨ str.rest.drop s.chunkSize = [] ∧ m' = m := by
  rw [mem_completed_concat]
  by_cases hdone : str.rest.drop s.chunkSize = []
  · rw [(sendPiece_last hdone id header m).1]
    simp [hdone, eq_comm]
  · rw [(sendPiece_not_last hdone id header m).1]
    simp [hdone]

private theorem add_eq_self_iff (a b : UInt32) : a = a + b ↔ b = 0 := by
  rw [← UInt32.toNat_inj, ← UInt32.toNat_inj, UInt32.toNat_add]
  have ha := a.toNat_lt
  have hb := b.toNat_lt
  simp only [UInt32.toNat_zero]
  omega

/-- A piece of a message whose timestamp is as written but for the delta that it
repeats. -/
private theorem timesInv_sendPiece {sent : List ChunkSent} {s : Sender} (hinv : TimesInv sent s)
    {id : ChunkStreamId} {header : ChunkMsgHeader} {str : SendStream} {m : SentMessage}
    (hlast : str.last = some m)
    (htime : ShownTrue sent → m.timestamp = m.shown + m.repeated) :
    TimesInv (sent ++ [(s.sendPiece id header str m).2]) (s.sendPiece id header str m).1 := by
  have hbefore : ShownTrue (sent ++ [(s.sendPiece id header str m).2]) → ShownTrue sent :=
    fun h m' hm' => h m' (mem_completed_concat.mpr (.inl hm'))
  refine ⟨?_, ?_, ?_⟩
  · intro csid m' hm' hrest
    rw [mem_completed_sendPiece]
    rcases last_sendPiece hlast hm' with ⟨rfl, rfl⟩ | ⟨hne, hold⟩
    · rw [sendPiece_streams, Function.update_self] at hrest
      exact .inr ⟨hrest, rfl⟩
    · rw [sendPiece_streams, Function.update_of_ne hne] at hrest
      exact .inl (hinv.done hold hrest)
  · intro csid m' hshown hm'
    rcases last_sendPiece hlast hm' with ⟨-, rfl⟩ | ⟨-, hold⟩
    · exact htime (hbefore hshown)
    · exact hinv.timestamp (hbefore hshown) hold
  · constructor
    · intro hshown m' hm'
      have htrue := hbefore hshown
      rcases mem_completed_sendPiece.mp hm' with hold | ⟨-, rfl⟩
      · exact hinv.iff.mp htrue m' hold
      · have hown := hshown m' hm'
        rw [htime htrue, add_eq_self_iff] at hown
        exact hown
    · intro hzero m' hm'
      have htrue := hinv.iff.mpr fun m' hm' => hzero m' (mem_completed_concat.mpr (.inl hm'))
      rcases mem_completed_sendPiece.mp hm' with hold | ⟨-, rfl⟩
      · exact htrue m' hold
      · rw [htime htrue, add_eq_self_iff]
        exact hzero m' hm'

/-- The messages of a run have the timestamps written for them exactly when none
repeats a delta. -/
theorem shownTrue_iff {es : List SendEvent} {sent : List ChunkSent} {s : Sender}
    (hrun : Mealy.run step {} es = some (s, sent)) : ShownTrue sent ↔ RepeatsNothing sent := by
  have hinv : TimesInv sent s := by
    refine Mealy.run_induction (motive := fun _ sent s => TimesInv sent s) ?_ ?_ hrun
    · exact ⟨nofun, nofun, fun _ => nofun, fun _ => nofun⟩
    · intro es sent s e s' o _ hinv hstep
      cases step_eq_some hstep with
      | start idle hm hp =>
        refine timesInv_sendPiece hinv rfl fun hshown => ?_
        exact MessageStart.message_timestamp hm fun m₀ hm₀ => hshown m₀ (hinv.done hm₀ idle)
      | more busy hm => exact timesInv_sendPiece hinv hm fun hshown => hinv.timestamp hshown hm
  exact hinv.iff

end Sender

/-! ## Deltas -/

namespace RtmpChunkParse

/-- However the bytes of a sender of short timestamps arrive, the delivered
messages have the timestamps of the delta rules exactly when no completed message
was begun by a format 3 chunk that repeats a delta other than 0. -/
theorem receive_timestamps_iff {es : List SendEvent} {sent : List ChunkSent} {s : Sender}
    (hrun : Mealy.run Sender.step {} es = some (s, sent)) (hshort : ∀ e ∈ es, e.ShortField)
    {segs : List Bytes} (hsegs : Segments (Sender.bytes sent) segs) :
    (receive chunkSizeCallback segs).delivered.map RtmpMessage.stamped =
        (Sender.completed sent).map SentMessage.timed ↔
      ∀ m ∈ Sender.completed sent, m.repeated = 0 := by
  obtain ⟨st, -, out, hrecv, hout⟩ :=
    receive_sent hrun (Sender.aligned_of_shortField hrun hshort) hsegs
  refine Iff.trans ?_ (Sender.shownTrue_iff hrun)
  rw [hrecv]
  simp only [hout, Sender.ShownTrue, List.map_inj_left]
  refine forall₂_congr fun m _ => ?_
  simp [SentMessage.stamped, SentMessage.timed]

/-- A message at 10 ms and one 5 ms later. -/
def steppedEvents : List SendEvent := [
  .start commandStream (.fmt0 10 8 1) ⟨[0xAF], by decide⟩,
  .start commandStream (.fmt1 5 8) ⟨[0xAF], by decide⟩]

theorem receive_timestamps_stepped :
    (receive chunkSizeCallback
        [[0x03, 0, 0, 10, 0, 0, 1, 8, 1, 0, 0, 0, 0xAF, 0x43, 0, 0],
          [5, 0, 0, 1, 8, 0xAF]]).delivered.map RtmpMessage.stamped =
      [(⟨3, 8, 1, 1, [0xAF]⟩, 10), (⟨3, 8, 1, 1, [0xAF]⟩, 15)] := by
  have hrun : Mealy.run Sender.step {} steppedEvents = some (_, _) := rfl
  exact (receive_timestamps_iff hrun (by decide) ⟨rfl, by decide⟩).mpr (by decide)

/-- A format 3 chunk begins a message only where there is a delta to repeat. -/
def RepeatsDelta (s : Sender) : SendEvent → Prop
  | .start id .fmt3 _ => (s.streams id.csid).delta.isSome
  | _ => True

/-- The same two messages, and a third that repeats the delta of 5 ms. -/
def repeatedDeltaEvents : List SendEvent :=
  steppedEvents ++ [.start commandStream .fmt3 ⟨[0xAF], by decide⟩]

/-- The third message is delivered at 15 ms instead of 20 ms. -/
theorem receive_repeatedDelta_wrong :
    ∃ s sent, Mealy.run Sender.step {} repeatedDeltaEvents = some (s, sent) ∧
      (∀ e ∈ repeatedDeltaEvents, e.ShortField) ∧
      Mealy.Along Sender.step RepeatsDelta {} repeatedDeltaEvents ∧
      ((Sender.completed sent).map fun m => m.timestamp) = [10, 15, 20] ∧
      (receive chunkSizeCallback [Sender.bytes sent]).delivered.map
        (fun msg => msg.header.timestamp) = [10, 15, 15] := by
  refine ⟨_, _, rfl, by decide, ⟨trivial, trivial, rfl, trivial⟩, by decide, by decide⟩

end RtmpChunkParse

/-! ## Extended timestamps -/

/-- Four bytes more than the header has are taken for it when an extended
timestamp is expected in a format 3 chunk and there is none. -/
theorem Chunk.parseChunkHead_stale {c : Chunk} {prevHeaders : Nat → RtmpMsgHeader}
    {head : ChunkHead} (hheader : c.header = .fmt3) (hext : c.extTs = none)
    (hflag : (prevHeaders c.id.csid).hasExtTs = true) (hlen : c.encode.length < 2 ^ 31)
    (h : parseChunkHead prevHeaders c.encode = some head) :
    head.header.csid = c.id.csid ∧ head.header.fmt = .fmt3 ∧
      head.header.msgLen = (prevHeaders c.id.csid).msgLen ∧
      head.totalHeaderLen = c.encodeHead.length + 4 := by
  obtain ⟨id, header, extTs, data⟩ := c
  simp only at hheader hext hflag
  subst hheader hext
  have hencode : Chunk.encode ⟨id, .fmt3, none, data⟩ =
      id.encode .fmt3 ++ (ChunkMsgHeader.fmt3.encode ++ data) := by
    simp [encode, encodeHead, encodeExt, ChunkMsgHeader.fmt, List.append_assoc]
  have hhead : (encodeHead ⟨id, .fmt3, none, data⟩).length = (id.encode .fmt3).length := by
    simp [encodeHead, encodeExt, ChunkMsgHeader.fmt, ChunkFmt.kMsgHeaderSize]
  rw [hencode] at h
  simp only [parseChunkHead, id.parseBasicHeader_encode, List.drop_left,
    ChunkMsgHeader.readMessageHeader_encode .fmt3 _ ⟨.fmt3, id.csid, _⟩ rfl,
    ChunkMsgHeader.extTsLen_encode, ChunkMsgHeader.expectsExt, hflag, if_true,
    ChunkFmt.kMsgHeaderSize] at h
  split at h
  · cases h
  split at h
  · cases h
  cases h
  exact ⟨rfl, rfl, rfl, by simp only [hhead]⟩

namespace RtmpChunkParse

/-- The parser then waits on the chunk. -/
theorem parseOneChunk_stale {cb : MessageCallback} {st : RtmpChunkParse} {c : Chunk}
    (hheader : c.header = .fmt3) (hext : c.extTs = none)
    (hflag : (st.prevHeaders c.id.csid).hasExtTs = true)
    (hsize : ∀ header : RtmpMsgHeader, header.csid = c.id.csid → header.fmt = .fmt3 →
      header.msgLen = (st.prevHeaders c.id.csid).msgLen →
      st.dataSize (st.openMessage header) = c.data.length)
    (hlen : c.encode.length < 2 ^ 31) : ∃ st', st.parseOneChunk cb c.encode = .wait st' := by
  have ho := parseOneChunk_outcome cb st c.encode
  generalize hr : st.parseOneChunk cb c.encode = r at ho
  cases ho with
  | headless => exact ⟨_, rfl⟩
  | short head => exact ⟨_, rfl⟩
  | negative head hhead hs hneg =>
    obtain ⟨hcsid, hfmt, hml, -⟩ := Chunk.parseChunkHead_stale hheader hext hflag hlen hhead
    have := hsize head.header hcsid hfmt hml
    omega
  | data head size hhead hsize' hs =>
    obtain ⟨hcsid, hfmt, hml, htotal⟩ := Chunk.parseChunkHead_stale hheader hext hflag hlen hhead
    have hdata := hsize head.header hcsid hfmt hml
    have hencode : c.encode.length = c.encodeHead.length + c.data.length := by
      rw [Chunk.encode, List.length_append]
    rw [asInt_of_lt hlen] at hs
    omega

end RtmpChunkParse

/-- No continuation chunk without an extended timestamp is sent on a chunk stream
that had one before. -/
def NotStale (s : Sender) : SendEvent → Prop
  | .start .. => True
  | .more id =>
    (s.streams id.csid).extSeen = true → (s.streams id.csid).extTs.isSome = true

/-- Messages are begun in format 0 only. -/
def SendEvent.Absolute : SendEvent → Prop
  | .start _ (.fmt0 ..) _ => True
  | .start .. => False
  | .more _ => True

/-- A parser in step with the sender loses its step on a stale chunk: it waits. -/
theorem Sim.stale {s s' : Sender} {st : RtmpChunkParse} {id : ChunkStreamId} {o : ChunkSent}
    (hsim : Sim s st) (h : s.step (.more id) = some (s', o)) (hstale : ¬ NotStale s (.more id)) :
    ∃ st', st.parseOneChunk chunkSizeCallback o.chunk.encode = .wait st' := by
  have hlen := Sender.length_encode_of_step h
  simp only [NotStale, Classical.not_imp, Bool.not_eq_true, Option.isSome_eq_false_iff,
    Option.isNone_iff_eq_none] at hstale
  obtain ⟨hseen, hext⟩ := hstale
  obtain ⟨hpos, hmax⟩ := hsim.range
  have hsize := hsim.chunkSize
  have hstr := hsim.stream id.csid
  cases Sender.step_eq_some h with
  | @more _ m busy hm =>
    obtain ⟨msg, hprog, hmsg, hsplit⟩ := hstr.busy hm busy
    have hchunk := Sender.sendPiece_chunk s id .fmt3 (s.streams id.csid) m
    generalize (s.sendPiece id .fmt3 (s.streams id.csid) m).2 = o at hchunk hlen
    rw [hchunk] at hlen ⊢
    refine RtmpChunkParse.parseOneChunk_stale rfl hext (hstr.hasExtTs.trans hseen) ?_
      (by omega)
    intro header hcsid hfmt _
    have hml := hmsg.msgLen
    have hpl := m.payload.property
    have hlength := congrArg List.length hsplit
    have hrest := List.length_pos_iff.mpr busy
    rw [List.length_append] at hlength
    have hincomplete : msg.isComplete = false := by
      rw [← Bool.not_eq_true, RtmpMessage.isComplete_iff]
      omega
    rw [RtmpChunkParse.openMessage_continue (by rw [hcsid]; exact hprog) hincomplete
      (by rw [hfmt]; nofun) (by rw [hfmt]; nofun),
      RtmpChunkParse.dataSize_eq st (by simp only; omega) (by simp only; omega)]
    simp only [List.length_take]
    omega

namespace Sender

/-- An extended timestamp that is under way was written. -/
def ExtWritten (s : Sender) : Prop :=
  ∀ csid, (s.streams csid).extTs.isSome = true → (s.streams csid).extSeen = true

theorem ExtWritten.step {s s' : Sender} {e : SendEvent} {o : ChunkSent} (hinv : s.ExtWritten)
    (h : s.step e = some (s', o)) : s'.ExtWritten := by
  let P : Nat → SendStream → Prop := fun _ str => str.extTs.isSome = true → str.extSeen = true
  cases step_eq_some h with
  | start idle hm hp =>
    refine forall_sendPiece P hinv fun hext => ?_
    simp only [MessageStart.stream] at hext ⊢
    rw [hext, Bool.or_true]
  | @more id m busy hm => exact forall_sendPiece P hinv (hinv id.csid)

theorem extWritten_init : ExtWritten {} := fun _ h => by cases h

theorem extWritten_of_run {es : List SendEvent} {sent : List ChunkSent} {s : Sender}
    (hrun : Mealy.run step {} es = some (s, sent)) : s.ExtWritten :=
  Mealy.run_invariant ExtWritten extWritten_init (fun _ _ _ _ hinv => hinv.step) hrun

/-- Without stale chunks, format 3 chunks have extended timestamps where they
are expected. -/
theorem aligned_of_notStale {es : List SendEvent} {sent : List ChunkSent} {s : Sender}
    (hrun : Mealy.run step {} es = some (s, sent)) :
    (∀ e ∈ es, e.Absolute) → Mealy.Along step NotStale {} es →
      Mealy.Along step Aligned {} es := by
  refine Mealy.run_induction (motive := fun es _ _ => (∀ e ∈ es, e.Absolute) →
    Mealy.Along step NotStale {} es → Mealy.Along step Aligned {} es) ?_ ?_ hrun
  · intro _ _
    trivial
  · intro es sent s e s' o hrun ih hstep habs hfresh
    obtain ⟨hbefore, hlast⟩ := (Mealy.along_concat hrun).mp hfresh
    refine (Mealy.along_concat hrun).mpr
      ⟨ih (fun e he => habs e (List.mem_append_left _ he)) hbefore, ?_⟩
    have he := habs e (by simp)
    cases e with
    | start id how payload =>
      cases how with
      | fmt0 timestamp msgType msgStreamId => trivial
      | fmt1 delta msgType => trivial
      | fmt2 delta => trivial
      | fmt3 => exact False.elim he
    | more id => exact Bool.eq_iff_iff.mpr ⟨hlast, extWritten_of_run hrun id.csid⟩

/-- Messages with absolute timestamps repeat no delta. -/
theorem repeatsNothing_of_absolute {es : List SendEvent} {sent : List ChunkSent} {s : Sender}
    (hrun : Mealy.run step {} es = some (s, sent)) :
    (∀ e ∈ es, e.Absolute) → (∀ csid m, (s.streams csid).last = some m → m.repeated = 0) ∧
      RepeatsNothing sent := by
  refine Mealy.run_induction (motive := fun es sent s => (∀ e ∈ es, e.Absolute) →
    (∀ csid m, (s.streams csid).last = some m → m.repeated = 0) ∧ RepeatsNothing sent) ?_ ?_ hrun
  · intro _
    exact ⟨nofun, nofun⟩
  · intro es sent s e s' o _ ih hstep habs
    obtain ⟨hlast, hsent⟩ := ih fun e he => habs e (List.mem_append_left _ he)
    have he := habs e (by simp)
    have hpiece : ∀ (id : ChunkStreamId) (header : ChunkMsgHeader) (str : SendStream)
        (m : SentMessage), str.last = some m → m.repeated = 0 →
        (∀ csid m', ((s.sendPiece id header str m).1.streams csid).last = some m' →
            m'.repeated = 0) ∧
          RepeatsNothing (sent ++ [(s.sendPiece id header str m).2]) := by
      intro id header str m hm hzero
      constructor
      · intro csid m' hm'
        rcases last_sendPiece hm hm' with ⟨-, rfl⟩ | ⟨-, hold⟩
        · exact hzero
        · exact hlast csid m' hold
      · intro m' hm'
        rcases mem_completed_sendPiece.mp hm' with hold | ⟨-, rfl⟩
        · exact hsent m' hold
        · exact hzero
    cases step_eq_some hstep with
    | @start id how payload m idle hm hp =>
      apply hpiece id _ _ m rfl
      cases MessageStart.message_begun hm with
      | fmt0 => rfl
      | fmt1 => exact False.elim he
      | fmt2 => exact False.elim he
      | fmt3 => exact False.elim he
    | @more id m busy hm => exact hpiece id _ _ m hm (hlast id.csid m hm)

end Sender

namespace RtmpChunkParse

/-- However the bytes arrive, after every chunk of the run the parser has
delivered the messages that were completed, with their timestamps, and has
nothing unread. -/
def InSync (es : List SendEvent) : Prop :=
  ∀ (es' : List SendEvent) (s : Sender) (sent : List ChunkSent), es' <+: es →
    Mealy.run Sender.step {} es' = some (s, sent) →
    ∀ segs, Segments (Sender.bytes sent) segs →
      (receive chunkSizeCallback segs).delivered.map RtmpMessage.stamped =
          (Sender.completed sent).map SentMessage.timed ∧
        (receive chunkSizeCallback segs).unread = [] ∧
        (receive chunkSizeCallback segs).aborted = false

/-- A parser that receives messages with absolute timestamps stays in sync exactly
when no continuation chunk is stale. -/
theorem inSync_iff {es : List SendEvent} {sent : List ChunkSent} {s : Sender}
    (hrun : Mealy.run Sender.step {} es = some (s, sent)) (habs : ∀ e ∈ es, e.Absolute) :
    InSync es ↔ Mealy.Along Sender.step NotStale {} es := by
  constructor
  · revert habs
    -- the first stale chunk is waited on by a parser that was in step before it
    refine Mealy.run_induction (motive := fun es _ _ => (∀ e ∈ es, e.Absolute) → InSync es →
      Mealy.Along Sender.step NotStale {} es) ?_ ?_ hrun
    · intro _ _
      trivial
    · intro es sent s e s' o hrun ih hstep habs hsync
      have habs' : ∀ e ∈ es, e.Absolute := fun e he => habs e (List.mem_append_left _ he)
      have hfresh := ih habs' fun es' s' sent' hpre =>
        hsync es' s' sent' (hpre.trans (List.prefix_append es [e]))
      refine (Mealy.along_concat hrun).mpr ⟨hfresh, ?_⟩
      cases e with
      | start id how payload => trivial
      | more id =>
        refine Classical.byContradiction fun hstale => ?_
        obtain ⟨hlen, st, hsim, out, hrecv, -⟩ :=
          receive_chunks hrun (Sender.aligned_of_notStale hrun habs' hfresh)
        obtain ⟨st', hwait⟩ := hsim.stale hstep hstale
        have hshort := Sender.length_encode_of_step hstep
        have hsize := hsim.chunkSize
        have hmax := hsim.range.2
        have hsegs : Segments (Sender.bytes (sent ++ [o]))
            ((sent ++ [o]).map fun o => o.chunk.encode) := by
          refine ⟨rfl, ?_⟩
          intro seg hseg
          obtain ⟨o', ho', rfl⟩ := List.mem_map.mp hseg
          rcases List.mem_append.mp ho' with ho' | ho'
          · exact hlen o' ho'
          · rw [List.mem_singleton.mp ho']
            omega
        have hne : o.chunk.encode ≠ [] := by
          have hpos := o.chunk.length_encodeHead_pos
          rw [← List.length_pos_iff, Chunk.encode, List.length_append]
          omega
        have hunread := (hsync _ s' (sent ++ [o]) (List.prefix_refl _)
          (Mealy.run_concat hrun hstep) _ hsegs).2.1
        unfold receive at hrecv hunread
        rw [List.map_append, feedAll_append, hrecv, List.map_cons, List.map_nil, feedAll_cons,
          feedAll_nil, feed_wait (c := ⟨st, [], out, false⟩) hne rfl rfl hwait] at hunread
        exact hne hunread
  · intro hfresh es' s' sent' hpre hrun' segs hsegs
    obtain ⟨more, rfl⟩ := hpre
    have habs' : ∀ e ∈ es', e.Absolute := fun e he => habs e (List.mem_append_left _ he)
    have haligned := Sender.aligned_of_notStale hrun' habs' (Mealy.along_of_append hfresh)
    obtain ⟨st, -, out, hrecv, hout⟩ := receive_sent hrun' haligned hsegs
    have hshown := (Sender.shownTrue_iff hrun').mpr
      (Sender.repeatsNothing_of_absolute hrun' habs').2
    rw [hrecv]
    refine ⟨hout.trans (List.map_congr_left fun m hm => ?_), rfl, rfl⟩
    rw [SentMessage.stamped, SentMessage.timed, hshown m hm]

/-- The chunk size is set to 1, and a message of two bytes has an extended
timestamp. -/
def extendedEvents : List SendEvent := [
  .start controlStream (.fmt0 0 1 0) chunkSizeOne,
  .start commandStream (.fmt0 0x01000000 8 1) twoBytes,
  .more commandStream]

theorem extendedEvents_inSync : InSync extendedEvents := by
  have hrun : Mealy.run Sender.step {} extendedEvents = some (_, _) := rfl
  refine (inSync_iff hrun ?_).mpr ?_
  · intro e he
    simp only [extendedEvents, List.mem_cons, List.not_mem_nil, or_false] at he
    rcases he with rfl | rfl | rfl <;> trivial
  · exact ⟨trivial, trivial, fun _ => rfl, trivial⟩

/-- An empty message with an extended timestamp, and one of 129 bytes at 0 ms on
the same chunk stream. -/
def staleEvents : List SendEvent := [
  .start commandStream (.fmt0 0xFFFFFF 8 1) noBytes,
  .start commandStream (.fmt0 0 8 1) ⟨List.replicate 129 0xAF, by simp⟩,
  .more commandStream]

theorem staleEvents_not_inSync : ¬ InSync staleEvents := by
  intro h
  have hrun : Mealy.run Sender.step {} staleEvents = some (_, _) := rfl
  have hbad := (h _ _ _ (List.prefix_refl _) hrun [Sender.bytes _]
    ⟨List.append_nil _, by decide +kernel⟩).1
  exact absurd hbad (by decide +kernel)

end RtmpChunkParse
