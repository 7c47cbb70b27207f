-- SUMMARY: How much data of unfinished messages one client can make the parser hold.
import OmegaStreamer.Rtmp.ChunkCodec
import OmegaStreamer.Rtmp.Reassembly
import Mathlib.Algebra.BigOperators.Group.Finset.Basic
import Mathlib.Algebra.Group.Action.Defs
import Mathlib.Algebra.Order.BigOperators.Group.Finset
import Mathlib.Order.Interval.Finset.Nat

/-!
# Held data

`RtmpChunkParse` keeps the data of a message until its last chunk has come, and it counts
neither the messages nor their data. What it can be made to hold is bounded by the format
alone: one message for each chunk stream id, each short of one byte of the longest length.
A client reaches the bound when it sets the chunk size to 1.
-/

open Resumable

namespace RtmpChunkParse

variable {cb : MessageCallback} {st : RtmpChunkParse}

/-- The chunk stream ids that can be written. -/
def csids : Finset Nat := Finset.Icc 2 65599

/-- The data of the message in progress on a chunk stream. -/
def heldOn (st : RtmpChunkParse) (csid : Nat) : Nat :=
  ((st.inProgress csid).getD {}).payload.length

def held (st : RtmpChunkParse) : Nat := ∑ csid ∈ csids, st.heldOn csid

/-! ## The bound -/

/-- The messages in progress are on chunk streams that can be written, and none is complete. -/
structure Limited (st : RtmpChunkParse) : Prop where
  wellFormed : st.WellFormed
  inProgress : ∀ csid, csid ∉ csids → st.inProgress csid = none
  heldOn_le : ∀ csid, st.heldOn csid ≤ 16777214

theorem parseChunkHead_csid_mem {prevHeaders : Nat → RtmpMsgHeader} {buf : Bytes}
    {head : ChunkHead} (h : parseChunkHead prevHeaders buf = some head) :
    head.header.csid ∈ csids := by
  obtain ⟨bh, hbh, -, hcsid⟩ := parseChunkHead_basic h
  obtain ⟨id, rest, rfl⟩ := exists_id_of_parseBasicHeader hbh
  rw [id.parseBasicHeader_encode, Option.some.injEq] at hbh
  have hid : id.csid = bh.csid := congrArg BasicHeader.csid hbh
  rw [← hcsid, csids, Finset.mem_Icc]
  exact (ChunkStreamId.exists_iff _).mp ⟨id, hid⟩

theorem openMessage_payload_le (st : RtmpChunkParse) (header : RtmpMsgHeader) :
    (st.openMessage header).payload.length ≤ st.heldOn header.csid := by
  unfold openMessage heldOn
  simp only
  split
  · exact Nat.zero_le _
  · split
    · exact Nat.le_refl _
    · exact Nat.le_refl _

theorem inProgress_setInProgress_ne {csid other : Nat} (hne : other ≠ csid) (msg : RtmpMessage) :
    (st.setInProgress csid msg).inProgress other = st.inProgress other :=
  Function.update_of_ne hne _ _

theorem Limited.setInProgress (h : Limited st) {csid : Nat} {msg : RtmpMessage}
    (hcsid : csid ∈ csids) (hlen : msg.header.msgLen.toNat < 2 ^ 24)
    (hpayload : msg.payload.length ≤ 16777214) : Limited (st.setInProgress csid msg) where
  wellFormed := h.wellFormed.setInProgress hlen (by omega)
  inProgress other hother := by
    have hne : other ≠ csid := fun heq => hother (heq ▸ hcsid)
    rw [inProgress_setInProgress_ne hne]
    exact h.inProgress other hother
  heldOn_le other := by
    by_cases heq : other = csid
    · subst heq
      simpa [heldOn, RtmpChunkParse.setInProgress] using hpayload
    · rw [heldOn, inProgress_setInProgress_ne heq]
      exact h.heldOn_le other

theorem Limited.setPrev (h : Limited st) {csid : Nat} {header : RtmpMsgHeader}
    (hlen : header.msgLen.toNat < 2 ^ 24) : Limited (st.setPrev csid header) :=
  ⟨h.wellFormed.setPrev hlen, h.inProgress, h.heldOn_le⟩

/-- A message that is not complete lacks at least one byte. -/
theorem Limited.finishChunk (h : Limited st) {header : RtmpMsgHeader}
    (hcsid : header.csid ∈ csids) (hlen : header.msgLen.toNat < 2 ^ 24) (data : Bytes) :
    Limited (st.finishChunk cb header (st.openMessage header) data).1 := by
  obtain ⟨hml, -⟩ := h.wellFormed.openMessage hlen
  cases hcomplete : ({ st.openMessage header with
      payload := (st.openMessage header).payload ++ data } : RtmpMessage).isComplete with
  | true =>
    rw [finishChunk_complete hcomplete]
    have hdone : Limited ((st.setPrev header.csid header).setInProgress header.csid {}) :=
      (h.setPrev hlen).setInProgress hcsid (Nat.two_pow_pos 24) (Nat.zero_le _)
    exact ⟨⟨hdone.wellFormed.prev_lt, hdone.wellFormed.msgLen_lt, hdone.wellFormed.payload_lt⟩,
      hdone.inProgress, hdone.heldOn_le⟩
  | false =>
    rw [finishChunk_incomplete hcomplete]
    simp only [RtmpMessage.isComplete, decide_eq_false_iff_not, Nat.not_le] at hcomplete
    exact (h.setPrev hlen).setInProgress hcsid hml (by simp only; omega)

theorem Limited.parseOneChunk (h : Limited st) (buf : Bytes) :
    Limited (st.parseOneChunk cb buf).state := by
  have hopen {head : ChunkHead} (hhead : parseChunkHead st.prevHeaders buf = some head) :
      Limited (st.setInProgress head.header.csid (st.openMessage head.header)) := by
    obtain ⟨hml, -⟩ := h.wellFormed.openMessage
      (parseChunkHead_msgLen_lt h.wellFormed.prev_lt hhead)
    exact h.setInProgress (parseChunkHead_csid_mem hhead) hml
      ((openMessage_payload_le st _).trans (h.heldOn_le _))
  have ho := parseOneChunk_outcome cb st buf
  generalize st.parseOneChunk cb buf = attempt at ho
  cases ho with
  | headless hhead => exact h
  | short head hhead hs => exact hopen hhead
  | negative head hhead hs hneg => exact hopen hhead
  | data head size hhead hsize hs out hout =>
    rw [hout]
    exact h.finishChunk (parseChunkHead_csid_mem hhead)
      (parseChunkHead_msgLen_lt h.wellFormed.prev_lt hhead) _

theorem limited_init : Limited {} where
  wellFormed := wellFormed_init
  inProgress _ _ := rfl
  heldOn_le _ := Nat.zero_le _

theorem limited_receive (cb : MessageCallback) (segs : List Bytes) :
    Limited (receive cb segs).state :=
  state_feedAll (P := Limited) (c := { state := {} }) (parseOneChunk_progressive cb)
    (fun _ buf h => h.parseOneChunk buf) limited_init segs

theorem Limited.held_le (h : Limited st) : st.held ≤ 65598 * 16777214 := by
  have hsum := Finset.sum_le_card_nsmul csids st.heldOn 16777214 fun csid _ => h.heldOn_le csid
  rw [csids, Nat.card_Icc, smul_eq_mul] at hsum
  exact hsum

/-! ## A client that reaches it -/

/-- A parser with chunks of one byte, and no extended timestamp to repeat. -/
structure OneByteChunks (st : RtmpChunkParse) : Prop where
  wellFormed : st.WellFormed
  inChunkSize : st.inChunkSize = 1
  hasExtTs : ∀ csid, (st.prevHeaders csid).hasExtTs = false

/-- A message of the longest length is in progress, with so much data. -/
def Grown (st : RtmpChunkParse) (csid n : Nat) : Prop :=
  ∃ msg, st.inProgress csid = some msg ∧ msg.payload.length = n ∧
    msg.header.msgLen.toNat = 16777215

def field24 (n : Nat) : UInt24 := ⟨n % 2 ^ 24, Nat.mod_lt n (Nat.two_pow_pos 24)⟩

def firstByte (id : ChunkStreamId) : Chunk :=
  ⟨id, .fmt0 (field24 0) (field24 16777215) kMsgTypeVideo 1, none, [0]⟩

def nextByte (id : ChunkStreamId) : Chunk := ⟨id, .fmt3, none, [0]⟩

/-- One byte is added to a message of the longest length. -/
theorem OneByteChunks.read (h : OneByteChunks st) {c : Chunk} {n : Nat}
    (hext : c.header.expectsExt (st.prevHeaders c.id.csid) = c.extTs.isSome)
    (hnone : c.extTs = none) (hdata : c.data = [0])
    (hlen : (st.openMessage (c.after (st.prevHeaders c.id.csid))).header.msgLen.toNat = 16777215)
    (hpayload : (st.openMessage (c.after (st.prevHeaders c.id.csid))).payload.length = n)
    (hn : n < 16777214) :
    st.Expects c ∧ OneByteChunks ((chunkCodec cb).read st c).1 ∧
      Grown ((chunkCodec cb).read st c).1 c.id.csid (n + 1) ∧
      ∀ csid, csid ≠ c.id.csid →
        ((chunkCodec cb).read st c).1.inProgress csid = st.inProgress csid := by
  obtain ⟨hml, hpl⟩ := h.wellFormed.openMessage
    (c.after_msgLen_lt (h.wellFormed.prev_lt c.id.csid))
  have hsize : st.dataSize (st.openMessage (c.after (st.prevHeaders c.id.csid))) =
      c.data.length := by
    rw [dataSize_eq st hml hpl, hlen, hpayload, h.inChunkSize, hdata, List.length_singleton]
    omega
  have hheader : (c.after (st.prevHeaders c.id.csid)).hasExtTs = false := by
    rw [Chunk.after, hnone]
    exact (ChunkMsgHeader.after_hasExtTs _ _ _).trans (h.hasExtTs _)
  have hwell : ((chunkCodec cb).read st c).1.WellFormed :=
    h.wellFormed.finishChunk (c.after_msgLen_lt (h.wellFormed.prev_lt c.id.csid)) _
  have hread : (chunkCodec cb).read st c = st.finishChunk cb (c.after (st.prevHeaders c.id.csid))
    (st.openMessage (c.after (st.prevHeaders c.id.csid))) c.data := rfl
  have hincomplete : ({ st.openMessage (c.after (st.prevHeaders c.id.csid)) with
      payload := (st.openMessage (c.after (st.prevHeaders c.id.csid))).payload ++ c.data } :
      RtmpMessage).isComplete = false := by
    simp only [RtmpMessage.isComplete, decide_eq_false_iff_not, List.length_append, hlen,
      hpayload, hdata, List.length_singleton]
    omega
  rw [finishChunk_incomplete hincomplete, Chunk.after_csid] at hread
  rw [hread] at hwell ⊢
  refine ⟨⟨hext, hsize⟩, ⟨hwell, h.inChunkSize, fun csid => ?_⟩, ?_, fun csid hne => ?_⟩
  · by_cases heq : csid = c.id.csid
    · subst heq
      simpa [RtmpChunkParse.setInProgress, RtmpChunkParse.setPrev] using hheader
    · simpa [RtmpChunkParse.setInProgress, RtmpChunkParse.setPrev,
        Function.update_of_ne heq] using h.hasExtTs csid
  · refine ⟨{ st.openMessage (c.after (st.prevHeaders c.id.csid)) with
      payload := (st.openMessage (c.after (st.prevHeaders c.id.csid))).payload ++ c.data },
      Function.update_self .., ?_, hlen⟩
    rw [List.length_append, hpayload, hdata, List.length_singleton]
  · exact inProgress_setInProgress_ne hne _

theorem OneByteChunks.read_first (h : OneByteChunks st) (cb : MessageCallback)
    (id : ChunkStreamId) :
    st.Expects (firstByte id) ∧ OneByteChunks ((chunkCodec cb).read st (firstByte id)).1 ∧
      Grown ((chunkCodec cb).read st (firstByte id)).1 id.csid 1 ∧
      ∀ csid, csid ≠ id.csid →
        ((chunkCodec cb).read st (firstByte id)).1.inProgress csid = st.inProgress csid := by
  have hopen : st.openMessage ((firstByte id).after (st.prevHeaders (firstByte id).id.csid)) =
      { header := (firstByte id).after (st.prevHeaders (firstByte id).id.csid), payload := [] } :=
    openMessage_start (.inl (Chunk.after_fmt _ _))
  exact h.read rfl rfl rfl (by rw [hopen]; rfl) (by rw [hopen]; rfl) (by decide)

theorem OneByteChunks.read_next (h : OneByteChunks st) (cb : MessageCallback)
    {id : ChunkStreamId} {n : Nat} (hgrown : Grown st id.csid n) (hn : n < 16777214) :
    st.Expects (nextByte id) ∧ OneByteChunks ((chunkCodec cb).read st (nextByte id)).1 ∧
      Grown ((chunkCodec cb).read st (nextByte id)).1 id.csid (n + 1) ∧
      ∀ csid, csid ≠ id.csid →
        ((chunkCodec cb).read st (nextByte id)).1.inProgress csid = st.inProgress csid := by
  obtain ⟨msg, hmsg, hpayload, hlen⟩ := hgrown
  have hincomplete : msg.isComplete = false := by
    rw [RtmpMessage.isComplete, decide_eq_false_iff_not, hlen, hpayload]
    omega
  have hfmt : ((nextByte id).after (st.prevHeaders (nextByte id).id.csid)).fmt = .fmt3 :=
    Chunk.after_fmt _ _
  have hm : st.inProgress
      ((nextByte id).after (st.prevHeaders (nextByte id).id.csid)).csid = some msg := by
    rw [Chunk.after_csid]
    exact hmsg
  have hopen := openMessage_continue hm hincomplete (by rw [hfmt]; decide) (by rw [hfmt]; decide)
  exact h.read (h.hasExtTs _) rfl rfl (by rw [hopen]; exact hlen) (by rw [hopen]; exact hpayload)
    hn

/-- All of a message of the longest length but its last byte. -/
def fill (id : ChunkStreamId) (n : Nat) : List Chunk :=
  firstByte id :: List.replicate n (nextByte id)

theorem OneByteChunks.accepts_fill (h : OneByteChunks st) (id : ChunkStreamId) {n : Nat}
    (hn : n < 16777214) :
    (chunkCodec cb).Accepts st (fill id n) ∧
      OneByteChunks ((chunkCodec cb).run st (fill id n)).1 ∧
      Grown ((chunkCodec cb).run st (fill id n)).1 id.csid (n + 1) ∧
      ∀ csid, csid ≠ id.csid →
        ((chunkCodec cb).run st (fill id n)).1.inProgress csid = st.inProgress csid := by
  induction n with
  | zero =>
    obtain ⟨hexpects, hone, hgrown, hothers⟩ := h.read_first cb id
    exact ⟨⟨hexpects, trivial⟩, hone, hgrown, hothers⟩
  | succ n ih =>
    obtain ⟨haccepts, hone, hgrown, hothers⟩ := ih (by omega)
    obtain ⟨hexpects, hone', hgrown', hothers'⟩ := hone.read_next cb hgrown (by omega)
    have hfill : fill id (n + 1) = fill id n ++ [nextByte id] := by
      rw [fill, List.replicate_succ', ← List.cons_append]
      rfl
    rw [hfill, Codec.accepts_append, Codec.run_append]
    exact ⟨⟨haccepts, hexpects, trivial⟩, hone', hgrown', fun csid hne =>
      (hothers' csid hne).trans (hothers csid hne)⟩

/-- The chunk size is set to 1. -/
def setOne : Chunk :=
  ⟨controlStream, .fmt0 (field24 0) (field24 4) kMsgTypeSetChunkSize 0, none, [0, 0, 0, 1]⟩

theorem accepts_setOne : (chunkCodec chunkSizeCallback).Accepts {} [setOne] ∧
    OneByteChunks ((chunkCodec chunkSizeCallback).run {} [setOne]).1 := by
  refine ⟨⟨⟨by decide, by decide⟩, trivial⟩, ?_, by decide, fun csid => ?_⟩
  · exact wellFormed_init.finishChunk (by decide) _
  · by_cases heq : csid = 2
    · subst heq
      decide
    · rw [Codec.run, Codec.run_nil, (read_other (Ne.symm heq)).1]

/-- One message after another is begun and given so many bytes. -/
theorem exists_filled {n : Nat} (hn : n < 16777214) (ids : List ChunkStreamId) :
    ∃ chunks, (chunkCodec chunkSizeCallback).Accepts {} chunks ∧
      (∀ c ∈ chunks, c.data.length ≤ 4) ∧
      OneByteChunks ((chunkCodec chunkSizeCallback).run {} chunks).1 ∧
      ∀ id ∈ ids, Grown ((chunkCodec chunkSizeCallback).run {} chunks).1 id.csid (n + 1) := by
  induction ids with
  | nil =>
    obtain ⟨haccepts, hone⟩ := accepts_setOne
    exact ⟨_, haccepts, by decide, hone, fun _ hmem => absurd hmem List.not_mem_nil⟩
  | cons id ids ih =>
    obtain ⟨chunks, haccepts, hshort, hone, hgrown⟩ := ih
    obtain ⟨haccepts', hone', hgrown', hothers⟩ := hone.accepts_fill id hn
    refine ⟨chunks ++ fill id n, Codec.accepts_append.mpr ⟨haccepts, haccepts'⟩, ?_, ?_, ?_⟩
    · intro c hmem
      rcases List.mem_append.mp hmem with hmem | hmem
      · exact hshort c hmem
      · rcases List.mem_cons.mp hmem with rfl | hmem
        · exact Nat.le_of_ble_eq_true rfl
        · rw [List.eq_of_mem_replicate hmem]
          exact Nat.le_of_ble_eq_true rfl
    · rw [Codec.run_append]
      exact hone'
    · intro id' hmem
      rw [Codec.run_append]
      by_cases heq : id'.csid = id.csid
      · rw [heq]
        exact hgrown'
      · rcases List.mem_cons.mp hmem with rfl | hmem
        · exact absurd rfl heq
        · obtain ⟨msg, hmsg, hrest⟩ := hgrown id' hmem
          exact ⟨msg, (hothers id'.csid heq).trans hmsg, hrest⟩

/-- Whatever a client sends, the parser holds at most 65598 messages that each lack a byte of
the longest length, a little more than a terabyte, and a client can make it hold that. -/
theorem held_max :
    (∀ segs, (∀ csid, csid ∉ csids →
        (receive chunkSizeCallback segs).state.inProgress csid = none) ∧
      (receive chunkSizeCallback segs).state.held ≤ 65598 * 16777214) ∧
    ∃ segs, (receive chunkSizeCallback segs).state.held = 65598 * 16777214 := by
  constructor
  · intro segs
    have hlimited := limited_receive chunkSizeCallback segs
    exact ⟨hlimited.inProgress, hlimited.held_le⟩
  · -- an id for every chunk stream
    have hids : ∃ ids : List ChunkStreamId, ∀ csid ∈ csids, ∃ id ∈ ids, id.csid = csid := by
      have hid (csid : Nat) (hmem : csid ∈ csids) : ∃ id : ChunkStreamId, id.csid = csid :=
        (ChunkStreamId.exists_iff csid).mpr (Finset.mem_Icc.mp hmem)
      have hnonempty : Nonempty ChunkStreamId := ⟨⟨2, .one, by decide⟩⟩
      choose! idOf hidOf using hid
      refine ⟨csids.toList.map idOf, fun csid hmem => ⟨idOf csid, ?_, hidOf csid hmem⟩⟩
      exact List.mem_map_of_mem (Finset.mem_toList.mpr hmem)
    obtain ⟨ids, hids⟩ := hids
    have hlast : 16777213 < 16777214 := by decide
    obtain ⟨chunks, haccepts, hshort, -, hgrown⟩ := exists_filled hlast ids
    have hlen : ∀ c ∈ chunks, c.encode.length < 2 ^ 31 := by
      intro c hmem
      have hhead := c.length_encodeHead_le
      have hdata := hshort c hmem
      rw [Chunk.encode, List.length_append]
      omega
    refine ⟨chunks.map Chunk.encode, ?_⟩
    have hread : receive chunkSizeCallback (chunks.map Chunk.encode) = _ :=
      (parseOneChunk_recognises chunkSizeCallback).feedAll_items
        (parseOneChunk_progressive chunkSizeCallback) haccepts hlen []
    have hheld : ∀ csid ∈ csids,
        ((chunkCodec chunkSizeCallback).run {} chunks).1.heldOn csid = 16777214 := by
      intro csid hmem
      obtain ⟨id, hid, rfl⟩ := hids csid hmem
      obtain ⟨msg, hmsg, hpayload, -⟩ := hgrown id hid
      rw [heldOn, hmsg]
      exact hpayload
    rw [hread, held, Finset.sum_congr rfl hheld, Finset.sum_const, csids, Nat.card_Icc,
      smul_eq_mul]

end RtmpChunkParse
