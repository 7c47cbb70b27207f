-- SUMMARY: The receive buffer in the read loop: room for every read, and how long the vector gets.
import OmegaStreamer.Lib.Buffered
import OmegaStreamer.Network.MsgBuffer

/-!
# The buffer of the read loop

`doRead` makes room in the receive buffer and starts a read into it. The message
callback looks at the readable bytes and retrieves some of them, each time with the
assertion that there are so many. The vector grows only for what is unread.
-/

open Memory Resumable

namespace MsgBuffer

/-- What `doRead` asks for. -/
def kReadRoom : UInt64 := 4096

/-- `doRead`, up to the start of the read. Nobody catches what `resize` throws. -/
def prepareRead (b : MsgBuffer) : Option MsgBuffer :=
  match b.ensureWritableBytes kReadRoom with
  | some (b, .returned) => some b
  | _ => none

/-- `Retrieve`, with its assertion. -/
def retrieveAsserted (b : MsgBuffer) (n : Nat) : Option MsgBuffer :=
  if n ≤ b.readableBytes.toNat then some (b.retrieve (UInt64.ofNat n)) else none

/-- What a parser does with the buffer. -/
def ops : BufferOps MsgBuffer UInt8 where
  peek := peek
  retrieve := retrieveAsserted

/-- The buffer has the bytes, in a vector of this length. -/
structure HoldsIn (length : Nat) (b : MsgBuffer) (q : Bytes) : Prop extends Represents b q where
  length_eq : b.buf.bytes.length = length

/-- The buffer has the bytes, and room for a read. -/
structure Ready (b : MsgBuffer) (q : Bytes) : Prop extends Represents b q where
  room : kReadRoom ≤ b.writableBytes

@[simp] theorem retrieve_buf (b : MsgBuffer) (n : UInt64) : (b.retrieve n).buf = b.buf := by
  unfold retrieve
  split <;> rfl

theorem ops_isQueue (length : Nat) : ops.IsQueue (HoldsIn length) where
  peek h := h.peek_eq
  retrieve := by
    intro b q n h hn
    have hlen := h.toRepresents.length_eq
    have hlt := b.readableBytes.toNat_lt
    have hcount : (UInt64.ofNat n).toNat = n := by
      rw [UInt64.toNat_ofNat', Nat.mod_eq_of_lt (by omega)]
    have hle : UInt64.ofNat n ≤ b.readableBytes := by
      rw [UInt64.le_iff_toNat_le, hcount, ← hlen]
      exact hn
    have hrest := h.toRepresents.retrieve hle
    rw [hcount] at hrest
    refine ⟨b.retrieve (UInt64.ofNat n), if_pos (hlen ▸ hn), hrest, ?_⟩
    rw [retrieve_buf]
    exact h.length_eq

/-! ## The vector -/

theorem write_eq_some {b b' : MsgBuffer} {data : Block} (h : b.write data = some b') :
    b.tail.toNat + data.bytes.length ≤ b.buf.bytes.length ∧
      b'.buf.bytes.length = b.buf.bytes.length := by
  obtain ⟨buf, hstore, rfl⟩ := Option.map_eq_some_iff.mp h
  obtain ⟨bytes, hbytes, hbuf⟩ := Option.bind_eq_some_iff.mp hstore
  unfold Block.ofBytes at hbuf
  split at hbuf
  · cases hbuf
    exact ⟨(store_eq_some hbytes).1, length_store hbytes⟩
  · cases hbuf

variable {b : MsgBuffer} {q : Bytes}

/-- Room is made inside the vector if it can be, and else the vector is made as long as
the unread bytes and the room. -/
theorem Represents.ensureWritableBytes_length (h : Represents b q) {len : UInt64}
    (hsize : q.length + len.toNat ≤ kMaxObjectSize) {b' : MsgBuffer}
    (hensure : b.ensureWritableBytes len = some (b', .returned)) :
    b.buf.bytes.length ≤ b'.buf.bytes.length ∧
      b'.buf.bytes.length ≤ max b.buf.bytes.length (q.length + len.toNat) := by
  have hwide : q.length + len.toNat < 2 ^ 64 := Nat.lt_of_le_of_lt hsize (by decide)
  unfold MsgBuffer.ensureWritableBytes at hensure
  split at hensure
  · cases hensure
    exact ⟨Nat.le_refl _, Nat.le_max_left _ _⟩
  obtain ⟨b₁, hcompact, h₁, hfront, hsame⟩ := h.compact
  have htail : b₁.tail.toNat = q.length := by
    rw [h₁.length_eq, toNat_readableBytes h₁.head_le, hfront]
    rfl
  have hsum : (b₁.tail + len).toNat = q.length + len.toNat := by
    rw [UInt64.toNat_add, htail, Nat.mod_eq_of_lt hwide]
  simp only [hcompact] at hensure
  split at hensure
  · rename_i hshort
    rw [UInt64.lt_iff_toNat_lt, toNat_writableBytes h₁.tail_le, htail, hsame] at hshort
    obtain ⟨buf, hresize, hbytes⟩ := Block.resize_of_le b₁.buf (n := b₁.tail + len) (by omega)
    rw [hresize] at hensure
    cases hensure
    simp only [hbytes, length_resize, hsum]
    omega
  · cases hensure
    rw [hsame]
    exact ⟨Nat.le_refl _, Nat.le_max_left _ _⟩

/-- `doRead` finds room, and the vector grows only for what is unread. -/
theorem Represents.prepareRead (h : Represents b q)
    (hsize : q.length + kReadRoom.toNat ≤ kMaxObjectSize) :
    ∃ b', b.prepareRead = some b' ∧ Ready b' q ∧ b.buf.bytes.length ≤ b'.buf.bytes.length ∧
      b'.buf.bytes.length ≤ max b.buf.bytes.length (q.length + kReadRoom.toNat) := by
  obtain ⟨b', hensure, h', hroom⟩ := h.ensureWritableBytes hsize
  have hlength := h.ensureWritableBytes_length hsize hensure
  exact ⟨b', by rw [MsgBuffer.prepareRead, hensure], ⟨h', hroom⟩, hlength⟩

end MsgBuffer
