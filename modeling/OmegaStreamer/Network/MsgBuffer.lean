-- SUMMARY: The receive buffer in memory, and when it is a queue of bytes.
import OmegaStreamer.Base.BytesReader
import OmegaStreamer.Lib.Memory
import OmegaStreamer.Lib.Mealy

/-!
# MsgBuffer

The buffer of `MsgBuffer.h`: a vector of bytes with two indices into it, all three of
them with the machine's sizes. An operation that would touch memory outside of the
vector fails. The unread bytes are a queue as long as no more room is asked for than a
vector can have.
-/

open Memory

/-- `PTRDIFF_MAX`, which no object in memory exceeds. -/
def kMaxObjectSize : Nat := 2 ^ 63 - 1

/-- The bytes of an object in memory. -/
structure Block where
  bytes : Bytes
  length_le : bytes.length ≤ kMaxObjectSize
  deriving DecidableEq, Repr

namespace Block

def size (block : Block) : UInt64 := UInt64.ofNat block.bytes.length

def ofBytes (bytes : Bytes) : Option Block :=
  if h : bytes.length ≤ kMaxObjectSize then some ⟨bytes, h⟩ else none

/-- A longer vector than there can be is refused. -/
def resize (block : Block) (n : UInt64) : Option Block :=
  if n.toNat ≤ kMaxObjectSize then ofBytes (Memory.resize 0 block.bytes n.toNat) else none

/-- `memcpy` into the block. -/
def store (block : Block) (start : UInt64) (bytes : Bytes) : Option Block :=
  (Memory.store block.bytes start.toNat bytes).bind ofBytes

/-- `memmove` inside of the block. -/
def move (block : Block) (dst src len : UInt64) : Option Block :=
  (Memory.move block.bytes dst.toNat src.toNat len.toNat).bind ofBytes

@[simp] theorem toNat_size (block : Block) : block.size.toNat = block.bytes.length := by
  rw [size, UInt64.toNat_ofNat', Nat.mod_eq_of_lt]
  exact Nat.lt_of_le_of_lt block.length_le (by decide)

theorem ofBytes_of_le {bytes : Bytes} (h : bytes.length ≤ kMaxObjectSize) :
    ofBytes bytes = some ⟨bytes, h⟩ :=
  dif_pos h

theorem store_of_le (block : Block) (start : UInt64) (bytes : Bytes)
    (h : start.toNat + bytes.length ≤ block.bytes.length) :
    ∃ block', block.store start bytes = some block' ∧
      Memory.store block.bytes start.toNat bytes = some block'.bytes := by
  obtain ⟨stored, hstore⟩ := Memory.store_of_le h
  have hlen : stored.length ≤ kMaxObjectSize := by
    rw [length_store hstore]
    exact block.length_le
  refine ⟨⟨stored, hlen⟩, ?_, hstore⟩
  rw [store, hstore]
  exact ofBytes_of_le hlen

/-- A region that can be loaded is found at the front after it has been moved there. -/
theorem move_of_load {block : Block} {src len : UInt64} {bytes : Bytes}
    (h : load block.bytes src.toNat len.toNat = some bytes) :
    ∃ block', block.move 0 src len = some block' ∧
      block'.bytes.length = block.bytes.length ∧
      load block'.bytes 0 len.toNat = some bytes := by
  obtain ⟨moved, hmove, hsame, hload⟩ := load_move h
  have hlen : moved.length ≤ kMaxObjectSize := by
    rw [hsame]
    exact block.length_le
  refine ⟨⟨moved, hlen⟩, ?_, hsame, hload⟩
  rw [move, UInt64.toNat_zero, hmove]
  exact ofBytes_of_le hlen

theorem resize_of_le (block : Block) {n : UInt64} (h : n.toNat ≤ kMaxObjectSize) :
    ∃ block', block.resize n = some block' ∧
      block'.bytes = Memory.resize 0 block.bytes n.toNat := by
  have hlen : (Memory.resize 0 block.bytes n.toNat).length ≤ kMaxObjectSize := by
    rw [length_resize]
    exact h
  refine ⟨⟨_, hlen⟩, ?_, rfl⟩
  rw [resize, if_pos h]
  exact ofBytes_of_le hlen

end Block

def kBufferDefaultLength : UInt64 := 4096

structure MsgBuffer where
  buf : Block
  head : UInt64 := 0
  tail : UInt64 := 0
  deriving DecidableEq, Repr

/-- How an operation ends. -/
inductive Ending where
  | returned
  /-- `resize` throws `length_error`. -/
  | threw
  deriving DecidableEq, Repr

namespace MsgBuffer

def create (len : UInt64 := kBufferDefaultLength) : Option MsgBuffer :=
  (Block.resize ⟨[], Nat.zero_le _⟩ len).map fun buf => { buf }

def readableBytes (b : MsgBuffer) : UInt64 := b.tail - b.head

def writableBytes (b : MsgBuffer) : UInt64 := b.buf.size - b.tail

/-- The readable bytes behind `Peek`. -/
def peek (b : MsgBuffer) : Option Bytes :=
  Memory.load b.buf.bytes b.head.toNat b.readableBytes.toNat

def retrieveAll (b : MsgBuffer) : MsgBuffer := { b with head := 0, tail := 0 }

def retrieve (b : MsgBuffer) (n : UInt64) : MsgBuffer :=
  if n < b.readableBytes then { b with head := b.head + n } else b.retrieveAll

def hasWritten (b : MsgBuffer) (n : UInt64) : MsgBuffer := { b with tail := b.tail + n }

/-- The readable bytes are moved to the front. -/
def compact (b : MsgBuffer) : Option MsgBuffer :=
  if b.head > 0 then
    let readable := b.readableBytes
    (b.buf.move 0 b.head readable).map fun buf => { buf, head := 0, tail := readable }
  else some b

def ensureWritableBytes (b : MsgBuffer) (len : UInt64) : Option (MsgBuffer × Ending) :=
  if b.writableBytes ≥ len then some (b, .returned)
  else
    match b.compact with
    | none => none
    | some b =>
      if b.writableBytes < len then
        match b.buf.resize (b.tail + len) with
        | none => some (b, .threw)
        | some buf => some ({ b with buf := buf }, .returned)
      else some (b, .returned)

/-- Bytes copied to `BeginWrite`, and `HasWritten`. -/
def write (b : MsgBuffer) (data : Block) : Option MsgBuffer :=
  (b.buf.store b.tail data.bytes).map fun buf => hasWritten { b with buf := buf } data.size

def append (b : MsgBuffer) (data : Block) : Option (MsgBuffer × Ending) :=
  match b.ensureWritableBytes data.size with
  | none => none
  | some (b, .threw) => some (b, .threw)
  | some (b, .returned) => (b.write data).map (·, .returned)

/-! ## Operations -/

inductive Op where
  | append (data : Block)
  | ensureWritableBytes (len : UInt64)
  /-- The caller writes at `BeginWrite` and calls `HasWritten`. -/
  | write (data : Block)
  | retrieve (n : UInt64)
  | retrieveAll
  deriving DecidableEq, Repr

/-- One operation. There is no state behind an access outside of the vector. -/
def step (b : MsgBuffer) : Op → Option (MsgBuffer × Ending)
  | .append data => b.append data
  | .ensureWritableBytes len => b.ensureWritableBytes len
  | .write data => (b.write data).map (·, .returned)
  | .retrieve n => some (b.retrieve n, .returned)
  | .retrieveAll => some (b.retrieveAll, .returned)

/-- What the caller of an operation has to keep to. -/
def Allowed (b : MsgBuffer) : Op → Prop
  | .write data => data.size ≤ b.writableBytes
  | .retrieve n => n ≤ b.readableBytes
  | _ => True

/-- The unread bytes and the room that is needed fit into a vector together. -/
def Fits (b : MsgBuffer) : Op → Prop
  | .append data => b.readableBytes.toNat + data.bytes.length ≤ kMaxObjectSize
  | .ensureWritableBytes len => b.readableBytes.toNat + len.toNat ≤ kMaxObjectSize
  | _ => True

instance (b : MsgBuffer) : (op : Op) → Decidable (b.Allowed op)
  | .append _ => .isTrue trivial
  | .ensureWritableBytes _ => .isTrue trivial
  | .write data => inferInstanceAs (Decidable (data.size ≤ b.writableBytes))
  | .retrieve n => inferInstanceAs (Decidable (n ≤ b.readableBytes))
  | .retrieveAll => .isTrue trivial

instance (b : MsgBuffer) : (op : Op) → Decidable (b.Fits op)
  | .append data =>
    inferInstanceAs (Decidable (b.readableBytes.toNat + data.bytes.length ≤ kMaxObjectSize))
  | .ensureWritableBytes len =>
    inferInstanceAs (Decidable (b.readableBytes.toNat + len.toNat ≤ kMaxObjectSize))
  | .write _ => .isTrue trivial
  | .retrieve _ => .isTrue trivial
  | .retrieveAll => .isTrue trivial

/-! ## The queue -/

/-- The unread bytes after an operation. -/
def enqueue (unread : Bytes) : Op → Bytes
  | .append data => unread ++ data.bytes
  | .ensureWritableBytes _ => unread
  | .write data => unread ++ data.bytes
  | .retrieve n => unread.drop n.toNat
  | .retrieveAll => []

/-- The bytes written so far without those that have been retrieved. -/
def unread (done : List Op) : Bytes := done.foldl enqueue []

/-- The indices are in order and inside the vector, and the readable bytes are those of
the queue. -/
structure Represents (b : MsgBuffer) (q : Bytes) : Prop where
  head_le : b.head ≤ b.tail
  tail_le : b.tail ≤ b.buf.size
  peek_eq : b.peek = some q

/-- The operations have all returned, and none has accessed anything outside of the vector. -/
def Runs (b : MsgBuffer) (ops : List Op) (b' : MsgBuffer) : Prop :=
  Mealy.run step b ops = some (b', List.replicate ops.length .returned)

/-- The buffer is a queue at every point of the operations. -/
structure IsQueue (b : MsgBuffer) (ops : List Op) : Prop where
  /-- What can be read is what is unread. -/
  represents (before after : List Op) : ops = before ++ after →
    ∃ b', Runs b before b' ∧ Represents b' (unread before)
  /-- There is the room that was asked for. -/
  ensured (before : List Op) (len : UInt64) (after : List Op) :
    ops = before ++ .ensureWritableBytes len :: after →
    ∃ b', Runs b (before ++ [.ensureWritableBytes len]) b' ∧ len ≤ b'.writableBytes

section Represents

variable {b : MsgBuffer} {q : Bytes}

theorem toNat_readableBytes (h : b.head ≤ b.tail) :
    b.readableBytes.toNat = b.tail.toNat - b.head.toNat :=
  UInt64.toNat_sub_of_le _ _ h

theorem toNat_writableBytes (h : b.tail ≤ b.buf.size) :
    b.writableBytes.toNat = b.buf.bytes.length - b.tail.toNat := by
  rw [writableBytes, UInt64.toNat_sub_of_le _ _ h, Block.toNat_size]

theorem Represents.length_eq (h : Represents b q) : q.length = b.readableBytes.toNat :=
  (load_eq_some h.peek_eq).2

theorem Represents.tail_le_length (h : Represents b q) : b.tail.toNat ≤ b.buf.bytes.length := by
  rw [← Block.toNat_size]
  exact UInt64.le_iff_toNat_le.mp h.tail_le

/-- A buffer with both indices at the front is empty. -/
theorem represents_front (buf : Block) : Represents { buf } [] := by
  refine ⟨UInt64.le_refl _, UInt64.zero_le, ?_⟩
  have hfront : 0 + 0 ≤ buf.bytes.length := Nat.zero_le _
  have hload : load buf.bytes 0 0 = some [] := load_of_le hfront
  simpa [peek, readableBytes] using hload

theorem represents_create {len : UInt64} (h : create len = some b) : Represents b [] := by
  obtain ⟨buf, -, rfl⟩ := Option.map_eq_some_iff.mp h
  exact represents_front buf

/-! ## The rules of the operations -/

theorem represents_retrieveAll (b : MsgBuffer) : Represents b.retrieveAll [] :=
  represents_front b.buf

theorem Represents.retrieve (h : Represents b q) {n : UInt64} (hn : n ≤ b.readableBytes) :
    Represents (b.retrieve n) (q.drop n.toNat) := by
  have hlen := h.length_eq
  unfold MsgBuffer.retrieve
  split
  · rename_i hlt
    have hreadable := toNat_readableBytes h.head_le
    have hn' := UInt64.lt_iff_toNat_lt.mp hlt
    have htail := b.tail.toNat_lt
    have hhead : (b.head + n).toNat = b.head.toNat + n.toNat := by
      rw [UInt64.toNat_add, Nat.mod_eq_of_lt]
      omega
    have hle : b.head + n ≤ b.tail := by
      rw [UInt64.le_iff_toNat_le, hhead]
      omega
    refine ⟨hle, h.tail_le, ?_⟩
    have hrest := toNat_readableBytes (b := { b with head := b.head + n }) hle
    have hdrop := load_drop h.peek_eq (UInt64.le_iff_toNat_le.mp hn)
    rw [peek, hrest]
    simp only [hhead]
    rw [← hdrop]
    congr 1
    omega
  · rename_i hall
    have hdrop : q.drop n.toNat = [] := by
      apply List.drop_eq_nil_of_le
      rw [hlen]
      exact UInt64.le_iff_toNat_le.mp (UInt64.not_lt.mp hall)
    rw [hdrop]
    exact represents_retrieveAll b

theorem Represents.write (h : Represents b q) {data : Block} (hroom : data.size ≤ b.writableBytes) :
    ∃ b', b.write data = some b' ∧ Represents b' (q ++ data.bytes) := by
  have htail := h.tail_le_length
  have hreadable := toNat_readableBytes h.head_le
  have hhead := UInt64.le_iff_toNat_le.mp h.head_le
  rw [UInt64.le_iff_toNat_le, toNat_writableBytes h.tail_le, Block.toNat_size] at hroom
  obtain ⟨buf, hstore, hbytes⟩ := Block.store_of_le b.buf b.tail data.bytes (by omega)
  have hmore : (b.tail + data.size).toNat = b.tail.toNat + data.bytes.length := by
    have hmax := b.buf.length_le
    rw [UInt64.toNat_add, Block.toNat_size, Nat.mod_eq_of_lt]
    rw [kMaxObjectSize] at hmax
    omega
  have hle : b.head ≤ b.tail + data.size := by
    rw [UInt64.le_iff_toNat_le, hmore]
    omega
  refine ⟨_, by rw [MsgBuffer.write, hstore]; rfl, hle, ?_, ?_⟩
  · rw [UInt64.le_iff_toNat_le]
    show (b.tail + data.size).toNat ≤ buf.size.toNat
    rw [hmore, Block.toNat_size, length_store hbytes]
    omega
  · have hpeek := h.peek_eq
    rw [peek, hreadable] at hpeek
    have hload := load_store_behind hpeek hhead hbytes
    have hrest := toNat_readableBytes
      (b := hasWritten { b with buf := buf } data.size) hle
    rw [peek, hrest]
    simp only [hasWritten, hmore]
    rw [← hload]
    congr 1
    omega

/-- What is moved to the front leaves as much room as there can be. -/
theorem Represents.compact (h : Represents b q) :
    ∃ b', b.compact = some b' ∧ Represents b' q ∧ b'.head = 0 ∧
      b'.buf.bytes.length = b.buf.bytes.length := by
  unfold MsgBuffer.compact
  split
  · obtain ⟨buf, hmove, hsame, hload⟩ := Block.move_of_load h.peek_eq
    refine ⟨{ buf, head := 0, tail := b.readableBytes }, ?_, ?_, rfl, hsame⟩
    · simp only [hmove, Option.map_some]
    refine ⟨UInt64.zero_le, ?_, ?_⟩
    · have hlen := h.tail_le_length
      rw [UInt64.le_iff_toNat_le, Block.toNat_size, hsame, toNat_readableBytes h.head_le]
      omega
    · show load buf.bytes 0 (b.readableBytes - 0).toNat = some q
      rw [UInt64.sub_zero]
      exact hload
  · rename_i hzero
    have hhead : b.head = 0 := by
      apply UInt64.toNat_inj.mp
      rw [gt_iff_lt, UInt64.lt_iff_toNat_lt, UInt64.toNat_zero] at hzero
      exact Nat.eq_zero_of_not_pos hzero
    exact ⟨b, rfl, h, hhead, rfl⟩

/-- The room is made if it fits into a vector. -/
theorem Represents.ensureWritableBytes (h : Represents b q) {len : UInt64}
    (hfits : q.length + len.toNat ≤ kMaxObjectSize) :
    ∃ b', b.ensureWritableBytes len = some (b', .returned) ∧ Represents b' q ∧
      len ≤ b'.writableBytes := by
  have hlen : q.length + len.toNat < 2 ^ 64 := Nat.lt_of_le_of_lt hfits (by decide)
  unfold MsgBuffer.ensureWritableBytes
  split
  · rename_i hroom
    exact ⟨b, rfl, h, hroom⟩
  obtain ⟨b₁, hcompact, h₁, hfront, hsame⟩ := h.compact
  simp only [hcompact]
  split
  swap
  · rename_i hroom
    exact ⟨b₁, rfl, h₁, UInt64.not_lt.mp hroom⟩
  rename_i hshort
  have htail : b₁.tail.toNat = q.length := by
    rw [h₁.length_eq, toNat_readableBytes h₁.head_le, hfront]
    rfl
  have hsum : (b₁.tail + len).toNat = q.length + len.toNat := by
    rw [UInt64.toNat_add, htail, Nat.mod_eq_of_lt hlen]
  have hmore : b₁.buf.bytes.length ≤ (b₁.tail + len).toNat := by
    rw [UInt64.lt_iff_toNat_lt, toNat_writableBytes h₁.tail_le] at hshort
    omega
  obtain ⟨buf, hresize, hbytes⟩ := Block.resize_of_le b₁.buf (n := b₁.tail + len) (hsum ▸ hfits)
  have hsize : buf.bytes.length = (b₁.tail + len).toNat := by
    rw [hbytes, length_resize]
  have hle : b₁.tail ≤ buf.size := by
    rw [UInt64.le_iff_toNat_le, Block.toNat_size, hsize, hsum, htail]
    exact Nat.le_add_right _ _
  rw [hresize]
  refine ⟨_, rfl, ⟨h₁.head_le, hle, ?_⟩, ?_⟩
  · rw [peek]
    simp only [hbytes]
    exact load_resize hmore h₁.peek_eq
  · rw [UInt64.le_iff_toNat_le, toNat_writableBytes hle]
    simp only [hsize, hsum, htail]
    omega

/-- If it does not, `resize` throws; but where the sum cannot even be counted the vector is cut
behind the unread bytes. -/
theorem Represents.ensureWritableBytes_of_not (h : Represents b q) {len : UInt64}
    (hfits : kMaxObjectSize < q.length + len.toNat) :
    ∃ b', b.ensureWritableBytes len = some (b', .threw) ∨
      2 ^ 64 ≤ q.length + len.toNat ∧ b.ensureWritableBytes len = some (b', .returned) ∧
        ¬ b'.tail ≤ b'.buf.size := by
  have hmax := b.buf.length_le
  have htail := h.tail_le_length
  have hq : q.length ≤ b.buf.bytes.length := by
    rw [h.length_eq, toNat_readableBytes h.head_le]
    omega
  have hroom (b' : MsgBuffer) (h' : Represents b' q)
      (hsame : b'.buf.bytes.length = b.buf.bytes.length) : b'.writableBytes < len := by
    have hhead := UInt64.le_iff_toNat_le.mp h'.head_le
    have hreadable := h'.length_eq
    rw [toNat_readableBytes h'.head_le] at hreadable
    rw [UInt64.lt_iff_toNat_lt, toNat_writableBytes h'.tail_le, hsame]
    omega
  obtain ⟨b₁, hcompact, h₁, hfront, hsame⟩ := h.compact
  have htail₁ : b₁.tail.toNat = q.length := by
    rw [h₁.length_eq, toNat_readableBytes h₁.head_le, hfront]
    rfl
  have hgrows : b.ensureWritableBytes len =
      match b₁.buf.resize (b₁.tail + len) with
      | none => some (b₁, .threw)
      | some buf => some ({ b₁ with buf := buf }, .returned) := by
    rw [MsgBuffer.ensureWritableBytes, if_neg (UInt64.not_le.mpr (hroom b h rfl)), hcompact]
    simp only [if_pos (hroom b₁ h₁ hsame)]
  rw [hgrows]
  rcases Nat.lt_or_ge (q.length + len.toNat) (2 ^ 64) with hcounts | hwraps
  · have hsum : (b₁.tail + len).toNat = q.length + len.toNat := by
      rw [UInt64.toNat_add, htail₁, Nat.mod_eq_of_lt hcounts]
    have hrefused : b₁.buf.resize (b₁.tail + len) = none :=
      if_neg (Nat.not_le_of_lt (hsum ▸ hfits))
    rw [hrefused]
    exact ⟨b₁, .inl rfl⟩
  · have hsmall : (b₁.tail + len).toNat < q.length := by
      have hlt := len.toNat_lt
      rw [UInt64.toNat_add, htail₁]
      rw [kMaxObjectSize] at hmax
      omega
    obtain ⟨buf, hresize, hbytes⟩ := Block.resize_of_le b₁.buf
      (Nat.le_trans (Nat.le_of_lt hsmall) (Nat.le_trans hq hmax))
    rw [hresize]
    refine ⟨{ b₁ with buf := buf }, .inr ⟨hwraps, rfl, ?_⟩⟩
    rw [UInt64.le_iff_toNat_le, Block.toNat_size, hbytes, length_resize, htail₁]
    exact Nat.not_le_of_lt hsmall

theorem Represents.append (h : Represents b q) {data : Block}
    (hfits : q.length + data.bytes.length ≤ kMaxObjectSize) :
    ∃ b', b.append data = some (b', .returned) ∧ Represents b' (q ++ data.bytes) := by
  rw [← Block.toNat_size] at hfits
  obtain ⟨b₁, hensure, h₁, hroom⟩ := h.ensureWritableBytes hfits
  obtain ⟨b₂, hwrite, h₂⟩ := h₁.write hroom
  refine ⟨b₂, ?_, h₂⟩
  rw [MsgBuffer.append, hensure]
  simp only [hwrite, Option.map_some]

/-- Data that is in memory can always be counted. -/
theorem Represents.append_of_not (h : Represents b q) {data : Block}
    (hfits : kMaxObjectSize < q.length + data.bytes.length) :
    ∃ b', b.append data = some (b', .threw) := by
  rw [← Block.toNat_size] at hfits
  obtain ⟨b₁, hthrew | ⟨hwraps, -, -⟩⟩ := h.ensureWritableBytes_of_not hfits
  · exact ⟨b₁, by rw [MsgBuffer.append, hthrew]⟩
  · have hmax := b.buf.length_le
    have hdata := data.length_le
    have htail := h.tail_le_length
    rw [kMaxObjectSize] at hmax hdata
    rw [h.length_eq, toNat_readableBytes h.head_le, Block.toNat_size] at hwraps
    omega

/-- One operation does to the buffer what it does to the queue. -/
theorem Represents.step (h : Represents b q) {op : Op} (hallowed : Allowed b op)
    (hfits : Fits b op) :
    ∃ b', b.step op = some (b', .returned) ∧ Represents b' (enqueue q op) := by
  cases op with
  | append data =>
    rw [Fits, ← h.length_eq] at hfits
    exact h.append hfits
  | ensureWritableBytes len =>
    rw [Fits, ← h.length_eq] at hfits
    obtain ⟨b', hensure, h', -⟩ := h.ensureWritableBytes hfits
    exact ⟨b', hensure, h'⟩
  | write data =>
    obtain ⟨b', hwrite, h'⟩ := h.write hallowed
    exact ⟨b', by rw [MsgBuffer.step, hwrite]; rfl, h'⟩
  | retrieve n => exact ⟨_, rfl, h.retrieve hallowed⟩
  | retrieveAll => exact ⟨_, rfl, represents_retrieveAll b⟩

/-- An operation that does not fit throws, or leaves a buffer that represents nothing. -/
theorem Represents.fits_of_step (h : Represents b q) {op : Op} {b' : MsgBuffer} {q' : Bytes}
    (hstep : b.step op = some (b', .returned)) (h' : Represents b' q') : Fits b op := by
  cases op with
  | append data =>
    rw [Fits, ← h.length_eq]
    by_contra hlarge
    obtain ⟨b₁, hthrew⟩ := h.append_of_not (Nat.lt_of_not_le hlarge)
    rw [MsgBuffer.step, hthrew] at hstep
    cases hstep
  | ensureWritableBytes len =>
    rw [Fits, ← h.length_eq]
    by_contra hlarge
    obtain ⟨b₁, hthrew | ⟨-, hcut, hnot⟩⟩ :=
      h.ensureWritableBytes_of_not (Nat.lt_of_not_le hlarge)
    · rw [MsgBuffer.step, hthrew] at hstep
      cases hstep
    · rw [MsgBuffer.step, hcut] at hstep
      cases hstep
      exact hnot h'.tail_le
  | _ => trivial

end Represents

/-! ## Whole runs -/

section Runs

variable {len : UInt64} {b : MsgBuffer} {ops : List Op}

theorem Runs.concat {b' b'' : MsgBuffer} {op : Op} (h : Runs b ops b')
    (hstep : b'.step op = some (b'', .returned)) : Runs b (ops ++ [op]) b'' := by
  rw [Runs, Mealy.run_concat h hstep, List.length_append, List.length_singleton,
    List.replicate_succ']

/-- The last operation of a run. -/
theorem Runs.of_concat {b'' : MsgBuffer} {op : Op} (h : Runs b (ops ++ [op]) b'') :
    ∃ b', Runs b ops b' ∧ b'.step op = some (b'', .returned) := by
  obtain ⟨b', endings, ending, hrun, hstep, heq⟩ := Mealy.run_concat_eq_some h
  rw [List.length_append, List.length_singleton, List.replicate_succ'] at heq
  obtain ⟨rfl, hlast⟩ := List.append_inj' heq rfl
  obtain rfl := List.singleton_inj.mp hlast
  exact ⟨b', hrun, hstep⟩

theorem Runs.unique {b' b'' : MsgBuffer} (h : Runs b ops b') (h' : Runs b ops b'') : b' = b'' := by
  rw [Runs, h] at h'
  cases h'
  rfl

theorem unread_concat (ops : List Op) (op : Op) :
    unread (ops ++ [op]) = enqueue (unread ops) op := by
  rw [unread, List.foldl_append]
  rfl

theorem represents_run (hcreate : create len = some b) (hallowed : Mealy.Along step Allowed b ops)
    (hfits : Mealy.Along step Fits b ops) : ∃ b', Runs b ops b' ∧ Represents b' (unread ops) := by
  induction ops using List.reverseRecOn with
  | nil => exact ⟨b, rfl, represents_create hcreate⟩
  | append_singleton ops op ih =>
    obtain ⟨b₁, hrun, h₁⟩ := ih (Mealy.along_of_append hallowed) (Mealy.along_of_append hfits)
    rw [Mealy.along_concat hrun] at hallowed hfits
    obtain ⟨b₂, hstep, h₂⟩ := h₁.step hallowed.2 hfits.2
    refine ⟨b₂, hrun.concat hstep, ?_⟩
    rw [unread_concat]
    exact h₂

theorem isQueue_of_fits (hcreate : create len = some b)
    (hallowed : Mealy.Along step Allowed b ops) (hfits : Mealy.Along step Fits b ops) :
    IsQueue b ops := by
  constructor
  · rintro before after rfl
    exact represents_run hcreate (Mealy.along_of_append hallowed) (Mealy.along_of_append hfits)
  · rintro before len' after rfl
    obtain ⟨b₁, hrun, h₁⟩ := represents_run hcreate (Mealy.along_of_append hallowed)
      (Mealy.along_of_append hfits)
    rw [List.append_cons] at hfits
    have hlast := ((Mealy.along_concat hrun).mp (Mealy.along_of_append hfits)).2
    rw [Fits, ← h₁.length_eq] at hlast
    obtain ⟨b₂, hensure, -, hroom⟩ := h₁.ensureWritableBytes hlast
    exact ⟨b₂, hrun.concat hensure, hroom⟩

theorem IsQueue.of_append {ops' : List Op} (h : IsQueue b (ops ++ ops')) : IsQueue b ops := by
  constructor
  · rintro before after rfl
    exact h.represents before (after ++ ops') (List.append_assoc _ _ _)
  · rintro before len' after rfl
    exact h.ensured before len' (after ++ ops') (List.append_assoc _ _ _)

theorem IsQueue.fits (h : IsQueue b ops) : Mealy.Along step Fits b ops := by
  induction ops using List.reverseRecOn with
  | nil => trivial
  | append_singleton ops op ih =>
    obtain ⟨b₁, hrun, h₁⟩ := h.of_append.represents ops [] (List.append_nil _).symm
    obtain ⟨b₂, hrun₂, h₂⟩ := h.represents _ [] (List.append_nil _).symm
    obtain ⟨b₃, hrun₃, hstep⟩ := hrun₂.of_concat
    obtain rfl := hrun.unique hrun₃
    exact (Mealy.along_concat hrun).mpr ⟨ih h.of_append, h₁.fits_of_step hstep h₂⟩

/-- The buffer is a queue throughout the operations, all of which return, if and only if the
room that is needed fits into a vector together with the unread bytes. -/
theorem isQueue_iff (hcreate : create len = some b)
    (hallowed : Mealy.Along step Allowed b ops) :
    IsQueue b ops ↔ Mealy.Along step Fits b ops :=
  ⟨IsQueue.fits, isQueue_of_fits hcreate hallowed⟩

end Runs

/-! ### Three runs -/

def oneByte : Block := ⟨[0x41], by decide⟩

/-- The smallest buffer that is not empty. -/
def smallBuffer : MsgBuffer := { buf := ⟨[0], by decide⟩ }

theorem create_smallBuffer : create 1 = some smallBuffer := by decide

/-- It grows, and is read but for one byte. -/
theorem isQueue_smallBuffer : IsQueue smallBuffer
    [.append oneByte, .append oneByte, .ensureWritableBytes 1, .retrieve 1] := by
  refine (isQueue_iff create_smallBuffer ?_).mpr ?_
  · decide +kernel
  · decide +kernel

/-- With a byte unread, room for more bytes than there are sizes. -/
def tooMuchRoom : List Op := [.append oneByte, .ensureWritableBytes 0xFFFFFFFFFFFFFFFF]

/-- The vector is emptied, and the byte is lost. And an empty buffer throws when it is asked for
more than a vector can have. -/
theorem tooMuchRoom_not_queue :
    (create 1 = some smallBuffer ∧ Mealy.Along step Allowed smallBuffer tooMuchRoom ∧
      ¬ IsQueue smallBuffer tooMuchRoom) ∧
    smallBuffer.ensureWritableBytes 0x8000000000000000 = some (smallBuffer, .threw) := by
  refine ⟨⟨create_smallBuffer, by decide +kernel, fun h => ?_⟩, by decide +kernel⟩
  obtain ⟨b, hrun, hb⟩ := h.represents tooMuchRoom [] rfl
  have hlost : Mealy.run step smallBuffer tooMuchRoom =
      some ({ buf := ⟨[], by decide⟩, tail := 1 }, [.returned, .returned]) := by
    decide +kernel
  rw [Runs, hlost] at hrun
  cases hrun
  exact absurd hb.tail_le (by decide)

end MsgBuffer
