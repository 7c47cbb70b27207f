-- SUMMARY: One TCP connection: the receive buffer, the queue of writes, and closing.
import OmegaStreamer.Base.BytesReader

/-!
# TcpConnection

The state of `TcpConnection.cpp` and its operations, each of which runs in the
connection's loop. At most one `async_write` is outstanding, for the buffer at
the head of the queue; its completion is an event of its own. What the buffers
are made of does not matter here.
-/

structure TcpConnection (β : Type) where
  recvBuf : Bytes := []
  writeQueue : List β := []
  writing : Bool := false
  closed : Bool := false
  /-- The library has not yet completed the last `async_write`. -/
  outstanding : Bool := false

namespace TcpConnection

variable {β : Type}

/-- `doWrite`: start to write the head of the queue. -/
def doWrite (c : TcpConnection β) : TcpConnection β :=
  if c.writeQueue = [] ∨ c.closed = true then { c with writing := false }
  else { c with writing := true, outstanding := true }

/-- `Send`, which `RunInLoop` runs at once when it is called in the loop. -/
def send (c : TcpConnection β) (buf : β) : TcpConnection β :=
  let wasEmpty := c.writeQueue.isEmpty
  let c := { c with writeQueue := c.writeQueue ++ [buf] }
  if wasEmpty ∧ ¬ c.writing then c.doWrite else c

/-- Several calls of `Send`. -/
def sendAll (c : TcpConnection β) (bufs : List β) : TcpConnection β := bufs.foldl send c

def close (c : TcpConnection β) : TcpConnection β := { c with closed := true }

/-- `HasWritten` after a successful read. -/
def received (c : TcpConnection β) (seg : Bytes) : TcpConnection β :=
  { c with recvBuf := c.recvBuf ++ seg }

/-- The completion of a write. The write-complete callback is called only when
the queue has become empty, which the second component says. -/
def writeSucceeded (c : TcpConnection β) : TcpConnection β × Bool :=
  let c := { c with writeQueue := c.writeQueue.tail, outstanding := false }
  if c.writeQueue = [] then ({ c with writing := false }, true) else (c.doWrite, false)

def writeFailed (c : TcpConnection β) : TcpConnection β :=
  { c with outstanding := false }.close

/-! ## What the operations leave alone -/

@[simp] theorem doWrite_recvBuf (c : TcpConnection β) : c.doWrite.recvBuf = c.recvBuf := by
  unfold doWrite; split <;> rfl

@[simp] theorem doWrite_writeQueue (c : TcpConnection β) :
    c.doWrite.writeQueue = c.writeQueue := by
  unfold doWrite; split <;> rfl

@[simp] theorem doWrite_closed (c : TcpConnection β) : c.doWrite.closed = c.closed := by
  unfold doWrite; split <;> rfl

@[simp] theorem send_recvBuf (c : TcpConnection β) (buf : β) :
    (c.send buf).recvBuf = c.recvBuf := by
  unfold send; simp only; split <;> simp

@[simp] theorem send_writeQueue (c : TcpConnection β) (buf : β) :
    (c.send buf).writeQueue = c.writeQueue ++ [buf] := by
  unfold send; simp only; split <;> simp

@[simp] theorem send_closed (c : TcpConnection β) (buf : β) : (c.send buf).closed = c.closed := by
  unfold send; simp only; split <;> simp

@[simp] theorem sendAll_recvBuf (c : TcpConnection β) (bufs : List β) :
    (c.sendAll bufs).recvBuf = c.recvBuf := by
  induction bufs generalizing c with
  | nil => rfl
  | cons buf bufs ih => exact (ih (c.send buf)).trans (send_recvBuf c buf)

@[simp] theorem sendAll_writeQueue (c : TcpConnection β) (bufs : List β) :
    (c.sendAll bufs).writeQueue = c.writeQueue ++ bufs := by
  induction bufs generalizing c with
  | nil => simp [sendAll]
  | cons buf bufs ih =>
    have h : ((c.send buf).sendAll bufs).writeQueue = (c.send buf).writeQueue ++ bufs := ih _
    rw [send_writeQueue, List.append_assoc] at h
    exact h

@[simp] theorem sendAll_closed (c : TcpConnection β) (bufs : List β) :
    (c.sendAll bufs).closed = c.closed := by
  induction bufs generalizing c with
  | nil => rfl
  | cons buf bufs ih => exact (ih (c.send buf)).trans (send_closed c buf)

theorem sendAll_append (c : TcpConnection β) (bufs bufs' : List β) :
    c.sendAll (bufs ++ bufs') = (c.sendAll bufs).sendAll bufs' :=
  List.foldl_append

/-- What is sent does not depend on the receive buffer. -/
theorem setRecvBuf_sendAll (c : TcpConnection β) (bufs : List β) (buf : Bytes) :
    { c.sendAll bufs with recvBuf := buf } = { c with recvBuf := buf }.sendAll bufs := by
  induction bufs generalizing c with
  | nil => rfl
  | cons b bufs ih =>
    have hsend : { c.send b with recvBuf := buf } = { c with recvBuf := buf }.send b := by
      unfold send doWrite
      simp only
      split
      · split <;> rfl
      · rfl
    have hrest : { (c.send b).sendAll bufs with recvBuf := buf } =
        { c.send b with recvBuf := buf }.sendAll bufs := ih (c.send b)
    rw [hsend] at hrest
    exact hrest

@[simp] theorem writeSucceeded_recvBuf (c : TcpConnection β) :
    c.writeSucceeded.1.recvBuf = c.recvBuf := by
  unfold writeSucceeded; simp only; split <;> simp

@[simp] theorem writeSucceeded_writeQueue (c : TcpConnection β) :
    c.writeSucceeded.1.writeQueue = c.writeQueue.tail := by
  unfold writeSucceeded; simp only; split <;> simp

@[simp] theorem writeSucceeded_closed (c : TcpConnection β) :
    c.writeSucceeded.1.closed = c.closed := by
  unfold writeSucceeded; simp only; split <;> simp

theorem writeSucceeded_callback (c : TcpConnection β) :
    c.writeSucceeded.2 = true ↔ c.writeQueue.tail = [] := by
  unfold writeSucceeded
  simp only
  split
  · rename_i h; simpa using h
  · rename_i h; simpa using h

/-! ## The queue and the outstanding write -/

/-- How the flags fit the queue: an open connection with something to write is
writing it. -/
structure WellFormed (c : TcpConnection β) : Prop where
  writing_of_outstanding : c.outstanding = true → c.writing = true
  queue_of_writing : c.writing = true → c.writeQueue ≠ []
  outstanding_of_queue : c.closed = false → c.writeQueue ≠ [] → c.outstanding = true

theorem wellFormed_init : (({} : TcpConnection β)).WellFormed where
  writing_of_outstanding := nofun
  queue_of_writing := nofun
  outstanding_of_queue _ h := absurd rfl h

namespace WellFormed

variable {c : TcpConnection β}

theorem doWrite (h : c.outstanding = false) : c.doWrite.WellFormed := by
  unfold TcpConnection.doWrite
  split
  · rename_i hstop
    refine ⟨fun ho => ?_, nofun, fun hopen hne => ?_⟩
    · rw [h] at ho; cases ho
    · rcases hstop with hstop | hstop
      · exact absurd hstop hne
      · rw [hopen] at hstop; cases hstop
  · rename_i hgo
    exact ⟨fun _ => rfl, fun _ hempty => hgo (.inl hempty), fun _ _ => rfl⟩

theorem send (hw : c.WellFormed) (buf : β) : (c.send buf).WellFormed := by
  unfold TcpConnection.send
  simp only
  split
  · rename_i hidle
    apply WellFormed.doWrite
    simp only
    cases ho : c.outstanding with
    | false => rfl
    | true => exact absurd (hw.writing_of_outstanding ho) hidle.2
  · rename_i hbusy
    refine ⟨hw.writing_of_outstanding, fun _ => by simp, fun hopen _ => ?_⟩
    simp only at hopen hbusy ⊢
    -- a queue that was not empty is being written, and so is one whose flag is up
    apply hw.outstanding_of_queue hopen
    intro hempty
    rw [hempty] at hbusy
    simp only [List.isEmpty_nil, true_and, Classical.not_not] at hbusy
    exact hw.queue_of_writing hbusy hempty

theorem sendAll (hw : c.WellFormed) (bufs : List β) : (c.sendAll bufs).WellFormed := by
  induction bufs generalizing c with
  | nil => exact hw
  | cons buf bufs ih => exact ih (hw.send buf)

/-- The receive buffer plays no part. -/
theorem setRecvBuf (hw : c.WellFormed) (buf : Bytes) : { c with recvBuf := buf }.WellFormed :=
  ⟨hw.writing_of_outstanding, hw.queue_of_writing, hw.outstanding_of_queue⟩

theorem close (hw : c.WellFormed) : c.close.WellFormed :=
  ⟨hw.writing_of_outstanding, hw.queue_of_writing, nofun⟩

theorem writeSucceeded (_ : c.WellFormed) : c.writeSucceeded.1.WellFormed := by
  unfold TcpConnection.writeSucceeded
  simp only
  split
  · rename_i hempty
    exact ⟨nofun, nofun, fun _ hne => absurd hempty hne⟩
  · exact WellFormed.doWrite rfl

theorem writeFailed (hw : c.WellFormed) : c.writeFailed.WellFormed :=
  ⟨nofun, hw.queue_of_writing, nofun⟩

end WellFormed

end TcpConnection
