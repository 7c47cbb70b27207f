-- SUMMARY: The write queue of a connection: everything sent is handed to the socket once and in order.
import OmegaStreamer.Lib.Mealy
import OmegaStreamer.Lib.Trace
import OmegaStreamer.Network.TcpConnection

/-!
# The write queue

A connection with the writes that its socket has not completed yet, under every
order of the loop's steps. The library completes each `async_write` once, with
the whole buffer written or with an error. What the steps do is recorded, so that
the order of sends, writes and callbacks can be read off a run.
-/

namespace TcpConnection

variable {β : Type}

inductive WriteAction (β : Type) where
  /-- A queued lambda of `Send` is run. -/
  | sent (buf : β)
  /-- `async_write` is called. -/
  | handed (buf : β)
  | written (buf : β)
  | failed (buf : β)
  /-- The write-complete callback is called. -/
  | writeComplete
  /-- `Close` has closed the socket. -/
  | closed
  deriving DecidableEq, Repr

namespace WriteAction

/-- The buffers sent. -/
def sents (log : List (WriteAction β)) : List β :=
  log.filterMap fun
    | .sent buf => some buf
    | _ => none

/-- The buffers handed to the socket. -/
def handeds (log : List (WriteAction β)) : List β :=
  log.filterMap fun
    | .handed buf => some buf
    | _ => none

def writtens (log : List (WriteAction β)) : List β :=
  log.filterMap fun
    | .written buf => some buf
    | _ => none

def faileds (log : List (WriteAction β)) : List β :=
  log.filterMap fun
    | .failed buf => some buf
    | _ => none

def isWriteComplete : WriteAction β → Bool
  | .writeComplete => true
  | _ => false

/-- The number of calls of `async_write` that are not completed. -/
def openWrites (log : List (WriteAction β)) : Int :=
  (handeds log).length - ((writtens log).length + (faileds log).length)

@[simp] theorem sents_append (log log' : List (WriteAction β)) :
    sents (log ++ log') = sents log ++ sents log' := by
  simp [sents]

@[simp] theorem handeds_append (log log' : List (WriteAction β)) :
    handeds (log ++ log') = handeds log ++ handeds log' := by
  simp [handeds]

@[simp] theorem writtens_append (log log' : List (WriteAction β)) :
    writtens (log ++ log') = writtens log ++ writtens log' := by
  simp [writtens]

@[simp] theorem faileds_append (log log' : List (WriteAction β)) :
    faileds (log ++ log') = faileds log ++ faileds log' := by
  simp [faileds]

/-- The last queued buffer has just been written. -/
def Due (log : List (WriteAction β)) : Prop :=
  ∃ log' buf, log = log' ++ [.written buf] ∧ writtens log = sents log

end WriteAction

open WriteAction

/-! ## The steps -/

/-- What `doWrite` hands to the socket. -/
def doWriteActions (c : TcpConnection β) : List (WriteAction β) :=
  if c.writeQueue = [] ∨ c.closed = true then []
  else c.writeQueue.head?.toList.map .handed

/-- A call made in the loop, from a queued lambda or from a callback. -/
inductive LoopCall (β : Type) where
  | send (buf : β)
  | close
  deriving DecidableEq, Repr

/-- What the calls do, beside changing the connection. -/
def LoopCall.actions (c : TcpConnection β) : LoopCall β → List (WriteAction β)
  | .send buf =>
    .sent buf ::
      if c.writeQueue.isEmpty ∧ ¬ c.writing then
        { c with writeQueue := c.writeQueue ++ [buf] }.doWriteActions
      else []
  | .close => if c.closed then [] else [.closed]

def LoopCall.apply (c : TcpConnection β) : LoopCall β → TcpConnection β
  | .send buf => c.send buf
  | .close => c.close

/-- A connection and the writes of its socket. -/
structure Writes (β : Type) where
  connection : TcpConnection β := {}
  /-- Handed to the socket and not completed. -/
  inFlight : List β := []

inductive WriteEvent (β : Type) where
  | call (op : LoopCall β)
  /-- A write is complete. If the write-complete callback is called it makes the
  calls. -/
  | writeSucceeded (inCallback : List (LoopCall β))
  | writeFailed
  deriving DecidableEq, Repr

namespace Writes

/-- The connection changes and what it hands over is in flight. -/
def become (s : Writes β) (c : TcpConnection β) (acts : List (WriteAction β)) :
    Writes β × List (WriteAction β) :=
  ({ connection := c, inFlight := s.inFlight ++ handeds acts }, acts)

def call (s : Writes β) (op : LoopCall β) : Writes β × List (WriteAction β) :=
  s.become (op.apply s.connection) (op.actions s.connection)

/-- The completion handler of a successful write, up to the callback. -/
def writeSucceeded (s : Writes β) (buf : β) : Writes β × List (WriteAction β) :=
  let popped := { s.connection with writeQueue := s.connection.writeQueue.tail }
  s.become s.connection.writeSucceeded.1
    (.written buf ::
      if s.connection.writeSucceeded.2 then [.writeComplete] else popped.doWriteActions)

def writeFailed (s : Writes β) (buf : β) : Writes β × List (WriteAction β) :=
  s.become s.connection.writeFailed
    (.failed buf :: if s.connection.closed then [] else [.closed])

def step (s : Writes β) : WriteEvent β → Option (Writes β × List (WriteAction β))
  | .call op => some (s.call op)
  | .writeSucceeded inCallback =>
    match s.inFlight with
    | [] => none
    | buf :: rest =>
      let (s', acts) := { s with inFlight := rest }.writeSucceeded buf
      if s.connection.writeSucceeded.2 then
        let (s'', acts') := Mealy.exec call s' inCallback
        some (s'', acts ++ acts')
      else some (s', acts)
  | .writeFailed =>
    match s.inFlight with
    | [] => none
    | buf :: rest => some ({ s with inFlight := rest }.writeFailed buf)

/-- What a step can do. The completion of a write goes on with another one, or the callback
makes its calls. -/
inductive Stepped (s : Writes β) :
    WriteEvent β → Writes β × List (WriteAction β) → Prop where
  | call (op : LoopCall β) : Stepped s (.call op) (s.call op)
  | wrote {inCallback : List (LoopCall β)} {buf : β} {rest : List β}
      (hs : s.inFlight = buf :: rest) (hbusy : s.connection.writeSucceeded.2 = false) :
      Stepped s (.writeSucceeded inCallback) ({ s with inFlight := rest }.writeSucceeded buf)
  | callback {inCallback : List (LoopCall β)} {buf : β} {rest : List β} {t : Writes β}
      {acts : List (WriteAction β)} (hs : s.inFlight = buf :: rest)
      (hdone : s.connection.writeSucceeded.2 = true)
      (hwrote : { s with inFlight := rest }.writeSucceeded buf = (t, acts)) :
      Stepped s (.writeSucceeded inCallback)
        ((Mealy.exec call t inCallback).1, acts ++ (Mealy.exec call t inCallback).2)
  | failed {buf : β} {rest : List β} (hs : s.inFlight = buf :: rest) :
      Stepped s .writeFailed ({ s with inFlight := rest }.writeFailed buf)

theorem step_eq_some {s : Writes β} {e : WriteEvent β} {r : Writes β × List (WriteAction β)}
    (h : s.step e = some r) : Stepped s e r := by
  cases e with
  | call op =>
    cases h
    exact .call op
  | writeSucceeded inCallback =>
    simp only [step] at h
    split at h
    · cases h
    rename_i buf rest hs
    split at h
    · rename_i hdone
      cases h
      exact .callback hs hdone rfl
    · rename_i hbusy
      cases h
      exact .wrote hs (Bool.eq_false_of_not_eq_true hbusy)
  | writeFailed =>
    simp only [step] at h
    split at h
    · cases h
    · rename_i buf rest hs
      cases h
      exact .failed hs

end Writes

/-! ### The calls of a step -/

/-- The buffers of the calls of `Send`. -/
def LoopCall.sends : List (LoopCall β) → List β :=
  List.filterMap fun
    | .send buf => some buf
    | .close => none

/-- The calls made in a step that did `acts`. Those of the callback are made if it is called. -/
def WriteEvent.calls (acts : List (WriteAction β)) : WriteEvent β → List (LoopCall β)
  | .call op => [op]
  | .writeSucceeded inCallback =>
    if acts.any WriteAction.isWriteComplete then inCallback else []
  | .writeFailed => []

section Calls

variable {s s' : Writes β} {e : WriteEvent β} {acts : List (WriteAction β)}

/-- What is handed over is neither sent nor a callback. -/
theorem quiet_doWriteActions (c : TcpConnection β) :
    sents c.doWriteActions = [] ∧ c.doWriteActions.any isWriteComplete = false := by
  unfold doWriteActions
  split
  · exact ⟨rfl, rfl⟩
  · cases c.writeQueue with
    | nil => exact ⟨rfl, rfl⟩
    | cons buf rest => exact ⟨rfl, rfl⟩

/-- A call of `Send` is recorded, and no other. -/
theorem sents_call (s : Writes β) (op : LoopCall β) :
    sents (s.call op).2 = LoopCall.sends [op] := by
  cases op with
  | send buf =>
    have hnone (c : TcpConnection β) := (quiet_doWriteActions c).1
    simp only [Writes.call, Writes.become, LoopCall.actions]
    split
    · exact congrArg (buf :: ·) (hnone _)
    · rfl
  | close =>
    simp only [Writes.call, Writes.become, LoopCall.actions]
    split <;> rfl

theorem sents_exec (s : Writes β) (ops : List (LoopCall β)) :
    sents (Mealy.exec Writes.call s ops).2 = LoopCall.sends ops := by
  induction ops generalizing s with
  | nil => rfl
  | cons op ops ih =>
    have hsplit : LoopCall.sends (op :: ops) = LoopCall.sends [op] ++ LoopCall.sends ops :=
      List.filterMap_append (l := [op])
    rw [Mealy.exec, sents_append, sents_call, ih, hsplit]

/-- What the completion of a write does before the callback is called. -/
theorem writeSucceeded_actions (s : Writes β) (buf : β) :
    sents (s.writeSucceeded buf).2 = [] ∧
      (s.writeSucceeded buf).2.any isWriteComplete = s.connection.writeSucceeded.2 := by
  simp only [Writes.writeSucceeded, Writes.become]
  cases hcallback : s.connection.writeSucceeded.2 with
  | true => exact ⟨rfl, rfl⟩
  | false =>
    exact quiet_doWriteActions { s.connection with writeQueue := s.connection.writeQueue.tail }

/-- What a step sends is what its calls say. -/
theorem sents_step (h : s.Stepped e (s', acts)) :
    sents acts = LoopCall.sends (e.calls acts) := by
  generalize hr : (s', acts) = r at h
  cases h with
  | call op =>
    cases hr
    exact sents_call s op
  | @wrote inCallback buf rest hs hbusy =>
    obtain ⟨hnone, hany⟩ := writeSucceeded_actions { s with inFlight := rest } buf
    rw [← hr] at hnone hany
    rw [WriteEvent.calls, hany, hbusy, if_neg Bool.false_ne_true, hnone]
    rfl
  | @callback inCallback buf rest t before hs hdone hwrote =>
    obtain ⟨hnone, hany⟩ := writeSucceeded_actions { s with inFlight := rest } buf
    rw [hwrote] at hnone hany
    cases hr
    rw [WriteEvent.calls, List.any_append, hany, hdone, Bool.true_or, if_pos rfl,
      sents_append, hnone, List.nil_append, sents_exec]
  | failed =>
    cases hr
    cases hclosed : s.connection.closed <;> rfl

theorem closed_call (s : Writes β) (op : LoopCall β)
    (h : s.connection.closed = true ∨ op = .close) : (s.call op).1.connection.closed = true := by
  rcases h with h | rfl
  · cases op with
    | send buf => exact (TcpConnection.send_closed _ _).trans h
    | close => rfl
  · rfl

theorem closed_exec {ops : List (LoopCall β)} {s : Writes β}
    (h : s.connection.closed = true ∨ .close ∈ ops) :
    (Mealy.exec Writes.call s ops).1.connection.closed = true := by
  induction ops generalizing s with
  | nil => exact h.elim id fun hmem => absurd hmem List.not_mem_nil
  | cons op ops ih =>
    refine ih ?_
    rcases h with h | hmem
    · exact .inl (closed_call s op (.inl h))
    · rcases List.mem_cons.mp hmem with rfl | hmem
      · exact .inl (closed_call s .close (.inr rfl))
      · exact .inr hmem

/-- The connection is closed by its calls of `Close` and by a write that fails. -/
theorem closed_step (h : s.Stepped e (s', acts))
    (hclose : e = .writeFailed ∨ .close ∈ e.calls acts) : s'.connection.closed = true := by
  generalize hr : (s', acts) = r at h
  cases h with
  | call op =>
    cases hr
    rcases hclose with hclose | hclose
    · cases hclose
    · exact closed_call s op (.inr (List.mem_singleton.mp hclose).symm)
  | @wrote inCallback buf rest hs hbusy =>
    have hany := (writeSucceeded_actions { s with inFlight := rest } buf).2
    rw [← hr] at hany
    rw [WriteEvent.calls, hany, hbusy, if_neg Bool.false_ne_true] at hclose
    rcases hclose with hclose | hclose
    · cases hclose
    · cases hclose
  | callback =>
    cases hr
    rcases hclose with hclose | hclose
    · cases hclose
    refine closed_exec (.inr ?_)
    simp only [WriteEvent.calls] at hclose
    split at hclose
    · exact hclose
    · cases hclose
  | failed =>
    cases hr
    rfl

end Calls

/-! ## The invariant -/

/-- At most one write is outstanding, and what has been handed over is the
beginning of what has been sent. -/
structure Sound (log : List (WriteAction β)) : Prop where
  handeds_sents : handeds log <+: sents log
  openWrites_le : openWrites log ≤ 1

/-- The action may come after the actions `log`. The callback comes right after
the last queued buffer has been written, and at no other time. -/
structure Allowed (log : List (WriteAction β)) (a : WriteAction β) : Prop where
  sound : Sound (log ++ [a])
  callback : a = .writeComplete ↔ Due log
  handed {buf : β} : a = .handed buf → .closed ∉ log

/-- What holds between any two actions. -/
structure Core (log : List (WriteAction β)) (c : TcpConnection β) : Prop where
  sound : Sound log
  sents_eq : sents log = writtens log ++ c.writeQueue
  closed_iff : c.closed = true ↔ .closed ∈ log
  allowed : Trace.Each Allowed [] log

theorem core_init : Core [] ({} : TcpConnection β) where
  sound := ⟨List.prefix_refl _, by simp [openWrites, handeds, writtens, faileds]⟩
  sents_eq := rfl
  closed_iff := by simp
  allowed := trivial

/-- One more action. -/
theorem Core.snoc {log : List (WriteAction β)} {c c' : TcpConnection β} {a : WriteAction β}
    (h : Core log c) (ha : Allowed log a)
    (hsents : sents (log ++ [a]) = writtens (log ++ [a]) ++ c'.writeQueue)
    (hclosed : c'.closed = true ↔ .closed ∈ log ++ [a]) : Core (log ++ [a]) c' where
  sound := ha.sound
  sents_eq := hsents
  closed_iff := hclosed
  allowed := (Trace.each_append _ _ _).mpr
    ⟨h.allowed, by rw [List.nil_append, Trace.each_singleton]; exact ha⟩

theorem not_due_of_concat {log : List (WriteAction β)} {a : WriteAction β}
    (ha : ∀ buf, a ≠ .written buf) : ¬ Due (log ++ [a]) := by
  rintro ⟨log', buf, heq, -⟩
  exact ha buf (List.append_inj' heq rfl |>.2 |> List.singleton_inj.mp)

/-- What is queued is not written. -/
theorem Core.not_due {log : List (WriteAction β)} {c : TcpConnection β} (h : Core log c)
    (hq : c.writeQueue ≠ []) : ¬ Due log := by
  rintro ⟨-, -, -, hall⟩
  rw [h.sents_eq] at hall
  exact hq (List.self_eq_append_right.mp hall)

/-- What the writes of the socket have come to. -/
inductive Phase : List (WriteAction β) → Writes β → Prop where
  /-- Nothing is being written, and there is nothing to write on an open
  connection. -/
  | idle {log : List (WriteAction β)} {c : TcpConnection β} (hw : c.writing = false)
      (hq : c.closed = false → c.writeQueue = []) (hhanded : handeds log = writtens log)
      (hfailed : faileds log = []) : Phase log { connection := c, inFlight := [] }
  /-- The head of the queue is being written. -/
  | busy {log : List (WriteAction β)} {c : TcpConnection β} {buf : β} {rest : List β}
      (hw : c.writing = true) (hq : c.writeQueue = buf :: rest)
      (hhanded : handeds log = writtens log ++ [buf]) (hfailed : faileds log = []) :
      Phase log { connection := c, inFlight := [buf] }
  /-- The head of the queue could not be written. -/
  | dead {log : List (WriteAction β)} {c : TcpConnection β} {buf : β} {rest : List β}
      (hw : c.writing = true) (hclosed : c.closed = true) (hq : c.writeQueue = buf :: rest)
      (hhanded : handeds log = writtens log ++ [buf]) (hfailed : faileds log = [buf]) :
      Phase log { connection := c, inFlight := [] }

/-- What holds between the steps of a run. -/
structure WritesInv (log : List (WriteAction β)) (s : Writes β) : Prop where
  core : Core log s.connection
  phase : Phase log s
  not_due : ¬ Due log

theorem writesInv_init : WritesInv [] ({} : Writes β) where
  core := core_init
  phase := .idle rfl (fun _ => rfl) rfl rfl
  not_due := by rintro ⟨log', buf, heq, -⟩; simp at heq

/-! ## What the steps keep -/

/-- `doWrite` while nothing is being written. -/
theorem Core.doWrite {log : List (WriteAction β)} {c : TcpConnection β} (h : Core log c)
    (hdue : ¬ Due log) (hhanded : handeds log = writtens log) (hfailed : faileds log = []) :
    WritesInv (log ++ c.doWriteActions)
      { connection := c.doWrite, inFlight := handeds c.doWriteActions } := by
  by_cases hstop : c.writeQueue = [] ∨ c.closed = true
  · have hacts : c.doWriteActions = [] := if_pos hstop
    have hc : c.doWrite = { c with writing := false } := if_pos hstop
    rw [hacts, hc, List.append_nil]
    refine ⟨⟨h.sound, h.sents_eq, h.closed_iff, h.allowed⟩, ?_, hdue⟩
    refine .idle rfl (fun hopen => ?_) hhanded hfailed
    rcases hstop with hempty | hclosed
    · exact hempty
    · rw [hclosed] at hopen
      cases hopen
  · have hc : c.doWrite = { c with writing := true, outstanding := true } := if_neg hstop
    simp only [not_or, Bool.not_eq_true] at hstop
    obtain ⟨hne, hopen⟩ := hstop
    obtain ⟨buf, rest, hq⟩ := List.exists_cons_of_ne_nil hne
    have hacts : c.doWriteActions = [.handed buf] := by simp [doWriteActions, hq, hopen]
    have hsents : sents log = writtens log ++ [buf] ++ rest := by
      rw [h.sents_eq, hq, List.append_cons]
    have hnew : handeds (log ++ [WriteAction.handed buf]) = writtens log ++ [buf] := by
      rw [handeds_append, hhanded]
      rfl
    have hallowed : Allowed log (.handed buf) := by
      refine ⟨⟨?_, ?_⟩, ⟨nofun, fun hd => absurd hd hdue⟩, fun _ hmem => ?_⟩
      · rw [hnew, sents_append, hsents, List.append_assoc]
        exact List.prefix_append _ _
      · rw [openWrites, hnew, writtens_append, faileds_append, hfailed]
        simp [writtens, faileds]
      · rw [h.closed_iff.mpr hmem] at hopen
        cases hopen
    rw [hacts, hc]
    refine ⟨h.snoc hallowed ?_ ?_, .busy rfl hq ?_ ?_, not_due_of_concat nofun⟩
    · simpa [sents, writtens] using h.sents_eq
    · simpa using h.closed_iff
    · rw [hnew, writtens_append]
      simp [writtens]
    · simpa [faileds] using hfailed

/-! ### One action -/

section Actions

variable {log : List (WriteAction β)} {c : TcpConnection β} {buf : β}

/-- An action that hands nothing over, and completes what it completes. -/
theorem Core.sound_concat (h : Core log c) {a : WriteAction β} (hhanded : handeds [a] = [])
    (hle : openWrites [a] ≤ 0) : Sound (log ++ [a]) := by
  have hopen := h.sound.openWrites_le
  constructor
  · rw [handeds_append, hhanded, List.append_nil, sents_append]
    exact h.sound.handeds_sents.trans (List.prefix_append _ _)
  · simp only [openWrites, hhanded, handeds_append, writtens_append, faileds_append,
      List.length_append, List.length_nil] at hopen hle ⊢
    omega

theorem Core.sent (h : Core log c) (hdue : ¬ Due log) (buf : β) :
    Core (log ++ [WriteAction.sent buf]) { c with writeQueue := c.writeQueue ++ [buf] } := by
  have hsound := h.sound_concat (a := .sent buf) rfl (Int.le_refl 0)
  refine h.snoc ⟨hsound, ⟨nofun, fun hd => absurd hd hdue⟩, nofun⟩ ?_ ?_
  · rw [sents_append, writtens_append, h.sents_eq]
    simp [sents, writtens]
  · simpa using h.closed_iff

theorem Core.close (h : Core log c) (hdue : ¬ Due log) :
    Core (log ++ [WriteAction.closed]) c.close := by
  have hsound := h.sound_concat (a := .closed) rfl (Int.le_refl 0)
  refine h.snoc ⟨hsound, ⟨nofun, fun hd => absurd hd hdue⟩, nofun⟩ ?_ ?_
  · simpa [sents, writtens, TcpConnection.close] using h.sents_eq
  · simp [TcpConnection.close]

theorem Core.written (h : Core log c) (hdue : ¬ Due log) {rest : List β}
    (hq : c.writeQueue = buf :: rest) {c' : TcpConnection β} (hq' : c'.writeQueue = rest)
    (hclosed : c'.closed = c.closed) : Core (log ++ [WriteAction.written buf]) c' := by
  have hsound := h.sound_concat (a := .written buf) rfl (show (-1 : Int) ≤ 0 by decide)
  refine h.snoc ⟨hsound, ⟨nofun, fun hd => absurd hd hdue⟩, nofun⟩ ?_ ?_
  · rw [sents_append, writtens_append, h.sents_eq, hq, hq']
    simp [sents, writtens]
  · simpa [hclosed] using h.closed_iff

theorem Core.writeComplete (h : Core log c) (hdue : Due log) :
    Core (log ++ [WriteAction.writeComplete]) c := by
  have hsound := h.sound_concat (a := .writeComplete) rfl (Int.le_refl 0)
  refine h.snoc ⟨hsound, ⟨fun _ => hdue, fun _ => rfl⟩, nofun⟩ ?_ ?_
  · simpa [sents, writtens] using h.sents_eq
  · simpa using h.closed_iff

theorem Core.failed (h : Core log c) (hdue : ¬ Due log) {c' : TcpConnection β}
    (hq : c'.writeQueue = c.writeQueue) (hclosed : c'.closed = c.closed) :
    Core (log ++ [WriteAction.failed buf]) c' := by
  have hsound := h.sound_concat (a := .failed buf) rfl (show (-1 : Int) ≤ 0 by decide)
  refine h.snoc ⟨hsound, ⟨nofun, fun hd => absurd hd hdue⟩, nofun⟩ ?_ ?_
  · simpa [sents, writtens, hq] using h.sents_eq
  · simpa [hclosed] using h.closed_iff

end Actions

/-! ### One step -/

namespace WritesInv

variable {log : List (WriteAction β)} {s : Writes β}

theorem send (h : WritesInv log s) (buf : β) :
    WritesInv (log ++ (s.call (.send buf)).2) (s.call (.send buf)).1 := by
  have hsent := h.core.sent h.not_due buf
  have hdue : ¬ Due (log ++ [WriteAction.sent buf]) := not_due_of_concat nofun
  -- a queue that was not empty, or is being written, only grows
  have hgrow (hbusy : ¬ (s.connection.writeQueue.isEmpty ∧ ¬ s.connection.writing)) :
      s.call (.send buf) =
        ({ connection := { s.connection with writeQueue := s.connection.writeQueue ++ [buf] },
           inFlight := s.inFlight }, [.sent buf]) := by
    simp only [Writes.call, Writes.become, LoopCall.apply, LoopCall.actions,
      TcpConnection.send, if_neg hbusy, handeds]
    simp
  cases h.phase with
  | @idle c hw hq hhanded hfailed =>
    by_cases hempty : c.writeQueue = []
    · have hidle : c.writeQueue.isEmpty ∧ ¬ c.writing := by simp [hempty, hw]
      have hdo := hsent.doWrite hdue (by simpa [handeds, writtens] using hhanded)
        (by simpa [faileds] using hfailed)
      simp only [Writes.call, Writes.become, LoopCall.apply, LoopCall.actions,
        TcpConnection.send, if_pos hidle, List.nil_append]
      rw [List.append_cons]
      exact hdo
    · rw [hgrow (by simp [hempty])]
      refine ⟨hsent, .idle hw (fun hopen => absurd (hq hopen) hempty) ?_ ?_, hdue⟩
      · simpa [handeds, writtens] using hhanded
      · simpa [faileds] using hfailed
  | busy hw hq hhanded hfailed =>
    rw [hgrow (by simp [hw])]
    refine ⟨hsent, .busy hw (by simp only [hq, List.cons_append]; rfl) ?_ ?_, hdue⟩
    · simpa [handeds, writtens] using hhanded
    · simpa [faileds] using hfailed
  | dead hw hclosed hq hhanded hfailed =>
    rw [hgrow (by simp [hw])]
    refine ⟨hsent, .dead hw hclosed (by simp only [hq, List.cons_append]; rfl) ?_ ?_, hdue⟩
    · simpa [handeds, writtens] using hhanded
    · simpa [faileds] using hfailed

/-- The flag `m_closed` says more than the log only if it was up before. -/
theorem close (h : WritesInv log s) : WritesInv (log ++ (s.call .close).2) (s.call .close).1 := by
  cases hclosed : s.connection.closed with
  | true =>
    have hconn : s.connection.close = s.connection := by
      rw [TcpConnection.close, ← hclosed]
    have hsame : s.call .close = (s, []) := by
      simp [Writes.call, Writes.become, LoopCall.apply, LoopCall.actions, hclosed, hconn,
        handeds]
    rw [hsame, List.append_nil]
    exact h
  | false =>
    have hcall : s.call .close =
        ({ connection := s.connection.close, inFlight := s.inFlight }, [.closed]) := by
      simp [Writes.call, Writes.become, LoopCall.apply, LoopCall.actions, hclosed, handeds]
    rw [hcall]
    refine ⟨h.core.close h.not_due, ?_, not_due_of_concat nofun⟩
    cases h.phase with
    | idle hw hq hhanded hfailed =>
      refine .idle hw nofun ?_ ?_
      · simpa [handeds, writtens] using hhanded
      · simpa [faileds] using hfailed
    | busy hw hq hhanded hfailed =>
      refine .busy hw hq ?_ ?_
      · simpa [handeds, writtens] using hhanded
      · simpa [faileds] using hfailed
    | dead hw hc hq hhanded hfailed =>
      rw [hc] at hclosed
      cases hclosed

theorem call (h : WritesInv log s) (op : LoopCall β) :
    WritesInv (log ++ (s.call op).2) (s.call op).1 := by
  cases op with
  | send buf => exact h.send buf
  | close => exact h.close

/-- The calls made in a callback, one after another. -/
theorem calls (h : WritesInv log s) (ops : List (LoopCall β)) :
    WritesInv (log ++ (Mealy.exec Writes.call s ops).2) (Mealy.exec Writes.call s ops).1 := by
  induction ops generalizing log s with
  | nil => rw [Mealy.exec, List.append_nil]; exact h
  | cons op ops ih =>
    have hrest := ih (h.call op)
    rw [List.append_assoc] at hrest
    exact hrest

theorem writeSucceeded (h : WritesInv log s) {buf : β} {rest : List β}
    (hs : s.inFlight = buf :: rest) :
    WritesInv (log ++ ({ s with inFlight := rest }.writeSucceeded buf).2)
      ({ s with inFlight := rest }.writeSucceeded buf).1 := by
  cases h.phase with
  | idle => cases hs
  | dead => cases hs
  | @busy c _ queue hw hq hhanded hfailed =>
    cases hs
    have hsucceeded : c.writeSucceeded =
        if queue = [] then
          ({ c with writeQueue := queue, outstanding := false, writing := false }, true)
        else ({ c with writeQueue := queue, outstanding := false }.doWrite, false) := by
      simp only [TcpConnection.writeSucceeded, hq, List.tail_cons]
    have hhanded' : handeds (log ++ [WriteAction.written buf]) =
        writtens (log ++ [WriteAction.written buf]) := by
      rw [handeds_append, writtens_append, hhanded]
      simp [handeds, writtens]
    have hfailed' : faileds (log ++ [WriteAction.written buf]) = [] := by
      simpa [faileds] using hfailed
    by_cases hempty : queue = []
    · -- the callback is due
      subst hempty
      rw [if_pos rfl] at hsucceeded
      have hwritten : Core (log ++ [WriteAction.written buf])
          { c with writeQueue := [], outstanding := false, writing := false } :=
        h.core.written h.not_due hq rfl rfl
      have hdue : Due (log ++ [WriteAction.written buf]) := by
        have hall := hwritten.sents_eq
        rw [List.append_nil] at hall
        exact ⟨log, buf, rfl, hall.symm⟩
      have hdone := hwritten.writeComplete hdue
      have hr : ({ connection := c, inFlight := [] } : Writes β).writeSucceeded buf =
          ({ connection := { c with writeQueue := [], outstanding := false, writing := false },
             inFlight := [] }, [.written buf, .writeComplete]) := by
        simp [Writes.writeSucceeded, Writes.become, hsucceeded, handeds]
      rw [hr, List.append_cons]
      refine ⟨hdone, .idle rfl (fun _ => rfl) ?_ ?_, not_due_of_concat nofun⟩
      · simpa [handeds, writtens] using hhanded'
      · simpa [faileds] using hfailed'
    · rw [if_neg hempty] at hsucceeded
      have hwritten : Core (log ++ [WriteAction.written buf])
          { c with writeQueue := queue, outstanding := false } :=
        h.core.written h.not_due hq rfl rfl
      have hdo := hwritten.doWrite (hwritten.not_due hempty) hhanded' hfailed'
      have hr : ({ connection := c, inFlight := [] } : Writes β).writeSucceeded buf =
          ({ connection := { c with writeQueue := queue, outstanding := false }.doWrite,
             inFlight := handeds { c with writeQueue := queue,
                                          outstanding := false }.doWriteActions },
           .written buf :: { c with writeQueue := queue, outstanding := false }.doWriteActions) := by
        simp only [Writes.writeSucceeded, Writes.become, hsucceeded, hq, List.tail_cons]
        rfl
      rw [hr, List.append_cons]
      exact hdo

theorem writeFailed (h : WritesInv log s) {buf : β} {rest : List β}
    (hs : s.inFlight = buf :: rest) :
    WritesInv (log ++ ({ s with inFlight := rest }.writeFailed buf).2)
      ({ s with inFlight := rest }.writeFailed buf).1 := by
  cases h.phase with
  | idle => cases hs
  | dead => cases hs
  | @busy c _ queue hw hq hhanded hfailed =>
    cases hs
    have hdead {acts : List (WriteAction β)} (hhanded' : handeds acts = [])
        (hwritten : writtens acts = []) (hfail : faileds acts = [buf]) :
        Phase (log ++ acts) { connection := c.writeFailed, inFlight := [] } := by
      refine .dead hw rfl hq ?_ ?_
      · rw [handeds_append, writtens_append, hhanded, hhanded', hwritten, List.append_nil,
          List.append_nil]
      · rw [faileds_append, hfailed, hfail, List.nil_append]
    cases hclosed : c.closed with
    | true =>
      have hcore : Core (log ++ [WriteAction.failed buf]) c.writeFailed :=
        h.core.failed h.not_due rfl hclosed.symm
      have hr : ({ connection := c, inFlight := [] } : Writes β).writeFailed buf =
          ({ connection := c.writeFailed, inFlight := [] }, [.failed buf]) := by
        simp [Writes.writeFailed, Writes.become, hclosed, handeds]
      rw [hr]
      exact ⟨hcore, hdead rfl rfl rfl, not_due_of_concat nofun⟩
    | false =>
      have hcore : Core (log ++ [WriteAction.failed buf]) { c with outstanding := false } :=
        h.core.failed h.not_due rfl rfl
      have hr : ({ connection := c, inFlight := [] } : Writes β).writeFailed buf =
          ({ connection := c.writeFailed, inFlight := [] }, [.failed buf, .closed]) := by
        simp [Writes.writeFailed, Writes.become, hclosed, handeds]
      rw [hr, List.append_cons]
      refine ⟨hcore.close (not_due_of_concat nofun), ?_, not_due_of_concat nofun⟩
      rw [← List.append_cons]
      exact hdead rfl rfl rfl

/-- Every step of the loop keeps the invariant. -/
theorem step (h : WritesInv log s) {e : WriteEvent β} {s' : Writes β}
    {acts : List (WriteAction β)} (hstep : s.Stepped e (s', acts)) :
    WritesInv (log ++ acts) s' := by
  generalize hr : (s', acts) = r at hstep
  cases hstep with
  | call op =>
    cases hr
    exact h.call op
  | wrote hs =>
    have hwrote := h.writeSucceeded hs
    rw [← hr] at hwrote
    exact hwrote
  | @callback inCallback buf rest t before hs hdone hwrote =>
    have hbefore := h.writeSucceeded hs
    rw [hwrote] at hbefore
    cases hr
    rw [← List.append_assoc]
    exact hbefore.calls inCallback
  | failed hs =>
    have hfailed := h.writeFailed hs
    rw [← hr] at hfailed
    exact hfailed

end WritesInv

/-! ## Whole runs -/

/-- What a run says of the connection that is left. The events have their actions beside them. -/
structure WritesOrdered (es : List (WriteEvent β)) (outs : List (List (WriteAction β)))
    (s : Writes β) : Prop where
  /-- What is sent is what the calls of the run send, in their order. -/
  sents_calls : sents outs.flatten =
    (es.zip outs).flatMap fun (e, acts) => LoopCall.sends (e.calls acts)
  /-- It has been written or is queued. -/
  sents_eq : sents outs.flatten = writtens outs.flatten ++ s.connection.writeQueue
  outstanding : openWrites outs.flatten = s.inFlight.length
  openWrites_le {t : List (WriteAction β)} : t <+: outs.flatten → openWrites t ≤ 1
  handeds_sents {t : List (WriteAction β)} : t <+: outs.flatten → handeds t <+: sents t
  /-- There is no stall. -/
  writing : s.connection.closed = false → s.connection.writeQueue ≠ [] →
    openWrites outs.flatten = 1
  callback {t rest : List (WriteAction β)} {a : WriteAction β} :
    outs.flatten = t ++ a :: rest → (a = .writeComplete ↔ Due t)
  /-- No callback is left to be called. -/
  not_due : ¬ Due outs.flatten
  /-- A call of `Close` closes the connection, and so does a write that fails. -/
  closed {es₁ es₂ : List (WriteEvent β)} {e : WriteEvent β}
    {outs₁ outs₂ : List (List (WriteAction β))} {acts : List (WriteAction β)} :
    es = es₁ ++ e :: es₂ → outs = outs₁ ++ acts :: outs₂ → es₁.length = outs₁.length →
    (e = .writeFailed ∨ .close ∈ e.calls acts) → .closed ∈ (outs₁ ++ [acts]).flatten
  open_of_handed {t rest : List (WriteAction β)} {buf : β} :
    outs.flatten = t ++ .handed buf :: rest → .closed ∉ t

/-- Each prefix of a record is sound, as the record is. -/
theorem Core.sound_prefix {log t : List (WriteAction β)} {c : TcpConnection β} (h : Core log c)
    (ht : t <+: log) : Sound t := by
  obtain ⟨rest, rfl⟩ := ht
  cases rest with
  | nil =>
    rw [← List.append_nil t]
    exact h.sound
  | cons a rest =>
    cases t using List.reverseRecOn with
    | nil => exact core_init.sound
    | append_singleton t b =>
      have hsplit : t ++ [b] ++ a :: rest = t ++ b :: (a :: rest) := List.append_assoc ..
      exact (h.allowed.of_split hsplit).sound

theorem Phase.openWrites_eq {log : List (WriteAction β)} {s : Writes β} (h : Phase log s) :
    openWrites log = s.inFlight.length := by
  cases h with
  | idle hw hq hhanded hfailed => simp [openWrites, hhanded, hfailed]
  | busy hw hq hhanded hfailed => simp [openWrites, hhanded, hfailed]
  | dead hw hclosed hq hhanded hfailed => simp [openWrites, hhanded, hfailed]

/-- An open connection with something queued is writing it. -/
theorem Phase.inFlight_length {log : List (WriteAction β)} {s : Writes β} (h : Phase log s)
    (hopen : s.connection.closed = false) (hne : s.connection.writeQueue ≠ []) :
    s.inFlight.length = 1 := by
  cases h with
  | idle hw hq => exact absurd (hq hopen) hne
  | busy => rfl
  | dead hw hclosed =>
    rw [hclosed] at hopen
    cases hopen

theorem writesInv_of_run {es : List (WriteEvent β)} {s : Writes β}
    {outs : List (List (WriteAction β))}
    (h : Mealy.run Writes.step ({} : Writes β) es = some (s, outs)) :
    WritesInv outs.flatten s := by
  refine Mealy.run_induction (motive := fun _ outs s => WritesInv outs.flatten s)
    writesInv_init ?_ h
  intro es outs s e s' acts _ hinv hstep
  rw [List.flatten_concat]
  exact hinv.step (Writes.step_eq_some hstep)

theorem sents_run {es : List (WriteEvent β)} {s : Writes β} {outs : List (List (WriteAction β))}
    (h : Mealy.run Writes.step ({} : Writes β) es = some (s, outs)) :
    sents outs.flatten =
      (es.zip outs).flatMap fun (e, acts) => LoopCall.sends (e.calls acts) := by
  refine Mealy.run_induction (motive := fun es outs _ => sents outs.flatten =
    (es.zip outs).flatMap fun (e, acts) => LoopCall.sends (e.calls acts)) rfl ?_ h
  intro es outs s e s' acts hrun hsents hstep
  rw [List.flatten_concat, sents_append, hsents, sents_step (Writes.step_eq_some hstep),
    List.zip_append (Mealy.length_run hrun).symm, List.flatMap_append]
  exact congrArg _ (List.append_nil _).symm

/-- Everything sent is handed to the socket once and in order. -/
theorem writes_ordered {es : List (WriteEvent β)} {s : Writes β}
    {outs : List (List (WriteAction β))}
    (h : Mealy.run Writes.step ({} : Writes β) es = some (s, outs)) : WritesOrdered es outs s := by
  have hinv := writesInv_of_run h
  refine {
    sents_calls := sents_run h
    sents_eq := hinv.core.sents_eq
    outstanding := hinv.phase.openWrites_eq
    openWrites_le := fun ht => (hinv.core.sound_prefix ht).openWrites_le
    handeds_sents := fun ht => (hinv.core.sound_prefix ht).handeds_sents
    writing := fun hopen hne => ?_
    callback := fun hsplit => (hinv.core.allowed.of_split hsplit).callback
    not_due := hinv.not_due
    closed := ?_
    open_of_handed := fun hsplit => (hinv.core.allowed.of_split hsplit).handed rfl }
  · rw [hinv.phase.openWrites_eq, hinv.phase.inFlight_length hopen hne]
    rfl
  · rintro es₁ es₂ e outs₁ outs₂ acts rfl rfl hlen hclose
    obtain ⟨t, u, hbefore, hstep, -⟩ := Mealy.run_split h hlen
    have hprefix := writesInv_of_run (Mealy.run_concat hbefore hstep)
    exact hprefix.core.closed_iff.mp (closed_step (Writes.step_eq_some hstep) hclose)

/-- The third buffer, sent by the callback, is lost. -/
theorem writes_ordered_four :
    ∃ s outs, Mealy.run Writes.step ({} : Writes Nat)
        [.call (.send 1), .call (.send 2), .writeSucceeded [], .writeSucceeded [.send 3],
         .writeFailed, .call (.send 4)] = some (s, outs) ∧
      sents outs.flatten = [1, 2, 3, 4] ∧ handeds outs.flatten = [1, 2, 3] ∧
      writtens outs.flatten = [1, 2] ∧ s.connection.writeQueue = [3, 4] ∧
      WritesOrdered [.call (.send 1), .call (.send 2), .writeSucceeded [],
        .writeSucceeded [.send 3], .writeFailed, .call (.send 4)] outs s := by
  have hrun : Mealy.run Writes.step ({} : Writes Nat)
      [.call (.send 1), .call (.send 2), .writeSucceeded [], .writeSucceeded [.send 3],
       .writeFailed, .call (.send 4)] =
      some ({ connection := { writeQueue := [3, 4], writing := true, closed := true } },
        [[.sent 1, .handed 1], [.sent 2], [.written 1, .handed 2],
         [.written 2, .writeComplete, .sent 3, .handed 3], [.failed 3, .closed],
         [.sent 4]]) := rfl
  exact ⟨_, _, hrun, rfl, rfl, rfl, rfl, writes_ordered hrun⟩

end TcpConnection
