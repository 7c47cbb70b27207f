-- SUMMARY: Accepting connections and dealing them to the loops of the pool, and what every run of a server keeps.
import OmegaStreamer.Lib.Mealy
import OmegaStreamer.Lib.RoundRobin

/-!
# TcpServer

`TcpServer.cpp` and the `EventLoopThreadPool` that it deals its connections to. The handler
of an accept runs in the base loop and the handlers of a connection in the loop that the
connection was given. What a connection does is a machine of its own, and is not looked
into here.
-/

/-- The pool, with the loops that its threads run. -/
structure EventLoopThreadPool (β : Type) where
  baseLoop : β
  loops : List β := []
  next : Nat := 0
  deriving DecidableEq, Repr

namespace EventLoopThreadPool

variable {β : Type}

/-- `start`, with the loops of the threads that it starts. -/
def start (pool : EventLoopThreadPool β) (threads : List β) : EventLoopThreadPool β :=
  { pool with loops := pool.loops ++ threads }

def stop (pool : EventLoopThreadPool β) : EventLoopThreadPool β := { pool with loops := [] }

def getNextLoop (pool : EventLoopThreadPool β) : β × EventLoopThreadPool β :=
  if pool.loops.isEmpty then (pool.baseLoop, pool)
  else
    let current := pool.next % pool.loops.length
    let next := pool.next + 1
    (pool.loops.getD current pool.baseLoop,
      { pool with next := if next > 1000000 then 0 else next })

end EventLoopThreadPool

structure TcpServer (β σ : Type) where
  pool : EventLoopThreadPool β
  /-- The loop that `async_accept` was given. -/
  worker : β
  /-- The loops that have been quit. -/
  quit : List β := []
  stopped : Bool := false
  /-- The outstanding `async_accept` was started before `Stop` had closed the acceptor. -/
  accepting : Bool := false
  /-- The connections in the order in which they were accepted, with their loops. -/
  connections : List (β × σ) := []
  deriving DecidableEq, Repr

namespace TcpServer

variable {α β σ ε ω : Type}

def doAccept (s : TcpServer β σ) : TcpServer β σ :=
  let (worker, pool) := s.pool.getNextLoop
  { s with worker := worker, pool := pool, accepting := !s.stopped }

/-- The server after `Start`. -/
def start (baseLoop : β) (threads : List β) : TcpServer β σ :=
  doAccept { pool := EventLoopThreadPool.start { baseLoop } threads, worker := baseLoop }

def stop (s : TcpServer β σ) : TcpServer β σ :=
  { s with pool := s.pool.stop, quit := s.quit ++ s.pool.loops, stopped := true }

/-- What a loop runs. -/
inductive Event (α ε : Type) where
  /-- A socket has been accepted. -/
  | accepted (a : α)
  | acceptFailed
  | stop
  /-- A handler of a connection. -/
  | connection (i : Nat) (e : ε)
  deriving DecidableEq, Repr

/-- What becomes of an accepted socket, and what a connection does. -/
structure Handlers (α σ ε ω : Type) where
  create : α → σ
  step : σ → ε → Option (σ × ω)

/-- One event. An accept that was started on a closed acceptor fails. One that had succeeded
before `Stop` has its handler run behind it, and its connection is made for a loop that runs
nothing any more, if it is that of a thread. -/
def step [DecidableEq β] (H : Handlers α σ ε ω) (s : TcpServer β σ) :
    Event α ε → Option (TcpServer β σ × Option (Nat × ω))
  | .accepted a =>
    if s.accepting then
      some (doAccept { s with connections := s.connections ++ [(s.worker, H.create a)] }, none)
    else none
  | .acceptFailed => some (s.doAccept, none)
  | .stop => some (s.stop, none)
  | .connection i e =>
    s.connections[i]?.bind fun (loop, c) =>
      if loop ∈ s.quit then none
      else
        (H.step c e).map fun (next, o) =>
          ({ s with connections := s.connections.set i (loop, next) }, some (i, o))

/-- What a step can do. -/
inductive Stepped (H : Handlers α σ ε ω) (s : TcpServer β σ) :
    Event α ε → TcpServer β σ → Option (Nat × ω) → Prop where
  | accepted {a : α} (h : s.accepting = true) :
      Stepped H s (.accepted a)
        (doAccept { s with connections := s.connections ++ [(s.worker, H.create a)] }) none
  | acceptFailed : Stepped H s .acceptFailed s.doAccept none
  | stop : Stepped H s .stop s.stop none
  | connection {i : Nat} {e : ε} {loop : β} {c next : σ} {o : ω}
      (hc : s.connections[i]? = some (loop, c)) (hstep : H.step c e = some (next, o)) :
      Stepped H s (.connection i e)
        { s with connections := s.connections.set i (loop, next) } (some (i, o))

theorem step_eq_some [DecidableEq β] {H : Handlers α σ ε ω} {s s' : TcpServer β σ}
    {e : Event α ε} {o : Option (Nat × ω)} (h : step H s e = some (s', o)) :
    Stepped H s e s' o := by
  cases e with
  | accepted a =>
    simp only [step] at h
    split at h
    · rename_i haccepting
      cases h
      exact .accepted haccepting
    · cases h
  | acceptFailed =>
    cases h
    exact .acceptFailed
  | stop =>
    cases h
    exact .stop
  | connection i e =>
    obtain ⟨⟨loop, c⟩, hc, h⟩ := Option.bind_eq_some_iff.mp h
    simp only at h
    split at h
    · cases h
    · obtain ⟨⟨next, o'⟩, hstep, heq⟩ := Option.map_eq_some_iff.mp h
      cases heq
      exact .connection hc hstep

/-! ## Reading a run -/

/-- The accepts that are complete, those that failed among them. -/
def completions (es : List (Event α ε)) : List (Option α) :=
  es.filterMap fun
    | .accepted a => some (some a)
    | .acceptFailed => some none
    | _ => none

/-- The accepted sockets, each with the number of accepts that were complete before. -/
def accepted (es : List (Event α ε)) : List (Nat × α) :=
  (completions es).zipIdx.filterMap fun (o, k) => o.map fun a => (k, a)

/-- The events of a connection. -/
def eventsOf (i : Nat) (es : List (Event α ε)) : List ε :=
  es.filterMap fun
    | .connection j e => if j = i then some e else none
    | _ => none

/-- The outputs of a connection. -/
def outputsOf (i : Nat) (outs : List (Option (Nat × ω))) : List ω :=
  outs.filterMap fun
    | some (j, o) => if j = i then some o else none
    | none => none

/-- The loop for an accept that so many others were complete before. -/
def loopAt (baseLoop : β) (threads : List β) (k : Nat) : β :=
  threads.getD (RoundRobin.place threads.length 1000001 k) baseLoop

@[simp] theorem completions_append (es es' : List (Event α ε)) :
    completions (es ++ es') = completions es ++ completions es' := List.filterMap_append

@[simp] theorem eventsOf_append (i : Nat) (es es' : List (Event α ε)) :
    eventsOf i (es ++ es') = eventsOf i es ++ eventsOf i es' := List.filterMap_append

@[simp] theorem outputsOf_append (i : Nat) (outs outs' : List (Option (Nat × ω))) :
    outputsOf i (outs ++ outs') = outputsOf i outs ++ outputsOf i outs' := List.filterMap_append

theorem accepted_append (es es' : List (Event α ε)) :
    accepted (es ++ es') = accepted es ++
      ((completions es').zipIdx (completions es).length).filterMap
        fun (o, k) => o.map fun a => (k, a) := by
  rw [accepted, completions_append, List.zipIdx_append, List.filterMap_append, Nat.zero_add]
  rfl

/-! ## Dealing -/

/-- The pool after it has been asked so many times. -/
structure Dealing (baseLoop : β) (threads : List β) (pool : EventLoopThreadPool β) (k : Nat) :
    Prop where
  loops : pool.loops = threads
  baseLoop : pool.baseLoop = baseLoop
  next : threads ≠ [] → pool.next = k % 1000001

theorem Dealing.getNextLoop {baseLoop : β} {threads : List β} {pool : EventLoopThreadPool β}
    {k : Nat} (h : Dealing baseLoop threads pool k) :
    pool.getNextLoop.1 = loopAt baseLoop threads k ∧
      Dealing baseLoop threads pool.getNextLoop.2 (k + 1) := by
  obtain ⟨rfl, rfl, hnext⟩ := h
  cases hloops : pool.loops with
  | nil =>
    have hbase : pool.getNextLoop = (pool.baseLoop, pool) := by
      rw [EventLoopThreadPool.getNextLoop, hloops]
      rfl
    rw [hbase]
    exact ⟨rfl, ⟨hloops, rfl, absurd rfl⟩⟩
  | cons loop rest =>
    rw [hloops] at hnext
    have hk := hnext (List.cons_ne_nil _ _)
    have hwrap : (if pool.next + 1 > 1000000 then 0 else pool.next + 1) = (k + 1) % 1000001 := by
      rw [hk]
      split
      · omega
      · omega
    simp only [EventLoopThreadPool.getNextLoop, hloops, List.isEmpty_cons, Bool.false_eq_true,
      if_false, hwrap]
    refine ⟨?_, ⟨rfl, rfl, fun _ => rfl⟩⟩
    rw [loopAt, RoundRobin.place, hk]

/-- What holds of a server after a run from `Start`. -/
structure Placed (H : Handlers α σ ε ω) (baseLoop : β) (threads : List β)
    (es : List (Event α ε)) (outs : List (Option (Nat × ω))) (s : TcpServer β σ) : Prop where
  length : s.connections.length = (accepted es).length
  /-- A connection is in the loop that was its turn, and has moved by its own events only. -/
  placed : ∀ i k a, (accepted es)[i]? = some (k, a) →
    ∃ c, s.connections[i]? = some (loopAt baseLoop threads k, c) ∧
      Mealy.run H.step (H.create a) (eventsOf i es) = some (c, outputsOf i outs)
  /-- What is not there yet has no events. -/
  unborn : ∀ i, s.connections.length ≤ i → eventsOf i es = [] ∧ outputsOf i outs = []

/-- The accept that can still succeed is for the loop whose turn it was. -/
structure Accepting (baseLoop : β) (threads : List β) (es : List (Event α ε))
    (s : TcpServer β σ) : Prop where
  worker : s.accepting = true → s.worker = loopAt baseLoop threads (completions es).length
  pool : s.stopped = false → Dealing baseLoop threads s.pool ((completions es).length + 1)

section Runs

variable {H : Handlers α σ ε ω} {baseLoop : β} {threads : List β} {es : List (Event α ε)}
  {outs : List (Option (Nat × ω))} {s s' : TcpServer β σ}

/-- A new accept succeeds only before `Stop`. -/
theorem Accepting.doAccept (h : Accepting baseLoop threads es s) {e : Event α ε} {o : Option α}
    (he : completions [e] = [o]) : Accepting baseLoop threads (es ++ [e]) s.doAccept := by
  have hlen : (completions (es ++ [e])).length = (completions es).length + 1 := by
    rw [completions_append, he, List.length_append, List.length_singleton]
  constructor
  · intro haccepting
    have hopen : s.stopped = false := by simpa [TcpServer.doAccept] using haccepting
    rw [hlen]
    exact (h.pool hopen).getNextLoop.1
  · intro hopen
    rw [hlen]
    exact (h.pool hopen).getNextLoop.2

/-- Where no accept is complete, the accept that can succeed stays the same. -/
theorem Accepting.idle (h : Accepting baseLoop threads es s) {e : Event α ε}
    (he : completions [e] = []) (hworker : s'.worker = s.worker)
    (haccepting : s'.accepting = s.accepting)
    (hpool : s'.stopped = false → s.stopped = false ∧ s'.pool = s.pool) :
    Accepting baseLoop threads (es ++ [e]) s' := by
  have hsame : completions (es ++ [e]) = completions es := by
    rw [completions_append, he, List.append_nil]
  constructor
  · intro h'
    rw [hsame, hworker]
    exact h.worker (haccepting ▸ h')
  · intro hopen
    obtain ⟨hwas, hpool⟩ := hpool hopen
    rw [hsame, hpool]
    exact h.pool hwas

theorem accepting_start : Accepting baseLoop threads ([] : List (Event α ε))
    (start baseLoop threads : TcpServer β σ) := by
  have hzero : Dealing baseLoop threads
      (EventLoopThreadPool.start { baseLoop } threads) 0 := ⟨rfl, rfl, fun _ => rfl⟩
  exact ⟨fun _ => hzero.getNextLoop.1, fun _ => hzero.getNextLoop.2⟩

theorem placed_start : Placed H baseLoop threads [] [] (start baseLoop threads) where
  length := rfl
  placed := by
    intro i k a h
    simp [accepted, completions] at h
  unborn _ _ := ⟨rfl, rfl⟩

/-- A step that no connection takes. -/
theorem Placed.idle (h : Placed H baseLoop threads es outs s) {e : Event α ε}
    (hevents : ∀ i, eventsOf i [e] = []) (haccepted : accepted (es ++ [e]) = accepted es)
    (hsame : s'.connections = s.connections) :
    Placed H baseLoop threads (es ++ [e]) (outs ++ [none]) s' := by
  have hnone (i : Nat) : outputsOf i [(none : Option (Nat × ω))] = [] := rfl
  constructor
  · rw [haccepted, hsame]
    exact h.length
  · intro i k a hi
    rw [haccepted] at hi
    rw [eventsOf_append, hevents, outputsOf_append, hnone, hsame, List.append_nil,
      List.append_nil]
    exact h.placed i k a hi
  · intro i hi
    rw [hsame] at hi
    rw [eventsOf_append, hevents, outputsOf_append, hnone, List.append_nil, List.append_nil]
    exact h.unborn i hi

/-- A connection is added at the end. -/
theorem Placed.accept (h : Placed H baseLoop threads es outs s) (a : α)
    (hworker : s.worker = loopAt baseLoop threads (completions es).length)
    (hconnections : s'.connections = s.connections ++ [(s.worker, H.create a)]) :
    Placed H baseLoop threads (es ++ [Event.accepted a]) (outs ++ [none]) s' := by
  have haccepted : accepted (es ++ [Event.accepted a]) =
      accepted es ++ [((completions es).length, a)] := accepted_append es _
  have hevents (i : Nat) : eventsOf i (es ++ [Event.accepted a]) = eventsOf i es := by
    rw [eventsOf_append]
    exact List.append_nil _
  have houtputs (i : Nat) : outputsOf i (outs ++ [none]) = outputsOf i outs := by
    rw [outputsOf_append]
    exact List.append_nil _
  constructor
  · rw [haccepted, hconnections, List.length_append, List.length_append, h.length]
    rfl
  · intro i k b hi
    rw [haccepted] at hi
    rw [hevents, houtputs, hconnections]
    rcases Nat.lt_or_ge i (accepted es).length with hlt | hge
    · rw [List.getElem?_append_left hlt] at hi
      obtain ⟨c, hc, hrun⟩ := h.placed i k b hi
      refine ⟨c, ?_, hrun⟩
      rw [List.getElem?_append_left (by rw [h.length]; exact hlt), hc]
    · -- it has just been accepted
      obtain ⟨hnone, hnone'⟩ := h.unborn i (by rw [h.length]; exact hge)
      rw [List.getElem?_append_right hge] at hi
      rw [List.getElem?_append_right (by rw [h.length]; exact hge), h.length, hnone, hnone']
      cases hsub : i - (accepted es).length with
      | zero =>
        rw [hsub] at hi
        cases hi
        exact ⟨H.create a, by rw [hworker]; rfl, rfl⟩
      | succ n =>
        rw [hsub] at hi
        cases hi
  · intro i hi
    rw [hevents, houtputs]
    apply h.unborn i
    rw [hconnections, List.length_append] at hi
    exact Nat.le_trans (Nat.le_add_right _ _) hi

/-- A connection takes a step. -/
theorem Placed.connection (h : Placed H baseLoop threads es outs s) {i : Nat} {e : ε} {loop : β}
    {c next : σ} {o : ω} (hc : s.connections[i]? = some (loop, c))
    (hstep : H.step c e = some (next, o))
    (hconnections : s'.connections = s.connections.set i (loop, next)) :
    Placed H baseLoop threads (es ++ [Event.connection i e]) (outs ++ [some (i, o)]) s' := by
  have haccepted : accepted (es ++ [Event.connection i e]) = accepted es := by
    rw [accepted_append]
    exact List.append_nil _
  have hlt : i < s.connections.length := (List.getElem?_eq_some_iff.mp hc).1
  have hother {j : Nat} (hj : i ≠ j) :
      eventsOf j [Event.connection (α := α) i e] = [] ∧ outputsOf j [some (i, o)] = [] := by
    simp [eventsOf, outputsOf, hj]
  have hown : eventsOf i [Event.connection (α := α) i e] = [e] ∧
      outputsOf i [some (i, o)] = [o] := by
    simp [eventsOf, outputsOf]
  constructor
  · rw [haccepted, hconnections, List.length_set]
    exact h.length
  · intro j k a hj
    rw [haccepted] at hj
    obtain ⟨c', hc', hrun⟩ := h.placed j k a hj
    rw [eventsOf_append, outputsOf_append, hconnections]
    by_cases hij : i = j
    · subst hij
      rw [hc] at hc'
      cases hc'
      rw [hown.1, hown.2, List.getElem?_set_self hlt]
      exact ⟨next, rfl, Mealy.run_concat hrun hstep⟩
    · rw [(hother hij).1, (hother hij).2, List.append_nil, List.append_nil,
        List.getElem?_set_ne hij]
      exact ⟨c', hc', hrun⟩
  · intro j hj
    rw [hconnections, List.length_set] at hj
    have hij : i ≠ j := Nat.ne_of_lt (Nat.lt_of_lt_of_le hlt hj)
    rw [eventsOf_append, outputsOf_append, (hother hij).1, (hother hij).2, List.append_nil,
      List.append_nil]
    exact h.unborn j hj

/-- One case for each event. -/
theorem Placed.step (h : Placed H baseLoop threads es outs s)
    (hnext : Accepting baseLoop threads es s) {e : Event α ε} {o : Option (Nat × ω)}
    (hstep : Stepped H s e s' o) :
    Placed H baseLoop threads (es ++ [e]) (outs ++ [o]) s' ∧
      Accepting baseLoop threads (es ++ [e]) s' := by
  cases hstep with
  | @accepted a haccepting =>
    refine ⟨h.accept a (hnext.worker haccepting) rfl, ?_⟩
    exact Accepting.doAccept (s := { s with
      connections := s.connections ++ [(s.worker, H.create a)] }) ⟨hnext.worker, hnext.pool⟩ rfl
  | acceptFailed =>
    refine ⟨h.idle (fun _ => rfl) ?_ rfl, hnext.doAccept rfl⟩
    rw [accepted_append]
    exact List.append_nil _
  | stop =>
    refine ⟨h.idle (fun _ => rfl) ?_ rfl, hnext.idle rfl rfl rfl nofun⟩
    rw [accepted_append]
    exact List.append_nil _
  | connection hc hmoved =>
    exact ⟨h.connection hc hmoved rfl, hnext.idle rfl rfl rfl fun hopen => ⟨hopen, rfl⟩⟩

variable [DecidableEq β]

theorem placed_of_run
    (hrun : Mealy.run (step H) (start baseLoop threads) es = some (s, outs)) :
    Placed H baseLoop threads es outs s := by
  refine (Mealy.run_induction
    (motive := fun es outs s =>
      Placed H baseLoop threads es outs s ∧ Accepting baseLoop threads es s)
    ⟨placed_start, accepting_start⟩ ?_ hrun).1
  rintro es outs s e s' o - ⟨hplaced, hnext⟩ hstep
  exact hplaced.step hnext (step_eq_some hstep)

/-- The loops of the connections. -/
def loops (s : TcpServer β σ) : List β := s.connections.map Prod.fst

omit [DecidableEq β] in
theorem Placed.loops_eq (h : Placed H baseLoop threads es outs s) :
    s.loops = (accepted es).map fun (k, _) => loopAt baseLoop threads k := by
  refine List.ext_getElem? fun i => ?_
  rw [loops, List.getElem?_map, List.getElem?_map]
  cases hi : (accepted es)[i]? with
  | none =>
    rw [List.getElem?_eq_none_iff, ← h.length, ← List.getElem?_eq_none_iff] at hi
    rw [hi]
    rfl
  | some entry =>
    obtain ⟨k, a⟩ := entry
    obtain ⟨c, hc, -⟩ := h.placed i k a hi
    rw [hc]
    rfl

/-! ## Stopping -/

/-- A connection that adds up its events. -/
def adding : Handlers Nat Nat Nat Nat where
  create a := a
  step c e := some (c + e, c)

/-- Where no accept has failed, the sockets are numbered by their accepts. -/
theorem map_fst_accepted (hfailed : .acceptFailed ∉ es) :
    (accepted es).map Prod.fst = List.range (accepted es).length := by
  have hnumbered (os : List (Option α)) (n : Nat) (hall : ∀ o ∈ os, o ≠ none) :
      ((os.zipIdx n).filterMap fun (o, k) => o.map fun a => (k, a)).map Prod.fst =
        List.range' n os.length := by
    induction os generalizing n with
    | nil => rfl
    | cons o os ih =>
      obtain ⟨a, rfl⟩ := Option.ne_none_iff_exists'.mp (hall o List.mem_cons_self)
      exact congrArg (n :: ·) (ih (n + 1) fun o ho => hall o (List.mem_cons_of_mem _ ho))
  have hall : ∀ o ∈ completions es, o ≠ none := by
    intro o ho hnone
    obtain ⟨e, he, heq⟩ := List.mem_filterMap.mp ho
    cases e with
    | acceptFailed => exact hfailed he
    | accepted a =>
      cases heq
      cases hnone
    | stop => cases heq
    | connection i e => cases heq
  have hlist := hnumbered (completions es) 0 hall
  have hlen : (accepted es).length = (completions es).length := by
    rw [← List.length_map (f := Prod.fst), accepted, hlist, List.length_range']
  rw [hlen, List.range_eq_range']
  exact hlist

omit [DecidableEq β] in
theorem loops_of_placed (h : Placed H baseLoop threads es outs s)
    (hfailed : .acceptFailed ∉ es) :
    s.loops = (List.range s.loops.length).map (loopAt baseLoop threads) := by
  have hlen : s.loops.length = (accepted es).length := by
    rw [loops, List.length_map, h.length]
  rw [hlen, ← map_fst_accepted hfailed, List.map_map]
  exact h.loops_eq

theorem count_range {p : Nat → β} {b : β} (k : Nat) :
    ((List.range k).map p).count b = Nat.count (fun i => p i = b) k := by
  induction k with
  | zero => rfl
  | succ k ih =>
    rw [List.range_succ, List.map_append, List.count_append, ih, Nat.count_succ,
      List.map_singleton, List.count_singleton]
    congr 1
    by_cases h : p k = b
    · simp [h]
    · simp [h]

omit [DecidableEq β] in
/-- The thread of a deal is the one at its place. -/
theorem loopAt_eq_iff (hnodup : threads.Nodup) {j : Nat} (hj : j < threads.length) (k : Nat) :
    loopAt baseLoop threads k = threads[j] ↔ RoundRobin.place threads.length 1000001 k = j := by
  have hplace : RoundRobin.place threads.length 1000001 k < threads.length :=
    RoundRobin.place_lt (Nat.zero_lt_of_lt hj) k
  rw [loopAt, List.getD, List.getElem?_eq_getElem hplace, Option.getD_some]
  exact hnodup.getElem_inj_iff

/-- The loads of the threads. -/
structure Balanced (threads : List β) (s : TcpServer β σ) : Prop where
  /-- A thread gets its part of every 1000001 connections, and its part of the rest. -/
  load_eq : ∀ j, (hj : j < threads.length) → s.loops.count threads[j] =
    s.loops.length / 1000001 * RoundRobin.turns threads.length 1000001 j +
      RoundRobin.turns threads.length (s.loops.length % 1000001) j
  /-- No thread has more than one in front of it, nor much less. -/
  load_le : ∀ i j, (hij : i ≤ j) → (hj : j < threads.length) →
    s.loops.count threads[j] ≤ s.loops.count threads[i] ∧
      s.loops.count threads[i] ≤ s.loops.count threads[j] + (s.loops.length / 1000001 + 1)

/-- As long as no accept fails the loads are balanced: the difference of two threads grows by
at most one with every 1000001 connections. -/
theorem run_balanced (hrun : Mealy.run (step H) (start baseLoop threads) es = some (s, outs))
    (hnodup : threads.Nodup) (hfailed : .acceptFailed ∉ es) : Balanced threads s := by
  have hloops := loops_of_placed (placed_of_run hrun) hfailed
  have hload (j : Nat) (hj : j < threads.length) :
      s.loops.count threads[j] = RoundRobin.share threads.length 1000001 s.loops.length j := by
    rw [hloops, count_range, RoundRobin.share, List.length_map, List.length_range]
    exact RoundRobin.count_congr fun k _ => loopAt_eq_iff hnodup hj k
  constructor
  · intro j hj
    rw [hload j hj]
    exact RoundRobin.share_eq (Nat.zero_lt_of_lt hj) hj (Nat.succ_pos _) _
  · intro i j hij hj
    rw [hload j hj, hload i (Nat.lt_of_le_of_lt hij hj)]
    exact RoundRobin.share_le (Nat.zero_lt_of_lt hj) hij hj (Nat.succ_pos _) _

theorem run_balanced_three : ∃ s outs,
    Mealy.run (step adding) (start 0 [1, 2]) [.accepted 10, .accepted 20, .accepted 30] =
        some (s, outs) ∧ s.loops = [1, 2, 1] ∧ Balanced [1, 2] s := by
  have hrun : Mealy.run (step adding) (start 0 [1, 2])
      [.accepted 10, .accepted 20, .accepted 30] =
      some ({ pool := { baseLoop := 0, loops := [1, 2], next := 4 }, worker := 2,
              accepting := true, connections := [(1, 10), (2, 20), (1, 30)] },
        [none, none, none]) := rfl
  exact ⟨_, _, hrun, rfl, run_balanced hrun (by decide) (by decide)⟩

end Runs

end TcpServer
