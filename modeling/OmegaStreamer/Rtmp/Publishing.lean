-- SUMMARY: The streams that a connection publishes, and those that are removed when it closes.
import OmegaStreamer.Rtmp.Session

/-!
# Publishing

The streams that a connection publishes, over its whole history of commands. Three
fields of the session carry that history, and each of them only knows the last
command that wrote it. The history itself is kept here apart from the session: the
names that the `connect` commands leave (`namesAfter`), and the last `publish` or
`play` (`lastStream`).
-/

open BytesReader BytesWriter

namespace RtmpSession

/-! ## The history of a connection -/

/-- The app and the url after a command. -/
def Command.namesAfter (cmd : Command) (names : Bytes × Bytes) : Bytes × Bytes :=
  if cmd.name = Bytes.ofAscii "connect" then connectNames names cmd.decoder.decodeNext.1
  else names

/-- The role and the stream name of a `publish` or `play`. -/
def Command.stream (cmd : Command) : Option (RtmpRole × Bytes) :=
  if cmd.name = Bytes.ofAscii "publish" then some (.publish, streamNameOf cmd.decoder)
  else if cmd.name = Bytes.ofAscii "play" then some (.player, streamNameOf cmd.decoder)
  else none

theorem Command.stream_publish {cmd : Command} (h : cmd.name = Bytes.ofAscii "publish") :
    cmd.stream = some (.publish, streamNameOf cmd.decoder) :=
  if_pos h

theorem Command.stream_play {cmd : Command} (h : cmd.name = Bytes.ofAscii "play") :
    cmd.stream = some (.player, streamNameOf cmd.decoder) := by
  rw [Command.stream, h, if_neg (by decide), if_pos rfl]

theorem Command.stream_other {cmd : Command} (hpublish : cmd.name ≠ Bytes.ofAscii "publish")
    (hplay : cmd.name ≠ Bytes.ofAscii "play") : cmd.stream = none := by
  rw [Command.stream, if_neg hpublish, if_neg hplay]

theorem Command.stream_connect {cmd : Command} (h : cmd.name = Bytes.ofAscii "connect") :
    cmd.stream = none :=
  Command.stream_other (by rw [h]; decide) (by rw [h]; decide)

theorem Command.stream_createStream {cmd : Command}
    (h : cmd.name = Bytes.ofAscii "createStream") : cmd.stream = none :=
  Command.stream_other (by rw [h]; decide) (by rw [h]; decide)

/-- Only a `connect` changes the names. -/
theorem Command.namesAfter_of_ne {cmd : Command} (h : cmd.name ≠ Bytes.ofAscii "connect")
    (names : Bytes × Bytes) : cmd.namesAfter names = names :=
  if_neg h

/-- The app and the url that messages leave. -/
def namesAfter (msgs : List RtmpMessage) : Bytes × Bytes :=
  (msgs.filterMap commandOf).foldl (fun names cmd => cmd.namesAfter names) ([], [])

def appAfter (msgs : List RtmpMessage) : Bytes := (namesAfter msgs).1

def streamRequest (msg : RtmpMessage) : Option (RtmpRole × Bytes) :=
  (commandOf msg).bind Command.stream

/-- The last `publish` or `play`. -/
def lastStream (msgs : List RtmpMessage) : Option (RtmpRole × Bytes) :=
  (msgs.filterMap streamRequest).getLast?

theorem namesAfter_concat (msgs : List RtmpMessage) (msg : RtmpMessage) :
    namesAfter (msgs ++ [msg]) =
      ((commandOf msg).map fun cmd => cmd.namesAfter (namesAfter msgs)).getD
        (namesAfter msgs) := by
  unfold namesAfter
  rw [List.filterMap_append, List.foldl_append]
  cases h : commandOf msg with
  | none => simp only [List.filterMap_cons, h, List.filterMap_nil, List.foldl_nil,
      Option.map_none, Option.getD_none]
  | some cmd => simp only [List.filterMap_cons, h, List.filterMap_nil, List.foldl_cons,
      List.foldl_nil, Option.map_some, Option.getD_some]

/-- A message that is no `publish` or `play` leaves the last one. -/
theorem lastStream_concat (msgs : List RtmpMessage) (msg : RtmpMessage) :
    lastStream (msgs ++ [msg]) = (streamRequest msg).or (lastStream msgs) := by
  unfold lastStream
  rw [List.filterMap_append]
  cases h : streamRequest msg with
  | none => simp only [List.filterMap_cons, h, List.filterMap_nil, List.append_nil,
      Option.none_or]
  | some r => simp only [List.filterMap_cons, h, List.filterMap_nil, List.getLast?_concat,
      Option.some_or]

/-- A command writes the names of a `connect`, and the role and the stream of a `publish`
or `play`. -/
theorem serve_fields (s : RtmpSession) (cmd : Command) :
    ((s.serve cmd).1.app, (s.serve cmd).1.tcUrl) = cmd.namesAfter (s.app, s.tcUrl) ∧
      ((s.serve cmd).1.role, (s.serve cmd).1.streamName) =
        cmd.stream.getD (s.role, s.streamName) ∧
      (s.serve cmd).1.mediaSource = s.mediaSource := by
  have hserved := serve_served s cmd
  generalize s.serve cmd = out at hserved ⊢
  cases hserved with
  | connect hname =>
    rw [Command.stream_connect hname, Command.namesAfter, if_pos hname]
    exact ⟨rfl, rfl, rfl⟩
  | createStream hname =>
    rw [Command.stream_createStream hname, Command.namesAfter_of_ne (by rw [hname]; decide)]
    exact ⟨rfl, rfl, rfl⟩
  | publish hname =>
    rw [Command.stream_publish hname, Command.namesAfter_of_ne (by rw [hname]; decide)]
    exact ⟨rfl, rfl, rfl⟩
  | play hname =>
    rw [Command.stream_play hname, Command.namesAfter_of_ne (by rw [hname]; decide)]
    exact ⟨rfl, rfl, rfl⟩
  | other hconnect hcreate hpublish hplay =>
    rw [Command.stream_other hpublish hplay, Command.namesAfter_of_ne hconnect]
    exact ⟨rfl, rfl, rfl⟩

/-- The session is the one that the messages lead to. -/
structure History (msgs : List RtmpMessage) (s : RtmpSession) : Prop where
  names : (s.app, s.tcUrl) = namesAfter msgs
  stream : (s.role, s.streamName) = (lastStream msgs).getD (.unknown, [])
  mediaSource : s.mediaSource = none

theorem history_init : History [] {} := ⟨rfl, rfl, rfl⟩

theorem History.app {msgs : List RtmpMessage} {s : RtmpSession} (h : History msgs s) :
    s.app = appAfter msgs :=
  congrArg Prod.fst h.names

theorem History.step {msgs : List RtmpMessage} {s : RtmpSession} (h : History msgs s)
    (msg : RtmpMessage) : History (msgs ++ [msg]) (s.handleMessage msg).1 := by
  cases hcmd : commandOf msg with
  | none =>
    obtain ⟨hsame, -⟩ := handleMessage_quiet s hcmd
    constructor
    · rw [hsame.app, hsame.tcUrl, h.names, namesAfter_concat, hcmd]
      rfl
    · rw [hsame.role, hsame.streamName, h.stream, lastStream_concat, streamRequest, hcmd]
      rfl
    · exact hsame.mediaSource.trans h.mediaSource
  | some cmd =>
    obtain ⟨hnames, hstream, hsource⟩ := serve_fields s cmd
    rw [handleMessage_command s hcmd]
    constructor
    · rw [hnames, h.names, namesAfter_concat, hcmd]
      rfl
    · rw [hstream, h.stream, lastStream_concat, streamRequest, hcmd, Option.bind_some]
      cases cmd.stream <;> rfl
    · exact hsource.trans h.mediaSource

theorem run_concat (s : RtmpSession) (msgs : List RtmpMessage) (msg : RtmpMessage) :
    s.run (msgs ++ [msg]) =
      (((s.run msgs).1.handleMessage msg).1,
        (s.run msgs).2 ++ ((s.run msgs).1.handleMessage msg).2) :=
  Mealy.exec_concat handleMessage s msgs msg

/-- Every run from the start has its history. -/
theorem history_run (msgs : List RtmpMessage) : History msgs (run {} msgs).1 := by
  induction msgs using List.reverseRecOn with
  | nil => exact history_init
  | append_singleton msgs msg ih =>
    rw [run_concat]
    exact ih.step msg

/-! ## Streams that are answered for -/

/-- `NetStream.Publish.Start`. -/
def publishStart (streamId : UInt32) : Effect :=
  .send (sendOnStatus streamId (Bytes.ofAscii "status")
    (Bytes.ofAscii "NetStream.Publish.Start") (Bytes.ofAscii "Start publishing"))

def Answered (effects : List Effect) : Prop := ∃ streamId, publishStart streamId ∈ effects

theorem length_sendOnStatus (streamId : UInt32) (level code description : Bytes) :
    (sendOnStatus streamId level code description).length =
      72 + level.length + code.length + description.length := by
  have hnames : (Bytes.ofAscii "onStatus").length = 8 ∧ (Bytes.ofAscii "level").length = 5 ∧
      (Bytes.ofAscii "code").length = 4 ∧ (Bytes.ofAscii "description").length = 11 := by
    decide
  simp only [sendOnStatus, length_sendChunk, AMF0Encoder.length_encodeObjectEnd,
    AMF0Encoder.length_encodeNamedString, AMF0Encoder.length_encodeObjectStart,
    AMF0Encoder.length_encodeNull, AMF0Encoder.length_encodeNumber,
    AMF0Encoder.length_encodeString, List.length_nil, hnames]
  omega

/-- No other packet is as long as that of `NetStream.Publish.Start`. -/
theorem publishStart_ne {packet : Bytes} (h : packet.length ≠ 117) (streamId : UInt32) :
    publishStart streamId ≠ .send packet := by
  have hlen : (Bytes.ofAscii "status").length = 6 ∧
      (Bytes.ofAscii "NetStream.Publish.Start").length = 23 ∧
      (Bytes.ofAscii "Start publishing").length = 16 := by
    decide
  intro heq
  apply h
  rw [← Effect.send.inj heq, length_sendOnStatus, hlen.1, hlen.2.1, hlen.2.2]

theorem not_answered_of_silent {effects : List Effect} (h : Silent effects) :
    ¬ Answered effects := by
  rintro ⟨streamId, hmem⟩
  have hsent : sendOnStatus streamId (Bytes.ofAscii "status")
      (Bytes.ofAscii "NetStream.Publish.Start") (Bytes.ofAscii "Start publishing") ∈
        sends effects :=
    List.mem_filterMap.mpr ⟨_, hmem, rfl⟩
  rw [h.sends_eq] at hsent
  cases hsent

/-- A command is answered so if and only if it is a `publish`. -/
theorem answered_serve_iff (s : RtmpSession) (cmd : Command) :
    Answered (s.serve cmd).2 ↔ ∃ name, cmd.stream = some (.publish, name) := by
  have hone {packet : Bytes} (hlen : packet.length ≠ 117) : ¬ Answered [.send packet] := by
    rintro ⟨streamId, hmem⟩
    exact publishStart_ne hlen streamId (List.mem_singleton.mp hmem)
  have hserved := serve_served s cmd
  generalize s.serve cmd = out at hserved ⊢
  cases hserved with
  | connect hname =>
    rw [Command.stream_connect hname]
    simp only [reduceCtorEq, exists_const, iff_false]
    apply hone
    simp only [handleConnect, length_sendChunk, AMF0Encoder.length_encodeObjectEnd,
      AMF0Encoder.length_encodeNamedNumber, AMF0Encoder.length_encodeNamedString,
      AMF0Encoder.length_encodeObjectStart, AMF0Encoder.length_encodeNumber,
      AMF0Encoder.length_encodeString]
    decide
  | createStream hname =>
    rw [Command.stream_createStream hname]
    simp only [reduceCtorEq, exists_const, iff_false]
    apply hone
    simp only [length_sendChunk, AMF0Encoder.length_encodeNumber, AMF0Encoder.length_encodeNull,
      AMF0Encoder.length_encodeString]
    decide
  | publish hname =>
    rw [Command.stream_publish hname]
    simp only [Option.some.injEq, Prod.mk.injEq, true_and, exists_eq', iff_true]
    exact ⟨s.streamId, List.mem_cons_of_mem _ (List.mem_singleton.mpr rfl)⟩
  | play hname =>
    rw [Command.stream_play hname]
    simp only [Option.some.injEq, Prod.mk.injEq, reduceCtorEq, false_and, exists_false, iff_false]
    rintro ⟨streamId, hmem⟩
    rcases List.mem_cons.mp hmem with heq | hmem
    · refine publishStart_ne ?_ streamId heq
      simp only [sendUserControlStreamBegin, length_sendChunk, writeUint16BE_eq,
        writeUint32BE_eq, List.length_append, Endian.length_toBE]
      decide
    · refine publishStart_ne ?_ streamId (List.mem_singleton.mp hmem)
      rw [length_sendOnStatus]
      decide
  | other hconnect hcreate hpublish hplay =>
    rw [Command.stream_other hpublish hplay]
    simp only [reduceCtorEq, exists_const, iff_false]
    exact not_answered_of_silent silent_nil

/-- A message is answered so if and only if it is a `publish`. -/
theorem answered_iff (s : RtmpSession) (msg : RtmpMessage) :
    Answered (s.handleMessage msg).2 ↔ ∃ name, streamRequest msg = some (.publish, name) := by
  cases hcmd : commandOf msg with
  | none =>
    obtain ⟨-, hsilent⟩ := handleMessage_quiet s hcmd
    simp only [streamRequest, hcmd, Option.bind_none, reduceCtorEq, exists_const, iff_false]
    exact not_answered_of_silent hsilent
  | some cmd =>
    rw [handleMessage_command s hcmd, streamRequest, hcmd, Option.bind_some]
    exact answered_serve_iff s cmd

/-- The app and the stream are published: a message has been answered so, and they are the
names in force then. -/
def Published (msgs : List RtmpMessage) (stream : Bytes × Bytes) : Prop :=
  ∃ before msg after, msgs = before ++ msg :: after ∧
    Answered ((run {} before).1.handleMessage msg).2 ∧
    stream = ((run {} (before ++ [msg])).1.app, (run {} (before ++ [msg])).1.streamName) ∧
    stream.1 ≠ [] ∧ stream.2 ≠ []

/-- The message at a place is a `publish` of a non-empty stream under a non-empty app. -/
structure PublishAt (before : List RtmpMessage) (msg : RtmpMessage) (app name : Bytes) :
    Prop where
  request : streamRequest msg = some (.publish, name)
  app_eq : app = appAfter before
  app_ne : app ≠ []
  name_ne : name ≠ []

/-- A `publish` leaves the app as it is. -/
theorem appAfter_of_request {msg : RtmpMessage} {r : RtmpRole × Bytes}
    (h : streamRequest msg = some r) (before : List RtmpMessage) :
    appAfter (before ++ [msg]) = appAfter before := by
  rw [appAfter, appAfter, namesAfter_concat]
  cases hcmd : commandOf msg with
  | none => rfl
  | some cmd =>
    rw [streamRequest, hcmd, Option.bind_some] at h
    simp only [Option.map_some, Option.getD_some, Command.namesAfter]
    split
    · rename_i hname
      rw [Command.stream_connect hname] at h
      cases h
    · rfl

/-- The names in force when a `publish` is answered. -/
theorem names_of_request {msg : RtmpMessage} {name : Bytes} (before : List RtmpMessage)
    (h : streamRequest msg = some (.publish, name)) :
    (run {} (before ++ [msg])).1.app = appAfter before ∧
      (run {} (before ++ [msg])).1.streamName = name := by
  have hhistory := history_run (before ++ [msg])
  have hstream := hhistory.stream
  rw [lastStream_concat, h] at hstream
  exact ⟨hhistory.app.trans (appAfter_of_request h before), congrArg Prod.snd hstream⟩

/-- What is published is told by the commands alone. -/
theorem published_iff (msgs : List RtmpMessage) (app name : Bytes) :
    Published msgs (app, name) ↔
      ∃ before msg after, msgs = before ++ msg :: after ∧ PublishAt before msg app name := by
  constructor
  · rintro ⟨before, msg, after, hsplit, hanswered, heq, happ, hname⟩
    obtain ⟨name', hrequest⟩ := (answered_iff _ msg).mp hanswered
    obtain ⟨happ', hname'⟩ := names_of_request before hrequest
    rw [happ', hname'] at heq
    cases heq
    exact ⟨before, msg, after, hsplit, hrequest, rfl, happ, hname⟩
  · rintro ⟨before, msg, after, hsplit, hpublish⟩
    obtain ⟨happ', hname'⟩ := names_of_request before hpublish.request
    refine ⟨before, msg, after, hsplit, (answered_iff _ msg).mpr ⟨name, hpublish.request⟩, ?_,
      hpublish.app_ne, hpublish.name_ne⟩
    rw [happ', hname', hpublish.app_eq]

/-! ## Closing -/

/-- The calls of `Remove` in a run that ends with `onClose`. -/
def removed (msgs : List RtmpMessage) : List (Bytes × Bytes) :=
  removals ((run {} msgs).2 ++ (run {} msgs).1.onClose.2)

theorem removals_serve (s : RtmpSession) (cmd : Command) : removals (s.serve cmd).2 = [] := by
  have hserved := serve_served s cmd
  generalize s.serve cmd = out at hserved ⊢
  cases hserved with
  | connect => rfl
  | createStream => rfl
  | publish => rfl
  | play => rfl
  | other => rfl

/-- Nothing is removed before the end. -/
theorem removals_run (msgs : List RtmpMessage) : removals (run {} msgs).2 = [] := by
  induction msgs using List.reverseRecOn with
  | nil => rfl
  | append_singleton msgs msg ih =>
    rw [run_concat, removals_append, ih, List.nil_append]
    cases hcmd : commandOf msg with
    | none => exact (handleMessage_quiet _ hcmd).2.removals_eq
    | some cmd =>
      rw [handleMessage_command _ hcmd]
      exact removals_serve _ cmd

/-- At the end at most one pair is removed: the app at close, and the stream of the last
command if that is a `publish`. -/
theorem mem_removed_iff (msgs : List RtmpMessage) (app name : Bytes) :
    (app, name) ∈ removed msgs ↔
      lastStream msgs = some (.publish, name) ∧ app = appAfter msgs ∧ app ≠ [] ∧ name ≠ [] := by
  have hhistory := history_run msgs
  have happ := hhistory.app
  have hstream := hhistory.stream
  generalize hs : (run {} msgs).1 = s at happ hstream
  rw [removed, removals_append, removals_run, List.nil_append, hs, onClose]
  cases hlast : lastStream msgs with
  | none =>
    rw [hlast, Option.getD_none] at hstream
    have hrole : s.role = .unknown := congrArg Prod.fst hstream
    simp [hrole, removals]
  | some r =>
    obtain ⟨role, stream⟩ := r
    rw [hlast, Option.getD_some] at hstream
    obtain ⟨hrole, hname⟩ := Prod.mk.inj hstream
    rw [hrole, hname, happ]
    simp only [Option.some.injEq, Prod.mk.injEq]
    by_cases hclose : role = .publish ∧ appAfter msgs ≠ [] ∧ stream ≠ []
    · simp only [if_pos hclose, removals, List.filterMap_cons, List.filterMap_nil,
        List.mem_singleton, Prod.mk.injEq]
      constructor
      · rintro ⟨rfl, rfl⟩
        exact ⟨⟨hclose.1, rfl⟩, rfl, hclose.2⟩
      · rintro ⟨⟨-, rfl⟩, rfl, -⟩
        exact ⟨rfl, rfl⟩
    · simp only [if_neg hclose, removals, List.filterMap_nil, List.not_mem_nil, false_iff]
      rintro ⟨⟨rfl, rfl⟩, rfl, hne⟩
      exact hclose ⟨rfl, hne⟩

/-- The end of a history agrees with every `publish` in it. -/
structure Undisturbed (msgs : List RtmpMessage) : Prop where
  /-- The app and the stream of every `publish` are those of the end. -/
  kept {before : List RtmpMessage} {msg : RtmpMessage} {after : List RtmpMessage}
    {app name : Bytes} : msgs = before ++ msg :: after → PublishAt before msg app name →
    appAfter msgs = app ∧ lastStream msgs = some (.publish, name)
  /-- An end with a stream to remove comes from a `publish`. -/
  known {name : Bytes} : lastStream msgs = some (.publish, name) → appAfter msgs ≠ [] →
    name ≠ [] → ∃ before msg after app name', msgs = before ++ msg :: after ∧
      PublishAt before msg app name'

/-- Closing removes exactly what was published if and only if nothing after a `publish`
has changed its app, its stream or the role. -/
theorem removed_iff (msgs : List RtmpMessage) :
    (∀ stream, stream ∈ removed msgs ↔ Published msgs stream) ↔ Undisturbed msgs := by
  constructor
  · intro h
    constructor
    · intro before msg after app name hsplit hpublish
      have hpublished := (published_iff msgs app name).mpr ⟨before, msg, after, hsplit, hpublish⟩
      obtain ⟨hlast, happ, -⟩ := (mem_removed_iff msgs app name).mp ((h _).mpr hpublished)
      exact ⟨happ.symm, hlast⟩
    · intro name hlast happ hname
      have hmem := (mem_removed_iff msgs _ name).mpr ⟨hlast, rfl, happ, hname⟩
      obtain ⟨before, msg, after, hsplit, hpublish⟩ :=
        (published_iff msgs _ name).mp ((h _).mp hmem)
      exact ⟨before, msg, after, _, name, hsplit, hpublish⟩
  · rintro h ⟨app, name⟩
    rw [mem_removed_iff, published_iff]
    constructor
    · rintro ⟨hlast, rfl, happ, hname⟩
      obtain ⟨before, msg, after, app', name', hsplit, hpublish⟩ := h.known hlast happ hname
      obtain ⟨happ', hlast'⟩ := h.kept hsplit hpublish
      rw [hlast] at hlast'
      cases hlast'
      rw [happ']
      exact ⟨before, msg, after, hsplit, hpublish⟩
    · rintro ⟨before, msg, after, hsplit, hpublish⟩
      obtain ⟨happ, hlast⟩ := h.kept hsplit hpublish
      exact ⟨hlast, happ.symm, hpublish.app_ne, hpublish.name_ne⟩

/-! ### A second stream -/

/-- Two streams are published on one connection. -/
def twoStreams : List RtmpMessage :=
  [connectTo 1 "live", streamCommand "publish" 2 "a", streamCommand "publish" 3 "b"]

/-- The first of them is never removed. -/
theorem removed_wrong :
    ¬ ∀ stream, stream ∈ removed twoStreams ↔ Published twoStreams stream := by
  intro h
  have hpublished : Published twoStreams (Bytes.ofAscii "live", Bytes.ofAscii "a") := by
    refine ⟨[connectTo 1 "live"], streamCommand "publish" 2 "a",
      [streamCommand "publish" 3 "b"], rfl, ⟨0, ?_⟩, ?_, by decide, by decide⟩
    · decide +kernel
    · decide +kernel
  have hremoved : (Bytes.ofAscii "live", Bytes.ofAscii "a") ∉ removed twoStreams := by
    decide +kernel
  exact hremoved ((h _).mpr hpublished)

end RtmpSession
