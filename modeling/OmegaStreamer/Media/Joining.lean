-- SUMMARY: Consumers that join while the publisher runs: what they lose, and what they get twice.
import Mathlib.Data.List.Nodup
import OmegaStreamer.Media.MediaSource

/-!
# Joining

The publisher and the consumers of a source run in loops of their own. Only
`dispatch` and the end of `AddConsumer` take the lock, so that `OnAudio`,
`OnVideo` and `AddConsumer` are two steps each, and the steps of one call come
between those of another. What a consumer receives depends on how.
-/

namespace MediaSource

/-- A step of the publisher or of a consumer that joins. -/
inductive JoinEvent (κ π : Type) where
  | setMetaData (pkt : π)
  | setVideoHeader (pkt : π)
  | setAudioHeader (pkt : π)
  /-- `OnAudio` or `OnVideo`, up to the dispatch. -/
  | cache (x : Published π)
  | dispatch
  /-- `AddConsumer`: the call of `SendGopCache`. -/
  | replay (consumer : κ)
  /-- The rest of `AddConsumer`. -/
  | append (consumer : κ)
  deriving DecidableEq, Repr

/-- A source and the calls that are half done. -/
structure Joining (κ π : Type) where
  source : MediaSource κ π := {}
  /-- Cached and not dispatched yet. -/
  pending : Option π := none
  /-- Replayed and not appended yet. -/
  replayed : List κ := []
  deriving DecidableEq, Repr

namespace JoinEvent

variable {κ π : Type}

/-- The packets whose cache step is among the steps. -/
def cached (es : List (JoinEvent κ π)) : List (Published π) :=
  es.filterMap fun
    | .cache x => some x
    | _ => none

/-- The number of dispatch steps. -/
def dispatches (es : List (JoinEvent κ π)) : Nat :=
  es.countP fun
    | .dispatch => true
    | _ => false

@[simp] theorem cached_append (es es' : List (JoinEvent κ π)) :
    cached (es ++ es') = cached es ++ cached es' := by
  simp [cached]

@[simp] theorem dispatches_append (es es' : List (JoinEvent κ π)) :
    dispatches (es ++ es') = dispatches es + dispatches es' := by
  simp [dispatches]

end JoinEvent

open JoinEvent

namespace Joining

variable {κ π : Type} [DecidableEq κ] [MediaPacket π]

/-- The publisher begins a packet when the last one is dispatched, and no
consumer joins twice. -/
def step (s : Joining κ π) : JoinEvent κ π → Option (Joining κ π × List (Delivery κ π))
  | .setMetaData pkt => some ({ s with source := (s.source.call (.setMetaData pkt)).1 }, [])
  | .setVideoHeader pkt => some ({ s with source := (s.source.call (.setVideoHeader pkt)).1 }, [])
  | .setAudioHeader pkt => some ({ s with source := (s.source.call (.setAudioHeader pkt)).1 }, [])
  | .cache x =>
    match s.pending with
    | none => some ({ s with source := s.source.cache x, pending := some x.packet }, [])
    | some _ => none
  | .dispatch =>
    match s.pending with
    | none => none
    | some pkt => some ({ s with pending := none }, s.source.dispatch pkt)
  | .replay c =>
    if c ∈ s.replayed ∨ c ∈ s.source.consumers then none
    else some ({ s with replayed := c :: s.replayed }, s.source.sendGopCache c)
  | .append c =>
    if c ∈ s.replayed then
      some ({ s with
        source := { s.source with consumers := s.source.consumers ++ [c] },
        replayed := s.replayed.erase c }, [])
    else none

/-! ## Calls that nothing comes between -/

/-- The call that publishes a packet. -/
def publish (x : Published π) : Call κ π :=
  match x.track with
  | .audio => .onAudio x.packet
  | .video => .onVideo x.packet

/-- The two steps of `OnAudio` and `OnVideo`, one right after the other. -/
theorem run_publish (s : MediaSource κ π) (x : Published π) :
    Mealy.run step { source := s } [.cache x, .dispatch] =
      some ({ source := (s.call (publish x)).1 }, [[], (s.call (publish x)).2]) := by
  obtain ⟨track, pkt⟩ := x
  cases track <;> rfl

/-- The two steps of `AddConsumer`, one right after the other. -/
theorem run_addConsumer {s : MediaSource κ π} {c : κ} (hnew : c ∉ s.consumers) :
    Mealy.run step { source := s } [.replay c, .append c] =
      some ({ source := (s.addConsumer c).1 }, [(s.addConsumer c).2, []]) := by
  simp [Mealy.run, step, hnew, addConsumer]

/-! ## Who has joined -/

/-- The consumers whose replay has run. -/
def started (s : Joining κ π) : List κ := s.replayed ++ s.source.consumers

section Started

variable {s s' : Joining κ π} {e : JoinEvent κ π} {es : List (JoinEvent κ π)}
  {log : List (Delivery κ π)} {outs : List (List (Delivery κ π))} {c : κ}

/-- What a step does to those who have joined or begun to. -/
theorem step_joined (h : s.step e = some (s', log)) :
    (s'.replayed = s.replayed ∧ s'.source.consumers = s.source.consumers ∧
        (∀ c, e ≠ .replay c) ∧ ∀ c, e ≠ .append c) ∨
      (∃ c, e = .replay c ∧ c ∉ s.started ∧ s'.replayed = c :: s.replayed ∧
        s'.source.consumers = s.source.consumers) ∨
      ∃ c, e = .append c ∧ c ∈ s.replayed ∧ s'.replayed = s.replayed.erase c ∧
        s'.source.consumers = s.source.consumers ++ [c] := by
  cases e with
  | setMetaData pkt => cases h; exact .inl ⟨rfl, rfl, nofun, nofun⟩
  | setVideoHeader pkt => cases h; exact .inl ⟨rfl, rfl, nofun, nofun⟩
  | setAudioHeader pkt => cases h; exact .inl ⟨rfl, rfl, nofun, nofun⟩
  | cache x =>
    simp only [step] at h
    split at h
    · cases h
      exact .inl ⟨rfl, cache_consumers _ _, nofun, nofun⟩
    · cases h
  | dispatch =>
    simp only [step] at h
    split at h
    · cases h
    · cases h
      exact .inl ⟨rfl, rfl, nofun, nofun⟩
  | replay c =>
    simp only [step] at h
    split at h
    · cases h
    · rename_i hnew
      cases h
      exact .inr (.inl ⟨c, rfl, by rwa [started, List.mem_append], rfl, rfl⟩)
  | append c =>
    simp only [step] at h
    split at h
    · rename_i hmem
      cases h
      exact .inr (.inr ⟨c, rfl, hmem, rfl, rfl⟩)
    · cases h

theorem consumers_step (h : s.step e = some (s', log)) (hc : c ∈ s.source.consumers) :
    c ∈ s'.source.consumers := by
  rcases step_joined h with ⟨-, hsame, -, -⟩ | ⟨-, -, -, -, hsame⟩ | ⟨c', -, -, -, hmore⟩
  · rwa [hsame]
  · rwa [hsame]
  · rw [hmore]
    exact List.mem_append_left _ hc

theorem started_step (h : s.step e = some (s', log)) (hc : c ∈ s.started) :
    c ∈ s'.started := by
  unfold started at hc ⊢
  rcases step_joined h with ⟨hr, hsame, -, -⟩ | ⟨c', -, -, hr, hsame⟩ | ⟨c', -, hmem, hr, hmore⟩
  · rwa [hr, hsame]
  · rw [hr, hsame]
    exact List.mem_cons_of_mem _ hc
  · rw [hr, hmore]
    by_cases hcc : c = c'
    · simp [hcc]
    · simp only [List.mem_append, List.mem_erase_of_ne hcc, List.mem_singleton] at hc ⊢
      tauto

/-- No consumer is there twice. -/
theorem nodup_step (h : s.step e = some (s', log)) (hs : s.started.Nodup) :
    s'.started.Nodup := by
  unfold started at hs ⊢
  rcases step_joined h with ⟨hr, hsame, -, -⟩ | ⟨c', -, hnew, hr, hsame⟩ | ⟨c', -, hmem, hr, hmore⟩
  · rwa [hr, hsame]
  · rw [hr, hsame]
    exact List.nodup_cons.mpr ⟨hnew, hs⟩
  · have hperm : (s.replayed.erase c' ++ (s.source.consumers ++ [c'])).Perm
        (s.replayed ++ s.source.consumers) := by
      have hfront := (List.perm_cons_erase hmem).symm.append_right s.source.consumers
      rw [← List.append_assoc]
      exact (List.perm_append_singleton _ _).trans hfront
    rw [hr, hmore]
    exact hperm.nodup_iff.mpr hs

theorem nodup_run (h : Mealy.run step s es = some (s', outs)) (hs : s.started.Nodup) :
    s'.started.Nodup :=
  Mealy.run_invariant (fun t : Joining κ π => t.started.Nodup) hs
    (fun _ _ _ _ ht hstep => nodup_step hstep ht) h

theorem consumers_run (h : Mealy.run step s es = some (s', outs))
    (hc : c ∈ s.source.consumers) : c ∈ s'.source.consumers :=
  Mealy.run_invariant (fun t : Joining κ π => c ∈ t.source.consumers) hc
    (fun _ _ _ _ ht hstep => consumers_step hstep ht) h

theorem started_run (h : Mealy.run step s es = some (s', outs)) (hc : c ∈ s.started) :
    c ∈ s'.started :=
  Mealy.run_invariant (fun t : Joining κ π => c ∈ t.started) hc
    (fun _ _ _ _ ht hstep => started_step hstep ht) h

/-- A consumer does not begin to join twice. -/
theorem replay_notMem_of_started (h : Mealy.run step s es = some (s', outs))
    (hc : c ∈ s.started) : .replay c ∉ es := by
  induction es generalizing s outs with
  | nil => exact List.not_mem_nil
  | cons e es ih =>
    obtain ⟨t, log, outs', hstep, hrun, -⟩ := Mealy.run_cons_eq_some h
    rw [List.mem_cons, not_or]
    refine ⟨?_, ih hrun (started_step hstep hc)⟩
    rintro rfl
    simp only [step] at hstep
    split at hstep
    · cases hstep
    · rename_i hnew
      exact hnew (List.mem_append.mp hc)

theorem replay_notMem_of_not_started (h : Mealy.run step s es = some (s', outs))
    (hc : c ∉ s'.started) : .replay c ∉ es := by
  intro hmem
  obtain ⟨es₁, es₂, rfl⟩ := List.append_of_mem hmem
  obtain ⟨t, outs₁, outs₂, -, hrest, -⟩ := Mealy.run_append_eq_some h
  obtain ⟨t', log, outs', hstep, hrun, -⟩ := Mealy.run_cons_eq_some hrest
  have hin : c ∈ t'.started := by
    simp only [step] at hstep
    split at hstep
    · cases hstep
    · cases hstep
      exact List.mem_cons_self
  exact hc (started_run hrun hin)

end Started

/-! ## What is received -/

section Packets

variable {s s' : Joining κ π} {e : JoinEvent κ π} {es : List (JoinEvent κ π)}
  {log : List (Delivery κ π)} {outs : List (List (Delivery κ π))} {c : κ}

/-- What a step does to the packets. -/
theorem step_packets (h : s.step e = some (s', log)) :
    (s'.pending = s.pending ∧ cached [e] = [] ∧ dispatches [e] = 0 ∧
        s'.source.gopCache = s.source.gopCache ∧
        (log = [] ∨ ∃ c, e = .replay c ∧ log = s.source.sendGopCache c)) ∨
      (∃ x, e = .cache x ∧ s.pending = none ∧ s'.pending = some x.packet ∧
        s'.source = s.source.cache x ∧ log = []) ∨
      ∃ pkt, e = .dispatch ∧ s.pending = some pkt ∧ s'.pending = none ∧ s'.source = s.source ∧
        log = s.source.dispatch pkt := by
  cases e with
  | setMetaData pkt => cases h; exact .inl ⟨rfl, rfl, rfl, rfl, .inl rfl⟩
  | setVideoHeader pkt => cases h; exact .inl ⟨rfl, rfl, rfl, rfl, .inl rfl⟩
  | setAudioHeader pkt => cases h; exact .inl ⟨rfl, rfl, rfl, rfl, .inl rfl⟩
  | cache x =>
    simp only [step] at h
    split at h
    · rename_i hnone
      cases h
      exact .inr (.inl ⟨x, rfl, hnone, rfl, rfl, rfl⟩)
    · cases h
  | dispatch =>
    simp only [step] at h
    split at h
    · cases h
    · rename_i pkt hsome
      cases h
      exact .inr (.inr ⟨pkt, rfl, hsome, rfl, rfl, rfl⟩)
  | replay c =>
    simp only [step] at h
    split at h
    · cases h
    · cases h
      exact .inl ⟨rfl, rfl, rfl, rfl, .inr ⟨c, rfl, rfl⟩⟩
  | append c =>
    simp only [step] at h
    split at h
    · cases h
      exact .inl ⟨rfl, rfl, rfl, rfl, .inl rfl⟩
    · cases h

/-- The cache holds the beginning of the window of the packets cached. -/
theorem gopCache_run (h : Mealy.run step ({} : Joining κ π) es = some (s, outs)) :
    s.source.gopCache =
      ((Window.sinceMark Published.isKey (cached es)).take kMaxGopCacheSize).map
        (·.packet) := by
  refine Mealy.run_induction
    (motive := fun es _ (s : Joining κ π) => s.source.gopCache =
      ((Window.sinceMark Published.isKey (cached es)).take kMaxGopCacheSize).map (·.packet))
    rfl ?_ h
  intro es outs t e t' log _ ih hstep
  rw [cached_append]
  rcases step_packets hstep with ⟨-, hnone, -, hsame, -⟩ | ⟨x, rfl, -, -, hx, -⟩ |
    ⟨pkt, rfl, -, -, hsame, -⟩
  · rw [hnone, List.append_nil, hsame]
    exact ih
  · have hone : cached [(.cache x : JoinEvent κ π)] = [x] := rfl
    rw [hone, Window.sinceMark_concat, hx]
    exact cache_gopCache ih x
  · have hnone : cached [(.dispatch : JoinEvent κ π)] = [] := rfl
    rw [hnone, List.append_nil, hsame]
    exact ih

/-- What is cached is dispatched, but for the packet that is pending. -/
theorem length_cached (h : Mealy.run step s es = some (s', outs)) :
    s.pending.toList.length + (cached es).length =
      dispatches es + s'.pending.toList.length := by
  refine Mealy.run_induction
    (motive := fun es _ (t : Joining κ π) =>
      s.pending.toList.length + (cached es).length =
        dispatches es + t.pending.toList.length) (Nat.add_comm _ 0) ?_ h
  intro es outs t e t' log _ ih hstep
  rw [cached_append, dispatches_append, List.length_append, ← Nat.add_assoc, ih]
  rcases step_packets hstep with ⟨hsame, hnone, hzero, -, -⟩ | ⟨x, rfl, hnone, hsome, -, -⟩ |
    ⟨pkt, rfl, hsome, hnone, -, -⟩
  · rw [hnone, hzero, hsame]
    rfl
  · rw [hnone, hsome]
    rfl
  · rw [hnone, hsome]
    rfl

/-- A pending packet is the last one cached. -/
theorem pending_suffix (h : Mealy.run step s es = some (s', outs)) :
    s'.pending.toList <:+ s.pending.toList ++ (cached es).map (·.packet) := by
  refine Mealy.run_induction
    (motive := fun es _ (t : Joining κ π) =>
      t.pending.toList <:+ s.pending.toList ++ (cached es).map (·.packet)) ?_ ?_ h
  · have hnil : cached ([] : List (JoinEvent κ π)) = [] := rfl
    simp only [hnil, List.map_nil, List.append_nil, List.suffix_refl]
  intro es outs t e t' log _ ih hstep
  rcases step_packets hstep with ⟨hsame, hnone, -, -, -⟩ | ⟨x, rfl, hnone, hsome, -, -⟩ |
    ⟨pkt, rfl, hsome, hnone, -, -⟩
  · rw [cached_append, hnone, List.append_nil, hsame]
    exact ih
  · have hone : cached [(.cache x : JoinEvent κ π)] = [x] := rfl
    rw [cached_append, hone, List.map_append, ← List.append_assoc, hsome]
    exact List.suffix_append _ _
  · rw [hnone]
    exact List.nil_suffix

/-- A consumer that has joined receives what is dispatched. -/
theorem media_step (h : s.step e = some (s', log)) (hs : s.started.Nodup)
    (hc : c ∈ s.source.consumers) :
    media c log ++ s'.pending.toList = s.pending.toList ++ (cached [e]).map (·.packet) := by
  rcases step_packets h with ⟨hsame, hnone, -, -, hlog⟩ | ⟨x, rfl, hnone, hsome, -, rfl⟩ |
    ⟨pkt, rfl, hsome, hnone, -, rfl⟩
  · rw [hnone, hsame, List.map_nil, List.append_nil]
    rcases hlog with rfl | ⟨c', rfl, rfl⟩
    · rfl
    · have hne : c' ≠ c := by
        rintro rfl
        have hrun : Mealy.run step s [.replay c'] = some (s', [s.source.sendGopCache c']) :=
          Mealy.run_cons_of_step h rfl
        exact replay_notMem_of_started hrun (List.mem_append_right _ hc) List.mem_cons_self
      rw [media_sendGopCache_of_ne hne, List.nil_append]
  · rw [hnone, hsome]
    rfl
  · have hcount : s.source.consumers.count c = 1 :=
      List.count_eq_one_of_mem (List.nodup_append.mp hs).2.1 hc
    rw [media_dispatch, hcount, hsome, hnone]
    rfl

theorem media_run_joined (h : Mealy.run step s es = some (s', outs)) (hs : s.started.Nodup)
    (hc : c ∈ s.source.consumers) :
    media c outs.flatten ++ s'.pending.toList =
      s.pending.toList ++ (cached es).map (·.packet) := by
  induction es generalizing s outs with
  | nil =>
    cases h
    exact (List.append_nil _).symm
  | cons e es ih =>
    obtain ⟨t, log, outs', hstep, hrun, rfl⟩ := Mealy.run_cons_eq_some h
    have hrest := ih hrun (nodup_step hstep hs) (consumers_step hstep hc)
    have hsplit : cached (e :: es) = cached [e] ++ cached es := cached_append [e] es
    rw [List.flatten_cons, media_append, List.append_assoc, hrest, ← List.append_assoc,
      media_step hstep hs hc, hsplit, List.map_append, List.append_assoc]

/-- A consumer that has not joined receives nothing, but for its replay. -/
theorem media_run_not_joined (h : Mealy.run step s es = some (s', outs))
    (hc : c ∉ s'.source.consumers) (hreplay : .replay c ∉ es) : media c outs.flatten = [] := by
  induction es generalizing s outs with
  | nil =>
    cases h
    rfl
  | cons e es ih =>
    obtain ⟨t, log, outs', hstep, hrun, rfl⟩ := Mealy.run_cons_eq_some h
    obtain ⟨hne, hrest⟩ := not_or.mp (fun hor => hreplay (List.mem_cons.mpr hor))
    rw [List.flatten_cons, media_append, ih hrun hrest, List.append_nil]
    rcases step_packets hstep with ⟨-, -, -, -, hlog⟩ | ⟨x, -, -, -, -, rfl⟩ |
      ⟨pkt, rfl, -, -, -, rfl⟩
    · rcases hlog with rfl | ⟨c', rfl, rfl⟩
      · rfl
      · exact media_sendGopCache_of_ne (fun heq => hne (by rw [heq])) _
    · rfl
    · have hnot : c ∉ s.source.consumers :=
        fun hmem => hc (consumers_run hrun (consumers_step hstep hmem))
      rw [media_dispatch, List.count_eq_zero.mpr hnot]
      rfl

end Packets

/-! ## A run in which a consumer joins -/

/-- There are never more than 2048 packets from one keyframe to the next. -/
def ShortGops (history : List (Published π)) : Prop :=
  ∀ old key gop rest, history = old ++ key :: (gop ++ rest) → key.isKey →
    (∀ x ∈ gop, ¬ x.isKey) → (key :: gop).length ≤ kMaxGopCacheSize

omit [DecidableEq κ] in
theorem shortGops_of_length_le {history : List (Published π)}
    (h : history.length ≤ kMaxGopCacheSize) : ShortGops history := by
  intro old key gop rest hsplit _ _
  have hlength := congrArg List.length hsplit
  simp only [List.length_append, List.length_cons] at hlength ⊢
  omega

/-- A keyframe is cached before the first replay. -/
def KeyBeforeJoins (es : List (JoinEvent κ π)) : Prop :=
  ∀ es₁ c es₂, es = es₁ ++ .replay c :: es₂ → ∃ x ∈ cached es₁, x.isKey

/-- The consumer has received the packets since the last keyframe cached before
its replay. -/
def Received (es : List (JoinEvent κ π)) (log : List (Delivery κ π)) (c : κ) : Prop :=
  ∀ es₁ es₂, es = es₁ ++ .replay c :: es₂ →
    media c log = (Window.sinceMark Published.isKey (cached es₁) ++ cached es₂).map (·.packet)

/-- When a consumer is appended as many packets have been dispatched as were
cached when it was replayed to. -/
def InStep (es : List (JoinEvent κ π)) : Prop :=
  ∀ es₁ c es₂ es₃, es = es₁ ++ .replay c :: (es₂ ++ .append c :: es₃) →
    (cached es₁).length = dispatches (es₁ ++ es₂)

section Runs

variable {s s' : Joining κ π} {es es₁ es₂ es₃ : List (JoinEvent κ π)}
  {outs : List (List (Delivery κ π))} {c : κ}

/-- The replay holds every packet of the window. -/
theorem gopCache_window (h : Mealy.run step ({} : Joining κ π) es = some (s, outs))
    (hshort : ShortGops (cached es)) (hkey : ∃ x ∈ cached es, x.isKey) :
    s.source.gopCache =
      (Window.sinceMark Published.isKey (cached es)).map (·.packet) := by
  obtain ⟨old, key, gop, hsplit, hmark, hgop, hwindow⟩ := Window.exists_sinceMark hkey
  have hlength : (key :: gop).length ≤ kMaxGopCacheSize :=
    hshort old key gop [] (by rw [List.append_nil]; exact hsplit) hmark hgop
  rw [gopCache_run h, hwindow, List.take_of_length_le hlength]

/-- What a consumer that has joined has received: the window at its replay, what
was pending when it was appended, and what has been cached since. -/
theorem media_join
    (h : Mealy.run step ({} : Joining κ π) (es₁ ++ .replay c :: (es₂ ++ .append c :: es₃)) =
      some (s, outs))
    (hpending : s.pending = none) (hshort : ShortGops (cached es₁))
    (hkey : ∃ x ∈ cached es₁, x.isKey) :
    ∃ t₁ t₂ outs₁ outs₂, Mealy.run step ({} : Joining κ π) es₁ = some (t₁, outs₁) ∧
      Mealy.run step { t₁ with replayed := c :: t₁.replayed } es₂ = some (t₂, outs₂) ∧
      media c outs.flatten =
        (Window.sinceMark Published.isKey (cached es₁)).map (·.packet) ++
          (t₂.pending.toList ++ (cached es₃).map (·.packet)) := by
  obtain ⟨t₁, outs₁, outs', hrun₁, hrest₁, rfl⟩ := Mealy.run_append_eq_some h
  obtain ⟨u₁, log, outs'', hreplay, hrest₂, rfl⟩ := Mealy.run_cons_eq_some hrest₁
  obtain ⟨t₂, outs₂, outs', hrun₂, hrest₃, rfl⟩ := Mealy.run_append_eq_some hrest₂
  obtain ⟨u₂, log', outs₃, happend, hrun₃, rfl⟩ := Mealy.run_cons_eq_some hrest₃
  simp only [step] at hreplay happend
  split at hreplay
  · cases hreplay
  rename_i hnew
  split at happend
  swap
  · cases happend
  rename_i hmem
  cases hreplay
  cases happend
  have hnot : c ∉ t₁.started := by rwa [started, List.mem_append]
  have hnodup : t₁.started.Nodup := nodup_run hrun₁ List.nodup_nil
  have hnodup' : t₂.started.Nodup := nodup_run hrun₂ (List.nodup_cons.mpr ⟨hnot, hnodup⟩)
  have hnot' : c ∉ t₂.source.consumers :=
    fun hin => (List.nodup_append.mp hnodup').2.2 c hmem c hin rfl
  have hbefore : media c outs₁.flatten = [] :=
    media_run_not_joined hrun₁ (fun hin => hnew (.inr hin))
      (replay_notMem_of_not_started hrun₁ hnot)
  have hbetween : media c outs₂.flatten = [] :=
    media_run_not_joined hrun₂ hnot' (replay_notMem_of_started hrun₂ List.mem_cons_self)
  have happended : t₂.step (.append c) = some (_, []) := if_pos hmem
  have hafter := media_run_joined (c := c) hrun₃ (nodup_step happended hnodup')
    (List.mem_append_right _ List.mem_cons_self)
  rw [hpending, Option.toList_none, List.append_nil] at hafter
  refine ⟨t₁, t₂, outs₁, outs₂, hrun₁, hrun₂, ?_⟩
  rw [List.flatten_append, List.flatten_cons, List.flatten_append, List.flatten_cons,
    media_append, media_append, media_append, hbefore, hbetween, List.nil_append,
    List.nil_append, List.nil_append, media_sendGopCache_self, hafter,
    gopCache_window hrun₁ hshort hkey]

omit [DecidableEq κ] in
theorem ShortGops.of_append {history history' : List (Published π)}
    (h : ShortGops (history ++ history')) : ShortGops history := by
  intro old key gop rest hsplit hmark hgop
  exact h old key gop (rest ++ history') (by rw [hsplit]; simp) hmark hgop

/-- A consumer is appended only by its own step. -/
theorem append_mem (h : Mealy.run step s es = some (s', outs)) (hc : c ∉ s.source.consumers)
    (hc' : c ∈ s'.source.consumers) : .append c ∈ es := by
  induction es generalizing s outs with
  | nil =>
    cases h
    exact absurd hc' hc
  | cons e es ih =>
    obtain ⟨t, log, outs', hstep, hrun, -⟩ := Mealy.run_cons_eq_some h
    by_cases he : e = .append c
    · rw [he]
      exact List.mem_cons_self
    · apply List.mem_cons_of_mem
      apply ih hrun
      rcases step_joined hstep with ⟨-, hsame, -, -⟩ | ⟨-, -, -, -, hsame⟩ |
        ⟨c', rfl, -, -, hmore⟩
      · rwa [hsame]
      · rwa [hsame]
      · have hne : c ≠ c' := fun heq => he (by rw [heq])
        rw [hmore, List.mem_append, List.mem_singleton]
        exact not_or.mpr ⟨hc, hne⟩

/-- A consumer receives what it should if and only if nothing is cached and no
packet of its window is left to dispatch between its two steps. -/
theorem media_join_iff
    (h : Mealy.run step ({} : Joining κ π) (es₁ ++ .replay c :: (es₂ ++ .append c :: es₃)) =
      some (s, outs))
    (hpending : s.pending = none) (hshort : ShortGops (cached es₁))
    (hkey : ∃ x ∈ cached es₁, x.isKey) :
    media c outs.flatten =
        (Window.sinceMark Published.isKey (cached es₁) ++
          cached (es₂ ++ .append c :: es₃)).map (·.packet) ↔
      (cached es₁).length = dispatches (es₁ ++ es₂) := by
  obtain ⟨t₁, t₂, outs₁, outs₂, hrun₁, hrun₂, hmedia⟩ := media_join h hpending hshort hkey
  have hpend := pending_suffix hrun₂
  have hcount : (cached es₁).length + (cached es₂).length =
      dispatches (es₁ ++ es₂) + t₂.pending.toList.length := by
    have h₁ := length_cached hrun₁
    have h₂ := length_cached hrun₂
    simp only [Option.toList_none, List.length_nil] at h₁ h₂
    rw [dispatches_append]
    omega
  have hnone : cached (es₂ ++ .append c :: es₃) = cached es₂ ++ cached es₃ := by
    rw [cached_append]
    rfl
  rw [hmedia, hnone, List.map_append, List.map_append, List.append_cancel_left_eq,
    List.append_cancel_right_eq]
  constructor
  · intro heq
    have hlength := congrArg List.length heq
    rw [List.length_map] at hlength
    omega
  · intro heq
    -- both end what has been cached, and they are equally long
    have hsuffix := List.suffix_append t₁.pending.toList ((cached es₂).map (·.packet))
    have hlength : t₂.pending.toList.length = ((cached es₂).map (·.packet)).length := by
      rw [List.length_map]
      omega
    exact (List.suffix_of_suffix_length_le hpend hsuffix (Nat.le_of_eq hlength)).eq_of_length hlength

/-- Every consumer that has joined receives what it should if and only if every
join is in step with the publisher. -/
theorem received_iff (h : Mealy.run step ({} : Joining κ π) es = some (s, outs))
    (hpending : s.pending = none) (hshort : ShortGops (cached es)) (hkey : KeyBeforeJoins es) :
    (∀ c ∈ s.source.consumers, Received es outs.flatten c) ↔ InStep es := by
  constructor
  · rintro hreceived es₁ c es₂ es₃ rfl
    have hshort₁ : ShortGops (cached es₁) := by
      rw [cached_append] at hshort
      exact hshort.of_append
    have hin : c ∈ s.source.consumers := by
      rw [← List.cons_append, ← List.append_assoc] at h
      obtain ⟨t, outs₁, outs₂, -, hrest, -⟩ := Mealy.run_append_eq_some h
      obtain ⟨u, log, outs', happend, hrun, -⟩ := Mealy.run_cons_eq_some hrest
      refine consumers_run hrun ?_
      simp only [step] at happend
      split at happend
      · cases happend
        exact List.mem_append_right _ List.mem_cons_self
      · cases happend
    exact (media_join_iff h hpending hshort₁ (hkey _ _ _ rfl)).mp (hreceived c hin _ _ rfl)
  · rintro hstep c hc es₁ es' rfl
    have hshort₁ : ShortGops (cached es₁) := by
      rw [cached_append] at hshort
      exact hshort.of_append
    have happend : .append c ∈ es' := by
      obtain ⟨t, outs₁, outs₂, -, hrest, -⟩ := Mealy.run_append_eq_some h
      obtain ⟨u, log, outs', hreplay, hrun, -⟩ := Mealy.run_cons_eq_some hrest
      refine append_mem hrun ?_ hc
      simp only [step] at hreplay
      split at hreplay
      · cases hreplay
      · rename_i hnew
        cases hreplay
        exact fun hin => hnew (.inr hin)
    obtain ⟨es₂, es₃, rfl⟩ := List.append_of_mem happend
    exact (media_join_iff h hpending hshort₁ (hkey _ _ _ rfl)).mpr (hstep _ _ _ _ rfl)

end Runs

/-! ### Three runs -/

omit [DecidableEq κ] in
theorem keyBeforeJoins_cons {x : Published π} (hx : x.isKey) (es : List (JoinEvent κ π)) :
    KeyBeforeJoins (.cache x :: es) := by
  intro es₁ c es₂ hsplit
  cases es₁ with
  | nil => cases hsplit
  | cons e es₁ =>
    obtain ⟨rfl, -⟩ := List.cons.inj hsplit
    exact ⟨x, List.mem_cons_self, hx⟩

/-- The publisher waits. -/
theorem received_iff_example :
    (∀ c ∈ [0], Received (π := Packet)
        [.cache ⟨.video, keyframe⟩, .dispatch, .replay 0, .append 0,
          .cache ⟨.video, interframe⟩, .dispatch]
        [⟨0, .cached, keyframe⟩, ⟨0, .live, interframe⟩] c) ↔
      InStep [.cache ⟨.video, keyframe⟩, .dispatch, .replay 0, .append 0,
          .cache ⟨.video, interframe⟩, .dispatch] := by
  have hrun : Mealy.run step ({} : Joining Nat Packet)
      [.cache ⟨.video, keyframe⟩, .dispatch, .replay 0, .append 0,
        .cache ⟨.video, interframe⟩, .dispatch] =
      some ({ source := { gopCache := [keyframe, interframe], consumers := [0] } },
        [[], [], [⟨0, .cached, keyframe⟩], [], [], [⟨0, .live, interframe⟩]]) := by decide
  exact received_iff hrun rfl (shortGops_of_length_le (by decide))
    (keyBeforeJoins_cons (by decide) _)

/-- A packet comes between the steps of a consumer that joins. -/
def lostPacket : List (JoinEvent Nat Packet) :=
  [.cache ⟨.video, keyframe⟩, .dispatch, .replay 0, .cache ⟨.video, interframe⟩, .dispatch,
    .append 0]

/-- A consumer joins between the steps of a packet. -/
def doubledPacket : List (JoinEvent Nat Packet) :=
  [.cache ⟨.video, keyframe⟩, .replay 0, .append 0, .dispatch]

/-- The first consumer misses a packet and the second one gets one twice. -/
theorem received_wrong :
    ShortGops (cached lostPacket) ∧ KeyBeforeJoins lostPacket ∧
      (∃ s outs, Mealy.run step {} lostPacket = some (s, outs) ∧ s.pending = none ∧
        s.replayed = [] ∧ 0 ∈ s.source.consumers ∧ media 0 outs.flatten = [keyframe] ∧
        ¬ Received lostPacket outs.flatten 0) ∧
    ShortGops (cached doubledPacket) ∧ KeyBeforeJoins doubledPacket ∧
      ∃ s outs, Mealy.run step {} doubledPacket = some (s, outs) ∧ s.pending = none ∧
        s.replayed = [] ∧ 0 ∈ s.source.consumers ∧
        media 0 outs.flatten = [keyframe, keyframe] ∧
        ¬ Received doubledPacket outs.flatten 0 := by
  refine ⟨shortGops_of_length_le (by decide), keyBeforeJoins_cons (by decide) _,
    ⟨{ source := { gopCache := [keyframe, interframe], consumers := [0] } },
      [[], [], [⟨0, .cached, keyframe⟩], [], [], []], by decide, rfl, rfl, by decide,
      by decide, fun h => ?_⟩,
    shortGops_of_length_le (by decide), keyBeforeJoins_cons (by decide) _,
    ⟨{ source := { gopCache := [keyframe], consumers := [0] } },
      [[], [⟨0, .cached, keyframe⟩], [], [⟨0, .live, keyframe⟩]], by decide, rfl, rfl, by decide,
      by decide, fun h => ?_⟩⟩
  · have hwant := h [.cache ⟨.video, keyframe⟩, .dispatch] _ rfl
    exact absurd hwant (by decide)
  · have hwant := h [.cache ⟨.video, keyframe⟩] _ rfl
    exact absurd hwant (by decide)

end Joining

end MediaSource
