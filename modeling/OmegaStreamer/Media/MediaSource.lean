-- SUMMARY: A media source: its headers, its cache of packets, its consumers, and what they receive.
import OmegaStreamer.Lib.Mealy
import OmegaStreamer.Lib.Window

/-!
# MediaSource

The container of one published stream, as `MediaSource.cpp` has it. The calls on
it are executed one after another. Each call answers with the deliveries that it
makes, in order: whose `OnPacket` is called, with which packet, and from where.
Of a packet only the keyframe flag is looked at.
-/

/-- A packet, of which `OnVideo` reads `is_keyframe`. -/
class MediaPacket (π : Type) where
  isKeyframe : π → Bool

structure Packet where
  isKeyframe : Bool := false
  payload : List UInt8
  deriving DecidableEq, Repr

instance : MediaPacket Packet := ⟨Packet.isKeyframe⟩

def kMaxGopCacheSize : Nat := 2048

structure MediaSource (κ π : Type) where
  metaData : Option π := none
  videoHeader : Option π := none
  audioHeader : Option π := none
  gopCache : List π := []
  consumers : List κ := []
  deriving DecidableEq, Repr

namespace MediaSource

/-- The statement that calls `OnPacket`. -/
inductive Origin where
  -- `SendGopCache`
  | metaData
  | videoHeader
  | audioHeader
  | cached
  -- `dispatch`
  | live
  deriving DecidableEq, Repr

/-- One call of `OnPacket`. -/
structure Delivery (κ π : Type) where
  consumer : κ
  origin : Origin
  packet : π
  deriving DecidableEq, Repr

inductive Call (κ π : Type) where
  | setMetaData (pkt : π)
  | setVideoHeader (pkt : π)
  | setAudioHeader (pkt : π)
  | onAudio (pkt : π)
  | onVideo (pkt : π)
  | addConsumer (consumer : κ)
  | removeConsumer (consumer : κ)
  deriving DecidableEq, Repr

section Calls

variable {κ π : Type} [DecidableEq κ] [MediaPacket π]

/-- The end of `OnAudio` and `OnVideo`: the packet is stored if there is room. -/
def cachePacket (s : MediaSource κ π) (pkt : π) : MediaSource κ π :=
  if s.gopCache.length < kMaxGopCacheSize then { s with gopCache := s.gopCache ++ [pkt] } else s

def dispatch (s : MediaSource κ π) (pkt : π) : List (Delivery κ π) :=
  s.consumers.map fun consumer => ⟨consumer, .live, pkt⟩

def sendGopCache (s : MediaSource κ π) (consumer : κ) : List (Delivery κ π) :=
  s.metaData.toList.map (⟨consumer, .metaData, ·⟩) ++
    s.videoHeader.toList.map (⟨consumer, .videoHeader, ·⟩) ++
    s.audioHeader.toList.map (⟨consumer, .audioHeader, ·⟩) ++
    s.gopCache.map (⟨consumer, .cached, ·⟩)

def onAudio (s : MediaSource κ π) (pkt : π) : MediaSource κ π × List (Delivery κ π) :=
  let s := s.cachePacket pkt
  (s, s.dispatch pkt)

def onVideo (s : MediaSource κ π) (pkt : π) : MediaSource κ π × List (Delivery κ π) :=
  let s := if MediaPacket.isKeyframe pkt then { s with gopCache := [] } else s
  let s := s.cachePacket pkt
  (s, s.dispatch pkt)

/-- The consumer is not looked for in the list. -/
def addConsumer (s : MediaSource κ π) (consumer : κ) :
    MediaSource κ π × List (Delivery κ π) :=
  ({ s with consumers := s.consumers ++ [consumer] }, s.sendGopCache consumer)

/-- Only the first occurrence is erased. -/
def removeConsumer (s : MediaSource κ π) (consumer : κ) : MediaSource κ π :=
  { s with consumers := s.consumers.erase consumer }

def consumerCount (s : MediaSource κ π) : Nat := s.consumers.length

def call (s : MediaSource κ π) : Call κ π → MediaSource κ π × List (Delivery κ π)
  | .setMetaData pkt => ({ s with metaData := some pkt }, [])
  | .setVideoHeader pkt => ({ s with videoHeader := some pkt }, [])
  | .setAudioHeader pkt => ({ s with audioHeader := some pkt }, [])
  | .onAudio pkt => s.onAudio pkt
  | .onVideo pkt => s.onVideo pkt
  | .addConsumer consumer => s.addConsumer consumer
  | .removeConsumer consumer => (s.removeConsumer consumer, [])

/-- The source after calls, and their deliveries. -/
def run (s : MediaSource κ π) (calls : List (Call κ π)) :
    MediaSource κ π × List (Delivery κ π) :=
  Mealy.exec call s calls

end Calls

/-! ## What is published -/

inductive Track where
  | video
  | audio
  deriving DecidableEq, Repr

/-- A packet with the function that it was passed to. -/
structure Published (π : Type) where
  track : Track
  packet : π
  deriving DecidableEq, Repr

namespace Published

variable {π : Type} [MediaPacket π]

/-- A keyframe that was passed to `OnVideo`. -/
def isKey (x : Published π) : Bool := x.track = .video && MediaPacket.isKeyframe x.packet

end Published

/-- The packets passed to `OnAudio` and `OnVideo`. -/
def published {κ π : Type} (calls : List (Call κ π)) : List (Published π) :=
  calls.filterMap fun
    | .onAudio pkt => some ⟨.audio, pkt⟩
    | .onVideo pkt => some ⟨.video, pkt⟩
    | _ => none

/-- The audio and video packets that a consumer receives, by replay and dispatch. -/
def media {κ π : Type} [DecidableEq κ] (c : κ) (log : List (Delivery κ π)) : List π :=
  (log.filter fun d => d.consumer = c ∧ (d.origin = .cached ∨ d.origin = .live)).map (·.packet)

@[simp] theorem published_append {κ π : Type} (calls calls' : List (Call κ π)) :
    published (calls ++ calls') = published calls ++ published calls' := by
  simp [published]

section Media

variable {κ π : Type} [DecidableEq κ]

@[simp] theorem media_append (c : κ) (log log' : List (Delivery κ π)) :
    media c (log ++ log') = media c log ++ media c log' := by
  simp [media]

/-- What is dispatched comes once for every occurrence of the consumer in the list. -/
theorem media_dispatch (c : κ) (s : MediaSource κ π) (pkt : π) :
    media c (s.dispatch pkt) = List.replicate (s.consumers.count c) pkt := by
  unfold dispatch
  induction s.consumers with
  | nil => rfl
  | cons c' cs ih =>
    have hcons : media c ((c' :: cs).map fun c => (⟨c, .live, pkt⟩ : Delivery κ π)) =
        media c [⟨c', .live, pkt⟩] ++ media c (cs.map fun c => ⟨c, .live, pkt⟩) :=
      media_append c [⟨c', .live, pkt⟩] _
    rw [hcons, ih]
    by_cases h : c' = c
    · subst h
      rw [List.count_cons_self, List.replicate_succ]
      simp [media]
    · rw [List.count_cons_of_ne h]
      simp [media, h]

/-- A replay goes to one consumer. -/
theorem media_sendGopCache_of_ne {c c' : κ} (h : c' ≠ c) (s : MediaSource κ π) :
    media c (s.sendGopCache c') = [] := by
  simp [media, sendGopCache, List.filter_map, Function.comp_def, h]

/-- Of a replay the audio and video packets are those of the cache. -/
theorem media_sendGopCache_self (c : κ) (s : MediaSource κ π) :
    media c (s.sendGopCache c) = s.gopCache := by
  simp [media, sendGopCache, List.filter_map, Function.comp_def]

/-- Storing a packet is a push to a bounded buffer. -/
theorem cachePacket_gopCache {κ π : Type} (s : MediaSource κ π) (pkt : π) :
    (s.cachePacket pkt).gopCache = Window.push kMaxGopCacheSize s.gopCache pkt := by
  unfold cachePacket Window.push
  split <;> rfl

@[simp] theorem cachePacket_consumers {κ π : Type} (s : MediaSource κ π) (pkt : π) :
    (s.cachePacket pkt).consumers = s.consumers := by
  unfold cachePacket
  split <;> rfl

/-- `OnAudio` and `OnVideo` up to the dispatch. -/
def cache {κ π : Type} [MediaPacket π] (s : MediaSource κ π) (x : Published π) :
    MediaSource κ π :=
  let s := if x.isKey then { s with gopCache := [] } else s
  s.cachePacket x.packet

theorem onAudio_eq {κ π : Type} [MediaPacket π] (s : MediaSource κ π) (pkt : π) :
    s.onAudio pkt = (s.cache ⟨.audio, pkt⟩, (s.cache ⟨.audio, pkt⟩).dispatch pkt) := rfl

theorem onVideo_eq {κ π : Type} [MediaPacket π] (s : MediaSource κ π) (pkt : π) :
    s.onVideo pkt = (s.cache ⟨.video, pkt⟩, (s.cache ⟨.video, pkt⟩).dispatch pkt) := rfl

@[simp] theorem cache_consumers {κ π : Type} [MediaPacket π] (s : MediaSource κ π)
    (x : Published π) : (s.cache x).consumers = s.consumers := by
  apply (cachePacket_consumers _ x.packet).trans
  split <;> rfl

/-- The cache keeps step with the window of what has been published. -/
theorem cache_gopCache {κ π : Type} [MediaPacket π] {s : MediaSource κ π}
    {window : List (Published π)}
    (h : s.gopCache = (window.take kMaxGopCacheSize).map (·.packet)) (x : Published π) :
    (s.cache x).gopCache =
      ((Window.slide Published.isKey window x).take kMaxGopCacheSize).map (·.packet) := by
  have hroom : 0 < kMaxGopCacheSize := by decide
  rw [← Window.push_slide hroom, ← Window.push_map]
  apply (cachePacket_gopCache _ x.packet).trans
  split
  · rfl
  · rw [h]

end Media

/-! ## The cache -/

section Run

variable {κ π : Type} [DecidableEq κ] [MediaPacket π]

theorem run_concat (s : MediaSource κ π) (calls : List (Call κ π)) (e : Call κ π) :
    s.run (calls ++ [e]) =
      (((s.run calls).1.call e).1, (s.run calls).2 ++ ((s.run calls).1.call e).2) :=
  Mealy.exec_concat call s calls e

theorem run_cons (s : MediaSource κ π) (e : Call κ π) (calls : List (Call κ π)) :
    s.run (e :: calls) = (((s.call e).1.run calls).1, (s.call e).2 ++ ((s.call e).1.run calls).2) :=
  rfl

/-- The cache holds the beginning of what has been published since the last
keyframe. -/
theorem gopCache_run (calls : List (Call κ π)) :
    (run ({} : MediaSource κ π) calls).1.gopCache =
      ((Window.sinceMark Published.isKey (published calls)).take kMaxGopCacheSize).map
        (·.packet) := by
  induction calls using List.reverseRecOn with
  | nil => rfl
  | append_singleton calls e ih =>
    -- a call that publishes nothing leaves the cache alone
    have hquiet : published [e] = [] →
        ((run ({} : MediaSource κ π) calls).1.call e).1.gopCache =
          (run ({} : MediaSource κ π) calls).1.gopCache →
        (run ({} : MediaSource κ π) (calls ++ [e])).1.gopCache =
          ((Window.sinceMark Published.isKey (published (calls ++ [e]))).take
            kMaxGopCacheSize).map (·.packet) := by
      intro hnone hcache
      rw [run_concat, hcache, ih, published_append, hnone, List.append_nil]
    cases e with
    | onAudio pkt =>
      have hone : published [(.onAudio pkt : Call κ π)] = [⟨.audio, pkt⟩] := rfl
      rw [run_concat, published_append, hone, Window.sinceMark_concat]
      exact cache_gopCache ih ⟨.audio, pkt⟩
    | onVideo pkt =>
      have hone : published [(.onVideo pkt : Call κ π)] = [⟨.video, pkt⟩] := rfl
      rw [run_concat, published_append, hone, Window.sinceMark_concat]
      exact cache_gopCache ih ⟨.video, pkt⟩
    | setMetaData pkt => exact hquiet rfl rfl
    | setVideoHeader pkt => exact hquiet rfl rfl
    | setAudioHeader pkt => exact hquiet rfl rfl
    | addConsumer c => exact hquiet rfl rfl
    | removeConsumer c => exact hquiet rfl rfl

/-! ## A consumer that joins -/

/-- The call neither adds nor removes the consumer. -/
def Call.LeavesAlone (c : κ) (e : Call κ π) : Prop := e ≠ .addConsumer c ∧ e ≠ .removeConsumer c

/-- What a call that leaves the consumer alone delivers to it. -/
theorem media_call {c : κ} {s : MediaSource κ π} {e : Call κ π} (halone : e.LeavesAlone c)
    (hcount : s.consumers.count c = 1) :
    media c (s.call e).2 = (published [e]).map (·.packet) ∧
      (s.call e).1.consumers.count c = 1 := by
  obtain ⟨hadd, hremove⟩ := halone
  cases e with
  | onAudio pkt =>
    have hdispatch := media_dispatch c (s.cache ⟨.audio, pkt⟩) pkt
    rw [cache_consumers, hcount] at hdispatch
    exact ⟨hdispatch, by rw [call, onAudio_eq, cache_consumers, hcount]⟩
  | onVideo pkt =>
    have hdispatch := media_dispatch c (s.cache ⟨.video, pkt⟩) pkt
    rw [cache_consumers, hcount] at hdispatch
    exact ⟨hdispatch, by rw [call, onVideo_eq, cache_consumers, hcount]⟩
  | addConsumer c' =>
    have hne : c' ≠ c := fun h => hadd (by rw [h])
    refine ⟨media_sendGopCache_of_ne hne s, ?_⟩
    rw [call, addConsumer, List.count_append, hcount, List.count_singleton, beq_false_of_ne hne]
    rfl
  | removeConsumer c' =>
    have hne : c ≠ c' := fun h => hremove (by rw [h])
    refine ⟨rfl, ?_⟩
    rw [call, removeConsumer, List.count_erase_of_ne hne, hcount]
  | setMetaData pkt => exact ⟨rfl, hcount⟩
  | setVideoHeader pkt => exact ⟨rfl, hcount⟩
  | setAudioHeader pkt => exact ⟨rfl, hcount⟩

/-- A consumer that is registered once, and left alone, receives what is published. -/
theorem media_run (c : κ) (s : MediaSource κ π) (calls : List (Call κ π))
    (halone : ∀ e ∈ calls, e.LeavesAlone c) (hcount : s.consumers.count c = 1) :
    media c (s.run calls).2 = (published calls).map (·.packet) := by
  induction calls generalizing s with
  | nil => rfl
  | cons e calls ih =>
    have hrest : ∀ e ∈ calls, e.LeavesAlone c := fun e he => halone e (List.mem_cons_of_mem _ he)
    have hsplit : published (e :: calls) = published [e] ++ published calls :=
      published_append [e] calls
    obtain ⟨hmedia, hcount'⟩ := media_call (halone e List.mem_cons_self) hcount
    rw [run_cons, hsplit, List.map_append, media_append, hmedia, ih _ hrest hcount']

/-- A consumer that joins receives the first 2048 of the packets since the last
keyframe, and then everything that is published. -/
theorem media_joined (before after : List (Call κ π)) (c : κ)
    (hnew : c ∉ (run ({} : MediaSource κ π) before).1.consumers)
    (halone : ∀ e ∈ after, e.LeavesAlone c) :
    media c ((run {} before).1.run (.addConsumer c :: after)).2 =
      ((Window.sinceMark Published.isKey (published before)).take kMaxGopCacheSize ++
        published after).map (·.packet) := by
  have hcount : ((run ({} : MediaSource κ π) before).1.addConsumer c).1.consumers.count c = 1 := by
    rw [addConsumer, List.count_append, List.count_eq_zero.mpr hnew]
    simp
  have hreplay := media_sendGopCache_self c (run ({} : MediaSource κ π) before).1
  rw [gopCache_run] at hreplay
  have hlive := media_run c _ after halone hcount
  rw [run_cons, media_append, List.map_append, ← hreplay, ← hlive]
  rfl

/-- At every point of the calls after its join a consumer has received what was published since
the keyframe before the join, without a gap. -/
def GapFree (before : List (Call κ π)) (c : κ) (after : List (Call κ π)) : Prop :=
  ∀ after₁ after₂, after = after₁ ++ after₂ →
    media c ((run {} before).1.run (.addConsumer c :: after₁)).2 =
      (Window.sinceMark Published.isKey (published before) ++ published after₁).map (·.packet)

/-- Another call of `AddConsumer` replays the cache again, which is not empty behind a keyframe. -/
theorem GapFree.not_added {before after : List (Call κ π)} {c : κ} (h : GapFree before c after)
    (hkey : ∃ x ∈ published before, x.isKey) : .addConsumer c ∉ after := by
  intro hmem
  obtain ⟨after₁, after₂, rfl⟩ := List.append_of_mem hmem
  have hbefore := h after₁ (.addConsumer c :: after₂) rfl
  have hafter := h (after₁ ++ [.addConsumer c]) after₂ (by simp)
  -- the calls so far, in one run
  have hrun : ((run {} before).1.run (.addConsumer c :: after₁)).1 =
      (run ({} : MediaSource κ π) (before ++ .addConsumer c :: after₁)).1 := by
    rw [run, run, run, Mealy.exec_append]
  have hcache : ((run {} before).1.run (.addConsumer c :: after₁)).1.gopCache = [] := by
    have hsame : published (after₁ ++ [.addConsumer c]) = published after₁ := by
      rw [published_append]
      exact List.append_nil _
    rw [← List.cons_append, run_concat, media_append, hbefore, hsame] at hafter
    have hnone := List.append_right_eq_self.mp hafter
    rw [call, addConsumer, media_sendGopCache_self] at hnone
    exact hnone
  have hlater : ∃ x ∈ published (before ++ .addConsumer c :: after₁), x.isKey := by
    obtain ⟨x, hx, hmark⟩ := hkey
    refine ⟨x, ?_, hmark⟩
    rw [published_append]
    exact List.mem_append_left _ hx
  obtain ⟨old, key, gop, -, -, -, hwindow⟩ := Window.exists_sinceMark hlater
  rw [hrun, gopCache_run, hwindow] at hcache
  cases hcache

/-- A viewer that joins gets what it should if and only if there is room in the cache for the
packets since the keyframe, and it is not added again. -/
theorem gapFree_iff {before after : List (Call κ π)} {c : κ}
    (hnew : c ∉ (run ({} : MediaSource κ π) before).1.consumers)
    (hkey : ∃ x ∈ published before, x.isKey) (hstays : .removeConsumer c ∉ after) :
    GapFree before c after ↔
      (Window.sinceMark Published.isKey (published before)).length ≤ kMaxGopCacheSize ∧
        .addConsumer c ∉ after := by
  constructor
  · intro h
    refine ⟨?_, h.not_added hkey⟩
    -- the point right after the join
    have hreplay := h [] after rfl
    rw [media_joined before [] c hnew nofun] at hreplay
    have hlength := congrArg List.length hreplay
    simp only [List.length_map, List.length_append, List.length_take] at hlength
    omega
  · rintro ⟨hroom, hadd⟩ after₁ after₂ rfl
    have halone : ∀ e ∈ after₁, e.LeavesAlone c := by
      intro e he
      constructor
      · rintro rfl
        exact hadd (List.mem_append_left _ he)
      · rintro rfl
        exact hstays (List.mem_append_left _ he)
    rw [media_joined before after₁ c hnew halone, List.take_of_length_le hroom]

end Run

/-! ### Two runs -/

def keyframe : Packet := { isKeyframe := true, payload := [0x17] }

def interframe : Packet := { payload := [0x27] }

theorem gapFree_iff_example :
    GapFree ([.onAudio interframe, .onVideo keyframe, .onAudio interframe] :
      List (Call Nat Packet)) 0 [.addConsumer 1, .onVideo interframe] := by
  refine (gapFree_iff ?_ ⟨⟨.video, keyframe⟩, ?_, rfl⟩ ?_).mpr ⟨?_, ?_⟩
  · decide
  · decide
  · decide
  · decide
  · decide

/-- The calls before a consumer joins: a keyframe, and as many packets as there is
room for. -/
def longGop : List (Call Nat Packet) :=
  .onVideo keyframe :: List.replicate kMaxGopCacheSize (.onVideo interframe)

/-- The last packet of a long group is not in the cache; and a consumer that is
added twice gets the cache twice. -/
theorem gapFree_wrong :
    (∃ x ∈ published longGop, x.isKey) ∧ ¬ GapFree longGop 0 [] ∧
      ¬ GapFree ([.onVideo keyframe] : List (Call Nat Packet)) 0 [.addConsumer 0] := by
  have hkey : ∃ x ∈ published longGop, x.isKey := ⟨⟨.video, keyframe⟩, List.mem_cons_self, rfl⟩
  refine ⟨hkey, fun h => ?_, fun h => ?_⟩
  · have hreplay := h [] [] rfl
    have hcache : media 0 ((run {} longGop).1.run [.addConsumer 0]).2 =
        (run {} longGop).1.gopCache := by
      rw [run_cons, media_append]
      exact (List.append_nil _).trans (media_sendGopCache_self 0 _)
    have hpublished : published longGop = [] ++ ⟨.video, keyframe⟩ ::
        List.replicate kMaxGopCacheSize ⟨.video, interframe⟩ := by
      simp [published, longGop]
    have hwindow : Window.sinceMark Published.isKey (published longGop) = ⟨.video, keyframe⟩ ::
        List.replicate kMaxGopCacheSize ⟨.video, interframe⟩ := by
      rw [hpublished]
      refine Window.sinceMark_eq rfl fun x hx => ?_
      rw [List.eq_of_mem_replicate hx]
      decide
    rw [hcache, gopCache_run, hwindow] at hreplay
    have hlength := congrArg List.length hreplay
    simp only [List.length_map, List.length_append, List.length_take, List.length_cons,
      List.length_replicate] at hlength
    omega
  · have hreplay := h [.addConsumer 0] [] rfl
    exact absurd hreplay (by decide)

end MediaSource
