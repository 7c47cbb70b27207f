-- SUMMARY: Decoder configuration: when every consumer has the header that a packet was published under.
import Mathlib.Data.List.DropRight
import OmegaStreamer.Lib.Trace
import OmegaStreamer.Media.MediaSource

/-!
# Headers

A header is stored by the source and given to a consumer when it joins, never
later. To say under which header a packet was published, the packets of a run are
stamped with it; the stamps change nothing else. A consumer has the right header
before each packet if and only if no header changes while a consumer is
registered or a packet of the old header is in the cache that is replayed.
-/

namespace MediaSource

variable {κ π : Type}

/-! ## Headers in force -/

/-- The header of the track that the call sets. -/
def headerSet : Track → Call κ π → Option π
  | .video, .setVideoHeader pkt => some pkt
  | .audio, .setAudioHeader pkt => some pkt
  | _, _ => none

/-- The header of the track that is in force after calls. -/
def inForce (t : Track) (calls : List (Call κ π)) : Option π :=
  calls.foldl (fun header e => (headerSet t e).or header) none

theorem inForce_concat (t : Track) (calls : List (Call κ π)) (e : Call κ π) :
    inForce t (calls ++ [e]) = (headerSet t e).or (inForce t calls) := by
  simp [inForce]

/-- No call takes a header away. -/
theorem inForce_eq_none_of_append {t : Track} {calls calls' : List (Call κ π)}
    (h : inForce t (calls ++ calls') = none) : inForce t calls = none := by
  induction calls' using List.reverseRecOn with
  | nil => rwa [List.append_nil] at h
  | append_singleton calls' e ih =>
    rw [← List.append_assoc, inForce_concat, Option.or_eq_none_iff] at h
    exact ih h.2

section

variable [DecidableEq κ]

def Call.adds (c : κ) : Call κ π → Bool
  | .addConsumer c' => c' = c
  | _ => false

/-- The header of the track that was in force when the consumer last joined. -/
def atJoin (t : Track) (c : κ) (calls : List (Call κ π)) : Option π :=
  inForce t (calls.rdropWhile fun e => ¬ e.adds c)

theorem atJoin_concat_adds (t : Track) (c : κ) (calls : List (Call κ π)) :
    atJoin t c (calls ++ [.addConsumer c]) = inForce t calls := by
  have hadds : (Call.addConsumer c : Call κ π).adds c = true := by simp [Call.adds]
  rw [atJoin, List.rdropWhile_concat, if_neg (by simp [hadds]), inForce_concat]
  cases t <;> rfl

theorem atJoin_concat (t : Track) (c : κ) (calls : List (Call κ π)) {e : Call κ π}
    (h : e.adds c = false) : atJoin t c (calls ++ [e]) = atJoin t c calls := by
  rw [atJoin, List.rdropWhile_concat, if_pos (by simp [h]), atJoin]

/-- Where there is no header now, there was none when the consumer joined. -/
theorem atJoin_eq_none {t : Track} {calls : List (Call κ π)} (c : κ)
    (h : inForce t calls = none) : atJoin t c calls = none := by
  obtain ⟨rest, hrest⟩ := List.rdropWhile_prefix (fun e : Call κ π => ¬ e.adds c) (l := calls)
  rw [← hrest] at h
  exact inForce_eq_none_of_append h

end

/-! ## Stamps -/

/-- A packet with its track and the header of the track that was in force when it
was published, if there was one. -/
structure Stamped (π : Type) where
  packet : π
  stamp : Option (Track × π) := none
  deriving DecidableEq, Repr

instance [MediaPacket π] : MediaPacket (Stamped π) := ⟨fun x => MediaPacket.isKeyframe x.packet⟩

/-- The call after the calls `before`, its packet stamped. -/
def Call.stamp (before : List (Call κ π)) : Call κ π → Call κ (Stamped π)
  | .setMetaData pkt => .setMetaData { packet := pkt }
  | .setVideoHeader pkt => .setVideoHeader { packet := pkt }
  | .setAudioHeader pkt => .setAudioHeader { packet := pkt }
  | .onAudio pkt => .onAudio { packet := pkt, stamp := (inForce .audio before).map (.audio, ·) }
  | .onVideo pkt => .onVideo { packet := pkt, stamp := (inForce .video before).map (.video, ·) }
  | .addConsumer consumer => .addConsumer consumer
  | .removeConsumer consumer => .removeConsumer consumer

def stampFrom : List (Call κ π) → List (Call κ π) → List (Call κ (Stamped π))
  | _, [] => []
  | before, e :: calls => e.stamp before :: stampFrom (before ++ [e]) calls

/-- Every call with its packet stamped. -/
def stamp (calls : List (Call κ π)) : List (Call κ (Stamped π)) := stampFrom [] calls

theorem stampFrom_append (before calls calls' : List (Call κ π)) :
    stampFrom before (calls ++ calls') =
      stampFrom before calls ++ stampFrom (before ++ calls) calls' := by
  induction calls generalizing before with
  | nil => simp [stampFrom]
  | cons e calls ih => simp [stampFrom, ih]

theorem stamp_concat (calls : List (Call κ π)) (e : Call κ π) :
    stamp (calls ++ [e]) = stamp calls ++ [e.stamp calls] :=
  stampFrom_append [] calls [e]

/-! ### Stamps change nothing -/

def Call.map {ρ : Type} (f : π → ρ) : Call κ π → Call κ ρ
  | .setMetaData pkt => .setMetaData (f pkt)
  | .setVideoHeader pkt => .setVideoHeader (f pkt)
  | .setAudioHeader pkt => .setAudioHeader (f pkt)
  | .onAudio pkt => .onAudio (f pkt)
  | .onVideo pkt => .onVideo (f pkt)
  | .addConsumer consumer => .addConsumer consumer
  | .removeConsumer consumer => .removeConsumer consumer

def Delivery.map {ρ : Type} (f : π → ρ) (d : Delivery κ π) : Delivery κ ρ :=
  ⟨d.consumer, d.origin, f d.packet⟩

def map {ρ : Type} (f : π → ρ) (s : MediaSource κ π) : MediaSource κ ρ where
  metaData := s.metaData.map f
  videoHeader := s.videoHeader.map f
  audioHeader := s.audioHeader.map f
  gopCache := s.gopCache.map f
  consumers := s.consumers

section Map

variable {ρ : Type} [DecidableEq κ] [MediaPacket π] [MediaPacket ρ]

/-- A map of packets that keeps the keyframe flag goes through a call. -/
theorem call_map {f : π → ρ} (hf : ∀ x, MediaPacket.isKeyframe (f x) = MediaPacket.isKeyframe x)
    (s : MediaSource κ π) (e : Call κ π) :
    (s.map f).call (e.map f) = ((s.call e).1.map f, (s.call e).2.map (·.map f)) := by
  have hcache (s : MediaSource κ π) (pkt : π) :
      (s.map f).cachePacket (f pkt) = (s.cachePacket pkt).map f := by
    simp only [cachePacket, map, List.length_map]
    split <;> simp
  have hdispatch (s : MediaSource κ π) (pkt : π) :
      (s.map f).dispatch (f pkt) = (s.dispatch pkt).map (·.map f) := by
    simp [dispatch, map, Delivery.map]
  cases e with
  | onAudio pkt =>
    simp only [call, Call.map, onAudio, hcache, hdispatch]
  | onVideo pkt =>
    have hclear : (if MediaPacket.isKeyframe (f pkt) then { s.map f with gopCache := [] }
        else s.map f) =
        (if MediaPacket.isKeyframe pkt then { s with gopCache := [] } else s).map f := by
      rw [hf]
      split <;> rfl
    simp only [call, Call.map, onVideo, hclear, hcache, hdispatch]
  | addConsumer c =>
    have hreplay : (s.map f).sendGopCache c = (s.sendGopCache c).map (·.map f) := by
      cases hm : s.metaData <;> cases hv : s.videoHeader <;> cases ha : s.audioHeader <;>
        simp [sendGopCache, map, Delivery.map, hm, hv, ha]
    simp only [call, Call.map, addConsumer, hreplay]
    rfl
  | removeConsumer c => rfl
  | setMetaData pkt => rfl
  | setVideoHeader pkt => rfl
  | setAudioHeader pkt => rfl

theorem run_map {f : π → ρ} (hf : ∀ x, MediaPacket.isKeyframe (f x) = MediaPacket.isKeyframe x)
    (s : MediaSource κ π) (calls : List (Call κ π)) :
    (s.map f).run (calls.map (Call.map f)) =
      ((s.run calls).1.map f, (s.run calls).2.map (·.map f)) := by
  induction calls generalizing s with
  | nil => rfl
  | cons e calls ih =>
    rw [List.map_cons, run_cons, run_cons, call_map hf, ih, List.map_append]

end Map

/-- Without its stamp it is the call again. -/
theorem Call.map_stamp (before : List (Call κ π)) (e : Call κ π) :
    (e.stamp before).map Stamped.packet = e := by
  cases e <;> rfl

theorem map_stampFrom (before calls : List (Call κ π)) :
    (stampFrom before calls).map (Call.map Stamped.packet) = calls := by
  induction calls generalizing before with
  | nil => rfl
  | cons e calls ih => rw [stampFrom, List.map_cons, Call.map_stamp, ih]

section Run

variable [DecidableEq κ] [MediaPacket π]

/-- The source and its deliveries, the packets stamped. -/
def stampedRun (calls : List (Call κ π)) :
    MediaSource κ (Stamped π) × List (Delivery κ (Stamped π)) :=
  run {} (stamp calls)

theorem stampedRun_concat (calls : List (Call κ π)) (e : Call κ π) :
    stampedRun (calls ++ [e]) =
      (((stampedRun calls).1.call (e.stamp calls)).1,
        (stampedRun calls).2 ++ ((stampedRun calls).1.call (e.stamp calls)).2) := by
  rw [stampedRun, stamp_concat, run_concat]
  rfl

/-- The stamped run is the run. -/
theorem stampedRun_erase (calls : List (Call κ π)) :
    ((stampedRun calls).1.map Stamped.packet, (stampedRun calls).2.map (·.map Stamped.packet)) =
      run ({} : MediaSource κ π) calls := by
  have herase := run_map (f := Stamped.packet) (fun _ => rfl) ({} : MediaSource κ (Stamped π))
    (stamp calls)
  rw [stamp, map_stampFrom] at herase
  exact herase.symm

/-! ## Headers received -/

def header (s : MediaSource κ π) : Track → Option π
  | .video => s.videoHeader
  | .audio => s.audioHeader

def Track.headerOrigin : Track → Origin
  | .video => .videoHeader
  | .audio => .audioHeader

/-- The header of the track that the consumer received last. -/
def latestHeader (t : Track) (c : κ) (log : List (Delivery κ (Stamped π))) : Option π :=
  log.foldl (fun header d =>
    if d.consumer = c ∧ d.origin = t.headerOrigin then some d.packet.packet else header) none

omit [DecidableEq κ] [MediaPacket π] in
theorem cachePacket_header (s : MediaSource κ π) (pkt : π) (t : Track) :
    (s.cachePacket pkt).header t = s.header t := by
  unfold cachePacket
  split <;> rfl

theorem call_header (s : MediaSource κ π) (e : Call κ π) (t : Track) :
    (s.call e).1.header t = (headerSet t e).or (s.header t) := by
  cases e with
  | onAudio pkt =>
    apply (cachePacket_header _ pkt t).trans
    cases t <;> rfl
  | onVideo pkt =>
    apply (cachePacket_header _ pkt t).trans
    split <;> cases t <;> rfl
  | _ => cases t <;> rfl

/-- The source holds the header in force. -/
theorem header_run (calls : List (Call κ π)) (t : Track) :
    (run ({} : MediaSource κ π) calls).1.header t = inForce t calls := by
  induction calls using List.reverseRecOn with
  | nil => cases t <;> rfl
  | append_singleton calls e ih => rw [run_concat, call_header, ih, inForce_concat]

theorem header_stampedRun (calls : List (Call κ π)) (t : Track) :
    ((stampedRun calls).1.header t).map Stamped.packet = inForce t calls := by
  rw [← header_run, ← stampedRun_erase]
  cases t <;> rfl

theorem consumers_stampedRun (calls : List (Call κ π)) :
    (stampedRun calls).1.consumers = (run ({} : MediaSource κ π) calls).1.consumers := by
  rw [← stampedRun_erase]
  rfl

omit [MediaPacket π] in
theorem latestHeader_append (t : Track) (c : κ) (log : List (Delivery κ (Stamped π)))
    {more : List (Delivery κ (Stamped π))}
    (h : ∀ d ∈ more, d.consumer = c → d.origin ≠ t.headerOrigin) :
    latestHeader t c (log ++ more) = latestHeader t c log := by
  induction more using List.reverseRecOn with
  | nil => rw [List.append_nil]
  | append_singleton more d ih =>
    have hd := h d (by simp)
    rw [← ih fun d hd => h d (List.mem_append_left _ hd), ← List.append_assoc, latestHeader,
      List.foldl_append, List.foldl_cons, List.foldl_nil, if_neg fun hboth => hd hboth.1 hboth.2]
    rfl

/-- The part of a replay that comes before the cache. -/
def sendHeaders (s : MediaSource κ π) (c : κ) : List (Delivery κ π) :=
  s.metaData.toList.map (⟨c, .metaData, ·⟩) ++
    s.videoHeader.toList.map (⟨c, .videoHeader, ·⟩) ++
    s.audioHeader.toList.map (⟨c, .audioHeader, ·⟩)

omit [DecidableEq κ] [MediaPacket π] in
theorem sendHeaders_origin {s : MediaSource κ π} {c : κ} {d : Delivery κ π}
    (h : d ∈ s.sendHeaders c) : d.origin ≠ .cached ∧ d.origin ≠ .live := by
  simp only [sendHeaders, List.mem_append, List.mem_map] at h
  rcases h with (⟨_, -, rfl⟩ | ⟨_, -, rfl⟩) | ⟨_, -, rfl⟩ <;> exact ⟨nofun, nofun⟩

/-- Only a replay delivers anything but live packets. -/
theorem adds_of_mem_call {s : MediaSource κ π} {e : Call κ π} {d : Delivery κ π}
    (h : d ∈ (s.call e).2) (hlive : d.origin ≠ .live) : e.adds d.consumer = true := by
  have hdispatch {s : MediaSource κ π} {pkt : π} (h : d ∈ s.dispatch pkt) : d.origin = .live := by
    obtain ⟨c, -, rfl⟩ := List.mem_map.mp h
    rfl
  cases e with
  | onAudio pkt => exact absurd (hdispatch h) hlive
  | onVideo pkt => exact absurd (hdispatch h) hlive
  | addConsumer c =>
    simp only [call, addConsumer, sendGopCache, List.mem_append, List.mem_map] at h
    rcases h with ((⟨_, -, rfl⟩ | ⟨_, -, rfl⟩) | ⟨_, -, rfl⟩) | ⟨_, -, rfl⟩ <;> simp [Call.adds]
  | _ => cases h

omit [MediaPacket π] in
/-- After the headers of a replay the consumer has the header that the source
holds. -/
theorem latestHeader_sendHeaders (t : Track) (c : κ) (log : List (Delivery κ (Stamped π)))
    (s : MediaSource κ (Stamped π)) :
    latestHeader t c (log ++ s.sendHeaders c) =
      ((s.header t).map Stamped.packet).or (latestHeader t c log) := by
  cases t <;> cases hm : s.metaData <;> cases hv : s.videoHeader <;> cases ha : s.audioHeader <;>
    simp [latestHeader, sendHeaders, header, Track.headerOrigin, hm, hv, ha]

end Run

/-! ## The right header -/

section Right

variable [DecidableEq κ] [MediaPacket π]

/-- If the delivery is one of a packet that was published under a header, its
consumer has received that header last. -/
def RightAt (log : List (Delivery κ (Stamped π))) (d : Delivery κ (Stamped π)) : Prop :=
  d.origin = .cached ∨ d.origin = .live → ∀ t h, d.packet.stamp = some (t, h) →
    latestHeader t d.consumer log = some h

/-- Every consumer has the right header before each packet. -/
def RightHeaders (calls : List (Call κ π)) : Prop :=
  ∀ log d rest, (stampedRun calls).2 = log ++ d :: rest → RightAt log d

/-- The header of the track in force is the one that every registered consumer
joined under. -/
def JoinedUnder (t : Track) (before : List (Call κ π)) : Prop :=
  ∀ c ∈ (run ({} : MediaSource κ π) before).1.consumers, ∀ h, inForce t before = some h →
    atJoin t c before = some h

/-- The call after the calls `before` delivers no packet under another header than
the one that its consumers joined under. -/
def HeaderKept (before : List (Call κ π)) : Call κ π → Prop
  | .onVideo _ => JoinedUnder .video before
  | .onAudio _ => JoinedUnder .audio before
  | .addConsumer _ => ∀ x ∈ (stampedRun before).1.gopCache, ∀ t h, x.stamp = some (t, h) →
      inForce t before = some h
  | _ => True

omit [MediaPacket π] in
theorem Call.adds_stamp (before : List (Call κ π)) (e : Call κ π) (c : κ) :
    (e.stamp before).adds c = e.adds c := by
  cases e <;> rfl

/-- A consumer that joins gets the headers in force. -/
theorem latestHeader_join {calls : List (Call κ π)} {t : Track} {c : κ}
    (h : latestHeader t c (stampedRun calls).2 = atJoin t c calls) :
    latestHeader t c ((stampedRun calls).2 ++ (stampedRun calls).1.sendHeaders c) =
      inForce t calls := by
  rw [latestHeader_sendHeaders, header_stampedRun, h]
  cases hforce : inForce t calls with
  | none => rw [atJoin_eq_none c hforce]; rfl
  | some header => rfl

/-- What a consumer has received last is what was in force when it joined. -/
theorem latestHeader_stampedRun (calls : List (Call κ π)) (t : Track) (c : κ) :
    latestHeader t c (stampedRun calls).2 = atJoin t c calls := by
  induction calls using List.reverseRecOn with
  | nil => rfl
  | append_singleton calls e ih =>
    rw [stampedRun_concat]
    cases hadds : e.adds c with
    | true =>
      obtain rfl : e = .addConsumer c := by
        cases e <;> simp_all [Call.adds]
      have hcached : ∀ d ∈ (stampedRun calls).1.gopCache.map
          (fun x => (⟨c, .cached, x⟩ : Delivery κ (Stamped π))),
          d.consumer = c → d.origin ≠ t.headerOrigin := by
        intro d hd _
        obtain ⟨x, -, rfl⟩ := List.mem_map.mp hd
        cases t <;> nofun
      have hsplit : ((stampedRun calls).1.call ((.addConsumer c : Call κ π).stamp calls)).2 =
          (stampedRun calls).1.sendHeaders c ++
            (stampedRun calls).1.gopCache.map (⟨c, .cached, ·⟩) := rfl
      rw [hsplit, ← List.append_assoc, latestHeader_append t c _ hcached, latestHeader_join ih,
        atJoin_concat_adds]
    | false =>
      rw [atJoin_concat t c calls hadds, latestHeader_append t c _ ?_, ih]
      intro d hd hc horigin
      have hmem := adds_of_mem_call hd (by rw [horigin]; cases t <;> nofun)
      rw [Call.adds_stamp, hc, hadds] at hmem
      cases hmem

/-! ### One call -/

omit [MediaPacket π] in
/-- Deliveries that are no headers, one packet each. -/
theorem each_rightAt (log : List (Delivery κ (Stamped π))) {more : List (Delivery κ (Stamped π))}
    (hmore : ∀ d ∈ more, d.origin = .cached ∨ d.origin = .live) :
    Trace.Each RightAt log more ↔ ∀ d ∈ more, ∀ t h, d.packet.stamp = some (t, h) →
      latestHeader t d.consumer log = some h := by
  refine Trace.each_congr fun as₁ d as₂ hsplit => ?_
  have hlog : ∀ t, latestHeader t d.consumer (log ++ as₁) = latestHeader t d.consumer log := by
    intro t
    refine latestHeader_append t d.consumer log fun d' hd' _ => ?_
    rcases hmore d' (by rw [hsplit]; exact List.mem_append_left _ hd') with h | h <;>
      rw [h] <;> cases t <;> nofun
  have hd : d.origin = .cached ∨ d.origin = .live := hmore d (by rw [hsplit]; simp)
  simp only [RightAt, hd, true_implies, hlog]

/-- The packet of a call reaches the registered consumers under the right header
if they joined under it. -/
theorem each_rightAt_dispatch (calls : List (Call κ π)) {s : MediaSource κ (Stamped π)}
    (hs : s.consumers = (stampedRun calls).1.consumers) (t : Track) (pkt : π) :
    Trace.Each RightAt (stampedRun calls).2
        (s.dispatch { packet := pkt, stamp := (inForce t calls).map (t, ·) }) ↔
      JoinedUnder t calls := by
  rw [each_rightAt _ (by simp [dispatch]), dispatch, List.forall_mem_map, hs,
    consumers_stampedRun, JoinedUnder]
  refine forall_congr' fun c => forall_congr' fun _ => ?_
  simp only [latestHeader_stampedRun, Option.map_eq_some_iff]
  constructor
  · intro h header hforce
    exact h t header ⟨header, hforce, rfl⟩
  · rintro h t' header ⟨header', hforce, heq⟩
    obtain ⟨rfl, rfl⟩ := Prod.mk.inj heq
    exact h header' hforce

/-- One more call delivers right if and only if it keeps the headers. -/
theorem each_rightAt_call (calls : List (Call κ π)) (e : Call κ π) :
    Trace.Each RightAt (stampedRun calls).2 ((stampedRun calls).1.call (e.stamp calls)).2 ↔
      HeaderKept calls e := by
  cases e with
  | onAudio pkt =>
    exact each_rightAt_dispatch calls (cache_consumers _ ⟨.audio, _⟩) .audio pkt
  | onVideo pkt =>
    exact each_rightAt_dispatch calls (cache_consumers _ ⟨.video, _⟩) .video pkt
  | addConsumer c =>
    have hsplit : ((stampedRun calls).1.call ((.addConsumer c : Call κ π).stamp calls)).2 =
        (stampedRun calls).1.sendHeaders c ++
          (stampedRun calls).1.gopCache.map (⟨c, .cached, ·⟩) := rfl
    have hheaders : Trace.Each RightAt (stampedRun calls).2
        ((stampedRun calls).1.sendHeaders c) := by
      refine (Trace.each_iff _ _).mpr fun as₁ d as₂ heq hmedia => ?_
      have hd : d ∈ (stampedRun calls).1.sendHeaders c := by rw [heq]; simp
      have hnot := sendHeaders_origin hd
      exact absurd hmedia (not_or.mpr hnot)
    rw [hsplit, Trace.each_append, and_iff_right hheaders, each_rightAt _ (by simp),
      List.forall_mem_map]
    simp only [latestHeader_join (latestHeader_stampedRun calls _ c)]
    exact Iff.rfl
  | setMetaData pkt => exact Iff.rfl
  | setVideoHeader pkt => exact Iff.rfl
  | setAudioHeader pkt => exact Iff.rfl
  | removeConsumer c => exact Iff.rfl

/-- The same for all calls of a run. -/
theorem each_rightAt_iff (calls : List (Call κ π)) :
    Trace.Each RightAt [] (stampedRun calls).2 ↔ Trace.Each HeaderKept [] calls := by
  induction calls using List.reverseRecOn with
  | nil => exact Iff.rfl
  | append_singleton calls e ih =>
    rw [stampedRun_concat, Trace.each_append, Trace.each_append, ih, Trace.each_singleton,
      List.nil_append, List.nil_append, each_rightAt_call]

/-- In a run every consumer has the right header before each packet if and only
if every call keeps the headers. -/
theorem rightHeaders_iff (calls : List (Call κ π)) :
    RightHeaders calls ↔ ∀ before e after, calls = before ++ e :: after → HeaderKept before e := by
  have hright := Trace.each_iff (P := RightAt) [] (stampedRun calls).2
  have hkept := Trace.each_iff (P := HeaderKept) [] calls
  simp only [List.nil_append] at hright hkept
  exact hright.symm.trans ((each_rightAt_iff calls).trans hkept)

end Right

/-! ### A header that changes -/

def firstHeader : Packet := { payload := [0x17, 0, 1] }

def secondHeader : Packet := { payload := [0x17, 0, 2] }

/-- The header changes while a consumer is registered. -/
def changedHeader : List (Call Nat Packet) :=
  [.setVideoHeader firstHeader, .addConsumer 0, .setVideoHeader secondHeader, .onVideo keyframe]

/-- The keyframe reaches the consumer, which still has the first header. -/
theorem changedHeader_wrong : ¬ RightHeaders changedHeader := by
  intro h
  have hright := h [⟨0, .videoHeader, { packet := firstHeader }⟩]
    ⟨0, .live, { packet := keyframe, stamp := some (.video, secondHeader) }⟩ [] rfl (.inr rfl)
    .video secondHeader rfl
  revert hright
  decide

end MediaSource
