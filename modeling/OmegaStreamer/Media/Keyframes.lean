-- SUMMARY: The first video packet of every consumer, and when it is a keyframe.
import OmegaStreamer.Media.Consumers

/-!
# Keyframes

Behind the first keyframe of a stream the cache begins with a keyframe, and every
consumer has received one or will be replayed one. Before it nothing holds an inter
frame back. The first video packet of each consumer is a keyframe if and only if no
inter frame meets a consumer before that point.
-/

namespace MediaSource

variable {κ π : Type}

/-! ## Tags -/

instance [MediaPacket π] : MediaPacket (Published π) := ⟨fun x => MediaPacket.isKeyframe x.packet⟩

/-- The call, its packet tagged with the function that it is passed to. The tags of the
headers are not looked at. -/
def Call.tag : Call κ π → Call κ (Published π)
  | .setMetaData pkt => .setMetaData ⟨.audio, pkt⟩
  | .setVideoHeader pkt => .setVideoHeader ⟨.video, pkt⟩
  | .setAudioHeader pkt => .setAudioHeader ⟨.audio, pkt⟩
  | .onAudio pkt => .onAudio ⟨.audio, pkt⟩
  | .onVideo pkt => .onVideo ⟨.video, pkt⟩
  | .addConsumer consumer => .addConsumer consumer
  | .removeConsumer consumer => .removeConsumer consumer

/-- Without its tag it is the call again. -/
theorem Call.map_tag (e : Call κ π) : e.tag.map Published.packet = e := by
  cases e <;> rfl

theorem Call.published_tag (e : Call κ π) :
    published [e.tag] = (published [e]).map fun x => ⟨x.track, x⟩ := by
  cases e <;> rfl

theorem published_map_tag (calls : List (Call κ π)) :
    published (calls.map Call.tag) = (published calls).map fun x => ⟨x.track, x⟩ := by
  induction calls with
  | nil => rfl
  | cons e calls ih =>
    have hsplit : published (e :: calls) = published [e] ++ published calls :=
      published_append [e] calls
    have htag : published ((e :: calls).map Call.tag) =
        published [e.tag] ++ published (calls.map Call.tag) := published_append [e.tag] _
    rw [htag, hsplit, ih, e.published_tag, List.map_append]

theorem Call.adds_tag [DecidableEq κ] (e : Call κ π) (c : κ) : e.tag.adds c = e.adds c := by
  cases e <;> rfl

section Run

variable [DecidableEq κ] [MediaPacket π]

/-- The source and its deliveries, the packets tagged. -/
def taggedRun (calls : List (Call κ π)) :
    MediaSource κ (Published π) × List (Delivery κ (Published π)) :=
  run {} (calls.map Call.tag)

theorem taggedRun_concat (calls : List (Call κ π)) (e : Call κ π) :
    taggedRun (calls ++ [e]) =
      (((taggedRun calls).1.call e.tag).1,
        (taggedRun calls).2 ++ ((taggedRun calls).1.call e.tag).2) := by
  rw [taggedRun, List.map_append, List.map_singleton, run_concat]
  rfl

/-- The tagged run is the run. -/
theorem taggedRun_erase (calls : List (Call κ π)) :
    ((taggedRun calls).1.map Published.packet, (taggedRun calls).2.map (·.map Published.packet)) =
      run ({} : MediaSource κ π) calls := by
  have hrun := run_map (fun x : Published π => (rfl : MediaPacket.isKeyframe x.packet = _)) {}
    (calls.map Call.tag)
  have herase : (calls.map Call.tag).map (Call.map Published.packet) = calls := by
    rw [List.map_map]
    exact (List.map_congr_left fun e _ => e.map_tag).trans (List.map_id calls)
  rw [herase] at hrun
  exact hrun.symm

theorem consumers_taggedRun (calls : List (Call κ π)) :
    (taggedRun calls).1.consumers = (run ({} : MediaSource κ π) calls).1.consumers := by
  rw [← taggedRun_erase]
  rfl

theorem gopCache_taggedRun (calls : List (Call κ π)) :
    (taggedRun calls).1.gopCache =
      (Window.sinceMark Published.isKey (published calls)).take kMaxGopCacheSize := by
  have hcache := gopCache_run (calls.map Call.tag)
  rw [published_map_tag, Window.sinceMark_map, ← List.map_take, List.map_map] at hcache
  exact hcache.trans (List.map_id _)

/-! ## Video packets -/

/-- The video packets that a consumer receives by replay and dispatch. -/
def video (c : κ) (log : List (Delivery κ (Published π))) : List (Published π) :=
  (media c log).filter fun x => x.track = .video

/-- The first video packet of every consumer is a keyframe. -/
def FirstIsKey (calls : List (Call κ π)) : Prop :=
  ∀ c, ∀ x ∈ (video c (taggedRun calls).2).head?, x.isKey

/-- No keyframe has been published. -/
def Keyless (calls : List (Call κ π)) : Prop := ∀ x ∈ published calls, ¬ x.isKey

/-- The call after the calls `before` gives no video packet but a keyframe to anybody,
if no keyframe has been published before it. -/
def HeldBack (before : List (Call κ π)) : Call κ π → Prop
  | .onVideo pkt =>
    MediaPacket.isKeyframe pkt ∨ (run ({} : MediaSource κ π) before).1.consumers = []
  | .addConsumer _ => ∀ x ∈ (published before).take kMaxGopCacheSize, x.track = .audio
  | _ => True

/-- Until the first keyframe inter frames are held back. -/
def WaitsForKey (calls : List (Call κ π)) : Prop :=
  ∀ before e after, calls = before ++ e :: after → Keyless before → HeldBack before e

theorem WaitsForKey.of_append {calls more : List (Call κ π)} (h : WaitsForKey (calls ++ more)) :
    WaitsForKey calls := by
  intro before e after hsplit
  apply h before e (after ++ more)
  rw [hsplit, List.append_assoc, List.cons_append]

/-- What one more call gives to a consumer. -/
theorem video_concat (c : κ) (calls : List (Call κ π)) (e : Call κ π) :
    video c (taggedRun (calls ++ [e])).2 = video c (taggedRun calls).2 ++
      ((if e.adds c then (taggedRun calls).1.gopCache else []) ++
        (published [e]).flatMap fun x => List.replicate
          ((run ({} : MediaSource κ π) calls).1.consumers.count c) x).filter
            fun x => x.track = .video := by
  rw [taggedRun_concat, video, media_append, List.filter_append, media_call_eq, e.adds_tag,
    e.published_tag, consumers_taggedRun, List.flatMap_map]
  rfl

omit [DecidableEq κ] in
theorem Keyless.of_append {calls more : List (Call κ π)} (h : Keyless (calls ++ more)) :
    Keyless calls := by
  intro x hx
  apply h
  rw [published_append]
  exact List.mem_append_left _ hx

/-! ### Until the first keyframe -/

/-- Without a keyframe everything that has been published is cached, up to the bound. -/
theorem Keyless.gopCache {calls : List (Call κ π)} (h : Keyless calls) :
    (taggedRun calls).1.gopCache = (published calls).take kMaxGopCacheSize := by
  rw [gopCache_taggedRun, Window.sinceMark_of_forall h]

/-- What is held back is not received. -/
theorem video_of_keyless {calls : List (Call κ π)} (h : Keyless calls) (hwait : WaitsForKey calls)
    (c : κ) : video c (taggedRun calls).2 = [] := by
  induction calls using List.reverseRecOn with
  | nil => rfl
  | append_singleton calls e ih =>
    have hbefore := h.of_append
    have hheld := hwait calls e [] rfl hbefore
    rw [video_concat, ih hbefore hwait.of_append, List.nil_append, hbefore.gopCache]
    cases e with
    | onVideo pkt =>
      have hinter : ¬ MediaPacket.isKeyframe pkt := by
        have hnot := h ⟨.video, pkt⟩ (by rw [published_append]; simp [published])
        simpa [Published.isKey] using hnot
      have hnobody := hheld.resolve_left hinter
      rw [hnobody]
      rfl
    | onAudio pkt => simp [published, Call.adds]
    | addConsumer c' =>
      apply List.filter_eq_nil_iff.mpr
      intro x hx
      have hcached : x ∈ (published calls).take kMaxGopCacheSize := by
        simp only [published, List.filterMap_cons, List.filterMap_nil, List.flatMap_nil,
          List.append_nil] at hx
        split at hx
        · exact hx
        · cases hx
      rw [hheld x hcached]
      decide
    | _ => rfl

/-! ### From the first keyframe on -/

/-- The consumer has received a keyframe first. -/
def Started (c : κ) (calls : List (Call κ π)) : Prop :=
  ∃ x rest, video c (taggedRun calls).2 = x :: rest ∧ x.isKey

theorem Started.concat {c : κ} {calls : List (Call κ π)} (h : Started c calls) (e : Call κ π) :
    Started c (calls ++ [e]) := by
  obtain ⟨x, rest, hvideo, hkey⟩ := h
  rw [Started, video_concat, hvideo, List.cons_append]
  exact ⟨x, _, rfl, hkey⟩

/-- The cache begins with the keyframe. -/
theorem gopCache_of_key {calls : List (Call κ π)} (h : ∃ x ∈ published calls, x.isKey) :
    ∃ x rest, (taggedRun calls).1.gopCache = x :: rest ∧ x.isKey := by
  obtain ⟨old, key, new, -, hkey, -, hwindow⟩ := Window.exists_sinceMark h
  rw [gopCache_taggedRun, hwindow]
  exact ⟨key, _, rfl, hkey⟩

/-- A keyframe that is dispatched comes first for those that have received nothing. -/
theorem started_dispatch {c : κ} {calls : List (Call κ π)} {pkt : π}
    (hkey : MediaPacket.isKeyframe pkt) (hnone : video c (taggedRun calls).2 = [])
    (hc : c ∈ (run ({} : MediaSource κ π) calls).1.consumers) :
    Started c (calls ++ [.onVideo pkt]) := by
  obtain ⟨n, hn⟩ := Nat.exists_eq_succ_of_ne_zero (Nat.ne_of_gt (List.count_pos_iff.mpr hc))
  rw [Started, video_concat, hnone, hn]
  exact ⟨⟨.video, pkt⟩, List.replicate n ⟨.video, pkt⟩, by
    simp [published, Call.adds, List.replicate_succ], by simpa [Published.isKey] using hkey⟩

/-- A consumer has received a keyframe first, or no video packet. In the second case it
is not registered if a keyframe has been published. -/
def InOrder (calls : List (Call κ π)) (c : κ) : Prop :=
  Started c calls ∨ video c (taggedRun calls).2 = [] ∧
    (Keyless calls ∨ c ∉ (run ({} : MediaSource κ π) calls).1.consumers)

omit [DecidableEq κ] in
/-- The keyframe that ends the time without one. -/
theorem Keyless.ended {calls : List (Call κ π)} (h : Keyless calls) {e : Call κ π}
    (hended : ¬ Keyless (calls ++ [e])) : ∃ pkt, e = .onVideo pkt ∧ MediaPacket.isKeyframe pkt := by
  simp only [Keyless, published_append, List.mem_append, not_forall, not_not] at hended
  obtain ⟨x, hx, hkey⟩ := hended
  have hnew := hx.resolve_left fun hold => h x hold hkey
  cases e with
  | onVideo pkt =>
    cases List.mem_singleton.mp hnew
    exact ⟨pkt, rfl, by simpa [Published.isKey] using hkey⟩
  | onAudio pkt =>
    cases List.mem_singleton.mp hnew
    simp [Published.isKey] at hkey
  | _ => cases hnew

/-- A consumer that is not registered receives nothing but its replay. -/
theorem inOrder_apart {calls : List (Call κ π)} {c : κ} {e : Call κ π}
    (hnone : video c (taggedRun calls).2 = [])
    (hnot : c ∉ (run ({} : MediaSource κ π) calls).1.consumers) (hadds : e.adds c = false) :
    InOrder (calls ++ [e]) c := by
  right
  constructor
  · rw [video_concat, hnone, hadds, List.count_eq_zero.mpr hnot]
    simp
  · right
    rw [run_concat, call_consumers]
    cases e with
    | addConsumer c' =>
      have hne : c ≠ c' := by
        rintro rfl
        simp [Call.adds] at hadds
      rw [List.mem_append, List.mem_singleton]
      exact not_or.mpr ⟨hnot, hne⟩
    | removeConsumer c' => exact fun hmem => hnot (List.mem_of_mem_erase hmem)
    | _ => exact hnot

theorem inOrder_concat {calls : List (Call κ π)} {c : κ} (e : Call κ π)
    (h : InOrder calls c) (hwait : WaitsForKey (calls ++ [e])) : InOrder (calls ++ [e]) c := by
  rcases h with hstarted | ⟨hnone, hcase⟩
  · exact .inl (hstarted.concat e)
  by_cases hkeyless : Keyless (calls ++ [e])
  · exact .inr ⟨video_of_keyless hkeyless hwait c, .inl hkeyless⟩
  by_cases hmem : c ∈ (run ({} : MediaSource κ π) calls).1.consumers
  · -- it was registered before the first keyframe
    have hbefore := hcase.resolve_right (not_not.mpr hmem)
    obtain ⟨pkt, rfl, hkey⟩ := hbefore.ended hkeyless
    exact .inl (started_dispatch hkey hnone hmem)
  cases hadds : e.adds c with
  | false => exact inOrder_apart hnone hmem hadds
  | true =>
    -- it joins behind the first keyframe
    have hkey : ∃ x ∈ published calls, x.isKey := by
      by_contra hnokey
      have hbefore : Keyless calls := fun x hx hkey => hnokey ⟨x, hx, hkey⟩
      obtain ⟨pkt, rfl, -⟩ := hbefore.ended hkeyless
      cases hadds
    obtain ⟨x, rest, hcache, hx⟩ := gopCache_of_key hkey
    have htrack : decide (x.track = .video) = true := by
      rw [Published.isKey, Bool.and_eq_true] at hx
      exact hx.1
    left
    rw [Started, video_concat, hnone, hadds, hcache, if_pos rfl, List.cons_append,
      List.nil_append]
    exact ⟨x, _, List.filter_cons_of_pos htrack, hx⟩

theorem inOrder_run {calls : List (Call κ π)} (h : WaitsForKey calls) (c : κ) :
    InOrder calls c := by
  induction calls using List.reverseRecOn with
  | nil => exact .inr ⟨rfl, .inl nofun⟩
  | append_singleton calls e ih => exact inOrder_concat e (ih (h.of_append)) h

theorem firstIsKey_of_waits {calls : List (Call κ π)} (h : WaitsForKey calls) :
    FirstIsKey calls := by
  intro c x hx
  rcases inOrder_run h c with ⟨y, rest, hvideo, hkey⟩ | ⟨hnone, -⟩
  · rw [hvideo, List.head?_cons] at hx
    cases hx
    exact hkey
  · rw [hnone] at hx
    cases hx

/-! ## Inter frames that are not held back -/

/-- What has been received stays received first. -/
theorem FirstIsKey.of_append {calls more : List (Call κ π)} (h : FirstIsKey (calls ++ more)) :
    FirstIsKey calls := by
  induction more using List.reverseRecOn with
  | nil => rwa [List.append_nil] at h
  | append_singleton more e ih =>
    apply ih
    intro c x hx
    rw [← List.append_assoc] at h
    apply h c x
    rw [video_concat, List.head?_append, hx]
    rfl

/-- Everything that is received has been published. -/
theorem published_of_video {calls : List (Call κ π)} {c : κ} {x : Published π}
    (h : x ∈ video c (taggedRun calls).2) : x ∈ published calls := by
  induction calls using List.reverseRecOn with
  | nil => cases h
  | append_singleton calls e ih =>
    rw [published_append, List.mem_append]
    rw [video_concat, List.mem_append, List.mem_filter, List.mem_append] at h
    rcases h with hold | ⟨hcached | hlive, -⟩
    · exact .inl (ih hold)
    · split at hcached
      · rw [gopCache_taggedRun] at hcached
        exact .inl (Window.mem_of_mem_sinceMark (List.mem_of_mem_take hcached))
      · cases hcached
    · obtain ⟨y, hy, hxy⟩ := List.mem_flatMap.mp hlive
      rw [List.eq_of_mem_replicate hxy]
      exact .inr hy

/-- Without a keyframe no video packet may be received. -/
theorem FirstIsKey.video_eq_nil {calls : List (Call κ π)} (h : FirstIsKey calls)
    (hkeyless : Keyless calls) (c : κ) : video c (taggedRun calls).2 = [] := by
  cases hvideo : video c (taggedRun calls).2 with
  | nil => rfl
  | cons x rest =>
    have hkey := h c x (by rw [hvideo]; rfl)
    have hmem : x ∈ published calls := by
      apply @published_of_video κ π _ _ calls c
      rw [hvideo]
      exact List.mem_cons_self
    exact absurd hkey (hkeyless x hmem)

theorem FirstIsKey.waits {calls : List (Call κ π)} (h : FirstIsKey calls) :
    WaitsForKey calls := by
  rintro before e after rfl hkeyless
  have hfirst : FirstIsKey (before ++ [e]) := by
    rw [← List.singleton_append, ← List.append_assoc] at h
    exact h.of_append
  by_cases hnext : Keyless (before ++ [e])
  swap
  · obtain ⟨pkt, rfl, hkey⟩ := hkeyless.ended hnext
    exact .inl hkey
  have hnone := hfirst.video_eq_nil hnext
  cases e with
  | onVideo pkt =>
    right
    apply List.eq_nil_iff_forall_not_mem.mpr
    intro c hc
    have hcount := List.count_pos_iff.mpr hc
    have hlive := hnone c
    rw [video_concat, List.append_eq_nil_iff, List.filter_eq_nil_iff] at hlive
    apply hlive.2 ⟨.video, pkt⟩ _ rfl
    apply List.mem_append_right
    apply List.mem_flatMap.mpr
    exact ⟨⟨.video, pkt⟩, List.mem_cons_self,
      List.mem_replicate.mpr ⟨Nat.ne_of_gt hcount, rfl⟩⟩
  | addConsumer c =>
    intro x hx
    have hcached := hnone c
    have hadds : (Call.addConsumer c : Call κ π).adds c = true := decide_eq_true rfl
    rw [video_concat, List.append_eq_nil_iff, List.filter_eq_nil_iff, hadds, if_pos rfl,
      hkeyless.gopCache] at hcached
    have hnot := hcached.2 x (List.mem_append_left _ hx)
    cases htrack : x.track with
    | audio => rfl
    | video =>
      rw [htrack] at hnot
      exact absurd rfl hnot
  | _ => trivial

/-- The first video packet of every consumer is a keyframe if and only if inter frames
are held back until the first keyframe. -/
theorem firstIsKey_iff (calls : List (Call κ π)) : FirstIsKey calls ↔ WaitsForKey calls :=
  ⟨FirstIsKey.waits, firstIsKey_of_waits⟩

end Run

/-! ### A publisher that starts in the middle -/

/-- A consumer waits for the stream, which begins with an inter frame. -/
def startedLate : List (Call Nat Packet) :=
  [.addConsumer 0, .onVideo interframe, .onVideo keyframe]

theorem startedLate_not_key : ¬ FirstIsKey startedLate := by
  intro h
  have hfirst := h 0 ⟨.video, interframe⟩ (by decide)
  exact absurd hfirst (by decide)

end MediaSource
