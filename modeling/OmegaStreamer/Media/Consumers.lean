-- SUMMARY: The consumers of a source as a set: when its list of consumers is one.
import Mathlib.Data.Finset.Card
import OmegaStreamer.Media.Headers

/-!
# Consumers

What each consumer receives of a call, for any list of consumers. The list stands for
the set of those that have been added and not removed since if and only if no consumer
is added that is in the set already.
-/

namespace MediaSource

variable {κ π : Type}

/-- A call publishes one packet or none. -/
theorem published_call (e : Call κ π) : published [e] = [] ∨ ∃ x, published [e] = [x] := by
  cases e with
  | onAudio pkt => exact .inr ⟨_, rfl⟩
  | onVideo pkt => exact .inr ⟨_, rfl⟩
  | _ => exact .inl rfl

section Call

variable [DecidableEq κ]

/-- The deliveries to a consumer. -/
def received (c : κ) (log : List (Delivery κ π)) : List (Delivery κ π) :=
  log.filter fun d => d.consumer = c

theorem media_received (c : κ) (log : List (Delivery κ π)) :
    media c (received c log) = media c log := by
  simp only [media, received, List.filter_filter]
  congr 1
  apply List.filter_congr
  intro d _
  by_cases h : d.consumer = c <;> simp [h]

theorem received_dispatch (c : κ) (s : MediaSource κ π) (pkt : π) :
    received c (s.dispatch pkt) = List.replicate (s.consumers.count c) ⟨c, .live, pkt⟩ := by
  have hsame : received c (s.dispatch pkt) =
      (s.consumers.filter (· = c)).map fun c => ⟨c, .live, pkt⟩ := by
    rw [received, dispatch, List.filter_map]
    rfl
  rw [hsame, List.filter_eq, List.map_replicate]

theorem received_sendGopCache (c c' : κ) (s : MediaSource κ π) :
    received c (s.sendGopCache c') = if c' = c then s.sendGopCache c' else [] := by
  have hconsumer : ∀ d ∈ s.sendGopCache c', d.consumer = c' := by
    intro d hd
    simp only [sendGopCache, List.mem_append, List.mem_map] at hd
    rcases hd with ((⟨_, -, rfl⟩ | ⟨_, -, rfl⟩) | ⟨_, -, rfl⟩) | ⟨_, -, rfl⟩ <;> rfl
  split
  · rename_i heq
    apply List.filter_eq_self.mpr
    intro d hd
    rw [hconsumer d hd]
    exact decide_eq_true heq
  · rename_i hne
    apply List.filter_eq_nil_iff.mpr
    intro d hd
    rw [hconsumer d hd]
    simpa using hne

variable [MediaPacket π]

/-- A consumer receives the replay of its own joining, and a published packet as often
as it is in the list. -/
theorem received_call (c : κ) (s : MediaSource κ π) (e : Call κ π) :
    received c (s.call e).2 = (if e.adds c then s.sendGopCache c else []) ++
      (published [e]).flatMap fun x =>
        List.replicate (s.consumers.count c) ⟨c, .live, x.packet⟩ := by
  have hlive (x : Published π) : received c ((s.cache x).dispatch x.packet) =
      List.replicate (s.consumers.count c) ⟨c, .live, x.packet⟩ := by
    rw [received_dispatch, cache_consumers]
  cases e with
  | onAudio pkt =>
    rw [call, onAudio_eq, hlive ⟨.audio, pkt⟩]
    simp [published, Call.adds]
  | onVideo pkt =>
    rw [call, onVideo_eq, hlive ⟨.video, pkt⟩]
    simp [published, Call.adds]
  | addConsumer c' =>
    rw [call, addConsumer, received_sendGopCache]
    by_cases h : c' = c <;> simp [published, Call.adds, h]
  | _ => rfl

/-- The audio and video packets of that. -/
theorem media_call_eq (c : κ) (s : MediaSource κ π) (e : Call κ π) :
    media c (s.call e).2 = (if e.adds c then s.gopCache else []) ++
      (published [e]).flatMap fun x => List.replicate (s.consumers.count c) x.packet := by
  have hlive (n : Nat) (pkt : π) :
      media c (List.replicate n (⟨c, .live, pkt⟩ : Delivery κ π)) = List.replicate n pkt := by
    simp [media]
  rw [← media_received, received_call, media_append]
  congr 1
  · split
    · exact media_sendGopCache_self c s
    · rfl
  · rcases published_call e with hnone | ⟨x, hone⟩
    · rw [hnone]
      rfl
    · rw [hone, List.flatMap_singleton, List.flatMap_singleton, hlive]

/-- The packets leave the list of consumers alone. -/
theorem call_consumers (s : MediaSource κ π) (e : Call κ π) :
    (s.call e).1.consumers =
      match e with
      | .addConsumer c => s.consumers ++ [c]
      | .removeConsumer c => s.consumers.erase c
      | _ => s.consumers := by
  cases e with
  | onAudio pkt => rw [call, onAudio_eq, cache_consumers]
  | onVideo pkt => rw [call, onVideo_eq, cache_consumers]
  | _ => rfl

end Call

/-! ## The set -/

section Members

variable [DecidableEq κ]

/-- The set after a call. -/
def Call.change (added : Finset κ) : Call κ π → Finset κ
  | .addConsumer c => insert c added
  | .removeConsumer c => added.erase c
  | _ => added

/-- The consumers that have been added and not removed since. -/
def members (calls : List (Call κ π)) : Finset κ := calls.foldl Call.change ∅

theorem members_concat (calls : List (Call κ π)) (e : Call κ π) :
    members (calls ++ [e]) = e.change (members calls) := by
  simp only [members, List.foldl_append, List.foldl_cons, List.foldl_nil]

/-- A consumer is only added when it is not in the set. -/
def AddedOnce (calls : List (Call κ π)) : Prop :=
  ∀ before c after, calls = before ++ .addConsumer c :: after → c ∉ members before

theorem AddedOnce.of_append {calls more : List (Call κ π)} (h : AddedOnce (calls ++ more)) :
    AddedOnce calls := by
  intro before c after hsplit
  apply h before c (after ++ more)
  rw [hsplit, List.append_assoc, List.cons_append]

variable [MediaPacket π]

/-- The source acts on a set of consumers throughout the calls. -/
structure ActsAsSet (calls : List (Call κ π)) : Prop where
  /-- A packet is dispatched once to each consumer in the set, and to nobody else. -/
  dispatched (before : List (Call κ π)) (e : Call κ π) (after : List (Call κ π))
    (x : Published π) (c : κ) : calls = before ++ e :: after → published [e] = [x] →
    received c ((run ({} : MediaSource κ π) before).1.call e).2 =
      if c ∈ members before then [⟨c, .live, x.packet⟩] else []
  /-- Outside of the set a consumer receives nothing but the replay of its joining. -/
  removed (before : List (Call κ π)) (e : Call κ π) (after : List (Call κ π)) (c : κ) :
    calls = before ++ e :: after → c ∉ members before → e.adds c = false →
    received c ((run ({} : MediaSource κ π) before).1.call e).2 = []
  /-- The size of the set is counted. -/
  counted (before after : List (Call κ π)) : calls = before ++ after →
    (run ({} : MediaSource κ π) before).1.consumerCount = (members before).card

/-- While consumers are added once, the list has each member of the set once. -/
theorem consumers_run {calls : List (Call κ π)} (h : AddedOnce calls) :
    (run ({} : MediaSource κ π) calls).1.consumers.Nodup ∧
      ∀ c, c ∈ (run ({} : MediaSource κ π) calls).1.consumers ↔ c ∈ members calls := by
  induction calls using List.reverseRecOn with
  | nil => exact ⟨List.nodup_nil, fun c => by simp [members, run, Mealy.exec]⟩
  | append_singleton calls e ih =>
    obtain ⟨hnodup, hmem⟩ := ih h.of_append
    rw [run_concat, members_concat, call_consumers]
    cases e with
    | addConsumer c =>
      have hnew : c ∉ (run ({} : MediaSource κ π) calls).1.consumers := by
        rw [hmem]
        exact h calls c [] rfl
      refine ⟨List.nodup_append_comm.mp (List.nodup_cons.mpr ⟨hnew, hnodup⟩), fun c' => ?_⟩
      rw [List.mem_append, List.mem_singleton, hmem, Call.change, Finset.mem_insert, or_comm]
    | removeConsumer c =>
      refine ⟨hnodup.erase c, fun c' => ?_⟩
      rw [hnodup.mem_erase_iff, hmem, Call.change, Finset.mem_erase]
    | _ => exact ⟨hnodup, hmem⟩

theorem AddedOnce.count {calls : List (Call κ π)} (h : AddedOnce calls) (c : κ) :
    (run ({} : MediaSource κ π) calls).1.consumers.count c =
      if c ∈ members calls then 1 else 0 := by
  obtain ⟨hnodup, hmem⟩ := consumers_run h
  rw [hnodup.count]
  simp only [hmem]

theorem actsAsSet_of_addedOnce {calls : List (Call κ π)} (h : AddedOnce calls) :
    ActsAsSet calls := by
  constructor
  · rintro before e after x c rfl hx
    have hadds : e.adds c = false := by
      cases e with
      | addConsumer c' => cases hx
      | _ => rfl
    rw [received_call, hadds, hx, h.of_append.count c]
    by_cases hmem : c ∈ members before <;> simp [hmem]
  · rintro before e after c rfl hnot hadds
    rw [received_call, hadds, h.of_append.count c, if_neg hnot]
    simp
  · rintro before after rfl
    obtain ⟨hnodup, hmem⟩ := consumers_run h.of_append
    have hset : (run ({} : MediaSource κ π) before).1.consumers.toFinset = members before := by
      ext c
      rw [List.mem_toFinset, hmem]
    rw [← hset, List.toFinset_card_of_nodup hnodup]
    rfl

/-- A member that is added again is counted twice. -/
theorem ActsAsSet.addedOnce {calls : List (Call κ π)} (h : ActsAsSet calls) :
    AddedOnce calls := by
  rintro before c after rfl hmem
  have hbefore := h.counted before _ rfl
  have hafter := h.counted (before ++ [.addConsumer c]) after
    (by rw [List.append_assoc, List.singleton_append])
  rw [members_concat, Call.change, Finset.insert_eq_of_mem hmem, ← hbefore, run_concat,
    consumerCount, call_consumers, List.length_append] at hafter
  exact absurd hafter (Nat.succ_ne_self _)

/-- The consumers act as a set if and only if none is added that is in it already. -/
theorem actsAsSet_iff (calls : List (Call κ π)) : ActsAsSet calls ↔ AddedOnce calls :=
  ⟨ActsAsSet.addedOnce, actsAsSet_of_addedOnce⟩

end Members

/-- A consumer that is added twice, and removed. -/
def twiceAdded : List (Call Nat Packet) :=
  [.addConsumer 0, .addConsumer 0, .removeConsumer 0, .onVideo keyframe]

/-- It still receives what is published. -/
theorem twiceAdded_not_set : ¬ ActsAsSet twiceAdded := by
  intro h
  have hnone := h.dispatched [.addConsumer 0, .addConsumer 0, .removeConsumer 0]
    (.onVideo keyframe) [] ⟨.video, keyframe⟩ 0 rfl rfl
  exact absurd hnone (by decide)

end MediaSource
