-- SUMMARY: Machines whose events touch one shard of the state: interleavings of the shards' events do not matter.
import OmegaStreamer.Lib.Mealy
import Mathlib.Logic.Function.Basic

/-!
# Sharded machines

A state made of one shard for each key. An event has a key and reads and writes
the shard of its key only. A run of the whole is then a run of every shard over
the shard's own events (`run_iff`), and two lists of events that agree on every
key have the same outcome (`run_interleave`).
-/

namespace Sharded

variable {κ τ ε ω : Type} [DecidableEq κ]

/-- The machine made of the shards' machine. -/
def step (shardStep : τ → ε → Option (τ × ω)) (key : ε → κ) (s : κ → τ) (e : ε) :
    Option ((κ → τ) × ω) :=
  (shardStep (s (key e)) e).map fun r => (Function.update s (key e) r.1, r.2)

/-- The events of a key. -/
def eventsOf (key : ε → κ) (k : κ) (es : List ε) : List ε := es.filter (key · = k)

/-- The outputs given to the events of a key. -/
def outputsOf (key : ε → κ) (k : κ) : List ε → List ω → List ω
  | e :: es, o :: os => if key e = k then o :: outputsOf key k es os else outputsOf key k es os
  | _, _ => []

variable {shardStep : τ → ε → Option (τ × ω)} {key : ε → κ}

theorem eventsOf_cons_self (e : ε) (es : List ε) :
    eventsOf key (key e) (e :: es) = e :: eventsOf key (key e) es := by
  simp [eventsOf]

theorem eventsOf_cons_of_ne {k : κ} {e : ε} (h : key e ≠ k) (es : List ε) :
    eventsOf key k (e :: es) = eventsOf key k es := by
  simp [eventsOf, h]

theorem outputsOf_cons_self (e : ε) (es : List ε) (o : ω) (os : List ω) :
    outputsOf key (key e) (e :: es) (o :: os) = o :: outputsOf key (key e) es os := if_pos rfl

theorem outputsOf_cons_of_ne {k : κ} {e : ε} (h : key e ≠ k) (es : List ε) (o : ω)
    (os : List ω) : outputsOf key k (e :: es) (o :: os) = outputsOf key k es os := if_neg h

theorem step_eq_some {s s' : κ → τ} {e : ε} {o : ω} (h : step shardStep key s e = some (s', o)) :
    ∃ t, shardStep (s (key e)) e = some (t, o) ∧ s' = Function.update s (key e) t := by
  obtain ⟨⟨t, o'⟩, hshard, heq⟩ := Option.map_eq_some_iff.mp h
  cases heq
  exact ⟨t, hshard, rfl⟩

/-- A run of the whole is a run of each shard. -/
theorem run_shard {s s' : κ → τ} {es : List ε} {os : List ω}
    (h : Mealy.run (step shardStep key) s es = some (s', os)) (k : κ) :
    Mealy.run shardStep (s k) (eventsOf key k es) = some (s' k, outputsOf key k es os) := by
  induction es generalizing s os with
  | nil =>
    cases h
    rfl
  | cons e es ih =>
    obtain ⟨t, o, os', hstep, hrun, rfl⟩ := Mealy.run_cons_eq_some h
    obtain ⟨u, hshard, rfl⟩ := step_eq_some hstep
    have hrest := ih hrun
    by_cases hk : key e = k
    · subst hk
      rw [Function.update_self] at hrest
      rw [eventsOf_cons_self, outputsOf_cons_self]
      exact Mealy.run_cons_of_step hshard hrest
    · rw [Function.update_of_ne (Ne.symm hk)] at hrest
      rw [eventsOf_cons_of_ne hk, outputsOf_cons_of_ne hk]
      exact hrest

/-- The runs of the shards make up a run of the whole. -/
theorem run_of_shards {s s' : κ → τ} {es : List ε} {outs : κ → List ω}
    (h : ∀ k, Mealy.run shardStep (s k) (eventsOf key k es) = some (s' k, outs k)) :
    ∃ os, Mealy.run (step shardStep key) s es = some (s', os) ∧
      ∀ k, outputsOf key k es os = outs k := by
  induction es generalizing s outs with
  | nil =>
    have hall k : s k = s' k ∧ [] = outs k := by
      have hk := h k
      simp only [eventsOf, List.filter_nil, Mealy.run_nil, Option.some.injEq,
        Prod.mk.injEq] at hk
      exact hk
    refine ⟨[], ?_, fun k => (hall k).2⟩
    rw [Mealy.run_nil, funext fun k => (hall k).1]
  | cons e es ih =>
    have hown := h (key e)
    rw [eventsOf_cons_self] at hown
    obtain ⟨t, o, os', hshard, hrun, houts⟩ := Mealy.run_cons_eq_some hown
    -- the other shards have not moved
    have hnext k : Mealy.run shardStep (Function.update s (key e) t k) (eventsOf key k es) =
        some (s' k, Function.update outs (key e) os' k) := by
      by_cases hk : key e = k
      · subst hk
        rw [Function.update_self, Function.update_self]
        exact hrun
      · have hother := h k
        rw [eventsOf_cons_of_ne hk] at hother
        rw [Function.update_of_ne (Ne.symm hk), Function.update_of_ne (Ne.symm hk)]
        exact hother
    obtain ⟨os, hrest, hos⟩ := ih hnext
    have hstep : step shardStep key s e = some (Function.update s (key e) t, o) := by
      rw [step, hshard]
      rfl
    refine ⟨o :: os, Mealy.run_cons_of_step hstep hrest, fun k => ?_⟩
    have hk' := hos k
    by_cases hk : key e = k
    · subst hk
      rw [Function.update_self] at hk'
      rw [outputsOf_cons_self, hk', houts]
    · rw [Function.update_of_ne (Ne.symm hk)] at hk'
      rw [outputsOf_cons_of_ne hk, hk']

/-- Two interleavings of the same events have the same outcome. -/
theorem run_interleave {s s' : κ → τ} {es es' : List ε} {os : List ω}
    (hsame : ∀ k, eventsOf key k es = eventsOf key k es')
    (h : Mealy.run (step shardStep key) s es = some (s', os)) :
    ∃ os', Mealy.run (step shardStep key) s es' = some (s', os') ∧
      ∀ k, outputsOf key k es' os' = outputsOf key k es os :=
  run_of_shards fun k => by
    rw [← hsame k]
    exact run_shard h k

/-- Every output is given to an event of some key. -/
theorem mem_outputsOf {es : List ε} {os : List ω} {o : ω} (hlen : os.length = es.length)
    (ho : o ∈ os) : ∃ k, o ∈ outputsOf key k es os := by
  induction es generalizing os with
  | nil =>
    rw [List.length_nil, List.length_eq_zero_iff] at hlen
    rw [hlen] at ho
    cases ho
  | cons e es ih =>
    cases os with
    | nil => cases ho
    | cons o' os =>
      rcases List.mem_cons.mp ho with rfl | hrest
      · refine ⟨key e, ?_⟩
        rw [outputsOf_cons_self]
        exact List.mem_cons_self
      · obtain ⟨k, hk⟩ := ih (Nat.succ.inj hlen) hrest
        refine ⟨k, ?_⟩
        by_cases he : key e = k
        · subst he
          rw [outputsOf_cons_self]
          exact List.mem_cons_of_mem _ hk
        · rw [outputsOf_cons_of_ne he]
          exact hk

theorem mem_of_mem_outputsOf {es : List ε} {os : List ω} {o : ω} {k : κ}
    (h : o ∈ outputsOf key k es os) : o ∈ os := by
  induction es generalizing os with
  | nil => cases os <;> cases h
  | cons e es ih =>
    cases os with
    | nil => cases h
    | cons o' os =>
      by_cases he : key e = k
      · subst he
        rw [outputsOf_cons_self] at h
        rcases List.mem_cons.mp h with rfl | hrest
        · exact List.mem_cons_self
        · exact List.mem_cons_of_mem _ (ih hrest)
      · rw [outputsOf_cons_of_ne he] at h
        exact List.mem_cons_of_mem _ (ih h)

end Sharded
