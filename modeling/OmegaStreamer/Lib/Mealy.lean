-- SUMMARY: Partial Mealy machines: runs over lists of events, their outputs, and induction on runs.
import Mathlib.Data.List.Basic
import Mathlib.Data.List.Induction
import Mathlib.Tactic.Common

/-!
# Partial Mealy machines

A machine that takes an event in a state, or refuses it, and answers with a new
state and an output. A run takes a list of events and refuses it when it refuses
one of them. Facts about runs are proved with `run_induction`, one event at a
time from the front. A machine that refuses nothing has `exec` for its runs.
-/

namespace Mealy

variable {σ ε ω : Type}

/-- The events are taken one after another and the outputs are collected. -/
def run (step : σ → ε → Option (σ × ω)) : σ → List ε → Option (σ × List ω)
  | s, [] => some (s, [])
  | s, e :: es =>
    match step s e with
    | none => none
    | some (s', o) =>
      match run step s' es with
      | none => none
      | some (s'', os) => some (s'', o :: os)

variable {step : σ → ε → Option (σ × ω)}

@[simp] theorem run_nil (s : σ) : run step s [] = some (s, []) := rfl

/-- What a run over a first event is made of. -/
theorem run_cons_eq_some {s s' : σ} {e : ε} {es : List ε} {os : List ω}
    (h : run step s (e :: es) = some (s', os)) :
    ∃ t o os', step s e = some (t, o) ∧ run step t es = some (s', os') ∧ os = o :: os' := by
  cases hs : step s e with
  | none => simp [run, hs] at h
  | some p =>
    obtain ⟨t, o⟩ := p
    cases hr : run step t es with
    | none => simp [run, hs, hr] at h
    | some q =>
      obtain ⟨t', os'⟩ := q
      simp only [run, hs, hr, Option.some.injEq, Prod.mk.injEq] at h
      obtain ⟨rfl, rfl⟩ := h
      exact ⟨t, o, os', rfl, hr, rfl⟩

theorem run_cons_of_step {s t s' : σ} {e : ε} {es : List ε} {o : ω} {os : List ω}
    (hs : step s e = some (t, o)) (hr : run step t es = some (s', os)) :
    run step s (e :: es) = some (s', o :: os) := by
  simp [run, hs, hr]

/-- A run over two lists of events is a run over the first and then one over the
second. -/
theorem run_append_eq_some {s s' : σ} {es es' : List ε} {os : List ω}
    (h : run step s (es ++ es') = some (s', os)) :
    ∃ t os₁ os₂, run step s es = some (t, os₁) ∧ run step t es' = some (s', os₂) ∧
      os = os₁ ++ os₂ := by
  induction es generalizing s os with
  | nil => exact ⟨s, [], os, rfl, h, rfl⟩
  | cons e es ih =>
    obtain ⟨t, o, os', hs, hr, rfl⟩ := run_cons_eq_some h
    obtain ⟨u, os₁, os₂, h₁, h₂, rfl⟩ := ih hr
    exact ⟨u, o :: os₁, os₂, run_cons_of_step hs h₁, h₂, rfl⟩

theorem run_concat_eq_some {s s' : σ} {es : List ε} {e : ε} {os : List ω}
    (h : run step s (es ++ [e]) = some (s', os)) :
    ∃ t os₁ o, run step s es = some (t, os₁) ∧ step t e = some (s', o) ∧ os = os₁ ++ [o] := by
  obtain ⟨t, os₁, os₂, h₁, h₂, rfl⟩ := run_append_eq_some h
  obtain ⟨u, o, os', hs, hr, rfl⟩ := run_cons_eq_some h₂
  simp only [run_nil, Option.some.injEq, Prod.mk.injEq] at hr
  obtain ⟨rfl, rfl⟩ := hr
  exact ⟨t, os₁, o, h₁, hs, rfl⟩

theorem run_concat {s t s' : σ} {es : List ε} {e : ε} {os : List ω} {o : ω}
    (hr : run step s es = some (t, os)) (hs : step t e = some (s', o)) :
    run step s (es ++ [e]) = some (s', os ++ [o]) := by
  induction es generalizing s os with
  | nil =>
    simp only [run_nil, Option.some.injEq, Prod.mk.injEq] at hr
    obtain ⟨rfl, rfl⟩ := hr
    exact run_cons_of_step hs rfl
  | cons a es ih =>
    obtain ⟨u, o', os', ha, hu, rfl⟩ := run_cons_eq_some hr
    exact run_cons_of_step ha (ih hu)

/-- Induction on a run, the last event split off. The motive sees the events
taken, the outputs given and the state reached. -/
theorem run_induction {s : σ} {motive : List ε → List ω → σ → Prop}
    (nil : motive [] [] s)
    (concat : ∀ (es : List ε) (os : List ω) (t : σ) (e : ε) (t' : σ) (o : ω),
      run step s es = some (t, os) → motive es os t → step t e = some (t', o) →
      motive (es ++ [e]) (os ++ [o]) t')
    {es : List ε} {os : List ω} {s' : σ} (h : run step s es = some (s', os)) :
    motive es os s' := by
  induction es using List.reverseRecOn generalizing s' os with
  | nil =>
    simp only [run_nil, Option.some.injEq, Prod.mk.injEq] at h
    obtain ⟨rfl, rfl⟩ := h
    exact nil
  | append_singleton es e ih =>
    obtain ⟨t, os₁, o, h₁, hs, rfl⟩ := run_concat_eq_some h
    exact concat es os₁ t e s' o h₁ (ih h₁) hs

/-- What holds at first and is preserved by every step holds after a run. -/
theorem run_invariant (Inv : σ → Prop) {s s' : σ} {es : List ε} {os : List ω} (hs : Inv s)
    (hstep : ∀ t e t' o, Inv t → step t e = some (t', o) → Inv t')
    (h : run step s es = some (s', os)) : Inv s' :=
  run_induction (motive := fun _ _ t => Inv t) hs
    (fun _ _ t e t' o _ ht ho => hstep t e t' o ht ho) h

/-- There is an output for every event. -/
theorem length_run {s s' : σ} {es : List ε} {os : List ω} (h : run step s es = some (s', os)) :
    os.length = es.length := by
  induction es generalizing s os with
  | nil =>
    cases h
    rfl
  | cons e es ih =>
    obtain ⟨t, o, os', -, hrun, rfl⟩ := run_cons_eq_some h
    rw [List.length_cons, List.length_cons, ih hrun]

/-- What the step in the middle of a run is. -/
theorem run_split {s s' : σ} {es₁ es₂ : List ε} {e : ε} {os₁ os₂ : List ω} {o : ω}
    (h : run step s (es₁ ++ e :: es₂) = some (s', os₁ ++ o :: os₂))
    (hlen : es₁.length = os₁.length) :
    ∃ t u, run step s es₁ = some (t, os₁) ∧ step t e = some (u, o) ∧
      run step u es₂ = some (s', os₂) := by
  obtain ⟨t, outs, outs', hbefore, hrest, houts⟩ := run_append_eq_some h
  have hsame : os₁.length = outs.length := hlen.symm.trans (length_run hbefore).symm
  obtain ⟨rfl, rfl⟩ := List.append_inj houts hsame
  obtain ⟨u, o', os', hstep, hafter, heq⟩ := run_cons_eq_some hrest
  obtain ⟨rfl, rfl⟩ := List.cons.inj heq
  exact ⟨t, u, hbefore, hstep, hafter⟩

/-- A machine that moves as another one does, state by state, runs as it does. -/
theorem run_map {σ' : Type} {step' : σ' → ε → Option (σ' × ω)} (f : σ → σ')
    (hstep : ∀ s e, step' (f s) e = (step s e).map fun r => (f r.1, r.2)) (s : σ)
    (es : List ε) : run step' (f s) es = (run step s es).map fun r => (f r.1, r.2) := by
  induction es generalizing s with
  | nil => rfl
  | cons e es ih =>
    cases hs : step s e with
    | none => simp [run, hstep, hs]
    | some r =>
      simp only [run, hstep, hs, Option.map_some, ih]
      cases run step r.1 es <;> rfl

/-! ## Conditions on the steps of a run -/

/-- `P` holds of the state and the event at every step of the run. -/
def Along (step : σ → ε → Option (σ × ω)) (P : σ → ε → Prop) : σ → List ε → Prop
  | _, [] => True
  | s, e :: es =>
    P s e ∧
      match step s e with
      | none => True
      | some (s', _) => Along step P s' es

instance decidableAlong {P : σ → ε → Prop} [∀ s e, Decidable (P s e)] :
    (s : σ) → (es : List ε) → Decidable (Along step P s es)
  | _, [] => .isTrue trivial
  | s, e :: es =>
    match hs : step s e with
    | none => decidable_of_iff (P s e) (by simp only [Along, hs, and_true])
    | some (t, _) =>
      have : Decidable (Along step P t es) := decidableAlong t es
      decidable_of_iff (P s e ∧ Along step P t es) (by simp only [Along, hs])

@[simp] theorem along_nil (P : σ → ε → Prop) (s : σ) : Along step P s [] := trivial

theorem along_cons {P : σ → ε → Prop} {s t : σ} {e : ε} {es : List ε} {o : ω}
    (hs : step s e = some (t, o)) :
    Along step P s (e :: es) ↔ P s e ∧ Along step P t es := by
  simp [Along, hs]

/-- The condition on a run is the condition on all but its last step, and on its
last step. -/
theorem along_concat {P : σ → ε → Prop} {s t : σ} {es : List ε} {e : ε} {os : List ω}
    (h : run step s es = some (t, os)) :
    Along step P s (es ++ [e]) ↔ Along step P s es ∧ P t e := by
  induction es generalizing s os with
  | nil =>
    simp only [run_nil, Option.some.injEq, Prod.mk.injEq] at h
    obtain ⟨rfl, rfl⟩ := h
    simp only [List.nil_append, Along, true_and]
    cases step s e <;> simp
  | cons a es ih =>
    obtain ⟨u, o, os', hs, hr, rfl⟩ := run_cons_eq_some h
    rw [List.cons_append, along_cons hs, along_cons hs, ih hr, and_assoc]

theorem along_of_append {P : σ → ε → Prop} {s : σ} {es es' : List ε}
    (h : Along step P s (es ++ es')) : Along step P s es := by
  induction es generalizing s with
  | nil => trivial
  | cons e es ih =>
    refine ⟨h.1, ?_⟩
    cases hs : step s e with
    | none => trivial
    | some p =>
      have htail := h.2
      simp only [hs] at htail ⊢
      exact ih htail

/-! ## Total machines -/

/-- A machine that takes every event, and answers with any number of outputs. -/
def exec (step : σ → ε → σ × List ω) : σ → List ε → σ × List ω
  | s, [] => (s, [])
  | s, e :: es =>
    let (s', o) := step s e
    let (s'', os) := exec step s' es
    (s'', o ++ os)

theorem exec_append (step : σ → ε → σ × List ω) (s : σ) (es es' : List ε) :
    exec step s (es ++ es') =
      ((exec step (exec step s es).1 es').1,
        (exec step s es).2 ++ (exec step (exec step s es).1 es').2) := by
  induction es generalizing s with
  | nil => rfl
  | cons e es ih => simp [exec, ih]

theorem exec_concat (step : σ → ε → σ × List ω) (s : σ) (es : List ε) (e : ε) :
    exec step s (es ++ [e]) =
      ((step (exec step s es).1 e).1, (exec step s es).2 ++ (step (exec step s es).1 e).2) := by
  simp [exec_append, exec]

end Mealy
