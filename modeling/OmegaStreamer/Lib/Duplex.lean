-- SUMMARY: Two machines that write to each other over two ordered channels: each runs by itself, on what the other wrote.
import OmegaStreamer.Lib.Mealy

/-!
# Duplex links

Two parties, one on each side of a link. An event of a party takes items from the front of
the channel to it, in pieces of any size, and its output puts items at the end of the
channel from it. A run of the link interleaves the events of both sides in any way. It is a
run of each party over its own events (`run_parties`), and what a party has taken is the
beginning of what the other has given.
-/

namespace Duplex

variable {α σ τ ε φ ω ψ : Type}

/-- A machine that writes and reads items. -/
structure Party (α σ ε ω : Type) where
  step : σ → ε → Option (σ × ω)
  /-- What an event reads. -/
  takes : ε → List α
  /-- What an output writes. -/
  gives : ω → List α

/-- What the events of a run read. -/
def Party.taken (P : Party α σ ε ω) (es : List ε) : List α := es.flatMap P.takes

/-- What the outputs of a run write. -/
def Party.given (P : Party α σ ε ω) (os : List ω) : List α := os.flatMap P.gives

@[simp] theorem Party.taken_cons (P : Party α σ ε ω) (e : ε) (es : List ε) :
    P.taken (e :: es) = P.takes e ++ P.taken es := List.flatMap_cons

@[simp] theorem Party.given_cons (P : Party α σ ε ω) (o : ω) (os : List ω) :
    P.given (o :: os) = P.gives o ++ P.given os := List.flatMap_cons

/-- The two parties, and what each has written and the other has not read. -/
structure Link (α σ τ : Type) where
  left : σ
  right : τ
  toLeft : List α
  toRight : List α

inductive Event (ε φ : Type) where
  | left (e : ε)
  | right (e : φ)
  deriving DecidableEq, Repr

/-- The events of the left party. -/
def lefts (es : List (Event ε φ)) : List ε :=
  es.filterMap fun
    | .left e => some e
    | .right _ => none

/-- The events of the right party. -/
def rights (es : List (Event ε φ)) : List φ :=
  es.filterMap fun
    | .left _ => none
    | .right e => some e

/-- The outputs of the left party. -/
def leftOutputs (outs : List (ω ⊕ ψ)) : List ω := outs.filterMap Sum.getLeft?

/-- The outputs of the right party. -/
def rightOutputs (outs : List (ω ⊕ ψ)) : List ψ := outs.filterMap Sum.getRight?

/-- The items are read from the front of a channel. -/
def pull [DecidableEq α] (items channel : List α) : Option (List α) :=
  if items <+: channel then some (channel.drop items.length) else none

section Step

variable [DecidableEq α]

theorem pull_eq_some {items channel rest : List α} (h : pull items channel = some rest) :
    channel = items ++ rest := by
  unfold pull at h
  split at h
  · rename_i hprefix
    obtain ⟨rest', rfl⟩ := hprefix
    rw [List.drop_left] at h
    cases h
    rfl
  · cases h

/-- One event of either party. Nothing is read that has not been written before. -/
def step (P : Party α σ ε ω) (Q : Party α τ φ ψ) (l : Link α σ τ) :
    Event ε φ → Option (Link α σ τ × (ω ⊕ ψ))
  | .left e =>
    (pull (P.takes e) l.toLeft).bind fun toLeft =>
      (P.step l.left e).map fun (left, o) =>
        ({ l with left, toLeft, toRight := l.toRight ++ P.gives o }, .inl o)
  | .right e =>
    (pull (Q.takes e) l.toRight).bind fun toRight =>
      (Q.step l.right e).map fun (right, o) =>
        ({ l with right, toRight, toLeft := l.toLeft ++ Q.gives o }, .inr o)

variable {P : Party α σ ε ω} {Q : Party α τ φ ψ}

/-- What a step can do. -/
inductive Stepped (P : Party α σ ε ω) (Q : Party α τ φ ψ) (l : Link α σ τ) :
    Event ε φ → Link α σ τ → ω ⊕ ψ → Prop where
  | left {e : ε} {left : σ} {o : ω} {toLeft : List α} (hstep : P.step l.left e = some (left, o))
      (htaken : l.toLeft = P.takes e ++ toLeft) :
      Stepped P Q l (.left e)
        { l with left := left, toLeft := toLeft, toRight := l.toRight ++ P.gives o } (.inl o)
  | right {e : φ} {right : τ} {o : ψ} {toRight : List α}
      (hstep : Q.step l.right e = some (right, o)) (htaken : l.toRight = Q.takes e ++ toRight) :
      Stepped P Q l (.right e)
        { l with right := right, toRight := toRight, toLeft := l.toLeft ++ Q.gives o } (.inr o)

theorem step_eq_some {l l' : Link α σ τ} {e : Event ε φ} {o : ω ⊕ ψ}
    (h : step P Q l e = some (l', o)) : Stepped P Q l e l' o := by
  cases e with
  | left e =>
    obtain ⟨toLeft, hpull, h⟩ := Option.bind_eq_some_iff.mp h
    obtain ⟨⟨left, o'⟩, hstep, heq⟩ := Option.map_eq_some_iff.mp h
    cases heq
    exact .left hstep (pull_eq_some hpull)
  | right e =>
    obtain ⟨toRight, hpull, h⟩ := Option.bind_eq_some_iff.mp h
    obtain ⟨⟨right, o'⟩, hstep, heq⟩ := Option.map_eq_some_iff.mp h
    cases heq
    exact .right hstep (pull_eq_some hpull)

/-! ## Runs -/

/-- A run of a link, seen from its two sides. -/
structure Parted (P : Party α σ ε ω) (Q : Party α τ φ ψ) (l : Link α σ τ) (es : List (Event ε φ))
    (l' : Link α σ τ) (outs : List (ω ⊕ ψ)) : Prop where
  left : Mealy.run P.step l.left (lefts es) = some (l'.left, leftOutputs outs)
  right : Mealy.run Q.step l.right (rights es) = some (l'.right, rightOutputs outs)
  /-- What the left party reads is what the right one writes, in order. -/
  toLeft : P.taken (lefts es) ++ l'.toLeft = l.toLeft ++ Q.given (rightOutputs outs)
  toRight : Q.taken (rights es) ++ l'.toRight = l.toRight ++ P.given (leftOutputs outs)

/-- A run of the link is a run of each party. -/
theorem run_parties {l l' : Link α σ τ} {es : List (Event ε φ)} {outs : List (ω ⊕ ψ)}
    (h : Mealy.run (step P Q) l es = some (l', outs)) : Parted P Q l es l' outs := by
  induction es generalizing l outs with
  | nil =>
    cases h
    exact ⟨rfl, rfl, (List.append_nil _).symm, (List.append_nil _).symm⟩
  | cons e es ih =>
    obtain ⟨m, o, outs', hlink, hrun, rfl⟩ := Mealy.run_cons_eq_some h
    have hparted := ih hrun
    cases step_eq_some hlink with
    | @left e left o toLeft hstep htaken =>
      refine ⟨Mealy.run_cons_of_step hstep hparted.left, hparted.right, ?_, ?_⟩
      · show P.taken (e :: lefts es) ++ l'.toLeft = l.toLeft ++ Q.given (rightOutputs outs')
        rw [Party.taken_cons, List.append_assoc, hparted.toLeft, htaken, List.append_assoc]
      · show Q.taken (rights es) ++ l'.toRight = l.toRight ++ P.given (o :: leftOutputs outs')
        rw [Party.given_cons, ← List.append_assoc]
        exact hparted.toRight
    | @right e right o toRight hstep htaken =>
      refine ⟨hparted.left, Mealy.run_cons_of_step hstep hparted.right, ?_, ?_⟩
      · show P.taken (lefts es) ++ l'.toLeft = l.toLeft ++ Q.given (o :: rightOutputs outs')
        rw [Party.given_cons, ← List.append_assoc]
        exact hparted.toLeft
      · show Q.taken (e :: rights es) ++ l'.toRight = l.toRight ++ P.given (leftOutputs outs')
        rw [Party.taken_cons, List.append_assoc, hparted.toRight, htaken, List.append_assoc]

end Step

end Duplex
