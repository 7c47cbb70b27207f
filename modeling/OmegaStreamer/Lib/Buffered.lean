-- SUMMARY: Stream parsers over a buffer object: what is retrieved from the object is what is taken from the list of its symbols.
import OmegaStreamer.Lib.Resumable

/-!
# Parsers over a buffer object

A driver loop that looks at the symbols of an object and retrieves each item from it.
Looking and retrieving may fail. When the object is a queue, the loop does not fail,
and does what `drain` does with the list.
-/

namespace Resumable

variable {σ α ω β : Type}

/-- The operations of an object that a parser uses. -/
structure BufferOps (β α : Type) where
  peek : β → Option (List α)
  retrieve : β → Nat → Option β

/-- As long as there are so many symbols, they can be looked at and retrieved. -/
structure BufferOps.IsQueue (ops : BufferOps β α) (Holds : β → List α → Prop) : Prop where
  peek {b : β} {q : List α} : Holds b q → ops.peek b = some q
  retrieve {b : β} {q : List α} {n : Nat} : Holds b q → n ≤ q.length →
    ∃ b', ops.retrieve b n = some b' ∧ Holds b' (q.drop n)

/-- What the loop leaves behind. -/
structure Drained (σ β ω : Type) where
  state : σ
  buffer : β
  delivered : List ω := []
  aborted : Bool := false

def Drained.prepend (out : List ω) (d : Drained σ β ω) : Drained σ β ω :=
  { d with delivered := out ++ d.delivered }

/-- Attempt items at the head of the object. -/
def drainInFuel (ops : BufferOps β α) (attempt : σ → List α → Attempt σ ω) :
    Nat → σ → β → Option (Drained σ β ω)
  | 0, s, b => some ⟨s, b, [], false⟩
  | fuel + 1, s, b =>
    match ops.peek b with
    | none => none
    | some [] => some ⟨s, b, [], false⟩
    | some (a :: buf) =>
      match attempt s (a :: buf) with
      | .wait s' => some ⟨s', b, [], false⟩
      | .abort s' => some ⟨s', b, [], true⟩
      | .item s' n out =>
        match ops.retrieve b n with
        | none => none
        | some b' => (drainInFuel ops attempt fuel s' b').map (Drained.prepend out)

/-- Consume every complete item of the object. -/
def drainIn (ops : BufferOps β α) (attempt : σ → List α → Attempt σ ω) (s : σ) (b : β) :
    Option (Drained σ β ω) :=
  match ops.peek b with
  | none => none
  | some buf => drainInFuel ops attempt buf.length s b

variable {ops : BufferOps β α} {Holds : β → List α → Prop} {attempt : σ → List α → Attempt σ ω}

private theorem drainInFuel_eq (hops : ops.IsQueue Holds) (hp : Progressive attempt) {fuel : Nat}
    {s : σ} {b : β} {q : List α} (h : Holds b q) :
    ∃ b', drainInFuel ops attempt fuel s b = some
        ⟨(drainFuel attempt fuel s q).state, b', (drainFuel attempt fuel s q).delivered,
          (drainFuel attempt fuel s q).aborted⟩ ∧
      Holds b' (drainFuel attempt fuel s q).unread := by
  induction fuel generalizing s b q with
  | zero => exact ⟨b, rfl, h⟩
  | succ fuel ih =>
    have hpeek := hops.peek h
    cases q with
    | nil => exact ⟨b, by simp [drainInFuel, drainFuel, hpeek], h⟩
    | cons a q =>
      cases hat : attempt s (a :: q) with
      | wait s' => exact ⟨b, by simp [drainInFuel, drainFuel, hpeek, hat], by simpa [drainFuel, hat]⟩
      | abort s' => exact ⟨b, by simp [drainInFuel, drainFuel, hpeek, hat], by simpa [drainFuel, hat]⟩
      | item s' n out =>
        obtain ⟨b₁, hretrieve, h₁⟩ := hops.retrieve h (hp _ _ _ _ _ hat).2
        obtain ⟨b', hrest, h'⟩ := ih (s := s') h₁
        refine ⟨b', ?_, by simpa only [drainFuel, hat, Config.prepend_unread] using h'⟩
        simp only [drainInFuel, drainFuel, hpeek, hat, hretrieve, hrest, Option.map_some]
        rfl

/-- The loop over a queue does what it does over the list. -/
theorem drainIn_eq (hops : ops.IsQueue Holds) (hp : Progressive attempt) {s : σ} {b : β}
    {q : List α} (h : Holds b q) :
    ∃ b', drainIn ops attempt s b = some
        ⟨(drain attempt s q).state, b', (drain attempt s q).delivered,
          (drain attempt s q).aborted⟩ ∧
      Holds b' (drain attempt s q).unread := by
  simp only [drainIn, hops.peek h]
  exact drainInFuel_eq hops hp h

end Resumable
