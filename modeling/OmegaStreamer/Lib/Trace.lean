-- SUMMARY: Conditions on each element of a list that depend on what comes before it.
import Mathlib.Data.List.Basic
import Mathlib.Tactic.Common

/-!
# Traces

A condition `P before a` says when `a` may come after `before`. `Each P before
as` says it of every element of `as` where it stands, after `before`.
-/

namespace Trace

variable {α : Type} {P : List α → α → Prop}

/-- Every element of the second list satisfies `P` after what comes before it. -/
def Each (P : List α → α → Prop) : List α → List α → Prop
  | _, [] => True
  | before, a :: as => P before a ∧ Each P (before ++ [a]) as

@[simp] theorem each_nil (before : List α) : Each P before [] := trivial

theorem each_singleton (before : List α) (a : α) : Each P before [a] ↔ P before a := by
  simp [Each]

theorem each_append (before as bs : List α) :
    Each P before (as ++ bs) ↔ Each P before as ∧ Each P (before ++ as) bs := by
  induction as generalizing before with
  | nil => simp [Each]
  | cons a as ih => simp [Each, ih, and_assoc]

/-- What `Each` says of an element in the middle. -/
theorem each_iff (before as : List α) :
    Each P before as ↔ ∀ as₁ a as₂, as = as₁ ++ a :: as₂ → P (before ++ as₁) a := by
  induction as generalizing before with
  | nil => simp [Each]
  | cons b as ih =>
    rw [Each, ih]
    constructor
    · rintro ⟨hb, has⟩ as₁ a as₂ hsplit
      cases as₁ with
      | nil =>
        obtain ⟨rfl, -⟩ := List.cons.inj hsplit
        rwa [List.append_nil]
      | cons b' as₁ =>
        obtain ⟨rfl, htail⟩ := List.cons.inj hsplit
        have h := has as₁ a as₂ htail
        rwa [List.append_assoc] at h
    · intro h
      constructor
      · simpa using h [] b as rfl
      · intro as₁ a as₂ hsplit
        have hb := h (b :: as₁) a as₂ (by rw [hsplit]; rfl)
        rwa [List.append_assoc]

theorem Each.of_split {before as as₁ as₂ : List α} {a : α} (h : Each P before as)
    (hsplit : as = as₁ ++ a :: as₂) : P (before ++ as₁) a :=
  (each_iff before as).mp h as₁ a as₂ hsplit

/-- Where the condition does not change along the list it is one on its elements. -/
theorem each_congr {Q : α → Prop} {before as : List α}
    (h : ∀ as₁ a as₂, as = as₁ ++ a :: as₂ → (P (before ++ as₁) a ↔ Q a)) :
    Each P before as ↔ ∀ a ∈ as, Q a := by
  rw [each_iff]
  constructor
  · intro hP a ha
    obtain ⟨as₁, as₂, hsplit⟩ := List.append_of_mem ha
    exact (h as₁ a as₂ hsplit).mp (hP as₁ a as₂ hsplit)
  · intro hQ as₁ a as₂ hsplit
    exact (h as₁ a as₂ hsplit).mpr (hQ a (by rw [hsplit]; simp))

/-- A condition that becomes one on the elements as long as that one holds of all
that came before. The induction is on the list; what has been shown of its front
is the premise for the next element. -/
theorem each_iff_forall {Q : α → Prop} {before as : List α} (hbefore : ∀ b ∈ before, Q b)
    (h : Each (fun before a => (∀ b ∈ before, Q b) → (P before a ↔ Q a)) before as) :
    Each P before as ↔ ∀ a ∈ as, Q a := by
  induction as generalizing before with
  | nil => simp [Each]
  | cons a as ih =>
    rw [Each, List.forall_mem_cons, h.1 hbefore]
    refine and_congr_right fun ha => ih ?_ h.2
    intro b hb
    rcases List.mem_append.mp hb with hb | hb
    · exact hbefore b hb
    · rwa [List.mem_singleton.mp hb]

end Trace
