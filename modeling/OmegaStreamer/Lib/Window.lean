-- SUMMARY: The part of a history since its last mark, and a bounded buffer that keeps the beginning of it.
import Mathlib.Data.List.Basic
import Mathlib.Data.List.Induction
import Mathlib.Tactic.Common

/-!
# Windows

A history in which some elements are marks. The window is what comes since the
last mark, the mark included, and everything when there is none. A buffer with
room for `n` elements that is cleared by a mark holds the first `n` of them.
-/

namespace Window

variable {α : Type}

/-- The window after one more element. -/
def slide (mark : α → Bool) (window : List α) (a : α) : List α :=
  if mark a then [a] else window ++ [a]

/-- What comes since the last mark. -/
def sinceMark (mark : α → Bool) (history : List α) : List α := history.foldl (slide mark) []

/-- Store an element if there is room for it. -/
def push (n : Nat) (buf : List α) (a : α) : List α :=
  if buf.length < n then buf ++ [a] else buf

theorem sinceMark_concat (mark : α → Bool) (history : List α) (a : α) :
    sinceMark mark (history ++ [a]) = slide mark (sinceMark mark history) a := by
  simp [sinceMark, List.foldl_append]

theorem slide_map {β : Type} (f : α → β) (mark : β → Bool) (window : List α) (a : α) :
    slide mark (window.map f) (f a) = (slide (fun a => mark (f a)) window a).map f := by
  unfold slide
  split
  · rfl
  · rw [List.map_append]
    rfl

theorem sinceMark_map {β : Type} (f : α → β) (mark : β → Bool) (history : List α) :
    sinceMark mark (history.map f) = (sinceMark (fun a => mark (f a)) history).map f := by
  induction history using List.reverseRecOn with
  | nil => rfl
  | append_singleton history a ih =>
    rw [List.map_append, List.map_singleton, sinceMark_concat, ih, slide_map, sinceMark_concat]

theorem mem_of_mem_sinceMark {mark : α → Bool} {history : List α} {a : α}
    (h : a ∈ sinceMark mark history) : a ∈ history := by
  induction history using List.reverseRecOn with
  | nil => cases h
  | append_singleton history b ih =>
    rw [sinceMark_concat, slide] at h
    split at h
    · rw [List.mem_singleton.mp h]
      exact List.mem_append_right _ (List.mem_singleton_self b)
    · rcases List.mem_append.mp h with hold | hnew
      · exact List.mem_append_left _ (ih hold)
      · exact List.mem_append_right _ hnew

/-- Without a mark the window is the history. -/
theorem sinceMark_of_forall {mark : α → Bool} {history : List α} (h : ∀ a ∈ history, ¬ mark a) :
    sinceMark mark history = history := by
  induction history using List.reverseRecOn with
  | nil => rfl
  | append_singleton history a ih =>
    have hrest : ∀ b ∈ history, ¬ mark b := fun b hb => h b (List.mem_append_left _ hb)
    have ha : ¬ mark a := h a (by simp)
    rw [sinceMark_concat, ih hrest, slide, if_neg ha]

/-- The window of a history that is given with its last mark. -/
theorem sinceMark_eq {mark : α → Bool} {old new : List α} {key : α} (hkey : mark key)
    (hnew : ∀ a ∈ new, ¬ mark a) : sinceMark mark (old ++ key :: new) = key :: new := by
  induction new using List.reverseRecOn with
  | nil => rw [sinceMark_concat, slide, if_pos hkey]
  | append_singleton new a ih =>
    have hrest : ∀ b ∈ new, ¬ mark b := fun b hb => hnew b (List.mem_append_left _ hb)
    have ha : ¬ mark a := hnew a (by simp)
    have hsplit : old ++ key :: (new ++ [a]) = (old ++ key :: new) ++ [a] := by simp
    rw [hsplit, sinceMark_concat, ih hrest, slide, if_neg ha]
    rfl

/-- A history with a mark is given with its last one. -/
theorem exists_sinceMark {mark : α → Bool} {history : List α} (h : ∃ a ∈ history, mark a) :
    ∃ old key new, history = old ++ key :: new ∧ mark key ∧ (∀ a ∈ new, ¬ mark a) ∧
      sinceMark mark history = key :: new := by
  induction history using List.reverseRecOn with
  | nil =>
    obtain ⟨a, ha, -⟩ := h
    cases ha
  | append_singleton history b ih =>
    by_cases hb : mark b
    · refine ⟨history, b, [], rfl, hb, nofun, ?_⟩
      rw [sinceMark_concat, slide, if_pos hb]
    · have hrest : ∃ a ∈ history, mark a := by
        obtain ⟨a, ha, hmark⟩ := h
        rcases List.mem_append.mp ha with hold | hnew
        · exact ⟨a, hold, hmark⟩
        · rw [List.mem_singleton.mp hnew] at hmark
          exact absurd hmark hb
      obtain ⟨old, key, new, hsplit, hkey, hnew, hsince⟩ := ih hrest
      refine ⟨old, key, new ++ [b], by rw [hsplit]; simp, hkey, fun a ha => ?_, ?_⟩
      · rcases List.mem_append.mp ha with ha | ha
        · exact hnew a ha
        · rwa [List.mem_singleton.mp ha]
      · rw [sinceMark_concat, hsince, slide, if_neg hb]
        rfl

/-- A bounded buffer holds the beginning of what it was given. -/
theorem push_take (n : Nat) (window : List α) (a : α) :
    push n (window.take n) a = (window ++ [a]).take n := by
  unfold push
  split
  · rename_i hroom
    rw [List.length_take] at hroom
    rw [List.take_of_length_le (by omega), List.take_of_length_le]
    rw [List.length_append, List.length_singleton]
    omega
  · rename_i hfull
    rw [List.length_take] at hfull
    rw [List.take_append_of_le_length (by omega)]

theorem push_nil {n : Nat} (h : 0 < n) (a : α) : push n [] a = [a] := by
  rw [push, List.length_nil, if_pos h, List.nil_append]

theorem push_map {β : Type} (f : α → β) (n : Nat) (buf : List α) (a : α) :
    push n (buf.map f) (f a) = (push n buf a).map f := by
  unfold push
  rw [List.length_map]
  split
  · rw [List.map_append]
    rfl
  · rfl

/-- The buffer that a mark clears holds the beginning of the window. -/
theorem push_slide {n : Nat} (h : 0 < n) (mark : α → Bool) (window : List α) (a : α) :
    push n (if mark a then [] else window.take n) a = (slide mark window a).take n := by
  unfold slide
  split
  · rw [push_nil h, List.take_of_length_le h]
  · exact push_take n window a

end Window
