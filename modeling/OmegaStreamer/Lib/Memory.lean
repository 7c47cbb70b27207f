-- SUMMARY: Blocks of memory whose loads and stores fail outside of their bounds.
import Mathlib.Data.List.Basic
import Mathlib.Tactic.Common

/-!
# Memory blocks

A block is a list of cells. A load or a store of a region that does not lie inside
the block fails, so that code written with them returns only if it stays inside.
-/

namespace Memory

variable {α : Type}

/-- The `len` cells from `start` on. -/
def load (block : List α) (start len : Nat) : Option (List α) :=
  if start + len ≤ block.length then some ((block.drop start).take len) else none

/-- The block with `cells` written from `start` on. -/
def store (block : List α) (start : Nat) (cells : List α) : Option (List α) :=
  if start + cells.length ≤ block.length then
    some (block.take start ++ cells ++ block.drop (start + cells.length))
  else none

/-- `len` cells copied from `src` to `dst`. The regions may overlap. -/
def move (block : List α) (dst src len : Nat) : Option (List α) :=
  (load block src len).bind (store block dst)

/-- The block cut or extended to `n` cells. -/
def resize (fill : α) (block : List α) (n : Nat) : List α :=
  block.take n ++ List.replicate (n - block.length) fill

section Load

variable {block cells : List α} {start len : Nat}

theorem load_of_le (h : start + len ≤ block.length) :
    load block start len = some ((block.drop start).take len) :=
  if_pos h

theorem load_eq_some (h : load block start len = some cells) :
    start + len ≤ block.length ∧ cells.length = len := by
  unfold load at h
  split at h
  · rename_i hle
    cases h
    refine ⟨hle, ?_⟩
    rw [List.length_take, List.length_drop]
    omega
  · cases h

/-- A region that is cut in two. -/
theorem load_drop (h : load block start len = some cells) {n : Nat} (hn : n ≤ len) :
    load block (start + n) (len - n) = some (cells.drop n) := by
  have hle := (load_eq_some h).1
  have hcells : (block.drop start).take len = cells := by
    rw [load_of_le hle] at h
    exact Option.some.inj h
  rw [load_of_le (by omega), ← hcells, List.drop_take, List.drop_drop]

end Load

section Store

variable {block cells : List α} {start : Nat}

theorem store_of_le (h : start + cells.length ≤ block.length) :
    ∃ block', store block start cells = some block' :=
  ⟨_, if_pos h⟩

theorem store_eq_some {block' : List α} (h : store block start cells = some block') :
    start + cells.length ≤ block.length ∧
      block' = block.take start ++ cells ++ block.drop (start + cells.length) := by
  unfold store at h
  split at h
  · rename_i hle
    exact ⟨hle, (Option.some.inj h).symm⟩
  · cases h

theorem length_store {block' : List α} (h : store block start cells = some block') :
    block'.length = block.length := by
  obtain ⟨hle, rfl⟩ := store_eq_some h
  simp only [List.length_append, List.length_take, List.length_drop]
  omega

/-- What is stored right behind a region extends it. -/
theorem load_store_behind {block' front : List α} {from' : Nat}
    (hload : load block from' (start - from') = some front) (hfrom : from' ≤ start)
    (h : store block start cells = some block') :
    load block' from' (start - from' + cells.length) = some (front ++ cells) := by
  obtain ⟨hle, rfl⟩ := store_eq_some h
  have hfront : (block.drop from').take (start - from') = front := by
    rw [load_of_le (load_eq_some hload).1] at hload
    exact Option.some.inj hload
  have hlen : (block.take start).length = start := by
    rw [List.length_take]
    omega
  have htake : (block.take start).drop from' = front := by
    rw [← hfront, List.drop_take]
  rw [load_of_le]
  · congr 1
    rw [List.append_assoc, List.drop_append_of_le_length (by omega), htake, ← List.append_assoc,
      List.take_left']
    rw [List.length_append, (load_eq_some hload).2]
  · simp only [List.length_append, hlen, List.length_drop]
    omega

/-- A region moved to the front of the block is found there. -/
theorem load_move {cells : List α} {src len : Nat} (hload : load block src len = some cells) :
    ∃ block', move block 0 src len = some block' ∧ block'.length = block.length ∧
      load block' 0 len = some cells := by
  obtain ⟨hle, hlen⟩ := load_eq_some hload
  have hroom : 0 + cells.length ≤ block.length := by omega
  obtain ⟨block', hstore⟩ := store_of_le hroom
  refine ⟨block', ?_, length_store hstore, ?_⟩
  · simp only [move, hload, Option.bind_some, hstore]
  · have hnil : load block 0 (0 - 0) = some [] := by
      rw [load_of_le (by omega), List.take_zero]
    have hbehind := load_store_behind hnil (Nat.le_refl 0) hstore
    simpa only [hlen, Nat.zero_add, Nat.sub_self, List.nil_append] using hbehind

end Store

theorem length_resize (fill : α) (block : List α) (n : Nat) :
    (resize fill block n).length = n := by
  rw [resize, List.length_append, List.length_take, List.length_replicate]
  omega

/-- Extending a block leaves its regions alone. -/
theorem load_resize {fill : α} {block cells : List α} {start len n : Nat}
    (hn : block.length ≤ n) (h : load block start len = some cells) :
    load (resize fill block n) start len = some cells := by
  have hle := (load_eq_some h).1
  have hcells : (block.drop start).take len = cells := by
    rw [load_of_le hle] at h
    exact Option.some.inj h
  rw [load_of_le (by rw [length_resize]; omega), resize, List.take_of_length_le hn,
    List.drop_append_of_le_length (by omega), List.take_append_of_le_length, hcells]
  rw [List.length_drop]
  omega

end Memory
