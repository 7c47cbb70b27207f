-- SUMMARY: Registries, whose values are created on demand, and what a coding of their names does to them.
import Mathlib.Data.List.AList
import OmegaStreamer.Lib.Mealy
import OmegaStreamer.Lib.Trace

/-!
# Registries

A finite map whose values are created when they are first asked for; the number
of a value tells it from all others. A registry may be addressed by names that
are coded as keys. It then behaves as the registry of the names themselves if and
only if no call is made with a name whose code is that of another live name
(`answers_coded_iff`).
-/

structure Registry (κ υ : Type) where
  entries : AList (fun _ : κ => υ) := ∅
  /-- The number of values created. -/
  created : Nat := 0

namespace Registry

variable {ν κ υ : Type} [DecidableEq κ]

def find (r : Registry κ υ) (k : κ) : Option υ := r.entries.lookup k

/-- The value of the key, created from its number if there is none. -/
def findOrCreate (r : Registry κ υ) (k : κ) (new : Nat → υ) : υ × Registry κ υ :=
  match r.find k with
  | some v => (v, r)
  | none =>
    (new r.created,
      { entries := r.entries.insert k (new r.created), created := r.created + 1 })

def remove (r : Registry κ υ) (k : κ) : Registry κ υ := { r with entries := r.entries.erase k }

def count (r : Registry κ υ) : Nat := r.entries.keys.length

theorem find_insert (r : Registry κ υ) (k k' : κ) (v : υ) (n : Nat) :
    ({ entries := r.entries.insert k v, created := n } : Registry κ υ).find k' =
      if k' = k then some v else r.find k' := by
  split
  · rename_i h
    rw [h]
    exact AList.lookup_insert _
  · rename_i h
    exact AList.lookup_insert_ne h

theorem find_remove (r : Registry κ υ) (k k' : κ) :
    (r.remove k).find k' = if k' = k then none else r.find k' := by
  split
  · rename_i h
    rw [h]
    exact AList.lookup_erase k r.entries
  · rename_i h
    exact AList.lookup_erase_ne h

theorem find_eq_none {r : Registry κ υ} {k : κ} : r.find k = none ↔ k ∉ r.entries :=
  AList.lookup_eq_none

theorem count_insert {r : Registry κ υ} {k : κ} (h : r.find k = none) (v : υ) (n : Nat) :
    ({ entries := r.entries.insert k v, created := n } : Registry κ υ).count = r.count + 1 := by
  have hnot : k ∉ r.entries.keys := find_eq_none.mp h
  rw [count, AList.keys_insert, List.length_cons, List.erase_of_not_mem hnot, count]

theorem count_remove_of_none {r : Registry κ υ} {k : κ} (h : r.find k = none) :
    (r.remove k).count = r.count := by
  have hnot : k ∉ r.entries.keys := find_eq_none.mp h
  simp only [count, remove, AList.keys_erase, List.erase_of_not_mem hnot]

theorem count_remove_of_some {r : Registry κ υ} {k : κ} {v : υ} (h : r.find k = some v) :
    (r.remove k).count + 1 = r.count := by
  have hmem : k ∈ r.entries.keys := by
    by_contra hnot
    rw [find_eq_none.mpr hnot] at h
    cases h
  have hpos := List.length_pos_of_mem hmem
  simp only [count, remove, AList.keys_erase, List.length_erase_of_mem hmem]
  omega

/-! ## Calls by name -/

inductive Call (ν : Type) where
  | find (a : ν)
  | findOrCreate (a : ν)
  | remove (a : ν)
  deriving DecidableEq, Repr

def Call.name : Call ν → ν
  | .find a => a
  | .findOrCreate a => a
  | .remove a => a

/-- What a call returns, and the number of entries after it. -/
structure Answer (υ : Type) where
  value : Option υ
  count : Nat
  deriving DecidableEq, Repr

/-- A call to the registry whose names are coded by `code`. -/
def call (code : ν → κ) (new : Nat → ν → υ) (r : Registry κ υ) :
    Call ν → Registry κ υ × List (Answer υ)
  | .find a => (r, [⟨r.find (code a), r.count⟩])
  | .findOrCreate a =>
    let (v, r) := r.findOrCreate (code a) fun n => new n a
    (r, [⟨some v, r.count⟩])
  | .remove a => (r.remove (code a), [⟨none, (r.remove (code a)).count⟩])

theorem length_call (code : ν → κ) (new : Nat → ν → υ) (r : Registry κ υ) (c : Call ν) :
    (r.call code new c).2.length = 1 := by
  cases c <;> rfl

/-- The name has been created and has not been removed since. -/
def Live (a : ν) (calls : List (Call ν)) : Prop :=
  ∃ pre post, calls = pre ++ .findOrCreate a :: post ∧ .remove a ∉ post

theorem not_live_nil (a : ν) : ¬ Live a [] := by
  rintro ⟨pre, post, h, -⟩
  cases pre <;> cases h

theorem live_concat (a : ν) (calls : List (Call ν)) (c : Call ν) :
    Live a (calls ++ [c]) ↔ c = .findOrCreate a ∨ (Live a calls ∧ c ≠ .remove a) := by
  constructor
  · rintro ⟨pre, post, h, hpost⟩
    cases post using List.reverseRecOn with
    | nil =>
      left
      exact List.singleton_inj.mp (List.append_inj' h rfl).2
    | append_singleton post c' =>
      right
      rw [← List.cons_append, ← List.append_assoc] at h
      obtain ⟨hcalls, hc⟩ := List.append_inj' h rfl
      rw [List.mem_append, not_or, List.mem_singleton] at hpost
      rw [List.singleton_inj.mp hc]
      exact ⟨⟨pre, post, hcalls, hpost.1⟩, fun h => hpost.2 h.symm⟩
  · rintro (rfl | ⟨⟨pre, post, rfl, hpost⟩, hc⟩)
    · exact ⟨calls, [], rfl, List.not_mem_nil⟩
    · refine ⟨pre, post ++ [c], by simp, ?_⟩
      rw [List.mem_append, not_or, List.mem_singleton]
      exact ⟨hpost, fun h => hc h.symm⟩

/-- The call's name is not coded as another live name is. -/
def Apart (code : ν → κ) (before : List (Call ν)) (c : Call ν) : Prop :=
  ∀ b, Live b before → code b = code c.name → b = c.name

/-! ## The registry of the names -/

section Names

variable [DecidableEq ν] {code : ν → κ} {new : Nat → ν → υ}

/-- What is live is what has an entry. -/
theorem find_exec_isSome (new : Nat → ν → υ) (a : ν) (calls : List (Call ν)) :
    ((Mealy.exec (call id new) ({} : Registry ν υ) calls).1.find a).isSome ↔ Live a calls := by
  induction calls using List.reverseRecOn with
  | nil => exact iff_of_false (by simp [Mealy.exec, find]) (not_live_nil a)
  | append_singleton calls c ih =>
    rw [Mealy.exec_concat, live_concat, ← ih]
    generalize (Mealy.exec (call id new) ({} : Registry ν υ) calls).1 = r
    cases c with
    | find b => simp [call]
    | findOrCreate b =>
      simp only [call, findOrCreate, id]
      cases hb : r.find b with
      | some v =>
        by_cases hab : a = b
        · simp [hab, hb]
        · simp [Ne.symm hab]
      | none =>
        simp only [find_insert]
        by_cases hab : a = b
        · simp [hab]
        · simp [hab, Ne.symm hab]
    | remove b =>
      simp only [call, id, find_remove]
      by_cases hab : a = b
      · simp [hab]
      · simp [hab, Ne.symm hab]

/-- The registry `r` of codes holds what the registry `m` of names holds. -/
structure Sim (code : ν → κ) (new : Nat → ν → υ) (r : Registry κ υ) (m : Registry ν υ) :
    Prop where
  created : r.created = m.created
  count : r.count = m.count
  find_code {a : ν} {v : υ} : m.find a = some v → r.find (code a) = some v
  code_find {k : κ} {v : υ} : r.find k = some v → ∃ a, code a = k ∧ m.find a = some v
  apart {a b : ν} {v w : υ} :
    m.find a = some v → m.find b = some w → code a = code b → a = b
  old {a : ν} {v : υ} : m.find a = some v → ∃ n b, n < m.created ∧ v = new n b

theorem sim_init (code : ν → κ) (new : Nat → ν → υ) : Sim code new {} {} where
  created := rfl
  count := rfl
  find_code h := by cases h
  code_find h := by cases h
  apart h := by cases h
  old h := by cases h

namespace Sim

variable {r : Registry κ υ} {m : Registry ν υ}

/-- A name without an entry, coded as no live name is, has none as a code. -/
theorem find_none (h : Sim code new r m) {a : ν} (hnone : m.find a = none)
    (hapart : ∀ b v, m.find b = some v → code b = code a → b = a) : r.find (code a) = none := by
  cases hr : r.find (code a) with
  | none => rfl
  | some v =>
    obtain ⟨b, hcode, hb⟩ := h.code_find hr
    rw [hapart b v hb hcode, hnone] at hb
    cases hb

theorem create (h : Sim code new r m) {a : ν} (hnone : m.find a = none)
    (hapart : ∀ b v, m.find b = some v → code b = code a → b = a) :
    Sim code new
      { entries := r.entries.insert (code a) (new r.created a), created := r.created + 1 }
      { entries := m.entries.insert a (new m.created a), created := m.created + 1 } := by
  have hnone' := h.find_none hnone hapart
  refine ⟨congrArg Nat.succ h.created, ?_, ?_, ?_, ?_, ?_⟩
  · rw [count_insert hnone', count_insert hnone, h.count]
  · intro b v hb
    rw [find_insert] at hb ⊢
    by_cases hba : b = a
    · rw [if_pos hba] at hb
      rw [hba, if_pos rfl, h.created]
      exact hb
    · rw [if_neg hba] at hb
      rw [if_neg fun heq => hba (hapart b v hb heq)]
      exact h.find_code hb
  · intro k v hk
    rw [find_insert] at hk
    by_cases hka : k = code a
    · rw [if_pos hka, h.created] at hk
      exact ⟨a, hka.symm, by rw [find_insert, if_pos rfl]; exact hk⟩
    · rw [if_neg hka] at hk
      obtain ⟨b, hcode, hb⟩ := h.code_find hk
      refine ⟨b, hcode, ?_⟩
      rw [find_insert, if_neg fun heq => hka (by rw [← hcode, heq])]
      exact hb
  · intro b c v w hb hc hcode
    rw [find_insert] at hb hc
    by_cases hba : b = a
    · by_cases hca : c = a
      · rw [hba, hca]
      · rw [if_neg hca] at hc
        rw [hba] at hcode ⊢
        exact (hapart c w hc hcode.symm).symm
    · rw [if_neg hba] at hb
      by_cases hca : c = a
      · rw [hca] at hcode ⊢
        exact hapart b v hb hcode
      · rw [if_neg hca] at hc
        exact h.apart hb hc hcode
  · intro b v hb
    rw [find_insert] at hb
    by_cases hba : b = a
    · rw [if_pos hba] at hb
      exact ⟨m.created, a, Nat.lt_succ_self _, (Option.some.inj hb).symm⟩
    · rw [if_neg hba] at hb
      obtain ⟨n, c, hlt, hv⟩ := h.old hb
      exact ⟨n, c, Nat.lt_succ_of_lt hlt, hv⟩

theorem remove (h : Sim code new r m) {a : ν}
    (hapart : ∀ b v, m.find b = some v → code b = code a → b = a) :
    Sim code new (r.remove (code a)) (m.remove a) := by
  refine ⟨h.created, ?_, ?_, ?_, ?_, ?_⟩
  · cases hm : m.find a with
    | none =>
      rw [count_remove_of_none hm, count_remove_of_none (h.find_none hm hapart), h.count]
    | some v =>
      have hcount := count_remove_of_some hm
      have hcount' := count_remove_of_some (h.find_code hm)
      rw [h.count, ← hcount] at hcount'
      exact Nat.succ.inj hcount'
  · intro b v hb
    rw [find_remove] at hb ⊢
    by_cases hba : b = a
    · rw [if_pos hba] at hb
      cases hb
    · rw [if_neg hba] at hb
      rw [if_neg fun heq => hba (hapart b v hb heq)]
      exact h.find_code hb
  · intro k v hk
    rw [find_remove] at hk
    by_cases hka : k = code a
    · rw [if_pos hka] at hk
      cases hk
    · rw [if_neg hka] at hk
      obtain ⟨b, hcode, hb⟩ := h.code_find hk
      refine ⟨b, hcode, ?_⟩
      rw [find_remove, if_neg fun heq => hka (by rw [← hcode, heq])]
      exact hb
  · intro b c v w hb hc
    rw [find_remove] at hb hc
    split at hb
    · cases hb
    · split at hc
      · cases hc
      · exact h.apart hb hc
  · intro b v hb
    rw [find_remove] at hb
    split at hb
    · cases hb
    · exact h.old hb

/-- A call whose name is apart from the live names is answered alike. -/
theorem call (h : Sim code new r m) {c : Call ν}
    (hapart : ∀ b v, m.find b = some v → code b = code c.name → b = c.name) :
    (r.call code new c).2 = (m.call id new c).2 ∧
      Sim code new (r.call code new c).1 (m.call id new c).1 := by
  cases c with
  | find a =>
    refine ⟨?_, h⟩
    have hfind : r.find (code a) = m.find a := by
      cases hm : m.find a with
      | none => exact h.find_none hm hapart
      | some v => exact h.find_code hm
    simp only [Registry.call, id, hfind, h.count]
  | findOrCreate a =>
    cases hm : m.find a with
    | none =>
      have hcreate := h.create hm hapart
      have hcount := hcreate.count
      simp only [Registry.call, Registry.findOrCreate, id, hm, h.find_none hm hapart] at hcount ⊢
      exact ⟨by rw [hcount, h.created], hcreate⟩
    | some v =>
      simp only [Registry.call, Registry.findOrCreate, id, hm, h.find_code hm, h.count]
      exact ⟨trivial, h⟩
  | remove a =>
    have hremove := h.remove hapart
    have hcount : (r.remove (code a)).count = (m.remove a).count := hremove.count
    exact ⟨congrArg (fun n => [(⟨none, n⟩ : Answer υ)]) hcount, hremove⟩

/-- A call whose name is coded as another live name is answered wrong. -/
theorem call_ne (h : Sim code new r m) (hnew : ∀ n n' a a', new n a = new n' a' → n = n')
    {c : Call ν} {b : ν} {v : υ} (hb : m.find b = some v) (hcode : code b = code c.name)
    (hne : b ≠ c.name) : (r.call code new c).2 ≠ (m.call id new c).2 := by
  have hcode' := h.find_code hb
  rw [hcode] at hcode'
  have hnone : m.find c.name = none := by
    cases hm : m.find c.name with
    | none => rfl
    | some w => exact absurd (h.apart hb hm hcode) hne
  cases c with
  | find a =>
    simp only [Call.name] at hcode' hnone
    simp [Registry.call, hcode', hnone]
  | findOrCreate a =>
    simp only [Call.name] at hcode' hnone
    obtain ⟨n, a', hlt, hv⟩ := h.old hb
    simp only [Registry.call, Registry.findOrCreate, id, hcode', hnone]
    intro heq
    simp only [List.cons.injEq, Answer.mk.injEq, Option.some.injEq, and_true] at heq
    rw [hv] at heq
    exact absurd (hnew _ _ _ _ heq.1) (Nat.ne_of_lt hlt)
  | remove a =>
    simp only [Call.name] at hcode' hnone
    have hcount := count_remove_of_some hcode'
    have hcount' := count_remove_of_none hnone
    rw [h.count] at hcount
    simp only [Registry.call, id]
    intro heq
    simp only [List.cons.injEq, Answer.mk.injEq, true_and, and_true] at heq
    omega

end Sim

/-- The answers of a registry with coded names are those of the registry of the
names if and only if every call is apart from the other live names. -/
theorem answers_coded_iff (code : ν → κ) {new : Nat → ν → υ}
    (hnew : ∀ n n' a a', new n a = new n' a' → n = n') (calls : List (Call ν)) :
    (Mealy.exec (call code new) ({} : Registry κ υ) calls).2 =
        (Mealy.exec (call id new) ({} : Registry ν υ) calls).2 ↔
      Trace.Each (Apart code) [] calls := by
  suffices hboth : ((Mealy.exec (call code new) ({} : Registry κ υ) calls).2 =
        (Mealy.exec (call id new) ({} : Registry ν υ) calls).2 ↔
      Trace.Each (Apart code) [] calls) ∧
      (Trace.Each (Apart code) [] calls →
        Sim code new (Mealy.exec (call code new) ({} : Registry κ υ) calls).1
          (Mealy.exec (call id new) ({} : Registry ν υ) calls).1) from hboth.1
  induction calls using List.reverseRecOn with
  | nil => exact ⟨iff_of_true rfl trivial, fun _ => sim_init code new⟩
  | append_singleton calls c ih =>
    obtain ⟨hiff, hsim⟩ := ih
    have hlast : ((Mealy.exec (call code new) ({} : Registry κ υ) calls).1.call code new c).2.length
        = ((Mealy.exec (call id new) ({} : Registry ν υ) calls).1.call id new c).2.length := by
      rw [length_call, length_call]
    rw [Mealy.exec_concat, Mealy.exec_concat, Trace.each_append, List.nil_append,
      Trace.each_singleton]
    have hlive (b : ν) : (∃ v, (Mealy.exec (call id new) ({} : Registry ν υ) calls).1.find b =
        some v) ↔ Live b calls := by
      rw [← find_exec_isSome new, Option.isSome_iff_exists]
    have happend {as bs as' bs' : List (Answer υ)} (hlen : bs.length = bs'.length) :
        as ++ bs = as' ++ bs' ↔ as = as' ∧ bs = bs' :=
      ⟨fun h => List.append_inj' h hlen, fun h => by rw [h.1, h.2]⟩
    rw [happend hlast, hiff]
    refine ⟨and_congr_right fun heach => ⟨fun hsame b hb hcode => ?_, fun hapart => ?_⟩, ?_⟩
    · obtain ⟨v, hv⟩ := (hlive b).mpr hb
      by_contra hne
      exact (hsim heach).call_ne hnew hv hcode hne hsame
    · exact ((hsim heach).call fun b v hv => hapart b ((hlive b).mp ⟨v, hv⟩)).1
    · rintro ⟨heach, hapart⟩
      exact ((hsim heach).call fun b v hv => hapart b ((hlive b).mp ⟨v, hv⟩)).2

end Names

end Registry
