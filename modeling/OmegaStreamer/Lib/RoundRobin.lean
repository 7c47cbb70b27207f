-- SUMMARY: Dealing to places in turn, with the turn started again from time to time: what each place gets.
import Mathlib.Data.Int.CardIntervalMod
import Mathlib.Data.Nat.Count
import Mathlib.Tactic.Common

/-!
# Round robin

The deals are numbered, and a deal goes to the place that its number has among `n`
places. After `period` deals the numbers start at 0 again. Where `n` does not divide
`period` the first places then get one deal more than the others.
-/

namespace RoundRobin

/-- The place of a deal. -/
def place (n period i : Nat) : Nat := i % period % n

/-- What a place gets of the first deals. -/
def share (n period k j : Nat) : Nat := Nat.count (fun i => place n period i = j) k

/-- What a place gets of the first deals, as long as the numbers do not start again. -/
def turns (n k j : Nat) : Nat := k / n + if j < k % n then 1 else 0

variable {n period : Nat}

theorem place_lt (hn : 0 < n) (i : Nat) : place n period i < n := Nat.mod_lt _ hn

theorem count_congr {p q : Nat → Prop} [DecidablePred p] [DecidablePred q] {k : Nat}
    (h : ∀ i < k, (p i ↔ q i)) : Nat.count p k = Nat.count q k :=
  Nat.le_antisymm (Nat.count_mono_left fun i hi => (h i hi).mp)
    (Nat.count_mono_left fun i hi => (h i hi).mpr)

theorem count_mod {j : Nat} (hn : 0 < n) (hj : j < n) (k : Nat) :
    Nat.count (fun i => i % n = j) k = turns n k j := by
  have hcount := Nat.count_modEq_card k hn j
  rw [Nat.mod_eq_of_lt hj] at hcount
  rw [turns, ← hcount]
  refine count_congr fun i _ => ?_
  rw [Nat.ModEq, Nat.mod_eq_of_lt hj]

/-- In a part of a round the numbers do not start again. -/
theorem share_of_le {j k : Nat} (hn : 0 < n) (hj : j < n) (hk : k ≤ period) :
    share n period k j = turns n k j := by
  rw [← count_mod hn hj]
  refine count_congr fun i hi => ?_
  rw [place, Nat.mod_eq_of_lt (Nat.lt_of_lt_of_le hi hk)]

theorem share_add (q s j : Nat) :
    share n period (q * period + s) j = share n period (q * period) j + share n period s j := by
  rw [share, Nat.count_add]
  congr 1
  refine count_congr fun i _ => ?_
  rw [place, place, Nat.mul_add_mod_self_right]

theorem share_mul {j : Nat} (hn : 0 < n) (hj : j < n) (q : Nat) :
    share n period (q * period) j = q * turns n period j := by
  induction q with
  | zero => rw [Nat.zero_mul, Nat.zero_mul, share, Nat.count_zero]
  | succ q ih =>
    rw [Nat.succ_mul, Nat.succ_mul, share_add, ih, share_of_le hn hj (Nat.le_refl period)]

/-- What a place gets: its part of the complete rounds, and its part of the last one. -/
theorem share_eq {j : Nat} (hn : 0 < n) (hj : j < n) (hp : 0 < period) (k : Nat) :
    share n period k j = k / period * turns n period j + turns n (k % period) j := by
  have hk : k / period * period + k % period = k := by
    rw [Nat.mul_comm]
    exact Nat.div_add_mod k period
  have hlast : share n period (k % period) j = turns n (k % period) j :=
    share_of_le hn hj (Nat.le_of_lt (Nat.mod_lt k hp))
  rw [← share_mul hn hj, ← hlast, ← share_add, hk]

theorem turns_le {i j : Nat} (hij : i ≤ j) (k : Nat) :
    turns n k j ≤ turns n k i ∧ turns n k i ≤ turns n k j + 1 := by
  unfold turns
  split <;> split <;> omega

/-- No place gets less than one behind it, and the difference grows by at most one with
every round. -/
theorem share_le {i j : Nat} (hn : 0 < n) (hij : i ≤ j) (hj : j < n) (hp : 0 < period) (k : Nat) :
    share n period k j ≤ share n period k i ∧
      share n period k i ≤ share n period k j + (k / period + 1) := by
  obtain ⟨hround, hround'⟩ := turns_le (n := n) hij period
  obtain ⟨hlast, hlast'⟩ := turns_le (n := n) hij (k % period)
  rw [share_eq hn hj hp, share_eq hn (Nat.lt_of_le_of_lt hij hj) hp]
  have hmul := Nat.mul_le_mul_left (k / period) hround
  have hmul' := Nat.mul_le_mul_left (k / period) hround'
  rw [Nat.mul_add, Nat.mul_one] at hmul'
  omega

end RoundRobin
