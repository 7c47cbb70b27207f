-- SUMMARY: Unsigned numbers as byte strings of a fixed width, in either byte order.
import Mathlib.Data.List.Basic
import Mathlib.Data.UInt
import Mathlib.Tactic.Common

/-!
# Byte orders

The number a byte string denotes, most significant byte first (`ofBE`) or least
significant byte first (`ofLE`), and the string of a given width that denotes a
number (`toBE`, `toLE`). Writing a number that fits and reading it back gives
the number.
-/

namespace Endian

/-- The number a byte string denotes, least significant byte first. -/
def ofLE : List UInt8 → Nat
  | [] => 0
  | b :: bs => b.toNat + 256 * ofLE bs

/-- The number a byte string denotes, most significant byte first. -/
def ofBE (bs : List UInt8) : Nat := ofLE bs.reverse

/-- The `w` low bytes of `n`, least significant byte first. -/
def toLE : Nat → Nat → List UInt8
  | 0, _ => []
  | w + 1, n => UInt8.ofNat n :: toLE w (n / 256)

/-- The `w` low bytes of `n`, most significant byte first. -/
def toBE (w n : Nat) : List UInt8 := (toLE w n).reverse

@[simp] theorem ofLE_nil : ofLE [] = 0 := rfl
@[simp] theorem ofLE_cons (b : UInt8) (bs : List UInt8) :
    ofLE (b :: bs) = b.toNat + 256 * ofLE bs := rfl

@[simp] theorem length_toLE (w n : Nat) : (toLE w n).length = w := by
  induction w generalizing n with
  | zero => rfl
  | succ w ih => simp [toLE, ih]

@[simp] theorem length_toBE (w n : Nat) : (toBE w n).length = w := by
  simp [toBE]

/-! ## Round trips -/

theorem ofLE_toLE (w n : Nat) : ofLE (toLE w n) = n % 256 ^ w := by
  induction w generalizing n with
  | zero => simp [toLE, Nat.mod_one]
  | succ w ih =>
    simp only [toLE, ofLE_cons, ih, UInt8.toNat_ofNat']
    rw [show (256 : Nat) ^ (w + 1) = 256 * 256 ^ w from Nat.pow_succ' .., Nat.mod_mul]

theorem ofBE_toBE (w n : Nat) : ofBE (toBE w n) = n % 256 ^ w := by
  simp [ofBE, toBE, ofLE_toLE]

theorem toLE_ofLE (bs : List UInt8) : toLE bs.length (ofLE bs) = bs := by
  induction bs with
  | nil => rfl
  | cons b bs ih =>
    have hb : b.toNat < 256 := b.toNat_lt
    have hlow : UInt8.ofNat (b.toNat + 256 * ofLE bs) = b := by
      apply UInt8.toNat_inj.mp
      rw [UInt8.toNat_ofNat', Nat.add_mul_mod_self_left, Nat.mod_eq_of_lt hb]
    have hhigh : (b.toNat + 256 * ofLE bs) / 256 = ofLE bs := by omega
    rw [List.length_cons, ofLE_cons, toLE, hlow, hhigh, ih]

theorem toBE_ofBE (bs : List UInt8) : toBE bs.length (ofBE bs) = bs := by
  have h := toLE_ofLE bs.reverse
  rw [List.length_reverse] at h
  rw [toBE, ofBE, h, List.reverse_reverse]

/-! ## Bounds -/

theorem ofLE_lt (bs : List UInt8) : ofLE bs < 256 ^ bs.length := by
  induction bs with
  | nil => simp
  | cons b bs ih =>
    have hb : b.toNat < 256 := b.toNat_lt
    rw [ofLE_cons, List.length_cons, Nat.pow_succ']
    omega

theorem ofBE_lt (bs : List UInt8) : ofBE bs < 256 ^ bs.length := by
  have h := ofLE_lt bs.reverse
  rwa [List.length_reverse] at h

/-! ## Fields -/

/-- The first bytes of a string are those of a number. -/
theorem exists_toLE {w : Nat} {p : List UInt8} (h : w ≤ p.length) :
    ∃ n < 256 ^ w, ∃ rest, p = toLE w n ++ rest := by
  have hlen : (p.take w).length = w := List.length_take_of_le h
  have hback := toLE_ofLE (p.take w)
  have hlt := ofLE_lt (p.take w)
  rw [hlen] at hback hlt
  exact ⟨_, hlt, p.drop w, by rw [hback, List.take_append_drop]⟩

theorem exists_toBE {w : Nat} {p : List UInt8} (h : w ≤ p.length) :
    ∃ n < 256 ^ w, ∃ rest, p = toBE w n ++ rest := by
  have hlen : (p.take w).length = w := List.length_take_of_le h
  have hback := toBE_ofBE (p.take w)
  have hlt := ofBE_lt (p.take w)
  rw [hlen] at hback hlt
  exact ⟨_, hlt, p.drop w, by rw [hback, List.take_append_drop]⟩

/-- Where a number is written in front, both it and what follows can be told. -/
theorem toLE_append_inj {w n m : Nat} {rest rest' : List UInt8} (hn : n < 256 ^ w)
    (hm : m < 256 ^ w) (h : toLE w n ++ rest = toLE w m ++ rest') : n = m ∧ rest = rest' := by
  obtain ⟨hfield, hrest⟩ := List.append_inj h (by rw [length_toLE, length_toLE])
  have hback := ofLE_toLE w n
  rw [hfield, ofLE_toLE, Nat.mod_eq_of_lt hn, Nat.mod_eq_of_lt hm] at hback
  exact ⟨hback.symm, hrest⟩

theorem toBE_append_inj {w n m : Nat} {rest rest' : List UInt8} (hn : n < 256 ^ w)
    (hm : m < 256 ^ w) (h : toBE w n ++ rest = toBE w m ++ rest') : n = m ∧ rest = rest' := by
  obtain ⟨hfield, hrest⟩ := List.append_inj h (by rw [length_toBE, length_toBE])
  have hback := ofBE_toBE w n
  rw [hfield, ofBE_toBE, Nat.mod_eq_of_lt hn, Nat.mod_eq_of_lt hm] at hback
  exact ⟨hback.symm, hrest⟩

end Endian
