-- SUMMARY: The byte readers and writers of the media code, and their meaning as numbers.
import OmegaStreamer.Lib.Endian

/-!
# BytesReader and BytesWriter

A pointer into a buffer is the byte string from that place on; the callers check
that it is long enough before they read. Each reader is proved to read the
number its bytes denote, and each writer to be undone by the reader.
-/

abbrev Bytes := List UInt8

/-- The `i`-th byte from a pointer. Reading past the end gives a zero byte here;
no caller does so. -/
def Bytes.at (p : Bytes) (i : Nat) : UInt8 := p.getD i 0

@[simp] theorem Bytes.at_cons_zero (b : UInt8) (p : Bytes) : Bytes.at (b :: p) 0 = b := rfl
@[simp] theorem Bytes.at_cons_succ (b : UInt8) (p : Bytes) (i : Nat) :
    Bytes.at (b :: p) (i + 1) = Bytes.at p i := rfl

theorem Bytes.at_append {p : Bytes} {i : Nat} (h : i < p.length) (q : Bytes) :
    Bytes.at (p ++ q) i = Bytes.at p i := by
  simp [Bytes.at, List.getElem?_append_left h]

theorem Bytes.at_drop (p : Bytes) (n i : Nat) : Bytes.at (p.drop n) i = Bytes.at p (n + i) := by
  simp [Bytes.at]

theorem Bytes.at_take {i n : Nat} (h : i < n) (p : Bytes) : Bytes.at (p.take n) i = Bytes.at p i := by
  simp [Bytes.at, h]

/-- The bytes of a string literal. All of them are ASCII. -/
def Bytes.ofAscii (s : String) : Bytes := s.toList.map fun c => UInt8.ofNat c.toNat

namespace BytesReader

def readUint8 (p : Bytes) : UInt8 := p.at 0

def readUint16BE (p : Bytes) : UInt16 :=
  (p.at 0).toUInt16 <<< 8 ||| (p.at 1).toUInt16

def readUint24BE (p : Bytes) : UInt32 :=
  (p.at 0).toUInt32 <<< 16 ||| (p.at 1).toUInt32 <<< 8 ||| (p.at 2).toUInt32

def readUint32BE (p : Bytes) : UInt32 :=
  (p.at 0).toUInt32 <<< 24 ||| (p.at 1).toUInt32 <<< 16 |||
    (p.at 2).toUInt32 <<< 8 ||| (p.at 3).toUInt32

/-- The only little-endian field of the protocol is the message stream id. -/
def readUint32LE (p : Bytes) : UInt32 :=
  (p.at 0).toUInt32 ||| (p.at 1).toUInt32 <<< 8 |||
    (p.at 2).toUInt32 <<< 16 ||| (p.at 3).toUInt32 <<< 24

end BytesReader

namespace BytesWriter

def writeUint16BE (val : UInt16) : Bytes :=
  [(val >>> 8 &&& 0xFF).toUInt8, (val &&& 0xFF).toUInt8]

def writeUint24BE (val : UInt32) : Bytes :=
  [(val >>> 16 &&& 0xFF).toUInt8, (val >>> 8 &&& 0xFF).toUInt8, (val &&& 0xFF).toUInt8]

def writeUint32BE (val : UInt32) : Bytes :=
  [(val >>> 24 &&& 0xFF).toUInt8, (val >>> 16 &&& 0xFF).toUInt8,
    (val >>> 8 &&& 0xFF).toUInt8, (val &&& 0xFF).toUInt8]

def writeUint32LE (val : UInt32) : Bytes :=
  [(val &&& 0xFF).toUInt8, (val >>> 8 &&& 0xFF).toUInt8,
    (val >>> 16 &&& 0xFF).toUInt8, (val >>> 24 &&& 0xFF).toUInt8]

end BytesWriter

/-! ## The numbers read -/

/-- A byte shifted into place above a smaller number is added to it there. -/
private theorem toNat_byte_or (c : UInt8) {b : UInt32} {k : Nat} (hk : k ≤ 24)
    (hb : b.toNat < 2 ^ k) :
    (c.toUInt32 <<< UInt32.ofNat k ||| b).toNat = c.toNat * 2 ^ k + b.toNat := by
  have hc : c.toNat < 2 ^ 8 := c.toNat_lt
  have hshift : (UInt32.ofNat k).toNat % 32 = k := by
    simp only [UInt32.toNat_ofNat']; omega
  have hfit : c.toNat * 2 ^ k < 2 ^ 32 := by
    calc c.toNat * 2 ^ k < 2 ^ 8 * 2 ^ k := by
          exact Nat.mul_lt_mul_of_pos_right hc (Nat.two_pow_pos k)
      _ = 2 ^ (8 + k) := (Nat.pow_add ..).symm
      _ ≤ 2 ^ 32 := Nat.pow_le_pow_right (by omega) (by omega)
  rw [UInt32.toNat_or, UInt32.toNat_shiftLeft, hshift, UInt8.toNat_toUInt32, Nat.shiftLeft_eq,
    Nat.mod_eq_of_lt hfit, ← Nat.shiftLeft_eq, ← Nat.shiftLeft_add_eq_or_of_lt hb,
    Nat.shiftLeft_eq]

namespace BytesReader

/-- Two bytes, the first above the second. -/
private theorem toNat_or₂ (a b : UInt8) :
    (a.toUInt32 <<< 8 ||| b.toUInt32).toNat = a.toNat * 2 ^ 8 + b.toNat := by
  have h := toNat_byte_or a (b := b.toUInt32) (k := 8) (by omega) (by simpa using b.toNat_lt)
  simpa using h

/-- Three bytes, each above the next. -/
private theorem toNat_or₃ (a b c : UInt8) :
    (a.toUInt32 <<< 16 ||| (b.toUInt32 <<< 8 ||| c.toUInt32)).toNat =
      a.toNat * 2 ^ 16 + (b.toNat * 2 ^ 8 + c.toNat) := by
  have hb := b.toNat_lt
  have hc := c.toNat_lt
  have h := toNat_byte_or a (b := b.toUInt32 <<< 8 ||| c.toUInt32) (k := 16) (by omega)
    (by rw [toNat_or₂]; omega)
  rw [toNat_or₂] at h
  exact h

/-- Four bytes, each above the next. -/
private theorem toNat_or₄ (a b c d : UInt8) :
    (a.toUInt32 <<< 24 ||| (b.toUInt32 <<< 16 ||| (c.toUInt32 <<< 8 ||| d.toUInt32))).toNat =
      a.toNat * 2 ^ 24 + (b.toNat * 2 ^ 16 + (c.toNat * 2 ^ 8 + d.toNat)) := by
  have hb := b.toNat_lt
  have hc := c.toNat_lt
  have hd := d.toNat_lt
  have h := toNat_byte_or a (b := b.toUInt32 <<< 16 ||| (c.toUInt32 <<< 8 ||| d.toUInt32))
    (k := 24) (by omega) (by rw [toNat_or₃]; omega)
  rw [toNat_or₃] at h
  exact h

theorem readUint16BE_toNat (p : Bytes) :
    (readUint16BE p).toNat = Endian.ofBE [p.at 0, p.at 1] := by
  have ha := (p.at 0).toNat_lt
  have hb := (p.at 1).toNat_lt
  have hfit : (p.at 0).toNat * 2 ^ 8 < 2 ^ 16 := by omega
  rw [readUint16BE, UInt16.toNat_or, UInt16.toNat_shiftLeft, UInt8.toNat_toUInt16,
    UInt8.toNat_toUInt16, show (8 : UInt16).toNat % 16 = 8 from rfl, Nat.shiftLeft_eq,
    Nat.mod_eq_of_lt hfit, ← Nat.shiftLeft_eq, ← Nat.shiftLeft_add_eq_or_of_lt hb,
    Nat.shiftLeft_eq]
  simp only [Endian.ofBE, List.reverse_cons, List.reverse_nil, List.nil_append,
    List.cons_append, Endian.ofLE_cons, Endian.ofLE_nil]
  omega

theorem readUint24BE_toNat (p : Bytes) :
    (readUint24BE p).toNat = Endian.ofBE [p.at 0, p.at 1, p.at 2] := by
  rw [readUint24BE, UInt32.or_assoc, toNat_or₃]
  simp only [Endian.ofBE, List.reverse_cons, List.reverse_nil, List.nil_append,
    List.cons_append, Endian.ofLE_cons, Endian.ofLE_nil]
  omega

theorem readUint32BE_toNat (p : Bytes) :
    (readUint32BE p).toNat = Endian.ofBE [p.at 0, p.at 1, p.at 2, p.at 3] := by
  rw [readUint32BE, UInt32.or_assoc, UInt32.or_assoc, toNat_or₄]
  simp only [Endian.ofBE, List.reverse_cons, List.reverse_nil, List.nil_append,
    List.cons_append, Endian.ofLE_cons, Endian.ofLE_nil]
  omega

theorem readUint32LE_toNat (p : Bytes) :
    (readUint32LE p).toNat = Endian.ofLE [p.at 0, p.at 1, p.at 2, p.at 3] := by
  have hcomm : readUint32LE p = (p.at 3).toUInt32 <<< 24 ||| ((p.at 2).toUInt32 <<< 16 |||
      ((p.at 1).toUInt32 <<< 8 ||| (p.at 0).toUInt32)) := by
    rw [readUint32LE, UInt32.or_comm (p.at 0).toUInt32, UInt32.or_comm _ ((p.at 2).toUInt32 <<< 16),
      UInt32.or_comm _ ((p.at 3).toUInt32 <<< 24)]
  rw [hcomm, toNat_or₄]
  simp only [Endian.ofLE_cons, Endian.ofLE_nil]
  omega

theorem readUint24BE_lt (p : Bytes) : (readUint24BE p).toNat < 2 ^ 24 := by
  have h := Endian.ofBE_lt [p.at 0, p.at 1, p.at 2]
  rw [readUint24BE_toNat]
  simpa using h

/-! ## Reading what is in the buffer -/

/-- A three-byte field depends on its three bytes only. -/
theorem readUint24BE_append {p : Bytes} (h : 3 ≤ p.length) (q : Bytes) :
    readUint24BE (p ++ q) = readUint24BE p := by
  simp only [readUint24BE, Bytes.at_append (show 0 < p.length by omega),
    Bytes.at_append (show 1 < p.length by omega), Bytes.at_append (show 2 < p.length by omega)]

theorem readUint32BE_append {p : Bytes} (h : 4 ≤ p.length) (q : Bytes) :
    readUint32BE (p ++ q) = readUint32BE p := by
  simp only [readUint32BE, Bytes.at_append (show 0 < p.length by omega),
    Bytes.at_append (show 1 < p.length by omega), Bytes.at_append (show 2 < p.length by omega),
    Bytes.at_append (show 3 < p.length by omega)]

theorem readUint32LE_append {p : Bytes} (h : 4 ≤ p.length) (q : Bytes) :
    readUint32LE (p ++ q) = readUint32LE p := by
  simp only [readUint32LE, Bytes.at_append (show 0 < p.length by omega),
    Bytes.at_append (show 1 < p.length by omega), Bytes.at_append (show 2 < p.length by omega),
    Bytes.at_append (show 3 < p.length by omega)]

/-! ## Reading back a field in wire format -/

theorem readUint16BE_toBE (n : Nat) (rest : Bytes) :
    (readUint16BE (Endian.toBE 2 n ++ rest)).toNat = n % 2 ^ 16 := by
  rw [readUint16BE_toNat]
  have h := Endian.ofBE_toBE 2 n
  simpa [Endian.toBE, Endian.toLE] using h

theorem readUint24BE_toBE (n : Nat) (rest : Bytes) :
    (readUint24BE (Endian.toBE 3 n ++ rest)).toNat = n % 2 ^ 24 := by
  rw [readUint24BE_toNat]
  have h := Endian.ofBE_toBE 3 n
  simpa [Endian.toBE, Endian.toLE] using h

theorem readUint32BE_toBE (n : Nat) (rest : Bytes) :
    (readUint32BE (Endian.toBE 4 n ++ rest)).toNat = n % 2 ^ 32 := by
  rw [readUint32BE_toNat]
  have h := Endian.ofBE_toBE 4 n
  simpa [Endian.toBE, Endian.toLE] using h

theorem readUint32LE_toLE (n : Nat) (rest : Bytes) :
    (readUint32LE (Endian.toLE 4 n ++ rest)).toNat = n % 2 ^ 32 := by
  rw [readUint32LE_toNat]
  have h := Endian.ofLE_toLE 4 n
  simpa [Endian.toLE] using h

end BytesReader

/-! ## Writing a field in wire format -/

namespace BytesWriter

/-- A byte of a word, taken by shifting and masking. -/
private theorem toUInt8_shift (val : UInt32) (k : Nat) (hk : k < 32) :
    (val >>> UInt32.ofNat k &&& 0xFF).toUInt8 = UInt8.ofNat (val.toNat / 2 ^ k) := by
  have hshift : (UInt32.ofNat k).toNat % 32 = k := by
    simp only [UInt32.toNat_ofNat']
    omega
  apply UInt8.toNat_inj.mp
  rw [UInt32.toNat_toUInt8, UInt32.toNat_and, UInt32.toNat_shiftRight, hshift,
    UInt8.toNat_ofNat', Nat.shiftRight_eq_div_pow]
  have hmask := Nat.and_two_pow_sub_one_eq_mod (val.toNat / 2 ^ k) 8
  simp only [UInt32.reduceToNat, Nat.reducePow, Nat.reduceSub] at hmask ⊢
  rw [hmask, Nat.mod_mod]

/-- The lowest byte is not shifted. -/
private theorem toUInt8_mask (val : UInt32) : (val &&& 0xFF).toUInt8 = UInt8.ofNat val.toNat := by
  have h := toUInt8_shift val 0 (by decide)
  simpa using h

theorem writeUint16BE_eq (val : UInt16) : writeUint16BE val = Endian.toBE 2 val.toNat := by
  have hhigh : (val >>> 8 &&& 0xFF).toUInt8 = UInt8.ofNat (val.toNat / 2 ^ 8) := by
    have h := toUInt8_shift val.toUInt32 8 (by decide)
    rw [UInt16.toNat_toUInt32] at h
    rw [← h]
    rfl
  have hlow : (val &&& 0xFF).toUInt8 = UInt8.ofNat val.toNat := by
    have h := toUInt8_mask val.toUInt32
    rw [UInt16.toNat_toUInt32] at h
    rw [← h]
    rfl
  rw [writeUint16BE, hhigh, hlow]
  rfl

theorem writeUint24BE_eq (val : UInt32) : writeUint24BE val = Endian.toBE 3 val.toNat := by
  have h16 := toUInt8_shift val 16 (by decide)
  have h8 := toUInt8_shift val 8 (by decide)
  have hlow := toUInt8_mask val
  simp only [UInt32.reduceOfNat, Nat.reducePow] at h16 h8
  simp only [writeUint24BE, h16, h8, hlow, Endian.toBE, Endian.toLE, List.reverse_cons,
    List.reverse_nil, List.nil_append, List.cons_append, Nat.div_div_eq_div_mul, Nat.reduceMul]

theorem writeUint32BE_eq (val : UInt32) : writeUint32BE val = Endian.toBE 4 val.toNat := by
  have h24 := toUInt8_shift val 24 (by decide)
  have h16 := toUInt8_shift val 16 (by decide)
  have h8 := toUInt8_shift val 8 (by decide)
  have hlow := toUInt8_mask val
  simp only [UInt32.reduceOfNat, Nat.reducePow] at h24 h16 h8
  simp only [writeUint32BE, h24, h16, h8, hlow, Endian.toBE, Endian.toLE, List.reverse_cons,
    List.reverse_nil, List.nil_append, List.cons_append, Nat.div_div_eq_div_mul, Nat.reduceMul]

theorem writeUint32LE_eq (val : UInt32) : writeUint32LE val = Endian.toLE 4 val.toNat := by
  have h24 := toUInt8_shift val 24 (by decide)
  have h16 := toUInt8_shift val 16 (by decide)
  have h8 := toUInt8_shift val 8 (by decide)
  have hlow := toUInt8_mask val
  simp only [UInt32.reduceOfNat, Nat.reducePow] at h24 h16 h8
  simp only [writeUint32LE, h24, h16, h8, hlow, Endian.toLE, Nat.div_div_eq_div_mul,
    Nat.reduceMul]

end BytesWriter
