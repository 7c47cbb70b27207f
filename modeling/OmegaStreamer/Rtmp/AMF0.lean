-- SUMMARY: The AMF0 decoder: values, the reading of fields, and the recursion over objects.
import OmegaStreamer.Base.BytesReader

/-!
# AMF0Decoder

The decoder of `AMF0.cpp`: a byte array and a position. Each of its functions
returns a value and the decoder behind it. `Decode` and `DecodeObject` call each
other; a fuel bounds the depth of their calls.
-/

open BytesReader

/-! ## Values -/

def kAMF0Number : UInt8 := 0x00
def kAMF0Boolean : UInt8 := 0x01
def kAMF0String : UInt8 := 0x02
def kAMF0Object : UInt8 := 0x03
def kAMF0Null : UInt8 := 0x05
def kAMF0Undefined : UInt8 := 0x06
def kAMF0ECMAArray : UInt8 := 0x08
def kAMF0ObjectEnd : UInt8 := 0x09

inductive AMF0Value where
  /-- A double, as its 64-bit pattern. -/
  | number (bits : UInt64)
  | boolean (b : Bool)
  | string (s : Bytes)
  | object (properties : List (Bytes × AMF0Value))
  | null

namespace AMF0Object

/-- The first property with the key. -/
def get (properties : List (Bytes × AMF0Value)) (key : Bytes) : Option AMF0Value :=
  properties.lookup key

/-- Its value, if that is a string, and otherwise the empty string. -/
def getString (properties : List (Bytes × AMF0Value)) (key : Bytes) : Bytes :=
  match get properties key with
  | some (.string s) => s
  | _ => []

end AMF0Object

structure AMF0Decoder where
  data : Bytes
  pos : Nat := 0
  deriving DecidableEq, Repr

namespace AMF0Decoder

def len (d : AMF0Decoder) : Nat := d.data.length

def remaining (d : AMF0Decoder) : Nat := d.len - d.pos

/-! ## Fields -/

def readUint8 (d : AMF0Decoder) : UInt8 × AMF0Decoder :=
  if d.pos ≥ d.len then (0, d) else (d.data.at d.pos, { d with pos := d.pos + 1 })

def readUint16BE (d : AMF0Decoder) : UInt16 × AMF0Decoder :=
  if d.pos + 2 > d.len then (0, d)
  else (BytesReader.readUint16BE (d.data.drop d.pos), { d with pos := d.pos + 2 })

def readUint32BE (d : AMF0Decoder) : UInt32 × AMF0Decoder :=
  if d.pos + 4 > d.len then (0, d)
  else (BytesReader.readUint32BE (d.data.drop d.pos), { d with pos := d.pos + 4 })

/-- The eight bytes are turned round and copied into a double. -/
def readDouble (d : AMF0Decoder) : UInt64 × AMF0Decoder :=
  if d.pos + 8 > d.len then (0, d)
  else
    let bytes := ((d.data.drop d.pos).take 8).reverse
    (UInt64.ofNat (Endian.ofLE bytes), { d with pos := d.pos + 8 })

def readStringData (d : AMF0Decoder) (len : UInt16) : Bytes × AMF0Decoder :=
  if d.pos + len.toNat > d.len then ([], { d with pos := d.len })
  else ((d.data.drop d.pos).take len.toNat, { d with pos := d.pos + len.toNat })

def readObjectKey (d : AMF0Decoder) : Bytes × AMF0Decoder :=
  let (len, d) := d.readUint16BE
  d.readStringData len

def decodeNumber (d : AMF0Decoder) : UInt64 × AMF0Decoder := d.readDouble

def decodeBoolean (d : AMF0Decoder) : Bool × AMF0Decoder :=
  let (b, d) := d.readUint8
  (b != 0, d)

def decodeString (d : AMF0Decoder) : Bytes × AMF0Decoder :=
  let (len, d) := d.readUint16BE
  d.readStringData len

/-! ## Decode -/

mutual

/-- `Decode`. -/
def decodeFuel : Nat → AMF0Decoder → Option (AMF0Value × AMF0Decoder)
  | 0, _ => none
  | fuel + 1, d =>
    if d.pos ≥ d.len then some (.null, d)
    else
      let (marker, d) := d.readUint8
      if marker = kAMF0Number then
        let (n, d) := d.decodeNumber
        some (.number n, d)
      else if marker = kAMF0Boolean then
        let (b, d) := d.decodeBoolean
        some (.boolean b, d)
      else if marker = kAMF0String then
        let (s, d) := d.decodeString
        some (.string s, d)
      else if marker = kAMF0Object then
        match decodeObjectFuel fuel d with
        | none => none
        | some (properties, d) => some (.object properties, d)
      else if marker = kAMF0ECMAArray then
        -- the count is skipped
        let (_, d) := d.readUint32BE
        match decodeObjectFuel fuel d with
        | none => none
        | some (properties, d) => some (.object properties, d)
      else if marker = kAMF0Null then some (.null, d)
      else if marker = kAMF0Undefined then some (.null, d)
      else if marker = 0x3F then some (.null, { d with pos := d.len })
      else some (.null, d)

/-- The loop of `DecodeObject`. -/
def decodeObjectFuel : Nat → AMF0Decoder → Option (List (Bytes × AMF0Value) × AMF0Decoder)
  | 0, _ => none
  | fuel + 1, d =>
    if d.pos < d.len then
      let (key, d) := d.readObjectKey
      if key = [] ∧ d.pos < d.len ∧ d.data.at d.pos = kAMF0ObjectEnd then
        some ([], { d with pos := d.pos + 1 })
      else
        match decodeFuel fuel d with
        | none => none
        | some (val, d) =>
          match decodeObjectFuel fuel d with
          | none => none
          | some (properties, d) => some ((key, val) :: properties, d)
    else some ([], d)

end

/-- One call of `Decode`. Of any two calls in its recursion, one in the other, at
least one takes a byte, so that the fuel is enough. -/
def decode (d : AMF0Decoder) : Option (AMF0Value × AMF0Decoder) :=
  decodeFuel (2 * d.remaining + 1) d

/-- Successive calls of `Decode`. -/
def decodeMany : Nat → AMF0Decoder → Option (List AMF0Value × AMF0Decoder)
  | 0, d => some ([], d)
  | n + 1, d =>
    match d.decode with
    | none => none
    | some (val, d) =>
      match decodeMany n d with
      | none => none
      | some (vals, d) => some (val :: vals, d)

/-! ## Decode returns -/

/-- The second decoder is the first one further on, and not past the end. -/
structure Ahead (d d' : AMF0Decoder) : Prop where
  data_eq : d'.data = d.data
  pos_le : d.pos ≤ d'.pos
  pos_le_len : d'.pos ≤ d'.len

namespace Ahead

variable {d d' d'' : AMF0Decoder}

theorem self (h : d.pos ≤ d.len) : Ahead d d := ⟨rfl, Nat.le_refl _, h⟩

theorem trans (h : Ahead d d') (h' : Ahead d' d'') : Ahead d d'' :=
  ⟨h'.data_eq.trans h.data_eq, Nat.le_trans h.pos_le h'.pos_le, h'.pos_le_len⟩

theorem remaining_le (h : Ahead d d') : d'.remaining ≤ d.remaining := by
  have hpos := h.pos_le
  simp only [remaining, len, h.data_eq]
  omega

theorem remaining_lt (h : Ahead d d') (hlt : d.pos < d'.pos) : d'.remaining < d.remaining := by
  have hpos := h.pos_le_len
  simp only [len, h.data_eq] at hpos
  simp only [remaining, len, h.data_eq]
  omega

end Ahead

section Readers

variable {d : AMF0Decoder} (h : d.pos ≤ d.len)

include h

theorem readUint8_ahead : Ahead d d.readUint8.2 := by
  unfold readUint8
  split
  · exact .self h
  · rename_i hlt
    exact ⟨rfl, Nat.le_succ _, Nat.lt_of_not_le hlt⟩

theorem readUint16BE_ahead : Ahead d d.readUint16BE.2 := by
  unfold readUint16BE
  split
  · exact .self h
  · rename_i hle
    exact ⟨rfl, Nat.le_add_right _ _, Nat.le_of_not_lt hle⟩

theorem readUint32BE_ahead : Ahead d d.readUint32BE.2 := by
  unfold readUint32BE
  split
  · exact .self h
  · rename_i hle
    exact ⟨rfl, Nat.le_add_right _ _, Nat.le_of_not_lt hle⟩

theorem readDouble_ahead : Ahead d d.readDouble.2 := by
  unfold readDouble
  split
  · exact .self h
  · rename_i hle
    exact ⟨rfl, Nat.le_add_right _ _, Nat.le_of_not_lt hle⟩

theorem readStringData_ahead (n : UInt16) : Ahead d (d.readStringData n).2 := by
  unfold readStringData
  split
  · exact ⟨rfl, h, Nat.le_refl _⟩
  · rename_i hle
    exact ⟨rfl, Nat.le_add_right _ _, Nat.le_of_not_lt hle⟩

theorem readObjectKey_ahead : Ahead d d.readObjectKey.2 :=
  (readUint16BE_ahead h).trans (readStringData_ahead (readUint16BE_ahead h).pos_le_len _)

end Readers

/-- The marker has been taken. -/
theorem readUint8_pos {d : AMF0Decoder} (h : d.pos < d.len) :
    d.readUint8.2.pos = d.pos + 1 := by
  rw [readUint8, if_neg (Nat.not_le_of_lt h)]

/-- A value is decoded, and takes a byte if there is one. -/
def ValueReturns (fuel : Nat) (d : AMF0Decoder) : Prop :=
  ∃ v d', decodeFuel fuel d = some (v, d') ∧ Ahead d d' ∧ (d.pos < d.len → d.pos < d'.pos)

/-- The pairs of an object are decoded. -/
def ObjectReturns (fuel : Nat) (d : AMF0Decoder) : Prop :=
  ∃ ps d', decodeObjectFuel fuel d = some (ps, d') ∧ Ahead d d'

/-- A value returns if the objects behind its marker do. -/
theorem valueReturns_succ {fuel : Nat} {d : AMF0Decoder} (hd : d.pos ≤ d.len)
    (hobject : d.pos < d.len → ∀ d₂, Ahead d.readUint8.2 d₂ → ObjectReturns fuel d₂) :
    ValueReturns (fuel + 1) d := by
  unfold ValueReturns
  generalize hreturned : decodeFuel (fuel + 1) d = returned
  rw [decodeFuel] at hreturned
  obtain ⟨hend, rfl⟩ | ⟨hend, hreturned⟩ := ite_eq_iff.mp hreturned
  · exact ⟨.null, d, rfl, .self hd, fun hlt => absurd hend (Nat.not_le_of_lt hlt)⟩
  have hlt := Nat.lt_of_not_le hend
  have hmarker := readUint8_ahead hd
  have hpos := readUint8_pos hlt
  have hbehind := hobject hlt
  generalize d.readUint8 = r at hmarker hpos hbehind hreturned
  obtain ⟨marker, d₁⟩ := r
  simp only at hmarker hpos hbehind hreturned
  have hd₁ := hmarker.pos_le_len
  -- what is read behind the marker
  have hdone {v : AMF0Value} {d₂ : AMF0Decoder} (h₂ : Ahead d₁ d₂) :
      ∃ v' d', some (v, d₂) = some (v', d') ∧ Ahead d d' ∧ (d.pos < d.len → d.pos < d'.pos) :=
    ⟨v, d₂, rfl, hmarker.trans h₂, fun _ =>
      Nat.lt_of_lt_of_le (by rw [hpos]; exact Nat.lt_succ_self _) h₂.pos_le⟩
  obtain ⟨-, rfl⟩ | ⟨-, hreturned⟩ := ite_eq_iff.mp hreturned
  · exact hdone (readDouble_ahead hd₁)
  obtain ⟨-, rfl⟩ | ⟨-, hreturned⟩ := ite_eq_iff.mp hreturned
  · exact hdone (readUint8_ahead hd₁)
  obtain ⟨-, rfl⟩ | ⟨-, hreturned⟩ := ite_eq_iff.mp hreturned
  · exact hdone (readObjectKey_ahead hd₁)
  obtain ⟨-, rfl⟩ | ⟨-, hreturned⟩ := ite_eq_iff.mp hreturned
  · obtain ⟨ps, d₃, hps, h₃⟩ := hbehind d₁ (.self hd₁)
    rw [hps]
    exact hdone h₃
  obtain ⟨-, rfl⟩ | ⟨-, hreturned⟩ := ite_eq_iff.mp hreturned
  · have hcount := readUint32BE_ahead hd₁
    obtain ⟨ps, d₃, hps, h₃⟩ := hbehind _ hcount
    simp only [hps]
    exact hdone (hcount.trans h₃)
  obtain ⟨-, rfl⟩ | ⟨-, hreturned⟩ := ite_eq_iff.mp hreturned
  · exact hdone (.self hd₁)
  obtain ⟨-, rfl⟩ | ⟨-, hreturned⟩ := ite_eq_iff.mp hreturned
  · exact hdone (.self hd₁)
  obtain ⟨-, rfl⟩ | ⟨-, rfl⟩ := ite_eq_iff.mp hreturned
  · exact hdone ⟨rfl, hd₁, Nat.le_refl _⟩
  · exact hdone (.self hd₁)

/-- The pairs return if the value behind the key and the pairs behind that do. -/
theorem objectReturns_succ {fuel : Nat} {d : AMF0Decoder} (hd : d.pos ≤ d.len)
    (hvalue : d.pos < d.len → ValueReturns fuel d.readObjectKey.2)
    (hobject : d.pos < d.len → ∀ d₂, Ahead d.readObjectKey.2 d₂ →
      (d.readObjectKey.2.pos < d.readObjectKey.2.len → d.readObjectKey.2.pos < d₂.pos) →
      ObjectReturns fuel d₂) : ObjectReturns (fuel + 1) d := by
  unfold ObjectReturns
  rw [decodeObjectFuel]
  split
  swap
  · exact ⟨[], d, rfl, .self hd⟩
  rename_i hmore
  have hkey := readObjectKey_ahead hd
  have hfirst := hvalue hmore
  have hrest := hobject hmore
  generalize d.readObjectKey = r at hkey hfirst hrest
  obtain ⟨key, d₁⟩ := r
  simp only at hkey hfirst hrest ⊢
  split
  · rename_i hend
    exact ⟨[], _, rfl, hkey.data_eq, Nat.le_succ_of_le hkey.pos_le, hend.2.1⟩
  obtain ⟨v, d₂, hv, h₂, hlt⟩ := hfirst
  obtain ⟨ps, d₃, hps, h₃⟩ := hrest d₂ h₂ hlt
  simp only [hv, hps]
  exact ⟨_, d₃, rfl, (hkey.trans h₂).trans h₃⟩

/-- The two functions return when the fuel is two for each byte ahead. A value takes
its marker, and the loop of an object takes a value or ends. -/
theorem decodeFuel_isSome (fuel : Nat) : ∀ d : AMF0Decoder, d.pos ≤ d.len →
    (2 * d.remaining + 1 ≤ fuel → ValueReturns fuel d) ∧
    (2 * d.remaining + 2 ≤ fuel → ObjectReturns fuel d) := by
  induction fuel with
  | zero => exact fun d _ => ⟨nofun, nofun⟩
  | succ fuel ih =>
    intro d hd
    constructor
    · intro hfuel
      refine valueReturns_succ hd fun hlt d₂ h₂ => (ih d₂ h₂.pos_le_len).2 ?_
      have hmarker := (readUint8_ahead hd).remaining_lt
        (by rw [readUint8_pos hlt]; exact Nat.lt_succ_self _)
      have hle := h₂.remaining_le
      omega
    · intro hfuel
      have hkey := readObjectKey_ahead hd
      have hle := hkey.remaining_le
      refine objectReturns_succ hd (fun hmore => (ih _ hkey.pos_le_len).1 ?_)
        fun hmore d₂ h₂ hlt => (ih d₂ h₂.pos_le_len).2 ?_
      · omega
      · have hsome : 0 < d.remaining := Nat.sub_pos_of_lt hmore
        by_cases hval : d.readObjectKey.2.pos < d.readObjectKey.2.len
        · have hlt' := h₂.remaining_lt (hlt hval)
          omega
        · have hzero : d.readObjectKey.2.remaining = 0 :=
            Nat.sub_eq_zero_of_le (Nat.le_of_not_lt hval)
          have hle₂ := h₂.remaining_le
          omega

/-- `Decode` returns on every decoder that is not past the end of its data. -/
theorem decode_isSome {d : AMF0Decoder} (h : d.pos ≤ d.len) :
    ∃ v d', d.decode = some (v, d') ∧ Ahead d d' := by
  obtain ⟨v, d', hdecode, hahead, -⟩ := (decodeFuel_isSome _ d h).1 (Nat.le_refl _)
  exact ⟨v, d', hdecode, hahead⟩

/-- One call of `Decode`. It returns on every decoder that is reached. -/
def decodeNext (d : AMF0Decoder) : AMF0Value × AMF0Decoder := d.decode.getD (.null, d)

theorem decode_eq_some {d : AMF0Decoder} (h : d.pos ≤ d.len) : d.decode = some d.decodeNext := by
  obtain ⟨v, d', hdecode, -⟩ := decode_isSome h
  rw [decodeNext, hdecode]
  rfl

theorem decodeNext_ahead {d : AMF0Decoder} (h : d.pos ≤ d.len) : Ahead d d.decodeNext.2 := by
  obtain ⟨v, d', hdecode, hahead⟩ := decode_isSome h
  rw [decodeNext, hdecode]
  exact hahead

/-! ## Reading what is ahead -/

/-- The decoder that has `past` behind it and `ahead` in front. -/
def reading (past ahead : Bytes) : AMF0Decoder := ⟨past ++ ahead, past.length⟩

section Reading

variable (past rest : Bytes)

theorem reading_nil (data : Bytes) : reading [] data = { data } := rfl

@[simp] theorem reading_remaining (ahead : Bytes) :
    (reading past ahead).remaining = ahead.length := by
  simp [remaining, len, reading]

/-- A field that has been passed lies behind the decoder. -/
theorem reading_advance (field : Bytes) :
    { reading past (field ++ rest) with pos := (reading past (field ++ rest)).pos + field.length } =
      reading (past ++ field) rest := by
  simp [reading]

/-- A field that is ahead does not run past the end. -/
theorem reading_enough (field : Bytes) :
    ¬ (reading past (field ++ rest)).pos + field.length > (reading past (field ++ rest)).len := by
  simp only [reading, len, List.length_append]
  omega

theorem drop_reading (ahead : Bytes) :
    (reading past ahead).data.drop (reading past ahead).pos = ahead :=
  List.drop_left

theorem pos_lt_reading {ahead : Bytes} (h : ahead ≠ []) :
    (reading past ahead).pos < (reading past ahead).len := by
  have hpos := List.length_pos_of_ne_nil h
  simp only [reading, len, List.length_append]
  omega

theorem at_reading (b : UInt8) :
    (reading past (b :: rest)).data.at (reading past (b :: rest)).pos = b := by
  have h := Bytes.at_drop (reading past (b :: rest)).data (reading past (b :: rest)).pos 0
  rw [drop_reading, Nat.add_zero] at h
  exact h.symm

theorem readUint8_reading (b : UInt8) :
    (reading past (b :: rest)).readUint8 = (b, reading (past ++ [b]) rest) := by
  have hlt := pos_lt_reading past (List.cons_ne_nil b rest)
  have hadvance := reading_advance past rest [b]
  rw [readUint8, if_neg (Nat.not_le_of_lt hlt), at_reading]
  exact congrArg _ hadvance

theorem readUint16BE_reading (n : Nat) :
    (reading past (Endian.toBE 2 n ++ rest)).readUint16BE =
      (UInt16.ofNat n, reading (past ++ Endian.toBE 2 n) rest) := by
  have hval : BytesReader.readUint16BE (Endian.toBE 2 n ++ rest) = UInt16.ofNat n := by
    apply UInt16.toNat_inj.mp
    rw [readUint16BE_toBE, UInt16.toNat_ofNat']
  have hadvance := reading_advance past rest (Endian.toBE 2 n)
  have henough := reading_enough past rest (Endian.toBE 2 n)
  rw [Endian.length_toBE] at hadvance henough
  rw [readUint16BE, if_neg henough, drop_reading, hval, hadvance]

theorem readUint32BE_reading (n : Nat) :
    (reading past (Endian.toBE 4 n ++ rest)).readUint32BE.2 =
      reading (past ++ Endian.toBE 4 n) rest := by
  have hadvance := reading_advance past rest (Endian.toBE 4 n)
  have henough := reading_enough past rest (Endian.toBE 4 n)
  rw [Endian.length_toBE] at hadvance henough
  rw [readUint32BE, if_neg henough, hadvance]

theorem readDouble_reading (bits : UInt64) :
    (reading past (Endian.toBE 8 bits.toNat ++ rest)).readDouble =
      (bits, reading (past ++ Endian.toBE 8 bits.toNat) rest) := by
  have htake : (Endian.toBE 8 bits.toNat ++ rest).take 8 = Endian.toBE 8 bits.toNat :=
    List.take_left' (Endian.length_toBE 8 _)
  have hval : UInt64.ofNat (Endian.ofLE (Endian.toBE 8 bits.toNat).reverse) = bits := by
    rw [Endian.toBE, List.reverse_reverse, Endian.ofLE_toLE, Nat.mod_eq_of_lt]
    · exact UInt64.ofNat_toNat
    · exact bits.toNat_lt
  have hadvance := reading_advance past rest (Endian.toBE 8 bits.toNat)
  have henough := reading_enough past rest (Endian.toBE 8 bits.toNat)
  rw [Endian.length_toBE] at hadvance henough
  rw [readDouble, if_neg henough, drop_reading, hadvance, htake]
  simp only [hval]

theorem readStringData_reading (s : Bytes) {len : UInt16} (h : len.toNat = s.length) :
    (reading past (s ++ rest)).readStringData len = (s, reading (past ++ s) rest) := by
  rw [readStringData, h, if_neg (reading_enough past rest s), drop_reading, reading_advance,
    List.take_left]

/-! ### Missing bytes -/

theorem pos_reading_nil : ¬ (reading past []).pos < (reading past []).len := by
  simp [reading, len]

theorem pos_le_len_reading (ahead : Bytes) :
    (reading past ahead).pos ≤ (reading past ahead).len := by
  simp [reading, len]

theorem missing_reading {ahead : Bytes} {n : Nat} (h : ahead.length < n) :
    (reading past ahead).pos + n > (reading past ahead).len := by
  simp only [reading, len, List.length_append]
  omega

theorem readUint16BE_missing (ahead : Bytes) (h : ahead.length < 2) :
    (reading past ahead).readUint16BE = (0, reading past ahead) := by
  rw [readUint16BE, if_pos (missing_reading past h)]

theorem readUint32BE_missing (ahead : Bytes) (h : ahead.length < 4) :
    (reading past ahead).readUint32BE = (0, reading past ahead) := by
  rw [readUint32BE, if_pos (missing_reading past h)]

theorem readDouble_missing (ahead : Bytes) (h : ahead.length < 8) :
    (reading past ahead).readDouble = (0, reading past ahead) := by
  rw [readDouble, if_pos (missing_reading past h)]

/-- A string that is cut takes all that is left. -/
theorem readStringData_missing {ahead : Bytes} {len : UInt16} (h : ahead.length < len.toNat) :
    (reading past ahead).readStringData len = ([], reading (past ++ ahead) []) := by
  rw [readStringData, if_pos (missing_reading past h)]
  simp [reading, AMF0Decoder.len]

theorem readObjectKey_one (b : UInt8) : (reading past [b]).readObjectKey = ([], reading past [b]) := by
  have hdata := readStringData_reading past [b] [] (show (0 : UInt16).toNat = 0 from rfl)
  rw [readObjectKey, readUint16BE_missing past [b] (Nat.lt_succ_self _)]
  simpa using hdata

theorem decodeFuel_end (fuel : Nat) :
    decodeFuel (fuel + 1) (reading past []) = some (.null, reading past []) := by
  rw [decodeFuel, if_pos (Nat.le_of_not_lt (pos_reading_nil past))]

theorem decodeObjectFuel_end (fuel : Nat) :
    decodeObjectFuel (fuel + 1) (reading past []) = some ([], reading past []) := by
  rw [decodeObjectFuel, if_neg (pos_reading_nil past)]

/-- The value of a marker at the very end of the data. -/
def lastValue (marker : UInt8) : AMF0Value :=
  if marker = kAMF0Number then .number 0
  else if marker = kAMF0Boolean then .boolean false
  else if marker = kAMF0String then .string []
  else if marker = kAMF0Object ∨ marker = kAMF0ECMAArray then .object []
  else .null

theorem decodeFuel_one (fuel : Nat) (b : UInt8) :
    decodeFuel (fuel + 2) (reading past [b]) = some (lastValue b, reading (past ++ [b]) []) := by
  have hmore : ¬ (reading past [b]).pos ≥ (reading past [b]).len :=
    Nat.not_le_of_lt (pos_lt_reading past (List.cons_ne_nil b []))
  have hbyte : (reading (past ++ [b]) []).readUint8 = (0, reading (past ++ [b]) []) := by
    rw [readUint8, if_pos (Nat.le_of_not_lt (pos_reading_nil _))]
  have hdata := readStringData_reading (past ++ [b]) [] []
    (show (0 : UInt16).toNat = 0 from rfl)
  have hall : { reading (past ++ [b]) [] with pos := (reading (past ++ [b]) []).len } =
      reading (past ++ [b]) [] := by
    simp [reading, len]
  simp only [List.append_nil] at hdata
  rw [decodeFuel, if_neg hmore, readUint8_reading]
  simp only [decodeNumber, decodeBoolean, decodeString, hbyte, hdata, hall,
    readDouble_missing (past ++ [b]) [] (by decide),
    readUint16BE_missing (past ++ [b]) [] (by decide),
    readUint32BE_missing (past ++ [b]) [] (by decide), decodeObjectFuel_end]
  generalize hval : lastValue b = val
  rw [lastValue] at hval
  obtain ⟨hb, rfl⟩ | ⟨hb, hval⟩ := ite_eq_iff.mp hval
  · rw [if_pos hb]
  rw [if_neg hb]
  obtain ⟨hb, rfl⟩ | ⟨hb, hval⟩ := ite_eq_iff.mp hval
  · rw [if_pos hb]
    rfl
  rw [if_neg hb]
  obtain ⟨hb, rfl⟩ | ⟨hb, hval⟩ := ite_eq_iff.mp hval
  · rw [if_pos hb]
  rw [if_neg hb]
  obtain ⟨hobject | harray, rfl⟩ | ⟨hb, rfl⟩ := ite_eq_iff.mp hval
  · rw [if_pos hobject]
  · rw [harray]
    rfl
  · obtain ⟨hobject, harray⟩ := not_or.mp hb
    rw [if_neg hobject, if_neg harray]
    simp only [ite_self]

/-- One byte that is left in an object is its end, or the marker of a value. -/
theorem decodeObjectFuel_one (fuel : Nat) (b : UInt8) :
    decodeObjectFuel (fuel + 3) (reading past [b]) =
      some (if b = kAMF0ObjectEnd then [] else [([], lastValue b)],
        reading (past ++ [b]) []) := by
  have hmore := pos_lt_reading past (List.cons_ne_nil b [])
  have hadvance := reading_advance past [] [b]
  rw [List.append_nil] at hadvance
  rw [decodeObjectFuel, if_pos hmore, readObjectKey_one]
  simp only [at_reading, hmore, true_and, decodeFuel_one, decodeObjectFuel_end]
  split
  · exact congrArg (fun d => some ([], d)) hadvance
  · rfl

end Reading

end AMF0Decoder
