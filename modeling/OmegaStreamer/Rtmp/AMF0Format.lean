-- SUMMARY: The documented grammar of AMF0, and the decoder on what is written in it.
import OmegaStreamer.Rtmp.AMF0

/-!
# The AMF0 grammar

The values of the comment in `AMF0.h` and their bytes. `Decode` reads each of
them back, whatever follows, and stops at its end. Nothing in an object can be
taken for its end, because no value begins with the end marker.
-/

open BytesReader

/-- A string or a key. Its length is written in two bytes. -/
structure AMF0String where
  bytes : Bytes
  length_le : bytes.length ≤ 65535

mutual

/-- A documented value. -/
inductive AMF0Syntax where
  | number (bits : UInt64)
  | boolean (b : Bool)
  | string (s : AMF0String)
  | object (pairs : AMF0Pairs)
  | null
  | undefined
  | ecmaArray (count : UInt32) (pairs : AMF0Pairs)

/-- The key-value pairs of an object or an array. -/
inductive AMF0Pairs where
  | nil
  | cons (key : AMF0String) (val : AMF0Syntax) (rest : AMF0Pairs)

end

/-! ## Bytes -/

def AMF0String.encode (s : AMF0String) : Bytes := Endian.toBE 2 s.bytes.length ++ s.bytes

def emptyKey : AMF0String := ⟨[], Nat.zero_le _⟩

/-- A key of length 0 and the marker. -/
def objectEnd : Bytes := [0x00, 0x00, kAMF0ObjectEnd]

mutual

def AMF0Syntax.encode : AMF0Syntax → Bytes
  | .number bits => kAMF0Number :: Endian.toBE 8 bits.toNat
  | .boolean b => [kAMF0Boolean, if b then 1 else 0]
  | .string s => kAMF0String :: s.encode
  | .object pairs => kAMF0Object :: (pairs.encode ++ objectEnd)
  | .null => [kAMF0Null]
  | .undefined => [kAMF0Undefined]
  | .ecmaArray count pairs =>
    kAMF0ECMAArray :: (Endian.toBE 4 count.toNat ++ (pairs.encode ++ objectEnd))

def AMF0Pairs.encode : AMF0Pairs → Bytes
  | .nil => []
  | .cons key val rest => key.encode ++ (val.encode ++ rest.encode)

end

/-- Values one after another. -/
def encodeAll (vals : List AMF0Syntax) : Bytes := vals.flatMap AMF0Syntax.encode

/-! ## Meaning -/

mutual

/-- The value that the decoder has for it. -/
def AMF0Syntax.value : AMF0Syntax → AMF0Value
  | .number bits => .number bits
  | .boolean b => .boolean b
  | .string s => .string s.bytes
  | .object pairs => .object pairs.properties
  | .null => .null
  | .undefined => .null
  | .ecmaArray _ pairs => .object pairs.properties

def AMF0Pairs.properties : AMF0Pairs → List (Bytes × AMF0Value)
  | .nil => []
  | .cons key val rest => (key.bytes, val.value) :: rest.properties

end

/-! ## Reading back -/

theorem AMF0String.two_le_length_encode (s : AMF0String) : 2 ≤ s.encode.length := by
  simp [encode]

theorem AMF0String.encode_append_ne_nil (s : AMF0String) (rest : Bytes) :
    s.encode ++ rest ≠ [] := by
  have hlen := s.two_le_length_encode
  intro hempty
  rw [(List.append_eq_nil_iff.mp hempty).1] at hlen
  exact absurd hlen (by decide)

/-- No value begins with the end marker. -/
theorem AMF0Syntax.encode_head (v : AMF0Syntax) :
    ∃ marker tail, v.encode = marker :: tail ∧ marker ≠ kAMF0ObjectEnd := by
  cases v with
  | number bits => exact ⟨_, _, rfl, by decide⟩
  | boolean b => exact ⟨_, _, rfl, by decide⟩
  | string s => exact ⟨_, _, rfl, by decide⟩
  | object pairs => exact ⟨_, _, rfl, by decide⟩
  | null => exact ⟨_, _, rfl, by decide⟩
  | undefined => exact ⟨_, _, rfl, by decide⟩
  | ecmaArray count pairs => exact ⟨_, _, rfl, by decide⟩

namespace AMF0Decoder

theorem readObjectKey_reading (past rest : Bytes) (s : AMF0String) :
    (reading past (s.encode ++ rest)).readObjectKey = (s.bytes, reading (past ++ s.encode) rest) := by
  have hlen : (UInt16.ofNat s.bytes.length).toNat = s.bytes.length := by
    rw [UInt16.toNat_ofNat', Nat.mod_eq_of_lt (Nat.lt_succ_of_le s.length_le)]
  rw [readObjectKey, AMF0String.encode, List.append_assoc, readUint16BE_reading]
  simp only [readStringData_reading _ _ _ hlen, List.append_assoc]

theorem decodeString_reading (past rest : Bytes) (s : AMF0String) :
    (reading past (s.encode ++ rest)).decodeString = (s.bytes, reading (past ++ s.encode) rest) :=
  readObjectKey_reading past rest s

theorem decodeBoolean_reading (past rest : Bytes) (b : Bool) :
    (reading past ((if b then 1 else 0) :: rest)).decodeBoolean =
      (b, reading (past ++ [if b then 1 else 0]) rest) := by
  rw [decodeBoolean, readUint8_reading]
  cases b <;> rfl

/-- Bytes that do not begin with the end marker. -/
def NotEnded (ahead : Bytes) : Prop := ∀ b tail, ahead = b :: tail → b ≠ kAMF0ObjectEnd

theorem notEnded_encode (v : AMF0Syntax) (rest : Bytes) : NotEnded (v.encode ++ rest) := by
  intro b tail h
  obtain ⟨marker, more, hv, hne⟩ := v.encode_head
  rw [hv, List.cons_append] at h
  cases h
  exact hne

theorem NotEnded.take {ahead : Bytes} (h : NotEnded ahead) (k : Nat) : NotEnded (ahead.take k) := by
  intro b tail htake
  cases ahead with
  | nil =>
    rw [List.take_nil] at htake
    cases htake
  | cons b' rest =>
    cases k with
    | zero => cases htake
    | succ k =>
      cases htake
      exact h b rest rfl

/-- A key, the value behind it, and the pairs behind that. -/
theorem decodeObjectFuel_pair {fuel : Nat} {past ahead : Bytes} (key : AMF0String)
    {val : AMF0Value} {d₂ d₃ : AMF0Decoder} {properties : List (Bytes × AMF0Value)}
    (hend : NotEnded ahead)
    (hval : decodeFuel fuel (reading (past ++ key.encode) ahead) = some (val, d₂))
    (hrest : decodeObjectFuel fuel d₂ = some (properties, d₃)) :
    decodeObjectFuel (fuel + 1) (reading past (key.encode ++ ahead)) =
      some ((key.bytes, val) :: properties, d₃) := by
  rw [decodeObjectFuel, if_pos (pos_lt_reading _ (key.encode_append_ne_nil _)),
    readObjectKey_reading]
  simp only [hval, hrest]
  rw [if_neg]
  intro hmark
  cases ahead with
  | nil => exact pos_reading_nil _ hmark.2.1
  | cons b tail =>
    rw [at_reading] at hmark
    exact hend b tail rfl hmark.2.2

/-- An object behind its marker. -/
theorem decodeFuel_object {fuel : Nat} {past ahead : Bytes}
    {properties : List (Bytes × AMF0Value)} {d : AMF0Decoder}
    (h : decodeObjectFuel fuel (reading (past ++ [kAMF0Object]) ahead) = some (properties, d)) :
    decodeFuel (fuel + 1) (reading past (kAMF0Object :: ahead)) = some (.object properties, d) := by
  have hmore : ¬ (reading past (kAMF0Object :: ahead)).pos ≥
      (reading past (kAMF0Object :: ahead)).len :=
    Nat.not_le_of_lt (pos_lt_reading past (List.cons_ne_nil _ _))
  rw [decodeFuel, if_neg hmore, readUint8_reading]
  simp +decide only [if_false, if_true, h]

/-- An array behind its marker. -/
theorem decodeFuel_ecmaArray {fuel : Nat} {past ahead : Bytes}
    {properties : List (Bytes × AMF0Value)} {d : AMF0Decoder}
    (h : decodeObjectFuel fuel (reading (past ++ [kAMF0ECMAArray]) ahead).readUint32BE.2 =
      some (properties, d)) :
    decodeFuel (fuel + 1) (reading past (kAMF0ECMAArray :: ahead)) =
      some (.object properties, d) := by
  have hmore : ¬ (reading past (kAMF0ECMAArray :: ahead)).pos ≥
      (reading past (kAMF0ECMAArray :: ahead)).len :=
    Nat.not_le_of_lt (pos_lt_reading past (List.cons_ne_nil _ _))
  rw [decodeFuel, if_neg hmore, readUint8_reading]
  simp +decide only [if_false, if_true, h]

mutual

/-- Two units of fuel for each byte are enough. -/
theorem decodeFuel_encode : ∀ (v : AMF0Syntax) (fuel : Nat) (past rest : Bytes),
    2 * v.encode.length ≤ fuel →
    decodeFuel fuel (reading past (v.encode ++ rest)) =
      some (v.value, reading (past ++ v.encode) rest)
  | v, 0, past, rest, h => by
    obtain ⟨marker, tail, hv, -⟩ := v.encode_head
    rw [hv, List.length_cons] at h
    omega
  | v, fuel + 1, past, rest, h => by
    obtain ⟨marker, tail, hv, -⟩ := v.encode_head
    have hpos : ¬ (reading past (v.encode ++ rest)).pos ≥ (reading past (v.encode ++ rest)).len :=
      Nat.not_le_of_lt (pos_lt_reading _ (by rw [hv]; exact List.cons_ne_nil _ _))
    rw [decodeFuel, if_neg hpos]
    cases v with
    | number bits =>
      simp +decide only [AMF0Syntax.encode, List.cons_append, readUint8_reading, if_true,
        decodeNumber, readDouble_reading, AMF0Syntax.value]
      simp
    | boolean b =>
      simp +decide only [AMF0Syntax.encode, List.cons_append, List.nil_append, readUint8_reading,
        if_true, if_false, decodeBoolean_reading, AMF0Syntax.value]
      simp
    | string s =>
      simp +decide only [AMF0Syntax.encode, List.cons_append, readUint8_reading, if_true, if_false,
        decodeString_reading, AMF0Syntax.value]
      simp
    | object pairs =>
      have hpairs := decodeObjectFuel_encode pairs fuel (past ++ [kAMF0Object]) rest (by
        simp only [AMF0Syntax.encode, List.length_cons] at h
        omega)
      simp +decide only [AMF0Syntax.encode, List.cons_append, readUint8_reading, if_true, if_false,
        hpairs, AMF0Syntax.value]
      simp
    | null =>
      simp +decide only [AMF0Syntax.encode, List.cons_append, List.nil_append, readUint8_reading,
        if_true, if_false, AMF0Syntax.value]
    | undefined =>
      simp +decide only [AMF0Syntax.encode, List.cons_append, List.nil_append, readUint8_reading,
        if_true, if_false, AMF0Syntax.value]
    | ecmaArray count pairs =>
      have hpairs := decodeObjectFuel_encode pairs fuel
        (past ++ [kAMF0ECMAArray] ++ Endian.toBE 4 count.toNat) rest (by
          simp only [AMF0Syntax.encode, List.length_cons, List.length_append] at h ⊢
          omega)
      simp +decide only [AMF0Syntax.encode, List.cons_append, readUint8_reading, if_true, if_false,
        List.append_assoc (Endian.toBE 4 count.toNat), readUint32BE_reading, hpairs,
        AMF0Syntax.value]
      simp

theorem decodeObjectFuel_encode : ∀ (pairs : AMF0Pairs) (fuel : Nat) (past rest : Bytes),
    2 * (pairs.encode ++ objectEnd).length ≤ fuel →
    decodeObjectFuel fuel (reading past (pairs.encode ++ objectEnd ++ rest)) =
      some (pairs.properties, reading (past ++ (pairs.encode ++ objectEnd)) rest)
  | pairs, 0, past, rest, h => by
    simp [objectEnd] at h
  | .nil, fuel + 1, past, rest, _ => by
    -- the end marker comes after an empty key
    have hahead : AMF0Pairs.nil.encode ++ objectEnd ++ rest =
        emptyKey.encode ++ kAMF0ObjectEnd :: rest := rfl
    have hend := pos_lt_reading (past ++ emptyKey.encode) (List.cons_ne_nil kAMF0ObjectEnd rest)
    have hadvance := reading_advance (past ++ emptyKey.encode) rest [kAMF0ObjectEnd]
    rw [List.append_assoc] at hadvance
    rw [hahead, decodeObjectFuel, if_pos (pos_lt_reading _ (emptyKey.encode_append_ne_nil _)),
      readObjectKey_reading]
    exact (if_pos ⟨rfl, hend, at_reading _ _ _⟩).trans (congrArg (fun d => some ([], d)) hadvance)
  | .cons key val pairs, fuel + 1, past, rest, h => by
    have hahead : (AMF0Pairs.cons key val pairs).encode ++ objectEnd ++ rest =
        key.encode ++ (val.encode ++ (pairs.encode ++ objectEnd ++ rest)) := by
      simp [AMF0Pairs.encode]
    simp only [AMF0Pairs.encode, List.length_append] at h
    have hkey := key.two_le_length_encode
    have hval := decodeFuel_encode val fuel (past ++ key.encode)
      (pairs.encode ++ objectEnd ++ rest) (by omega)
    have hpairs := decodeObjectFuel_encode pairs fuel (past ++ key.encode ++ val.encode) rest (by
      rw [List.length_append]
      omega)
    rw [hahead, decodeObjectFuel_pair key (notEnded_encode val _) hval hpairs]
    simp [AMF0Pairs.properties, AMF0Pairs.encode]

end

theorem decode_encode (v : AMF0Syntax) (past rest : Bytes) :
    (reading past (v.encode ++ rest)).decode = some (v.value, reading (past ++ v.encode) rest) := by
  apply decodeFuel_encode v _ past rest
  rw [reading_remaining, List.length_append]
  omega

theorem decodeMany_reading (vals : List AMF0Syntax) (past rest : Bytes) :
    decodeMany vals.length (reading past (encodeAll vals ++ rest)) =
      some (vals.map AMF0Syntax.value, reading (past ++ encodeAll vals) rest) := by
  induction vals generalizing past with
  | nil => simp [decodeMany, encodeAll]
  | cons v vals ih =>
    have hahead : encodeAll (v :: vals) ++ rest = v.encode ++ (encodeAll vals ++ rest) := by
      simp [encodeAll]
    have hpast : past ++ encodeAll (v :: vals) = past ++ v.encode ++ encodeAll vals := by
      simp [encodeAll]
    rw [hahead, hpast, List.length_cons, decodeMany, decode_encode]
    simp only [ih, List.map_cons]

/-- Successive calls of `Decode` return the values that were written, whatever
comes after them, and each of them stops at the end of its value. -/
theorem decodeMany_encodeAll (vals more : List AMF0Syntax) (rest : Bytes) :
    decodeMany vals.length { data := encodeAll (vals ++ more) ++ rest } =
      some (vals.map AMF0Syntax.value,
        { data := encodeAll (vals ++ more) ++ rest, pos := (encodeAll vals).length }) := by
  have hahead : encodeAll (vals ++ more) ++ rest =
      encodeAll vals ++ (encodeAll more ++ rest) := by
    simp [encodeAll]
  rw [hahead, ← reading_nil, decodeMany_reading]
  rfl

/-- An empty key with a value is no end, and an unreliable count is skipped. -/
example : decodeMany 2 { data := [0x08, 0, 0, 0, 7, 0, 0, 0x06, 0, 0, 0x09, 0x01, 1, 0xFF] } =
    some ([.object [([], .null)], .boolean true],
      { data := [0x08, 0, 0, 0, 7, 0, 0, 0x06, 0, 0, 0x09, 0x01, 1, 0xFF], pos := 13 }) := rfl

end AMF0Decoder
