-- SUMMARY: What the AMF0 decoder accepts: the written forms of its values, and at the end of the data more than that.
import OmegaStreamer.Rtmp.AMF0Format
import OmegaStreamer.Rtmp.AMF0Usage

/-!
# AMF0 recognition

The other direction of `AMF0Format`. The decoder reads somewhat more than the documented
grammar: any byte but zero is true, and a marker that it does not know is a value of its own.
As long as eight bytes are left behind a value nothing else is ever returned: what `Decode`
has passed is a written form of the value. With fewer it can be the made-up value of a field
that has been cut off; eight bytes are the longest field of a fixed width.
-/

mutual

/-- The forms in which the decoder reads its values. -/
inductive AMF0Written where
  | number (bits : UInt64)
  | boolean (b : UInt8)
  | string (s : AMF0String)
  | object (pairs : AMF0WrittenPairs)
  | null
  | undefined
  | ecmaArray (count : UInt32) (pairs : AMF0WrittenPairs)
  /-- A marker that is not known, which is taken for a null. -/
  | unknown (marker : UInt8)

inductive AMF0WrittenPairs where
  | nil
  | cons (key : AMF0String) (val : AMF0Written) (rest : AMF0WrittenPairs)

end

mutual

def AMF0Written.encode : AMF0Written → Bytes
  | .number bits => kAMF0Number :: Endian.toBE 8 bits.toNat
  | .boolean b => [kAMF0Boolean, b]
  | .string s => kAMF0String :: s.encode
  | .object pairs => kAMF0Object :: (pairs.encode ++ objectEnd)
  | .null => [kAMF0Null]
  | .undefined => [kAMF0Undefined]
  | .ecmaArray count pairs =>
    kAMF0ECMAArray :: (Endian.toBE 4 count.toNat ++ (pairs.encode ++ objectEnd))
  | .unknown marker => [marker]

def AMF0WrittenPairs.encode : AMF0WrittenPairs → Bytes
  | .nil => []
  | .cons key val rest => key.encode ++ (val.encode ++ rest.encode)

end

mutual

def AMF0Written.value : AMF0Written → AMF0Value
  | .number bits => .number bits
  | .boolean b => .boolean (b != 0)
  | .string s => .string s.bytes
  | .object pairs => .object pairs.properties
  | .null => .null
  | .undefined => .null
  | .ecmaArray _ pairs => .object pairs.properties
  | .unknown _ => .null

def AMF0WrittenPairs.properties : AMF0WrittenPairs → List (Bytes × AMF0Value)
  | .nil => []
  | .cons key val rest => (key.bytes, val.value) :: rest.properties

end

/-- The markers that `Decode` has a branch for. Behind `0x3F` everything is skipped. -/
def knownMarkers : List UInt8 :=
  [kAMF0Number, kAMF0Boolean, kAMF0String, kAMF0Object, kAMF0Null, kAMF0Undefined,
    kAMF0ECMAArray, 0x3F]

/-- Behind an empty key the end marker is the end of the object. -/
def EndsObject (key : AMF0String) (val : AMF0Written) : Prop :=
  key.bytes = [] ∧ val.encode.head? = some kAMF0ObjectEnd

mutual

/-- Only an unknown marker is taken for one, and no value for the end of an object. -/
def AMF0Written.Readable : AMF0Written → Prop
  | .unknown marker => marker ∉ knownMarkers
  | .object pairs => pairs.Readable
  | .ecmaArray _ pairs => pairs.Readable
  | _ => True

def AMF0WrittenPairs.Readable : AMF0WrittenPairs → Prop
  | .nil => True
  | .cons key val rest => ¬ EndsObject key val ∧ val.Readable ∧ rest.Readable

end

/-- A value takes its marker at least. -/
theorem AMF0Written.encode_head (w : AMF0Written) : ∃ marker tail, w.encode = marker :: tail := by
  cases w <;> exact ⟨_, _, rfl⟩

namespace AMF0Decoder

/-! ## Fields that are there -/

variable {past ahead : Bytes}

theorem readUint8_there (h : 8 ≤ (reading past ahead).readUint8.2.remaining) :
    ∃ b rest, ahead = b :: rest ∧
      (reading past ahead).readUint8 = (b, reading (past ++ [b]) rest) := by
  cases ahead with
  | nil =>
    have hle := (readUint8_ahead (pos_le_len_reading past [])).remaining_le
    rw [reading_remaining] at hle
    exact absurd (h.trans hle) (by decide)
  | cons b rest => exact ⟨b, rest, rfl, readUint8_reading past rest b⟩

theorem readUint32BE_there (h : 8 ≤ (reading past ahead).readUint32BE.2.remaining) :
    ∃ (n : UInt32) (rest : Bytes), ahead = Endian.toBE 4 n.toNat ++ rest ∧
      (reading past ahead).readUint32BE.2 = reading (past ++ Endian.toBE 4 n.toNat) rest := by
  rcases Nat.lt_or_ge ahead.length 4 with hshort | hlong
  · rw [readUint32BE_missing past ahead hshort, reading_remaining] at h
    omega
  · obtain ⟨n, hlt, rest, rfl⟩ := Endian.exists_toBE hlong
    have hn : (UInt32.ofNat n).toNat = n := by
      rw [UInt32.toNat_ofNat']
      exact Nat.mod_eq_of_lt hlt
    refine ⟨UInt32.ofNat n, rest, ?_, ?_⟩
    · rw [hn]
    · rw [hn, readUint32BE_reading]

theorem readDouble_there (h : 8 ≤ (reading past ahead).readDouble.2.remaining) :
    ∃ (bits : UInt64) (rest : Bytes), ahead = Endian.toBE 8 bits.toNat ++ rest ∧
      (reading past ahead).readDouble = (bits, reading (past ++ Endian.toBE 8 bits.toNat) rest) := by
  rcases Nat.lt_or_ge ahead.length 8 with hshort | hlong
  · rw [readDouble_missing past ahead hshort, reading_remaining] at h
    omega
  · obtain ⟨n, hlt, rest, rfl⟩ := Endian.exists_toBE hlong
    have hn : (UInt64.ofNat n).toNat = n := by
      rw [UInt64.toNat_ofNat']
      exact Nat.mod_eq_of_lt hlt
    refine ⟨UInt64.ofNat n, rest, by rw [hn], ?_⟩
    have hread := readDouble_reading past rest (UInt64.ofNat n)
    rw [hn] at hread ⊢
    exact hread

theorem readObjectKey_there (h : 8 ≤ (reading past ahead).readObjectKey.2.remaining) :
    ∃ (s : AMF0String) (rest : Bytes), ahead = s.encode ++ rest ∧
      (reading past ahead).readObjectKey = (s.bytes, reading (past ++ s.encode) rest) := by
  rcases Nat.lt_or_ge ahead.length 2 with hshort | hlong
  · have hle := (readObjectKey_ahead (pos_le_len_reading past ahead)).remaining_le
    rw [reading_remaining] at hle
    omega
  · obtain ⟨n, hlt, rest, rfl⟩ := Endian.exists_toBE hlong
    have hn : (UInt16.ofNat n).toNat = n := by
      rw [UInt16.toNat_ofNat']
      exact Nat.mod_eq_of_lt hlt
    rcases Nat.lt_or_ge rest.length n with hcut | hwhole
    · -- the string runs past the end, and all is skipped
      have hskip : (reading past (Endian.toBE 2 n ++ rest)).readObjectKey.2.remaining = 0 := by
        rw [readObjectKey, readUint16BE_reading]
        simp only
        rw [readStringData_missing _ (by rw [hn]; exact hcut), reading_remaining]
        rfl
      omega
    · have hlen : (rest.take n).length = n := List.length_take_of_le hwhole
      obtain ⟨s, hbytes⟩ : ∃ s : AMF0String, s.bytes = rest.take n :=
        ⟨⟨rest.take n, by omega⟩, rfl⟩
      have hsplit : Endian.toBE 2 n ++ rest = s.encode ++ rest.drop n := by
        rw [AMF0String.encode, hbytes, hlen, List.append_assoc, List.take_append_drop]
      refine ⟨s, rest.drop n, hsplit, ?_⟩
      rw [hsplit]
      exact readObjectKey_reading past (rest.drop n) s

/-! ## What is returned is written -/

/-- A call of `DecodeObject` does not move back. -/
theorem decodeObjectFuel_ahead {fuel : Nat} {d d' : AMF0Decoder}
    {properties : List (Bytes × AMF0Value)} (hd : d.pos ≤ d.len)
    (h : decodeObjectFuel fuel d = some (properties, d')) : Ahead d d' := by
  have hinduct := decodeFuel_induct (fun _ _ _ => True) (fun _ _ _ => True)
    (fun _ _ => trivial) (fun _ _ _ _ _ _ => trivial) (fun _ _ _ _ _ _ _ _ => trivial)
    (fun _ _ => trivial) (fun _ _ _ _ => trivial) (fun _ _ _ _ _ _ _ _ _ _ _ => trivial) fuel d hd
  exact (hinduct.2 properties d' h).1

/-- What `Decode` has passed is a written form of the value. -/
def ValueWritten (fuel : Nat) : Prop :=
  ∀ {past ahead : Bytes} {v : AMF0Value} {d : AMF0Decoder},
    decodeFuel fuel (reading past ahead) = some (v, d) → 8 ≤ d.remaining →
    ∃ w : AMF0Written, ∃ rest, w.Readable ∧ w.value = v ∧ ahead = w.encode ++ rest ∧
      d = reading (past ++ w.encode) rest

/-- So is what `DecodeObject` has passed, with the end of the object. -/
def PairsWritten (fuel : Nat) : Prop :=
  ∀ {past ahead : Bytes} {properties : List (Bytes × AMF0Value)} {d : AMF0Decoder},
    decodeObjectFuel fuel (reading past ahead) = some (properties, d) → 8 ≤ d.remaining →
    ∃ w : AMF0WrittenPairs, ∃ rest, w.Readable ∧ w.properties = properties ∧
      ahead = w.encode ++ objectEnd ++ rest ∧ d = reading (past ++ (w.encode ++ objectEnd)) rest

theorem valueWritten_succ {fuel : Nat} (hpairs : PairsWritten fuel) : ValueWritten (fuel + 1) := by
  intro past ahead v d h hleft
  rw [decodeFuel] at h
  cases ahead with
  | nil =>
    rw [if_pos (Nat.le_of_not_lt (pos_reading_nil past))] at h
    cases h
    rw [reading_remaining] at hleft
    exact absurd hleft (by decide)
  | cons marker ahead =>
    rw [if_neg (Nat.not_le_of_lt (pos_lt_reading past (List.cons_ne_nil _ _))),
      readUint8_reading] at h
    obtain ⟨rfl, h⟩ | ⟨hnumber, h⟩ := ite_eq_iff.mp h
    · cases h
      obtain ⟨bits, rest, rfl, hread⟩ := readDouble_there hleft
      refine ⟨.number bits, rest, trivial, ?_, rfl, ?_⟩
      · exact congrArg (fun r => AMF0Value.number r.1) hread.symm
      · exact (congrArg Prod.snd hread).trans (by simp [AMF0Written.encode])
    obtain ⟨rfl, h⟩ | ⟨hboolean, h⟩ := ite_eq_iff.mp h
    · cases h
      obtain ⟨b, rest, rfl, hread⟩ := readUint8_there hleft
      refine ⟨.boolean b, rest, trivial, ?_, rfl, ?_⟩
      · exact congrArg (fun r => AMF0Value.boolean (r.1 != 0)) hread.symm
      · exact (congrArg Prod.snd hread).trans (by simp [AMF0Written.encode])
    obtain ⟨rfl, h⟩ | ⟨hstring, h⟩ := ite_eq_iff.mp h
    · cases h
      obtain ⟨s, rest, rfl, hread⟩ := readObjectKey_there hleft
      refine ⟨.string s, rest, trivial, ?_, rfl, ?_⟩
      · exact congrArg (fun r => AMF0Value.string r.1) hread.symm
      · exact (congrArg Prod.snd hread).trans (by simp [AMF0Written.encode])
    obtain ⟨rfl, h⟩ | ⟨hobject, h⟩ := ite_eq_iff.mp h
    · cases hpart : decodeObjectFuel fuel (reading (past ++ [kAMF0Object]) ahead) with
      | none => simp only [hpart, reduceCtorEq] at h
      | some r =>
        simp only [hpart] at h
        cases h
        obtain ⟨w, rest, hw, hproperties, rfl, hd⟩ := hpairs hpart hleft
        refine ⟨.object w, rest, hw, congrArg AMF0Value.object hproperties, rfl, ?_⟩
        rw [AMF0Written.encode, List.append_cons past kAMF0Object]
        exact hd
    obtain ⟨rfl, h⟩ | ⟨harray, h⟩ := ite_eq_iff.mp h
    · cases hpart : decodeObjectFuel fuel
          (reading (past ++ [kAMF0ECMAArray]) ahead).readUint32BE.2 with
      | none => simp only [hpart, reduceCtorEq] at h
      | some r =>
        simp only [hpart] at h
        cases h
        -- the count is there as well, because more is left behind it
        have hcount := Nat.le_trans hleft
          (decodeObjectFuel_ahead (readUint32BE_ahead (pos_le_len_reading _ _)).pos_le_len
            hpart).remaining_le
        obtain ⟨n, behind, rfl, hread⟩ := readUint32BE_there hcount
        rw [hread] at hpart
        obtain ⟨w, rest, hw, hproperties, rfl, hd⟩ := hpairs hpart hleft
        refine ⟨.ecmaArray n w, rest, hw, congrArg AMF0Value.object hproperties, ?_, ?_⟩
        · simp [AMF0Written.encode]
        · rw [hd]
          simp [AMF0Written.encode]
    obtain ⟨rfl, h⟩ | ⟨hnull, h⟩ := ite_eq_iff.mp h
    · cases h
      exact ⟨.null, ahead, trivial, rfl, rfl, rfl⟩
    obtain ⟨rfl, h⟩ | ⟨hundefined, h⟩ := ite_eq_iff.mp h
    · cases h
      exact ⟨.undefined, ahead, trivial, rfl, rfl, rfl⟩
    obtain ⟨rfl, h⟩ | ⟨hskip, h⟩ := ite_eq_iff.mp h
    · cases h
      simp only [remaining, len, Nat.sub_self] at hleft
      exact absurd hleft (by decide)
    · cases h
      refine ⟨.unknown marker, ahead, ?_, rfl, rfl, rfl⟩
      simp only [AMF0Written.Readable, knownMarkers, List.mem_cons, List.not_mem_nil, or_false,
        not_or]
      exact ⟨hnumber, hboolean, hstring, hobject, hnull, hundefined, harray, hskip⟩

/-- The loop of `DecodeObject` goes on behind the key. -/
theorem afterKey_ahead {fuel : Nat} {d d' : AMF0Decoder} {properties : List (Bytes × AMF0Value)}
    (hmore : d.pos < d.len) (h : decodeObjectFuel (fuel + 1) d = some (properties, d')) :
    Ahead d.readObjectKey.2 d' := by
  rw [decodeObjectFuel, if_pos hmore] at h
  have hkey := readObjectKey_ahead (Nat.le_of_lt hmore)
  generalize d.readObjectKey = r at h hkey ⊢
  obtain ⟨key, d₁⟩ := r
  simp only at h hkey ⊢
  obtain ⟨hmark, h⟩ | ⟨-, h⟩ := ite_eq_iff.mp h
  · cases h
    exact ⟨rfl, Nat.le_succ _, hmark.2.1⟩
  cases hval : decodeFuel fuel d₁ with
  | none => simp only [hval, reduceCtorEq] at h
  | some r =>
    have hval' := decodeFuel_advanced hkey.pos_le_len hval
    simp only [hval] at h
    cases hrest : decodeObjectFuel fuel r.2 with
    | none => simp only [hrest, reduceCtorEq] at h
    | some r' =>
      simp only [hrest] at h
      cases h
      exact hval'.toAhead.trans (decodeObjectFuel_ahead hval'.pos_le_len hrest)

theorem pairsWritten_succ {fuel : Nat} (hvalue : ValueWritten fuel) (hpairs : PairsWritten fuel) :
    PairsWritten (fuel + 1) := by
  intro past ahead properties d h hleft
  by_cases hmore : (reading past ahead).pos < (reading past ahead).len
  swap
  · rw [decodeObjectFuel, if_neg hmore] at h
    cases h
    rw [remaining, Nat.sub_eq_zero_of_le (Nat.le_of_not_lt hmore)] at hleft
    exact absurd hleft (by decide)
  have hkey := Nat.le_trans hleft (afterKey_ahead hmore h).remaining_le
  obtain ⟨key, behind, rfl, hread⟩ := readObjectKey_there hkey
  rw [decodeObjectFuel, if_pos hmore, hread] at h
  simp only at h
  obtain ⟨⟨hempty, hbyte, hmark⟩, h⟩ | ⟨hnot, h⟩ := ite_eq_iff.mp h
  · cases h
    cases behind with
    | nil => exact absurd hbyte (pos_reading_nil _)
    | cons b rest =>
      rw [at_reading] at hmark
      subst hmark
      have hadvance := reading_advance (past ++ key.encode) rest [kAMF0ObjectEnd]
      have hencode : key.encode ++ [kAMF0ObjectEnd] = objectEnd := by
        rw [AMF0String.encode, hempty]
        rfl
      refine ⟨.nil, rest, trivial, rfl, ?_, ?_⟩
      · rw [AMF0WrittenPairs.encode, List.nil_append, ← hencode, List.append_assoc]
        rfl
      · rw [AMF0WrittenPairs.encode, List.nil_append, ← hencode, ← List.append_assoc]
        exact hadvance
  cases hval : decodeFuel fuel (reading (past ++ key.encode) behind) with
  | none => simp only [hval, reduceCtorEq] at h
  | some r =>
    obtain ⟨val, d₂⟩ := r
    have hle := pos_le_len_reading (past ++ key.encode) behind
    have hval' := decodeFuel_advanced hle hval
    simp only [hval] at h
    cases hrest : decodeObjectFuel fuel d₂ with
    | none => simp only [hrest, reduceCtorEq] at h
    | some r =>
      obtain ⟨properties', d₃⟩ := r
      simp only [hrest] at h
      cases h
      have hleft₂ := Nat.le_trans hleft (decodeObjectFuel_ahead hval'.pos_le_len hrest).remaining_le
      obtain ⟨w, rest, hw, rfl, rfl, rfl⟩ := hvalue hval hleft₂
      obtain ⟨ws, rest', hws, rfl, rfl, hd⟩ := hpairs hrest hleft
      refine ⟨.cons key w ws, rest', ⟨?_, hw, hws⟩, rfl, ?_, ?_⟩
      · rintro ⟨hempty, hhead⟩
        obtain ⟨marker, tail, hw⟩ := w.encode_head
        rw [hw] at hhead
        cases hhead
        have hmark : w.encode ++ (ws.encode ++ objectEnd ++ rest') =
            kAMF0ObjectEnd :: (tail ++ (ws.encode ++ objectEnd ++ rest')) := by
          rw [hw, List.cons_append]
        rw [hmark] at hnot
        exact hnot ⟨hempty, pos_lt_reading _ (List.cons_ne_nil _ _), at_reading _ _ _⟩
      · simp [AMF0WrittenPairs.encode]
      · rw [hd]
        simp [AMF0WrittenPairs.encode]

/-- What either function returns has been written, when there is as much left. -/
theorem written (fuel : Nat) : ValueWritten fuel ∧ PairsWritten fuel := by
  induction fuel with
  | zero =>
    constructor
    · intro past ahead v d h
      cases h
    · intro past ahead properties d h
      cases h
  | succ fuel ih => exact ⟨valueWritten_succ ih.2, pairsWritten_succ ih.1 ih.2⟩

/-! ## What is written is returned -/

section Reading

variable {past ahead : Bytes} {fuel : Nat}

/-- A marker that is not known, behind which nothing is read. -/
theorem decodeFuel_unknown {marker : UInt8} (h : marker ∉ knownMarkers) :
    decodeFuel (fuel + 1) (reading past (marker :: ahead)) =
      some (.null, reading (past ++ [marker]) ahead) := by
  simp only [knownMarkers, List.mem_cons, List.not_mem_nil, or_false, not_or] at h
  obtain ⟨hnumber, hboolean, hstring, hobject, hnull, hundefined, harray, hskip⟩ := h
  rw [decodeFuel, if_neg (Nat.not_le_of_lt (pos_lt_reading past (List.cons_ne_nil _ _))),
    readUint8_reading]
  simp only [if_neg hnumber, if_neg hboolean, if_neg hstring, if_neg hobject, if_neg harray,
    if_neg hnull, if_neg hundefined, if_neg hskip]

/-- A value behind its key, unless the two end the object. -/
theorem decodeObjectFuel_cons (key : AMF0String) {w : AMF0Written} (h : ¬ EndsObject key w)
    {val : AMF0Value} {d₂ d₃ : AMF0Decoder} {properties : List (Bytes × AMF0Value)}
    (hval : decodeFuel fuel (reading (past ++ key.encode) (w.encode ++ ahead)) = some (val, d₂))
    (hrest : decodeObjectFuel fuel d₂ = some (properties, d₃)) :
    decodeObjectFuel (fuel + 1) (reading past (key.encode ++ (w.encode ++ ahead))) =
      some ((key.bytes, val) :: properties, d₃) := by
  rw [decodeObjectFuel, if_pos (pos_lt_reading _ (key.encode_append_ne_nil _)),
    readObjectKey_reading]
  simp only [hval, hrest]
  rw [if_neg]
  rintro ⟨hempty, -, hmark⟩
  obtain ⟨marker, tail, hw⟩ := w.encode_head
  rw [hw, List.cons_append, at_reading] at hmark
  refine h ⟨hempty, ?_⟩
  rw [hw, hmark]
  rfl

end Reading

mutual

/-- Two units of fuel for each byte are enough. -/
theorem decodeFuel_written : ∀ (w : AMF0Written) (fuel : Nat) (past rest : Bytes),
    w.Readable → 2 * w.encode.length ≤ fuel →
    decodeFuel fuel (reading past (w.encode ++ rest)) =
      some (w.value, reading (past ++ w.encode) rest)
  | w, 0, past, rest, _, h => by
    obtain ⟨marker, tail, hw⟩ := w.encode_head
    rw [hw, List.length_cons] at h
    omega
  | .number bits, fuel + 1, past, rest, _, h =>
    decodeFuel_encode (.number bits) (fuel + 1) past rest h
  | .boolean b, fuel + 1, past, rest, _, _ => by
    have hpos := pos_lt_reading past (List.cons_ne_nil kAMF0Boolean (b :: rest))
    simp only [AMF0Written.encode, List.cons_append, List.nil_append]
    rw [decodeFuel, if_neg (Nat.not_le_of_lt hpos), readUint8_reading]
    simp +decide only [decodeBoolean, readUint8_reading, if_true, if_false, AMF0Written.value]
    simp
  | .string s, fuel + 1, past, rest, _, h =>
    decodeFuel_encode (.string s) (fuel + 1) past rest h
  | .null, fuel + 1, past, rest, _, h => decodeFuel_encode .null (fuel + 1) past rest h
  | .undefined, fuel + 1, past, rest, _, h => decodeFuel_encode .undefined (fuel + 1) past rest h
  | .unknown marker, fuel + 1, past, rest, hw, _ => decodeFuel_unknown hw
  | .object pairs, fuel + 1, past, rest, hw, h => by
    rw [AMF0Written.encode, List.length_cons] at h
    have hpairs := decodeObjectFuel_written pairs fuel (past ++ [kAMF0Object]) rest hw (by omega)
    rw [AMF0Written.encode, List.append_cons past kAMF0Object]
    exact decodeFuel_object hpairs
  | .ecmaArray count pairs, fuel + 1, past, rest, hw, h => by
    rw [AMF0Written.encode, List.length_cons, List.length_append] at h
    have hpairs := decodeObjectFuel_written pairs fuel
      (past ++ [kAMF0ECMAArray] ++ Endian.toBE 4 count.toNat) rest hw (by omega)
    rw [← readUint32BE_reading] at hpairs
    have hahead : (AMF0Written.ecmaArray count pairs).encode ++ rest = kAMF0ECMAArray ::
        (Endian.toBE 4 count.toNat ++ (pairs.encode ++ objectEnd ++ rest)) := by
      simp [AMF0Written.encode]
    rw [hahead, decodeFuel_ecmaArray hpairs]
    simp [AMF0Written.encode, AMF0Written.value]

theorem decodeObjectFuel_written : ∀ (pairs : AMF0WrittenPairs) (fuel : Nat) (past rest : Bytes),
    pairs.Readable → 2 * (pairs.encode ++ objectEnd).length ≤ fuel →
    decodeObjectFuel fuel (reading past (pairs.encode ++ objectEnd ++ rest)) =
      some (pairs.properties, reading (past ++ (pairs.encode ++ objectEnd)) rest)
  | .nil, fuel, past, rest, _, h => decodeObjectFuel_encode .nil fuel past rest h
  | .cons key val pairs, 0, past, rest, _, h => by
    simp [objectEnd] at h
  | .cons key val pairs, fuel + 1, past, rest, hw, h => by
    obtain ⟨hend, hval, hpairs⟩ := hw
    have hahead : (AMF0WrittenPairs.cons key val pairs).encode ++ objectEnd ++ rest =
        key.encode ++ (val.encode ++ (pairs.encode ++ objectEnd ++ rest)) := by
      simp [AMF0WrittenPairs.encode]
    simp only [AMF0WrittenPairs.encode, List.length_append] at h
    have hkey := key.two_le_length_encode
    have hfirst := decodeFuel_written val fuel (past ++ key.encode)
      (pairs.encode ++ objectEnd ++ rest) hval (by omega)
    have hothers := decodeObjectFuel_written pairs fuel (past ++ key.encode ++ val.encode) rest
      hpairs (by
        rw [List.length_append]
        omega)
    rw [hahead, decodeObjectFuel_cons key hend hfirst hothers]
    simp [AMF0WrittenPairs.properties, AMF0WrittenPairs.encode]

end

theorem decode_written {w : AMF0Written} (hw : w.Readable) (past rest : Bytes) :
    (reading past (w.encode ++ rest)).decode = some (w.value, reading (past ++ w.encode) rest) := by
  apply decodeFuel_written w _ past rest hw
  rw [reading_remaining, List.length_append]
  omega

end AMF0Decoder

/-! ## Reading is unambiguous -/

theorem AMF0String.encode_inj {s s' : AMF0String} {rest rest' : Bytes}
    (h : s.encode ++ rest = s'.encode ++ rest') : s = s' ∧ rest = rest' := by
  rw [encode, encode, List.append_assoc, List.append_assoc] at h
  obtain ⟨hlength, htail⟩ := Endian.toBE_append_inj (Nat.lt_succ_of_le s.length_le)
    (Nat.lt_succ_of_le s'.length_le) h
  obtain ⟨hbytes, hrest⟩ := List.append_inj htail hlength
  obtain ⟨bytes, length_le⟩ := s
  obtain rfl : bytes = s'.bytes := hbytes
  exact ⟨rfl, hrest⟩

/-- A pair is not taken for the end of its object. -/
theorem AMF0WrittenPairs.Readable.not_end {key : AMF0String} {val : AMF0Written}
    {pairs : AMF0WrittenPairs} (h : (AMF0WrittenPairs.cons key val pairs).Readable)
    (rest rest' : Bytes) :
    (AMF0WrittenPairs.cons key val pairs).encode ++ objectEnd ++ rest ≠ objectEnd ++ rest' := by
  intro hbytes
  have hahead : objectEnd ++ rest' = emptyKey.encode ++ kAMF0ObjectEnd :: rest' := rfl
  rw [hahead, encode, List.append_assoc, List.append_assoc] at hbytes
  obtain ⟨rfl, hbehind⟩ := AMF0String.encode_inj hbytes
  obtain ⟨marker, tail, hval⟩ := val.encode_head
  rw [List.append_assoc, hval] at hbehind
  refine h.1 ⟨rfl, ?_⟩
  rw [hval, ← (List.cons.inj hbehind).1]
  rfl

mutual

/-- No written form begins another one. -/
theorem AMF0Written.encode_inj : ∀ (w w' : AMF0Written) (rest rest' : Bytes),
    w.Readable → w'.Readable → w.encode ++ rest = w'.encode ++ rest' → w = w' ∧ rest = rest'
  | .number bits, w', rest, rest', _, hw', h => by
    cases w' with
    | number bits' =>
      obtain ⟨hbits, hrest⟩ := Endian.toBE_append_inj bits.toNat_lt bits'.toNat_lt
        (List.cons.inj h).2
      exact ⟨congrArg AMF0Written.number (UInt64.toNat_inj.mp hbits), hrest⟩
    | unknown marker => exact absurd ((List.cons.inj h).1 ▸ by decide) hw'
    | _ => exact absurd (List.cons.inj h).1 (by decide)
  | .boolean b, w', rest, rest', _, hw', h => by
    cases w' with
    | boolean b' =>
      obtain ⟨hb, hrest⟩ := List.cons.inj (List.cons.inj h).2
      exact ⟨congrArg AMF0Written.boolean hb, hrest⟩
    | unknown marker => exact absurd ((List.cons.inj h).1 ▸ by decide) hw'
    | _ => exact absurd (List.cons.inj h).1 (by decide)
  | .string s, w', rest, rest', _, hw', h => by
    cases w' with
    | string s' =>
      obtain ⟨hs, hrest⟩ := AMF0String.encode_inj (List.cons.inj h).2
      exact ⟨congrArg AMF0Written.string hs, hrest⟩
    | unknown marker => exact absurd ((List.cons.inj h).1 ▸ by decide) hw'
    | _ => exact absurd (List.cons.inj h).1 (by decide)
  | .object pairs, w', rest, rest', hw, hw', h => by
    cases w' with
    | object pairs' =>
      obtain ⟨hpairs, hrest⟩ := AMF0WrittenPairs.encode_inj pairs pairs' rest rest' hw hw'
        (List.cons.inj h).2
      exact ⟨congrArg AMF0Written.object hpairs, hrest⟩
    | unknown marker => exact absurd ((List.cons.inj h).1 ▸ by decide) hw'
    | _ => exact absurd (List.cons.inj h).1 (by decide)
  | .null, w', rest, rest', _, hw', h => by
    cases w' with
    | null => exact ⟨rfl, (List.cons.inj h).2⟩
    | unknown marker => exact absurd ((List.cons.inj h).1 ▸ by decide) hw'
    | _ => exact absurd (List.cons.inj h).1 (by decide)
  | .undefined, w', rest, rest', _, hw', h => by
    cases w' with
    | undefined => exact ⟨rfl, (List.cons.inj h).2⟩
    | unknown marker => exact absurd ((List.cons.inj h).1 ▸ by decide) hw'
    | _ => exact absurd (List.cons.inj h).1 (by decide)
  | .ecmaArray count pairs, w', rest, rest', hw, hw', h => by
    cases w' with
    | ecmaArray count' pairs' =>
      simp only [AMF0Written.encode, List.cons_append, List.append_assoc (Endian.toBE 4 _)] at h
      obtain ⟨hcount, hbehind⟩ := Endian.toBE_append_inj count.toNat_lt count'.toNat_lt
        (List.cons.inj h).2
      obtain rfl := UInt32.toNat_inj.mp hcount
      obtain ⟨hpairs, hrest⟩ := AMF0WrittenPairs.encode_inj pairs pairs' rest rest' hw hw' hbehind
      exact ⟨congrArg (AMF0Written.ecmaArray count) hpairs, hrest⟩
    | unknown marker => exact absurd ((List.cons.inj h).1 ▸ by decide) hw'
    | _ => exact absurd (List.cons.inj h).1 (by decide)
  | .unknown marker, w', rest, rest', hw, hw', h => by
    cases w' with
    | unknown marker' =>
      obtain ⟨hmarker, hrest⟩ := List.cons.inj h
      exact ⟨congrArg AMF0Written.unknown hmarker, hrest⟩
    | _ => exact absurd ((List.cons.inj h).1 ▸ by decide) hw

/-- Nor does any list of pairs with its end. -/
theorem AMF0WrittenPairs.encode_inj : ∀ (ws ws' : AMF0WrittenPairs) (rest rest' : Bytes),
    ws.Readable → ws'.Readable →
    ws.encode ++ objectEnd ++ rest = ws'.encode ++ objectEnd ++ rest' → ws = ws' ∧ rest = rest'
  | .nil, .nil, rest, rest', _, _, h => ⟨rfl, List.append_cancel_left h⟩
  | .nil, .cons key val pairs, rest, rest', _, hws', h => absurd h.symm (hws'.not_end rest' rest)
  | .cons key val pairs, .nil, rest, rest', hws, _, h => absurd h (hws.not_end rest rest')
  | .cons key val pairs, .cons key' val' pairs', rest, rest', hws, hws', h => by
    simp only [AMF0WrittenPairs.encode, List.append_assoc] at h
    obtain ⟨rfl, hbehind⟩ := AMF0String.encode_inj h
    obtain ⟨rfl, hpairs⟩ := AMF0Written.encode_inj val val' _ _ hws.2.1 hws'.2.1 hbehind
    simp only [← List.append_assoc] at hpairs
    obtain ⟨rfl, hrest⟩ := AMF0WrittenPairs.encode_inj pairs pairs' rest rest' hws.2.2 hws'.2.2
      hpairs
    exact ⟨rfl, hrest⟩

end

/-- So the values that are written one after another can be told from the bytes. -/
theorem encode_flatMap_inj {ws ws' : List AMF0Written} {rest rest' : Bytes}
    (hlength : ws.length = ws'.length) (hws : ∀ w ∈ ws, w.Readable) (hws' : ∀ w ∈ ws', w.Readable)
    (h : ws.flatMap AMF0Written.encode ++ rest = ws'.flatMap AMF0Written.encode ++ rest') :
    ws = ws' := by
  induction ws generalizing ws' with
  | nil => exact (List.length_eq_zero_iff.mp hlength.symm).symm
  | cons w ws ih =>
    cases ws' with
    | nil => cases hlength
    | cons w' ws' =>
      rw [List.forall_mem_cons] at hws hws'
      simp only [List.flatMap_cons, List.append_assoc] at h
      obtain ⟨rfl, hrest⟩ := AMF0Written.encode_inj w w' _ _ hws.1 hws'.1 h
      rw [ih (Nat.succ.inj hlength) hws.2 hws'.2 hrest]

/-! ## Recognition -/

namespace AMF0Decoder

theorem decodeMany_ahead {n : Nat} {d d' : AMF0Decoder} {vals : List AMF0Value}
    (hd : d.pos ≤ d.len) (h : decodeMany n d = some (vals, d')) : Ahead d d' := by
  induction n generalizing d vals with
  | zero =>
    cases h
    exact .self hd
  | succ n ih =>
    rw [decodeMany] at h
    cases hval : d.decode with
    | none => simp only [hval, reduceCtorEq] at h
    | some r =>
      have hval' := decodeFuel_advanced hd hval
      simp only [hval] at h
      cases hmore : decodeMany n r.2 with
      | none => simp only [hmore, reduceCtorEq] at h
      | some r' =>
        simp only [hmore] at h
        cases h
        exact hval'.toAhead.trans (ih hval'.pos_le_len hmore)

theorem decodeMany_sound {n : Nat} {past ahead : Bytes} {vals : List AMF0Value}
    {d : AMF0Decoder} (h : decodeMany n (reading past ahead) = some (vals, d))
    (hleft : 8 ≤ d.remaining) :
    ∃ ws : List AMF0Written, ∃ rest, ws.length = n ∧ (∀ w ∈ ws, w.Readable) ∧
      ws.map AMF0Written.value = vals ∧ ahead = ws.flatMap AMF0Written.encode ++ rest ∧
      d = reading (past ++ ws.flatMap AMF0Written.encode) rest := by
  induction n generalizing past ahead vals with
  | zero =>
    cases h
    refine ⟨[], ahead, rfl, fun w hw => absurd hw List.not_mem_nil, rfl, rfl, ?_⟩
    rw [List.flatMap_nil, List.append_nil]
  | succ n ih =>
    rw [decodeMany] at h
    cases hval : (reading past ahead).decode with
    | none => simp only [hval, reduceCtorEq] at h
    | some r =>
      obtain ⟨v, d₁⟩ := r
      simp only [hval] at h
      cases hmore : decodeMany n d₁ with
      | none => simp only [hmore, reduceCtorEq] at h
      | some r =>
        simp only [hmore] at h
        cases h
        have hle := decodeFuel_advanced (pos_le_len_reading past ahead) hval
        have hleft₁ := Nat.le_trans hleft (decodeMany_ahead hle.pos_le_len hmore).remaining_le
        obtain ⟨w, behind, hw, rfl, rfl, rfl⟩ := (written _).1 hval hleft₁
        obtain ⟨ws, rest, rfl, hws, hvals, rfl, hd⟩ := ih hmore
        refine ⟨w :: ws, rest, rfl, List.forall_mem_cons.mpr ⟨hw, hws⟩, ?_, ?_, ?_⟩
        · rw [List.map_cons, hvals]
        · rw [List.flatMap_cons, List.append_assoc]
        · rw [hd, List.flatMap_cons, List.append_assoc]

theorem decodeMany_written {ws : List AMF0Written} (hws : ∀ w ∈ ws, w.Readable)
    (past rest : Bytes) :
    decodeMany ws.length (reading past (ws.flatMap AMF0Written.encode ++ rest)) =
      some (ws.map AMF0Written.value, reading (past ++ ws.flatMap AMF0Written.encode) rest) := by
  induction ws generalizing past with
  | nil =>
    rw [List.flatMap_nil, List.append_nil]
    rfl
  | cons w ws ih =>
    rw [List.forall_mem_cons] at hws
    simp only [List.flatMap_cons, List.append_assoc, List.length_cons, decodeMany,
      decode_written hws.1, ih hws.2, List.map_cons]

/-- What successive calls of `Decode` have passed, with eight bytes left behind it, is a
sequence of written values, and these are returned. No other sequence is written so. -/
theorem decodeMany_iff {n : Nat} {used rest : Bytes} {vals : List AMF0Value}
    (h : 8 ≤ rest.length) :
    (decodeMany n { data := used ++ rest } =
        some (vals, { data := used ++ rest, pos := used.length }) ↔
      ∃ ws : List AMF0Written, ws.length = n ∧ (∀ w ∈ ws, w.Readable) ∧
        ws.flatMap AMF0Written.encode = used ∧ ws.map AMF0Written.value = vals) ∧
    ∀ ws ws' : List AMF0Written, ws.length = ws'.length → (∀ w ∈ ws, w.Readable) →
      (∀ w ∈ ws', w.Readable) →
      ws.flatMap AMF0Written.encode = ws'.flatMap AMF0Written.encode → ws = ws' := by
  refine ⟨?_, fun ws ws' hlength hws hws' hbytes =>
    encode_flatMap_inj hlength hws hws' (congrArg (· ++ rest) hbytes)⟩
  rw [← reading_nil]
  constructor
  · intro hdecode
    have hleft : 8 ≤ (reading used rest).remaining := by
      rw [reading_remaining]
      exact h
    obtain ⟨ws, rest', rfl, hws, rfl, hbytes, hd⟩ := decodeMany_sound hdecode hleft
    have hlength : used.length = (ws.flatMap AMF0Written.encode).length :=
      congrArg AMF0Decoder.pos hd
    obtain ⟨rfl, -⟩ := List.append_inj hbytes hlength
    exact ⟨ws, rfl, hws, rfl, rfl⟩
  · rintro ⟨ws, rfl, hws, rfl, rfl⟩
    exact decodeMany_written hws [] rest

/-- The marker `0x0C` is not known, and the byte 2 is true. -/
theorem decodeMany_iff_boolean :
    ∃ ws : List AMF0Written, ws.length = 2 ∧ (∀ w ∈ ws, w.Readable) ∧
      ws.flatMap AMF0Written.encode = [0x0C, kAMF0Boolean, 2] ∧
      ws.map AMF0Written.value = [.null, .boolean true] ∧
      ∀ ws' : List AMF0Written, ws'.length = 2 → (∀ w ∈ ws', w.Readable) →
        ws'.flatMap AMF0Written.encode = [0x0C, kAMF0Boolean, 2] → ws' = ws := by
  let used : Bytes := [0x0C, kAMF0Boolean, 2]
  let rest : Bytes := List.replicate 8 0
  have hdecode : decodeMany 2 { data := used ++ rest } =
      some ([.null, .boolean true], { data := used ++ rest, pos := used.length }) := rfl
  have hleft : 8 ≤ rest.length := by decide
  obtain ⟨hiff, hunique⟩ := decodeMany_iff hleft
  obtain ⟨ws, hlength, hws, hbytes, hvals⟩ := hiff.mp hdecode
  refine ⟨ws, hlength, hws, hbytes, hvals, fun ws' hlength' hws' hbytes' => ?_⟩
  exact hunique ws' ws (hlength'.trans hlength.symm) hws' hws (hbytes'.trans hbytes.symm)

/-- With one byte less the marker of a number is a number. -/
example : decodeMany 1 { data := [0, 1, 2, 3, 4, 5, 6, 7] } =
    some ([.number 0], { data := [0, 1, 2, 3, 4, 5, 6, 7], pos := 1 }) := rfl

end AMF0Decoder
