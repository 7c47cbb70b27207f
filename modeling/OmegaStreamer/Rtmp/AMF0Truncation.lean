-- SUMMARY: What the AMF0 decoder makes of values that are cut off, and where a cut does no harm.
import OmegaStreamer.Rtmp.AMF0Usage
import OmegaStreamer.Rtmp.Session

/-!
# Truncated values

The decoder on a proper prefix of a sequence of values. A value that is cut off can
still be decoded to something, and where bytes of it are left they are decoded as if
they began a new value. Nothing is made up of a cut in between two values, in a
property's key or in the count of an array, except that a last byte can be taken for a
marker. A cut in a Number, a Boolean or a String always makes up a value.
-/

open BytesReader

/-! ## Scalars -/

theorem AMF0Syntax.value_eq_string {v : AMF0Syntax} {s : Bytes} (h : v.value = .string s) :
    ∃ name, v = .string name := by
  cases v with
  | string name => exact ⟨name, rfl⟩
  | _ => cases h

theorem AMF0Syntax.value_eq_number {v : AMF0Syntax} {n : UInt64} (h : v.value = .number n) :
    ∃ bits, v = .number bits := by
  cases v with
  | number bits => exact ⟨bits, rfl⟩
  | _ => cases h

namespace AMF0Value

/-- A Number, a Boolean or a String. -/
def isScalar : AMF0Value → Bool
  | .object _ => false
  | .null => false
  | _ => true

end AMF0Value

mutual

/-- The scalars of a value, in order: itself, or those of its properties. -/
def AMF0Value.scalars : AMF0Value → List AMF0Value
  | .object properties => AMF0Object.scalars properties
  | .null => []
  | v => [v]

def AMF0Object.scalars : List (Bytes × AMF0Value) → List AMF0Value
  | [] => []
  | (_, val) :: properties => val.scalars ++ AMF0Object.scalars properties

end

mutual

/-- The scalars of a value that lie inside its first `k` bytes. -/
def AMF0Syntax.scalarsWithin : AMF0Syntax → Nat → List AMF0Value
  | .object pairs, k => pairs.scalarsWithin (k - 1)
  | .ecmaArray _ pairs, k => pairs.scalarsWithin (k - 5)
  | .null, _ => []
  | .undefined, _ => []
  | .number bits, k => if (AMF0Syntax.number bits).encode.length ≤ k then [.number bits] else []
  | .boolean b, k => if (AMF0Syntax.boolean b).encode.length ≤ k then [.boolean b] else []
  | .string s, k => if (AMF0Syntax.string s).encode.length ≤ k then [.string s.bytes] else []

def AMF0Pairs.scalarsWithin : AMF0Pairs → Nat → List AMF0Value
  | .nil, _ => []
  | .cons key val rest, k =>
    val.scalarsWithin (k - key.encode.length) ++
      rest.scalarsWithin (k - key.encode.length - val.encode.length)

end

/-- The scalars of a sequence of values that lie inside its first `k` bytes. -/
def scalarsWithin : List AMF0Syntax → Nat → List AMF0Value
  | [], _ => []
  | v :: vals, k => v.scalarsWithin k ++ scalarsWithin vals (k - v.encode.length)

/-- The values that lie inside the first `k` bytes. -/
def wholeValues : List AMF0Syntax → Nat → List AMF0Syntax
  | [], _ => []
  | v :: vals, k =>
    if v.encode.length ≤ k then v :: wholeValues vals (k - v.encode.length) else []

/-! ## Cuts -/

/-- Nothing is made up of the bytes that are left where a property is expected. One
byte, also behind an empty key, is taken for a marker. -/
def cleanRest : Bytes → Bool
  | [b] => 3 ≤ b.toNat
  | [l₀, l₁, b] => l₀ ≠ 0 || l₁ ≠ 0 || 3 ≤ b.toNat
  | _ => true

mutual

/-- Nothing is made up when `k` bytes of the value, and not all of it, are there. -/
def AMF0Syntax.cleanCut : AMF0Syntax → Nat → Bool
  | _, 0 => true
  | .object pairs, k + 1 => pairs.cleanCut k
  | .ecmaArray count pairs, k + 1 =>
    if k < 4 then cleanRest ((Endian.toBE 4 count.toNat).take k) else pairs.cleanCut (k - 4)
  | _, _ + 1 => false

/-- The same for the pairs of an object and its end. -/
def AMF0Pairs.cleanCut : AMF0Pairs → Nat → Bool
  | .nil, k => cleanRest (objectEnd.take k)
  | .cons key val rest, k =>
    if k < key.encode.length then cleanRest (key.encode.take k)
    else if k - key.encode.length < val.encode.length then val.cleanCut (k - key.encode.length)
    else rest.cleanCut (k - key.encode.length - val.encode.length)

end

/-- The same for a sequence of values. -/
def cleanCut : List AMF0Syntax → Nat → Bool
  | [], _ => true
  | v :: vals, k =>
    if v.encode.length ≤ k then cleanCut vals (k - v.encode.length) else v.cleanCut k

/-! ### Scalars inside -/

mutual

theorem AMF0Syntax.scalarsWithin_zero : ∀ v : AMF0Syntax, v.scalarsWithin 0 = []
  | .number _ => rfl
  | .boolean _ => rfl
  | .string _ => rfl
  | .null => rfl
  | .undefined => rfl
  | .object pairs => AMF0Pairs.scalarsWithin_zero pairs
  | .ecmaArray _ pairs => AMF0Pairs.scalarsWithin_zero pairs

theorem AMF0Pairs.scalarsWithin_zero : ∀ pairs : AMF0Pairs, pairs.scalarsWithin 0 = []
  | .nil => rfl
  | .cons key val rest => by
    simp only [AMF0Pairs.scalarsWithin, Nat.zero_sub, AMF0Syntax.scalarsWithin_zero val,
      AMF0Pairs.scalarsWithin_zero rest, List.append_nil]

end

mutual

/-- All the scalars of a value lie inside its bytes. -/
theorem AMF0Syntax.scalarsWithin_whole : ∀ (v : AMF0Syntax) (k : Nat), v.encode.length ≤ k →
    v.scalarsWithin k = v.value.scalars
  | .number bits, k, h => by simp only [AMF0Syntax.scalarsWithin, if_pos h]; rfl
  | .boolean b, k, h => by simp only [AMF0Syntax.scalarsWithin, if_pos h]; rfl
  | .string s, k, h => by simp only [AMF0Syntax.scalarsWithin, if_pos h]; rfl
  | .null, k, h => rfl
  | .undefined, k, h => rfl
  | .object pairs, k, h => by
    simp only [AMF0Syntax.encode, List.length_cons, List.length_append] at h
    exact AMF0Pairs.scalarsWithin_whole pairs (k - 1) (by omega)
  | .ecmaArray count pairs, k, h => by
    simp only [AMF0Syntax.encode, List.length_cons, List.length_append, Endian.length_toBE] at h
    exact AMF0Pairs.scalarsWithin_whole pairs (k - 5) (by omega)

theorem AMF0Pairs.scalarsWithin_whole : ∀ (pairs : AMF0Pairs) (k : Nat), pairs.encode.length ≤ k →
    pairs.scalarsWithin k = AMF0Object.scalars pairs.properties
  | .nil, k, h => rfl
  | .cons key val rest, k, h => by
    simp only [AMF0Pairs.encode, List.length_append] at h
    simp only [AMF0Pairs.scalarsWithin, AMF0Pairs.properties, AMF0Object.scalars,
      AMF0Syntax.scalarsWithin_whole val (k - key.encode.length) (by omega),
      AMF0Pairs.scalarsWithin_whole rest (k - key.encode.length - val.encode.length) (by omega)]

end

/-! ## What is left of a pair -/

namespace AMF0Decoder

/-- Bytes that are left at the end where a pair is expected. -/
inductive PartialPair : Bytes → Prop where
  | none : PartialPair []
  | one (b : UInt8) : PartialPair [b]
  /-- A key that is cut, or that nothing follows. -/
  | key (len : Nat) (s : Bytes) (hlen : len ≤ 65535) (hs : s.length ≤ len) :
      PartialPair (Endian.toBE 2 len ++ s)
  /-- One byte behind an empty key. -/
  | marker (b : UInt8) : PartialPair [0x00, 0x00, b]

/-- What is returned for the bytes that are left: scalars only if they are not clean. -/
structure RestDecoded (clean : Bool) (scalars : List AMF0Value) : Prop where
  nothing : clean = true → scalars = []
  something : clean = false → 0 < scalars.length

theorem restDecoded_lastValue (b : UInt8) :
    RestDecoded (decide (3 ≤ b.toNat)) (lastValue b).scalars := by
  constructor
  · intro hclean
    have hlarge := of_decide_eq_true hclean
    have hne {marker : UInt8} (hmarker : marker.toNat < 3) : b ≠ marker := by
      intro heq
      rw [heq] at hlarge
      omega
    have hnumber : b ≠ kAMF0Number := hne (by decide)
    have hboolean : b ≠ kAMF0Boolean := hne (by decide)
    have hstring : b ≠ kAMF0String := hne (by decide)
    rw [lastValue, if_neg hnumber, if_neg hboolean, if_neg hstring]
    split
    · rfl
    · rfl
  · intro hunclean
    have hsmall := of_decide_eq_false hunclean
    have hb : b = 0 ∨ b = 1 ∨ b = 2 := by
      simp only [← UInt8.toNat_inj, UInt8.reduceToNat]
      omega
    rcases hb with rfl | rfl | rfl
    · exact Nat.zero_lt_one
    · exact Nat.zero_lt_one
    · exact Nat.zero_lt_one

/-- The key takes all that is left. -/
theorem readObjectKey_partial (past : Bytes) {len : Nat} {s : Bytes} (hlen : len ≤ 65535)
    (hs : s.length ≤ len) : ∃ key, (reading past (Endian.toBE 2 len ++ s)).readObjectKey =
      (key, reading (past ++ (Endian.toBE 2 len ++ s)) []) := by
  have hnat : (UInt16.ofNat len).toNat = len := by
    rw [UInt16.toNat_ofNat', Nat.mod_eq_of_lt (Nat.lt_succ_of_le hlen)]
  rw [readObjectKey, readUint16BE_reading]
  simp only
  rcases Nat.lt_or_eq_of_le hs with hshort | hwhole
  · refine ⟨[], ?_⟩
    rw [readStringData_missing _ (by rw [hnat]; exact hshort), List.append_assoc]
  · refine ⟨s, ?_⟩
    have hdata := readStringData_reading (past ++ Endian.toBE 2 len) [] s (hnat.trans hwhole.symm)
    rw [List.append_nil] at hdata
    rw [hdata, List.append_assoc]

theorem cleanRest_key {len : Nat} {s : Bytes} (hlen : len ≤ 65535) (hs : s.length ≤ len) :
    cleanRest (Endian.toBE 2 len ++ s) = true := by
  have hbytes : Endian.toBE 2 len = [UInt8.ofNat (len / 256), UInt8.ofNat len] := rfl
  rw [hbytes]
  match s, hs with
  | [], _ => rfl
  | _ :: _ :: _, _ => rfl
  | [b], hs =>
    simp only [List.length_singleton] at hs
    have hne : UInt8.ofNat (len / 256) ≠ 0 ∨ UInt8.ofNat len ≠ 0 := by
      simp only [ne_eq, ← UInt8.toNat_inj, UInt8.toNat_ofNat', UInt8.reduceToNat]
      omega
    rcases hne with hne | hne <;> simp [cleanRest, hne]

/-- What is left of a pair ends the object. -/
theorem decodeObjectFuel_partial {ahead : Bytes} (h : PartialPair ahead) {fuel : Nat}
    (hfuel : 2 * ahead.length + 2 ≤ fuel) (past : Bytes) :
    ∃ properties, decodeObjectFuel fuel (reading past ahead) =
        some (properties, reading (past ++ ahead) []) ∧
      RestDecoded (cleanRest ahead) (AMF0Object.scalars properties) := by
  cases h with
  | none =>
    obtain ⟨fuel, rfl⟩ := Nat.exists_eq_add_of_le' hfuel
    refine ⟨[], ?_, fun _ => rfl, nofun⟩
    rw [List.append_nil]
    exact decodeObjectFuel_end past (fuel + 1)
  | one b =>
    obtain ⟨fuel, rfl⟩ := Nat.exists_eq_add_of_le' hfuel
    refine ⟨_, decodeObjectFuel_one past (fuel + 1) b, ?_⟩
    have hlast := restDecoded_lastValue b
    split
    · rename_i hend
      rw [hend]
      exact ⟨fun _ => rfl, nofun⟩
    · constructor
      · intro hclean
        rw [AMF0Object.scalars, AMF0Object.scalars, List.append_nil]
        exact hlast.nothing hclean
      · intro hunclean
        rw [AMF0Object.scalars, AMF0Object.scalars, List.append_nil]
        exact hlast.something hunclean
  | key len s hlen hs =>
    obtain ⟨fuel, rfl⟩ := Nat.exists_eq_add_of_le' (Nat.le_trans (Nat.le_add_left 2 _) hfuel)
    obtain ⟨key, hkey⟩ := readObjectKey_partial past hlen hs
    have hmore : (reading past (Endian.toBE 2 len ++ s)).pos <
        (reading past (Endian.toBE 2 len ++ s)).len :=
      pos_lt_reading past (List.cons_ne_nil _ _)
    refine ⟨[(key, .null)], ?_, fun _ => rfl, fun hunclean => ?_⟩
    · rw [decodeObjectFuel, if_pos hmore, hkey]
      simp only [decodeFuel_end, decodeObjectFuel_end, pos_reading_nil, false_and, and_false,
        if_false]
    · rw [cleanRest_key hlen hs] at hunclean
      cases hunclean
  | marker b =>
    by_cases hend : b = kAMF0ObjectEnd
    · have hnil := decodeObjectFuel_encode .nil fuel past [] (by
        simp only [List.length_cons, List.length_nil] at hfuel
        simp only [AMF0Pairs.encode, objectEnd, List.nil_append, List.length_cons, List.length_nil]
        omega)
      rw [List.append_nil] at hnil
      rw [hend]
      exact ⟨[], hnil, fun _ => rfl, nofun⟩
    · obtain ⟨fuel, rfl⟩ := Nat.exists_eq_add_of_le' hfuel
      have hnot : NotEnded [b] := by
        intro b' tail hb
        cases hb
        exact hend
      have hpair := decodeObjectFuel_pair emptyKey hnot
        (decodeFuel_one (past ++ emptyKey.encode) (fuel + 5) b)
        (decodeObjectFuel_end (past ++ emptyKey.encode ++ [b]) (fuel + 6))
      rw [List.append_assoc] at hpair
      have hlast := restDecoded_lastValue b
      refine ⟨_, hpair, ?_, ?_⟩
      · intro hclean
        rw [AMF0Object.scalars, AMF0Object.scalars, List.append_nil]
        exact hlast.nothing hclean
      · intro hunclean
        rw [AMF0Object.scalars, AMF0Object.scalars, List.append_nil]
        exact hlast.something hunclean

/-! ## Values that are cut -/

/-- What a call returns of a value or of pairs that are cut: the scalars that are whole,
and all the bytes used, if the cut is clean, and more scalars than that otherwise. -/
structure CutDecoded (clean : Bool) (inside returned : List AMF0Value) (d : AMF0Decoder) :
    Prop where
  pos_le : d.pos ≤ d.len
  faithful : clean = true → returned = inside ∧ d.remaining = 0
  madeUp : clean = false → inside.length < returned.length

theorem RestDecoded.cut {clean : Bool} {scalars : List AMF0Value} (h : RestDecoded clean scalars)
    (past : Bytes) : CutDecoded clean [] scalars (reading past []) where
  pos_le := pos_le_len_reading past []
  faithful hclean := ⟨h.nothing hclean, reading_remaining past []⟩
  madeUp hunclean := h.something hunclean

/-- A key that is cut is a part of a pair. -/
theorem partialPair_take (key : AMF0String) {k : Nat} (h : k < key.encode.length) :
    PartialPair (key.encode.take k) := by
  rw [AMF0String.encode, List.length_append, Endian.length_toBE] at h
  cases k with
  | zero => exact .none
  | succ k =>
    cases k with
    | zero => exact .one _
    | succ k =>
      have htake : key.encode.take (k + 2) =
          Endian.toBE 2 key.bytes.length ++ key.bytes.take k := by
        rw [AMF0String.encode, List.take_append, Endian.length_toBE, List.take_of_length_le]
        · rfl
        · rw [Endian.length_toBE]
          exact Nat.le_add_left 2 k
      rw [htake]
      apply PartialPair.key _ _ key.length_le
      rw [List.length_take]
      exact Nat.min_le_right _ _

/-- So is the end of an object. -/
theorem partialPair_objectEnd {k : Nat} (h : k < objectEnd.length) :
    PartialPair (objectEnd.take k) := by
  match k, h with
  | 0, _ => exact .none
  | 1, _ => exact .one _
  | 2, _ => exact .key 0 [] (Nat.zero_le _) (Nat.le_refl _)

/-- And so are three bytes of whatever kind. -/
theorem partialPair_short {ahead : Bytes} (h : ahead.length ≤ 3) : PartialPair ahead := by
  match ahead, h with
  | [], _ => exact .none
  | [b], _ => exact .one b
  | l₀ :: l₁ :: s, h =>
    have hbytes := Endian.toBE_ofBE [l₀, l₁]
    have hlt := Endian.ofBE_lt [l₀, l₁]
    simp only [List.length_cons, List.length_nil, Nat.zero_add, Nat.reduceAdd] at h hbytes hlt
    generalize Endian.ofBE [l₀, l₁] = len at hbytes hlt
    have hkey {s : Bytes} (hs : s.length ≤ len) : PartialPair (l₀ :: l₁ :: s) := by
      have hpartial := PartialPair.key len s (Nat.le_of_lt_succ hlt) hs
      rwa [hbytes] at hpartial
    match s, h with
    | [], _ => exact hkey (Nat.zero_le _)
    | [b], _ =>
      rcases Nat.eq_zero_or_pos len with rfl | hpos
      · cases hbytes
        exact .marker b
      · exact hkey hpos

/-! ### By recursion -/

/-- A Number, a Boolean or a String is returned behind its marker, whatever is left. -/
theorem decodeFuel_scalar (fuel : Nat) (past ahead : Bytes) {marker : UInt8}
    (h : marker = kAMF0Number ∨ marker = kAMF0Boolean ∨ marker = kAMF0String) :
    ∃ val d, decodeFuel (fuel + 1) (reading past (marker :: ahead)) = some (val, d) ∧
      CutDecoded false [] val.scalars d := by
  have hmore : ¬ (reading past (marker :: ahead)).pos ≥ (reading past (marker :: ahead)).len :=
    Nat.not_le_of_lt (pos_lt_reading past (List.cons_ne_nil _ _))
  have hbehind := pos_le_len_reading (past ++ [marker]) ahead
  have hone {val : AMF0Value} {d : AMF0Decoder} (hval : val.scalars.length = 1)
      (hd : d.pos ≤ d.len) : CutDecoded false [] val.scalars d :=
    ⟨hd, nofun, fun _ => by rw [hval]; exact Nat.zero_lt_one⟩
  rw [decodeFuel, if_neg hmore, readUint8_reading]
  rcases h with rfl | rfl | rfl
  · exact ⟨_, _, rfl, hone rfl (readDouble_ahead hbehind).pos_le_len⟩
  · exact ⟨_, _, rfl, hone rfl (readUint8_ahead hbehind).pos_le_len⟩
  · exact ⟨_, _, rfl, hone rfl (readObjectKey_ahead hbehind).pos_le_len⟩

/-- The loop ends where nothing is left. -/
theorem decodeObjectFuel_exhausted {fuel : Nat} {d d' : AMF0Decoder}
    {properties : List (Bytes × AMF0Value)} (h : d.remaining = 0)
    (hdecode : decodeObjectFuel fuel d = some (properties, d')) : properties = [] ∧ d' = d := by
  cases fuel with
  | zero => cases hdecode
  | succ fuel =>
    have hend : ¬ d.pos < d.len := Nat.not_lt_of_le (Nat.sub_eq_zero_iff_le.mp h)
    rw [decodeObjectFuel, if_neg hend] at hdecode
    cases hdecode
    exact ⟨rfl, rfl⟩

mutual

/-- A value that is cut. -/
theorem decodeFuel_cut : ∀ (v : AMF0Syntax) (fuel : Nat) (past : Bytes) (k : Nat),
    k < v.encode.length → 2 * k + 1 ≤ fuel →
    ∃ val d, decodeFuel fuel (reading past (v.encode.take k)) = some (val, d) ∧
      CutDecoded (v.cleanCut k) (v.scalarsWithin k) val.scalars d ∧
      (v.cleanCut k = true → val.isScalar = false)
  | v, fuel, past, 0, hk, hfuel => by
    obtain ⟨fuel, rfl⟩ := Nat.exists_eq_add_of_le' hfuel
    refine ⟨.null, _, decodeFuel_end past fuel, ?_, fun _ => rfl⟩
    rw [v.scalarsWithin_zero]
    cases v <;> exact ⟨pos_le_len_reading past [], fun _ => ⟨rfl, reading_remaining past []⟩, nofun⟩
  | .number bits, fuel + 1, past, k + 1, hk, _ => by
    obtain ⟨val, d, hdecode, hcut⟩ := decodeFuel_scalar fuel past _ (Or.inl rfl)
    refine ⟨val, d, hdecode, ?_, nofun⟩
    rw [AMF0Syntax.scalarsWithin, if_neg (Nat.not_le_of_lt hk)]
    exact hcut
  | .boolean b, fuel + 1, past, k + 1, hk, _ => by
    obtain ⟨val, d, hdecode, hcut⟩ := decodeFuel_scalar fuel past _ (Or.inr (Or.inl rfl))
    refine ⟨val, d, hdecode, ?_, nofun⟩
    rw [AMF0Syntax.scalarsWithin, if_neg (Nat.not_le_of_lt hk)]
    exact hcut
  | .string s, fuel + 1, past, k + 1, hk, _ => by
    obtain ⟨val, d, hdecode, hcut⟩ := decodeFuel_scalar fuel past _ (Or.inr (Or.inr rfl))
    refine ⟨val, d, hdecode, ?_, nofun⟩
    rw [AMF0Syntax.scalarsWithin, if_neg (Nat.not_le_of_lt hk)]
    exact hcut
  | .object pairs, fuel + 1, past, k + 1, hk, hfuel => by
    obtain ⟨properties, d, hdecode, hcut⟩ := decodeObjectFuel_cut pairs fuel
      (past ++ [kAMF0Object]) k (Nat.lt_of_succ_lt_succ hk) (by omega)
    exact ⟨_, d, decodeFuel_object hdecode, hcut, fun _ => rfl⟩
  | .ecmaArray count pairs, fuel + 1, past, k + 1, hk, hfuel => by
    have hcount : (Endian.toBE 4 count.toNat).length = 4 := Endian.length_toBE 4 _
    rcases Nat.lt_or_ge k 4 with hshort | hlong
    · -- the count is not there, and what is left of it is decoded as pairs
      have htake : (AMF0Syntax.ecmaArray count pairs).encode.take (k + 1) =
          kAMF0ECMAArray :: (Endian.toBE 4 count.toNat).take k := by
        rw [AMF0Syntax.encode, List.take_succ_cons, List.take_append_of_le_length (by omega)]
      have hlen : ((Endian.toBE 4 count.toNat).take k).length = k := by
        rw [List.length_take]
        omega
      obtain ⟨properties, hdecode, hrest⟩ := decodeObjectFuel_partial
        (partialPair_short (show ((Endian.toBE 4 count.toNat).take k).length ≤ 3 by omega))
        (show 2 * ((Endian.toBE 4 count.toNat).take k).length + 2 ≤ fuel by omega)
        (past ++ [kAMF0ECMAArray])
      have hmissing : (reading (past ++ [kAMF0ECMAArray])
          ((Endian.toBE 4 count.toNat).take k)).readUint32BE.2 =
          reading (past ++ [kAMF0ECMAArray]) ((Endian.toBE 4 count.toNat).take k) := by
        rw [readUint32BE_missing _ _ (by omega)]
      rw [← hmissing] at hdecode
      refine ⟨_, _, htake ▸ decodeFuel_ecmaArray hdecode, ?_, fun _ => rfl⟩
      rw [AMF0Syntax.cleanCut, if_pos hshort, AMF0Syntax.scalarsWithin,
        show k + 1 - 5 = 0 by omega, pairs.scalarsWithin_zero]
      exact hrest.cut _
    · have htake : (AMF0Syntax.ecmaArray count pairs).encode.take (k + 1) =
          kAMF0ECMAArray :: (Endian.toBE 4 count.toNat ++
            (pairs.encode ++ objectEnd).take (k - 4)) := by
        rw [AMF0Syntax.encode, List.take_succ_cons, List.take_append, hcount,
          List.take_of_length_le (by omega)]
      simp only [AMF0Syntax.encode, List.length_cons, List.length_append, hcount] at hk
      obtain ⟨properties, d, hdecode, hcut⟩ := decodeObjectFuel_cut pairs fuel
        (past ++ [kAMF0ECMAArray] ++ Endian.toBE 4 count.toNat) (k - 4)
        (by rw [List.length_append]; omega) (by omega)
      rw [← readUint32BE_reading] at hdecode
      refine ⟨_, _, htake ▸ decodeFuel_ecmaArray hdecode, ?_, fun _ => rfl⟩
      rw [AMF0Syntax.cleanCut, if_neg (Nat.not_lt_of_le hlong), AMF0Syntax.scalarsWithin,
        show k + 1 - 5 = k - 4 by omega]
      exact hcut
  | .null, fuel, past, k + 1, hk, hfuel => absurd hk (by simp [AMF0Syntax.encode])
  | .undefined, fuel, past, k + 1, hk, hfuel => absurd hk (by simp [AMF0Syntax.encode])

/-- The pairs of an object that are cut. -/
theorem decodeObjectFuel_cut : ∀ (pairs : AMF0Pairs) (fuel : Nat) (past : Bytes) (k : Nat),
    k < (pairs.encode ++ objectEnd).length → 2 * k + 2 ≤ fuel →
    ∃ properties d, decodeObjectFuel fuel (reading past ((pairs.encode ++ objectEnd).take k)) =
        some (properties, d) ∧
      CutDecoded (pairs.cleanCut k) (pairs.scalarsWithin k) (AMF0Object.scalars properties) d
  | .nil, fuel, past, k, hk, hfuel => by
    have hpartial := partialPair_objectEnd hk
    have hlen : (objectEnd.take k).length ≤ k := by
      rw [List.length_take]
      exact Nat.min_le_left _ _
    obtain ⟨properties, hdecode, hrest⟩ := decodeObjectFuel_partial hpartial
      (show 2 * (objectEnd.take k).length + 2 ≤ fuel by omega) past
    exact ⟨properties, _, hdecode, hrest.cut _⟩
  | .cons key val rest, fuel, past, k, hk, hfuel => by
    have hkeylen := key.two_le_length_encode
    have hall : (AMF0Pairs.cons key val rest).encode ++ objectEnd =
        key.encode ++ (val.encode ++ (rest.encode ++ objectEnd)) := by
      simp only [AMF0Pairs.encode, List.append_assoc]
    rw [hall] at hk ⊢
    rw [List.length_append, List.length_append] at hk
    rcases Nat.lt_or_ge k key.encode.length with hkey | hkey
    · -- in the key
      have hlen : (key.encode.take k).length = k := by
        rw [List.length_take]
        omega
      obtain ⟨properties, hdecode, hrest⟩ := decodeObjectFuel_partial (partialPair_take key hkey)
        (show 2 * (key.encode.take k).length + 2 ≤ fuel by omega) past
      have hzero : k - key.encode.length = 0 := by omega
      rw [List.take_append_of_le_length (Nat.le_of_lt hkey), AMF0Pairs.cleanCut, if_pos hkey,
        AMF0Pairs.scalarsWithin, hzero, Nat.zero_sub, val.scalarsWithin_zero,
        rest.scalarsWithin_zero]
      exact ⟨properties, _, hdecode, hrest.cut _⟩
    obtain ⟨fuel, rfl⟩ := Nat.exists_eq_add_of_le' (show 1 ≤ fuel by omega)
    have hfuel' : 2 * (k - key.encode.length) + 2 ≤ fuel := by omega
    have hk' : k - key.encode.length < val.encode.length + (rest.encode ++ objectEnd).length := by
      omega
    rw [List.take_append, List.take_of_length_le hkey, AMF0Pairs.cleanCut,
      if_neg (Nat.not_lt_of_le hkey), AMF0Pairs.scalarsWithin]
    generalize k - key.encode.length = k' at hfuel' hk' ⊢
    rcases Nat.lt_or_ge k' val.encode.length with hval | hval
    · -- in the value
      obtain ⟨v, d, hdecode, hcut, -⟩ := decodeFuel_cut val fuel (past ++ key.encode) k' hval
        (by omega)
      have hnot : NotEnded (val.encode.take k') := by
        have hend := notEnded_encode val []
        rw [List.append_nil] at hend
        exact hend.take k'
      have hleft : d.remaining ≤ k' := by
        have hle := (decodeFuel_advanced (pos_le_len_reading _ _) hdecode).remaining_le
        rw [reading_remaining, List.length_take] at hle
        omega
      have hzero : k' - val.encode.length = 0 := by omega
      rw [List.take_append_of_le_length (Nat.le_of_lt hval), if_pos hval, hzero,
        rest.scalarsWithin_zero, List.append_nil]
      -- the loop goes on with what is left
      obtain ⟨more, d₃, hmore, h₃⟩ := (decodeFuel_isSome fuel d hcut.pos_le).2 (by omega)
      have hpair := decodeObjectFuel_pair key hnot hdecode hmore
      refine ⟨_, d₃, hpair, h₃.pos_le_len, fun hclean => ?_, fun hunclean => ?_⟩
      · obtain ⟨hscalars, hremaining⟩ := hcut.faithful hclean
        obtain ⟨rfl, rfl⟩ := decodeObjectFuel_exhausted hremaining hmore
        rw [AMF0Object.scalars, AMF0Object.scalars, List.append_nil]
        exact ⟨hscalars, hremaining⟩
      · rw [AMF0Object.scalars, List.length_append]
        exact Nat.lt_of_lt_of_le (hcut.madeUp hunclean) (Nat.le_add_right _ _)
    · -- behind the value
      have hwhole := decodeFuel_encode val fuel (past ++ key.encode)
        ((rest.encode ++ objectEnd).take (k' - val.encode.length)) (by omega)
      obtain ⟨properties, d, hdecode, hcut⟩ := decodeObjectFuel_cut rest fuel
        (past ++ key.encode ++ val.encode) (k' - val.encode.length) (by omega) (by omega)
      have hpair := decodeObjectFuel_pair key (notEnded_encode val _) hwhole hdecode
      rw [List.take_append, List.take_of_length_le hval, if_neg (Nat.not_lt_of_le hval),
        val.scalarsWithin_whole k' hval]
      refine ⟨_, d, hpair, hcut.pos_le, fun hclean => ?_, fun hunclean => ?_⟩
      · rw [AMF0Object.scalars, (hcut.faithful hclean).1]
        exact ⟨rfl, (hcut.faithful hclean).2⟩
      · rw [AMF0Object.scalars, List.length_append, List.length_append]
        exact Nat.add_lt_add_left (hcut.madeUp hunclean) _

end

/-! ## Sequences that are cut -/

/-- The prefix of `k` bytes ends in the value `v`, behind `front`, with `k'` bytes of it. -/
structure CutIn (vals : List AMF0Syntax) (k : Nat) (front : List AMF0Syntax) (v : AMF0Syntax)
    (k' : Nat) : Prop where
  lt : k' < v.encode.length
  take_eq : (encodeAll vals).take k = encodeAll front ++ v.encode.take k'
  whole : wholeValues vals k = front
  within : scalarsWithin vals k =
    front.flatMap (fun w => w.value.scalars) ++ v.scalarsWithin k'
  clean : cleanCut vals k = v.cleanCut k'

theorem scalarsWithin_zero (vals : List AMF0Syntax) : scalarsWithin vals 0 = [] := by
  induction vals with
  | nil => rfl
  | cons v vals ih =>
    rw [scalarsWithin, v.scalarsWithin_zero, Nat.zero_sub, ih, List.append_nil]

/-- A proper prefix ends in one of the values. -/
theorem exists_cutIn {vals : List AMF0Syntax} {k : Nat} (h : k < (encodeAll vals).length) :
    ∃ front v k', CutIn vals k front v k' := by
  induction vals generalizing k with
  | nil => cases h
  | cons v vals ih =>
    have hcons : encodeAll (v :: vals) = v.encode ++ encodeAll vals := by
      simp only [encodeAll, List.flatMap_cons]
    rcases Nat.lt_or_ge k v.encode.length with hlt | hge
    · have hnot : ¬ v.encode.length ≤ k := Nat.not_le_of_lt hlt
      have hzero : k - v.encode.length = 0 := Nat.sub_eq_zero_of_le (Nat.le_of_lt hlt)
      refine ⟨[], v, k, hlt, ?_, if_neg hnot, ?_, if_neg hnot⟩
      · rw [hcons, List.take_append_of_le_length (Nat.le_of_lt hlt)]
        rfl
      · rw [scalarsWithin, hzero, scalarsWithin_zero, List.append_nil]
        rfl
    · rw [hcons, List.length_append] at h
      obtain ⟨front, w, k', hcut⟩ := ih (show k - v.encode.length < (encodeAll vals).length by omega)
      refine ⟨v :: front, w, k', hcut.lt, ?_, ?_, ?_, ?_⟩
      · rw [hcons, List.take_append, List.take_of_length_le hge, hcut.take_eq, ← List.append_assoc]
        simp only [encodeAll, List.flatMap_cons]
      · rw [wholeValues, if_pos hge, hcut.whole]
      · rw [scalarsWithin, v.scalarsWithin_whole k hge, hcut.within, List.flatMap_cons,
          List.append_assoc]
      · rw [cleanCut, if_pos hge, hcut.clean]

theorem decodeMany_append {n m : Nat} {d d' d'' : AMF0Decoder} {vals more : List AMF0Value}
    (h : decodeMany n d = some (vals, d')) (hmore : decodeMany m d' = some (more, d'')) :
    decodeMany (n + m) d = some (vals ++ more, d'') := by
  induction n generalizing d vals with
  | zero =>
    cases h
    rw [Nat.zero_add]
    exact hmore
  | succ n ih =>
    rw [Nat.succ_add, decodeMany]
    rw [decodeMany] at h
    cases hval : d.decode with
    | none => simp only [hval, reduceCtorEq] at h
    | some r =>
      obtain ⟨val, d₁⟩ := r
      simp only [hval] at h ⊢
      cases hrest : decodeMany n d₁ with
      | none => simp only [hrest, reduceCtorEq] at h
      | some r =>
        obtain ⟨rest, d₂⟩ := r
        simp only [hrest, Option.some.injEq, Prod.mk.injEq] at h
        obtain ⟨rfl, rfl⟩ := h
        simp only [ih hrest, List.cons_append]

/-- Where nothing is left every call returns null. -/
theorem decode_exhausted {d : AMF0Decoder} (h : d.remaining = 0) : d.decode = some (.null, d) := by
  rw [decode, h, decodeFuel, if_pos (Nat.sub_eq_zero_iff_le.mp h)]

theorem decodeMany_exhausted (n : Nat) {d : AMF0Decoder} (h : d.remaining = 0) :
    decodeMany n d = some (List.replicate n .null, d) := by
  induction n with
  | zero => rfl
  | succ n ih =>
    rw [decodeMany, decode_exhausted h]
    simp only [ih, List.replicate_succ]

section Prefix

variable {vals front : List AMF0Syntax} {v : AMF0Syntax} {k k' : Nat}

/-- The calls up to the one that meets the value that is cut. -/
theorem CutIn.decodeMany (h : CutIn vals k front v k') :
    ∃ val d, AMF0Decoder.decodeMany (front.length + 1) { data := (encodeAll vals).take k } =
        some (front.map AMF0Syntax.value ++ [val], d) ∧
      CutDecoded (cleanCut vals k) (v.scalarsWithin k') val.scalars d ∧
      (cleanCut vals k = true → val.isScalar = false) := by
  have hfront := decodeMany_reading front [] (v.encode.take k')
  have hremaining := reading_remaining ([] ++ encodeAll front) (v.encode.take k')
  have hlt := h.lt
  rw [List.length_take, Nat.min_eq_left (Nat.le_of_lt hlt)] at hremaining
  obtain ⟨val, d, hdecode, hcut, hscalar⟩ := decodeFuel_cut v (2 * k' + 1)
    ([] ++ encodeAll front) k' hlt (Nat.le_refl _)
  have hone : AMF0Decoder.decodeMany 1 (reading ([] ++ encodeAll front) (v.encode.take k')) =
      some ([val], d) := by
    rw [AMF0Decoder.decodeMany, decode, hremaining, hdecode]
    rfl
  rw [h.take_eq, h.clean, ← reading_nil]
  exact ⟨val, d, decodeMany_append hfront hone, hcut, hscalar⟩

/-- The calls that only meet whole values. -/
theorem CutIn.decodeMany_of_le (h : CutIn vals k front v k') {n : Nat} (hn : n ≤ front.length) :
    ∃ d, AMF0Decoder.decodeMany n { data := (encodeAll vals).take k } =
      some ((front.take n).map AMF0Syntax.value, d) := by
  have hmany := decodeMany_encodeAll (front.take n) (front.drop n) (v.encode.take k')
  rw [List.take_append_drop, List.length_take, Nat.min_eq_left hn, ← h.take_eq] at hmany
  exact ⟨_, hmany⟩

end Prefix

/-- Nothing is made up in decoding the first `k` bytes of values. -/
structure TruncatedSafely (vals : List AMF0Syntax) (k : Nat) : Prop where
  /-- Every scalar that is returned is one of those that lie in the prefix. -/
  scalars {n : Nat} {returned : List AMF0Value} {d : AMF0Decoder} :
    decodeMany n { data := (encodeAll vals).take k } = some (returned, d) →
    (returned.flatMap AMF0Value.scalars).Sublist (scalarsWithin vals k)
  /-- Behind the whole values nothing is left, and null is returned. -/
  exhausted {n : Nat} {returned : List AMF0Value} {d : AMF0Decoder} :
    decodeMany n { data := (encodeAll vals).take k } = some (returned, d) →
    (wholeValues vals k).length < n → d.remaining = 0 ∧ d.decodeNext = (.null, d)
  /-- A command that is acted on has a whole name and a whole transaction number. -/
  command {s : RtmpSession} {msg : RtmpMessage} : msg.payload = (encodeAll vals).take k →
    s.handleAMF0Command msg ≠ (s, []) →
    ∃ name bits more, wholeValues vals k = .string name :: .number bits :: more

/-- The calls behind a clean cut. -/
theorem CutIn.decodeMany_of_lt {vals front : List AMF0Syntax} {v : AMF0Syntax} {k k' : Nat}
    (h : CutIn vals k front v k') (hclean : cleanCut vals k = true) {n : Nat}
    (hn : front.length < n) :
    ∃ val d, AMF0Decoder.decodeMany n { data := (encodeAll vals).take k } =
        some (front.map AMF0Syntax.value ++ [val] ++ List.replicate (n - (front.length + 1)) .null,
          d) ∧
      val.scalars = v.scalarsWithin k' ∧ d.remaining = 0 ∧ val.isScalar = false := by
  obtain ⟨val, d, hdecode, hcut, hscalar⟩ := h.decodeMany
  obtain ⟨hscalars, hremaining⟩ := hcut.faithful hclean
  have hall := decodeMany_append hdecode
    (decodeMany_exhausted (n - (front.length + 1)) hremaining)
  rw [Nat.add_sub_cancel' hn] at hall
  exact ⟨val, d, hall, hscalars, hremaining, hscalar hclean⟩

theorem flatMap_scalars_null (n : Nat) :
    (List.replicate n AMF0Value.null).flatMap AMF0Value.scalars = [] := by
  apply List.flatMap_eq_nil_iff.mpr
  intro v hv
  rw [List.eq_of_mem_replicate hv]
  rfl

/-- A cut that is clean makes nothing up. -/
theorem truncatedSafely_of_clean {vals : List AMF0Syntax} {k : Nat}
    (hk : k < (encodeAll vals).length) (hclean : cleanCut vals k = true) :
    TruncatedSafely vals k := by
  obtain ⟨front, v, k', hcut⟩ := exists_cutIn hk
  constructor
  · intro n returned d hdecode
    rcases Nat.lt_or_ge front.length n with hlt | hle
    · obtain ⟨val, d', hmany, hscalars, -, -⟩ := hcut.decodeMany_of_lt hclean hlt
      rw [hmany] at hdecode
      cases hdecode
      rw [hcut.within, List.flatMap_append, List.flatMap_append, List.flatMap_map,
        flatMap_scalars_null, List.append_nil, List.flatMap_singleton, hscalars]
    · obtain ⟨d', hmany⟩ := hcut.decodeMany_of_le hle
      rw [hmany] at hdecode
      cases hdecode
      rw [hcut.within, List.flatMap_map]
      apply List.Sublist.trans _ (List.sublist_append_left _ _)
      rw [← List.take_append_drop n front, List.flatMap_append, List.take_append_drop]
      exact List.sublist_append_left _ _
  · intro n returned d hdecode hlt
    rw [hcut.whole] at hlt
    obtain ⟨val, d', hmany, -, hremaining, -⟩ := hcut.decodeMany_of_lt hclean hlt
    rw [hmany] at hdecode
    cases hdecode
    refine ⟨hremaining, ?_⟩
    rw [decodeNext, decode_exhausted hremaining]
    rfl
  · intro s msg hpayload hacts
    rw [hcut.whole]
    rw [RtmpSession.handleAMF0Command, hpayload] at hacts
    cases hread : RtmpSession.readCommand ((encodeAll vals).take k) with
    | none =>
      rw [hread] at hacts
      exact absurd rfl hacts
    | some cmd =>
      have htwo := (RtmpSession.readCommand_eq_some _ cmd).mp hread
      have hlong : 2 ≤ front.length := by
        rcases Nat.lt_or_ge front.length 2 with hshort | hlong
        · -- the value that is cut would be the name or the number
          obtain ⟨val, d, hmany, -, -, hscalar⟩ := hcut.decodeMany_of_lt hclean hshort
          rw [htwo] at hmany
          have hvals := congrArg Prod.fst (Option.some.inj hmany)
          have hmem : val ∈ [AMF0Value.string cmd.name, .number cmd.txnId] := by
            simp only at hvals
            rw [hvals]
            apply List.mem_append_left
            exact List.mem_append_right _ (List.mem_singleton_self val)
          rcases List.mem_cons.mp hmem with rfl | hmem
          · cases hscalar
          · rw [List.mem_singleton.mp hmem] at hscalar
            cases hscalar
        · exact hlong
      obtain ⟨d, hmany⟩ := hcut.decodeMany_of_le hlong
      rw [htwo] at hmany
      have hvals := congrArg Prod.fst (Option.some.inj hmany)
      obtain _ | ⟨w, _ | ⟨x, more⟩⟩ := front
      · exact absurd hlong (by decide)
      · exact absurd hlong (by simp)
      simp only [List.take_succ_cons, List.take_zero, List.map_cons, List.map_nil,
        List.cons.injEq, and_true] at hvals
      obtain ⟨hname, hnumber⟩ := hvals
      obtain ⟨name, rfl⟩ := AMF0Syntax.value_eq_string hname.symm
      obtain ⟨bits, rfl⟩ := AMF0Syntax.value_eq_number hnumber.symm
      exact ⟨name, bits, more, rfl⟩

/-- A prefix is decoded without making anything up if and only if its cut is clean. -/
theorem truncatedSafely_iff {vals : List AMF0Syntax} {k : Nat}
    (hk : k < (encodeAll vals).length) : TruncatedSafely vals k ↔ cleanCut vals k = true := by
  constructor
  · intro h
    obtain ⟨front, v, k', hcut⟩ := exists_cutIn hk
    obtain ⟨val, d, hdecode, hcutDecoded, -⟩ := hcut.decodeMany
    have hlen := (h.scalars hdecode).length_le
    rw [hcut.within, List.flatMap_append, List.flatMap_map, List.flatMap_singleton,
      List.length_append, List.length_append] at hlen
    cases hclean : cleanCut vals k with
    | true => rfl
    | false =>
      have hmore := hcutDecoded.madeUp hclean
      omega
  · exact truncatedSafely_of_clean hk

/-! ### Two prefixes -/

/-- A `createStream` that is cut in the first property behind its number. -/
def cutCommand : List AMF0Syntax :=
  [.string ⟨Bytes.ofAscii "createStream", by decide⟩, .number 0x4010000000000000,
    .object (.cons ⟨Bytes.ofAscii "key", by decide⟩ .null .nil)]

theorem truncatedSafely_cutCommand : TruncatedSafely cutCommand 28 :=
  (truncatedSafely_iff (by decide)).mpr (by decide)

/-- A command is acted on of which the transaction number is missing. -/
theorem cutCommand_madeUp : ¬ TruncatedSafely cutCommand 16 := by
  intro h
  have hacts : (({} : RtmpSession).handleAMF0Command
      { header := {}, payload := (encodeAll cutCommand).take 16 }) ≠ ({}, []) := by
    decide +kernel
  obtain ⟨name, bits, more, hwhole⟩ := h.command rfl hacts
  have hone : (wholeValues cutCommand 16).length = 1 := by decide
  rw [hwhole] at hone
  cases hone

end AMF0Decoder
