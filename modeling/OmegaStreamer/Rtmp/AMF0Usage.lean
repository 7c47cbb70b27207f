-- SUMMARY: The AMF0 decoder with its accesses checked and its recursion counted, and bounds on both.
import OmegaStreamer.Lib.Memory
import OmegaStreamer.Rtmp.AMF0Format

/-!
# What the decoder uses

An invariant of `Decode` is proved once for each of the ways in which it and
`DecodeObject` return (`decodeFuel_induct`). The decoder is then written a second
time, so that it fails wherever the code would read outside of its array or move its
position back or past the end, and so that it counts the calls of `Decode` that are
open and the properties that are stored. It never fails, and what it counts can be
read off the values.
-/

open BytesReader

/-! ## Counts -/

mutual

/-- A value in a value is one level deeper. -/
def AMF0Value.depth : AMF0Value → Nat
  | .object properties => AMF0Object.depth properties + 1
  | _ => 1

def AMF0Object.depth : List (Bytes × AMF0Value) → Nat
  | [] => 0
  | (_, val) :: properties => max val.depth (AMF0Object.depth properties)

end

mutual

/-- The properties of a value, those of its properties counted as well. -/
def AMF0Value.propertyCount : AMF0Value → Nat
  | .object properties => AMF0Object.propertyCount properties
  | _ => 0

def AMF0Object.propertyCount : List (Bytes × AMF0Value) → Nat
  | [] => 0
  | (_, val) :: properties => val.propertyCount + 1 + AMF0Object.propertyCount properties

end

/-- A value that has no values in it. A string is as long as a length of two bytes can
say. -/
def AMF0Value.Leaf : AMF0Value → Prop
  | .object _ => False
  | .string s => s.length ≤ 65535
  | _ => True

theorem AMF0Value.depth_leaf {v : AMF0Value} (h : v.Leaf) : v.depth = 1 := by
  cases v with
  | object properties => cases h
  | _ => simp only [AMF0Value.depth]

theorem AMF0Value.propertyCount_leaf {v : AMF0Value} (h : v.Leaf) : v.propertyCount = 0 := by
  cases v with
  | object properties => cases h
  | _ => simp only [AMF0Value.propertyCount]

namespace AMF0Decoder

/-! ## Invariants of Decode -/

/-- The second decoder is ahead of the first, and further on if a byte was left. -/
structure Advanced (d d' : AMF0Decoder) : Prop extends Ahead d d' where
  pos_lt : d.pos < d.len → d.pos < d'.pos

/-- A length of two bytes says no more. -/
theorem readObjectKey_length (d : AMF0Decoder) : d.readObjectKey.1.length ≤ 65535 := by
  rw [readObjectKey]
  simp only [readStringData]
  split
  · exact Nat.zero_le _
  · apply Nat.le_trans (List.length_take_le _ _)
    exact Nat.le_of_lt_succ (UInt16.toNat_lt _)

section Induct

variable (Value : AMF0Decoder → AMF0Value → AMF0Decoder → Prop)
  (Pairs : AMF0Decoder → List (Bytes × AMF0Value) → AMF0Decoder → Prop)

/-- What holds of every way in which the two functions return holds of all that they
return. -/
theorem decodeFuel_induct
    (atEnd : ∀ d, d.pos = d.len → Value d .null d)
    (leaf : ∀ d v d', d.pos < d.len → v.Leaf → Ahead d.readUint8.2 d' → Value d v d')
    (object : ∀ d d₁ properties d', d.pos < d.len → Ahead d.readUint8.2 d₁ →
      Ahead d₁ d' → Pairs d₁ properties d' → Value d (.object properties) d')
    (done : ∀ d, d.pos = d.len → Pairs d [] d)
    (ended : ∀ d d', d.pos < d.len → Ahead d d' → Pairs d [] d')
    (pair : ∀ d val d₂ properties d₃, d.pos < d.len → Ahead d d.readObjectKey.2 →
      Advanced d.readObjectKey.2 d₂ → Value d.readObjectKey.2 val d₂ → Ahead d₂ d₃ →
      Pairs d₂ properties d₃ → Pairs d ((d.readObjectKey.1, val) :: properties) d₃)
    (fuel : Nat) : ∀ d : AMF0Decoder, d.pos ≤ d.len →
      (∀ v d', decodeFuel fuel d = some (v, d') → Advanced d d' ∧ Value d v d') ∧
      (∀ properties d', decodeObjectFuel fuel d = some (properties, d') →
        Ahead d d' ∧ Pairs d properties d') := by
  induction fuel with
  | zero => exact fun d _ => ⟨nofun, nofun⟩
  | succ fuel ih =>
    intro d hd
    constructor
    · intro v d' h
      rw [decodeFuel] at h
      split at h
      · rename_i hend
        cases h
        exact ⟨⟨.self hd, fun hlt => absurd hend (Nat.not_le_of_lt hlt)⟩,
          atEnd d (Nat.le_antisymm hd hend)⟩
      rename_i hmore
      have hlt := Nat.lt_of_not_le hmore
      have hmarker := readUint8_ahead hd
      have hpos := readUint8_pos hlt
      have hleaf := leaf d
      have hobject := object d
      generalize d.readUint8 = r at h hmarker hpos hleaf hobject
      obtain ⟨marker, d₁⟩ := r
      simp only at h hmarker hpos hleaf hobject
      have hd₁ := hmarker.pos_le_len
      have hadvanced {d₂ : AMF0Decoder} (h₂ : Ahead d₁ d₂) : Advanced d d₂ := by
        refine ⟨hmarker.trans h₂, fun _ => ?_⟩
        have hle := h₂.pos_le
        omega
      have hscalar {w : AMF0Value} {d₂ : AMF0Decoder} (h₂ : Ahead d₁ d₂)
          (heq : some (w, d₂) = some (v, d')) (hw : w.Leaf) :
          Advanced d d' ∧ Value d v d' := by
        cases heq
        exact ⟨hadvanced h₂, hleaf _ _ hlt hw h₂⟩
      have hpairs {d₂ d₃ : AMF0Decoder} {properties : List (Bytes × AMF0Value)}
          (h₂ : Ahead d₁ d₂) (hobj : decodeObjectFuel fuel d₂ = some (properties, d₃))
          (heq : some (AMF0Value.object properties, d₃) = some (v, d')) :
          Advanced d d' ∧ Value d v d' := by
        cases heq
        obtain ⟨h₃, hps⟩ := (ih d₂ h₂.pos_le_len).2 _ _ hobj
        exact ⟨hadvanced (h₂.trans h₃), hobject d₂ properties _ hlt h₂ h₃ hps⟩
      obtain ⟨-, h⟩ | ⟨-, h⟩ := ite_eq_iff.mp h
      · exact hscalar (readDouble_ahead hd₁) h trivial
      obtain ⟨-, h⟩ | ⟨-, h⟩ := ite_eq_iff.mp h
      · exact hscalar (readUint8_ahead hd₁) h trivial
      obtain ⟨-, h⟩ | ⟨-, h⟩ := ite_eq_iff.mp h
      · exact hscalar (readObjectKey_ahead hd₁) h (readObjectKey_length d₁)
      obtain ⟨-, h⟩ | ⟨-, h⟩ := ite_eq_iff.mp h
      · cases hobj : decodeObjectFuel fuel d₁ with
        | none => simp only [hobj, reduceCtorEq] at h
        | some r =>
          simp only [hobj] at h
          exact hpairs (.self hd₁) hobj h
      obtain ⟨-, h⟩ | ⟨-, h⟩ := ite_eq_iff.mp h
      · cases hobj : decodeObjectFuel fuel d₁.readUint32BE.2 with
        | none => simp only [hobj, reduceCtorEq] at h
        | some r =>
          simp only [hobj] at h
          exact hpairs (readUint32BE_ahead hd₁) hobj h
      obtain ⟨-, h⟩ | ⟨-, h⟩ := ite_eq_iff.mp h
      · exact hscalar (.self hd₁) h trivial
      obtain ⟨-, h⟩ | ⟨-, h⟩ := ite_eq_iff.mp h
      · exact hscalar (.self hd₁) h trivial
      obtain ⟨-, h⟩ | ⟨-, h⟩ := ite_eq_iff.mp h
      · refine hscalar ?_ h trivial
        exact ⟨rfl, hd₁, Nat.le_refl _⟩
      · exact hscalar (.self hd₁) h trivial
    · intro properties d' h
      rw [decodeObjectFuel] at h
      split at h
      swap
      · rename_i hend
        cases h
        exact ⟨.self hd, done d (Nat.le_antisymm hd (Nat.le_of_not_lt hend))⟩
      rename_i hmore
      have hkey := readObjectKey_ahead hd
      have hpair := pair d
      generalize d.readObjectKey = r at h hkey hpair
      obtain ⟨key, d₁⟩ := r
      simp only at h hkey hpair
      split at h
      · rename_i hmark
        cases h
        have hend : Ahead d { d₁ with pos := d₁.pos + 1 } :=
          ⟨hkey.data_eq, Nat.le_succ_of_le hkey.pos_le, hmark.2.1⟩
        exact ⟨hend, ended d _ hmore hend⟩
      cases hval : decodeFuel fuel d₁ with
      | none => simp only [hval, reduceCtorEq] at h
      | some r =>
        obtain ⟨val, d₂⟩ := r
        obtain ⟨h₂, hv⟩ := (ih d₁ hkey.pos_le_len).1 _ _ hval
        simp only [hval] at h
        cases hrest : decodeObjectFuel fuel d₂ with
        | none => simp only [hrest, reduceCtorEq] at h
        | some r =>
          obtain ⟨rest, d₃⟩ := r
          obtain ⟨h₃, hps⟩ := (ih d₂ h₂.pos_le_len).2 _ _ hrest
          simp only [hrest, Option.some.injEq, Prod.mk.injEq] at h
          obtain ⟨rfl, rfl⟩ := h
          exact ⟨(hkey.trans h₂.toAhead).trans h₃, hpair val d₂ rest d₃ hmore hkey h₂ hv h₃ hps⟩

end Induct

/-- A call of `Decode` moves on. -/
theorem decodeFuel_advanced {fuel : Nat} {d d' : AMF0Decoder} {v : AMF0Value}
    (hd : d.pos ≤ d.len) (h : decodeFuel fuel d = some (v, d')) : Advanced d d' := by
  have hinduct := decodeFuel_induct (fun _ _ _ => True) (fun _ _ _ => True)
    (fun _ _ => trivial) (fun _ _ _ _ _ _ => trivial) (fun _ _ _ _ _ _ _ _ => trivial)
    (fun _ _ => trivial) (fun _ _ _ _ => trivial) (fun _ _ _ _ _ _ _ _ _ _ _ => trivial) fuel d hd
  exact (hinduct.1 v d' h).1

/-! ## Bounds -/

/-- A key takes two bytes at least, if they are there. -/
theorem readObjectKey_pos {d : AMF0Decoder} (h : d.pos < d.len) :
    d.pos + 2 ≤ d.readObjectKey.2.pos ∨ d.pos + 1 = d.len := by
  by_cases hone : d.pos + 1 = d.len
  · exact .inr hone
  left
  have hshort : ¬ d.pos + 2 > d.len := by omega
  have hlen : d.readUint16BE.2 = { d with pos := d.pos + 2 } := by
    rw [readUint16BE, if_neg hshort]
  have hle : d.readUint16BE.2.pos ≤ d.readUint16BE.2.len := by
    rw [hlen]
    exact Nat.le_of_not_lt hshort
  have hahead := (readStringData_ahead hle d.readUint16BE.1).pos_le
  have hkey : d.readObjectKey = d.readUint16BE.2.readStringData d.readUint16BE.1 := rfl
  rw [hkey]
  rw [hlen] at hahead ⊢
  exact hahead

/-- Every property takes a byte of its own, besides the marker of its object. -/
theorem decodeFuel_propertyCount {fuel : Nat} {d d' : AMF0Decoder} {v : AMF0Value}
    (hd : d.pos ≤ d.len) (h : decodeFuel fuel d = some (v, d')) :
    d.pos + v.propertyCount ≤ d'.pos := by
  have hinduct := decodeFuel_induct
    (fun d v d' => d.pos + v.propertyCount ≤ d'.pos ∧
      (d.pos < d.len → d.pos + 1 + v.propertyCount ≤ d'.pos))
    (fun d properties d' => d.pos + AMF0Object.propertyCount properties ≤ d'.pos)
    ?atEnd ?leaf ?object ?done ?ended ?pair fuel d hd
  case atEnd =>
    intro d hend
    exact ⟨Nat.le_refl _, fun hlt => absurd hend (Nat.ne_of_lt hlt)⟩
  case leaf =>
    intro d v d' hlt hv hahead
    have hle := hahead.pos_le
    rw [readUint8_pos hlt] at hle
    rw [v.propertyCount_leaf hv]
    exact ⟨Nat.le_of_succ_le hle, fun _ => hle⟩
  case object =>
    intro d d₁ properties d' hlt hahead _ hpairs
    have hle := hahead.pos_le
    rw [readUint8_pos hlt] at hle
    rw [AMF0Value.propertyCount]
    omega
  case done =>
    intro d _
    exact Nat.le_refl _
  case ended =>
    intro d d' _ hahead
    exact hahead.pos_le
  case pair =>
    intro d val d₂ properties d₃ hlt hkey _ hval _ hpairs
    rw [AMF0Object.propertyCount]
    have hle := hkey.pos_le
    have hlen : d.readObjectKey.2.len = d.len := by rw [len, len, hkey.data_eq]
    rcases readObjectKey_pos hlt with htwo | hone
    · omega
    · have hval' := hval.2
      have hmore := hkey.pos_le_len
      have hrest := hval.1
      omega
  exact ((hinduct.1 v d' h).2).1

/-- Three bytes are spent on every level but two. The key of a property takes two of
them and its marker the third; at the end of the data either can be missing. -/
theorem decodeFuel_depth {fuel : Nat} {d d' : AMF0Decoder} {v : AMF0Value}
    (hd : d.pos ≤ d.len) (h : decodeFuel fuel d = some (v, d')) :
    3 * v.depth + d.pos ≤ d.len + 4 := by
  have hinduct := decodeFuel_induct
    (fun d v _ => 3 * v.depth + d.pos ≤ d.len + 4)
    (fun d properties _ => 3 * AMF0Object.depth properties + d.pos ≤ d.len + 2)
    ?atEnd ?leaf ?object ?done ?ended ?pair fuel d hd
  case atEnd =>
    intro d hend
    have hleaf : AMF0Value.null.Leaf := trivial
    rw [AMF0Value.depth_leaf hleaf]
    omega
  case leaf =>
    intro d v d' hlt hv _
    rw [v.depth_leaf hv]
    omega
  case object =>
    intro d d₁ properties d' hlt hahead _ hpairs
    have hle := hahead.pos_le
    have hlen : d₁.len = d.len := by
      rw [len, len, hahead.data_eq, (readUint8_ahead (Nat.le_of_lt hlt)).data_eq]
    rw [readUint8_pos hlt] at hle
    rw [AMF0Value.depth]
    omega
  case done =>
    intro d hend
    rw [AMF0Object.depth]
    omega
  case ended =>
    intro d d' hlt _
    rw [AMF0Object.depth]
    omega
  case pair =>
    intro d val d₂ properties d₃ hlt hkey hadvanced hval hahead hpairs
    have hle := hkey.pos_le
    have hle₂ := hadvanced.pos_le
    have hlen : d.readObjectKey.2.len = d.len := by rw [len, len, hkey.data_eq]
    have hlen₂ : d₂.len = d.len := by rw [← hlen, len, len, hadvanced.data_eq]
    rw [AMF0Object.depth]
    rcases readObjectKey_pos hlt with htwo | hone
    · omega
    · omega
  exact (hinduct.1 v d' h).2

/-! ## The decoder in memory -/

/-- The calls of `Decode` that were open at the same time, and the properties that were
stored. -/
structure Usage where
  levels : Nat
  properties : Nat
  deriving DecidableEq, Repr

namespace Watched

/-- `m_data[m_pos]` and what follows it. -/
def loadAhead (d : AMF0Decoder) (width : Nat) : Option Bytes := Memory.load d.data d.pos width

/-- An assignment to `m_pos`. -/
def moveTo (d : AMF0Decoder) (pos : Nat) : Option AMF0Decoder :=
  if d.pos ≤ pos ∧ pos ≤ d.len then some { d with pos := pos } else none

/-- A field of a fixed width, or its default where bytes are missing. -/
def readField {α : Type} (width : Nat) (value : Bytes → α) (default : α) (d : AMF0Decoder) :
    Option (α × AMF0Decoder) :=
  if d.pos + width > d.len then some (default, d)
  else do
    let p ← loadAhead d width
    let d ← moveTo d (d.pos + width)
    return (value p, d)

def readUint8 (d : AMF0Decoder) : Option (UInt8 × AMF0Decoder) :=
  readField 1 BytesReader.readUint8 0 d

def readUint16BE (d : AMF0Decoder) : Option (UInt16 × AMF0Decoder) :=
  readField 2 BytesReader.readUint16BE 0 d

def readUint32BE (d : AMF0Decoder) : Option (UInt32 × AMF0Decoder) :=
  readField 4 BytesReader.readUint32BE 0 d

def readDouble (d : AMF0Decoder) : Option (UInt64 × AMF0Decoder) :=
  readField 8 (fun bytes => UInt64.ofNat (Endian.ofLE bytes.reverse)) 0 d

def readStringData (d : AMF0Decoder) (len : UInt16) : Option (Bytes × AMF0Decoder) :=
  if d.pos + len.toNat > d.len then do
    let d ← moveTo d d.len
    return ([], d)
  else do
    let s ← loadAhead d len.toNat
    let d ← moveTo d (d.pos + len.toNat)
    return (s, d)

/-- `readObjectKey` and `DecodeString`. -/
def readString (d : AMF0Decoder) : Option (Bytes × AMF0Decoder) := do
  let (len, d) ← readUint16BE d
  readStringData d len

/-- The test for the end of an object. The byte is only read if there is one. -/
def atObjectEnd (key : Bytes) (d : AMF0Decoder) : Option Bool :=
  if key = [] ∧ d.pos < d.len then (loadAhead d 1).map fun p => p.at 0 = kAMF0ObjectEnd
  else some false

mutual

/-- `Decode`. -/
def decodeFuel : Nat → AMF0Decoder → Option (AMF0Value × AMF0Decoder × Usage)
  | 0, _ => none
  | fuel + 1, d =>
    if d.pos ≥ d.len then some (.null, d, ⟨1, 0⟩)
    else
      match readUint8 d with
      | none => none
      | some (marker, d) =>
        if marker = kAMF0Number then
          (readDouble d).map fun (n, d) => (.number n, d, ⟨1, 0⟩)
        else if marker = kAMF0Boolean then
          (readUint8 d).map fun (b, d) => (.boolean (b != 0), d, ⟨1, 0⟩)
        else if marker = kAMF0String then
          (readString d).map fun (s, d) => (.string s, d, ⟨1, 0⟩)
        else if marker = kAMF0Object then
          (decodeObjectFuel fuel d).map fun (properties, d, used) =>
            (.object properties, d, { used with levels := used.levels + 1 })
        else if marker = kAMF0ECMAArray then
          match readUint32BE d with
          | none => none
          | some (_, d) =>
            (decodeObjectFuel fuel d).map fun (properties, d, used) =>
              (.object properties, d, { used with levels := used.levels + 1 })
        else if marker = kAMF0Null then some (.null, d, ⟨1, 0⟩)
        else if marker = kAMF0Undefined then some (.null, d, ⟨1, 0⟩)
        else if marker = 0x3F then (moveTo d d.len).map fun d => (.null, d, ⟨1, 0⟩)
        else some (.null, d, ⟨1, 0⟩)

/-- The loop of `DecodeObject`. A call of `Decode` that does not move on while bytes are
left is a failure. -/
def decodeObjectFuel : Nat → AMF0Decoder →
    Option (List (Bytes × AMF0Value) × AMF0Decoder × Usage)
  | 0, _ => none
  | fuel + 1, d =>
    if d.pos < d.len then
      match readString d with
      | none => none
      | some (key, d) =>
        match atObjectEnd key d with
        | none => none
        | some true => (moveTo d (d.pos + 1)).map fun d => ([], d, ⟨0, 0⟩)
        | some false =>
          match decodeFuel fuel d with
          | none => none
          | some (val, d', used) =>
            if d.pos < d.len ∧ d'.pos ≤ d.pos then none
            else
              (decodeObjectFuel fuel d').map fun (properties, d, used') =>
                ((key, val) :: properties, d,
                  ⟨max used.levels used'.levels, used.properties + 1 + used'.properties⟩)
    else some ([], d, ⟨0, 0⟩)

end

/-- One call of `Decode`. -/
def decode (d : AMF0Decoder) : Option (AMF0Value × AMF0Decoder × Usage) :=
  decodeFuel (2 * d.remaining + 1) d

/-- The checks of a forward move inside the array succeed. -/
theorem moveTo_of_le {d : AMF0Decoder} {pos : Nat} (h : d.pos ≤ pos) (hlen : pos ≤ d.len) :
    moveTo d pos = some { d with pos := pos } :=
  if_pos ⟨h, hlen⟩

section Readers

variable {d : AMF0Decoder}

/-- A field is loaded from inside the array. -/
theorem readField_eq {α : Type} (width : Nat) (value : Bytes → α) (default : α) :
    readField width value default d =
      some (if d.pos + width > d.len then (default, d)
        else (value ((d.data.drop d.pos).take width), { d with pos := d.pos + width })) := by
  unfold readField
  split
  · rfl
  · rename_i henough
    have hload := Memory.load_of_le (Nat.le_of_not_lt henough)
    rw [loadAhead, hload, moveTo_of_le (Nat.le_add_right _ _) (Nat.le_of_not_lt henough)]
    rfl

theorem readUint8_eq : readUint8 d = some d.readUint8 := by
  rw [readUint8, readField_eq, AMF0Decoder.readUint8]
  have hat : BytesReader.readUint8 ((d.data.drop d.pos).take 1) = d.data.at d.pos := by
    simp [BytesReader.readUint8, Bytes.at]
  simp only [hat, gt_iff_lt, ge_iff_le, Nat.lt_add_one_iff]

theorem readUint16BE_eq : readUint16BE d = some d.readUint16BE := by
  rw [readUint16BE, readField_eq, AMF0Decoder.readUint16BE]
  simp only [BytesReader.readUint16BE, Bytes.at_take (show 0 < 2 by decide),
    Bytes.at_take (show 1 < 2 by decide)]

theorem readUint32BE_eq : readUint32BE d = some d.readUint32BE := by
  rw [readUint32BE, readField_eq, AMF0Decoder.readUint32BE]
  simp only [BytesReader.readUint32BE, Bytes.at_take (show 0 < 4 by decide),
    Bytes.at_take (show 1 < 4 by decide), Bytes.at_take (show 2 < 4 by decide),
    Bytes.at_take (show 3 < 4 by decide)]

theorem readDouble_eq : readDouble d = some d.readDouble := by
  rw [readDouble, readField_eq, AMF0Decoder.readDouble]

theorem readStringData_eq (h : d.pos ≤ d.len) (n : UInt16) :
    readStringData d n = some (d.readStringData n) := by
  rw [readStringData, AMF0Decoder.readStringData]
  split
  · rw [moveTo_of_le h (Nat.le_refl _)]
    rfl
  · rename_i henough
    have hload := Memory.load_of_le (Nat.le_of_not_lt henough)
    rw [loadAhead, hload, moveTo_of_le (Nat.le_add_right _ _) (Nat.le_of_not_lt henough)]
    rfl

theorem readString_eq (h : d.pos ≤ d.len) : readString d = some d.readObjectKey := by
  have hdata := readStringData_eq (readUint16BE_ahead h).pos_le_len d.readUint16BE.1
  rw [readString, readUint16BE_eq]
  exact hdata

theorem atObjectEnd_eq (key : Bytes) :
    atObjectEnd key d =
      some (decide (key = [] ∧ d.pos < d.len ∧ d.data.at d.pos = kAMF0ObjectEnd)) := by
  unfold atObjectEnd
  split
  · rename_i hmore
    have hat : Bytes.at ((d.data.drop d.pos).take 1) 0 = d.data.at d.pos := by
      simp [Bytes.at]
    rw [loadAhead, Memory.load_of_le hmore.2, Option.map_some, hat]
    simp [hmore.1, hmore.2]
  · rename_i hnot
    rw [decide_eq_false]
    exact fun hmark => hnot ⟨hmark.1, hmark.2.1⟩

end Readers

/-- A value with its decoder, and what can be read off it. -/
def withUsage (r : AMF0Value × AMF0Decoder) : AMF0Value × AMF0Decoder × Usage :=
  (r.1, r.2, ⟨r.1.depth, r.1.propertyCount⟩)

def withPairsUsage (r : List (Bytes × AMF0Value) × AMF0Decoder) :
    List (Bytes × AMF0Value) × AMF0Decoder × Usage :=
  (r.1, r.2, ⟨AMF0Object.depth r.1, AMF0Object.propertyCount r.1⟩)

/-- No check fails, and the counts are those of the value that is returned. -/
theorem decodeFuel_eq (fuel : Nat) : ∀ d : AMF0Decoder, d.pos ≤ d.len →
    decodeFuel fuel d = (AMF0Decoder.decodeFuel fuel d).map withUsage ∧
      decodeObjectFuel fuel d = (AMF0Decoder.decodeObjectFuel fuel d).map withPairsUsage := by
  induction fuel with
  | zero => exact fun d _ => ⟨rfl, rfl⟩
  | succ fuel ih =>
    intro d hd
    constructor
    · rw [decodeFuel, AMF0Decoder.decodeFuel, readUint8_eq]
      have hmarker := (readUint8_ahead hd).pos_le_len
      generalize d.readUint8 = r at hmarker
      obtain ⟨marker, d₁⟩ := r
      simp only at hmarker ⊢
      rw [apply_ite (Option.map withUsage)]
      refine ite_congr rfl (fun _ => ?_) fun _ => ?_
      · rfl
      rw [apply_ite (Option.map withUsage)]
      refine ite_congr rfl (fun _ => ?_) fun _ => ?_
      · rw [readDouble_eq]
        rfl
      rw [apply_ite (Option.map withUsage)]
      refine ite_congr rfl (fun _ => ?_) fun _ => ?_
      · rw [readUint8_eq]
        rfl
      rw [apply_ite (Option.map withUsage)]
      refine ite_congr rfl (fun _ => ?_) fun _ => ?_
      · rw [readString_eq hmarker]
        rfl
      rw [apply_ite (Option.map withUsage)]
      refine ite_congr rfl (fun _ => ?_) fun _ => ?_
      · rw [(ih d₁ hmarker).2]
        cases AMF0Decoder.decodeObjectFuel fuel d₁ with
        | none => rfl
        | some r => rfl
      rw [apply_ite (Option.map withUsage)]
      refine ite_congr rfl (fun _ => ?_) fun _ => ?_
      · rw [readUint32BE_eq]
        simp only
        rw [(ih _ (readUint32BE_ahead hmarker).pos_le_len).2]
        cases AMF0Decoder.decodeObjectFuel fuel d₁.readUint32BE.2 with
        | none => rfl
        | some r => rfl
      rw [apply_ite (Option.map withUsage)]
      refine ite_congr rfl (fun _ => ?_) fun _ => ?_
      · rfl
      rw [apply_ite (Option.map withUsage)]
      refine ite_congr rfl (fun _ => ?_) fun _ => ?_
      · rfl
      rw [apply_ite (Option.map withUsage)]
      refine ite_congr rfl (fun _ => ?_) fun _ => ?_
      · rw [moveTo_of_le hmarker (Nat.le_refl _)]
        rfl
      · rfl
    · rw [decodeObjectFuel, AMF0Decoder.decodeObjectFuel]
      split
      swap
      · rfl
      rw [readString_eq hd]
      have hkey := (readObjectKey_ahead hd).pos_le_len
      generalize d.readObjectKey = r at hkey
      obtain ⟨key, d₁⟩ := r
      simp only at hkey ⊢
      rw [atObjectEnd_eq]
      by_cases hend : key = [] ∧ d₁.pos < d₁.len ∧ d₁.data.at d₁.pos = kAMF0ObjectEnd
      · simp only [decide_eq_true hend, if_pos hend]
        rw [moveTo_of_le (Nat.le_succ _) hend.2.1]
        rfl
      · simp only [decide_eq_false hend, if_neg hend]
        rw [(ih d₁ hkey).1]
        cases hval : AMF0Decoder.decodeFuel fuel d₁ with
        | none => rfl
        | some r =>
          obtain ⟨val, d₂⟩ := r
          have hadvanced := decodeFuel_advanced hkey hval
          have hmoves : ¬ (d₁.pos < d₁.len ∧ d₂.pos ≤ d₁.pos) := fun h =>
            absurd (hadvanced.pos_lt h.1) (Nat.not_lt_of_le h.2)
          simp only [Option.map_some, withUsage, if_neg hmoves]
          rw [(ih d₂ hadvanced.pos_le_len).2]
          cases AMF0Decoder.decodeObjectFuel fuel d₂ with
          | none => rfl
          | some r => rfl

theorem decode_eq {d : AMF0Decoder} (h : d.pos ≤ d.len) :
    decode d = some (withUsage d.decodeNext) := by
  rw [decode, (decodeFuel_eq _ d h).1, ← AMF0Decoder.decode, decode_eq_some h]
  rfl

end Watched

/-! ## Sequences of calls -/

/-- The decoder after calls of `Decode`. -/
def after : Nat → AMF0Decoder → AMF0Decoder
  | 0, d => d
  | n + 1, d => after n d.decodeNext.2

/-- The properties that are stored in calls of `Decode`. -/
def stored : Nat → AMF0Decoder → Nat
  | 0, _ => 0
  | n + 1, d =>
    match Watched.decode d with
    | none => 0
    | some (_, d, used) => used.properties + stored n d

/-- A call of `Decode` on the decoder returns, with every access inside the array, and
moves on inside the array. -/
structure SafeCall (d : AMF0Decoder) : Prop where
  returns : d.decode = some d.decodeNext
  watched : Watched.decode d = some (Watched.withUsage d.decodeNext)
  pos_le : d.pos ≤ d.decodeNext.2.pos
  pos_le_len : d.decodeNext.2.pos ≤ d.len
  advances : d.pos < d.len → d.pos + 1 ≤ d.decodeNext.2.pos

theorem safeCall_of_le {d : AMF0Decoder} (h : d.pos ≤ d.len) : SafeCall d := by
  have hreturns := decode_eq_some h
  have hadvanced := decodeFuel_advanced h hreturns
  have hle := hadvanced.pos_le_len
  rw [len, hadvanced.data_eq] at hle
  exact ⟨hreturns, Watched.decode_eq h, hadvanced.pos_le, hle, hadvanced.pos_lt⟩

theorem ahead_after (n : Nat) : ∀ {d : AMF0Decoder}, d.pos ≤ d.len → Ahead d (after n d) := by
  induction n with
  | zero => exact fun h => .self h
  | succ n ih =>
    intro d h
    have hnext := decodeNext_ahead h
    exact hnext.trans (ih hnext.pos_le_len)

theorem stored_le (n : Nat) : ∀ {d : AMF0Decoder}, d.pos ≤ d.len →
    d.pos + stored n d ≤ (after n d).pos := by
  induction n with
  | zero => exact fun _ => Nat.le_refl _
  | succ n ih =>
    intro d h
    have hcount : d.pos + d.decodeNext.1.propertyCount ≤ d.decodeNext.2.pos :=
      decodeFuel_propertyCount h (decode_eq_some h)
    have hrest := ih (decodeNext_ahead h).pos_le_len
    simp only [stored, after, Watched.decode_eq h, Watched.withUsage]
    omega

/-- Every call of `Decode` on any bytes is safe, and all the calls together store at most
one property for each byte. -/
theorem decode_safe (data : Bytes) (n : Nat) :
    SafeCall (after n { data }) ∧ stored n { data } ≤ data.length := by
  have hstart : ({ data } : AMF0Decoder).pos ≤ ({ data } : AMF0Decoder).len := Nat.zero_le _
  have hahead := ahead_after n hstart
  constructor
  · exact safeCall_of_le hahead.pos_le_len
  · have hstored := stored_le n hstart
    have hle := hahead.pos_le_len
    rw [len, hahead.data_eq] at hle
    exact Nat.le_trans (Nat.le_trans (Nat.le_add_left _ _) hstored) hle

end AMF0Decoder
