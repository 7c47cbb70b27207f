-- SUMMARY: The AMF0 encoder, with a rule for each of its functions, and the values decoded from its buffer.
import OmegaStreamer.Lib.Binary64
import OmegaStreamer.Rtmp.AMF0Format

/-!
# AMF0Encoder

The encoder of `AMF0.cpp`: a buffer that each function appends to. What a buffer
holds is said by two predicates: a sequence of values (`Holds`), and a sequence of
values with an object that has been started after them (`HoldsOpen`). The rules
for the functions lead from one to the other, and the values that a buffer holds
are the values that are decoded from it.
-/

open BytesReader

structure AMF0Encoder where
  buf : Bytes := []
  deriving DecidableEq, Repr

namespace AMF0Encoder

def writeUint8 (enc : AMF0Encoder) (val : UInt8) : AMF0Encoder := { buf := enc.buf ++ [val] }

def writeUint16BE (enc : AMF0Encoder) (val : UInt16) : AMF0Encoder :=
  { buf := enc.buf ++ BytesWriter.writeUint16BE val }

def writeUint32BE (enc : AMF0Encoder) (val : UInt32) : AMF0Encoder :=
  { buf := enc.buf ++ BytesWriter.writeUint32BE val }

/-- The eight bytes of a double, turned round. -/
def writeDouble (enc : AMF0Encoder) (bits : UInt64) : AMF0Encoder :=
  { buf := enc.buf ++ (Endian.toLE 8 bits.toNat).reverse }

/-- The length is cut to two bytes. -/
def writeStringData (enc : AMF0Encoder) (val : Bytes) : AMF0Encoder :=
  { buf := (enc.writeUint16BE (UInt16.ofNat val.length)).buf ++ val }

def encodeNumber (enc : AMF0Encoder) (bits : UInt64) : AMF0Encoder :=
  (enc.writeUint8 kAMF0Number).writeDouble bits

def encodeBoolean (enc : AMF0Encoder) (val : Bool) : AMF0Encoder :=
  (enc.writeUint8 kAMF0Boolean).writeUint8 (if val then 1 else 0)

def encodeString (enc : AMF0Encoder) (val : Bytes) : AMF0Encoder :=
  (enc.writeUint8 kAMF0String).writeStringData val

def encodeNull (enc : AMF0Encoder) : AMF0Encoder := enc.writeUint8 kAMF0Null

def encodeObjectStart (enc : AMF0Encoder) : AMF0Encoder := enc.writeUint8 kAMF0Object

def encodeObjectEnd (enc : AMF0Encoder) : AMF0Encoder :=
  (enc.writeUint16BE 0).writeUint8 kAMF0ObjectEnd

def encodeNamedString (enc : AMF0Encoder) (name val : Bytes) : AMF0Encoder :=
  (enc.writeStringData name).encodeString val

def encodeNamedNumber (enc : AMF0Encoder) (name : Bytes) (bits : UInt64) : AMF0Encoder :=
  (enc.writeStringData name).encodeNumber bits

def encodeNamedBoolean (enc : AMF0Encoder) (name : Bytes) (val : Bool) : AMF0Encoder :=
  (enc.writeStringData name).encodeBoolean val

def encodeECMAArrayStart (enc : AMF0Encoder) (count : UInt32) : AMF0Encoder :=
  (enc.writeUint8 kAMF0ECMAArray).writeUint32BE count

/-! ## Bytes written -/

theorem writeStringData_buf (enc : AMF0Encoder) (s : AMF0String) :
    (enc.writeStringData s.bytes).buf = enc.buf ++ s.encode := by
  have hlen : (UInt16.ofNat s.bytes.length).toNat = s.bytes.length := by
    rw [UInt16.toNat_ofNat', Nat.mod_eq_of_lt (Nat.lt_succ_of_le s.length_le)]
  simp only [writeStringData, writeUint16BE, BytesWriter.writeUint16BE_eq, hlen,
    AMF0String.encode, List.append_assoc]

theorem encodeNumber_buf (enc : AMF0Encoder) (bits : UInt64) :
    (enc.encodeNumber bits).buf = enc.buf ++ (AMF0Syntax.number bits).encode := by
  simp only [encodeNumber, writeDouble, writeUint8, AMF0Syntax.encode, Endian.toBE,
    List.append_assoc, List.singleton_append]

theorem encodeBoolean_buf (enc : AMF0Encoder) (val : Bool) :
    (enc.encodeBoolean val).buf = enc.buf ++ (AMF0Syntax.boolean val).encode := by
  simp only [encodeBoolean, writeUint8, AMF0Syntax.encode, List.append_assoc,
    List.singleton_append]

theorem encodeString_buf (enc : AMF0Encoder) (s : AMF0String) :
    (enc.encodeString s.bytes).buf = enc.buf ++ (AMF0Syntax.string s).encode := by
  simp only [encodeString, writeStringData_buf, writeUint8, AMF0Syntax.encode,
    List.append_assoc, List.singleton_append]

theorem encodeObjectEnd_buf (enc : AMF0Encoder) :
    enc.encodeObjectEnd.buf = enc.buf ++ objectEnd := by
  simp only [encodeObjectEnd, writeUint8, writeUint16BE, List.append_assoc]
  rfl

/-! ### Lengths -/

section Lengths

variable (enc : AMF0Encoder)

@[simp] theorem length_writeStringData (val : Bytes) :
    (enc.writeStringData val).buf.length = enc.buf.length + 2 + val.length := by
  simp only [writeStringData, writeUint16BE, BytesWriter.writeUint16BE_eq, List.length_append,
    Endian.length_toBE]

@[simp] theorem length_encodeNumber (bits : UInt64) :
    (enc.encodeNumber bits).buf.length = enc.buf.length + 9 := by
  simp only [encodeNumber, writeDouble, writeUint8, List.length_append, List.length_reverse,
    Endian.length_toLE, List.length_singleton, Nat.add_assoc]

@[simp] theorem length_encodeString (val : Bytes) :
    (enc.encodeString val).buf.length = enc.buf.length + 3 + val.length := by
  simp only [encodeString, length_writeStringData, writeUint8, List.length_append,
    List.length_singleton]

@[simp] theorem length_encodeNull : enc.encodeNull.buf.length = enc.buf.length + 1 := by
  simp only [encodeNull, writeUint8, List.length_append, List.length_singleton]

@[simp] theorem length_encodeObjectStart :
    enc.encodeObjectStart.buf.length = enc.buf.length + 1 := by
  simp only [encodeObjectStart, writeUint8, List.length_append, List.length_singleton]

@[simp] theorem length_encodeObjectEnd :
    enc.encodeObjectEnd.buf.length = enc.buf.length + 3 := by
  rw [encodeObjectEnd_buf, List.length_append]
  rfl

@[simp] theorem length_encodeNamedString (name val : Bytes) :
    (enc.encodeNamedString name val).buf.length =
      enc.buf.length + 5 + name.length + val.length := by
  simp only [encodeNamedString, length_encodeString, length_writeStringData]
  omega

@[simp] theorem length_encodeNamedNumber (name : Bytes) (bits : UInt64) :
    (enc.encodeNamedNumber name bits).buf.length = enc.buf.length + 11 + name.length := by
  simp only [encodeNamedNumber, length_encodeNumber, length_writeStringData]
  omega

end Lengths

end AMF0Encoder

/-! ## Objects under construction -/

namespace AMF0Pairs

/-- One more pair at the end. -/
def concat : AMF0Pairs → AMF0String → AMF0Syntax → AMF0Pairs
  | .nil, key, val => .cons key val .nil
  | .cons k v rest, key, val => .cons k v (rest.concat key val)

theorem encode_concat (key : AMF0String) (val : AMF0Syntax) :
    ∀ pairs : AMF0Pairs, (pairs.concat key val).encode =
      pairs.encode ++ (key.encode ++ val.encode)
  | .nil => by simp only [concat, encode, List.append_nil, List.nil_append]
  | .cons k v rest => by
    simp only [concat, encode, encode_concat key val rest, List.append_assoc]

theorem properties_concat (key : AMF0String) (val : AMF0Syntax) :
    ∀ pairs : AMF0Pairs, (pairs.concat key val).properties =
      pairs.properties ++ [(key.bytes, val.value)]
  | .nil => by simp only [concat, properties, List.nil_append]
  | .cons k v rest => by
    simp only [concat, properties, properties_concat key val rest, List.cons_append]

end AMF0Pairs

namespace AMF0Encoder

/-! ## What the buffer holds -/

/-- The buffer is a sequence of values. -/
def Holds (enc : AMF0Encoder) (vals : List AMF0Value) : Prop :=
  ∃ written : List AMF0Syntax, enc.buf = encodeAll written ∧ written.map AMF0Syntax.value = vals

/-- The buffer is a sequence of values and an object that is not ended. -/
def HoldsOpen (enc : AMF0Encoder) (vals : List AMF0Value)
    (properties : List (Bytes × AMF0Value)) : Prop :=
  ∃ (written : List AMF0Syntax) (pairs : AMF0Pairs),
    enc.buf = encodeAll written ++ kAMF0Object :: pairs.encode ∧
    written.map AMF0Syntax.value = vals ∧ pairs.properties = properties

theorem holds_nil : Holds {} [] := ⟨[], rfl, rfl⟩

section Rules

variable {enc : AMF0Encoder} {vals : List AMF0Value} {properties : List (Bytes × AMF0Value)}

/-- A value written behind the others. -/
theorem Holds.concat (h : enc.Holds vals) {enc' : AMF0Encoder} (v : AMF0Syntax)
    (hbuf : enc'.buf = enc.buf ++ v.encode) : enc'.Holds (vals ++ [v.value]) := by
  obtain ⟨written, hwritten, hvals⟩ := h
  refine ⟨written ++ [v], ?_, ?_⟩
  · simp only [hbuf, hwritten, encodeAll, List.flatMap_append, List.flatMap_cons,
      List.flatMap_nil, List.append_nil]
  · simp only [List.map_append, List.map_cons, List.map_nil, hvals]

theorem Holds.encodeNumber (h : enc.Holds vals) (bits : UInt64) :
    (enc.encodeNumber bits).Holds (vals ++ [.number bits]) := by
  apply h.concat (.number bits)
  exact encodeNumber_buf enc bits

theorem Holds.encodeString (h : enc.Holds vals) (s : Bytes)
    (hs : s.length ≤ 65535 := by decide) : (enc.encodeString s).Holds (vals ++ [.string s]) := by
  apply h.concat (.string ⟨s, hs⟩)
  exact encodeString_buf enc ⟨s, hs⟩

theorem Holds.encodeNull (h : enc.Holds vals) : enc.encodeNull.Holds (vals ++ [.null]) := by
  apply h.concat .null
  rfl

theorem Holds.encodeObjectStart (h : enc.Holds vals) :
    enc.encodeObjectStart.HoldsOpen vals [] := by
  obtain ⟨written, hwritten, hvals⟩ := h
  refine ⟨written, .nil, ?_, hvals, rfl⟩
  simp only [AMF0Encoder.encodeObjectStart, writeUint8, hwritten, AMF0Pairs.encode]

/-- A pair written behind the others. -/
theorem HoldsOpen.concat (h : enc.HoldsOpen vals properties) {enc' : AMF0Encoder}
    (key : AMF0String) (v : AMF0Syntax) (hbuf : enc'.buf = enc.buf ++ (key.encode ++ v.encode)) :
    enc'.HoldsOpen vals (properties ++ [(key.bytes, v.value)]) := by
  obtain ⟨written, pairs, hwritten, hvals, hpairs⟩ := h
  refine ⟨written, pairs.concat key v, ?_, hvals, ?_⟩
  · simp only [hbuf, hwritten, AMF0Pairs.encode_concat, List.append_assoc, List.cons_append]
  · simp only [AMF0Pairs.properties_concat, hpairs]

theorem HoldsOpen.encodeNamedString (h : enc.HoldsOpen vals properties) (name s : Bytes)
    (hname : name.length ≤ 65535 := by decide) (hs : s.length ≤ 65535 := by decide) :
    (enc.encodeNamedString name s).HoldsOpen vals (properties ++ [(name, .string s)]) := by
  apply h.concat ⟨name, hname⟩ (.string ⟨s, hs⟩)
  have hbuf := writeStringData_buf enc ⟨name, hname⟩
  have hval := encodeString_buf (enc.writeStringData name) ⟨s, hs⟩
  simp only at hbuf hval
  simp only [AMF0Encoder.encodeNamedString, hval, hbuf, List.append_assoc]

theorem HoldsOpen.encodeNamedNumber (h : enc.HoldsOpen vals properties) (name : Bytes)
    (bits : UInt64) (hname : name.length ≤ 65535 := by decide) :
    (enc.encodeNamedNumber name bits).HoldsOpen vals (properties ++ [(name, .number bits)]) := by
  apply h.concat ⟨name, hname⟩ (.number bits)
  have hbuf := writeStringData_buf enc ⟨name, hname⟩
  simp only at hbuf
  simp only [AMF0Encoder.encodeNamedNumber, encodeNumber_buf, hbuf, List.append_assoc]

theorem HoldsOpen.encodeObjectEnd (h : enc.HoldsOpen vals properties) :
    enc.encodeObjectEnd.Holds (vals ++ [.object properties]) := by
  obtain ⟨written, pairs, hwritten, hvals, rfl⟩ := h
  have hclosed : Holds { buf := encodeAll written } vals := ⟨written, rfl, hvals⟩
  apply hclosed.concat (.object pairs)
  simp only [encodeObjectEnd_buf, hwritten, AMF0Syntax.encode, List.append_assoc,
    List.cons_append]

end Rules

/-- The values of a buffer are decoded from it, and nothing is left. -/
theorem Holds.decodeMany {enc : AMF0Encoder} {vals : List AMF0Value} (h : enc.Holds vals) :
    AMF0Decoder.decodeMany vals.length { data := enc.buf } =
      some (vals, { data := enc.buf, pos := enc.buf.length }) := by
  obtain ⟨written, hwritten, hvals⟩ := h
  have hdecode := AMF0Decoder.decodeMany_encodeAll written [] []
  rw [List.append_nil, List.append_nil, ← hwritten, hvals] at hdecode
  rw [← hdecode, ← hvals, List.length_map]

end AMF0Encoder
