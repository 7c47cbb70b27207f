-- SUMMARY: Sequences of encoder calls of every length of strings, and when their values are decoded again.
import OmegaStreamer.Rtmp.AMF0Encoder
import OmegaStreamer.Rtmp.AMF0Usage

/-!
# Calls of the encoder

Any sequence of calls in which objects are started, filled and ended. Its values are
decoded again from the buffer if and only if the lengths of its strings and names can
be written in two bytes.
-/

/-! ## Lengths -/

mutual

/-- The lengths of the strings and the keys in a value can be written in two bytes. -/
def AMF0Value.Short : AMF0Value → Prop
  | .string s => s.length ≤ 65535
  | .object properties => AMF0Object.Short properties
  | _ => True

def AMF0Object.Short : List (Bytes × AMF0Value) → Prop
  | [] => True
  | (key, val) :: properties => key.length ≤ 65535 ∧ val.Short ∧ AMF0Object.Short properties

end

theorem AMF0Value.Leaf.short {v : AMF0Value} (h : v.Leaf) : v.Short := by
  cases v with
  | string s => exact h
  | object properties => cases h
  | _ => exact trivial

namespace AMF0Decoder

/-- Whatever the bytes are, what is decoded is short. -/
theorem decode_short {d d' : AMF0Decoder} {v : AMF0Value} (hd : d.pos ≤ d.len)
    (h : d.decode = some (v, d')) : v.Short := by
  have hinduct := decodeFuel_induct (fun _ v _ => v.Short)
    (fun _ properties _ => AMF0Object.Short properties)
    ?atEnd ?leaf ?object ?done ?ended ?pair (2 * d.remaining + 1) d hd
  case atEnd =>
    intro d _
    exact trivial
  case leaf =>
    intro d v d' _ hv _
    exact hv.short
  case object =>
    intro d d₁ properties d' _ _ _ hpairs
    exact hpairs
  case done =>
    intro d _
    exact trivial
  case ended =>
    intro d d' _ _
    exact trivial
  case pair =>
    intro d val d₂ properties d₃ _ _ _ hval _ hpairs
    exact ⟨readObjectKey_length d, hval, hpairs⟩
  exact (hinduct.1 v d' h).2

theorem decodeMany_short {n : Nat} {d d' : AMF0Decoder} {vals : List AMF0Value}
    (hd : d.pos ≤ d.len) (h : decodeMany n d = some (vals, d')) : ∀ v ∈ vals, v.Short := by
  induction n generalizing d vals with
  | zero =>
    cases h
    exact nofun
  | succ n ih =>
    obtain ⟨v, d₁, hdecode, hahead⟩ := decode_isSome hd
    rw [decodeMany, hdecode] at h
    cases hmany : decodeMany n d₁ with
    | none => simp only [hmany, reduceCtorEq] at h
    | some r =>
      obtain ⟨rest, d₂⟩ := r
      simp only [hmany, Option.some.injEq, Prod.mk.injEq] at h
      obtain ⟨rfl, rfl⟩ := h
      intro w hw
      rcases List.mem_cons.mp hw with rfl | hw
      · exact decode_short hd hdecode
      · exact ih hahead.pos_le_len hmany w hw

end AMF0Decoder

/-! ## Calls -/

/-- A call for a property of the object that is open. -/
inductive NamedCall where
  | encodeNamedString (name val : Bytes)
  | encodeNamedNumber (name : Bytes) (bits : UInt64)
  | encodeNamedBoolean (name : Bytes) (val : Bool)

/-- The call that opens an object. -/
inductive StartCall where
  | encodeObjectStart
  | encodeECMAArrayStart (count : UInt32)

/-- One call for a value, or the calls from the start of an object to its end. -/
inductive ValueCalls where
  | encodeNumber (bits : UInt64)
  | encodeBoolean (val : Bool)
  | encodeString (val : Bytes)
  | encodeNull
  | object (start : StartCall) (named : List NamedCall)

namespace AMF0Encoder

def callNamed (enc : AMF0Encoder) : NamedCall → AMF0Encoder
  | .encodeNamedString name val => enc.encodeNamedString name val
  | .encodeNamedNumber name bits => enc.encodeNamedNumber name bits
  | .encodeNamedBoolean name val => enc.encodeNamedBoolean name val

def callStart (enc : AMF0Encoder) : StartCall → AMF0Encoder
  | .encodeObjectStart => enc.encodeObjectStart
  | .encodeECMAArrayStart count => enc.encodeECMAArrayStart count

def callValue (enc : AMF0Encoder) : ValueCalls → AMF0Encoder
  | .encodeNumber bits => enc.encodeNumber bits
  | .encodeBoolean val => enc.encodeBoolean val
  | .encodeString val => enc.encodeString val
  | .encodeNull => enc.encodeNull
  | .object start named => (named.foldl callNamed (enc.callStart start)).encodeObjectEnd

/-- The encoder after a sequence of calls. -/
def calls (seq : List ValueCalls) : AMF0Encoder := seq.foldl callValue {}

end AMF0Encoder

/-! ### Values -/

namespace NamedCall

def name : NamedCall → Bytes
  | .encodeNamedString name _ => name
  | .encodeNamedNumber name _ => name
  | .encodeNamedBoolean name _ => name

def value : NamedCall → AMF0Value
  | .encodeNamedString _ val => .string val
  | .encodeNamedNumber _ bits => .number bits
  | .encodeNamedBoolean _ val => .boolean val

def property (c : NamedCall) : Bytes × AMF0Value := (c.name, c.value)

end NamedCall

/-- The value that the calls encode. -/
def ValueCalls.value : ValueCalls → AMF0Value
  | .encodeNumber bits => .number bits
  | .encodeBoolean val => .boolean val
  | .encodeString val => .string val
  | .encodeNull => .null
  | .object _ named => .object (named.map NamedCall.property)

/-! ### Bytes -/

namespace AMF0Encoder

/-- A property with a short name and a short value is written in the grammar. -/
theorem callNamed_buf (enc : AMF0Encoder) (c : NamedCall) (hname : c.name.length ≤ 65535)
    (hval : c.value.Short) : ∃ v : AMF0Syntax, v.value = c.value ∧
      (enc.callNamed c).buf = enc.buf ++ ((⟨c.name, hname⟩ : AMF0String).encode ++ v.encode) := by
  have hkey := writeStringData_buf enc ⟨c.name, hname⟩
  cases c with
  | encodeNamedString name val =>
    refine ⟨.string ⟨val, hval⟩, rfl, ?_⟩
    have hstring := encodeString_buf (enc.writeStringData name) ⟨val, hval⟩
    simp only [NamedCall.name] at hkey hstring ⊢
    rw [callNamed, encodeNamedString, hstring, hkey, List.append_assoc]
  | encodeNamedNumber name bits =>
    refine ⟨.number bits, rfl, ?_⟩
    simp only [NamedCall.name] at hkey ⊢
    rw [callNamed, encodeNamedNumber, encodeNumber_buf, hkey, List.append_assoc]
  | encodeNamedBoolean name val =>
    refine ⟨.boolean val, rfl, ?_⟩
    simp only [NamedCall.name] at hkey ⊢
    rw [callNamed, encodeNamedBoolean, encodeBoolean_buf, hkey, List.append_assoc]

theorem foldl_callNamed_buf (enc : AMF0Encoder) {named : List NamedCall}
    (h : AMF0Object.Short (named.map NamedCall.property)) :
    ∃ pairs : AMF0Pairs, pairs.properties = named.map NamedCall.property ∧
      (named.foldl callNamed enc).buf = enc.buf ++ pairs.encode := by
  induction named generalizing enc with
  | nil =>
    refine ⟨.nil, rfl, ?_⟩
    rw [AMF0Pairs.encode, List.append_nil]
    rfl
  | cons c named ih =>
    obtain ⟨hname, hval, hrest⟩ := h
    obtain ⟨v, hv, hbuf⟩ := callNamed_buf enc c hname hval
    obtain ⟨pairs, hpairs, hall⟩ := ih (enc.callNamed c) hrest
    refine ⟨.cons ⟨c.name, hname⟩ v pairs, ?_, ?_⟩
    · rw [AMF0Pairs.properties, hv, hpairs]
      rfl
    · rw [List.foldl_cons, hall, hbuf]
      simp only [AMF0Pairs.encode, List.append_assoc]

/-- The calls for a short value write it in the grammar. -/
theorem callValue_buf (enc : AMF0Encoder) (c : ValueCalls) (h : c.value.Short) :
    ∃ v : AMF0Syntax, v.value = c.value ∧ (enc.callValue c).buf = enc.buf ++ v.encode := by
  cases c with
  | encodeNumber bits => exact ⟨.number bits, rfl, encodeNumber_buf enc bits⟩
  | encodeBoolean val => exact ⟨.boolean val, rfl, encodeBoolean_buf enc val⟩
  | encodeString val => exact ⟨.string ⟨val, h⟩, rfl, encodeString_buf enc ⟨val, h⟩⟩
  | encodeNull => exact ⟨.null, rfl, rfl⟩
  | object start named =>
    obtain ⟨pairs, hpairs, hbuf⟩ := foldl_callNamed_buf (enc.callStart start) h
    cases start with
    | encodeObjectStart =>
      refine ⟨.object pairs, congrArg AMF0Value.object hpairs, ?_⟩
      rw [callValue, encodeObjectEnd_buf, hbuf, callStart, encodeObjectStart]
      simp only [writeUint8, AMF0Syntax.encode, List.append_assoc, List.cons_append,
        List.nil_append]
    | encodeECMAArrayStart count =>
      refine ⟨.ecmaArray count pairs, congrArg AMF0Value.object hpairs, ?_⟩
      rw [callValue, encodeObjectEnd_buf, hbuf, callStart, encodeECMAArrayStart]
      simp only [writeUint8, writeUint32BE, BytesWriter.writeUint32BE_eq, AMF0Syntax.encode,
        List.append_assoc, List.cons_append, List.nil_append]

theorem foldl_callValue_holds {enc : AMF0Encoder} {vals : List AMF0Value} (henc : enc.Holds vals)
    {seq : List ValueCalls} (h : ∀ v ∈ seq.map ValueCalls.value, v.Short) :
    (seq.foldl callValue enc).Holds (vals ++ seq.map ValueCalls.value) := by
  induction seq generalizing enc vals with
  | nil =>
    rw [List.map_nil, List.append_nil]
    exact henc
  | cons c seq ih =>
    rw [List.map_cons] at h
    obtain ⟨v, hv, hbuf⟩ := callValue_buf enc c (h _ List.mem_cons_self)
    have hnext := henc.concat v hbuf
    rw [hv] at hnext
    have hall := ih hnext fun w hw => h w (List.mem_cons_of_mem _ hw)
    rw [List.append_assoc] at hall
    exact hall

/-! ## Reading back -/

/-- The values of the calls are decoded from the buffer, up to its end. -/
def ReadBack (seq : List ValueCalls) : Prop :=
  AMF0Decoder.decodeMany seq.length { data := (calls seq).buf } =
    some (seq.map ValueCalls.value, { data := (calls seq).buf, pos := (calls seq).buf.length })

theorem readBack_of_short {seq : List ValueCalls}
    (h : ∀ v ∈ seq.map ValueCalls.value, v.Short) : ReadBack seq := by
  have hholds := foldl_callValue_holds holds_nil h
  have hdecode := hholds.decodeMany
  rw [List.nil_append, List.length_map] at hdecode
  exact hdecode

theorem ReadBack.short {seq : List ValueCalls} (h : ReadBack seq) :
    ∀ v ∈ seq.map ValueCalls.value, v.Short :=
  AMF0Decoder.decodeMany_short (Nat.zero_le _) h

/-- The values of a sequence of calls are decoded again if and only if the lengths of
its strings and its names can be written in two bytes. -/
theorem readBack_iff (seq : List ValueCalls) :
    ReadBack seq ↔ ∀ v ∈ seq.map ValueCalls.value, v.Short :=
  ⟨ReadBack.short, readBack_of_short⟩

/-- A string of 65536 bytes, and a number. -/
def longCalls : List ValueCalls :=
  [.encodeString (List.replicate 65536 0x41), .encodeNumber 0x3FF0000000000000]

theorem longCalls_not_readBack : ¬ ReadBack longCalls := by
  intro h
  have hshort : (AMF0Value.string (List.replicate 65536 0x41)).Short :=
    h.short _ List.mem_cons_self
  rw [AMF0Value.Short, List.length_replicate] at hshort
  exact absurd hshort (by decide)

end AMF0Encoder
