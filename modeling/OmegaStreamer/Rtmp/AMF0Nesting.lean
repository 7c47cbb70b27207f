-- SUMMARY: How deep the recursion of the AMF0 decoder goes: a bound, and payloads that reach it.
import OmegaStreamer.Rtmp.AMF0Usage

/-!
# Nesting

`Decode` and `DecodeObject` have no limit on the depth of their calls. A level costs
three bytes, so that the depth is a third of the payload at most; and a payload of
markers and empty keys is as deep as that.
-/

open BytesReader

namespace AMF0Decoder

/-- The deepest calls in a payload of `n` bytes. -/
def maxLevels (n : Nat) : Nat := (n + 1) / 3 + 1

/-- Objects in objects, each under an empty key, and none of them ended. -/
def deepPayload : Nat → Bytes
  | 0 => []
  | 1 => [kAMF0Object]
  | 2 => [kAMF0Object, 0x00]
  | n + 3 => kAMF0Object :: 0x00 :: 0x00 :: deepPayload n

/-- What `Decode` makes of it. A zero byte at the end is the marker of a number. -/
def deepValue : Nat → AMF0Value
  | 0 => .null
  | 1 => .object []
  | 2 => .object [([], .number 0)]
  | n + 3 => .object [([], deepValue n)]

theorem length_deepPayload (n : Nat) : (deepPayload n).length = n := by
  induction n using deepPayload.induct with
  | case1 => rfl
  | case2 => rfl
  | case3 => rfl
  | case4 n ih => simp only [deepPayload, List.length_cons, ih]

theorem depth_deepValue (n : Nat) : (deepValue n).depth = maxLevels n := by
  induction n using deepPayload.induct with
  | case1 => rfl
  | case2 => rfl
  | case3 => rfl
  | case4 n ih =>
    simp only [deepValue, AMF0Value.depth, AMF0Object.depth, ih, maxLevels, Nat.max_zero]
    omega

/-- No object ends in the middle. -/
theorem notEnded_deepPayload (n : Nat) : NotEnded (deepPayload n) := by
  intro b tail h
  cases n using deepPayload.induct with
  | case1 => cases h
  | case2 => cases h; decide
  | case3 => cases h; decide
  | case4 n => cases h; decide

/-- The payload is decoded to its end. -/
theorem decodeFuel_deepPayload (n : Nat) : ∀ (fuel : Nat) (past : Bytes), 2 * n + 1 ≤ fuel →
    decodeFuel fuel (reading past (deepPayload n)) =
      some (deepValue n, reading (past ++ deepPayload n) []) := by
  induction n using deepPayload.induct with
  | case1 =>
    intro fuel past hfuel
    obtain ⟨fuel, rfl⟩ := Nat.exists_eq_add_of_le' hfuel
    rw [deepPayload, List.append_nil]
    exact decodeFuel_end past fuel
  | case2 =>
    intro fuel past hfuel
    obtain ⟨fuel, rfl⟩ := Nat.exists_eq_add_of_le' hfuel
    apply decodeFuel_object
    exact decodeObjectFuel_end _ (fuel + 1)
  | case3 =>
    intro fuel past hfuel
    obtain ⟨fuel, rfl⟩ := Nat.exists_eq_add_of_le' hfuel
    apply decodeFuel_object
    have hone := decodeObjectFuel_one (past ++ [kAMF0Object]) (fuel + 1) 0x00
    rw [List.append_assoc] at hone
    exact hone
  | case4 n ih =>
    intro fuel past hfuel
    obtain ⟨fuel, rfl⟩ := Nat.exists_eq_add_of_le' hfuel
    apply decodeFuel_object
    have hval := ih (fuel + 2 * n + 5) (past ++ [kAMF0Object] ++ emptyKey.encode) (by omega)
    have hrest := decodeObjectFuel_end
      (past ++ [kAMF0Object] ++ emptyKey.encode ++ deepPayload n) (fuel + 2 * n + 4)
    have hpair := decodeObjectFuel_pair emptyKey (notEnded_deepPayload n) hval hrest
    simp only [List.append_assoc] at hpair ⊢
    exact hpair

theorem decodeNext_deepPayload (n : Nat) :
    ({ data := deepPayload n } : AMF0Decoder).decodeNext =
      (deepValue n, reading (deepPayload n) []) := by
  have hdecode := decodeFuel_deepPayload n (2 * n + 1) [] (Nat.le_refl _)
  rw [reading_nil, List.nil_append] at hdecode
  rw [decodeNext, decode, remaining, len, length_deepPayload, Nat.sub_zero, hdecode]
  rfl

/-! ## Levels -/

/-- The calls of `Decode` that are open at the same time in the `n`-th call on the
payload. -/
def levels (payload : Bytes) (n : Nat) : Option Nat :=
  (Watched.decode (after n { data := payload })).map fun r => r.2.2.levels

/-- The depth of the value that the `n`-th call returns. -/
def returnedDepth (payload : Bytes) (n : Nat) : Nat :=
  (after n { data := payload }).decodeNext.1.depth

/-- The recursion is as deep as the value that is returned. -/
theorem levels_eq (payload : Bytes) (n : Nat) :
    levels payload n = some (returnedDepth payload n) := by
  have hstart : ({ data := payload } : AMF0Decoder).pos ≤ ({ data := payload } : AMF0Decoder).len :=
    Nat.zero_le _
  rw [levels, Watched.decode_eq (ahead_after n hstart).pos_le_len]
  rfl

theorem returnedDepth_le (payload : Bytes) (n : Nat) :
    returnedDepth payload n ≤ maxLevels payload.length := by
  have hstart : ({ data := payload } : AMF0Decoder).pos ≤ ({ data := payload } : AMF0Decoder).len :=
    Nat.zero_le _
  have hahead := ahead_after n hstart
  have hdepth : 3 * returnedDepth payload n + (after n { data := payload }).pos ≤
      (after n { data := payload }).len + 4 :=
    decodeFuel_depth hahead.pos_le_len (decode_eq_some hahead.pos_le_len)
  have hlen : (after n { data := payload }).len = payload.length := by rw [len, hahead.data_eq]
  rw [hlen] at hdepth
  rw [maxLevels]
  omega

/-- The recursion goes no deeper than a third of the payload, it is as deep as the values
that are returned, and for each length there is a payload with which it goes so deep. -/
theorem levels_bounded :
    (∀ payload n, levels payload n = some (returnedDepth payload n) ∧
      returnedDepth payload n ≤ maxLevels payload.length) ∧
    ∀ n, ∃ payload, payload.length = n ∧ levels payload 0 = some (maxLevels n) := by
  constructor
  · intro payload n
    exact ⟨levels_eq payload n, returnedDepth_le payload n⟩
  · intro n
    refine ⟨deepPayload n, length_deepPayload n, ?_⟩
    rw [levels_eq, returnedDepth, after, decodeNext_deepPayload, depth_deepValue]

/-- No constant bounds the recursion on all that a message can carry. -/
theorem levels_unbounded :
    ¬ ∃ bound ≤ 1024, ∀ payload : Bytes, payload.length ≤ 0xFFFFFF → ∀ n,
      ∀ l, levels payload n = some l → l ≤ bound := by
  rintro ⟨bound, hbound, h⟩
  have hlevels : levels (deepPayload 3072) 0 = some (maxLevels 3072) := by
    rw [levels_eq, returnedDepth, after, decodeNext_deepPayload, depth_deepValue]
  have hle := h (deepPayload 3072) (by rw [length_deepPayload]; decide) 0 _ hlevels
  rw [maxLevels] at hle
  omega

end AMF0Decoder
