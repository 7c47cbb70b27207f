-- SUMMARY: The digests of the complex handshake: the two roles find each other's, and read inside the packet.
import OmegaStreamer.Lib.Memory
import OmegaStreamer.Rtmp.HandShake

/-!
# Digests

A digest stands in the packet that it authenticates, at a place that four bytes of the
packet say. Writing it changes neither these bytes nor the bytes that are hashed, so the
other role finds it there. The functions are then written a second time, so that they
fail wherever they would read outside of their packet, and they never do.
-/

open BytesReader BytesWriter

namespace Bytes

section Overwrite

variable {buf src : Bytes} {off : Nat}

theorem at_overwrite_of_lt {i : Nat} (h : i < off) (hoff : off ≤ buf.length) :
    (buf.overwrite off src).at i = buf.at i := by
  have hlen : (buf.take off).length = off := by
    rw [List.length_take, Nat.min_eq_left hoff]
  rw [overwrite, List.append_assoc, at_append (by rw [hlen]; exact h), at_take h]

theorem at_overwrite_of_ge {i : Nat} (h : off + src.length ≤ i) (hoff : off ≤ buf.length) :
    (buf.overwrite off src).at i = buf.at i := by
  obtain ⟨j, rfl⟩ := Nat.exists_eq_add_of_le h
  have hlen : (buf.take off ++ src).length = off + src.length := by
    rw [List.length_append, List.length_take, Nat.min_eq_left hoff]
  have hdrop : (buf.overwrite off src).drop (off + src.length) = buf.drop (off + src.length) := by
    rw [overwrite, ← hlen, List.drop_left, hlen]
  rw [← at_drop, hdrop, at_drop]

/-- What is in front of the place stays. -/
theorem take_overwrite (hoff : off ≤ buf.length) : (buf.overwrite off src).take off = buf.take off := by
  have hlen : (buf.take off).length = off := by
    rw [List.length_take, Nat.min_eq_left hoff]
  rw [overwrite, List.append_assoc, List.take_left' hlen]

/-- From the place on there is what was written, and what was behind it. -/
theorem drop_overwrite (hoff : off ≤ buf.length) :
    (buf.overwrite off src).drop off = src ++ buf.drop (off + src.length) := by
  have hlen : (buf.take off).length = off := by
    rw [List.length_take, Nat.min_eq_left hoff]
  rw [overwrite, List.append_assoc, List.drop_left' hlen]

/-- The place counted from further on. -/
theorem drop_overwrite_add {n : Nat} (h : n + off ≤ buf.length) :
    (buf.overwrite (n + off) src).drop n = overwrite (buf.drop n) off src := by
  have hlen : n ≤ (buf.take (n + off)).length := by
    rw [List.length_take, Nat.min_eq_left h]
    exact Nat.le_add_right n off
  rw [overwrite, overwrite, List.append_assoc, List.drop_append_of_le_length hlen,
    ← List.append_assoc, List.drop_take, List.drop_drop, Nat.add_sub_cancel_left, Nat.add_assoc]

end Overwrite

end Bytes

/-! ## Finding a digest -/

/-- The offset is made of four bytes. -/
theorem getDigestOffset_congr {buf buf' : Bytes} {off : Nat}
    (h : ∀ i, off ≤ i → i < off + 4 → buf'.at i = buf.at i) (modVal : Nat) :
    getDigestOffset buf' off modVal = getDigestOffset buf off modVal := by
  rw [getDigestOffset, getDigestOffset, h off (Nat.le_refl _) (by omega),
    h (off + 1) (by omega) (by omega), h (off + 2) (by omega) (by omega),
    h (off + 3) (by omega) (by omega)]

/-- The digest leaves out the place that it is written to. -/
theorem calculateDigest_overwrite (env : HandShakeEnv) {buf digest : Bytes} {pos : Nat}
    (hpos : 0 < pos) (hle : pos ≤ buf.length) (hdigest : digest.length = SHA256_DIGEST_LENGTH)
    (len : Nat) (key : Bytes) (keylen : Nat) :
    calculateDigest env (buf.overwrite pos digest) len pos key keylen =
      calculateDigest env buf len pos key keylen := by
  have hbehind : (buf.overwrite pos digest).drop (pos + SHA256_DIGEST_LENGTH) =
      buf.drop (pos + SHA256_DIGEST_LENGTH) := by
    rw [← hdigest, ← List.drop_drop, Bytes.drop_overwrite hle, List.drop_left]
  rw [calculateDigest, calculateDigest, if_neg (Nat.ne_of_gt hpos), if_neg (Nat.ne_of_gt hpos),
    Bytes.take_overwrite hle, hbehind]

/-- A digest is found where it was written. -/
theorem verifyDigest_overwrite (env : HandShakeEnv) {buf : Bytes} {pos : Nat} (hpos : 0 < pos)
    (hle : pos ≤ buf.length) (key : Bytes) (keylen : Nat) :
    verifyDigest env (buf.overwrite pos (calculateDigest env buf 1536 pos key keylen)) pos key
      keylen = true := by
  have hdigest := length_calculateDigest env buf 1536 pos key keylen
  rw [verifyDigest, calculateDigest_overwrite env hpos hle hdigest, Bytes.drop_overwrite hle,
    List.take_left' hdigest]
  exact decide_eq_true rfl

namespace RtmpHandShake

/-- The packet up to its version, as `CreateC1S1` fills it. -/
def filledC1S1 (env : HandShakeEnv) : Bytes :=
  (Bytes.overwrite env.randomC1S1 0 [0x03]).overwrite 1 [0, 0, 0, 0]

/-- The offset that `CreateC1S1` stores the digest at. -/
def storedOffset (env : HandShakeEnv) : Nat := getDigestOffset ((filledC1S1 env).drop 1) 8 728

/-- The packet with its version, and without its digest. -/
def versionedC1S1 (env : HandShakeEnv) (client : Bool) : Bytes :=
  (filledC1S1 env).overwrite 5 ((if client then rtmpPlayerKey else rtmpServerKey).take 4)

/-- `CreateC1S1` of a complex handshake. -/
theorem createC1S1_complex (env : HandShakeEnv) {hs : RtmpHandShake}
    (h : hs.isComplexHandshake = true) :
    hs.createC1S1 env =
      { hs with
        c1s1 := (versionedC1S1 env hs.isClient).overwrite (1 + storedOffset env)
          (hs.createC1S1 env).digest
        digest := calculateDigest env ((versionedC1S1 env hs.isClient).drop 1)
          kRtmpHandShakePacketSize (storedOffset env)
          (if hs.isClient then rtmpPlayerKey else rtmpServerKey)
          (if hs.isClient then PLAYER_KEY_OPEN_PART_LEN else SERVER_KEY_OPEN_PART_LEN) } := by
  rw [createC1S1, if_neg (not_not.mpr h)]
  rfl

theorem length_filledC1S1 (env : HandShakeEnv) : (filledC1S1 env).length = 1537 := by
  have hrandom := env.randomC1S1.property
  simp only [kRtmpHandShakePacketSize, Nat.reduceAdd] at hrandom
  have hversion := Bytes.length_overwrite env.randomC1S1.val 0 [0x03] (by rw [hrandom]; decide)
  rw [filledC1S1, Bytes.length_overwrite _ _ _ (by rw [hversion, hrandom]; decide), hversion,
    hrandom]

theorem five_le_filledC1S1 (env : HandShakeEnv) : 5 ≤ (filledC1S1 env).length := by
  rw [length_filledC1S1]
  decide

/-- Both keys begin with the same four bytes. -/
theorem take_key (client : Bool) :
    (if client then rtmpPlayerKey else rtmpServerKey).take 4 = [0x47, 0x65, 0x6E, 0x75] := by
  cases client with
  | false => rfl
  | true => rfl

theorem length_versionedC1S1 (env : HandShakeEnv) (client : Bool) :
    (versionedC1S1 env client).length = 1537 := by
  have hfilled := length_filledC1S1 env
  rw [versionedC1S1, take_key, Bytes.length_overwrite _ _ _ (by rw [hfilled]; decide), hfilled]

theorem storedOffset_bounds (env : HandShakeEnv) :
    12 ≤ storedOffset env ∧ storedOffset env < 740 :=
  ⟨Nat.le_add_left _ _, getDigestOffset_lt _ 8 (by decide)⟩

/-- C0 or S0. -/
theorem versionedC1S1_zero (env : HandShakeEnv) (client : Bool) :
    (versionedC1S1 env client).at 0 = 0x03 := by
  have hfirst : 1 ≤ (Bytes.overwrite env.randomC1S1 0 [0x03]).length := by
    rw [Bytes.overwrite, List.length_append, List.length_append]
    exact Nat.le_trans (Nat.le_add_left 1 _) (Nat.le_add_right _ _)
  rw [versionedC1S1, Bytes.at_overwrite_of_lt (by decide) (five_le_filledC1S1 env), filledC1S1,
    Bytes.at_overwrite_of_lt (by decide) hfirst]
  rfl

/-- The version of a complex handshake is not 0. -/
theorem versionedC1S1_version (env : HandShakeEnv) (client : Bool) :
    readUint32BE ((versionedC1S1 env client).drop 5) ≠ 0 := by
  have hversion (rest : Bytes) : readUint32BE ([0x47, 0x65, 0x6E, 0x75] ++ rest) =
      readUint32BE [0x47, 0x65, 0x6E, 0x75] := rfl
  rw [versionedC1S1, take_key, Bytes.drop_overwrite (five_le_filledC1S1 env), hversion]
  decide

/-- Neither the version nor the digest changes the bytes of the offset. -/
theorem getDigestOffset_versionedC1S1 (env : HandShakeEnv) (client : Bool) :
    getDigestOffset ((versionedC1S1 env client).drop 1) 8 728 = storedOffset env := by
  apply getDigestOffset_congr
  intro i hi _
  rw [Bytes.at_drop, Bytes.at_drop, versionedC1S1, take_key]
  apply Bytes.at_overwrite_of_ge _ (five_le_filledC1S1 env)
  rw [List.length_cons, List.length_cons, List.length_cons, List.length_singleton]
  omega

section Created

variable (env : HandShakeEnv) {hs : RtmpHandShake} (hcomplex : hs.isComplexHandshake = true)

include hcomplex

theorem digest_createC1S1 :
    (hs.createC1S1 env).digest = calculateDigest env ((versionedC1S1 env hs.isClient).drop 1) 1536
      (storedOffset env) (if hs.isClient then rtmpPlayerKey else rtmpServerKey)
      (if hs.isClient then PLAYER_KEY_OPEN_PART_LEN else SERVER_KEY_OPEN_PART_LEN) :=
  congrArg digest (createC1S1_complex env hcomplex)

theorem c1s1_createC1S1 :
    (hs.createC1S1 env).c1s1 = (versionedC1S1 env hs.isClient).overwrite (1 + storedOffset env)
      (hs.createC1S1 env).digest :=
  congrArg c1s1 (createC1S1_complex env hcomplex)

theorem drop_createC1S1 :
    (hs.createC1S1 env).c1s1.drop 1 = Bytes.overwrite ((versionedC1S1 env hs.isClient).drop 1)
      (storedOffset env) (hs.createC1S1 env).digest := by
  have hversioned := length_versionedC1S1 env hs.isClient
  have hback := (storedOffset_bounds env).2
  rw [c1s1_createC1S1 env hcomplex]
  apply Bytes.drop_overwrite_add
  omega

/-- In front of the digest the packet is as it was. -/
theorem at_createC1S1 {i : Nat} (hi : i < 1 + storedOffset env) :
    (hs.createC1S1 env).c1s1.at i = (versionedC1S1 env hs.isClient).at i := by
  have hversioned := length_versionedC1S1 env hs.isClient
  have hback := (storedOffset_bounds env).2
  rw [c1s1_createC1S1 env hcomplex]
  apply Bytes.at_overwrite_of_lt hi
  omega

theorem createC1S1_zero : (hs.createC1S1 env).c1s1.at 0 = 0x03 := by
  rw [at_createC1S1 env hcomplex (Nat.lt_of_lt_of_le Nat.zero_lt_one (Nat.le_add_right _ _))]
  exact versionedC1S1_zero env hs.isClient

theorem createC1S1_version : readUint32BE ((hs.createC1S1 env).c1s1.drop 5) ≠ 0 := by
  have hfront := (storedOffset_bounds env).1
  have hsame {i : Nat} (hi : i < 4) :
      (hs.createC1S1 env).c1s1.at (5 + i) = (versionedC1S1 env hs.isClient).at (5 + i) := by
    apply at_createC1S1 env hcomplex
    omega
  have heq : readUint32BE ((hs.createC1S1 env).c1s1.drop 5) =
      readUint32BE ((versionedC1S1 env hs.isClient).drop 5) := by
    simp only [readUint32BE, Bytes.at_drop]
    rw [hsame (show 0 < 4 by decide), hsame (show 1 < 4 by decide), hsame (show 2 < 4 by decide),
      hsame (show 3 < 4 by decide)]
  rw [heq]
  exact versionedC1S1_version env hs.isClient

/-- The digest stands behind the bytes that its place is computed from. -/
theorem getDigestOffset_createC1S1 :
    getDigestOffset ((hs.createC1S1 env).c1s1.drop 1) 8 728 = storedOffset env := by
  have hfront := (storedOffset_bounds env).1
  rw [← getDigestOffset_versionedC1S1 env hs.isClient]
  apply getDigestOffset_congr
  intro i _ hi
  rw [Bytes.at_drop, Bytes.at_drop]
  apply at_createC1S1 env hcomplex
  omega

end Created

/-! ## The opposite role -/

/-- The check uses nothing of what is outside but the HMAC. -/
theorem checkC1S1_congr {env env' : HandShakeEnv} (h : env'.hmac = env.hmac) (hs : RtmpHandShake)
    (data : Bytes) : hs.checkC1S1 env' data = hs.checkC1S1 env data := by
  obtain ⟨hmac, _, _, _⟩ := env'
  subst h
  rfl

/-- The digest of the packet that `hs` creates is found by `hs'`, whose handshake stays as it
is. -/
structure Recognised (env env' : HandShakeEnv) (hs hs' : RtmpHandShake) : Prop where
  /-- The offset is that of the digest that was stored and copied. -/
  check : hs'.checkC1S1 env' (hs.createC1S1 env).c1s1 = ((storedOffset env : Int), hs')
  stored : Memory.load ((hs.createC1S1 env).c1s1.drop 1) (storedOffset env)
    SHA256_DIGEST_LENGTH = some (hs.createC1S1 env).digest

theorem recognised {env env' : HandShakeEnv} (hhmac : env'.hmac = env.hmac)
    {hs hs' : RtmpHandShake} (hcomplex : hs.isComplexHandshake = true)
    (hrole : hs'.isClient = !hs.isClient) : Recognised env env' hs hs' := by
  obtain ⟨hfront, hback⟩ := storedOffset_bounds env
  have hlength := length_createC1S1 env hs
  have hdigest := digest_createC1S1 env hcomplex
  have hdrop := drop_createC1S1 env hcomplex
  have hplace : storedOffset env ≤ ((versionedC1S1 env hs.isClient).drop 1).length := by
    rw [List.length_drop, length_versionedC1S1]
    omega
  constructor
  · -- the keys are those of the role that created the packet
    have hkey : (if hs'.isClient then rtmpServerKey else rtmpPlayerKey) =
        (if hs.isClient then rtmpPlayerKey else rtmpServerKey) := by
      rw [hrole]
      cases hs.isClient <;> rfl
    have hkeyLen : (if hs'.isClient then SERVER_KEY_OPEN_PART_LEN else PLAYER_KEY_OPEN_PART_LEN) =
        (if hs.isClient then PLAYER_KEY_OPEN_PART_LEN else SERVER_KEY_OPEN_PART_LEN) := by
      rw [hrole]
      cases hs.isClient <;> rfl
    have hverify := verifyDigest_overwrite env (Nat.lt_of_lt_of_le (by decide) hfront) hplace
      (if hs.isClient then rtmpPlayerKey else rtmpServerKey)
      (if hs.isClient then PLAYER_KEY_OPEN_PART_LEN else SERVER_KEY_OPEN_PART_LEN)
    rw [← hdigest, ← hdrop] at hverify
    rw [checkC1S1_congr hhmac, checkC1S1, if_neg (not_not.mpr hlength),
      if_neg (not_not.mpr (createC1S1_zero env hcomplex)),
      if_neg (createC1S1_version env hcomplex)]
    simp only [hkey, hkeyLen, getDigestOffset_createC1S1 env hcomplex, hverify, if_true]
  · have hdigestLen : (hs.createC1S1 env).digest.length = SHA256_DIGEST_LENGTH := by
      rw [hdigest]
      exact length_calculateDigest _ _ _ _ _ _
    rw [Memory.load_of_le, hdrop, Bytes.drop_overwrite hplace, List.take_left' hdigestLen]
    rw [List.length_drop, hlength, kRtmpHandShakePacketSize, SHA256_DIGEST_LENGTH]
    omega

/-! ## Reading inside the packet -/

namespace Watched

/-- `len` bytes from `start` on. A negative `int` is no length. -/
def loadRange (buf : Bytes) (start len : Int) : Option Bytes :=
  if 0 ≤ start ∧ 0 ≤ len then Memory.load buf start.toNat len.toNat else none

def calculateDigest (env : HandShakeEnv) (src : Bytes) (len gap : Int) (key : Bytes)
    (keylen : Int) : Option Bytes := do
  let key ← loadRange key 0 keylen
  if gap ≤ 0 then
    let all ← loadRange src 0 len
    return env.hmac key all
  else
    let front ← loadRange src 0 gap
    let back ← loadRange src (gap + SHA256_DIGEST_LENGTH) (len - gap - SHA256_DIGEST_LENGTH)
    return env.hmac key (front ++ back)

def verifyDigest (env : HandShakeEnv) (buf : Bytes) (digestPos : Int) (key : Bytes)
    (keylen : Int) : Option Bool := do
  let digest ← calculateDigest env buf 1536 digestPos key keylen
  let found ← loadRange buf digestPos SHA256_DIGEST_LENGTH
  return found = digest

def getDigestOffset (buf : Bytes) (off : Int) (modVal : Nat) : Option Int := do
  let ptr ← loadRange buf off 4
  let offset := (ptr.at 0).toNat + (ptr.at 1).toNat + (ptr.at 2).toNat + (ptr.at 3).toNat
  return (offset % modVal : Nat) + (off + 4)

def checkC1S1 (env : HandShakeEnv) (hs : RtmpHandShake) (data : Bytes) :
    Option (Int × RtmpHandShake) :=
  if data.length ≠ kRtmpHandShakePacketSize + 1 then some (-1, hs)
  else do
    let first ← loadRange data 0 1
    let version ← loadRange data 5 4
    if first.at 0 ≠ 0x03 then return (-1, hs)
    else if readUint32BE version = 0 then return (0, { hs with isComplexHandshake := false })
    else
      let handshake := data.drop 1
      let key := if hs.isClient then rtmpServerKey else rtmpPlayerKey
      let keyLen := if hs.isClient then SERVER_KEY_OPEN_PART_LEN else PLAYER_KEY_OPEN_PART_LEN
      let offset ← getDigestOffset handshake 8 728
      let found ← verifyDigest env handshake offset key keyLen
      if found then return (offset, hs)
      else
        let offset ← getDigestOffset handshake 772 728
        let found ← verifyDigest env handshake offset key keyLen
        if found then return (offset, hs)
        else return (0, { hs with isComplexHandshake := false })

def createC2S2 (env : HandShakeEnv) (hs : RtmpHandShake) (data : Bytes) (offset : Int) :
    Option RtmpHandShake := do
  let front ← loadRange data 0 8
  let c2s2 ← Memory.store env.randomC2S2.val 0 front
  let c2s2 ← Memory.store c2s2 0 (writeUint32BE env.now)
  if hs.isComplexHandshake then
    let key := if hs.isClient then rtmpPlayerKey else rtmpServerKey
    let window ← loadRange data offset SHA256_DIGEST_LENGTH
    let digest ← calculateDigest env window SHA256_DIGEST_LENGTH 0 key key.length
    let mac ← calculateDigest env c2s2 (kRtmpHandShakePacketSize - SHA256_DIGEST_LENGTH) 0
      digest SHA256_DIGEST_LENGTH
    let c2s2 ← Memory.store c2s2 (kRtmpHandShakePacketSize - SHA256_DIGEST_LENGTH) mac
    return { hs with c2s2 := c2s2 }
  else return { hs with c2s2 := c2s2 }

theorem loadRange_of_le {buf : Bytes} {start len : Nat} (h : start + len ≤ buf.length) :
    loadRange buf start len = some ((buf.drop start).take len) := by
  have hpos : 0 ≤ (start : Int) ∧ 0 ≤ (len : Int) := ⟨Int.natCast_nonneg _, Int.natCast_nonneg _⟩
  rw [loadRange, if_pos hpos, Int.toNat_natCast, Int.toNat_natCast, Memory.load_of_le h]

theorem store_eq_overwrite {buf src : Bytes} {off : Nat} (h : off + src.length ≤ buf.length) :
    Memory.store buf off src = some (buf.overwrite off src) :=
  if_pos h

end Watched

/-! ### No read fails -/

theorem watched_calculateDigest_all (env : HandShakeEnv) {src key : Bytes} {len keylen : Nat}
    (hlen : len ≤ src.length) (hkey : keylen ≤ key.length) :
    Watched.calculateDigest env src len 0 key keylen =
      some (calculateDigest env src len 0 key keylen) := by
  have hkeyLoad := Watched.loadRange_of_le (show 0 + keylen ≤ key.length by omega)
  have hload := Watched.loadRange_of_le (show 0 + len ≤ src.length by omega)
  rw [Int.natCast_zero, List.drop_zero] at hkeyLoad hload
  simp only [Watched.calculateDigest, hkeyLoad, hload, Option.bind_eq_bind, Option.bind_some,
    Int.le_refl, if_true, Option.pure_def, calculateDigest]

/-- The two parts around a window are hashed. -/
theorem watched_calculateDigest_window (env : HandShakeEnv) {src key : Bytes}
    {len gap keylen : Nat} (hpos : 0 < gap) (hgap : gap + SHA256_DIGEST_LENGTH ≤ len)
    (hlen : len ≤ src.length) (hkey : keylen ≤ key.length) :
    Watched.calculateDigest env src len gap key keylen =
      some (calculateDigest env src len gap key keylen) := by
  have hkeyLoad := Watched.loadRange_of_le (show 0 + keylen ≤ key.length by omega)
  have hfront := Watched.loadRange_of_le (show 0 + gap ≤ src.length by omega)
  have hback := Watched.loadRange_of_le
    (show gap + SHA256_DIGEST_LENGTH + (len - gap - SHA256_DIGEST_LENGTH) ≤ src.length by omega)
  have hnot : ¬ (gap : Int) ≤ 0 := by omega
  have hlength : ((len - gap - SHA256_DIGEST_LENGTH : Nat) : Int) =
      (len : Int) - gap - SHA256_DIGEST_LENGTH := by omega
  rw [Int.natCast_zero, List.drop_zero] at hkeyLoad hfront
  rw [hlength, Int.natCast_add] at hback
  simp only [Watched.calculateDigest, hkeyLoad, hfront, hback, Option.bind_eq_bind,
    Option.bind_some, if_neg hnot, Option.pure_def, calculateDigest,
    if_neg (Nat.ne_of_gt hpos)]

theorem watched_getDigestOffset {buf : Bytes} {off : Nat} (h : off + 4 ≤ buf.length)
    (modVal : Nat) :
    Watched.getDigestOffset buf off modVal = some (getDigestOffset buf off modVal : Int) := by
  have hload : Watched.loadRange buf off 4 = some ((buf.drop off).take 4) :=
    Watched.loadRange_of_le h
  simp only [Watched.getDigestOffset, hload, Option.bind_eq_bind, Option.bind_some,
    Option.pure_def, Bytes.at_take (show 0 < 4 by decide), Bytes.at_take (show 1 < 4 by decide),
    Bytes.at_take (show 2 < 4 by decide), Bytes.at_take (show 3 < 4 by decide), Bytes.at_drop,
    getDigestOffset]
  rfl

theorem watched_verifyDigest (env : HandShakeEnv) {buf key : Bytes} {pos keylen : Nat}
    (hpos : 0 < pos) (hlen : pos + SHA256_DIGEST_LENGTH ≤ 1536) (hbuf : 1536 ≤ buf.length)
    (hkey : keylen ≤ key.length) :
    Watched.verifyDigest env buf pos key keylen = some (verifyDigest env buf pos key keylen) := by
  have hdigest : Watched.calculateDigest env buf 1536 pos key keylen =
      some (calculateDigest env buf 1536 pos key keylen) :=
    watched_calculateDigest_window env hpos hlen hbuf hkey
  have hload := Watched.loadRange_of_le (Nat.le_trans hlen hbuf)
  simp only [Watched.verifyDigest, hdigest, hload, Option.bind_eq_bind, Option.bind_some,
    Option.pure_def, verifyDigest]

/-- The place of a digest: the window is inside of the packet, and so are the parts in
front of it and behind it. -/
structure WindowInside (offset : Int) : Prop where
  window : offset + SHA256_DIGEST_LENGTH ≤ kRtmpHandShakePacketSize
  front : 0 ≤ offset
  back : 0 ≤ kRtmpHandShakePacketSize - offset - SHA256_DIGEST_LENGTH
  total : offset + (kRtmpHandShakePacketSize - offset - SHA256_DIGEST_LENGTH) = 1504

theorem windowInside {offset : Nat} (h : offset + SHA256_DIGEST_LENGTH ≤ kRtmpHandShakePacketSize) :
    WindowInside offset := by
  rw [SHA256_DIGEST_LENGTH, kRtmpHandShakePacketSize] at h
  constructor
  · show (offset : Int) + 32 ≤ 1536
    omega
  · exact Int.natCast_nonneg _
  · show (0 : Int) ≤ 1536 - offset - 32
    omega
  · show (offset : Int) + (1536 - offset - 32) = 1504
    omega

/-- Both places for a digest are inside of any packet. -/
theorem windowInside_candidates (packet : Bytes) :
    WindowInside (getDigestOffset packet 8 728) ∧ WindowInside (getDigestOffset packet 772 728) := by
  have hfirst := getDigestOffset_lt packet 8 (show 0 < 728 by decide)
  have hsecond := getDigestOffset_lt packet 772 (show 0 < 728 by decide)
  constructor
  · apply windowInside
    rw [SHA256_DIGEST_LENGTH, kRtmpHandShakePacketSize]
    omega
  · apply windowInside
    rw [SHA256_DIGEST_LENGTH, kRtmpHandShakePacketSize]
    omega

/-- The place of a digest is read, and the digest there is checked, inside of the packet. -/
theorem watched_candidate (env : HandShakeEnv) {packet key : Bytes} {off keylen : Nat}
    (hpacket : packet.length = 1536) (hkey : keylen ≤ key.length) (hoff : off + 764 ≤ 1537) :
    Watched.getDigestOffset packet off 728 = some (getDigestOffset packet off 728 : Int) ∧
      Watched.verifyDigest env packet (getDigestOffset packet off 728) key keylen =
        some (verifyDigest env packet (getDigestOffset packet off 728) key keylen) := by
  have hlt := getDigestOffset_lt packet off (show 0 < 728 by decide)
  have hle : off + 4 ≤ getDigestOffset packet off 728 := Nat.le_add_left _ _
  constructor
  · apply watched_getDigestOffset
    omega
  · apply watched_verifyDigest env (by omega) _ (Nat.le_of_eq hpacket.symm) hkey
    rw [SHA256_DIGEST_LENGTH]
    omega

/-- `CheckC1S1` reads nothing outside of what it is given. -/
theorem watched_checkC1S1 (env : HandShakeEnv) (hs : RtmpHandShake) (data : Bytes) :
    Watched.checkC1S1 env hs data = some (hs.checkC1S1 env data) := by
  generalize hchecked : hs.checkC1S1 env data = checked
  rw [checkC1S1] at hchecked
  rw [Watched.checkC1S1]
  obtain ⟨hlength, rfl⟩ | ⟨hlength, hchecked⟩ := ite_eq_iff.mp hchecked
  · rw [if_pos hlength]
  rw [if_neg hlength]
  have hsize : data.length = 1537 := not_not.mp hlength
  have hpacket : (data.drop 1).length = 1536 := by
    rw [List.length_drop, hsize]
  have hfirst : Watched.loadRange data 0 1 = some ((data.drop 0).take 1) :=
    Watched.loadRange_of_le (by rw [hsize]; decide)
  have hversion : Watched.loadRange data 5 4 = some ((data.drop 5).take 4) :=
    Watched.loadRange_of_le (by rw [hsize]; decide)
  have hzero : Bytes.at ((data.drop 0).take 1) 0 = data.at 0 := by
    rw [Bytes.at_take Nat.zero_lt_one, List.drop_zero]
  have hword : readUint32BE ((data.drop 5).take 4) = readUint32BE (data.drop 5) := by
    simp only [readUint32BE, Bytes.at_take (show 0 < 4 by decide),
      Bytes.at_take (show 1 < 4 by decide), Bytes.at_take (show 2 < 4 by decide),
      Bytes.at_take (show 3 < 4 by decide)]
  have hkey : (if hs.isClient then SERVER_KEY_OPEN_PART_LEN else PLAYER_KEY_OPEN_PART_LEN) ≤
      (if hs.isClient then rtmpServerKey else rtmpPlayerKey).length := by
    cases hs.isClient <;> decide
  obtain ⟨hoffset₁, hverify₁⟩ := watched_candidate env hpacket hkey (show 8 + 764 ≤ 1537 by decide)
  obtain ⟨hoffset₂, hverify₂⟩ :=
    watched_candidate env hpacket hkey (show 772 + 764 ≤ 1537 by decide)
  simp only [hfirst, hversion, Option.bind_eq_bind, Option.bind_some, hzero, hword,
    Option.pure_def]
  obtain ⟨hother, rfl⟩ | ⟨hother, hchecked⟩ := ite_eq_iff.mp hchecked
  · rw [if_pos hother]
  rw [if_neg hother]
  obtain ⟨hsimple, rfl⟩ | ⟨hsimple, rfl⟩ := ite_eq_iff.mp hchecked
  · rw [if_pos hsimple]
  rw [if_neg hsimple]
  rw [Nat.cast_ofNat] at hoffset₁ hoffset₂
  simp only [hoffset₁, hverify₁, hoffset₂, hverify₂, Option.bind_some]
  generalize verifyDigest env (data.drop 1) (getDigestOffset (data.drop 1) 8 728) _ _ = first
  generalize verifyDigest env (data.drop 1) (getDigestOffset (data.drop 1) 772 728) _ _ = second
  cases first with
  | true => rfl
  | false =>
    cases second with
    | true => rfl
    | false => rfl

/-- `CreateC2S2` reads nothing outside of a packet with its window in it. -/
theorem watched_createC2S2 (env : HandShakeEnv) (hs : RtmpHandShake) {data : Bytes} {offset : Nat}
    (h8 : 8 ≤ data.length) (hoffset : offset + SHA256_DIGEST_LENGTH ≤ data.length) :
    Watched.createC2S2 env hs data offset = some (hs.createC2S2 env data offset) := by
  have hfrontLen : (data.take 8).length = 8 := List.length_take_of_le h8
  have hrandom : env.randomC2S2.val.length = 1536 := env.randomC2S2.property
  have hfront : Watched.loadRange data 0 8 = some (data.take 8) :=
    Watched.loadRange_of_le (show 0 + 8 ≤ data.length by omega)
  have hcopy : 0 + (data.take 8).length ≤ env.randomC2S2.val.length := by
    rw [hfrontLen, hrandom]
    decide
  have hstamp : 0 + (writeUint32BE env.now).length ≤
      (Bytes.overwrite env.randomC2S2.val 0 (data.take 8)).length := by
    rw [Bytes.length_overwrite _ _ _ hcopy, hrandom]
    exact Nat.le_of_ble_eq_true rfl
  have hlen : ((Bytes.overwrite env.randomC2S2.val 0 (data.take 8)).overwrite 0
      (writeUint32BE env.now)).length = 1536 := by
    rw [Bytes.length_overwrite _ _ _ hstamp, Bytes.length_overwrite _ _ _ hcopy, hrandom]
  simp only [Watched.createC2S2, createC2S2, hfront, Watched.store_eq_overwrite hcopy,
    Watched.store_eq_overwrite hstamp, Option.bind_eq_bind, Option.bind_some, Option.pure_def]
  generalize (Bytes.overwrite env.randomC2S2.val 0 (data.take 8)).overwrite 0
    (writeUint32BE env.now) = c2s2 at hlen
  split
  · generalize (if hs.isClient then rtmpPlayerKey else rtmpServerKey) = key
    have hwindow := Watched.loadRange_of_le hoffset
    have hwindowLen : SHA256_DIGEST_LENGTH ≤ ((data.drop offset).take SHA256_DIGEST_LENGTH).length := by
      rw [List.length_take, List.length_drop]
      omega
    have hdigest := watched_calculateDigest_all env hwindowLen (Nat.le_refl key.length)
    -- the whole window is hashed
    have hwhole : calculateDigest env ((data.drop offset).take SHA256_DIGEST_LENGTH)
        SHA256_DIGEST_LENGTH 0 key key.length =
        calculateDigest env (data.drop offset) SHA256_DIGEST_LENGTH 0 key key.length := by
      simp only [calculateDigest, if_true, List.take_take, Nat.min_self]
    rw [hwhole] at hdigest
    simp only [hwindow, hdigest, Option.bind_some]
    have hdigestLen := length_calculateDigest env (data.drop offset) SHA256_DIGEST_LENGTH 0 key
      key.length
    generalize calculateDigest env (data.drop offset) SHA256_DIGEST_LENGTH 0 key key.length =
      digest at hdigestLen
    have hmac : Watched.calculateDigest env c2s2
        ((kRtmpHandShakePacketSize : Int) - SHA256_DIGEST_LENGTH) 0 digest SHA256_DIGEST_LENGTH =
        some (calculateDigest env c2s2 (kRtmpHandShakePacketSize - SHA256_DIGEST_LENGTH) 0 digest
          SHA256_DIGEST_LENGTH) := by
      apply watched_calculateDigest_all env _ (Nat.le_of_eq hdigestLen.symm)
      rw [hlen]
      decide
    have hend : kRtmpHandShakePacketSize - SHA256_DIGEST_LENGTH + (calculateDigest env c2s2
        (kRtmpHandShakePacketSize - SHA256_DIGEST_LENGTH) 0 digest SHA256_DIGEST_LENGTH).length ≤
        c2s2.length := by
      rw [length_calculateDigest, hlen]
      decide
    simp only [hmac, Watched.store_eq_overwrite hend, Option.bind_some]
  · rfl

/-- What is received is read inside of it, by the check and for the answer. -/
structure ReadInside (env : HandShakeEnv) (hs : RtmpHandShake) (packet : Bytes) : Prop where
  first : WindowInside (getDigestOffset (packet.drop 1) 8 728)
  second : WindowInside (getDigestOffset (packet.drop 1) 772 728)
  check : Watched.checkC1S1 env hs packet = some (hs.checkC1S1 env packet)
  answer : 0 ≤ (hs.checkC1S1 env packet).1 →
    Watched.createC2S2 env (hs.checkC1S1 env packet).2 (packet.drop 1)
        (hs.checkC1S1 env packet).1 =
      some ((hs.checkC1S1 env packet).2.createC2S2 env (packet.drop 1)
        (hs.checkC1S1 env packet).1.toNat)

theorem readInside (env : HandShakeEnv) (hs : RtmpHandShake) {packet : Bytes}
    (h : packet.length = kRtmpHandShakePacketSize + 1) : ReadInside env hs packet := by
  obtain ⟨hfirst, hsecond⟩ := windowInside_candidates (packet.drop 1)
  have hlen : (packet.drop 1).length = 1536 := by
    rw [List.length_drop, h]
    rfl
  constructor
  · exact hfirst
  · exact hsecond
  · exact watched_checkC1S1 env hs packet
  · intro hpos
    have hle := checkC1S1_le env hs packet
    obtain ⟨offset, hoffset⟩ := Int.eq_ofNat_of_zero_le hpos
    rw [hoffset] at hle ⊢
    apply watched_createC2S2
    · rw [hlen]
      decide
    · rw [hlen, SHA256_DIGEST_LENGTH]
      omega

/-- The two roles find each other's digests, whatever their packets are filled with, and
whatever is received is read inside of it. -/
theorem digests_inside (env env' : HandShakeEnv) (hs hs' : RtmpHandShake)
    (packet : { bytes : Bytes // bytes.length = kRtmpHandShakePacketSize + 1 }) :
    Recognised env { env' with hmac := env.hmac } { hs with isComplexHandshake := true }
        { hs' with isClient := !hs.isClient, isComplexHandshake := true } ∧
      ReadInside env hs packet := by
  constructor
  · apply recognised
    · rfl
    · rfl
    · rfl
  · exact readInside env hs packet.property

end RtmpHandShake
