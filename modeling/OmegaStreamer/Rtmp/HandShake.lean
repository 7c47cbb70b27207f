-- SUMMARY: The RTMP handshake: its packets with their digests, and the state machine of both roles.
import OmegaStreamer.Base.BytesReader

/-!
# RtmpHandShake

The handshake of `RtmpHandShake.cpp`, for the server and for the client. The
HMAC-SHA256 of OpenSSL, the random bytes and the clock are an environment. A
packet is given to the connection's `Send`, which never calls back at once; the
functions here return the packets that they send.
-/

open BytesReader BytesWriter

def kRtmpHandShakePacketSize : Nat := 1536

def SHA256_DIGEST_LENGTH : Nat := 32

/-- What the handshake uses from outside. -/
structure HandShakeEnv where
  /-- HMAC-SHA256 of a message (second argument) under a key. -/
  hmac : Bytes → Bytes → { digest : Bytes // digest.length = SHA256_DIGEST_LENGTH }
  /-- The random bytes that C0C1 or S0S1 is filled with. -/
  randomC1S1 : { bytes : Bytes // bytes.length = kRtmpHandShakePacketSize + 1 }
  /-- The random bytes that C2 or S2 is filled with. -/
  randomC2S2 : { bytes : Bytes // bytes.length = kRtmpHandShakePacketSize }
  /-- `TTime::Now()` in 32 bits. -/
  now : UInt32

/-- `Genuine Adobe Flash Player 001` and 32 secret bytes. -/
def rtmpPlayerKey : Bytes :=
  [0x47, 0x65, 0x6E, 0x75, 0x69, 0x6E, 0x65, 0x20, 0x41, 0x64, 0x6F, 0x62, 0x65, 0x20, 0x46,
    0x6C, 0x61, 0x73, 0x68, 0x20, 0x50, 0x6C, 0x61, 0x79, 0x65, 0x72, 0x20, 0x30, 0x30, 0x31,
    0xF0, 0xEE, 0xC2, 0x4A, 0x80, 0x68, 0xBE, 0xE8, 0x2E, 0x00, 0xD0, 0xD1, 0x02, 0x9E, 0x7E,
    0x57, 0x6E, 0xEC, 0x5D, 0x2D, 0x29, 0x80, 0x6F, 0xAB, 0x93, 0xB8, 0xE6, 0x36, 0xCF, 0xEB,
    0x31, 0xAE]

def PLAYER_KEY_OPEN_PART_LEN : Nat := 30

/-- `Genuine Adobe Flash Media Server 001` and the same 32 bytes. -/
def rtmpServerKey : Bytes :=
  [0x47, 0x65, 0x6E, 0x75, 0x69, 0x6E, 0x65, 0x20, 0x41, 0x64, 0x6F, 0x62, 0x65, 0x20, 0x46,
    0x6C, 0x61, 0x73, 0x68, 0x20, 0x4D, 0x65, 0x64, 0x69, 0x61, 0x20, 0x53, 0x65, 0x72, 0x76,
    0x65, 0x72, 0x20, 0x30, 0x30, 0x31, 0xF0, 0xEE, 0xC2, 0x4A, 0x80, 0x68, 0xBE, 0xE8, 0x2E,
    0x00, 0xD0, 0xD1, 0x02, 0x9E, 0x7E, 0x57, 0x6E, 0xEC, 0x5D, 0x2D, 0x29, 0x80, 0x6F, 0xAB,
    0x93, 0xB8, 0xE6, 0x36, 0xCF, 0xEB, 0x31, 0xAE]

def SERVER_KEY_OPEN_PART_LEN : Nat := 36

/-! ## Digests -/

/-- `memcpy(buf + off, src, src.size())`. -/
def Bytes.overwrite (buf : Bytes) (off : Nat) (src : Bytes) : Bytes :=
  buf.take off ++ src ++ buf.drop (off + src.length)

theorem Bytes.length_overwrite (buf : Bytes) (off : Nat) (src : Bytes)
    (h : off + src.length ≤ buf.length) : (buf.overwrite off src).length = buf.length := by
  simp only [overwrite, List.length_append, List.length_take, List.length_drop]
  omega

/-- The digest of the first `len` bytes, those of the digest at `gap` left out. -/
def calculateDigest (env : HandShakeEnv) (src : Bytes) (len gap : Nat) (key : Bytes)
    (keylen : Nat) : Bytes :=
  if gap = 0 then env.hmac (key.take keylen) (src.take len)
  else
    env.hmac (key.take keylen)
      (src.take gap ++
        (src.drop (gap + SHA256_DIGEST_LENGTH)).take (len - gap - SHA256_DIGEST_LENGTH))

@[simp] theorem length_calculateDigest (env : HandShakeEnv) (src : Bytes) (len gap : Nat)
    (key : Bytes) (keylen : Nat) :
    (calculateDigest env src len gap key keylen).length = SHA256_DIGEST_LENGTH := by
  unfold calculateDigest
  split
  · exact (env.hmac _ _).property
  · exact (env.hmac _ _).property

def verifyDigest (env : HandShakeEnv) (buf : Bytes) (digestPos : Nat) (key : Bytes)
    (keylen : Nat) : Bool :=
  (buf.drop digestPos).take SHA256_DIGEST_LENGTH =
    calculateDigest env buf 1536 digestPos key keylen

def getDigestOffset (buf : Bytes) (off modVal : Nat) : Nat :=
  let offset := (buf.at off).toNat + (buf.at (off + 1)).toNat + (buf.at (off + 2)).toNat +
    (buf.at (off + 3)).toNat
  offset % modVal + (off + 4)

/-! ## States -/

inductive RtmpHandShakeState where
  | init
  -- server
  | waitC0C1
  | postS0S1
  | postS2
  | waitC2
  -- client
  | postC0C1
  | waitS0S1
  | postC2
  | waitS2
  | doning
  | done
  deriving DecidableEq, Repr

structure RtmpHandShake where
  isClient : Bool := false
  isComplexHandshake : Bool := true
  digest : Bytes := []
  c1s1 : Bytes := []
  c2s2 : Bytes := []
  state : RtmpHandShakeState := .init
  deriving DecidableEq, Repr

/-- A packet that the handshake sends. -/
inductive HandShakePacket where
  | c1s1
  | c2s2
  deriving DecidableEq, Repr

namespace RtmpHandShake

def isDone (hs : RtmpHandShake) : Bool := hs.state = .done

def sendC1S1 (hs : RtmpHandShake) : HandShakePacket × Bytes := (.c1s1, hs.c1s1)

def sendC2S2 (hs : RtmpHandShake) : HandShakePacket × Bytes := (.c2s2, hs.c2s2)

/-! ## Packets -/

def createC1S1 (env : HandShakeEnv) (hs : RtmpHandShake) : RtmpHandShake :=
  let c1s1 := Bytes.overwrite env.randomC1S1 0 [0x03]
  let c1s1 := c1s1.overwrite 1 [0, 0, 0, 0]
  if ¬ hs.isComplexHandshake then { hs with c1s1 := c1s1.overwrite 5 [0, 0, 0, 0] }
  else
    let offset := getDigestOffset (c1s1.drop 1) 8 728
    let key := if hs.isClient then rtmpPlayerKey else rtmpServerKey
    let keyLen := if hs.isClient then PLAYER_KEY_OPEN_PART_LEN else SERVER_KEY_OPEN_PART_LEN
    let c1s1 := c1s1.overwrite 5 (key.take 4)
    let data := calculateDigest env (c1s1.drop 1) kRtmpHandShakePacketSize offset key keyLen
    { hs with c1s1 := c1s1.overwrite (1 + offset) data, digest := data }

/-- The result is negative if the packet is refused. -/
def checkC1S1 (env : HandShakeEnv) (hs : RtmpHandShake) (data : Bytes) : Int × RtmpHandShake :=
  if data.length ≠ kRtmpHandShakePacketSize + 1 then (-1, hs)
  else if data.at 0 ≠ 0x03 then (-1, hs)
  else if readUint32BE (data.drop 5) = 0 then (0, { hs with isComplexHandshake := false })
  else
    let handshake := data.drop 1
    let key := if hs.isClient then rtmpServerKey else rtmpPlayerKey
    let keyLen := if hs.isClient then SERVER_KEY_OPEN_PART_LEN else PLAYER_KEY_OPEN_PART_LEN
    let offset := getDigestOffset handshake 8 728
    if verifyDigest env handshake offset key keyLen then (offset, hs)
    else
      let offset := getDigestOffset handshake 772 728
      if verifyDigest env handshake offset key keyLen then (offset, hs)
      else (0, { hs with isComplexHandshake := false })

def createC2S2 (env : HandShakeEnv) (hs : RtmpHandShake) (data : Bytes) (offset : Nat) :
    RtmpHandShake :=
  let c2s2 := Bytes.overwrite env.randomC2S2 0 (data.take 8)
  let c2s2 := c2s2.overwrite 0 (writeUint32BE env.now)
  if hs.isComplexHandshake then
    let key := if hs.isClient then rtmpPlayerKey else rtmpServerKey
    let digest := calculateDigest env (data.drop offset) SHA256_DIGEST_LENGTH 0 key key.length
    let mac := calculateDigest env c2s2 (kRtmpHandShakePacketSize - SHA256_DIGEST_LENGTH) 0
      digest SHA256_DIGEST_LENGTH
    { hs with c2s2 := c2s2.overwrite (kRtmpHandShakePacketSize - SHA256_DIGEST_LENGTH) mac }
  else { hs with c2s2 := c2s2 }

def checkC2S2 (_data : Bytes) : Bool := true

def start (env : HandShakeEnv) (hs : RtmpHandShake) :
    RtmpHandShake × List (HandShakePacket × Bytes) :=
  let hs := hs.createC1S1 env
  if hs.isClient then ({ hs with state := .postC0C1 }, [hs.sendC1S1])
  else ({ hs with state := .waitC0C1 }, [])

/-! ## The state machine -/

/-- What a call of `HandShake` returns and does: its value, the handshake after
it, the number of bytes that it retrieves from the buffer, and what it sends. -/
structure Result where
  ret : Int
  handShake : RtmpHandShake
  retrieved : Nat := 0
  sends : List (HandShakePacket × Bytes) := []

/-- `HandShake`, called when bytes have arrived. -/
def handShake (env : HandShakeEnv) (hs : RtmpHandShake) (buf : Bytes) : Result :=
  match hs.state with
  | .waitC0C1 =>
    if buf.length < kRtmpHandShakePacketSize + 1 then { ret := 1, handShake := hs }
    else
      let (offset, hs) := hs.checkC1S1 env (buf.take (kRtmpHandShakePacketSize + 1))
      if offset ≥ 0 then
        let hs := hs.createC2S2 env (buf.drop 1) offset.toNat
        let hs := { hs with state := .postS0S1 }
        { ret := 1, handShake := hs, retrieved := kRtmpHandShakePacketSize + 1,
          sends := [hs.sendC1S1] }
      else { ret := -1, handShake := hs }
  | .waitC2 =>
    if buf.length < kRtmpHandShakePacketSize then { ret := 1, handShake := hs }
    else if checkC2S2 (buf.take kRtmpHandShakePacketSize) then
      { ret := 0, handShake := { hs with state := .done }, retrieved := kRtmpHandShakePacketSize }
    else { ret := -1, handShake := hs }
  | .waitS0S1 =>
    if buf.length < kRtmpHandShakePacketSize + 1 then { ret := 1, handShake := hs }
    else
      let (offset, hs) := hs.checkC1S1 env (buf.take (kRtmpHandShakePacketSize + 1))
      if offset ≥ 0 then
        let hs := hs.createC2S2 env (buf.drop 1) offset.toNat
        if buf.length - (kRtmpHandShakePacketSize + 1) ≥ kRtmpHandShakePacketSize then
          let hs := { hs with state := .doning }
          { ret := 0, handShake := hs,
            retrieved := kRtmpHandShakePacketSize + 1 + kRtmpHandShakePacketSize,
            sends := [hs.sendC2S2] }
        else
          -- C2 is not sent in this branch
          { ret := 1, handShake := { hs with state := .postC2 },
            retrieved := kRtmpHandShakePacketSize + 1 }
      else { ret := -1, handShake := hs }
  | .waitS2 =>
    if buf.length < kRtmpHandShakePacketSize then { ret := 1, handShake := hs }
    else
      { ret := 0, handShake := { hs with state := .done }, retrieved := kRtmpHandShakePacketSize }
  | _ => { ret := 1, handShake := hs }

/-- `WriteComplete`, called when everything sent has been written. -/
def writeComplete (hs : RtmpHandShake) : RtmpHandShake × List (HandShakePacket × Bytes) :=
  match hs.state with
  | .postS0S1 =>
    let hs := { hs with state := .postS2 }
    (hs, [hs.sendC2S2])
  | .postS2 => ({ hs with state := .waitC2 }, [])
  | .postC0C1 => ({ hs with state := .waitS0S1 }, [])
  | .postC2 => ({ hs with state := .waitS2 }, [])
  | .doning => ({ hs with state := .done }, [])
  | _ => (hs, [])

end RtmpHandShake

/-! ## The packets have their sizes -/

theorem getDigestOffset_lt (buf : Bytes) (off : Nat) {modVal : Nat} (h : 0 < modVal) :
    getDigestOffset buf off modVal < modVal + (off + 4) :=
  Nat.add_lt_add_right (Nat.mod_lt _ h) _

namespace RtmpHandShake

/-- Every copy into the packet stays inside it. -/
theorem length_createC1S1 (env : HandShakeEnv) (hs : RtmpHandShake) :
    (hs.createC1S1 env).c1s1.length = kRtmpHandShakePacketSize + 1 := by
  have hrandom := env.randomC1S1.property
  simp only [kRtmpHandShakePacketSize] at hrandom
  have h0 : (Bytes.overwrite env.randomC1S1 0 [0x03]).length = 1537 := by
    rw [Bytes.length_overwrite _ _ _ (by simp [hrandom]), hrandom]
  have h1 : (Bytes.overwrite (Bytes.overwrite env.randomC1S1 0 [0x03]) 1
      [0, 0, 0, 0]).length = 1537 := by
    rw [Bytes.length_overwrite _ _ _ (by simp [h0]), h0]
  unfold createC1S1
  simp only
  split
  · rw [Bytes.length_overwrite _ _ _ (by simp [h1]), h1]
    rfl
  · have hkey : ((if hs.isClient then rtmpPlayerKey else rtmpServerKey).take 4).length = 4 := by
      cases hs.isClient <;> rfl
    have h5 := Bytes.length_overwrite
      (Bytes.overwrite (Bytes.overwrite env.randomC1S1 0 [0x03]) 1 [0, 0, 0, 0]) 5
      ((if hs.isClient then rtmpPlayerKey else rtmpServerKey).take 4) (by rw [hkey, h1]; omega)
    have hoff := getDigestOffset_lt ((Bytes.overwrite (Bytes.overwrite env.randomC1S1 0 [0x03]) 1
      [0, 0, 0, 0]).drop 1) 8 (show 0 < 728 by omega)
    rw [h1] at h5
    rw [Bytes.length_overwrite, h5]
    · rfl
    · rw [length_calculateDigest, h5, SHA256_DIGEST_LENGTH]
      omega

theorem length_createC2S2 (env : HandShakeEnv) (hs : RtmpHandShake) (data : Bytes)
    (offset : Nat) :
    (hs.createC2S2 env data offset).c2s2.length = kRtmpHandShakePacketSize := by
  have hrandom := env.randomC2S2.property
  simp only [kRtmpHandShakePacketSize] at hrandom
  have h0 : (Bytes.overwrite env.randomC2S2 0 (data.take 8)).length = 1536 := by
    rw [Bytes.length_overwrite _ _ _ (by simp [hrandom]), hrandom]
  have h1 : (Bytes.overwrite (Bytes.overwrite env.randomC2S2 0 (data.take 8)) 0
      (writeUint32BE env.now)).length = 1536 := by
    rw [Bytes.length_overwrite _ _ _ (by simp [h0, writeUint32BE]), h0]
  unfold createC2S2
  simp only
  split
  · rw [Bytes.length_overwrite, h1]
    · rfl
    · rw [length_calculateDigest, h1]
      simp [kRtmpHandShakePacketSize, SHA256_DIGEST_LENGTH]
  · exact h1

/-! ## The server's steps -/

/-- A packet that begins with the version is accepted. -/
theorem checkC1S1_nonneg (env : HandShakeEnv) (hs : RtmpHandShake) {data : Bytes}
    (h : data.length = kRtmpHandShakePacketSize + 1) (hversion : data.at 0 = 0x03) :
    0 ≤ (hs.checkC1S1 env data).1 := by
  unfold checkC1S1
  rw [if_neg (by simpa using h), if_neg (by simpa using hversion)]
  split
  · exact Int.le_refl 0
  generalize (if hs.isClient = true then rtmpServerKey else rtmpPlayerKey) = key
  generalize (if hs.isClient = true then SERVER_KEY_OPEN_PART_LEN
    else PLAYER_KEY_OPEN_PART_LEN) = keyLen
  simp only
  split
  · exact Int.natCast_nonneg _
  split
  · exact Int.natCast_nonneg _
  · exact Int.le_refl 0

/-- A packet of another version is refused, and nothing is remembered of it. -/
theorem checkC1S1_refused (env : HandShakeEnv) (hs : RtmpHandShake) {data : Bytes}
    (h : data.length = kRtmpHandShakePacketSize + 1) (hversion : data.at 0 ≠ 0x03) :
    hs.checkC1S1 env data = (-1, hs) := by
  unfold checkC1S1
  rw [if_neg (by simpa using h), if_pos hversion]

/-- The check only decides which handshake it is. -/
theorem checkC1S1_same (env : HandShakeEnv) (hs : RtmpHandShake) (data : Bytes) :
    ∃ complex, (hs.checkC1S1 env data).2 = { hs with isComplexHandshake := complex } := by
  unfold checkC1S1
  split
  · exact ⟨hs.isComplexHandshake, rfl⟩
  split
  · exact ⟨hs.isComplexHandshake, rfl⟩
  split
  · exact ⟨false, rfl⟩
  generalize (if hs.isClient = true then rtmpServerKey else rtmpPlayerKey) = key
  generalize (if hs.isClient = true then SERVER_KEY_OPEN_PART_LEN
    else PLAYER_KEY_OPEN_PART_LEN) = keyLen
  simp only
  split
  · exact ⟨hs.isComplexHandshake, rfl⟩
  split
  · exact ⟨hs.isComplexHandshake, rfl⟩
  · exact ⟨false, rfl⟩

/-- The digest that is found lies inside the packet. -/
theorem checkC1S1_le (env : HandShakeEnv) (hs : RtmpHandShake) (data : Bytes) :
    (hs.checkC1S1 env data).1 ≤ 1503 := by
  have hfirst := getDigestOffset_lt (data.drop 1) 8 (show 0 < 728 by omega)
  have hsecond := getDigestOffset_lt (data.drop 1) 772 (show 0 < 728 by omega)
  unfold checkC1S1
  split
  · show (-1 : Int) ≤ 1503
    decide
  split
  · show (-1 : Int) ≤ 1503
    decide
  split
  · show (0 : Int) ≤ 1503
    decide
  generalize (if hs.isClient = true then rtmpServerKey else rtmpPlayerKey) = key
  generalize (if hs.isClient = true then SERVER_KEY_OPEN_PART_LEN
    else PLAYER_KEY_OPEN_PART_LEN) = keyLen
  simp only
  split
  · simp only
    omega
  split
  · simp only
    omega
  · show (0 : Int) ≤ 1503
    decide

theorem createC2S2_same (env : HandShakeEnv) (hs : RtmpHandShake) (data : Bytes) (offset : Nat) :
    ∃ c2s2, hs.createC2S2 env data offset = { hs with c2s2 := c2s2 } := by
  unfold createC2S2
  simp only
  split
  · exact ⟨_, rfl⟩
  · exact ⟨_, rfl⟩

/-- `CreateC2S2` reads the time and the digest of the packet, and nothing behind
it. -/
theorem createC2S2_take (env : HandShakeEnv) (hs : RtmpHandShake) (data : Bytes) {offset n : Nat}
    (h8 : 8 ≤ n) (hoffset : offset + SHA256_DIGEST_LENGTH ≤ n) :
    hs.createC2S2 env (data.take n) offset = hs.createC2S2 env data offset := by
  have hdigest : ((data.take n).drop offset).take SHA256_DIGEST_LENGTH =
      (data.drop offset).take SHA256_DIGEST_LENGTH := by
    rw [List.drop_take, List.take_take, Nat.min_eq_left (by omega)]
  simp only [createC2S2, List.take_take, Nat.min_eq_left h8, calculateDigest, hdigest, if_true]

/-- The packet that answers the first packet of the peer. -/
def c2s2For (env : HandShakeEnv) (hs : RtmpHandShake) (c1s1 : Bytes) : Bytes :=
  let (offset, hs) := hs.checkC1S1 env c1s1
  (hs.createC2S2 env (c1s1.drop 1) offset.toNat).c2s2

theorem length_c2s2For (env : HandShakeEnv) (hs : RtmpHandShake) (c1s1 : Bytes) :
    (hs.c2s2For env c1s1).length = kRtmpHandShakePacketSize :=
  length_createC2S2 env _ _ _

/-- The packet at the front of the buffer is accepted and answered. What lies
behind it in the buffer is not read. -/
theorem createC2S2_accepted (env : HandShakeEnv) (hs : RtmpHandShake) {buf : Bytes}
    (hlen : 1537 ≤ buf.length) (hversion : buf.at 0 = 0x03) :
    0 ≤ (hs.checkC1S1 env (buf.take (kRtmpHandShakePacketSize + 1))).1 ∧
      ∃ complex, (hs.checkC1S1 env (buf.take (kRtmpHandShakePacketSize + 1))).2.createC2S2 env
          (buf.drop 1) (hs.checkC1S1 env (buf.take (kRtmpHandShakePacketSize + 1))).1.toNat =
        { hs with isComplexHandshake := complex, c2s2 := hs.c2s2For env (buf.take 1537) } := by
  have htake : (buf.take (kRtmpHandShakePacketSize + 1)).length =
      kRtmpHandShakePacketSize + 1 := by
    simp only [List.length_take, kRtmpHandShakePacketSize]
    omega
  have hat : Bytes.at (buf.take (kRtmpHandShakePacketSize + 1)) 0 = buf.at 0 := by
    simp [Bytes.at, kRtmpHandShakePacketSize]
  have hle := checkC1S1_le env hs (buf.take (kRtmpHandShakePacketSize + 1))
  obtain ⟨complex, hcheck⟩ := checkC1S1_same env hs (buf.take (kRtmpHandShakePacketSize + 1))
  have hpacket : (buf.take (kRtmpHandShakePacketSize + 1)).drop 1 =
      (buf.drop 1).take kRtmpHandShakePacketSize := by
    rw [List.drop_take, Nat.add_sub_cancel]
  have hc2s2 : hs.c2s2For env (buf.take (kRtmpHandShakePacketSize + 1)) =
      (createC2S2 env { hs with isComplexHandshake := complex } (buf.drop 1)
        (hs.checkC1S1 env (buf.take (kRtmpHandShakePacketSize + 1))).1.toNat).c2s2 := by
    simp only [c2s2For, hcheck, hpacket]
    refine congrArg _ (createC2S2_take env _ _ (by decide) ?_)
    simp only [kRtmpHandShakePacketSize, SHA256_DIGEST_LENGTH] at hle ⊢
    omega
  obtain ⟨c2s2, hcreate⟩ := createC2S2_same env { hs with isComplexHandshake := complex }
    (buf.drop 1) (hs.checkC1S1 env (buf.take (kRtmpHandShakePacketSize + 1))).1.toNat
  have hfor : hs.c2s2For env (buf.take 1537) = c2s2 := by
    rw [hcreate] at hc2s2
    exact hc2s2
  refine ⟨checkC1S1_nonneg env hs htake (hat.trans hversion), complex, ?_⟩
  rw [hcheck, hcreate, hfor]

/-- A packet of another version at the front of the buffer is refused. -/
theorem checkC1S1_take_refused (env : HandShakeEnv) (hs : RtmpHandShake) {buf : Bytes}
    (hlen : 1537 ≤ buf.length) (hversion : buf.at 0 ≠ 0x03) :
    hs.checkC1S1 env (buf.take (kRtmpHandShakePacketSize + 1)) = (-1, hs) := by
  have htake : (buf.take (kRtmpHandShakePacketSize + 1)).length =
      kRtmpHandShakePacketSize + 1 := by
    simp only [List.length_take, kRtmpHandShakePacketSize]
    omega
  refine checkC1S1_refused env hs htake ?_
  simpa [Bytes.at, kRtmpHandShakePacketSize] using hversion

/-- What `HandShake` can do in `waitC0C1`. -/
inductive WaitC0C1 (env : HandShakeEnv) (hs : RtmpHandShake) (buf : Bytes) : Result → Prop where
  | short (h : buf.length < 1537) : WaitC0C1 env hs buf { ret := 1, handShake := hs }
  | accepted (hs' : RtmpHandShake) (h : 1537 ≤ buf.length) (hversion : buf.at 0 = 0x03)
      (hstate : hs'.state = .postS0S1) (hc2s2 : hs'.c2s2 = hs.c2s2For env (buf.take 1537)) :
      WaitC0C1 env hs buf
        { ret := 1, handShake := hs', retrieved := 1537, sends := [(.c1s1, hs.c1s1)] }
  | refused (h : 1537 ≤ buf.length) (hversion : buf.at 0 ≠ 0x03) :
      WaitC0C1 env hs buf { ret := -1, handShake := hs }

theorem handShake_waitC0C1 (env : HandShakeEnv) {hs : RtmpHandShake} (h : hs.state = .waitC0C1)
    (buf : Bytes) : WaitC0C1 env hs buf (hs.handShake env buf) := by
  unfold handShake
  simp only [h]
  split
  · rename_i hlen
    exact .short hlen
  rename_i hlen
  simp only [kRtmpHandShakePacketSize, Nat.not_lt] at hlen
  by_cases hversion : buf.at 0 = 0x03
  · obtain ⟨hok, complex, hcreate⟩ := createC2S2_accepted env hs hlen hversion
    simp only [if_pos hok, hcreate, sendC1S1]
    exact .accepted _ hlen hversion rfl rfl
  · rw [checkC1S1_take_refused env hs hlen hversion]
    exact .refused hlen hversion

/-- What `HandShake` can do in `waitC2`. -/
theorem handShake_waitC2 (env : HandShakeEnv) {hs : RtmpHandShake} (h : hs.state = .waitC2)
    (buf : Bytes) :
    hs.handShake env buf =
      if buf.length < 1536 then { ret := 1, handShake := hs }
      else { ret := 0, handShake := { hs with state := .done }, retrieved := 1536 } := by
  simp [handShake, h, checkC2S2, kRtmpHandShakePacketSize]

/-! ## The client's steps -/

/-- What `HandShake` can do in `waitS0S1`. -/
inductive WaitS0S1 (env : HandShakeEnv) (hs : RtmpHandShake) (buf : Bytes) : Result → Prop where
  | short (h : buf.length < 1537) : WaitS0S1 env hs buf { ret := 1, handShake := hs }
  /-- S2 is there as well. -/
  | both (hs' : RtmpHandShake) (h : 3073 ≤ buf.length) (hversion : buf.at 0 = 0x03)
      (hstate : hs'.state = .doning) :
      WaitS0S1 env hs buf
        { ret := 0, handShake := hs', retrieved := 3073,
          sends := [(.c2s2, hs.c2s2For env (buf.take 1537))] }
  /-- S2 is not there, and C2 is not sent. -/
  | first (hs' : RtmpHandShake) (h : 1537 ≤ buf.length) (hshort : buf.length < 3073)
      (hversion : buf.at 0 = 0x03) (hstate : hs'.state = .postC2) :
      WaitS0S1 env hs buf { ret := 1, handShake := hs', retrieved := 1537 }
  | refused (h : 1537 ≤ buf.length) (hversion : buf.at 0 ≠ 0x03) :
      WaitS0S1 env hs buf { ret := -1, handShake := hs }

theorem handShake_waitS0S1 (env : HandShakeEnv) {hs : RtmpHandShake} (h : hs.state = .waitS0S1)
    (buf : Bytes) : WaitS0S1 env hs buf (hs.handShake env buf) := by
  unfold handShake
  simp only [h]
  split
  · rename_i hlen
    exact .short hlen
  rename_i hlen
  simp only [kRtmpHandShakePacketSize, Nat.not_lt] at hlen
  by_cases hversion : buf.at 0 = 0x03
  · obtain ⟨hok, complex, hcreate⟩ := createC2S2_accepted env hs hlen hversion
    simp only [if_pos hok, hcreate, sendC2S2]
    split
    · rename_i hboth
      simp only [kRtmpHandShakePacketSize] at hboth
      exact .both _ (by omega) hversion rfl
    · rename_i hfirst
      simp only [kRtmpHandShakePacketSize] at hfirst
      exact .first _ hlen (by omega) hversion rfl
  · rw [checkC1S1_take_refused env hs hlen hversion]
    exact .refused hlen hversion

/-- `HandShake` does nothing while a packet is being written. -/
theorem handShake_post (env : HandShakeEnv) {hs : RtmpHandShake}
    (h : hs.state = .postS0S1 ∨ hs.state = .postS2) (buf : Bytes) :
    hs.handShake env buf = { ret := 1, handShake := hs } := by
  rcases h with h | h <;> simp [handShake, h]

end RtmpHandShake
