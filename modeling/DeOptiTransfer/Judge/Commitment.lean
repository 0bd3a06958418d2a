import DeOptiTransfer.Base.Arith
import DeOptiTransfer.Crypto
import DeOptiTransfer.Frame

/-!
# Judge-recoverable commitments

`jrc.rs` over X25519, keyed BLAKE3 and an authenticated cipher from other crates.

* `JrcCommitment.fromBytes_ok`: the byte strings that are read as a transcript;
* `JrcCommitment.fromBytes_toBytes`: the transcripts that are read back.
-/

namespace DeOptiTransfer

/-- The functions of X25519: the public key of a secret, the shared secret of a
secret and a public key, and whether a shared secret is contributory. -/
structure X25519 where
  publicKey : FixedBytes 32 → FixedBytes 32
  diffieHellman : FixedBytes 32 → FixedBytes 32 → FixedBytes 32
  wasContributory : FixedBytes 32 → Bool

/-- `blake3::derive_key` and `blake3::keyed_hash`. -/
structure KeyedBlake3 where
  deriveKey : String → List UInt8 → FixedBytes 32
  keyedHash : FixedBytes 32 → List UInt8 → FixedBytes 32

/-- What the judge's primitives take from other crates. -/
structure JudgeCrates where
  x25519 : X25519
  blake3 : KeyedBlake3
  aead : Aead

namespace Jrc

def COMMIT_LEN : Nat := 32
def EPHEMERAL_PK_LEN : Nat := 32
def ENVELOPE_OVERHEAD : Nat := 4 + COMMIT_LEN + EPHEMERAL_PK_LEN + NONCE_LEN + TAG_LEN
def MAX_MESSAGE_LEN : Nat := MAX_STREAM_BYTES - ENVELOPE_OVERHEAD
def ENVELOPE_MAGIC : FixedBytes 4 := ⟨[0x4a, 0x52, 0x43, 1], rfl⟩
def KDF_ENC_CTX : String := "deopti-transfer jrc enc v1"
def KDF_COM_CTX : String := "deopti-transfer jrc com v1"

end Jrc

open Jrc

structure JudgePublicKey where
  key : FixedBytes 32
  deriving DecidableEq, Repr

structure JudgeSecretKey where
  key : FixedBytes 32
  deriving DecidableEq, Repr

def JudgeSecretKey.toPublic (lib : JudgeCrates) (dk : JudgeSecretKey) : JudgePublicKey :=
  ⟨lib.x25519.publicKey dk.key⟩

structure JrcCommitment where
  commitment : FixedBytes COMMIT_LEN
  aux : List UInt8
  deriving DecidableEq, Repr

structure JrcProverOpening where
  ephemeralSecret : FixedBytes 32
  nonce : Nonce
  deriving DecidableEq, Repr

namespace Jrc

def checkMessageLen (messageLen : Nat) : Except Error Unit :=
  if messageLen > MAX_MESSAGE_LEN then .error (.tooLarge messageLen MAX_MESSAGE_LEN) else .ok ()

def deriveKeys (lib : JudgeCrates) (shared ePk ek : FixedBytes 32) (r : Nonce) :
    FixedBytes 32 × FixedBytes 32 :=
  let input := shared.bytes ++ ePk.bytes ++ ek.bytes ++ r.bytes
  (lib.blake3.deriveKey KDF_ENC_CTX input, lib.blake3.deriveKey KDF_COM_CTX input)

def commitValue (lib : JudgeCrates) (kCom : FixedBytes 32) (m : List UInt8) :
    FixedBytes COMMIT_LEN :=
  lib.blake3.keyedHash kCom m

def commitWithEphemeral (lib : JudgeCrates) (ek : JudgePublicKey) (m : List UInt8) (r : Nonce)
    (eSk : FixedBytes 32) : Except Error JrcCommitment :=
  match checkMessageLen m.length with
  | .error e => .error e
  | .ok () =>
    let ePk := lib.x25519.publicKey eSk
    let shared := lib.x25519.diffieHellman eSk ek.key
    if ¬ lib.x25519.wasContributory shared then .error .invalidKey
    else
      let (kEnc, kCom) := deriveKeys lib shared ePk ek.key r
      let c := commitValue lib kCom m
      match encrypt lib.aead kEnc r m c.bytes with
      | .error _ => .error .crypto
      | .ok ct => .ok { commitment := c, aux := ePk.bytes ++ r.bytes ++ ct }

/-- `random` is what the operating system gives for the ephemeral secret. -/
def commitWithProverOpening (lib : JudgeCrates) (random : Option (FixedBytes 32))
    (ek : JudgePublicKey) (m : List UInt8) (r : Nonce) :
    Except Error (JrcCommitment × JrcProverOpening) :=
  match checkMessageLen m.length with
  | .error e => .error e
  | .ok () =>
    match random with
    | none => .error .crypto
    | some eSk =>
      match commitWithEphemeral lib ek m r eSk with
      | .error e => .error e
      | .ok commitment => .ok (commitment, { ephemeralSecret := eSk, nonce := r })

def commit (lib : JudgeCrates) (random : Option (FixedBytes 32)) (ek : JudgePublicKey)
    (m : List UInt8) (r : Nonce) : Except Error JrcCommitment :=
  match commitWithProverOpening lib random ek m r with
  | .error e => .error e
  | .ok (commitment, _) => .ok commitment

def verifyExt (_c : FixedBytes COMMIT_LEN) (aux : List UInt8) : Bool :=
  aux.length ≥ EPHEMERAL_PK_LEN + NONCE_LEN + TAG_LEN ∧
    aux.length ≤ MAX_STREAM_BYTES - 4 - COMMIT_LEN

def judgeRecover (lib : JudgeCrates) (dk : JudgeSecretKey) (c : FixedBytes COMMIT_LEN)
    (aux : List UInt8) : Exec (Except Error (List UInt8)) :=
  if aux.length < EPHEMERAL_PK_LEN + NONCE_LEN + TAG_LEN then .ok (.error .truncated)
  else do
    let (ePkBytes, rest) ← splitAtMut aux EPHEMERAL_PK_LEN
    let (r, ct) ← splitAtMut rest NONCE_LEN
    match FixedBytes.ofList 32 ePkBytes, FixedBytes.ofList NONCE_LEN r with
    | some ePk, some r =>
      let ek := lib.x25519.publicKey dk.key
      let shared := lib.x25519.diffieHellman dk.key ePk
      if ¬ lib.x25519.wasContributory shared then .ok (.error .invalidKey)
      else
        let (kEnc, kCom) := deriveKeys lib shared ePk ek r
        match decrypt lib.aead kEnc r ct c.bytes with
        | .error e => .ok (.error e)
        | .ok m => if commitValue lib kCom m ≠ c then .ok (.error .crypto) else .ok (.ok m)
    | _, _ => .ok (.error .crypto)

end Jrc

namespace JrcCommitment

def transmittedLen (p : JrcCommitment) : Nat :=
  ENVELOPE_MAGIC.bytes.length + COMMIT_LEN + p.aux.length

def toBytes (p : JrcCommitment) : List UInt8 :=
  ENVELOPE_MAGIC.bytes ++ p.commitment.bytes ++ p.aux

def fromBytes (bytes : List UInt8) : Exec (Except Error JrcCommitment) :=
  if bytes.length > MAX_STREAM_BYTES then .ok (.error (.tooLarge bytes.length MAX_STREAM_BYTES))
  else if bytes.length < ENVELOPE_OVERHEAD then .ok (.error .truncated)
  else do
    let magic ← slice bytes 0 4
    if magic ≠ ENVELOPE_MAGIC.bytes then .ok (.error .badMagic)
    else
      let field ← slice bytes 4 (4 + COMMIT_LEN)
      let commitment ← FixedBytes.copyFromSlice COMMIT_LEN field
      let aux ← slice bytes (4 + COMMIT_LEN) bytes.length
      .ok (.ok { commitment, aux })

@[simp] theorem toBytes_length (p : JrcCommitment) : p.toBytes.length = p.transmittedLen := by
  simp only [toBytes, transmittedLen, List.length_append, FixedBytes.length_bytes]

theorem transmittedLen_eq (p : JrcCommitment) : p.transmittedLen = 36 + p.aux.length := by
  rw [transmittedLen, FixedBytes.length_bytes, COMMIT_LEN]

theorem verifyExt_iff (p : JrcCommitment) :
    verifyExt p.commitment p.aux = true ↔
      ENVELOPE_OVERHEAD ≤ p.transmittedLen ∧ p.transmittedLen ≤ MAX_STREAM_BYTES := by
  rw [transmittedLen_eq, verifyExt, decide_eq_true_iff]
  have room : 36 ≤ MAX_STREAM_BYTES := by decide
  simp only [EPHEMERAL_PK_LEN, NONCE_LEN, TAG_LEN, COMMIT_LEN, ENVELOPE_OVERHEAD]
  omega

/-- What is read of the three parts of an envelope. -/
theorem fromBytes_append (magic : FixedBytes 4) (commitment : FixedBytes COMMIT_LEN)
    (aux : List UInt8) (min : ENVELOPE_OVERHEAD ≤ 36 + aux.length)
    (max : 36 + aux.length ≤ MAX_STREAM_BYTES) :
    fromBytes (magic.bytes ++ commitment.bytes ++ aux) =
      .ok (if magic ≠ ENVELOPE_MAGIC then .error .badMagic else .ok { commitment, aux }) := by
  have len : (magic.bytes ++ commitment.bytes ++ aux).length = 36 + aux.length := by
    simp only [List.length_append, FixedBytes.length_bytes, COMMIT_LEN]
  have first : slice (magic.bytes ++ commitment.bytes ++ aux) 0 4 = .ok magic.bytes := by
    rw [List.append_assoc]
    show slice ([] ++ magic.bytes ++ (commitment.bytes ++ aux)) 0 4 = .ok magic.bytes
    exact slice_append rfl (by rw [FixedBytes.length_bytes])
  have field : slice (magic.bytes ++ commitment.bytes ++ aux) 4 (4 + COMMIT_LEN) =
      .ok commitment.bytes := by
    apply slice_append
    · rw [FixedBytes.length_bytes]
    · rw [FixedBytes.length_bytes]
  have last : slice (magic.bytes ++ commitment.bytes ++ aux) (4 + COMMIT_LEN)
      (36 + aux.length) = .ok aux := by
    rw [← List.append_nil (magic.bytes ++ commitment.bytes ++ aux)]
    apply slice_append
    · simp only [List.length_append, FixedBytes.length_bytes]
    · rw [COMMIT_LEN]
  rw [fromBytes, len, if_neg (by omega), if_neg (by omega), first, exec_ok_bind, field, last]
  by_cases same : magic = ENVELOPE_MAGIC
  · subst same
    rw [if_neg (not_not_intro rfl), if_neg (not_not_intro rfl), exec_ok_bind,
      FixedBytes.copyFromSlice_bytes]
    rfl
  · have differ : magic.bytes ≠ ENVELOPE_MAGIC.bytes := fun eq => same (FixedBytes.ext eq)
    rw [if_pos differ, if_pos same]

/-- The three parts of a byte string that is long enough. -/
theorem exists_parts {bytes : List UInt8} (min : ENVELOPE_OVERHEAD ≤ bytes.length) :
    ∃ (magic : FixedBytes 4) (commitment : FixedBytes COMMIT_LEN) (aux : List UInt8),
      bytes = magic.bytes ++ commitment.bytes ++ aux ∧ bytes.length = 36 + aux.length := by
  simp only [ENVELOPE_OVERHEAD, COMMIT_LEN] at min
  have four : 4 ≤ bytes.length := by omega
  obtain ⟨magic, rest, rfl⟩ := FixedBytes.exists_append four
  rw [List.length_append, FixedBytes.length_bytes] at min
  have more : COMMIT_LEN ≤ rest.length := by
    rw [COMMIT_LEN]
    omega
  obtain ⟨commitment, aux, rfl⟩ := FixedBytes.exists_append more
  refine ⟨magic, commitment, aux, by rw [List.append_assoc], ?_⟩
  simp only [List.length_append, FixedBytes.length_bytes, COMMIT_LEN]
  omega

/-- No byte string makes the reader panic. -/
theorem fromBytes_returns (bytes : List UInt8) : ∃ result, fromBytes bytes = .ok result := by
  by_cases max : bytes.length > MAX_STREAM_BYTES
  · exact ⟨_, if_pos max⟩
  by_cases min : bytes.length < ENVELOPE_OVERHEAD
  · exact ⟨_, by rw [fromBytes, if_neg max, if_pos min]⟩
  obtain ⟨magic, commitment, aux, rfl, len⟩ := exists_parts (Nat.le_of_not_lt min)
  rw [fromBytes_append magic commitment aux (by omega) (by omega)]
  exact ⟨_, rfl⟩

/-- The envelopes that are read: those of a transcript of the right format. -/
theorem fromBytes_ok {bytes : List UInt8} {p : JrcCommitment} :
    fromBytes bytes = .ok (.ok p) ↔
      p.toBytes = bytes ∧ verifyExt p.commitment p.aux = true := by
  rw [verifyExt_iff, transmittedLen_eq]
  constructor
  · intro read
    by_cases max : bytes.length > MAX_STREAM_BYTES
    · rw [fromBytes, if_pos max] at read
      cases read
    by_cases min : bytes.length < ENVELOPE_OVERHEAD
    · rw [fromBytes, if_neg max, if_pos min] at read
      cases read
    obtain ⟨magic, commitment, aux, rfl, len⟩ := exists_parts (Nat.le_of_not_lt min)
    rw [fromBytes_append magic commitment aux (by omega) (by omega)] at read
    by_cases same : magic = ENVELOPE_MAGIC
    · rw [if_neg (not_not_intro same)] at read
      cases read
      exact ⟨by rw [toBytes, same], by dsimp only; omega⟩
    · rw [if_pos same] at read
      cases read
  · rintro ⟨rfl, min, max⟩
    rw [toBytes, fromBytes_append _ _ _ min max, if_neg (not_not_intro rfl)]

end JrcCommitment

end DeOptiTransfer
