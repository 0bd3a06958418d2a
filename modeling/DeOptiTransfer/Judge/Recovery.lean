import DeOptiTransfer.Judge.Commitment

/-!
# Recovery by the judge

What the judge recovers, when X25519 agrees and the cipher opens exactly what it
has sealed. Hashes and key derivation are arbitrary functions.

* `judgeRecover_ok`: a transcript is opened exactly when it carries the message;
* `judge_recovery`: this, what follows for a committed message, and what two
  openings of one commitment amount to.
-/

namespace DeOptiTransfer

/-- Both sides of a key agreement get the same shared secret. -/
def X25519.Agrees (x25519 : X25519) : Prop :=
  ∀ a b, x25519.diffieHellman a (x25519.publicKey b) = x25519.diffieHellman b (x25519.publicKey a)

/-- Decryption accepts exactly the ciphertexts of the message. -/
structure Aead.Exact (aead : Aead) : Prop where
  decrypt_iff : ∀ k n c a m, aead.decrypt k n c a = some m ↔ aead.encrypt k n m a = some c
  addsTag : aead.AddsTag

namespace Jrc

section
variable (lib : JudgeCrates) (dk : JudgeSecretKey)

/-- The shared secret of the judge with an ephemeral key. -/
def sharedWith (ePk : FixedBytes 32) : FixedBytes 32 := lib.x25519.diffieHellman dk.key ePk

/-- The two keys the judge derives for a transcript, for the cipher and for the
commitment. -/
def judgeKeys (ePk : FixedBytes 32) (r : Nonce) : FixedBytes 32 × FixedBytes 32 :=
  deriveKeys lib (sharedWith lib dk ePk) ePk (lib.x25519.publicKey dk.key) r

/-- `aux` is an encryption of `m` for the judge, bound to the commitment `c` of `m`. -/
structure Carries (c : FixedBytes COMMIT_LEN) (aux m : List UInt8) (ePk : FixedBytes 32)
    (r : Nonce) : Prop where
  contributory : lib.x25519.wasContributory (sharedWith lib dk ePk) = true
  aux_eq : ∃ ct, lib.aead.encrypt (judgeKeys lib dk ePk r).1 r m c.bytes = some ct ∧
    aux = ePk.bytes ++ r.bytes ++ ct
  commitment_eq : c = lib.blake3.keyedHash (judgeKeys lib dk ePk r).2 m

end

section
variable {lib : JudgeCrates} {dk : JudgeSecretKey} {c : FixedBytes COMMIT_LEN}
  {aux m : List UInt8}

/-- The three parts of recovery data that is long enough. -/
theorem exists_parts (min : EPHEMERAL_PK_LEN + NONCE_LEN + TAG_LEN ≤ aux.length) :
    ∃ (ePk : FixedBytes 32) (r : Nonce) (ct : List UInt8), aux = ePk.bytes ++ r.bytes ++ ct ∧
      TAG_LEN ≤ ct.length := by
  simp only [EPHEMERAL_PK_LEN, NONCE_LEN, TAG_LEN] at min
  have key : 32 ≤ aux.length := by omega
  obtain ⟨ePk, rest, rfl⟩ := FixedBytes.exists_append key
  rw [List.length_append, FixedBytes.length_bytes] at min
  have nonce : NONCE_LEN ≤ rest.length := by
    rw [NONCE_LEN]
    omega
  obtain ⟨r, ct, rfl⟩ := FixedBytes.exists_append nonce
  rw [List.length_append, FixedBytes.length_bytes, NONCE_LEN] at min
  refine ⟨ePk, r, ct, by rw [List.append_assoc], ?_⟩
  rw [TAG_LEN]
  omega

/-- What the judge does with the three parts. -/
theorem judgeRecover_append (ePk : FixedBytes 32) (r : Nonce) {ct : List UInt8}
    (min : TAG_LEN ≤ ct.length) :
    judgeRecover lib dk c (ePk.bytes ++ r.bytes ++ ct) = .ok (
      if ¬ lib.x25519.wasContributory (sharedWith lib dk ePk) then .error .invalidKey
      else
        match decrypt lib.aead (judgeKeys lib dk ePk r).1 r ct c.bytes with
        | .error e => .error e
        | .ok m =>
          if commitValue lib (judgeKeys lib dk ePk r).2 m ≠ c then .error .crypto else .ok m) := by
  have len : ¬ (ePk.bytes ++ r.bytes ++ ct).length < EPHEMERAL_PK_LEN + NONCE_LEN + TAG_LEN := by
    simp only [List.length_append, FixedBytes.length_bytes, EPHEMERAL_PK_LEN]
    omega
  have first : splitAtMut (ePk.bytes ++ r.bytes ++ ct) EPHEMERAL_PK_LEN =
      .ok (ePk.bytes, r.bytes ++ ct) := by
    rw [List.append_assoc]
    exact splitAtMut_append ePk.length_eq
  have second : splitAtMut (r.bytes ++ ct) NONCE_LEN = .ok (r.bytes, ct) :=
    splitAtMut_append r.length_eq
  rw [judgeRecover, if_neg len, first, exec_ok_bind]
  simp only [second, exec_ok_bind, FixedBytes.ofList_bytes]
  by_cases contributory : lib.x25519.wasContributory (sharedWith lib dk ePk) = true
  · rw [sharedWith] at contributory
    simp only [sharedWith, judgeKeys, contributory, not_true_eq_false, ↓reduceIte]
    cases decrypt lib.aead _ r ct c.bytes with
    | error e => rfl
    | ok m =>
      dsimp only
      exact (apply_ite Except.ok _ _ _).symm
  · rw [if_pos contributory]
    exact if_pos contributory

/-- Recovery never panics. -/
theorem judgeRecover_returns (lib : JudgeCrates) (dk : JudgeSecretKey) (c : FixedBytes COMMIT_LEN)
    (aux : List UInt8) : ∃ result, judgeRecover lib dk c aux = .ok result := by
  by_cases min : aux.length < EPHEMERAL_PK_LEN + NONCE_LEN + TAG_LEN
  · exact ⟨_, if_pos min⟩
  · obtain ⟨ePk, r, ct, rfl, tag⟩ := exists_parts (Nat.le_of_not_lt min)
    exact ⟨_, judgeRecover_append ePk r tag⟩

/-- Recovery is exact: the judge gets `m` exactly when the transcript carries
it. -/
theorem judgeRecover_ok (exact : lib.aead.Exact) :
    judgeRecover lib dk c aux = .ok (.ok m) ↔ ∃ ePk r, Carries lib dk c aux m ePk r := by
  constructor
  · intro recovered
    by_cases min : aux.length < EPHEMERAL_PK_LEN + NONCE_LEN + TAG_LEN
    · rw [judgeRecover, if_pos min] at recovered
      cases recovered
    obtain ⟨ePk, r, ct, rfl, tag⟩ := exists_parts (Nat.le_of_not_lt min)
    rw [judgeRecover_append ePk r tag] at recovered
    have recovered := Except.ok.inj recovered
    by_cases contributory : lib.x25519.wasContributory (sharedWith lib dk ePk) = true
    · rw [if_neg (not_not_intro contributory)] at recovered
      cases opened : decrypt lib.aead (judgeKeys lib dk ePk r).1 r ct c.bytes with
      | error e =>
        rw [opened] at recovered
        cases recovered
      | ok found =>
        rw [opened] at recovered
        dsimp only at recovered
        by_cases same : commitValue lib (judgeKeys lib dk ePk r).2 found = c
        · rw [if_neg (not_not_intro same)] at recovered
          cases recovered
          refine ⟨ePk, r, contributory, ⟨ct, ?_, rfl⟩, same.symm⟩
          exact (exact.decrypt_iff _ _ _ _ _).mp (decrypt_ok.mp opened)
        · rw [if_pos same] at recovered
          cases recovered
    · rw [if_pos contributory] at recovered
      cases recovered
  · rintro ⟨ePk, r, contributory, ⟨ct, sealed, rfl⟩, same⟩
    have tag : TAG_LEN ≤ ct.length := by
      rw [exact.addsTag _ _ _ _ _ sealed]
      exact Nat.le_add_left _ _
    have opened := decrypt_ok.mpr ((exact.decrypt_iff _ _ _ _ _).mpr sealed)
    rw [judgeRecover_append ePk r tag, if_neg (not_not_intro contributory), opened]
    dsimp only
    rw [commitValue, if_neg (not_not_intro same.symm)]

end

section
variable {lib : JudgeCrates} {dk : JudgeSecretKey} {m : List UInt8} {r : Nonce}
  {eSk : FixedBytes 32} {p : JrcCommitment}

/-- What a commitment to `m` for the judge consists of. -/
theorem carries_of_commit (agrees : lib.x25519.Agrees)
    (h : commitWithEphemeral lib (dk.toPublic lib) m r eSk = .ok p) :
    Carries lib dk p.commitment p.aux m (lib.x25519.publicKey eSk) r ∧
      m.length ≤ MAX_MESSAGE_LEN := by
  have shared_eq : lib.x25519.diffieHellman eSk (lib.x25519.publicKey dk.key) =
      sharedWith lib dk (lib.x25519.publicKey eSk) := agrees eSk dk.key
  unfold commitWithEphemeral checkMessageLen at h
  by_cases large : m.length > MAX_MESSAGE_LEN
  · rw [if_pos large] at h
    cases h
  rw [if_neg large] at h
  simp only [JudgeSecretKey.toPublic, shared_eq] at h
  by_cases contributory :
      lib.x25519.wasContributory (sharedWith lib dk (lib.x25519.publicKey eSk)) = true
  · rw [if_neg (not_not_intro contributory)] at h
    split at h
    · cases h
    · rename_i ct sealed
      cases h
      refine ⟨⟨contributory, ⟨ct, encrypt_ok.mp sealed, rfl⟩, rfl⟩, Nat.le_of_not_lt large⟩
  · rw [if_pos contributory] at h
    cases h

/-- A commitment to a message of admitted length passes the format check. -/
theorem verifyExt_of_commit (agrees : lib.x25519.Agrees) (exact : lib.aead.Exact)
    (h : commitWithEphemeral lib (dk.toPublic lib) m r eSk = .ok p) :
    verifyExt p.commitment p.aux = true := by
  obtain ⟨carries, le⟩ := carries_of_commit agrees h
  obtain ⟨ct, sealed, aux_eq⟩ := carries.aux_eq
  have room : MAX_MESSAGE_LEN + ENVELOPE_OVERHEAD = MAX_STREAM_BYTES := by decide
  have overhead : ENVELOPE_OVERHEAD = 108 := rfl
  have len : p.transmittedLen = m.length + ENVELOPE_OVERHEAD := by
    rw [JrcCommitment.transmittedLen_eq, aux_eq, overhead]
    simp only [List.length_append, FixedBytes.length_bytes, exact.addsTag _ _ _ _ _ sealed,
      NONCE_LEN, TAG_LEN]
    omega
  rw [JrcCommitment.verifyExt_iff, len]
  omega

theorem commitWithProverOpening_ok {random : Option (FixedBytes 32)} {ek : JudgePublicKey}
    {opening : JrcProverOpening}
    (h : commitWithProverOpening lib random ek m r = .ok (p, opening)) :
    commitWithEphemeral lib ek m r opening.ephemeralSecret = .ok p ∧ opening.nonce = r := by
  unfold commitWithProverOpening at h
  split at h
  · cases h
  · split at h
    · cases h
    · split at h
      · cases h
      · rename_i committed
        cases h
        exact ⟨committed, rfl⟩

/-- A call that draws `eSk` commits with it. -/
theorem commitWithProverOpening_some (lib : JudgeCrates) (eSk : FixedBytes 32) (ek : JudgePublicKey)
    (m : List UInt8) (r : Nonce) :
    commitWithProverOpening lib (some eSk) ek m r =
      (commitWithEphemeral lib ek m r eSk).map fun p => (p, ⟨eSk, r⟩) := by
  cases checked : checkMessageLen m.length with
  | error e => simp only [commitWithProverOpening, commitWithEphemeral, checked, Except.map]
  | ok _ =>
    simp only [commitWithProverOpening, checked]
    cases commitWithEphemeral lib ek m r eSk with
    | error e => rfl
    | ok p => rfl

end

/-- The judge recovers `m` exactly when the transcript carries it, so every
commitment is opened to its message, and the keyed hash is the same for any two
openings of one commitment: a collision when the messages differ. -/
theorem judge_recovery (lib : JudgeCrates) (agrees : lib.x25519.Agrees) (exact : lib.aead.Exact)
    (dk : JudgeSecretKey) :
    (∀ c aux m, judgeRecover lib dk c aux = .ok (.ok m) ↔ ∃ ePk r, Carries lib dk c aux m ePk r) ∧
    (∀ m r eSk p, commitWithEphemeral lib (dk.toPublic lib) m r eSk = .ok p →
      judgeRecover lib dk p.commitment p.aux = .ok (.ok m)) ∧
    ∀ c aux₀ aux₁ m₀ m₁, judgeRecover lib dk c aux₀ = .ok (.ok m₀) →
      judgeRecover lib dk c aux₁ = .ok (.ok m₁) →
      ∃ ePk₀ r₀ ePk₁ r₁, Carries lib dk c aux₀ m₀ ePk₀ r₀ ∧ Carries lib dk c aux₁ m₁ ePk₁ r₁ ∧
        lib.blake3.keyedHash (judgeKeys lib dk ePk₀ r₀).2 m₀ =
          lib.blake3.keyedHash (judgeKeys lib dk ePk₁ r₁).2 m₁ := by
  refine ⟨?_, ?_, ?_⟩
  · intro c aux m
    exact judgeRecover_ok exact
  · intro m r eSk p committed
    exact (judgeRecover_ok exact).mpr ⟨_, r, (carries_of_commit agrees committed).1⟩
  · intro c aux₀ aux₁ m₀ m₁ first second
    obtain ⟨ePk₀, r₀, carries₀⟩ := (judgeRecover_ok exact).mp first
    obtain ⟨ePk₁, r₁, carries₁⟩ := (judgeRecover_ok exact).mp second
    exact ⟨ePk₀, r₀, ePk₁, r₁, carries₀, carries₁,
      carries₀.commitment_eq.symm.trans carries₁.commitment_eq⟩

/-! ## The golden envelope

The transcript that the source pins in a test, with the values the other crates
compute on the way to it. -/

def goldenJudge : JudgeSecretKey := ⟨⟨List.replicate 32 0x13, rfl⟩⟩

def goldenEphemeral : FixedBytes 32 := ⟨List.replicate 32 0x77, rfl⟩

/-- `b"jrc golden vector"` -/
def goldenMessage : List UInt8 :=
  [0x6a, 0x72, 0x63, 0x20, 0x67, 0x6f, 0x6c, 0x64, 0x65, 0x6e, 0x20, 0x76, 0x65, 0x63, 0x74,
    0x6f, 0x72]

def goldenNonce : FixedBytes 24 :=
  ⟨[0x42, 0xe0, 0x7e, 0x1c, 0xba, 0x58, 0xf6, 0x94, 0x32, 0xd0, 0x6e, 0x0c, 0xaa, 0x48, 0xe6,
    0x84, 0x22, 0xc0, 0x5e, 0xfc, 0x9a, 0x38, 0xd6, 0x74], rfl⟩

def goldenJudgeKey : FixedBytes 32 :=
  ⟨[0x19, 0x7f, 0xc2, 0xc5, 0x67, 0xdc, 0x03, 0xee, 0x2a, 0xad, 0xf0, 0xed, 0x86, 0x68, 0x1d,
    0xac, 0x24, 0xda, 0xa7, 0x6e, 0x83, 0xca, 0x55, 0x58, 0x75, 0xdd, 0x3b, 0xe7, 0x37, 0x6e,
    0x53, 0x06], rfl⟩

def goldenEphemeralKey : FixedBytes 32 :=
  ⟨[0x1c, 0xf5, 0x79, 0xab, 0xa4, 0x5a, 0x10, 0xba, 0x1d, 0x1e, 0xf0, 0x6d, 0x91, 0xfc, 0xa2,
    0xaa, 0x9e, 0xd0, 0xa1, 0x15, 0x05, 0x15, 0x65, 0x31, 0x55, 0x40, 0x5d, 0x0b, 0x18, 0xcb,
    0x9a, 0x67], rfl⟩

def goldenShared : FixedBytes 32 :=
  ⟨[0x6a, 0x60, 0xcb, 0x95, 0x1c, 0xe0, 0x42, 0xbc, 0x68, 0x34, 0x11, 0x2d, 0xf4, 0x3f, 0x6c,
    0x55, 0x15, 0x5f, 0xf1, 0x18, 0x19, 0x97, 0x47, 0x22, 0xa2, 0x48, 0x04, 0x7c, 0xeb, 0x18,
    0x70, 0x5d], rfl⟩

def goldenEncKey : FixedBytes 32 :=
  ⟨[0xdf, 0x94, 0x00, 0x41, 0xff, 0xd1, 0xc7, 0x7d, 0xc6, 0x57, 0x82, 0x51, 0x69, 0xd2, 0x6f,
    0x96, 0xc6, 0xcd, 0xc3, 0x0a, 0xf7, 0xc1, 0x2f, 0xf0, 0xcc, 0x9f, 0xf3, 0xb1, 0x60, 0x40,
    0x3e, 0x55], rfl⟩

def goldenComKey : FixedBytes 32 :=
  ⟨[0x46, 0xb1, 0xcf, 0x0a, 0xa3, 0x9c, 0xec, 0x7d, 0x09, 0xab, 0x2a, 0xaa, 0x67, 0xb2, 0xd8,
    0x69, 0x9b, 0x35, 0x11, 0xb6, 0x71, 0x66, 0x8d, 0x9f, 0x84, 0x91, 0x33, 0xd6, 0xb1, 0x22,
    0x0a, 0x07], rfl⟩

def goldenTranscript : JrcCommitment where
  commitment := ⟨[0x2a, 0xae, 0xfd, 0xa6, 0x63, 0xac, 0x8d, 0x83, 0x05, 0x80, 0x05, 0x53, 0xdb, 0x55, 0x97,
    0xcc, 0xd2, 0xb8, 0x4d, 0x1e, 0x8e, 0xa9, 0x99, 0xa4, 0xba, 0x4e, 0x0c, 0x0b, 0x70, 0x51,
    0xf3, 0xe4], rfl⟩
  aux := goldenEphemeralKey.bytes ++ goldenNonce.bytes ++ [
    0x70, 0x88, 0xc0, 0x3f, 0xcc, 0x50, 0xd2, 0x04, 0xe0, 0x44, 0xa4, 0x44, 0xa0, 0x7a, 0xd9,
    0x49, 0x33, 0x76, 0x30, 0xef, 0xb0, 0x2a, 0xb2, 0x06, 0xb2, 0x64, 0x37, 0xa6, 0xb4, 0x03,
    0x87, 0xde, 0xb3]

/-- The key agreement of two parties. -/
def agreedOnce (a b aKey bKey shared : FixedBytes 32) : X25519 where
  publicKey secret := if secret = a then aKey else if secret = b then bKey else .zero 32
  diffieHellman secret key :=
    if secret = a ∧ key = bKey ∨ secret = b ∧ key = aKey then shared else .zero 32
  wasContributory shared := shared ≠ .zero 32

theorem agreedOnce_agrees {a b aKey bKey shared : FixedBytes 32} (ne : a ≠ b)
    (keys_ne : aKey ≠ bKey) (a_ne : .zero 32 ≠ aKey) (b_ne : .zero 32 ≠ bKey) :
    (agreedOnce a b aKey bKey shared).Agrees := by
  have key_eq : ∀ s, ((agreedOnce a b aKey bKey shared).publicKey s = aKey ↔ s = a) ∧
      ((agreedOnce a b aKey bKey shared).publicKey s = bKey ↔ s = b) := by
    intro s
    simp only [agreedOnce]
    by_cases ha : s = a
    · simp [ha, keys_ne, ne]
    by_cases hb : s = b
    · simp [hb, keys_ne.symm, ne.symm]
    · simp [ha, hb, a_ne, b_ne]
  intro s t
  apply if_congr _ rfl rfl
  rw [(key_eq t).1, (key_eq t).2, (key_eq s).1, (key_eq s).2]
  tauto

/-- The cipher that has sealed one message. -/
def sealedOnce (key : EncryptionKey) (nonce : Nonce) (m a c : List UInt8) : Aead where
  encrypt k n m' a' := if k = key ∧ n = nonce ∧ a' = a ∧ m' = m then some c else none
  decrypt k n c' a' := if k = key ∧ n = nonce ∧ a' = a ∧ c' = c then some m else none

theorem sealedOnce_exact {key : EncryptionKey} {nonce : Nonce} {m a c : List UInt8}
    (tag : c.length = m.length + TAG_LEN) : (sealedOnce key nonce m a c).Exact := by
  constructor
  · intro k n c' a' m'
    simp only [sealedOnce, Option.ite_none_right_eq_some, Option.some.injEq]
    constructor
    · rintro ⟨⟨rfl, rfl, rfl, rfl⟩, rfl⟩
      exact ⟨⟨rfl, rfl, rfl, rfl⟩, rfl⟩
    · rintro ⟨⟨rfl, rfl, rfl, rfl⟩, rfl⟩
      exact ⟨⟨rfl, rfl, rfl, rfl⟩, rfl⟩
  · intro k n m' a' c' sealed
    simp only [sealedOnce, Option.ite_none_right_eq_some, Option.some.injEq] at sealed
    obtain ⟨⟨_, _, _, rfl⟩, rfl⟩ := sealed
    exact tag

/-- The other crates on the inputs of the golden envelope. -/
def goldenCrates : JudgeCrates where
  x25519 := agreedOnce goldenJudge.key goldenEphemeral goldenJudgeKey goldenEphemeralKey goldenShared
  blake3 := {
    deriveKey := fun context input =>
      if input = goldenShared.bytes ++ goldenEphemeralKey.bytes ++ goldenJudgeKey.bytes ++
          goldenNonce.bytes then
        if context = KDF_ENC_CTX then goldenEncKey
        else if context = KDF_COM_CTX then goldenComKey
        else .zero 32
      else .zero 32
    keyedHash := fun key m =>
      if key = goldenComKey ∧ m = goldenMessage then goldenTranscript.commitment else .zero 32 }
  aead := sealedOnce goldenEncKey goldenNonce goldenMessage goldenTranscript.commitment.bytes
    (goldenTranscript.aux.drop (EPHEMERAL_PK_LEN + NONCE_LEN))

theorem golden_agrees : goldenCrates.x25519.Agrees := by
  apply agreedOnce_agrees
  · decide
  · decide
  · decide
  · decide

theorem golden_exact : goldenCrates.aead.Exact := sealedOnce_exact (by decide)

theorem golden_committed :
    commitWithEphemeral goldenCrates (goldenJudge.toPublic goldenCrates) goldenMessage goldenNonce
      goldenEphemeral = .ok goldenTranscript := by
  decide +kernel

theorem judge_recovery_golden :
    judgeRecover goldenCrates goldenJudge goldenTranscript.commitment goldenTranscript.aux =
      .ok (.ok goldenMessage) :=
  (judge_recovery goldenCrates golden_agrees golden_exact goldenJudge).2.1 _ _ _ _ golden_committed

end Jrc

end DeOptiTransfer
