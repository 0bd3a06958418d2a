import DeOptiTransfer.Session.FileTransfer

/-!
# Transcripts that were tampered with

What a transcript that the judge opens is evidence of, over a cipher that opens
what calls of `commit` have sealed and nothing else.

* `IdealCipher.opens_committed`: the parts of such a transcript are those of a call;
* `judge_tamper_evident`: this for envelopes of files.
-/

namespace DeOptiTransfer

namespace Jrc

/-- A call of `commit`, with the ephemeral secret that it draws. -/
structure CommitCall where
  ek : JudgePublicKey
  m : List UInt8
  r : Nonce
  eSk : FixedBytes 32

namespace CommitCall

def commit (lib : JudgeCrates) (call : CommitCall) : Except Error JrcCommitment :=
  commitWithEphemeral lib call.ek call.m call.r call.eSk

def ePk (lib : JudgeCrates) (call : CommitCall) : FixedBytes 32 := lib.x25519.publicKey call.eSk

/-- What the call derives its keys from. -/
def keyInput (lib : JudgeCrates) (call : CommitCall) : List UInt8 :=
  (lib.x25519.diffieHellman call.eSk call.ek.key).bytes ++ (call.ePk lib).bytes ++
    call.ek.key.bytes ++ call.r.bytes

end CommitCall

/-- What the judge derives the keys of a transcript from. -/
def judgeInput (lib : JudgeCrates) (dk : JudgeSecretKey) (ePk : FixedBytes 32) (r : Nonce) :
    List UInt8 :=
  (sharedWith lib dk ePk).bytes ++ ePk.bytes ++ (dk.toPublic lib).key.bytes ++ r.bytes

/-- A cipher that opens what the calls have sealed, and nothing else. -/
structure IdealCipher (lib : JudgeCrates) (calls : Set CommitCall) : Prop where
  opens : ∀ key nonce ct aad m, lib.aead.decrypt key nonce ct aad = some m ↔
    ∃ call ∈ calls, ∃ p, call.commit lib = .ok p ∧
      lib.blake3.deriveKey KDF_ENC_CTX (call.keyInput lib) = key ∧ call.r = nonce ∧ call.m = m ∧
        p.commitment.bytes = aad ∧ p.aux = (call.ePk lib).bytes ++ nonce.bytes ++ ct
  overhead : lib.aead.AddsTag

/-- The key derivation takes a call and a transcript for the same. -/
structure Collides (lib : JudgeCrates) (dk : JudgeSecretKey) (aux : List UInt8) (call : CommitCall)
    (ePk : FixedBytes 32) : Prop where
  starts : ∃ ct, aux = ePk.bytes ++ call.r.bytes ++ ct
  differ : judgeInput lib dk ePk call.r ≠ call.keyInput lib
  same : lib.blake3.deriveKey KDF_ENC_CTX (judgeInput lib dk ePk call.r) =
    lib.blake3.deriveKey KDF_ENC_CTX (call.keyInput lib)

section
variable {lib : JudgeCrates} {dk : JudgeSecretKey} {calls : Set CommitCall} {call : CommitCall}
  {p : JrcCommitment} {c : FixedBytes COMMIT_LEN} {aux m : List UInt8}

theorem CommitCall.commit_ok (committed : call.commit lib = .ok p) :
    call.m.length ≤ MAX_MESSAGE_LEN ∧
      lib.x25519.wasContributory (lib.x25519.diffieHellman call.eSk call.ek.key) = true ∧
      p.commitment = lib.blake3.keyedHash
        (lib.blake3.deriveKey KDF_COM_CTX (call.keyInput lib)) call.m ∧
      ∃ ct, lib.aead.encrypt (lib.blake3.deriveKey KDF_ENC_CTX (call.keyInput lib)) call.r call.m
          p.commitment.bytes = some ct ∧
        p.aux = (call.ePk lib).bytes ++ call.r.bytes ++ ct := by
  unfold commit commitWithEphemeral checkMessageLen at committed
  by_cases large : call.m.length > MAX_MESSAGE_LEN
  · rw [if_pos large] at committed
    cases committed
  rw [if_neg large] at committed
  by_cases contributory :
      lib.x25519.wasContributory (lib.x25519.diffieHellman call.eSk call.ek.key) = true
  · simp only [contributory, not_true_eq_false, ↓reduceIte] at committed
    split at committed
    · cases committed
    · rename_i ct sealed
      cases committed
      exact ⟨Nat.le_of_not_lt large, contributory, rfl, ct, encrypt_ok.mp sealed, rfl⟩
  · simp only [contributory, Bool.false_eq_true, not_false_eq_true, ↓reduceIte] at committed
    cases committed

theorem judgeRecover_opens : judgeRecover lib dk c aux = .ok (.ok m) ↔
    ∃ ePk r ct, aux = ePk.bytes ++ r.bytes ++ ct ∧ TAG_LEN ≤ ct.length ∧
      lib.x25519.wasContributory (sharedWith lib dk ePk) = true ∧
      lib.aead.decrypt (judgeKeys lib dk ePk r).1 r ct c.bytes = some m ∧
      commitValue lib (judgeKeys lib dk ePk r).2 m = c := by
  constructor
  · intro recovered
    by_cases min : aux.length < EPHEMERAL_PK_LEN + NONCE_LEN + TAG_LEN
    · rw [judgeRecover, if_pos min] at recovered
      cases recovered
    obtain ⟨ePk, r, ct, rfl, tag⟩ := exists_parts (Nat.le_of_not_lt min)
    rw [judgeRecover_append ePk r tag] at recovered
    have recovered := Except.ok.inj recovered
    by_cases contributory : lib.x25519.wasContributory (sharedWith lib dk ePk) = true
    · rw [if_neg (not_not_intro contributory)] at recovered
      split at recovered
      · cases recovered
      · rename_i found opened
        by_cases same : commitValue lib (judgeKeys lib dk ePk r).2 found = c
        · rw [if_neg (not_not_intro same)] at recovered
          cases recovered
          exact ⟨ePk, r, ct, rfl, tag, contributory, decrypt_ok.mp opened, same⟩
        · rw [if_pos same] at recovered
          cases recovered
    · rw [if_pos contributory] at recovered
      cases recovered
  · rintro ⟨ePk, r, ct, rfl, tag, contributory, opened, same⟩
    rw [judgeRecover_append ePk r tag, if_neg (not_not_intro contributory), decrypt_ok.mpr opened]
    dsimp only
    rw [if_neg (not_not_intro same)]

theorem judgeInput_inj {ePk : FixedBytes 32}
    (same : judgeInput lib dk ePk call.r = call.keyInput lib) :
    ePk = call.ePk lib ∧ dk.toPublic lib = call.ek := by
  obtain ⟨same, _⟩ := List.append_inj' same rfl
  obtain ⟨same, key_eq⟩ := List.append_inj' same (by simp only [FixedBytes.length_bytes])
  obtain ⟨_, ePk_eq⟩ := List.append_inj' same (by simp only [FixedBytes.length_bytes])
  refine ⟨FixedBytes.ext ePk_eq, ?_⟩
  cases ek_eq : call.ek
  rw [ek_eq] at key_eq
  exact congrArg JudgePublicKey.mk (FixedBytes.ext key_eq)

/-- A transcript that the judge opens is that of a call for this judge, part by
part, unless the key derivation collides. -/
theorem IdealCipher.opens_committed (ideal : IdealCipher lib calls)
    (recovered : judgeRecover lib dk c aux = .ok (.ok m)) :
    ∃ call ∈ calls, ∃ p, call.commit lib = .ok p ∧ p.commitment = c ∧ call.m = m ∧
      (call.ek = dk.toPublic lib ∧ p.aux = aux ∨ ∃ ePk, Collides lib dk aux call ePk) := by
  obtain ⟨ePk, r, ct, rfl, _, _, opened, _⟩ := judgeRecover_opens.mp recovered
  obtain ⟨call, mem, p, committed, key_eq, rfl, m_eq, c_eq, aux_eq⟩ :=
    (ideal.opens _ _ _ _ _).mp opened
  refine ⟨call, mem, p, committed, FixedBytes.ext c_eq, m_eq, ?_⟩
  by_cases same : judgeInput lib dk ePk call.r = call.keyInput lib
  · obtain ⟨rfl, ek_eq⟩ := judgeInput_inj same
    exact Or.inl ⟨ek_eq.symm, aux_eq⟩
  · exact Or.inr ⟨ePk, ⟨ct, rfl⟩, same, key_eq.symm⟩

theorem IdealCipher.recovers (ideal : IdealCipher lib calls) (agrees : lib.x25519.Agrees) (mem : call ∈ calls)
    (ek_eq : call.ek = dk.toPublic lib) (committed : call.commit lib = .ok p) :
    judgeRecover lib dk p.commitment p.aux = .ok (.ok call.m) := by
  obtain ⟨_, contributory, c_eq, ct, sealed, aux_eq⟩ := CommitCall.commit_ok committed
  have shared_eq : lib.x25519.diffieHellman call.eSk call.ek.key =
      sharedWith lib dk (call.ePk lib) := by
    rw [ek_eq]
    exact agrees call.eSk dk.key
  have input_eq : judgeInput lib dk (call.ePk lib) call.r = call.keyInput lib := by
    rw [judgeInput, CommitCall.keyInput, shared_eq, ek_eq]
  have keys_eq : judgeKeys lib dk (call.ePk lib) call.r =
      (lib.blake3.deriveKey KDF_ENC_CTX (call.keyInput lib),
        lib.blake3.deriveKey KDF_COM_CTX (call.keyInput lib)) := by
    rw [← input_eq]
    rfl
  refine judgeRecover_opens.mpr ⟨call.ePk lib, call.r, ct, aux_eq, ?_, ?_, ?_, ?_⟩
  · rw [ideal.overhead _ _ _ _ _ sealed]
    exact Nat.le_add_left _ _
  · rwa [← shared_eq]
  · rw [keys_eq]
    exact (ideal.opens _ _ _ _ _).mpr ⟨call, mem, p, committed, rfl, rfl, rfl, rfl, aux_eq⟩
  · rw [keys_eq, c_eq, commitValue]

/-- The envelope of a call fits into a stream and is read back. -/
theorem IdealCipher.envelope (ideal : IdealCipher lib calls) (committed : call.commit lib = .ok p) :
    p.toBytes.length ≤ MAX_STREAM_BYTES ∧ JrcCommitment.fromBytes p.toBytes = .ok (.ok p) := by
  obtain ⟨short, _, _, ct, sealed, aux_eq⟩ := CommitCall.commit_ok committed
  have room : MAX_MESSAGE_LEN + ENVELOPE_OVERHEAD = MAX_STREAM_BYTES := by decide
  have overhead : ENVELOPE_OVERHEAD = 108 := rfl
  have length : p.transmittedLen = call.m.length + ENVELOPE_OVERHEAD := by
    rw [JrcCommitment.transmittedLen_eq, aux_eq, overhead]
    simp only [List.length_append, FixedBytes.length_bytes, ideal.overhead _ _ _ _ _ sealed,
      NONCE_LEN, TAG_LEN]
    omega
  have format : verifyExt p.commitment p.aux = true := by
    rw [JrcCommitment.verifyExt_iff, length]
    omega
  refine ⟨?_, JrcCommitment.fromBytes_ok.mpr ⟨rfl, format⟩⟩
  rw [JrcCommitment.toBytes_length, length]
  omega

end

end Jrc

/-! ## Files -/

open Jrc

structure JudgeCall where
  name : Text
  mimeType : Text
  bytes : List UInt8
  ek : JudgePublicKey
  nonce : Nonce
  eSk : FixedBytes 32

namespace JudgeCall

def pack (lib : Crates) (judge : JudgeCrates) (call : JudgeCall) : Except Error JrcPackedFile :=
  packFileJrc lib judge (some call.eSk) call.name call.mimeType call.bytes call.ek call.nonce

def committing (call : JudgeCall) (container : List UInt8) : CommitCall where
  ek := call.ek
  m := container
  r := call.nonce
  eSk := call.eSk

/-- All calls of `commit` that a set of calls makes. -/
def commitsOf (lib : Crates) (calls : Set JudgeCall) : Set CommitCall :=
  {commit | ∃ call ∈ calls, ∃ inner, packFile lib call.name call.mimeType call.bytes = .ok inner ∧
    commit = call.committing inner.container}

structure Recovers (lib : Crates) (call : JudgeCall) (file : OpticalFile) : Prop where
  bytes_eq : file.bytes = call.bytes
  verified : verifyFile lib file = true
  name_eq : file.name = safeFileName (safeFileName call.name)
  mimeType_eq : normalizeMimeType call.mimeType = .ok file.mimeType

section
variable {lib : Crates} {judge : JudgeCrates} {calls : Set JudgeCall} {call : JudgeCall}
  {inner : PackedOpticalFile} {p : JrcCommitment} {dk : JudgeSecretKey}

theorem pack_eq (packs : packFile lib call.name call.mimeType call.bytes = .ok inner) :
    call.pack lib judge =
      if inner.container.length > MAX_MESSAGE_LEN then
        .error (.tooLarge inner.container.length MAX_MESSAGE_LEN)
      else
        match (call.committing inner.container).commit judge with
        | .error e => .error e
        | .ok p =>
          if p.toBytes.length > MAX_STREAM_BYTES then
            .error (.tooLarge p.toBytes.length MAX_STREAM_BYTES)
          else .ok ⟨p.toBytes, call.bytes.length, p.toBytes.length⟩ := by
  simp only [pack, packFileJrc, packs, Jrc.commit, commitWithProverOpening_some, CommitCall.commit,
    committing]
  cases commitWithEphemeral judge call.ek inner.container call.nonce call.eSk with
  | error e => rfl
  | ok p => rfl

theorem pack_committed (ideal : IdealCipher judge (commitsOf lib calls))
    (packs : packFile lib call.name call.mimeType call.bytes = .ok inner)
    (committed : (call.committing inner.container).commit judge = .ok p) :
    ∃ packed, call.pack lib judge = .ok packed ∧ packed.envelope = p.toBytes := by
  obtain ⟨short, _⟩ := CommitCall.commit_ok committed
  obtain ⟨fits, _⟩ := ideal.envelope committed
  refine ⟨⟨p.toBytes, call.bytes.length, p.toBytes.length⟩, ?_, rfl⟩
  rw [pack_eq packs, committed, if_neg (Nat.not_lt.mpr (by exact short))]
  dsimp only
  rw [if_neg (Nat.not_lt.mpr fits)]

/-- What a call that succeeds has committed to. -/
theorem pack_ok {packed : JrcPackedFile} (packs : call.pack lib judge = .ok packed) :
    ∃ inner p, packFile lib call.name call.mimeType call.bytes = .ok inner ∧
      (call.committing inner.container).commit judge = .ok p ∧ packed.envelope = p.toBytes := by
  obtain ⟨inner, _, _, inner_packs, _⟩ := packFileJrc_ok packs
  rw [pack_eq inner_packs] at packs
  split at packs
  · cases packs
  · split at packs
    · cases packs
    · rename_i p committed
      split at packs
      · cases packs
      · cases packs
        exact ⟨inner, p, inner_packs, committed, rfl⟩

/-- The file of a call is in the container it commits to. -/
theorem unpacks (lawful : lib.flate2.Lawful)
    (packs : packFile lib call.name call.mimeType call.bytes = .ok inner) :
    ∃ file, unpackFile lib inner.container = .ok (.ok file) ∧ call.Recovers lib file := by
  obtain ⟨_, _, normal, _, _, _, normal_eq, unpacked⟩ := packFile_unpacks lawful packs
  refine ⟨_, unpacked, ?_, verifyFile_iff.mpr ?_, ?_, normal_eq⟩
  all_goals dsimp only

end

end JudgeCall

/-- If the cipher opens only what calls have sealed, a judge opens an envelope
only to the file of a call, and the envelope is the one this call returned for
this judge, unless the key derivation takes another transcript for it; and the
judge opens the envelopes that were packed for it. -/
theorem judge_tamper_evident (lib : Crates) (lawful : lib.flate2.Lawful) (judge : JudgeCrates)
    (agrees : judge.x25519.Agrees) (calls : Set JudgeCall)
    (ideal : IdealCipher judge (JudgeCall.commitsOf lib calls)) (dk : JudgeSecretKey) :
    (∀ envelope file, unpackFileJrc lib judge envelope dk = .ok (.ok file) →
      ∃ call ∈ calls, ∃ packed, call.pack lib judge = .ok packed ∧ call.Recovers lib file ∧
        (call.ek = dk.toPublic judge ∧ packed.envelope = envelope ∨
          ∃ (container : List UInt8) (q : JrcCommitment) (ePk : FixedBytes 32),
            envelope = q.toBytes ∧ Collides judge dk q.aux (call.committing container) ePk)) ∧
    ∀ call ∈ calls, call.ek = dk.toPublic judge → ∀ packed, call.pack lib judge = .ok packed →
      ∃ file, unpackFileJrc lib judge packed.envelope dk = .ok (.ok file) ∧
        call.Recovers lib file := by
  constructor
  · intro envelope file opened
    obtain ⟨read, parsed, opened⟩ := exec_bind_eq_ok.mp opened
    cases read with
    | error e => cases opened
    | ok q =>
      obtain ⟨found, recovered, opened⟩ := exec_bind_eq_ok.mp opened
      cases found with
      | error e => cases opened
      | ok container =>
        obtain ⟨rfl, _⟩ := JrcCommitment.fromBytes_ok.mp parsed
        obtain ⟨_, ⟨call, mem, inner, packs, rfl⟩, p, committed, c_eq, rfl, source⟩ :=
          ideal.opens_committed recovered
        obtain ⟨packed, packed_eq, envelope_eq⟩ := JudgeCall.pack_committed ideal packs committed
        obtain ⟨file', unpacked, recovers⟩ := JudgeCall.unpacks lawful packs
        have same := unpacked.symm.trans opened
        cases same
        refine ⟨call, mem, packed, packed_eq, recovers, source.imp ?_ ?_⟩
        · rintro ⟨ek_eq, aux_eq⟩
          refine ⟨ek_eq, envelope_eq.trans ?_⟩
          rw [JrcCommitment.toBytes, JrcCommitment.toBytes, c_eq, aux_eq]
        · rintro ⟨ePk, collides⟩
          exact ⟨inner.container, q, ePk, rfl, collides⟩
  · intro call mem ek_eq packed packs
    obtain ⟨inner, p, inner_packs, committed, envelope_eq⟩ := JudgeCall.pack_ok packs
    have made : call.committing inner.container ∈ JudgeCall.commitsOf lib calls :=
      ⟨call, mem, inner, inner_packs, rfl⟩
    have recovered := ideal.recovers agrees made ek_eq committed
    obtain ⟨_, read⟩ := ideal.envelope committed
    obtain ⟨file, unpacked, recovers⟩ := JudgeCall.unpacks lawful inner_packs
    refine ⟨file, ?_, recovers⟩
    simp only [unpackFileJrc, envelope_eq, read, exec_ok_bind, recovered]
    exact unpacked

/-- The cipher that has sealed for one call is ideal for it. -/
theorem Jrc.idealCipher_once {lib : JudgeCrates} {call : CommitCall} {p : JrcCommitment}
    {ct : List UInt8} (committed : call.commit lib = .ok p)
    (aux_eq : p.aux = (call.ePk lib).bytes ++ call.r.bytes ++ ct)
    (aead_eq : lib.aead = sealedOnce (lib.blake3.deriveKey KDF_ENC_CTX (call.keyInput lib)) call.r
      call.m p.commitment.bytes ct)
    (tag : ct.length = call.m.length + TAG_LEN) : IdealCipher lib {call} := by
  constructor
  · intro key nonce ct' aad m
    rw [aead_eq]
    simp only [sealedOnce, Option.ite_none_right_eq_some, Option.some.injEq,
      Set.mem_singleton_iff, exists_eq_left, committed, Except.ok.injEq, exists_eq_left']
    constructor
    · rintro ⟨⟨rfl, rfl, rfl, rfl⟩, rfl⟩
      exact ⟨rfl, rfl, rfl, rfl, aux_eq⟩
    · rintro ⟨rfl, rfl, rfl, rfl, aux_eq'⟩
      exact ⟨⟨rfl, rfl, rfl, List.append_cancel_left (aux_eq'.symm.trans aux_eq)⟩, rfl⟩
  · rw [aead_eq]
    exact (sealedOnce_exact tag).addsTag

def sampleJudgeCall : JudgeCall where
  name := sampleName
  mimeType := sampleType
  bytes := [0x61]
  ek := goldenJudge.toPublic envelopeJudge
  nonce := goldenNonce
  eSk := goldenEphemeral

theorem sampleJudgeCall_ideal :
    IdealCipher envelopeJudge (JudgeCall.commitsOf envelopeCrates {sampleJudgeCall}) := by
  have packs : packFile envelopeCrates sampleName sampleType [0x61] = .ok samplePlain := by
    decide +kernel
  have one : JudgeCall.commitsOf envelopeCrates {sampleJudgeCall} =
      {sampleJudgeCall.committing samplePlain.container} := by
    ext commit
    constructor
    · rintro ⟨_, rfl, inner, inner_packs, rfl⟩
      have same := inner_packs.symm.trans packs
      cases same
      rfl
    · rintro rfl
      exact ⟨_, rfl, _, packs, rfl⟩
  have committed : (sampleJudgeCall.committing samplePlain.container).commit envelopeJudge =
      .ok sampleEnvelope := by
    decide +kernel
  rw [one]
  have aux_eq : sampleEnvelope.aux =
      ((sampleJudgeCall.committing samplePlain.container).ePk envelopeJudge).bytes ++
        goldenNonce.bytes ++ sampleEnvelope.aux.drop (EPHEMERAL_PK_LEN + NONCE_LEN) := by
    decide +kernel
  apply idealCipher_once committed aux_eq
  · have key : envelopeJudge.blake3.deriveKey KDF_ENC_CTX
        ((sampleJudgeCall.committing samplePlain.container).keyInput envelopeJudge) =
          goldenEncKey := by
      decide +kernel
    rw [key]
    rfl
  · decide +kernel

theorem judge_tamper_evident_sample :
    ∃ file, unpackFileJrc envelopeCrates envelopeJudge sampleEnvelope.toBytes goldenJudge =
        .ok (.ok file) ∧
      file.bytes = [0x61] := by
  have packs : sampleJudgeCall.pack envelopeCrates envelopeJudge =
      .ok ⟨sampleEnvelope.toBytes, 1, 197⟩ := by
    decide +kernel
  obtain ⟨_, opens⟩ := judge_tamper_evident envelopeCrates Flate2.stored_lawful envelopeJudge
    golden_agrees {sampleJudgeCall} sampleJudgeCall_ideal goldenJudge
  obtain ⟨file, opened, recovers⟩ := opens sampleJudgeCall rfl rfl _ packs
  exact ⟨file, opened, recovers.bytes_eq⟩

end DeOptiTransfer
