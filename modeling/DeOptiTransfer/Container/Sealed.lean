import DeOptiTransfer.Container.RoundTrip

/-!
# Sealed containers

What an encrypted container is evidence of, over a cipher that opens exactly
what was sealed with it (`Ideal`).

* `Ideal.container_packed`: a container whose data opens is one that a sealing
  returned;
* `Sealing.unpackFileWithKey_eq`: a sealed file is unpacked with its key;
* `password_tamper_evident`: both, for passwords.
-/

namespace DeOptiTransfer

/-- The associated data of `pack_file_encrypted`. -/
def Prepared.covered (p : Prepared) (fileLen : Nat) : Covered where
  flags := p.compression.flag ||| FLAG_CRYPT
  nameBytes := p.nameBytes
  typeBytes := p.typeBytes
  fileLen
  xmitLen := p.plain.length + TAG_LEN
  digest := p.digest

/-- The associated data of `unpack_impl`. -/
def Header.covered (h : Header) (nameBytes typeBytes : List UInt8) : Covered where
  flags := h.flags
  nameBytes
  typeBytes
  fileLen := h.fileLen.toNat
  xmitLen := h.xmitLen.toNat
  digest := h.digest

/-- A call of `pack_file_encrypted`. -/
structure Sealing where
  name : Text
  mimeType : Text
  bytes : List UInt8
  key : EncryptionKey
  nonce : Nonce

namespace Sealing

def pack (lib : Crates) (s : Sealing) : Except Error PackedOpticalFile :=
  packFileEncrypted lib s.name s.mimeType s.bytes s.key s.nonce

/-- The encryption that the call makes. -/
def Computes (lib : Crates) (s : Sealing) (plaintext aad ciphertext : List UInt8) : Prop :=
  ∃ p, prepare lib s.name s.mimeType s.bytes = .ok p ∧ plaintext = p.plain ∧
    aad = (p.covered s.bytes.length).encode ∧
    lib.aead.encrypt s.key s.nonce plaintext aad = some ciphertext

end Sealing

/-- A cipher that opens what the sealings have computed, and nothing else. -/
structure Ideal (lib : Crates) (sealings : Set Sealing) : Prop where
  opens : ∀ key nonce ciphertext aad plaintext,
    lib.aead.decrypt key nonce ciphertext aad = some plaintext ↔
      ∃ s ∈ sealings, s.key = key ∧ s.nonce = nonce ∧ s.Computes lib plaintext aad ciphertext
  overhead : ∀ key nonce plaintext aad ciphertext,
    lib.aead.encrypt key nonce plaintext aad = some ciphertext →
      ciphertext.length = plaintext.length + TAG_LEN

section
variable {lib : Crates} {container : List UInt8} {h : Header}
  {nameBytes typeBytes transmitted : List UInt8} {sealings : Set Sealing}

/-! ## A container that opens was packed -/

/-- A laid-out container is what the writer makes of its parts. -/
theorem Laid.eq_assemble (laid : Laid container h nameBytes typeBytes transmitted) :
    container = assemble h.flags nameBytes typeBytes transmitted h.fileLen.toNat h.digest h.nonce := by
  have header : h = {
      magic := FILE_MAGIC
      flags := h.flags
      nameLen := UInt16.ofNat nameBytes.length
      typeLen := UInt16.ofNat typeBytes.length
      fileLen := UInt32.ofNat h.fileLen.toNat
      xmitLen := UInt32.ofNat transmitted.length
      digest := h.digest
      nonce := h.nonce } := by
    rw [laid.name_length, laid.type_length, laid.xmit_length, UInt16.ofNat_toNat, UInt16.ofNat_toNat,
      UInt32.ofNat_toNat, UInt32.ofNat_toNat, ← laid.magic_eq]
  rw [laid.container_eq, assemble, ← header]

theorem Laid.fits (laid : Laid container h nameBytes typeBytes transmitted) :
    (h.covered nameBytes typeBytes).Fits := by
  constructor
  · exact Nat.lt_of_le_of_lt (Nat.le_of_eq laid.name_length) h.nameLen.toNat_lt
  · exact h.fileLen.toNat_lt
  · exact h.xmitLen.toNat_lt

theorem Prepared.Of.fits {name mimeType : Text} {bytes : List UInt8} {p : Prepared}
    (of : p.Of lib name mimeType bytes) : (p.covered bytes.length).Fits := by
  have plain_le := of.plain_le.trans of.size_le
  constructor
  · exact Nat.lt_of_le_of_lt of.name_le (by decide)
  · exact Nat.lt_of_le_of_lt of.size_le (by decide)
  · exact Nat.lt_of_le_of_lt (Nat.add_le_add_right plain_le TAG_LEN) (by decide)

theorem Sealing.pack_eq {s : Sealing} {p : Prepared} {ciphertext : List UInt8}
    (prepared : prepare lib s.name s.mimeType s.bytes = .ok p)
    (encrypted : lib.aead.encrypt s.key s.nonce p.plain (p.covered s.bytes.length).encode =
      some ciphertext) :
    s.pack lib = .ok {
      container := assemble (p.compression.flag ||| FLAG_CRYPT) p.nameBytes p.typeBytes ciphertext
        s.bytes.length p.digest s.nonce
      compression := p.compression
      encrypted := true
      originalSize := s.bytes.length
      transmittedSize := ciphertext.length } := by
  have sealed := encrypt_ok.mpr encrypted
  simp only [Covered.encode, Prepared.covered] at sealed
  simp only [pack, packFileEncrypted, prepared, sealed]

/-- A container whose data opens under a key was packed under that key. The
associated data pins every part of it that the cipher and the layout do not. -/
theorem Ideal.container_packed (ideal : Ideal lib sealings)
    (laid : Laid container h nameBytes typeBytes transmitted) {key : EncryptionKey}
    {plain : List UInt8}
    (opened : lib.aead.decrypt key h.nonce transmitted (h.covered nameBytes typeBytes).encode =
      some plain) :
    ∃ s ∈ sealings, s.key = key ∧ s.nonce = h.nonce ∧
      ∃ packed, s.pack lib = .ok packed ∧ packed.container = container := by
  obtain ⟨s, mem, key_eq, nonce_eq, p, prepared, rfl, covered_eq, encrypted⟩ :=
    (ideal.opens _ _ _ _ _).mp opened
  rw [covered_eq] at encrypted
  refine ⟨s, mem, key_eq, nonce_eq, _, Sealing.pack_eq prepared encrypted, ?_⟩
  have same := Covered.encode_injOn laid.fits (prepare_ok prepared).fits covered_eq
  simp only [Header.covered, Prepared.covered, Covered.mk.injEq] at same
  obtain ⟨flags_eq, name_eq, type_eq, file_eq, _, digest_eq⟩ := same
  rw [laid.eq_assemble, flags_eq, name_eq, type_eq, file_eq, digest_eq, nonce_eq]

/-! ## A packed container opens -/

/-- The two sides use the same associated data. -/
theorem Sealing.laid {s : Sealing} (ideal : Ideal lib sealings) {packed : PackedOpticalFile}
    (packs : s.pack lib = .ok packed) :
    ∃ (p : Prepared) (h : Header) (ciphertext : List UInt8),
      prepare lib s.name s.mimeType s.bytes = .ok p ∧
      lib.aead.encrypt s.key s.nonce p.plain (p.covered s.bytes.length).encode = some ciphertext ∧
      Laid packed.container h p.nameBytes p.typeBytes ciphertext ∧
      h.nonce = s.nonce ∧ h.covered p.nameBytes p.typeBytes = p.covered s.bytes.length ∧
      packed.compression = p.compression ∧ packed.transmittedSize = ciphertext.length := by
  obtain ⟨p, ciphertext, prepared, encrypted, rfl⟩ := packFileEncrypted_ok packs
  have of := prepare_ok prepared
  have length_eq := ideal.overhead _ _ _ _ _ encrypted
  have plain_le := of.plain_le.trans of.size_le
  have crypt := p.compression.flag_crypt
  have xmit_pos : 0 < ciphertext.length := by
    rw [length_eq]
    exact Nat.lt_of_lt_of_le (by decide) (Nat.le_add_left TAG_LEN _)
  have xmit_le : ciphertext.length ≤ MAX_FILE_BYTES +
      if (p.compression.flag ||| FLAG_CRYPT) &&& FLAG_CRYPT ≠ 0 then TAG_LEN else 0 := by
    rw [if_pos crypt, length_eq]
    exact Nat.add_le_add_right plain_le TAG_LEN
  obtain ⟨h, laid, flags_eq, file_eq, digest_eq, nonce_eq⟩ := assemble_laid p.digest s.nonce
    p.compression.flag_crypt_known of.name_le of.type_le (List.length_pos_iff.mpr of.nonempty)
    of.size_le xmit_pos xmit_le
  refine ⟨p, h, ciphertext, prepared, encrypted, laid, nonce_eq, ?_, rfl, rfl⟩
  simp only [Header.covered, Prepared.covered, flags_eq, file_eq, digest_eq, ← laid.xmit_length,
    length_eq]

/-- A sealed file is unpacked with its key. -/
theorem Sealing.unpackFileWithKey_eq {s : Sealing} (ideal : Ideal lib sealings)
    (lawful : lib.flate2.Lawful) (mem : s ∈ sealings) {packed : PackedOpticalFile}
    (packs : s.pack lib = .ok packed) :
    ∃ normal, normalizeMimeType s.mimeType = .ok normal ∧
      unpackFileWithKey lib packed.container s.key = .ok (.ok {
        name := safeFileName (safeFileName s.name)
        mimeType := normal
        bytes := s.bytes
        digest := lib.blake3.hash s.bytes
        compression := packed.compression
        encrypted := true
        transmittedSize := packed.transmittedSize }) := by
  obtain ⟨p, h, ciphertext, prepared, encrypted, laid, nonce_eq, covered_eq, compression_eq, size_eq⟩ :=
    s.laid ideal packs
  have same := covered_eq
  simp only [Header.covered, Prepared.covered, Covered.mk.injEq] at same
  obtain ⟨flags_eq, _, _, file_eq, _, digest_eq⟩ := same
  have crypt : h.flags &&& FLAG_CRYPT ≠ 0 := by
    rw [flags_eq]
    exact p.compression.flag_crypt
  have opened : openData lib h p.nameBytes p.typeBytes ciphertext (some s.key) = .ok p.plain := by
    rw [← covered_eq] at encrypted
    rw [openData, if_pos crypt]
    apply decrypt_ok.mpr
    apply (ideal.opens _ _ _ _ _).mpr
    exact ⟨s, mem, rfl, nonce_eq.symm, p, prepared, rfl, congrArg Covered.encode covered_eq,
      encrypted⟩
  obtain ⟨normal, normal_eq, unpacked⟩ := (prepare_ok prepared).unpackImpl_eq lawful laid opened
    (by rw [flags_eq]; exact p.compression.flag_crypt_gzip) file_eq digest_eq
  refine ⟨normal, normal_eq, ?_⟩
  rw [unpackFileWithKey, unpacked, decide_eq_true crypt, compression_eq, size_eq]

/-! ## Passwords -/

theorem unpackFileWithPassword_eq {password : List UInt8} {key : EncryptionKey}
    (read : readHeader lib container = .ok (.ok h)) (crypt : h.flags &&& FLAG_CRYPT ≠ 0)
    (derived : EncryptionKey.fromPassword lib.argon2 password h.nonce = .ok key) :
    unpackFileWithPassword lib container password = unpackFileWithKey lib container key := by
  cases valid : validateLayout h container.length with
  | error e =>
    simp only [unpackFileWithPassword, unpackFileWithKey, unpackImpl, read, exec_ok_bind, crypt,
      ↓reduceIte, valid]
  | ok _ =>
    simp only [unpackFileWithPassword, unpackFileWithKey, read, exec_ok_bind, crypt, ↓reduceIte,
      valid, derived]

/-- What a password that opens a container has gone through. -/
theorem unpackFileWithPassword_ok {password : List UInt8} {file : OpticalFile}
    (ok : unpackFileWithPassword lib container password = .ok (.ok file)) :
    ∃ h key, readHeader lib container = .ok (.ok h) ∧ h.flags &&& FLAG_CRYPT ≠ 0 ∧
      EncryptionKey.fromPassword lib.argon2 password h.nonce = .ok key ∧
      unpackFileWithKey lib container key = .ok (.ok file) := by
  obtain ⟨r, read, _⟩ := readHeader_ok lib container
  cases r with
  | error e =>
    simp only [unpackFileWithPassword, read, exec_ok_bind] at ok
    cases ok
  | ok h =>
    by_cases clear : h.flags &&& FLAG_CRYPT = 0
    · simp only [unpackFileWithPassword, read, exec_ok_bind, clear, ↓reduceIte] at ok
      cases ok
    · cases valid : validateLayout h container.length with
      | error e =>
        simp only [unpackFileWithPassword, read, exec_ok_bind, clear, ↓reduceIte, valid] at ok
        cases ok
      | ok _ =>
        cases derived : EncryptionKey.fromPassword lib.argon2 password h.nonce with
        | error e =>
          simp only [unpackFileWithPassword, read, exec_ok_bind, clear, ↓reduceIte, valid,
            derived] at ok
          cases ok
        | ok key =>
          rw [unpackFileWithPassword_eq read clear derived] at ok
          exact ⟨h, key, read, clear, derived, ok⟩

/-- What a key that opens an encrypted container has gone through. -/
theorem unpackFileWithKey_ok {key : EncryptionKey} {file : OpticalFile}
    (read : readHeader lib container = .ok (.ok h)) (crypt : h.flags &&& FLAG_CRYPT ≠ 0)
    (ok : unpackFileWithKey lib container key = .ok (.ok file)) :
    ∃ nameBytes typeBytes transmitted plain, Laid container h nameBytes typeBytes transmitted ∧
      lib.aead.decrypt key h.nonce transmitted (h.covered nameBytes typeBytes).encode =
        some plain ∧
      expand lib h plain = .ok (.ok file.bytes) := by
  obtain ⟨h', nameBytes, typeBytes, transmitted, plain, bytes, laid, opened, expanded, checked⟩ :=
    unpackImpl_ok.mp ok
  have same := laid.readHeader_eq lib
  rw [read] at same
  cases same
  rw [openData, if_pos crypt] at opened
  rw [(checkFile_ok checked).1]
  exact ⟨nameBytes, typeBytes, transmitted, plain, laid, decrypt_ok.mp opened, expanded⟩

/-- A call of `pack_file_encrypted_with_password`. -/
structure PasswordCall where
  name : Text
  mimeType : Text
  bytes : List UInt8
  password : List UInt8
  nonce : Nonce

namespace PasswordCall

def pack (lib : Crates) (call : PasswordCall) : Except Error PackedOpticalFile :=
  packFileEncryptedWithPassword lib call.name call.mimeType call.bytes call.password call.nonce

/-- The call of `pack_file_encrypted` it makes with the derived key. -/
def sealing (call : PasswordCall) (key : EncryptionKey) : Sealing where
  name := call.name
  mimeType := call.mimeType
  bytes := call.bytes
  key
  nonce := call.nonce

/-- The key of the call. -/
def Derives (lib : Crates) (call : PasswordCall) (key : EncryptionKey) : Prop :=
  EncryptionKey.fromPassword lib.argon2 call.password call.nonce = .ok key

/-- All sealings that a set of calls makes. -/
def sealingsOf (lib : Crates) (calls : Set PasswordCall) : Set Sealing :=
  {s | ∃ call ∈ calls, ∃ key, call.Derives lib key ∧ s = call.sealing key}

theorem pack_eq {call : PasswordCall} {key : EncryptionKey} (derived : call.Derives lib key) :
    call.pack lib = (call.sealing key).pack lib := by
  simp only [pack, packFileEncryptedWithPassword, show EncryptionKey.fromPassword lib.argon2
    call.password call.nonce = .ok key from derived]
  rfl

theorem derives_of_pack {call : PasswordCall} {packed : PackedOpticalFile}
    (packs : call.pack lib = .ok packed) : ∃ key, call.Derives lib key := by
  cases derived : EncryptionKey.fromPassword lib.argon2 call.password call.nonce with
  | error e =>
    simp only [pack, packFileEncryptedWithPassword, derived] at packs
    cases packs
  | ok key => exact ⟨key, derived⟩

end PasswordCall

/-- If the cipher opens only what some call with a password has sealed, then a
password opens a container only if one of the calls returned exactly this
container and had the same key; and it does open its own containers. The
associated data of the two sides is the same, and an injective encoding of what
it covers. -/
theorem password_tamper_evident {calls : Set PasswordCall}
    (ideal : Ideal lib (PasswordCall.sealingsOf lib calls)) (lawful : lib.flate2.Lawful) :
    (∀ container password file,
      unpackFileWithPassword lib container password = .ok (.ok file) →
        ∃ call ∈ calls, ∃ packed key, call.pack lib = .ok packed ∧ packed.container = container ∧
          EncryptionKey.fromPassword lib.argon2 call.password call.nonce = .ok key ∧
          EncryptionKey.fromPassword lib.argon2 password call.nonce = .ok key) ∧
    (∀ call ∈ calls, ∀ packed, call.pack lib = .ok packed →
      ∃ file, unpackFileWithPassword lib packed.container call.password = .ok (.ok file) ∧
        file.bytes = call.bytes ∧ normalizeMimeType call.mimeType = .ok file.mimeType ∧
        file.encrypted = true) ∧
    (∀ call ∈ calls, ∀ packed, call.pack lib = .ok packed →
      ∃ p h transmitted, prepare lib call.name call.mimeType call.bytes = .ok p ∧
        Laid packed.container h p.nameBytes p.typeBytes transmitted ∧
        aad h.flags p.nameBytes p.typeBytes h.fileLen.toNat h.xmitLen.toNat h.digest =
          aad (p.compression.flag ||| FLAG_CRYPT) p.nameBytes p.typeBytes call.bytes.length
            (p.plain.length + TAG_LEN) p.digest) ∧
    Set.InjOn Covered.encode {c | c.Fits} := by
  refine ⟨?_, ?_, ?_, Covered.encode_injOn⟩
  · intro container password file ok
    obtain ⟨h, key, read, crypt, derived, ok⟩ := unpackFileWithPassword_ok ok
    obtain ⟨nameBytes, typeBytes, transmitted, plain, laid, opened, _⟩ :=
      unpackFileWithKey_ok read crypt ok
    obtain ⟨s, ⟨call, mem, key', derived', rfl⟩, rfl, nonce_eq, packed, packs, container_eq⟩ :=
      ideal.container_packed laid opened
    refine ⟨call, mem, packed, key', ?_, container_eq, derived', ?_⟩
    · rw [PasswordCall.pack_eq derived']
      exact packs
    · rw [← nonce_eq] at derived
      exact derived
  · intro call mem packed packs
    obtain ⟨key, derived⟩ := PasswordCall.derives_of_pack packs
    rw [PasswordCall.pack_eq derived] at packs
    obtain ⟨normal, normal_eq, unpacked⟩ := Sealing.unpackFileWithKey_eq ideal lawful
      ⟨call, mem, key, derived, rfl⟩ packs
    obtain ⟨p, h, ciphertext, _, _, laid, nonce_eq, covered_eq, _, _⟩ := Sealing.laid ideal packs
    have flags_eq : h.flags = p.compression.flag ||| FLAG_CRYPT := congrArg Covered.flags covered_eq
    have crypt : h.flags &&& FLAG_CRYPT ≠ 0 := by
      rw [flags_eq]
      exact p.compression.flag_crypt
    have same_key : EncryptionKey.fromPassword lib.argon2 call.password h.nonce = .ok key := by
      rw [nonce_eq]
      exact derived
    refine ⟨_, (unpackFileWithPassword_eq (laid.readHeader_eq lib) crypt same_key).trans unpacked,
      rfl, normal_eq, rfl⟩
  · intro call mem packed packs
    obtain ⟨key, derived⟩ := PasswordCall.derives_of_pack packs
    rw [PasswordCall.pack_eq derived] at packs
    obtain ⟨p, h, ciphertext, prepared, _, laid, _, covered_eq, _, _⟩ := Sealing.laid ideal packs
    exact ⟨p, h, ciphertext, prepared, laid, congrArg Covered.encode covered_eq⟩

end

def sampleCall : PasswordCall where
  name := sampleName
  mimeType := sampleType
  bytes := [0x61]
  password := [0x70, 0x77]
  nonce := sampleNonce

def samplePrepared : Prepared where
  nameBytes := utf8Encode sampleName
  typeBytes := utf8Encode sampleType
  plain := [0x61]
  compression := .none
  digest := sampleHash.hash [0x61]

def sampleSealed : PackedOpticalFile where
  container := assemble FLAG_CRYPT (utf8Encode sampleName) (utf8Encode sampleType) sampleCiphertext 1
    (sampleHash.hash [0x61]) sampleNonce
  compression := .none
  encrypted := true
  originalSize := 1
  transmittedSize := 17

theorem samplePrepared_prepared :
    prepare sampleCrates sampleName sampleType [0x61] = .ok samplePrepared := by
  decide +kernel

theorem sampleCall_derives (key : EncryptionKey) :
    sampleCall.Derives sampleCrates key ↔ key = sampleKey := by
  have derived : EncryptionKey.fromPassword sampleCrates.argon2 [0x70, 0x77] sampleNonce =
      .ok sampleKey := by
    decide +kernel
  have unfolded : sampleCall.Derives sampleCrates key ↔
      EncryptionKey.fromPassword sampleCrates.argon2 [0x70, 0x77] sampleNonce = .ok key :=
    Iff.rfl
  rw [unfolded, derived, Except.ok.injEq]
  exact eq_comm

theorem sample_computes {plaintext aad ciphertext : List UInt8} :
    (sampleCall.sealing sampleKey).Computes sampleCrates plaintext aad ciphertext ↔
      plaintext = [0x61] ∧ aad = sampleAad ∧ ciphertext = sampleCiphertext := by
  have encrypted : sampleCrates.aead.encrypt sampleKey sampleNonce [0x61] sampleAad =
      some sampleCiphertext := by
    dsimp only [sampleCrates]
    exact if_pos ⟨rfl, rfl, rfl, rfl⟩
  have covered : (samplePrepared.covered 1).encode = sampleAad := by decide +kernel
  constructor
  · rintro ⟨p, prepared, rfl, rfl, computed⟩
    cases samplePrepared_prepared.symm.trans prepared
    change sampleCrates.aead.encrypt sampleKey sampleNonce [0x61] (samplePrepared.covered 1).encode =
      some ciphertext at computed
    rw [covered, encrypted, Option.some.injEq] at computed
    exact ⟨rfl, covered, computed.symm⟩
  · rintro ⟨rfl, rfl, rfl⟩
    exact ⟨samplePrepared, samplePrepared_prepared, rfl, covered.symm, encrypted⟩

theorem sample_ideal : Ideal sampleCrates (PasswordCall.sealingsOf sampleCrates {sampleCall}) := by
  constructor
  · intro key nonce ciphertext aad plaintext
    constructor
    · intro opened
      dsimp only [sampleCrates] at opened
      split at opened
      · rename_i same
        obtain ⟨rfl, rfl, rfl, rfl⟩ := same
        cases opened
        exact ⟨sampleCall.sealing sampleKey, ⟨sampleCall, rfl, sampleKey,
          (sampleCall_derives _).mpr rfl, rfl⟩, rfl, rfl, sample_computes.mpr ⟨rfl, rfl, rfl⟩⟩
      · cases opened
    · rintro ⟨_, ⟨_, rfl, key', derived, rfl⟩, rfl, rfl, computes⟩
      cases (sampleCall_derives _).mp derived
      obtain ⟨rfl, rfl, rfl⟩ := sample_computes.mp computes
      dsimp only [sampleCrates]
      exact if_pos ⟨rfl, rfl, rfl, rfl⟩
  · intro key nonce plaintext aad ciphertext encrypted
    dsimp only [sampleCrates] at encrypted
    split at encrypted
    · rename_i same
      obtain ⟨_, _, rfl, _⟩ := same
      cases encrypted
      rfl
    · cases encrypted
      rw [List.length_append, List.length_replicate]

/-- Of all byte strings, the one container of the example opens. -/
theorem password_tamper_evident_sample :
    (∀ container password file,
      unpackFileWithPassword sampleCrates container password = .ok (.ok file) →
        container = sampleSealed.container) ∧
    ∃ file, unpackFileWithPassword sampleCrates sampleSealed.container [0x70, 0x77] =
      .ok (.ok file) ∧ file.bytes = [0x61] ∧ file.mimeType = sampleType ∧ file.encrypted = true := by
  have packs : sampleCall.pack sampleCrates = .ok sampleSealed := by decide +kernel
  have mime : normalizeMimeType sampleType = .ok sampleType := by decide +kernel
  obtain ⟨only, opens, _⟩ := password_tamper_evident sample_ideal Flate2.stored_lawful
  constructor
  · intro container password file ok
    obtain ⟨_, rfl, packed, _, packed_eq, rfl, _⟩ := only container password file ok
    exact congrArg PackedOpticalFile.container (Except.ok.inj (packed_eq.symm.trans packs))
  · obtain ⟨file, unpacked, bytes_eq, mime_eq, encrypted⟩ := opens sampleCall rfl _ packs
    exact ⟨file, unpacked, bytes_eq, Except.ok.inj (mime_eq.symm.trans mime), encrypted⟩

end DeOptiTransfer
