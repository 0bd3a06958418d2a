import DeOptiTransfer.Container.Sealed

/-!
# Opening with a key

`unpack_file_with_key` asks for a key and then goes by a flag of the container,
which decides whether the key is used at all.

* `unpackFileWithKey_clear`: with the flag clear it is not;
* `keyAuthenticates_iff`: opening with a key means what it says exactly when the
  flag is set.
-/

namespace DeOptiTransfer

/-- Argon2id derives a key from every password that is not longer than its
limit. -/
def Argon2.Lawful (argon2 : Argon2) : Prop :=
  ∀ password salt, password.length < 2 ^ 32 → ∃ key, argon2.hashPassword password salt = some key

/-- `file` came out of a decryption under `key`, with the nonce of the container
and the rest of its metadata as associated data. -/
def Authenticated (lib : Crates) (container : List UInt8) (key : EncryptionKey)
    (file : OpticalFile) : Prop :=
  ∃ h nameBytes typeBytes transmitted plain,
    Laid container h nameBytes typeBytes transmitted ∧
    lib.aead.decrypt key h.nonce transmitted
      (aad h.flags nameBytes typeBytes h.fileLen.toNat h.xmitLen.toNat h.digest) = some plain ∧
    expand lib h plain = .ok (.ok file.bytes)

/-- Opening `container` with a key means that it was authenticated. -/
structure KeyAuthenticates (lib : Crates) (container : List UInt8) : Prop where
  authenticated : ∀ key file, unpackFileWithKey lib container key = .ok (.ok file) →
    Authenticated lib container key file
  packed : ∀ sealings, Ideal lib sealings → ∀ key file,
    unpackFileWithKey lib container key = .ok (.ok file) →
      ∃ s ∈ sealings, s.key = key ∧ ∃ packed, s.pack lib = .ok packed ∧ packed.container = container
  agree : ∀ h, readHeader lib container = .ok (.ok h) → ∀ password key,
    EncryptionKey.fromPassword lib.argon2 password h.nonce = .ok key →
      unpackFileWithKey lib container key = unpackFileWithPassword lib container password

section
variable {lib : Crates} {container : List UInt8} {h : Header}

/-! ## The flag is clear -/

theorem openData_clear {nameBytes typeBytes transmitted : List UInt8} {key : Option EncryptionKey}
    (clear : h.flags &&& FLAG_CRYPT = 0) :
    openData lib h nameBytes typeBytes transmitted key = .ok transmitted :=
  if_neg (not_not_intro clear)

/-- With the flag clear, the key is ignored. -/
theorem unpackFileWithKey_clear (read : readHeader lib container = .ok (.ok h))
    (clear : h.flags &&& FLAG_CRYPT = 0) (key : EncryptionKey) :
    unpackFileWithKey lib container key = unpackFile lib container := by
  cases valid : validateLayout h container.length with
  | error e => simp only [unpackFileWithKey, unpackFile, unpackImpl, read, exec_ok_bind, valid]
  | ok _ =>
    obtain ⟨nameBytes, typeBytes, transmitted, laid⟩ := exists_laid read valid
    rw [unpackFileWithKey, unpackFile, laid.unpackImpl_eq, laid.unpackImpl_eq, openData_clear clear,
      openData_clear clear]

theorem unpackImpl_clear_error {key : Option EncryptionKey} {e : Error}
    (read : readHeader lib container = .ok (.ok h)) (clear : h.flags &&& FLAG_CRYPT = 0)
    (refused : unpackImpl lib container key = .ok (.error e)) : e ≠ .noEncryption := by
  rintro rfl
  cases valid : validateLayout h container.length with
  | error e =>
    simp only [unpackImpl, read, exec_ok_bind, valid, Except.ok.injEq, Except.error.injEq] at refused
    rw [refused] at valid
    cases validateLayout_error valid
  | ok _ =>
    obtain ⟨nameBytes, typeBytes, transmitted, laid⟩ := exists_laid read valid
    rw [laid.unpackImpl_eq, openData_clear clear] at refused
    obtain ⟨bytes, expanded, refused⟩ := exec_bind_eq_ok.mp refused
    cases bytes with
    | error e =>
      cases refused
      rcases expand_error expanded with eq | eq | ⟨msg, eq⟩ <;> cases eq
    | ok bytes =>
      rcases checkFile_error (Except.ok.inj refused) with eq | eq | eq <;> cases eq

theorem unpackFileWithPassword_clear {password : List UInt8}
    (read : readHeader lib container = .ok (.ok h)) (clear : h.flags &&& FLAG_CRYPT = 0) :
    unpackFileWithPassword lib container password = .ok (.error .noEncryption) := by
  simp only [unpackFileWithPassword, read, exec_ok_bind, clear, ↓reduceIte]

/-! ## Exactly when a key authenticates -/

/-- A key authenticates a container exactly when its header does not parse or
has the flag set. -/
theorem keyAuthenticates_iff (lawful : lib.argon2.Lawful) (container : List UInt8) :
    KeyAuthenticates lib container ↔
      ∀ h, readHeader lib container = .ok (.ok h) → h.flags &&& FLAG_CRYPT ≠ 0 := by
  constructor
  · intro auth h read clear
    obtain ⟨key, hashed⟩ := lawful [] h.nonce (by decide)
    have agree := auth.agree h read [] key (EncryptionKey.fromPassword_ok.mpr hashed)
    rw [unpackFileWithPassword_clear read clear] at agree
    exact unpackImpl_clear_error read clear agree rfl
  · intro set
    have opened : ∀ key file, unpackFileWithKey lib container key = .ok (.ok file) →
        ∃ h nameBytes typeBytes transmitted plain,
          Laid container h nameBytes typeBytes transmitted ∧
          lib.aead.decrypt key h.nonce transmitted (h.covered nameBytes typeBytes).encode =
            some plain ∧
          expand lib h plain = .ok (.ok file.bytes) := by
      intro key file ok
      obtain ⟨h, _, _, _, _, _, laid, _⟩ := unpackImpl_ok.mp ok
      have read := laid.readHeader_eq lib
      obtain ⟨nameBytes, typeBytes, transmitted, plain, rest⟩ :=
        unpackFileWithKey_ok read (set h read) ok
      exact ⟨h, nameBytes, typeBytes, transmitted, plain, rest⟩
    constructor
    · exact opened
    · intro sealings ideal key file ok
      obtain ⟨h, nameBytes, typeBytes, transmitted, plain, laid, decrypted, _⟩ := opened key file ok
      obtain ⟨s, mem, key_eq, _, packed⟩ := ideal.container_packed laid decrypted
      exact ⟨s, mem, key_eq, packed⟩
    · intro h read password key derived
      exact (unpackFileWithPassword_eq read (set h read) derived).symm

end

theorem keyAuthenticates_iff_sample :
    KeyAuthenticates sampleCrates sampleSealed.container ↔
      ∀ h, readHeader sampleCrates sampleSealed.container = .ok (.ok h) →
        h.flags &&& FLAG_CRYPT ≠ 0 := by
  apply keyAuthenticates_iff
  intro password salt _
  by_cases same : password = [0x70, 0x77] ∧ salt = sampleNonce
  · exact ⟨sampleKey, if_pos same⟩
  · exact ⟨.zero 32, if_neg same⟩

/-- A container that was never encrypted opens with a key, which authenticates
nothing; the path through a password refuses it. -/
theorem key_opens_plain_container :
    unpackFileWithKey sampleCrates samplePlain.container sampleKey = .ok (.ok {
      name := sampleName
      mimeType := sampleType
      bytes := [0x61]
      digest := sampleHash.hash [0x61]
      compression := .none
      encrypted := false
      transmittedSize := 1 }) ∧
    (∀ file, ¬ Authenticated sampleCrates samplePlain.container sampleKey file) ∧
    unpackFileWithPassword sampleCrates samplePlain.container [0x70, 0x77] =
      .ok (.error .noEncryption) ∧
    ¬ KeyAuthenticates sampleCrates samplePlain.container := by
  have opens : unpackFileWithKey sampleCrates samplePlain.container sampleKey = .ok (.ok {
      name := sampleName
      mimeType := sampleType
      bytes := [0x61]
      digest := sampleHash.hash [0x61]
      compression := .none
      encrypted := false
      transmittedSize := 1 }) := by
    decide +kernel
  have read : (readHeader sampleCrates samplePlain.container).map (·.map (·.nonce)) =
      .ok (.ok (.zero NONCE_LEN)) := by
    decide +kernel
  have forged : ∀ file, ¬ Authenticated sampleCrates samplePlain.container sampleKey file := by
    rintro file ⟨h, nameBytes, typeBytes, transmitted, plain, laid, decrypted, _⟩
    rw [laid.readHeader_eq sampleCrates] at read
    have nonce : h.nonce = .zero NONCE_LEN := Except.ok.inj (Except.ok.inj read)
    dsimp only [sampleCrates] at decrypted
    split at decrypted
    · rename_i same
      have other : FixedBytes.zero NONCE_LEN ≠ sampleNonce := by decide
      exact other (nonce.symm.trans same.2.1)
    · cases decrypted
  exact ⟨opens, forged, by decide +kernel, fun auth => forged _ (auth.authenticated _ _ opens)⟩

end DeOptiTransfer
