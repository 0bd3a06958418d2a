import DeOptiTransfer.Container.FileName
import DeOptiTransfer.Container.Header
import DeOptiTransfer.Container.MimeType

/-!
# Packing a file

The `pack_file` functions of `container.rs`. `prepare_ok`, `packFile_ok` and
`packFileEncrypted_ok` say what a call that succeeds has put into the container.
-/

namespace DeOptiTransfer

structure PackedOpticalFile where
  container : List UInt8
  compression : Compression
  encrypted : Bool
  originalSize : Nat
  transmittedSize : Nat
  deriving DecidableEq, Repr

structure Prepared where
  nameBytes : List UInt8
  typeBytes : List UInt8
  plain : List UInt8
  compression : Compression
  digest : FixedBytes 32
  deriving DecidableEq, Repr

/-- The part of `prepare` that decides whether compression pays. -/
def compressed (lib : Crates) (mimeType : Text) (bytes : List UInt8) :
    Except Error (Option (List UInt8)) :=
  if bytes.length ≥ GZIP_MIN ∧ ¬ isPrecompressedType mimeType then
    match gzip lib.flate2 bytes with
    | .error e => .error e
    | .ok c => .ok (if c.length + GZIP_ROOM < bytes.length then some c else none)
  else .ok none

def prepare (lib : Crates) (name mimeType : Text) (bytes : List UInt8) : Except Error Prepared :=
  if bytes.isEmpty then .error .empty
  else if bytes.length > MAX_FILE_BYTES then .error (.tooLarge bytes.length MAX_FILE_BYTES)
  else
    let nameBytes := utf8Encode (safeFileName name)
    match normalizeMimeType mimeType with
    | .error e => .error e
    | .ok normal =>
      let typeBytes := utf8Encode normal
      if nameBytes.length > 65535 ∨ typeBytes.length > 65535 then .error .metadata
      else
        let digest := lib.blake3.hash bytes
        match compressed lib mimeType bytes with
        | .error e => .error e
        | .ok (some plain) => .ok { nameBytes, typeBytes, plain, compression := .gzip, digest }
        | .ok none => .ok { nameBytes, typeBytes, plain := bytes, compression := .none, digest }

/-- The codec does not fail on a header. -/
def assemble (flags : UInt8) (nameBytes typeBytes transmitted : List UInt8) (fileLen : Nat)
    (digest : FixedBytes 32) (nonce : Nonce) : List UInt8 :=
  let header : Header := {
    magic := FILE_MAGIC
    flags
    nameLen := UInt16.ofNat nameBytes.length
    typeLen := UInt16.ofNat typeBytes.length
    fileLen := UInt32.ofNat fileLen
    xmitLen := UInt32.ofNat transmitted.length
    digest
    nonce }
  header.serialize ++ nameBytes ++ typeBytes ++ transmitted

def Compression.flag (compression : Compression) : UInt8 :=
  if compression = .gzip then FLAG_GZIP else 0

def packFile (lib : Crates) (name mimeType : Text) (bytes : List UInt8) :
    Except Error PackedOpticalFile :=
  match prepare lib name mimeType bytes with
  | .error e => .error e
  | .ok p =>
    let flags := p.compression.flag
    let container := assemble flags p.nameBytes p.typeBytes p.plain bytes.length p.digest
      (.zero NONCE_LEN)
    .ok {
      container
      compression := p.compression
      encrypted := false
      originalSize := bytes.length
      transmittedSize := p.plain.length }

def packFileEncrypted (lib : Crates) (name mimeType : Text) (bytes : List UInt8)
    (key : EncryptionKey) (nonce : Nonce) : Except Error PackedOpticalFile :=
  match prepare lib name mimeType bytes with
  | .error e => .error e
  | .ok p =>
    let flags := p.compression.flag ||| FLAG_CRYPT
    let aad := aad flags p.nameBytes p.typeBytes bytes.length (p.plain.length + TAG_LEN) p.digest
    match encrypt lib.aead key nonce p.plain aad with
    | .error e => .error e
    | .ok ciphertext =>
      let container := assemble flags p.nameBytes p.typeBytes ciphertext bytes.length p.digest nonce
      .ok {
        container
        compression := p.compression
        encrypted := true
        originalSize := bytes.length
        transmittedSize := ciphertext.length }

def packFileEncryptedWithPassword (lib : Crates) (name mimeType : Text) (bytes : List UInt8)
    (password : List UInt8) (nonce : Nonce) : Except Error PackedOpticalFile :=
  match EncryptionKey.fromPassword lib.argon2 password nonce with
  | .error e => .error e
  | .ok key => packFileEncrypted lib name mimeType bytes key nonce

/-! ## What a call that succeeds has packed -/

/-- The parts of a file that is ready to be written. -/
structure Prepared.Of (lib : Crates) (name mimeType : Text) (bytes : List UInt8) (p : Prepared) :
    Prop where
  nonempty : bytes ≠ []
  size_le : bytes.length ≤ MAX_FILE_BYTES
  nameBytes_eq : p.nameBytes = utf8Encode (safeFileName name)
  typeBytes_eq : ∃ normal, normalizeMimeType mimeType = .ok normal ∧ p.typeBytes = utf8Encode normal
  name_le : p.nameBytes.length ≤ 65535
  type_le : p.typeBytes.length ≤ 65535
  digest_eq : p.digest = lib.blake3.hash bytes
  plain_eq : p.compression = .none ∧ p.plain = bytes ∨
    p.compression = .gzip ∧ lib.flate2.encode bytes = .ok p.plain ∧
      p.plain.length + GZIP_ROOM < bytes.length

section
variable {lib : Crates} {name mimeType : Text} {bytes : List UInt8} {p : Prepared}
  {packed : PackedOpticalFile}

theorem compressed_ok {found : Option (List UInt8)} (h : compressed lib mimeType bytes = .ok found)
    (plain : List UInt8) (some_eq : found = some plain) :
    lib.flate2.encode bytes = .ok plain ∧ plain.length + GZIP_ROOM < bytes.length := by
  subst some_eq
  unfold compressed at h
  split at h
  · split at h
    · cases h
    · rename_i c encoded
      by_cases wins : c.length + GZIP_ROOM < bytes.length
      · rw [if_pos wins] at h
        cases h
        exact ⟨gzip_ok encoded, wins⟩
      · rw [if_neg wins] at h
        cases h
  · cases h

theorem prepared_of {p : Prepared} {value : Text} (nonempty : bytes ≠ [])
    (size_le : bytes.length ≤ MAX_FILE_BYTES)
    (nameBytes_eq : p.nameBytes = utf8Encode (safeFileName name))
    (normal : normalizeMimeType mimeType = .ok value) (typeBytes_eq : p.typeBytes = utf8Encode value)
    (narrow : ¬ ((utf8Encode (safeFileName name)).length > 65535 ∨
      (utf8Encode value).length > 65535))
    (digest_eq : p.digest = lib.blake3.hash bytes)
    (plain_eq : p.compression = .none ∧ p.plain = bytes ∨
      p.compression = .gzip ∧ lib.flate2.encode bytes = .ok p.plain ∧
        p.plain.length + GZIP_ROOM < bytes.length) : p.Of lib name mimeType bytes where
  nonempty := nonempty
  size_le := size_le
  nameBytes_eq := nameBytes_eq
  typeBytes_eq := ⟨value, normal, typeBytes_eq⟩
  name_le := nameBytes_eq ▸ Nat.le_of_not_lt fun lt => narrow (Or.inl lt)
  type_le := typeBytes_eq ▸ Nat.le_of_not_lt fun lt => narrow (Or.inr lt)
  digest_eq := digest_eq
  plain_eq := plain_eq

theorem prepare_ok (h : prepare lib name mimeType bytes = .ok p) : p.Of lib name mimeType bytes := by
  unfold prepare at h
  by_cases empty : bytes.isEmpty
  · simp [empty] at h
  by_cases large : bytes.length > MAX_FILE_BYTES
  · simp [empty, large] at h
  cases normal : normalizeMimeType mimeType with
  | error e => simp [empty, large, normal] at h
  | ok value =>
    by_cases wide : (utf8Encode (safeFileName name)).length > 65535 ∨ (utf8Encode value).length > 65535
    · simp only [empty, large, normal, wide, ↓reduceIte] at h
      cases h
    · simp only [empty, large, normal, wide, ↓reduceIte] at h
      cases pays : compressed lib mimeType bytes with
      | error e =>
        rw [pays] at h
        cases h
      | ok found =>
        rw [pays] at h
        have nonempty : bytes ≠ [] := by simpa using empty
        have size_le := Nat.le_of_not_lt large
        cases found with
        | none =>
          have parts := Except.ok.inj h
          apply prepared_of nonempty size_le _ normal _ wide <;> rw [← parts]
          exact Or.inl ⟨rfl, rfl⟩
        | some plain =>
          have parts := Except.ok.inj h
          obtain ⟨encoded, wins⟩ := compressed_ok pays plain rfl
          apply prepared_of nonempty size_le _ normal _ wide <;> rw [← parts]
          exact Or.inr ⟨rfl, encoded, wins⟩

/-- The plain data is never longer than the file. -/
theorem Prepared.Of.plain_le (of : p.Of lib name mimeType bytes) : p.plain.length ≤ bytes.length := by
  rcases of.plain_eq with ⟨_, eq⟩ | ⟨_, _, wins⟩
  · rw [eq]
  · omega

theorem packFile_ok (h : packFile lib name mimeType bytes = .ok packed) :
    ∃ p : Prepared, p.Of lib name mimeType bytes ∧ packed = {
      container := assemble p.compression.flag p.nameBytes p.typeBytes p.plain bytes.length p.digest
        (.zero NONCE_LEN)
      compression := p.compression
      encrypted := false
      originalSize := bytes.length
      transmittedSize := p.plain.length } := by
  unfold packFile at h
  cases prepared : prepare lib name mimeType bytes with
  | error e =>
    rw [prepared] at h
    cases h
  | ok p =>
    rw [prepared] at h
    cases h
    exact ⟨p, prepare_ok prepared, rfl⟩

theorem packFileEncrypted_ok {key : EncryptionKey} {nonce : Nonce}
    (h : packFileEncrypted lib name mimeType bytes key nonce = .ok packed) :
    ∃ (p : Prepared) (ciphertext : List UInt8), prepare lib name mimeType bytes = .ok p ∧
      lib.aead.encrypt key nonce p.plain (aad (p.compression.flag ||| FLAG_CRYPT) p.nameBytes
        p.typeBytes bytes.length (p.plain.length + TAG_LEN) p.digest) = some ciphertext ∧
      packed = {
        container := assemble (p.compression.flag ||| FLAG_CRYPT) p.nameBytes p.typeBytes ciphertext
          bytes.length p.digest nonce
        compression := p.compression
        encrypted := true
        originalSize := bytes.length
        transmittedSize := ciphertext.length } := by
  unfold packFileEncrypted at h
  cases prepared : prepare lib name mimeType bytes with
  | error e =>
    rw [prepared] at h
    cases h
  | ok p =>
    rw [prepared] at h
    dsimp only at h
    split at h
    · cases h
    · rename_i ciphertext sealed
      cases h
      exact ⟨p, ciphertext, rfl, encrypt_ok.mp sealed, rfl⟩

theorem assemble_length (flags : UInt8) (nameBytes typeBytes transmitted : List UInt8)
    (fileLen : Nat) (digest : FixedBytes 32) (nonce : Nonce) :
    (assemble flags nameBytes typeBytes transmitted fileLen digest nonce).length =
      FILE_HEADER_LEN + nameBytes.length + typeBytes.length + transmitted.length := by
  simp only [assemble, List.length_append, Header.serialize_length]

/-- The limits of the parts add up under the limit of a stream. -/
theorem Prepared.Of.assemble_le (of : p.Of lib name mimeType bytes) {flags : UInt8}
    {transmitted : List UInt8} {fileLen : Nat} {digest : FixedBytes 32} {nonce : Nonce}
    (le : transmitted.length ≤ p.plain.length + TAG_LEN) :
    (assemble flags p.nameBytes p.typeBytes transmitted fileLen digest nonce).length ≤
      MAX_STREAM_BYTES := by
  have name_le := of.name_le
  have type_le := of.type_le
  have plain_le := of.plain_le.trans of.size_le
  have room : FILE_HEADER_LEN + 65535 + 65535 + (MAX_FILE_BYTES + TAG_LEN) ≤ MAX_STREAM_BYTES := by
    decide
  rw [assemble_length]
  omega

theorem packFile_length_le (h : packFile lib name mimeType bytes = .ok packed) :
    packed.container.length ≤ MAX_STREAM_BYTES := by
  obtain ⟨p, of, rfl⟩ := packFile_ok h
  exact of.assemble_le (Nat.le_add_right _ _)

theorem packFileEncrypted_length_le (addsTag : lib.aead.AddsTag) {key : EncryptionKey}
    {nonce : Nonce} (h : packFileEncrypted lib name mimeType bytes key nonce = .ok packed) :
    packed.container.length ≤ MAX_STREAM_BYTES := by
  obtain ⟨p, ciphertext, prepared, sealed, rfl⟩ := packFileEncrypted_ok h
  exact (prepare_ok prepared).assemble_le (Nat.le_of_eq (addsTag _ _ _ _ _ sealed))

end

end DeOptiTransfer
