import DeOptiTransfer.Container.Pack

/-!
# Unpacking a container

The `unpack_file` functions of `container.rs`.

* `Laid`: a container laid out as its header says;
* `unpackImpl_returns`: no container makes it panic;
* `unpackImpl_ok`: what a container that is unpacked consists of, and how the
  file came out of it.
-/

namespace DeOptiTransfer

structure OpticalFile where
  name : Text
  mimeType : Text
  bytes : List UInt8
  digest : FixedBytes 32
  compression : Compression
  encrypted : Bool
  transmittedSize : Nat
  deriving DecidableEq, Repr

def readHeader (lib : Crates) (container : List UInt8) : Exec (Except Error Header) :=
  if container.length < FILE_HEADER_LEN then .ok (.error .truncated)
  else do
    let fields ← slice container 0 FILE_HEADER_LEN
    match Header.deserialize fields with
    | none => .ok (.error (.codec lib.codecError))
    | some header =>
      if header.magic ≠ FILE_MAGIC ∨ header.flags &&& ~~~(FLAG_GZIP ||| FLAG_CRYPT) ≠ 0 then
        .ok (.error .badMagic)
      else .ok (.ok header)

def validateLayout (header : Header) (containerLen : Nat) : Except Error Unit :=
  let dataOffset := FILE_HEADER_LEN + header.nameLen.toNat + header.typeLen.toNat
  let maxXmitLen := MAX_FILE_BYTES + if header.flags &&& FLAG_CRYPT ≠ 0 then TAG_LEN else 0
  if header.fileLen = 0 ∨ header.fileLen.toNat > MAX_FILE_BYTES ∨ header.xmitLen = 0 ∨
      header.xmitLen.toNat > maxXmitLen ∨
      dataOffset + header.xmitLen.toNat ≠ containerLen then .error .lengths
  else .ok ()

/-- The part of `unpack_impl` that gets the plain data. -/
def openData (lib : Crates) (h : Header) (nameBytes typeBytes transmitted : List UInt8)
    (key : Option EncryptionKey) : Except Error (List UInt8) :=
  if h.flags &&& FLAG_CRYPT ≠ 0 then
    match key with
    | none => .error .noEncryption
    | some key =>
      let aad := aad h.flags nameBytes typeBytes h.fileLen.toNat h.xmitLen.toNat h.digest
      decrypt lib.aead key h.nonce transmitted aad
  else .ok transmitted

/-- The part of `unpack_impl` that expands the plain data. -/
def expand (lib : Crates) (h : Header) (plain : List UInt8) : Exec (Except Error (List UInt8)) :=
  if h.flags &&& FLAG_GZIP ≠ 0 then
    if plain.length < GZIP_MIN_LEN then .ok (.error .gzipIncomplete)
    else do
      let start ← checkedSub plain.length 4
      let t ← slice plain start plain.length
      if UInt32.ofNat (leValue t) ≠ h.fileLen then .ok (.error .gzipSize)
      else
        let out ← gunzip lib.flate2 plain h.fileLen.toNat
        match out with
        | .error e => .ok (.error e)
        | .ok out =>
          if out.length ≠ h.fileLen.toNat then
            .ok (.error (.inflate "recovered length mismatch"))
          else .ok (.ok out)
  else .ok (.ok plain)

/-- The part of `unpack_impl` that checks the file and reads its metadata. -/
def checkFile (lib : Crates) (h : Header) (nameBytes typeBytes bytes : List UInt8) :
    Except Error OpticalFile :=
  if bytes.length ≠ h.fileLen.toNat then .error .lengths
  else if lib.blake3.hash bytes ≠ h.digest then .error .crypto
  else
    match fromUtf8 typeBytes with
    | none => .error .metadata
    | some mime =>
      match normalizeMimeType mime with
      | .error e => .error e
      | .ok mimeType =>
        .ok {
          name := safeFileName (fromUtf8Lossy nameBytes)
          mimeType
          bytes
          digest := h.digest
          compression := if h.flags &&& FLAG_GZIP ≠ 0 then .gzip else .none
          encrypted := h.flags &&& FLAG_CRYPT ≠ 0
          transmittedSize := h.xmitLen.toNat }

def unpackImpl (lib : Crates) (container : List UInt8) (key : Option EncryptionKey) :
    Exec (Except Error OpticalFile) := do
  let header ← readHeader lib container
  match header with
  | .error e => .ok (.error e)
  | .ok h =>
    match validateLayout h container.length with
    | .error e => .ok (.error e)
    | .ok () =>
      let dataOffset := FILE_HEADER_LEN + h.nameLen.toNat + h.typeLen.toNat
      let nameBytes ← slice container FILE_HEADER_LEN (FILE_HEADER_LEN + h.nameLen.toNat)
      let typeBytes ← slice container (FILE_HEADER_LEN + h.nameLen.toNat) dataOffset
      let transmitted ← slice container dataOffset container.length
      match openData lib h nameBytes typeBytes transmitted key with
      | .error e => .ok (.error e)
      | .ok plain =>
        let bytes ← expand lib h plain
        match bytes with
        | .error e => .ok (.error e)
        | .ok bytes => .ok (checkFile lib h nameBytes typeBytes bytes)

def unpackFile (lib : Crates) (container : List UInt8) : Exec (Except Error OpticalFile) :=
  unpackImpl lib container none

def unpackFileWithKey (lib : Crates) (container : List UInt8) (key : EncryptionKey) :
    Exec (Except Error OpticalFile) :=
  unpackImpl lib container (some key)

def unpackFileWithPassword (lib : Crates) (container password : List UInt8) :
    Exec (Except Error OpticalFile) := do
  let header ← readHeader lib container
  match header with
  | .error e => .ok (.error e)
  | .ok header =>
    if header.flags &&& FLAG_CRYPT = 0 then .ok (.error .noEncryption)
    else
      match validateLayout header container.length with
      | .error e => .ok (.error e)
      | .ok () =>
        match EncryptionKey.fromPassword lib.argon2 password header.nonce with
        | .error e => .ok (.error e)
        | .ok key => unpackImpl lib container (some key)

/-! ## Containers that are laid out as their header says -/

/-- The flags a reader knows. -/
def KnownFlags (flags : UInt8) : Prop := flags &&& ~~~(FLAG_GZIP ||| FLAG_CRYPT) = 0

instance (flags : UInt8) : Decidable (KnownFlags flags) := inferInstanceAs (Decidable (_ = _))

structure Laid (container : List UInt8) (h : Header) (nameBytes typeBytes transmitted : List UInt8) :
    Prop where
  container_eq : container = h.serialize ++ nameBytes ++ typeBytes ++ transmitted
  magic_eq : h.magic = FILE_MAGIC
  flags_known : KnownFlags h.flags
  name_length : nameBytes.length = h.nameLen.toNat
  type_length : typeBytes.length = h.typeLen.toNat
  xmit_length : transmitted.length = h.xmitLen.toNat
  file_pos : h.fileLen ≠ 0
  file_le : h.fileLen.toNat ≤ MAX_FILE_BYTES
  xmit_pos : h.xmitLen ≠ 0
  xmit_le : h.xmitLen.toNat ≤ MAX_FILE_BYTES + if h.flags &&& FLAG_CRYPT ≠ 0 then TAG_LEN else 0

section
variable {lib : Crates} {container : List UInt8} {h : Header}
  {nameBytes typeBytes transmitted : List UInt8} {key : Option EncryptionKey}

theorem readHeader_serialize (magic_eq : h.magic = FILE_MAGIC) (flags_known : KnownFlags h.flags)
    (rest : List UInt8) : readHeader lib (h.serialize ++ rest) = .ok (.ok h) := by
  have long : ¬ (h.serialize ++ rest).length < FILE_HEADER_LEN := by simp
  have cut : slice (h.serialize ++ rest) 0 FILE_HEADER_LEN = .ok h.serialize := by
    rw [slice_of_le (Nat.zero_le _) (by omega), List.drop_zero, Nat.sub_zero, List.take_left']
    exact h.serialize_length
  have good : ¬ (h.magic ≠ FILE_MAGIC ∨ h.flags &&& ~~~(FLAG_GZIP ||| FLAG_CRYPT) ≠ 0) := by
    push Not
    exact ⟨magic_eq, flags_known⟩
  simp only [readHeader, long, ↓reduceIte, cut, exec_ok_bind, Header.deserialize_serialize, good]

/-- Reading the header returns, and a header that is read is where the container
starts. -/
theorem readHeader_ok (lib : Crates) (container : List UInt8) :
    ∃ r, readHeader lib container = .ok r ∧ ∀ h, r = .ok h →
      (∃ rest, container = h.serialize ++ rest) ∧ h.magic = FILE_MAGIC ∧ KnownFlags h.flags := by
  unfold readHeader
  by_cases short : container.length < FILE_HEADER_LEN
  · exact ⟨_, if_pos short, fun h eq => by cases eq⟩
  · rw [if_neg short, slice_of_le (Nat.zero_le _) (by omega), exec_ok_bind, List.drop_zero,
      Nat.sub_zero]
    cases read : Header.deserialize (container.take FILE_HEADER_LEN) with
    | none => exact ⟨_, rfl, fun h eq => by cases eq⟩
    | some header =>
      dsimp only
      split
      · exact ⟨_, rfl, fun h eq => by cases eq⟩
      · rename_i good
        push Not at good
        refine ⟨_, rfl, fun h eq => ?_⟩
        cases eq
        constructor
        · use container.drop FILE_HEADER_LEN
          rw [Header.serialize_deserialize read, List.take_append_drop]
        · exact good

theorem validateLayout_ok {containerLen : Nat} :
    validateLayout h containerLen = .ok () ↔
      h.fileLen ≠ 0 ∧ h.fileLen.toNat ≤ MAX_FILE_BYTES ∧ h.xmitLen ≠ 0 ∧
        h.xmitLen.toNat ≤ MAX_FILE_BYTES + (if h.flags &&& FLAG_CRYPT ≠ 0 then TAG_LEN else 0) ∧
        FILE_HEADER_LEN + h.nameLen.toNat + h.typeLen.toNat + h.xmitLen.toNat = containerLen := by
  have passes (p : Prop) [Decidable p] :
      (if p then Except.error Error.lengths else .ok ()) = .ok () ↔ ¬ p := by
    by_cases bad : p <;> simp [bad]
  unfold validateLayout
  dsimp only
  rw [passes]
  push Not
  rfl

/-- A header that is read and validated cuts the container into its parts. -/
theorem exists_laid (read : readHeader lib container = .ok (.ok h))
    (valid : validateLayout h container.length = .ok ()) :
    ∃ nameBytes typeBytes transmitted, Laid container h nameBytes typeBytes transmitted := by
  obtain ⟨r, eq, header⟩ := readHeader_ok lib container
  rw [read] at eq
  cases eq
  obtain ⟨⟨rest, rfl⟩, magic_eq, flags_known⟩ := header h rfl
  obtain ⟨file_pos, file_le, xmit_pos, xmit_le, total⟩ := validateLayout_ok.mp valid
  rw [List.length_append, Header.serialize_length] at total
  refine ⟨rest.take h.nameLen.toNat, (rest.drop h.nameLen.toNat).take h.typeLen.toNat,
    (rest.drop h.nameLen.toNat).drop h.typeLen.toNat, ?_, magic_eq, flags_known, ?_, ?_, ?_,
    file_pos, file_le, xmit_pos, xmit_le⟩
  · simp only [List.append_assoc, List.take_append_drop]
  · rw [List.length_take]
    omega
  · rw [List.length_take, List.length_drop]
    omega
  · rw [List.length_drop, List.length_drop]
    omega

namespace Laid

variable (laid : Laid container h nameBytes typeBytes transmitted)
include laid

theorem length_eq : container.length =
    FILE_HEADER_LEN + h.nameLen.toNat + h.typeLen.toNat + h.xmitLen.toNat := by
  simp only [laid.container_eq, List.length_append, Header.serialize_length, laid.name_length,
    laid.type_length, laid.xmit_length]

theorem readHeader_eq (lib : Crates) : readHeader lib container = .ok (.ok h) := by
  rw [laid.container_eq, List.append_assoc, List.append_assoc]
  exact readHeader_serialize laid.magic_eq laid.flags_known _

theorem validateLayout_eq : validateLayout h container.length = .ok () := by
  apply validateLayout_ok.mpr
  exact ⟨laid.file_pos, laid.file_le, laid.xmit_pos, laid.xmit_le, laid.length_eq.symm⟩

theorem slices : slice container FILE_HEADER_LEN (FILE_HEADER_LEN + h.nameLen.toNat) = .ok nameBytes ∧
    slice container (FILE_HEADER_LEN + h.nameLen.toNat)
      (FILE_HEADER_LEN + h.nameLen.toNat + h.typeLen.toNat) = .ok typeBytes ∧
    slice container (FILE_HEADER_LEN + h.nameLen.toNat + h.typeLen.toNat) container.length =
      .ok transmitted := by
  have total := laid.length_eq
  have serialized := h.serialize_length
  have named : (h.serialize ++ nameBytes).length = FILE_HEADER_LEN + h.nameLen.toNat := by
    rw [List.length_append, serialized, laid.name_length]
  have typed : (h.serialize ++ nameBytes ++ typeBytes).length =
      FILE_HEADER_LEN + h.nameLen.toNat + h.typeLen.toNat := by
    rw [List.length_append, named, laid.type_length]
  refine ⟨?_, ?_, ?_⟩
  · rw [slice_of_le (by omega) (by omega), laid.container_eq, List.append_assoc, List.append_assoc,
      List.drop_left' serialized, List.take_left' (by rw [laid.name_length]; omega)]
  · rw [slice_of_le (by omega) (by omega), laid.container_eq, List.append_assoc _ typeBytes,
      List.drop_left' named, List.take_left' (by rw [laid.type_length]; omega)]
  · rw [slice_of_le (by omega) (by omega)]
    conv =>
      lhs
      rw [laid.container_eq]
    rw [List.drop_left' typed, List.take_of_length_le]
    rw [← laid.container_eq, laid.xmit_length]
    omega

/-- What `unpack_impl` does once the layout is checked. -/
theorem unpackImpl_eq (lib : Crates) (key : Option EncryptionKey) :
    unpackImpl lib container key =
      (match openData lib h nameBytes typeBytes transmitted key with
      | .error e => .ok (.error e)
      | .ok plain => do
        let bytes ← expand lib h plain
        match bytes with
        | .error e => .ok (.error e)
        | .ok bytes => .ok (checkFile lib h nameBytes typeBytes bytes)) := by
  obtain ⟨name, type, data⟩ := laid.slices
  simp only [unpackImpl, laid.readHeader_eq lib, laid.validateLayout_eq, exec_ok_bind, name, type,
    data]

end Laid

/-! ## What unpacking returns -/

theorem expand_returns (lib : Crates) (h : Header) (plain : List UInt8) :
    ∃ r, expand lib h plain = .ok r := by
  unfold expand
  by_cases compressed : h.flags &&& FLAG_GZIP ≠ 0
  · rw [if_pos compressed]
    by_cases short : plain.length < GZIP_MIN_LEN
    · exact ⟨_, if_pos short⟩
    · have long : 18 ≤ plain.length := Nat.le_of_not_lt short
      rw [if_neg short, checkedSub_of_le (by omega), exec_ok_bind,
        slice_of_le (Nat.sub_le _ _) (Nat.le_refl _), exec_ok_bind]
      split
      · exact ⟨_, rfl⟩
      · obtain ⟨r, eq, _⟩ := gunzip_returns lib.flate2 plain h.fileLen.toNat
        rw [eq, exec_ok_bind]
        cases r with
        | error e => exact ⟨_, rfl⟩
        | ok out =>
          dsimp only
          split
          · exact ⟨_, rfl⟩
          · exact ⟨_, rfl⟩
  · exact ⟨_, if_neg compressed⟩

/-- What a file that passes the checks is. -/
theorem checkFile_ok {bytes : List UInt8} {file : OpticalFile}
    (checked : checkFile lib h nameBytes typeBytes bytes = .ok file) :
    file.bytes = bytes ∧ bytes.length = h.fileLen.toNat ∧ lib.blake3.hash bytes = file.digest ∧
      file.digest = h.digest ∧ ∃ mime, fromUtf8 typeBytes = some mime ∧
        normalizeMimeType mime = .ok file.mimeType := by
  unfold checkFile at checked
  split at checked
  · cases checked
  · rename_i length
    split at checked
    · cases checked
    · rename_i digest
      split at checked
      · cases checked
      · rename_i mime text
        split at checked
        · cases checked
        · rename_i normal
          have parts := Except.ok.inj checked
          refine ⟨?_, not_not.mp length, ?_, ?_, mime, text, ?_⟩ <;> rw [← parts]
          · exact not_not.mp digest
          · exact normal

/-! ## Errors of each part -/

theorem validateLayout_error {containerLen : Nat} {e : Error}
    (refused : validateLayout h containerLen = .error e) : e = .lengths := by
  have only (p : Prop) [Decidable p]
      (fails : (if p then Except.error Error.lengths else .ok ()) = .error e) : e = .lengths := by
    by_cases bad : p
    · rw [if_pos bad] at fails
      exact (Except.error.inj fails).symm
    · rw [if_neg bad] at fails
      cases fails
  exact only _ refused

theorem expand_error {plain : List UInt8} {e : Error}
    (refused : expand lib h plain = .ok (.error e)) :
    e = .gzipIncomplete ∨ e = .gzipSize ∨ ∃ msg, e = .inflate msg := by
  unfold expand at refused
  split at refused
  · split at refused
    · cases refused
      exact Or.inl rfl
    · obtain ⟨start, _, refused⟩ := exec_bind_eq_ok.mp refused
      obtain ⟨trailer, _, refused⟩ := exec_bind_eq_ok.mp refused
      split at refused
      · cases refused
        exact Or.inr (Or.inl rfl)
      · obtain ⟨out, inflated, refused⟩ := exec_bind_eq_ok.mp refused
        apply Or.inr
        apply Or.inr
        cases out with
        | error e' =>
          cases refused
          exact gunzip_error inflated
        | ok out =>
          dsimp only at refused
          split at refused
          · cases refused
            exact ⟨_, rfl⟩
          · cases refused
  · cases refused

theorem checkFile_error {bytes : List UInt8} {e : Error}
    (refused : checkFile lib h nameBytes typeBytes bytes = .error e) :
    e = .lengths ∨ e = .crypto ∨ e = .metadata := by
  unfold checkFile at refused
  split at refused
  · cases refused
    exact Or.inl rfl
  · split at refused
    · cases refused
      exact Or.inr (Or.inl rfl)
    · apply Or.inr
      apply Or.inr
      split at refused
      · cases refused
        rfl
      · split at refused
        · rename_i mime
          cases refused
          exact normalizeMimeType_error mime
        · cases refused

/-! ## Whole containers -/

/-- No container makes unpacking panic. -/
theorem unpackImpl_returns (lib : Crates) (container : List UInt8) (key : Option EncryptionKey) :
    ∃ r, unpackImpl lib container key = .ok r := by
  obtain ⟨r, read, _⟩ := readHeader_ok lib container
  cases r with
  | error e =>
    use .error e
    simp only [unpackImpl, read, exec_ok_bind]
  | ok h =>
    cases valid : validateLayout h container.length with
    | error e =>
      use .error e
      simp only [unpackImpl, read, exec_ok_bind, valid]
    | ok _ =>
      obtain ⟨nameBytes, typeBytes, transmitted, laid⟩ := exists_laid read valid
      rw [laid.unpackImpl_eq]
      cases openData lib h nameBytes typeBytes transmitted key with
      | error e => exact ⟨_, rfl⟩
      | ok plain =>
        obtain ⟨bytes, expanded⟩ := expand_returns lib h plain
        dsimp only
        rw [expanded, exec_ok_bind]
        cases bytes with
        | error e => exact ⟨_, rfl⟩
        | ok bytes => exact ⟨_, rfl⟩

/-- Unpacking is layout, opening, expansion and checks, in this order, and
returns a file exactly when each of them succeeds. -/
theorem unpackImpl_ok {file : OpticalFile} :
    unpackImpl lib container key = .ok (.ok file) ↔
      ∃ h nameBytes typeBytes transmitted plain bytes,
        Laid container h nameBytes typeBytes transmitted ∧
        openData lib h nameBytes typeBytes transmitted key = .ok plain ∧
        expand lib h plain = .ok (.ok bytes) ∧
        checkFile lib h nameBytes typeBytes bytes = .ok file := by
  constructor
  · intro ok
    obtain ⟨r, read, _⟩ := readHeader_ok lib container
    cases r with
    | error e =>
      simp only [unpackImpl, read, exec_ok_bind] at ok
      cases ok
    | ok h =>
      cases valid : validateLayout h container.length with
      | error e =>
        simp only [unpackImpl, read, exec_ok_bind, valid] at ok
        cases ok
      | ok _ =>
        obtain ⟨nameBytes, typeBytes, transmitted, laid⟩ := exists_laid read valid
        rw [laid.unpackImpl_eq] at ok
        cases opened : openData lib h nameBytes typeBytes transmitted key with
        | error e =>
          rw [opened] at ok
          cases ok
        | ok plain =>
          simp only [opened, exec_bind_eq_ok] at ok
          obtain ⟨bytes, expanded, ok⟩ := ok
          cases bytes with
          | error e => cases ok
          | ok bytes =>
            simp only [Except.ok.injEq] at ok
            exact ⟨h, nameBytes, typeBytes, transmitted, plain, bytes, laid, opened, expanded, ok⟩
  · rintro ⟨h, nameBytes, typeBytes, transmitted, plain, bytes, laid, opened, expanded, checked⟩
    simp only [laid.unpackImpl_eq, opened, expanded, exec_ok_bind, checked]

end

end DeOptiTransfer
