import DeOptiTransfer.Container.Unpack

/-!
# A packed file is unpacked

* `assemble_laid`: the writer's layout is the reader's, with no cast losing
  anything;
* `Prepared.Of.unpackImpl_eq`: what the reader makes of prepared parts;
* `unpackFile_packFile`: the round trip of a plain container;
* `nameKept_iff`: which names come through it.
-/

namespace DeOptiTransfer

/-! ## Layout -/

/-- The reader finds what the writer has put down. Each length is the value of
the header field it was cast to. -/
theorem assemble_laid {flags : UInt8} {nameBytes typeBytes transmitted : List UInt8} {fileLen : Nat}
    (digest : FixedBytes 32) (nonce : Nonce) (flags_known : KnownFlags flags)
    (name_le : nameBytes.length ≤ 65535) (type_le : typeBytes.length ≤ 65535)
    (file_pos : 0 < fileLen) (file_le : fileLen ≤ MAX_FILE_BYTES)
    (xmit_pos : 0 < transmitted.length)
    (xmit_le : transmitted.length ≤
      MAX_FILE_BYTES + if flags &&& FLAG_CRYPT ≠ 0 then TAG_LEN else 0) :
    ∃ h : Header, Laid (assemble flags nameBytes typeBytes transmitted fileLen digest nonce) h
        nameBytes typeBytes transmitted ∧
      h.flags = flags ∧ h.fileLen.toNat = fileLen ∧ h.digest = digest ∧ h.nonce = nonce := by
  have name_cast : (UInt16.ofNat nameBytes.length).toNat = nameBytes.length :=
    UInt16.toNat_ofNat_of_lt' (by simp only [UInt16.size]; omega)
  have type_cast : (UInt16.ofNat typeBytes.length).toNat = typeBytes.length :=
    UInt16.toNat_ofNat_of_lt' (by simp only [UInt16.size]; omega)
  have file_cast : (UInt32.ofNat fileLen).toNat = fileLen :=
    UInt32.toNat_ofNat_of_lt' (Nat.lt_of_le_of_lt file_le (by decide))
  have room : MAX_FILE_BYTES + (if flags &&& FLAG_CRYPT ≠ 0 then TAG_LEN else 0) < UInt32.size := by
    split <;> decide
  have xmit_cast : (UInt32.ofNat transmitted.length).toNat = transmitted.length :=
    UInt32.toNat_ofNat_of_lt' (Nat.lt_of_le_of_lt xmit_le room)
  refine ⟨_, ⟨rfl, rfl, flags_known, name_cast.symm, type_cast.symm, xmit_cast.symm, ?_, ?_, ?_, ?_⟩,
    rfl, file_cast, rfl, rfl⟩
  · intro zero
    have := congrArg UInt32.toNat zero
    rw [file_cast] at this
    exact Nat.ne_of_gt file_pos this
  · rw [file_cast]
    exact file_le
  · intro zero
    have := congrArg UInt32.toNat zero
    rw [xmit_cast] at this
    exact Nat.ne_of_gt xmit_pos this
  · rw [xmit_cast]
    exact xmit_le

theorem Compression.flag_known (c : Compression) : KnownFlags c.flag := by
  cases c <;> decide

theorem Compression.flag_crypt_known (c : Compression) : KnownFlags (c.flag ||| FLAG_CRYPT) := by
  cases c <;> decide

theorem Compression.flag_gzip (c : Compression) : c.flag &&& FLAG_GZIP ≠ 0 ↔ c = .gzip := by
  cases c <;> decide

theorem Compression.flag_crypt_gzip (c : Compression) :
    (c.flag ||| FLAG_CRYPT) &&& FLAG_GZIP ≠ 0 ↔ c = .gzip := by
  cases c <;> decide

theorem Compression.flag_not_crypt (c : Compression) : ¬ c.flag &&& FLAG_CRYPT ≠ 0 := by
  cases c <;> decide

theorem Compression.flag_crypt (c : Compression) : (c.flag ||| FLAG_CRYPT) &&& FLAG_CRYPT ≠ 0 := by
  cases c <;> decide

/-! ## Expansion and checks -/

section
variable {lib : Crates} {h : Header} {name mimeType : Text} {bytes : List UInt8} {p : Prepared}

/-- The gzip checks of the reader pass on what the encoder has written. -/
theorem expand_encoded (lawful : lib.flate2.Lawful) {compressed : List UInt8}
    (encoded : lib.flate2.encode bytes = .ok compressed) (flag : h.flags &&& FLAG_GZIP ≠ 0)
    (file_eq : h.fileLen.toNat = bytes.length) : expand lib h compressed = .ok (.ok bytes) := by
  have long := lawful.length_le bytes compressed encoded
  have four : 4 ≤ compressed.length := Nat.le_trans (by decide) long
  have trailer : slice compressed (compressed.length - 4) compressed.length =
      .ok (leBytes 4 bytes.length) := by
    rw [slice_of_le (Nat.sub_le _ _) (Nat.le_refl _), lawful.isize bytes compressed encoded,
      List.take_of_length_le]
    rw [leBytes_length]
    omega
  have size : UInt32.ofNat (leValue (leBytes 4 bytes.length)) = h.fileLen := by
    rw [← file_eq]
    exact uint32_of_field h.fileLen
  have short : ¬ compressed.length < GZIP_MIN_LEN := Nat.not_lt.mpr long
  have inflated : gunzip lib.flate2 compressed h.fileLen.toNat = .ok (.ok bytes) :=
    gunzip_ok lawful encoded (by omega)
  have same : ¬ bytes.length ≠ h.fileLen.toNat := by omega
  simp only [expand, flag, ↓reduceIte, short, checkedSub_of_le four, exec_ok_bind, trailer, size,
    ne_eq, not_true_eq_false, inflated, same, not_false_eq_true]

theorem Prepared.Of.expand_eq (lawful : lib.flate2.Lawful) (of : p.Of lib name mimeType bytes)
    (flag : h.flags &&& FLAG_GZIP ≠ 0 ↔ p.compression = .gzip)
    (file_eq : h.fileLen.toNat = bytes.length) : expand lib h p.plain = .ok (.ok bytes) := by
  rcases of.plain_eq with ⟨plain, eq⟩ | ⟨compressed, encoded, _⟩
  · have clear : ¬ h.flags &&& FLAG_GZIP ≠ 0 := by
      rw [flag, plain]
      decide
    rw [expand, if_neg clear, eq]
  · exact expand_encoded lawful encoded (flag.mpr compressed) file_eq

/-- The reader's checks pass on the parts of a prepared file, and it normalises
what is normal already. -/
theorem Prepared.Of.checkFile_eq (of : p.Of lib name mimeType bytes)
    (flag : h.flags &&& FLAG_GZIP ≠ 0 ↔ p.compression = .gzip)
    (file_eq : h.fileLen.toNat = bytes.length) (digest_eq : h.digest = p.digest) :
    ∃ normal, normalizeMimeType mimeType = .ok normal ∧
      checkFile lib h p.nameBytes p.typeBytes bytes = .ok {
        name := safeFileName (safeFileName name)
        mimeType := normal
        bytes
        digest := lib.blake3.hash bytes
        compression := p.compression
        encrypted := h.flags &&& FLAG_CRYPT ≠ 0
        transmittedSize := h.xmitLen.toNat } := by
  obtain ⟨normal, normal_eq, type_eq⟩ := of.typeBytes_eq
  have digest : h.digest = lib.blake3.hash bytes := digest_eq.trans of.digest_eq
  have compression : (if h.flags &&& FLAG_GZIP ≠ 0 then Compression.gzip else .none) =
      p.compression := by
    cases eq : p.compression with
    | none => exact if_neg (by rw [flag, eq]; decide)
    | gzip => exact if_pos (flag.mpr eq)
  refine ⟨normal, normal_eq, ?_⟩
  simp only [checkFile, file_eq, ne_eq, not_true_eq_false, ↓reduceIte, digest, type_eq,
    fromUtf8_utf8Encode, normalizeMimeType_idempotent normal_eq, of.nameBytes_eq,
    fromUtf8Lossy_utf8Encode]
  simp only [← compression, ne_eq]

/-- What the reader makes of prepared parts, once it has got hold of the plain
data. -/
theorem Prepared.Of.unpackImpl_eq (lawful : lib.flate2.Lawful) (of : p.Of lib name mimeType bytes)
    {container transmitted : List UInt8} {key : Option EncryptionKey}
    (laid : Laid container h p.nameBytes p.typeBytes transmitted)
    (opened : openData lib h p.nameBytes p.typeBytes transmitted key = .ok p.plain)
    (flag : h.flags &&& FLAG_GZIP ≠ 0 ↔ p.compression = .gzip)
    (file_eq : h.fileLen.toNat = bytes.length) (digest_eq : h.digest = p.digest) :
    ∃ normal, normalizeMimeType mimeType = .ok normal ∧
      unpackImpl lib container key = .ok (.ok {
        name := safeFileName (safeFileName name)
        mimeType := normal
        bytes
        digest := lib.blake3.hash bytes
        compression := p.compression
        encrypted := h.flags &&& FLAG_CRYPT ≠ 0
        transmittedSize := transmitted.length }) := by
  obtain ⟨normal, normal_eq, checked⟩ := of.checkFile_eq flag file_eq digest_eq
  refine ⟨normal, normal_eq, ?_⟩
  rw [laid.unpackImpl_eq, opened]
  simp only [of.expand_eq lawful flag file_eq, exec_ok_bind, checked, laid.xmit_length]

/-- What a plain container consists of, and what the reader makes of it. -/
theorem packFile_unpacks (lawful : lib.flate2.Lawful) {packed : PackedOpticalFile}
    (h : packFile lib name mimeType bytes = .ok packed) :
    ∃ (p : Prepared) (header : Header) (normal : Text), p.Of lib name mimeType bytes ∧
      Laid packed.container header p.nameBytes p.typeBytes p.plain ∧
      header.fileLen.toNat = bytes.length ∧ normalizeMimeType mimeType = .ok normal ∧
      unpackFile lib packed.container = .ok (.ok {
        name := safeFileName (safeFileName name)
        mimeType := normal
        bytes
        digest := lib.blake3.hash bytes
        compression := packed.compression
        encrypted := false
        transmittedSize := packed.transmittedSize }) := by
  obtain ⟨p, of, rfl⟩ := packFile_ok h
  have pos := List.length_pos_iff.mpr of.nonempty
  have plain_pos : 0 < p.plain.length := by
    rcases of.plain_eq with ⟨_, eq⟩ | ⟨_, encoded, _⟩
    · rw [eq]
      exact pos
    · exact Nat.lt_of_lt_of_le (by decide) (lawful.length_le _ _ encoded)
  obtain ⟨header, laid, flags_eq, file_eq, digest_eq, _⟩ :=
    assemble_laid p.digest (.zero NONCE_LEN) p.compression.flag_known of.name_le of.type_le pos
      of.size_le plain_pos (Nat.le_add_right_of_le (of.plain_le.trans of.size_le))
  have clear : ¬ header.flags &&& FLAG_CRYPT ≠ 0 := by
    rw [flags_eq]
    exact p.compression.flag_not_crypt
  have opened : openData lib header p.nameBytes p.typeBytes p.plain none = .ok p.plain :=
    if_neg clear
  obtain ⟨normal, normal_eq, unpacked⟩ := of.unpackImpl_eq lawful laid opened
    (by rw [flags_eq]; exact p.compression.flag_gzip) file_eq digest_eq
  refine ⟨p, header, normal, of, laid, file_eq, normal_eq, ?_⟩
  simp only [unpackFile, unpacked, clear, decide_false]

/-- A packed container has the layout its header describes, with every length
the value of the field it was cast to, and it unpacks to the file under the
sanitised form of the stored name. -/
theorem unpackFile_packFile (lawful : lib.flate2.Lawful) {packed : PackedOpticalFile}
    (h : packFile lib name mimeType bytes = .ok packed) :
    ∃ (header : Header) (stored normal : Text) (transmitted : List UInt8),
      Laid packed.container header (utf8Encode stored) (utf8Encode normal) transmitted ∧
      header.nameLen.toNat = (utf8Encode stored).length ∧
      header.typeLen.toNat = (utf8Encode normal).length ∧
      header.fileLen.toNat = bytes.length ∧ header.xmitLen.toNat = transmitted.length ∧
      stored = safeFileName name ∧ normalizeMimeType mimeType = .ok normal ∧
      unpackFile lib packed.container = .ok (.ok {
        name := safeFileName stored
        mimeType := normal
        bytes
        digest := lib.blake3.hash bytes
        compression := packed.compression
        encrypted := false
        transmittedSize := packed.transmittedSize }) := by
  obtain ⟨p, header, normal, of, laid, file_eq, normal_eq, unpacked⟩ := packFile_unpacks lawful h
  obtain ⟨normal', normal_eq', type_eq⟩ := of.typeBytes_eq
  rw [normal_eq] at normal_eq'
  cases normal_eq'
  rw [of.nameBytes_eq, type_eq] at laid
  exact ⟨header, safeFileName name, normal, p.plain, laid, laid.name_length.symm,
    laid.type_length.symm, file_eq, laid.xmit_length.symm, rfl, normal_eq, unpacked⟩

end

def samplePlain : PackedOpticalFile where
  container := assemble 0 (utf8Encode sampleName) (utf8Encode sampleType) [0x61] 1
    (sampleHash.hash [0x61]) (.zero NONCE_LEN)
  compression := .none
  encrypted := false
  originalSize := 1
  transmittedSize := 1

theorem samplePlain_packed :
    packFile sampleCrates sampleName sampleType [0x61] = .ok samplePlain := by
  decide +kernel

/-- 800 times the byte `a`. -/
def repetitive : List UInt8 := List.replicate 800 0x61

def repetitiveGzip : List UInt8 :=
  [0x1f, 0x8b, 0x08, 0x00, 0x00, 0x00, 0x00, 0x00, 0x00, 0xff, 0x4b, 0x4c, 0x1c, 0x05, 0xa3, 0x60,
    0x14, 0xe0, 0x02, 0x00, 0x50, 0x91, 0x63, 0x49, 0x20, 0x03, 0x00, 0x00]

def repetitiveDigest : FixedBytes 32 :=
  ⟨[0xbc, 0xdc, 0x82, 0x0c, 0x0c, 0x71, 0xdc, 0x3d, 0xfb, 0xfc, 0x3e, 0x5a, 0x5f, 0x16, 0xb3, 0xad,
    0x06, 0x9f, 0xf9, 0xb1, 0x6d, 0xd0, 0xa5, 0x92, 0xda, 0x43, 0x10, 0xd7, 0x5c, 0x16, 0xfb,
    0x0f], rfl⟩

def repetitiveCrates : Crates :=
  { sampleCrates with
    blake3.hash := fun bytes =>
      if bytes = repetitive then repetitiveDigest else sampleHash.hash bytes
    flate2 := .buffered
      (fun bytes => if bytes = repetitive then repetitiveGzip else Flate2.store bytes)
      (fun c => if c = repetitiveGzip then repetitive else Flate2.unstore c) }

theorem repetitive_lawful : repetitiveCrates.flate2.Lawful := by
  apply Flate2.buffered_lawful
  · intro bytes
    by_cases rep : bytes = repetitive
    · rw [if_pos rep, if_pos rfl, rep]
    · have other : Flate2.store bytes ≠ repetitiveGzip := fun eq => by
        have := congrArg List.head? eq
        cases this
      rw [if_neg rep, if_neg other, Flate2.unstore_store]
  · intro bytes
    by_cases rep : bytes = repetitive
    · refine ⟨repetitiveGzip.take 24, ?_, by decide⟩
      rw [if_pos rep, rep]
      decide +kernel
    · rw [if_neg rep]
      exact ⟨List.replicate 14 0 ++ bytes, rfl, by simp⟩

def repetitivePacked : PackedOpticalFile where
  container := assemble FLAG_GZIP (utf8Encode sampleName) (utf8Encode sampleType) repetitiveGzip 800
    repetitiveDigest (.zero NONCE_LEN)
  compression := .gzip
  encrypted := false
  originalSize := 800
  transmittedSize := 28

theorem repetitive_packed :
    packFile repetitiveCrates sampleName sampleType repetitive = .ok repetitivePacked := by
  decide +kernel

/-- A file that is stored as it is, and one that is compressed. -/
theorem unpackFile_packFile_sample :
    (∃ (header : Header) (stored normal : Text) (transmitted : List UInt8),
      Laid samplePlain.container header (utf8Encode stored) (utf8Encode normal) transmitted ∧
      header.nameLen.toNat = (utf8Encode stored).length ∧
      header.typeLen.toNat = (utf8Encode normal).length ∧
      header.fileLen.toNat = 1 ∧ header.xmitLen.toNat = transmitted.length ∧
      stored = safeFileName sampleName ∧ normalizeMimeType sampleType = .ok normal ∧
      unpackFile sampleCrates samplePlain.container = .ok (.ok {
        name := safeFileName stored
        mimeType := normal
        bytes := [0x61]
        digest := sampleHash.hash [0x61]
        compression := .none
        encrypted := false
        transmittedSize := 1 })) ∧
    ∃ (header : Header) (stored normal : Text) (transmitted : List UInt8),
      Laid repetitivePacked.container header (utf8Encode stored) (utf8Encode normal) transmitted ∧
      header.nameLen.toNat = (utf8Encode stored).length ∧
      header.typeLen.toNat = (utf8Encode normal).length ∧
      header.fileLen.toNat = repetitive.length ∧ header.xmitLen.toNat = transmitted.length ∧
      stored = safeFileName sampleName ∧ normalizeMimeType sampleType = .ok normal ∧
      unpackFile repetitiveCrates repetitivePacked.container = .ok (.ok {
        name := safeFileName stored
        mimeType := normal
        bytes := repetitive
        digest := repetitiveCrates.blake3.hash repetitive
        compression := .gzip
        encrypted := false
        transmittedSize := 28 }) :=
  ⟨unpackFile_packFile Flate2.stored_lawful samplePlain_packed,
    unpackFile_packFile repetitive_lawful repetitive_packed⟩

/-! ## Names -/

/-- Sanitising `name` again changes nothing, and a file packed under it comes out
under the name that was stored. -/
structure NameKept (name : Text) : Prop where
  idempotent : safeFileName (safeFileName name) = safeFileName name
  unpacked : ∀ (lib : Crates) (mimeType : Text) (bytes : List UInt8) (packed : PackedOpticalFile),
    lib.flate2.Lawful → packFile lib name mimeType bytes = .ok packed →
      ∃ h nameBytes typeBytes transmitted file,
        Laid packed.container h nameBytes typeBytes transmitted ∧
        nameBytes = utf8Encode (safeFileName name) ∧
        unpackFile lib packed.container = .ok (.ok file) ∧ file.name = safeFileName name

/-- A name is kept exactly when it does not hide white space behind dots. -/
theorem nameKept_iff (name : Text) : NameKept name ↔ ¬ HidesWhitespace name := by
  constructor
  · intro kept
    exact (safeFileName_idempotent name).mp kept.idempotent
  · intro none_hidden
    have again := (safeFileName_idempotent name).mpr none_hidden
    refine ⟨again, ?_⟩
    intro lib mimeType bytes packed lawful packs
    obtain ⟨p, header, normal, of, laid, _, _, unpacked⟩ := packFile_unpacks lawful packs
    refine ⟨header, _, _, _, _, laid, of.nameBytes_eq, unpacked, ?_⟩
    simp only [again]

theorem not_nameKept {name stored : Text} (once : safeFileName name = stored)
    (again : safeFileName stored ≠ stored) : ¬ NameKept name := by
  intro kept
  subst once
  exact again kept.idempotent

/-- A no-break space comes to the end of the name when the dot behind it is
cut, and is only cut itself the next time. -/
theorem hidden_space_survives :
    safeFileName ['a', '\u00a0', '.'] = ['a', '\u00a0'] ∧
      safeFileName ['a', '\u00a0'] = ['a'] ∧ ¬ NameKept ['a', '\u00a0', '.'] := by
  have once : safeFileName ['a', '\u00a0', '.'] = ['a', '\u00a0'] := by decide +kernel
  have twice : safeFileName ['a', '\u00a0'] = ['a'] := by decide +kernel
  refine ⟨once, twice, not_nameKept once ?_⟩
  rw [twice]
  decide

end DeOptiTransfer
