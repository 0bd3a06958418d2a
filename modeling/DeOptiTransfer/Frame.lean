import DeOptiTransfer.Base.Fields

/-!
# The frame format

`frame.rs`: a header of fixed fields behind two magic bytes, then one block.
The third-party field codec is the fixed-width little-endian one, and the hash
is any function with digests of 32 bytes.

* `deserialize_serialize`, `serialize_deserialize`: the header fields;
* `parseFrame_ok`: a byte string is accepted exactly when it is a packed frame
  with valid fields and a matching tag, so parsing inverts packing;
* `frame_format`: this, and what an alteration that is not noticed amounts to.
-/

namespace DeOptiTransfer

def HEADER_LEN : Nat := 25
def MAGIC0 : UInt8 := 0xd1
def MAGIC1 : UInt8 := 0x0f
def FLAG_SYSTEMATIC : UInt8 := 1
def FLAG_CAUSAL : UInt8 := 2
def FLAG_MASK : UInt8 := FLAG_SYSTEMATIC ||| FLAG_CAUSAL
def MAX_FILE_BYTES : Nat := 64 * 1024 * 1024
def MAX_STREAM_BYTES : Nat := MAX_FILE_BYTES + 2 * 65535 + 128

/-- The BLAKE3 hash of a byte string. -/
structure Blake3 where
  hash : List UInt8 → FixedBytes 32

/-- BLAKE3 on the byte strings that the examples hash. -/
def sampleHash : Blake3 where
  hash bytes :=
    if bytes = [0x61] then
      ⟨[0x17, 0x76, 0x2f, 0xdd, 0xd9, 0x69, 0xa4, 0x53, 0x92, 0x5d, 0x65, 0x71, 0x7a, 0xc3, 0xee,
        0xa2, 0x13, 0x20, 0xb6, 0x6b, 0x54, 0x34, 0x2f, 0xde, 0x15, 0x12, 0x8d, 0x6c, 0xaf, 0x21,
        0x21, 0x5f], rfl⟩
    else if bytes = [0x61, 0x62] then
      ⟨[0x2d, 0xc9, 0x99, 0x99, 0xa6, 0xaa, 0xef, 0x3f, 0x20, 0x34, 0x9d, 0x2e, 0xd4, 0x05, 0x7a,
        0x2b, 0x54, 0x41, 0x95, 0x45, 0xda, 0xbb, 0x80, 0x9e, 0x63, 0x81, 0xde, 0x1b, 0xad, 0x83,
        0x37, 0xe2], rfl⟩
    else if bytes = [0x02, 0x07, 0x00, 0x00, 0x00, 0x00, 0x00, 0x02, 0x00, 0x01, 0x00, 0x02, 0x00,
        0x00, 0x00, 0x2d, 0xc9, 0x99, 0x99, 0x61] then
      ⟨[0xbf, 0xc0, 0x4d, 0x39, 0x6f, 0x8f, 0x6f, 0xd1, 0x71, 0x01, 0x59, 0xd7, 0xef, 0x7e, 0xb2,
        0x32, 0x9e, 0x7b, 0xf7, 0x07, 0x6c, 0xba, 0x6f, 0xc0, 0x9b, 0x5f, 0x85, 0x4b, 0xd3, 0xce,
        0x54, 0x6c], rfl⟩
    else if bytes = [0x02, 0x07, 0x00, 0x01, 0x00, 0x00, 0x00, 0x02, 0x00, 0x01, 0x00, 0x02, 0x00,
        0x00, 0x00, 0x2d, 0xc9, 0x99, 0x99, 0x03] then
      ⟨[0xac, 0x63, 0xea, 0xfa, 0x43, 0x21, 0xb8, 0xe9, 0x81, 0x69, 0x82, 0x19, 0xfe, 0x93, 0x58,
        0x1c, 0xa8, 0xbe, 0x5e, 0xb0, 0x52, 0xe8, 0xca, 0x70, 0x3d, 0xf9, 0xd0, 0x55, 0x29, 0x57,
        0xc5, 0xa6], rfl⟩
    else .zero 32

structure FrameHeader where
  flags : UInt8
  sessionId : UInt16
  seq : UInt32
  k : UInt16
  blockLen : UInt16
  totalLen : UInt32
  streamTag : UInt32
  frameTag : UInt32
  deriving DecidableEq, Repr

structure StreamIdentity where
  flags : UInt8
  sessionId : UInt16
  k : UInt16
  blockLen : UInt16
  totalLen : UInt32
  streamTag : UInt32
  deriving DecidableEq, Repr

/-- `u32::from_le_bytes` of the first four bytes of a digest. -/
def tagOfDigest (digest : FixedBytes 32) : UInt32 := UInt32.ofNat (leValue (digest.bytes.take 4))

def checksum32 (blake3 : Blake3) (bytes : List UInt8) : UInt32 := tagOfDigest (blake3.hash bytes)

namespace FrameHeader

/-- `CFG.serialize(h)` -/
def serialize (h : FrameHeader) : List UInt8 :=
  [leBytes 1 h.flags.toNat, leBytes 2 h.sessionId.toNat, leBytes 4 h.seq.toNat, leBytes 2 h.k.toNat,
    leBytes 2 h.blockLen.toNat, leBytes 4 h.totalLen.toNat, leBytes 4 h.streamTag.toNat,
    leBytes 4 h.frameTag.toNat].flatten

/-- `CFG.deserialize(bytes).ok()` -/
def deserialize (bytes : List UInt8) : Option FrameHeader :=
  match splitFields [1, 2, 4, 2, 2, 4, 4, 4] bytes with
  | some [flags, sessionId, seq, k, blockLen, totalLen, streamTag, frameTag] =>
    some {
      flags := UInt8.ofNat (leValue flags)
      sessionId := UInt16.ofNat (leValue sessionId)
      seq := UInt32.ofNat (leValue seq)
      k := UInt16.ofNat (leValue k)
      blockLen := UInt16.ofNat (leValue blockLen)
      totalLen := UInt32.ofNat (leValue totalLen)
      streamTag := UInt32.ofNat (leValue streamTag)
      frameTag := UInt32.ofNat (leValue frameTag) }
  | _ => none

@[simp] theorem serialize_length (h : FrameHeader) : h.serialize.length = 23 := by
  simp [serialize]

/-- The fields of a header read back as its values. -/
theorem deserialize_serialize (h : FrameHeader) : deserialize h.serialize = some h := by
  have split : splitFields [1, 2, 4, 2, 2, 4, 4, 4] h.serialize =
      some [leBytes 1 h.flags.toNat, leBytes 2 h.sessionId.toNat, leBytes 4 h.seq.toNat,
        leBytes 2 h.k.toNat, leBytes 2 h.blockLen.toNat, leBytes 4 h.totalLen.toNat,
        leBytes 4 h.streamTag.toNat, leBytes 4 h.frameTag.toNat] :=
    splitFields_iff.mpr ⟨rfl, by simp⟩
  simp only [deserialize, split, uint8_of_field, uint16_of_field, uint32_of_field]

theorem serialize_deserialize {bytes : List UInt8} {h : FrameHeader}
    (read : deserialize bytes = some h) : h.serialize = bytes := by
  unfold deserialize at read
  split at read
  · rename_i flags sessionId seq k blockLen totalLen streamTag frameTag fields
    obtain ⟨flat, lengths⟩ := splitFields_iff.mp fields
    simp only [List.map_cons, List.map_nil, List.cons.injEq, and_true] at lengths
    obtain ⟨l1, l2, l3, l4, l5, l6, l7, l8⟩ := lengths
    cases read
    rw [← flat]
    simp only [serialize]
    rw [leBytes_leValue_of_length l1 (by simp), leBytes_leValue_of_length l2 (by simp),
      leBytes_leValue_of_length l3 (by simp), leBytes_leValue_of_length l4 (by simp),
      leBytes_leValue_of_length l5 (by simp), leBytes_leValue_of_length l6 (by simp),
      leBytes_leValue_of_length l7 (by simp), leBytes_leValue_of_length l8 (by simp)]
  · cases read

end FrameHeader

def frameChecksum (blake3 : Blake3) (h : FrameHeader) (block : List UInt8) : UInt32 :=
  tagOfDigest (blake3.hash ([h.flags] ++ leBytes 2 h.sessionId.toNat ++ leBytes 4 h.seq.toNat ++
    leBytes 2 h.k.toNat ++ leBytes 2 h.blockLen.toNat ++ leBytes 4 h.totalLen.toNat ++
    leBytes 4 h.streamTag.toNat ++ block))

def packFrame (h : FrameHeader) (block : List UInt8) : List UInt8 :=
  [MAGIC0, MAGIC1] ++ h.serialize ++ block

def parseFrame (blake3 : Blake3) (bytes : List UInt8) :
    Exec (Option (FrameHeader × List UInt8)) :=
  if bytes.length ≤ HEADER_LEN then .ok none
  else do
    let m0 ← getAt bytes 0
    let m1 ← getAt bytes 1
    if m0 ≠ MAGIC0 ∨ m1 ≠ MAGIC1 then .ok none
    else
      let fields ← slice bytes 2 HEADER_LEN
      match FrameHeader.deserialize fields with
      | none => .ok none
      | some h =>
        if h.flags &&& ~~~FLAG_MASK ≠ 0 ∨ h.flags &&& FLAG_MASK = FLAG_MASK ∨ h.k = 0 ∨
            h.blockLen = 0 ∨ h.totalLen = 0 then .ok none
        else if bytes.length ≠ HEADER_LEN + h.blockLen.toNat then .ok none
        else
          let block ← slice bytes HEADER_LEN bytes.length
          if frameChecksum blake3 h block ≠ h.frameTag then .ok none else .ok (some (h, block))

def streamIdentity (h : FrameHeader) : StreamIdentity where
  flags := h.flags
  sessionId := h.sessionId
  k := h.k
  blockLen := h.blockLen
  totalLen := h.totalLen
  streamTag := h.streamTag

/-- The fields `parse_frame` accepts. -/
structure FrameHeader.Valid (h : FrameHeader) : Prop where
  flags : h.flags = 0 ∨ h.flags = FLAG_SYSTEMATIC ∨ h.flags = FLAG_CAUSAL
  k : h.k ≠ 0
  blockLen : h.blockLen ≠ 0
  totalLen : h.totalLen ≠ 0

theorem flags_iff (flags : UInt8) :
    ¬ (flags &&& ~~~FLAG_MASK ≠ 0 ∨ flags &&& FLAG_MASK = FLAG_MASK) ↔
      flags = 0 ∨ flags = FLAG_SYSTEMATIC ∨ flags = FLAG_CAUSAL := by
  have all : ∀ n < 256, (¬ (UInt8.ofNat n &&& ~~~FLAG_MASK ≠ 0 ∨
      UInt8.ofNat n &&& FLAG_MASK = FLAG_MASK) ↔
        UInt8.ofNat n = 0 ∨ UInt8.ofNat n = FLAG_SYSTEMATIC ∨ UInt8.ofNat n = FLAG_CAUSAL) := by
    decide +kernel
  have := all flags.toNat flags.toNat_lt
  rwa [UInt8.ofNat_toNat] at this

theorem packFrame_length (h : FrameHeader) (block : List UInt8) :
    (packFrame h block).length = HEADER_LEN + block.length := by
  simp only [packFrame, List.length_append, FrameHeader.serialize_length, HEADER_LEN,
    List.length_cons, List.length_nil]

/-- Where the parts of a packed frame lie. -/
theorem eq_packFrame_iff {m0 m1 : UInt8} {rest block : List UInt8} {h : FrameHeader} :
    m0 :: m1 :: rest = packFrame h block ↔
      m0 = MAGIC0 ∧ m1 = MAGIC1 ∧ FrameHeader.deserialize (rest.take 23) = some h ∧
        block = rest.drop 23 := by
  have shape : packFrame h block = MAGIC0 :: MAGIC1 :: (h.serialize ++ block) := rfl
  rw [shape, List.cons.injEq, List.cons.injEq]
  constructor
  · rintro ⟨rfl, rfl, rfl⟩
    rw [List.take_left' h.serialize_length, List.drop_left' h.serialize_length]
    exact ⟨rfl, rfl, h.deserialize_serialize, rfl⟩
  · rintro ⟨rfl, rfl, read, rfl⟩
    rw [FrameHeader.serialize_deserialize read, List.take_append_drop]
    exact ⟨rfl, rfl, rfl⟩

/-- What `parse_frame` accepts: a packed frame with valid fields and a tag that
matches. -/
structure Parsed (blake3 : Blake3) (bytes : List UInt8) (h : FrameHeader) (block : List UInt8) :
    Prop where
  eq : bytes = packFrame h block
  valid : h.Valid
  length : block.length = h.blockLen.toNat
  tag : frameChecksum blake3 h block = h.frameTag

theorem exists_magic {bytes : List UInt8} (long : ¬ bytes.length ≤ HEADER_LEN) :
    ∃ m0 m1 rest, bytes = m0 :: m1 :: rest := by
  match bytes, long with
  | [], long => simp at long
  | [_], long => simp [HEADER_LEN] at long
  | m0 :: m1 :: rest, _ => exact ⟨m0, m1, rest, rfl⟩

/-- The checks `parse_frame` makes after reading the fields. -/
theorem valid_iff (h : FrameHeader) :
    h.Valid ↔ ¬ (h.flags &&& ~~~FLAG_MASK ≠ 0 ∨ h.flags &&& FLAG_MASK = FLAG_MASK ∨ h.k = 0 ∨
      h.blockLen = 0 ∨ h.totalLen = 0) := by
  constructor
  · rintro ⟨flags, k, blockLen, totalLen⟩
    have := (flags_iff h.flags).mpr flags
    tauto
  · intro checks
    refine ⟨(flags_iff h.flags).mp ?_, ?_, ?_, ?_⟩ <;> tauto

/-- Once the fields are read, only the checks on them are left. -/
theorem parsed_iff (blake3 : Blake3) {m0 m1 : UInt8} {rest : List UInt8} {g : FrameHeader}
    (magic : m0 = MAGIC0 ∧ m1 = MAGIC1) (read : FrameHeader.deserialize (rest.take 23) = some g)
    (h : FrameHeader) (block : List UInt8) :
    Parsed blake3 (m0 :: m1 :: rest) h block ↔
      (h = g ∧ block = rest.drop 23) ∧ g.Valid ∧ (rest.drop 23).length = g.blockLen.toNat ∧
        frameChecksum blake3 g (rest.drop 23) = g.frameTag := by
  have same : ∀ h block, m0 :: m1 :: rest = packFrame h block ↔ h = g ∧ block = rest.drop 23 := by
    intro h block
    rw [eq_packFrame_iff, read, Option.some.injEq, eq_comm (a := g)]
    tauto
  constructor
  · rintro ⟨eq, valid, length, tag⟩
    obtain ⟨rfl, rfl⟩ := (same h block).mp eq
    exact ⟨⟨rfl, rfl⟩, valid, length, tag⟩
  · rintro ⟨⟨rfl, rfl⟩, valid, length, tag⟩
    exact ⟨(same _ _).mpr ⟨rfl, rfl⟩, valid, length, tag⟩

/-- What is accepted is exactly what is packed. -/
theorem parseFrame_ok (blake3 : Blake3) (bytes : List UInt8) :
    ∃ r, parseFrame blake3 bytes = .ok r ∧
      ∀ h block, r = some (h, block) ↔ Parsed blake3 bytes h block := by
  by_cases short : bytes.length ≤ HEADER_LEN
  · refine ⟨none, by rw [parseFrame, if_pos short], fun h block => iff_of_false (by simp) ?_⟩
    rintro ⟨rfl, valid, len, _⟩
    rw [packFrame_length, len] at short
    have : h.blockLen.toNat = 0 := by omega
    exact valid.blockLen (UInt16.toNat_inj.mp this)
  obtain ⟨m0, m1, rest, rfl⟩ := exists_magic short
  have fields : slice (m0 :: m1 :: rest) 2 HEADER_LEN = .ok (rest.take 23) :=
    slice_of_le (by decide) (by omega)
  have tail : slice (m0 :: m1 :: rest) HEADER_LEN (m0 :: m1 :: rest).length =
      .ok (rest.drop 23) := by
    rw [slice_of_le (by omega) (Nat.le_refl _), ← List.length_drop, List.take_length]
    rfl
  have first : getAt (m0 :: m1 :: rest) 0 = .ok m0 := rfl
  have second : getAt (m0 :: m1 :: rest) 1 = .ok m1 := rfl
  rw [parseFrame, if_neg short, first, exec_ok_bind, second, exec_ok_bind]
  by_cases magic : m0 ≠ MAGIC0 ∨ m1 ≠ MAGIC1
  · refine ⟨none, by rw [if_pos magic], fun h block => iff_of_false (by simp) ?_⟩
    rintro ⟨eq, _⟩
    have := eq_packFrame_iff.mp eq
    tauto
  rw [if_neg magic, fields, exec_ok_bind]
  cases read : FrameHeader.deserialize (rest.take 23) with
  | none =>
    refine ⟨none, rfl, fun h block => iff_of_false (by simp) ?_⟩
    rintro ⟨eq, _⟩
    have := (eq_packFrame_iff.mp eq).2.2.1
    rw [read] at this
    cases this
  | some g =>
    have len : (m0 :: m1 :: rest).length = HEADER_LEN + (rest.drop 23).length := by
      simp only [List.length_cons, HEADER_LEN, List.length_drop] at short ⊢
      omega
    have both : m0 = MAGIC0 ∧ m1 = MAGIC1 := by tauto
    have parsed := parsed_iff blake3 both read
    simp only [parsed]
    by_cases valid : g.Valid
    · rw [if_neg ((valid_iff g).mp valid)]
      by_cases length : (rest.drop 23).length = g.blockLen.toNat
      · rw [if_neg (by rw [len, length]; simp), tail, exec_ok_bind]
        by_cases tag : frameChecksum blake3 g (rest.drop 23) = g.frameTag
        · refine ⟨some (g, rest.drop 23), by rw [if_neg (by simpa using tag)], fun h block => ?_⟩
          rw [Option.some.injEq, Prod.mk.injEq, eq_comm (a := g), eq_comm (a := rest.drop 23)]
          simp only [valid, length, tag, and_true]
        · exact ⟨none, by rw [if_pos tag], fun h block => by simp [tag]⟩
      · refine ⟨none, by rw [if_pos (by rw [len]; omega)], fun h block => ?_⟩
        simp only [length, false_and, and_false, reduceCtorEq]
    · refine ⟨none, by rw [if_pos (not_not.mp (mt (valid_iff g).mpr valid))], fun h block => ?_⟩
      simp only [valid, false_and, and_false, reduceCtorEq]

theorem parseFrame_eq_some_iff {blake3 : Blake3} {bytes block : List UInt8} {h : FrameHeader} :
    parseFrame blake3 bytes = .ok (some (h, block)) ↔ Parsed blake3 bytes h block := by
  obtain ⟨r, run, spec⟩ := parseFrame_ok blake3 bytes
  rw [run, Except.ok.injEq]
  exact spec h block

/-- Every byte string is rejected or is one packed frame. -/
theorem parseFrame_cases (blake3 : Blake3) (bytes : List UInt8) :
    (parseFrame blake3 bytes = .ok none ∧ ∀ h block, ¬ Parsed blake3 bytes h block) ∨
      ∃ h block, parseFrame blake3 bytes = .ok (some (h, block)) ∧ Parsed blake3 bytes h block := by
  obtain ⟨r, run, spec⟩ := parseFrame_ok blake3 bytes
  cases r with
  | none =>
    refine Or.inl ⟨run, fun h block parsed => ?_⟩
    have := (spec h block).mpr parsed
    cases this
  | some frame => exact Or.inr ⟨frame.1, frame.2, run, (spec frame.1 frame.2).mp rfl⟩

/-! ## The frame format -/

/-- What `frame_checksum` feeds to the hash. -/
def checksumInput (h : FrameHeader) (block : List UInt8) : List UInt8 :=
  [h.flags] ++ leBytes 2 h.sessionId.toNat ++ leBytes 4 h.seq.toNat ++ leBytes 2 h.k.toNat ++
    leBytes 2 h.blockLen.toNat ++ leBytes 4 h.totalLen.toNat ++ leBytes 4 h.streamTag.toNat ++ block

theorem frameChecksum_eq (blake3 : Blake3) (h : FrameHeader) (block : List UInt8) :
    frameChecksum blake3 h block = checksum32 blake3 (checksumInput h block) := rfl

/-- The input of the checksum determines the frame up to the tag itself. -/
theorem checksumInput_inj {h h' : FrameHeader} {block block' : List UInt8}
    (same : checksumInput h block = checksumInput h' block') (tag : h.frameTag = h'.frameTag) :
    h = h' ∧ block = block' := by
  cases h
  cases h'
  simp only [checksumInput, List.append_assoc, List.cons_append, List.nil_append,
    List.cons.injEq] at same
  obtain ⟨flags, same⟩ := same
  obtain ⟨sessionId, same⟩ := List.append_inj same (by simp)
  obtain ⟨seq, same⟩ := List.append_inj same (by simp)
  obtain ⟨k, same⟩ := List.append_inj same (by simp)
  obtain ⟨blockLen, same⟩ := List.append_inj same (by simp)
  obtain ⟨totalLen, same⟩ := List.append_inj same (by simp)
  obtain ⟨streamTag, same⟩ := List.append_inj same (by simp)
  have short (a b : UInt16) (eq : leBytes 2 a.toNat = leBytes 2 b.toNat) : a = b :=
    UInt16.toNat_inj.mp (leBytes_inj a.toNat_lt b.toNat_lt eq)
  have long (a b : UInt32) (eq : leBytes 4 a.toNat = leBytes 4 b.toNat) : a = b :=
    UInt32.toNat_inj.mp (leBytes_inj a.toNat_lt b.toNat_lt eq)
  simp only [FrameHeader.mk.injEq]
  exact ⟨⟨flags, short _ _ sessionId, long _ _ seq, short _ _ k, short _ _ blockLen,
    long _ _ totalLen, long _ _ streamTag, tag⟩, same⟩

/-- Parsing never panics, accepts exactly the packed valid frames and inverts
packing; and two accepted byte strings with one tag are the same or a collision
of the truncated hash. -/
theorem frame_format (blake3 : Blake3) :
    (∀ bytes, ∃ r, parseFrame blake3 bytes = .ok r) ∧
    (∀ bytes h block, parseFrame blake3 bytes = .ok (some (h, block)) →
      packFrame h block = bytes ∧ h.Valid ∧ block.length = h.blockLen.toNat ∧
        frameChecksum blake3 h block = h.frameTag) ∧
    (∀ h block, h.Valid → block.length = h.blockLen.toNat →
      frameChecksum blake3 h block = h.frameTag →
        parseFrame blake3 (packFrame h block) = .ok (some (h, block))) ∧
    (∀ bytes bytes' h h' block block', parseFrame blake3 bytes = .ok (some (h, block)) →
      parseFrame blake3 bytes' = .ok (some (h', block')) → h.frameTag = h'.frameTag →
        bytes ≠ bytes' →
          checksumInput h block ≠ checksumInput h' block' ∧
            checksum32 blake3 (checksumInput h block) =
              checksum32 blake3 (checksumInput h' block')) := by
  refine ⟨?_, ?_, ?_, ?_⟩
  · intro bytes
    obtain ⟨r, run, _⟩ := parseFrame_ok blake3 bytes
    exact ⟨r, run⟩
  · intro bytes h block accepted
    obtain ⟨rfl, valid, length, tag⟩ := parseFrame_eq_some_iff.mp accepted
    exact ⟨rfl, valid, length, tag⟩
  · intro h block valid length tag
    exact parseFrame_eq_some_iff.mpr ⟨rfl, valid, length, tag⟩
  · intro bytes bytes' h h' block block' accepted accepted' tags differ
    have parsed := parseFrame_eq_some_iff.mp accepted
    have parsed' := parseFrame_eq_some_iff.mp accepted'
    constructor
    · intro same
      obtain ⟨rfl, rfl⟩ := checksumInput_inj same tags
      exact differ (parsed.eq.trans parsed'.eq.symm)
    · rw [← frameChecksum_eq, ← frameChecksum_eq, parsed.tag, parsed'.tag, tags]

end DeOptiTransfer
