import DeOptiTransfer.Base.Text
import DeOptiTransfer.Base.Utf8
import DeOptiTransfer.Container.Gzip
import DeOptiTransfer.Crypto
import DeOptiTransfer.Frame
import Mathlib.Data.Set.Function

/-!
# The container header

The fixed fields at the start of a container of `container.rs`, and the
associated data that binds them to an encrypted file.

* `Header.deserialize_serialize`, `Header.serialize_deserialize`: the header;
* `aad_injective`: the associated data determines everything it covers.
-/

namespace DeOptiTransfer

def FILE_HEADER_LEN : Nat := 73
def FILE_MAGIC : FixedBytes 4 := ⟨[0x44, 0x43, 0x46, 0x33], rfl⟩
def FLAG_GZIP : UInt8 := 1
def FLAG_CRYPT : UInt8 := 2

/-- What the container takes from other crates. `codecError` is the text of an
error of the field codec. -/
structure Crates where
  blake3 : Blake3
  flate2 : Flate2
  aead : Aead
  argon2 : Argon2
  codecError : String

inductive Compression where
  | none
  | gzip
  deriving DecidableEq, Repr

structure Header where
  magic : FixedBytes 4
  flags : UInt8
  nameLen : UInt16
  typeLen : UInt16
  fileLen : UInt32
  xmitLen : UInt32
  digest : FixedBytes 32
  nonce : Nonce
  deriving DecidableEq, Repr

namespace Header

/-- `CFG.serialize(&header)` -/
def serialize (h : Header) : List UInt8 :=
  [h.magic.bytes, leBytes 1 h.flags.toNat, leBytes 2 h.nameLen.toNat, leBytes 2 h.typeLen.toNat,
    leBytes 4 h.fileLen.toNat, leBytes 4 h.xmitLen.toNat, h.digest.bytes, h.nonce.bytes].flatten

/-- `CFG.deserialize(bytes)` -/
def deserialize (bytes : List UInt8) : Option Header :=
  match splitFields [4, 1, 2, 2, 4, 4, 32, 24] bytes with
  | some [magic, flags, nameLen, typeLen, fileLen, xmitLen, digest, nonce] => do
    let magic ← FixedBytes.ofList 4 magic
    let digest ← FixedBytes.ofList 32 digest
    let nonce ← FixedBytes.ofList NONCE_LEN nonce
    some {
      magic
      flags := UInt8.ofNat (leValue flags)
      nameLen := UInt16.ofNat (leValue nameLen)
      typeLen := UInt16.ofNat (leValue typeLen)
      fileLen := UInt32.ofNat (leValue fileLen)
      xmitLen := UInt32.ofNat (leValue xmitLen)
      digest
      nonce }
  | _ => none

@[simp] theorem serialize_length (h : Header) : h.serialize.length = FILE_HEADER_LEN := by
  simp [serialize, FILE_HEADER_LEN, NONCE_LEN]

theorem deserialize_serialize (h : Header) : deserialize h.serialize = some h := by
  have split : splitFields [4, 1, 2, 2, 4, 4, 32, 24] h.serialize =
      some [h.magic.bytes, leBytes 1 h.flags.toNat, leBytes 2 h.nameLen.toNat,
        leBytes 2 h.typeLen.toNat, leBytes 4 h.fileLen.toNat, leBytes 4 h.xmitLen.toNat,
        h.digest.bytes, h.nonce.bytes] :=
    splitFields_iff.mpr ⟨rfl, by simp [NONCE_LEN]⟩
  simp only [deserialize, split, uint8_of_field, uint16_of_field, uint32_of_field,
    FixedBytes.ofList_bytes, Option.bind_eq_bind, Option.bind_some]

theorem serialize_deserialize {bytes : List UInt8} {h : Header}
    (read : deserialize bytes = some h) : h.serialize = bytes := by
  unfold deserialize at read
  split at read
  · rename_i magic flags nameLen typeLen fileLen xmitLen digest nonce fields
    obtain ⟨flat, lengths⟩ := splitFields_iff.mp fields
    simp only [List.map_cons, List.map_nil, List.cons.injEq, and_true] at lengths
    obtain ⟨_, l2, l3, l4, l5, l6, _, _⟩ := lengths
    simp only [Option.bind_eq_bind, Option.bind_eq_some_iff] at read
    obtain ⟨m, hm, d, hd, n, hn, read⟩ := read
    rw [FixedBytes.ofList_eq_some] at hm hd hn
    cases read
    rw [← flat, hm, hd, hn]
    simp only [serialize]
    rw [leBytes_leValue_of_length l2 (by simp), leBytes_leValue_of_length l3 (by simp),
      leBytes_leValue_of_length l4 (by simp), leBytes_leValue_of_length l5 (by simp),
      leBytes_leValue_of_length l6 (by simp)]
  · cases read

end Header

def aad (flags : UInt8) (nameBytes typeBytes : List UInt8) (fileLen xmitLen : Nat)
    (digest : FixedBytes 32) : List UInt8 :=
  [flags] ++ leBytes 2 nameBytes.length ++ leBytes 2 typeBytes.length ++ leBytes 4 fileLen ++
    leBytes 4 xmitLen ++ digest.bytes ++ nameBytes ++ typeBytes

/-- The associated data determines what it covers. -/
theorem aad_injective {flags flags' : UInt8} {name name' type type' : List UInt8}
    {fileLen fileLen' xmitLen xmitLen' : Nat} {digest digest' : FixedBytes 32}
    (name_lt : name.length < 2 ^ 16) (name_lt' : name'.length < 2 ^ 16)
    (file_lt : fileLen < 2 ^ 32) (file_lt' : fileLen' < 2 ^ 32) (xmit_lt : xmitLen < 2 ^ 32)
    (xmit_lt' : xmitLen' < 2 ^ 32)
    (h : aad flags name type fileLen xmitLen digest =
      aad flags' name' type' fileLen' xmitLen' digest') :
    flags = flags' ∧ name = name' ∧ type = type' ∧ fileLen = fileLen' ∧ xmitLen = xmitLen' ∧
      digest = digest' := by
  simp only [aad, List.append_assoc, List.cons_append, List.nil_append, List.cons.injEq] at h
  obtain ⟨rfl, h⟩ := h
  obtain ⟨names, h⟩ := List.append_inj h (by simp)
  obtain ⟨types, h⟩ := List.append_inj h (by simp)
  obtain ⟨files, h⟩ := List.append_inj h (by simp)
  obtain ⟨xmits, h⟩ := List.append_inj h (by simp)
  obtain ⟨digests, h⟩ := List.append_inj h (by simp)
  obtain ⟨rfl, rfl⟩ := List.append_inj h (leBytes_inj name_lt name_lt' names)
  exact ⟨rfl, rfl, rfl, leBytes_inj file_lt file_lt' files, leBytes_inj xmit_lt xmit_lt' xmits,
    FixedBytes.ext digests⟩

/-- What the associated data covers. -/
structure Covered where
  flags : UInt8
  nameBytes : List UInt8
  typeBytes : List UInt8
  fileLen : Nat
  xmitLen : Nat
  digest : FixedBytes 32

namespace Covered

def encode (c : Covered) : List UInt8 :=
  aad c.flags c.nameBytes c.typeBytes c.fileLen c.xmitLen c.digest

/-- The lengths have room in their fields. -/
structure Fits (c : Covered) : Prop where
  name_lt : c.nameBytes.length < 2 ^ 16
  file_lt : c.fileLen < 2 ^ 32
  xmit_lt : c.xmitLen < 2 ^ 32

theorem encode_injOn : Set.InjOn encode {c | c.Fits} := by
  rintro ⟨flags, name, type, file, xmit, digest⟩ fits ⟨flags', name', type', file', xmit', digest'⟩
    fits' same
  obtain ⟨rfl, rfl, rfl, rfl, rfl, rfl⟩ := aad_injective fits.name_lt fits'.name_lt fits.file_lt
    fits'.file_lt fits.xmit_lt fits'.xmit_lt same
  rfl

end Covered

/-! ## The file of the examples -/

def sampleName : Text := "a.txt".toList
def sampleType : Text := "text/plain".toList
def sampleNonce : Nonce := ⟨List.replicate NONCE_LEN 7, rfl⟩

/-- Argon2id of the password `pw` and `sampleNonce`. -/
def sampleKey : EncryptionKey :=
  ⟨[0x4b, 0x43, 0x9d, 0x44, 0x9a, 0x74, 0x36, 0xc4, 0x49, 0x0a, 0x08, 0xb2, 0x34, 0x70, 0xd1,
    0x28, 0x08, 0xd5, 0xc3, 0xb8, 0x6b, 0xdc, 0x8e, 0x78, 0xe3, 0x14, 0x87, 0x3c, 0x95, 0x2e,
    0xa9, 0x0f], rfl⟩

def sampleAad : List UInt8 :=
  aad FLAG_CRYPT (utf8Encode sampleName) (utf8Encode sampleType) 1 17 (sampleHash.hash [0x61])

/-- The byte `a` under `sampleKey`, `sampleNonce` and `sampleAad`. -/
def sampleCiphertext : List UInt8 :=
  [0x2c, 0xed, 0x05, 0xb7, 0x6b, 0xa1, 0x59, 0x15, 0x24, 0xc5, 0xa2, 0xdb, 0xdf, 0xe0, 0xdd,
    0x42, 0xae]

/-- The other crates on the file of the examples. A container that was never
packed does not decrypt. -/
def sampleCrates : Crates where
  blake3 := sampleHash
  flate2 := .stored
  aead := {
    encrypt := fun key nonce plaintext aad =>
      if key = sampleKey ∧ nonce = sampleNonce ∧ plaintext = [0x61] ∧ aad = sampleAad then
        some sampleCiphertext
      else some (plaintext ++ List.replicate TAG_LEN 0)
    decrypt := fun key nonce ciphertext aad =>
      if key = sampleKey ∧ nonce = sampleNonce ∧ ciphertext = sampleCiphertext ∧
          aad = sampleAad then
        some [0x61]
      else none }
  argon2 := {
    hashPassword := fun password salt =>
      if password = [0x70, 0x77] ∧ salt = sampleNonce then some sampleKey else some (.zero 32) }
  codecError := "limit"

end DeOptiTransfer
