import DeOptiTransfer.Base.Arith
import DeOptiTransfer.Container.Unpack

/-!
# Unpacking arbitrary bytes

`unpackFile_arbitrary`: what `unpack_file` does on any byte string, over any
decompressor.
-/

namespace DeOptiTransfer

theorem flags_of_known {flags : UInt8} (known : KnownFlags flags)
    (clear : flags &&& FLAG_CRYPT = 0) : flags = 0 ∨ flags = FLAG_GZIP := by
  have all : ∀ n < 256, KnownFlags (UInt8.ofNat n) → UInt8.ofNat n &&& FLAG_CRYPT = 0 →
      UInt8.ofNat n = 0 ∨ UInt8.ofNat n = FLAG_GZIP := by
    decide +kernel
  have this := all flags.toNat flags.toNat_lt
  rw [UInt8.ofNat_toNat] at this
  exact this known clear

/-- The sums of the reader stay far below a machine word: the parts of any
header, and the output of a decompressor with one more buffer. -/
theorem reader_sums_fit (h : Header) {out n : Nat} (out_le : out ≤ h.fileLen.toNat)
    (n_le : n ≤ BUF_LEN) :
    FILE_HEADER_LEN + h.nameLen.toNat + h.typeLen.toNat + h.xmitLen.toNat ≤ usizeMax ∧
      MAX_FILE_BYTES + TAG_LEN ≤ usizeMax ∧ out + n ≤ usizeMax := by
  have name := h.nameLen.toNat_lt
  have type := h.typeLen.toNat_lt
  have xmit := h.xmitLen.toNat_lt
  have file := h.fileLen.toNat_lt
  simp only [FILE_HEADER_LEN, MAX_FILE_BYTES, TAG_LEN, BUF_LEN, usizeMax] at *
  omega

/-- Unpacking does not panic. A file that comes out was laid out by a header with
nothing left over, without encryption; it has the length and the digest of the
header, and a normal media type. In every state of `gunzip` its output is within
the declared length, and no sum overflows. -/
theorem unpackFile_arbitrary (lib : Crates) (container : List UInt8) :
    (∃ r, unpackFile lib container = .ok r) ∧
    (∀ file, unpackFile lib container = .ok (.ok file) →
      ∃ h nameBytes typeBytes transmitted,
        Laid container h nameBytes typeBytes transmitted ∧
        h.serialize.length = FILE_HEADER_LEN ∧ container.length =
          FILE_HEADER_LEN + h.nameLen.toNat + h.typeLen.toNat + h.xmitLen.toNat ∧
        h.flags &&& FLAG_CRYPT = 0 ∧ (h.flags = 0 ∨ h.flags = FLAG_GZIP) ∧
        1 ≤ file.bytes.length ∧ file.bytes.length = h.fileLen.toNat ∧
        h.fileLen.toNat ≤ MAX_FILE_BYTES ∧
        lib.blake3.hash file.bytes = file.digest ∧ file.digest = h.digest ∧
        NormalMime file.mimeType) ∧
    (∀ (h : Header) (plain : List UInt8),
      (∃ r n d out, gunzip lib.flate2 plain h.fileLen.toNat = .ok r ∧
        Turns lib.flate2 h.fileLen.toNat (lib.flate2.newDecoder plain) n d out ∧
          ∀ bytes, r = .ok bytes → bytes = out) ∧
      ∀ (n : Nat) (d : lib.flate2.Decoder) (out : List UInt8),
        Turns lib.flate2 h.fileLen.toNat (lib.flate2.newDecoder plain) n d out →
          gunzip lib.flate2 plain h.fileLen.toNat =
            gunzipLoop lib.flate2 h.fileLen.toNat (h.fileLen.toNat + 1 - n) d out ∧
          out.length ≤ h.fileLen.toNat ∧ ∀ chunk d', lib.flate2.read d = .ok (chunk, d') →
            out.length + chunk.bytes.length ≤ usizeMax) ∧
    (∀ h : Header, FILE_HEADER_LEN + h.nameLen.toNat + h.typeLen.toNat + h.xmitLen.toNat ≤ usizeMax ∧
      MAX_FILE_BYTES + TAG_LEN ≤ usizeMax) := by
  refine ⟨unpackImpl_returns lib container none, ?_, ?_, ?_⟩
  · intro file ok
    obtain ⟨h, nameBytes, typeBytes, transmitted, plain, bytes, laid, opened, _, checked⟩ :=
      unpackImpl_ok.mp ok
    obtain ⟨rfl, length_eq, digest, digest_eq, mime, _, normal⟩ := checkFile_ok checked
    have clear : h.flags &&& FLAG_CRYPT = 0 := by
      by_contra set
      rw [openData, if_pos set] at opened
      cases opened
    have pos : h.fileLen.toNat ≠ 0 := fun zero => laid.file_pos (UInt32.toNat_inj.mp zero)
    refine ⟨h, nameBytes, typeBytes, transmitted, laid, h.serialize_length, laid.length_eq, clear,
      flags_of_known laid.flags_known clear, ?_, length_eq, laid.file_le, digest, digest_eq,
      normalMime_of_ok normal⟩
    omega
  · intro h plain
    obtain ⟨ends, passes⟩ := gunzip_turns lib.flate2 plain h.fileLen.toNat
    refine ⟨ends, fun n d out turns => ⟨passes n d out turns, turns.length_le, ?_⟩⟩
    intro chunk d' _
    exact (reader_sums_fit h turns.length_le chunk.length_le).2.2
  · intro h
    obtain ⟨header, limit, _⟩ := reader_sums_fit h (Nat.zero_le _) (Nat.zero_le _)
    exact ⟨header, limit⟩

end DeOptiTransfer
