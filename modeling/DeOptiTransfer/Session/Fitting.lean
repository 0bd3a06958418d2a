import DeOptiTransfer.Container.Recoverable
import DeOptiTransfer.Container.Sealed
import DeOptiTransfer.Session.Sender

/-!
# What fits into a stream

The capacity functions, the constructor of the sender, the one of the decoder
and the packing functions agree on what a stream can carry.

* `Sender.build_iff_fits`: a sender is built exactly for what fits;
* `capacity_agrees`: this, with the smallest frame, the chosen option, the
  receiver's decoder and the sizes of the containers.
-/

namespace DeOptiTransfer

namespace Sender

variable {blake3 : Blake3} {soliton : SolitonCdf} {container : List UInt8} {blockLen : Nat}
  {sessionId : UInt16} {s : Sender}

theorem build_iff_fits (mode : Mode) (nonempty : container ≠ [])
    (total : container.length ≤ MAX_STREAM_BYTES) :
    (∃ s, build mode blake3 soliton container blockLen sessionId = .ok (.ok s)) ↔
      fitsInOneStream container.length (blockLen + HEADER_LEN) = true := by
  have length_pos := List.length_pos_iff.mpr nonempty
  rw [fits_block_iff length_pos]
  constructor
  · rintro ⟨s, built⟩
    rw [build_eq] at built
    obtain ⟨pos, le, _, _, count⟩ := checks_of_tryWithMode built
    exact ⟨pos, le, count⟩
  · rintro ⟨pos, le, count⟩
    have checked := checkedEncoderK_of_accepted
      { blockLen_pos := pos, blockLen_le := le, totalLen_pos := length_pos, totalLen_le := total
        k_le := count, k_eq := rfl }
    obtain ⟨encoder, new, _⟩ := LtEncoder.tryWithMode_ok soliton sessionId.toUInt32 mode checked
    rw [← LtEncoder.tryNew_of_checked soliton mode sessionId.toUInt32 checked] at new
    rw [build_eq, tryWithMode_eq pos le nonempty total count, modeOfFlags_flags, new]
    exact ⟨_, rfl⟩

/-- The numbers in the headers of a sender are those it was built from, and a
decoder accepts them. -/
theorem built_numbers (mode : Mode)
    (built : build mode blake3 soliton container blockLen sessionId = .ok (.ok s)) :
    s.k.toNat = s.encoder.k ∧
      sourceBlockCount container.length (blockLen + HEADER_LEN) = some s.k.toNat ∧
      s.blockLen.toNat = blockLen ∧ s.totalLen.toNat = container.length ∧
      s.sessionId = sessionId ∧
      ∃ d, LtDecoder.tryNew soliton mode s.k.toNat s.blockLen.toNat s.sessionId.toUInt32
        s.totalLen.toNat = .ok (.ok d) := by
  obtain ⟨_, wf, _, _, session_eq, blockLen_eq⟩ := build_ok built
  rw [build_eq] at built
  obtain ⟨pos, le, nonempty, total, count⟩ := checks_of_tryWithMode built
  have block_eq : s.blockLen.toNat = blockLen := wf.blockLen_eq.trans blockLen_eq
  have k_eq : s.k.toNat = divCeil container.length blockLen := by
    rw [wf.k_eq, wf.encoder.k_eq, blockLen_eq]
  refine ⟨wf.k_eq, ?_, block_eq, wf.totalLen_eq, session_eq, ?_⟩
  · rw [sourceBlockCount_add_header _ pos le, k_eq]
  · rw [block_eq, wf.totalLen_eq]
    obtain ⟨d, new, _⟩ := LtDecoder.tryNew_ok soliton mode s.sessionId.toUInt32
      { blockLen_pos := pos, blockLen_le := le, totalLen_pos := List.length_pos_iff.mpr nonempty
        totalLen_le := total, k_le := by rw [k_eq]; exact count, k_eq := k_eq }
    exact ⟨d, new⟩

end Sender

/-- For every container of a stream's length the sender, the two capacity checks
and the decoder give one verdict; the smallest option that fits is chosen; and
nothing that is packed is longer than a stream. -/
theorem capacity_agrees (blake3 : Blake3) (soliton : SolitonCdf) (lib : Crates)
    (judge : JudgeCrates) (addsTag : lib.aead.AddsTag) :
    (∀ (container : List UInt8) (blockLen : Nat) (sessionId : UInt16), 1 ≤ container.length →
      container.length ≤ MAX_STREAM_BYTES →
        ((∃ s, Sender.tryNew blake3 soliton container blockLen sessionId = .ok (.ok s)) ↔
          fitsInOneStream container.length (blockLen + HEADER_LEN) = true) ∧
        (fitsInOneStream container.length (blockLen + HEADER_LEN) = true ↔
          blockLen ≤ 65535 ∧ minimumFrameBytes container.length ≤ blockLen + HEADER_LEN) ∧
        ∀ s, Sender.tryNew blake3 soliton container blockLen sessionId = .ok (.ok s) →
          s.k.toNat = s.encoder.k ∧
          sourceBlockCount container.length (blockLen + HEADER_LEN) = some s.k.toNat ∧
          s.blockLen.toNat = blockLen ∧ s.totalLen.toNat = container.length ∧
          s.sessionId = sessionId ∧
          ∃ d, LtDecoder.tryNew soliton .causal s.k.toNat s.blockLen.toNat s.sessionId.toUInt32
            s.totalLen.toNat = .ok (.ok d)) ∧
    (∀ (payloadBytes : Nat) (options : List Nat), 1 ≤ payloadBytes →
      payloadBytes ≤ MAX_STREAM_BYTES →
        (∀ v, smallestSufficientFrameSize payloadBytes options = some v ↔
          (v ∈ options ∧ fitsInOneStream payloadBytes v = true) ∧
            ∀ w ∈ options, fitsInOneStream payloadBytes w = true → v ≤ w) ∧
        (smallestSufficientFrameSize payloadBytes options = none ↔
          ∀ w ∈ options, ¬ fitsInOneStream payloadBytes w = true)) ∧
    (∀ name mimeType bytes packed, packFile lib name mimeType bytes = .ok packed →
      packed.container.length ≤ MAX_STREAM_BYTES) ∧
    (∀ name mimeType bytes key nonce packed,
      packFileEncrypted lib name mimeType bytes key nonce = .ok packed →
        packed.container.length ≤ MAX_STREAM_BYTES) ∧
    ∀ random name mimeType bytes judgePk nonce packed,
      packFileJrc lib judge random name mimeType bytes judgePk nonce = .ok packed →
        packed.envelope.length ≤ MAX_STREAM_BYTES := by
  refine ⟨?_, ?_, ?_, ?_, ?_⟩
  · intro container blockLen sessionId pos total
    refine ⟨?_, fits_iff_minimum pos total blockLen, ?_⟩
    · exact Sender.build_iff_fits .causal (List.length_pos_iff.mp pos) total
    · intro s built
      exact Sender.built_numbers .causal built
  · intro payloadBytes options pos le
    constructor
    · intro v
      exact smallest_eq_some_iff pos le
    · exact smallest_eq_none_iff pos le
  · intro name mimeType bytes packed packs
    exact packFile_length_le packs
  · intro name mimeType bytes key nonce packed packs
    exact packFileEncrypted_length_le addsTag packs
  · intro random name mimeType bytes judgePk nonce packed packs
    obtain ⟨_, _, _, _, _, _, fits⟩ := packFileJrc_ok packs
    exact fits

theorem capacity_agrees_sample :
    (∃ s, Sender.tryNew sampleHash twoBlockSoliton sampleSealed.container 26 7 = .ok (.ok s)) ∧
      sampleSealed.container.length ≤ MAX_STREAM_BYTES := by
  have packs : packFileEncrypted sampleCrates sampleName sampleType [0x61] sampleKey sampleNonce =
      .ok sampleSealed := by
    decide +kernel
  have agrees := capacity_agrees sampleHash twoBlockSoliton sampleCrates Jrc.goldenCrates
    sample_ideal.overhead
  have le := agrees.2.2.2.1 _ _ _ _ _ _ packs
  constructor
  · apply (agrees.1 sampleSealed.container 26 7 (by decide +kernel) le).1.mpr
    decide +kernel
  · exact le

end DeOptiTransfer
