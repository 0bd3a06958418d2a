import DeOptiTransfer.Container.Unpack
import DeOptiTransfer.Judge.Recovery

/-!
# Files for a judge

`pack_file_jrc` and `unpack_file_jrc` of `container.rs`: a plain container as
the message of a judge-recoverable commitment.

* `packFileJrc_ok`: what a call that succeeds has put into the envelope;
* `unpackFileJrc_packFileJrc`: the judge unpacks what was packed.
-/

namespace DeOptiTransfer

structure JrcPackedFile where
  envelope : List UInt8
  originalSize : Nat
  transmittedSize : Nat
  deriving DecidableEq, Repr

def packFileJrc (lib : Crates) (judge : JudgeCrates) (random : Option (FixedBytes 32))
    (name mimeType : Text) (bytes : List UInt8) (judgePk : JudgePublicKey) (nonce : Nonce) :
    Except Error JrcPackedFile :=
  match packFile lib name mimeType bytes with
  | .error e => .error e
  | .ok inner =>
    if inner.container.length > Jrc.MAX_MESSAGE_LEN then
      .error (.tooLarge inner.container.length Jrc.MAX_MESSAGE_LEN)
    else
      match Jrc.commit judge random judgePk inner.container nonce with
      | .error e => .error e
      | .ok committed =>
        let envelope := committed.toBytes
        if envelope.length > MAX_STREAM_BYTES then
          .error (.tooLarge envelope.length MAX_STREAM_BYTES)
        else
          .ok { envelope, originalSize := bytes.length, transmittedSize := envelope.length }

def unpackFileJrc (lib : Crates) (judge : JudgeCrates) (envelope : List UInt8)
    (dk : JudgeSecretKey) : Exec (Except Error OpticalFile) := do
  let committed ← JrcCommitment.fromBytes envelope
  match committed with
  | .error e => .ok (.error e)
  | .ok committed =>
    let container ← Jrc.judgeRecover judge dk committed.commitment committed.aux
    match container with
    | .error e => .ok (.error e)
    | .ok container => unpackFile lib container

section
variable {lib : Crates} {judge : JudgeCrates} {random : Option (FixedBytes 32)}
  {name mimeType : Text} {bytes : List UInt8} {nonce : Nonce} {packed : JrcPackedFile}

theorem packFileJrc_ok {judgePk : JudgePublicKey}
    (h : packFileJrc lib judge random name mimeType bytes judgePk nonce = .ok packed) :
    ∃ (inner : PackedOpticalFile) (eSk : FixedBytes 32) (committed : JrcCommitment),
      packFile lib name mimeType bytes = .ok inner ∧
      Jrc.commitWithEphemeral judge judgePk inner.container nonce eSk = .ok committed ∧
      packed.envelope = committed.toBytes ∧ packed.envelope.length ≤ MAX_STREAM_BYTES := by
  unfold packFileJrc at h
  split at h
  · cases h
  · rename_i inner packs
    split at h
    · cases h
    · unfold Jrc.commit at h
      split at h
      · cases h
      · rename_i committed opened
        split at opened
        · cases opened
        · rename_i opening eq
          cases opened
          dsimp only at h
          split at h
          · cases h
          · rename_i fits
            cases h
            exact ⟨inner, opening.ephemeralSecret, committed, packs,
              (Jrc.commitWithProverOpening_ok eq).1, rfl, Nat.le_of_not_lt fits⟩

/-- The judge gets what a receiver of the plain container would get. -/
theorem unpackFileJrc_packFileJrc (agrees : judge.x25519.Agrees) (exact : judge.aead.Exact)
    {dk : JudgeSecretKey}
    (h : packFileJrc lib judge random name mimeType bytes (dk.toPublic judge) nonce = .ok packed) :
    ∃ inner, packFile lib name mimeType bytes = .ok inner ∧
      unpackFileJrc lib judge packed.envelope dk = unpackFile lib inner.container := by
  obtain ⟨inner, eSk, committed, packs, sealed, envelope_eq, _⟩ := packFileJrc_ok h
  have format := Jrc.verifyExt_of_commit agrees exact sealed
  have read : JrcCommitment.fromBytes packed.envelope = .ok (.ok committed) :=
    JrcCommitment.fromBytes_ok.mpr ⟨envelope_eq.symm, format⟩
  have recovered := (Jrc.judgeRecover_ok exact).mpr
    ⟨_, nonce, (Jrc.carries_of_commit agrees sealed).1⟩
  refine ⟨inner, packs, ?_⟩
  simp only [unpackFileJrc, read, recovered, exec_ok_bind]

end

end DeOptiTransfer
