import DeOptiTransfer.Judge.Proof
import DeOptiTransfer.Judge.Recovery

/-!
# Completeness of the composition

A proof that the prover returns passes every check behind it: the reader's
limits, the verifier's and the judge's. The backend is arbitrary.
-/

namespace DeOptiTransfer

namespace Jrp

variable {Witness : Type} {lib : JudgeCrates} {system : RelationProofSystem Witness}

/-- What a prover that succeeds has checked. -/
structure Proved (lib : JudgeCrates) (system : RelationProofSystem Witness) (ek : JudgePublicKey)
    (statement output : List UInt8) (nonce : Nonce) (p : JrpProof) : Prop where
  committed : ∃ eSk, Jrc.commitWithEphemeral lib ek output nonce eSk = .ok p.commitment
  verified : system.verify { judgeKey := ek, statement, commitment := p.commitment }
    p.relationProof = true
  fits : p.transmittedLen ≤ MAX_STREAM_BYTES

theorem prove_ok {random : Option (FixedBytes 32)} {ek : JudgePublicKey}
    {statement output : List UInt8} {witness : Witness} {nonce : Nonce} {p : JrpProof}
    (h : prove lib random system ek statement witness output nonce = .ok p) :
    Proved lib system ek statement output nonce p := by
  unfold prove at h
  split at h
  · cases h
  · rename_i commitment opening committed
    dsimp only at h
    split at h
    · cases h
    · rename_i relationProof _
      by_cases long : relationProof.length > MAX_RELATION_PROOF_LEN
      · rw [if_pos long] at h
        cases h
      rw [if_neg long] at h
      split at h
      · cases h
      · rename_i verified
        split at h
        · cases h
        · rename_i fits
          cases h
          constructor
          · exact ⟨_, (Jrc.commitWithProverOpening_ok committed).1⟩
          · exact not_not.mp verified
          · exact Nat.le_of_not_lt fits

theorem judgeRecover_ok {dk : JudgeSecretKey} {statement m : List UInt8} {q : JrpProof} :
    judgeRecover lib system dk statement q = .ok (.ok m) ↔
      verifyExt system (dk.toPublic lib) statement q = true ∧
        Jrc.judgeRecover lib dk q.commitment.commitment q.commitment.aux = .ok (.ok m) := by
  unfold judgeRecover
  by_cases verified : verifyExt system (dk.toPublic lib) statement q = true
  · simp only [verified, not_true_eq_false, ↓reduceIte, true_and]
  · simp [verified]

/-- What the prover returns is read back, fits into a stream, is verified and
recovered; and whatever the judge recovers has been accepted by the backend for
this statement. -/
theorem composition_complete (lib : JudgeCrates) (agrees : lib.x25519.Agrees)
    (exact : lib.aead.Exact) {Witness : Type} (system : RelationProofSystem Witness)
    (dk : JudgeSecretKey) (statement : List UInt8) :
    (∀ random witness output nonce p,
      prove lib random system (dk.toPublic lib) statement witness output nonce = .ok p →
        JrpProof.fromBytes p.toBytes = .ok (.ok p) ∧ p.toBytes.length ≤ MAX_STREAM_BYTES ∧
          verifyExt system (dk.toPublic lib) statement p = true ∧
          judgeRecover lib system dk statement p = .ok (.ok output)) ∧
    ∀ q m, judgeRecover lib system dk statement q = .ok (.ok m) →
      system.verify { judgeKey := dk.toPublic lib, statement, commitment := q.commitment }
        q.relationProof = true ∧
      Jrc.judgeRecover lib dk q.commitment.commitment q.commitment.aux = .ok (.ok m) := by
  constructor
  · intro random witness output nonce p proved
    obtain ⟨⟨eSk, committed⟩, verified, fits⟩ := prove_ok proved
    have format := Jrc.verifyExt_of_commit agrees exact committed
    have accepted : verifyExt system (dk.toPublic lib) statement p = true := by
      rw [verifyExt, format, verified]
      rfl
    have recovered := (Jrc.judgeRecover_ok exact).mpr
      ⟨_, nonce, (Jrc.carries_of_commit agrees committed).1⟩
    refine ⟨?_, ?_, accepted, ?_⟩
    · exact JrpProof.fromBytes_ok.mpr ⟨rfl, format, fits⟩
    · rw [JrpProof.toBytes_length]
      exact fits
    · exact judgeRecover_ok.mpr ⟨accepted, recovered⟩
  · intro q m recovered
    obtain ⟨accepted, opened⟩ := judgeRecover_ok.mp recovered
    rw [verifyExt, Bool.and_eq_true] at accepted
    exact ⟨accepted.2, opened⟩

/-- The backend whose proofs reveal the opening and the output. -/
def revealing (lib : JudgeCrates) : RelationProofSystem Unit where
  prove _ _ output opening :=
    .ok (opening.ephemeralSecret.bytes ++ opening.nonce.bytes ++ output)
  verify pub proof :=
    match FixedBytes.ofList 32 (proof.take 32),
      FixedBytes.ofList NONCE_LEN ((proof.drop 32).take NONCE_LEN) with
    | some eSk, some nonce =>
      Jrc.commitWithEphemeral lib pub.judgeKey (proof.drop (32 + NONCE_LEN)) nonce eSk =
        .ok pub.commitment
    | _, _ => false

def goldenProof : JrpProof where
  relationProof := Jrc.goldenEphemeral.bytes ++ Jrc.goldenNonce.bytes ++ Jrc.goldenMessage
  commitment := Jrc.goldenTranscript

theorem golden_proved :
    prove Jrc.goldenCrates (some Jrc.goldenEphemeral) (revealing Jrc.goldenCrates)
      (Jrc.goldenJudge.toPublic Jrc.goldenCrates) [] () Jrc.goldenMessage Jrc.goldenNonce =
        .ok goldenProof := by
  decide +kernel

theorem composition_complete_golden :
    JrpProof.fromBytes goldenProof.toBytes = .ok (.ok goldenProof) ∧
      goldenProof.toBytes.length ≤ MAX_STREAM_BYTES ∧
      verifyExt (revealing Jrc.goldenCrates) (Jrc.goldenJudge.toPublic Jrc.goldenCrates) []
        goldenProof = true ∧
      judgeRecover Jrc.goldenCrates (revealing Jrc.goldenCrates) Jrc.goldenJudge [] goldenProof =
        .ok (.ok Jrc.goldenMessage) :=
  (composition_complete Jrc.goldenCrates Jrc.golden_agrees Jrc.golden_exact
    (revealing Jrc.goldenCrates) Jrc.goldenJudge []).1 _ _ _ _ _ golden_proved

end Jrp

end DeOptiTransfer
