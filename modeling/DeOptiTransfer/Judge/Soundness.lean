import DeOptiTransfer.Judge.Composition

/-!
# Soundness of the composition

A backend is sound when its proofs establish the statement that `jrp.rs`
documents. Then what verifies also opens, to the output of a witness.

* `composition_sound`: any sound backend;
* `verifyTransparent_iff`: the proofs that the backend of the tests accepts;
* `transparent_backend`: it is sound, and proves what is true and nothing else.
-/

namespace DeOptiTransfer

namespace Jrp

/-- `R(x, w)` and `f(x, w)` of an application. -/
structure Relation (Witness : Type) where
  holds : List UInt8 → Witness → Prop
  output : List UInt8 → Witness → List UInt8

section
variable {Witness : Type}

/-- The statement that a proof is to establish, with its private part. -/
structure Established (lib : JudgeCrates) (relation : Relation Witness) (pub : JrpPublicInput)
    (w : Witness) (y : List UInt8) (opening : JrcProverOpening) : Prop where
  committed : Jrc.commitWithEphemeral lib pub.judgeKey y opening.nonce opening.ephemeralSecret =
    .ok pub.commitment
  holds : relation.holds pub.statement w
  output_eq : y = relation.output pub.statement w

/-- Whatever the backend accepts is established. -/
def Sound (lib : JudgeCrates) (relation : Relation Witness) (system : RelationProofSystem Witness) :
    Prop :=
  ∀ pub proof, system.verify pub proof = true → ∃ w y opening,
    Established lib relation pub w y opening

variable {lib : JudgeCrates} {relation : Relation Witness} {system : RelationProofSystem Witness}
  {dk : JudgeSecretKey} {statement : List UInt8} {q : JrpProof}

/-- What a verified transcript commits to is what the judge recovers. -/
theorem Sound.opens (sound : Sound lib relation system) (agrees : lib.x25519.Agrees)
    (exact : lib.aead.Exact) (verified : verifyExt system (dk.toPublic lib) statement q = true) :
    ∃ w opening, Established lib relation ⟨dk.toPublic lib, statement, q.commitment⟩ w
        (relation.output statement w) opening ∧
      judgeRecover lib system dk statement q = .ok (.ok (relation.output statement w)) := by
  have accepted := verified
  rw [verifyExt, Bool.and_eq_true] at accepted
  obtain ⟨w, y, opening, established⟩ := sound _ _ accepted.2
  obtain rfl : y = relation.output statement w := established.output_eq
  have carries := (Jrc.carries_of_commit agrees established.committed).1
  have opened := (Jrc.judgeRecover_ok exact).mpr ⟨_, _, carries⟩
  exact ⟨w, opening, established, judgeRecover_ok.mpr ⟨verified, opened⟩⟩

end

/-- Over a sound backend every transcript that verifies opens for the judge, to
the output of a witness; the prover proves true outputs only; a statement
without a witness is neither proved nor verified; and transcripts of one
commitment that verify open to one output, whatever their statements. -/
theorem composition_sound (lib : JudgeCrates) (agrees : lib.x25519.Agrees)
    (exact : lib.aead.Exact) {Witness : Type} (relation : Relation Witness)
    (system : RelationProofSystem Witness) (sound : Sound lib relation system)
    (dk : JudgeSecretKey) (statement : List UInt8) :
    (∀ q, verifyExt system (dk.toPublic lib) statement q = true → ∃ w,
      relation.holds statement w ∧
        judgeRecover lib system dk statement q = .ok (.ok (relation.output statement w))) ∧
    (∀ random witness output nonce p,
      prove lib random system (dk.toPublic lib) statement witness output nonce = .ok p →
        ∃ w, relation.holds statement w ∧ output = relation.output statement w) ∧
    ((∀ w, ¬ relation.holds statement w) →
      (∀ q, verifyExt system (dk.toPublic lib) statement q = false) ∧
        ∀ random witness output nonce p,
          prove lib random system (dk.toPublic lib) statement witness output nonce ≠ .ok p) ∧
    ∀ statement' q q', q.commitment = q'.commitment →
      verifyExt system (dk.toPublic lib) statement q = true →
        verifyExt system (dk.toPublic lib) statement' q' = true →
          ∃ y, judgeRecover lib system dk statement q = .ok (.ok y) ∧
            judgeRecover lib system dk statement' q' = .ok (.ok y) ∧
            (∃ w, relation.holds statement w ∧ y = relation.output statement w) ∧
            ∃ w', relation.holds statement' w' ∧ y = relation.output statement' w' := by
  have proved_output : ∀ random witness output nonce p,
      prove lib random system (dk.toPublic lib) statement witness output nonce = .ok p →
        ∃ w, relation.holds statement w ∧ output = relation.output statement w := by
    intro random witness output nonce p proved
    obtain ⟨⟨eSk, committed⟩, verified, _⟩ := prove_ok proved
    have accepted : verifyExt system (dk.toPublic lib) statement p = true := by
      rw [verifyExt, Jrc.verifyExt_of_commit agrees exact committed, verified]
      rfl
    obtain ⟨w, _, established, recovered⟩ := sound.opens agrees exact accepted
    have carries := (Jrc.carries_of_commit agrees committed).1
    have opened := (judgeRecover_ok.mp recovered).2
    rw [(Jrc.judgeRecover_ok exact).mpr ⟨_, _, carries⟩] at opened
    cases opened
    exact ⟨w, established.holds, rfl⟩
  refine ⟨?_, proved_output, ?_, ?_⟩
  · intro q verified
    obtain ⟨w, _, established, recovered⟩ := sound.opens agrees exact verified
    exact ⟨w, established.holds, recovered⟩
  · intro none
    constructor
    · intro q
      rw [Bool.eq_false_iff]
      intro verified
      obtain ⟨w, _, established, _⟩ := sound.opens agrees exact verified
      exact none w established.holds
    · intro random witness output nonce p proved
      obtain ⟨w, holds, _⟩ := proved_output random witness output nonce p proved
      exact none w holds
  · intro statement' q q' same verified verified'
    obtain ⟨w, _, established, recovered⟩ := sound.opens agrees exact verified
    obtain ⟨w', _, established', recovered'⟩ := sound.opens agrees exact verified'
    have opened := (judgeRecover_ok.mp recovered).2
    have opened' := (judgeRecover_ok.mp recovered').2
    rw [same, opened'] at opened
    have outputs : relation.output statement' w' = relation.output statement w :=
      Except.ok.inj (Except.ok.inj opened)
    refine ⟨relation.output statement w, recovered, ?_, ⟨w, established.holds, rfl⟩,
      w', established'.holds, outputs.symm⟩
    rw [← outputs]
    exact recovered'

/-! ## The backend of the tests -/

/-- What `TransparentTestBackend` sends: the witness, the output and the opening
behind the lengths of the first two. -/
def transparentProof (witness output : List UInt8) (opening : JrcProverOpening) : List UInt8 :=
  leBytes 4 witness.length ++ leBytes 4 output.length ++
    (witness ++ output ++ opening.ephemeralSecret.bytes ++ opening.nonce.bytes)

def verifyTransparent (lib : JudgeCrates) (blake3 : Blake3) (pub : JrpPublicInput)
    (proof : List UInt8) : Exec Bool :=
  if proof.length < 8 + 32 + NONCE_LEN then .ok false
  else do
    let first ← slice proof 0 4
    let second ← slice proof 4 8
    match FixedBytes.ofList 4 first, FixedBytes.ofList 4 second with
    | some first, some second =>
      match checkedAdd 8 (leValue first.bytes) with
      | none => .ok false
      | some witnessEnd =>
        match checkedAdd witnessEnd (leValue second.bytes) with
        | none => .ok false
        | some outputEnd =>
          if checkedAdd outputEnd (32 + NONCE_LEN) ≠ some proof.length then .ok false
          else do
            let witness ← slice proof 8 witnessEnd
            let output ← slice proof witnessEnd outputEnd
            let eSk ← slice proof outputEnd (outputEnd + 32)
            let nonce ← slice proof (outputEnd + 32) proof.length
            match FixedBytes.ofList 32 eSk, FixedBytes.ofList NONCE_LEN nonce with
            | some eSk, some nonce =>
              if (blake3.hash (pub.statement ++ witness)).bytes ≠ output then .ok false
              else .ok (Jrc.commitWithEphemeral lib pub.judgeKey output nonce eSk =
                .ok pub.commitment)
            | _, _ => .ok false
    | _, _ => .ok false

def transparent (lib : JudgeCrates) (blake3 : Blake3) : RelationProofSystem (List UInt8) where
  prove _ witness output opening := .ok (transparentProof witness output opening)
  verify pub proof := verifyTransparent lib blake3 pub proof = .ok true

/-- `output` of the tests, for any statement and witness. -/
def hashRelation (blake3 : Blake3) : Relation (List UInt8) where
  holds _ _ := True
  output statement witness := (blake3.hash (statement ++ witness)).bytes

section
variable {lib : JudgeCrates} {blake3 : Blake3} {pub : JrpPublicInput}

theorem leValue_field_lt (field : FixedBytes 4) : leValue field.bytes < 2 ^ 32 := by
  have lt := leValue_lt field.bytes
  rw [FixedBytes.length_bytes] at lt
  exact lt

/-- Lengths that do not add up are refused. -/
theorem verifyTransparent_misfit (first second : FixedBytes 4) {rest : List UInt8}
    (misfit : leValue first.bytes + leValue second.bytes + 56 ≠ rest.length) :
    verifyTransparent lib blake3 pub (first.bytes ++ second.bytes ++ rest) = .ok false := by
  have first_lt := leValue_field_lt first
  have second_lt := leValue_field_lt second
  have length : (first.bytes ++ second.bytes ++ rest).length = 8 + rest.length := by
    simp only [List.length_append, FixedBytes.length_bytes]
  rw [verifyTransparent, JrpProof.slice_magic, JrpProof.slice_field, exec_ok_bind, exec_ok_bind,
    length]
  split
  · rfl
  · have sum : checkedAdd (8 + leValue first.bytes + leValue second.bytes) (32 + NONCE_LEN) =
        some (8 + leValue first.bytes + leValue second.bytes + 56) := checkedAdd_eq (by
      simp only [NONCE_LEN]
      omega)
    simp only [FixedBytes.ofList_bytes]
    rw [checkedAdd_eq (by omega)]
    dsimp only
    rw [checkedAdd_eq (by omega)]
    dsimp only
    rw [sum, if_pos]
    intro eq
    have := Option.some.inj eq
    omega

/-- Where the four parts are that follow the length fields. -/
theorem opening_slices {front witness output : List UInt8} (eight : front.length = 8)
    (eSk : FixedBytes 32) (nonce : Nonce) {proof : List UInt8}
    (eq : proof = front ++ (witness ++ output ++ eSk.bytes ++ nonce.bytes)) :
    proof.length = 8 + witness.length + output.length + 32 + 24 ∧
    slice proof 8 (8 + witness.length) = .ok witness ∧
    slice proof (8 + witness.length) (8 + witness.length + output.length) = .ok output ∧
    slice proof (8 + witness.length + output.length) (8 + witness.length + output.length + 32) =
      .ok eSk.bytes ∧
    slice proof (8 + witness.length + output.length + 32)
      (8 + witness.length + output.length + 32 + 24) = .ok nonce.bytes := by
  have nonce_length : nonce.bytes.length = 24 := nonce.length_eq
  have cut : ∀ (before part after : List UInt8) {i j : Nat},
      front ++ (witness ++ output ++ eSk.bytes ++ nonce.bytes) = before ++ part ++ after →
      before.length = i → i + part.length = j → slice proof i j = .ok part := by
    intro before part after i j shape start stop
    rw [eq, shape]
    exact slice_append start stop
  refine ⟨?_, ?_, ?_, ?_, ?_⟩
  · simp only [eq, List.length_append, FixedBytes.length_bytes, eight, nonce_length]
    omega
  · apply cut front witness (output ++ eSk.bytes ++ nonce.bytes)
    · simp only [List.append_assoc]
    · exact eight
    · rfl
  · apply cut (front ++ witness) output (eSk.bytes ++ nonce.bytes)
    · simp only [List.append_assoc]
    · rw [List.length_append, eight]
    · rfl
  · apply cut (front ++ witness ++ output) eSk.bytes nonce.bytes
    · simp only [List.append_assoc]
    · rw [List.length_append, List.length_append, eight]
    · rw [FixedBytes.length_bytes]
  · apply cut (front ++ witness ++ output ++ eSk.bytes) nonce.bytes []
    · simp only [List.append_assoc, List.append_nil]
    · simp only [List.length_append, FixedBytes.length_bytes, eight]
    · rw [nonce_length]

/-- Lengths that add up cut the proof into its four parts. -/
theorem verifyTransparent_parts (first second : FixedBytes 4) {witness output : List UInt8}
    (eSk : FixedBytes 32) (nonce : Nonce) (first_eq : leValue first.bytes = witness.length)
    (second_eq : leValue second.bytes = output.length) :
    verifyTransparent lib blake3 pub
      (first.bytes ++ second.bytes ++ (witness ++ output ++ eSk.bytes ++ nonce.bytes)) =
        .ok (decide ((blake3.hash (pub.statement ++ witness)).bytes = output ∧
          Jrc.commitWithEphemeral lib pub.judgeKey output nonce eSk = .ok pub.commitment)) := by
  have first_lt := leValue_field_lt first
  have second_lt := leValue_field_lt second
  obtain ⟨length, cut_witness, cut_output, cut_secret, cut_nonce⟩ :=
    opening_slices (JrpProof.header_length first second) eSk nonce
      (Eq.refl (first.bytes ++ second.bytes ++ (witness ++ output ++ eSk.bytes ++ nonce.bytes)))
  rw [verifyTransparent, JrpProof.slice_magic, JrpProof.slice_field, exec_ok_bind, exec_ok_bind,
    length]
  split
  · rename_i short
    rw [NONCE_LEN] at short
    omega
  · have sum : checkedAdd (8 + witness.length + output.length) (32 + NONCE_LEN) =
        some (8 + witness.length + output.length + 32 + 24) := checkedAdd_eq (by
      simp only [NONCE_LEN]
      omega)
    simp only [FixedBytes.ofList_bytes, first_eq, second_eq]
    rw [checkedAdd_eq (by omega)]
    dsimp only
    rw [checkedAdd_eq (by omega)]
    dsimp only
    rw [sum, if_neg (not_not_intro rfl), cut_witness, exec_ok_bind, cut_output, exec_ok_bind,
      cut_secret, exec_ok_bind, cut_nonce, exec_ok_bind]
    simp only [FixedBytes.ofList_bytes]
    split
    · rename_i other
      simp only [other, false_and, decide_false]
    · rename_i same
      simp only [not_not.mp same, true_and]

/-- The four parts of what follows the length fields. -/
theorem exists_opening {n m : Nat} {rest : List UInt8} (fits : n + m + 56 = rest.length) :
    ∃ (witness output : List UInt8) (opening : JrcProverOpening), witness.length = n ∧
      output.length = m ∧
        rest = witness ++ output ++ opening.ephemeralSecret.bytes ++ opening.nonce.bytes := by
  have witness_le : n ≤ rest.length := by omega
  have output_le : m ≤ (rest.drop n).length := by
    rw [List.length_drop]
    omega
  have secret_le : 32 ≤ ((rest.drop n).drop m).length := by
    rw [List.length_drop, List.length_drop]
    omega
  obtain ⟨eSk, tail, tail_eq⟩ := FixedBytes.exists_append secret_le
  have nonce_length : tail.length = NONCE_LEN := by
    have count := congrArg List.length tail_eq
    rw [List.length_append, FixedBytes.length_bytes, List.length_drop, List.length_drop] at count
    rw [NONCE_LEN]
    omega
  refine ⟨rest.take n, (rest.drop n).take m, ⟨eSk, ⟨tail, nonce_length⟩⟩,
    List.length_take_of_le witness_le, List.length_take_of_le output_le, ?_⟩
  dsimp only
  rw [List.append_assoc _ eSk.bytes, ← tail_eq, List.append_assoc, List.take_append_drop,
    List.take_append_drop]

/-- The verifier reads what the prover has sent. -/
theorem verifyTransparent_sent {witness output : List UInt8} (opening : JrcProverOpening)
    (witness_lt : witness.length < 2 ^ 32) (output_lt : output.length < 2 ^ 32) :
    verifyTransparent lib blake3 pub (transparentProof witness output opening) =
      .ok (decide ((blake3.hash (pub.statement ++ witness)).bytes = output ∧
        Jrc.commitWithEphemeral lib pub.judgeKey output opening.nonce opening.ephemeralSecret =
          .ok pub.commitment)) := by
  have field : ∀ {n}, n < 2 ^ 32 → leValue (leBytes 4 n) = n := fun lt => by
    rw [leValue_leBytes]
    exact Nat.mod_eq_of_lt lt
  exact verifyTransparent_parts ⟨leBytes 4 witness.length, leBytes_length _ _⟩
    ⟨leBytes 4 output.length, leBytes_length _ _⟩ opening.ephemeralSecret opening.nonce
    (field witness_lt) (field output_lt)

/-- The two length fields of a proof that is long enough. -/
theorem exists_lengths {proof : List UInt8} (long : ¬ proof.length < 8 + 32 + NONCE_LEN) :
    ∃ (first second : FixedBytes 4) (rest : List UInt8),
      proof = first.bytes ++ second.bytes ++ rest := by
  have header : PROOF_OVERHEAD ≤ proof.length := by
    rw [PROOF_OVERHEAD]
    omega
  obtain ⟨first, second, rest, eq, _⟩ := JrpProof.exists_parts header
  exact ⟨first, second, rest, eq⟩

theorem verifyTransparent_returns (lib : JudgeCrates) (blake3 : Blake3) (pub : JrpPublicInput)
    (proof : List UInt8) : ∃ b, verifyTransparent lib blake3 pub proof = .ok b := by
  by_cases short : proof.length < 8 + 32 + NONCE_LEN
  · exact ⟨false, if_pos short⟩
  obtain ⟨first, second, rest, rfl⟩ := exists_lengths short
  by_cases fits : leValue first.bytes + leValue second.bytes + 56 = rest.length
  · obtain ⟨witness, output, ⟨eSk, nonce⟩, first_eq, second_eq, rfl⟩ := exists_opening fits
    exact ⟨_, verifyTransparent_parts first second eSk nonce first_eq.symm second_eq.symm⟩
  · exact ⟨false, verifyTransparent_misfit first second fits⟩

/-- The proofs that are accepted: those the prover sends for a witness whose
output the transcript commits to. -/
theorem verifyTransparent_iff {proof : List UInt8} :
    verifyTransparent lib blake3 pub proof = .ok true ↔ ∃ witness opening,
      witness.length < 2 ^ 32 ∧
      proof = transparentProof witness (blake3.hash (pub.statement ++ witness)).bytes opening ∧
      Jrc.commitWithEphemeral lib pub.judgeKey (blake3.hash (pub.statement ++ witness)).bytes
        opening.nonce opening.ephemeralSecret = .ok pub.commitment := by
  constructor
  · intro accepted
    by_cases short : proof.length < 8 + 32 + NONCE_LEN
    · rw [verifyTransparent, if_pos short] at accepted
      cases accepted
    obtain ⟨first, second, rest, rfl⟩ := exists_lengths short
    by_cases fits : leValue first.bytes + leValue second.bytes + 56 = rest.length
    · obtain ⟨witness, output, ⟨eSk, nonce⟩, first_eq, second_eq, rfl⟩ := exists_opening fits
      rw [verifyTransparent_parts first second eSk nonce first_eq.symm second_eq.symm] at accepted
      obtain ⟨rfl, committed⟩ := of_decide_eq_true (Except.ok.inj accepted)
      refine ⟨witness, ⟨eSk, nonce⟩, first_eq ▸ leValue_field_lt first, ?_, committed⟩
      have first_bytes := leBytes_leValue first.bytes
      have second_bytes := leBytes_leValue second.bytes
      rw [FixedBytes.length_bytes] at first_bytes second_bytes
      rw [transparentProof, first_eq, second_eq, first_bytes, second_bytes]
    · rw [verifyTransparent_misfit first second fits] at accepted
      cases accepted
  · rintro ⟨witness, opening, lt, rfl, committed⟩
    have output_lt : (blake3.hash (pub.statement ++ witness)).bytes.length < 2 ^ 32 := by
      rw [FixedBytes.length_bytes]
      decide
    rw [verifyTransparent_sent opening lt output_lt, decide_eq_true ⟨rfl, committed⟩]

theorem transparent_sound (lib : JudgeCrates) (blake3 : Blake3) :
    Sound lib (hashRelation blake3) (transparent lib blake3) := by
  intro pub proof verified
  obtain ⟨witness, opening, _, _, committed⟩ :=
    verifyTransparent_iff.mp (of_decide_eq_true verified)
  exact ⟨witness, _, opening, committed, trivial, rfl⟩

end

theorem transparentProof_length (witness output : List UInt8) (opening : JrcProverOpening) :
    (transparentProof witness output opening).length = witness.length + output.length + 64 := by
  simp only [transparentProof, List.length_append, leBytes_length, FixedBytes.length_bytes,
    NONCE_LEN]
  omega

/-- The backend of the tests accepts what its prover sends for a true output and
nothing else, so it is sound; and with it the prover returns a proof of the true
output and `InvalidProof` for any other. -/
theorem transparent_backend (lib : JudgeCrates) (blake3 : Blake3) :
    (∀ pub proof, ∃ b, verifyTransparent lib blake3 pub proof = .ok b ∧
      (b = true ↔ ∃ witness opening, witness.length < 2 ^ 32 ∧
        proof = transparentProof witness (blake3.hash (pub.statement ++ witness)).bytes opening ∧
        Jrc.commitWithEphemeral lib pub.judgeKey (blake3.hash (pub.statement ++ witness)).bytes
          opening.nonce opening.ephemeralSecret = .ok pub.commitment)) ∧
    Sound lib (hashRelation blake3) (transparent lib blake3) ∧
    ∀ ek statement witness output nonce eSk commitment,
      Jrc.commitWithEphemeral lib ek output nonce eSk = .ok commitment →
        (transparentProof witness output ⟨eSk, nonce⟩).length ≤ MAX_RELATION_PROOF_LEN →
          (JrpProof.mk (transparentProof witness output ⟨eSk, nonce⟩) commitment).transmittedLen ≤
            MAX_STREAM_BYTES →
              prove lib (some eSk) (transparent lib blake3) ek statement witness output nonce =
                if output = (blake3.hash (statement ++ witness)).bytes then
                  .ok ⟨transparentProof witness output ⟨eSk, nonce⟩, commitment⟩
                else .error .invalidProof := by
  refine ⟨?_, transparent_sound lib blake3, ?_⟩
  · intro pub proof
    obtain ⟨b, run⟩ := verifyTransparent_returns lib blake3 pub proof
    refine ⟨b, run, ?_⟩
    rw [← verifyTransparent_iff, run]
    exact ⟨congrArg Except.ok, Except.ok.inj⟩
  · intro ek statement witness output nonce eSk commitment committed proof_le fits
    have small : MAX_RELATION_PROOF_LEN < 2 ^ 32 := JrpProof.max_relation_proof_lt
    have sizes : witness.length < 2 ^ 32 ∧ output.length < 2 ^ 32 := by
      rw [transparentProof_length] at proof_le
      omega
    have verdict : verifyTransparent lib blake3 ⟨ek, statement, commitment⟩
        (transparentProof witness output ⟨eSk, nonce⟩) = _ :=
      verifyTransparent_sent ⟨eSk, nonce⟩ sizes.1 sizes.2
    simp only [committed, and_true] at verdict
    simp only [prove, Jrc.commitWithProverOpening_some, committed, Except.map, transparent, verdict,
      Nat.not_lt.mpr proof_le, Nat.not_lt.mpr fits, ↓reduceIte]
    by_cases true_output : output = (blake3.hash (statement ++ witness)).bytes
    · simp only [true_output, decide_true, not_true_eq_false, ↓reduceIte]
    · simp only [true_output, Ne.symm true_output, decide_false, Except.ok.injEq,
        Bool.false_eq_true, not_false_eq_true, ↓reduceIte]

/-- The hash of statement "x" and witness "w", which the transcript below commits
to under the keys of the golden envelope. -/
def sampleOutput : FixedBytes 32 :=
  ⟨[0x83, 0x11, 0x72, 0x3b, 0x4f, 0x93, 0x14, 0x97, 0xc7, 0x04, 0x39, 0x9c, 0xa4, 0x19, 0xac,
    0x42, 0x38, 0xdc, 0xb6, 0x2c, 0xb0, 0x40, 0xa8, 0x39, 0x81, 0x3b, 0x5b, 0xd1, 0x2d, 0xd0,
    0xe7, 0x9d], rfl⟩

def sampleCommitment : JrcCommitment where
  commitment := ⟨[0xbb, 0xbc, 0x8b, 0xcd, 0x65, 0xa4, 0xa1, 0x7e, 0x6a, 0xe4, 0x09, 0x2d, 0x86, 0x82,
    0xf9, 0x6a, 0x3f, 0x55, 0x51, 0x47, 0x29, 0x39, 0xd6, 0x5e, 0x53, 0x12, 0x64, 0x7b, 0x18, 0x98,
    0xa6, 0x02], rfl⟩
  aux := Jrc.goldenEphemeralKey.bytes ++ Jrc.goldenNonce.bytes ++ [
    0x99, 0xeb, 0xd1, 0x24, 0xe4, 0xac, 0xaa, 0xf7, 0x42, 0x2e, 0xbd, 0xae, 0x61, 0x00, 0x01, 0x64,
    0x79, 0xd9, 0xda, 0x7e, 0x10, 0x2f, 0x4f, 0xab, 0x00, 0xc0, 0x10, 0x42, 0x9e, 0xf5, 0x7a, 0xa4,
    0x3e, 0xb3, 0x04, 0xb9, 0x3e, 0x54, 0xc6, 0xbc, 0x07, 0xc1, 0xf9, 0x84, 0x09, 0xc3, 0xb4, 0x13]

def sampleBlake3 : Blake3 where
  hash bytes := if bytes = [0x78, 0x77] then sampleOutput else .zero 32

def sampleJudge : JudgeCrates where
  x25519 := Jrc.goldenCrates.x25519
  blake3 := {
    deriveKey := Jrc.goldenCrates.blake3.deriveKey
    keyedHash := fun key m =>
      if key = Jrc.goldenComKey ∧ m = sampleOutput.bytes then sampleCommitment.commitment
      else .zero 32 }
  aead := Jrc.sealedOnce Jrc.goldenEncKey Jrc.goldenNonce sampleOutput.bytes
    sampleCommitment.commitment.bytes (sampleCommitment.aux.drop (Jrc.EPHEMERAL_PK_LEN + NONCE_LEN))

def sampleProof : JrpProof where
  relationProof := transparentProof [0x77] sampleOutput.bytes ⟨Jrc.goldenEphemeral, Jrc.goldenNonce⟩
  commitment := sampleCommitment

theorem sample_committed :
    Jrc.commitWithEphemeral sampleJudge (Jrc.goldenJudge.toPublic sampleJudge) sampleOutput.bytes
      Jrc.goldenNonce Jrc.goldenEphemeral = .ok sampleCommitment := by
  decide +kernel

theorem transparent_backend_sample :
    prove sampleJudge (some Jrc.goldenEphemeral) (transparent sampleJudge sampleBlake3)
      (Jrc.goldenJudge.toPublic sampleJudge) [0x78] [0x77] sampleOutput.bytes Jrc.goldenNonce =
        .ok sampleProof := by
  obtain ⟨_, _, proves⟩ := transparent_backend sampleJudge sampleBlake3
  rw [proves _ _ _ _ _ _ _ sample_committed (by decide +kernel) (by decide +kernel)]
  rfl

theorem composition_sound_sample :
    verifyExt (transparent sampleJudge sampleBlake3) (Jrc.goldenJudge.toPublic sampleJudge) [0x78]
        sampleProof = true ∧
      ∃ w, judgeRecover sampleJudge (transparent sampleJudge sampleBlake3) Jrc.goldenJudge [0x78]
        sampleProof = .ok (.ok (sampleBlake3.hash ([0x78] ++ w)).bytes) := by
  have exact : sampleJudge.aead.Exact := Jrc.sealedOnce_exact (by decide +kernel)
  have verified : verifyExt (transparent sampleJudge sampleBlake3)
      (Jrc.goldenJudge.toPublic sampleJudge) [0x78] sampleProof = true := by
    decide +kernel
  obtain ⟨opens, _⟩ := composition_sound sampleJudge Jrc.golden_agrees exact
    (hashRelation sampleBlake3) (transparent sampleJudge sampleBlake3)
    (transparent_sound sampleJudge sampleBlake3) Jrc.goldenJudge [0x78]
  obtain ⟨w, _, recovered⟩ := opens sampleProof verified
  exact ⟨verified, w, recovered⟩

end Jrp

end DeOptiTransfer
