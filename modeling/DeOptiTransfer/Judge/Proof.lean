import DeOptiTransfer.Judge.Commitment

/-!
# Judge-recoverable proofs

`jrp.rs`: a relation proof of a backend that the caller supplies, in front of
the envelope of a commitment.

* `JrpProof.fromBytes_ok`: the byte strings that are read as a proof;
* `transcript_codecs`: both transcript formats, read and written.
-/

namespace DeOptiTransfer

namespace Jrp

def PROOF_MAGIC : FixedBytes 4 := ⟨[0x4a, 0x52, 0x50, 2], rfl⟩
def PROOF_OVERHEAD : Nat := 8
def MAX_RELATION_PROOF_LEN : Nat := MAX_STREAM_BYTES - PROOF_OVERHEAD - Jrc.ENVELOPE_OVERHEAD

end Jrp

open Jrp

structure JrpPublicInput where
  judgeKey : JudgePublicKey
  statement : List UInt8
  commitment : JrcCommitment

structure RelationProofSystem (Witness : Type) where
  prove : JrpPublicInput → Witness → List UInt8 → JrcProverOpening → Except Error (List UInt8)
  verify : JrpPublicInput → List UInt8 → Bool

structure JrpProof where
  relationProof : List UInt8
  commitment : JrcCommitment
  deriving DecidableEq, Repr

namespace JrpProof

def transmittedLen (p : JrpProof) : Nat :=
  PROOF_OVERHEAD + p.relationProof.length + p.commitment.transmittedLen

def toBytes (p : JrpProof) : List UInt8 :=
  PROOF_MAGIC.bytes ++ leBytes 4 p.relationProof.length ++ p.relationProof ++ p.commitment.toBytes

def fromBytes (bytes : List UInt8) : Exec (Except Error JrpProof) :=
  if bytes.length > MAX_STREAM_BYTES then .ok (.error (.tooLarge bytes.length MAX_STREAM_BYTES))
  else if bytes.length < PROOF_OVERHEAD + Jrc.ENVELOPE_OVERHEAD then .ok (.error .truncated)
  else do
    let magic ← slice bytes 0 4
    if magic ≠ PROOF_MAGIC.bytes then .ok (.error .badMagic)
    else
      let field ← slice bytes 4 8
      match FixedBytes.ofList 4 field with
      | none => .ok (.error .truncated)
      | some field =>
        let proofLen := leValue field.bytes
        if proofLen > MAX_RELATION_PROOF_LEN then
          .ok (.error (.tooLarge proofLen MAX_RELATION_PROOF_LEN))
        else
          match checkedAdd PROOF_OVERHEAD proofLen with
          | none => .ok (.error .lengths)
          | some proofEnd =>
            if bytes.length - proofEnd < Jrc.ENVELOPE_OVERHEAD then .ok (.error .truncated)
            else
              let envelope ← slice bytes proofEnd bytes.length
              let read ← JrcCommitment.fromBytes envelope
              match read with
              | .error e => .ok (.error e)
              | .ok commitment =>
                let relationProof ← slice bytes PROOF_OVERHEAD proofEnd
                .ok (.ok { relationProof, commitment })

end JrpProof

namespace Jrp

variable {Witness : Type}

def prove (lib : JudgeCrates) (random : Option (FixedBytes 32))
    (system : RelationProofSystem Witness) (ek : JudgePublicKey) (statement : List UInt8)
    (witness : Witness) (output : List UInt8) (nonce : Nonce) : Except Error JrpProof :=
  match Jrc.commitWithProverOpening lib random ek output nonce with
  | .error e => .error e
  | .ok (commitment, opening) =>
    let pub : JrpPublicInput := { judgeKey := ek, statement, commitment }
    match system.prove pub witness output opening with
    | .error e => .error e
    | .ok relationProof =>
      if relationProof.length > MAX_RELATION_PROOF_LEN then
        .error (.tooLarge relationProof.length MAX_RELATION_PROOF_LEN)
      else if ¬ system.verify pub relationProof then .error .invalidProof
      else
        let transcript : JrpProof := { relationProof, commitment }
        if transcript.transmittedLen > MAX_STREAM_BYTES then
          .error (.tooLarge transcript.transmittedLen MAX_STREAM_BYTES)
        else .ok transcript

def verifyExt (system : RelationProofSystem Witness) (ek : JudgePublicKey) (statement : List UInt8)
    (proof : JrpProof) : Bool :=
  Jrc.verifyExt proof.commitment.commitment proof.commitment.aux &&
    system.verify { judgeKey := ek, statement, commitment := proof.commitment } proof.relationProof

def judgeRecover (lib : JudgeCrates) (system : RelationProofSystem Witness) (dk : JudgeSecretKey)
    (statement : List UInt8) (proof : JrpProof) : Exec (Except Error (List UInt8)) :=
  let ek := dk.toPublic lib
  if ¬ verifyExt system ek statement proof then .ok (.error .invalidProof)
  else Jrc.judgeRecover lib dk proof.commitment.commitment proof.commitment.aux

end Jrp

/-! ## Reading and writing -/

namespace JrpProof

@[simp] theorem toBytes_length (p : JrpProof) : p.toBytes.length = p.transmittedLen := by
  simp only [toBytes, transmittedLen, List.length_append, FixedBytes.length_bytes, leBytes_length,
    JrcCommitment.toBytes_length, PROOF_OVERHEAD]

theorem max_relation_proof_lt : MAX_RELATION_PROOF_LEN < 256 ^ 4 := by decide

/-- The parts of a byte string that is long enough: magic, length field and the
rest. -/
theorem exists_parts {bytes : List UInt8} (min : PROOF_OVERHEAD ≤ bytes.length) :
    ∃ (magic field : FixedBytes 4) (rest : List UInt8),
      bytes = magic.bytes ++ field.bytes ++ rest ∧ bytes.length = 8 + rest.length := by
  simp only [PROOF_OVERHEAD] at min
  have four : 4 ≤ bytes.length := by omega
  obtain ⟨magic, rest, rfl⟩ := FixedBytes.exists_append four
  rw [List.length_append, FixedBytes.length_bytes] at min
  have more : 4 ≤ rest.length := by omega
  obtain ⟨field, rest, rfl⟩ := FixedBytes.exists_append more
  refine ⟨magic, field, rest, by rw [List.append_assoc], ?_⟩
  simp only [List.length_append, FixedBytes.length_bytes]
  omega

/-- What is read behind the right magic. -/
def readBody (proofLen : Nat) (rest : List UInt8) : Exec (Except Error JrpProof) :=
  if proofLen > MAX_RELATION_PROOF_LEN then
    .ok (.error (.tooLarge proofLen MAX_RELATION_PROOF_LEN))
  else if rest.length - proofLen < Jrc.ENVELOPE_OVERHEAD then .ok (.error .truncated)
  else do
    let read ← JrcCommitment.fromBytes (rest.drop proofLen)
    match read with
    | .error e => .ok (.error e)
    | .ok commitment => .ok (.ok { relationProof := rest.take proofLen, commitment })

section
variable (magic field : FixedBytes 4) (rest : List UInt8) {n : Nat}

theorem slice_magic : slice (magic.bytes ++ field.bytes ++ rest) 0 4 = .ok magic.bytes := by
  rw [List.append_assoc]
  show slice ([] ++ magic.bytes ++ (field.bytes ++ rest)) 0 4 = .ok magic.bytes
  exact slice_append rfl (by rw [FixedBytes.length_bytes])

theorem slice_field : slice (magic.bytes ++ field.bytes ++ rest) 4 8 = .ok field.bytes := by
  apply slice_append
  · rw [FixedBytes.length_bytes]
  · rw [FixedBytes.length_bytes]

theorem header_length : (magic.bytes ++ field.bytes).length = 8 := by
  simp only [List.length_append, FixedBytes.length_bytes]

theorem slice_proof (le : n ≤ rest.length) :
    slice (magic.bytes ++ field.bytes ++ rest) 8 (8 + n) = .ok (rest.take n) := by
  have cut : magic.bytes ++ field.bytes ++ rest =
      magic.bytes ++ field.bytes ++ rest.take n ++ rest.drop n := by
    rw [List.append_assoc _ (rest.take n), List.take_append_drop]
  rw [cut]
  apply slice_append
  · exact header_length magic field
  · rw [List.length_take_of_le le]

theorem slice_envelope (le : n ≤ rest.length) :
    slice (magic.bytes ++ field.bytes ++ rest) (8 + n) (8 + rest.length) = .ok (rest.drop n) := by
  have cut : magic.bytes ++ field.bytes ++ rest =
      magic.bytes ++ field.bytes ++ rest.take n ++ rest.drop n ++ [] := by
    rw [List.append_nil, List.append_assoc _ (rest.take n), List.take_append_drop]
  rw [cut]
  apply slice_append
  · rw [List.length_append, header_length, List.length_take_of_le le]
  · rw [List.length_drop]
    omega

/-- The reader checks the magic and reads on behind the length field. -/
theorem fromBytes_append (min : Jrc.ENVELOPE_OVERHEAD ≤ rest.length)
    (max : 8 + rest.length ≤ MAX_STREAM_BYTES) :
    fromBytes (magic.bytes ++ field.bytes ++ rest) =
      if magic ≠ PROOF_MAGIC then .ok (.error .badMagic)
      else readBody (leValue field.bytes) rest := by
  have len : (magic.bytes ++ field.bytes ++ rest).length = 8 + rest.length := by
    rw [List.length_append, header_length]
  rw [fromBytes, len, if_neg (by omega), if_neg (by rw [PROOF_OVERHEAD]; omega), slice_magic,
    exec_ok_bind]
  by_cases same : magic = PROOF_MAGIC
  · subst same
    rw [if_neg (not_not_intro rfl), if_neg (not_not_intro rfl), slice_field, exec_ok_bind,
      FixedBytes.ofList_bytes, readBody]
    dsimp only
    by_cases long : leValue field.bytes > MAX_RELATION_PROOF_LEN
    · rw [if_pos long, if_pos long]
    have no_overflow : PROOF_OVERHEAD + leValue field.bytes < 2 ^ 64 := by
      have := max_relation_proof_lt
      simp only [PROOF_OVERHEAD]
      omega
    rw [if_neg long, if_neg long, checkedAdd_eq no_overflow]
    dsimp only
    rw [PROOF_OVERHEAD, Nat.add_sub_add_left]
    by_cases short : rest.length - leValue field.bytes < Jrc.ENVELOPE_OVERHEAD
    · rw [if_pos short, if_pos short]
    have overhead : 0 < Jrc.ENVELOPE_OVERHEAD := by decide
    have inside : leValue field.bytes ≤ rest.length := by omega
    rw [if_neg short, if_neg short, slice_envelope _ _ _ inside, exec_ok_bind,
      slice_proof _ _ _ inside]
    rfl
  · have differ : magic.bytes ≠ PROOF_MAGIC.bytes := fun eq => same (FixedBytes.ext eq)
    rw [if_pos differ, if_pos same]

end

theorem readBody_returns (proofLen : Nat) (rest : List UInt8) :
    ∃ result, readBody proofLen rest = .ok result := by
  unfold readBody
  by_cases long : proofLen > MAX_RELATION_PROOF_LEN
  · exact ⟨_, if_pos long⟩
  by_cases short : rest.length - proofLen < Jrc.ENVELOPE_OVERHEAD
  · exact ⟨_, by rw [if_neg long, if_pos short]⟩
  obtain ⟨read, eq⟩ := JrcCommitment.fromBytes_returns (rest.drop proofLen)
  rw [if_neg long, if_neg short, eq, exec_ok_bind]
  cases read with
  | error e => exact ⟨_, rfl⟩
  | ok commitment => exact ⟨_, rfl⟩

theorem readBody_ok {proofLen : Nat} {rest : List UInt8} {p : JrpProof} :
    readBody proofLen rest = .ok (.ok p) ↔
      rest = p.relationProof ++ p.commitment.toBytes ∧ proofLen = p.relationProof.length ∧
        proofLen ≤ MAX_RELATION_PROOF_LEN ∧
        Jrc.verifyExt p.commitment.commitment p.commitment.aux = true := by
  constructor
  · intro read
    unfold readBody at read
    by_cases long : proofLen > MAX_RELATION_PROOF_LEN
    · rw [if_pos long] at read
      cases read
    by_cases short : rest.length - proofLen < Jrc.ENVELOPE_OVERHEAD
    · rw [if_neg long, if_pos short] at read
      cases read
    rw [if_neg long, if_neg short, exec_bind_eq_ok] at read
    obtain ⟨envelope, eq, read⟩ := read
    cases envelope with
    | error e => cases read
    | ok commitment =>
      cases read
      obtain ⟨bytes_eq, format⟩ := JrcCommitment.fromBytes_ok.mp eq
      have overhead : 0 < Jrc.ENVELOPE_OVERHEAD := by decide
      refine ⟨?_, ?_, by omega, format⟩
      · rw [bytes_eq, List.take_append_drop]
      · rw [List.length_take_of_le (by omega)]
  · rintro ⟨rfl, rfl, le, format⟩
    have read := JrcCommitment.fromBytes_ok.mpr ⟨rfl, format⟩
    have min := ((JrcCommitment.verifyExt_iff _).mp format).1
    have len : ¬ (p.relationProof ++ p.commitment.toBytes).length - p.relationProof.length <
        Jrc.ENVELOPE_OVERHEAD := by
      rw [List.length_append, JrcCommitment.toBytes_length]
      omega
    rw [readBody, if_neg (by omega), if_neg len, List.drop_left, read, exec_ok_bind,
      List.take_left]

/-- No byte string makes the reader panic. -/
theorem fromBytes_returns (bytes : List UInt8) : ∃ result, fromBytes bytes = .ok result := by
  by_cases max : bytes.length > MAX_STREAM_BYTES
  · exact ⟨_, if_pos max⟩
  by_cases min : bytes.length < PROOF_OVERHEAD + Jrc.ENVELOPE_OVERHEAD
  · exact ⟨_, by rw [fromBytes, if_neg max, if_pos min]⟩
  have header : PROOF_OVERHEAD ≤ bytes.length := by omega
  obtain ⟨magic, field, rest, rfl, len⟩ := exists_parts header
  rw [PROOF_OVERHEAD] at min
  rw [fromBytes_append magic field rest (by omega) (by omega)]
  by_cases same : magic = PROOF_MAGIC
  · rw [if_neg (not_not_intro same)]
    exact readBody_returns _ _
  · exact ⟨_, if_pos same⟩

/-- What has been read is written back the same, and its commitment passes the
format check. -/
theorem toBytes_of_read {bytes : List UInt8} {p : JrpProof}
    (read : fromBytes bytes = .ok (.ok p)) :
    p.toBytes = bytes ∧ Jrc.verifyExt p.commitment.commitment p.commitment.aux = true := by
  by_cases max : bytes.length > MAX_STREAM_BYTES
  · rw [fromBytes, if_pos max] at read
    cases read
  by_cases min : bytes.length < PROOF_OVERHEAD + Jrc.ENVELOPE_OVERHEAD
  · rw [fromBytes, if_neg max, if_pos min] at read
    cases read
  have header : PROOF_OVERHEAD ≤ bytes.length := by omega
  obtain ⟨magic, field, rest, rfl, len⟩ := exists_parts header
  rw [PROOF_OVERHEAD] at min
  rw [fromBytes_append magic field rest (by omega) (by omega)] at read
  by_cases same : magic = PROOF_MAGIC
  · rw [if_neg (not_not_intro same)] at read
    obtain ⟨rfl, len_eq, le, format⟩ := readBody_ok.mp read
    refine ⟨?_, format⟩
    have bytes_eq := leBytes_leValue field.bytes
    rw [FixedBytes.length_bytes, len_eq] at bytes_eq
    rw [toBytes, same, bytes_eq, List.append_assoc _ p.relationProof]
  · rw [if_pos same] at read
    cases read

theorem length_le_of_read {bytes : List UInt8} {p : JrpProof}
    (read : fromBytes bytes = .ok (.ok p)) : bytes.length ≤ MAX_STREAM_BYTES := by
  by_contra max
  rw [fromBytes, if_pos (Nat.lt_of_not_le max)] at read
  cases read

/-- A proof within the limits is read back. -/
theorem fromBytes_toBytes {p : JrpProof}
    (format : Jrc.verifyExt p.commitment.commitment p.commitment.aux = true)
    (max : p.transmittedLen ≤ MAX_STREAM_BYTES) : fromBytes p.toBytes = .ok (.ok p) := by
  have min := ((JrcCommitment.verifyExt_iff _).mp format).1
  have le : p.relationProof.length ≤ MAX_RELATION_PROOF_LEN := by
    rw [transmittedLen] at max
    rw [MAX_RELATION_PROOF_LEN]
    omega
  have field_eq : leValue (leBytes 4 p.relationProof.length) = p.relationProof.length := by
    rw [leValue_leBytes, Nat.mod_eq_of_lt (Nat.lt_of_le_of_lt le max_relation_proof_lt)]
  have len : (p.relationProof ++ p.commitment.toBytes).length =
      p.relationProof.length + p.commitment.transmittedLen := by
    rw [List.length_append, JrcCommitment.toBytes_length]
  have read := fromBytes_append PROOF_MAGIC ⟨leBytes 4 p.relationProof.length, leBytes_length _ _⟩
    (p.relationProof ++ p.commitment.toBytes) (by omega) (by
      rw [transmittedLen, PROOF_OVERHEAD] at max
      omega)
  rw [if_neg (not_not_intro rfl), field_eq] at read
  rw [toBytes, List.append_assoc _ p.relationProof, read]
  exact readBody_ok.mpr ⟨rfl, rfl, le, format⟩

/-- The proofs that are read: those of a transcript within the limits. -/
theorem fromBytes_ok {bytes : List UInt8} {p : JrpProof} :
    fromBytes bytes = .ok (.ok p) ↔ p.toBytes = bytes ∧
      Jrc.verifyExt p.commitment.commitment p.commitment.aux = true ∧
        p.transmittedLen ≤ MAX_STREAM_BYTES := by
  constructor
  · intro read
    obtain ⟨written, format⟩ := toBytes_of_read read
    refine ⟨written, format, ?_⟩
    rw [← toBytes_length, written]
    exact length_le_of_read read
  · rintro ⟨rfl, format, max⟩
    exact fromBytes_toBytes format max

end JrpProof

/-- No byte string makes a reader panic, and what is read is written back the
same. A commitment is read back exactly when it passes the format check, a proof
when its commitment does and it fits into a stream. -/
theorem transcript_codecs :
    (∀ bytes, (∃ result, JrpProof.fromBytes bytes = .ok result) ∧
      ∀ p, JrpProof.fromBytes bytes = .ok (.ok p) → p.toBytes = bytes) ∧
    (∀ bytes, (∃ result, JrcCommitment.fromBytes bytes = .ok result) ∧
      ∀ p, JrcCommitment.fromBytes bytes = .ok (.ok p) → p.toBytes = bytes) ∧
    (∀ p : JrcCommitment, JrcCommitment.fromBytes p.toBytes = .ok (.ok p) ↔
      Jrc.verifyExt p.commitment p.aux = true) ∧
    (∀ p : JrpProof, Jrc.verifyExt p.commitment.commitment p.commitment.aux = true →
      p.transmittedLen ≤ MAX_STREAM_BYTES → JrpProof.fromBytes p.toBytes = .ok (.ok p)) ∧
    (∀ p : JrcCommitment, p.transmittedLen = p.toBytes.length) ∧
    ∀ p : JrpProof, p.transmittedLen = p.toBytes.length := by
  refine ⟨?_, ?_, ?_, ?_, ?_, ?_⟩
  · intro bytes
    exact ⟨JrpProof.fromBytes_returns bytes, fun p read => (JrpProof.fromBytes_ok.mp read).1⟩
  · intro bytes
    exact ⟨JrcCommitment.fromBytes_returns bytes, fun p read => (JrcCommitment.fromBytes_ok.mp read).1⟩
  · intro p
    rw [JrcCommitment.fromBytes_ok]
    exact and_iff_right rfl
  · intro p format max
    exact JrpProof.fromBytes_ok.mpr ⟨rfl, format, max⟩
  · intro p
    exact p.toBytes_length.symm
  · intro p
    exact p.toBytes_length.symm

end DeOptiTransfer
