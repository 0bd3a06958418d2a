import DeOptiTransfer.Base.Exec

/-! The error type of `error.rs`, as far as the modelled functions return it. -/

namespace DeOptiTransfer

/-- `metadata` is the source's `Meta`, a reserved word here. -/
inductive Error where
  | empty
  | tooLarge (len max : Nat)
  | metadata
  | truncated
  | badMagic
  | lengths
  | invalidStream
  | resourceLimit
  | sequenceExhausted
  | corruptFrame
  | streamConflict
  | gzipIncomplete
  | gzipSize
  | inflate (msg : String)
  | codec (msg : String)
  | noEncryption
  | crypto
  | invalidKey
  | invalidProof
  deriving DecidableEq, Repr

end DeOptiTransfer
