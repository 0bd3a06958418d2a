import DeOptiTransfer.Fountain.Runs

/-!
# Genuine frames

A decoder that is given the frames of one encoder, some of them lost or
repeated, in any order. `decoder_sound`: in every state every solved slot holds
its source block, every pending slot the exclusive or of the blocks left to it,
and a complete decoder gives the payload.
-/

namespace DeOptiTransfer

namespace LtDecoder

section
variable {mode : Mode} {A A' : Finset UInt32} {d d' : LtDecoder} {seq : UInt32}
  {payload : List UInt8}

theorem equationWords_sums (payload : List UInt8) (blockLen : Nat) :
    PeelState.Sums (equationWords payload blockLen) := by
  intro s c hc
  rw [equationWords_singleton]
  exact equationWords_erase payload blockLen hc

/-- The row stored for a frame is the sum of its blocks. -/
theorem padRow_frameBlock (payload : List UInt8) (blockLen : Nat) (indices : List Nat) :
    padRow blockLen (frameBlock payload blockLen indices) =
      equationWords payload blockLen indices.toFinset :=
  wordsOfBytes_take (equationWords_padded payload indices.toFinset)

/-- A genuine frame keeps every slot the sum of its blocks. -/
theorem Step.values
    (step : d.Step mode A seq
      (frameBlock payload d.blockLen (frameIndices mode d.cdf d.sessionId seq)) A' d')
    (values : d.Values d.words (equationWords payload d.blockLen) []) :
    d'.Values d.words (equationWords payload d.blockLen) [] := by
  cases step with
  | refused _ _ => exact ⟨values.solved, values.frame, values.queue⟩
  | redundant _ _ => exact ⟨values.solved, values.frame, values.queue⟩
  | useful _ _ _ _ genuine =>
    exact genuine _ (equationWords_sums payload d.blockLen) values
      (padRow_frameBlock payload d.blockLen _)

theorem Fresh.values (fresh : d.Fresh) (words : Nat) (V : Finset Nat → List UInt32) :
    d.Values words V [] := by
  refine ⟨?_, ?_, by simp⟩
  · intro b off h
    rw [replicate_offset fresh.solved] at h
    cases h
  · intro i f act
    have := act.1
    rw [fresh.frames] at this
    simp at this

end

/-- The contents of the slots, as the source reads them. -/
structure Sound (payload : List UInt8) (blockLen : Nat) (d : LtDecoder) : Prop where
  solved : ∀ b off : Nat, d.solved[b]? = some (some off) →
    slice d.arena off (off + d.words) = .ok (blockWords payload blockLen b)
  pending : ∀ f ∈ d.frames, f.active = true →
    slice d.arena f.off (f.off + d.words) = .ok (equationWords payload blockLen f.idx.members)
  assemble : d.isComplete = true → d.assemble = .ok (some payload)

theorem WF.sound {mode : Mode} {A : Finset UInt32} {d : LtDecoder} {payload : List UInt8}
    (wf : d.WF mode A) (total : payload.length = d.totalLen)
    (values : d.Values d.words (equationWords payload d.blockLen) []) :
    d.Sound payload d.blockLen := by
  refine ⟨?_, ?_, assemble_payload wf total values⟩
  · intro b off h
    have stored := offset_eq_some.mpr h
    rw [slice_slot (wf.shape.solved_slot b off stored), values.solved b off stored,
      equationWords_singleton]
  · intro f hf on
    obtain ⟨i, at_i⟩ := List.mem_iff_getElem?.mp hf
    rw [slice_slot (wf.shape.frame_slot i f ⟨at_i, on⟩), values.frame i f ⟨at_i, on⟩]

end LtDecoder

/-- The encoder makes frame `seq`, which is presented to the decoder. -/
def presentFrame (s : LtEncoder × LtDecoder) (seq : UInt32) : Exec (LtEncoder × LtDecoder) := do
  let (block, e) ← s.1.encode seq
  let d ← s.2.addFrame seq block
  .ok (e, d)

/-- One event of a transfer: frame `seq` is presented, or made and then lost. -/
def transfer (s : LtEncoder × LtDecoder) (event : UInt32 × Bool) :
    Exec (LtEncoder × LtDecoder) :=
  if event.2 then do
    let (_, e) ← s.1.encode event.1
    .ok (e, s.2)
  else presentFrame s event.1

/-- An encoder, and a decoder of the same stream that has accepted `A`. -/
structure Matched (mode : Mode) (payload : List UInt8) (A : Finset UInt32) (e : LtEncoder)
    (d : LtDecoder) : Prop where
  encoder : e.WF mode payload
  decoder : d.WF mode A
  values : d.Values d.words (equationWords payload d.blockLen) []
  blockLen_eq : e.blockLen = d.blockLen
  sessionId_eq : e.sessionId = d.sessionId
  cdf_eq : e.cdf = d.cdf
  totalLen_eq : payload.length = d.totalLen

section
variable {mode : Mode} {payload : List UInt8} {A A' : Finset UInt32} {e e' : LtEncoder}
  {d d' : LtDecoder}

/-- The frame of an encoder that matches decoder `d`. -/
def genuine (mode : Mode) (payload : List UInt8) (d : LtDecoder) (seq : UInt32) : List UInt8 :=
  frameBlock payload d.blockLen (frameIndices mode d.cdf d.sessionId seq)

theorem Matched.encode (m : Matched mode payload A e d) (seq : UInt32) :
    ∃ e', e.encode seq = .ok (genuine mode payload d seq, e') ∧ Matched mode payload A e' d := by
  obtain ⟨e', encode, wf, same⟩ := LtEncoder.encode_ok m.encoder seq
  rw [m.blockLen_eq, m.cdf_eq, m.sessionId_eq] at encode
  refine ⟨e', encode, { m with encoder := wf, blockLen_eq := ?_, sessionId_eq := ?_, cdf_eq := ?_ }⟩
  · rw [same]
    exact m.blockLen_eq
  · rw [same]
    exact m.sessionId_eq
  · rw [same]
    exact m.cdf_eq

theorem Matched.step {seq : UInt32} (m : Matched mode payload A e d) (wf : d'.WF mode A')
    (step : d.Step mode A seq (genuine mode payload d seq) A' d') :
    Matched mode payload A' e d' := by
  have same := step.same
  have values := step.values m.values
  refine ⟨m.encoder, wf, ?_, ?_, ?_, ?_, ?_⟩
  · rw [same.words]
    rw [same] at values ⊢
    exact values
  · rw [same]
    exact m.blockLen_eq
  · rw [same]
    exact m.sessionId_eq
  · rw [same]
    exact m.cdf_eq
  · rw [same]
    exact m.totalLen_eq

/-- A presented frame keeps encoder and decoder matched. -/
theorem Matched.present (m : Matched mode payload A e d) (seq : UInt32) :
    ∃ e' d' A', presentFrame (e, d) seq = .ok (e', d') ∧ Matched mode payload A' e' d' ∧
      d.Step mode A seq (genuine mode payload d seq) A' d' := by
  obtain ⟨e', encode, m'⟩ := m.encode seq
  obtain ⟨d', A', call, wf, step⟩ :=
    LtDecoder.addFrame_ok m.decoder seq (genuine mode payload d seq)
  refine ⟨e', d', A', ?_, m'.step wf step, step⟩
  simp only [presentFrame, encode, exec_ok_bind, call]

/-- Any run of events keeps encoder and decoder matched. -/
theorem Matched.run (m : Matched mode payload A e d) (events : List (UInt32 × Bool)) :
    ∃ e' d' A', events.foldlM transfer (e, d) = .ok (e', d') ∧ Matched mode payload A' e' d' ∧
      d.Same d' := by
  induction events generalizing e d A with
  | nil => exact ⟨e, d, A, rfl, m, LtDecoder.Same.refl d⟩
  | cons event rest ih =>
    obtain ⟨seq, lost⟩ := event
    cases lost with
    | true =>
      obtain ⟨e₁, encode, m₁⟩ := m.encode seq
      obtain ⟨e', d', A', run, m', same'⟩ := ih m₁
      refine ⟨e', d', A', ?_, m', same'⟩
      simp only [List.foldlM_cons, transfer, ↓reduceIte, encode, exec_ok_bind, run]
    | false =>
      obtain ⟨e₁, d₁, A₁, one, m₁, step⟩ := m.present seq
      obtain ⟨e', d', A', run, m', same'⟩ := ih m₁
      refine ⟨e', d', A', ?_, m', step.same.trans same'⟩
      simp only [List.foldlM_cons, transfer, Bool.false_eq_true, ↓reduceIte, one, exec_ok_bind, run]

/-- A new decoder with the parameters of an encoder matches it. -/
theorem matched_new {soliton : SolitonCdf} {blockLen : Nat} {sessionId : UInt32}
    (built : LtEncoder.tryNew soliton mode payload blockLen sessionId = .ok (.ok e)) :
    ∃ d, LtDecoder.tryNew soliton mode e.k blockLen sessionId payload.length = .ok (.ok d) ∧
      Matched mode payload ∅ e d := by
  obtain ⟨checked, wf, blockLen_eq, sessionId_eq, cdf⟩ := LtEncoder.tryNew_ok built
  obtain ⟨nonempty, pos, le, total, k_eq, _, k_le⟩ := checkedEncoderK_ok checked
  have accepted : LtDecoder.Accepted e.k blockLen payload.length :=
    ⟨pos, le, List.length_pos_iff.mpr nonempty, total, k_le, k_eq⟩
  obtain ⟨d, new, wf_d, fresh, _, blockLen_d, sessionId_d, totalLen_d, cdf_d⟩ :=
    LtDecoder.tryNew_ok soliton mode sessionId accepted
  refine ⟨d, new, ⟨wf, wf_d, fresh.values _ _, ?_, ?_, ?_, totalLen_d.symm⟩⟩
  · rw [blockLen_eq, blockLen_d]
  · rw [sessionId_eq, sessionId_d]
  · rw [cdf] at cdf_d
    exact (Except.ok.inj cdf_d).symm

/-- The parameters a decoder accepts are those an encoder accepts. -/
theorem checkedEncoderK_of_accepted {k blockLen : Nat}
    (accepted : LtDecoder.Accepted k blockLen payload.length) :
    checkedEncoderK payload blockLen = .ok k := by
  have nonempty : payload.isEmpty = false := by
    rw [← Bool.not_eq_true, List.isEmpty_iff_length_eq_zero]
    exact accepted.totalLen_pos.ne'
  have := accepted.blockLen_pos
  have := accepted.blockLen_le
  have := accepted.totalLen_le
  have := accepted.k_pos
  have := accepted.k_le
  rw [checkedEncoderK, if_neg (by simp [nonempty]), if_neg (by omega), if_neg (by omega),
    ← accepted.k_eq, if_neg (by omega)]

/-- A new decoder has an encoder for every payload of its length. -/
theorem matched_of_decoder {soliton : SolitonCdf} {k blockLen totalLen : Nat} {sessionId : UInt32}
    (built : LtDecoder.tryNew soliton mode k blockLen sessionId totalLen = .ok (.ok d))
    (total : payload.length = totalLen) :
    ∃ e, LtEncoder.tryNew soliton mode payload blockLen sessionId = .ok (.ok e) ∧
      Matched mode payload ∅ e d := by
  subst total
  have checked := checkedEncoderK_of_accepted (LtDecoder.accepted_of_tryNew built)
  obtain ⟨e, new, _, k_eq, _⟩ := LtEncoder.tryWithMode_ok soliton sessionId mode checked
  rw [← LtEncoder.tryNew_of_checked soliton mode sessionId checked] at new
  obtain ⟨d', built', m⟩ := matched_new new
  rw [k_eq, built] at built'
  cases built'
  exact ⟨e, new, m⟩

/-- The decoder is sound over whole runs, whatever is lost, repeated, reordered
or refused. -/
theorem decoder_sound (soliton : SolitonCdf) (mode : Mode) (payload : List UInt8) (blockLen : Nat)
    (sessionId : UInt32) (e₀ : LtEncoder)
    (built : LtEncoder.tryNew soliton mode payload blockLen sessionId = .ok (.ok e₀))
    (events : List (UInt32 × Bool)) :
    ∃ d₀, LtDecoder.tryNew soliton mode e₀.k blockLen sessionId payload.length = .ok (.ok d₀) ∧
      ∃ e d, events.foldlM transfer (e₀, d₀) = .ok (e, d) ∧ d.Sound payload blockLen := by
  obtain ⟨d₀, new, m₀⟩ := matched_new built
  obtain ⟨e, d, A, run, m, same⟩ := m₀.run events
  refine ⟨d₀, new, e, d, run, ?_⟩
  have blockLen_eq : d.blockLen = blockLen := by
    rw [same, ← (LtEncoder.tryNew_ok built).2.2.1]
    exact m₀.blockLen_eq.symm
  rw [← blockLen_eq]
  exact m.decoder.sound m.totalLen_eq m.values

/-- The encoder of the payload "ab" as two one-byte blocks, in session 7. -/
def twoBlocksEncoder (mode : Mode) : LtEncoder where
  k := 2
  blockLen := 1
  words := 1
  sessionId := 7
  sysSpan := mode.sysSpan 2
  causal := mode.isCausal
  blocks := [0x61, 0x62]
  cdf := twoBlockCdf
  idx := []
  idxScratch := []
  acc := [0]

theorem twoBlocksEncoder_built (mode : Mode) :
    LtEncoder.tryNew twoBlockSoliton mode [0x61, 0x62] 1 7 = .ok (.ok (twoBlocksEncoder mode)) := by
  have checked : checkedEncoderK [0x61, 0x62] 1 = .ok 2 := rfl
  cases mode <;>
    simp only [LtEncoder.tryNew, LtEncoder.tryWithMode, checked, twoBlockCdf_eq] <;> rfl

theorem decoder_sound_twoBlocks :
    ∃ d₀, LtDecoder.tryNew twoBlockSoliton .systematic 2 1 7 2 = .ok (.ok d₀) ∧
      ∃ e d, [(7, false), (1, true), (7, false), (0, false)].foldlM transfer
        (twoBlocksEncoder .systematic, d₀) = .ok (e, d) ∧ d.Sound [0x61, 0x62] 1 :=
  decoder_sound twoBlockSoliton .systematic [0x61, 0x62] 1 7 _ (twoBlocksEncoder_built .systematic)
    [(7, false), (1, true), (7, false), (0, false)]

end

end DeOptiTransfer
