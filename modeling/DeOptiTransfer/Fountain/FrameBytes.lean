import DeOptiTransfer.Fountain.Runs

/-!
# The encoder byte by byte

A frame as bytes of the payload, for any calls made before it.

* `frameBlock_getElem`: a byte of a frame is the exclusive or of the bytes of
  its blocks at that place;
* `runCalls_ok`: calls of `encode` and `encode_into` change only buffers;
* `encoder_specification`: every frame of every encoder, with the index sets
  that `add_frame` gives the same sequence numbers.
-/

namespace DeOptiTransfer

/-- The blocks of frame `seq`, with `repair` those of a repair frame. -/
def frameSet (mode : Mode) (k : Nat) (repair : Finset Nat) (seq : UInt32) : Finset Nat :=
  match mode with
  | .rsd => repair
  | .systematic => if seq.toNat < k then {seq.toNat} else repair
  | .causal =>
    if seq.toNat < k then if seq = 0 then {0} else {seq.toNat - 1, seq.toNat} else repair

theorem frameIndices_toFinset (mode : Mode) (cdf : DegreeCdf) (sessionId seq : UInt32) :
    (frameIndices mode cdf sessionId seq).toFinset =
      frameSet mode cdf.k (subset cdf sessionId seq).toFinset seq := by
  cases mode with
  | rsd => simp [frameIndices, frameSet, Mode.sysSpan]
  | systematic =>
    by_cases first : seq.toNat < cdf.k
    · simp [frameIndices, frameSet, Mode.sysSpan, Mode.isCausal, first]
    · simp [frameIndices, frameSet, Mode.sysSpan, first]
  | causal =>
    by_cases first : seq.toNat < cdf.k
    · by_cases zero : seq = 0
      · subst zero
        have pos : 0 < cdf.k := first
        simp [frameIndices, frameSet, Mode.sysSpan, pos]
      · simp [frameIndices, frameSet, Mode.sysSpan, Mode.isCausal, first, zero]
    · simp [frameIndices, frameSet, Mode.sysSpan, first]

/-! ## Bytes of blocks and equations -/

section
variable (payload : List UInt8) (blockLen : Nat)

theorem blockBytes_getElem (b : Nat) {t : Nat} (lt : t < blockLen) :
    (blockBytes payload blockLen b)[t]? = some (payload.getD (b * blockLen + t) 0) := by
  simp only [blockBytes, List.getD_eq_getElem?_getD]
  by_cases inside : b * blockLen + t < payload.length
  · rw [List.getElem?_append_left (by simp; omega), List.getElem?_take_of_lt lt,
      List.getElem?_drop, List.getElem?_eq_getElem inside, Option.getD_some]
  · have past : payload[b * blockLen + t]? = none := List.getElem?_eq_none (by omega)
    rw [List.getElem?_append_right (by simp; omega), List.getElem?_replicate_of_lt (by simp; omega),
      past, Option.getD_none]

/-- The first bytes of an equation are those of its blocks, added up. -/
theorem equationWords_bytes (s : Finset Nat) {t : Nat} (lt : t < blockLen) :
    (wordsAsBytes (equationWords payload blockLen s))[t]? =
      some (xorSum s fun b => payload.getD (b * blockLen + t) 0) := by
  have fits := blockLen_le_words blockLen
  induction s using Finset.induction_on with
  | empty =>
    rw [equationWords_empty, wordsAsBytes_replicate, List.getElem?_replicate_of_lt (by omega),
      xorSum_empty]
  | insert b s fresh ih =>
    have block : (wordsAsBytes (blockWords payload blockLen b))[t]? =
        some (payload.getD (b * blockLen + t) 0) := by
      rw [wordsAsBytes_blockWords, List.getElem?_append_left (by simpa using lt),
        blockBytes_getElem payload blockLen b lt]
    rw [← equationWords_insert payload blockLen fresh, wordsAsBytes_xor _ _ (by simp),
      List.getElem?_zipWith, ih, block, xorSum_insert _ fresh]
    simp only [UInt8.xor_comm]

/-- A byte of a frame is the exclusive or of the bytes at its place. -/
theorem frameBlock_getElem (indices : List Nat) {t : Nat} (lt : t < blockLen) :
    (frameBlock payload blockLen indices)[t]? =
      some (xorSum indices.toFinset fun b => payload.getD (b * blockLen + t) 0) := by
  rw [frameBlock, List.getElem?_take_of_lt lt, equationWords_bytes payload blockLen _ lt]

end

/-! ## Calls of the encoder -/

namespace LtEncoder

inductive Call where
  | encode (seq : UInt32)
  | encodeInto (seq : UInt32) (out : List UInt8)

/-- The buffer of an `encode_into` call has the length the code asserts. -/
def Call.Fits (blockLen : Nat) : Call → Prop
  | .encode _ => True
  | .encodeInto _ out => out.length = blockLen

/-- A call, with the encoder it leaves. -/
def apply (e : LtEncoder) : Call → Exec LtEncoder
  | .encode seq => do
    let (_, e) ← e.encode seq
    .ok e
  | .encodeInto seq out => do
    let (_, e) ← e.encodeInto seq out
    .ok e

def runCalls (calls : List Call) (e : LtEncoder) : Exec LtEncoder := calls.foldlM apply e

theorem writeSlice_whole {α : Type} (out out' : List α) (same : out.length = out'.length)
    (src : List α) : writeSlice out 0 out.length src = writeSlice out' 0 out'.length src := by
  unfold writeSlice
  rw [List.drop_length, List.drop_length, List.take_zero, List.take_zero, same]

/-- `encode_into` writes what `encode` returns. -/
theorem encodeInto_eq (e : LtEncoder) (seq : UInt32) {out : List UInt8}
    (fits : out.length = e.blockLen) : e.encodeInto seq out = e.encode seq := by
  have write := fun src : List UInt8 =>
    writeSlice_whole out (List.replicate e.blockLen 0) (by simp [fits]) src
  simp only [encode, encodeInto, fits, List.length_replicate] at write ⊢
  simp only [write]

section
variable {e : LtEncoder} {mode : Mode} {payload : List UInt8} (wf : e.WF mode payload)
include wf

theorem apply_ok {call : Call} (fits : call.Fits e.blockLen) :
    ∃ e', e.apply call = .ok e' ∧ e'.WF mode payload ∧ e.Same e' := by
  cases call with
  | encode seq =>
    obtain ⟨e', run, wf', same⟩ := encode_ok wf seq
    exact ⟨e', by simp only [apply, run, exec_ok_bind], wf', same⟩
  | encodeInto seq out =>
    obtain ⟨e', run, wf', same⟩ := encode_ok wf seq
    refine ⟨e', ?_, wf', same⟩
    simp only [apply, encodeInto_eq e seq fits, run, exec_ok_bind]

/-- Any calls leave an encoder that differs in its buffers only. -/
theorem runCalls_ok (calls : List Call) (fits : ∀ call ∈ calls, call.Fits e.blockLen) :
    ∃ e', runCalls calls e = .ok e' ∧ e'.WF mode payload ∧ e.Same e' := by
  induction calls generalizing e with
  | nil => exact ⟨e, rfl, wf, Same.refl e⟩
  | cons call rest ih =>
    obtain ⟨e₁, run, wf₁, same₁⟩ := apply_ok wf (fits call List.mem_cons_self)
    obtain ⟨e₂, runs, wf₂, same₂⟩ := ih wf₁ fun c mem => by
      rw [same₁.blockLen]
      exact fits c (List.mem_cons_of_mem _ mem)
    refine ⟨e₂, ?_, wf₂, same₁.trans same₂⟩
    rw [runCalls, List.foldlM_cons, run, exec_ok_bind]
    exact runs

end

end LtEncoder

/-- What any later decoder attributes to a sequence number. -/
theorem LtDecoder.deriveIndices_run {soliton : SolitonCdf} {mode : Mode} {k blockLen totalLen : Nat}
    {sessionId : UInt32} {d₀ : LtDecoder}
    (built : tryNew soliton mode k blockLen sessionId totalLen = .ok (.ok d₀))
    {cdf : DegreeCdf} (new : DegreeCdf.new soliton k = .ok cdf)
    (inputs : List (UInt32 × List UInt8)) (seq : UInt32) :
    ∃ d d', d₀.addFrames inputs = .ok d ∧ d.deriveIndices seq = .ok d' ∧
      d'.idx = frameIndices mode cdf sessionId seq := by
  obtain ⟨wf₀, _, _, _, session_eq, _, cdf_eq⟩ := built_ok built
  obtain ⟨d, A, calls, wf, run⟩ := addFrames_ok wf₀ inputs
  obtain ⟨idxScratch, derive⟩ := deriveIndices_ok wf.toConf seq
  have same := run.same
  have cdf_same : d.cdf = cdf := by
    rw [same]
    rw [new] at cdf_eq
    exact Except.ok.inj cdf_eq
  have session_same : d.sessionId = sessionId := by
    rw [same]
    exact session_eq
  rw [cdf_same, session_same] at derive
  exact ⟨d, _, calls, derive, rfl⟩

/-- For every accepted payload and block length, every mode and every calls
before it, `encode` returns `blockLen` bytes, byte `t` of which is the exclusive
or of the bytes at place `t` of the frame's blocks, zero past the end of the
payload. Every decoder for the same session, in any state, attributes the same
blocks to the frame. -/
theorem encoder_specification (soliton : SolitonCdf) (mode : Mode) (payload : List UInt8)
    (blockLen k : Nat) (sessionId : UInt32) (accepted : checkedEncoderK payload blockLen = .ok k)
    (history : List LtEncoder.Call) (fits : ∀ call ∈ history, call.Fits blockLen) (seq : UInt32) :
    ∃ e₀ e bytes e' cdf,
      LtEncoder.tryNew soliton mode payload blockLen sessionId = .ok (.ok e₀) ∧
      LtEncoder.runCalls history e₀ = .ok e ∧ e.encode seq = .ok (bytes, e') ∧
      DegreeCdf.new soliton k = .ok cdf ∧
      bytes.length = blockLen ∧
      (∀ t, t < blockLen → bytes[t]? =
        some (xorSum (frameSet mode k (subset cdf sessionId seq).toFinset seq)
          fun b => payload.getD (b * blockLen + t) 0)) ∧
      ∀ totalLen d₀, LtDecoder.tryNew soliton mode k blockLen sessionId totalLen = .ok (.ok d₀) →
        ∀ inputs, ∃ d d', d₀.addFrames inputs = .ok d ∧ d.deriveIndices seq = .ok d' ∧
          d'.idx.Nodup ∧
          d'.idx.toFinset = frameSet mode k (subset cdf sessionId seq).toFinset seq := by
  obtain ⟨e₀, built, wf₀, k_eq, blockLen_eq, session_eq, new⟩ :=
    LtEncoder.tryWithMode_ok soliton sessionId mode accepted
  rw [← LtEncoder.tryNew_of_checked soliton mode sessionId accepted] at built
  obtain ⟨e, run, wf, same⟩ := LtEncoder.runCalls_ok wf₀ history (by rwa [blockLen_eq])
  obtain ⟨e', encode, _⟩ := LtEncoder.encode_ok wf seq
  have cdf_k : e₀.cdf.k = k := wf₀.cdf_k.trans k_eq
  rw [same.cdf, same.sessionId, session_eq, same.blockLen, blockLen_eq] at encode
  refine ⟨e₀, e, _, e', e₀.cdf, built, run, encode, new, frameBlock_length _ _ _, ?_, ?_⟩
  · intro t lt
    rw [frameBlock_getElem payload blockLen _ lt, frameIndices_toFinset, cdf_k]
  · intro totalLen d₀ built' inputs
    obtain ⟨d, d', calls, derive, idx⟩ := LtDecoder.deriveIndices_run built' new inputs seq
    have nodup : (frameIndices mode e₀.cdf sessionId seq).Nodup :=
      (frameIndices_wf wf₀.cdf_wf wf₀.cdf_k_pos wf₀.cdf_k_lt sessionId seq).2.1
    refine ⟨d, d', calls, derive, by rwa [idx], ?_⟩
    rw [idx, frameIndices_toFinset, cdf_k]

theorem encoder_specification_twoBlocks :
    ∃ e₀ e bytes e',
      LtEncoder.tryNew twoBlockSoliton .causal [0x61, 0x62] 1 7 = .ok (.ok e₀) ∧
      LtEncoder.runCalls [.encode 5, .encodeInto 0 [0xff]] e₀ = .ok e ∧
      e.encode 1 = .ok (bytes, e') ∧ bytes[0]? = some 3 ∧
      ∃ d d', (LtDecoder.twoBlocks .causal).addFrames [(0, [0x61])] = .ok d ∧
        d.deriveIndices 1 = .ok d' ∧ d'.idx.toFinset = {0, 1} := by
  have fits : ∀ call ∈ [LtEncoder.Call.encode 5, .encodeInto 0 [0xff]], call.Fits 1 := by
    simp [LtEncoder.Call.Fits]
  obtain ⟨e₀, e, bytes, e', cdf, built, run, encode, -, -, at_t, attributed⟩ :=
    encoder_specification twoBlockSoliton .causal [0x61, 0x62] 1 2 7 rfl
      [.encode 5, .encodeInto 0 [0xff]] fits 1
  obtain ⟨d, d', calls, derive, -, set_eq⟩ :=
    attributed 2 _ (LtDecoder.twoBlocks_built .causal) [(0, [0x61])]
  have first := at_t 0 (by decide)
  have pair : frameSet .causal 2 (subset cdf 7 1).toFinset 1 = {0, 1} := by
    simp [frameSet]
  rw [pair] at first set_eq
  exact ⟨e₀, e, bytes, e', built, run, encode, first, d, d', calls, derive, set_eq⟩

end DeOptiTransfer
