import DeOptiTransfer.Fountain.FrameBytes
import DeOptiTransfer.Soliton.Distribution

/-!
# One subset on every path

The index subset of a repair frame, from `soliton_cdf` on. The public
`frame_indices` searches the distribution itself, the encoder and the decoder
sample its quantiles into buffers they reuse.

* `Fountain.frameIndices_eq`: the public function returns the subset;
* `subset_derivation`: the degree, the indices, and all three paths.
-/

namespace DeOptiTransfer

/-- The public `frame_indices`. -/
def Fountain.frameIndices (k : Nat) (cdf : List Rat) (sessionId seq : UInt32) : Exec (List Nat) :=
  if k = 0 ∨ cdf.length ≠ k then .ok []
  else do
    let rnd := SplitMix32.new (frameSeed sessionId seq)
    let (t, rnd) := rnd.nextU32
    let u : Rat := t.toNat / 4294967296
    let degree ← degreeBinary cdf u
    let d := min degree k
    let (out, _, _) ← selectBlocks [] [] k d rnd
    .ok out

theorem Fountain.frameIndices_eq {table : List Rat} (h : IsCdf table)
    (near : 1 ∈ table.take (2 ^ 32)) {cdf : DegreeCdf} (built : DegreeCdf.ofCdf table = .ok cdf)
    (wf : cdf.WF) (k_eq : cdf.k = table.length) (lt : cdf.k < 2 ^ 32) (sessionId seq : UInt32) :
    Fountain.frameIndices table.length table sessionId seq = .ok (subset cdf sessionId seq) := by
  obtain ⟨t, rnd, draw⟩ : ∃ t rnd,
    (SplitMix32.new (frameSeed sessionId seq)).nextU32 = (t, rnd) := ⟨_, _, rfl⟩
  have pos := h.length_pos
  obtain ⟨d, sample, plain, _⟩ := DegreeCdf.searches_agree h near built (t.toNat / 4294967296)
  obtain ⟨_, same⟩ := frameIndicesInto_ok wf (by omega) lt sessionId seq
  obtain ⟨scratch', run⟩ := same [] []
  have nontrivial : ¬ (table.length = 0 ∨ table.length ≠ table.length) := by omega
  simp only [frameIndicesInto, draw, sample, exec_ok_bind, k_eq] at run
  simp only [frameIndices, nontrivial, ↓reduceIte, draw, plain, exec_ok_bind]
  obtain ⟨⟨out, scratch, rnd'⟩, select, returned⟩ := exec_bind_eq_ok.mp run
  have first : out = subset cdf sessionId seq := congrArg Prod.fst (Except.ok.inj returned)
  rw [select, exec_ok_bind, first]

theorem LtEncoder.runCalls_tail {soliton : SolitonCdf} {mode : Mode} {payload : List UInt8}
    {blockLen : Nat} {sessionId : UInt32} {e₀ : LtEncoder}
    (built : tryNew soliton mode payload blockLen sessionId = .ok (.ok e₀)) {cdf : DegreeCdf}
    (new : DegreeCdf.new soliton e₀.k = .ok cdf) {seq : UInt32}
    (tail : mode.sysSpan e₀.k ≤ seq.toNat) (history : List Call)
    (fits : ∀ call ∈ history, call.Fits blockLen) :
    ∃ e bytes e', runCalls history e₀ = .ok e ∧ e.encode seq = .ok (bytes, e') ∧
      e'.idx = subset cdf sessionId seq := by
  obtain ⟨_, wf₀, blockLen_eq, session_eq, new₀⟩ := tryNew_ok built
  obtain ⟨e, calls, wf, same⟩ := runCalls_ok wf₀ history (by rwa [blockLen_eq])
  have cdf_eq : e₀.cdf = cdf := by
    rw [new] at new₀
    exact (Except.ok.inj new₀).symm
  have past : ¬ seq.toNat < e.sysSpan := by
    rw [wf.sysSpan_eq, same.k]
    omega
  obtain ⟨e', encode, _, _, idx⟩ := wf.encode_tail past
  rw [same.cdf, cdf_eq, same.sessionId, session_eq] at idx
  exact ⟨e, _, e', calls, encode, idx⟩

/-- With at most 65535 blocks, in any state of the generator and for every degree,
`select_blocks` returns that many distinct indices. The degree of a frame is
between 1 and `k`, and one list of that many indices is what the buffered and the
public function return, and what every encoder and every decoder for these
parameters derives for a repair frame. -/
theorem subset_derivation (libmSqrt : F64 → F64) (k : Nat) (pos : 1 ≤ k) (le : k ≤ 65535)
    (sessionId seq : UInt32) :
    (∀ d, 1 ≤ d → d ≤ k → ∀ rnd : SplitMix32, ∃ out,
      (out.length = d ∧ out.Nodup ∧ ∀ b ∈ out, b < k) ∧
      ∀ scratch, ∃ scratch' rnd', selectBlocks [] scratch k d rnd = .ok (out, scratch', rnd')) ∧
    ∃ table cdf d out,
      solitonCdf libmSqrt k = .ok table ∧
      DegreeCdf.new (robustSoliton libmSqrt) k = .ok cdf ∧
      cdf.sample (degreeDraw sessionId seq) = .ok d ∧ 1 ≤ d ∧ d ≤ k ∧
      (out.length = d ∧ out.Nodup ∧ ∀ b ∈ out, b < k) ∧
      (∀ o scratch, ∃ scratch',
        frameIndicesInto o scratch cdf sessionId seq = .ok (out, scratch')) ∧
      Fountain.frameIndices k (table.map F64.val) sessionId seq = .ok out ∧
      (∀ mode payload blockLen e₀,
        LtEncoder.tryNew (robustSoliton libmSqrt) mode payload blockLen sessionId =
          .ok (.ok e₀) →
        e₀.k = k → mode.sysSpan k ≤ seq.toNat →
        ∀ history, (∀ call ∈ history, LtEncoder.Call.Fits blockLen call) →
          ∃ e bytes e', LtEncoder.runCalls history e₀ = .ok e ∧
            e.encode seq = .ok (bytes, e') ∧ e'.idx = out) ∧
      (∀ mode blockLen totalLen d₀,
        LtDecoder.tryNew (robustSoliton libmSqrt) mode k blockLen sessionId totalLen =
          .ok (.ok d₀) →
        mode.sysSpan k ≤ seq.toNat →
        ∀ inputs, ∃ d d', d₀.addFrames inputs = .ok d ∧ d.deriveIndices seq = .ok d' ∧
          d'.idx = out) := by
  have lt : k < 2 ^ 32 := by omega
  constructor
  · intro d _ high rnd
    exact selectBlocks_ok pos lt high rnd
  obtain ⟨table, cdf, run, length, dist, near, new, built, wf, k_eq⟩ :=
    robustSoliton_new libmSqrt pos lt.le
  have cdf_pos : 0 < cdf.k := by omega
  have cdf_lt : cdf.k < 2 ^ 32 := by omega
  have table_k : (table.map F64.val).length = k := by rw [List.length_map, length]
  obtain ⟨sample, low, high⟩ := sample_draw wf cdf_pos cdf_lt sessionId seq
  obtain ⟨⟨_, nodup, below⟩, buffered⟩ := frameIndicesInto_ok wf cdf_pos cdf_lt sessionId seq
  have plain := Fountain.frameIndices_eq dist near built wf (k_eq.trans table_k.symm) cdf_lt
    sessionId seq
  rw [table_k] at plain
  rw [k_eq] at high below
  refine ⟨table, cdf, _, subset cdf sessionId seq, run, new, sample, low, high,
    ⟨rfl, nodup, below⟩, buffered, plain, ?_, ?_⟩
  · intro mode payload blockLen e₀ made blocks tail history fits
    exact LtEncoder.runCalls_tail made (by rwa [blocks]) (by rwa [blocks]) history fits
  · intro mode blockLen totalLen d₀ made tail inputs
    obtain ⟨d, d', calls, derive, idx⟩ := LtDecoder.deriveIndices_run made new inputs seq
    refine ⟨d, d', calls, derive, ?_⟩
    rw [idx, frameIndices, if_neg (by rw [k_eq]; omega)]

theorem subset_derivation_twoBlocks :
    ∃ table out,
      solitonCdf sqrtTwo 2 = .ok table ∧
      Fountain.frameIndices 2 (table.map F64.val) 7 5 = .ok out ∧ out.Nodup ∧
      (∃ e₀ e bytes e',
        LtEncoder.tryNew (robustSoliton sqrtTwo) .causal [0x61, 0x62] 1 7 = .ok (.ok e₀) ∧
        LtEncoder.runCalls [.encode 9, .encodeInto 0 [0xff]] e₀ = .ok e ∧
        e.encode 5 = .ok (bytes, e') ∧ e'.idx = out) ∧
      ∃ d₀ d d',
        LtDecoder.tryNew (robustSoliton sqrtTwo) .causal 2 1 7 2 = .ok (.ok d₀) ∧
        d₀.addFrames [(0, [0x61])] = .ok d ∧ d.deriveIndices 5 = .ok d' ∧ d'.idx = out := by
  obtain ⟨-, table, _, _, out, run, -, -, -, -, ⟨-, nodup, -⟩, -, plain, encoders, decoders⟩ :=
    subset_derivation sqrtTwo 2 (by decide) (by decide) 7 5
  have accepted : checkedEncoderK [0x61, 0x62] 1 = .ok 2 := rfl
  obtain ⟨e₀, made, _, blocks, _⟩ :=
    LtEncoder.tryWithMode_ok (robustSoliton sqrtTwo) 7 .causal accepted
  rw [← LtEncoder.tryNew_of_checked (robustSoliton sqrtTwo) .causal 7 accepted] at made
  obtain ⟨d₀, made', _⟩ := LtDecoder.tryNew_ok (robustSoliton sqrtTwo) .causal 7
    (LtDecoder.accepted_of_tryNew (LtDecoder.twoBlocks_built .causal))
  obtain ⟨e, bytes, e', calls, encode, idx⟩ :=
    encoders .causal _ 1 e₀ made blocks (by decide) [.encode 9, .encodeInto 0 [0xff]]
      (by simp [LtEncoder.Call.Fits])
  obtain ⟨d, d', inputs, derive, same⟩ :=
    decoders .causal 1 2 d₀ made' (by decide) [(0, [0x61])]
  exact ⟨table, out, run, plain, nodup, ⟨e₀, e, bytes, e', made, calls, encode, idx⟩,
    d₀, d, d', made', inputs, derive, same⟩

end DeOptiTransfer
