import DeOptiTransfer.Capacity
import DeOptiTransfer.Error
import DeOptiTransfer.Fountain.Equations
import DeOptiTransfer.Fountain.Indices

/-!
# The encoder

`LtEncoder` of `fountain.rs`, with the buffers it reuses between calls.

* `frameIndices`: the blocks a frame combines, from the mode and the sequence
  number alone;
* `encode_ok`: whatever was encoded before, a frame is the exclusive or of
  its blocks.
-/

namespace DeOptiTransfer

/-- The three transmission modes. Each has its own constructors. -/
inductive Mode where
  | rsd
  | systematic
  | causal
  deriving DecidableEq, Repr

/-- The length of the first phase. -/
def Mode.sysSpan (mode : Mode) (k : Nat) : Nat :=
  match mode with
  | .rsd => 0
  | .systematic => k
  | .causal => k

def Mode.isCausal (mode : Mode) : Bool := mode = .causal

structure LtEncoder where
  k : Nat
  blockLen : Nat
  words : Nat
  sessionId : UInt32
  sysSpan : Nat
  causal : Bool
  blocks : List UInt32
  cdf : DegreeCdf
  idx : List Nat
  idxScratch : List Nat
  acc : List UInt32

def checkedEncoderK (payload : List UInt8) (blockLen : Nat) : Except Error Nat :=
  if payload.isEmpty then .error .empty
  else if blockLen = 0 ∨ blockLen > 65535 then .error .invalidStream
  else if payload.length > MAX_STREAM_BYTES then
    .error (.tooLarge payload.length MAX_STREAM_BYTES)
  else
    let k := divCeil payload.length blockLen
    if k = 0 ∨ k > MAX_SOURCE_BLOCKS then .error .invalidStream else .ok k

/-- Copy block `b` of the payload into the byte view of the arena. -/
def copyBlock (payload : List UInt8) (blockLen words : Nat) (bytes : List UInt8) (b : Nat) :
    Exec (List UInt8) := do
  let start := b * blockLen
  let «end» := min (start + blockLen) payload.length
  let dst := b * words * 4
  let len ← checkedSub «end» start
  let src ← slice payload start «end»
  writeSlice bytes dst (dst + len) src

namespace LtEncoder

def tryWithMode (soliton : SolitonCdf) (payload : List UInt8) (blockLen : Nat)
    (sessionId : UInt32) (sysSpan : Nat) (causal : Bool) : Exec (Except Error LtEncoder) :=
  match checkedEncoderK payload blockLen with
  | .error e => .ok (.error e)
  | .ok k =>
    let words := divCeil blockLen 4
    let arenaWords := k * words
    if arenaWords > usizeMax then .ok (.error .invalidStream)
    else do
      let bytes ← (List.range k).foldlM (copyBlock payload blockLen words)
        (wordsAsBytes (List.replicate arenaWords 0))
      let cdf ← DegreeCdf.new soliton k
      .ok (.ok {
        k, blockLen, words, sessionId, sysSpan, causal
        blocks := wordsOfBytes bytes
        cdf
        idx := []
        idxScratch := []
        acc := List.replicate words 0 })

/-- `try_new`, `try_new_systematic` and `try_new_causal`. -/
def tryNew (soliton : SolitonCdf) (mode : Mode) (payload : List UInt8) (blockLen : Nat)
    (sessionId : UInt32) : Exec (Except Error LtEncoder) :=
  match mode with
  | .rsd => tryWithMode soliton payload blockLen sessionId 0 false
  | .systematic =>
    match checkedEncoderK payload blockLen with
    | .error e => .ok (.error e)
    | .ok k => tryWithMode soliton payload blockLen sessionId k false
  | .causal =>
    match checkedEncoderK payload blockLen with
    | .error e => .ok (.error e)
    | .ok k => tryWithMode soliton payload blockLen sessionId k true

/-- One term of the sum `encode_into` accumulates. -/
def accumulate (e : LtEncoder) (acc : List UInt32) (b : Nat) : Exec (List UInt32) := do
  let base := b * e.words
  let src ← slice e.blocks base (base + e.words)
  xorInto acc src

def encodeInto (e : LtEncoder) (seq : UInt32) (out : List UInt8) :
    Exec (List UInt8 × LtEncoder) :=
  if out.length ≠ e.blockLen then .error .assertion
  else if seq.toNat < e.sysSpan then
    let current := seq.toNat * e.words
    if e.causal ∧ seq ≠ 0 then do
      let previous ← checkedSub current e.words
      let row ← slice e.blocks current (current + e.words)
      let acc ← writeSlice e.acc 0 e.acc.length row
      let src ← slice e.blocks previous (previous + e.words)
      let acc ← xorInto acc src
      let bytes ← slice (wordsAsBytes acc) 0 e.blockLen
      let out ← writeSlice out 0 out.length bytes
      .ok (out, { e with acc })
    else do
      let row ← slice e.blocks current (current + e.words)
      let bytes ← slice (wordsAsBytes row) 0 e.blockLen
      let out ← writeSlice out 0 out.length bytes
      .ok (out, e)
  else do
    let (idx, idxScratch) ← frameIndicesInto e.idx e.idxScratch e.cdf e.sessionId seq
    let acc ← idx.foldlM e.accumulate (List.replicate e.acc.length 0)
    let bytes ← slice (wordsAsBytes acc) 0 e.blockLen
    let out ← writeSlice out 0 out.length bytes
    .ok (out, { e with idx, idxScratch, acc })

def encode (e : LtEncoder) (seq : UInt32) : Exec (List UInt8 × LtEncoder) :=
  e.encodeInto seq (List.replicate e.blockLen 0)

end LtEncoder

/-! ## What a frame combines -/

/-- The blocks frame `seq` combines, with `k = cdf.k` blocks in all. -/
def frameIndices (mode : Mode) (cdf : DegreeCdf) (sessionId seq : UInt32) : List Nat :=
  if seq.toNat < mode.sysSpan cdf.k then
    if mode.isCausal ∧ seq ≠ 0 then [seq.toNat - 1, seq.toNat] else [seq.toNat]
  else subset cdf sessionId seq

theorem frameIndices_wf {mode : Mode} {cdf : DegreeCdf} (wf : cdf.WF) (pos : 0 < cdf.k)
    (lt : cdf.k < 2 ^ 32) (sessionId seq : UInt32) :
    frameIndices mode cdf sessionId seq ≠ [] ∧ (frameIndices mode cdf sessionId seq).Nodup ∧
      ∀ b ∈ frameIndices mode cdf sessionId seq, b < cdf.k := by
  unfold frameIndices
  by_cases first : seq.toNat < mode.sysSpan cdf.k
  · have below : seq.toNat < cdf.k := by
      cases mode <;> simp only [Mode.sysSpan] at first <;> omega
    rw [if_pos first]
    by_cases pair : mode.isCausal ∧ seq ≠ 0
    · have nonzero : seq.toNat ≠ 0 := by
        intro zero
        exact pair.2 (UInt32.toNat_inj.mp zero)
      rw [if_pos pair]
      refine ⟨by simp, by simp; omega, ?_⟩
      intro b hb
      simp only [List.mem_cons, List.not_mem_nil, or_false] at hb
      omega
    · rw [if_neg pair]
      exact ⟨by simp, by simp, by simpa using below⟩
  · rw [if_neg first]
    exact (frameIndicesInto_ok wf pos lt sessionId seq).1

/-- The bytes of a frame: the exclusive or of its blocks. -/
def frameBlock (payload : List UInt8) (blockLen : Nat) (indices : List Nat) : List UInt8 :=
  (wordsAsBytes (equationWords payload blockLen indices.toFinset)).take blockLen

@[simp] theorem frameBlock_length (payload : List UInt8) (blockLen : Nat) (indices : List Nat) :
    (frameBlock payload blockLen indices).length = blockLen := by
  have := blockLen_le_words blockLen
  simp only [frameBlock, List.length_take, wordsAsBytes_length, equationWords_length]
  omega

/-! ## The block arena -/

theorem flatMap_range_length {α : Type} {f : Nat → List α} {w : Nat} (len : ∀ b, (f b).length = w)
    (n : Nat) : ((List.range n).flatMap f).length = n * w := by
  induction n with
  | zero => simp
  | succ n ih => simp [List.range_succ, List.flatMap_append, ih, len, Nat.add_mul]

/-- Row `b` of a table of rows of length `w`. -/
theorem slice_flatMap_range {α : Type} {f : Nat → List α} {w : Nat} (len : ∀ b, (f b).length = w)
    {n b : Nat} (lt : b < n) :
    slice ((List.range n).flatMap f) (b * w) (b * w + w) = .ok (f b) := by
  have fits : b * w + w ≤ n * w := by
    have := Nat.mul_le_mul_right w (show b + 1 ≤ n from lt)
    rwa [Nat.add_mul, Nat.one_mul] at this
  rw [slice_of_le (by omega) (by rw [flatMap_range_length len]; exact fits)]
  obtain ⟨m, rfl⟩ : ∃ m, n = b + (1 + m) := ⟨n - b - 1, by omega⟩
  rw [List.range_add, List.flatMap_append,
    List.drop_left' (flatMap_range_length len b), Nat.add_sub_cancel_left]
  rw [Nat.add_comm 1 m, List.range_succ_eq_map, List.map_cons, List.flatMap_cons,
    List.take_left' (by rw [Nat.add_zero, len]), Nat.add_zero]

section
variable {payload : List UInt8} {blockLen k : Nat}

/-- A block as the bytes it occupies in the arena. -/
def paddedBytes (payload : List UInt8) (blockLen b : Nat) : List UInt8 :=
  wordsAsBytes (blockWords payload blockLen b)

theorem paddedBytes_length (payload : List UInt8) (blockLen b : Nat) :
    (paddedBytes payload blockLen b).length = 4 * divCeil blockLen 4 := by
  simp [paddedBytes]

/-- Copying a block into a zeroed place of the arena pads it. -/
theorem copyBlock_ok (kEq : k = divCeil payload.length blockLen) (pos : 0 < blockLen) {b : Nat}
    (lt : b < k) :
    copyBlock payload blockLen (divCeil blockLen 4)
      ((List.range b).flatMap (paddedBytes payload blockLen) ++
        List.replicate ((k - b) * (4 * divCeil blockLen 4)) 0) b =
      .ok ((List.range (b + 1)).flatMap (paddedBytes payload blockLen) ++
        List.replicate ((k - (b + 1)) * (4 * divCeil blockLen 4)) 0) := by
  have inside : b * blockLen < payload.length := mul_lt_of_lt_divCeil pos (kEq ▸ lt)
  have fits := blockLen_le_words blockLen
  have before := flatMap_range_length (paddedBytes_length payload blockLen) b
  generalize hw : divCeil blockLen 4 = words at *
  have dst : b * words * 4 = b * (4 * words) := by rw [Nat.mul_assoc, Nat.mul_comm words 4]
  obtain ⟨chunk, hc⟩ : ∃ c, (payload.drop (b * blockLen)).take blockLen = c := ⟨_, rfl⟩
  have chunk_len : chunk.length = min (b * blockLen + blockLen) payload.length - b * blockLen := by
    rw [← hc, List.length_take, List.length_drop]
    omega
  have src : slice payload (b * blockLen) (min (b * blockLen + blockLen) payload.length) =
      .ok chunk := by
    rw [slice_of_le (by omega) (by omega), ← hc]
    congr 1
    rw [List.take_eq_take_iff, List.length_drop]
    omega
  have room : (k - b) * (4 * words) = 4 * words + (k - (b + 1)) * (4 * words) := by
    obtain ⟨m, rfl⟩ : ∃ m, k = b + 1 + m := ⟨k - b - 1, by omega⟩
    rw [show b + 1 + m - b = m + 1 by omega, show b + 1 + m - (b + 1) = m by omega, Nat.succ_mul,
      Nat.add_comm]
  have row : paddedBytes payload blockLen b = chunk ++ List.replicate (4 * words - chunk.length) 0 := by
    rw [paddedBytes, wordsAsBytes_blockWords, blockBytes, hc, hw, List.append_assoc,
      ← List.replicate_add]
    congr 2
    omega
  simp only [copyBlock, checkedSub_of_le (show b * blockLen ≤
    min (b * blockLen + blockLen) payload.length by omega), exec_ok_bind, src, dst, ← chunk_len]
  rw [writeSlice_of_le (by omega)
    (by simp only [List.length_append, List.length_replicate, before, room]; omega) (by omega)]
  congr 1
  rw [List.take_left' before, List.range_succ, List.flatMap_append, List.flatMap_singleton, row,
    List.append_assoc, List.append_assoc, List.append_assoc]
  congr 2
  rw [← List.drop_drop, List.drop_left' before, List.drop_replicate, ← List.replicate_add, room]
  congr 1
  omega

theorem copyBlocks_ok (kEq : k = divCeil payload.length blockLen) (pos : 0 < blockLen) :
    (List.range k).foldlM (copyBlock payload blockLen (divCeil blockLen 4))
      (wordsAsBytes (List.replicate (k * divCeil blockLen 4) 0)) =
      .ok (wordsAsBytes ((List.range k).flatMap (blockWords payload blockLen))) := by
  obtain ⟨bytes, run, eq⟩ := foldlM_range_ok
    (f := copyBlock payload blockLen (divCeil blockLen 4))
    (P := fun i bytes => bytes = (List.range i).flatMap (paddedBytes payload blockLen) ++
      List.replicate ((k - i) * (4 * divCeil blockLen 4)) 0) k
    (s := wordsAsBytes (List.replicate (k * divCeil blockLen 4) 0))
    (by
      rw [wordsAsBytes_replicate, List.range_zero, List.flatMap_nil, List.nil_append, Nat.sub_zero,
        Nat.mul_left_comm])
    (by
      rintro i hi _ rfl
      exact ⟨_, copyBlock_ok kEq pos hi, rfl⟩)
  rw [run, eq, Nat.sub_self, Nat.zero_mul, List.replicate_zero, List.append_nil]
  congr 1
  simp only [wordsAsBytes, List.flatMap_assoc]
  rfl

end

theorem checkedEncoderK_ok {payload : List UInt8} {blockLen k : Nat}
    (h : checkedEncoderK payload blockLen = .ok k) :
    payload ≠ [] ∧ 0 < blockLen ∧ blockLen ≤ 65535 ∧ payload.length ≤ MAX_STREAM_BYTES ∧
      k = divCeil payload.length blockLen ∧ 0 < k ∧ k ≤ MAX_SOURCE_BLOCKS := by
  unfold checkedEncoderK at h
  split at h
  · cases h
  · rename_i nonempty
    split at h
    · cases h
    · split at h
      · cases h
      · dsimp only at h
        split at h
        · cases h
        · cases h
          refine ⟨?_, by omega, by omega, by omega, rfl, by omega, by omega⟩
          rintro rfl
          simp at nonempty

namespace LtEncoder

/-- The state of an encoder for `payload` between calls. The index buffers can
hold anything. -/
structure WF (e : LtEncoder) (mode : Mode) (payload : List UInt8) : Prop where
  blockLen_pos : 0 < e.blockLen
  blockLen_le : e.blockLen ≤ 65535
  k_pos : 0 < e.k
  k_le : e.k ≤ MAX_SOURCE_BLOCKS
  k_eq : e.k = divCeil payload.length e.blockLen
  total_le : payload.length ≤ MAX_STREAM_BYTES
  nonempty : payload ≠ []
  words_eq : e.words = divCeil e.blockLen 4
  sysSpan_eq : e.sysSpan = mode.sysSpan e.k
  causal_eq : e.causal = mode.isCausal
  cdf_wf : e.cdf.WF
  cdf_k : e.cdf.k = e.k
  blocks_eq : e.blocks = (List.range e.k).flatMap (blockWords payload e.blockLen)
  acc_length : e.acc.length = e.words

/-- The parts of an encoder no call changes. -/
def Same (e e' : LtEncoder) : Prop :=
  e' = { e with idx := e'.idx, idxScratch := e'.idxScratch, acc := e'.acc }

theorem Same.refl (e : LtEncoder) : e.Same e := rfl

theorem Same.trans {e e' e'' : LtEncoder} (h : e.Same e') (h' : e'.Same e'') : e.Same e'' := by
  unfold Same at *
  rw [h', h]

section
variable {e e' : LtEncoder} (same : e.Same e')
include same

theorem Same.k : e'.k = e.k := by rw [same]

theorem Same.blockLen : e'.blockLen = e.blockLen := by rw [same]

theorem Same.sessionId : e'.sessionId = e.sessionId := by rw [same]

theorem Same.cdf : e'.cdf = e.cdf := by rw [same]

end

theorem tryWithMode_ok (soliton : SolitonCdf) {payload : List UInt8} {blockLen k : Nat}
    (sessionId : UInt32) (mode : Mode) (hk : checkedEncoderK payload blockLen = .ok k) :
    ∃ e, tryWithMode soliton payload blockLen sessionId (mode.sysSpan k) mode.isCausal =
        .ok (.ok e) ∧
      e.WF mode payload ∧ e.k = k ∧ e.blockLen = blockLen ∧ e.sessionId = sessionId ∧
      DegreeCdf.new soliton k = .ok e.cdf := by
  obtain ⟨nonempty, pos, le, total, k_eq, k_pos, k_le⟩ := checkedEncoderK_ok hk
  obtain ⟨cdf, new, cdf_eq, wf⟩ := DegreeCdf.new_ok soliton k_pos
  have fits : ¬ k * divCeil blockLen 4 > usizeMax := by
    have words : divCeil blockLen 4 ≤ 16384 := by unfold divCeil; split <;> omega
    have := Nat.mul_le_mul k_le words
    simp only [usizeMax, MAX_SOURCE_BLOCKS] at this ⊢
    omega
  refine ⟨{ k, blockLen, words := divCeil blockLen 4, sessionId, sysSpan := mode.sysSpan k
            causal := mode.isCausal
            blocks := (List.range k).flatMap (blockWords payload blockLen), cdf, idx := []
            idxScratch := [], acc := List.replicate (divCeil blockLen 4) 0 },
    ?_, ?_, rfl, rfl, rfl, new⟩
  · simp only [tryWithMode, hk, fits, ↓reduceIte, copyBlocks_ok k_eq pos, exec_ok_bind, new,
      wordsOfBytes_wordsAsBytes]
  · exact {
      blockLen_pos := pos, blockLen_le := le, k_pos := k_pos, k_le := k_le, k_eq := k_eq,
      total_le := total, nonempty := nonempty, words_eq := rfl, sysSpan_eq := rfl,
      causal_eq := rfl, cdf_wf := wf, cdf_k := by rw [DegreeCdf.k, cdf_eq, soliton.length_cdf],
      blocks_eq := rfl, acc_length := by simp }

/-- Every mode builds the encoder `tryWithMode` builds. -/
theorem tryNew_of_checked (soliton : SolitonCdf) (mode : Mode) {payload : List UInt8}
    {blockLen k : Nat} (sessionId : UInt32) (hk : checkedEncoderK payload blockLen = .ok k) :
    tryNew soliton mode payload blockLen sessionId =
      tryWithMode soliton payload blockLen sessionId (mode.sysSpan k) mode.isCausal := by
  cases mode <;> simp only [tryNew, hk] <;> rfl

/-- A constructor succeeds exactly when its parameters are accepted, and its
encoder is ready to encode. -/
theorem tryNew_ok {soliton : SolitonCdf} {mode : Mode} {payload : List UInt8} {blockLen : Nat}
    {sessionId : UInt32} {e : LtEncoder}
    (h : tryNew soliton mode payload blockLen sessionId = .ok (.ok e)) :
    checkedEncoderK payload blockLen = .ok e.k ∧ e.WF mode payload ∧ e.blockLen = blockLen ∧
      e.sessionId = sessionId ∧ DegreeCdf.new soliton e.k = .ok e.cdf := by
  cases hk : checkedEncoderK payload blockLen with
  | error err => cases mode <;> simp [tryNew, tryWithMode, hk] at h
  | ok k =>
    obtain ⟨e', new, wf, rfl, len, sid, cdf⟩ :=
      tryWithMode_ok soliton sessionId mode hk
    rw [tryNew_of_checked soliton mode sessionId hk, new] at h
    cases h
    exact ⟨rfl, wf, len, sid, cdf⟩

section
variable {e : LtEncoder} {mode : Mode} {payload : List UInt8} (wf : e.WF mode payload)
include wf

theorem WF.cdf_k_pos : 0 < e.cdf.k := by
  rw [wf.cdf_k]
  exact wf.k_pos

theorem WF.cdf_k_lt : e.cdf.k < 2 ^ 32 := by
  have k_le := wf.k_le
  simp only [MAX_SOURCE_BLOCKS] at k_le
  rw [wf.cdf_k]
  omega

theorem WF.row {b : Nat} (lt : b < e.k) :
    slice e.blocks (b * e.words) (b * e.words + e.words) =
      .ok (blockWords payload e.blockLen b) := by
  rw [wf.blocks_eq, wf.words_eq]
  exact slice_flatMap_range (blockWords_length payload e.blockLen) lt

/-- The loop over the indices of a frame. -/
theorem WF.accumulate_all {l : List Nat} (nodup : l.Nodup) (below : ∀ b ∈ l, b < e.k) :
    l.foldlM e.accumulate (List.replicate e.acc.length 0) =
      .ok (equationWords payload e.blockLen l.toFinset) := by
  obtain ⟨acc, run, done, rfl, eq⟩ := foldlM_ok (f := e.accumulate)
    (fun rest acc => ∃ done, acc = equationWords payload e.blockLen done ∧
      (done ∪ rest.toFinset = l.toFinset ∧ rest.Nodup ∧ (∀ b ∈ rest, b < e.k) ∧
        ∀ b ∈ rest, b ∉ done))
    (by
      rintro b rest _ ⟨done, rfl, all, nodup, below, fresh⟩
      obtain ⟨notin, nodup'⟩ := List.nodup_cons.mp nodup
      refine ⟨equationWords payload e.blockLen (insert b done), ?_, insert b done, rfl, ?_, nodup',
        fun c hc => below c (by simp [hc]), ?_⟩
      · simp only [accumulate, wf.row (below b (by simp)), exec_ok_bind]
        rw [xorInto_ok (by simp), equationWords_insert payload e.blockLen (fresh b (by simp))]
      · rw [← all, List.toFinset_cons]
        ext c
        simp only [Finset.mem_union, Finset.mem_insert]
        tauto
      · intro c hc
        rw [Finset.mem_insert]
        rintro (rfl | hd)
        · exact notin hc
        · exact fresh c (by simp [hc]) hd)
    l (List.replicate e.acc.length 0)
    ⟨∅, by rw [equationWords_empty, wf.acc_length, wf.words_eq], by simp, nodup, below, by simp⟩
  have all : done = l.toFinset := by simpa using eq.1
  rw [run, all]

/-- The last two steps of every path: cut the words to a block, write it out. -/
theorem WF.finish (ws : List UInt32) (len : ws.length = e.words) :
    slice (wordsAsBytes ws) 0 e.blockLen = .ok ((wordsAsBytes ws).take e.blockLen) ∧
      writeSlice (List.replicate e.blockLen 0) 0 e.blockLen ((wordsAsBytes ws).take e.blockLen) =
        .ok ((wordsAsBytes ws).take e.blockLen) := by
  have lens := blockLen_le_words e.blockLen
  rw [wf.words_eq] at len
  constructor
  · rw [slice_of_le (by omega) (by simp [len]; omega)]
    simp
  · rw [writeSlice_of_le (by omega) (by simp) (by simp [len]; omega)]
    simp

/-- A first-phase frame of one block. -/
theorem WF.encode_block {seq : UInt32} (first : seq.toNat < e.sysSpan) (below : seq.toNat < e.k)
    (one : ¬ (e.causal = true ∧ seq ≠ 0)) :
    e.encode seq = .ok (frameBlock payload e.blockLen [seq.toNat], e) := by
  obtain ⟨cut, write⟩ := wf.finish (blockWords payload e.blockLen seq.toNat)
    (by rw [blockWords_length, wf.words_eq])
  have single : [seq.toNat].toFinset = {seq.toNat} := rfl
  simp only [encode, encodeInto, List.length_replicate, ne_eq, not_true, first, ↓reduceIte] at one ⊢
  simp only [one, ↓reduceIte, wf.row below, exec_ok_bind, cut, write, frameBlock, single,
    equationWords_singleton]

/-- A causal first-phase frame, which adds the block before. -/
theorem WF.encode_pair {seq : UInt32} (first : seq.toNat < e.sysSpan) (below : seq.toNat < e.k)
    (pair : e.causal = true ∧ seq ≠ 0) :
    e.encode seq = .ok (frameBlock payload e.blockLen [seq.toNat - 1, seq.toNat],
      { e with acc := equationWords payload e.blockLen [seq.toNat - 1, seq.toNat].toFinset }) := by
  have nonzero : seq.toNat ≠ 0 := fun zero => pair.2 (UInt32.toNat_inj.mp zero)
  have low : e.words ≤ seq.toNat * e.words := Nat.le_mul_of_pos_left _ (by omega)
  have prev : seq.toNat * e.words - e.words = (seq.toNat - 1) * e.words := by
    rw [Nat.sub_mul, Nat.one_mul]
  have row := wf.row below
  have row' := wf.row (show seq.toNat - 1 < e.k by omega)
  have copy : writeSlice e.acc 0 e.acc.length (blockWords payload e.blockLen seq.toNat) =
      .ok (blockWords payload e.blockLen seq.toNat) := by
    rw [writeSlice_of_le (by omega) (by omega)
      (by rw [blockWords_length, wf.acc_length, wf.words_eq]; omega)]
    simp
  have sum : List.zipWith (· ^^^ ·) (blockWords payload e.blockLen seq.toNat)
      (blockWords payload e.blockLen (seq.toNat - 1)) =
      equationWords payload e.blockLen [seq.toNat - 1, seq.toNat].toFinset := by
    rw [← equationWords_singleton, equationWords_insert payload e.blockLen (by simp; omega)]
    simp only [List.toFinset_cons, List.toFinset_nil, insert_empty_eq]
  obtain ⟨cut, write⟩ := wf.finish
    (equationWords payload e.blockLen [seq.toNat - 1, seq.toNat].toFinset)
    (by rw [equationWords_length, wf.words_eq])
  simp only [encode, encodeInto, List.length_replicate, ne_eq, not_true, first, ↓reduceIte] at pair ⊢
  simp only [pair, not_false_eq_true, and_self, ↓reduceIte, checkedSub_of_le low, prev, row, row',
    copy, exec_ok_bind]
  rw [xorInto_ok (by simp), sum]
  simp only [exec_ok_bind, cut, write, frameBlock]

/-- A repair frame. -/
theorem WF.encode_tail {seq : UInt32} (tail : ¬ seq.toNat < e.sysSpan) :
    ∃ e', e.encode seq =
        .ok (frameBlock payload e.blockLen (subset e.cdf e.sessionId seq), e') ∧
      e'.acc.length = e.words ∧ e.Same e' ∧ e'.idx = subset e.cdf e.sessionId seq := by
  obtain ⟨⟨_, nodup, below⟩, same⟩ :=
    frameIndicesInto_ok wf.cdf_wf wf.cdf_k_pos wf.cdf_k_lt e.sessionId seq
  rw [wf.cdf_k] at below
  obtain ⟨scratch', draw⟩ := same e.idx e.idxScratch
  have len : (equationWords payload e.blockLen (subset e.cdf e.sessionId seq).toFinset).length =
      e.words := by rw [equationWords_length, wf.words_eq]
  obtain ⟨cut, write⟩ := wf.finish _ len
  refine ⟨{ e with
    idx := subset e.cdf e.sessionId seq
    idxScratch := scratch'
    acc := equationWords payload e.blockLen (subset e.cdf e.sessionId seq).toFinset },
    ?_, len, rfl, rfl⟩
  simp only [encode, encodeInto, List.length_replicate, ne_eq, not_true, tail, ↓reduceIte, draw,
    exec_ok_bind, wf.accumulate_all nodup below, cut, write, frameBlock]

omit wf in
theorem WF.same {e' : LtEncoder} (wf : e.WF mode payload) (same : e.Same e')
    (len : e'.acc.length = e.words) : e'.WF mode payload := by
  rw [same]
  exact { wf with acc_length := by rw [← len] }

/-- A frame is the exclusive or of its blocks, whatever the buffers hold, and
encoding it changes nothing but the buffers. -/
theorem encode_ok (seq : UInt32) :
    ∃ e', e.encode seq =
        .ok (frameBlock payload e.blockLen (frameIndices mode e.cdf e.sessionId seq), e') ∧
      e'.WF mode payload ∧ e.Same e' := by
  unfold frameIndices
  rw [wf.cdf_k, ← wf.sysSpan_eq, ← wf.causal_eq]
  by_cases first : seq.toNat < e.sysSpan
  · have below : seq.toNat < e.k := by
      rw [wf.sysSpan_eq] at first
      cases mode <;> simp only [Mode.sysSpan] at first <;> omega
    rw [if_pos first]
    by_cases pair : e.causal = true ∧ seq ≠ 0
    · rw [if_pos pair]
      exact ⟨_, wf.encode_pair first below pair,
        { wf with acc_length := by rw [equationWords_length, wf.words_eq] }, rfl⟩
    · rw [if_neg pair]
      exact ⟨e, wf.encode_block first below pair, wf, rfl⟩
  · rw [if_neg first]
    obtain ⟨e', run, len, same, _⟩ := wf.encode_tail first
    exact ⟨e', run, wf.same same len, same⟩

end

end LtEncoder

end DeOptiTransfer
