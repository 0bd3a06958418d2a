import DeOptiTransfer.Fountain.AddFrame

/-!
# Reading the payload out

`assemble` of `fountain.rs` copies every solved slot to the place of its block
and cuts the last one at the length of the stream.

* `assemble_ok`: a well-formed decoder can be read out, whatever its slots hold;
* `assemble_payload`: slots that hold the blocks of a payload give the payload.
-/

namespace DeOptiTransfer.LtDecoder

section
variable {mode : Mode} {A : Finset UInt32} {d : LtDecoder}

/-- The length of block `b` in the output. -/
def chunkLen (d : LtDecoder) (b : Nat) : Nat := min d.blockLen (d.totalLen - b * d.blockLen)

theorem assembleBlock_ok (wf : d.WF mode A) {b off : Nat} (lt : b < d.k)
    (stored : d.offset b = some off) {out : List UInt8} (len : out.length = d.totalLen) :
    d.assembleBlock out (some off, b) =
      .ok (out.take (b * d.blockLen) ++
        (wordsAsBytes (slot d.words d.arena off)).take (d.chunkLen b) ++
          out.drop (b * d.blockLen + d.chunkLen b)) := by
  have start : b * d.blockLen < d.totalLen :=
    mul_lt_of_lt_divCeil wf.blockLen_pos (wf.k_eq ▸ lt)
  have inside := wf.shape.solved_slot b off stored
  have row_length := slot_length inside
  have wide := blockLen_le_words d.blockLen
  rw [← wf.words_eq] at wide
  have chunk : d.chunkLen b ≤ d.blockLen := Nat.min_le_left _ _
  have chunk' : d.chunkLen b ≤ d.totalLen - b * d.blockLen := Nat.min_le_right _ _
  unfold chunkLen at *
  simp only [assembleBlock, checkedSub_of_le (Nat.le_of_lt start), exec_ok_bind, slice_slot inside]
  rw [slice_of_le (by omega) (by rw [wordsAsBytes_length, row_length]; omega), exec_ok_bind,
    writeSlice_of_le (by omega) (by omega)
      (by simp only [List.drop_zero, List.length_take, wordsAsBytes_length, row_length]; omega)]
  simp

theorem offset_of_getElem {p : PeelState} {b : Nat} (lt : b < p.solved.length) :
    p.solved[b] = p.offset b := by
  rw [PeelState.offset, List.getD_eq_getElem _ _ lt]

/-- The bytes taken from the slot of a block are those of the payload. -/
theorem chunk_of_values {payload : List UInt8} {n off : Nat} (total : payload.length = d.totalLen)
    (values : d.Values d.words (equationWords payload d.blockLen) [])
    (stored : d.offset n = some off) :
    (wordsAsBytes (slot d.words d.arena off)).take (d.chunkLen n) =
      (payload.drop (n * d.blockLen)).take d.blockLen := by
  have short : d.chunkLen n ≤ d.blockLen := Nat.min_le_left _ _
  rw [values.solved n off stored, equationWords_singleton, ← Nat.min_eq_left short,
    ← List.take_take, take_wordsAsBytes_blockWords, blockBytes]
  rw [List.take_append_of_le_length (by simp [chunkLen, total]), List.take_of_length_le]
  simp [chunkLen, total]

/-- One more block is written, behind those that were there. -/
theorem assembleBlock_next (wf : d.WF mode A) {n off : Nat} (lt : n < d.k)
    (stored : d.offset n = some off) {out : List UInt8} (len : out.length = d.totalLen) :
    ∃ out', d.assembleBlock out (some off, n) = .ok out' ∧ out'.length = d.totalLen ∧
      ∀ payload : List UInt8, payload.length = d.totalLen →
        d.Values d.words (equationWords payload d.blockLen) [] →
          out.take (n * d.blockLen) = payload.take (n * d.blockLen) →
            out'.take ((n + 1) * d.blockLen) = payload.take ((n + 1) * d.blockLen) := by
  have start : n * d.blockLen < d.totalLen :=
    mul_lt_of_lt_divCeil wf.blockLen_pos (wf.k_eq ▸ lt)
  have row_length := slot_length (wf.shape.solved_slot n off stored)
  have wide := blockLen_le_words d.blockLen
  rw [← wf.words_eq] at wide
  have short : d.chunkLen n ≤ d.blockLen := Nat.min_le_left _ _
  have short' : d.chunkLen n ≤ d.totalLen - n * d.blockLen := Nat.min_le_right _ _
  refine ⟨_, assembleBlock_ok wf lt stored len, ?_, ?_⟩
  · simp only [List.length_append, List.length_take, List.length_drop, wordsAsBytes_length,
      row_length]
    omega
  · intro payload total values before
    have chunk_length : ((payload.drop (n * d.blockLen)).take d.blockLen).length = d.chunkLen n := by
      simp [chunkLen, total]
    have head : (payload.take (n * d.blockLen)).length = n * d.blockLen := by
      simp only [List.length_take]
      omega
    -- what follows the block is either out of reach or empty
    have rest : (out.drop (n * d.blockLen + d.chunkLen n)).take
        (n * d.blockLen + d.blockLen - (n * d.blockLen + d.chunkLen n)) = [] := by
      apply List.eq_nil_of_length_eq_zero
      simp only [List.length_take, List.length_drop, len, chunkLen]
      omega
    rw [before, chunk_of_values total values stored, Nat.add_mul, Nat.one_mul, List.take_append,
      List.length_append, head, chunk_length, rest, List.append_nil,
      List.take_of_length_le (by rw [List.length_append, head, chunk_length]; omega),
      List.take_add]

/-- The output after the first `n` blocks, when the slots hold the blocks of
`payload`. -/
theorem assembleFrom_ok (wf : d.WF mode A) (n : Nat) (le : n ≤ d.k) :
    ∃ out, (d.solved.zipIdx.take n).foldlM d.assembleBlock (List.replicate d.totalLen 0) = .ok out ∧
      out.length = d.totalLen ∧
      ∀ payload : List UInt8, payload.length = d.totalLen →
        d.Values d.words (equationWords payload d.blockLen) [] → (∀ b < n, d.Known b) →
          out.take (n * d.blockLen) = payload.take (n * d.blockLen) := by
  induction n with
  | zero => exact ⟨_, rfl, by simp, by simp⟩
  | succ n ih =>
    obtain ⟨out, run, len, agrees⟩ := ih (by omega)
    have lt : n < d.solved.length := by
      rw [wf.shape.solved_length]
      omega
    have next : d.solved.zipIdx.take (n + 1) = d.solved.zipIdx.take n ++ [(d.offset n, n)] := by
      rw [List.take_succ_eq_append_getElem (by simpa using lt)]
      simp [offset_of_getElem lt]
    simp only [next, List.foldlM_append, run, exec_ok_bind, List.foldlM_cons, List.foldlM_nil]
    cases stored : d.offset n with
    | none =>
      refine ⟨out, rfl, len, ?_⟩
      intro payload _ _ known
      have solved := known n (by omega)
      rw [PeelState.Known, stored] at solved
      cases solved
    | some off =>
      obtain ⟨out', write, len', agrees'⟩ := assembleBlock_next wf (by omega) stored len
      refine ⟨out', by rw [write, exec_ok_bind, exec_pure], len', ?_⟩
      intro payload total values known
      apply agrees' payload total values
      exact agrees payload total values fun b hb => known b (by omega)

theorem assemble_ok (wf : d.WF mode A) :
    ∃ out, d.assemble = .ok out ∧ (d.isComplete = false → out = none) ∧
      (d.isComplete = true → ∃ bytes, out = some bytes ∧ bytes.length = d.totalLen) := by
  obtain ⟨bytes, run, len, _⟩ := assembleFrom_ok wf d.k (Nat.le_refl _)
  rw [List.take_of_length_le (by simp [wf.shape.solved_length])] at run
  cases complete : d.isComplete with
  | false => exact ⟨none, by simp [assemble, complete], fun _ => rfl, by simp⟩
  | true =>
    exact ⟨some bytes, by simp [assemble, complete, run], by simp, fun _ => ⟨bytes, rfl, len⟩⟩

theorem isComplete_iff (wf : d.WF mode A) : d.isComplete = true ↔ ∀ b < d.k, d.Known b := by
  have sub : d.solvedBlocks ⊆ Finset.range d.k := by
    rw [PeelState.solvedBlocks, wf.shape.solved_length]
    exact Finset.filter_subset _ _
  have mem : ∀ b, b ∈ d.solvedBlocks ↔ d.Known b := by
    intro b
    simp only [PeelState.solvedBlocks, Finset.mem_filter, Finset.mem_range, and_iff_right_iff_imp]
    exact PeelState.lt_of_known
  rw [isComplete, decide_eq_true_iff, ge_iff_le, wf.shape.count]
  constructor
  · intro full b lt
    rw [← mem, Finset.eq_of_subset_of_card_le sub (by rwa [Finset.card_range])]
    exact Finset.mem_range.mpr lt
  · intro all
    rw [← Finset.card_range d.k]
    exact Finset.card_le_card fun b hb => (mem b).mpr (all b (Finset.mem_range.mp hb))

/-- A complete decoder whose slots hold the blocks of a payload gives the
payload. -/
theorem assemble_payload (wf : d.WF mode A) {payload : List UInt8}
    (total : payload.length = d.totalLen)
    (values : d.Values d.words (equationWords payload d.blockLen) []) (complete : d.isComplete = true) :
    d.assemble = .ok (some payload) := by
  obtain ⟨bytes, run, len, agrees⟩ := assembleFrom_ok wf d.k (Nat.le_refl _)
  rw [List.take_of_length_le (by simp [wf.shape.solved_length])] at run
  have all := agrees payload total values ((isComplete_iff wf).mp complete)
  have wide := le_divCeil_mul d.totalLen wf.blockLen_pos
  rw [← wf.k_eq] at wide
  rw [List.take_of_length_le (by omega), List.take_of_length_le (by omega)] at all
  simp [assemble, complete, run, all]

end

end DeOptiTransfer.LtDecoder
