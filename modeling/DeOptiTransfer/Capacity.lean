import DeOptiTransfer.Base.Arith
import DeOptiTransfer.Frame

/-!
# Capacity

`capacity.rs`: how a payload is cut for a given frame size, and which frame
sizes are enough for it.

* `fitsInOneStream_iff`, `fits_iff_minimum`: when a payload fits, by its blocks
  and by the smallest frame;
* `smallest_eq_some_iff`: the option that is chosen.
-/

namespace DeOptiTransfer

def MAX_SOURCE_BLOCKS : Nat := 0xffff

def blockLength (frameBytes : Nat) : Option Nat :=
  if frameBytes < HEADER_LEN then none
  else
    let blockLen := frameBytes - HEADER_LEN
    if blockLen > 0 ∧ blockLen ≤ 65535 then some blockLen else none

def sourceBlockCount (payloadBytes frameBytes : Nat) : Option Nat :=
  (blockLength frameBytes).map (divCeil payloadBytes)

def fitsInOneStream (payloadBytes frameBytes : Nat) : Bool :=
  match sourceBlockCount payloadBytes frameBytes with
  | some blocks => blocks > 0 ∧ blocks ≤ MAX_SOURCE_BLOCKS
  | none => false

def minimumFrameBytes (payloadBytes : Nat) : Nat :=
  saturatingAdd (max (divCeil payloadBytes MAX_SOURCE_BLOCKS) 1) HEADER_LEN

def smallestSufficientFrameSize (payloadBytes : Nat) (options : List Nat) : Option Nat :=
  let minimum := minimumFrameBytes payloadBytes
  (options.filter fun v => v ≥ minimum ∧ (blockLength v).isSome).min?

/-- A frame carries the block it was sized for. -/
theorem blockLength_add_header {blockLen : Nat} (pos : 0 < blockLen) (le : blockLen ≤ 65535) :
    blockLength (blockLen + HEADER_LEN) = some blockLen := by
  rw [blockLength, if_neg (by omega), Nat.add_sub_cancel, if_pos ⟨pos, le⟩]

theorem sourceBlockCount_add_header (payloadBytes : Nat) {blockLen : Nat} (pos : 0 < blockLen)
    (le : blockLen ≤ 65535) :
    sourceBlockCount payloadBytes (blockLen + HEADER_LEN) = some (divCeil payloadBytes blockLen) := by
  rw [sourceBlockCount, blockLength_add_header pos le, Option.map_some]

theorem blockLength_eq_some {frameBytes blockLen : Nat} :
    blockLength frameBytes = some blockLen ↔
      frameBytes = blockLen + HEADER_LEN ∧ 0 < blockLen ∧ blockLen ≤ 65535 := by
  constructor
  · intro h
    unfold blockLength at h
    split at h
    · cases h
    · dsimp only at h
      split at h
      · cases h
        omega
      · cases h
  · rintro ⟨rfl, pos, le⟩
    exact blockLength_add_header pos le

section
variable {payloadBytes : Nat}

/-- A payload fits when its blocks can be counted and measured in 16 bits. -/
theorem fitsInOneStream_iff (pos : 0 < payloadBytes) {frameBytes : Nat} :
    fitsInOneStream payloadBytes frameBytes = true ↔ ∃ blockLen,
      blockLength frameBytes = some blockLen ∧ divCeil payloadBytes blockLen ≤ MAX_SOURCE_BLOCKS := by
  unfold fitsInOneStream sourceBlockCount
  cases sized : blockLength frameBytes with
  | none => simp
  | some blockLen =>
    have count := divCeil_pos pos (blockLength_eq_some.mp sized).2.1
    simp [count]

/-- Rounding the number of blocks and rounding their length agree. -/
theorem fits_block_iff (pos : 0 < payloadBytes) (blockLen : Nat) :
    fitsInOneStream payloadBytes (blockLen + HEADER_LEN) = true ↔
      0 < blockLen ∧ blockLen ≤ 65535 ∧ divCeil payloadBytes blockLen ≤ MAX_SOURCE_BLOCKS := by
  rw [fitsInOneStream_iff pos]
  constructor
  · rintro ⟨blockLen', sized, count⟩
    obtain ⟨eq, pos, le⟩ := blockLength_eq_some.mp sized
    obtain rfl := Nat.add_right_cancel eq
    exact ⟨pos, le, count⟩
  · rintro ⟨pos, le, count⟩
    exact ⟨blockLen, blockLength_add_header pos le, count⟩

theorem minimumFrameBytes_eq (le : payloadBytes ≤ MAX_STREAM_BYTES) :
    minimumFrameBytes payloadBytes = max (divCeil payloadBytes MAX_SOURCE_BLOCKS) 1 + HEADER_LEN := by
  have total : MAX_STREAM_BYTES < 2000 * MAX_SOURCE_BLOCKS := by decide
  have count : divCeil payloadBytes MAX_SOURCE_BLOCKS ≤ 2000 :=
    (divCeil_le_iff (by decide)).mpr (by omega)
  exact saturatingAdd_eq (by simp only [HEADER_LEN]; omega)

/-- A payload fits exactly from the minimum on. -/
theorem fits_iff_minimum (pos : 0 < payloadBytes) (le : payloadBytes ≤ MAX_STREAM_BYTES)
    (blockLen : Nat) :
    fitsInOneStream payloadBytes (blockLen + HEADER_LEN) = true ↔
      blockLen ≤ 65535 ∧ minimumFrameBytes payloadBytes ≤ blockLen + HEADER_LEN := by
  rw [fits_block_iff pos, minimumFrameBytes_eq le, Nat.add_le_add_iff_right, Nat.max_le,
    divCeil_le_iff (show 0 < MAX_SOURCE_BLOCKS by decide)]
  constructor
  · rintro ⟨block_pos, block_le, count⟩
    rw [divCeil_le_iff block_pos, Nat.mul_comm] at count
    exact ⟨block_le, count, block_pos⟩
  · rintro ⟨block_le, count, block_pos⟩
    refine ⟨block_pos, block_le, ?_⟩
    rw [divCeil_le_iff block_pos, Nat.mul_comm]
    exact count

theorem option_fits_iff (pos : 0 < payloadBytes) (le : payloadBytes ≤ MAX_STREAM_BYTES) (v : Nat) :
    v ≥ minimumFrameBytes payloadBytes ∧ (blockLength v).isSome = true ↔
      fitsInOneStream payloadBytes v = true := by
  constructor
  · rintro ⟨large, sized⟩
    obtain ⟨blockLen, eq⟩ := Option.isSome_iff_exists.mp sized
    obtain ⟨rfl, _, block_le⟩ := blockLength_eq_some.mp eq
    exact (fits_iff_minimum pos le blockLen).mpr ⟨block_le, large⟩
  · intro fits
    obtain ⟨blockLen, eq, _⟩ := (fitsInOneStream_iff pos).mp fits
    refine ⟨?_, by rw [eq]; rfl⟩
    obtain ⟨rfl, _⟩ := blockLength_eq_some.mp eq
    exact ((fits_iff_minimum pos le blockLen).mp fits).2

theorem mem_options_iff (pos : 0 < payloadBytes) (le : payloadBytes ≤ MAX_STREAM_BYTES)
    {options : List Nat} {v : Nat} :
    v ∈ options.filter (fun v => v ≥ minimumFrameBytes payloadBytes ∧ (blockLength v).isSome) ↔
      v ∈ options ∧ fitsInOneStream payloadBytes v = true := by
  rw [List.mem_filter, decide_eq_true_iff, option_fits_iff pos le]

/-- The chosen option is the least that fits. -/
theorem smallest_eq_some_iff (pos : 0 < payloadBytes) (le : payloadBytes ≤ MAX_STREAM_BYTES)
    {options : List Nat} {v : Nat} :
    smallestSufficientFrameSize payloadBytes options = some v ↔
      (v ∈ options ∧ fitsInOneStream payloadBytes v = true) ∧
        ∀ w ∈ options, fitsInOneStream payloadBytes w = true → v ≤ w := by
  rw [smallestSufficientFrameSize, List.min?_eq_some_iff, mem_options_iff pos le]
  apply and_congr_right'
  constructor
  · intro least w mem fits
    exact least w ((mem_options_iff pos le).mpr ⟨mem, fits⟩)
  · intro least w mem
    obtain ⟨mem, fits⟩ := (mem_options_iff pos le).mp mem
    exact least w mem fits

theorem smallest_eq_none_iff (pos : 0 < payloadBytes) (le : payloadBytes ≤ MAX_STREAM_BYTES)
    {options : List Nat} :
    smallestSufficientFrameSize payloadBytes options = none ↔
      ∀ w ∈ options, ¬ fitsInOneStream payloadBytes w = true := by
  rw [smallestSufficientFrameSize, List.min?_eq_none_iff, List.eq_nil_iff_forall_not_mem]
  constructor
  · intro empty w mem fits
    exact empty w ((mem_options_iff pos le).mpr ⟨mem, fits⟩)
  · intro unfit w mem
    obtain ⟨mem, fits⟩ := (mem_options_iff pos le).mp mem
    exact unfit w mem fits

end

end DeOptiTransfer
