import DeOptiTransfer.Base.Exec
import Mathlib.Data.Finset.Card

/-!
# Bit vectors of 64-bit words

A set of small numbers packed into a row of 64-bit words. The operations take
the word and the bit inside it, as a program computes them; `bitAt` reads the
row at a number. `bitSet_ok` and `bitClear_ok` say what each operation changes.
-/

namespace DeOptiTransfer

/-- `bits[word] & (1 << bit) != 0` -/
def bitTest (bits : List (BitVec 64)) (word bit : Nat) : Exec Bool := do
  let w ← getAt bits word
  .ok (w &&& BitVec.twoPow 64 bit != 0)

/-- `bits[word] |= 1 << bit` -/
def bitSet (bits : List (BitVec 64)) (word bit : Nat) : Exec (List (BitVec 64)) := do
  let w ← getAt bits word
  setAt bits word (w ||| BitVec.twoPow 64 bit)

/-- `bits[word] &= !(1 << bit)` -/
def bitClear (bits : List (BitVec 64)) (word bit : Nat) : Exec (List (BitVec 64)) := do
  let w ← getAt bits word
  setAt bits word (w &&& ~~~ BitVec.twoPow 64 bit)

/-- Bit number `i` of the row. -/
def bitAt (bits : List (BitVec 64)) (i : Nat) : Bool :=
  (bits.getD (i / 64) 0#64).getLsbD (i % 64)

theorem bitAt_replicate (n i : Nat) : bitAt (List.replicate n 0#64) i = false := by
  unfold bitAt
  rw [List.getD_eq_getElem?_getD, List.getElem?_replicate]
  split <;> simp

theorem bitTest_ok {bits : List (BitVec 64)} {i : Nat} (h : i / 64 < bits.length) :
    bitTest bits (i / 64) (i % 64) = .ok (bitAt bits i) := by
  have small : i % 64 < 64 := Nat.mod_lt _ (by decide)
  simp only [bitTest, getAt_of_lt h, exec_ok_bind, bitAt, List.getD_eq_getElem?_getD,
    List.getElem?_eq_getElem h, Option.getD_some, BitVec.and_twoPow]
  have nonzero : BitVec.twoPow 64 (i % 64) ≠ 0#64 := by
    intro zero
    have := BitVec.toNat_twoPow_of_lt small
    rw [zero, BitVec.toNat_zero] at this
    exact absurd this.symm (Nat.pos_iff_ne_zero.mp (Nat.two_pow_pos _))
  cases bits[i / 64].getLsbD (i % 64) <;> simp [nonzero]

theorem div_mod_64_inj {i j : Nat} (hd : i / 64 = j / 64) (hm : i % 64 = j % 64) : i = j := by
  rw [← Nat.div_add_mod i 64, ← Nat.div_add_mod j 64, hd, hm]

theorem bitSet_ok {bits : List (BitVec 64)} {i : Nat} (h : i / 64 < bits.length) :
    ∃ bits', bitSet bits (i / 64) (i % 64) = .ok bits' ∧ bits'.length = bits.length ∧
      ∀ j, bitAt bits' j = (decide (j = i) || bitAt bits j) := by
  have small : i % 64 < 64 := Nat.mod_lt _ (by decide)
  refine ⟨bits.set (i / 64) (bits[i / 64] ||| BitVec.twoPow 64 (i % 64)), ?_, by simp, ?_⟩
  · simp only [bitSet, getAt_of_lt h, exec_ok_bind, setAt_of_lt h]
  · intro j
    unfold bitAt
    simp only [List.getD_eq_getElem?_getD, List.getElem?_set]
    by_cases hd : i / 64 = j / 64
    · have h' : j / 64 < bits.length := hd ▸ h
      simp only [hd, h', ↓reduceIte, Option.getD_some, BitVec.getLsbD_or, BitVec.getLsbD_twoPow,
        small, decide_true, Bool.true_and, List.getElem?_eq_getElem h']
      by_cases hm : i % 64 = j % 64
      · simp [div_mod_64_inj hd hm]
      · have : j ≠ i := by rintro rfl; exact hm rfl
        simp [hm, this]
    · have : j ≠ i := by rintro rfl; exact hd rfl
      simp [hd, this]

theorem bitClear_ok {bits : List (BitVec 64)} {i : Nat} (h : i / 64 < bits.length) :
    ∃ bits', bitClear bits (i / 64) (i % 64) = .ok bits' ∧ bits'.length = bits.length ∧
      ∀ j, bitAt bits' j = (decide (j ≠ i) && bitAt bits j) := by
  have small : i % 64 < 64 := Nat.mod_lt _ (by decide)
  refine ⟨bits.set (i / 64) (bits[i / 64] &&& ~~~ BitVec.twoPow 64 (i % 64)), ?_, by simp, ?_⟩
  · simp only [bitClear, getAt_of_lt h, exec_ok_bind, setAt_of_lt h]
  · intro j
    have small' : j % 64 < 64 := Nat.mod_lt _ (by decide)
    unfold bitAt
    simp only [List.getD_eq_getElem?_getD, List.getElem?_set]
    by_cases hd : i / 64 = j / 64
    · have h' : j / 64 < bits.length := hd ▸ h
      simp only [hd, h', ↓reduceIte, Option.getD_some, BitVec.getLsbD_and, BitVec.getLsbD_not,
        BitVec.getLsbD_twoPow, small, small', decide_true, Bool.true_and,
        List.getElem?_eq_getElem h']
      by_cases hm : i % 64 = j % 64
      · simp [div_mod_64_inj hd hm]
      · have : j ≠ i := by rintro rfl; exact hm rfl
        simp [hm, this]
    · have : j ≠ i := by rintro rfl; exact hd rfl
      simp [hd, this]

end DeOptiTransfer
