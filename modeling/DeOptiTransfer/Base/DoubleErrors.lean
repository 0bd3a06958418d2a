import DeOptiTransfer.Base.Closeness
import DeOptiTransfer.Base.Double
import Mathlib.Data.Real.Basic

/-!
# Doubles against reals

What a double of the program is worth as an approximation of a real number, by an
absolute error or by factors of `1 - eps`.

* `F64.off_ofRat`: one more rounding of an absolute error;
* `F64.near_ofRat`: one more rounding of a relative one.
-/

namespace DeOptiTransfer

namespace F64

/-- Half the last place of 1, as a real. -/
noncomputable def eps : ℝ := (unit : Rat)

theorem eps_eq : eps = 1 / 2 ^ 53 := by
  rw [eps, unit]
  push_cast
  rfl

theorem eps_pos : 0 < eps := by
  rw [eps_eq]
  positivity

theorem eps_le : eps ≤ 1 / 10 ^ 9 := by
  rw [eps_eq]
  norm_num

/-- Rounding an approximation: its error grows by a share of its size. -/
theorem off_ofRat {q : Rat} {x error : ℝ} (size : ℝ) (near : |(q : ℝ) - x| ≤ error)
    (le : |(q : ℝ)| + eps ≤ size) : |((ofRat q).val : ℝ) - x| ≤ error + eps * size := by
  have rounded : |((ofRat q).val : ℝ) - q| ≤ eps * (|(q : ℝ)| + eps) := by
    rw [eps]
    exact_mod_cast abs_ofRat_sub_le_add q
  have share : eps * (|(q : ℝ)| + eps) ≤ eps * size := mul_le_mul_of_nonneg_left le eps_pos.le
  calc |((ofRat q).val : ℝ) - x| ≤ |((ofRat q).val : ℝ) - q| + |(q : ℝ) - x| := abs_sub_le _ _ _
    _ ≤ error + eps * size := by linarith

section
variable {a b : F64} {x error : ℝ}

theorem off_add (size : ℝ) (near : |((a.val : ℝ) + b.val) - x| ≤ error)
    (le : |(a.val : ℝ) + b.val| + eps ≤ size) : |((a + b).val : ℝ) - x| ≤ error + eps * size := by
  rw [← Rat.cast_add] at near le
  exact off_ofRat size near le

theorem off_sub (size : ℝ) (near : |((a.val : ℝ) - b.val) - x| ≤ error)
    (le : |(a.val : ℝ) - b.val| + eps ≤ size) : |((a - b).val : ℝ) - x| ≤ error + eps * size := by
  rw [← Rat.cast_sub] at near le
  exact off_ofRat size near le

theorem off_mul (size : ℝ) (near : |((a.val : ℝ) * b.val) - x| ≤ error)
    (le : |(a.val : ℝ) * b.val| + eps ≤ size) : |((a * b).val : ℝ) - x| ≤ error + eps * size := by
  rw [← Rat.cast_mul] at near le
  exact off_ofRat size near le

theorem off_div (size : ℝ) (near : |((a.val : ℝ) / b.val) - x| ≤ error)
    (le : |(a.val : ℝ) / b.val| + eps ≤ size) : |((a / b).val : ℝ) - x| ≤ error + eps * size := by
  rw [← Rat.cast_div] at near le
  exact off_ofRat size near le

end

/-! ## Relative errors -/

/-- `a` stands for `x`, after `n` roundings. -/
abbrev Near (n : Nat) (a : F64) (x : ℝ) : Prop := Close (1 - eps) n (a.val : ℝ) x

theorem factor_pos : 0 < 1 - eps := by linarith [eps_le]

theorem factor_le_one : 1 - eps ≤ 1 := by linarith [eps_pos]

/-- Few factors do not even halve a number. -/
theorem half_le_of_close {n : Nat} {a x : ℝ} (h : Close (1 - eps) n a x) (few : n ≤ 10 ^ 8) :
    x / 2 ≤ a := by
  have tiny := eps_le
  have few_real : (n : ℝ) ≤ 10 ^ 8 := by exact_mod_cast few
  have least : 1 - n * eps ≤ (1 - eps) ^ n := by
    have := one_add_mul_le_pow (a := -eps) (by linarith) n
    rw [← sub_eq_add_neg] at this
    linarith
  have half : 1 / 2 ≤ (1 - eps) ^ n := by nlinarith [eps_pos]
  have := mul_le_mul_of_nonneg_left half h.nonneg
  linarith [h.low]

/-- One more rounding is one more factor, unless the number is tiny. -/
theorem near_ofRat {q : Rat} {x : ℝ} {n : Nat} (h : Close (1 - eps) n (q : ℝ) x)
    (few : n ≤ 10 ^ 8) (large : 1 / 10 ^ 20 ≤ x) : Near (n + 1) (ofRat q) x := by
  have normal : 2 ^ (-1000 : Int) ≤ q := by
    have low : ((1 / 10 ^ 21 : Rat) : ℝ) ≤ q := by
      have := half_le_of_close h few
      push_cast
      linarith
    exact le_trans (by decide +kernel) (Rat.cast_le.mp low)
  have pos : 0 < q := (two_zpow_pos _).trans_le normal
  have error := abs_ofRat_sub_le_mul (normal.trans_eq (abs_of_pos pos).symm)
  rw [abs_of_pos pos] at error
  refine h.trans factor_pos (.of_abs_one eps_pos.le (eps_le.trans (by norm_num)) ?_ ?_)
  · exact_mod_cast pos.le
  · rw [eps]
    exact_mod_cast error

section
variable {a b : F64} {x y : ℝ} {n m : Nat}

theorem Near.mono (h : Near n a x) (le : n ≤ m) : Near m a x :=
  Close.mono factor_pos factor_le_one h le

theorem Near.add (h : Near n a x) (h' : Near n b y) (few : n ≤ 10 ^ 8)
    (large : 1 / 10 ^ 20 ≤ x + y) : Near (n + 1) (a + b) (x + y) := by
  have sum := Close.add h h'
  rw [← Rat.cast_add] at sum
  exact near_ofRat sum few large

theorem Near.mul (h : Near n a x) (h' : Near m b y) (few : n + m ≤ 10 ^ 8)
    (large : 1 / 10 ^ 20 ≤ x * y) : Near (n + m + 1) (a * b) (x * y) := by
  have product := Close.mul factor_pos h h'
  rw [← Rat.cast_mul] at product
  exact near_ofRat product few large

theorem Near.div (h : Near n a x) (h' : Near m b y) (pos : 0 < y) (few : n + m ≤ 10 ^ 8)
    (large : 1 / 10 ^ 20 ≤ x / y) : Near (n + m + 1) (a / b) (x / y) := by
  have quotient := Close.div factor_pos h h' pos
  rw [← Rat.cast_div] at quotient
  exact near_ofRat quotient few large

theorem Near.max (h : Near n a x) (h' : Near 0 b y) : Near n (max a b) (max x y) := by
  have value : (Max.max a b).val = Max.max a.val b.val := by
    rcases le_total a b with le | le
    · rw [max_eq_right le, max_eq_right (le_def.mp le)]
    · rw [max_eq_left le, max_eq_left (le_def.mp le)]
  have exact_b : (b.val : ℝ) = y := by
    have low := h'.low
    have high := h'.high
    rw [pow_zero, mul_one] at low high
    exact le_antisymm high low
  rw [Near, value, Rat.cast_max, exact_b]
  exact h.clamp factor_pos factor_le_one y

theorem near_natCast {n : Nat} (lt : n < 2 ^ 53) : Near 0 (n : F64) n := by
  rw [Near, val_natCast lt, Rat.cast_natCast]
  exact .refl _ (Nat.cast_nonneg n)

end

end F64

end DeOptiTransfer
