import Mathlib.Analysis.SpecialFunctions.Log.Deriv
import Mathlib.Analysis.SpecificLimits.Normed

/-!
# A series for the logarithm

The odd powers of `z`, each over its exponent, sum up to half the logarithm of
`(1 + z) / (1 - z)`.

* `abs_logSeries_sub_le`: what a number of terms leaves out;
* `abs_logSeries_le`: a bound on all partial sums;
* `abs_logSeries_two_sub_le`: twenty terms for the logarithm of 2.
-/

namespace DeOptiTransfer

/-- The first `n` terms. -/
def logSeries {α : Type} [Field α] (n : Nat) (z : α) : α :=
  ∑ i ∈ Finset.range n, z ^ (2 * i + 1) / (2 * i + 1 : Nat)

section
variable {α : Type} [Field α] (n : Nat) (z : α)

@[simp] theorem logSeries_zero : logSeries 0 z = 0 := Finset.sum_range_zero _

theorem logSeries_succ :
    logSeries (n + 1) z = logSeries n z + z ^ (2 * n + 1) / (2 * n + 1 : Nat) :=
  Finset.sum_range_succ _ n

end

theorem logSeries_cast (n : Nat) (q : Rat) : ((logSeries n q : Rat) : ℝ) = logSeries n (q : ℝ) := by
  simp only [logSeries]
  push_cast
  rfl

/-- The rest of the series is below a geometric one. -/
theorem abs_logSeries_sub_le {z : ℝ} (lt : |z| < 1) (n : Nat) :
    |2 * logSeries n z - Real.log ((1 + z) / (1 - z))| ≤ 2 * |z| * (z ^ 2) ^ n / (1 - z ^ 2) := by
  obtain ⟨low, high⟩ := abs_lt.mp lt
  have series := Real.hasSum_log_sub_log_of_abs_lt_one lt
  rw [← Real.log_div (by linarith) (by linarith)] at series
  have square : z ^ 2 < 1 := (sq_lt_one_iff_abs_lt_one z).mpr lt
  have term : ∀ i : Nat, ‖(2 : ℝ) * (1 / (2 * i + 1)) * z ^ (2 * i + 1)‖ ≤ 2 * |z| * (z ^ 2) ^ i := by
    intro i
    have one_le : (1 : ℝ) ≤ 2 * i + 1 := by linarith [(Nat.cast_nonneg i : (0 : ℝ) ≤ i)]
    have share : 1 / (2 * (i : ℝ) + 1) ≤ 1 := (div_le_one (by linarith)).mpr one_le
    have power : |z| ^ (2 * i + 1) = |z| * (z ^ 2) ^ i := by
      rw [pow_succ, pow_mul, sq_abs, mul_comm]
    rw [Real.norm_eq_abs, abs_mul, abs_mul, abs_pow, power, abs_of_pos two_pos,
      abs_of_pos (by positivity), mul_assoc, mul_assoc]
    apply mul_le_mul_of_nonneg_left _ two_pos.le
    exact mul_le_of_le_one_left (by positivity) share
  have rest := norm_sub_le_of_geometric_bound_of_hasSum square term series n
  have partial_sum : ∑ i ∈ Finset.range n, (2 : ℝ) * (1 / (2 * i + 1)) * z ^ (2 * i + 1) =
      2 * logSeries n z := by
    rw [logSeries, Finset.mul_sum]
    refine Finset.sum_congr rfl fun i _ => ?_
    push_cast
    ring
  rwa [partial_sum, Real.norm_eq_abs] at rest

/-- Partial sums of a small number stay small. -/
theorem abs_logSeries_le {z : ℝ} (le : |z| ≤ 1 / 5) (n : Nat) :
    |logSeries n z| ≤ 1 / 4 := by
  have below : |logSeries n z| + 25 / 24 * |z| ^ (2 * n + 1) ≤ 1 / 4 := by
    induction n with
    | zero =>
      rw [logSeries_zero, abs_zero, Nat.mul_zero, Nat.zero_add, pow_one]
      linarith
    | succ n ih =>
      have power : 0 ≤ |z| ^ (2 * n + 1) := pow_nonneg (abs_nonneg z) _
      have term : |z ^ (2 * n + 1) / (2 * n + 1 : Nat)| ≤ |z| ^ (2 * n + 1) := by
        rw [abs_div, abs_pow, Nat.abs_cast]
        exact div_le_self power (by exact_mod_cast Nat.succ_le_succ (Nat.zero_le _))
      have square : |z| ^ 2 ≤ 1 / 25 := by
        have := pow_le_pow_left₀ (abs_nonneg z) le 2
        linarith
      have next : |z| ^ (2 * (n + 1) + 1) ≤ |z| ^ (2 * n + 1) * (1 / 25) := by
        rw [show 2 * (n + 1) + 1 = 2 * n + 1 + 2 by ring, pow_add]
        exact mul_le_mul_of_nonneg_left square power
      have sum := abs_add_le (logSeries n z) (z ^ (2 * n + 1) / (2 * n + 1 : Nat))
      rw [logSeries_succ]
      linarith
  have power : 0 ≤ |z| ^ (2 * n + 1) := pow_nonneg (abs_nonneg z) _
  linarith

theorem abs_logSeries_two_sub_le :
    |((2 * logSeries 20 (1 / 3) : Rat) : ℝ) - Real.log 2| ≤ 1 / 10 ^ 18 := by
  have series := abs_logSeries_sub_le (z := 1 / 3) (by rw [abs_of_pos] <;> norm_num) 20
  have two : (1 + 1 / 3) / (1 - 1 / 3) = (2 : ℝ) := by norm_num
  rw [two] at series
  rw [Rat.cast_mul, logSeries_cast]
  push_cast
  apply series.trans
  rw [abs_of_pos (by norm_num)]
  norm_num

end DeOptiTransfer
