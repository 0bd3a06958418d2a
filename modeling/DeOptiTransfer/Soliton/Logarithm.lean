import DeOptiTransfer.Base.DoubleErrors
import DeOptiTransfer.Base.LogSeries
import DeOptiTransfer.Soliton.Distribution
import Mathlib.Analysis.Complex.ExponentialBounds

/-!
# The logarithm is one

`dlog` against the natural logarithm of the reals. The loops scale exactly; the
rest rounds some fifty times and leaves the series after eleven terms.

* `halveLoop_value`, `doubleLoop_value`: what the loops keep;
* `series_run`: the sum that the loop computes against the series;
* `dlog_off`, `dlog_accurate`: the error of the whole.
-/

namespace DeOptiTransfer

/-! ## Scaling -/

namespace F64

theorem val_halves {a : F64} (large : 3 / 2 ≤ a.val) : (a / 2).val = a.val / 2 := by
  obtain ⟨n, e, least, small, eq⟩ := a.representable
  have exponent : -53 ≤ e := by
    by_contra low
    have tiny : (2 : Rat) ^ e ≤ 2 ^ (-54 : Int) := zpow_le_zpow_right₀ one_le_two (by omega)
    have size : (n : Rat) ≤ 2 ^ 53 := by exact_mod_cast (abs_lt.mp small).2.le
    have : a.val ≤ 2 ^ 53 * 2 ^ (-54 : Int) := by
      rw [eq]
      exact mul_le_mul size tiny (two_zpow_pos e).le (by positivity)
    norm_num at this
    linarith
  have half : a.val / 2 = n * 2 ^ (e - 1) := by
    rw [eq, zpow_sub_one₀ two_ne_zero]
    ring
  have quotient : (a / 2).val = (ofRat (a.val / (2 : F64).val)).val := rfl
  rw [quotient, val_two]
  exact val_ofRat ⟨n, e - 1, by omega, small, half⟩

theorem val_doubles (a : F64) : (a * 2).val = a.val * 2 := by
  obtain ⟨n, e, least, small, eq⟩ := a.representable
  have double : a.val * 2 = n * 2 ^ (e + 1) := by
    rw [eq, zpow_add_one₀ two_ne_zero]
    ring
  have product : (a * 2).val = (ofRat (a.val * (2 : F64).val)).val := rfl
  rw [product, val_two]
  exact val_ofRat ⟨n, e + 1, by omega, small, double⟩

theorem val_three_halves : (ofRat (3 / 2)).val = 3 / 2 := by decide +kernel

theorem val_three_quarters : (ofRat (3 / 4)).val = 3 / 4 := by decide +kernel

end F64

theorem halveLoop_value {fuel : Nat} {m m' : F64} {e e' : Int}
    (run : halveLoop fuel m e = .ok (m', e')) :
    m'.val * 2 ^ e' = m.val * 2 ^ e ∧ m'.val < 3 / 2 ∧ (m' = m ∨ 3 / 4 ≤ m'.val) := by
  induction fuel generalizing m e with
  | zero =>
    rw [halveLoop] at run
    split at run
    · cases run
    · rename_i stop
      cases run
      rw [F64.le_def, F64.val_three_halves] at stop
      exact ⟨rfl, not_le.mp stop, Or.inl rfl⟩
  | succ fuel ih =>
    rw [halveLoop] at run
    split at run
    · rename_i large
      rw [F64.le_def, F64.val_three_halves] at large
      obtain ⟨kept, lt, origin⟩ := ih run
      have half := F64.val_halves large
      refine ⟨?_, lt, Or.inr ?_⟩
      · rw [kept, half, zpow_add_one₀ two_ne_zero]
        ring
      · rcases origin with rfl | reached
        · linarith
        · exact reached
    · rename_i stop
      cases run
      rw [F64.le_def, F64.val_three_halves] at stop
      exact ⟨rfl, not_le.mp stop, Or.inl rfl⟩

theorem doubleLoop_value {fuel : Nat} {m m' : F64} {e e' : Int} (lt : m.val < 3 / 2)
    (run : doubleLoop fuel m e = .ok (m', e')) :
    m'.val * 2 ^ e' = m.val * 2 ^ e ∧ 3 / 4 ≤ m'.val ∧ m'.val < 3 / 2 := by
  induction fuel generalizing m e with
  | zero =>
    rw [doubleLoop] at run
    split at run
    · cases run
    · rename_i stop
      cases run
      rw [F64.lt_def, F64.val_three_quarters] at stop
      exact ⟨rfl, not_lt.mp stop, lt⟩
  | succ fuel ih =>
    rw [doubleLoop] at run
    split at run
    · rename_i short
      rw [F64.lt_def, F64.val_three_quarters] at short
      have double := F64.val_doubles m
      obtain ⟨kept, reached, lt'⟩ := ih (by rw [double]; linarith) run
      refine ⟨?_, reached, lt'⟩
      rw [kept, double, zpow_sub_one₀ two_ne_zero]
      ring
    · rename_i stop
      cases run
      rw [F64.lt_def, F64.val_three_quarters] at stop
      exact ⟨rfl, not_lt.mp stop, lt⟩

/-! ## The series -/

open F64 (eps eps_pos eps_le)

/-- Two products of numbers that are near each other. -/
theorem abs_mul_sub_mul_le {a b x y : ℝ} :
    |a * b - x * y| ≤ |a - x| * |b| + |x| * |b - y| := by
  have split : a * b - x * y = (a - x) * b + x * (b - y) := by ring
  rw [split]
  exact (abs_add_le _ _).trans_eq (by rw [abs_mul, abs_mul])

/-- The number whose series is summed up is small. -/
theorem abs_quotient_le {x : ℝ} (low : 3 / 4 ≤ x) (high : x < 3 / 2) :
    |(x - 1) / (x + 1)| ≤ 1 / 5 := by
  rw [abs_le, le_div_iff₀ (by linarith), div_le_iff₀ (by linarith)]
  constructor <;> linarith

theorem quotient_off {m : F64} (low : 3 / 4 ≤ (m.val : ℝ)) (high : (m.val : ℝ) < 3 / 2) :
    |(((m - 1) / (m + 1)).val : ℝ) - (m.val - 1) / (m.val + 1)| ≤ 2 * eps := by
  have tiny := eps_le
  have pos := eps_pos
  have one : (((1 : F64).val : Rat) : ℝ) = 1 := by rw [F64.val_one, Rat.cast_one]
  have small := abs_quotient_le low high
  generalize value : ((m.val : ℝ) - 1) / (m.val + 1) = z at small ⊢
  have product : z * (m.val + 1) = m.val - 1 := by rw [← value, div_mul_cancel₀ _ (by linarith)]
  have above : |((m - 1).val : ℝ) - (m.val - 1)| ≤ 0 + eps * (3 / 4) := by
    apply F64.off_sub
    · rw [one, sub_self, abs_zero]
    · rw [one]
      have : |(m.val : ℝ) - 1| ≤ 1 / 2 := abs_le.mpr ⟨by linarith, by linarith⟩
      linarith
  have below : |((m + 1).val : ℝ) - (m.val + 1)| ≤ 0 + eps * 3 := by
    apply F64.off_add
    · rw [one, sub_self, abs_zero]
    · rw [one, abs_of_pos (by linarith)]
      linarith
  generalize m - 1 = a at above ⊢
  generalize m + 1 = p at below ⊢
  rw [zero_add] at above below
  have p_low : 17 / 10 ≤ (p.val : ℝ) := by linarith [(abs_le.mp below).1]
  have top : |(a.val : ℝ) - z * p.val| ≤ eps * (27 / 20) := by
    have split : (a.val : ℝ) - z * p.val =
        (a.val - (m.val - 1)) - z * (p.val - (m.val + 1)) := by
      rw [mul_sub, product]
      ring
    have part : |z * ((p.val : ℝ) - (m.val + 1))| ≤ 1 / 5 * (eps * 3) := by
      rw [abs_mul]
      exact mul_le_mul small below (abs_nonneg _) (by norm_num)
    rw [split]
    linarith [abs_sub (a.val - (m.val - 1) : ℝ) (z * (p.val - (m.val + 1)))]
  have near : |(a.val : ℝ) / p.val - z| ≤ eps := by
    have split : (a.val : ℝ) / p.val - z = (a.val - z * p.val) / p.val := by
      rw [sub_div, mul_div_cancel_right₀ _ (by linarith)]
    rw [split, abs_div, abs_of_pos (a := (p.val : ℝ)) (by linarith), div_le_iff₀ (by linarith)]
    nlinarith
  have size : |(a.val : ℝ) / p.val| ≤ 1 / 4 := by
    have := abs_sub_abs_le_abs_sub ((a.val : ℝ) / p.val) z
    linarith
  apply (F64.off_div (1 / 2) near (by linarith)).trans
  linarith

/-- The square that the loop multiplies by. -/
theorem square_off {a : F64} {z : ℝ} (small : |z| ≤ 1 / 5) (near : |(a.val : ℝ) - z| ≤ 2 * eps) :
    |((a * a).val : ℝ) - z ^ 2| ≤ eps := by
  have tiny := eps_le
  have pos := eps_pos
  have size : |(a.val : ℝ)| ≤ 21 / 100 := by
    have := abs_sub_abs_le_abs_sub (a.val : ℝ) z
    linarith
  have exact_off : |(a.val : ℝ) * a.val - z ^ 2| ≤ eps * (41 / 50) := by
    have parts : |(a.val : ℝ) - z| * |(a.val : ℝ)| + |z| * |(a.val : ℝ) - z| ≤
        2 * eps * (21 / 100) + 1 / 5 * (2 * eps) :=
      add_le_add (mul_le_mul near size (abs_nonneg _) (by linarith))
        (mul_le_mul small near (abs_nonneg _) (by norm_num))
    rw [pow_two]
    linarith [abs_mul_sub_mul_le (a := (a.val : ℝ)) (b := a.val) (x := z) (y := z)]
  have product : |(a.val : ℝ) * a.val| ≤ 21 / 100 * (21 / 100) := by
    rw [abs_mul]
    exact mul_le_mul size size (abs_nonneg _) (by norm_num)
  apply (F64.off_mul (1 / 10) exact_off (by linarith)).trans
  linarith

theorem abs_odd_pow_le {z : ℝ} (small : |z| ≤ 1 / 5) (i : Nat) : |z ^ (2 * i + 1)| ≤ 1 / 5 := by
  rw [abs_pow]
  calc |z| ^ (2 * i + 1) ≤ |z| ^ 1 :=
        pow_le_pow_of_le_one (abs_nonneg z) (by linarith) (by omega)
    _ ≤ 1 / 5 := by rwa [pow_one]

/-- The next power. -/
theorem term_off {t z2 : F64} {z : ℝ} {i : Nat} (small : |z| ≤ 1 / 5)
    (square : |(z2.val : ℝ) - z ^ 2| ≤ eps) (term : |(t.val : ℝ) - z ^ (2 * i + 1)| ≤ 2 * eps) :
    |((t * z2).val : ℝ) - z ^ (2 * (i + 1) + 1)| ≤ 2 * eps := by
  have tiny := eps_le
  have pos := eps_pos
  have power_le := abs_odd_pow_le small i
  have square_le : |z ^ 2| ≤ 1 / 25 := by
    rw [abs_pow]
    exact (pow_le_pow_left₀ (abs_nonneg z) small 2).trans (by norm_num)
  have t_le : |(t.val : ℝ)| ≤ 21 / 100 := by
    have := abs_sub_abs_le_abs_sub (t.val : ℝ) (z ^ (2 * i + 1))
    linarith
  have z2_le : |(z2.val : ℝ)| ≤ 1 / 20 := by
    have := abs_sub_abs_le_abs_sub (z2.val : ℝ) (z ^ 2)
    linarith
  have near : |(t.val : ℝ) * z2.val - z ^ (2 * (i + 1) + 1)| ≤ eps * (3 / 10) := by
    have parts : |(t.val : ℝ) - z ^ (2 * i + 1)| * |(z2.val : ℝ)| +
        |z ^ (2 * i + 1)| * |(z2.val : ℝ) - z ^ 2| ≤ 2 * eps * (1 / 20) + 1 / 5 * eps :=
      add_le_add (mul_le_mul term z2_le (abs_nonneg _) (by linarith))
        (mul_le_mul power_le square (abs_nonneg _) (by norm_num))
    rw [show 2 * (i + 1) + 1 = 2 * i + 1 + 2 by ring, pow_add]
    have := abs_mul_sub_mul_le (a := (t.val : ℝ)) (b := z2.val) (x := z ^ (2 * i + 1)) (y := z ^ 2)
    linarith
  have product : |(t.val : ℝ) * z2.val| ≤ 21 / 100 * (1 / 20) := by
    rw [abs_mul]
    exact mul_le_mul t_le z2_le (abs_nonneg _) (by norm_num)
  apply (F64.off_mul (1 / 10) near (by linarith)).trans
  linarith

/-- A power over its exponent. -/
theorem share_off {t : F64} {z : ℝ} {i : Nat} (small : |z| ≤ 1 / 5) (few : i < 11)
    (term : |(t.val : ℝ) - z ^ (2 * i + 1)| ≤ 2 * eps) :
    |((t / ((2 * i + 1 : Nat) : F64)).val : ℝ) - z ^ (2 * i + 1) / (2 * i + 1 : Nat)| ≤
      2 * eps + eps * (1 / 4) := by
  have tiny := eps_le
  have power_le := abs_odd_pow_le small i
  have t_le : |(t.val : ℝ)| ≤ 21 / 100 := by
    have := abs_sub_abs_le_abs_sub (t.val : ℝ) (z ^ (2 * i + 1))
    linarith
  have odd : (((2 * i + 1 : Nat) : F64).val : ℝ) = (2 * i + 1 : Nat) := by
    rw [F64.val_natCast (by omega), Rat.cast_natCast]
  have one_le : (1 : ℝ) ≤ (2 * i + 1 : Nat) := by exact_mod_cast (by omega : 1 ≤ 2 * i + 1)
  generalize ((2 * i + 1 : Nat) : ℝ) = n at odd one_le ⊢
  have n_pos : 0 < n := by linarith
  apply F64.off_div
  · rw [odd, ← sub_div, abs_div, abs_of_pos n_pos]
    exact (div_le_self (abs_nonneg _) one_le).trans term
  · rw [odd, abs_div, abs_of_pos n_pos]
    have := div_le_self (abs_nonneg (t.val : ℝ)) one_le
    linarith

/-- One turn, for the odd number of index `i`. -/
theorem seriesTurn_off {z2 : F64} {z : ℝ} (small : |z| ≤ 1 / 5)
    (square : |(z2.val : ℝ) - z ^ 2| ≤ eps) {i : Nat} (few : i < 11) {s : F64 × F64}
    (term : |(s.1.val : ℝ) - z ^ (2 * i + 1)| ≤ 2 * eps)
    (sum : |(s.2.val : ℝ) - logSeries i z| ≤ 3 * i * eps) :
    |((seriesTurn z2 s (2 * i + 1)).1.val : ℝ) - z ^ (2 * (i + 1) + 1)| ≤ 2 * eps ∧
      |((seriesTurn z2 s (2 * i + 1)).2.val : ℝ) - logSeries (i + 1) z| ≤
        3 * (i + 1 : Nat) * eps := by
  have tiny := eps_le
  have pos := eps_pos
  obtain ⟨t, p⟩ := s
  dsimp only at term sum
  refine ⟨term_off small square term, ?_⟩
  have partial_le := abs_logSeries_le small (i + 1)
  have few_real : (i : ℝ) ≤ 10 := by exact_mod_cast (by omega : i ≤ 10)
  have count : 3 * (i : ℝ) * eps ≤ 30 * eps := by nlinarith
  have near : |(p.val : ℝ) + (t / ((2 * i + 1 : Nat) : F64)).val - logSeries (i + 1) z| ≤
      3 * i * eps + (2 * eps + eps * (1 / 4)) := by
    rw [logSeries_succ, add_sub_add_comm]
    exact (abs_add_le _ _).trans (add_le_add sum (share_off small few term))
  apply (F64.off_add (1 / 2) near ?_).trans
  · push_cast
    linarith
  · have := abs_sub_abs_le_abs_sub ((p.val : ℝ) + (t / ((2 * i + 1 : Nat) : F64)).val)
      (logSeries (i + 1) z)
    linarith

/-- The series as it is summed up. -/
theorem series_run {z2 : F64} {z : ℝ} (small : |z| ≤ 1 / 5)
    (square : |(z2.val : ℝ) - z ^ 2| ≤ eps) (turns : Nat) {i : Nat} (few : i + turns ≤ 11)
    {s : F64 × F64} (term : |(s.1.val : ℝ) - z ^ (2 * i + 1)| ≤ 2 * eps)
    (sum : |(s.2.val : ℝ) - logSeries i z| ≤ 3 * i * eps) :
    |((((List.range' i turns).map (2 * · + 1)).foldl (seriesTurn z2) s).2.val : ℝ) -
      logSeries (i + turns) z| ≤ 3 * (i + turns : Nat) * eps := by
  induction turns generalizing i s with
  | zero => exact sum
  | succ turns ih =>
    obtain ⟨term', sum'⟩ := seriesTurn_off small square (by omega) term sum
    have run := ih (by omega) term' sum'
    rwa [Nat.add_right_comm i 1 turns] at run

/-- Eleven terms are enough. -/
theorem abs_series_sub_log_le {x : ℝ} (low : 3 / 4 ≤ x) (high : x < 3 / 2) :
    |2 * logSeries 11 ((x - 1) / (x + 1)) - Real.log x| ≤ 2 * eps := by
  have small := abs_quotient_le low high
  have rest := abs_logSeries_sub_le (small.trans_lt (by norm_num)) 11
  have inverse : (1 + (x - 1) / (x + 1)) / (1 - (x - 1) / (x + 1)) = x := by
    have : x + 1 ≠ 0 := by linarith
    field_simp
    ring
  rw [inverse] at rest
  generalize (x - 1) / (x + 1) = z at small rest ⊢
  have square : z ^ 2 ≤ 1 / 25 := by
    rw [← sq_abs]
    exact (pow_le_pow_left₀ (abs_nonneg z) small 2).trans (by norm_num)
  apply rest.trans
  rw [div_le_iff₀ (by linarith), F64.eps_eq]
  calc 2 * |z| * (z ^ 2) ^ 11 ≤ 2 * (1 / 5) * (1 / 25) ^ 11 :=
        mul_le_mul (by linarith) (pow_le_pow_left₀ (sq_nonneg z) square 11) (by positivity)
          (by norm_num)
    _ ≤ 2 * (1 / 2 ^ 53) * (1 - 1 / 25) := by norm_num
    _ ≤ 2 * (1 / 2 ^ 53) * (1 - z ^ 2) := by nlinarith

/-- What `dlog` sums up for the number `m`. -/
def seriesSum (m : F64) : F64 :=
  let z := (m - 1) / (m + 1)
  (((List.range' 0 11).map (2 * · + 1)).foldl (seriesTurn (z * z)) (z, 0)).2

/-- The logarithm of a number around 1. -/
theorem seriesSum_off {m : F64} (low : 3 / 4 ≤ (m.val : ℝ)) (high : (m.val : ℝ) < 3 / 2) :
    |((2 * seriesSum m).val : ℝ) - Real.log m.val| ≤ 69 * eps ∧ |Real.log m.val| ≤ 51 / 100 := by
  have tiny := eps_le
  have e_pos := eps_pos
  have small := abs_quotient_le low high
  have quotient := quotient_off low high
  have square := square_off small quotient
  have series := abs_series_sub_log_le low high
  have sum := series_run small square 11 (i := 0) (by omega) (s := ((m - 1) / (m + 1), 0))
    (by rw [Nat.mul_zero, Nat.zero_add, pow_one]; exact quotient) (by simp)
  have value : (((List.range' 0 11).map (2 * · + 1)).foldl
      (seriesTurn ((m - 1) / (m + 1) * ((m - 1) / (m + 1)))) ((m - 1) / (m + 1), 0)).2 =
    seriesSum m := rfl
  rw [value] at sum
  generalize ((m.val : ℝ) - 1) / (m.val + 1) = w at small series sum
  generalize seriesSum m = s at sum ⊢
  have partial_le := abs_logSeries_le small 11
  push_cast at sum
  have two : (((2 : F64).val : Rat) : ℝ) = 2 := by rw [F64.val_two, Rat.cast_ofNat]
  have twice : |((2 * s : F64).val : ℝ) - 2 * logSeries 11 w| ≤ 66 * eps + eps * (3 / 4) := by
    apply F64.off_mul
    · rw [two, ← mul_sub, abs_mul, abs_two]
      linarith
    · rw [two, abs_mul, abs_two]
      have := abs_sub_abs_le_abs_sub (s.val : ℝ) (logSeries 11 w)
      linarith
  constructor
  · have := abs_sub_le ((2 * s : F64).val : ℝ) (2 * logSeries 11 w) (Real.log m.val)
    linarith
  · have := abs_sub_abs_le_abs_sub (Real.log m.val) (2 * logSeries 11 w)
    rw [abs_sub_comm (Real.log m.val), abs_mul, abs_two] at this
    linarith

/-! ## The whole -/

theorem ln2_off : |(LN_2.val : ℝ) - Real.log 2| ≤ eps := by
  have near : |LN_2.val - 2 * logSeries 20 (1 / 3)| ≤ 1 / 2 ^ 54 := by decide +kernel
  have near_real : ((|LN_2.val - 2 * logSeries 20 (1 / 3)| : Rat) : ℝ) ≤ (1 / 2 ^ 54 : Rat) :=
    Rat.cast_le.mpr near
  rw [Rat.cast_abs, Rat.cast_sub, Rat.cast_div, Rat.cast_one, Rat.cast_pow, Rat.cast_ofNat]
    at near_real
  have series := abs_logSeries_two_sub_le
  have total := abs_sub_le (LN_2.val : ℝ) ((2 * logSeries 20 (1 / 3) : Rat) : ℝ) (Real.log 2)
  rw [F64.eps_eq]
  linarith

/-- The exponent is off by nothing more than its rounding. -/
theorem exponent_off (e : Int) :
    |(((e : F64) * LN_2).val : ℝ) - e * Real.log 2| ≤ 4 * eps * |(e : ℝ)| + 3 * eps := by
  have tiny := eps_le
  have pos := eps_pos
  have value : ((e : F64).val : ℝ) = ((F64.ofRat (e : Rat)).val : ℝ) := rfl
  have cast : |((e : F64).val : ℝ) - e| ≤ 0 + eps * (|(e : ℝ)| + eps) := by
    rw [value]
    apply F64.off_ofRat
    · rw [Rat.cast_intCast, sub_self, abs_zero]
    · rw [Rat.cast_intCast]
  have ln2 := ln2_off
  have ln2_le : |(LN_2.val : ℝ)| ≤ 7 / 10 := by
    have := abs_sub_abs_le_abs_sub (LN_2.val : ℝ) (Real.log 2)
    rw [abs_of_pos (Real.log_pos (by norm_num : (1 : ℝ) < 2))] at this
    linarith [Real.log_two_lt_d9]
  have size := abs_nonneg (e : ℝ)
  have near : |((e : F64).val : ℝ) * LN_2.val - e * Real.log 2| ≤
      eps * (|(e : ℝ)| + eps) * (7 / 10) + |(e : ℝ)| * eps := by
    have parts : |((e : F64).val : ℝ) - e| * |(LN_2.val : ℝ)| +
        |(e : ℝ)| * |(LN_2.val : ℝ) - Real.log 2| ≤
          eps * (|(e : ℝ)| + eps) * (7 / 10) + |(e : ℝ)| * eps :=
      add_le_add (mul_le_mul (cast.trans_eq (zero_add _)) ln2_le (abs_nonneg _) (by positivity))
        (mul_le_mul_of_nonneg_left ln2 size)
    exact abs_mul_sub_mul_le.trans parts
  have product : |((e : F64).val : ℝ) * LN_2.val| ≤ (|(e : ℝ)| + eps * (|(e : ℝ)| + eps)) := by
    have whole : |((e : F64).val : ℝ)| ≤ |(e : ℝ)| + eps * (|(e : ℝ)| + eps) := by
      have := abs_sub_abs_le_abs_sub ((e : F64).val : ℝ) e
      linarith
    rw [abs_mul]
    exact (mul_le_of_le_one_right (abs_nonneg _) (by linarith)).trans whole
  apply (F64.off_mul (2 * |(e : ℝ)| + 2 * eps) near (by nlinarith)).trans
  nlinarith

/-- What the loops of `dlog` leave, and what it makes of that. -/
theorem dlog_parts {x y : F64} (run : dlog x = .ok y) :
    ∃ (m : F64) (e : Int), (x.val : ℝ) = m.val * 2 ^ e ∧ 3 / 4 ≤ (m.val : ℝ) ∧
      (m.val : ℝ) < 3 / 2 ∧ y = (e : F64) * LN_2 + 2 * seriesSum m := by
  have odds : [1, 3, 5, 7, 9, 11, 13, 15, 17, 19, 21] = (List.range' 0 11).map (2 * · + 1) := rfl
  rw [dlog, odds] at run
  obtain ⟨⟨m₁, e₁⟩, halved, run⟩ := exec_bind_eq_ok.mp run
  obtain ⟨⟨m, e⟩, doubled, run⟩ := exec_bind_eq_ok.mp run
  obtain ⟨scaled₁, lt₁, _⟩ := halveLoop_value halved
  obtain ⟨scaled, low, high⟩ := doubleLoop_value lt₁ doubled
  refine ⟨m, e, ?_, ?_, ?_, (Except.ok.inj run).symm⟩
  · have exact_eq := congrArg (Rat.cast : Rat → ℝ) (scaled.trans scaled₁)
    push_cast at exact_eq
    rw [exact_eq, mul_one]
  · have : ((3 / 4 : Rat) : ℝ) ≤ m.val := Rat.cast_le.mpr low
    push_cast at this
    exact this
  · have : (m.val : ℝ) < ((3 / 2 : Rat) : ℝ) := Rat.cast_lt.mpr high
    push_cast at this
    exact this

theorem dlog_off {x : F64} (pos : 0 < x) :
    ∃ y, dlog x = .ok y ∧
      |(y.val : ℝ) - Real.log x.val| ≤ 128 * eps * (1 + |Real.log x.val|) := by
  obtain ⟨y, run⟩ := dlog_ok pos
  refine ⟨y, run, ?_⟩
  obtain ⟨m, e, value, low, high, rfl⟩ := dlog_parts run
  have tiny := eps_le
  have e_pos := eps_pos
  obtain ⟨series, log_m⟩ := seriesSum_off low high
  have exponent := exponent_off e
  have log_eq : Real.log x.val = e * Real.log 2 + Real.log m.val := by
    rw [value, Real.log_mul (by linarith) (zpow_ne_zero _ two_ne_zero), Real.log_zpow, add_comm]
  have exponent_le : 69 / 100 * |(e : ℝ)| ≤ |Real.log x.val| + 51 / 100 := by
    have ln2 := Real.log_two_gt_d9
    have split : |(e : ℝ)| * Real.log 2 = |Real.log x.val - Real.log m.val| := by
      rw [log_eq, add_sub_cancel_right, abs_mul, abs_of_pos (a := Real.log 2) (by linarith)]
    have := abs_sub (Real.log x.val) (Real.log m.val)
    nlinarith [abs_nonneg (e : ℝ)]
  generalize (e : F64) * LN_2 = p at exponent ⊢
  generalize 2 * seriesSum m = q at series ⊢
  have near : |(p.val : ℝ) + q.val - Real.log x.val| ≤ 4 * eps * |(e : ℝ)| + 72 * eps := by
    rw [log_eq, add_sub_add_comm]
    linarith [abs_add_le ((p.val : ℝ) - e * Real.log 2) (q.val - Real.log m.val)]
  have size : |(p.val : ℝ) + q.val| + eps ≤ |Real.log x.val| + |(e : ℝ)| + 1 := by
    have := abs_sub_abs_le_abs_sub ((p.val : ℝ) + q.val) (Real.log x.val)
    nlinarith [abs_nonneg (e : ℝ)]
  apply (F64.off_add _ near size).trans
  nlinarith [abs_nonneg (Real.log x.val)]

/-- The logarithm is accurate, to some forty-six bits. -/
theorem dlog_accurate {x : F64} (pos : 0 < x) :
    ∃ y, dlog x = .ok y ∧
      |(y.val : ℝ) - Real.log x.val| ≤ 1 / 2 ^ 46 * (1 + |Real.log x.val|) := by
  have unit : (1 : ℝ) / 2 ^ 46 = 128 * eps := by
    rw [F64.eps_eq]
    norm_num
  rw [unit]
  exact dlog_off pos

theorem dlog_accurate_two :
    ∃ y, dlog 2 = .ok y ∧ |(y.val : ℝ) - Real.log (2 : F64).val| ≤
      1 / 2 ^ 46 * (1 + |Real.log (2 : F64).val|) :=
  dlog_accurate (by decide +kernel)

end DeOptiTransfer
