import DeOptiTransfer.Soliton.Logarithm

/-!
# The robust soliton distribution of the reals

The distribution that `soliton_cdf` tabulates, without rounding, and how close the
table is to it. A rounding can move the spike to the next degree, so the table is
compared with the distribution for a number `r` that is next to the nominal one.

* `RobustSoliton`: the distribution;
* `dlog_near`, `rho_near`, `tau_near`: the parts of the program;
* `addDegrees_near`: the totals of the loop;
* `soliton_accurate`: the table.
-/

namespace DeOptiTransfer

namespace RobustSoliton

/-- The program's constant, which a double holds exactly. -/
noncomputable def delta : ℝ := (SOLITON_DELTA.val : Rat)

/-- The nominal number of blocks that one more frame can free. -/
noncomputable def ripple (k : Nat) : ℝ := max (1 / 10 * Real.log (k / delta) * √k) 1

/-- The degree of the extra share. -/
noncomputable def spike (r : ℝ) (k : Nat) : Nat := min ⌈k / r⌉₊ k

noncomputable def rho (k d : Nat) : ℝ := if d = 1 then 1 / k else 1 / (d * (d - 1) : Nat)

noncomputable def tau (r : ℝ) (k d : Nat) : ℝ :=
  if d < spike r k then r / (d * k : Nat)
  else if d = spike r k then r * Real.log (r / delta) / k
  else 0

/-- What the degrees up to `d` weigh. -/
noncomputable def total (r : ℝ) (k d : Nat) : ℝ :=
  ∑ i ∈ Finset.range d, (rho k (i + 1) + tau r k (i + 1))

/-- The share of the degrees up to `d`. -/
noncomputable def cdf (r : ℝ) (k d : Nat) : ℝ := total r k d / total r k k

variable {r : ℝ} {k d : Nat}

theorem rho_nonneg (k d : Nat) : 0 ≤ rho k d := by
  unfold rho
  split_ifs <;> positivity

theorem delta_eq : delta = 1 / 2 := by
  have value : SOLITON_DELTA.val = 1 / 2 := by decide +kernel
  rw [delta, value]
  norm_num

theorem log_pos (one_le : 1 ≤ r) : 69 / 100 ≤ Real.log (r / delta) := by
  have two_le : 2 ≤ r / delta := by
    rw [delta_eq]
    linarith
  have := Real.log_le_log two_pos two_le
  linarith [Real.log_two_gt_d9]

theorem tau_nonneg (one_le : 1 ≤ r) (k d : Nat) : 0 ≤ tau r k d := by
  have := log_pos one_le
  unfold tau
  split_ifs <;> positivity

theorem total_succ (r : ℝ) (k d : Nat) :
    total r k (d + 1) = total r k d + (rho k (d + 1) + tau r k (d + 1)) :=
  Finset.sum_range_succ _ d

theorem total_mono (one_le : 1 ≤ r) {e : Nat} (le : d ≤ e) : total r k d ≤ total r k e := by
  apply Finset.sum_le_sum_of_subset_of_nonneg
  · exact Finset.range_subset_range.mpr le
  · exact fun i _ _ => add_nonneg (rho_nonneg _ _) (tau_nonneg one_le _ _)

theorem total_pos (one_le : 1 ≤ r) (k_pos : 0 < k) (pos : 0 < d) : 0 < total r k d := by
  have first : 0 < rho k 1 := by
    rw [rho, if_pos rfl]
    positivity
  have one : rho k 1 ≤ total r k 1 := by
    rw [total, Finset.sum_range_one]
    exact le_add_of_nonneg_right (tau_nonneg one_le _ _)
  exact first.trans_le (one.trans (total_mono one_le pos))

theorem cdf_le_one (one_le : 1 ≤ r) (k_pos : 0 < k) (le : d ≤ k) : cdf r k d ≤ 1 :=
  (div_le_one (total_pos one_le k_pos k_pos)).mpr (total_mono one_le le)

end RobustSoliton

open F64 (eps eps_pos eps_le Near factor_pos factor_le_one)

/-! ## The logarithm of a number that is off -/

/-- Logarithms turn factors into an absolute error. -/
theorem abs_log_sub_le {a x : ℝ} {n : Nat} (h : Close (1 - eps) n a x) (pos : 0 < x) :
    |Real.log a - Real.log x| ≤ 2 * n * eps := by
  have a_pos := h.pos_left factor_pos pos
  have factor : -(2 * eps) ≤ Real.log (1 - eps) := by
    have := Real.one_sub_inv_le_log_of_pos factor_pos
    have inverse : (1 - eps)⁻¹ ≤ 1 + 2 * eps := by
      rw [inv_le_iff_one_le_mul₀ factor_pos]
      nlinarith [eps_pos, eps_le]
    linarith
  have powers : ∀ {y z : ℝ}, 0 < y → y * (1 - eps) ^ n ≤ z →
      Real.log y - 2 * n * eps ≤ Real.log z := by
    intro y z y_pos le
    have power := pow_pos factor_pos n
    have := Real.log_le_log (mul_pos y_pos power) le
    rw [Real.log_mul y_pos.ne' power.ne', Real.log_pow] at this
    have count := mul_le_mul_of_nonneg_left factor (Nat.cast_nonneg (α := ℝ) n)
    linarith
  have low := powers pos h.low
  have high := powers a_pos h.high
  rw [abs_sub_le_iff]
  constructor <;> linarith

theorem dlog_near {a : F64} {x : ℝ} {n : Nat} (h : Near n a x) (few : n ≤ 2) (two_le : 2 ≤ x) :
    ∃ y, dlog a = .ok y ∧ Near 660 y (Real.log x) := by
  have tiny := eps_le
  have pos := eps_pos
  have x_pos : 0 < x := by linarith
  have a_pos : 0 < a := by
    rw [F64.pos_iff]
    exact_mod_cast h.pos_left factor_pos x_pos
  obtain ⟨y, run, accurate⟩ := dlog_off a_pos
  have shift := abs_log_sub_le h x_pos
  have few_real : (n : ℝ) ≤ 2 := by exact_mod_cast few
  have log_x : 69 / 100 ≤ Real.log x := by
    have := Real.log_le_log two_pos two_le
    linarith [Real.log_two_gt_d9]
  have log_a : |Real.log a.val| ≤ Real.log x + 2 * n * eps := by
    have := abs_sub_abs_le_abs_sub (Real.log a.val) (Real.log x)
    rw [abs_of_pos (a := Real.log x) (by linarith)] at this
    linarith
  refine ⟨y, run, .of_abs (n := 330) pos.le (by linarith) (by norm_num; linarith) (by linarith) ?_⟩
  have total := abs_sub_le (y.val : ℝ) (Real.log a.val) (Real.log x)
  have small : 2 * (n : ℝ) * eps ≤ 4 * eps := by nlinarith
  push_cast
  nlinarith

/-! ## The weights -/

theorem near_zero (n : Nat) : Near n 0 0 := by
  rw [Near, F64.val_zero, Rat.cast_zero]
  exact .mono factor_pos factor_le_one (.refl _ (le_refl 0)) (Nat.zero_le n)

theorem near_one : Near 0 1 1 := by
  rw [Near, F64.val_one, Rat.cast_one]
  exact .refl _ zero_le_one

/-- The argument of a logarithm. -/
theorem near_div_delta {n : Nat} {a : F64} {r : ℝ} (near : Near n a r) (few : n ≤ 1)
    (one_le : 1 ≤ r) :
    Near (n + 1) (a / SOLITON_DELTA) (r / RobustSoliton.delta) ∧ 2 ≤ r / RobustSoliton.delta := by
  have delta := RobustSoliton.delta_eq
  have delta_nonneg : 0 ≤ RobustSoliton.delta := by linarith
  have self : Near 0 SOLITON_DELTA RobustSoliton.delta := .refl _ delta_nonneg
  have two_le : 2 ≤ r / RobustSoliton.delta := by
    rw [delta]
    linarith
  exact ⟨near.div self (by linarith) (by omega) (by linarith), two_le⟩

/-- The reciprocal of a count is not tiny. -/
theorem large_one_div {n : Nat} (pos : 0 < n) (lt : n < 2 ^ 53) : 1 / 10 ^ 20 ≤ 1 / (n : ℝ) := by
  apply one_div_le_one_div_of_le (by exact_mod_cast pos)
  have : (n : ℝ) ≤ 2 ^ 53 := by exact_mod_cast lt.le
  linarith

theorem near_one_div {n : Nat} (pos : 0 < n) (lt : n < 2 ^ 53) :
    Near 1 (1 / (n : F64)) (1 / (n : ℝ)) :=
  near_one.div (F64.near_natCast lt) (by exact_mod_cast pos) (by norm_num) (large_one_div pos lt)

theorem rho_near {k d : Nat} (pos : 0 < d) (le : d ≤ k) (k_le : k ≤ 65535) :
    Near 1 (rho k d) (RobustSoliton.rho k d) ∧ 1 / 10 ^ 20 ≤ RobustSoliton.rho k d := by
  unfold rho RobustSoliton.rho
  split
  · exact ⟨near_one_div (by omega) (by omega), large_one_div (by omega) (by omega)⟩
  · have some_pos : 0 < d * (d - 1) := Nat.mul_pos pos (by omega)
    have product : d * (d - 1) ≤ 65535 * 65535 := Nat.mul_le_mul (by omega) (by omega)
    exact ⟨near_one_div some_pos (by omega), large_one_div some_pos (by omega)⟩

variable {a : F64} {r : ℝ} {k : Nat}

theorem tau_near (near : Near 1 a r) (one_le : 1 ≤ r) {d : Nat} (pos : 0 < d) (le : d ≤ k)
    (k_le : k ≤ 65535) :
    ∃ t, tau a (RobustSoliton.spike r k) k d = .ok t ∧ Near 663 t (RobustSoliton.tau r k d) := by
  have log_large := RobustSoliton.log_pos one_le
  have count : ∀ {n : Nat}, 0 < n → n < 2 ^ 53 → ∀ {x : ℝ}, 1 / 2 ≤ x → 1 / 10 ^ 20 ≤ x / n := by
    intro n n_pos lt x half
    have n_real : (0 : ℝ) < n := by exact_mod_cast n_pos
    have : (n : ℝ) ≤ 2 ^ 53 := by exact_mod_cast lt.le
    rw [le_div_iff₀ n_real]
    linarith
  unfold tau RobustSoliton.tau
  split
  · have product : d * k ≤ 65535 * 65535 := Nat.mul_le_mul (by omega) (by omega)
    have product_pos : 0 < d * k := Nat.mul_pos pos (by omega)
    have quotient := near.div (F64.near_natCast (by omega : d * k < 2 ^ 53))
      (by exact_mod_cast product_pos) (by norm_num) (count product_pos (by omega) (by linarith))
    exact ⟨_, rfl, quotient.mono (by norm_num)⟩
  split
  · obtain ⟨ratio, two_le⟩ := near_div_delta near (le_refl 1) one_le
    obtain ⟨log, run, log_near⟩ := dlog_near ratio (le_refl _) two_le
    have clamped := log_near.max (near_zero 0)
    rw [max_eq_left (show 0 ≤ Real.log (r / RobustSoliton.delta) by linarith)] at clamped
    have large : 1 / 2 ≤ r * Real.log (r / RobustSoliton.delta) := by nlinarith
    have product := near.mul clamped (by norm_num) (by linarith)
    have quotient := product.div (F64.near_natCast (by omega : k < 2 ^ 53))
      (by exact_mod_cast (by omega : 0 < k)) (by norm_num) (count (by omega) (by omega) large)
    exact ⟨_, by rw [run, exec_ok_bind], quotient.mono (by norm_num)⟩
  · exact ⟨0, rfl, near_zero _⟩

/-! ## The totals -/

/-- What the loop has after the degrees up to `d`. -/
structure TotalsNear (r : ℝ) (k d : Nat) (s : F64 × List F64) : Prop where
  total : Near (664 + d) s.1 (RobustSoliton.total r k d)
  length_eq : s.2.length = d
  entry : ∀ i x, s.2[i]? = some x → Near (664 + (i + 1)) x (RobustSoliton.total r k (i + 1))

theorem addDegree_near (near : Near 1 a r) (one_le : 1 ≤ r) {d : Nat} (lt : d < k)
    (k_le : k ≤ 65535) {s : F64 × List F64} (totals : TotalsNear r k d s) :
    ∃ s', addDegree a (RobustSoliton.spike r k) k s (d + 1) = .ok s' ∧
      TotalsNear r k (d + 1) s' := by
  obtain ⟨t, run, tau_close⟩ := tau_near near one_le (Nat.succ_pos d) lt k_le
  obtain ⟨rho_close, large⟩ := rho_near (Nat.succ_pos d) lt k_le
  have tau_nonneg := RobustSoliton.tau_nonneg one_le k (d + 1)
  have weight := (rho_close.mono (by norm_num : 1 ≤ 663)).add tau_close (by norm_num) (by linarith)
  have so_far := totals.total.nonneg
  have total := totals.total.add (weight.mono (Nat.le_add_right _ d)) (by omega) (by linarith)
  rw [← RobustSoliton.total_succ] at total
  refine ⟨_, by rw [addDegree, run, exec_ok_bind], total, ?_, ?_⟩
  · rw [List.length_append, totals.length_eq, List.length_singleton]
  · intro i x found
    rw [List.getElem?_append, totals.length_eq] at found
    split at found
    · exact totals.entry i x found
    · rename_i last
      obtain ⟨index, eq⟩ := List.getElem?_eq_some_iff.mp found
      rw [List.length_singleton] at index
      rw [List.getElem_singleton] at eq
      rw [show i = d by omega, ← eq]
      exact total

theorem addDegrees_near (near : Near 1 a r) (one_le : 1 ≤ r) (k_le : k ≤ 65535) (turns : Nat)
    {d : Nat} (few : d + turns ≤ k) {s : F64 × List F64} (totals : TotalsNear r k d s) :
    ∃ s', (List.range' (d + 1) turns).foldlM (addDegree a (RobustSoliton.spike r k) k) s = .ok s' ∧
      TotalsNear r k (d + turns) s' := by
  induction turns generalizing d s with
  | zero => exact ⟨s, rfl, totals⟩
  | succ turns ih =>
    obtain ⟨s₁, turn, totals₁⟩ := addDegree_near near one_le (by omega) k_le totals
    obtain ⟨s', run, totals'⟩ := ih (by omega) totals₁
    refine ⟨s', ?_, ?_⟩
    · rw [List.range'_succ, List.foldlM_cons, turn, exec_ok_bind, run]
    · rwa [Nat.add_right_comm, Nat.add_assoc] at totals'

/-! ## The spike -/

/-- The degree of the spike is the one of a number next to the computed one. -/
theorem exists_spike (one_le : 1 ≤ a) (le : (a.val : ℝ) ≤ 10 ^ 12) (k_pos : 0 < k)
    (k_le : k ≤ 65535) :
    ∃ r, Close (1 - eps) 1 r (a.val : ℝ) ∧ 1 ≤ r ∧
      (min (⌈((k : F64) / a).val⌉ : Rat) (k : F64).val).floor.toNat = RobustSoliton.spike r k := by
  have k_real : (0 : ℝ) < k := by exact_mod_cast k_pos
  have k_val : (k : F64).val = k := F64.val_natCast (by omega)
  have one_le_rat : 1 ≤ a.val := by rwa [F64.le_def, F64.val_one] at one_le
  have one_le_real : (1 : ℝ) ≤ a.val := by exact_mod_cast one_le_rat
  have self : Near 0 a a.val := .refl _ (by linarith)
  have large : 1 / 10 ^ 20 ≤ (k : ℝ) / a.val := by
    have k_one : (1 : ℝ) ≤ k := by exact_mod_cast k_pos
    rw [le_div_iff₀ (by linarith)]
    linarith
  have quotient := (F64.near_natCast (by omega : k < 2 ^ 53)).div self (by linarith) (by norm_num)
    large
  have below : ((k : F64) / a).val ≤ k := by
    have le : (k : F64).val / a.val ≤ (k : F64).val := by
      rw [k_val]
      exact div_le_self (Nat.cast_nonneg k) one_le_rat
    have rounded := F64.ofRat_mono (div_nonneg (by rw [k_val]; exact Nat.cast_nonneg k)
      (by linarith)) le
    rw [F64.ofRat_val, F64.le_def] at rounded
    exact rounded.trans_eq k_val
  have ratio_pos : (0 : ℝ) < k / a.val := div_pos k_real (by linarith)
  have close : Close (1 - eps) 1 (((k : F64) / a).val : ℝ) (k / a.val) := quotient
  generalize ((k : F64) / a).val = q at close below
  have q_pos : (0 : ℝ) < q := close.pos_left factor_pos ratio_pos
  have undo : (k : ℝ) / (k / a.val) = a.val := div_div_cancel₀ k_real.ne'
  have back : (k : ℝ) / (k / q) = q := div_div_cancel₀ k_real.ne'
  refine ⟨k / q, ?_, ?_, ?_⟩
  · have near := Close.div factor_pos (.refl _ k_real.le) close ratio_pos
    rwa [undo] at near
  · rw [le_div_iff₀ q_pos, one_mul]
    exact_mod_cast below
  · rw [RobustSoliton.spike, back, ← Int.ceil_toNat, Rat.ceil_cast, k_val]
    have exact_min : min ((⌈q⌉ : Int) : Rat) (k : Rat) = ((min ⌈q⌉ (k : Int) : Int) : Rat) := by
      push_cast
      rfl
    rw [exact_min, Rat.floor_intCast]
    omega

theorem ripple_le {k : Nat} (pos : 0 < k) (le : k ≤ 65535) : RobustSoliton.ripple k ≤ 10 ^ 9 := by
  have k_real : (0 : ℝ) < k := by exact_mod_cast pos
  have k_le : (k : ℝ) ≤ 65535 := by exact_mod_cast le
  have log : Real.log (k / RobustSoliton.delta) ≤ k / (1 / 2) := by
    rw [RobustSoliton.delta_eq]
    exact Real.log_le_self (by positivity)
  have root : √(k : ℝ) ≤ 256 := Real.sqrt_le_iff.mpr ⟨by norm_num, by linarith⟩
  apply max_le _ (by norm_num)
  calc 1 / 10 * Real.log (k / RobustSoliton.delta) * √k ≤ 1 / 10 * (k / (1 / 2)) * 256 :=
        mul_le_mul (by linarith) root (Real.sqrt_nonneg _) (by positivity)
    _ ≤ 10 ^ 9 := by linarith

/-- The number that the program computes for the ripple. -/
theorem ripple_near {libmSqrt : F64 → F64} {k : Nat} (two_le : 2 ≤ k) (le : k ≤ 65535)
    (root : |((libmSqrt k).val : ℝ) - √k| ≤ 1 / 2 ^ 52 * √k) :
    ∃ log, dlog ((k : F64) / SOLITON_DELTA) = .ok log ∧
      Near 667 (max (SOLITON_C * log * libmSqrt k) 1) (RobustSoliton.ripple k) := by
  have k_real : (2 : ℝ) ≤ k := by exact_mod_cast two_le
  obtain ⟨ratio, large⟩ := near_div_delta (F64.near_natCast (by omega : k < 2 ^ 53))
    (by norm_num) (by linarith)
  obtain ⟨log, run, log_near⟩ := dlog_near ratio (by norm_num) large
  have log_large := RobustSoliton.log_pos (r := k) (by linarith)
  have c_near : Near 1 SOLITON_C (1 / 10) := by
    have exact_c : Close (1 - eps) 0 (((1 / 10 : Rat)) : ℝ) (1 / 10) := by
      push_cast
      exact .refl _ (by norm_num)
    exact F64.near_ofRat exact_c (by norm_num) (by norm_num)
  have root_large : 1 ≤ √(k : ℝ) := Real.one_le_sqrt.mpr (by linarith)
  have root_near : Near 4 (libmSqrt k) √k := by
    refine .of_abs (n := 2) eps_pos.le (by linarith [eps_le]) (by norm_num; linarith [eps_le])
      (by linarith) (root.trans_eq ?_)
    rw [F64.eps_eq]
    norm_num
  have scaled := c_near.mul log_near (by norm_num) (by linarith)
  have product := scaled.mul root_near (by norm_num) (by nlinarith)
  exact ⟨log, run, product.max near_one⟩

/-! ## The table -/

/-- An entry before the last, as the quotient that it is. -/
theorem entry_off (one_le : 1 ≤ r) (k_le : k ≤ 65535) {d : Nat} (pos : 0 < d) (le : d ≤ k)
    {x total : F64} (x_le : x ≤ total) (x_nonneg : 0 ≤ x)
    (x_near : Near (664 + d) x (RobustSoliton.total r k d))
    (total_near : Near (664 + k) total (RobustSoliton.total r k k)) :
    |((x / total).val : ℝ) - RobustSoliton.cdf r k d| ≤ 1 / 2 ^ 35 := by
  have tiny := eps_le
  have e_pos := eps_pos
  have all_pos := RobustSoliton.total_pos one_le (by omega : 0 < k) (by omega : 0 < k)
  have total_pos : (0 : ℝ) < total.val := Close.pos_left factor_pos total_near all_pos
  have x_real : (0 : ℝ) ≤ x.val := by exact_mod_cast F64.nonneg_iff.mp x_nonneg
  have quotient_le : (x.val : ℝ) / total.val ≤ 1 := by
    rw [div_le_one total_pos]
    exact_mod_cast F64.le_def.mp x_le
  have quotient := (Close.div factor_pos x_near total_near all_pos).abs_sub_le factor_le_one
    factor_pos quotient_le (RobustSoliton.cdf_le_one one_le (by omega) le)
  have size : |(x.val : ℝ) / total.val| + eps ≤ 2 := by
    rw [abs_of_nonneg (div_nonneg x_real total_pos.le)]
    linarith
  have few : ((664 + d + (664 + k) : Nat) : ℝ) ≤ 200000 := by
    exact_mod_cast (by omega : 664 + d + (664 + k) ≤ 200000)
  have unit : (1 : ℝ) / 2 ^ 35 = 262144 * eps := by
    rw [F64.eps_eq]
    norm_num
  rw [unit]
  apply (F64.off_div 2 quotient size).trans
  nlinarith

/-- The table of two entries or more. -/
theorem exists_table {libmSqrt : F64 → F64} {k : Nat} (two_le : 2 ≤ k) (le : k ≤ 65535)
    (root : |((libmSqrt k).val : ℝ) - √k| ≤ 1 / 2 ^ 52 * √k) :
    ∃ r s, solitonCdf libmSqrt k = .ok ((s.2.map (· / s.1)).set (k - 1) 1) ∧ 1 ≤ r ∧
      |r - RobustSoliton.ripple k| ≤ 1 / 2 ^ 42 * RobustSoliton.ripple k ∧ Totals s ∧
      TotalsNear r k k s := by
  obtain ⟨log, run, ripple_close⟩ := ripple_near two_le le root
  have one_le : 1 ≤ max (SOLITON_C * log * libmSqrt k) 1 := le_max_right _ _
  generalize ratio : max (SOLITON_C * log * libmSqrt k) 1 = a at ripple_close one_le
  have ripple_one : 1 ≤ RobustSoliton.ripple k := le_max_right _ _
  have a_le : (a.val : ℝ) ≤ 10 ^ 12 := by
    have half := F64.half_le_of_close (ripple_close.symm factor_pos) (by norm_num)
    have := ripple_le (by omega : 0 < k) le
    linarith
  obtain ⟨r, near, r_one, spike_eq⟩ := exists_spike one_le a_le (by omega) le
  have start : TotalsNear r k 0 (0, []) := by
    refine ⟨?_, rfl, fun i x found => by cases found⟩
    rw [RobustSoliton.total, Finset.sum_range_zero]
    exact near_zero _
  obtain ⟨s, loop, totals_near⟩ := addDegrees_near (near.symm factor_pos) r_one le k (by omega) start
  obtain ⟨s', loop', totals, _⟩ := addDegrees_ok one_le (RobustSoliton.spike r k) k
    (List.range' 1 k) totals_nil
  have same : s' = s := Except.ok.inj (loop'.symm.trans loop)
  subst same
  rw [Nat.zero_add] at totals_near
  refine ⟨r, s', ?_, r_one, ?_, totals, totals_near⟩
  · rw [solitonCdf, if_neg (by omega), if_neg (by omega), run, exec_ok_bind, ratio]
    dsimp only
    rw [spike_eq, loop', exec_ok_bind]
  · have close := ripple_close.trans factor_pos near
    have r_le : r ≤ 2 * RobustSoliton.ripple k := by
      have := F64.half_le_of_close (close.symm factor_pos) (by norm_num)
      linarith
    have error := close.abs_sub_le factor_le_one factor_pos r_le (by linarith)
    have unit : (1 : ℝ) / 2 ^ 42 = 2048 * eps := by
      rw [F64.eps_eq]
      norm_num
    rw [unit]
    push_cast at error
    nlinarith [eps_pos]

/-- The table is the robust soliton distribution, for a number next to the
nominal one, if the square root is accurate. -/
theorem soliton_accurate (libmSqrt : F64 → F64) {k : Nat} (pos : 0 < k) (le : k ≤ 65535)
    (root : |((libmSqrt k).val : ℝ) - √k| ≤ 1 / 2 ^ 52 * √k) :
    ∃ table r, solitonCdf libmSqrt k = .ok table ∧ table.length = k ∧ 1 ≤ r ∧
      |r - RobustSoliton.ripple k| ≤ 1 / 2 ^ 42 * RobustSoliton.ripple k ∧
      ∀ d, 0 < d → d ≤ k → ∃ x, table[d - 1]? = some x ∧
        |(x.val : ℝ) - RobustSoliton.cdf r k d| ≤ 1 / 2 ^ 35 := by
  have last : ∀ {r : ℝ}, 1 ≤ r →
      |((1 : F64).val : ℝ) - RobustSoliton.cdf r k k| ≤ 1 / 2 ^ 35 := by
    intro r one_le
    have total := RobustSoliton.total_pos one_le pos pos
    rw [RobustSoliton.cdf, div_self total.ne', F64.val_one, Rat.cast_one, sub_self, abs_zero]
    positivity
  rcases (show k = 1 ∨ 2 ≤ k by omega) with rfl | two_le
  · have one_le : 1 ≤ RobustSoliton.ripple 1 := le_max_right _ _
    refine ⟨[1], RobustSoliton.ripple 1, rfl, rfl, one_le, ?_, ?_⟩
    · rw [sub_self, abs_zero]
      positivity
    · intro d d_pos d_le
      obtain rfl : d = 1 := by omega
      exact ⟨1, rfl, last one_le⟩
  · obtain ⟨r, s, run, one_le, near, totals, totals_near⟩ := exists_table two_le le root
    refine ⟨_, r, run, ?_, one_le, near, ?_⟩
    · rw [List.length_set, List.length_map, totals_near.length_eq]
    · intro d d_pos d_le
      rcases (show d = k ∨ d < k by omega) with rfl | lt
      · refine ⟨1, ?_, last one_le⟩
        rw [List.getElem?_set_self (by rw [List.length_map, totals_near.length_eq]; omega)]
      · obtain ⟨x, found⟩ : ∃ x, s.2[d - 1]? = some x :=
          ⟨_, List.getElem?_eq_getElem (by rw [totals_near.length_eq]; omega)⟩
        have bounds := totals.bound x (List.mem_of_getElem? found)
        have x_near := totals_near.entry _ x found
        rw [Nat.sub_add_cancel d_pos] at x_near
        refine ⟨x / s.1, ?_, entry_off one_le le d_pos d_le bounds.2 bounds.1 x_near
          totals_near.total⟩
        rw [List.getElem?_set_ne (by omega), List.getElem?_map, found, Option.map_some]

end DeOptiTransfer
