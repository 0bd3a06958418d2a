import Mathlib.Algebra.Order.Field.Basic
import Mathlib.Algebra.Order.Ring.Pow
import Mathlib.Tactic.Linarith
import Mathlib.Tactic.Positivity
import Mathlib.Tactic.Ring

/-!
# Relative closeness

Nonnegative numbers that are at most `n` factors of `c` apart. Where each rounding
is off by such a factor, a calculation without subtractions is off by as many
factors as it rounds.

* `Close.trans`, `Close.mul`, `Close.div`: the factors add up;
* `Close.add`, `Close.clamp`: they do not;
* `Close.of_abs`, `Close.abs_sub_le`: from absolute errors, and back.
-/

namespace DeOptiTransfer

variable {α : Type} [Field α] [LinearOrder α] [IsStrictOrderedRing α]

structure Close (c : α) (n : Nat) (a x : α) : Prop where
  nonneg : 0 ≤ x
  low : x * c ^ n ≤ a
  high : a * c ^ n ≤ x

namespace Close

section
variable {c : α} {n m : Nat} {a b x y : α}

omit [IsStrictOrderedRing α] in
theorem refl (c : α) (nonneg : 0 ≤ x) : Close c 0 x x :=
  ⟨nonneg, by rw [pow_zero, mul_one], by rw [pow_zero, mul_one]⟩

variable (pos : 0 < c)
include pos

theorem nonneg_left (h : Close c n a x) : 0 ≤ a :=
  (mul_nonneg h.nonneg (pow_pos pos n).le).trans h.low

theorem pos_left (h : Close c n a x) (x_pos : 0 < x) : 0 < a :=
  (mul_pos x_pos (pow_pos pos n)).trans_le h.low

theorem symm (h : Close c n a x) : Close c n x a := ⟨h.nonneg_left pos, h.high, h.low⟩

theorem trans (h : Close c n a x) (h' : Close c m b a) : Close c (n + m) b x := by
  have pow_n := (pow_pos pos n).le
  have pow_m := (pow_pos pos m).le
  refine ⟨h.nonneg, ?_, ?_⟩
  · calc x * c ^ (n + m) = x * c ^ n * c ^ m := by rw [pow_add, mul_assoc]
      _ ≤ a * c ^ m := mul_le_mul_of_nonneg_right h.low pow_m
      _ ≤ b := h'.low
  · calc b * c ^ (n + m) = b * c ^ m * c ^ n := by rw [pow_add, mul_comm (c ^ n), mul_assoc]
      _ ≤ a * c ^ n := mul_le_mul_of_nonneg_right h'.high pow_n
      _ ≤ x := h.high

theorem mul (h : Close c n a x) (h' : Close c m b y) : Close c (n + m) (a * b) (x * y) := by
  have pow_m := (pow_pos pos m).le
  refine ⟨mul_nonneg h.nonneg h'.nonneg, ?_, ?_⟩
  · calc x * y * c ^ (n + m) = x * c ^ n * (y * c ^ m) := by ring
      _ ≤ a * b := mul_le_mul h.low h'.low (mul_nonneg h'.nonneg pow_m) (h.nonneg_left pos)
  · calc a * b * c ^ (n + m) = a * c ^ n * (b * c ^ m) := by ring
      _ ≤ x * y := mul_le_mul h.high h'.high (mul_nonneg (h'.nonneg_left pos) pow_m) h.nonneg

theorem inv (h : Close c n a x) (x_pos : 0 < x) : Close c n a⁻¹ x⁻¹ := by
  have a_pos := h.pos_left pos x_pos
  refine ⟨(inv_pos.mpr x_pos).le, ?_, ?_⟩
  · rw [inv_mul_le_iff₀ x_pos, ← div_eq_mul_inv, le_div_iff₀ a_pos, mul_comm]
    exact h.high
  · rw [inv_mul_le_iff₀ a_pos, ← div_eq_mul_inv, le_div_iff₀ x_pos, mul_comm]
    exact h.low

theorem div (h : Close c n a x) (h' : Close c m b y) (y_pos : 0 < y) :
    Close c (n + m) (a / b) (x / y) := by
  rw [div_eq_mul_inv, div_eq_mul_inv]
  exact h.mul pos (h'.inv pos y_pos)

omit pos in
theorem add (h : Close c n a x) (h' : Close c n b y) : Close c n (a + b) (x + y) := by
  refine ⟨add_nonneg h.nonneg h'.nonneg, ?_, ?_⟩
  · rw [add_mul]
    exact add_le_add h.low h'.low
  · rw [add_mul]
    exact add_le_add h.high h'.high

variable (le_one : c ≤ 1)
include le_one

theorem mono (h : Close c n a x) (le : n ≤ m) : Close c m a x := by
  have fewer := pow_le_pow_of_le_one pos.le le_one le
  exact ⟨h.nonneg, (mul_le_mul_of_nonneg_left fewer h.nonneg).trans h.low,
    (mul_le_mul_of_nonneg_left fewer (h.nonneg_left pos)).trans h.high⟩

theorem clamp (h : Close c n a x) (b : α) : Close c n (max a b) (max x b) := by
  have pow_n := pow_pos pos n
  have low_one := pow_le_one₀ pos.le le_one (n := n)
  have shrinks : ∀ z, 0 ≤ max z b → b * c ^ n ≤ max z b := by
    intro z nonneg
    calc b * c ^ n ≤ max z b * c ^ n := mul_le_mul_of_nonneg_right (le_max_right z b) pow_n.le
      _ ≤ max z b := mul_le_of_le_one_right nonneg low_one
  have nonneg := le_max_of_le_left (c := b) h.nonneg
  have nonneg' := le_max_of_le_left (c := b) (h.nonneg_left pos)
  refine ⟨nonneg, ?_, ?_⟩
  · rw [max_mul_of_nonneg _ _ pow_n.le]
    exact max_le (h.low.trans (le_max_left _ _)) (shrinks a nonneg')
  · rw [max_mul_of_nonneg _ _ pow_n.le]
    exact max_le (h.high.trans (le_max_left _ _)) (shrinks x nonneg)

omit pos in
theorem abs_sub_le (h : Close c n a x) (pos : 0 < c) {bound : α} (a_le : a ≤ bound)
    (x_le : x ≤ bound) : |a - x| ≤ n * (1 - c) * bound := by
  have few : 1 - n * (1 - c) ≤ c ^ n := by
    have := one_add_mul_le_pow (a := c - 1) (by linarith) n
    rw [add_sub_cancel] at this
    linarith
  have rate : 0 ≤ (n : α) * (1 - c) := mul_nonneg (Nat.cast_nonneg n) (by linarith)
  have less : ∀ {z w : α}, 0 ≤ z → z * c ^ n ≤ w → z ≤ bound → z - w ≤ n * (1 - c) * bound := by
    intro z w nonneg factor le
    have share := mul_le_mul_of_nonneg_left few nonneg
    have size := mul_le_mul_of_nonneg_left le rate
    linarith
  rw [abs_sub_le_iff]
  exact ⟨less (h.nonneg_left pos) h.high a_le, less h.nonneg h.low x_le⟩

end

/-! ## From absolute errors -/

variable {u a x : α} {n : Nat}

/-- Half as many relative errors as factors. -/
theorem one_sub_pow_le (nonneg : 0 ≤ u) (le_one : u ≤ 1) (few : 2 * n * u ≤ 1) :
    (1 - u) ^ (2 * n) * (1 + n * u) ≤ 1 ∧ (1 - u) ^ (2 * n) ≤ 1 - n * u := by
  have rate : 0 ≤ n * u := mul_nonneg (Nat.cast_nonneg n) nonneg
  have power : 0 ≤ (1 - u) ^ (2 * n) := pow_nonneg (by linarith) _
  have grows : 1 + 2 * (n * u) ≤ (1 + u) ^ (2 * n) := by
    have := one_add_mul_le_pow (a := u) (by linarith) (2 * n)
    push_cast at this
    linarith
  have square : (1 - u) ^ (2 * n) * (1 + u) ^ (2 * n) ≤ 1 := by
    rw [← mul_pow]
    have : (1 - u) * (1 + u) = 1 - u * u := by ring
    have uu := mul_nonneg nonneg nonneg
    rw [this]
    exact pow_le_one₀ (by nlinarith) (by linarith)
  have product : (1 - u) ^ (2 * n) * (1 + 2 * (n * u)) ≤ 1 :=
    (mul_le_mul_of_nonneg_left grows power).trans square
  constructor
  · nlinarith
  · have gap : 1 ≤ (1 - n * u) * (1 + 2 * (n * u)) := by nlinarith
    have : (1 - u) ^ (2 * n) * (1 + 2 * (n * u)) ≤ (1 - n * u) * (1 + 2 * (n * u)) :=
      product.trans gap
    exact le_of_mul_le_mul_right this (by linarith)

/-- From an absolute error that is a share of the exact number. -/
theorem of_abs (nonneg : 0 ≤ u) (le_one : u ≤ 1) (few : 2 * n * u ≤ 1) (x_nonneg : 0 ≤ x)
    (error : |a - x| ≤ n * u * x) : Close (1 - u) (2 * n) a x := by
  obtain ⟨up, down⟩ := one_sub_pow_le nonneg le_one few
  obtain ⟨low, high⟩ := abs_sub_le_iff.mp error
  have power : 0 ≤ (1 - u) ^ (2 * n) := pow_nonneg (by linarith) _
  refine ⟨x_nonneg, ?_, ?_⟩
  · have := mul_le_mul_of_nonneg_left down x_nonneg
    linarith
  · have above : a ≤ x * (1 + n * u) := by linarith
    calc a * (1 - u) ^ (2 * n) ≤ x * (1 + n * u) * (1 - u) ^ (2 * n) :=
          mul_le_mul_of_nonneg_right above power
      _ = x * ((1 - u) ^ (2 * n) * (1 + n * u)) := by ring
      _ ≤ x := mul_le_of_le_one_right x_nonneg up

/-- One relative error is one factor. -/
theorem of_abs_one (nonneg : 0 ≤ u) (le_one : u ≤ 1) (x_nonneg : 0 ≤ x)
    (error : |a - x| ≤ u * x) : Close (1 - u) 1 a x := by
  obtain ⟨low, high⟩ := abs_sub_le_iff.mp error
  refine ⟨x_nonneg, ?_, ?_⟩
  · rw [pow_one]
    linarith
  · have above : a ≤ x * (1 + u) := by linarith
    have factor : 0 ≤ 1 - u := by linarith
    have square : (1 + u) * (1 - u) ≤ 1 := by nlinarith
    calc a * (1 - u) ^ 1 ≤ x * (1 + u) * (1 - u) ^ 1 :=
          mul_le_mul_of_nonneg_right above (by rwa [pow_one])
      _ = x * ((1 + u) * (1 - u)) := by ring
      _ ≤ x := mul_le_of_le_one_right x_nonneg square

end Close

end DeOptiTransfer
