import Mathlib.Algebra.Group.Nat.Defs
import Mathlib.Tactic.Common

/-!
# Unsigned arithmetic

Division rounding up, and checked and saturating operations on a 64-bit machine
word.
-/

namespace DeOptiTransfer

/-- `a.div_ceil(b)`, for `b` not zero -/
def divCeil (a b : Nat) : Nat := a / b + if a % b > 0 then 1 else 0

/-- `usize::MAX` -/
def usizeMax : Nat := 2 ^ 64 - 1

/-- `a.checked_add(b)` -/
def checkedAdd (a b : Nat) : Option Nat := if a + b ≤ usizeMax then some (a + b) else none

def saturatingAdd (a b : Nat) : Nat := min (a + b) usizeMax

def saturatingMul (a b : Nat) : Nat := min (a * b) usizeMax

theorem le_divCeil_mul (a : Nat) {b : Nat} (h : 0 < b) : a ≤ divCeil a b * b := by
  have := Nat.div_add_mod a b
  have := Nat.mod_lt a h
  unfold divCeil
  split <;> rw [Nat.add_mul, Nat.mul_comm (a / b)] <;> omega

theorem divCeil_pos {a b : Nat} (ha : 0 < a) (hb : 0 < b) : 0 < divCeil a b := by
  have := le_divCeil_mul a hb
  rcases Nat.eq_zero_or_pos (divCeil a b) with zero | pos
  · rw [zero] at this
    omega
  · exact pos

/-- All blocks but the last start inside. -/
theorem mul_lt_of_lt_divCeil {a b i : Nat} (hb : 0 < b) (h : i < divCeil a b) : i * b < a := by
  have eq := Nat.div_add_mod a b
  have lt := Nat.mod_lt a hb
  unfold divCeil at h
  have le : i ≤ a / b := by split at h <;> omega
  have := Nat.mul_le_mul_right b le
  rw [Nat.mul_comm (a / b)] at this
  rcases Nat.lt_or_eq_of_le le with lt' | rfl
  · have := Nat.mul_le_mul_right b (show i + 1 ≤ a / b from lt')
    rw [Nat.add_mul, Nat.mul_comm (a / b)] at this
    omega
  · split at h <;> omega

theorem div_lt_divCeil {a b i : Nat} (hb : 0 < b) (h : i < a) : i / b < divCeil a b := by
  have := le_divCeil_mul a hb
  exact Nat.div_lt_of_lt_mul (by rw [Nat.mul_comm]; omega)

/-- Rounding up, as the adjoint of multiplication. -/
theorem divCeil_le_iff {a b c : Nat} (hb : 0 < b) : divCeil a b ≤ c ↔ a ≤ c * b := by
  constructor
  · intro le
    exact Nat.le_trans (le_divCeil_mul a hb) (Nat.mul_le_mul_right b le)
  · intro le
    by_contra more
    have := mul_lt_of_lt_divCeil hb (Nat.lt_of_not_le more)
    omega

theorem checkedAdd_eq {a b : Nat} (h : a + b < 2 ^ 64) : checkedAdd a b = some (a + b) :=
  if_pos (by unfold usizeMax; omega)

theorem saturatingAdd_eq {a b : Nat} (h : a + b < 2 ^ 64) : saturatingAdd a b = a + b :=
  Nat.min_eq_left (by unfold usizeMax; omega)

/-- Saturation does not hide an excess over a bound below the largest word. -/
theorem lt_saturatingAdd {a b m : Nat} (h : m < usizeMax) : m < saturatingAdd a b ↔ m < a + b := by
  unfold saturatingAdd
  omega

theorem saturatingMul_eq {a b : Nat} (h : a * b < 2 ^ 64) : saturatingMul a b = a * b :=
  Nat.min_eq_left (by unfold usizeMax; omega)

end DeOptiTransfer
