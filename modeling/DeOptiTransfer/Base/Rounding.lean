import Mathlib.Algebra.Order.Floor.Ring
import Mathlib.Data.Int.Log
import Mathlib.Tactic.Linarith
import Mathlib.Tactic.Positivity
import Mathlib.Tactic.Ring

/-!
# Rounding to a binary format

Numbers with `t + 1` significant bits and exponents from `emin` on, in any
ordered field with a floor.

* `Representable`: the numbers of the format;
* `roundTo_representable`, `roundTo_of_representable`: rounding gives such a
  number, and fixes those that are;
* `roundTo_mono`: rounding keeps the order of nonnegative numbers;
* `abs_roundTo_sub_le`: how far rounding goes.
-/

namespace DeOptiTransfer

section
variable {α : Type} [Field α] (t : Nat) (emin : Int)

/-- An integer of at most `t + 1` bits times a power of two. -/
def Representable (x : α) : Prop :=
  ∃ n e : Int, emin ≤ e ∧ |n| < 2 ^ (t + 1) ∧ x = n * (2 : α) ^ e

variable {t emin}

theorem representable_zero : Representable t emin (0 : α) :=
  ⟨0, emin, le_refl _, by simp, by simp⟩

theorem representable_intCast (le : emin ≤ 0) {n : Int} (lt : |n| < 2 ^ (t + 1)) :
    Representable t emin (n : α) :=
  ⟨n, 0, le, lt, by simp⟩

theorem representable_two_zpow {e : Int} (le : emin ≤ e) : Representable t emin ((2 : α) ^ e) := by
  refine ⟨1, e, le, ?_, by simp⟩
  rw [abs_one]
  exact one_lt_pow₀ one_lt_two (by omega)

end

variable {α : Type} [Field α] [LinearOrder α] [IsStrictOrderedRing α]

theorem two_zpow_pos (e : Int) : (0 : α) < 2 ^ e := zpow_pos two_pos e

/-- A multiple of a power of two is one of every smaller power. -/
theorem exists_multiple {e f : Int} (le : e ≤ f) (n : Int) :
    ∃ m : Int, (n * 2 ^ f : α) = m * 2 ^ e := by
  obtain ⟨d, hd⟩ := Int.eq_ofNat_of_zero_le (show 0 ≤ f - e by omega)
  refine ⟨n * 2 ^ d, ?_⟩
  rw [show f = (d : Int) + e by omega, zpow_add₀ two_ne_zero, zpow_natCast]
  push_cast
  ring

variable [FloorRing α]

/-- The nearest integer, of two the even one. -/
def nearestEven (x : α) : Int :=
  if x - ⌊x⌋ < 1 / 2 then ⌊x⌋
  else if 1 / 2 < x - ⌊x⌋ then ⌊x⌋ + 1
  else if ⌊x⌋ % 2 = 0 then ⌊x⌋
  else ⌊x⌋ + 1

omit [IsStrictOrderedRing α] in
theorem floor_le_nearestEven (x : α) : ⌊x⌋ ≤ nearestEven x := by
  unfold nearestEven
  split_ifs <;> omega

omit [IsStrictOrderedRing α] in
theorem nearestEven_le (x : α) : nearestEven x ≤ ⌊x⌋ + 1 := by
  unfold nearestEven
  split_ifs <;> omega

@[simp] theorem nearestEven_intCast (n : Int) : nearestEven (n : α) = n := by
  simp [nearestEven]

theorem nearestEven_mono {x y : α} (le : x ≤ y) : nearestEven x ≤ nearestEven y := by
  rcases (Int.floor_le_floor le).lt_or_eq with lt | eq
  · calc nearestEven x ≤ ⌊x⌋ + 1 := nearestEven_le x
      _ ≤ ⌊y⌋ := lt
      _ ≤ nearestEven y := floor_le_nearestEven y
  · have rest : x - ⌊x⌋ ≤ y - ⌊y⌋ := by
      rw [eq]
      linarith
    unfold nearestEven
    rw [eq] at rest ⊢
    split_ifs <;> first | omega | linarith

/-! ## Rounding -/

section
variable (t : Nat) (emin : Int)

/-- The exponent of the last place of a number. -/
def lastPlace (x : α) : Int := max (Int.log 2 |x| - t) emin

/-- The nearest multiple of `2 ^ e`. -/
def roundAt (e : Int) (x : α) : α := nearestEven (x / (2 : α) ^ e) * (2 : α) ^ e

/-- The nearest number of the format. -/
def roundTo (x : α) : α := roundAt (lastPlace t emin x) x

end

theorem roundAt_multiple (e n : Int) : roundAt e (n * 2 ^ e : α) = n * 2 ^ e := by
  rw [roundAt, mul_div_cancel_right₀ _ (two_zpow_pos e).ne', nearestEven_intCast]

theorem roundAt_of_le {e f : Int} (le : e ≤ f) (n : Int) :
    roundAt e (n * 2 ^ f : α) = n * 2 ^ f := by
  obtain ⟨m, eq⟩ := exists_multiple (α := α) le n
  rw [eq, roundAt_multiple]

theorem roundAt_mono (e : Int) {x y : α} (le : x ≤ y) : roundAt e x ≤ roundAt e y := by
  have pos := two_zpow_pos (α := α) e
  have scaled : nearestEven (x / 2 ^ e) ≤ nearestEven (y / 2 ^ e) :=
    nearestEven_mono ((div_le_div_iff_of_pos_right pos).mpr le)
  exact mul_le_mul_of_nonneg_right (Int.cast_le.mpr scaled) pos.le

section
variable {t : Nat} {emin : Int}

/-- A number is below the first power of two that its last place allows. -/
theorem abs_lt_two_zpow (t : Nat) (emin : Int) (x : α) : |x| < (2 : α) ^ (lastPlace t emin x + t + 1) := by
  have below := Int.lt_zpow_succ_log_self (b := 2) (by decide) |x|
  push_cast at below
  apply below.trans_le
  apply zpow_le_zpow_right₀ one_le_two
  unfold lastPlace
  omega

/-- Rounding gives a number of the format. -/
theorem roundTo_representable (x : α) : Representable t emin (roundTo t emin x) := by
  have split : (2 : α) ^ (lastPlace t emin x + t + 1) =
      ((2 ^ (t + 1) : Int) : α) * 2 ^ lastPlace t emin x := by
    rw [show lastPlace t emin x + t + 1 = ((t + 1 : Nat) : Int) + lastPlace t emin x by
      push_cast; ring, zpow_add₀ two_ne_zero, zpow_natCast]
    push_cast
    rfl
  have least : emin ≤ lastPlace t emin x := le_max_right _ _
  have bound := abs_lt_two_zpow t emin x
  rw [split] at bound
  obtain ⟨low, high⟩ := abs_lt.mp bound
  rw [roundTo]
  generalize lastPlace t emin x = e at *
  have pos := two_zpow_pos (α := α) e
  have upper : nearestEven (x / 2 ^ e) ≤ 2 ^ (t + 1) := by
    rw [← nearestEven_intCast (α := α) (2 ^ (t + 1))]
    exact nearestEven_mono ((div_le_iff₀ pos).mpr high.le)
  have lower : -2 ^ (t + 1) ≤ nearestEven (x / 2 ^ e) := by
    rw [← nearestEven_intCast (α := α) (-2 ^ (t + 1))]
    apply nearestEven_mono
    rw [le_div_iff₀ pos]
    push_cast at low ⊢
    linarith
  have carry : (2 : Int) ^ (t + 1) = 2 ^ t * 2 := pow_succ 2 t
  have room : (2 : Int) ^ t < 2 ^ (t + 1) := pow_lt_pow_right₀ one_lt_two (by omega)
  -- the integer has one bit too many only if it is a power of two
  rcases (abs_le.mpr ⟨lower, upper⟩).lt_or_eq with lt | eq
  · exact ⟨_, e, least, lt, rfl⟩
  · have shift : (2 : α) ^ (e + 1) = 2 ^ e * 2 := zpow_add_one₀ two_ne_zero e
    rcases (abs_eq (by positivity)).mp eq with top | bottom
    · refine ⟨2 ^ t, e + 1, by omega, by rwa [abs_of_pos (by positivity)], ?_⟩
      rw [roundAt, top, carry, shift]
      push_cast
      ring
    · refine ⟨-2 ^ t, e + 1, by omega, by rwa [abs_neg, abs_of_pos (by positivity)], ?_⟩
      rw [roundAt, bottom, carry, shift]
      push_cast
      ring

/-- Rounding fixes the numbers of the format. -/
theorem roundTo_of_representable {x : α} (rep : Representable t emin x) : roundTo t emin x = x := by
  obtain ⟨n, e, least, small, rfl⟩ := rep
  by_cases zero : n = 0
  · simp [zero, roundTo, roundAt, nearestEven]
  · apply roundAt_of_le
    have pos := two_zpow_pos (α := α) e
    have size : |(n : α) * 2 ^ e| = |n| * 2 ^ e := by rw [abs_mul, abs_of_pos pos, Int.cast_abs]
    have below : |(n : α) * 2 ^ e| < (2 : α) ^ (e + t + 1) := by
      rw [size, show e + t + 1 = ((t + 1 : Nat) : Int) + e by push_cast; ring,
        zpow_add₀ two_ne_zero, zpow_natCast]
      exact mul_lt_mul_of_pos_right (by exact_mod_cast small) pos
    have log : Int.log 2 |(n : α) * 2 ^ e| < e + t + 1 := by
      apply (Int.lt_zpow_iff_log_lt (b := 2) (by decide) ?_).mp
      · exact_mod_cast below
      · rw [abs_pos]
        exact mul_ne_zero (Int.cast_ne_zero.mpr zero) pos.ne'
    unfold lastPlace
    omega

theorem roundTo_zero : roundTo t emin (0 : α) = 0 := roundTo_of_representable representable_zero

/-- Rounding keeps the order of nonnegative numbers. -/
theorem roundTo_mono (t : Nat) (emin : Int) {x y : α} (nonneg : 0 ≤ x) (le : x ≤ y) :
    roundTo t emin x ≤ roundTo t emin y := by
  rcases nonneg.eq_or_lt with rfl | pos
  · rw [roundTo_zero, roundTo, ← zero_mul ((2 : α) ^ lastPlace t emin y), ← Int.cast_zero,
      ← roundAt_multiple]
    apply roundAt_mono
    simpa using le
  have logs : Int.log 2 |x| ≤ Int.log 2 |y| := by
    rw [abs_of_pos pos, abs_of_pos (pos.trans_le le)]
    exact Int.log_mono_right pos le
  have places : lastPlace t emin x ≤ lastPlace t emin y := by
    unfold lastPlace
    omega
  rcases places.eq_or_lt with same | lt
  · rw [roundTo, roundTo, same]
    exact roundAt_mono _ le
  -- the leading power of two of `y` is between them, a multiple of both last places
  · have leading : lastPlace t emin y = Int.log 2 y - t := by
      have size : |y| = y := abs_of_pos (pos.trans_le le)
      unfold lastPlace at lt ⊢
      rw [size] at lt logs ⊢
      omega
    have above : (2 : α) ^ Int.log 2 y ≤ y :=
      Int.zpow_log_le_self (b := 2) (by decide) (pos.trans_le le)
    have below : x ≤ (2 : α) ^ Int.log 2 y := by
      have small := abs_lt_two_zpow t emin x
      rw [abs_of_pos pos] at small
      apply small.le.trans
      apply zpow_le_zpow_right₀ one_le_two
      omega
    have fixed : ∀ e, e ≤ Int.log 2 y → roundAt e ((2 : α) ^ Int.log 2 y) = 2 ^ Int.log 2 y := by
      intro e le
      have := roundAt_of_le (α := α) le 1
      rwa [Int.cast_one, one_mul] at this
    calc roundTo t emin x ≤ roundAt (lastPlace t emin x) ((2 : α) ^ Int.log 2 y) :=
          roundAt_mono _ below
      _ = roundAt (lastPlace t emin y) ((2 : α) ^ Int.log 2 y) := by
          rw [fixed _ (by omega), fixed _ (by omega)]
      _ ≤ roundTo t emin y := roundAt_mono _ above

theorem roundTo_nonneg {x : α} (nonneg : 0 ≤ x) : 0 ≤ roundTo t emin x := by
  have := roundTo_mono t emin (le_refl 0) nonneg
  rwa [roundTo_zero] at this

theorem abs_nearestEven_sub_le (x : α) : |(nearestEven x : α) - x| ≤ 1 / 2 := by
  have low := Int.floor_le x
  have high := Int.lt_floor_add_one x
  rw [abs_le]
  unfold nearestEven
  split_ifs <;> push_cast <;> constructor <;> linarith

theorem abs_roundAt_sub_le (e : Int) (x : α) : |roundAt e x - x| ≤ 2 ^ e / 2 := by
  have pos := two_zpow_pos (α := α) e
  have scaled : roundAt e x - x = (nearestEven (x / 2 ^ e) - x / 2 ^ e) * 2 ^ e := by
    rw [roundAt, sub_mul, div_mul_cancel₀ x pos.ne']
  rw [scaled, abs_mul, abs_of_pos pos]
  calc |(nearestEven (x / 2 ^ e) : α) - x / 2 ^ e| * 2 ^ e ≤ 1 / 2 * 2 ^ e :=
        mul_le_mul_of_nonneg_right (abs_nearestEven_sub_le _) pos.le
    _ = 2 ^ e / 2 := by ring

/-- Rounding goes half a last place: a share of the number, or half the smallest
place. -/
theorem abs_roundTo_sub_le (x : α) :
    |roundTo t emin x - x| ≤ max (|x| / 2 ^ (t + 1)) (2 ^ emin / 2) := by
  by_cases zero : x = 0
  · rw [zero, roundTo_zero, sub_zero, abs_zero, zero_div]
    exact le_max_left _ _
  apply (abs_roundAt_sub_le _ x).trans
  rcases max_cases (Int.log 2 |x| - t) emin with ⟨place, _⟩ | ⟨place, _⟩
  · have below : (2 : α) ^ Int.log 2 |x| ≤ |x| :=
      Int.zpow_log_le_self (b := 2) (by decide) (abs_pos.mpr zero)
    apply le_max_of_le_left
    rw [lastPlace, place, zpow_sub₀ two_ne_zero, zpow_natCast, pow_succ, div_div]
    exact div_le_div_of_nonneg_right below (by positivity)
  · rw [lastPlace, place]
    exact le_max_right _ _

end

end DeOptiTransfer
