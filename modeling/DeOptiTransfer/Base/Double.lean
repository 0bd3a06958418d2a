import DeOptiTransfer.Base.Rounding
import Mathlib.Data.Rat.Floor
import Mathlib.Order.MinMax

/-!
# Finite doubles

`F64`, the numbers of 53 significant bits, as the rationals they stand for.
Every operation is the exact one, rounded. There is no NaN, no infinity and no
sign of zero here, and no largest number.

`F64.ofRat_mono` with `F64.ofRat_val` bounds a rounded result by any double
that bounds the exact one; `F64.abs_ofRat_sub_le` says how far the two are apart.
-/

namespace DeOptiTransfer

structure F64 where
  val : Rat
  representable : Representable 52 (-1074) val

namespace F64

/-- The nearest double. -/
def ofRat (q : Rat) : F64 := ⟨roundTo 52 (-1074) q, roundTo_representable q⟩

theorem val_injective : Function.Injective val := by
  rintro ⟨p, _⟩ ⟨q, _⟩ same
  cases same
  rfl

instance : LinearOrder F64 := LinearOrder.lift' val val_injective

instance : NatCast F64 := ⟨fun n => ofRat n⟩
instance : IntCast F64 := ⟨fun n => ofRat n⟩
instance (n : Nat) : OfNat F64 n := ⟨ofRat n⟩
instance : Add F64 := ⟨fun a b => ofRat (a.val + b.val)⟩
instance : Sub F64 := ⟨fun a b => ofRat (a.val - b.val)⟩
instance : Mul F64 := ⟨fun a b => ofRat (a.val * b.val)⟩
instance : Div F64 := ⟨fun a b => ofRat (a.val / b.val)⟩

theorem le_def {a b : F64} : a ≤ b ↔ a.val ≤ b.val := Iff.rfl

theorem lt_def {a b : F64} : a < b ↔ a.val < b.val := lt_iff_lt_of_le_iff_le le_def

@[simp] theorem ofRat_val (a : F64) : ofRat a.val = a :=
  val_injective (roundTo_of_representable a.representable)

theorem val_ofRat {q : Rat} (rep : Representable 52 (-1074) q) : (ofRat q).val = q :=
  roundTo_of_representable rep

theorem ofRat_mono {p q : Rat} (nonneg : 0 ≤ p) (le : p ≤ q) : ofRat p ≤ ofRat q :=
  roundTo_mono 52 (-1074) nonneg le

theorem val_natCast {n : Nat} (lt : n < 2 ^ 53) : (n : F64).val = n := by
  apply val_ofRat
  apply representable_intCast (n := n) (by decide)
  rw [Nat.abs_cast]
  exact_mod_cast lt

@[simp] theorem val_zero : (0 : F64).val = 0 := val_natCast (n := 0) (by decide)

@[simp] theorem val_one : (1 : F64).val = 1 := by
  exact_mod_cast val_natCast (n := 1) (by decide)

@[simp] theorem val_two : (2 : F64).val = 2 := by
  exact_mod_cast val_natCast (n := 2) (by decide)

theorem nonneg_iff {a : F64} : 0 ≤ a ↔ 0 ≤ a.val := by rw [le_def, val_zero]

theorem pos_iff {a : F64} : 0 < a ↔ 0 < a.val := by rw [lt_def, val_zero]

theorem ofRat_nonneg {q : Rat} (nonneg : 0 ≤ q) : 0 ≤ ofRat q :=
  nonneg_iff.mpr (roundTo_nonneg nonneg)

/-- The least positive double. -/
theorem two_zpow_le {a : F64} (pos : 0 < a) : (2 : Rat) ^ (-1074 : Int) ≤ a.val := by
  obtain ⟨n, e, least, -, eq⟩ := a.representable
  have positive := pos_iff.mp pos
  rw [eq] at positive ⊢
  have one_le : 1 ≤ n := by
    have := pos_of_mul_pos_left positive (two_zpow_pos e).le
    exact_mod_cast this
  calc (2 : Rat) ^ (-1074 : Int) ≤ 2 ^ e := zpow_le_zpow_right₀ one_le_two least
    _ = 1 * 2 ^ e := (one_mul _).symm
    _ ≤ n * 2 ^ e := mul_le_mul_of_nonneg_right (by exact_mod_cast one_le) (two_zpow_pos e).le

section
variable {a b c : F64}

theorem nonneg_add (ha : 0 ≤ a) (hb : 0 ≤ b) : 0 ≤ a + b :=
  ofRat_nonneg (add_nonneg (nonneg_iff.mp ha) (nonneg_iff.mp hb))

theorem nonneg_mul (ha : 0 ≤ a) (hb : 0 ≤ b) : 0 ≤ a * b :=
  ofRat_nonneg (mul_nonneg (nonneg_iff.mp ha) (nonneg_iff.mp hb))

theorem nonneg_div (ha : 0 ≤ a) (hb : 0 ≤ b) : 0 ≤ a / b :=
  ofRat_nonneg (div_nonneg (nonneg_iff.mp ha) (nonneg_iff.mp hb))

/-- A sum of doubles that are not negative is at least the first. -/
theorem le_add (ha : 0 ≤ a) (hb : 0 ≤ b) : a ≤ a + b := by
  have := ofRat_mono (nonneg_iff.mp ha) (le_add_of_nonneg_right (nonneg_iff.mp hb))
  rwa [ofRat_val] at this

theorem le_add_left (ha : 0 ≤ a) (hb : 0 ≤ b) : a ≤ b + a := by
  have := ofRat_mono (nonneg_iff.mp ha) (le_add_of_nonneg_left (nonneg_iff.mp hb))
  rwa [ofRat_val] at this

theorem div_le_div_right (ha : 0 ≤ a) (le : a ≤ b) (hc : 0 ≤ c) : a / c ≤ b / c :=
  ofRat_mono (div_nonneg (nonneg_iff.mp ha) (nonneg_iff.mp hc))
    (div_le_div_of_nonneg_right le (nonneg_iff.mp hc))

theorem div_le_one_of_le (ha : 0 ≤ a) (le : a ≤ c) : a / c ≤ 1 := by
  have hc := nonneg_iff.mp (ha.trans le)
  have := ofRat_mono (div_nonneg (nonneg_iff.mp ha) hc) (div_le_one_of_le₀ le hc)
  rwa [← val_one, ofRat_val] at this

end

/-! ## Errors -/

/-- Half the last place of 1. -/
def unit : Rat := 1 / 2 ^ 53

theorem abs_ofRat_sub_le (q : Rat) :
    |(ofRat q).val - q| ≤ max (unit * |q|) (2 ^ (-1074 : Int) / 2) := by
  have : |roundTo 52 (-1074) q - q| ≤ _ := abs_roundTo_sub_le q
  rwa [unit, one_div_mul_eq_div]

/-- For tiny results the error is not relative, but it is small. -/
theorem abs_ofRat_sub_le_add (q : Rat) : |(ofRat q).val - q| ≤ unit * (|q| + unit) := by
  have unit_nonneg : 0 ≤ unit := by norm_num [unit]
  have tiny : (2 : Rat) ^ (-1074 : Int) / 2 ≤ unit * unit := by decide +kernel
  apply (abs_ofRat_sub_le q).trans
  rw [mul_add]
  apply max_le
  · exact le_add_of_nonneg_right (mul_nonneg unit_nonneg unit_nonneg)
  · exact tiny.trans (le_add_of_nonneg_left (mul_nonneg unit_nonneg (abs_nonneg q)))

/-- Where the result is not tiny, the error is relative. -/
theorem abs_ofRat_sub_le_mul {q : Rat} (normal : 2 ^ (-1000 : Int) ≤ |q|) :
    |(ofRat q).val - q| ≤ unit * |q| := by
  apply (abs_ofRat_sub_le q).trans
  apply max_le (le_refl _)
  calc (2 : Rat) ^ (-1074 : Int) / 2 ≤ unit * 2 ^ (-1000 : Int) := by decide +kernel
    _ ≤ unit * |q| := mul_le_mul_of_nonneg_left normal (by norm_num [unit])

end F64

end DeOptiTransfer
