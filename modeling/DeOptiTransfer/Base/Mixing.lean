import Mathlib.Data.LawfulXor.Basic
import Mathlib.Data.FinEnum
import Mathlib.Data.UInt
import Mathlib.Tactic.Common

/-!
# Invertible mixing of 32-bit words

The steps integer hash functions are made of lose no information:

* `xorShift_injective`: `x ^ (x >> s)` for a shift of 1 to 31;
* `mul_injective_of_inverse`: multiplication by a constant with an inverse;
* `mul_low_bits_injective`: nor do the low bits of such a product;
* `weyl_surjective`: a counter that advances by such a constant meets every
  word within `2^32` steps.
-/

namespace DeOptiTransfer

theorem xorShift_injective {s : UInt32} (pos : 0 < s.toNat) (lt : s.toNat < 32) :
    Function.Injective fun x : UInt32 => x ^^^ (x >>> s) := by
  intro x y h
  -- the difference of two preimages equals its own shift, so it is zero
  have fixed : (x ^^^ y) >>> s = x ^^^ y := by
    rw [UInt32.shiftRight_xor]
    have : x ^^^ (x >>> s) = y ^^^ (y >>> s) := h
    calc x >>> s ^^^ y >>> s
        = x ^^^ (x ^^^ x >>> s) ^^^ y >>> s := by rw [xor_cancel_left]
      _ = x ^^^ (y ^^^ y >>> s) ^^^ y >>> s := by rw [this]
      _ = x ^^^ y := by rw [xor_assoc, xor_cancel_right]
  have value := congrArg UInt32.toNat fixed
  rw [UInt32.toNat_shiftRight, Nat.mod_eq_of_lt lt, Nat.shiftRight_eq_div_pow] at value
  have zero : (x ^^^ y).toNat = 0 := by
    by_contra ne
    have := Nat.div_lt_self (Nat.pos_of_ne_zero ne) (Nat.one_lt_two_pow (Nat.pos_iff_ne_zero.mp pos))
    omega
  exact xor_eq_zero_iff.mp (UInt32.toNat_inj.mp zero)

theorem mul_injective_of_inverse {c i : UInt32} (h : c * i = 1) :
    Function.Injective fun x : UInt32 => x * c := by
  intro x y hxy
  have : x * c * i = y * c * i := congrArg (· * i) hxy
  simpa only [UInt32.mul_assoc, h, UInt32.mul_one] using this

/-- The low bits of a product with such a constant determine the low bits of
the other factor. -/
theorem mul_low_bits_injective {c i : UInt32} (h : c * i = 1) {t : Nat} (ht : t ≤ 32)
    {x y : UInt32} (same : (x * c).toNat % 2 ^ t = (y * c).toNat % 2 ^ t) :
    x.toNat % 2 ^ t = y.toNat % 2 ^ t := by
  have low : ∀ z : UInt32, z.toNat % 2 ^ t = ((z * c).toNat % 2 ^ t * i.toNat) % 2 ^ t := by
    intro z
    have undo : z * c * i = z := by rw [UInt32.mul_assoc, h, UInt32.mul_one]
    calc z.toNat % 2 ^ t
        = (z * c * i).toNat % 2 ^ t := by rw [undo]
      _ = ((z * c).toNat * i.toNat) % 2 ^ t := by
          rw [UInt32.toNat_mul, Nat.mod_mod_of_dvd _ (Nat.pow_dvd_pow 2 ht)]
      _ = ((z * c).toNat % 2 ^ t * i.toNat) % 2 ^ t := by rw [Nat.mod_mul_mod]
  rw [low x, low y, same]

theorem surjective_of_injective_u32 {f : UInt32 → UInt32} (h : Function.Injective f) :
    Function.Surjective f :=
  Finite.injective_iff_surjective.mp h

/-- A counter stepping by a constant with an inverse meets every word. -/
theorem weyl_surjective {c i : UInt32} (h : c * i = 1) (start v : UInt32) :
    ∃ n : Nat, n < 2 ^ 32 ∧ start + UInt32.ofNat n * c = v := by
  refine ⟨((v - start) * i).toNat, UInt32.toNat_lt _, ?_⟩
  rw [UInt32.ofNat_toNat, UInt32.mul_assoc, UInt32.mul_comm i c, h, UInt32.mul_one,
    UInt32.add_comm, UInt32.sub_add_cancel]

end DeOptiTransfer
