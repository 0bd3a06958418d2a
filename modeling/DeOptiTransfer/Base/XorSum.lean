import Mathlib.Data.LawfulXor.Basic
import Mathlib.Data.Finset.Fold
import Mathlib.Data.Finset.Card
import Mathlib.Tactic.Common

/-!
# Exclusive or over a set

Sums where every term cancels itself. `xorSum_erase`: adding one of its own terms
to a sum takes the term out.
-/

namespace DeOptiTransfer

variable {M β : Type} [XorOp M] [Zero M] [LawfulXor M]

/-- The exclusive or of `f b` over the elements `b` of `s`. -/
def xorSum (s : Finset β) (f : β → M) : M := s.fold XorOp.xor 0 f

@[simp] theorem xorSum_empty (f : β → M) : xorSum ∅ f = 0 := rfl

@[simp] theorem xorSum_singleton (b : β) (f : β → M) : xorSum {b} f = f b := by
  rw [xorSum, Finset.fold_singleton]
  exact xor_zero (f b)

variable [DecidableEq β]

theorem xorSum_insert {s : Finset β} {b : β} (f : β → M) (hb : b ∉ s) :
    xorSum (insert b s) f = f b ^^^ xorSum s f :=
  Finset.fold_insert hb

/-- Adding one of its own terms to a sum takes the term out. -/
theorem xorSum_erase {s : Finset β} {b : β} (f : β → M) (hb : b ∈ s) :
    xorSum s f ^^^ f b = xorSum (s.erase b) f := by
  have split : xorSum s f = f b ^^^ xorSum (s.erase b) f := by
    rw [← xorSum_insert f (Finset.notMem_erase b s), Finset.insert_erase hb]
  rw [split, xor_xor_cancel_comm]

end DeOptiTransfer
