import Mathlib.Dynamics.FixedPoints.Basic

/-!
# Iterations that settle

A function that takes every value to a lighter one, or leaves it as it is.

* `Settles.fixed`: applied often enough, it changes nothing more;
* `Settles.no_return`: it does not come back to a value that it has changed.
-/

namespace DeOptiTransfer

/-- Where `P` holds, `f` keeps it and leaves a value alone or makes it lighter. -/
structure Settles {α : Type} (f : α → α) (P : α → Prop) (weight : α → Nat) : Prop where
  keeps : ∀ x, P x → P (f x)
  descends : ∀ x, P x → f x = x ∨ weight (f x) < weight x

namespace Settles

variable {α : Type} {f : α → α} {P : α → Prop} {weight : α → Nat} {x : α}

theorem holds (h : Settles f P weight) (start : P x) (n : Nat) : P (f^[n] x) := by
  induction n with
  | zero => exact start
  | succ n ih =>
    rw [Function.iterate_succ_apply']
    exact h.keeps _ ih

/-- As many turns as the weight are enough. -/
theorem fixed (h : Settles f P weight) (start : P x) {n : Nat} (enough : weight x ≤ n) :
    Function.IsFixedPt f (f^[n] x) := by
  induction n generalizing x with
  | zero =>
    rcases h.descends x start with eq | lt
    · exact eq
    · omega
  | succ n ih =>
    rw [Function.iterate_succ_apply]
    rcases h.descends x start with eq | lt
    · rw [eq, Function.iterate_fixed eq]
      exact eq
    · exact ih (h.keeps x start) (by omega)

/-- Later turns change nothing. -/
theorem iterate_eq (h : Settles f P weight) (start : P x) {m n : Nat} (enough : weight x ≤ m)
    (le : m ≤ n) : f^[n] x = f^[m] x := by
  obtain ⟨d, rfl⟩ := Nat.exists_eq_add_of_le' le
  rw [Function.iterate_add_apply, Function.iterate_fixed (h.fixed start enough)]

theorem no_return (h : Settles f P weight) (start : P x) (back : f^[2] x = x) : f x = x := by
  have back : f (f x) = x := back
  rcases h.descends x start with eq | lt
  · exact eq
  · rcases h.descends (f x) (h.keeps x start) with eq | lt'
    · exact eq.symm.trans back
    · rw [back] at lt'
      omega

end Settles

end DeOptiTransfer
