import DeOptiTransfer.Base.Exec
import Mathlib.Data.LawfulXor.Basic

/-!
# Programs side by side

Three runs of one program: on two inputs, and on their exclusive or. A program
that reads of its data only the lengths takes the same branches in all three,
and one that moves and adds data keeps the third the sum of the others.

* `InStep`: three computations that stop alike, with rules for sequences
  (`InStep.bind`, `InStep.share`) and loops (`InStep.foldlM`);
* `Xored`: a list that is the sum of two others, under the list operations.
-/

namespace DeOptiTransfer

/-- Three computations that stop alike. What they return is related by `R`. -/
inductive InStep {α β γ : Type} (R : α → β → γ → Prop) : Exec α → Exec β → Exec γ → Prop
  | returns {a : α} {b : β} {c : γ} (rel : R a b c) : InStep R (.ok a) (.ok b) (.ok c)
  | stops (e : Panic) : InStep R (.error e) (.error e) (.error e)

namespace InStep

variable {α β γ δ ε ζ : Type} {R : α → β → γ → Prop} {S : δ → ε → ζ → Prop} {x : Exec α}
  {y : Exec β} {z : Exec γ}

/-- Sequences of programs in step are in step. -/
theorem bind {f : α → Exec δ} {g : β → Exec ε} {h : γ → Exec ζ} (first : InStep R x y z)
    (next : ∀ a b c, R a b c → InStep S (f a) (g b) (h c)) :
    InStep S (x >>= f) (y >>= g) (z >>= h) := by
  cases first with
  | returns rel => exact next _ _ _ rel
  | stops e => exact .stops e

/-- What does not depend on the data is computed once. -/
theorem share {f : α → Exec δ} {g : α → Exec ε} {h : α → Exec ζ}
    (next : ∀ a, x = .ok a → InStep S (f a) (g a) (h a)) :
    InStep S (x >>= f) (x >>= g) (x >>= h) := by
  cases x with
  | ok a => exact next a rfl
  | error e => exact .stops e

/-- Loops over the same list are in step when their turns are. -/
theorem foldlM {ι : Type} {f : α → ι → Exec α} {g : β → ι → Exec β} {h : γ → ι → Exec γ}
    (turn : ∀ i a b c, R a b c → InStep R (f a i) (g b i) (h c i)) (l : List ι) {a : α} {b : β}
    {c : γ} (start : R a b c) : InStep R (l.foldlM f a) (l.foldlM g b) (l.foldlM h c) := by
  induction l generalizing a b c with
  | nil => exact .returns start
  | cons i rest ih =>
    simp only [List.foldlM_cons]
    exact (turn i a b c start).bind fun _ _ _ rel => ih rel

/-- When the first returns, so do the others. -/
theorem of_ok {a : α} (steps : InStep R (.ok a) y z) : ∃ b c, y = .ok b ∧ z = .ok c ∧ R a b c := by
  cases steps with
  | returns rel => exact ⟨_, _, rfl, rfl, rel⟩

end InStep

/-- `zs` is the sum of `xs` and `ys`, which have one length. -/
structure Xored {M : Type} [XorOp M] (xs ys zs : List M) : Prop where
  length_eq : ys.length = xs.length
  sum_eq : zs = List.zipWith (· ^^^ ·) xs ys

namespace Xored

section
variable {M : Type} [XorOp M] {xs ys zs xs' ys' zs' : List M}

theorem of_length (same : ys.length = xs.length) : Xored xs ys (List.zipWith (· ^^^ ·) xs ys) :=
  ⟨same, rfl⟩

theorem length_sum (h : Xored xs ys zs) : zs.length = xs.length := by
  rw [h.sum_eq, List.length_zipWith, h.length_eq, Nat.min_self]

theorem append (h : Xored xs ys zs) (h' : Xored xs' ys' zs') :
    Xored (xs ++ xs') (ys ++ ys') (zs ++ zs') := by
  constructor
  · rw [List.length_append, List.length_append, h.length_eq, h'.length_eq]
  · rw [h.sum_eq, h'.sum_eq, List.zipWith_append h.length_eq.symm]

theorem take (h : Xored xs ys zs) (n : Nat) : Xored (xs.take n) (ys.take n) (zs.take n) := by
  constructor
  · rw [List.length_take, List.length_take, h.length_eq]
  · rw [h.sum_eq, List.take_zipWith]

theorem drop (h : Xored xs ys zs) (n : Nat) : Xored (xs.drop n) (ys.drop n) (zs.drop n) := by
  constructor
  · rw [List.length_drop, List.length_drop, h.length_eq]
  · rw [h.sum_eq, List.drop_zipWith]

theorem slice (h : Xored xs ys zs) (lo hi : Nat) :
    InStep Xored (slice xs lo hi) (slice ys lo hi) (slice zs lo hi) := by
  unfold DeOptiTransfer.slice
  rw [h.length_eq, h.length_sum]
  split
  · exact .returns ((h.drop lo).take (hi - lo))
  · exact .stops _

theorem splitAtMut (h : Xored xs ys zs) (mid : Nat) :
    InStep (fun p q r => Xored p.1 q.1 r.1 ∧ Xored p.2 q.2 r.2) (splitAtMut xs mid)
      (splitAtMut ys mid) (splitAtMut zs mid) := by
  unfold DeOptiTransfer.splitAtMut
  rw [h.length_eq, h.length_sum]
  split
  · exact .returns ⟨h.take mid, h.drop mid⟩
  · exact .stops _

theorem writeSlice (h : Xored xs ys zs) (h' : Xored xs' ys' zs') (lo hi : Nat) :
    InStep Xored (writeSlice xs lo hi xs') (writeSlice ys lo hi ys') (writeSlice zs lo hi zs') := by
  unfold DeOptiTransfer.writeSlice
  rw [h.length_eq, h.length_sum, h'.length_eq, h'.length_sum]
  split
  · exact .returns (((h.take lo).append h').append (h.drop hi))
  · exact .stops _

end

section
variable {M : Type} [XorOp M] [Zero M] [LawfulXor M] {xs ys zs xs' ys' zs' : List M}

theorem replicate_zero (n : Nat) :
    Xored (List.replicate n (0 : M)) (List.replicate n 0) (List.replicate n 0) := by
  constructor
  · rfl
  · rw [List.zipWith_replicate, Nat.min_self, xor_zero]

theorem xor_xor_xor_comm (a b c d : M) : (a ^^^ b) ^^^ (c ^^^ d) = (a ^^^ c) ^^^ (b ^^^ d) := by
  rw [xor_assoc, ← xor_assoc b, xor_comm b c, xor_assoc c, ← xor_assoc]

/-- Sums of sums. -/
theorem xor (h : Xored xs ys zs) (h' : Xored xs' ys' zs') :
    Xored (List.zipWith (· ^^^ ·) xs xs') (List.zipWith (· ^^^ ·) ys ys')
      (List.zipWith (· ^^^ ·) zs zs') := by
  constructor
  · rw [List.length_zipWith, List.length_zipWith, h.length_eq, h'.length_eq]
  · rw [h.sum_eq, h'.sum_eq]
    apply List.ext_getElem
    · simp only [List.length_zipWith]
      omega
    · intro i _ _
      simp only [List.getElem_zipWith]
      exact xor_xor_xor_comm _ _ _ _

end

end Xored

end DeOptiTransfer
