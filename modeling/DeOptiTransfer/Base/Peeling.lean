import Mathlib.Order.Bounds.Basic
import Mathlib.Data.Set.Insert
import Mathlib.Tactic.Common

/-!
# Peeling

An equation relates the unknowns of its index set. When all but one of them
are known, the last one follows. The unknowns this rule reaches from a set of
equations do not depend on the order in which the equations are used:

* `PeelClosed`: no equation has exactly one unknown left;
* `Solvable`: what the rule derives;
* `solvable_isLeast`: the derivable unknowns are the least closed set;
* `peelClosed_of_settled`: a stuck run, where every equation is used up or has
  two unknowns left, has reached a closed set.
-/

namespace DeOptiTransfer

section
variable {ι β : Type} (I : ι → Set β) (S : Set ι)

/-- An equation of `S` with exactly one element outside `P` has it in `P`. -/
def PeelClosed (P : Set β) : Prop :=
  ∀ s ∈ S, ∀ b, {c | c ∈ I s ∧ c ∉ P} = {b} → b ∈ P

/-- The unknowns that follow from the equations of `S` one at a time. -/
inductive Solvable : β → Prop
  | peel {s : ι} {b : β} (mem : s ∈ S) (index : b ∈ I s)
      (others : ∀ c ∈ I s, c ≠ b → Solvable c) : Solvable b

end

section
variable {ι β : Type} {I : ι → Set β} {S T : Set ι} {P : Set β}

theorem peelClosed_iff :
    PeelClosed I S P ↔ ∀ s ∈ S, ∀ b ∈ I s, (∀ c ∈ I s, c ≠ b → c ∈ P) → b ∈ P := by
  constructor
  · intro closed s hs b hb others
    by_contra out
    apply out
    apply closed s hs b
    ext c
    simp only [Set.mem_ofPred_eq, Set.mem_singleton_iff]
    constructor
    · rintro ⟨hc, hcP⟩
      by_contra ne
      exact hcP (others c hc ne)
    · rintro rfl
      exact ⟨hb, out⟩
  · intro closed s hs b single
    have hb : b ∈ I s ∧ b ∉ P := by
      have : b ∈ {c | c ∈ I s ∧ c ∉ P} := single ▸ Set.mem_singleton b
      exact this
    apply closed s hs b hb.1
    intro c hc ne
    by_contra out
    have : c ∈ ({b} : Set β) := single ▸ (show c ∈ {c | c ∈ I s ∧ c ∉ P} from ⟨hc, out⟩)
    exact ne this

/-- Whatever is derived lies in every closed set. -/
theorem solvable_sub_closed (closed : PeelClosed I S P) {b : β} (h : Solvable I S b) : b ∈ P := by
  induction h with
  | peel mem index _ ih => exact peelClosed_iff.mp closed _ mem _ index ih

theorem solvable_closed : PeelClosed I S {b | Solvable I S b} :=
  peelClosed_iff.mpr fun _ hs _ hb others => .peel hs hb others

/-- The end result is a least fixpoint, so it can be stated with no order of use
of the equations. -/
theorem solvable_isLeast : IsLeast {P | PeelClosed I S P} {b | Solvable I S b} :=
  ⟨solvable_closed, fun _ closed _ h => solvable_sub_closed closed h⟩

theorem solvable_mono (sub : S ⊆ T) {b : β} (h : Solvable I S b) : Solvable I T b := by
  induction h with
  | peel mem index _ ih => exact .peel (sub mem) index ih

/-- A set is closed when each equation lies inside it or has two elements
outside. -/
theorem peelClosed_of_settled
    (settled : ∀ s ∈ S, (∀ c ∈ I s, c ∈ P) ∨
      ∃ c ∈ I s, ∃ c' ∈ I s, c ≠ c' ∧ c ∉ P ∧ c' ∉ P) : PeelClosed I S P := by
  rw [peelClosed_iff]
  intro s hs b hb others
  rcases settled s hs with all | ⟨c, hc, c', hc', ne, out, out'⟩
  · exact all b hb
  · by_cases eq : c = b
    · exact absurd (others c' hc' (eq ▸ ne.symm)) out'
    · exact absurd (others c hc eq) out

end

end DeOptiTransfer
