import Mathlib.Data.List.Perm.Subperm
import Mathlib.Data.Set.Card
import Mathlib.Logic.Equiv.Basic

/-!
# Selections from draws

Two ways to pick distinct entries with random numbers, as functions of the numbers
drawn.

* `arrange_bijOn`: a partial shuffle makes every arrangement, each from one choice
  of the draws;
* `collect_map`: keeping the first distinct values does not look at what they are;
* `ncard_collect_eq`: so it makes every arrangement equally often.
-/

namespace DeOptiTransfer

variable {α : Type}

/-! ## The partial shuffle -/

/-- What is left behind the first entry when it has changed places with the one `r`
places on. -/
def behind : List α → Nat → List α
  | [], _ => []
  | _ :: xs, 0 => xs
  | x :: xs, r + 1 => xs.set r x

/-- The entries that the draws put in front, one after the other. -/
def arrange : List α → List Nat → List α
  | _, [] => []
  | xs, r :: draws =>
    match xs[r]? with
    | some x => x :: arrange (behind xs r) draws
    | none => []

/-- A draw for each place, below the number of places that are left. -/
def Admissible : Nat → List Nat → Prop
  | _, [] => True
  | n, r :: draws => r < n ∧ Admissible (n - 1) draws

theorem behind_perm {xs : List α} {r : Nat} {x : α} (found : xs[r]? = some x) :
    (x :: behind xs r).Perm xs := by
  obtain ⟨lt, eq⟩ := List.getElem?_eq_some_iff.mp found
  cases xs with
  | nil => cases lt
  | cons y xs =>
    cases r with
    | zero =>
      cases eq
      exact .refl _
    | succ r =>
      have inside : r < xs.length := Nat.lt_of_succ_lt_succ lt
      have entry : xs[r] = x := eq
      have placed : behind (y :: xs) (r + 1) = xs.take r ++ y :: xs.drop (r + 1) :=
        List.set_eq_take_append_cons_drop.trans (if_pos inside)
      have split := List.take_append_drop r xs
      rw [List.drop_eq_getElem_cons inside, entry] at split
      rw [placed]
      refine (List.perm_middle.cons x).trans ((List.Perm.swap y x _).trans ?_)
      refine (List.perm_middle.symm.cons y).trans ?_
      rw [split]

theorem length_behind {xs : List α} {r : Nat} {x : α} (found : xs[r]? = some x) :
    (behind xs r).length = xs.length - 1 := by
  rw [← (behind_perm found).length_eq, List.length_cons, Nat.add_sub_cancel]

theorem arrange_cons {xs : List α} {r : Nat} {x : α} (found : xs[r]? = some x) (draws : List Nat) :
    arrange xs (r :: draws) = x :: arrange (behind xs r) draws := by
  rw [arrange, found]

theorem arrange_mem {draws : List Nat} {xs : List α} (admissible : Admissible xs.length draws) :
    (arrange xs draws).length = draws.length ∧ (arrange xs draws).Subperm xs := by
  induction draws generalizing xs with
  | nil => exact ⟨rfl, List.nil_subperm⟩
  | cons r draws ih =>
    obtain ⟨lt, admissible⟩ := admissible
    have found := List.getElem?_eq_getElem lt
    obtain ⟨count, sub⟩ := ih (length_behind found ▸ admissible)
    rw [arrange_cons found]
    refine ⟨by rw [List.length_cons, count, List.length_cons], ?_⟩
    exact ((List.subperm_cons _).mpr sub).trans (behind_perm found).subperm

/-- Different draws make different arrangements. -/
theorem arrange_injective {draws draws' : List Nat} {xs : List α} (nodup : xs.Nodup)
    (admissible : Admissible xs.length draws) (admissible' : Admissible xs.length draws')
    (length : draws.length = draws'.length) (same : arrange xs draws = arrange xs draws') :
    draws = draws' := by
  induction draws generalizing xs draws' with
  | nil => exact (List.length_eq_zero_iff.mp length.symm).symm
  | cons r draws ih =>
    cases draws' with
    | nil => cases length
    | cons r' draws' =>
      obtain ⟨lt, admissible⟩ := admissible
      obtain ⟨lt', admissible'⟩ := admissible'
      have found := List.getElem?_eq_getElem lt
      have found' := List.getElem?_eq_getElem lt'
      rw [arrange_cons found, arrange_cons found', List.cons.injEq] at same
      obtain ⟨entry, same⟩ := same
      obtain rfl : r = r' := (nodup.getElem_inj_iff).mp entry
      have rest := (behind_perm found).nodup_iff.mpr nodup
      rw [ih rest.of_cons (length_behind found ▸ admissible) (length_behind found ▸ admissible')
        (Nat.succ.inj length) same]

/-- Every arrangement is made. -/
theorem exists_arrange {out xs : List α} (sub : out.Subperm xs) :
    ∃ draws, Admissible xs.length draws ∧ arrange xs draws = out := by
  induction out generalizing xs with
  | nil => exact ⟨[], trivial, rfl⟩
  | cons x out ih =>
    obtain ⟨r, lt, entry⟩ := List.mem_iff_getElem.mp (sub.subset List.mem_cons_self)
    have found : xs[r]? = some x := List.getElem?_eq_some_iff.mpr ⟨lt, entry⟩
    have rest : (x :: out).Subperm (x :: behind xs r) := sub.trans (behind_perm found).symm.subperm
    obtain ⟨draws, admissible, eq⟩ := ih ((List.subperm_cons x).mp rest)
    exact ⟨r :: draws, ⟨lt, length_behind found ▸ admissible⟩, by rw [arrange_cons found, eq]⟩

/-- The partial shuffle is fair: each arrangement of `d` entries comes from one
choice of `d` draws. -/
theorem arrange_bijOn {xs : List α} (nodup : xs.Nodup) (d : Nat) :
    Set.BijOn (arrange xs) {draws | draws.length = d ∧ Admissible xs.length draws}
      {out | out.length = d ∧ out.Subperm xs} := by
  refine ⟨?_, ?_, ?_⟩
  · rintro draws ⟨rfl, admissible⟩
    exact arrange_mem admissible
  · rintro draws ⟨length, admissible⟩ draws' ⟨length', admissible'⟩ same
    exact arrange_injective nodup admissible admissible' (length.trans length'.symm) same
  · rintro out ⟨length, sub⟩
    obtain ⟨draws, admissible, eq⟩ := exists_arrange sub
    refine ⟨draws, ⟨?_, admissible⟩, eq⟩
    rw [← (arrange_mem admissible).1, eq, length]

/-! ## The first distinct values -/

variable [DecidableEq α]

/-- Keep the values that are new until there are `d`. -/
def collect (d : Nat) : List α → List α → List α
  | out, [] => out
  | out, v :: draws =>
    if out.length < d then
      if v ∈ out then collect d out draws else collect d (out ++ [v]) draws
    else out

theorem collect_map {β : Type} [DecidableEq β] {f : α → β} (injective : Function.Injective f)
    (d : Nat) (draws out : List α) :
    collect d (out.map f) (draws.map f) = (collect d out draws).map f := by
  induction draws generalizing out with
  | nil => rfl
  | cons v draws ih =>
    have member : f v ∈ out.map f ↔ v ∈ out := List.mem_map_of_injective injective
    have grown := ih (out ++ [v])
    rw [List.map_append, List.map_singleton] at grown
    simp only [List.map_cons, collect, List.length_map, member, ih, grown]
    split_ifs <;> rfl

/-- A relabelling that turns one arrangement into another, and keeps a set of labels
that holds them both. -/
theorem exists_relabelling {S : Set α} {A B : List α} (nodup : A.Nodup) (nodup' : B.Nodup)
    (length : A.length = B.length) (sub : ∀ a ∈ A, a ∈ S) (sub' : ∀ b ∈ B, b ∈ S) :
    ∃ σ : Equiv.Perm α, A.map σ = B ∧ ∀ a, σ a ∈ S ↔ a ∈ S := by
  induction A generalizing B with
  | nil =>
    obtain rfl := List.length_eq_zero_iff.mp length.symm
    exact ⟨Equiv.refl α, rfl, fun _ => Iff.rfl⟩
  | cons a A ih =>
    cases B with
    | nil => cases length
    | cons b B =>
      obtain ⟨fresh, nodup⟩ := List.nodup_cons.mp nodup
      obtain ⟨fresh', nodup'⟩ := List.nodup_cons.mp nodup'
      obtain ⟨σ, image, keeps⟩ := ih nodup nodup' (Nat.succ.inj length)
        (fun x mem => sub x (List.mem_cons_of_mem a mem))
        (fun x mem => sub' x (List.mem_cons_of_mem b mem))
      have from_S : σ a ∈ S := (keeps a).mpr (sub a List.mem_cons_self)
      have to_S : b ∈ S := sub' b List.mem_cons_self
      refine ⟨σ.trans (Equiv.swap (σ a) b), ?_, fun x => ?_⟩
      · rw [List.map_cons, Equiv.trans_apply, Equiv.swap_apply_left]
        congr 1
        rw [← image]
        apply List.map_congr_left
        intro x mem
        have other : σ x ≠ σ a := fun same => fresh (σ.injective same ▸ mem)
        have other' : σ x ≠ b := by
          rintro rfl
          exact fresh' (image ▸ List.mem_map_of_mem mem)
        rw [Equiv.trans_apply, Equiv.swap_apply_of_ne_of_ne other other']
      · rw [← keeps x, Equiv.trans_apply]
        by_cases left : σ x = σ a
        · rw [left, Equiv.swap_apply_left]
          exact iff_of_true to_S from_S
        by_cases right : σ x = b
        · rw [right, Equiv.swap_apply_right]
          exact iff_of_true from_S to_S
        · rw [Equiv.swap_apply_of_ne_of_ne left right]

/-- Keeping the first distinct values is fair: of all sequences of `n` draws
from a set, as many lead to one arrangement as to another. -/
theorem ncard_collect_eq {S : Set α} {A B : List α} (nodup : A.Nodup) (nodup' : B.Nodup)
    (length : A.length = B.length) (sub : ∀ a ∈ A, a ∈ S) (sub' : ∀ b ∈ B, b ∈ S) (d n : Nat) :
    {draws : List α | draws.length = n ∧ (∀ v ∈ draws, v ∈ S) ∧ collect d [] draws = A}.ncard =
      {draws : List α | draws.length = n ∧ (∀ v ∈ draws, v ∈ S) ∧ collect d [] draws = B}.ncard := by
  obtain ⟨σ, image, keeps⟩ := exists_relabelling nodup nodup' length sub sub'
  have relabelled : ∀ draws, collect d [] (draws.map σ) = (collect d [] draws).map σ :=
    fun draws => collect_map σ.injective d draws []
  refine Set.ncard_congr (fun draws _ => draws.map σ) ?_ ?_ ?_
  · rintro draws ⟨count, inside, rfl⟩
    refine ⟨by rw [List.length_map, count], ?_, by rw [relabelled, image]⟩
    intro v mem
    obtain ⟨w, drawn, rfl⟩ := List.mem_map.mp mem
    exact (keeps w).mpr (inside w drawn)
  · exact fun _ _ _ _ same => List.map_injective_iff.mpr σ.injective same
  · rintro draws ⟨count, inside, eq⟩
    have back : (draws.map σ.symm).map σ = draws := by
      rw [List.map_map, Equiv.self_comp_symm, List.map_id]
    refine ⟨draws.map σ.symm, ⟨by rw [List.length_map, count], ?_, ?_⟩, back⟩
    · intro v mem
      obtain ⟨w, drawn, rfl⟩ := List.mem_map.mp mem
      rw [← keeps, Equiv.apply_symm_apply]
      exact inside w drawn
    · apply List.map_injective_iff.mpr σ.injective
      rw [← relabelled, back, eq, image]

end DeOptiTransfer
