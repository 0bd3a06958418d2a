import Mathlib.Data.Fintype.Card
import Mathlib.Data.Nat.Find
import Mathlib.Logic.Function.Basic
import Mathlib.Tactic.Common

/-!
# Linear probing

A table of `n` slots with wrap-around probing. Keys are looked for from their
home slot on, up to the first empty slot.

* `Table`: the slots, with the two facts that make probing exact: a key
  occupies one slot, and every slot between its home and that slot is taken;
* `Table.exists_stop`: a walk over a table with an empty slot ends;
* `Table.absent_of_empty`: a walk that ends at an empty slot has met every
  place its key could be at;
* `Table.place`: writing the key there keeps both facts;
* `at_home`: keys whose homes differ are in them, as long as a slot is empty.
-/

namespace DeOptiTransfer.Probing

variable {κ : Type}

/-- The `j`-th slot looked at for `v`. -/
def pos (n : Nat) (home : κ → Nat) (v : κ) (j : Nat) : Nat := (home v + j) % n

theorem pos_lt {n : Nat} (h : 0 < n) (home : κ → Nat) (v : κ) (j : Nat) :
    pos n home v j < n :=
  Nat.mod_lt _ h

theorem pos_succ (n : Nat) (home : κ → Nat) (v : κ) (j : Nat) :
    (pos n home v j + 1) % n = pos n home v (j + 1) := by
  simp only [pos, Nat.mod_add_mod, Nat.add_assoc]

/-- Every slot of the table is on the walk. -/
theorem exists_pos {n : Nat} (home : κ → Nat) (v : κ) {i : Nat} (h : i < n) :
    ∃ j, j < n ∧ pos n home v j = i := by
  refine ⟨(i + (n - home v % n)) % n, Nat.mod_lt _ (by omega), ?_⟩
  have hm : home v % n < n := Nat.mod_lt _ (by omega)
  rw [pos, Nat.add_mod_mod, ← Nat.mod_add_mod]
  have : home v % n + (i + (n - home v % n)) = i + n := by omega
  rw [this, Nat.add_mod_right, Nat.mod_eq_of_lt h]

structure Table (n : Nat) (home : κ → Nat) (slot : Nat → Option κ) : Prop where
  unique : ∀ i j v, i < n → j < n → slot i = some v → slot j = some v → i = j
  path : ∀ i v, i < n → slot i = some v →
    ∃ d, d < n ∧ pos n home v d = i ∧ ∀ j, j < d → slot (pos n home v j) ≠ none

/-- The first `d` slots of the walk for `v` hold other keys. -/
def Walk (n : Nat) (home : κ → Nat) (slot : Nat → Option κ) (v : κ) (d : Nat) : Prop :=
  ∀ j, j < d → ∃ w, slot (pos n home v j) = some w ∧ w ≠ v

/-- The keys of a set are exactly those in the slots. -/
def Stores (n : Nat) (slot : Nat → Option κ) (A : Finset κ) : Prop :=
  ∀ v, v ∈ A ↔ ∃ i, i < n ∧ slot i = some v

variable {n : Nat} {home : κ → Nat} {slot : Nat → Option κ} {A : Finset κ}

/-- Fewer keys than slots leave a slot empty. -/
theorem exists_empty (t : Table n home slot) (s : Stores n slot A) (lt : A.card < n) :
    ∃ i, i < n ∧ slot i = none := by
  by_contra full
  push Not at full
  have some : ∀ i : Fin n, ∃ v, slot i = some v := fun i =>
    Option.ne_none_iff_exists'.mp (full i i.isLt)
  choose key hkey using some
  have inj : Function.Injective key := by
    intro i j eq
    exact Fin.ext (t.unique i j (key i) i.isLt j.isLt (hkey i) (eq ▸ hkey j))
  have sub : Finset.univ.map ⟨key, inj⟩ ⊆ A := by
    intro v hv
    obtain ⟨i, _, rfl⟩ := Finset.mem_map.mp hv
    exact (s _).mpr ⟨i, i.isLt, hkey i⟩
  have := Finset.card_le_card sub
  rw [Finset.card_map, Finset.card_univ, Fintype.card_fin] at this
  omega

/-- The walk reaches an empty slot or its key in less than a full turn. -/
theorem exists_stop (v : κ) (empty : ∃ i, i < n ∧ slot i = none) :
    ∃ d, d < n ∧ Walk n home slot v d ∧
      (slot (pos n home v d) = none ∨ slot (pos n home v d) = some v) := by
  obtain ⟨i, hi, hempty⟩ := empty
  obtain ⟨e, he, rfl⟩ := exists_pos home v hi
  classical
  have stops : ∃ d, slot (pos n home v d) = none ∨ slot (pos n home v d) = some v :=
    ⟨e, Or.inl hempty⟩
  refine ⟨Nat.find stops, ?_, ?_, Nat.find_spec stops⟩
  · exact Nat.lt_of_le_of_lt (Nat.find_min' stops (Or.inl hempty)) he
  · intro j hj
    have going := Nat.find_min stops hj
    push Not at going
    obtain ⟨w, hw⟩ := Option.ne_none_iff_exists'.mp going.1
    refine ⟨w, hw, ?_⟩
    rintro rfl
    exact going.2 hw

/-- A walk that ends at an empty slot proves its key absent. -/
theorem absent_of_empty (t : Table n home slot) {v : κ} {d : Nat}
    (walk : Walk n home slot v d) (empty : slot (pos n home v d) = none) :
    ∀ i, i < n → slot i ≠ some v := by
  intro i hi holds
  obtain ⟨e, _, rfl, path⟩ := t.path i v hi holds
  rcases Nat.lt_trichotomy e d with lt | rfl | gt
  · obtain ⟨w, hw, ne⟩ := walk e lt
    rw [holds] at hw
    exact ne (Option.some.inj hw).symm
  · rw [holds] at empty
    cases empty
  · exact path d gt empty

section Place
variable {v : κ} {d : Nat} (hd : d < n) (empty : slot (pos n home v d) = none)
include hd empty

/-- Writing a key at the end of its walk keeps the table. -/
theorem place (t : Table n home slot) (walk : Walk n home slot v d) :
    Table n home (Function.update slot (pos n home v d) (some v)) := by
  have absent := absent_of_empty t walk empty
  have spot : ∀ i w, Function.update slot (pos n home v d) (some v) i = some w →
      i = pos n home v d ∧ w = v ∨ i ≠ pos n home v d ∧ slot i = some w := by
    intro i w h
    by_cases here : i = pos n home v d
    · rw [here, Function.update_self] at h
      exact Or.inl ⟨here, (Option.some.inj h).symm⟩
    · rw [Function.update_of_ne here] at h
      exact Or.inr ⟨here, h⟩
  have taken : ∀ i, slot i ≠ none →
      Function.update slot (pos n home v d) (some v) i ≠ none := by
    intro i h
    by_cases here : i = pos n home v d
    · rw [here, Function.update_self]; simp
    · rwa [Function.update_of_ne here]
  constructor
  · intro i j w hi hj holds holds'
    rcases spot i w holds with ⟨rfl, rfl⟩ | ⟨ni, holds⟩ <;>
      rcases spot j _ holds' with ⟨rfl, eq⟩ | ⟨nj, holds'⟩
    · rfl
    · exact absurd holds' (absent j hj)
    · exact absurd (eq ▸ holds) (absent i hi)
    · exact t.unique i j w hi hj holds holds'
  · intro i w hi holds
    rcases spot i w holds with ⟨rfl, rfl⟩ | ⟨_, holds⟩
    · refine ⟨d, hd, rfl, fun j hj => taken _ ?_⟩
      obtain ⟨w, hw, _⟩ := walk j hj
      rw [hw]; simp
    · obtain ⟨e, he, rfl, path⟩ := t.path i w hi holds
      exact ⟨e, he, rfl, fun j hj => taken _ (path j hj)⟩

theorem place_stores [DecidableEq κ] (s : Stores n slot A) :
    Stores n (Function.update slot (pos n home v d) (some v)) (insert v A) := by
  have inside : pos n home v d < n := pos_lt (by omega) home v d
  intro w
  rw [Finset.mem_insert, s w]
  constructor
  · rintro (rfl | ⟨i, hi, holds⟩)
    · exact ⟨_, inside, Function.update_self ..⟩
    · refine ⟨i, hi, ?_⟩
      rw [Function.update_of_ne, holds]
      rintro rfl
      rw [empty] at holds
      cases holds
  · rintro ⟨i, hi, holds⟩
    by_cases here : i = pos n home v d
    · rw [here, Function.update_self] at holds
      exact Or.inl (Option.some.inj holds).symm
    · rw [Function.update_of_ne here] at holds
      exact Or.inr ⟨i, hi, holds⟩

end Place

/-- How far slot `i` is behind slot `e`, around the table. -/
def behind (n e i : Nat) : Nat := (i + (n - e)) % n

theorem behind_add {n e i j : Nat} (he : e < n) (hj : j < n)
    (apart : ∀ k, k ≤ j → (i + k) % n ≠ e) : behind n e ((i + j) % n) = behind n e (i % n) + j := by
  induction j with
  | zero => rfl
  | succ j ih =>
    have before := ih (by omega) fun k hk => apart k (by omega)
    have here := apart (j + 1) (by omega)
    have step : behind n e ((i + (j + 1)) % n) = (behind n e ((i + j) % n) + 1) % n := by
      simp only [behind, Nat.mod_add_mod]
      congr 1
      omega
    rw [step, before, ← Nat.add_assoc, Nat.mod_eq_of_lt]
    by_contra full
    -- one more step would be a whole turn, which ends at `e`
    have bound : behind n e ((i + j) % n) < n := Nat.mod_lt _ (by omega)
    have turn : behind n e ((i + (j + 1)) % n) = 0 := by
      have last : behind n e ((i + j) % n) + 1 = n := by omega
      rw [step, last, Nat.mod_self]
    have multiple : ((i + (j + 1)) % n + (n - e)) % n = 0 := turn
    have inside : (i + (j + 1)) % n < n := Nat.mod_lt _ (by omega)
    obtain ⟨q, hq⟩ := Nat.dvd_of_mod_eq_zero multiple
    have : q = 1 := by
      rcases Nat.lt_trichotomy q 1 with lt | eq | gt
      · have : q = 0 := by omega
        subst this
        omega
      · exact eq
      · have := Nat.mul_le_mul_left n gt
        omega
    subst this
    omega

/-- Keys with different homes are at home. The occupant of a displaced key's
home would be displaced too, one step closer to the empty slot. -/
theorem at_home (t : Table n home slot) (empty : ∃ i, i < n ∧ slot i = none)
    (apart : ∀ i j v w, i < n → j < n → slot i = some v → slot j = some w →
      home v % n = home w % n → v = w) :
    ∀ i v, i < n → slot i = some v → i = home v % n := by
  obtain ⟨e, he, free⟩ := empty
  intro i
  induction hd : behind n e i using Nat.strong_induction_on generalizing i with
  | _ distance ih =>
    intro v hi holds
    obtain ⟨d, hdn, rfl, path⟩ := t.path i v hi holds
    rcases Nat.eq_zero_or_pos d with rfl | displaced
    · rfl
    · have taken : ∀ j, j ≤ d → (home v + j) % n ≠ e := by
        intro j hj same
        rcases Nat.lt_or_ge j d with lt | ge
        · exact path j lt (by rw [pos, same]; exact free)
        · have : j = d := by omega
          subst this
          rw [pos, same, free] at holds
          cases holds
      have closer := behind_add he hdn taken
      obtain ⟨w, hw⟩ := Option.ne_none_iff_exists'.mp (path 0 displaced)
      have inside : pos n home v 0 < n := pos_lt (by omega) home v 0
      have whome := ih (behind n e (pos n home v 0)) (by
        simp only [pos, Nat.add_zero] at hd ⊢
        omega) (pos n home v 0) rfl w inside hw
      have same : v = w := apart _ _ v w hi inside holds hw whome
      subst same
      rw [t.unique _ _ v hi inside holds hw]
      rfl

end DeOptiTransfer.Probing
