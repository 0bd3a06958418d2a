import DeOptiTransfer.Soliton
import Mathlib.Order.Bounds.Defs

/-!
# The quantised sampler against the plain search

Both loops look for the first entry that is at least `u`. The sampler starts
between two precomputed quantiles, which are stored in 32 bits.

* `bisect_eq`: a search whose ends bracket that entry finds it;
* `ofCdf_eq`: the table the constructor computes;
* `sample_eq_degreeBinary`: with the quantiles in range, both searches agree;
* `sample_ne_degreeBinary`: without, they differ where the last bucket ends.
-/

namespace DeOptiTransfer

/-- A cumulative distribution: not empty, nondecreasing, ending in 1. -/
structure IsCdf (cdf : List Rat) : Prop where
  nonempty : cdf ≠ []
  ascending : cdf.Pairwise (· ≤ ·)
  last : cdf.getLast? = some 1

/-- The index of the first entry that is at least `x`. -/
def firstAtLeast (cdf : List Rat) (x : Rat) : Nat := cdf.findIdx (x ≤ ·)

theorem firstAtLeast_le_iff {cdf : List Rat} (ascending : cdf.Pairwise (· ≤ ·)) {x : Rat} {i : Nat}
    (hi : i < cdf.length) : firstAtLeast cdf x ≤ i ↔ x ≤ cdf[i] := by
  constructor
  · intro le
    have inside : firstAtLeast cdf x < cdf.length := by omega
    have here : x ≤ cdf[firstAtLeast cdf x] :=
      of_decide_eq_true (List.findIdx_getElem (w := inside))
    rcases Nat.eq_or_lt_of_le le with eq | lt
    · simpa only [eq] using here
    · exact here.trans (List.pairwise_iff_getElem.mp ascending _ _ inside hi lt)
  · intro holds
    by_contra before
    have out := List.not_of_lt_findIdx (Nat.lt_of_not_le before)
    exact of_decide_eq_false out holds

/-- A search whose ends bracket the first entry that qualifies finds it. -/
theorem bisect_eq {cdf : List Rat} (ascending : cdf.Pairwise (· ≤ ·)) {x : Rat} (fuel lo hi : Nat)
    (enough : hi - lo ≤ fuel) (bound : hi < cdf.length) (low : lo ≤ firstAtLeast cdf x)
    (high : firstAtLeast cdf x ≤ hi) : bisect cdf x fuel lo hi = .ok (firstAtLeast cdf x) := by
  induction fuel generalizing lo hi with
  | zero =>
    have : firstAtLeast cdf x = lo := by omega
    simp only [bisect, this, show ¬ lo < hi by omega, ↓reduceIte]
  | succ fuel ih =>
    by_cases lt : lo < hi
    · have inside : (lo + hi) / 2 < cdf.length := by omega
      have here := firstAtLeast_le_iff ascending (x := x) inside
      simp only [bisect, lt, ↓reduceIte, getAt_of_lt inside, exec_ok_bind]
      split
      · rename_i reached
        exact ih lo ((lo + hi) / 2) (by omega) (by omega) low (here.mpr reached)
      · rename_i short
        have past : ¬ firstAtLeast cdf x ≤ (lo + hi) / 2 := fun le => short (here.mp le)
        exact ih ((lo + hi) / 2 + 1) hi (by omega) bound (by omega) high
    · have : firstAtLeast cdf x = lo := by omega
      simp only [bisect, this, lt, ↓reduceIte]

namespace IsCdf
variable {cdf : List Rat} (h : IsCdf cdf)
include h

theorem length_pos : 0 < cdf.length := List.length_pos_iff.mpr h.nonempty

theorem not_empty : cdf.isEmpty = false := by
  rw [← Bool.not_eq_true, List.isEmpty_iff]
  exact h.nonempty

theorem getElem_last (lt : cdf.length - 1 < cdf.length) : cdf[cdf.length - 1] = 1 := by
  have last := h.last
  rw [List.getLast?_eq_getElem?, List.getElem?_eq_getElem lt] at last
  exact Option.some.inj last

theorem getElem_le_one {i : Nat} (hi : i < cdf.length) : cdf[i] ≤ 1 := by
  have := h.length_pos
  rw [← h.getElem_last (by omega)]
  rcases Nat.eq_or_lt_of_le (show i ≤ cdf.length - 1 by omega) with eq | lt
  · simp only [eq, le_refl]
  · exact List.pairwise_iff_getElem.mp h.ascending _ _ hi (by omega) lt

/-- Up to 1 some entry qualifies. -/
theorem firstAtLeast_lt {x : Rat} (le : x ≤ 1) : firstAtLeast cdf x < cdf.length := by
  have pos := h.length_pos
  have reached := (firstAtLeast_le_iff h.ascending (x := x)
    (show cdf.length - 1 < cdf.length by omega)).mpr (by rwa [h.getElem_last])
  omega

theorem firstAtLeast_mono {x y : Rat} (le : x ≤ y) (le_one : y ≤ 1) :
    firstAtLeast cdf x ≤ firstAtLeast cdf y := by
  have inside := h.firstAtLeast_lt le_one
  exact (firstAtLeast_le_iff h.ascending inside).mpr
    (le.trans ((firstAtLeast_le_iff h.ascending inside).mp (Nat.le_refl _)))

theorem lowerBound_eq {x : Rat} (le : x ≤ 1) : lowerBound cdf x = .ok (firstAtLeast cdf x) := by
  have pos := h.length_pos
  have lt := h.firstAtLeast_lt le
  rw [lowerBound, checkedSub_of_le pos, exec_ok_bind]
  exact bisect_eq h.ascending _ _ _ (by omega) (by omega) (Nat.zero_le _) (by omega)

/-- The plain search: the first entry that qualifies, counted from 1. -/
theorem degreeBinary_eq {u : Rat} (pos : 0 < u) (lt : u < 1) :
    degreeBinary cdf u = .ok (firstAtLeast cdf u + 1) := by
  have inside := h.firstAtLeast_lt lt.le
  simp only [degreeBinary, h.not_empty, Bool.false_eq_true, ↓reduceIte, not_le.mpr pos,
    not_le.mpr lt, h.lowerBound_eq lt.le, exec_ok_bind]
  rw [Nat.min_eq_left (by omega)]

end IsCdf

namespace DegreeCdf

variable {cdf : List Rat} {u : Rat}

/-- The left end of bucket `i`. -/
theorem grid_le_one {i : Nat} (le : i ≤ QUANT) : (i : Rat) / QUANT ≤ 1 := by
  have cast : (i : Rat) ≤ QUANT := by exact_mod_cast le
  exact (div_le_one₀ (by simp [QUANT])).mpr cast

/-- The table of a distribution: the first entry that qualifies at each end of a
bucket, in 32 bits. -/
theorem ofCdf_eq (h : IsCdf cdf) : ofCdf cdf =
    .ok ⟨cdf, (List.range (QUANT + 1)).map fun i : Nat =>
      firstAtLeast cdf ((i : Rat) / QUANT) % 2 ^ 32⟩ := by
  have each : ∀ i ∈ List.range (QUANT + 1),
      (do let q ← lowerBound cdf ((i : Rat) / QUANT); .ok (q % 2 ^ 32) : Exec Nat) =
        .ok (firstAtLeast cdf ((i : Rat) / QUANT) % 2 ^ 32) := by
    intro i mem
    rw [List.mem_range] at mem
    rw [h.lowerBound_eq (grid_le_one (by omega)), exec_ok_bind]
  simp only [ofCdf, h.not_empty, Bool.false_eq_true, ↓reduceIte, mapM_eq_ok_map _ each,
    exec_ok_bind]

/-- A number strictly between 0 and 1 is in one of the buckets. -/
theorem bucket (pos : 0 < u) (lt : u < 1) : ∃ i, (u * QUANT).floor.toNat = i ∧ i < QUANT ∧
    (i : Rat) / QUANT ≤ u ∧ u < ((i + 1 : Nat) : Rat) / QUANT := by
  have quant_pos : (0 : Rat) < QUANT := by simp [QUANT]
  have nonneg : 0 ≤ (u * QUANT).floor := Rat.le_floor_iff.mpr (by
    rw [Int.cast_zero]
    exact (mul_pos pos quant_pos).le)
  obtain ⟨i, hi⟩ := Int.eq_ofNat_of_zero_le nonneg
  have low : (i : Rat) ≤ u * QUANT := by
    have := Rat.floor_le (u * QUANT)
    rwa [hi, Int.cast_natCast] at this
  have high : u * QUANT < ((i + 1 : Nat) : Rat) := by
    have := Rat.lt_floor_add_one (u * QUANT)
    rw [hi] at this
    exact_mod_cast this
  refine ⟨i, by rw [hi]; rfl, ?_, (div_le_iff₀ quant_pos).mpr low, (lt_div_iff₀ quant_pos).mpr high⟩
  have below : (i : Rat) < QUANT := low.trans_lt (by
    calc u * QUANT < 1 * QUANT := mul_lt_mul_of_pos_right lt quant_pos
      _ = QUANT := one_mul _)
  exact_mod_cast below

/-- The quantile at the left end of bucket `i`. -/
theorem getAt_quant (h : IsCdf cdf) {c : DegreeCdf} (built : ofCdf cdf = .ok c) {i : Nat}
    (le : i ≤ QUANT) :
    getAt c.quant i = .ok (firstAtLeast cdf ((i : Rat) / QUANT) % 2 ^ 32) := by
  rw [ofCdf_eq h] at built
  obtain rfl := Except.ok.inj built
  rw [getAt_eq_ok, List.getElem?_map, List.getElem?_range (by omega), Option.map_some]

/-- What a sample between 0 and 1 searches. -/
theorem sample_eq_bisect (h : IsCdf cdf) {c : DegreeCdf} (built : ofCdf cdf = .ok c) {i : Nat}
    (here : (u * QUANT).floor.toNat = i) (lt_quant : i < QUANT) (pos : 0 < u) (lt : u < 1) :
    c.sample u = (do
      let lo := firstAtLeast cdf ((i : Rat) / QUANT) % 2 ^ 32
      let hi := firstAtLeast cdf (((i + 1 : Nat) : Rat) / QUANT) % 2 ^ 32
      let r ← bisect cdf u (hi - lo) lo hi
      .ok (r + 1)) := by
  have same : c.cdf = cdf := by
    rw [ofCdf_eq h] at built
    obtain rfl := Except.ok.inj built
    rfl
  simp only [sample, same, h.not_empty, Bool.false_eq_true, ↓reduceIte, not_le.mpr pos,
    not_le.mpr lt, here, getAt_quant h built (show i ≤ QUANT by omega),
    getAt_quant h built (show i + 1 ≤ QUANT by omega), exec_ok_bind]

theorem one_mem_take_iff (h : IsCdf cdf) (n : Nat) :
    1 ∈ cdf.take n ↔ firstAtLeast cdf 1 < n := by
  constructor
  · intro mem
    obtain ⟨i, lt, one⟩ := List.mem_take_iff_getElem.mp mem
    have inside : i < cdf.length := by omega
    have le := (firstAtLeast_le_iff h.ascending inside).mpr one.ge
    omega
  · intro lt
    have inside := h.firstAtLeast_lt (le_refl 1)
    apply List.mem_take_iff_getElem.mpr
    refine ⟨firstAtLeast cdf 1, by omega, ?_⟩
    exact le_antisymm (h.getElem_le_one inside)
      ((firstAtLeast_le_iff h.ascending inside).mp (Nat.le_refl _))

/-- Between 0 and 1 the sampler finds the first entry that qualifies. -/
theorem sample_eq (h : IsCdf cdf) (near : 1 ∈ cdf.take (2 ^ 32)) {c : DegreeCdf}
    (built : ofCdf cdf = .ok c) (pos : 0 < u) (lt : u < 1) :
    c.sample u = .ok (firstAtLeast cdf u + 1) := by
  obtain ⟨i, here, lt_quant, low, high⟩ := bucket pos lt
  have right := grid_le_one (i := i + 1) (by omega)
  have small : ∀ x : Rat, x ≤ 1 → firstAtLeast cdf x % 2 ^ 32 = firstAtLeast cdf x := by
    intro x le
    have := h.firstAtLeast_mono le (le_refl 1)
    have := (one_mem_take_iff h _).mp near
    exact Nat.mod_eq_of_lt (by omega)
  have left_le := h.firstAtLeast_mono low lt.le
  have le_right := h.firstAtLeast_mono high.le right
  have bound := h.firstAtLeast_lt right
  rw [sample_eq_bisect h built here lt_quant pos lt, small _ (low.trans lt.le), small _ right]
  simp only [bisect_eq h.ascending _ _ _ (Nat.le_refl _) bound left_le le_right, exec_ok_bind]

/-- A sample never exceeds what 32 bits hold. -/
theorem sample_le (h : IsCdf cdf) {c : DegreeCdf} (built : ofCdf cdf = .ok c) (pos : 0 < u)
    (lt : u < 1) : ∃ d, c.sample u = .ok d ∧ d ≤ 2 ^ 32 := by
  obtain ⟨i, here, lt_quant, _, _⟩ := bucket pos lt
  rw [sample_eq_bisect h built here lt_quant pos lt]
  have inside := h.firstAtLeast_lt (grid_le_one (i := i + 1) (by omega))
  generalize firstAtLeast cdf ((i : Rat) / QUANT) = lo
  generalize firstAtLeast cdf (((i + 1 : Nat) : Rat) / QUANT) = hi at inside
  have := Nat.mod_le hi (2 ^ 32)
  have := Nat.mod_lt lo (Nat.two_pow_pos 32)
  have := Nat.mod_lt hi (Nat.two_pow_pos 32)
  obtain ⟨r, run, _, le⟩ := bisect_ok cdf u (hi % 2 ^ 32 - lo % 2 ^ 32) (lo % 2 ^ 32) (hi % 2 ^ 32)
    (Nat.le_refl _) (by omega)
  exact ⟨r + 1, by simp only [run, exec_ok_bind], by omega⟩

/-- Where the plain search goes past `2^32` entries, the sampler does not. -/
theorem sample_ne_degreeBinary (h : IsCdf cdf) {c : DegreeCdf} (built : ofCdf cdf = .ok c)
    (pos : 0 < u) (lt : u < 1) (far : 2 ^ 32 ≤ firstAtLeast cdf u) :
    c.sample u ≠ degreeBinary cdf u := by
  obtain ⟨d, sample, le⟩ := sample_le h built pos lt
  rw [sample, h.degreeBinary_eq pos lt]
  intro same
  have := Except.ok.inj same
  omega

/-- Both searches return, with the same degree. -/
theorem searches_agree (h : IsCdf cdf) (near : 1 ∈ cdf.take (2 ^ 32)) {c : DegreeCdf}
    (built : ofCdf cdf = .ok c) (u : Rat) :
    ∃ d, c.sample u = .ok d ∧ degreeBinary cdf u = .ok d ∧
      (0 < u → u < 1 → d = firstAtLeast cdf u + 1) := by
  have same : c.cdf = cdf := by
    rw [ofCdf_eq h] at built
    obtain rfl := Except.ok.inj built
    rfl
  rcases le_or_gt u 0 with low | pos
  · refine ⟨1, ?_, ?_, fun pos => absurd low (not_le.mpr pos)⟩
    · simp only [sample, same, h.not_empty, Bool.false_eq_true, ↓reduceIte, low]
    · simp only [degreeBinary, h.not_empty, Bool.false_eq_true, ↓reduceIte, low]
  rcases le_or_gt 1 u with high | lt
  · refine ⟨cdf.length, ?_, ?_, fun _ lt => absurd high (not_le.mpr lt)⟩
    · simp only [sample, same, h.not_empty, Bool.false_eq_true, ↓reduceIte, not_le.mpr pos, high]
    · simp only [degreeBinary, h.not_empty, Bool.false_eq_true, ↓reduceIte, not_le.mpr pos, high]
  exact ⟨firstAtLeast cdf u + 1, sample_eq h near built pos lt, h.degreeBinary_eq pos lt,
    fun _ _ => rfl⟩

/-- The quantised sampler is the plain search. If one of the first `2^32`
entries is 1, both return, both with the same degree, which between 0 and 1 is
the least one whose entry is at least `u`. -/
theorem sample_eq_degreeBinary (cdf : List Rat) (h : IsCdf cdf) (near : 1 ∈ cdf.take (2 ^ 32))
    (u : Rat) :
    ∃ c d, ofCdf cdf = .ok c ∧ c.cdf = cdf ∧ c.sample u = .ok d ∧ degreeBinary cdf u = .ok d ∧
      (0 < u → u < 1 →
        IsLeast {d | 1 ≤ d ∧ d ≤ cdf.length ∧ ∃ x, cdf[d - 1]? = some x ∧ u ≤ x} d) := by
  have built := ofCdf_eq h
  generalize table : (⟨cdf, _⟩ : DegreeCdf) = c at built
  have same : c.cdf = cdf := by rw [← table]
  obtain ⟨d, sample, plain, first⟩ := searches_agree h near built u
  refine ⟨c, d, built, same, sample, plain, ?_⟩
  intro pos lt
  obtain rfl := first pos lt
  have inside := h.firstAtLeast_lt lt.le
  constructor
  · refine ⟨by omega, by omega, cdf[firstAtLeast cdf u], ?_, ?_⟩
    · rw [Nat.add_sub_cancel, List.getElem?_eq_getElem inside]
    · exact (firstAtLeast_le_iff h.ascending inside).mp (Nat.le_refl _)
  · rintro d ⟨one_le, le, x, entry, reached⟩
    obtain ⟨place, rfl⟩ := List.getElem?_eq_some_iff.mp entry
    have := (firstAtLeast_le_iff h.ascending place).mpr reached
    omega

theorem isCdf_two : IsCdf [4877790575015937 / 9007199254740992, 1] :=
  ⟨by simp, by decide +kernel, rfl⟩

/-- The distribution of two blocks, sampled in its second step. -/
theorem sample_eq_degreeBinary_two :
    IsCdf [4877790575015937 / 9007199254740992, 1] ∧
    1 ∈ [(4877790575015937 / 9007199254740992 : Rat), 1].take (2 ^ 32) ∧
    ∃ c d, ofCdf [4877790575015937 / 9007199254740992, 1] = .ok c ∧ c.sample (3 / 4) = .ok d ∧
      degreeBinary [4877790575015937 / 9007199254740992, 1] (3 / 4) = .ok d := by
  have near : 1 ∈ [(4877790575015937 / 9007199254740992 : Rat), 1].take (2 ^ 32) := by simp
  obtain ⟨c, d, built, _, sample, plain, _⟩ :=
    sample_eq_degreeBinary _ isCdf_two near (3 / 4)
  exact ⟨isCdf_two, near, c, d, built, sample, plain⟩

/-- `n` entries that are 0, and a last one that is 1. -/
def lateCdf (n : Nat) : List Rat := List.replicate n 0 ++ [1]

theorem isCdf_late (n : Nat) : IsCdf (lateCdf n) := by
  constructor
  · simp [lateCdf]
  · rw [lateCdf, List.pairwise_append]
    refine ⟨List.pairwise_replicate.mpr (Or.inr (le_refl 0)), List.pairwise_singleton _ _, ?_⟩
    intro a ha b hb
    rw [(List.mem_replicate.mp ha).2, List.mem_singleton.mp hb]
    exact zero_le_one
  · rw [lateCdf, List.getLast?_concat]

theorem firstAtLeast_late (n : Nat) (pos : 0 < u) (le : u ≤ 1) :
    firstAtLeast (lateCdf n) u = n := by
  have length : (lateCdf n).length = n + 1 := by simp [lateCdf]
  have inside := (isCdf_late n).firstAtLeast_lt le
  by_contra ne
  have early : firstAtLeast (lateCdf n) u < n := by omega
  have reached := (firstAtLeast_le_iff (isCdf_late n).ascending inside).mp (Nat.le_refl _)
  have zero : (lateCdf n)[firstAtLeast (lateCdf n) u] = 0 := by
    simp only [lateCdf]
    rw [List.getElem_append_left (by simpa [lateCdf] using early), List.getElem_replicate]
  rw [zero] at reached
  exact absurd pos (not_lt.mpr reached)

/-- A distribution of `2^32 + 1` entries of which only the last is 1: its
quantiles do not fit in 32 bits. -/
theorem sampler_differs :
    IsCdf (lateCdf (2 ^ 32)) ∧
      ¬ ∃ c d, ofCdf (lateCdf (2 ^ 32)) = .ok c ∧ c.sample (1 / 2) = .ok d ∧
        degreeBinary (lateCdf (2 ^ 32)) (1 / 2) = .ok d := by
  refine ⟨isCdf_late _, ?_⟩
  rintro ⟨c, d, built, sample, plain⟩
  have pos : (0 : Rat) < 1 / 2 := by norm_num
  have lt : (1 / 2 : Rat) < 1 := by norm_num
  have far := firstAtLeast_late (2 ^ 32) pos lt.le
  exact sample_ne_degreeBinary (isCdf_late _) built pos lt far.ge (sample.trans plain.symm)

end DegreeCdf

end DeOptiTransfer
