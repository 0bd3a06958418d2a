import DeOptiTransfer.Fountain.Indices
import DeOptiTransfer.Soliton.Ideal
import Mathlib.Data.Set.Card

/-!
# The degrees of the repair frames

A repair frame samples its degree with one draw of a generator that its sequence
number seeds. Over all sequence numbers that draw takes every value once.

* `draw_bijective`: sequence numbers against draws;
* `ncard_words_le`: how many words a threshold admits;
* `degree_law`: how many frames have a degree of at most `d`;
* `degree_shares`: the same, against the robust soliton distribution of the reals.
-/

namespace DeOptiTransfer

theorem draw_bijective (sessionId : UInt32) : Function.Bijective (draw sessionId) := by
  apply bijective_of_injective_u32
  intro a b same
  have sums := SplitMix32.mix_injective same
  rw [UInt32.add_left_inj] at sums
  exact frameSeed_injective sessionId sums

theorem ncard_words_le (b : Rat) :
    {t : UInt32 | t = 0 ∨ (t.toNat : Rat) ≤ b}.ncard = min (⌊b⌋₊ + 1) (2 ^ 32) := by
  have counts : {t : UInt32 | t = 0 ∨ (t.toNat : Rat) ≤ b} =
      UInt32.ofNat '' (Finset.range (min (⌊b⌋₊ + 1) (2 ^ 32)) : Set Nat) := by
    ext t
    simp only [Set.mem_ofPred_eq, Set.mem_image, Finset.coe_range, Set.mem_Iio, Nat.lt_min,
      Nat.lt_succ_iff]
    constructor
    · intro low
      refine ⟨t.toNat, ⟨?_, t.toNat_lt⟩, UInt32.ofNat_toNat⟩
      rcases low with rfl | low
      · exact Nat.zero_le _
      · exact Nat.le_floor low
    · rintro ⟨n, ⟨low, lt⟩, rfl⟩
      rw [UInt32.toNat_ofNat_of_lt' lt]
      rcases Nat.eq_zero_or_pos n with rfl | pos
      · exact Or.inl rfl
      · exact Or.inr ((Nat.le_floor_iff' pos.ne').mp low)
  have once : Set.InjOn UInt32.ofNat (Finset.range (min (⌊b⌋₊ + 1) (2 ^ 32)) : Set Nat) := by
    intro m hm n hn same
    simp only [Finset.coe_range, Set.mem_Iio, Nat.lt_min] at hm hn
    have value := congrArg UInt32.toNat same
    rwa [UInt32.toNat_ofNat_of_lt' hm.2, UInt32.toNat_ofNat_of_lt' hn.2] at value
  rw [counts, once.ncard_image, Set.ncard_coe_finset, Finset.card_range]

section
variable {cdf : List Rat} {c : DegreeCdf} {x : Rat} {d : Nat}

/-- A draw gives a degree of at most `d` when it is no more than entry `d`. -/
theorem sample_le_iff (h : IsCdf cdf) (near : 1 ∈ cdf.take (2 ^ 32))
    (built : DegreeCdf.ofCdf cdf = .ok c) (pos : 0 < d) (entry : cdf[d - 1]? = some x) {t : UInt32}
    {n : Nat} (sample : c.sample ((t.toNat : Rat) / 4294967296) = .ok n) :
    n ≤ d ↔ t = 0 ∨ (t.toNat : Rat) ≤ 4294967296 * x := by
  obtain ⟨m, sampled, plain, between⟩ :=
    DegreeCdf.searches_agree h near built ((t.toNat : Rat) / 4294967296)
  rw [sample] at sampled
  cases sampled
  obtain ⟨place, rfl⟩ := List.getElem?_eq_some_iff.mp entry
  by_cases zero : t = 0
  · subst zero
    rw [UInt32.toNat_zero, Nat.cast_zero, zero_div, degreeBinary, h.not_empty] at plain
    simp only [Bool.false_eq_true, ↓reduceIte, le_refl] at plain
    cases plain
    exact iff_of_true pos (Or.inl rfl)
  · have number_pos : 0 < t.toNat := Nat.pos_of_ne_zero fun eq => zero (UInt32.toNat_inj.mp eq)
    have low : (0 : Rat) < (t.toNat : Rat) / 4294967296 :=
      div_pos (by exact_mod_cast number_pos) (by norm_num)
    have high : (t.toNat : Rat) / 4294967296 < 1 :=
      (div_lt_one (by norm_num)).mpr (by exact_mod_cast t.toNat_lt)
    have first := firstAtLeast_le_iff h.ascending (x := (t.toNat : Rat) / 4294967296) place
    rw [div_le_iff₀' (by norm_num)] at first
    rw [between low high, or_iff_right zero, ← first]
    omega

/-- Of the `2^32` frames of a session, those with at most `d` blocks are counted
by entry `d`. -/
theorem ncard_degree_le (h : IsCdf cdf) (near : 1 ∈ cdf.take (2 ^ 32))
    (built : DegreeCdf.ofCdf cdf = .ok c) (wf : c.WF) (k_pos : 0 < c.k) (lt : c.k < 2 ^ 32)
    (sessionId : UInt32) (pos : 0 < d) (entry : cdf[d - 1]? = some x) :
    {seq | (subset c sessionId seq).length ≤ d}.ncard = min (⌊4294967296 * x⌋₊ + 1) (2 ^ 32) := by
  have frames : {seq | (subset c sessionId seq).length ≤ d} =
      Set.preimage (draw sessionId) {t | t = 0 ∨ (t.toNat : Rat) ≤ 4294967296 * x} := by
    ext seq
    exact sample_le_iff h near built pos entry (sample_draw wf k_pos lt sessionId seq).1
  have onto := (draw_bijective sessionId).surjective.range_eq
  rw [frames, Set.ncard_preimage_of_injective_subset_range (draw_bijective sessionId).injective
    (onto ▸ Set.subset_univ _), ncard_words_le]

end

theorem solitonCdf_nonneg {libmSqrt : F64 → F64} {k : Nat} {table : List F64}
    (run : solitonCdf libmSqrt k = .ok table) : ∀ x ∈ table, 0 ≤ x := by
  unfold solitonCdf at run
  split at run
  · cases run
    simp
  split at run
  · cases run
    simpa using one_nonneg
  · obtain ⟨log, _, run⟩ := exec_bind_eq_ok.mp run
    obtain ⟨s, loop, run⟩ := exec_bind_eq_ok.mp run
    obtain ⟨_, loop', totals, _⟩ := addDegrees_ok (le_max_right (SOLITON_C * log * libmSqrt k) 1)
      _ k (List.range' 1 k) totals_nil
    have same := loop.symm.trans loop'
    cases same
    cases run
    intro x mem
    rcases List.mem_or_eq_of_mem_set mem with mem | rfl
    · obtain ⟨y, entry, rfl⟩ := List.mem_map.mp mem
      exact F64.nonneg_div (totals.bound y entry).1 totals.nonneg
    · exact one_nonneg

/-- A count that is rounded up from `2^32` times a number up to 1 is within one
of it. -/
theorem rounded_count {x : Rat} (nonneg : 0 ≤ x) (le_one : x ≤ 1) :
    x ≤ ((min (⌊4294967296 * x⌋₊ + 1) (2 ^ 32) : Nat) : Rat) / 4294967296 ∧
      ((min (⌊4294967296 * x⌋₊ + 1) (2 ^ 32) : Nat) : Rat) / 4294967296 ≤ x + 1 / 4294967296 := by
  have scaled : 0 ≤ 4294967296 * x := mul_nonneg (by norm_num) nonneg
  have below := Nat.floor_le scaled
  have above := Nat.lt_floor_add_one (4294967296 * x)
  rw [le_div_iff₀' (by norm_num), div_le_iff₀' (by norm_num)]
  push_cast
  constructor
  · rw [le_min_iff]
    constructor
    · exact above.le
    · linarith
  · rw [min_le_iff]
    left
    linarith

/-- The frames of at most `d` blocks, from entry `d` of the table. -/
theorem degree_count {libmSqrt : F64 → F64} {k : Nat} (pos : 0 < k) (le : k ≤ 65535)
    {table : List F64} {cdf : DegreeCdf} (run : solitonCdf libmSqrt k = .ok table)
    (new : DegreeCdf.new (robustSoliton libmSqrt) k = .ok cdf) (sessionId : UInt32) {d : Nat}
    {x : F64} (d_pos : 0 < d) (entry : table[d - 1]? = some x) :
    {seq | (subset cdf sessionId seq).length ≤ d}.ncard =
        min (⌊4294967296 * x.val⌋₊ + 1) (2 ^ 32) ∧
      x.val ≤ ({seq | (subset cdf sessionId seq).length ≤ d}.ncard : Rat) / 4294967296 ∧
      ({seq | (subset cdf sessionId seq).length ≤ d}.ncard : Rat) / 4294967296 ≤
        x.val + 1 / 4294967296 := by
  obtain ⟨table', cdf', run', length, isCdf, near, new', built, wf, k_eq⟩ :=
    robustSoliton_new libmSqrt pos (by omega)
  have same := Except.ok.inj (run'.symm.trans run)
  have same' := Except.ok.inj (new'.symm.trans new)
  subst same same'
  have value : (table'.map F64.val)[d - 1]? = some x.val := by
    rw [List.getElem?_map, entry, Option.map_some]
  have nonneg := F64.nonneg_iff.mp (solitonCdf_nonneg run x (List.mem_of_getElem? entry))
  have le_one : x.val ≤ 1 := by
    obtain ⟨place, eq⟩ := List.getElem?_eq_some_iff.mp value
    exact eq ▸ isCdf.getElem_le_one place
  have count := ncard_degree_le isCdf near built wf (by omega) (by omega) sessionId d_pos value
  rw [count]
  exact ⟨rfl, rounded_count nonneg le_one⟩

/-- The degrees are those of the table. Whatever the square root gives, the
table of `k` entries is built and ends in 1, and in every session the share of
the sequence numbers whose frame combines at most `d` blocks is entry `d`,
rounded up to the next `1 / 2^32`. -/
theorem degree_law (libmSqrt : F64 → F64) {k : Nat} (pos : 0 < k) (le : k ≤ 65535)
    (sessionId : UInt32) :
    ∃ table cdf, solitonCdf libmSqrt k = .ok table ∧ table.length = k ∧
      DegreeCdf.new (robustSoliton libmSqrt) k = .ok cdf ∧ table[k - 1]? = some 1 ∧
      ∀ d x, 0 < d → table[d - 1]? = some x →
        {seq | (subset cdf sessionId seq).length ≤ d}.ncard =
          min (⌊4294967296 * x.val⌋₊ + 1) (2 ^ 32) ∧
        x.val ≤ ({seq | (subset cdf sessionId seq).length ≤ d}.ncard : Rat) / 4294967296 ∧
        ({seq | (subset cdf sessionId seq).length ≤ d}.ncard : Rat) / 4294967296 ≤
          x.val + 1 / 4294967296 := by
  obtain ⟨table, cdf, run, length, isCdf, _, new, _⟩ :=
    robustSoliton_new libmSqrt pos (by omega)
  have last : table[k - 1]? = some 1 := by
    have last := isCdf.last
    rw [List.getLast?_map, List.getLast?_eq_getElem?, length, Option.map_eq_some_iff] at last
    obtain ⟨x, entry, one⟩ := last
    rw [entry, F64.val_injective (one.trans F64.val_one.symm)]
  exact ⟨table, cdf, run, length, new, last,
    fun d x d_pos entry => degree_count pos le run new sessionId d_pos entry⟩

theorem degree_law_two :
    ∃ cdf, DegreeCdf.new (robustSoliton sqrtTwo) 2 = .ok cdf ∧
      {seq | (subset cdf 7 seq).length ≤ 1}.ncard = 2325911797 := by
  obtain ⟨table, cdf, run, _, new, _, law⟩ := degree_law sqrtTwo (k := 2) (by decide) (by decide) 7
  refine ⟨cdf, new, ?_⟩
  have computed : solitonCdf sqrtTwo 2 = .ok [.ofRat (4877790575015937 / 9007199254740992), 1] := by
    decide +kernel
  rw [run] at computed
  cases computed
  have value : (F64.ofRat (4877790575015937 / 9007199254740992)).val =
      4877790575015937 / 9007199254740992 := by
    decide +kernel
  have floor : ⌊(4294967296 : Rat) * (4877790575015937 / 9007199254740992)⌋₊ = 2325911796 := by
    rw [Nat.floor_eq_iff (by norm_num)]
    norm_num
  rw [(law 1 _ (by decide) rfl).1, value, floor]
  rfl

/-- The degrees are robust soliton. If the square root is accurate, the table is
within `2^-35` of the robust soliton distribution for a ripple next to the
nominal one, and in every session the share of the sequence numbers whose frame
combines at most `d` blocks is within `2^-31` of it. -/
theorem degree_shares (libmSqrt : F64 → F64) {k : Nat} (pos : 0 < k) (le : k ≤ 65535)
    (root : |((libmSqrt k).val : ℝ) - √k| ≤ 1 / 2 ^ 52 * √k) :
    ∃ table cdf r, solitonCdf libmSqrt k = .ok table ∧
      DegreeCdf.new (robustSoliton libmSqrt) k = .ok cdf ∧ 1 ≤ r ∧
      |r - RobustSoliton.ripple k| ≤ 1 / 2 ^ 42 * RobustSoliton.ripple k ∧
      ∀ d, 0 < d → d ≤ k →
        (∃ x, table[d - 1]? = some x ∧ |(x.val : ℝ) - RobustSoliton.cdf r k d| ≤ 1 / 2 ^ 35) ∧
        ∀ sessionId, |({seq | (subset cdf sessionId seq).length ≤ d}.ncard : ℝ) / 2 ^ 32 -
          RobustSoliton.cdf r k d| ≤ 1 / 2 ^ 31 := by
  obtain ⟨table, r, run, _, one_le, near, entries⟩ := soliton_accurate libmSqrt pos le root
  obtain ⟨_, cdf, _, _, _, _, new, _⟩ := robustSoliton_new libmSqrt pos (by omega : k ≤ 2 ^ 32)
  refine ⟨table, cdf, r, run, new, one_le, near, fun d d_pos d_le => ?_⟩
  obtain ⟨x, entry, off⟩ := entries d d_pos d_le
  refine ⟨⟨x, entry, off⟩, fun sessionId => ?_⟩
  obtain ⟨_, low, high⟩ := degree_count pos le run new sessionId d_pos entry
  generalize {seq | (subset cdf sessionId seq).length ≤ d}.ncard = n at low high ⊢
  have low_real : (x.val : ℝ) ≤ n / 2 ^ 32 := by
    have : (x.val : ℝ) ≤ ((n / 4294967296 : Rat) : ℝ) := Rat.cast_le.mpr low
    push_cast at this
    linarith
  have high_real : (n : ℝ) / 2 ^ 32 ≤ x.val + 1 / 2 ^ 32 := by
    have : ((n / 4294967296 : Rat) : ℝ) ≤ ((x.val + 1 / 4294967296 : Rat) : ℝ) :=
      Rat.cast_le.mpr high
    push_cast at this
    linarith
  have far := abs_sub_le ((n : ℝ) / 2 ^ 32) (x.val : ℝ) (RobustSoliton.cdf r k d)
  rw [abs_of_nonneg (sub_nonneg.mpr low_real)] at far
  linarith

theorem sqrtTwo_accurate :
    |((sqrtTwo (2 : Nat)).val : ℝ) - √(2 : Nat)| ≤ 1 / 2 ^ 52 * √(2 : Nat) := by
  have value : (sqrtTwo (2 : Nat)).val = 6369051672525773 / 4503599627370496 := by decide +kernel
  have above : √(2 : Nat) ≤ 6369051672525773 / 4503599627370496 :=
    Real.sqrt_le_iff.mpr ⟨by norm_num, by norm_num⟩
  have below : (6369051672525773 / 4503599627370497 : ℝ) ≤ √(2 : Nat) :=
    Real.le_sqrt_of_sq_le (by norm_num)
  rw [value]
  push_cast at above below ⊢
  rw [abs_of_nonneg (sub_nonneg.mpr above)]
  linarith

theorem degree_shares_two :
    ∃ table cdf r, solitonCdf sqrtTwo 2 = .ok table ∧
      DegreeCdf.new (robustSoliton sqrtTwo) 2 = .ok cdf ∧ 1 ≤ r ∧
      |r - RobustSoliton.ripple 2| ≤ 1 / 2 ^ 42 * RobustSoliton.ripple 2 ∧
      ∀ d, 0 < d → d ≤ 2 →
        (∃ x, table[d - 1]? = some x ∧ |(x.val : ℝ) - RobustSoliton.cdf r 2 d| ≤ 1 / 2 ^ 35) ∧
        ∀ sessionId, |({seq | (subset cdf sessionId seq).length ≤ d}.ncard : ℝ) / 2 ^ 32 -
          RobustSoliton.cdf r 2 d| ≤ 1 / 2 ^ 31 :=
  degree_shares sqrtTwo (by decide) (by decide) sqrtTwo_accurate

end DeOptiTransfer
