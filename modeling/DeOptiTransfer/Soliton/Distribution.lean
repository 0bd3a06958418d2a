import DeOptiTransfer.Base.Arith
import DeOptiTransfer.Base.Double
import DeOptiTransfer.Soliton.Quantile
import Mathlib.Data.Nat.Log

/-!
# The robust soliton distribution

`dlog` of `dlog.rs` and `soliton_cdf` of `soliton.rs`, in rounded doubles.
`libm::sqrt` is a parameter.

* `dlog_ok`: the logarithm of a positive number is computed;
* `solitonCdf_ok`: every table of at least one entry is a distribution,
  whatever the square root is;
* `robustSoliton_new`: the tables as the parameter the sampler takes.
-/

namespace DeOptiTransfer

def LN_2 : F64 := .ofRat (693147180559945309417232121458176568 / 10 ^ 36)

def SOLITON_C : F64 := .ofRat (1 / 10)

def SOLITON_DELTA : F64 := .ofRat (1 / 2)

/-- `while m >= 1.5`, with a bound on its turns. -/
def halveLoop : Nat → F64 → Int → Exec (F64 × Int)
  | 0, m, e => if .ofRat (3 / 2) ≤ m then .error .diverges else .ok (m, e)
  | fuel + 1, m, e =>
    if .ofRat (3 / 2) ≤ m then halveLoop fuel (m / 2) (e + 1) else .ok (m, e)

/-- `while m < 0.75`, with a bound on its turns. -/
def doubleLoop : Nat → F64 → Int → Exec (F64 × Int)
  | 0, m, e => if m < .ofRat (3 / 4) then .error .diverges else .ok (m, e)
  | fuel + 1, m, e =>
    if m < .ofRat (3 / 4) then doubleLoop fuel (m * 2) (e - 1) else .ok (m, e)

/-- One turn of the series, for the odd number `n`. -/
def seriesTurn (z2 : F64) (s : F64 × F64) (n : Nat) : F64 × F64 :=
  (s.1 * z2, s.2 + s.1 / n)

/-- `dlog` of a positive number. The source returns NaN or an infinity for the
other doubles; nothing here asks for those, and the loops do not end on them. -/
def dlog (x : F64) : Exec F64 := do
  let (m, e) ← halveLoop (Nat.clog 2 ⌈x.val⌉₊) x 0
  let (m, e) ← doubleLoop 1074 m e
  let z := (m - 1) / (m + 1)
  let z2 := z * z
  let (_, sum) := [1, 3, 5, 7, 9, 11, 13, 15, 17, 19, 21].foldl (seriesTurn z2) (z, 0)
  .ok ((e : F64) * LN_2 + 2 * sum)

def rho (k d : Nat) : F64 :=
  if d = 1 then 1 / (k : F64) else 1 / ((d * (d - 1) : Nat) : F64)

def tau (r : F64) (spike k d : Nat) : Exec F64 :=
  if d < spike then .ok (r / ((d * k : Nat) : F64))
  else if d = spike then do
    let log ← dlog (r / SOLITON_DELTA)
    .ok (r * max log 0 / (k : F64))
  else .ok 0

/-- One turn of the loop over the degrees, with the total so far and the
entries before. -/
def addDegree (r : F64) (spike k : Nat) (s : F64 × List F64) (d : Nat) :
    Exec (F64 × List F64) := do
  let tau ← tau r spike k d
  let total := s.1 + (rho k d + tau)
  .ok (total, s.2 ++ [total])

def solitonCdf (libmSqrt : F64 → F64) (k : Nat) : Exec (List F64) :=
  if k = 0 then .ok []
  else if k = 1 then .ok [1]
  else do
    let log ← dlog ((k : F64) / SOLITON_DELTA)
    let r := max (SOLITON_C * log * libmSqrt (k : F64)) 1
    -- `ceil` and the conversion to an index are exact
    let spike := (min (⌈((k : F64) / r).val⌉ : Rat) (k : F64).val).floor.toNat
    let (total, cdf) ← (List.range' 1 k).foldlM (addDegree r spike k) (0, [])
    .ok ((cdf.map (· / total)).set (k - 1) 1)

/-! ## The logarithm -/

/-- A number below `2 ^ n` is halved at most `n` times. -/
theorem halveLoop_ok (fuel : Nat) (m : F64) (e : Int) (le : m.val ≤ 2 ^ fuel) :
    ∃ m' e', halveLoop fuel m e = .ok (m', e') ∧ (m' = m ∨ .ofRat (3 / 4) ≤ m') := by
  induction fuel generalizing m e with
  | zero =>
    have small : ¬ F64.ofRat (3 / 2) ≤ m := by
      have bound : m ≤ 1 := F64.le_def.mpr (by simpa using le)
      have one_lt : (1 : F64) < .ofRat (3 / 2) := by decide +kernel
      exact not_le.mpr (bound.trans_lt one_lt)
    exact ⟨m, e, by simp only [halveLoop, small, ↓reduceIte], Or.inl rfl⟩
  | succ fuel ih =>
    by_cases large : F64.ofRat (3 / 2) ≤ m
    · have big : 3 / 2 ≤ m.val := by
        have value : (F64.ofRat (3 / 2)).val = 3 / 2 := by decide +kernel
        rw [← value]
        exact large
      have low : F64.ofRat (3 / 4) ≤ m / 2 := F64.ofRat_mono (by norm_num) (by
        rw [F64.val_two]
        linarith)
      have half : (m / 2).val ≤ 2 ^ fuel := by
        have power : (F64.ofRat (2 ^ fuel)).val = 2 ^ fuel :=
          F64.val_ofRat (representable_two_zpow (e := fuel) (by omega))
        rw [← power]
        apply F64.ofRat_mono
        · rw [F64.val_two]
          linarith
        · rw [F64.val_two]
          rw [pow_succ] at le
          linarith
      obtain ⟨m', e', run, origin⟩ := ih (m / 2) (e + 1) half
      refine ⟨m', e', by simp only [halveLoop, large, ↓reduceIte, run], Or.inr ?_⟩
      rcases origin with rfl | reached
      · exact low
      · exact reached
    · exact ⟨m, e, by simp only [halveLoop, large, ↓reduceIte], Or.inl rfl⟩

/-- A number from `2 ^ -n` on is doubled at most `n` times. -/
theorem doubleLoop_ok (fuel : Nat) (few : fuel ≤ 1074) (m : F64) (e : Int)
    (le : (2 : Rat) ^ (-(fuel : Int)) ≤ m.val) :
    ∃ m' e', doubleLoop fuel m e = .ok (m', e') := by
  induction fuel generalizing m e with
  | zero =>
    have reached : ¬ m < F64.ofRat (3 / 4) := by
      have bound : 1 ≤ m := F64.le_def.mpr (by simpa using le)
      have lt_one : F64.ofRat (3 / 4) ≤ 1 := by decide +kernel
      exact not_lt.mpr (lt_one.trans bound)
    exact ⟨m, e, by simp only [doubleLoop, reached, ↓reduceIte]⟩
  | succ fuel ih =>
    by_cases short : m < F64.ofRat (3 / 4)
    · have twice : (2 : Rat) ^ (-(fuel : Int)) ≤ (m * 2).val := by
        have power : (F64.ofRat (2 ^ (-(fuel : Int)))).val = 2 ^ (-(fuel : Int)) :=
          F64.val_ofRat (representable_two_zpow (by omega))
        have split : (2 : Rat) ^ (-(fuel : Int)) = 2 ^ (-((fuel + 1 : Nat) : Int)) * 2 := by
          rw [← zpow_add_one₀ two_ne_zero]
          congr 1
          push_cast
          ring
        rw [← power]
        apply F64.ofRat_mono (two_zpow_pos _).le
        rw [F64.val_two, split]
        linarith
      obtain ⟨m', e', run⟩ := ih (by omega) (m * 2) (e - 1) twice
      exact ⟨m', e', by simp only [doubleLoop, short, ↓reduceIte, run]⟩
    · exact ⟨m, e, by simp only [doubleLoop, short, ↓reduceIte]⟩

/-- The logarithm of a positive number is computed: both loops end. -/
theorem dlog_ok {x : F64} (pos : 0 < x) : ∃ y, dlog x = .ok y := by
  have le : x.val ≤ 2 ^ Nat.clog 2 ⌈x.val⌉₊ := by
    calc x.val ≤ ⌈x.val⌉₊ := Nat.le_ceil _
      _ ≤ 2 ^ Nat.clog 2 ⌈x.val⌉₊ := by exact_mod_cast Nat.le_pow_clog (by decide) _
  obtain ⟨m, e, halved, origin⟩ := halveLoop_ok _ x 0 le
  have m_pos : 0 < m := by
    rcases origin with rfl | reached
    · exact pos
    · have : (0 : F64) < .ofRat (3 / 4) := by decide +kernel
      exact this.trans_le reached
  obtain ⟨m', e', doubled⟩ := doubleLoop_ok 1074 (le_refl _) m e (F64.two_zpow_le m_pos)
  exact ⟨_, by simp only [dlog, halved, doubled, exec_ok_bind]; rfl⟩

/-! ## The totals -/

theorem natCast_nonneg (n : Nat) : 0 ≤ (n : F64) := F64.ofRat_nonneg (Nat.cast_nonneg n)

theorem one_nonneg : (0 : F64) ≤ 1 := by
  rw [F64.nonneg_iff, F64.val_one]
  exact zero_le_one

theorem rho_nonneg (k d : Nat) : 0 ≤ rho k d := by
  unfold rho
  split
  · exact F64.nonneg_div one_nonneg (natCast_nonneg k)
  · exact F64.nonneg_div one_nonneg (natCast_nonneg _)

theorem tau_ok {r : F64} (one_le : 1 ≤ r) (spike k d : Nat) :
    ∃ t, tau r spike k d = .ok t ∧ 0 ≤ t := by
  have r_nonneg := one_nonneg.trans one_le
  unfold tau
  split
  · exact ⟨_, rfl, F64.nonneg_div r_nonneg (natCast_nonneg _)⟩
  split
  · have pos : 0 < r / SOLITON_DELTA := by
      have first : (0 : F64) < 1 / SOLITON_DELTA := by decide +kernel
      exact first.trans_le (F64.div_le_div_right one_nonneg one_le (by decide +kernel))
    obtain ⟨log, run⟩ := dlog_ok pos
    refine ⟨r * max log 0 / (k : F64), by rw [run, exec_ok_bind], ?_⟩
    exact F64.nonneg_div (F64.nonneg_mul r_nonneg (le_max_right _ _)) (natCast_nonneg k)
  · exact ⟨0, rfl, le_refl 0⟩

/-- The entries so far are ascending and none exceeds the total. -/
structure Totals (s : F64 × List F64) : Prop where
  nonneg : 0 ≤ s.1
  bound : ∀ x ∈ s.2, 0 ≤ x ∧ x ≤ s.1
  ascending : s.2.Pairwise (· ≤ ·)

theorem addDegree_ok {r : F64} (one_le : 1 ≤ r) (spike k d : Nat) {s : F64 × List F64}
    (totals : Totals s) :
    ∃ s', addDegree r spike k s d = .ok s' ∧ Totals s' ∧ s'.2.length = s.2.length + 1 ∧
      s.1 ≤ s'.1 ∧ rho k d ≤ s'.1 := by
  obtain ⟨t, run, t_nonneg⟩ := tau_ok one_le spike k d
  have part := F64.nonneg_add (rho_nonneg k d) t_nonneg
  have grows := F64.le_add totals.nonneg part
  have nonneg := totals.nonneg.trans grows
  have least := (F64.le_add (rho_nonneg k d) t_nonneg).trans (F64.le_add_left part totals.nonneg)
  generalize total_eq : s.1 + (rho k d + t) = total at grows nonneg least
  refine ⟨(total, s.2 ++ [total]), by rw [addDegree, run, exec_ok_bind, total_eq],
    ⟨nonneg, ?_, ?_⟩, by simp, grows, least⟩
  · intro x mem
    rcases List.mem_append.mp mem with old | new
    · exact ⟨(totals.bound x old).1, (totals.bound x old).2.trans grows⟩
    · rw [List.mem_singleton.mp new]
      exact ⟨nonneg, le_refl _⟩
  · apply List.pairwise_append.mpr
    refine ⟨totals.ascending, List.pairwise_singleton _ _, ?_⟩
    intro x old y new
    rw [List.mem_singleton.mp new]
    exact (totals.bound x old).2.trans grows

/-- The loop over the degrees makes one entry a turn. -/
theorem addDegrees_ok {r : F64} (one_le : 1 ≤ r) (spike k : Nat) (degrees : List Nat)
    {s : F64 × List F64} (totals : Totals s) :
    ∃ s', degrees.foldlM (addDegree r spike k) s = .ok s' ∧ Totals s' ∧
      s'.2.length = s.2.length + degrees.length ∧ s.1 ≤ s'.1 := by
  obtain ⟨s', run, totals', length, le⟩ := foldlM_ok (f := addDegree r spike k)
    (fun rest s' => Totals s' ∧ s'.2.length + rest.length = s.2.length + degrees.length ∧
      s.1 ≤ s'.1)
    (by
      rintro d rest s₁ ⟨totals₁, length₁, le₁⟩
      obtain ⟨s₂, run, totals₂, length₂, le₂, _⟩ := addDegree_ok one_le spike k d totals₁
      rw [List.length_cons] at length₁
      exact ⟨s₂, run, totals₂, by omega, le₁.trans le₂⟩)
    degrees s ⟨totals, rfl, le_refl _⟩
  exact ⟨s', run, totals', length, le⟩

theorem totals_nil : Totals ((0 : F64), []) := ⟨le_refl 0, by simp, List.Pairwise.nil⟩

theorem rho_one_pos {k : Nat} (pos : 0 < k) (le : k ≤ usizeMax) : 0 < rho k 1 := by
  have upper : (k : F64).val ≤ 2 ^ 64 := by
    have power : (F64.ofRat (2 ^ 64)).val = 2 ^ 64 :=
      F64.val_ofRat (representable_two_zpow (e := 64) (by decide))
    rw [← power]
    apply F64.ofRat_mono (Nat.cast_nonneg k)
    have : k ≤ 2 ^ 64 := by
      rw [usizeMax] at le
      omega
    exact_mod_cast this
  have lower : 1 ≤ (k : F64).val := by
    rw [← F64.val_one, ← F64.ofRat_val 1, F64.val_one]
    exact F64.ofRat_mono zero_le_one (by exact_mod_cast pos)
  have least : F64.ofRat (2 ^ (-64 : Int)) ≤ 1 / (k : F64) := by
    apply F64.ofRat_mono (two_zpow_pos _).le
    rw [F64.val_one, zpow_neg, ← one_div]
    exact one_div_le_one_div_of_le (zero_lt_one.trans_le lower) (by exact_mod_cast upper)
  have positive : (0 : F64) < .ofRat (2 ^ (-64 : Int)) := by decide +kernel
  exact positive.trans_le least

/-- The total that the entries are divided by is positive. -/
theorem total_pos {r : F64} (one_le : 1 ≤ r) (spike : Nat) {k : Nat} (pos : 0 < k)
    (le : k ≤ usizeMax) :
    ∃ s, (List.range' 1 k).foldlM (addDegree r spike k) (0, []) = .ok s ∧ 0 < s.1 := by
  obtain ⟨n, rfl⟩ : ∃ n, k = n + 1 := ⟨k - 1, by omega⟩
  obtain ⟨s₁, run, totals₁, _, _, first⟩ := addDegree_ok one_le spike (n + 1) 1 totals_nil
  obtain ⟨s₂, runs, _, _, grows⟩ :=
    addDegrees_ok one_le spike (n + 1) (List.range' 2 n) totals₁
  refine ⟨s₂, ?_, (rho_one_pos pos le).trans_le (first.trans grows)⟩
  rw [List.range'_succ, List.foldlM_cons, run, exec_ok_bind, runs]

/-- Divided by the total, with 1 at the end, the entries are a distribution. -/
theorem Totals.isCdf {s : F64 × List F64} (totals : Totals s) {k : Nat} (pos : 0 < k)
    (length : s.2.length = k) :
    IsCdf (((s.2.map (· / s.1)).set (k - 1) 1).map F64.val) := by
  have shape : (s.2.map (· / s.1)).set (k - 1) 1 = (s.2.take (k - 1)).map (· / s.1) ++ [1] := by
    rw [List.set_eq_take_append_cons_drop, if_pos (by simp; omega),
      List.drop_eq_nil_of_le (by simp; omega), List.map_take]
  rw [shape, List.map_append]
  constructor
  · simp
  · apply List.pairwise_append.mpr
    refine ⟨?_, List.pairwise_singleton _ _, ?_⟩
    · rw [List.pairwise_map, List.pairwise_map]
      apply (totals.ascending.sublist (List.take_sublist _ _)).imp_of_mem
      intro x y mem _ le
      exact F64.div_le_div_right (totals.bound x (List.mem_of_mem_take mem)).1 le totals.nonneg
    · intro x mem y one
      obtain ⟨_, quotient, rfl⟩ := List.mem_map.mp mem
      obtain ⟨z, entry, rfl⟩ := List.mem_map.mp quotient
      rw [List.mem_singleton.mp one]
      have := totals.bound z (List.mem_of_mem_take entry)
      exact F64.div_le_one_of_le this.1 this.2
  · rw [List.map_singleton, F64.val_one, List.getLast?_concat]

/-- The table of `k` entries is a distribution. -/
theorem solitonCdf_ok (libmSqrt : F64 → F64) (k : Nat) :
    ∃ cdf, solitonCdf libmSqrt k = .ok cdf ∧ cdf.length = k ∧
      (0 < k → IsCdf (cdf.map F64.val)) := by
  unfold solitonCdf
  split
  · rename_i zero
    exact ⟨[], rfl, zero.symm, fun pos => absurd zero pos.ne'⟩
  split
  · rename_i one
    refine ⟨[1], rfl, one.symm, fun _ => ?_⟩
    rw [List.map_singleton, F64.val_one]
    exact ⟨by simp, List.pairwise_singleton _ _, rfl⟩
  · have pos : (0 : F64) < (k : F64) / SOLITON_DELTA := by
      have first : (0 : F64) < 1 / SOLITON_DELTA := by decide +kernel
      apply first.trans_le
      apply F64.div_le_div_right one_nonneg _ (by decide +kernel)
      rw [← F64.ofRat_val 1, F64.val_one]
      exact F64.ofRat_mono zero_le_one (by exact_mod_cast (show 1 ≤ k by omega))
    obtain ⟨log, run⟩ := dlog_ok pos
    simp only [run, exec_ok_bind]
    have one_le : 1 ≤ max (SOLITON_C * log * libmSqrt k) 1 := le_max_right _ _
    generalize max (SOLITON_C * log * libmSqrt k) 1 = r at one_le ⊢
    obtain ⟨s, runs, totals, length, _⟩ := addDegrees_ok one_le
      (min (⌈((k : F64) / r).val⌉ : Rat) (k : F64).val).floor.toNat k (List.range' 1 k) totals_nil
    have count : s.2.length = k := by simpa using length
    simp only [runs, exec_ok_bind]
    exact ⟨_, rfl, by simp [count], fun pos => totals.isCdf pos count⟩

/-- The tables of `soliton_cdf`, as the sampler reads them. -/
def robustSoliton (libmSqrt : F64 → F64) : SolitonCdf where
  cdf k := match solitonCdf libmSqrt k with
    | .ok cdf => cdf.map F64.val
    | .error _ => List.replicate k 1
  length_cdf k := by
    obtain ⟨cdf, run, length, _⟩ := solitonCdf_ok libmSqrt k
    simp only [run, List.length_map, length]

/-- The square root of 2, the only one that two blocks need. -/
def sqrtTwo (_ : F64) : F64 := .ofRat (6369051672525773 / 2 ^ 52)

example : (robustSoliton sqrtTwo).cdf 2 = twoBlockSoliton.cdf 2 := by
  decide +kernel

/-- What the sampler is built from: a distribution that reaches 1 in time. -/
theorem robustSoliton_new (libmSqrt : F64 → F64) {k : Nat} (pos : 0 < k) (le : k ≤ 2 ^ 32) :
    ∃ table cdf, solitonCdf libmSqrt k = .ok table ∧ table.length = k ∧
      IsCdf (table.map F64.val) ∧ 1 ∈ (table.map F64.val).take (2 ^ 32) ∧
      DegreeCdf.new (robustSoliton libmSqrt) k = .ok cdf ∧
      DegreeCdf.ofCdf (table.map F64.val) = .ok cdf ∧ cdf.WF ∧ cdf.k = k := by
  obtain ⟨table, run, length, isCdf⟩ := solitonCdf_ok libmSqrt k
  have same : (robustSoliton libmSqrt).cdf k = table.map F64.val := by
    simp only [robustSoliton, run]
  obtain ⟨cdf, new, cdf_eq, wf⟩ := DegreeCdf.new_ok (robustSoliton libmSqrt) pos
  have near : 1 ∈ (table.map F64.val).take (2 ^ 32) := by
    rw [List.take_of_length_le (by rw [List.length_map, length]; exact le)]
    exact List.mem_of_getLast? (isCdf pos).last
  refine ⟨table, cdf, run, length, isCdf pos, near, new, ?_, wf, ?_⟩
  · rw [← same]
    exact new
  · rw [DegreeCdf.k, cdf_eq, same, List.length_map, length]

end DeOptiTransfer
