import DeOptiTransfer.Base.Exec
import Mathlib.Algebra.Order.Ring.Rat
import Mathlib.Tactic.Linarith

/-!
# The degree sampler

`DegreeCdf` of `soliton.rs`: a cumulative distribution with 1025 precomputed
quantiles. The doubles of the distribution are the rationals they stand for;
every step of the sampler (comparison, a draw divided by `2^32`, the product
with 1024) is exact on them.

`DegreeCdf.sample_ok`: a sample of a non-empty distribution is a degree
between 1 and its length, whatever the entries are.
-/

namespace DeOptiTransfer

/-- `soliton_cdf` as a parameter: `k` gives a vector of `k` entries. What they
are, with logarithms and a square root, matters to no result over it. -/
structure SolitonCdf where
  cdf : Nat → List Rat
  length_cdf : ∀ k, (cdf k).length = k

def QUANT : Nat := 1024

structure DegreeCdf where
  cdf : List Rat
  quant : List Nat
  deriving DecidableEq

/-- The loop shared by `lower_bound` and `sample`, with the distance of its
ends as a bound on its turns. -/
def bisect (cdf : List Rat) (x : Rat) : Nat → Nat → Nat → Exec Nat
  | 0, lo, hi => if lo < hi then .error .diverges else .ok lo
  | fuel + 1, lo, hi =>
    if lo < hi then do
      let mid := (lo + hi) / 2
      let c ← getAt cdf mid
      if x ≤ c then bisect cdf x fuel lo mid else bisect cdf x fuel (mid + 1) hi
    else .ok lo

def lowerBound (cdf : List Rat) (x : Rat) : Exec Nat := do
  let hi ← checkedSub cdf.length 1
  bisect cdf x hi 0 hi

def degreeBinary (cdf : List Rat) (u : Rat) : Exec Nat :=
  if cdf.isEmpty then .ok 0
  else if u ≤ 0 then .ok 1
  else if 1 ≤ u then .ok cdf.length
  else do
    let lo ← lowerBound cdf u
    .ok (min (lo + 1) cdf.length)

namespace DegreeCdf

/-- `new`, from a given distribution. -/
def ofCdf (cdf : List Rat) : Exec DegreeCdf :=
  if cdf.isEmpty then .ok ⟨cdf, List.replicate (QUANT + 1) 0⟩
  else do
    let quant ← (List.range (QUANT + 1)).mapM fun i : Nat => do
      let q ← lowerBound cdf ((i : Rat) / QUANT)
      .ok (q % 2 ^ 32)
    .ok ⟨cdf, quant⟩

def new (soliton : SolitonCdf) (k : Nat) : Exec DegreeCdf := ofCdf (soliton.cdf k)

def k (c : DegreeCdf) : Nat := c.cdf.length

def sample (c : DegreeCdf) (u : Rat) : Exec Nat :=
  if c.cdf.isEmpty then .ok 0
  else if u ≤ 0 then .ok 1
  else if 1 ≤ u then .ok c.cdf.length
  else do
    let i := (u * QUANT).floor.toNat
    let lo ← getAt c.quant i
    let hi ← getAt c.quant (i + 1)
    let lo ← bisect c.cdf u (hi - lo) lo hi
    .ok (lo + 1)

/-- Every quantile is there and points into the distribution. -/
structure WF (c : DegreeCdf) : Prop where
  quant_length : c.quant.length = QUANT + 1
  quant_lt : ∀ q ∈ c.quant, q < c.cdf.length

end DegreeCdf

theorem bisect_ok (cdf : List Rat) (x : Rat) (fuel lo hi : Nat) (enough : hi - lo ≤ fuel)
    (bound : hi < cdf.length) :
    ∃ r, bisect cdf x fuel lo hi = .ok r ∧ lo ≤ r ∧ r ≤ max lo hi := by
  induction fuel generalizing lo hi with
  | zero =>
    have : ¬ lo < hi := by omega
    exact ⟨lo, by simp [bisect, this], by omega, by omega⟩
  | succ fuel ih =>
    by_cases lt : lo < hi
    · have inside : (lo + hi) / 2 < cdf.length := by omega
      simp only [bisect, lt, ↓reduceIte, getAt_of_lt inside, exec_ok_bind]
      split
      · obtain ⟨r, eq, low, high⟩ := ih lo ((lo + hi) / 2) (by omega) (by omega)
        exact ⟨r, eq, low, by omega⟩
      · obtain ⟨r, eq, low, high⟩ := ih ((lo + hi) / 2 + 1) hi (by omega) bound
        exact ⟨r, eq, by omega, by omega⟩
    · exact ⟨lo, by simp [bisect, lt], by omega, by omega⟩

theorem lowerBound_ok (cdf : List Rat) (x : Rat) (pos : 0 < cdf.length) :
    ∃ r, lowerBound cdf x = .ok r ∧ r < cdf.length := by
  obtain ⟨r, eq, _, high⟩ := bisect_ok cdf x (cdf.length - 1) 0 (cdf.length - 1)
    (by omega) (by omega)
  refine ⟨r, ?_, by omega⟩
  rw [lowerBound, checkedSub_of_le (by omega), exec_ok_bind, eq]

namespace DegreeCdf

theorem new_ok (soliton : SolitonCdf) {k : Nat} (pos : 0 < k) :
    ∃ c, new soliton k = .ok c ∧ c.cdf = soliton.cdf k ∧ c.WF := by
  have len := soliton.length_cdf k
  have nonempty : (soliton.cdf k).isEmpty = false := by
    rw [← Bool.not_eq_true, List.isEmpty_iff]
    intro nil
    rw [nil] at len
    simp only [List.length_nil] at len
    omega
  obtain ⟨quant, eq, quant_len, quant_lt⟩ :=
    mapM_ok (f := fun i : Nat => do
        let q ← lowerBound (soliton.cdf k) ((i : Rat) / QUANT)
        .ok (q % 2 ^ 32))
      (P := fun q => q < (soliton.cdf k).length) (List.range (QUANT + 1)) (by
        intro i _
        obtain ⟨r, hr, lt⟩ := lowerBound_ok (soliton.cdf k) ((i : Rat) / QUANT) (by omega)
        exact ⟨r % 2 ^ 32, by rw [hr, exec_ok_bind], by have := Nat.mod_le r (2 ^ 32); omega⟩)
  refine ⟨⟨soliton.cdf k, quant⟩, ?_, rfl, by simpa using quant_len, quant_lt⟩
  simp only [new, ofCdf, nonempty, Bool.false_eq_true, ↓reduceIte, eq, exec_ok_bind]

/-- A sample of a non-empty distribution is a degree of it. -/
theorem sample_ok {c : DegreeCdf} (wf : c.WF) (pos : 0 < c.k) (u : Rat) :
    ∃ d, c.sample u = .ok d ∧ 1 ≤ d ∧ d ≤ c.k := by
  have nonempty : c.cdf.isEmpty = false := by
    rw [← Bool.not_eq_true, List.isEmpty_iff]
    intro nil
    simp [k, nil] at pos
  unfold k at pos ⊢
  simp only [sample, nonempty, Bool.false_eq_true, ↓reduceIte]
  by_cases low : u ≤ 0
  · exact ⟨1, by simp [low], by omega, pos⟩
  · by_cases high : 1 ≤ u
    · exact ⟨c.cdf.length, by simp [low, high], pos, Nat.le_refl _⟩
    · -- `u` lies strictly between 0 and 1, so it falls in one of the 1024 buckets
      have bucket : (u * QUANT).floor.toNat < QUANT := by
        have : u * QUANT < (QUANT : Int) := by
          simp only [QUANT, Nat.cast_ofNat, Int.cast_ofNat]
          linarith
        have := Rat.floor_lt_iff.mpr this
        simp only [QUANT] at this ⊢
        omega
      have here : (u * QUANT).floor.toNat < c.quant.length := by rw [wf.quant_length]; omega
      have next : (u * QUANT).floor.toNat + 1 < c.quant.length := by rw [wf.quant_length]; omega
      obtain ⟨r, eq, _, le⟩ := bisect_ok c.cdf u
        (c.quant[(u * QUANT).floor.toNat + 1] - c.quant[(u * QUANT).floor.toNat])
        c.quant[(u * QUANT).floor.toNat] c.quant[(u * QUANT).floor.toNat + 1]
        (by omega) (wf.quant_lt _ (List.getElem_mem _))
      have lo_lt := wf.quant_lt _ (List.getElem_mem here)
      have hi_lt := wf.quant_lt _ (List.getElem_mem next)
      refine ⟨r + 1, ?_, by omega, by omega⟩
      simp only [low, high, ↓reduceIte, getAt_of_lt here, getAt_of_lt next, exec_ok_bind, eq]

end DegreeCdf

/-- The tables of `soliton_cdf` for one and for two blocks; the entries for
more blocks are ones. -/
def twoBlockSoliton : SolitonCdf where
  cdf k := if k = 2 then [4877790575015937 / 9007199254740992, 1] else List.replicate k 1
  length_cdf := by
    intro k
    split
    · rename_i two
      simp [two]
    · simp

def twoBlockCdf : DegreeCdf where
  cdf := [4877790575015937 / 9007199254740992, 1]
  quant := List.replicate 555 0 ++ List.replicate 470 1

theorem twoBlockCdf_eq : DegreeCdf.new twoBlockSoliton 2 = .ok twoBlockCdf := by
  decide +kernel

end DeOptiTransfer
