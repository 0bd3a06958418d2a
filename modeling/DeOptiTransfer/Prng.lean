import DeOptiTransfer.Base.Exec
import DeOptiTransfer.Base.Mixing

/-!
# The wire-format generator

`SplitMix32` and `frameSeed` of `prng.rs`. A draw is a bijection of a counter
that meets every word.

* `draws_every_word`: whatever the state, every word is drawn within the next
  `2^32` draws;
* `generator_loses_nothing`: the seed of a frame determines its sequence
  number and its session, the first `2^32` draws are all words, once each, and
  every residue is drawn.
-/

namespace DeOptiTransfer

structure SplitMix32 where
  state : UInt32
  deriving DecidableEq, Repr

namespace SplitMix32

def new (seed : UInt32) : SplitMix32 := ⟨seed⟩

/-- The output function of one draw. -/
def mix (state : UInt32) : UInt32 :=
  let t := state ^^^ (state >>> 16)
  let t := t * 0x21f0aaad
  let t := t ^^^ (t >>> 15)
  let t := t * 0x735a2d97
  t ^^^ (t >>> 15)

def nextU32 (r : SplitMix32) : UInt32 × SplitMix32 :=
  let state := r.state + 0x9e3779b9
  (mix state, ⟨state⟩)

def nextBounded (r : SplitMix32) (bound : UInt32) : UInt32 × SplitMix32 :=
  if bound = 0 then (0, r)
  else
    let (t, r) := r.nextU32
    (t % bound, r)

/-- The first `n` values of the iterator. -/
def draws (r : SplitMix32) : Nat → List UInt32
  | 0 => []
  | n + 1 =>
    let (t, r) := r.nextU32
    t :: draws r n

/-- The results of `n` calls of `next_bounded`. -/
def boundedDraws (bound : UInt32) (r : SplitMix32) : Nat → List UInt32
  | 0 => []
  | n + 1 =>
    let (t, r) := r.nextBounded bound
    t :: boundedDraws bound r n

/-- The generator after `n` draws. -/
def skip (r : SplitMix32) (n : Nat) : SplitMix32 := ⟨r.state + UInt32.ofNat n * 0x9e3779b9⟩

theorem skip_zero (r : SplitMix32) : r.skip 0 = r := by
  simp [skip]

theorem nextU32_skip (r : SplitMix32) (n : Nat) : r.nextU32.2.skip n = r.skip (n + 1) := by
  simp only [skip, nextU32, UInt32.ofNat_add, UInt32.add_mul, UInt32.add_assoc]
  rw [UInt32.add_comm 0x9e3779b9]
  rfl

theorem mix_injective : Function.Injective mix := by
  have shift16 := xorShift_injective (s := 16) (by decide) (by decide)
  have shift15 := xorShift_injective (s := 15) (by decide) (by decide)
  have mul1 := mul_injective_of_inverse (c := 0x21f0aaad) (i := 0x333c4925) (by decide)
  have mul2 := mul_injective_of_inverse (c := 0x735a2d97) (i := 0x97132227) (by decide)
  exact shift15.comp (mul2.comp (shift15.comp (mul1.comp shift16)))

/-- From any state, every word is one of the next `2^32` draws. -/
theorem draws_every_word (r : SplitMix32) (v : UInt32) :
    ∃ n, n < 2 ^ 32 ∧ (r.skip n).nextU32.1 = v := by
  obtain ⟨state, rfl⟩ := surjective_of_injective_u32 mix_injective v
  obtain ⟨n, lt, eq⟩ := weyl_surjective (c := 0x9e3779b9) (i := 0x144cbc89) (by decide)
    (r.state + 0x9e3779b9) state
  refine ⟨n, lt, ?_⟩
  simp only [nextU32, skip]
  rw [← eq, UInt32.add_assoc, UInt32.add_comm (UInt32.ofNat n * _), ← UInt32.add_assoc]

theorem draws_eq (r : SplitMix32) (n : Nat) :
    r.draws n = (List.range n).map fun i => (r.skip i).nextU32.1 := by
  induction n generalizing r with
  | zero => rfl
  | succ n ih =>
    have next : r.draws (n + 1) = r.nextU32.1 :: r.nextU32.2.draws n := rfl
    have later : (List.range n).map (fun i => (r.nextU32.2.skip i).nextU32.1) =
        (List.range n).map fun i => (r.skip (i + 1)).nextU32.1 := by
      simp only [nextU32_skip]
    rw [next, ih, later, List.range_succ_eq_map, List.map_cons, List.map_map, skip_zero]
    rfl

theorem boundedDraws_eq {bound : UInt32} (ne : bound ≠ 0) (r : SplitMix32) (n : Nat) :
    r.boundedDraws bound n = (r.draws n).map (· % bound) := by
  induction n generalizing r with
  | zero => rfl
  | succ n ih => simp only [boundedDraws, draws, nextBounded, ne, ↓reduceIte, List.map_cons, ih]

/-- Two of `2^32` draws in a row are never the same. -/
theorem draws_nodup (r : SplitMix32) : (r.draws (2 ^ 32)).Nodup := by
  rw [draws_eq]
  apply List.Nodup.map_on _ List.nodup_range
  intro m hm n hn same
  rw [List.mem_range] at hm hn
  have states := mix_injective same
  rw [UInt32.add_left_inj, skip, skip, UInt32.add_right_inj] at states
  have counters := mul_injective_of_inverse (c := 0x9e3779b9) (i := 0x144cbc89) (by decide) states
  have value := congrArg UInt32.toNat counters
  rwa [UInt32.toNat_ofNat_of_lt' hm, UInt32.toNat_ofNat_of_lt' hn] at value

theorem mem_draws (r : SplitMix32) (v : UInt32) : v ∈ r.draws (2 ^ 32) := by
  obtain ⟨n, lt, draw⟩ := r.draws_every_word v
  rw [draws_eq]
  exact List.mem_map.mpr ⟨n, List.mem_range.mpr lt, draw⟩

/-- All 32-bit words in order. -/
def allWords : List UInt32 := (List.range (2 ^ 32)).map UInt32.ofNat

theorem allWords_nodup : allWords.Nodup := by
  apply List.Nodup.map_on _ List.nodup_range
  intro m hm n hn same
  rw [List.mem_range] at hm hn
  have value := congrArg UInt32.toNat same
  rwa [UInt32.toNat_ofNat_of_lt' hm, UInt32.toNat_ofNat_of_lt' hn] at value

theorem mem_allWords (v : UInt32) : v ∈ allWords :=
  List.mem_map.mpr ⟨v.toNat, List.mem_range.mpr v.toNat_lt, UInt32.ofNat_toNat⟩

/-- The first `2^32` draws are all words, in some order. -/
theorem draws_perm (r : SplitMix32) : (r.draws (2 ^ 32)).Perm allWords := by
  rw [List.perm_ext_iff_of_nodup r.draws_nodup allWords_nodup]
  intro v
  simp only [mem_draws, mem_allWords]

theorem mem_boundedDraws (r : SplitMix32) {bound v : UInt32} (lt : v < bound) :
    v ∈ r.boundedDraws bound (2 ^ 32) := by
  have ne : bound ≠ 0 := by
    rintro rfl
    exact absurd lt (UInt32.not_lt.mpr (UInt32.zero_le))
  rw [boundedDraws_eq ne]
  exact List.mem_map.mpr ⟨v, mem_draws r v, UInt32.mod_eq_of_lt lt⟩

end SplitMix32

/-- The seed of a frame's generator. -/
def frameSeed (sessionId seq : UInt32) : UInt32 :=
  let h := (sessionId + 1) * 0x9e3779b1 ^^^ (seq + 0x85ebca6b)
  let h := (h ^^^ (h >>> 13)) * 0xc2b2ae35
  h ^^^ (h >>> 16)

/-- The steps of `frameSeed` after the two arguments are joined. -/
theorem seedMix_injective : Function.Injective fun h : UInt32 =>
    let h := (h ^^^ (h >>> 13)) * 0xc2b2ae35
    h ^^^ (h >>> 16) := by
  have shift13 := xorShift_injective (s := 13) (by decide) (by decide)
  have shift16 := xorShift_injective (s := 16) (by decide) (by decide)
  have mul := mul_injective_of_inverse (c := 0xc2b2ae35) (i := 0x7ed1b41d) (by decide)
  exact shift16.comp (mul.comp shift13)

theorem frameSeed_injective (sessionId : UInt32) : Function.Injective (frameSeed sessionId) := by
  intro a b same
  have joined := seedMix_injective same
  exact UInt32.add_left_inj _ |>.mp (UInt32.xor_right_inj _ |>.mp joined)

theorem frameSeed_injective_session (seq : UInt32) :
    Function.Injective fun sessionId => frameSeed sessionId seq := by
  intro a b same
  have joined := seedMix_injective same
  have mul := mul_injective_of_inverse (c := 0x9e3779b1) (i := 0x0e8b2f51) (by decide)
  exact UInt32.add_left_inj _ |>.mp (mul (UInt32.xor_left_inj _ |>.mp joined))

theorem bijective_of_injective_u32 {f : UInt32 → UInt32} (h : Function.Injective f) :
    Function.Bijective f :=
  ⟨h, surjective_of_injective_u32 h⟩

open SplitMix32 in
/-- No seed and no value is lost. -/
theorem generator_loses_nothing :
    (∀ sessionId, Function.Bijective (frameSeed sessionId)) ∧
    (∀ seq, Function.Bijective fun sessionId => frameSeed sessionId seq) ∧
    (∀ seed, ((new seed).draws (2 ^ 32)).Perm allWords) ∧
    (∀ sessionId, Function.Injective fun seq => new (frameSeed sessionId seq)) ∧
    (∀ sessionId, Function.Injective fun seq => (new (frameSeed sessionId seq)).nextU32.1) ∧
    ∀ (r : SplitMix32) (bound v : UInt32), v < bound → v ∈ r.boundedDraws bound (2 ^ 32) := by
  have states : ∀ sessionId, Function.Injective fun seq => new (frameSeed sessionId seq) :=
    fun sessionId a b same => frameSeed_injective sessionId (congrArg SplitMix32.state same)
  refine ⟨fun sessionId => bijective_of_injective_u32 (frameSeed_injective sessionId),
    fun seq => bijective_of_injective_u32 (frameSeed_injective_session seq),
    fun seed => (new seed).draws_perm, states, ?_, fun r bound v => r.mem_boundedDraws⟩
  intro sessionId a b same
  have sums := mix_injective same
  rw [UInt32.add_left_inj] at sums
  exact frameSeed_injective sessionId sums

end DeOptiTransfer
