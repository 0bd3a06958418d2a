import DeOptiTransfer.Prng
import DeOptiTransfer.Soliton

/-!
# Index subsets of repair frames

`frame_indices_into` and `select_blocks` of `fountain.rs`. The caller's `out`
and `scratch` vectors are arguments and results, as they are reused between
calls.

* `selectBlocks_ok`: `d` distinct indices below `k`, in both branches and
  whatever is left in the scratch vector;
* `subset`: the list itself, a function of the distribution, the session and
  the sequence number;
* `frameIndicesInto_ok`: every call returns it, whatever the buffers hold.
-/

namespace DeOptiTransfer

/-- `xs.swap(i, j)` -/
def swapAt (xs : List Nat) (i j : Nat) : Exec (List Nat) := do
  let a ← getAt xs i
  let b ← getAt xs j
  .ok ((xs.set i b).set j a)

def shuffleTurn (k : Nat) (s : List Nat × List Nat × SplitMix32) (i : Nat) :
    Exec (List Nat × List Nat × SplitMix32) := do
  let (out, scratch, rnd) := s
  let rest ← checkedSub k i
  let (r, rnd) := rnd.nextBounded (UInt32.ofNat rest)
  let j := i + r.toNat
  let scratch ← swapAt scratch i j
  let b ← getAt scratch i
  .ok (out ++ [b], scratch, rnd)

/-- The rejection loop: draw until `d` distinct indices are there. -/
def rejectionLoop (k d : Nat) : Nat → List Nat → SplitMix32 → Exec (List Nat × SplitMix32)
  | 0, out, rnd => if out.length < d then .error .diverges else .ok (out, rnd)
  | fuel + 1, out, rnd =>
    if out.length < d then
      let (v, rnd) := rnd.nextBounded (UInt32.ofNat k)
      if out.contains v.toNat then rejectionLoop k d fuel out rnd
      else rejectionLoop k d fuel (out ++ [v.toNat]) rnd
    else .ok (out, rnd)

/-- The rejection loop gets `2^32` draws for each index, a full period of the
generator. -/
def selectBlocks (out scratch : List Nat) (k d : Nat) (rnd : SplitMix32) :
    Exec (List Nat × List Nat × SplitMix32) :=
  if d > k >>> 3 then
    let scratch := if scratch.length < k
      then scratch ++ List.replicate (k - scratch.length) 0 else scratch
    let scratch := List.range scratch.length
    (List.range d).foldlM (shuffleTurn k) (out, scratch, rnd)
  else do
    let (out, rnd) ← rejectionLoop k d (d * 2 ^ 32) out rnd
    .ok (out, scratch, rnd)

/-- The old content of `out` is cleared. -/
def frameIndicesInto (_out scratch : List Nat) (cdf : DegreeCdf) (sessionId seq : UInt32) :
    Exec (List Nat × List Nat) := do
  let rnd := SplitMix32.new (frameSeed sessionId seq)
  let (t, rnd) := rnd.nextU32
  let u : Rat := t.toNat / 4294967296
  let k := cdf.k
  let degree ← cdf.sample u
  let d := min degree k
  let (out, scratch, _) ← selectBlocks [] scratch k d rnd
  .ok (out, scratch)

/-! ## The partial shuffle -/

theorem nextBounded_lt (r : SplitMix32) {n : Nat} (pos : 0 < n) (lt : n < 2 ^ 32) :
    (r.nextBounded (UInt32.ofNat n)).1.toNat < n := by
  have value : (UInt32.ofNat n).toNat = n := UInt32.toNat_ofNat_of_lt' lt
  have ne : UInt32.ofNat n ≠ 0 := by
    intro zero
    have := congrArg UInt32.toNat zero
    rw [value, UInt32.toNat_zero] at this
    omega
  simp only [SplitMix32.nextBounded, ne, ↓reduceIte, UInt32.toNat_mod, value]
  exact Nat.mod_lt _ pos

/-- A swap inside the front part leaves the rest of the vector alone. -/
theorem swapAt_append (xs tail : List Nat) {i j : Nat} (hi : i < xs.length) (hj : j < xs.length) :
    swapAt (xs ++ tail) i j = .ok ((xs.set i xs[j]).set j xs[i] ++ tail) := by
  have hi' : i < (xs ++ tail).length := by simp; omega
  have hj' : j < (xs ++ tail).length := by simp; omega
  simp only [swapAt, getAt_of_lt hi', getAt_of_lt hj', exec_ok_bind,
    List.getElem_append_left hi, List.getElem_append_left hj]
  rw [List.set_append_left _ _ hi, List.set_append_left _ _ (by simpa using hj)]

/-- The shuffle of a vector that is longer than `k` is the shuffle of its
first `k` entries. What has been put out is the front of the vector. -/
theorem shuffle_ok (k d : Nat) (hd : d ≤ k) (lt : k < 2 ^ 32) (tail : List Nat)
    (rnd : SplitMix32) :
    ∃ xs rnd', xs.Perm (List.range k) ∧
      (List.range d).foldlM (shuffleTurn k) ([], List.range k, rnd) =
        .ok (xs.take d, xs, rnd') ∧
      (List.range d).foldlM (shuffleTurn k) ([], List.range k ++ tail, rnd) =
        .ok (xs.take d, xs ++ tail, rnd') := by
  induction d with
  | zero => exact ⟨List.range k, rnd, List.Perm.refl _, rfl, rfl⟩
  | succ i ih =>
    obtain ⟨xs, r, perm, plain, longer⟩ := ih (by omega)
    have len : xs.length = k := by rw [perm.length_eq, List.length_range]
    obtain ⟨n, r', eq⟩ : ∃ n r', r.nextBounded (UInt32.ofNat (k - i)) = (n, r') := ⟨_, _, rfl⟩
    have draw := nextBounded_lt r (n := k - i) (by omega) (by omega)
    simp only [eq] at draw
    have hi : i < xs.length := by omega
    have hj : i + n.toNat < xs.length := by omega
    let ys := (xs.set i xs[i + n.toNat]).set (i + n.toNat) xs[i]
    have ys_len : ys.length = xs.length := by simp [ys]
    have front : ys.take i ++ [ys[i]] = ys.take (i + 1) := by
      rw [List.take_add_one, List.getElem?_eq_getElem (by omega)]
      rfl
    have kept : ys.take i = xs.take i := by
      simp only [ys]
      rw [List.take_set_of_le (by omega), List.take_set_of_le (by omega)]
    have turn (t : List Nat) :
        shuffleTurn k (xs.take i, xs ++ t, r) i = .ok (ys.take (i + 1), ys ++ t, r') := by
      simp only [shuffleTurn, checkedSub_of_le (show i ≤ k by omega), exec_ok_bind, eq,
        swapAt_append xs t hi hj]
      have inside : i < (ys ++ t).length := by simp; omega
      rw [getAt_of_lt inside, exec_ok_bind, List.getElem_append_left (by omega), ← kept, front]
    refine ⟨ys, r', (List.set_set_perm hi hj).trans perm, ?_, ?_⟩
    · have := turn []
      simp only [List.append_nil] at this
      rw [List.range_succ, List.foldlM_append, plain, exec_ok_bind, List.foldlM_cons, this,
        exec_ok_bind, List.foldlM_nil, exec_pure]
    · rw [List.range_succ, List.foldlM_append, longer, exec_ok_bind, List.foldlM_cons, turn tail,
        exec_ok_bind, List.foldlM_nil, exec_pure]

/-! ## The rejection loop -/

/-- Draws that are already in the list only advance the generator. -/
theorem rejectionLoop_skip (k d fuel : Nat) (out : List Nat) (short : out.length < d) (n : Nat)
    (rnd : SplitMix32)
    (known : ∀ j, j < n → ((rnd.skip j).nextBounded (UInt32.ofNat k)).1.toNat ∈ out)
    (nonzero : UInt32.ofNat k ≠ 0) :
    rejectionLoop k d (n + fuel) out rnd = rejectionLoop k d fuel out (rnd.skip n) := by
  induction n generalizing rnd with
  | zero => rw [Nat.zero_add, SplitMix32.skip_zero]
  | succ n ih =>
    have first := known 0 (by omega)
    rw [SplitMix32.skip_zero] at first
    have next : (rnd.nextBounded (UInt32.ofNat k)).2 = rnd.nextU32.2 := by
      simp [SplitMix32.nextBounded, nonzero]
    rw [Nat.add_right_comm, rejectionLoop]
    simp only [short, ↓reduceIte, List.contains_iff_mem, first]
    rw [next, ih, SplitMix32.nextU32_skip]
    intro j hj
    rw [SplitMix32.nextU32_skip]
    exact known (j + 1) (by omega)

theorem exists_missing {k : Nat} {out : List Nat} (short : out.length < k) :
    ∃ v, v < k ∧ v ∉ out := by
  by_contra none
  push Not at none
  have sub : List.range k ⊆ out := fun v hv => none v (List.mem_range.mp hv)
  have := (List.nodup_range (n := k)).length_le_of_subset sub
  rw [List.length_range] at this
  omega

/-- Within one period of the generator there is a draw that is not in the list
yet, and the first such draw is below `k`. -/
theorem exists_fresh_draw {k : Nat} (lt : k < 2 ^ 32) {out : List Nat} (short : out.length < k)
    (rnd : SplitMix32) :
    ∃ n, n < 2 ^ 32 ∧ ((rnd.skip n).nextBounded (UInt32.ofNat k)).1.toNat ∉ out ∧
      ∀ j, j < n → ((rnd.skip j).nextBounded (UInt32.ofNat k)).1.toNat ∈ out := by
  obtain ⟨v, hv, fresh⟩ := exists_missing short
  obtain ⟨m, hm, draw⟩ := rnd.draws_every_word (UInt32.ofNat v)
  have value : ((rnd.skip m).nextBounded (UInt32.ofNat k)).1.toNat = v := by
    have hk : (UInt32.ofNat k).toNat = k := UInt32.toNat_ofNat_of_lt' lt
    have hv' : (UInt32.ofNat v).toNat = v :=
      UInt32.toNat_ofNat_of_lt' (show v < UInt32.size by simp only [UInt32.size]; omega)
    have ne : UInt32.ofNat k ≠ 0 := by
      intro zero
      have := congrArg UInt32.toNat zero
      rw [hk, UInt32.toNat_zero] at this
      omega
    simp only [SplitMix32.nextBounded, ne, ↓reduceIte, draw, UInt32.toNat_mod, hk, hv']
    exact Nat.mod_eq_of_lt hv
  have some : ∃ n, ((rnd.skip n).nextBounded (UInt32.ofNat k)).1.toNat ∉ out :=
    ⟨m, by rw [value]; exact fresh⟩
  refine ⟨Nat.find some, ?_, Nat.find_spec some, ?_⟩
  · exact Nat.lt_of_le_of_lt (Nat.find_min' some (by rw [value]; exact fresh)) hm
  · intro j hj
    by_contra out
    exact Nat.find_min some hj out

theorem rejectionLoop_ok {k d : Nat} (pos : 0 < k) (lt : k < 2 ^ 32) (hd : d ≤ k) (fuel : Nat)
    (out : List Nat) (rnd : SplitMix32) (le : out.length ≤ d)
    (enough : (d - out.length) * 2 ^ 32 ≤ fuel) (nodup : out.Nodup) (below : ∀ b ∈ out, b < k) :
    ∃ out' rnd', rejectionLoop k d fuel out rnd = .ok (out', rnd') ∧ out'.length = d ∧
      out'.Nodup ∧ ∀ b ∈ out', b < k := by
  obtain ⟨missing, hm⟩ : ∃ m, d - out.length = m := ⟨_, rfl⟩
  induction missing generalizing fuel out rnd with
  | zero =>
    refine ⟨out, rnd, ?_, by omega, nodup, below⟩
    have done : ¬ out.length < d := by omega
    cases fuel <;> simp [rejectionLoop, done]
  | succ m ih =>
    have short : out.length < d := by omega
    have nonzero : UInt32.ofNat k ≠ 0 := by
      intro zero
      have := congrArg UInt32.toNat zero
      rw [UInt32.toNat_ofNat_of_lt' lt, UInt32.toNat_zero] at this
      omega
    obtain ⟨n, hn, fresh, known⟩ := exists_fresh_draw lt (by omega : out.length < k) rnd
    obtain ⟨fuel', rfl⟩ : ∃ fuel', fuel = n + (fuel' + 1) := ⟨fuel - n - 1, by omega⟩
    rw [rejectionLoop_skip k d _ out short n rnd known nonzero, rejectionLoop]
    simp only [short, ↓reduceIte, List.contains_iff_mem, fresh]
    have small := nextBounded_lt (rnd.skip n) pos lt
    generalize (rnd.skip n).nextBounded (UInt32.ofNat k) = draw at fresh small ⊢
    apply ih
    · simp only [List.length_append, List.length_singleton]; omega
    · simp only [List.length_append, List.length_singleton]
      have : d - (out.length + 1) = m := by omega
      rw [hm, Nat.succ_mul] at enough
      rw [this]
      generalize 2 ^ 32 = period at hn enough ⊢
      omega
    · rw [List.nodup_append]
      refine ⟨nodup, by simp, ?_⟩
      rintro a ha b hb rfl
      exact fresh (List.mem_singleton.mp hb ▸ ha)
    · intro b hb
      rcases List.mem_append.mp hb with hb | hb
      · exact below b hb
      · rw [List.mem_singleton.mp hb]; exact small
    · simp only [List.length_append, List.length_singleton]; omega

/-! ## The subset of a frame -/

theorem selectBlocks_ok {k d : Nat} (pos : 0 < k) (lt : k < 2 ^ 32) (hd : d ≤ k)
    (rnd : SplitMix32) :
    ∃ out, (out.length = d ∧ out.Nodup ∧ ∀ b ∈ out, b < k) ∧
      ∀ scratch, ∃ scratch' rnd', selectBlocks [] scratch k d rnd = .ok (out, scratch', rnd') := by
  by_cases dense : d > k >>> 3
  · obtain ⟨ys, rnd', perm, plain, _⟩ := shuffle_ok k d hd lt [] rnd
    have nodup : ys.Nodup := perm.nodup_iff.mpr List.nodup_range
    have len : ys.length = k := by rw [perm.length_eq, List.length_range]
    refine ⟨ys.take d, ⟨by simp; omega, nodup.sublist (List.take_sublist _ _), ?_⟩, ?_⟩
    · intro b hb
      exact List.mem_range.mp (perm.mem_iff.mp (List.mem_of_mem_take hb))
    · intro scratch
      simp only [selectBlocks, dense, ↓reduceIte]
      obtain ⟨n, hn⟩ : ∃ n, (if scratch.length < k
          then scratch ++ List.replicate (k - scratch.length) 0 else scratch).length = k + n := by
        split
        · exact ⟨0, by simp; omega⟩
        · exact ⟨scratch.length - k, by omega⟩
      obtain ⟨zs, r, _, plain', longer⟩ :=
        shuffle_ok k d hd lt ((List.range n).map (k + ·)) rnd
      rw [plain] at plain'
      simp only [Except.ok.injEq, Prod.mk.injEq] at plain'
      obtain ⟨front, rfl, rfl⟩ := plain'
      rw [hn, List.range_add, longer]
      exact ⟨_, _, rfl⟩
  · obtain ⟨out, rnd', eq, len, nodup, below⟩ :=
      rejectionLoop_ok pos lt hd (d * 2 ^ 32) [] rnd (by simp) (by simp) (by simp) (by simp)
    refine ⟨out, ⟨len, nodup, below⟩, fun scratch => ⟨scratch, rnd', ?_⟩⟩
    simp only [selectBlocks, dense, ↓reduceIte, eq, exec_ok_bind]

theorem swapAt_length {xs ys : List Nat} {i j : Nat} (h : swapAt xs i j = .ok ys) :
    ys.length = xs.length := by
  obtain ⟨a, _, h⟩ := exec_bind_eq_ok.mp h
  obtain ⟨b, _, h⟩ := exec_bind_eq_ok.mp h
  cases h
  rw [List.length_set, List.length_set]

theorem shuffleTurn_length {k i : Nat} {s s' : List Nat × List Nat × SplitMix32}
    (h : shuffleTurn k s i = .ok s') : s'.2.1.length = s.2.1.length := by
  obtain ⟨out, scratch, rnd⟩ := s
  obtain ⟨rest, _, h⟩ := exec_bind_eq_ok.mp h
  obtain ⟨scratch', swapped, h⟩ := exec_bind_eq_ok.mp h
  obtain ⟨b, _, h⟩ := exec_bind_eq_ok.mp h
  cases h
  exact swapAt_length swapped

theorem selectBlocks_scratch {out out' scratch scratch' : List Nat} {k d : Nat}
    {rnd rnd' : SplitMix32}
    (h : selectBlocks out scratch k d rnd = .ok (out', scratch', rnd')) :
    scratch'.length ≤ max scratch.length k := by
  unfold selectBlocks at h
  split at h
  · have kept := foldlM_keeps (fun s : List Nat × List Nat × SplitMix32 =>
        s.2.1.length ≤ max scratch.length k)
      (fun _ _ _ turn le => (shuffleTurn_length turn).trans_le le) h
    apply kept
    dsimp only
    rw [List.length_range]
    split
    · rw [List.length_append, List.length_replicate]
      omega
    · exact Nat.le_max_left _ _
  · obtain ⟨_, _, h⟩ := exec_bind_eq_ok.mp h
    cases h
    exact Nat.le_max_left _ _

theorem frameIndicesInto_scratch {out out' scratch scratch' : List Nat} {cdf : DegreeCdf}
    {sessionId seq : UInt32}
    (h : frameIndicesInto out scratch cdf sessionId seq = .ok (out', scratch')) :
    scratch'.length ≤ max scratch.length cdf.k := by
  obtain ⟨d, _, h⟩ := exec_bind_eq_ok.mp h
  obtain ⟨_, selected, h⟩ := exec_bind_eq_ok.mp h
  cases h
  exact selectBlocks_scratch selected

def subset (cdf : DegreeCdf) (sessionId seq : UInt32) : List Nat :=
  match frameIndicesInto [] [] cdf sessionId seq with
  | .ok (out, _) => out
  | .error _ => []

def draw (sessionId seq : UInt32) : UInt32 :=
  (SplitMix32.new (frameSeed sessionId seq)).nextU32.1

/-- The number a frame's degree is sampled with. -/
def degreeDraw (sessionId seq : UInt32) : Rat := (draw sessionId seq).toNat / 4294967296

theorem sample_draw {cdf : DegreeCdf} (wf : cdf.WF) (pos : 0 < cdf.k) (lt : cdf.k < 2 ^ 32)
    (sessionId seq : UInt32) :
    cdf.sample (degreeDraw sessionId seq) = .ok (subset cdf sessionId seq).length ∧
      1 ≤ (subset cdf sessionId seq).length ∧ (subset cdf sessionId seq).length ≤ cdf.k := by
  obtain ⟨rnd, next⟩ : ∃ rnd, (SplitMix32.new (frameSeed sessionId seq)).nextU32 =
      (draw sessionId seq, rnd) := ⟨_, rfl⟩
  obtain ⟨d, sample, low, high⟩ := DegreeCdf.sample_ok wf pos (degreeDraw sessionId seq)
  obtain ⟨out, ⟨length, _⟩, same⟩ := selectBlocks_ok pos lt high rnd
  obtain ⟨scratch, rnd', select⟩ := same []
  have value : subset cdf sessionId seq = out := by
    have sample' := sample
    rw [degreeDraw] at sample'
    simp only [subset, frameIndicesInto, next, sample', exec_ok_bind, Nat.min_eq_left high, select]
  rw [value, length]
  exact ⟨sample, low, high⟩

/-- Every call returns the same list, whatever earlier calls left in its
buffers: a non-empty list of distinct indices below `k`. -/
theorem frameIndicesInto_ok {cdf : DegreeCdf} (wf : cdf.WF) (pos : 0 < cdf.k)
    (lt : cdf.k < 2 ^ 32) (sessionId seq : UInt32) :
    (subset cdf sessionId seq ≠ [] ∧ (subset cdf sessionId seq).Nodup ∧
      ∀ b ∈ subset cdf sessionId seq, b < cdf.k) ∧
    ∀ out scratch, ∃ scratch',
      frameIndicesInto out scratch cdf sessionId seq = .ok (subset cdf sessionId seq, scratch') := by
  obtain ⟨t, rnd, draw⟩ : ∃ t rnd,
    (SplitMix32.new (frameSeed sessionId seq)).nextU32 = (t, rnd) := ⟨_, _, rfl⟩
  obtain ⟨d, sample, low, high⟩ := DegreeCdf.sample_ok wf pos ((t.toNat : Rat) / 4294967296)
  obtain ⟨out, ⟨len, nodup, below⟩, same⟩ := selectBlocks_ok pos lt high rnd
  have call : ∀ o scratch, ∃ scratch',
      frameIndicesInto o scratch cdf sessionId seq = .ok (out, scratch') := by
    intro o scratch
    obtain ⟨scratch', rnd', eq⟩ := same scratch
    exact ⟨scratch', by simp only [frameIndicesInto, draw, sample, exec_ok_bind,
      Nat.min_eq_left high, eq]⟩
  have value : subset cdf sessionId seq = out := by
    obtain ⟨scratch', eq⟩ := call [] []
    simp only [subset, eq]
  rw [value]
  refine ⟨⟨?_, nodup, below⟩, call⟩
  rintro rfl
  simp at len
  omega

end DeOptiTransfer
