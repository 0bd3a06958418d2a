import DeOptiTransfer.Base.Selection
import DeOptiTransfer.Fountain.Indices

/-!
# What is selected

`select_blocks` as a function of the numbers it draws, and that no blocks are
preferred by it: what bias there is lies in the numbers.

* `shuffle_run`, `rejectionLoop_run`: the two branches as selections;
* `selectBlocks_value`: what is selected;
* `selectBlocks_fair`: the call.
-/

namespace DeOptiTransfer

/-- The draws of the partial shuffle, from `n` places on. -/
def shuffleDraws : Nat → Nat → SplitMix32 → List Nat
  | _, 0, _ => []
  | n, d + 1, rnd =>
    let (r, rnd) := rnd.nextBounded (UInt32.ofNat n)
    r.toNat :: shuffleDraws (n - 1) d rnd

/-- The draws of the rejection loop. -/
def rejectionDraws (k : Nat) : Nat → SplitMix32 → List Nat
  | 0, _ => []
  | n + 1, rnd =>
    let (v, rnd) := rnd.nextBounded (UInt32.ofNat k)
    v.toNat :: rejectionDraws k n rnd

theorem shuffleDraws_length (n d : Nat) (rnd : SplitMix32) : (shuffleDraws n d rnd).length = d := by
  induction d generalizing n rnd with
  | zero => rfl
  | succ d ih => simp only [shuffleDraws, List.length_cons, ih]

theorem shuffleDraws_admissible {n d : Nat} (le : d ≤ n) (lt : n < 2 ^ 32) (rnd : SplitMix32) :
    Admissible n (shuffleDraws n d rnd) := by
  induction d generalizing n rnd with
  | zero => exact trivial
  | succ d ih => exact ⟨nextBounded_lt rnd (by omega) lt, ih (by omega) (by omega) _⟩

theorem rejectionDraws_length (k n : Nat) (rnd : SplitMix32) :
    (rejectionDraws k n rnd).length = n := by
  induction n generalizing rnd with
  | zero => rfl
  | succ n ih => simp only [rejectionDraws, List.length_cons, ih]

theorem rejectionDraws_lt {k : Nat} (pos : 0 < k) (lt : k < 2 ^ 32) (n : Nat) (rnd : SplitMix32) :
    ∀ v ∈ rejectionDraws k n rnd, v < k := by
  induction n generalizing rnd with
  | zero => simp [rejectionDraws]
  | succ n ih =>
    intro v mem
    rcases List.mem_cons.mp mem with rfl | mem
    · exact nextBounded_lt rnd pos lt
    · exact ih _ v mem

/-! ## The partial shuffle -/

/-- A swap of the first of the places that are left. -/
theorem swapAt_behind (out : List Nat) {rest : List Nat} {r b : Nat} (found : rest[r]? = some b) :
    swapAt (out ++ rest) out.length (out.length + r) = .ok (out ++ b :: behind rest r) := by
  obtain ⟨lt, entry⟩ := List.getElem?_eq_some_iff.mp found
  have here : out.length < (out ++ rest).length := by
    rw [List.length_append]
    omega
  have there : out.length + r < (out ++ rest).length := by
    rw [List.length_append]
    omega
  simp only [swapAt, getAt_of_lt here, getAt_of_lt there, exec_ok_bind]
  cases rest with
  | nil => cases lt
  | cons y ys =>
    simp only [List.getElem_append_right (Nat.le_refl out.length), Nat.sub_self,
      List.getElem_cons_zero, List.getElem_append_right (Nat.le_add_right out.length r),
      Nat.add_sub_cancel_left, entry]
    rw [List.set_append_right _ _ (Nat.le_refl _), Nat.sub_self, List.set_cons_zero,
      List.set_append_right _ _ (Nat.le_add_right _ _), Nat.add_sub_cancel_left]
    cases r with
    | zero =>
      cases entry
      rfl
    | succ r => rfl

theorem shuffle_run {k : Nat} (lt : k < 2 ^ 32) (d : Nat) {out rest : List Nat}
    (places : out.length + rest.length = k) (le : d ≤ rest.length) (rnd : SplitMix32) :
    ∃ scratch rnd', (List.range' out.length d).foldlM (shuffleTurn k) (out, out ++ rest, rnd) =
      .ok (out ++ arrange rest (shuffleDraws rest.length d rnd), scratch, rnd') := by
  induction d generalizing out rest rnd with
  | zero => exact ⟨_, _, by rw [shuffleDraws, arrange, List.append_nil]; rfl⟩
  | succ d ih =>
    obtain ⟨r, rnd', draw⟩ : ∃ r rnd', rnd.nextBounded (UInt32.ofNat rest.length) = (r, rnd') :=
      ⟨_, _, rfl⟩
    have below := nextBounded_lt rnd (n := rest.length) (by omega) (by omega)
    rw [draw] at below
    dsimp only at below
    have found := List.getElem?_eq_getElem below
    generalize rest[r.toNat] = b at found
    have length := length_behind found
    have turn : shuffleTurn k (out, out ++ rest, rnd) out.length =
        .ok (out ++ [b], (out ++ [b]) ++ behind rest r.toNat, rnd') := by
      have left : k - out.length = rest.length := by omega
      have placed : out.length < (out ++ b :: behind rest r.toNat).length := by
        rw [List.length_append, List.length_cons]
        omega
      simp only [shuffleTurn, checkedSub_of_le (show out.length ≤ k by omega), exec_ok_bind, left,
        draw, swapAt_behind out found, getAt_of_lt placed,
        List.getElem_append_right (Nat.le_refl out.length), Nat.sub_self, List.getElem_cons_zero,
        List.append_assoc, List.singleton_append]
    have count : (out ++ [b]).length = out.length + 1 := by
      rw [List.length_append, List.length_singleton]
    have places' : (out ++ [b]).length + (behind rest r.toNat).length = k := by omega
    obtain ⟨scratch, rnd'', run⟩ := ih places' (by omega) rnd'
    refine ⟨scratch, rnd'', ?_⟩
    rw [List.range'_succ, List.foldlM_cons, turn, exec_ok_bind, ← count, run, length]
    simp only [shuffleDraws, draw, arrange_cons found, List.append_assoc, List.singleton_append]

/-! ## The rejection loop -/

theorem rejectionLoop_run {k d : Nat} {fuel : Nat} {out out' : List Nat} {rnd rnd' : SplitMix32}
    (run : rejectionLoop k d fuel out rnd = .ok (out', rnd')) :
    collect d out (rejectionDraws k fuel rnd) = out' := by
  induction fuel generalizing out rnd with
  | zero =>
    rw [rejectionLoop] at run
    split at run
    · cases run
    · cases run
      rfl
  | succ fuel ih =>
    rw [rejectionLoop] at run
    split at run
    · rename_i short
      simp only [List.contains_iff_mem] at run
      simp only [rejectionDraws, collect, short, ↓reduceIte]
      split at run
      · rename_i known
        rw [if_pos known]
        exact ih run
      · rename_i fresh
        rw [if_neg fresh]
        exact ih run
    · rename_i full
      cases run
      simp only [rejectionDraws, collect, full, ↓reduceIte]

/-! ## The call -/

theorem selectBlocks_value {k d : Nat} (pos : 0 < k) (lt : k < 2 ^ 32) (le : d ≤ k)
    (rnd : SplitMix32) (scratch : List Nat) :
    ∃ scratch' rnd', selectBlocks [] scratch k d rnd =
      .ok (if d > k >>> 3 then arrange (List.range k) (shuffleDraws k d rnd)
        else collect d [] (rejectionDraws k (d * 2 ^ 32) rnd), scratch', rnd') := by
  obtain ⟨out, _, same⟩ := selectBlocks_ok pos lt le rnd
  have value : out = if d > k >>> 3 then arrange (List.range k) (shuffleDraws k d rnd)
      else collect d [] (rejectionDraws k (d * 2 ^ 32) rnd) := by
    obtain ⟨s, r, run⟩ := same []
    unfold selectBlocks at run
    split at run
    · rename_i dense
      have places : ([] : List Nat).length + (List.range k).length = k := by
        rw [List.length_nil, List.length_range, Nat.zero_add]
      obtain ⟨s', r', shuffled⟩ := shuffle_run lt d places (by rwa [List.length_range]) rnd
      rw [List.length_range, List.nil_append, List.nil_append, List.length_nil,
        ← List.range_eq_range'] at shuffled
      have resized : (if ([] : List Nat).length < k
          then [] ++ List.replicate (k - ([] : List Nat).length) 0 else []).length = k := by
        rw [if_pos (by simpa using pos)]
        simp
      dsimp only at run
      rw [resized, shuffled] at run
      cases run
      rw [if_pos dense]
    · rename_i sparse
      obtain ⟨⟨out', r'⟩, loop, run⟩ := exec_bind_eq_ok.mp run
      cases run
      rw [if_neg sparse, rejectionLoop_run loop]
  exact value ▸ same scratch

/-- The arrangements of `d` of the `k` blocks. -/
theorem subperm_range (k d : Nat) :
    {out : List Nat | out.length = d ∧ out.Subperm (List.range k)} =
      {out | out.length = d ∧ out.Nodup ∧ ∀ b ∈ out, b < k} := by
  ext out
  refine and_congr_right fun _ => ⟨?_, ?_⟩
  · intro sub
    refine ⟨?_, fun b mem => List.mem_range.mp (sub.subset mem)⟩
    obtain ⟨_, perm, sublist⟩ := sub
    exact perm.nodup_iff.mp (List.nodup_range.sublist sublist)
  · rintro ⟨nodup, below⟩
    exact nodup.subperm fun b mem => List.mem_range.mpr (below b mem)

/-- The selection is fair. `select_blocks` makes its blocks from the numbers it
draws alone, by a partial shuffle or by rejection; the shuffle makes every
arrangement of `d` blocks from exactly one choice of numbers, and the rejection
makes every arrangement from as many sequences of numbers as any other. -/
theorem selectBlocks_fair {k d : Nat} (pos : 0 < k) (lt : k < 2 ^ 32) (le : d ≤ k)
    (rnd : SplitMix32) (scratch : List Nat) :
    (∃ scratch' rnd', selectBlocks [] scratch k d rnd =
      .ok (if d > k >>> 3 then arrange (List.range k) (shuffleDraws k d rnd)
        else collect d [] (rejectionDraws k (d * 2 ^ 32) rnd), scratch', rnd')) ∧
    ((shuffleDraws k d rnd).length = d ∧ Admissible k (shuffleDraws k d rnd)) ∧
    (∀ n, (rejectionDraws k n rnd).length = n ∧ ∀ v ∈ rejectionDraws k n rnd, v < k) ∧
    Set.BijOn (arrange (List.range k)) {draws | draws.length = d ∧ Admissible k draws}
      {out | out.length = d ∧ out.Nodup ∧ ∀ b ∈ out, b < k} ∧
    ∀ A B n, (A.length = d ∧ A.Nodup ∧ ∀ b ∈ A, b < k) →
      (B.length = d ∧ B.Nodup ∧ ∀ b ∈ B, b < k) →
        {draws : List Nat | draws.length = n ∧ (∀ v ∈ draws, v < k) ∧
          collect d [] draws = A}.ncard =
        {draws : List Nat | draws.length = n ∧ (∀ v ∈ draws, v < k) ∧
          collect d [] draws = B}.ncard := by
  refine ⟨selectBlocks_value pos lt le rnd scratch,
    ⟨shuffleDraws_length k d rnd, shuffleDraws_admissible le lt rnd⟩, fun n =>
    ⟨rejectionDraws_length k n rnd, rejectionDraws_lt pos lt n rnd⟩, ?_, ?_⟩
  · have fair := arrange_bijOn (List.nodup_range (n := k)) d
    rwa [List.length_range, subperm_range] at fair
  · rintro A B n ⟨length, nodup, below⟩ ⟨length', nodup', below'⟩
    exact ncard_collect_eq (S := {b | b < k}) nodup nodup' (length.trans length'.symm) below
      below' d n

/-- One of two blocks by the shuffle, and two of sixteen by rejection. -/
theorem selectBlocks_fair_two :
    (∃ scratch' rnd', selectBlocks [] [] 2 1 (SplitMix32.new 7) =
      .ok (arrange (List.range 2) (shuffleDraws 2 1 (SplitMix32.new 7)), scratch', rnd')) ∧
    (∃ scratch' rnd', selectBlocks [] [] 16 2 (SplitMix32.new 7) =
      .ok (collect 2 [] (rejectionDraws 16 (2 * 2 ^ 32) (SplitMix32.new 7)), scratch', rnd')) ∧
    {draws : List Nat | draws.length = 5 ∧ (∀ v ∈ draws, v < 16) ∧
      collect 2 [] draws = [3, 5]}.ncard =
    {draws : List Nat | draws.length = 5 ∧ (∀ v ∈ draws, v < 16) ∧
      collect 2 [] draws = [5, 3]}.ncard := by
  obtain ⟨shuffled, _⟩ := selectBlocks_fair (k := 2) (d := 1) (by decide) (by decide) (by decide)
    (SplitMix32.new 7) []
  obtain ⟨rejected, _, _, _, counts⟩ := selectBlocks_fair (k := 16) (d := 2) (by decide)
    (by decide) (by decide) (SplitMix32.new 7) []
  rw [if_neg (by decide)] at rejected
  exact ⟨shuffled, rejected, counts [3, 5] [5, 3] 5 (by decide) (by decide)⟩

end DeOptiTransfer
