import DeOptiTransfer.Fountain.Memory

/-!
# What frames pay for

Every block the decoder solves and every frame it keeps waiting has a slot that
an accepted frame paid for, and every call is entered in one of the counters.

* `addFrame_counts`: the entry that one call makes;
* `paid_run`, `counts_run`: what runs have paid for and counted;
* `accounting`: whole runs, on any input.
-/

namespace DeOptiTransfer

namespace LtDecoder

/-! ## One call -/

/-- The calls that are entered in a counter. -/
def counted (d : LtDecoder) : Nat := d.framesNew + d.framesDup + d.framesDropped

section
variable {mode : Mode} {A A' : Finset UInt32} {d d' : LtDecoder} {seq : UInt32}
  {block : List UInt8}

/-- Only a frame of the right length that comes after the last block is solved
is not counted. -/
theorem addFrame_counts (wf : d.WF mode A) (call : d.addFrame seq block = .ok d') :
    d'.counted = d.counted +
      if block.length = d.blockLen ∧ d.isComplete = true then 0 else 1 := by
  by_cases length : block.length = d.blockLen
  case neg =>
    rw [addFrame, if_pos length] at call
    cases call
    rw [if_neg fun late => length late.1]
    rfl
  cases complete : d.isComplete with
  | true =>
    rw [addFrame, if_neg (not_not_intro length), if_pos complete] at call
    cases call
    rw [if_pos ⟨length, rfl⟩]
    rfl
  | false =>
    rw [if_neg (by simp)]
    by_cases accepts : d.Accepts mode A seq block
    · obtain ⟨idxScratch, seen, _, _, accepted⟩ := addFrame_accepted wf accepts
      have one : ({ d with
          idx := frameIndices mode d.cdf d.sessionId seq, idxScratch, seen
          framesNew := d.framesNew + 1 } : LtDecoder).counted = d.counted + 1 := by
        simp only [counted]
        omega
      rw [accepted] at call
      split at call
      · cases call
        exact one
      · rw [store_fields call]
        exact one
    · obtain ⟨d₁, call', refused⟩ := addFrame_refused wf accepts
      rw [call] at call'
      cases call'
      cases refused with
      | length ne => exact absurd length ne
      | complete done =>
        rw [complete] at done
        cases done
      | duplicate _ =>
        simp only [counted]
        omega
      | budget _ _ _ _ _ => rfl

theorem Step.sized (step : d.Step mode A seq block A' d') :
    A' = A ∨ A' = insert seq A ∧ block.length = d.blockLen := by
  cases step with
  | refused _ _ => exact Or.inl rfl
  | redundant accepts _ => exact Or.inr ⟨rfl, accepts.length_eq⟩
  | useful accepts _ _ _ _ => exact Or.inr ⟨rfl, accepts.length_eq⟩

end

/-! ## Whole runs -/

section
variable {mode : Mode} {A : Finset UInt32} {d : LtDecoder}

/-- The numbers of the frames of the right length. -/
def sizedNumbers (blockLen : Nat) (inputs : List (UInt32 × List UInt8)) : Finset UInt32 :=
  ((inputs.filter fun x => x.2.length = blockLen).map (·.1)).toFinset

theorem paid_run (wf : d.WF mode A) (paid : d.Paid) (inputs : List (UInt32 × List UInt8)) :
    ∃ d' A', d.addFrames inputs = .ok d' ∧ d'.WF mode A' ∧ d.Same d' ∧ d'.Paid ∧
      A' ⊆ A ∪ sizedNumbers d.blockLen inputs := by
  induction inputs generalizing d A with
  | nil => exact ⟨d, A, rfl, wf, Same.refl d, paid, Finset.subset_union_left⟩
  | cons x rest ih =>
    obtain ⟨seq, block⟩ := x
    obtain ⟨d₁, A₁, call, wf₁, step⟩ := addFrame_ok wf seq block
    obtain ⟨d', A', calls, wf', same, paid', sub⟩ := ih wf₁ (addFrame_paid wf paid call step)
    refine ⟨d', A', by rw [addFrames_cons, call, exec_ok_bind, calls], wf', step.same.trans same,
      paid', sub.trans ?_⟩
    have blockLen_eq : d₁.blockLen = d.blockLen := by rw [step.same]
    rw [blockLen_eq]
    rcases step.sized with rfl | ⟨rfl, length⟩
    · apply Finset.union_subset_union_right
      intro s mem
      simp only [sizedNumbers, List.mem_toFinset, List.mem_map, List.mem_filter] at mem ⊢
      obtain ⟨y, ⟨hy, len⟩, rfl⟩ := mem
      exact ⟨y, ⟨List.mem_cons_of_mem _ hy, len⟩, rfl⟩
    · have more : sizedNumbers d.blockLen ((seq, block) :: rest) =
          insert seq (sizedNumbers d.blockLen rest) := by
        simp [sizedNumbers, length]
      rw [more, Finset.insert_union, Finset.union_insert]

theorem addFrame_complete (complete : d.isComplete = true) (seq : UInt32) (block : List UInt8) :
    d.addFrame seq block = .ok { d with
      framesDropped := d.framesDropped + if block.length = d.blockLen then 0 else 1 } := by
  by_cases length : block.length = d.blockLen
  · rw [addFrame, if_neg (not_not_intro length), if_pos complete, if_pos length]
    rfl
  · rw [addFrame, if_pos length, if_neg length]

theorem complete_counts (complete : d.isComplete = true) (inputs : List (UInt32 × List UInt8)) :
    ∃ d', d.addFrames inputs = .ok d' ∧
      d'.counted = d.counted + inputs.countP fun x => x.2.length ≠ d.blockLen := by
  induction inputs generalizing d with
  | nil => exact ⟨d, rfl, rfl⟩
  | cons x rest ih =>
    obtain ⟨seq, block⟩ := x
    have call := addFrame_complete complete seq block
    obtain ⟨d', calls, count⟩ := ih (d := { d with
      framesDropped := d.framesDropped + if block.length = d.blockLen then 0 else 1 }) complete
    refine ⟨d', by rw [addFrames_cons, call, exec_ok_bind, calls], ?_⟩
    rw [count, List.countP_cons]
    by_cases length : block.length = d.blockLen
    · simp [counted, length]
    · simp only [counted, length, ↓reduceIte, ne_eq, not_false_eq_true, decide_true]
      omega

/-- Every call until the last block is solved is counted, and after it the
frames of other lengths. -/
theorem counts_run (wf : d.WF mode A) (inputs : List (UInt32 × List UInt8)) :
    ∃ d' n, d.addFrames inputs = .ok d' ∧ n ≤ inputs.length ∧
      (∀ m < n, ∃ e, d.addFrames (inputs.take m) = .ok e ∧ e.isComplete = false) ∧
      (n < inputs.length → ∃ e, d.addFrames (inputs.take n) = .ok e ∧ e.isComplete = true) ∧
      d'.counted = d.counted + n + (inputs.drop n).countP fun x => x.2.length ≠ d.blockLen := by
  induction inputs generalizing d A with
  | nil => exact ⟨d, 0, rfl, Nat.le_refl 0, by simp, by simp, rfl⟩
  | cons x rest ih =>
    obtain ⟨seq, block⟩ := x
    cases complete : d.isComplete with
    | true =>
      obtain ⟨d', calls, count⟩ := complete_counts complete ((seq, block) :: rest)
      exact ⟨d', 0, calls, Nat.zero_le _, by simp, fun _ => ⟨d, rfl, complete⟩, count⟩
    | false =>
      obtain ⟨d₁, A₁, call, wf₁, step⟩ := addFrame_ok wf seq block
      obtain ⟨d', n, calls, le, before, after, count⟩ := ih wf₁
      have entry := addFrame_counts wf call
      rw [if_neg (by simp [complete])] at entry
      have next : ∀ (l : List (UInt32 × List UInt8)) (e : LtDecoder), d₁.addFrames l = .ok e →
          d.addFrames ((seq, block) :: l) = .ok e := by
        intro l e run
        rw [addFrames_cons, call, exec_ok_bind, run]
      refine ⟨d', n + 1, next rest d' calls, Nat.succ_le_succ le, ?_, ?_, ?_⟩
      · rintro (_ | m) lt
        · exact ⟨d, rfl, complete⟩
        · obtain ⟨e, run, open_⟩ := before m (by omega)
          exact ⟨e, next _ e run, open_⟩
      · intro lt
        obtain ⟨e, run, done⟩ := after (by simpa using lt)
        exact ⟨e, next _ e run, done⟩
      · have blockLen_eq : d₁.blockLen = d.blockLen := by rw [step.same]
        rw [count, entry, blockLen_eq, List.drop_succ_cons]
        omega

end

/-- What a decoder holds has been paid for, and every call is counted, whatever
it is given. A solved block and a waiting frame each take an accepted frame, of
which there are no more than numbers that came with a block of the right length:
so fewer than `k` of them never complete a decoder. The counters add up to the
calls before completion and the later ones of another length. -/
theorem accounting (soliton : SolitonCdf) (mode : Mode) (k blockLen totalLen : Nat)
    (sessionId : UInt32) (d₀ : LtDecoder)
    (built : tryNew soliton mode k blockLen sessionId totalLen = .ok (.ok d₀))
    (inputs : List (UInt32 × List UInt8)) :
    ∃ d, d₀.addFrames inputs = .ok d ∧
      d.solvedCount + d.frames.countP (·.active) ≤ d.framesNew ∧
      d.framesNew ≤ (sizedNumbers blockLen inputs).card ∧
      (d.isComplete = true → k ≤ (sizedNumbers blockLen inputs).card) ∧
      d.frames.length ≤ 4 * k ∧
      ∃ n ≤ inputs.length,
        (∀ m < n, ∃ e, d₀.addFrames (inputs.take m) = .ok e ∧ e.isComplete = false) ∧
        (n < inputs.length →
          ∃ e, d₀.addFrames (inputs.take n) = .ok e ∧ e.isComplete = true) ∧
        d.framesNew + d.framesDup + d.framesDropped =
          n + (inputs.drop n).countP fun x => x.2.length ≠ blockLen := by
  obtain ⟨wf₀, fresh, k_eq, blockLen_eq, _⟩ := built_ok built
  obtain ⟨d, A, run, wf, same, paid, sub⟩ := paid_run wf₀ (fresh.paid wf₀) inputs
  obtain ⟨d', n, run', le, before, after, count⟩ := counts_run wf₀ inputs
  rw [run] at run'
  cases run'
  have k_same : d.k = k := by
    rw [same]
    exact k_eq
  have new : d.framesNew ≤ (sizedNumbers blockLen inputs).card := by
    rw [Finset.empty_union, blockLen_eq] at sub
    rw [wf.framesNew_eq]
    exact Finset.card_le_card sub
  have zero : d₀.counted = 0 := by
    rw [counted, wf₀.framesNew_eq, fresh.framesDup, fresh.framesDropped, Finset.card_empty]
  refine ⟨d, run, paid.held_le_new wf, new, ?_, ?_, n, le, before, after, ?_⟩
  · intro complete
    exact k_same ▸ (paid.k_le_new wf complete).trans new
  · exact k_same ▸ paid.frames_le_k wf
  · rw [← blockLen_eq]
    have total := count
    rw [zero, Nat.zero_add] at total
    exact total

/-- Two frames of one number and one of a wrong length leave one block open. -/
theorem accounting_twoBlocks :
    ∃ d, (twoBlocks .causal).addFrames [(0, [0x61]), (0, [0x61]), (1, [])] = .ok d ∧
      d.solvedCount + d.frames.countP (·.active) ≤ d.framesNew ∧ d.isComplete = false := by
  obtain ⟨d, run, held, _, enough, _⟩ := accounting twoBlockSoliton .causal 2 1 2 7 _
    (twoBlocks_built .causal) [(0, [0x61]), (0, [0x61]), (1, [])]
  refine ⟨d, run, held, ?_⟩
  by_contra complete
  have := enough (by simpa using complete)
  exact absurd this (by decide)

end LtDecoder

end DeOptiTransfer
