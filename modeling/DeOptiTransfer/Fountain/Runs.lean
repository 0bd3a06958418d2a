import DeOptiTransfer.Fountain.Assemble

/-!
# Runs of the decoder

Any number of calls of `add_frame`, with any sequence numbers and any bytes.

* `hostile_run_safe`: no call panics, and the memory of the decoder stays
  within its budgets and its invariants;
* `seen_le_of_no_redundant`: the sequence-number set is within the budget of
  the arena as long as no redundant frame is recorded, and
  `redundant_frames_uncharged` is a run where it is not.
-/

namespace DeOptiTransfer.LtDecoder

/-- Present frames one after the other. -/
def addFrames (d : LtDecoder) (inputs : List (UInt32 × List UInt8)) : Exec LtDecoder :=
  inputs.foldlM (fun d input => d.addFrame input.1 input.2) d

theorem addFrames_cons (d : LtDecoder) (seq : UInt32) (block : List UInt8)
    (rest : List (UInt32 × List UInt8)) :
    d.addFrames ((seq, block) :: rest) = d.addFrame seq block >>= fun d => d.addFrames rest :=
  List.foldlM_cons

/-- A run, with the sequence numbers accepted before and after it. -/
inductive Run (mode : Mode) : LtDecoder → Finset UInt32 → List (UInt32 × List UInt8) →
    LtDecoder → Finset UInt32 → Prop
  | nil {d : LtDecoder} {A : Finset UInt32} : Run mode d A [] d A
  | cons {d d₁ d' : LtDecoder} {A A₁ A' : Finset UInt32} {seq : UInt32} {block : List UInt8}
      {rest : List (UInt32 × List UInt8)} (step : d.Step mode A seq block A₁ d₁)
      (run : Run mode d₁ A₁ rest d' A') : Run mode d A ((seq, block) :: rest) d' A'

section
variable {mode : Mode} {A A' : Finset UInt32} {d d' : LtDecoder} {seq : UInt32}
  {block : List UInt8} {inputs : List (UInt32 × List UInt8)}

theorem Step.same (step : d.Step mode A seq block A' d') : d.Same d' := by
  cases step <;> rfl

theorem Step.keeps (step : d.Step mode A seq block A' d') : d.Keeps d.words d'.toPeelState := by
  cases step with
  | refused _ _ => exact PeelState.Keeps.refl d.toPeelState
  | redundant _ _ => exact PeelState.Keeps.refl d.toPeelState
  | useful _ _ keeps _ _ => exact keeps

theorem Same.words (same : d.Same d') : d'.words = d.words := by rw [same]

theorem Same.k (same : d.Same d') : d'.k = d.k := by rw [same]

/-- Every run returns and keeps the decoder well formed. -/
theorem addFrames_ok (wf : d.WF mode A) (inputs : List (UInt32 × List UInt8)) :
    ∃ d' A', d.addFrames inputs = .ok d' ∧ d'.WF mode A' ∧ Run mode d A inputs d' A' := by
  induction inputs generalizing d A with
  | nil => exact ⟨d, A, rfl, wf, .nil⟩
  | cons input rest ih =>
    obtain ⟨seq, block⟩ := input
    obtain ⟨d₁, A₁, call, wf₁, step⟩ := addFrame_ok wf seq block
    obtain ⟨d', A', calls, wf', run⟩ := ih wf₁
    exact ⟨d', A', by rw [addFrames_cons, call, exec_ok_bind, calls], wf', .cons step run⟩

theorem Run.same (run : Run mode d A inputs d' A') : d.Same d' := by
  induction run with
  | nil => exact Same.refl _
  | cons step _ ih => exact step.same.trans ih

theorem Run.keeps (run : Run mode d A inputs d' A') : d.Keeps d.words d'.toPeelState := by
  induction run with
  | nil => exact PeelState.Keeps.refl _
  | cons step _ ih => exact step.keeps.trans (step.same.words ▸ ih)

/-! ## Hostile input -/

/-- What holds of every state a decoder of `k` blocks can reach. -/
structure Safe (k words : Nat) (d : LtDecoder) : Prop where
  arena_dvd : words ∣ d.arena.length
  arena_le : d.arena.length ≤ 4 * k * words
  edges_le : (d.byBlock.map List.length).sum ≤ d.pendingEdges
  pending_le : d.pendingEdges ≤ 64 * k
  solvedCount_eq : d.solvedCount = d.solved.countP Option.isSome
  active : ∀ f ∈ d.frames, f.active = true → 2 ≤ f.idx.len ∧ f.idx.len = f.idx.members.card ∧
    ∀ b ∈ f.idx.members, d.solved[b]? = some none

theorem solvedBlocks_card (p : PeelState) :
    p.solvedBlocks.card = p.solved.countP Option.isSome := by
  have entries : p.solved = (List.range p.solved.length).map p.offset := by
    apply List.ext_getElem
    · simp
    · intro b lt _
      simp [offset_of_getElem lt]
  have list : p.solvedBlocks = ((List.range p.solved.length).filter fun b => p.Known b).toFinset := by
    ext b
    simp [PeelState.solvedBlocks]
  rw [list, List.toFinset_card_of_nodup (List.nodup_range.filter _), ← List.countP_eq_length_filter]
  conv_rhs => rw [entries, List.countP_map]
  apply List.countP_congr
  intro b _
  rw [decide_eq_true_eq]
  rfl

theorem WF.safe (wf : d.WF mode A) : d.Safe d.k d.words := by
  refine ⟨wf.arena_dvd, ?_, wf.edges_le, ?_, ?_, ?_⟩
  · rw [← wf.maxArenaWords_eq]
    exact wf.arena_le
  · rw [← wf.maxPendingEdges_eq]
    exact wf.pending_le
  · rw [wf.shape.count, solvedBlocks_card]
  · intro f hf on
    obtain ⟨i, at_i⟩ := List.mem_iff_getElem?.mp hf
    have act : d.Active i f := ⟨at_i, on⟩
    have set_wf := wf.shape.set_wf i f act
    have len := BlockSet.len_eq_card set_wf
    refine ⟨len ▸ wf.shape.two_left i f act, len, ?_⟩
    intro b hb
    have inside : b < d.solved.length := by
      rw [wf.shape.solved_length]
      exact set_wf.below b hb
    have open_ : ¬ d.Known b := by
      intro known
      have := (wf.shape.watched i f b act).mp hb
      rw [wf.shape.wait_known b known (by simp)] at this
      cases this
    rw [List.getElem?_eq_getElem inside, offset_of_getElem inside]
    simpa [PeelState.Known] using open_

theorem offset_eq_some {p : PeelState} {b off : Nat} :
    p.offset b = some off ↔ p.solved[b]? = some (some off) := by
  rw [PeelState.offset, List.getD_eq_getElem?_getD]
  cases p.solved[b]? with
  | none => simp
  | some o => simp

/-- No input makes the decoder panic or leave its bounds. Every call returns:
nothing is indexed out of range, `xor_at` is given two different slots, `single`
a set of one member, and peeling stops. Slots of solved blocks never change. -/
theorem hostile_run_safe (soliton : SolitonCdf) (mode : Mode) (k blockLen totalLen : Nat)
    (sessionId : UInt32) (d₀ : LtDecoder)
    (built : tryNew soliton mode k blockLen sessionId totalLen = .ok (.ok d₀))
    (inputs : List (UInt32 × List UInt8)) :
    ∃ d, d₀.addFrames inputs = .ok d ∧ (∃ out, d.assemble = .ok out) ∧
      d.Safe k (divCeil blockLen 4) ∧
      ∀ more, ∃ d', d.addFrames more = .ok d' ∧
        ∀ b off : Nat, d.solved[b]? = some (some off) → d'.solved[b]? = some (some off) ∧
          slot (divCeil blockLen 4) d'.arena off = slot (divCeil blockLen 4) d.arena off := by
  obtain ⟨wf₀, _, k_eq, blockLen_eq, _⟩ := built_ok built
  obtain ⟨d, A, calls, wf, run⟩ := addFrames_ok wf₀ inputs
  obtain ⟨out, read, _⟩ := assemble_ok wf
  have words : d.words = divCeil blockLen 4 := by
    rw [run.same.words, wf₀.words_eq, blockLen_eq]
  refine ⟨d, calls, ⟨out, read⟩, ?_, ?_⟩
  · rw [← words, ← k_eq, ← run.same.k]
    exact wf.safe
  · intro more
    obtain ⟨d', A', calls', _, run'⟩ := addFrames_ok wf more
    refine ⟨d', calls', ?_⟩
    intro b off h
    obtain ⟨h', same⟩ := run'.keeps b off (offset_eq_some.mpr h)
    exact ⟨offset_eq_some.mp h', words ▸ same⟩

theorem hostile_run_safe_twoBlocks :
    ∃ d₀, tryNew twoBlockSoliton .causal 2 1 7 2 = .ok (.ok d₀) ∧
      ∃ d, d₀.addFrames [(5, [0x61]), (0, [0x62]), (0, []), (9, [0x63])] = .ok d ∧
        (∃ out, d.assemble = .ok out) ∧ d.Safe 2 (divCeil 1 4) ∧
        ∀ more, ∃ d', d.addFrames more = .ok d' ∧
          ∀ b off : Nat, d.solved[b]? = some (some off) → d'.solved[b]? = some (some off) ∧
            slot (divCeil 1 4) d'.arena off = slot (divCeil 1 4) d.arena off :=
  ⟨twoBlocks .causal, twoBlocks_built .causal,
    hostile_run_safe twoBlockSoliton .causal 2 1 2 7 _ (twoBlocks_built .causal) _⟩

/-! ## The memory of the sequence numbers -/

/-- A frame that is recorded as seen and charged to neither budget: it is new,
it fits, and all of its blocks are solved. -/
structure Redundant (mode : Mode) (d : LtDecoder) (seq : UInt32) (block : List UInt8) : Prop where
  length_eq : block.length = d.blockLen
  unfinished : d.isComplete = false
  unseen : d.seen.contains seq = .ok false
  room : d.Room mode seq
  none_left : d.unsolved mode seq = ∅

/-- A frame that is not redundant takes a slot for its place in the set. -/
theorem Step.charged (wf : d.WF mode A) (step : d.Step mode A seq block A' d')
    (useful : ¬ d.Redundant mode seq block) (even : d.arena.length = d.words * d.framesNew) :
    d'.arena.length = d'.words * d'.framesNew := by
  cases step with
  | refused _ _ => exact even
  | redundant accepts none_left =>
    refine absurd ⟨accepts.length_eq, accepts.unfinished, ?_, accepts.room, none_left⟩ useful
    rw [U32Set.contains_ok wf.seen_holds, decide_eq_false accepts.fresh]
  | useful _ _ _ arena_length _ =>
    show _ = d.words * (d.framesNew + 1)
    rw [arena_length, even, Nat.mul_add, Nat.mul_one]

theorem charged_run (wf : d.WF mode A) (inputs : List (UInt32 × List UInt8))
    (even : d.arena.length = d.words * d.framesNew)
    (useful : ∀ before seq block after e, inputs = before ++ (seq, block) :: after →
      d.addFrames before = .ok e → ¬ e.Redundant mode seq block) :
    ∃ d' A', d.addFrames inputs = .ok d' ∧ d'.WF mode A' ∧ d.Same d' ∧
      d'.arena.length = d'.words * d'.framesNew := by
  induction inputs generalizing d A with
  | nil => exact ⟨d, A, rfl, wf, Same.refl d, even⟩
  | cons input rest ih =>
    obtain ⟨seq, block⟩ := input
    obtain ⟨d₁, A₁, call, wf₁, step⟩ := addFrame_ok wf seq block
    have even₁ := step.charged wf (useful [] seq block rest d rfl rfl) even
    have later : ∀ before seq' block' after e, rest = before ++ (seq', block') :: after →
        d₁.addFrames before = .ok e → ¬ e.Redundant mode seq' block' := by
      intro before seq' block' after e split calls
      refine useful ((seq, block) :: before) seq' block' after e (by rw [split]; rfl) ?_
      rw [addFrames_cons, call, exec_ok_bind, calls]
    obtain ⟨d', A', calls, wf', same, even'⟩ := ih wf₁ even₁ later
    exact ⟨d', A', by rw [addFrames_cons, call, exec_ok_bind, calls], wf', step.same.trans same,
      even'⟩

/-- Without redundant frames the sequence numbers are bounded by the slots of
the arena. -/
theorem seen_le_of_no_redundant (soliton : SolitonCdf) (mode : Mode) (k blockLen totalLen : Nat)
    (sessionId : UInt32) (d₀ : LtDecoder)
    (built : tryNew soliton mode k blockLen sessionId totalLen = .ok (.ok d₀))
    (inputs : List (UInt32 × List UInt8))
    (useful : ∀ before seq block after e, inputs = before ++ (seq, block) :: after →
      d₀.addFrames before = .ok e → ¬ e.Redundant mode seq block) :
    ∃ d, d₀.addFrames inputs = .ok d ∧ d.framesNew = d.seen.len ∧ d.seen.len ≤ 4 * k := by
  obtain ⟨wf₀, fresh, k_eq, _⟩ := built_ok built
  have even : d₀.arena.length = d₀.words * d₀.framesNew := by
    rw [fresh.arena, wf₀.framesNew_eq]
    rfl
  obtain ⟨d, A, calls, wf, same, charged⟩ := charged_run wf₀ inputs even useful
  have len : d.framesNew = d.seen.len := by
    rw [wf.framesNew_eq, U32Set.len_eq_card wf.seen_holds]
  refine ⟨d, calls, len, ?_⟩
  have le := wf.arena_le
  rw [charged, wf.maxArenaWords_eq, Nat.mul_comm d.words, same.k, k_eq, len] at le
  exact Nat.le_of_mul_le_mul_right le wf.toConf.words_pos

/-- Frame 0 comes twice. When frame 7 comes, one of its two blocks is solved. -/
theorem seen_le_of_no_redundant_twoBlocks :
    ∃ d, (twoBlocks .systematic).addFrames [(0, [0x61]), (0, [0x61]), (7, [0x03])] = .ok d ∧
      d.framesNew = d.seen.len ∧ d.seen.len ≤ 4 * 2 := by
  refine seen_le_of_no_redundant twoBlockSoliton .systematic 2 1 2 7 _ (twoBlocks_built .systematic)
    _ ?_
  rintro (_ | ⟨_, _ | ⟨_, _ | ⟨_, before⟩⟩⟩) seq block after e split calls redundant
  · cases split
    cases calls
    exact absurd redundant.none_left (by decide +kernel)
  · cases split
    have second : ((twoBlocks .systematic).addFrames [(0, [0x61])]).map (·.seen.contains 0) =
        .ok (.ok true) := by decide +kernel
    rw [calls] at second
    have seen : e.seen.contains 0 = .ok true := Except.ok.inj second
    rw [redundant.unseen] at seen
    cases seen
  · cases split
    have third : ((twoBlocks .systematic).addFrames [(0, [0x61]), (0, [0x61])]).map (fun e =>
        (e.solvedCount, (e.unsolved .systematic 7).card)) = .ok (1, 1) := by decide +kernel
    rw [calls] at third
    have one := (Prod.mk.inj (Except.ok.inj third)).2
    rw [redundant.none_left] at one
    cases one
  · simp at split

/-- Block 0 is solved by the first frame. Each of the other nine frames repeats
it and is recorded without a charge. -/
theorem redundant_frames_uncharged :
    ¬ ∀ (soliton : SolitonCdf) (mode : Mode) (k blockLen totalLen : Nat) (sessionId : UInt32)
      (d₀ d : LtDecoder) (inputs : List (UInt32 × List UInt8)),
      tryNew soliton mode k blockLen sessionId totalLen = .ok (.ok d₀) →
        d₀.addFrames inputs = .ok d → d.seen.len ≤ 4 * k := by
  intro bounded
  have run : ((twoBlocks .systematic).addFrames
      ([0, 2, 4, 13, 14, 15, 17, 18, 19, 21].map fun seq => (seq, [0x61]))).map (·.seen.len) =
      .ok 10 := by decide +kernel
  cases calls : (twoBlocks .systematic).addFrames
      ([0, 2, 4, 13, 14, 15, 17, 18, 19, 21].map fun seq => (seq, [0x61])) with
  | error e =>
    rw [calls] at run
    cases run
  | ok d =>
    rw [calls] at run
    have ten : d.seen.len = 10 := Except.ok.inj run
    have := bounded _ _ _ _ _ _ _ d _ (twoBlocks_built .systematic) calls
    omega

end

end DeOptiTransfer.LtDecoder
