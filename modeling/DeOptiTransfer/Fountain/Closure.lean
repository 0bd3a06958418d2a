import DeOptiTransfer.Fountain.Soundness

/-!
# What a run solves

* `known_iff_solvable`: the solved blocks are those that follow from the
  accepted frames, in every reachable state;
* `peeling_closure`: frames that fit the budgets solve the least closed set, in
  every order;
* `progress_iff_room`: a frame with one unsolved block makes progress exactly
  when the arena has a free slot, so first-phase frames that find room complete
  the decoder; `full_arena_wedges` is a run that fills the arena first.
-/

namespace DeOptiTransfer

namespace LtDecoder

section
variable {mode : Mode} {A A' S : Finset UInt32} {d d' : LtDecoder} {seq : UInt32}
  {block : List UInt8} {b : Nat}

/-- The index sets as sets. -/
def indices (mode : Mode) (d : LtDecoder) (seq : UInt32) : Set Nat :=
  {b | b ∈ frameIndices mode d.cdf d.sessionId seq}

theorem coe_indexSet (d : LtDecoder) (mode : Mode) :
    (fun seq => (d.indexSet mode seq : Set Nat)) = d.indices mode := by
  funext seq
  ext b
  simp [indexSet, indices]

/-- Every accepted frame is used up or has two unsolved blocks. -/
theorem WF.peelClosed (wf : d.WF mode A) : PeelClosed (d.indices mode) A {b | d.Known b} := by
  rw [← coe_indexSet]
  apply peelClosed_of_settled
  intro s hs
  rcases wf.closure.covered s hs with used | ⟨i, f, act, red⟩ | ⟨r, off, hr, _⟩
  · exact Or.inl fun c hc => used.2 c hc (by simp)
  · obtain ⟨c, hc, c', hc', ne⟩ := Finset.one_lt_card.mp (wf.shape.two_left i f act)
    have open_ : ∀ x ∈ f.idx.members, ¬ d.Known x := by
      intro x hx known
      have := (wf.shape.watched i f x act).mp hx
      rw [wf.shape.wait_known x known (by simp)] at this
      cases this
    exact Or.inr ⟨c, red.1 hc, c', red.1 hc', ne, open_ c hc, open_ c' hc'⟩
  · cases hr

/-- Nothing is missed and nothing invented: the solved blocks are those that
follow from the accepted frames. -/
theorem known_iff_solvable (wf : d.WF mode A) :
    d.Known b ↔ Solvable (d.indices mode) A b := by
  constructor
  · intro known
    rw [← coe_indexSet]
    exact wf.closure.derived b known
  · exact solvable_sub_closed wf.peelClosed

theorem solvable_lt (conf : d.Conf mode) (h : Solvable (d.indices mode) S b) : b < d.k := by
  cases h with
  | @peel s _ _ index _ => exact (conf.frameIndices_wf s).2.2 b index

theorem mem_solvedBlocks {p : PeelState} : b ∈ p.solvedBlocks ↔ p.Known b := by
  simp only [PeelState.solvedBlocks, Finset.mem_filter, Finset.mem_range, and_iff_right_iff_imp]
  exact PeelState.lt_of_known

/-- A decoder that is complete or has accepted all of `S`, and nothing else,
has solved what follows from `S`. -/
theorem solved_eq (wf : d.WF mode A) (sub : A ⊆ S) (all : d.isComplete = true ∨ S ⊆ A) :
    {b | d.Known b} = {b | Solvable (d.indices mode) S b} := by
  ext b
  constructor
  · intro known
    exact solvable_mono sub ((known_iff_solvable wf).mp known)
  · intro h
    rcases all with complete | all
    · exact (isComplete_iff wf).mp complete b (solvable_lt wf.toConf h)
    · exact (known_iff_solvable wf).mpr (solvable_mono all h)

theorem Same.indices (same : d.Same d') : d'.indices mode = d.indices mode := by
  rw [same]
  rfl

theorem Same.indexSet (same : d.Same d') : d'.indexSet mode = d.indexSet mode := by
  rw [same]
  rfl

/-- What a call leaves: it grows the accepted set by its frame or not at all. -/
theorem Step.cases_accepted (step : d.Step mode A seq block A' d') :
    (A' = A ∧ ¬ d.Accepts mode A seq block ∧ d'.toPeelState = d.toPeelState) ∨
      (A' = insert seq A ∧ d.Accepts mode A seq block) := by
  cases step with
  | refused why _ => exact Or.inl ⟨rfl, why, rfl⟩
  | redundant accepts _ => exact Or.inr ⟨rfl, accepts⟩
  | useful accepts _ _ _ _ => exact Or.inr ⟨rfl, accepts⟩

theorem Step.sub (step : d.Step mode A seq block A' d') : A ⊆ A' := by
  rcases step.cases_accepted with ⟨rfl, _⟩ | ⟨rfl, _⟩
  · exact Finset.Subset.refl _
  · exact Finset.subset_insert _ _

theorem Step.complete (wf : d.WF mode A) (wf' : d'.WF mode A')
    (step : d.Step mode A seq block A' d') (complete : d.isComplete = true) :
    d'.isComplete = true := by
  rw [isComplete_iff wf', step.same.k]
  intro b lt
  exact step.keeps.known ((isComplete_iff wf).mp complete b lt)

/-- A correctly sized frame that finds room is accepted, unless the decoder is
complete. -/
theorem Step.accepted (wf : d.WF mode A) (wf' : d'.WF mode A')
    (step : d.Step mode A seq block A' d') (len : block.length = d.blockLen)
    (room : d.isComplete = false → seq ∉ A → d.Room mode seq) :
    (d'.isComplete = true ∨ seq ∈ A') ∧ d'.framesDropped = d.framesDropped := by
  cases complete : d.isComplete with
  | true =>
    refine ⟨Or.inl (step.complete wf wf' complete), ?_⟩
    cases step with
    | refused _ drop =>
      rcases drop with same | long | ⟨unfinished, _⟩
      · exact same
      · exact absurd len long
      · rw [complete] at unfinished
        cases unfinished
    | redundant _ _ => rfl
    | useful _ _ _ _ _ => rfl
  | false =>
    cases step with
    | refused why drop =>
      by_cases seen : seq ∈ A
      · refine ⟨Or.inr seen, ?_⟩
        rcases drop with same | long | ⟨_, fresh, _⟩
        · exact same
        · exact absurd len long
        · exact absurd seen fresh
      · exact absurd ⟨len, complete, seen, room complete seen⟩ why
    | redundant _ _ => exact ⟨Or.inr (Finset.mem_insert_self seq A), rfl⟩
    | useful _ _ _ _ _ => exact ⟨Or.inr (Finset.mem_insert_self seq A), rfl⟩

/-- Of the blocks of a frame, all but `r` are solved. -/
theorem others_known {r : Nat} (one : d.unsolved mode seq = {r}) :
    r ∈ d.indices mode seq ∧ ¬ d.Known r ∧ ∀ c ∈ d.indices mode seq, c ≠ r → d.Known c := by
  have left : r ∈ d.unsolved mode seq := one ▸ Finset.mem_singleton_self r
  obtain ⟨mem, open_⟩ := Finset.mem_filter.mp left
  refine ⟨List.mem_toFinset.mp mem, open_, fun c hc ne => ?_⟩
  by_contra unknown
  have : c ∈ d.unsolved mode seq :=
    Finset.mem_filter.mpr ⟨List.mem_toFinset.mpr hc, unknown⟩
  rw [one, Finset.mem_singleton] at this
  exact ne this

/-- A frame with one unsolved block solves it exactly when the arena has a free
slot. -/
theorem Step.solves (wf : d.WF mode A) (wf' : d'.WF mode A')
    (step : d.Step mode A seq block A' d') (len : block.length = d.blockLen)
    (unfinished : d.isComplete = false) (fresh : seq ∉ A)
    (one : (d.unsolved mode seq).card = 1) :
    d.solvedCount < d'.solvedCount ↔ d.arena.length + d.words ≤ d.maxArenaWords := by
  obtain ⟨r, single⟩ := Finset.card_eq_one.mp one
  have free : d.newEdges mode seq = 0 := by rw [newEdges, one]; rfl
  rw [wf.shape.count, wf'.shape.count]
  rcases step.cases_accepted with ⟨rfl, why, same⟩ | ⟨rfl, accepts⟩
  · rw [same]
    refine iff_of_false (Nat.lt_irrefl _) fun slot => why ⟨len, unfinished, fresh, slot, ?_⟩
    rw [free]
    exact wf.pending_le
  · refine iff_of_true (Finset.card_lt_card ?_) accepts.room.1
    obtain ⟨index, open_, others⟩ := others_known single
    have now : d'.Known r := by
      refine (known_iff_solvable wf').mpr (.peel (s := seq) (by simp) ?_ ?_)
      · rw [step.same.indices]
        exact index
      · intro c hc ne
        rw [step.same.indices] at hc
        exact (known_iff_solvable wf').mp (step.keeps.known (others c hc ne))
    refine Finset.ssubset_iff_of_subset ?_ |>.mpr ⟨r, mem_solvedBlocks.mpr now, ?_⟩
    · exact fun c hc => mem_solvedBlocks.mpr (step.keeps.known (mem_solvedBlocks.mp hc))
    · exact fun mem => open_ (mem_solvedBlocks.mp mem)

theorem exists_seq (conf : d.Conf mode) (lt : b < d.k) : ∃ s : UInt32, s.toNat = b := by
  have k_le := conf.k_le
  simp only [MAX_SOURCE_BLOCKS] at k_le
  exact ⟨UInt32.ofNat b, UInt32.toNat_ofNat_of_lt' (by simp only [UInt32.size]; omega)⟩

/-- The first-phase frames up to a block determine it. -/
theorem first_phase_prefix_solves (conf : d.Conf mode) (phase : mode ≠ .rsd) (lt : b < d.k)
    (before : ∀ s : UInt32, s.toNat ≤ b → s ∈ S) : Solvable (d.indices mode) S b := by
  have span : mode.sysSpan d.cdf.k = d.k := by
    rw [conf.cdf_k]
    cases mode <;> simp_all [Mode.sysSpan]
  induction b with
  | zero =>
    refine .peel (s := 0) (before 0 (Nat.le_refl _)) ?_ ?_ <;>
      simp [indices, frameIndices, span, conf.k_pos]
  | succ b ih =>
    obtain ⟨s, seq⟩ := exists_seq conf lt
    have nonzero : s ≠ 0 := by
      rintro rfl
      cases seq
    have index : frameIndices mode d.cdf d.sessionId s =
        if mode.isCausal then [b, b + 1] else [b + 1] := by
      unfold frameIndices
      rw [span, seq, if_pos lt]
      cases mode.isCausal <;> simp [nonzero]
    refine .peel (s := s) (before s (Nat.le_of_eq seq)) ?_ ?_
    · show b + 1 ∈ frameIndices ..
      rw [index]
      split <;> simp
    · intro c hc ne
      have hc : c ∈ frameIndices mode d.cdf d.sessionId s := hc
      rw [index] at hc
      have : c = b := by
        split at hc <;> simp only [List.mem_cons, List.not_mem_nil, or_false] at hc <;> omega
      rw [this]
      exact ih (by omega) fun s le => before s (by omega)

theorem first_phase_solves (conf : d.Conf mode) (phase : mode ≠ .rsd)
    (all : ∀ s : UInt32, s.toNat < d.k → s ∈ S) (lt : b < d.k) :
    Solvable (d.indices mode) S b :=
  first_phase_prefix_solves conf phase lt fun s le => all s (Nat.lt_of_le_of_lt le lt)

/-- Frames of a set that fits the budgets always find room. -/
theorem room_of_budget (wf : d.WF mode A) (sub : A ⊆ S) (mem : seq ∈ S) (fresh : seq ∉ A)
    (frames : S.card ≤ 4 * d.k) (edges : ∑ s ∈ S, (d.indexSet mode s).card ≤ 64 * d.k) :
    d.Room mode seq := by
  have more : insert seq A ⊆ S := Finset.insert_subset mem sub
  constructor
  · have card := Finset.card_le_card more
    rw [Finset.card_insert_of_notMem fresh] at card
    have slots := Nat.mul_le_mul_left d.words (card.trans frames)
    rw [Nat.mul_add, Nat.mul_one, Nat.mul_comm d.words (4 * d.k)] at slots
    have := wf.arena_le_card
    rw [wf.maxArenaWords_eq]
    omega
  · have sum := (sum_insert_le wf fresh).trans (Finset.sum_le_sum_of_subset more)
    rw [wf.maxPendingEdges_eq]
    omega

end

end LtDecoder

section
variable {mode : Mode} {payload : List UInt8} {A A' S : Finset UInt32} {e e' : LtEncoder}
  {d d' : LtDecoder}

/-- A run in which the frames `T` find room ends with all of them accepted, or
complete. Only frames of `S` are presented. -/
theorem Matched.accepting_run (m : Matched mode payload A e d) (T : UInt32 → Prop)
    (order : List UInt32) (sub : A ⊆ S) (inS : ∀ s ∈ order, s ∈ S)
    (room : ∀ before seq after e₁ d₁ A₁, order = before ++ seq :: after → T seq →
      before.foldlM presentFrame (e, d) = .ok (e₁, d₁) → Matched mode payload A₁ e₁ d₁ →
        d.Same d₁ → A₁ ⊆ S → d₁.isComplete = false → seq ∉ A₁ → d₁.Room mode seq) :
    ∃ e' d' A', order.foldlM presentFrame (e, d) = .ok (e', d') ∧ Matched mode payload A' e' d' ∧
      d.Same d' ∧ A ⊆ A' ∧ A' ⊆ S ∧ (d.isComplete = true → d'.isComplete = true) ∧
      (d'.isComplete = true ∨ ∀ s ∈ order, T s → s ∈ A') ∧
      ((∀ s ∈ order, T s) → d'.framesDropped = d.framesDropped) := by
  induction order generalizing e d A with
  | nil =>
    exact ⟨e, d, A, rfl, m, LtDecoder.Same.refl d, Finset.Subset.refl A, sub, id,
      Or.inr (by simp), fun _ => rfl⟩
  | cons seq rest ih =>
    obtain ⟨e₁, d₁, A₁, one, m₁, step⟩ := m.present seq
    have same := step.same
    have sub₁ : A₁ ⊆ S := by
      rcases step.cases_accepted with ⟨rfl, _⟩ | ⟨rfl, _⟩
      · exact sub
      · exact Finset.insert_subset (inS seq (by simp)) sub
    have stays₁ := step.complete m.decoder m₁.decoder
    have accepted : T seq →
        (d₁.isComplete = true ∨ seq ∈ A₁) ∧ d₁.framesDropped = d.framesDropped := fun hT =>
      step.accepted m.decoder m₁.decoder (frameBlock_length ..) fun unfinished fresh =>
        room [] seq rest e d A rfl hT rfl m (LtDecoder.Same.refl d) sub unfinished fresh
    obtain ⟨e', d', A', run, m', same', grows, sub', stays, all, dropped⟩ := ih m₁ sub₁
      (fun s hs => inS s (by simp [hs])) (by
        intro before seq' after e₂ d₂ A₂ split hT run m₂ same₂
        refine room (seq :: before) seq' after e₂ d₂ A₂ (by rw [split]; rfl) hT ?_ m₂
          (same.trans same₂)
        rw [List.foldlM_cons, one, exec_ok_bind, run])
    refine ⟨e', d', A', by rw [List.foldlM_cons, one, exec_ok_bind, run], m', same.trans same',
      step.sub.trans grows, sub', fun h => stays (stays₁ h), ?_, ?_⟩
    · rcases all with complete | all
      · exact Or.inl complete
      · by_cases finished : d₁.isComplete = true
        · exact Or.inl (stays finished)
        · refine Or.inr fun s hs hT => ?_
          rcases List.mem_cons.mp hs with rfl | hs
          · exact grows ((accepted hT).1.resolve_left finished)
          · exact all s hs hT
    · intro hT
      rw [dropped fun s hs => hT s (by simp [hs]), (accepted (hT seq (by simp))).2]

theorem exists_output (payload : List UInt8) (T : Prop) :
    ∃ out, ∀ (d : LtDecoder) (mode : Mode) (A : Finset UInt32), d.WF mode A →
      d.Sound payload d.blockLen → (d.isComplete = true ↔ T) → d.assemble = .ok out := by
  by_cases all : T
  · exact ⟨some payload, fun d _ A _ sound complete => sound.assemble (complete.mpr all)⟩
  · refine ⟨none, fun d _ A wf _ complete => ?_⟩
    obtain ⟨out, read, unfinished, _⟩ := LtDecoder.assemble_ok wf
    rw [read, unfinished (by rw [← Bool.not_eq_true, complete]; exact all)]

/-- Peeling ends with the least closed set, whatever the order and the
repetitions: the solved set and the output are fixed before the order is. -/
theorem peeling_closure (soliton : SolitonCdf) (mode : Mode) (k blockLen totalLen : Nat)
    (sessionId : UInt32) (d₀ : LtDecoder)
    (built : LtDecoder.tryNew soliton mode k blockLen sessionId totalLen = .ok (.ok d₀))
    (payload : List UInt8) (total : payload.length = totalLen) (S : Finset UInt32)
    (frames : S.card ≤ 4 * k)
    (edges : ∑ s ∈ S, (frameIndices mode d₀.cdf sessionId s).length ≤ 64 * k) :
    ∃ e₀, LtEncoder.tryNew soliton mode payload blockLen sessionId = .ok (.ok e₀) ∧
      ∃ P out, IsLeast {P : Set Nat |
          PeelClosed (fun s => {b | b ∈ frameIndices mode d₀.cdf sessionId s}) S P} P ∧
        ∀ order : List UInt32, order.toFinset = S →
          ∃ e d, order.foldlM presentFrame (e₀, d₀) = .ok (e, d) ∧ d.framesDropped = 0 ∧
            (d.solvedBlocks : Set Nat) = P ∧ (d.isComplete = true ↔ ∀ b < k, b ∈ P) ∧
            d.assemble = .ok out := by
  obtain ⟨_, fresh, k_eq, _, sid_eq, _⟩ := LtDecoder.built_ok built
  obtain ⟨e₀, new, m⟩ := matched_of_decoder built total
  have index : (fun s => {b | b ∈ frameIndices mode d₀.cdf sessionId s}) = d₀.indices mode := by
    rw [← sid_eq]
    rfl
  have edges' : ∑ s ∈ S, (d₀.indexSet mode s).card ≤ 64 * d₀.k := by
    rw [k_eq]
    refine (Finset.sum_le_sum fun s _ => ?_).trans edges
    rw [← sid_eq]
    exact List.toFinset_card_le _
  obtain ⟨out, full⟩ := exists_output payload (∀ b < k, b ∈ {b | Solvable (d₀.indices mode) S b})
  refine ⟨e₀, new, {b | Solvable (d₀.indices mode) S b}, out, index ▸ solvable_isLeast, ?_⟩
  intro order eq
  obtain ⟨e, d, A, run, m', same, _, sub, _, all, dropped⟩ :=
    m.accepting_run (fun _ => True) order (Finset.empty_subset S)
      (fun s hs => eq ▸ List.mem_toFinset.mpr hs) (by
        intro before seq after e₁ d₁ A₁ split _ _ m₁ same sub _ fresh
        refine LtDecoder.room_of_budget m₁.decoder sub ?_ fresh
          (by rw [same.k, k_eq]; exact frames) (by rw [same.k, same.indexSet]; exact edges')
        rw [← eq, split]
        simp)
  have solved := LtDecoder.solved_eq m'.decoder sub
    (all.imp_right fun all s hs => all s (List.mem_toFinset.mp (eq ▸ hs)) trivial)
  rw [same.indices] at solved
  have blocks : (d.solvedBlocks : Set Nat) = {b | Solvable (d₀.indices mode) S b} := by
    rw [← solved]
    ext b
    exact LtDecoder.mem_solvedBlocks
  have complete : d.isComplete = true ↔ ∀ b < k, b ∈ {b | Solvable (d₀.indices mode) S b} := by
    rw [LtDecoder.isComplete_iff m'.decoder, same.k, k_eq, ← solved]
    rfl
  exact ⟨e, d, run, (dropped fun _ _ => trivial).trans fresh.framesDropped, blocks, complete,
    full d mode A m'.decoder (m'.decoder.sound m'.totalLen_eq m'.values) complete⟩

theorem peeling_closure_twoBlocks :
    ∃ e₀, LtEncoder.tryNew twoBlockSoliton .causal [0x61, 0x62] 1 7 = .ok (.ok e₀) ∧
      ∃ P out, IsLeast {P : Set Nat | PeelClosed (fun s =>
          {b | b ∈ frameIndices .causal (LtDecoder.twoBlocks .causal).cdf 7 s})
          ({0, 1, 2} : Finset UInt32) P} P ∧
        ∀ order : List UInt32, order.toFinset = {0, 1, 2} →
          ∃ e d, order.foldlM presentFrame (e₀, LtDecoder.twoBlocks .causal) = .ok (e, d) ∧
            d.framesDropped = 0 ∧ (d.solvedBlocks : Set Nat) = P ∧
            (d.isComplete = true ↔ ∀ b < 2, b ∈ P) ∧ d.assemble = .ok out :=
  peeling_closure twoBlockSoliton .causal 2 1 2 7 _ (LtDecoder.twoBlocks_built .causal) [0x61, 0x62]
    rfl {0, 1, 2} (by decide) (by decide +kernel)

/-- A new frame with one unsolved block makes progress exactly when the arena
has a free slot. First-phase frames that find room complete the decoder,
whatever else was presented. -/
theorem progress_iff_room (soliton : SolitonCdf) (mode : Mode) (payload : List UInt8)
    (blockLen : Nat) (sessionId : UInt32) (e₀ : LtEncoder)
    (built : LtEncoder.tryNew soliton mode payload blockLen sessionId = .ok (.ok e₀)) :
    ∃ d₀, LtDecoder.tryNew soliton mode e₀.k blockLen sessionId payload.length = .ok (.ok d₀) ∧
      ∀ order : List UInt32, ∃ e d, order.foldlM presentFrame (e₀, d₀) = .ok (e, d) ∧
        (∀ seq, d.isComplete = false → d.seen.contains seq = .ok false →
          (d.unsolved mode seq).card = 1 →
            ∃ e' d', presentFrame (e, d) seq = .ok (e', d') ∧
              (d.solvedCount < d'.solvedCount ↔
                d.arena.length + d.words ≤ d.maxArenaWords)) ∧
        (mode ≠ .rsd → (∀ seq : UInt32, seq.toNat < e₀.k → seq ∈ order) →
          (∀ before seq after e₁ d₁, order = before ++ seq :: after → seq.toNat < e₀.k →
            before.foldlM presentFrame (e₀, d₀) = .ok (e₁, d₁) → d₁.isComplete = false →
              d₁.seen.contains seq = .ok false → d₁.Room mode seq) →
          d.isComplete = true) := by
  obtain ⟨d₀, new, m⟩ := matched_new built
  have k_eq := (LtDecoder.built_ok new).2.2.1
  refine ⟨d₀, new, fun order => ?_⟩
  obtain ⟨e, d, A, run, m', _⟩ := m.run (order.map fun seq => (seq, false))
  rw [List.foldlM_map] at run
  have unseen : ∀ {B : Finset UInt32} {d₁ : LtDecoder} {seq : UInt32}, d₁.WF mode B →
      (seq ∉ B ↔ d₁.seen.contains seq = .ok false) := by
    intro B d₁ seq wf
    rw [U32Set.contains_ok wf.seen_holds]
    simp
  refine ⟨e, d, run, ?_, ?_⟩
  · intro seq unfinished new_seq one
    obtain ⟨e', d', A', call, m'', step⟩ := m'.present seq
    exact ⟨e', d', call, step.solves m'.decoder m''.decoder (frameBlock_length ..) unfinished
      ((unseen m'.decoder).mpr new_seq) one⟩
  · intro phase presented room
    obtain ⟨e₂, d₂, A₂, run₂, m₂, same₂, _, _, _, all, _⟩ :=
      m.accepting_run (S := order.toFinset) (fun seq => seq.toNat < e₀.k) order
        (Finset.empty_subset _) (fun s hs => List.mem_toFinset.mpr hs)
        (fun before seq after e₁ d₁ B split lt calls m₁ _ _ unfinished fresh =>
          room before seq after e₁ d₁ split lt calls unfinished ((unseen m₁.decoder).mp fresh))
    have : (e₂, d₂) = (e, d) := Except.ok.inj (run₂.symm.trans run)
    cases this
    rcases all with complete | all
    · exact complete
    · rw [LtDecoder.isComplete_iff m₂.decoder]
      intro b lt
      refine (LtDecoder.known_iff_solvable m₂.decoder).mpr
        (LtDecoder.first_phase_solves m₂.decoder.toConf phase (fun s hs => ?_) lt)
      rw [same₂.k, k_eq] at hs
      exact all s (presented s hs) hs

theorem progress_iff_room_twoBlocks :
    ∃ d₀, LtDecoder.tryNew twoBlockSoliton .systematic (twoBlocksEncoder .systematic).k 1 7
        ([0x61, 0x62] : List UInt8).length = .ok (.ok d₀) ∧
      ∀ order : List UInt32, ∃ e d,
        order.foldlM presentFrame (twoBlocksEncoder .systematic, d₀) = .ok (e, d) ∧
        (∀ seq, d.isComplete = false → d.seen.contains seq = .ok false →
          (d.unsolved .systematic seq).card = 1 →
            ∃ e' d', presentFrame (e, d) seq = .ok (e', d') ∧
              (d.solvedCount < d'.solvedCount ↔
                d.arena.length + d.words ≤ d.maxArenaWords)) ∧
        (Mode.systematic ≠ .rsd →
          (∀ seq : UInt32, seq.toNat < (twoBlocksEncoder .systematic).k → seq ∈ order) →
          (∀ before seq after e₁ d₁, order = before ++ seq :: after →
            seq.toNat < (twoBlocksEncoder .systematic).k →
            before.foldlM presentFrame (twoBlocksEncoder .systematic, d₀) = .ok (e₁, d₁) →
              d₁.isComplete = false → d₁.seen.contains seq = .ok false →
                d₁.Room .systematic seq) →
          d.isComplete = true) :=
  progress_iff_room twoBlockSoliton .systematic [0x61, 0x62] 1 7 (twoBlocksEncoder .systematic)
    (twoBlocksEncoder_built .systematic)

/-- Eight repair frames that combine both blocks fill the arena of a decoder of
two blocks. It then refuses the first-phase frames of both. -/
theorem full_arena_wedges :
    (¬ ∀ (soliton : SolitonCdf) (mode : Mode) (payload : List UInt8) (blockLen : Nat)
      (sessionId : UInt32) (e₀ e : LtEncoder) (d₀ d : LtDecoder) (order : List UInt32)
      (seq : UInt32),
      LtEncoder.tryNew soliton mode payload blockLen sessionId = .ok (.ok e₀) →
      LtDecoder.tryNew soliton mode e₀.k blockLen sessionId payload.length = .ok (.ok d₀) →
      order.foldlM presentFrame (e₀, d₀) = .ok (e, d) →
      d.isComplete = false → d.seen.contains seq = .ok false → (d.unsolved mode seq).card = 1 →
        ∃ e' d', presentFrame (e, d) seq = .ok (e', d') ∧ d.solvedCount < d'.solvedCount) ∧
    ¬ ∀ (soliton : SolitonCdf) (mode : Mode) (payload : List UInt8) (blockLen : Nat)
      (sessionId : UInt32) (e₀ e : LtEncoder) (d₀ d : LtDecoder) (repairs firsts : List UInt32),
      LtEncoder.tryNew soliton mode payload blockLen sessionId = .ok (.ok e₀) →
      LtDecoder.tryNew soliton mode e₀.k blockLen sessionId payload.length = .ok (.ok d₀) →
      mode ≠ .rsd → (∀ seq : UInt32, seq.toNat < e₀.k → seq ∈ firsts) →
      (repairs ++ firsts).foldlM presentFrame (e₀, d₀) = .ok (e, d) → d.isComplete = true := by
  constructor
  · intro progress
    have run : (([7, 10, 11, 12, 16, 20, 24, 27] : List UInt32).foldlM presentFrame
        (twoBlocksEncoder .systematic, LtDecoder.twoBlocks .systematic)).map (fun s =>
          (s.2.isComplete, s.2.seen.contains 0, (s.2.unsolved .systematic 0).card, s.2.solvedCount,
            (presentFrame s 0).map (·.2.solvedCount))) =
        .ok (false, .ok false, 1, 0, .ok 0) := by decide +kernel
    cases calls : ([7, 10, 11, 12, 16, 20, 24, 27] : List UInt32).foldlM presentFrame
        (twoBlocksEncoder .systematic, LtDecoder.twoBlocks .systematic) with
    | error _ =>
      rw [calls] at run
      cases run
    | ok s =>
      obtain ⟨e, d⟩ := s
      rw [calls] at run
      have run := Except.ok.inj run
      simp only [Prod.mk.injEq] at run
      obtain ⟨unfinished, unseen, one, none_solved, after⟩ := run
      obtain ⟨e', d', call, more⟩ := progress _ _ _ _ _ _ _ _ _ _ 0
        (twoBlocksEncoder_built .systematic) (LtDecoder.twoBlocks_built .systematic) calls unfinished
        unseen one
      rw [call] at after
      have : d'.solvedCount = 0 := Except.ok.inj after
      omega
  · intro completes
    have run : (([7, 10, 11, 12, 16, 20, 24, 27] ++ [0, 1] : List UInt32).foldlM presentFrame
        (twoBlocksEncoder .systematic, LtDecoder.twoBlocks .systematic)).map (·.2.isComplete) =
        .ok false := by decide +kernel
    cases calls : ([7, 10, 11, 12, 16, 20, 24, 27] ++ [0, 1] : List UInt32).foldlM presentFrame
        (twoBlocksEncoder .systematic, LtDecoder.twoBlocks .systematic) with
    | error _ =>
      rw [calls] at run
      cases run
    | ok s =>
      rw [calls] at run
      have unfinished : s.2.isComplete = false := Except.ok.inj run
      have first : ∀ seq : UInt32, seq.toNat < 2 → seq ∈ ([0, 1] : List UInt32) := by
        intro seq lt
        simp only [List.mem_cons, List.not_mem_nil, or_false, ← UInt32.toNat_inj]
        show seq.toNat = 0 ∨ seq.toNat = 1
        omega
      have := completes _ _ _ _ _ _ _ _ _ _ _ (twoBlocksEncoder_built .systematic)
        (LtDecoder.twoBlocks_built .systematic) (by decide) first calls
      rw [this] at unfinished
      cases unfinished

end

end DeOptiTransfer
