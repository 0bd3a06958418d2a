import DeOptiTransfer.Fountain.FirstPhase

/-!
# The causal first phase

A decoder that is presented frames of the causal first phase only.

* `causal_solvable_iff`: a block is solved when no frame up to it is missing;
* `causal_repaired`: one frame with one block behind a gap closes the gap;
* `causal_first_phase`: both, for every order and every repetition, the second
  when the arena has a slot for the frame; `full_arena_refuses_repair` is a run
  where it has none.
-/

namespace DeOptiTransfer

namespace LtDecoder

section
variable {A S : Finset UInt32} {d : LtDecoder} {seq : UInt32} {b j : Nat}

theorem mem_causal_indices (conf : d.Conf .causal) (lt : seq.toNat < d.k) :
    b ∈ d.indices .causal seq ↔ b = seq.toNat ∨ b + 1 = seq.toNat := by
  show b ∈ frameIndices .causal d.cdf d.sessionId seq ↔ _
  rw [first_phase_indices conf (by decide) lt]
  by_cases zero : seq = 0
  · subst zero
    have : (0 : UInt32).toNat = 0 := rfl
    simp [this]
  · have pos : seq.toNat ≠ 0 := fun eq => zero (UInt32.toNat_inj.mp eq)
    have causal : Mode.causal.isCausal = true ∧ seq ≠ 0 := ⟨rfl, zero⟩
    rw [if_pos causal, List.mem_pair]
    omega

theorem causal_closed (conf : d.Conf .causal) (sub : S ⊆ firstPhase d.k) :
    PeelClosed (d.indices .causal) S {i | ∀ s : UInt32, s.toNat ≤ i → s ∈ S} := by
  rw [peelClosed_iff]
  intro s hs b hb others t le
  have lt := (mem_firstPhase conf.k_le).mp (sub hs)
  rcases (mem_causal_indices conf lt).mp hb with own | previous
  · by_cases last : t.toNat = s.toNat
    · rw [UInt32.toNat_inj.mp last]
      exact hs
    · have pos : s.toNat - 1 + 1 = s.toNat := by omega
      have mem : s.toNat - 1 ∈ d.indices .causal s :=
        (mem_causal_indices conf lt).mpr (Or.inr pos)
      exact others _ mem (by omega) t (by omega)
  · have mem : s.toNat ∈ d.indices .causal s := (mem_causal_indices conf lt).mpr (Or.inl rfl)
    exact others _ mem (by omega) t (by omega)

/-- What causal first-phase frames determine: the blocks with no frame missing
up to them. -/
theorem causal_solvable_iff (conf : d.Conf .causal) (sub : S ⊆ firstPhase d.k) :
    Solvable (d.indices .causal) S b ↔ b < d.k ∧ ∀ s : UInt32, s.toNat ≤ b → s ∈ S := by
  constructor
  · intro solved
    exact ⟨solvable_lt conf solved, solvable_sub_closed (causal_closed conf sub) solved⟩
  · rintro ⟨lt, before⟩
    exact first_phase_prefix_solves conf (by decide) lt before

theorem causal_link (conf : d.Conf .causal) (mem : seq ∈ S) (lt : seq.toNat < d.k)
    (eq : b + 1 = seq.toNat) :
    Solvable (d.indices .causal) S b ↔ Solvable (d.indices .causal) S (b + 1) := by
  have index := fun c => @mem_causal_indices d seq c conf lt
  constructor
  · intro solved
    apply Solvable.peel mem ((index _).mpr (Or.inl eq))
    intro c hc ne
    rcases (index c).mp hc with own | previous
    · exact absurd (own.trans eq.symm) ne
    · rwa [Nat.add_right_cancel (previous.trans eq.symm)]
  · intro solved
    apply Solvable.peel mem ((index _).mpr (Or.inr eq))
    intro c hc ne
    rcases (index c).mp hc with own | previous
    · rwa [own, ← eq]
    · exact absurd (Nat.add_right_cancel (previous.trans eq.symm)) ne

/-- With no frame missing behind `j`, the blocks from `j` on are solved together. -/
theorem causal_chain (conf : d.Conf .causal)
    (behind : ∀ s : UInt32, j < s.toNat → s.toNat < d.k → s ∈ S) (le : j ≤ b) (lt : b < d.k) :
    Solvable (d.indices .causal) S j ↔ Solvable (d.indices .causal) S b := by
  induction b, le using Nat.le_induction with
  | base => rfl
  | succ b le ih =>
    obtain ⟨s, seq⟩ := exists_seq conf lt
    have mem := behind s (by omega) (by omega)
    rw [ih (by omega)]
    exact causal_link conf mem (by omega) seq.symm

/-- One frame closes the gap: with only frame `j` of the first phase missing, a
frame with one block from `j` on determines everything. -/
theorem causal_repaired (conf : d.Conf .causal) (lt : j < d.k)
    (all : ∀ s : UInt32, s.toNat < d.k → s.toNat ≠ j → s ∈ S) (mem : seq ∈ S)
    (one : ({b ∈ d.indexSet .causal seq | j ≤ b}).card = 1) :
    ∀ b < d.k, Solvable (d.indices .causal) S b := by
  have before : ∀ b < j, Solvable (d.indices .causal) S b := by
    intro b hb
    apply first_phase_prefix_solves conf (by decide) (by omega)
    intro s le
    exact all s (by omega) (by omega)
  obtain ⟨r, single⟩ := Finset.card_eq_one.mp one
  have left : r ∈ ({b ∈ d.indexSet .causal seq | j ≤ b}) := single ▸ Finset.mem_singleton_self r
  obtain ⟨index, behind⟩ := Finset.mem_filter.mp left
  have own : Solvable (d.indices .causal) S r := by
    have member : r ∈ d.indices .causal seq := List.mem_toFinset.mp index
    apply Solvable.peel mem member
    intro c hc ne
    by_cases small : c < j
    · exact before c small
    · have other : c ∈ ({b ∈ d.indexSet .causal seq | j ≤ b}) :=
        Finset.mem_filter.mpr ⟨List.mem_toFinset.mpr hc, Nat.le_of_not_lt small⟩
      rw [single, Finset.mem_singleton] at other
      exact absurd other ne
  have chain : ∀ b, j ≤ b → b < d.k →
      (Solvable (d.indices .causal) S j ↔ Solvable (d.indices .causal) S b) := by
    intro b le lt
    apply causal_chain conf _ le lt
    intro s after inside
    exact all s inside (by omega)
  intro b inside
  by_cases small : b < j
  · exact before b small
  · have first := (chain r behind (conf.indexSet_lt index)).mpr own
    exact (chain b (Nat.le_of_not_lt small) inside).mp first

theorem slot_of_card {mode : Mode} (wf : d.WF mode A) (few : A.card < 4 * d.k) :
    d.arena.length + d.words ≤ d.maxArenaWords := by
  have slots := Nat.mul_le_mul_left d.words (Nat.succ_le_of_lt few)
  have used := wf.arena_le_card
  rw [Nat.mul_succ, Nat.mul_comm d.words (4 * d.k)] at slots
  rw [wf.maxArenaWords_eq]
  omega

end

end LtDecoder

section
variable {payload : List UInt8} {A : Finset UInt32} {e : LtEncoder} {d : LtDecoder} {j : Nat}

theorem Matched.run_within {mode : Mode} (m : Matched mode payload A e d) (order : List UInt32) :
    ∃ e' d' A', order.foldlM presentFrame (e, d) = .ok (e', d') ∧
      Matched mode payload A' e' d' ∧ d.Same d' ∧ A ⊆ A' ∧ A'.card ≤ A.card + order.length := by
  obtain ⟨e', d', A', run, m', same, grows, sub, _⟩ :=
    m.accepting_run (fun _ => False) order (show A ⊆ A ∪ order.toFinset from Finset.subset_union_left)
      (fun s hs => Finset.mem_union_right A (List.mem_toFinset.mpr hs))
      (fun _ _ _ _ _ _ _ impossible => impossible.elim)
  refine ⟨e', d', A', run, m', same, grows, ?_⟩
  have card := (Finset.card_le_card sub).trans (Finset.card_union_le A order.toFinset)
  have := List.toFinset_card_le order
  omega

theorem unsolved_behind {A' : Finset UInt32} {d' : LtDecoder} {seq : UInt32}
    (wf : d'.WF .causal A') (lt : j < d'.k)
    (before : ∀ s : UInt32, s.toNat < j → s ∈ A')
    (one : ({b ∈ d'.indexSet .causal seq | j ≤ b}).card = 1) : d'.newEdges .causal seq = 0 := by
  have sub : d'.unsolved .causal seq ⊆ ({b ∈ d'.indexSet .causal seq | j ≤ b}) := by
    intro b hb
    obtain ⟨index, unknown⟩ := Finset.mem_filter.mp hb
    refine Finset.mem_filter.mpr ⟨index, ?_⟩
    by_contra small
    apply unknown
    apply (LtDecoder.known_iff_solvable wf).mpr
    apply LtDecoder.first_phase_prefix_solves wf.toConf (by decide) (by omega)
    intro s le
    exact before s (by omega)
  have card := Finset.card_le_card sub
  rw [LtDecoder.newEdges, if_neg (by omega)]

/-- With all frames of the first phase but `j` accepted, a frame with one block
from `j` on completes the decoder exactly when the arena has a free slot for it,
or when nothing was left to do. -/
theorem Matched.repaired_iff (m : Matched .causal payload A e d) (lt : j < d.k)
    (all : ∀ s : UInt32, s.toNat < d.k → s.toNat ≠ j → s ∈ A) {seq : UInt32}
    (one : ({b ∈ d.indexSet .causal seq | j ≤ b}).card = 1) :
    ∃ e' d', presentFrame (e, d) seq = .ok (e', d') ∧
      (d'.isComplete = true ↔
        d.isComplete = true ∨ d.arena.length + d.words ≤ d.maxArenaWords) := by
  obtain ⟨e', d', A', call, m', step⟩ := m.present seq
  refine ⟨e', d', call, ?_⟩
  have free : d.newEdges .causal seq = 0 :=
    unsolved_behind m.decoder lt (fun s hs => all s (by omega) (by omega)) one
  have repairs : seq ∈ A' → d'.isComplete = true := by
    intro mem
    rw [LtDecoder.isComplete_iff m'.decoder]
    intro b inside
    rw [LtDecoder.known_iff_solvable m'.decoder]
    refine LtDecoder.causal_repaired m'.decoder.toConf (by rw [step.same.k]; exact lt) ?_ mem
      (by rw [step.same.indexSet]; exact one) b inside
    intro s hs ne
    rw [step.same.k] at hs
    exact step.sub (all s hs ne)
  constructor
  · intro complete
    rcases step.cases_accepted with ⟨_, _, same⟩ | ⟨_, accepts⟩
    · left
      rw [LtDecoder.isComplete_iff m.decoder]
      rw [LtDecoder.isComplete_iff m'.decoder, same, step.same.k] at complete
      exact complete
    · exact Or.inr accepts.room.1
  · rintro (complete | slot)
    · exact step.complete m.decoder m'.decoder complete
    · have room : d.Room .causal seq := ⟨slot, by rw [free]; exact m.decoder.pending_le⟩
      rcases (step.accepted m.decoder m'.decoder (frameBlock_length ..) fun _ _ => room).1 with
        complete | mem
      · exact complete
      · exact repairs mem

/-- Up to `3k` frames after a first phase without frame `j` leave a slot free. -/
theorem Matched.slot_left (m : Matched .causal payload A e d) (lt : j < d.k)
    (only : ∀ s : UInt32, s ∈ A ↔ s.toNat < d.k ∧ s.toNat ≠ j) {A' : Finset UInt32}
    {d' : LtDecoder} (wf : d'.WF .causal A') (same : d.Same d') {n : Nat}
    (card : A'.card ≤ A.card + n) (few : n ≤ 3 * d.k) :
    d'.arena.length + d'.words ≤ d'.maxArenaWords := by
  obtain ⟨s, s_eq⟩ := LtDecoder.exists_seq m.decoder.toConf lt
  have missing : A ⊂ firstPhase d.k := by
    rw [Finset.ssubset_iff_of_subset]
    · refine ⟨s, (mem_firstPhase m.decoder.k_le).mpr (by omega), ?_⟩
      intro mem
      exact ((only s).mp mem).2 s_eq
    · intro t ht
      exact (mem_firstPhase m.decoder.k_le).mpr ((only t).mp ht).1
  have few_first : A.card < d.k :=
    Nat.lt_of_lt_of_le (Finset.card_lt_card missing) (firstPhase_card d.k)
  apply LtDecoder.slot_of_card wf
  rw [same.k]
  omega

theorem Matched.collect (m : Matched .causal payload ∅ e d) (order : List UInt32)
    (inPhase : order.toFinset ⊆ firstPhase d.k) :
    ∃ e' d', order.foldlM presentFrame (e, d) = .ok (e', d') ∧
      Matched .causal payload order.toFinset e' d' ∧ d.Same d' ∧
      d'.framesDropped = d.framesDropped := by
  have phase : ∀ s ∈ order, s.toNat < d.k := by
    intro s hs
    exact (mem_firstPhase m.decoder.k_le).mp (inPhase (List.mem_toFinset.mpr hs))
  obtain ⟨e', d', A, run, m', same, _, sub, _, all, dropped⟩ :=
    m.accepting_run (fun _ => True) order (Finset.empty_subset order.toFinset)
      (fun s hs => List.mem_toFinset.mpr hs) (by
        intro before seq after e₁ d₁ A₁ split _ _ m₁ same sub _ fresh
        apply LtDecoder.first_phase_room m₁.decoder (by decide) _ _ fresh
        · rw [same.k]
          exact sub.trans inPhase
        · rw [same.k]
          exact phase seq (by rw [split]; simp))
  have within : A ⊆ firstPhase d'.k := by
    rw [same.k]
    exact sub.trans inPhase
  have A_eq : A = order.toFinset := by
    apply sub.antisymm
    intro s hs
    rcases all with done | all
    · apply (LtDecoder.complete_iff_first_phase m'.decoder (by decide) within).mp done
      rw [same.k]
      exact phase s (List.mem_toFinset.mp hs)
    · exact all s (List.mem_toFinset.mp hs) trivial
  exact ⟨e', d', run, A_eq ▸ m', same, dropped fun _ _ => trivial⟩

end

/-- Causal frames of the first phase, in any order and with any repetitions,
solve the blocks with no frame missing up to them. When only frame `j` is
missing, a frame with one block from `j` on completes the decoder if and only
if it finds a free slot, as it does among the next `3k` frames. -/
theorem causal_first_phase (soliton : SolitonCdf) (k blockLen totalLen : Nat) (sessionId : UInt32)
    (d₀ : LtDecoder)
    (built : LtDecoder.tryNew soliton .causal k blockLen sessionId totalLen = .ok (.ok d₀))
    (payload : List UInt8) (total : payload.length = totalLen) :
    ∃ e₀, LtEncoder.tryNew soliton .causal payload blockLen sessionId = .ok (.ok e₀) ∧
      (∀ seq : UInt32, seq.toNat < k → ∃ e, e₀.encode seq = .ok (frameBlock payload blockLen
        (if seq = 0 then [0] else [seq.toNat - 1, seq.toNat]), e)) ∧
      ∀ order : List UInt32, (∀ s ∈ order, s.toNat < k) →
        ∃ e d, order.foldlM presentFrame (e₀, d₀) = .ok (e, d) ∧
          (∀ i, i ∈ d.solvedBlocks ↔ i < k ∧ ∀ s : UInt32, s.toNat ≤ i → s ∈ order) ∧
          d.framesDropped = 0 ∧ d.framesNew ≤ k ∧
          (d.isComplete = true ↔ ∀ s : UInt32, s.toNat < k → s ∈ order) ∧
          ∀ j < k, (∀ s : UInt32, s ∈ order ↔ s.toNat < k ∧ s.toNat ≠ j) →
            ∀ (others : List UInt32) (seq : UInt32),
              ({b ∈ d₀.indexSet .causal seq | j ≤ b}).card = 1 →
                ∃ e₁ d₁ e' d', others.foldlM presentFrame (e, d) = .ok (e₁, d₁) ∧
                  presentFrame (e₁, d₁) seq = .ok (e', d') ∧
                  (d'.isComplete = true ↔
                    d₁.isComplete = true ∨ d₁.arena.length + d₁.words ≤ d₁.maxArenaWords) ∧
                  (others.length ≤ 3 * k → d₁.arena.length + d₁.words ≤ d₁.maxArenaWords) := by
  obtain ⟨_, fresh, k_eq, blockLen_eq, _⟩ := LtDecoder.built_ok built
  obtain ⟨e₀, new, m⟩ := matched_of_decoder built total
  refine ⟨e₀, new, ?_, ?_⟩
  · intro seq lt
    obtain ⟨e, encoded, _⟩ := m.encode seq
    refine ⟨e, ?_⟩
    rw [encoded, genuine, blockLen_eq,
      LtDecoder.first_phase_indices m.decoder.toConf (by decide) (by rw [k_eq]; exact lt)]
    by_cases zero : seq = 0 <;> simp [zero, Mode.isCausal]
  intro order phase
  have inPhase : order.toFinset ⊆ firstPhase d₀.k := by
    intro s hs
    rw [mem_firstPhase m.decoder.k_le, k_eq]
    exact phase s (List.mem_toFinset.mp hs)
  obtain ⟨e, d, run, m', same, dropped⟩ := m.collect order inPhase
  have d_k : d.k = k := by rw [same.k, k_eq]
  have within : order.toFinset ⊆ firstPhase d.k := by
    rw [same.k]
    exact inPhase
  have complete := LtDecoder.complete_iff_first_phase m'.decoder (by decide) within
  simp only [List.mem_toFinset, d_k] at complete
  refine ⟨e, d, run, ?_, dropped.trans fresh.framesDropped, ?_, complete, ?_⟩
  · intro i
    rw [LtDecoder.mem_solvedBlocks, LtDecoder.known_iff_solvable m'.decoder,
      LtDecoder.causal_solvable_iff m'.decoder.toConf within, d_k]
    simp only [List.mem_toFinset]
  · rw [m'.decoder.framesNew_eq, ← k_eq]
    exact (Finset.card_le_card inPhase).trans (firstPhase_card d₀.k)
  · intro j lt only others seq one
    have lacks : ∀ s : UInt32, s ∈ order.toFinset ↔ s.toNat < d.k ∧ s.toNat ≠ j := by
      intro s
      rw [List.mem_toFinset, only s, d_k]
    obtain ⟨e₁, d₁, A₁, more, m₁, same₁, grows, card⟩ := m'.run_within others
    have d₁_k : d₁.k = k := by rw [same₁.k, d_k]
    rw [← same.indexSet, ← same₁.indexSet] at one
    obtain ⟨e', d', call, repaired⟩ := m₁.repaired_iff (by rw [d₁_k]; exact lt)
      (fun s hs ne => grows ((lacks s).mpr ⟨by omega, ne⟩)) one
    refine ⟨e₁, d₁, e', d', more, call, repaired, fun few => ?_⟩
    exact m'.slot_left (by rw [d_k]; exact lt) lacks m₁.decoder same₁ card (by rw [d_k]; exact few)

theorem seq_eq_one_iff {s : UInt32} : s = 1 ↔ s.toNat < 2 ∧ s.toNat ≠ 0 := by
  have one : (1 : UInt32).toNat = 1 := rfl
  rw [← UInt32.toNat_inj, one]
  omega

/-- Frame 1 of two, presented twice, a repair frame of both blocks, and one of
block 0. -/
theorem causal_first_phase_twoBlocks :
    ∃ e₀, LtEncoder.tryNew twoBlockSoliton .causal [0x61, 0x62] 1 7 = .ok (.ok e₀) ∧
      ∃ e d, [1, 1].foldlM presentFrame (e₀, LtDecoder.twoBlocks .causal) = .ok (e, d) ∧
        ∃ e₁ d₁ e' d', [7].foldlM presentFrame (e, d) = .ok (e₁, d₁) ∧
          presentFrame (e₁, d₁) 2 = .ok (e', d') ∧ d'.isComplete = true := by
  obtain ⟨e₀, new, _, phase⟩ := causal_first_phase twoBlockSoliton 2 1 2 7 _
    (LtDecoder.twoBlocks_built .causal) [0x61, 0x62] rfl
  have only : ∀ s : UInt32, s ∈ [1, 1] ↔ s.toNat < 2 ∧ s.toNat ≠ 0 := by
    intro s
    rw [List.mem_pair, or_self, seq_eq_one_iff]
  obtain ⟨e, d, run, _, _, _, _, gap⟩ := phase [1, 1] (fun s mem => ((only s).mp mem).1)
  obtain ⟨e₁, d₁, e', d', more, call, repaired, room⟩ :=
    gap 0 (by decide) only [7] 2 (by decide +kernel)
  exact ⟨e₀, new, e, d, run, e₁, d₁, e', d', more, call,
    repaired.mpr (Or.inr (room (by decide)))⟩

/-- Frame 1 of two and seven repair frames of both blocks fill the arena. The
frame of block 0 that comes next is refused. -/
theorem full_arena_refuses_repair :
    ¬ ∀ (soliton : SolitonCdf) (payload : List UInt8) (blockLen : Nat) (sessionId : UInt32)
      (e₀ e : LtEncoder) (d₀ d : LtDecoder) (order others : List UInt32) (seq : UInt32) (j : Nat),
      LtEncoder.tryNew soliton .causal payload blockLen sessionId = .ok (.ok e₀) →
      LtDecoder.tryNew soliton .causal e₀.k blockLen sessionId payload.length = .ok (.ok d₀) →
      j < e₀.k → (∀ s : UInt32, s ∈ order ↔ s.toNat < e₀.k ∧ s.toNat ≠ j) →
      (∀ s ∈ others, e₀.k ≤ s.toNat ∧ ({b ∈ d₀.indexSet .causal s | j ≤ b}).card ≠ 1) →
      e₀.k ≤ seq.toNat → ({b ∈ d₀.indexSet .causal seq | j ≤ b}).card = 1 →
      (order ++ others ++ [seq]).foldlM presentFrame (e₀, d₀) = .ok (e, d) →
        d.isComplete = true := by
  intro repairs
  have run : (([1] ++ [7, 10, 11, 12, 16, 20, 24] ++ [28] : List UInt32).foldlM presentFrame
      (twoBlocksEncoder .causal, LtDecoder.twoBlocks .causal)).map (·.2.isComplete) =
      .ok false := by decide +kernel
  cases calls : ([1] ++ [7, 10, 11, 12, 16, 20, 24] ++ [28] : List UInt32).foldlM presentFrame
      (twoBlocksEncoder .causal, LtDecoder.twoBlocks .causal) with
  | error _ =>
    rw [calls] at run
    cases run
  | ok s =>
    rw [calls] at run
    have unfinished : s.2.isComplete = false := Except.ok.inj run
    have only : ∀ s : UInt32, s ∈ [1] ↔ s.toNat < 2 ∧ s.toNat ≠ 0 := by
      intro s
      rw [List.mem_singleton, seq_eq_one_iff]
    have both : ([7, 10, 11, 12, 16, 20, 24] : List UInt32).all fun s => decide (2 ≤ s.toNat ∧
        ({b ∈ (LtDecoder.twoBlocks .causal).indexSet .causal s | 0 ≤ b}).card ≠ 1) := by
      decide +kernel
    simp only [List.all_eq_true, decide_eq_true_eq] at both
    have := repairs _ _ _ _ _ _ _ _ [1] [7, 10, 11, 12, 16, 20, 24] 28 0
      (twoBlocksEncoder_built .causal) (LtDecoder.twoBlocks_built .causal) (by decide) only both
      (by decide) (by decide +kernel) calls
    rw [this] at unfinished
    cases unfinished

end DeOptiTransfer
