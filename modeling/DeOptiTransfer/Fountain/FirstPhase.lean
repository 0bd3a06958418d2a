import DeOptiTransfer.Fountain.Closure

/-!
# The first phase

The frames below `k` of the causal and the systematic mode.

* `first_phase_room`: they always find room among themselves;
* `complete_iff_first_phase`: they complete a decoder only all together.
-/

namespace DeOptiTransfer

/-- The sequence numbers of the first phase. -/
def firstPhase (k : Nat) : Finset UInt32 := ((List.range k).map UInt32.ofNat).toFinset

theorem mem_firstPhase {k : Nat} (le : k ≤ MAX_SOURCE_BLOCKS) {seq : UInt32} :
    seq ∈ firstPhase k ↔ seq.toNat < k := by
  simp only [MAX_SOURCE_BLOCKS] at le
  simp only [firstPhase, List.mem_toFinset, List.mem_map, List.mem_range]
  constructor
  · rintro ⟨n, lt, rfl⟩
    rw [UInt32.toNat_ofNat_of_lt' (by simp only [UInt32.size]; omega)]
    exact lt
  · intro lt
    exact ⟨seq.toNat, lt, UInt32.ofNat_toNat⟩

theorem firstPhase_card (k : Nat) : (firstPhase k).card ≤ k := by
  have := List.toFinset_card_le ((List.range k).map UInt32.ofNat)
  simpa [firstPhase] using this

namespace LtDecoder

section
variable {mode : Mode} {A : Finset UInt32} {d : LtDecoder} {seq : UInt32}

theorem first_phase_indices (conf : d.Conf mode) (phase : mode ≠ .rsd) (lt : seq.toNat < d.k) :
    frameIndices mode d.cdf d.sessionId seq =
      if mode.isCausal ∧ seq ≠ 0 then [seq.toNat - 1, seq.toNat] else [seq.toNat] := by
  have span : mode.sysSpan d.cdf.k = d.k := by
    rw [conf.cdf_k]
    cases mode <;> simp_all [Mode.sysSpan]
  rw [frameIndices, span, if_pos lt]

/-- First-phase frames always find room among themselves. -/
theorem first_phase_room (wf : d.WF mode A) (phase : mode ≠ .rsd) (sub : A ⊆ firstPhase d.k)
    (lt : seq.toNat < d.k) (fresh : seq ∉ A) : d.Room mode seq := by
  have k_le := wf.k_le
  have card := firstPhase_card d.k
  refine room_of_budget wf sub ((mem_firstPhase k_le).mpr lt) fresh (by omega) ?_
  have two : ∀ s ∈ firstPhase d.k, (d.indexSet mode s).card ≤ 2 := by
    intro s hs
    refine (List.toFinset_card_le _).trans ?_
    rw [first_phase_indices wf.toConf phase ((mem_firstPhase k_le).mp hs)]
    split <;> simp
  have sum : ∑ s ∈ firstPhase d.k, (d.indexSet mode s).card ≤ (firstPhase d.k).card * 2 :=
    Finset.sum_le_card_nsmul _ _ 2 two
  omega

/-- What the first phase solves at most without frame `seq`: a causal run stops
before its block, a systematic one leaves it out. -/
def solvedWithout (mode : Mode) (seq : UInt32) : Set Nat :=
  {c | if mode.isCausal then c < seq.toNat else c ≠ seq.toNat}

theorem solvedWithout_closed (conf : d.Conf mode) (phase : mode ≠ .rsd) (sub : A ⊆ firstPhase d.k)
    (missing : seq ∉ A) : PeelClosed (d.indices mode) A (solvedWithout mode seq) := by
  apply peelClosed_of_settled
  intro s hs
  have ne : s.toNat ≠ seq.toNat := fun eq => missing (UInt32.toNat_inj.mp eq ▸ hs)
  have index := first_phase_indices conf phase ((mem_firstPhase conf.k_le).mp (sub hs))
  have mem : ∀ c, c ∈ d.indices mode s ↔ c ∈ frameIndices mode d.cdf d.sessionId s :=
    fun _ => Iff.rfl
  simp only [mem, index, solvedWithout, Set.mem_ofPred_eq]
  cases causal : mode.isCausal with
  | false =>
    left
    simpa using ne
  | true =>
    by_cases zero : s = 0
    · left
      subst zero
      have : (0 : UInt32).toNat = 0 := rfl
      simp only [ne_eq, not_true, and_false, ↓reduceIte, List.mem_singleton, forall_eq]
      omega
    · have pos : s.toNat ≠ 0 := fun eq => zero (UInt32.toNat_inj.mp eq)
      simp only [ne_eq, zero, not_false_eq_true, and_self, ↓reduceIte, List.mem_cons,
        List.not_mem_nil, or_false]
      rcases Nat.lt_or_gt_of_ne ne with before | after
      · left
        omega
      · right
        exact ⟨s.toNat - 1, Or.inl rfl, s.toNat, Or.inr rfl, by omega, by omega, by omega⟩

/-- Every block needs every frame before it, so none can be missing. -/
theorem first_phase_needed (conf : d.Conf mode) (phase : mode ≠ .rsd) (sub : A ⊆ firstPhase d.k)
    (all : ∀ b < d.k, Solvable (d.indices mode) A b) (lt : seq.toNat < d.k) : seq ∈ A := by
  by_contra missing
  have closed := solvedWithout_closed conf phase sub missing
  have own := solvable_sub_closed closed (all seq.toNat lt)
  simp only [solvedWithout, Set.mem_ofPred_eq] at own
  split at own <;> simp at own

/-- A decoder that has only accepted first-phase frames is complete when it has
all of them. -/
theorem complete_iff_first_phase (wf : d.WF mode A) (phase : mode ≠ .rsd)
    (sub : A ⊆ firstPhase d.k) :
    d.isComplete = true ↔ ∀ s : UInt32, s.toNat < d.k → s ∈ A := by
  rw [isComplete_iff wf]
  constructor
  · intro complete s lt
    exact first_phase_needed wf.toConf phase sub
      (fun b hb => (known_iff_solvable wf).mp (complete b hb)) lt
  · intro all b lt
    exact (known_iff_solvable wf).mpr (first_phase_solves wf.toConf phase all lt)

end

end LtDecoder

end DeOptiTransfer
