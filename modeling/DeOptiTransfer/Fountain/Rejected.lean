import DeOptiTransfer.Fountain.Runs

/-!
# Frames that are not accepted

A frame that `add_frame` does not accept changes a counter and the buffers for
indices, which no later call reads.

* `Refused.untouched`, `accepted_counted`: the two kinds of calls;
* `addFrame_congr`: buffers and counters do not matter to an accepted frame;
* `rejected_frames_leave_no_trace`: a run is the run of its accepted frames.
-/

namespace DeOptiTransfer.LtDecoder

/-- Everything but the buffers for indices and the counters of frames that were
not accepted. -/
def decodeState (d : LtDecoder) : LtDecoder :=
  { d with idx := [], idxScratch := [], framesDup := 0, framesDropped := 0 }

/-- The frame has the wrong length, comes too late, has an accepted sequence
number or exceeds a budget. -/
def Rejects (mode : Mode) (d : LtDecoder) (seq : UInt32) (block : List UInt8) : Prop :=
  block.length ≠ d.blockLen ∨ d.isComplete = true ∨ d.seen.contains seq = .ok true ∨
    ¬ d.Room mode seq

/-- Nothing has changed but at most one of the two counters, by one, and the
buffers. -/
structure Untouched (d d' : LtDecoder) : Prop where
  state : d'.decodeState = d.decodeState
  counters : d'.framesDup = d.framesDup ∧ d'.framesDropped = d.framesDropped ∨
    d'.framesDup = d.framesDup + 1 ∧ d'.framesDropped = d.framesDropped ∨
    d'.framesDup = d.framesDup ∧ d'.framesDropped = d.framesDropped + 1

/-- The frames of a run that were accepted, by the counter of new frames. -/
def acceptedFrames : LtDecoder → List (UInt32 × List UInt8) → Exec (List (UInt32 × List UInt8))
  | _, [] => .ok []
  | d, input :: rest => do
    let d' ← d.addFrame input.1 input.2
    let accepted ← d'.acceptedFrames rest
    .ok (if d'.framesNew > d.framesNew then input :: accepted else accepted)

section
variable {mode : Mode} {A : Finset UInt32} {d d' t : LtDecoder} {seq : UInt32}
  {block : List UInt8}

theorem not_accepts_iff (wf : d.WF mode A) :
    ¬ d.Accepts mode A seq block ↔ d.Rejects mode seq block := by
  have contains := U32Set.contains_ok wf.seen_holds seq
  have known : d.seen.contains seq = .ok true ↔ seq ∈ A := by
    rw [contains, Except.ok.injEq, decide_eq_true_iff]
  rw [Rejects, known]
  constructor
  · intro refused
    by_contra none_of
    push Not at none_of
    obtain ⟨len, unfinished, fresh, room⟩ := none_of
    exact refused ⟨len, by simpa using unfinished, fresh, room⟩
  · rintro (len | done | known | full) accepts
    · exact len accepts.length_eq
    · rw [accepts.unfinished] at done
      cases done
    · exact accepts.fresh known
    · exact full accepts.room

theorem Refused.untouched (refused : d.Refused mode A seq block d') : d.Untouched d' := by
  cases refused with
  | length _ => exact ⟨rfl, Or.inr (Or.inr ⟨rfl, rfl⟩)⟩
  | complete _ => exact ⟨rfl, Or.inl ⟨rfl, rfl⟩⟩
  | duplicate _ => exact ⟨rfl, Or.inr (Or.inl ⟨rfl, rfl⟩)⟩
  | budget _ _ _ _ _ => exact ⟨rfl, Or.inr (Or.inr ⟨rfl, rfl⟩)⟩

theorem eq_of_decodeState (same : t.decodeState = d.decodeState) :
    t = { d with
      idx := t.idx, idxScratch := t.idxScratch, framesDup := t.framesDup
      framesDropped := t.framesDropped } :=
  congrArg (fun s : LtDecoder => { s with
    idx := t.idx, idxScratch := t.idxScratch, framesDup := t.framesDup
    framesDropped := t.framesDropped }) same

theorem seen_of_decodeState (same : t.decodeState = d.decodeState) : t.seen = d.seen :=
  (congrArg LtDecoder.seen same :)

theorem WF.of_decodeState (wf : d.WF mode A) (same : t.decodeState = d.decodeState) :
    t.WF mode A := by
  rw [eq_of_decodeState same]
  exact { wf with }

theorem Accepts.of_decodeState (accepts : d.Accepts mode A seq block)
    (same : t.decodeState = d.decodeState) : t.Accepts mode A seq block := by
  rw [eq_of_decodeState same]
  exact ⟨accepts.length_eq, accepts.unfinished, accepts.fresh, accepts.room⟩

/-- Storing a frame neither reads nor writes the second buffer and the counters. -/
theorem store_frame (d : LtDecoder) (idxScratch : List Nat) (dup dropped : Nat)
    (unsolved : List Nat) (block : List UInt8) :
    store { d with idxScratch, framesDup := dup, framesDropped := dropped } unsolved block =
      (d.store unsolved block).map fun d' =>
        { d' with idxScratch, framesDup := dup, framesDropped := dropped } := by
  unfold store
  simp only [exec_map_bind]
  apply bind_congr
  intro row
  apply bind_congr
  intro bytes
  apply bind_congr
  intro arena
  apply bind_congr
  intro arena
  by_cases one : unsolved.length = 1
  · rw [if_pos one, if_pos one, exec_map_bind]
    apply bind_congr
    intro b
    rw [exec_map_bind]
    rfl
  · rw [if_neg one, if_neg one, exec_map_bind]
    apply bind_congr
    intro byBlock
    rw [exec_map_bind]
    rfl

/-- Buffers and counters do not matter: decoders in one state accept a frame
alike. -/
theorem addFrame_congr (wf : d.WF mode A) (same : t.decodeState = d.decodeState)
    (accepts : d.Accepts mode A seq block) (call : d.addFrame seq block = .ok d') :
    ∃ t', t.addFrame seq block = .ok t' ∧ t'.decodeState = d'.decodeState := by
  obtain ⟨idxScratch, seen, inserted, _, call_eq⟩ := addFrame_accepted wf accepts
  obtain ⟨idxScratch', seen', inserted', _, call_eq'⟩ :=
    addFrame_accepted (wf.of_decodeState same) (accepts.of_decodeState same)
  have seen_eq := seen_of_decodeState same
  have list_eq : t.unsolvedList mode seq = d.unsolvedList mode seq :=
    (congrArg (fun s : LtDecoder => s.unsolvedList mode seq) same :)
  rw [seen_eq] at inserted'
  obtain rfl : seen' = seen := congrArg Prod.snd (Except.ok.inj (inserted'.symm.trans inserted))
  -- the decoder with the frame recorded, as it is before the block is stored
  have recorded := congrArg (fun s : LtDecoder => { s with
    idx := frameIndices mode s.cdf s.sessionId seq, idxScratch := idxScratch', seen := seen'
    framesNew := s.framesNew + 1, framesDup := t.framesDup, framesDropped := t.framesDropped }) same
  rw [list_eq] at call_eq'
  rw [call_eq] at call
  rw [call_eq']
  by_cases empty : (d.unsolvedList mode seq).isEmpty = true
  · rw [if_pos empty] at call ⊢
    cases call
    exact ⟨_, rfl, (congrArg decodeState recorded :)⟩
  · rw [if_neg empty] at call ⊢
    have stored := store_frame { d with
      idx := frameIndices mode d.cdf d.sessionId seq, idxScratch, seen := seen'
      framesNew := d.framesNew + 1 } idxScratch' t.framesDup t.framesDropped
      (d.unsolvedList mode seq) block
    rw [call] at stored
    exact ⟨_, (congrArg (store · (d.unsolvedList mode seq) block) recorded).trans stored, rfl⟩

theorem accepted_counted (wf : d.WF mode A) (wf' : d'.WF mode (insert seq A))
    (accepts : d.Accepts mode A seq block) :
    d'.framesNew = d.framesNew + 1 ∧ d'.seen.contains seq = .ok true := by
  constructor
  · rw [wf'.framesNew_eq, Finset.card_insert_of_notMem accepts.fresh, wf.framesNew_eq]
  · rw [U32Set.contains_ok wf'.seen_holds, decide_eq_true (Finset.mem_insert_self seq A)]

theorem addFrame_cases (wf : d.WF mode A) (seq : UInt32) (block : List UInt8) :
    ∃ d', d.addFrame seq block = .ok d' ∧
      (¬ d.Accepts mode A seq block ∧ d.Untouched d' ∧ d'.WF mode A ∨
        d.Accepts mode A seq block ∧ d'.WF mode (insert seq A)) := by
  by_cases accepts : d.Accepts mode A seq block
  · obtain ⟨d', A', call, wf', step⟩ := addFrame_ok wf seq block
    have A'_eq : A' = insert seq A := by
      cases step with
      | refused why _ => exact absurd accepts why
      | redundant _ _ => rfl
      | useful _ _ _ _ _ => rfl
    subst A'_eq
    exact ⟨d', call, Or.inr ⟨accepts, wf'⟩⟩
  · obtain ⟨d', call, refused⟩ := addFrame_refused wf accepts
    exact ⟨d', call, Or.inl ⟨accepts, refused.untouched, refused.wf wf⟩⟩

/-- A run ends in the state its accepted frames lead to, from any decoder in the
state it starts in. -/
theorem acceptedFrames_ok (wf : d.WF mode A) (same : t.decodeState = d.decodeState)
    (inputs : List (UInt32 × List UInt8)) :
    ∃ d' accepted t', d.addFrames inputs = .ok d' ∧ d.acceptedFrames inputs = .ok accepted ∧
      t.addFrames accepted = .ok t' ∧ t'.decodeState = d'.decodeState ∧
      d'.WF mode (A ∪ (accepted.map Prod.fst).toFinset) := by
  induction inputs generalizing d t A with
  | nil => exact ⟨d, [], t, rfl, rfl, rfl, same, by simpa using wf⟩
  | cons input rest ih =>
    obtain ⟨seq, block⟩ := input
    obtain ⟨d₁, call, ⟨_, untouched, wf₁⟩ | ⟨accepts, wf₁⟩⟩ := addFrame_cases wf seq block
    · obtain ⟨d', accepted, t', calls, found, replay, state, wf'⟩ :=
        ih wf₁ (same.trans untouched.state.symm)
      have still : ¬ d₁.framesNew > d.framesNew := by
        rw [wf₁.framesNew_eq, wf.framesNew_eq]
        exact Nat.lt_irrefl _
      refine ⟨d', accepted, t', ?_, ?_, replay, state, wf'⟩
      · rw [addFrames_cons, call, exec_ok_bind, calls]
      · rw [acceptedFrames, call, exec_ok_bind, found, exec_ok_bind, if_neg still]
    · obtain ⟨t₁, call_t, same₁⟩ := addFrame_congr wf same accepts call
      obtain ⟨d', accepted, t', calls, found, replay, state, wf'⟩ := ih wf₁ same₁
      have counted := (accepted_counted wf wf₁ accepts).1
      refine ⟨d', (seq, block) :: accepted, t', ?_, ?_, ?_, state, ?_⟩
      · rw [addFrames_cons, call, exec_ok_bind, calls]
      · rw [acceptedFrames, call, exec_ok_bind, found, exec_ok_bind, if_pos (by omega)]
      · rw [addFrames_cons, call_t, exec_ok_bind, replay]
      · rw [List.map_cons, List.toFinset_cons, Finset.union_insert, ← Finset.insert_union]
        exact wf'

end

/-- Rejected frames leave no trace. In every state a new decoder can reach a
rejected frame changes one counter at most and is not recorded, and any other
frame is counted and recorded. So the state after a run is the state after its
accepted frames, and the counter of new frames counts their numbers. -/
theorem rejected_frames_leave_no_trace (soliton : SolitonCdf) (mode : Mode)
    (k blockLen totalLen : Nat) (sessionId : UInt32) (d₀ : LtDecoder)
    (built : tryNew soliton mode k blockLen sessionId totalLen = .ok (.ok d₀))
    (inputs : List (UInt32 × List UInt8)) :
    ∃ d accepted, d₀.addFrames inputs = .ok d ∧ d₀.acceptedFrames inputs = .ok accepted ∧
      (∀ seq block, ∃ d', d.addFrame seq block = .ok d' ∧
        (d.Rejects mode seq block →
          d.Untouched d' ∧ d'.seen.contains seq = d.seen.contains seq) ∧
        (¬ d.Rejects mode seq block →
          d'.framesNew = d.framesNew + 1 ∧ d'.seen.contains seq = .ok true)) ∧
      (∃ d', d₀.addFrames accepted = .ok d' ∧ d'.decodeState = d.decodeState) ∧
      d.framesNew = (accepted.map Prod.fst).toFinset.card := by
  obtain ⟨wf₀, _⟩ := built_ok built
  obtain ⟨d, accepted, d', calls, found, replay, state, wf⟩ := acceptedFrames_ok wf₀ rfl inputs
  rw [Finset.empty_union] at wf
  refine ⟨d, accepted, calls, found, ?_, ⟨d', replay, state⟩, wf.framesNew_eq⟩
  intro seq block
  obtain ⟨d₁, call, ⟨refused, untouched, _⟩ | ⟨accepts, wf₁⟩⟩ := addFrame_cases wf seq block
  · have rejects := (not_accepts_iff wf).mp refused
    have seen_eq := seen_of_decodeState untouched.state
    refine ⟨d₁, call, ?_, ?_⟩
    · intro _
      exact ⟨untouched, by rw [seen_eq]⟩
    · intro admitted
      exact absurd rejects admitted
  · refine ⟨d₁, call, ?_, ?_⟩
    · intro rejects
      exact absurd accepts ((not_accepts_iff wf).mpr rejects)
    · intro _
      exact accepted_counted wf wf₁ accepts

/-- Of these three frames the first is accepted, the second is a duplicate and
the third is too short. -/
theorem rejected_frames_leave_no_trace_twoBlocks :
    ∃ d accepted, (twoBlocks .causal).addFrames [(0, [0x61]), (0, [0x62]), (1, [])] = .ok d ∧
      (twoBlocks .causal).acceptedFrames [(0, [0x61]), (0, [0x62]), (1, [])] = .ok accepted ∧
      (∀ seq block, ∃ d', d.addFrame seq block = .ok d' ∧
        (d.Rejects .causal seq block →
          d.Untouched d' ∧ d'.seen.contains seq = d.seen.contains seq) ∧
        (¬ d.Rejects .causal seq block →
          d'.framesNew = d.framesNew + 1 ∧ d'.seen.contains seq = .ok true)) ∧
      (∃ d', (twoBlocks .causal).addFrames accepted = .ok d' ∧ d'.decodeState = d.decodeState) ∧
      d.framesNew = (accepted.map Prod.fst).toFinset.card :=
  rejected_frames_leave_no_trace twoBlockSoliton .causal 2 1 2 7 _ (twoBlocks_built .causal) _

end DeOptiTransfer.LtDecoder
