import DeOptiTransfer.Fountain.Runs

/-!
# What a decoder keeps

Every block the decoder solves and every frame it stores takes a slot of the
arena, and what the index sets take is charged to the edges.

* `PeelState.held`, `PeelState.setSizes`: what occupies slots and what the sets
  take, which peeling never increases;
* `addFrame_taken`: what one call takes, with what it is charged;
* `Paid`, `Buffers`: what holds of a decoder after any calls.
-/

namespace DeOptiTransfer

namespace BlockSet

/-- The entries of the vector or the words of the bit vector. -/
def size : BlockSet → Nat
  | .dense v => v.length
  | .sparse bits _ => bits.length

theorem swapRemove_length {v v' : List Nat} {i : Nat} (h : swapRemove v i = .ok v') :
    v'.length ≤ v.length := by
  obtain ⟨lastIdx, _, h⟩ := exec_bind_eq_ok.mp h
  obtain ⟨last, _, h⟩ := exec_bind_eq_ok.mp h
  obtain ⟨w, replaced, h⟩ := exec_bind_eq_ok.mp h
  cases h
  rw [List.length_dropLast, setAt_length replaced]
  exact Nat.sub_le _ _

theorem remove_size {s s' : BlockSet} {b : Nat} (h : s.remove b = .ok s') : s'.size ≤ s.size := by
  cases s with
  | dense v =>
    unfold remove at h
    dsimp only at h
    split at h
    · obtain ⟨v', swapped, h⟩ := exec_bind_eq_ok.mp h
      cases h
      exact swapRemove_length swapped
    · cases h
      exact Nat.le_refl _
  | sparse bits count =>
    obtain ⟨set, _, h⟩ := exec_bind_eq_ok.mp h
    split at h
    · obtain ⟨bits', cleared, h⟩ := exec_bind_eq_ok.mp h
      obtain ⟨count', _, h⟩ := exec_bind_eq_ok.mp h
      obtain ⟨word, _, cleared⟩ := exec_bind_eq_ok.mp cleared
      cases h
      exact Nat.le_of_eq (setAt_length cleared)
    · cases h
      exact Nat.le_refl _

/-- A bit vector of up to 65535 bits has no more than four words for each of more
than 256 members. -/
theorem new_size {k : Nat} {members : List Nat} {s : BlockSet} (le : k ≤ MAX_SOURCE_BLOCKS)
    (h : new k members = .ok s) : s.size ≤ 4 * members.length := by
  simp only [MAX_SOURCE_BLOCKS] at le
  unfold new at h
  split at h
  · rename_i many
    rw [DENSE_LIMIT] at many
    obtain ⟨bits, set, h⟩ := exec_bind_eq_ok.mp h
    cases h
    have length := foldlM_keeps (fun bits : List (BitVec 64) => bits.length = divCeil k 64)
      (fun b bits bits' turn length => by
        obtain ⟨word, _, turn⟩ := exec_bind_eq_ok.mp turn
        exact (setAt_length turn).trans length) set List.length_replicate
    have words : divCeil k 64 ≤ 1024 := (divCeil_le_iff (by decide)).mpr (by omega)
    show bits.length ≤ _
    omega
  · cases h
    show members.length ≤ _
    omega

end BlockSet

namespace PeelState

/-- The blocks that are solved and the frames that wait. -/
def held (p : PeelState) : Nat := p.solvedCount + p.frames.countP (·.active)

/-- What the index sets of all frames take, of those that no longer wait too. -/
def setSizes (p : PeelState) : Nat := (p.frames.map (·.idx.size)).sum

end PeelState

/-! ## Peeling -/

/-- What peeling has come to from `p` and `q` takes no more than they do. -/
structure Shrinks (p : PeelState) (q : Queue) (s : PeelState × Queue) : Prop where
  held_le : s.1.held + s.2.length ≤ p.held + q.length
  frames_length : s.1.frames.length = p.frames.length
  sets_le : s.1.setSizes ≤ p.setSizes

section
variable {words b i : Nat} {p p' : PeelState} {q q' : Queue} {s : PeelState × Queue}

theorem Shrinks.refl (p : PeelState) (q : Queue) : Shrinks p q (p, q) :=
  ⟨Nat.le_refl _, rfl, Nat.le_refl _⟩

theorem Shrinks.trans (h : Shrinks p q (p', q')) (h' : Shrinks p' q' s) : Shrinks p q s :=
  ⟨h'.held_le.trans h.held_le, h'.frames_length.trans h.frames_length,
    h'.sets_le.trans h.sets_le⟩

theorem setSizes_set {f f' : PendingFrame} (at_i : p.frames[i]? = some f)
    (le : f'.idx.size ≤ f.idx.size) :
    ((p.frames.set i f').map (·.idx.size)).sum ≤ p.setSizes := by
  obtain ⟨lt, rfl⟩ := List.getElem?_eq_some_iff.mp at_i
  have total := sum_map_set (·.idx.size) p.frames lt f'
  rw [PeelState.setSizes]
  omega

/-- Waking a frame moves its slot to the queue at most. -/
theorem wake_shrinks (woken : wake words b (p, q) i = .ok s) : Shrinks p q s := by
  unfold wake at woken
  obtain ⟨frame, at_i, woken⟩ := exec_bind_eq_ok.mp woken
  replace at_i := getAt_eq_ok.mp at_i
  have lt : i < p.frames.length := (List.getElem?_eq_some_iff.mp at_i).1
  by_cases active : frame.active = true
  case neg =>
    simp only [active] at woken
    cases woken
    exact Shrinks.refl p q
  simp only [active, not_true, ↓reduceIte, setAt_of_lt lt, exec_ok_bind] at woken
  obtain ⟨sOff, _, woken⟩ := exec_bind_eq_ok.mp woken
  cases sOff with
  | none => cases woken
  | some sOff =>
    obtain ⟨arena, _, woken⟩ := exec_bind_eq_ok.mp woken
    obtain ⟨idx, removed, woken⟩ := exec_bind_eq_ok.mp woken
    have waits : p.Active i frame := ⟨at_i, active⟩
    have count := waits.countP_set
    have sets : ∀ still, ((p.frames.set i { frame with idx, active := still }).map
        (·.idx.size)).sum ≤ p.setSizes := fun still =>
      setSizes_set at_i (BlockSet.remove_size removed)
    rcases len : idx.len with _ | _ | n
    · simp only [len] at woken
      cases woken
      have retired := count { frame with idx, active := false }
      refine ⟨?_, List.length_set, sets false⟩
      simp only [PeelState.held, Bool.false_eq_true, ↓reduceIte] at retired ⊢
      omega
    · simp only [len] at woken
      obtain ⟨r, _, woken⟩ := exec_bind_eq_ok.mp woken
      obtain ⟨rOff, _, woken⟩ := exec_bind_eq_ok.mp woken
      cases woken
      have retired := count { frame with idx, active := false }
      have queued : (if rOff.isNone then (r, frame.off) :: q else q).length ≤ q.length + 1 := by
        split <;> simp
      refine ⟨?_, List.length_set, sets false⟩
      simp only [PeelState.held, Bool.false_eq_true, ↓reduceIte] at retired ⊢
      omega
    · simp only [len] at woken
      cases woken
      have kept := count { frame with idx, active := true }
      refine ⟨?_, List.length_set, sets true⟩
      simp only [PeelState.held, ↓reduceIte] at kept ⊢
      omega

/-- Peeling solves no more blocks than it takes frames and queued blocks. -/
theorem resolveLoop_shrinks {turns : Nat} (resolved : resolveLoop words turns (p, q) = .ok p') :
    Shrinks p q (p', []) := by
  induction turns generalizing p q with
  | zero =>
    cases q with
    | nil =>
      cases resolved
      exact Shrinks.refl _ []
    | cons => cases resolved
  | succ turns ih =>
    cases q with
    | nil =>
      cases resolved
      exact Shrinks.refl _ []
    | cons head queue =>
      obtain ⟨b, off⟩ := head
      simp only [resolveLoop] at resolved
      obtain ⟨known, _, resolved⟩ := exec_bind_eq_ok.mp resolved
      by_cases solved : known.isSome = true
      · simp only [solved, ↓reduceIte] at resolved
        obtain ⟨le, frames, sets⟩ := ih resolved
        exact ⟨le.trans (Nat.add_le_add_left (Nat.le_succ _) _), frames, sets⟩
      · simp only [solved] at resolved
        obtain ⟨solved, _, resolved⟩ := exec_bind_eq_ok.mp resolved
        obtain ⟨waiting, _, resolved⟩ := exec_bind_eq_ok.mp resolved
        obtain ⟨byBlock, _, resolved⟩ := exec_bind_eq_ok.mp resolved
        obtain ⟨⟨p₁, q₁⟩, woken, resolved⟩ := exec_bind_eq_ok.mp resolved
        have inner := foldlM_keeps (Shrinks _ queue)
          (fun _ _ _ turn so_far => so_far.trans (wake_shrinks turn)) woken (Shrinks.refl _ queue)
        obtain ⟨le, frames, sets⟩ := inner.trans (ih resolved)
        refine ⟨le.trans ?_, frames, sets⟩
        simp only [PeelState.held, List.length_cons]
        omega

end

namespace LtDecoder

/-! ## One call -/

/-- What a call may take: one block solved or one frame stored, whose index set is
charged to the edges. -/
structure Taken (d d' : LtDecoder) : Prop where
  held_le : d'.held ≤ d.held + 1
  frames_le : d'.frames.length ≤ d.frames.length + 1
  sets_le : d'.setSizes + 4 * d.pendingEdges ≤ d.setSizes + 4 * d'.pendingEdges

theorem store_taken {d d' : LtDecoder} {unsolved : List Nat} {block : List UInt8}
    (k_le : d.k ≤ MAX_SOURCE_BLOCKS) (stored : d.store unsolved block = .ok d') : d.Taken d' := by
  unfold store at stored
  obtain ⟨row, _, stored⟩ := exec_bind_eq_ok.mp stored
  obtain ⟨bytes, _, stored⟩ := exec_bind_eq_ok.mp stored
  obtain ⟨arena₁, _, stored⟩ := exec_bind_eq_ok.mp stored
  obtain ⟨arena, _, stored⟩ := exec_bind_eq_ok.mp stored
  by_cases one : unsolved.length = 1
  · simp only [if_pos one] at stored
    obtain ⟨b, _, stored⟩ := exec_bind_eq_ok.mp stored
    obtain ⟨peel, resolved, stored⟩ := exec_bind_eq_ok.mp stored
    cases stored
    obtain ⟨held, frames, sets⟩ := resolveLoop_shrinks resolved
    exact ⟨held, Nat.le_trans (Nat.le_of_eq frames) (Nat.le_succ _), Nat.add_le_add_right sets _⟩
  · simp only [if_neg one] at stored
    obtain ⟨byBlock, _, stored⟩ := exec_bind_eq_ok.mp stored
    obtain ⟨idx, new, stored⟩ := exec_bind_eq_ok.mp stored
    cases stored
    have size := BlockSet.new_size k_le new
    refine ⟨?_, ?_, ?_⟩
    · simp only [PeelState.held, List.countP_append, List.countP_singleton, ↓reduceIte]
      omega
    · simp
    · simp only [PeelState.setSizes, List.map_append, List.map_singleton, List.sum_append,
        List.sum_singleton]
      omega

/-- The fields that storing a frame changes. -/
theorem store_fields {d d' : LtDecoder} {unsolved : List Nat} {block : List UInt8}
    (stored : d.store unsolved block = .ok d') :
    d' = { d with toPeelState := d'.toPeelState, pendingEdges := d'.pendingEdges } := by
  unfold store at stored
  obtain ⟨row, _, stored⟩ := exec_bind_eq_ok.mp stored
  obtain ⟨bytes, _, stored⟩ := exec_bind_eq_ok.mp stored
  obtain ⟨arena₁, _, stored⟩ := exec_bind_eq_ok.mp stored
  obtain ⟨arena, _, stored⟩ := exec_bind_eq_ok.mp stored
  split at stored
  all_goals
    obtain ⟨_, _, stored⟩ := exec_bind_eq_ok.mp stored
    obtain ⟨_, _, stored⟩ := exec_bind_eq_ok.mp stored
    cases stored
    rfl

section
variable {mode : Mode} {A A' : Finset UInt32} {d d' : LtDecoder} {seq : UInt32}
  {block : List UInt8}

theorem addFrame_taken (wf : d.WF mode A) (call : d.addFrame seq block = .ok d') :
    d.Taken d' := by
  by_cases accepts : d.Accepts mode A seq block
  · obtain ⟨idxScratch, seen, _, _, accepted⟩ := addFrame_accepted wf accepts
    rw [accepted] at call
    split at call
    · cases call
      exact ⟨Nat.le_succ _, Nat.le_succ _, Nat.le_refl _⟩
    · obtain ⟨held, frames, sets⟩ := store_taken (by exact wf.k_le) call
      exact ⟨held, frames, sets⟩
  · obtain ⟨d₁, call', refused⟩ := addFrame_refused wf accepts
    rw [call] at call'
    cases call'
    cases refused <;> exact ⟨Nat.le_succ _, Nat.le_succ _, Nat.le_refl _⟩

/-- Solved blocks and frames have been paid for with slots of the arena, index sets
with edges. -/
structure Paid (d : LtDecoder) : Prop where
  held_le : d.words * d.held ≤ d.arena.length
  frames_le : d.words * d.frames.length ≤ d.arena.length
  sets_le : d.setSizes ≤ 4 * d.pendingEdges

theorem Fresh.paid (fresh : d.Fresh) (wf : d.WF mode A) : d.Paid := by
  have none_solved : d.solvedCount = 0 := by
    rw [wf.shape.count, Finset.card_eq_zero, PeelState.solvedBlocks, Finset.filter_eq_empty_iff]
    intro b _
    rw [PeelState.Known, replicate_offset fresh.solved]
    simp
  constructor
  · simp [PeelState.held, none_solved, fresh.frames]
  · simp [fresh.frames]
  · simp [PeelState.setSizes, fresh.frames]

theorem Paid.held_le_new (paid : d.Paid) (wf : d.WF mode A) : d.held ≤ d.framesNew := by
  rw [wf.framesNew_eq]
  exact Nat.le_of_mul_le_mul_left (paid.held_le.trans wf.arena_le_card) wf.toConf.words_pos

/-- A complete decoder has accepted a frame for every block. -/
theorem Paid.k_le_new (paid : d.Paid) (wf : d.WF mode A) (complete : d.isComplete = true) :
    d.k ≤ d.framesNew := by
  have solved : d.k ≤ d.solvedCount := of_decide_eq_true complete
  exact solved.trans ((Nat.le_add_right _ _).trans (paid.held_le_new wf))

theorem Paid.frames_le_k (paid : d.Paid) (wf : d.WF mode A) : d.frames.length ≤ 4 * d.k := by
  have arena := paid.frames_le.trans wf.arena_le
  rw [wf.maxArenaWords_eq, Nat.mul_comm] at arena
  exact Nat.le_of_mul_le_mul_right arena wf.toConf.words_pos

theorem Paid.sets_le_k (paid : d.Paid) (wf : d.WF mode A) : d.setSizes ≤ 256 * d.k := by
  have sets := paid.sets_le
  have edges := wf.pending_le
  rw [wf.maxPendingEdges_eq] at edges
  omega

theorem addFrame_paid (wf : d.WF mode A) (paid : d.Paid) (call : d.addFrame seq block = .ok d')
    (step : d.Step mode A seq block A' d') : d'.Paid := by
  obtain ⟨held, frames, sets⟩ := addFrame_taken wf call
  have charged := paid.sets_le
  have sets' : d'.setSizes ≤ 4 * d'.pendingEdges := by omega
  cases step with
  | refused _ _ => exact ⟨paid.held_le, paid.frames_le, sets'⟩
  | redundant _ _ => exact ⟨paid.held_le, paid.frames_le, sets'⟩
  | useful _ _ _ arena_length _ =>
    refine ⟨?_, ?_, sets'⟩
    · show d.words * _ ≤ _
      rw [arena_length]
      exact (Nat.mul_le_mul_left _ held).trans (Nat.add_le_add_right paid.held_le _)
    · show d.words * _ ≤ _
      rw [arena_length]
      exact (Nat.mul_le_mul_left _ frames).trans (Nat.add_le_add_right paid.frames_le _)

/-! ## The buffers -/

structure Buffers (d : LtDecoder) : Prop where
  idx_le : d.idx.length ≤ d.k
  scratch_le : d.idxScratch.length ≤ d.k

theorem Fresh.buffers (fresh : d.Fresh) : d.Buffers := by
  constructor
  · simp [fresh.idx]
  · simp [fresh.idxScratch]

theorem frameIndices_length_le (conf : d.Conf mode) (seq : UInt32) :
    (frameIndices mode d.cdf d.sessionId seq).length ≤ d.k := by
  obtain ⟨_, nodup, below⟩ := conf.frameIndices_wf seq
  have sub : frameIndices mode d.cdf d.sessionId seq ⊆ List.range d.k :=
    fun b mem => List.mem_range.mpr (below b mem)
  have le := nodup.length_le_of_subset sub
  rwa [List.length_range] at le

theorem deriveIndices_buffers (conf : d.Conf mode) (buffers : d.Buffers)
    (h : d.deriveIndices seq = .ok d') : d'.Buffers := by
  obtain ⟨idxScratch, derived⟩ := deriveIndices_ok conf seq
  have scratch : d'.idxScratch.length ≤ d.k := by
    unfold deriveIndices at h
    split at h
    · cases h
      exact buffers.scratch_le
    split at h
    · cases h
      exact buffers.scratch_le
    · obtain ⟨_, drawn, h⟩ := exec_bind_eq_ok.mp h
      cases h
      have grown := frameIndicesInto_scratch drawn
      rw [conf.cdf_k, Nat.max_eq_right buffers.scratch_le] at grown
      exact grown
  rw [derived] at h
  cases h
  exact ⟨frameIndices_length_le conf seq, scratch⟩

theorem addFrame_buffers (conf : d.Conf mode) (buffers : d.Buffers)
    (call : d.addFrame seq block = .ok d') : d'.Buffers := by
  have same : ∀ n m, Buffers { d with framesDup := n, framesDropped := m } := fun _ _ =>
    ⟨buffers.idx_le, buffers.scratch_le⟩
  unfold addFrame at call
  split at call
  · cases call
    exact same _ _
  split at call
  · cases call
    exact buffers
  obtain ⟨known, _, call⟩ := exec_bind_eq_ok.mp call
  split at call
  · cases call
    exact same _ _
  obtain ⟨d₁, derived, call⟩ := exec_bind_eq_ok.mp call
  obtain ⟨idx_le, scratch_le⟩ := deriveIndices_buffers conf buffers derived
  obtain ⟨unsolved, _, call⟩ := exec_bind_eq_ok.mp call
  dsimp only at call
  generalize (if unsolved.length > 1 then unsolved.length else 0) = newEdges at call
  split at call
  · cases call
    exact ⟨idx_le, scratch_le⟩
  obtain ⟨⟨inserted, seen⟩, _, call⟩ := exec_bind_eq_ok.mp call
  dsimp only at call
  split at call
  · cases call
  split at call
  · cases call
    exact ⟨idx_le, scratch_le⟩
  · rw [store_fields call]
    exact ⟨idx_le, scratch_le⟩

end

end LtDecoder

end DeOptiTransfer
