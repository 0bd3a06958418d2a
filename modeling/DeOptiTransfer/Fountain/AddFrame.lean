import DeOptiTransfer.Fountain.Decoder

/-!
# One frame

What `add_frame` does to a well-formed decoder, whatever the sequence number
and the bytes. `addFrame_ok` proves that a call returns, that the decoder stays
well formed, and that the call is a `Step` of one of three kinds: the frame is
refused, it is redundant, or it is useful and stored. A useful frame first takes
a new slot of the arena (`Extended`) and is then solved or kept (`Stored`).
-/

namespace DeOptiTransfer

/-! ## A new equation -/

namespace PeelState

section
variable {k words : Nat} {cur : Option Nat} {p : PeelState} {q : Queue} {I : UInt32 → Finset Nat}
  {A : Finset UInt32} {arena : List UInt32}

/-- The arena may grow. -/
theorem Shape.grow {wait : Nat → List Nat} (shape : Shape k words wait cur p q)
    (arena : List UInt32) (le : p.arena.length ≤ arena.length) : Shape k words wait cur { p with arena } q :=
  { shape with
    solved_slot := fun b off h => (shape.solved_slot b off h).mono le
    frame_slot := fun i f h => (shape.frame_slot i f h).mono le
    queue_slot := fun r off h => ⟨(shape.queue_slot r off h).1, (shape.queue_slot r off h).2.mono le⟩ }

theorem Closure.grow (closure : Closure I A p q) (arena : List UInt32) : Closure I A { p with arena } q :=
  ⟨closure.frame_origin, closure.queue_origin, closure.covered, closure.derived⟩

/-- A frame all of whose blocks are solved adds nothing. -/
theorem Closure.used (closure : Closure I A p q) (seq : UInt32) (red : p.Reduced (I seq) ∅) :
    Closure I (insert seq A) p q := by
  refine ⟨?_, ?_, ?_, ?_⟩
  · intro i f act
    obtain ⟨s, hs, red⟩ := closure.frame_origin i f act
    exact ⟨s, Finset.mem_insert_of_mem hs, red⟩
  · intro r off hr
    obtain ⟨s, hs, red⟩ := closure.queue_origin r off hr
    exact ⟨s, Finset.mem_insert_of_mem hs, red⟩
  · intro s hs
    rcases Finset.mem_insert.mp hs with rfl | hs
    · exact Or.inl red
    · exact closure.covered s hs
  · intro b hb
    exact solvable_mono (by simp) (closure.derived b hb)

/-- A frame with one block left queues that block. -/
theorem Closure.push (closure : Closure I A p q) (seq : UInt32) (r off : Nat)
    (red : p.Reduced (I seq) {r}) : Closure I (insert seq A) p ((r, off) :: q) := by
  refine ⟨?_, ?_, ?_, ?_⟩
  · intro i f act
    obtain ⟨s, hs, red⟩ := closure.frame_origin i f act
    exact ⟨s, Finset.mem_insert_of_mem hs, red⟩
  · intro r' o hr
    rcases List.mem_cons.mp hr with eq | hr
    · cases eq
      exact ⟨seq, Finset.mem_insert_self seq A, red⟩
    · obtain ⟨s, hs, red⟩ := closure.queue_origin r' o hr
      exact ⟨s, Finset.mem_insert_of_mem hs, red⟩
  · intro s hs
    rcases Finset.mem_insert.mp hs with rfl | hs
    · exact Or.inr (Or.inr ⟨r, off, List.mem_cons_self, red⟩)
    · rcases closure.covered s hs with used | held | ⟨r', o, hr, red⟩
      · exact Or.inl used
      · exact Or.inr (Or.inl held)
      · exact Or.inr (Or.inr ⟨r', o, List.mem_cons_of_mem _ hr, red⟩)
  · intro b hb
    exact solvable_mono (by simp) (closure.derived b hb)

/-- The state with a new pending frame. -/
def add (p : PeelState) (arena : List UInt32) (byBlock : List (List Nat)) (f : PendingFrame) :
    PeelState :=
  { p with arena, byBlock, frames := p.frames ++ [f] }

variable (arena) (byBlock : List (List Nat)) (f : PendingFrame)

theorem active_add {j : Nat} {g : PendingFrame} :
    (p.add arena byBlock f).Active j g ↔
      p.Active j g ∨ j = p.frames.length ∧ g = f ∧ f.active = true := by
  unfold Active add
  rcases Nat.lt_trichotomy j p.frames.length with lt | rfl | gt
  · have ne : j ≠ p.frames.length := by omega
    simp [List.getElem?_append_left lt, ne]
  · simp only [List.getElem?_concat_length, Option.some.injEq, true_and,
      List.getElem?_eq_none (Nat.le_refl p.frames.length), reduceCtorEq, false_and, false_or]
    constructor
    · rintro ⟨rfl, act⟩
      exact ⟨rfl, act⟩
    · rintro ⟨rfl, act⟩
      exact ⟨rfl, act⟩
  · have ne : j ≠ p.frames.length := by omega
    simp only [List.getElem?_eq_none (show p.frames.length ≤ j by omega),
      List.getElem?_eq_none (show (p.frames ++ [f]).length ≤ j by simp; omega), ne]
    simp

/-- A new frame waits for each of its blocks. -/
theorem Shape.add (shape : Shape k words p.waiting none p [])
    (le : p.arena.length ≤ arena.length) (inside : SlotIn words arena.length f.off)
    (apart_frames : ∀ i g, p.Active i g → g.off ≠ f.off)
    (apart_solved : ∀ b o, p.offset b = some o → f.off ≠ o)
    (wf : f.idx.WF k) (two : 2 ≤ f.idx.members.card)
    (open_ : ∀ c ∈ f.idx.members, ¬ p.Known c) (len : byBlock.length = p.byBlock.length)
    (lists : ∀ c, byBlock.getD c [] =
      if c ∈ f.idx.members then p.waiting c ++ [p.frames.length] else p.waiting c) :
    Shape k words (p.add arena byBlock f).waiting none (p.add arena byBlock f) [] := by
  have wait : ∀ c, (p.add arena byBlock f).waiting c =
      if c ∈ f.idx.members then p.waiting c ++ [p.frames.length] else p.waiting c := lists
  have old : ∀ c, p.frames.length ∉ p.waiting c := by
    intro c mem
    have := shape.wait_lt c _ mem
    omega
  refine ⟨shape.solved_length, len.trans shape.byBlock_length, shape.count, ?_, ?_, by simp, ?_, ?_,
    by simp, ?_, ?_, ?_, ?_, ?_, ?_⟩
  · exact fun b o h => (shape.solved_slot b o h).mono le
  · intro i g act
    rcases (active_add arena byBlock f).mp act with act | ⟨_, rfl, _⟩
    · exact (shape.frame_slot i g act).mono le
    · exact inside
  · intro i j g g' act act' ne
    rcases (active_add arena byBlock f).mp act with old | ⟨eq, new, _⟩ <;>
      rcases (active_add arena byBlock f).mp act' with old' | ⟨eq', new', _⟩
    · exact shape.frames_apart i j g g' old old' ne
    · exact new' ▸ apart_frames i g old
    · exact new ▸ (apart_frames j g' old').symm
    · exact absurd (eq.trans eq'.symm) ne
  · intro i g b o act h
    rcases (active_add arena byBlock f).mp act with act | ⟨_, rfl, _⟩
    · exact shape.solved_apart i g b o act h
    · exact apart_solved b o h
  · intro i g act
    rcases (active_add arena byBlock f).mp act with act | ⟨_, rfl, _⟩
    · exact shape.set_wf i g act
    · exact wf
  · intro i g act
    rcases (active_add arena byBlock f).mp act with act | ⟨_, rfl, _⟩
    · exact shape.two_left i g act
    · exact two
  · intro i g c act
    rw [wait c]
    rcases (active_add arena byBlock f).mp act with act | ⟨rfl, rfl, _⟩
    · rw [shape.watched i g c act]
      have ne : i ≠ p.frames.length := act.lt.ne
      split <;> simp [ne]
    · split
      · rename_i mem
        simp [mem]
      · rename_i out
        simp [out, old c]
  · intro c
    rw [wait c]
    split
    · rw [List.nodup_append]
      refine ⟨shape.wait_nodup c, List.nodup_singleton _, ?_⟩
      intro i hi j hj
      rw [List.mem_singleton] at hj
      rintro rfl
      exact old c (hj ▸ hi)
    · exact shape.wait_nodup c
  · intro c i hi
    rw [wait c] at hi
    have more : (p.add arena byBlock f).frames.length = p.frames.length + 1 := by
      simp [PeelState.add]
    rw [more]
    split at hi
    · rcases List.mem_append.mp hi with hi | hi
      · have := shape.wait_lt c i hi
        omega
      · rw [List.mem_singleton] at hi
        omega
    · have := shape.wait_lt c i hi
      omega
  · intro c hc _
    have hc' : p.Known c := hc
    rw [wait c, if_neg fun mem => open_ c mem hc', shape.wait_known c hc' (by simp)]

theorem Closure.add (closure : Closure I A p []) (seq : UInt32)
    (red : p.Reduced (I seq) f.idx.members) (act : f.active = true) :
    Closure I (insert seq A) (p.add arena byBlock f) [] := by
  refine ⟨?_, by simp, ?_, ?_⟩
  · intro i g act
    rcases (active_add arena byBlock f).mp act with act | ⟨_, rfl, _⟩
    · obtain ⟨s, hs, red⟩ := closure.frame_origin i g act
      exact ⟨s, Finset.mem_insert_of_mem hs, red⟩
    · exact ⟨seq, Finset.mem_insert_self seq A, red⟩
  · intro s hs
    rcases Finset.mem_insert.mp hs with rfl | hs
    · exact Or.inr (Or.inl ⟨_, f, (active_add arena byBlock f).mpr (Or.inr ⟨rfl, rfl, act⟩), red⟩)
    · rcases closure.covered s hs with used | ⟨i, g, old, red⟩ | ⟨r, o, hr, _⟩
      · exact Or.inl used
      · exact Or.inr (Or.inl ⟨i, g, (active_add arena byBlock f).mpr (Or.inl old), red⟩)
      · cases hr
  · intro b hb
    exact solvable_mono (by simp) (closure.derived b hb)

end

end PeelState

namespace LtDecoder

/-! ## The kinds of calls -/

/-- The fields no call changes. -/
def Same (d d' : LtDecoder) : Prop :=
  d' = { d with
    toPeelState := d'.toPeelState, seen := d'.seen, idx := d'.idx, idxScratch := d'.idxScratch
    pendingEdges := d'.pendingEdges, framesNew := d'.framesNew, framesDup := d'.framesDup
    framesDropped := d'.framesDropped }

theorem Same.refl (d : LtDecoder) : d.Same d := rfl

theorem Same.trans {d d' d'' : LtDecoder} (h : d.Same d') (h' : d'.Same d'') : d.Same d'' := by
  unfold Same at *
  rw [h', h]

/-- The row of words a block of `blockLen` bytes is stored as. -/
def padRow (blockLen : Nat) (block : List UInt8) : List UInt32 :=
  wordsOfBytes (block ++ List.replicate (4 * divCeil blockLen 4 - blockLen) 0)

/-- A new, correctly sized frame of an unfinished decoder that fits the budgets. -/
structure Accepts (mode : Mode) (d : LtDecoder) (A : Finset UInt32) (seq : UInt32)
    (block : List UInt8) : Prop where
  length_eq : block.length = d.blockLen
  unfinished : d.isComplete = false
  fresh : seq ∉ A
  room : d.Room mode seq

/-- What a call of `add_frame` does to a decoder that has accepted `A`. -/
inductive Step (mode : Mode) (d : LtDecoder) (A : Finset UInt32) (seq : UInt32)
    (block : List UInt8) : Finset UInt32 → LtDecoder → Prop
  | refused {idx idxScratch : List Nat} {dup dropped : Nat}
      (why : ¬ d.Accepts mode A seq block)
      (drop : dropped = d.framesDropped ∨
        block.length ≠ d.blockLen ∨ (d.isComplete = false ∧ seq ∉ A ∧ ¬ d.Room mode seq)) :
      Step mode d A seq block A
        { d with idx, idxScratch, framesDup := dup, framesDropped := dropped }
  | redundant {idx idxScratch : List Nat} {seen : U32Set} (accepts : d.Accepts mode A seq block)
      (none_left : d.unsolved mode seq = ∅) :
      Step mode d A seq block (insert seq A)
        { d with idx, idxScratch, seen, framesNew := d.framesNew + 1 }
  | useful {idx idxScratch : List Nat} {seen : U32Set} {peel : PeelState} {pending : Nat}
      (accepts : d.Accepts mode A seq block) (some_left : d.unsolved mode seq ≠ ∅)
      (keeps : d.Keeps d.words peel)
      (arena_length : peel.arena.length = d.arena.length + d.words)
      (values : ∀ V, PeelState.Sums V → d.Values d.words V [] →
        padRow d.blockLen block = V (d.indexSet mode seq) → peel.Values d.words V []) :
      Step mode d A seq block (insert seq A)
        { d with
          toPeelState := peel, idx, idxScratch, seen, pendingEdges := pending
          framesNew := d.framesNew + 1 }

/-! ## The parts of a call -/

section
variable {mode : Mode} {A : Finset UInt32} {d : LtDecoder}

theorem Conf.words_pos (conf : d.Conf mode) : 0 < d.words := by
  rw [conf.words_eq]
  exact divCeil_pos conf.blockLen_pos (by decide)

theorem Conf.frameIndices_wf (conf : d.Conf mode) (seq : UInt32) :
    frameIndices mode d.cdf d.sessionId seq ≠ [] ∧
      (frameIndices mode d.cdf d.sessionId seq).Nodup ∧
      ∀ b ∈ frameIndices mode d.cdf d.sessionId seq, b < d.k := by
  have := conf.k_le
  simp only [MAX_SOURCE_BLOCKS] at this
  rw [← conf.cdf_k]
  exact DeOptiTransfer.frameIndices_wf conf.cdf_wf (by rw [conf.cdf_k]; exact conf.k_pos)
    (by rw [conf.cdf_k]; omega) d.sessionId seq

theorem Conf.indexSet_lt (conf : d.Conf mode) {seq : UInt32} {b : Nat}
    (h : b ∈ d.indexSet mode seq) : b < d.k :=
  (conf.frameIndices_wf seq).2.2 b (List.mem_toFinset.mp h)

theorem deriveIndices_ok (conf : d.Conf mode) (seq : UInt32) :
    ∃ idxScratch, d.deriveIndices seq =
      .ok { d with idx := frameIndices mode d.cdf d.sessionId seq, idxScratch } := by
  have k_pos := conf.k_pos
  have k_le := conf.k_le
  simp only [MAX_SOURCE_BLOCKS] at k_le
  unfold deriveIndices frameIndices
  rw [conf.cdf_k, conf.sysSpan_eq, conf.causal_eq]
  by_cases first : seq.toNat < mode.sysSpan d.k
  · have below : seq.toNat < d.k := by
      cases mode <;> simp only [Mode.sysSpan] at first <;> omega
    by_cases causal : mode.isCausal = true
    · refine ⟨d.idxScratch, ?_⟩
      by_cases zero : seq = 0
      · subst zero
        have first' : 0 < mode.sysSpan d.k := first
        simp [first', causal]
      · simp [first, causal, zero]
    · refine ⟨d.idxScratch, ?_⟩
      simp [first, causal, Nat.mod_eq_of_lt below]
  · obtain ⟨idxScratch, draw⟩ := (frameIndicesInto_ok conf.cdf_wf (by rw [conf.cdf_k]; exact k_pos)
      (by rw [conf.cdf_k]; omega) d.sessionId seq).2 d.idx d.idxScratch
    refine ⟨idxScratch, ?_⟩
    simp only [first, false_and, ↓reduceIte, draw, exec_ok_bind]

theorem collectUnsolved_ok {p : PeelState} (l : List Nat) (below : ∀ b ∈ l, b < p.solved.length)
    (acc : List Nat) :
    l.foldlM (collectUnsolved p.solved) acc = .ok (acc ++ l.filter fun b => ¬ p.Known b) := by
  induction l generalizing acc with
  | nil => simp
  | cons b rest ih =>
    have here := PeelState.getAt_solved (below b (by simp))
    have below' : ∀ c ∈ rest, c < p.solved.length := fun c hc => below c (by simp [hc])
    rw [List.foldlM_cons]
    by_cases known : p.Known b
    · have : (p.offset b).isNone = false := by
        rw [Option.isNone_eq_false_iff]
        exact known
      simp only [collectUnsolved, here, exec_ok_bind, this, Bool.false_eq_true, ↓reduceIte,
        ih below', known, not_true, decide_false, not_false_eq_true, List.filter_cons_of_neg]
    · have : (p.offset b).isNone = true := by
        rw [Option.isNone_iff_eq_none]
        by_contra ne
        exact known (Option.isSome_iff_ne_none.mpr ne)
      simp only [collectUnsolved, here, exec_ok_bind, this, ↓reduceIte, ih below', known,
        not_false_eq_true, decide_true, List.filter_cons_of_pos, List.append_assoc,
        List.cons_append, List.nil_append]

/-- The unsolved blocks the loop collects. -/
theorem unsolved_toFinset (mode : Mode) (d : LtDecoder) (seq : UInt32) :
    ((frameIndices mode d.cdf d.sessionId seq).filter fun b => ¬ d.Known b).toFinset =
      d.unsolved mode seq := by
  ext b
  simp [unsolved, indexSet]

theorem unsolved_length (conf : d.Conf mode) (seq : UInt32) :
    ((frameIndices mode d.cdf d.sessionId seq).filter fun b => ¬ d.Known b).length =
      (d.unsolved mode seq).card := by
  rw [← unsolved_toFinset, List.toFinset_card_of_nodup]
  exact (conf.frameIndices_wf seq).2.1.filter _

theorem padRow_length (blockLen : Nat) {block : List UInt8} (len : block.length = blockLen) :
    (padRow blockLen block).length = divCeil blockLen 4 := by
  have := blockLen_le_words blockLen
  exact wordsOfBytes_length (by simp; omega)

/-- The bytes of a frame become a row of words at the end of the arena. -/
theorem storeRow_ok (conf : d.Conf mode) (arena : List UInt32) {block : List UInt8}
    (len : block.length = d.blockLen) :
    ∃ row bytes,
      slice (arena ++ List.replicate d.words 0) arena.length (arena.length + d.words) = .ok row ∧
      writeSlice (wordsAsBytes row) 0 d.blockLen block = .ok bytes ∧
      writeSlice (arena ++ List.replicate d.words 0) arena.length (arena.length + d.words)
        (wordsOfBytes bytes) = .ok (arena ++ padRow d.blockLen block) := by
  have le := blockLen_le_words d.blockLen
  have words := conf.words_eq
  have row_length := padRow_length d.blockLen len
  refine ⟨List.replicate d.words 0,
    block ++ List.replicate (4 * divCeil d.blockLen 4 - d.blockLen) 0, ?_, ?_, ?_⟩
  · rw [slice_of_le (by omega) (by simp), List.drop_left, Nat.add_sub_cancel_left,
      List.take_of_length_le (by simp)]
  · rw [writeSlice_of_le (by omega) (by simp; omega) (by omega), wordsAsBytes_replicate,
      List.drop_replicate, words]
    simp
  · unfold padRow at row_length
    rw [writeSlice_of_le (by omega) (by simp) (by omega)]
    simp [padRow]

/-- A solved block is taken out of the row at `off`. -/
theorem reduce_solved {p : PeelState} {words off o b : Nat} {arena : List UInt32}
    (below : b < p.solved.length) (stored : p.offset b = some o)
    (here : SlotIn words arena.length off) (inside : SlotIn words arena.length o) (ne : o ≠ off) :
    ∃ arena', reduce p.solved words off arena b = .ok arena' ∧ arena'.length = arena.length ∧
      (∀ o', SlotIn words arena.length o' → o' ≠ off →
        slot words arena' o' = slot words arena o') ∧
      ∀ V, PeelState.Sums V → slot words arena o = V {b} → ∀ m : Finset Nat, b ∈ m →
        slot words arena off = V m → slot words arena' off = V (m.erase b) := by
  have sum_length : (List.zipWith (· ^^^ ·) (slot words arena off) (slot words arena o)).length =
      words := by simp [slot_length here, slot_length inside]
  refine ⟨_, ?_, putSlot_length here sum_length, ?_, ?_⟩
  · rw [reduce, PeelState.getAt_solved below, stored, exec_ok_bind]
    exact xorAt_ok here inside ne.symm
  · intro o' inside' ne'
    exact slot_putSlot_ne here inside' ne' sum_length
  · intro V sums solved m mem val
    rw [slot_putSlot_self here sum_length, val, solved, sums m b mem]

/-- Of `m` the blocks that are not known or not listed are left. -/
theorem filter_cons_known {p : PeelState} {b : Nat} {rest : List Nat} (known : p.Known b)
    (m : Finset Nat) :
    ((m.erase b).filter fun c => ¬ (p.Known c ∧ c ∈ rest)) =
      m.filter fun c => ¬ (p.Known c ∧ c ∈ b :: rest) := by
  ext c
  simp only [Finset.mem_filter, Finset.mem_erase, List.mem_cons]
  constructor
  · rintro ⟨⟨ne, mem⟩, out⟩
    exact ⟨mem, fun h => out ⟨h.1, h.2.resolve_left ne⟩⟩
  · rintro ⟨mem, out⟩
    refine ⟨⟨?_, mem⟩, fun h => out ⟨h.1, Or.inr h.2⟩⟩
    rintro rfl
    exact out ⟨known, Or.inl rfl⟩

theorem filter_cons_unknown {p : PeelState} {b : Nat} {rest : List Nat} (unknown : ¬ p.Known b)
    (m : Finset Nat) :
    (m.filter fun c => ¬ (p.Known c ∧ c ∈ rest)) =
      m.filter fun c => ¬ (p.Known c ∧ c ∈ b :: rest) := by
  apply Finset.filter_congr
  intro c _
  by_cases eq : c = b
  · subst eq
    simp [unknown]
  · simp [eq]

/-- Taking the solved blocks out of a new row leaves the other slots alone and
the row the sum of its unsolved blocks. -/
theorem reduceAll_ok {p : PeelState} {words off : Nat} (arena : List UInt32) {l : List Nat}
    (nodup : l.Nodup) (below : ∀ b ∈ l, b < p.solved.length)
    (here : SlotIn words arena.length off)
    (apart : ∀ b o, p.offset b = some o → SlotIn words arena.length o ∧ o ≠ off) :
    ∃ arena', l.foldlM (reduce p.solved words off) arena = .ok arena' ∧
      arena'.length = arena.length ∧
      (∀ o, SlotIn words arena.length o → o ≠ off → slot words arena' o = slot words arena o) ∧
      ∀ V, PeelState.Sums V → (∀ b o, p.offset b = some o → slot words arena o = V {b}) →
        ∀ m : Finset Nat, (∀ b ∈ l, b ∈ m) → slot words arena off = V m →
          slot words arena' off = V (m.filter fun b => ¬ (p.Known b ∧ b ∈ l)) := by
  induction l generalizing arena with
  | nil =>
    refine ⟨arena, rfl, rfl, fun _ _ _ => rfl, ?_⟩
    intro V _ _ m _ val
    simpa using val
  | cons b rest ih =>
    obtain ⟨fresh, nodup'⟩ := List.nodup_cons.mp nodup
    have below' : ∀ c ∈ rest, c < p.solved.length := fun c hc => below c (by simp [hc])
    have in_b := below b (by simp)
    rw [List.foldlM_cons]
    cases stored : p.offset b with
    | none =>
      have skip : reduce p.solved words off arena b = .ok arena := by
        rw [reduce, PeelState.getAt_solved in_b, stored, exec_ok_bind]
      have unknown : ¬ p.Known b := by
        rw [PeelState.Known, stored]
        simp
      obtain ⟨arena', run, len, frame, value⟩ := ih arena nodup' below' here apart
      refine ⟨arena', by rw [skip, exec_ok_bind, run], len, frame, ?_⟩
      intro V sums solved m sub val
      rw [value V sums solved m (fun c hc => sub c (by simp [hc])) val, filter_cons_unknown unknown]
    | some o =>
      obtain ⟨inside, ne⟩ := apart b o stored
      have known : p.Known b := PeelState.known_iff.mpr ⟨o, stored⟩
      obtain ⟨arena₁, one, len₁, frame₁, value₁⟩ := reduce_solved in_b stored here inside ne
      obtain ⟨arena', run, len, frame, value⟩ :=
        ih arena₁ nodup' below' (by rw [len₁]; exact here) (by rw [len₁]; exact apart)
      rw [len₁] at len frame
      refine ⟨arena', by rw [one, exec_ok_bind, run], len, ?_, ?_⟩
      · intro o' inside' ne'
        rw [frame o' inside' ne', frame₁ o' inside' ne']
      · intro V sums solved m sub val
        have at_off := value₁ V sums (solved b o stored) m (sub b (by simp)) val
        have solved₁ : ∀ c o', p.offset c = some o' → slot words arena₁ o' = V {c} := by
          intro c o' stored'
          obtain ⟨inside', ne'⟩ := apart c o' stored'
          rw [frame₁ o' inside' ne', solved c o' stored']
        have sub' : ∀ c ∈ rest, c ∈ m.erase b := by
          intro c hc
          apply Finset.mem_erase.mpr ⟨_, sub c (by simp [hc])⟩
          rintro rfl
          exact fresh hc
        rw [value V sums solved₁ (m.erase b) sub' at_off, filter_cons_known known]

/-- A new frame is added to the waiting lists of its blocks. -/
theorem subscribeAll_ok (i : Nat) (l : List Nat) (nodup : l.Nodup) (lists : List (List Nat))
    (below : ∀ b ∈ l, b < lists.length) :
    ∃ lists', l.foldlM (subscribe i) lists = .ok lists' ∧ lists'.length = lists.length ∧
      (∀ c, lists'.getD c [] = if c ∈ l then lists.getD c [] ++ [i] else lists.getD c []) ∧
      (lists'.map List.length).sum = (lists.map List.length).sum + l.length := by
  induction l generalizing lists with
  | nil => exact ⟨lists, rfl, rfl, by simp, rfl⟩
  | cons b rest ih =>
    obtain ⟨fresh, nodup'⟩ := List.nodup_cons.mp nodup
    have inside := below b (by simp)
    obtain ⟨lists', run, len, entry, sum⟩ := ih nodup' (lists.set b (lists[b] ++ [i]))
      (fun c hc => by simpa using below c (by simp [hc]))
    refine ⟨lists', ?_, by simpa using len, ?_, ?_⟩
    · rw [List.foldlM_cons, subscribe, getAt_of_lt inside, exec_ok_bind, setAt_of_lt inside,
        exec_ok_bind, run]
    · intro c
      rw [entry c]
      by_cases eq : c = b
      · subst eq
        simp [fresh, List.getD_eq_getElem?_getD, inside]
      · simp [eq, List.getD_eq_getElem?_getD, List.getElem?_set_ne (Ne.symm eq)]
    · rw [sum, List.length_cons]
      have := sum_map_set List.length lists inside (lists[b] ++ [i])
      simp only [List.length_append, List.length_cons, List.length_nil] at this
      omega

/-- A slot that is there is not the next one. -/
theorem Conf.slot_ne_end (conf : d.Conf mode) {o : Nat} (inside : SlotIn d.words d.arena.length o) :
    o ≠ d.arena.length := by
  have := conf.words_pos
  have := inside.2
  omega

/-- The arena with a slot for a new frame, from which the solved blocks are taken
out. -/
structure Extended (mode : Mode) (d : LtDecoder) (seq : UInt32) (block : List UInt8)
    (arena : List UInt32) : Prop where
  length : arena.length = d.arena.length + d.words
  old : ∀ o, SlotIn d.words d.arena.length o → slot d.words arena o = slot d.words d.arena o
  new : ∀ V, PeelState.Sums V → d.Values d.words V [] →
    padRow d.blockLen block = V (d.indexSet mode seq) →
      slot d.words arena d.arena.length = V (d.unsolved mode seq)

/-- The row of a new frame, once its solved blocks are taken out. -/
theorem WF.row_ok (wf : d.WF mode A) (seq : UInt32) {block : List UInt8}
    (len : block.length = d.blockLen) :
    ∃ arena, (frameIndices mode d.cdf d.sessionId seq).foldlM
        (reduce d.solved d.words d.arena.length) (d.arena ++ padRow d.blockLen block) = .ok arena ∧
      d.Extended mode seq block arena := by
  have row_length : (padRow d.blockLen block).length = d.words := by
    rw [padRow_length d.blockLen len, wf.words_eq]
  have more : (d.arena ++ padRow d.blockLen block).length = d.arena.length + d.words := by
    simp [row_length]
  obtain ⟨arena, run, length, frame, value⟩ := reduceAll_ok
    (d.arena ++ padRow d.blockLen block) (wf.toConf.frameIndices_wf seq).2.1
    (fun b hb => by
      rw [wf.shape.solved_length]
      exact (wf.toConf.frameIndices_wf seq).2.2 b hb)
    (show SlotIn _ _ d.arena.length from ⟨wf.arena_dvd, by omega⟩)
    (fun b o h =>
      have inside := wf.shape.solved_slot b o h
      ⟨inside.mono (by omega), wf.slot_ne_end inside⟩)
  refine ⟨arena, run, length.trans more, ?_, ?_⟩
  · intro o inside
    rw [frame o (inside.mono (by omega)) (wf.slot_ne_end inside), slot_append _ inside]
  · intro V sums values genuine
    rw [value V sums ?_ (d.indexSet mode seq) (fun b hb => List.mem_toFinset.mpr hb) ?_]
    · congr 1
      apply Finset.filter_congr
      intro b hb
      simp [List.mem_toFinset.mp hb]
    · intro b o h
      rw [slot_append _ (wf.shape.solved_slot b o h), values.solved b o h]
    · rw [slot, List.drop_left, ← row_length, List.take_length, genuine]

/-- Of a new frame the unsolved blocks are left. -/
theorem unsolved_reduced (mode : Mode) (d : LtDecoder) (seq : UInt32) :
    d.Reduced (d.indexSet mode seq) (d.unsolved mode seq) := by
  refine ⟨Finset.filter_subset _ _, fun c hc out => ?_⟩
  by_contra unknown
  exact out (Finset.mem_filter.mpr ⟨hc, unknown⟩)

theorem sum_insert_le (wf : d.WF mode A) {seq : UInt32} (fresh : seq ∉ A) :
    d.pendingEdges + d.newEdges mode seq ≤ ∑ s ∈ insert seq A, (d.indexSet mode s).card := by
  rw [Finset.sum_insert fresh]
  have := wf.pending_le_sum
  have le : d.newEdges mode seq ≤ (d.indexSet mode seq).card := by
    have := Finset.card_filter_le (d.indexSet mode seq) fun b => ¬ d.Known b
    unfold newEdges
    split
    · exact this
    · exact Nat.zero_le _
  omega

section
variable {seq : UInt32} {block : List UInt8} {arena : List UInt32}

theorem Extended.inside (ext : d.Extended mode seq block arena) (wf : d.WF mode A) :
    SlotIn d.words arena.length d.arena.length :=
  ⟨wf.arena_dvd, ext.length.ge⟩

theorem Extended.shape (ext : d.Extended mode seq block arena) (wf : d.WF mode A) :
    PeelState.Shape d.k d.words d.waiting none { d.toPeelState with arena } [] := by
  apply wf.shape.grow
  rw [ext.length]
  exact Nat.le_add_right _ _

theorem Extended.keeps (ext : d.Extended mode seq block arena) (wf : d.WF mode A) :
    d.Keeps d.words { d.toPeelState with arena } := by
  intro b o stored
  exact ⟨stored, ext.old o (wf.shape.solved_slot b o stored)⟩

theorem Extended.values (ext : d.Extended mode seq block arena) (wf : d.WF mode A)
    {V : Finset Nat → List UInt32} (values : d.Values d.words V []) :
    PeelState.Values d.words V { d.toPeelState with arena } [] := by
  refine ⟨?_, ?_, by simp⟩
  · intro b o stored
    exact (ext.old o (wf.shape.solved_slot b o stored)).trans (values.solved b o stored)
  · intro i f act
    exact (ext.old f.off (wf.shape.frame_slot i f act)).trans (values.frame i f act)

/-- The frame is part of the peeling state `peel`, with `pending` edges charged. -/
structure Stored (mode : Mode) (d : LtDecoder) (A : Finset UInt32) (seq : UInt32)
    (block : List UInt8) (pending : Nat) (peel : PeelState) : Prop where
  shape : peel.Shape d.k d.words peel.waiting none []
  closure : peel.Closure (d.indexSet mode) (insert seq A) []
  length : peel.arena.length = d.arena.length + d.words
  edges_le : peel.edges ≤ pending
  pending_le : pending ≤ d.pendingEdges + d.newEdges mode seq
  keeps : d.Keeps d.words peel
  values : ∀ V, PeelState.Sums V → d.Values d.words V [] →
    padRow d.blockLen block = V (d.indexSet mode seq) → peel.Values d.words V []

/-- A decoder that has stored an accepted frame is well formed. -/
theorem Stored.wf {pending : Nat} {peel : PeelState} (wf : d.WF mode A)
    (accepts : d.Accepts mode A seq block) (stored : d.Stored mode A seq block pending peel)
    {seen : U32Set} (holds : seen.Holds (insert seq A)) (idx idxScratch : List Nat) :
    WF mode (insert seq A) { d with
      toPeelState := peel, idx, idxScratch, seen, pendingEdges := pending
      framesNew := d.framesNew + 1 } := by
  have length := stored.length
  have card := Finset.card_insert_of_notMem accepts.fresh
  have arena_le_card : peel.arena.length ≤ d.words * (insert seq A).card := by
    rw [length, card, Nat.mul_add, Nat.mul_one]
    exact Nat.add_le_add_right wf.arena_le_card _
  exact { wf with
    shape := stored.shape
    closure := stored.closure
    seen_holds := holds
    framesNew_eq := by rw [card, wf.framesNew_eq]
    arena_dvd := by
      rw [length]
      exact Nat.dvd_add wf.arena_dvd (Nat.dvd_refl _)
    arena_le := by
      rw [length]
      exact accepts.room.1
    arena_le_card
    edges_le := stored.edges_le
    pending_le := stored.pending_le.trans accepts.room.2
    pending_le_sum := stored.pending_le.trans (sum_insert_le wf accepts.fresh) }

/-- With one block left, the new slot holds this block and it is solved. -/
theorem WF.solve_new (wf : d.WF mode A) (ext : d.Extended mode seq block arena) {b : Nat}
    (single : d.unsolved mode seq = {b}) :
    ∃ peel, resolve d.words { d.toPeelState with arena } b d.arena.length = .ok peel ∧
      d.Stored mode A seq block d.pendingEdges peel := by
  have mem : b ∈ d.unsolved mode seq := by
    rw [single]
    exact Finset.mem_singleton_self b
  have lt : b < d.k := wf.indexSet_lt (Finset.mem_of_mem_filter b mem)
  have shape := (ext.shape wf).push lt (ext.inside wf)
    fun i f act => wf.slot_ne_end (wf.shape.frame_slot i f act)
  have closure := (wf.closure.grow arena).push seq b d.arena.length
    (single ▸ unsolved_reduced mode d seq)
  obtain ⟨peel, run, shape', closure', progress⟩ := PeelState.resolve_ok shape closure
  refine ⟨peel, run, shape', closure', progress.arena_length.trans ext.length,
    progress.edges_le.trans wf.edges_le, Nat.le_add_right _ _,
    (ext.keeps wf).trans progress.keeps, ?_⟩
  intro V sums values genuine
  have before := ext.values wf values
  apply progress.values V sums
  refine ⟨before.solved, before.frame, ?_⟩
  intro r o queued
  cases List.mem_singleton.mp queued
  rw [← single]
  exact ext.new V sums values genuine

/-- With several blocks left, the frame waits for all of them. -/
theorem WF.keep_new (wf : d.WF mode A) (ext : d.Extended mode seq block arena)
    (two : 2 ≤ (d.unsolved mode seq).card) :
    ∃ lists idx,
      ((frameIndices mode d.cdf d.sessionId seq).filter fun b => ¬ d.Known b).foldlM
        (subscribe d.frames.length) d.byBlock = .ok lists ∧
      BlockSet.new d.k ((frameIndices mode d.cdf d.sessionId seq).filter fun b => ¬ d.Known b) =
        .ok idx ∧
      d.Stored mode A seq block (d.pendingEdges + (d.unsolved mode seq).card)
        (d.toPeelState.add arena lists { idx, off := d.arena.length, active := true }) := by
  obtain ⟨_, distinct, below⟩ := wf.frameIndices_wf seq
  have nodup := distinct.filter fun b => ¬ d.Known b
  have below' : ∀ b ∈ (frameIndices mode d.cdf d.sessionId seq).filter fun b => ¬ d.Known b,
      b < d.k := fun b hb => below b (List.mem_of_mem_filter hb)
  obtain ⟨lists, subscribed, lists_length, entry, sum⟩ :=
    subscribeAll_ok d.frames.length _ nodup d.byBlock (by rw [wf.shape.byBlock_length]; exact below')
  obtain ⟨idx, new, idx_wf, members⟩ := BlockSet.new_ok nodup below'
  rw [unsolved_toFinset] at members
  refine ⟨lists, idx, subscribed, new, ?_, ?_, ext.length, ?_, ?_, ext.keeps wf, ?_⟩
  · apply wf.shape.add arena lists
    · rw [ext.length]
      exact Nat.le_add_right _ _
    · exact ext.inside wf
    · exact fun i f act => wf.slot_ne_end (wf.shape.frame_slot i f act)
    · exact fun b o stored => (wf.slot_ne_end (wf.shape.solved_slot b o stored)).symm
    · exact idx_wf
    · rw [members]
      exact two
    · intro c mem
      rw [members] at mem
      exact (Finset.mem_filter.mp mem).2
    · exact lists_length
    · intro c
      simp only [entry c, ← List.mem_toFinset, unsolved_toFinset, members]
      rfl
  · apply wf.closure.add arena lists _ seq _ rfl
    rw [members]
    exact unsolved_reduced mode d seq
  · show (lists.map List.length).sum ≤ _
    rw [sum, unsolved_length wf.toConf seq]
    exact Nat.add_le_add_right wf.edges_le _
  · have charge : d.newEdges mode seq = (d.unsolved mode seq).card := if_pos two
    rw [charge]
  · intro V sums values genuine
    have before := ext.values wf values
    refine ⟨before.solved, ?_, by simp⟩
    intro i f act
    rcases (PeelState.active_add arena lists _).mp act with act | ⟨_, rfl, _⟩
    · exact before.frame i f act
    · show slot d.words arena d.arena.length = V idx.members
      rw [members]
      exact ext.new V sums values genuine

end

/-- The bytes of a stored frame take a new slot, and it is peeled at once or kept
pending. -/
theorem WF.store_ok (wf : d.WF mode A) {seq : UInt32} {block : List UInt8}
    (accepts : d.Accepts mode A seq block) (some_left : d.unsolved mode seq ≠ ∅)
    {seen : U32Set} (holds : seen.Holds (insert seq A)) (idxScratch : List Nat) :
    ∃ d', store { d with
          idx := frameIndices mode d.cdf d.sessionId seq, idxScratch, seen
          framesNew := d.framesNew + 1 }
        ((frameIndices mode d.cdf d.sessionId seq).filter fun b => ¬ d.Known b) block = .ok d' ∧
      d'.WF mode (insert seq A) ∧ d.Step mode A seq block (insert seq A) d' := by
  have length := unsolved_length wf.toConf seq
  have card_pos := Finset.card_pos.mpr (Finset.nonempty_iff_ne_empty.mpr some_left)
  obtain ⟨row, bytes, get, fill, put⟩ := storeRow_ok wf.toConf d.arena accepts.length_eq
  obtain ⟨arena, reduced, ext⟩ := wf.row_ok seq accepts.length_eq
  simp only [store, get, exec_ok_bind, fill, put, reduced]
  by_cases one : (d.unsolved mode seq).card = 1
  · obtain ⟨b, single⟩ := Finset.card_eq_one.mp one
    have list : ((frameIndices mode d.cdf d.sessionId seq).filter fun b => ¬ d.Known b) = [b] := by
      obtain ⟨c, hc⟩ := List.length_eq_one_iff.mp (length.trans one)
      have same := unsolved_toFinset mode d seq
      rw [hc, single] at same
      rw [hc]
      simpa using same
    obtain ⟨peel, run, stored⟩ := wf.solve_new ext single
    refine ⟨_, ?_, stored.wf wf accepts holds (frameIndices mode d.cdf d.sessionId seq) idxScratch,
      .useful accepts some_left stored.keeps stored.length stored.values⟩
    have head : getAt [b] 0 = .ok b := rfl
    simp only [list, List.length_cons, List.length_nil, Nat.zero_add, ↓reduceIte, head,
      exec_ok_bind, run]
  · obtain ⟨lists, idx, subscribed, new, stored⟩ := wf.keep_new ext (by omega)
    refine ⟨_, ?_, stored.wf wf accepts holds (frameIndices mode d.cdf d.sessionId seq) idxScratch,
      .useful accepts some_left stored.keeps stored.length stored.values⟩
    simp only [length, one, ↓reduceIte, subscribed, exec_ok_bind, new]
    rfl

/-- The budget test of the source, whose sums saturate. -/
theorem budget_iff (conf : d.Conf mode) (seq : UInt32) :
    (saturatingAdd d.arena.length d.words > d.maxArenaWords ∨
      saturatingAdd d.pendingEdges (d.newEdges mode seq) > d.maxPendingEdges) ↔
      ¬ d.Room mode seq := by
  have k_le := conf.k_le
  have words_le : d.words ≤ 65535 := by
    have := conf.blockLen_le
    rw [conf.words_eq]
    unfold divCeil
    split <;> omega
  simp only [MAX_SOURCE_BLOCKS] at k_le
  have := Nat.mul_le_mul k_le words_le
  have arena : d.maxArenaWords < usizeMax := by
    rw [conf.maxArenaWords_eq, usizeMax, Nat.mul_assoc]
    omega
  have edges : d.maxPendingEdges < usizeMax := by
    rw [conf.maxPendingEdges_eq, usizeMax]
    omega
  rw [gt_iff_lt, lt_saturatingAdd arena, gt_iff_lt, lt_saturatingAdd edges, Room]
  omega

/-- What a call does when the frame is not accepted. -/
inductive Refused (mode : Mode) (d : LtDecoder) (A : Finset UInt32) (seq : UInt32)
    (block : List UInt8) : LtDecoder → Prop
  | length (ne : block.length ≠ d.blockLen) :
      Refused mode d A seq block { d with framesDropped := d.framesDropped + 1 }
  | complete (done : d.isComplete = true) : Refused mode d A seq block d
  | duplicate (known : seq ∈ A) :
      Refused mode d A seq block { d with framesDup := d.framesDup + 1 }
  | budget (idx idxScratch : List Nat) (unfinished : d.isComplete = false) (fresh : seq ∉ A)
      (full : ¬ d.Room mode seq) :
      Refused mode d A seq block
        { d with idx, idxScratch, framesDropped := d.framesDropped + 1 }

/-- The unsolved blocks of a frame, in the order of its indices. -/
def unsolvedList (mode : Mode) (d : LtDecoder) (seq : UInt32) : List Nat :=
  (frameIndices mode d.cdf d.sessionId seq).filter fun b => ¬ d.Known b

/-- What a call has computed when it comes to the budgets. -/
theorem derived_ok (conf : d.Conf mode) (shape : d.solved.length = d.k) (seq : UInt32) :
    ∃ idxScratch,
      d.deriveIndices seq = .ok { d with idx := frameIndices mode d.cdf d.sessionId seq, idxScratch } ∧
      (frameIndices mode d.cdf d.sessionId seq).foldlM (collectUnsolved d.solved) [] =
        .ok (d.unsolvedList mode seq) ∧
      (if (d.unsolvedList mode seq).length > 1 then (d.unsolvedList mode seq).length else 0) =
        d.newEdges mode seq := by
  obtain ⟨idxScratch, derive⟩ := deriveIndices_ok conf seq
  have below : ∀ b ∈ frameIndices mode d.cdf d.sessionId seq, b < d.solved.length := by
    rw [shape]
    exact (conf.frameIndices_wf seq).2.2
  have collect := collectUnsolved_ok (p := d.toPeelState) _ below []
  refine ⟨idxScratch, derive, collect, ?_⟩
  rw [unsolvedList, unsolved_length conf seq, newEdges]

/-- A frame that is not accepted is counted at most once, and nothing else that
a later call reads has changed. -/
theorem addFrame_refused (wf : d.WF mode A) {seq : UInt32} {block : List UInt8}
    (refused : ¬ d.Accepts mode A seq block) :
    ∃ d', d.addFrame seq block = .ok d' ∧ d.Refused mode A seq block d' := by
  by_cases len : block.length = d.blockLen
  case neg => exact ⟨_, if_pos len, .length len⟩
  by_cases complete : d.isComplete = true
  · exact ⟨d, by rw [addFrame, if_neg (not_not_intro len), if_pos complete], .complete complete⟩
  have contains := U32Set.contains_ok wf.seen_holds seq
  by_cases known : seq ∈ A
  · refine ⟨_, ?_, .duplicate known⟩
    rw [addFrame, if_neg (not_not_intro len), if_neg complete, contains, exec_ok_bind,
      decide_eq_true known, if_pos rfl]
  have unfinished : d.isComplete = false := by simpa using complete
  have full : ¬ d.Room mode seq := fun room => refused ⟨len, unfinished, known, room⟩
  obtain ⟨idxScratch, derive, collect, charge⟩ := derived_ok wf.toConf wf.shape.solved_length seq
  refine ⟨_, ?_, .budget (frameIndices mode d.cdf d.sessionId seq) idxScratch unfinished known full⟩
  simp only [addFrame, ne_eq, len, not_true, ↓reduceIte, complete, contains, exec_ok_bind,
    known, decide_false, Bool.false_eq_true, derive, collect, charge]
  rw [if_pos ((budget_iff wf.toConf seq).mpr full)]

/-- An accepted frame is recorded, and stored when it has unsolved blocks. -/
theorem addFrame_accepted (wf : d.WF mode A) {seq : UInt32} {block : List UInt8}
    (accepts : d.Accepts mode A seq block) :
    ∃ idxScratch seen, d.seen.insert seq = .ok (true, seen) ∧ seen.Holds (insert seq A) ∧
      d.addFrame seq block =
        if (d.unsolvedList mode seq).isEmpty then
          .ok { d with
            idx := frameIndices mode d.cdf d.sessionId seq, idxScratch, seen
            framesNew := d.framesNew + 1 }
        else
          store { d with
            idx := frameIndices mode d.cdf d.sessionId seq, idxScratch, seen
            framesNew := d.framesNew + 1 } (d.unsolvedList mode seq) block := by
  obtain ⟨len, unfinished, known, room⟩ := accepts
  have contains := U32Set.contains_ok wf.seen_holds seq
  obtain ⟨idxScratch, derive, collect, charge⟩ := derived_ok wf.toConf wf.shape.solved_length seq
  obtain ⟨seen, insert, holds⟩ := U32Set.insert_ok wf.seen_holds seq
  have inserted : d.seen.insert seq = .ok (true, seen) := by simpa [known] using insert
  refine ⟨idxScratch, seen, inserted, holds, ?_⟩
  simp only [addFrame, ne_eq, len, not_true, ↓reduceIte, unfinished, contains, exec_ok_bind,
    known, decide_false, Bool.false_eq_true, derive, collect, charge]
  rw [if_neg (fun out => (budget_iff wf.toConf seq).mp out room)]
  simp only [inserted, exec_ok_bind, not_true, ↓reduceIte]

theorem Refused.step {seq : UInt32} {block : List UInt8} {d' : LtDecoder}
    (refused : d.Refused mode A seq block d') (why : ¬ d.Accepts mode A seq block) :
    d.Step mode A seq block A d' := by
  cases refused with
  | length ne => exact .refused why (Or.inr (Or.inl ne))
  | complete done => exact .refused why (Or.inl rfl)
  | duplicate known => exact .refused why (Or.inl rfl)
  | budget _ _ unfinished fresh full => exact .refused why (Or.inr (Or.inr ⟨unfinished, fresh, full⟩))

theorem Refused.wf {seq : UInt32} {block : List UInt8} {d' : LtDecoder}
    (refused : d.Refused mode A seq block d') (wf : d.WF mode A) : d'.WF mode A := by
  cases refused with
  | length ne => exact { wf with }
  | complete done => exact wf
  | duplicate known => exact { wf with }
  | budget _ _ unfinished fresh full => exact { wf with }

/-- A call of `add_frame` returns for every sequence number and every byte
string, and keeps the decoder well formed. -/
theorem addFrame_ok (wf : d.WF mode A) (seq : UInt32) (block : List UInt8) :
    ∃ d' A', d.addFrame seq block = .ok d' ∧ d'.WF mode A' ∧ d.Step mode A seq block A' d' := by
  by_cases accepts : d.Accepts mode A seq block
  case neg =>
    obtain ⟨d', call, refused⟩ := addFrame_refused wf accepts
    exact ⟨d', A, call, refused.wf wf, refused.step accepts⟩
  obtain ⟨idxScratch, seen, _, holds, call⟩ := addFrame_accepted wf accepts
  have count := unsolved_length wf.toConf seq
  by_cases none_left : d.unsolved mode seq = ∅
  · have empty : (d.unsolvedList mode seq).isEmpty = true := by
      rw [List.isEmpty_iff_length_eq_zero, unsolvedList, count, none_left, Finset.card_empty]
    rw [if_pos empty] at call
    refine ⟨_, _, call, ?_, .redundant accepts none_left⟩
    have used := wf.closure.used seq (none_left ▸ unsolved_reduced mode d seq)
    have card := Finset.card_insert_of_notMem accepts.fresh
    exact { wf with
      closure := used
      seen_holds := holds
      framesNew_eq := by rw [card, ← wf.framesNew_eq]
      arena_le_card := wf.arena_le_card.trans (Nat.mul_le_mul_left _ (by omega))
      pending_le_sum := (Nat.le_add_right _ _).trans (sum_insert_le wf accepts.fresh) }
  · have left : ¬ (d.unsolvedList mode seq).isEmpty = true := by
      rw [List.isEmpty_iff_length_eq_zero, unsolvedList, count, Finset.card_eq_zero]
      exact none_left
    obtain ⟨d', stored, wf', step⟩ := wf.store_ok accepts none_left holds idxScratch
    rw [if_neg left] at call
    exact ⟨d', _, call.trans stored, wf', step⟩

end

end LtDecoder

end DeOptiTransfer
