import DeOptiTransfer.Base.Superposition
import DeOptiTransfer.Fountain.Soundness

/-!
# Errors add up

The decoder reads of the blocks it is given only their lengths. So two runs on
the same sequence numbers are in step, and a run on the sums of their blocks
holds the sums of what they hold.

* `addFrame_inStep`: one call, in any state;
* `decoder_linear`: whole runs, with what is read out at the end;
* `errors_add`: altered bytes come out as they would without the payload.
-/

namespace DeOptiTransfer

/-! ## Rows of words -/

theorem leValue_xor (as bs : List UInt8) (same : bs.length = as.length) :
    leValue (List.zipWith (· ^^^ ·) as bs) = leValue as ^^^ leValue bs := by
  have lt_a := leValue_lt as
  have lt_b := leValue_lt bs
  have width : ∀ n, 256 ^ n = 2 ^ (8 * n) := fun n => (Nat.pow_mul 2 8 n).symm
  rw [same] at lt_b
  have sum_lt : leValue as ^^^ leValue bs < 256 ^ as.length := by
    rw [width] at *
    exact Nat.xor_lt_two_pow lt_a lt_b
  have bytes : leBytes as.length (leValue as ^^^ leValue bs) = List.zipWith (· ^^^ ·) as bs := by
    rw [leBytes_xor, leBytes_leValue, ← same, leBytes_leValue]
  rw [← bytes, leValue_leBytes, Nat.mod_eq_of_lt sum_lt]

theorem wordsOfBytes_short {bs : List UInt8} (short : bs.length < 4) : wordsOfBytes bs = [] := by
  rcases bs with _ | ⟨b0, _ | ⟨b1, _ | ⟨b2, _ | ⟨b3, bs⟩⟩⟩⟩
  iterate 4 rfl
  simp only [List.length_cons] at short
  omega

theorem length_of_not_word {bs : List UInt8}
    (short : ∀ b0 b1 b2 b3 rest, bs = b0 :: b1 :: b2 :: b3 :: rest → False) : bs.length < 4 := by
  rcases bs with _ | ⟨b0, _ | ⟨b1, _ | ⟨b2, _ | ⟨b3, bs⟩⟩⟩⟩
  iterate 4 simp only [List.length_cons, List.length_nil]; omega
  exact (short b0 b1 b2 b3 bs rfl).elim

theorem wordsOfBytes_xor {as bs : List UInt8} (same : bs.length = as.length) :
    wordsOfBytes (List.zipWith (· ^^^ ·) as bs) =
      List.zipWith (· ^^^ ·) (wordsOfBytes as) (wordsOfBytes bs) := by
  induction as using wordsOfBytes.induct generalizing bs with
  | case1 a0 a1 a2 a3 as ih =>
    rcases bs with _ | ⟨b0, _ | ⟨b1, _ | ⟨b2, _ | ⟨b3, bs⟩⟩⟩⟩
    iterate 4 simp only [List.length_cons, List.length_nil] at same; omega
    have value := leValue_xor [a0, a1, a2, a3] [b0, b1, b2, b3] rfl
    simp only [List.zipWith_cons_cons, List.zipWith_nil_left] at value ⊢
    rw [wordsOfBytes, wordsOfBytes, wordsOfBytes, value, List.zipWith_cons_cons,
      ih (by simpa using same), UInt32.ofNat_xor]
  | case2 as short =>
    have few := length_of_not_word short
    have few_sum : (List.zipWith (· ^^^ ·) as bs).length < 4 := by
      rwa [List.length_zipWith, same, Nat.min_self]
    rw [wordsOfBytes_short few, wordsOfBytes_short few_sum, List.zipWith_nil_left]

theorem wordsOfBytes_length_div (bs : List UInt8) : (wordsOfBytes bs).length = bs.length / 4 := by
  induction bs using wordsOfBytes.induct with
  | case1 b0 b1 b2 b3 bs ih =>
    rw [wordsOfBytes, List.length_cons, ih]
    simp only [List.length_cons]
    omega
  | case2 bs short =>
    have few := length_of_not_word short
    rw [wordsOfBytes_short few, Nat.div_eq_of_lt few, List.length_nil]

namespace Xored

section
variable {xs ys zs : List UInt8}

theorem wordsOfBytes (h : Xored xs ys zs) :
    Xored (wordsOfBytes xs) (wordsOfBytes ys) (wordsOfBytes zs) := by
  constructor
  · rw [wordsOfBytes_length_div, wordsOfBytes_length_div, h.length_eq]
  · rw [h.sum_eq, wordsOfBytes_xor h.length_eq]

end

section
variable {xs ys zs xs' ys' zs' : List UInt32}

theorem wordsAsBytes (h : Xored xs ys zs) :
    Xored (wordsAsBytes xs) (wordsAsBytes ys) (wordsAsBytes zs) := by
  constructor
  · rw [wordsAsBytes_length, wordsAsBytes_length, h.length_eq]
  · rw [h.sum_eq, wordsAsBytes_xor xs ys h.length_eq.symm]

theorem xorInto (h : Xored xs ys zs) (h' : Xored xs' ys' zs') :
    InStep Xored (xorInto xs xs') (xorInto ys ys') (xorInto zs zs') := by
  unfold DeOptiTransfer.xorInto
  rw [h.length_eq, h.length_sum, h'.length_eq, h'.length_sum]
  split
  · exact .returns (h.xor h')
  · exact .stops _

theorem xorAt (h : Xored xs ys zs) (a b words : Nat) :
    InStep Xored (xorAt xs a b words) (xorAt ys a b words) (xorAt zs a b words) := by
  unfold DeOptiTransfer.xorAt
  split
  · exact .stops _
  · split
    · refine (h.splitAtMut b).bind fun p p' p'' halves => ?_
      refine (halves.1.slice a (a + words)).bind fun _ _ _ dst => ?_
      refine (halves.2.slice 0 words).bind fun _ _ _ src => ?_
      refine (dst.xorInto src).bind fun _ _ _ row => ?_
      refine (halves.1.writeSlice row a (a + words)).bind fun _ _ _ left => ?_
      exact .returns (left.append halves.2)
    · refine (h.splitAtMut a).bind fun p p' p'' halves => ?_
      refine (halves.2.slice 0 words).bind fun _ _ _ dst => ?_
      refine (halves.1.slice b (b + words)).bind fun _ _ _ src => ?_
      refine (dst.xorInto src).bind fun _ _ _ row => ?_
      refine (halves.2.writeSlice row 0 words).bind fun _ _ _ right => ?_
      exact .returns (halves.1.append right)

theorem xorSlots (h : Xored xs ys zs) (words a b : Nat) :
    InStep Xored (xorSlots words xs a b) (xorSlots words ys a b) (xorSlots words zs a b) := by
  unfold DeOptiTransfer.xorSlots
  rw [h.length_eq, h.length_sum]
  exact .share fun _ _ => h.xorAt a b words

end

end Xored

/-! ## Peeling -/

/-- Three peeling states that differ in their arenas only, the third of which is
the sum of the others. -/
def PeelState.Parallel (p p' p'' : PeelState) : Prop :=
  ∃ a' a'', p' = { p with arena := a' } ∧ p'' = { p with arena := a'' } ∧ Xored p.arena a' a''

/-- Three peeling states in parallel, with one queue. -/
def QueuedParallel (s s' s'' : PeelState × Queue) : Prop :=
  ∃ p' p'', s' = (p', s.2) ∧ s'' = (p'', s.2) ∧ s.1.Parallel p' p''

theorem wake_inStep (words b i : Nat) {s s' s'' : PeelState × Queue} (par : QueuedParallel s s' s'') :
    InStep QueuedParallel (wake words b s i) (wake words b s' i) (wake words b s'' i) := by
  obtain ⟨p, q⟩ := s
  obtain ⟨_, _, rfl, rfl, a', a'', rfl, rfl, arena⟩ := par
  dsimp only [wake]
  refine .share fun frame _ => ?_
  by_cases active : frame.active = true
  · simp only [active, not_true, ↓reduceIte]
    refine .share fun sOff _ => ?_
    cases sOff with
    | none => exact .stops _
    | some sOff =>
      refine (arena.xorSlots words frame.off sOff).bind fun _ _ _ arena => ?_
      refine .share fun idx _ => ?_
      rcases idx.len with _ | _ | n
      · exact .share fun frames _ => .returns ⟨_, _, rfl, rfl, _, _, rfl, rfl, arena⟩
      · refine .share fun r _ => .share fun frames _ => .share fun rOff _ => ?_
        exact .returns ⟨_, _, rfl, rfl, _, _, rfl, rfl, arena⟩
      · exact .share fun frames _ => .returns ⟨_, _, rfl, rfl, _, _, rfl, rfl, arena⟩
  · simp only [active]
    exact .returns ⟨_, _, rfl, rfl, _, _, rfl, rfl, arena⟩

theorem resolveLoop_inStep (words turns : Nat) {s s' s'' : PeelState × Queue}
    (par : QueuedParallel s s' s'') :
    InStep PeelState.Parallel (resolveLoop words turns s) (resolveLoop words turns s')
      (resolveLoop words turns s'') := by
  induction turns generalizing s s' s'' with
  | zero =>
    obtain ⟨p, q⟩ := s
    obtain ⟨_, _, rfl, rfl, par⟩ := par
    cases q with
    | nil => exact .returns par
    | cons => exact .stops _
  | succ turns ih =>
    obtain ⟨p, q⟩ := s
    obtain ⟨_, _, rfl, rfl, a', a'', rfl, rfl, arena⟩ := par
    cases q with
    | nil => exact .returns ⟨_, _, rfl, rfl, arena⟩
    | cons head queue =>
      dsimp only [resolveLoop]
      refine .share fun known _ => ?_
      by_cases solved : known.isSome = true
      · simp only [solved, ↓reduceIte]
        exact ih ⟨_, _, rfl, rfl, _, _, rfl, rfl, arena⟩
      · simp only [solved]
        refine .share fun solved _ => .share fun waiting _ => .share fun byBlock _ => ?_
        refine InStep.bind (InStep.foldlM (fun i _ _ _ par => wake_inStep words head.1 i par) waiting ?_)
          fun _ _ _ par => ih par
        exact ⟨_, _, rfl, rfl, _, _, rfl, rfl, arena⟩

theorem resolve_inStep (words b off : Nat) {p p' p'' : PeelState} (par : p.Parallel p' p'') :
    InStep PeelState.Parallel (resolve words p b off) (resolve words p' b off)
      (resolve words p'' b off) := by
  obtain ⟨a', a'', rfl, rfl, arena⟩ := par
  exact resolveLoop_inStep words _ ⟨_, _, rfl, rfl, _, _, rfl, rfl, arena⟩

namespace LtDecoder

/-! ## One call -/

/-- Three decoders that differ in their arenas only, the third of which is the
sum of the others. -/
def Parallel (d d' d'' : LtDecoder) : Prop :=
  ∃ a' a'', d' = { d with arena := a' } ∧ d'' = { d with arena := a'' } ∧ Xored d.arena a' a''

theorem reduce_inStep (solved : List (Option Nat)) (words off b : Nat) {a a' a'' : List UInt32}
    (arena : Xored a a' a'') :
    InStep Xored (reduce solved words off a b) (reduce solved words off a' b)
      (reduce solved words off a'' b) := by
  unfold reduce
  refine .share fun sOff _ => ?_
  cases sOff with
  | none => exact .returns arena
  | some sOff => exact arena.xorSlots words off sOff

theorem deriveIndices_inStep {d d' d'' : LtDecoder} (par : d.Parallel d' d'') (seq : UInt32) :
    InStep Parallel (d.deriveIndices seq) (d'.deriveIndices seq) (d''.deriveIndices seq) := by
  obtain ⟨a', a'', rfl, rfl, arena⟩ := par
  dsimp only [deriveIndices]
  by_cases single : seq.toNat < d.sysSpan ∧ ¬ d.causal
  · simp only [if_pos single]
    exact .returns ⟨_, _, rfl, rfl, arena⟩
  · simp only [if_neg single]
    by_cases pair : seq.toNat < d.sysSpan
    · simp only [if_pos pair]
      exact .returns ⟨_, _, rfl, rfl, arena⟩
    · simp only [if_neg pair]
      exact .share fun drawn _ => .returns ⟨_, _, rfl, rfl, arena⟩

/-- Storing a block. -/
theorem store_inStep {d d' d'' : LtDecoder} (par : d.Parallel d' d'') (unsolved : List Nat)
    {block block' block'' : List UInt8} (blocks : Xored block block' block'') :
    InStep Parallel (d.store unsolved block) (d'.store unsolved block')
      (d''.store unsolved block'') := by
  obtain ⟨a', a'', rfl, rfl, arena⟩ := par
  have grown := arena.append (.replicate_zero d.words)
  dsimp only [store]
  rw [arena.length_eq, arena.length_sum]
  refine (grown.slice _ _).bind fun _ _ _ row => ?_
  refine (row.wordsAsBytes.writeSlice blocks 0 d.blockLen).bind fun _ _ _ bytes => ?_
  refine (grown.writeSlice bytes.wordsOfBytes _ _).bind fun _ _ _ stored => ?_
  refine InStep.bind (InStep.foldlM (fun b _ _ _ held => reduce_inStep d.solved d.words d.arena.length b held)
    d.idx stored) fun _ _ _ reduced => ?_
  by_cases one : unsolved.length = 1
  · simp only [if_pos one]
    refine .share fun b _ => ?_
    refine InStep.bind (resolve_inStep d.words b d.arena.length ⟨_, _, rfl, rfl, reduced⟩) ?_
    rintro peel _ _ ⟨_, _, rfl, rfl, peeled⟩
    exact .returns ⟨_, _, rfl, rfl, peeled⟩
  · simp only [if_neg one]
    refine .share fun byBlock _ => .share fun idx _ => ?_
    exact .returns ⟨_, _, rfl, rfl, reduced⟩

/-- Whatever the decoders hold and whatever the blocks contain, the three calls
take the same branches. -/
theorem addFrame_inStep {d d' d'' : LtDecoder} (par : d.Parallel d' d'') (seq : UInt32)
    {block block' block'' : List UInt8} (blocks : Xored block block' block'') :
    InStep Parallel (d.addFrame seq block) (d'.addFrame seq block') (d''.addFrame seq block'') := by
  obtain ⟨a', a'', rfl, rfl, arena⟩ := par
  have start : d.Parallel { d with arena := a' } { d with arena := a'' } :=
    ⟨_, _, rfl, rfl, arena⟩
  unfold addFrame
  rw [blocks.length_eq, blocks.length_sum]
  by_cases length : block.length ≠ d.blockLen
  · simp only [if_pos length]
    exact .returns ⟨_, _, rfl, rfl, arena⟩
  simp only [if_neg length]
  by_cases complete : d.isComplete = true
  · have same : ∀ a, isComplete { d with arena := a } = true := fun _ => complete
    simp only [complete, same, ↓reduceIte]
    exact .returns start
  have same : ∀ a, isComplete { d with arena := a } = false := fun _ => by
    exact Bool.eq_false_iff.mpr complete
  simp only [complete, same, Bool.false_eq_true, ↓reduceIte]
  refine .share fun known _ => ?_
  cases known with
  | true => exact .returns ⟨_, _, rfl, rfl, arena⟩
  | false =>
    simp only [Bool.false_eq_true, ↓reduceIte]
    refine (deriveIndices_inStep start seq).bind ?_
    rintro d₁ _ _ ⟨b', b'', rfl, rfl, arena₁⟩
    refine .share fun unsolved _ => ?_
    dsimp only
    rw [arena₁.length_eq, arena₁.length_sum]
    generalize (if unsolved.length > 1 then unsolved.length else 0) = newEdges
    by_cases full : saturatingAdd d₁.arena.length d₁.words > d₁.maxArenaWords ∨
        saturatingAdd d₁.pendingEdges newEdges > d₁.maxPendingEdges
    · simp only [if_pos full]
      exact .returns ⟨_, _, rfl, rfl, arena₁⟩
    · simp only [if_neg full]
      refine .share fun inserted _ => ?_
      cases inserted.1 with
      | false => exact .stops _
      | true =>
        simp only [not_true, ↓reduceIte]
        cases unsolved with
        | nil => exact .returns ⟨_, _, rfl, rfl, arena₁⟩
        | cons b rest =>
          simp only [List.isEmpty_cons, Bool.false_eq_true, ↓reduceIte]
          refine store_inStep ?_ (b :: rest) blocks
          exact ⟨_, _, rfl, rfl, arena₁⟩

/-! ## Whole runs -/

/-- The same sequence numbers, with blocks of the same lengths. -/
def Aligned (inputs inputs' : List (UInt32 × List UInt8)) : Prop :=
  List.Forall₂ (fun x x' => x'.1 = x.1 ∧ x'.2.length = x.2.length) inputs inputs'

/-- The sums of the blocks of two runs. -/
def overlay (inputs inputs' : List (UInt32 × List UInt8)) : List (UInt32 × List UInt8) :=
  List.zipWith (fun x x' => (x.1, List.zipWith (· ^^^ ·) x.2 x'.2)) inputs inputs'

theorem addFrames_inStep {inputs inputs' : List (UInt32 × List UInt8)}
    (aligned : Aligned inputs inputs') {d d' d'' : LtDecoder} (par : d.Parallel d' d'') :
    InStep Parallel (d.addFrames inputs) (d'.addFrames inputs')
      (d''.addFrames (overlay inputs inputs')) := by
  induction aligned generalizing d d' d'' with
  | nil => exact .returns par
  | @cons x x' rest rest' same _ ih =>
    obtain ⟨seq, block⟩ := x
    obtain ⟨seq', block'⟩ := x'
    obtain ⟨rfl, length⟩ := same
    rw [overlay, List.zipWith_cons_cons, addFrames_cons, addFrames_cons, addFrames_cons]
    exact (addFrame_inStep par _ (.of_length length)).bind fun _ _ _ par => ih par

/-- What is read out of three decoders in step: nothing, or a payload and two
others of its length, the second of which is the sum. -/
inductive Readout : Option (List UInt8) → Option (List UInt8) → Option (List UInt8) → Prop
  | waiting : Readout none none none
  | complete {out out' out'' : List UInt8} (sum : Xored out out' out'') :
    Readout (some out) (some out') (some out'')

theorem assembleBlock_inStep {d d' d'' : LtDecoder} (par : d.Parallel d' d'')
    (value : Option Nat × Nat) {out out' out'' : List UInt8} (sum : Xored out out' out'') :
    InStep Xored (d.assembleBlock out value) (d'.assembleBlock out' value)
      (d''.assembleBlock out'' value) := by
  obtain ⟨a', a'', rfl, rfl, arena⟩ := par
  obtain ⟨off, b⟩ := value
  cases off with
  | none => exact .returns sum
  | some off =>
    dsimp only [assembleBlock]
    refine .share fun rest _ => ?_
    refine (arena.slice _ _).bind fun _ _ _ row => ?_
    refine (row.wordsAsBytes.slice _ _).bind fun _ _ _ src => ?_
    exact sum.writeSlice src _ _

theorem assemble_inStep {d d' d'' : LtDecoder} (par : d.Parallel d' d'') :
    InStep Readout d.assemble d'.assemble d''.assemble := by
  obtain ⟨a', a'', rfl, rfl, arena⟩ := par
  unfold assemble
  by_cases complete : d.isComplete = true
  · have same : ∀ a, isComplete { d with arena := a } = true := fun _ => complete
    simp only [complete, same, not_true, ↓reduceIte]
    refine InStep.bind (InStep.foldlM (fun value _ _ _ sum =>
      assembleBlock_inStep ⟨_, _, rfl, rfl, arena⟩ value sum) _ (.replicate_zero d.totalLen)) ?_
    exact fun _ _ _ sum => .returns (.complete sum)
  · have same : ∀ a, isComplete { d with arena := a } = false := fun _ =>
      Bool.eq_false_iff.mpr complete
    simp only [complete, same, Bool.false_eq_true, not_false_eq_true, ↓reduceIte]
    exact .returns .waiting

/-- A new decoder is in parallel with itself. -/
theorem Fresh.parallel {d : LtDecoder} (fresh : d.Fresh) : d.Parallel d d := by
  refine ⟨[], [], ?_, ?_, ?_⟩
  · rw [← fresh.arena]
  · rw [← fresh.arena]
  · rw [fresh.arena]
    exact .replicate_zero 0

/-- The decoder is linear, and blind to what the blocks contain. Runs of a new
decoder on the same sequence numbers, with any blocks of the same lengths,
accept, drop and solve alike, so that they differ in their arenas only. On the
sums of the blocks the arena and the output are the sums of the others. -/
theorem decoder_linear (soliton : SolitonCdf) (mode : Mode) (k blockLen totalLen : Nat)
    (sessionId : UInt32) (d₀ : LtDecoder)
    (built : tryNew soliton mode k blockLen sessionId totalLen = .ok (.ok d₀))
    (inputs inputs' : List (UInt32 × List UInt8)) (aligned : Aligned inputs inputs') :
    ∃ d d' d'', d₀.addFrames inputs = .ok d ∧ d₀.addFrames inputs' = .ok d' ∧
      d₀.addFrames (overlay inputs inputs') = .ok d'' ∧
      d' = { d with arena := d'.arena } ∧ d'.arena.length = d.arena.length ∧
      d'' = { d with arena := List.zipWith (· ^^^ ·) d.arena d'.arena } ∧
      ∃ out out' out'', d.assemble = .ok out ∧ d'.assemble = .ok out' ∧ d''.assemble = .ok out'' ∧
        Readout out out' out'' := by
  obtain ⟨wf₀, fresh, _⟩ := built_ok built
  obtain ⟨d, A, run, wf, _⟩ := addFrames_ok wf₀ inputs
  have steps := addFrames_inStep aligned fresh.parallel
  rw [run] at steps
  obtain ⟨_, _, run', run'', par⟩ := steps.of_ok
  obtain ⟨out, read, _⟩ := assemble_ok wf
  have reads := assemble_inStep par
  rw [read] at reads
  obtain ⟨out', out'', read', read'', readout⟩ := reads.of_ok
  obtain ⟨a', a'', rfl, rfl, arena⟩ := par
  refine ⟨d, _, _, run, run', run'', rfl, arena.length_eq, ?_, out, out', out'', read, read', read'',
    readout⟩
  rw [arena.sum_eq]

theorem decoder_linear_twoBlocks :
    ∃ d d' d'', (twoBlocks .causal).addFrames [(1, [0x03]), (0, [0x61])] = .ok d ∧
      (twoBlocks .causal).addFrames [(1, [0xff]), (0, [0x20])] = .ok d' ∧
      (twoBlocks .causal).addFrames [(1, [0xfc]), (0, [0x41])] = .ok d'' ∧
      d' = { d with arena := d'.arena } ∧ d'.arena.length = d.arena.length ∧
      d'' = { d with arena := List.zipWith (· ^^^ ·) d.arena d'.arena } ∧
      ∃ out out' out'', d.assemble = .ok out ∧ d'.assemble = .ok out' ∧ d''.assemble = .ok out'' ∧
        Readout out out' out'' :=
  decoder_linear twoBlockSoliton .causal 2 1 2 7 _ (twoBlocks_built .causal)
    [(1, [0x03]), (0, [0x61])] [(1, [0xff]), (0, [0x20])] (.cons ⟨rfl, rfl⟩ (.cons ⟨rfl, rfl⟩ .nil))

end LtDecoder

/-! ## Altered frames -/

/-- The encoder makes a frame, which is presented with some bytes altered. -/
def presentAltered (s : LtEncoder × LtDecoder) (event : UInt32 × List UInt8) :
    Exec (LtEncoder × LtDecoder) := do
  let (block, e) ← s.1.encode event.1
  let d ← s.2.addFrame event.1 (List.zipWith (· ^^^ ·) block event.2)
  .ok (e, d)

section
variable {mode : Mode} {payload : List UInt8} {A : Finset UInt32} {e : LtEncoder}
  {d d' d'' : LtDecoder}

/-- A run with altered frames, next to the genuine one and one of the errors. -/
theorem Matched.altered (m : Matched mode payload A e d) (par : d.Parallel d' d'')
    (errors : List (UInt32 × List UInt8)) (sizes : ∀ x ∈ errors, x.2.length = d.blockLen) :
    ∃ e₁ d₁ d₁' d₁'' A₁, (errors.map Prod.fst).foldlM presentFrame (e, d) = .ok (e₁, d₁) ∧
      errors.foldlM presentAltered (e, d'') = .ok (e₁, d₁'') ∧ d'.addFrames errors = .ok d₁' ∧
      Matched mode payload A₁ e₁ d₁ ∧ d₁.Parallel d₁' d₁'' := by
  induction errors generalizing e d d' d'' A with
  | nil => exact ⟨e, d, d', d'', A, rfl, rfl, rfl, m, par⟩
  | cons x rest ih =>
    obtain ⟨seq, error⟩ := x
    obtain ⟨e₁, encode, m₁⟩ := m.encode seq
    obtain ⟨d₁, A₁, call, wf₁, step⟩ :=
      LtDecoder.addFrame_ok m.decoder seq (genuine mode payload d seq)
    have length : error.length = (genuine mode payload d seq).length := by
      rw [genuine, frameBlock_length]
      exact sizes (seq, error) (by simp)
    have steps := LtDecoder.addFrame_inStep par seq (.of_length length)
    rw [call] at steps
    obtain ⟨d₁', d₁'', call', call'', par₁⟩ := steps.of_ok
    have same : d₁.blockLen = d.blockLen := by rw [step.same]
    obtain ⟨e₂, d₂, d₂', d₂'', A₂, run, run'', run', m₂, par₂⟩ := ih (m₁.step wf₁ step) par₁
      fun y mem => (sizes y (by simp [mem])).trans same.symm
    refine ⟨e₂, d₂, d₂', d₂'', A₂, ?_, ?_, ?_, m₂, par₂⟩
    · simp only [List.map_cons, List.foldlM_cons, presentFrame, encode, exec_ok_bind, call, run]
    · simp only [List.foldlM_cons, presentAltered, encode, exec_ok_bind, call'', run'']
    · rw [LtDecoder.addFrames_cons, call', exec_ok_bind, run']

end

/-- Frames of a payload with any bytes altered complete a decoder when the frames
themselves do, and what comes out is the payload plus what the alterations alone
decode to. -/
theorem errors_add (soliton : SolitonCdf) (mode : Mode) (payload : List UInt8) (blockLen : Nat)
    (sessionId : UInt32) (e₀ : LtEncoder)
    (built : LtEncoder.tryNew soliton mode payload blockLen sessionId = .ok (.ok e₀))
    (errors : List (UInt32 × List UInt8)) (sizes : ∀ x ∈ errors, x.2.length = blockLen) :
    ∃ d₀, LtDecoder.tryNew soliton mode e₀.k blockLen sessionId payload.length = .ok (.ok d₀) ∧
      ∃ e plain altered noise,
        (errors.map Prod.fst).foldlM presentFrame (e₀, d₀) = .ok (e, plain) ∧
        errors.foldlM presentAltered (e₀, d₀) = .ok (e, altered) ∧
        d₀.addFrames errors = .ok noise ∧
        altered.isComplete = plain.isComplete ∧ altered.isComplete = noise.isComplete ∧
        (noise.isComplete = true → ∃ out, noise.assemble = .ok (some out) ∧
          out.length = payload.length ∧
          altered.assemble = .ok (some (List.zipWith (· ^^^ ·) payload out))) := by
  obtain ⟨d₀, new, m₀⟩ := matched_new built
  obtain ⟨wf₀, fresh, _, blockLen_eq, _⟩ := LtDecoder.built_ok new
  obtain ⟨e, d, noise, altered, A, run, run'', run', m, par⟩ := m₀.altered fresh.parallel errors
    fun x mem => (sizes x mem).trans blockLen_eq.symm
  have reads := LtDecoder.assemble_inStep par
  obtain ⟨_, _, rfl, rfl, _⟩ := par
  refine ⟨d₀, new, e, d, _, _, run, run'', run', rfl, rfl, fun complete => ?_⟩
  rw [LtDecoder.assemble_payload m.decoder m.totalLen_eq m.values complete] at reads
  obtain ⟨out', out'', read', read'', readout⟩ := reads.of_ok
  cases readout with
  | complete sum =>
    refine ⟨_, read', sum.length_eq, ?_⟩
    rw [read'', sum.sum_eq]

/-- Bits of the first frame of "ab" are flipped. -/
theorem errors_add_twoBlocks :
    ∃ d₀, LtDecoder.tryNew twoBlockSoliton .causal 2 1 7 2 = .ok (.ok d₀) ∧
      ∃ e plain altered noise,
        [0, 1].foldlM presentFrame (twoBlocksEncoder .causal, d₀) = .ok (e, plain) ∧
        [(0, [0x10]), (1, [0x00])].foldlM presentAltered (twoBlocksEncoder .causal, d₀) =
          .ok (e, altered) ∧
        d₀.addFrames [(0, [0x10]), (1, [0x00])] = .ok noise ∧
        altered.isComplete = plain.isComplete ∧ altered.isComplete = noise.isComplete ∧
        (noise.isComplete = true → ∃ out, noise.assemble = .ok (some out) ∧ out.length = 2 ∧
          altered.assemble = .ok (some (List.zipWith (· ^^^ ·) [0x61, 0x62] out))) :=
  errors_add twoBlockSoliton .causal [0x61, 0x62] 1 7 _ (twoBlocksEncoder_built .causal)
    [(0, [0x10]), (1, [0x00])] (by simp)

end DeOptiTransfer
