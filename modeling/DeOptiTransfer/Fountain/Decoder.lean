import DeOptiTransfer.Fountain.Encoder
import DeOptiTransfer.Fountain.Peel
import DeOptiTransfer.Set
import Mathlib.Algebra.BigOperators.Group.Finset.Basic
import Mathlib.Algebra.Order.BigOperators.Group.Finset

/-!
# The decoder

`LtDecoder` of `fountain.rs`. `WF mode A` is what holds of a decoder that has
accepted the sequence numbers `A`, whatever the frames contained.

* `tryNew_ok`: which parameters are accepted, and that a new decoder is
  well formed;
* `addFrame_ok`: a call returns, keeps the decoder well formed, and is one of
  the three kinds of `Step`;
* `assemble_ok`: a well-formed decoder can be read out.
-/

namespace DeOptiTransfer

def MAX_PENDING_EDGES_PER_BLOCK : Nat := 64

/-- The fields `solved`, `solved_count`, `frames`, `by_block` and `arena` are
those of the `PeelState`. -/
structure LtDecoder extends PeelState where
  k : Nat
  blockLen : Nat
  words : Nat
  sessionId : UInt32
  totalLen : Nat
  sysSpan : Nat
  causal : Bool
  cdf : DegreeCdf
  seen : U32Set
  idx : List Nat
  idxScratch : List Nat
  maxArenaWords : Nat
  maxPendingEdges : Nat
  pendingEdges : Nat
  framesNew : Nat
  framesDup : Nat
  framesDropped : Nat

namespace LtDecoder

def tryNewMode (soliton : SolitonCdf) (k blockLen : Nat) (sessionId : UInt32) (totalLen : Nat)
    (sysSpan : Nat) (causal : Bool) : Exec (Except Error LtDecoder) :=
  if k = 0 ∨ blockLen = 0 ∨ totalLen = 0 then .ok (.error .invalidStream)
  else if k > MAX_SOURCE_BLOCKS ∨ blockLen > 65535 then .ok (.error .invalidStream)
  else if totalLen > MAX_STREAM_BYTES then
    .ok (.error (.tooLarge totalLen MAX_STREAM_BYTES))
  else if k ≠ divCeil totalLen blockLen then .ok (.error .invalidStream)
  else do
    let words := divCeil blockLen 4
    let maxArenaWords := saturatingMul (saturatingMul k words) 4
    let maxPendingEdges := saturatingMul k MAX_PENDING_EDGES_PER_BLOCK
    let cdf ← DegreeCdf.new soliton k
    .ok (.ok {
      k, blockLen, words, sessionId, totalLen, sysSpan, causal, cdf
      solved := List.replicate k none
      solvedCount := 0
      frames := []
      byBlock := List.replicate k []
      seen := .withCapacity k
      idx := []
      idxScratch := []
      arena := []
      maxArenaWords, maxPendingEdges
      pendingEdges := 0
      framesNew := 0
      framesDup := 0
      framesDropped := 0 })

/-- `try_new`, `try_new_systematic` and `try_new_causal`. -/
def tryNew (soliton : SolitonCdf) (mode : Mode) (k blockLen : Nat) (sessionId : UInt32)
    (totalLen : Nat) : Exec (Except Error LtDecoder) :=
  match mode with
  | .rsd => tryNewMode soliton k blockLen sessionId totalLen 0 false
  | .systematic => tryNewMode soliton k blockLen sessionId totalLen k false
  | .causal => tryNewMode soliton k blockLen sessionId totalLen k true

def isComplete (d : LtDecoder) : Bool := d.solvedCount ≥ d.k

/-- The part of `add_frame` that computes `self.idx`. -/
def deriveIndices (d : LtDecoder) (seq : UInt32) : Exec LtDecoder :=
  if seq.toNat < d.sysSpan ∧ ¬ d.causal then .ok { d with idx := [seq.toNat % d.k] }
  else if seq.toNat < d.sysSpan then
    .ok { d with idx := (if seq ≠ 0 then [seq.toNat - 1] else []) ++ [seq.toNat] }
  else do
    let (idx, idxScratch) ← frameIndicesInto d.idx d.idxScratch d.cdf d.sessionId seq
    .ok { d with idx, idxScratch }

def collectUnsolved (solved : List (Option Nat)) (unsolved : List Nat) (b : Nat) :
    Exec (List Nat) := do
  let off ← getAt solved b
  .ok (if off.isNone then unsolved ++ [b] else unsolved)

/-- Take block `b` out of the slot at `off`, if it is solved. -/
def reduce (solved : List (Option Nat)) (words off : Nat) (arena : List UInt32) (b : Nat) :
    Exec (List UInt32) := do
  let sOff ← getAt solved b
  match sOff with
  | some sOff => xorSlots words arena off sOff
  | none => .ok arena

def subscribe (frameId : Nat) (byBlock : List (List Nat)) (b : Nat) : Exec (List (List Nat)) := do
  let list ← getAt byBlock b
  setAt byBlock b (list ++ [frameId])

/-- The part of `add_frame` that stores a frame with unsolved blocks. -/
def store (d : LtDecoder) (unsolved : List Nat) (block : List UInt8) : Exec LtDecoder := do
  let off := d.arena.length
  let arena := d.arena ++ List.replicate d.words 0
  let row ← slice arena off (off + d.words)
  let bytes ← writeSlice (wordsAsBytes row) 0 d.blockLen block
  let arena ← writeSlice arena off (off + d.words) (wordsOfBytes bytes)
  let arena ← d.idx.foldlM (reduce d.solved d.words off) arena
  if unsolved.length = 1 then
    let b ← getAt unsolved 0
    let peel ← resolve d.words { d.toPeelState with arena } b off
    .ok { d with toPeelState := peel }
  else
    let frameId := d.frames.length
    let byBlock ← unsolved.foldlM (subscribe frameId) d.byBlock
    let idx ← BlockSet.new d.k unsolved
    .ok { d with
      arena, byBlock
      pendingEdges := d.pendingEdges + unsolved.length
      frames := d.frames ++ [{ idx, off, active := true }] }

def addFrame (d : LtDecoder) (seq : UInt32) (block : List UInt8) : Exec LtDecoder :=
  if block.length ≠ d.blockLen then .ok { d with framesDropped := d.framesDropped + 1 }
  else if d.isComplete then .ok d
  else do
    let known ← d.seen.contains seq
    if known then .ok { d with framesDup := d.framesDup + 1 }
    else
      let d ← d.deriveIndices seq
      let unsolved ← d.idx.foldlM (collectUnsolved d.solved) []
      let newEdges := if unsolved.length > 1 then unsolved.length else 0
      if saturatingAdd d.arena.length d.words > d.maxArenaWords ∨
          saturatingAdd d.pendingEdges newEdges > d.maxPendingEdges then
        .ok { d with framesDropped := d.framesDropped + 1 }
      else
        let (inserted, seen) ← d.seen.insert seq
        if ¬ inserted then .error .assertion
        else
          let d := { d with seen, framesNew := d.framesNew + 1 }
          if unsolved.isEmpty then .ok d else d.store unsolved block

/-- Copy one solved block to its place in the output. -/
def assembleBlock (d : LtDecoder) (out : List UInt8) (value : Option Nat × Nat) :
    Exec (List UInt8) :=
  match value.1 with
  | none => .ok out
  | some off => do
    let start := value.2 * d.blockLen
    let rest ← checkedSub d.totalLen start
    let len := min d.blockLen rest
    let row ← slice d.arena off (off + d.words)
    let src ← slice (wordsAsBytes row) 0 len
    writeSlice out start (start + len) src

def assemble (d : LtDecoder) : Exec (Option (List UInt8)) :=
  if ¬ d.isComplete then .ok none
  else do
    let out ← d.solved.zipIdx.foldlM d.assembleBlock (List.replicate d.totalLen 0)
    .ok (some out)

/-! ## Well-formed decoders -/

/-- The blocks frame `seq` combines. -/
def indexSet (mode : Mode) (d : LtDecoder) (seq : UInt32) : Finset Nat :=
  (frameIndices mode d.cdf d.sessionId seq).toFinset

/-- The blocks of frame `seq` that are not solved yet. -/
def unsolved (mode : Mode) (d : LtDecoder) (seq : UInt32) : Finset Nat :=
  (d.indexSet mode seq).filter fun b => ¬ d.Known b

/-- What frame `seq` adds to the edge budget. -/
def newEdges (mode : Mode) (d : LtDecoder) (seq : UInt32) : Nat :=
  if (d.unsolved mode seq).card > 1 then (d.unsolved mode seq).card else 0

/-- The budgets allow frame `seq`. -/
def Room (mode : Mode) (d : LtDecoder) (seq : UInt32) : Prop :=
  d.arena.length + d.words ≤ d.maxArenaWords ∧
    d.pendingEdges + d.newEdges mode seq ≤ d.maxPendingEdges

instance (mode : Mode) (d : LtDecoder) (seq : UInt32) : Decidable (d.Room mode seq) :=
  inferInstanceAs (Decidable (_ ∧ _))

/-- What the constructor fixes. -/
structure Conf (mode : Mode) (d : LtDecoder) : Prop where
  k_pos : 0 < d.k
  k_le : d.k ≤ MAX_SOURCE_BLOCKS
  blockLen_pos : 0 < d.blockLen
  blockLen_le : d.blockLen ≤ 65535
  totalLen_le : d.totalLen ≤ MAX_STREAM_BYTES
  k_eq : d.k = divCeil d.totalLen d.blockLen
  words_eq : d.words = divCeil d.blockLen 4
  sysSpan_eq : d.sysSpan = mode.sysSpan d.k
  causal_eq : d.causal = mode.isCausal
  cdf_wf : d.cdf.WF
  cdf_k : d.cdf.k = d.k
  maxArenaWords_eq : d.maxArenaWords = 4 * d.k * d.words
  maxPendingEdges_eq : d.maxPendingEdges = 64 * d.k

/-- A decoder that has accepted the sequence numbers `A`. -/
structure WF (mode : Mode) (A : Finset UInt32) (d : LtDecoder) : Prop extends Conf mode d where
  shape : d.Shape d.k d.words d.waiting none []
  closure : d.Closure (d.indexSet mode) A []
  seen_holds : d.seen.Holds A
  framesNew_eq : d.framesNew = A.card
  arena_dvd : d.words ∣ d.arena.length
  arena_le : d.arena.length ≤ d.maxArenaWords
  arena_le_card : d.arena.length ≤ d.words * A.card
  edges_le : d.edges ≤ d.pendingEdges
  pending_le : d.pendingEdges ≤ d.maxPendingEdges
  pending_le_sum : d.pendingEdges ≤ ∑ s ∈ A, (d.indexSet mode s).card

/-- The parameters a decoder accepts. -/
structure Accepted (k blockLen totalLen : Nat) : Prop where
  blockLen_pos : 0 < blockLen
  blockLen_le : blockLen ≤ 65535
  totalLen_pos : 0 < totalLen
  totalLen_le : totalLen ≤ MAX_STREAM_BYTES
  k_le : k ≤ MAX_SOURCE_BLOCKS
  k_eq : k = divCeil totalLen blockLen

theorem Accepted.k_pos {k blockLen totalLen : Nat} (h : Accepted k blockLen totalLen) : 0 < k := by
  rw [h.k_eq]
  exact divCeil_pos h.totalLen_pos h.blockLen_pos

/-- The mode a decoder is built for, as the constructor stores it. -/
theorem tryNew_eq (soliton : SolitonCdf) (mode : Mode) (k blockLen : Nat) (sessionId : UInt32)
    (totalLen : Nat) :
    tryNew soliton mode k blockLen sessionId totalLen =
      tryNewMode soliton k blockLen sessionId totalLen (mode.sysSpan k) mode.isCausal := by
  cases mode <;> rfl

/-- The starting state holds nothing. -/
structure Fresh (d : LtDecoder) : Prop where
  solved : d.solved = List.replicate d.k none
  frames : d.frames = []
  arena : d.arena = []
  idx : d.idx = []
  idxScratch : d.idxScratch = []
  framesDup : d.framesDup = 0
  framesDropped : d.framesDropped = 0

theorem replicate_offset {p : PeelState} {n : Nat} (h : p.solved = List.replicate n none) (b : Nat) :
    p.offset b = none := by
  rw [PeelState.offset, h, List.getD_eq_getElem?_getD, List.getElem?_replicate]
  split <;> rfl

/-- A peeling state of `k` blocks that holds nothing. -/
structure Blank (k : Nat) (p : PeelState) : Prop where
  solved : p.solved = List.replicate k none
  solvedCount : p.solvedCount = 0
  frames : p.frames = []
  byBlock : p.byBlock = List.replicate k []

section
variable {p : PeelState} {k : Nat}

theorem Blank.unknown (blank : Blank k p) (c : Nat) : ¬ p.Known c := by
  rw [PeelState.Known, replicate_offset blank.solved]
  simp

theorem Blank.idle (blank : Blank k p) {i : Nat} {f : PendingFrame} : ¬ p.Active i f := by
  intro act
  rw [PeelState.Active, blank.frames] at act
  simp at act

theorem Blank.unwatched (blank : Blank k p) (c : Nat) : p.waiting c = [] := by
  rw [PeelState.waiting, blank.byBlock, List.getD_eq_getElem?_getD, List.getElem?_replicate]
  split <;> rfl

theorem Blank.shape (blank : Blank k p) (words : Nat) : p.Shape k words p.waiting none [] := by
  refine ⟨?_, ?_, ?_, ?_, ?_, by simp, ?_, ?_, by simp, ?_, ?_, ?_, ?_, ?_, ?_⟩
  · rw [blank.solved, List.length_replicate]
  · rw [blank.byBlock, List.length_replicate]
  · rw [blank.solvedCount]
    symm
    rw [Finset.card_eq_zero, PeelState.solvedBlocks, Finset.filter_eq_empty_iff]
    exact fun c _ => blank.unknown c
  · intro c o hc
    exact absurd (PeelState.known_iff.mpr ⟨o, hc⟩) (blank.unknown c)
  · exact fun i f act => absurd act blank.idle
  · exact fun i j f g act => absurd act blank.idle
  · exact fun i f c o act => absurd act blank.idle
  · exact fun i f act => absurd act blank.idle
  · exact fun i f act => absurd act blank.idle
  · exact fun i f c act => absurd act blank.idle
  · intro c
    rw [blank.unwatched]
    exact List.nodup_nil
  · intro c i hi
    rw [blank.unwatched] at hi
    cases hi
  · exact fun c hc => absurd hc (blank.unknown c)

theorem Blank.closure (blank : Blank k p) (I : UInt32 → Finset Nat) : p.Closure I ∅ [] :=
  ⟨fun _ _ act => absurd act blank.idle, by simp, by simp, fun c hc => absurd hc (blank.unknown c)⟩

end

/-- Within the limits of the constructor the budgets do not saturate. -/
theorem Accepted.budgets {k blockLen totalLen : Nat} (h : Accepted k blockLen totalLen) :
    saturatingMul (saturatingMul k (divCeil blockLen 4)) 4 = 4 * k * divCeil blockLen 4 ∧
      saturatingMul k MAX_PENDING_EDGES_PER_BLOCK = 64 * k := by
  have k_le := h.k_le
  have blockLen_le := h.blockLen_le
  simp only [MAX_SOURCE_BLOCKS] at k_le
  have words_le : divCeil blockLen 4 ≤ 65535 := by
    unfold divCeil
    split <;> omega
  have arena_words : k * divCeil blockLen 4 ≤ 65535 * 65535 := Nat.mul_le_mul k_le words_le
  constructor
  · rw [saturatingMul_eq (a := k) (by omega), saturatingMul_eq (by omega), Nat.mul_assoc 4,
      Nat.mul_comm 4]
  · rw [saturatingMul_eq (by simp only [MAX_PENDING_EDGES_PER_BLOCK]; omega)]
    simp only [MAX_PENDING_EDGES_PER_BLOCK]
    omega

/-- A new decoder is well formed, with nothing accepted. -/
theorem tryNew_ok (soliton : SolitonCdf) (mode : Mode) {k blockLen totalLen : Nat}
    (sessionId : UInt32) (accepted : Accepted k blockLen totalLen) :
    ∃ d, tryNew soliton mode k blockLen sessionId totalLen = .ok (.ok d) ∧ d.WF mode ∅ ∧
      d.Fresh ∧ d.k = k ∧ d.blockLen = blockLen ∧ d.sessionId = sessionId ∧
      d.totalLen = totalLen ∧ .ok d.cdf = DegreeCdf.new soliton k := by
  have k_pos := accepted.k_pos
  have blockLen_pos := accepted.blockLen_pos
  have blockLen_le := accepted.blockLen_le
  obtain ⟨cdf, new, cdf_eq, cdf_wf⟩ := DegreeCdf.new_ok soliton k_pos
  obtain ⟨max_arena, max_edges⟩ := accepted.budgets
  have run : tryNew soliton mode k blockLen sessionId totalLen = .ok (.ok {
      k, blockLen, words := divCeil blockLen 4, sessionId, totalLen, sysSpan := mode.sysSpan k
      causal := mode.isCausal, cdf, solved := List.replicate k none, solvedCount := 0, frames := []
      byBlock := List.replicate k [], seen := .withCapacity k, idx := [], idxScratch := []
      arena := [], maxArenaWords := 4 * k * divCeil blockLen 4, maxPendingEdges := 64 * k
      pendingEdges := 0, framesNew := 0, framesDup := 0, framesDropped := 0 }) := by
    have := accepted.totalLen_pos
    have := accepted.totalLen_le
    have := accepted.k_le
    rw [tryNew_eq, tryNewMode, if_neg (by omega), if_neg (by omega), if_neg (by omega),
      if_neg (by simpa using accepted.k_eq)]
    simp only [new, exec_ok_bind, max_arena, max_edges]
  refine ⟨_, run, ?_, ⟨rfl, rfl, rfl, rfl, rfl, rfl, rfl⟩, rfl, rfl, rfl, rfl,
    new.symm⟩
  exact {
    k_pos, k_le := accepted.k_le, blockLen_pos, blockLen_le
    totalLen_le := accepted.totalLen_le, k_eq := accepted.k_eq, words_eq := rfl
    sysSpan_eq := rfl, causal_eq := rfl, cdf_wf
    cdf_k := by rw [DegreeCdf.k, cdf_eq, soliton.length_cdf]
    maxArenaWords_eq := rfl, maxPendingEdges_eq := rfl
    shape := Blank.shape ⟨rfl, rfl, rfl, rfl⟩ _
    closure := Blank.closure ⟨rfl, rfl, rfl, rfl⟩ _
    seen_holds := U32Set.withCapacity_holds k, framesNew_eq := rfl
    arena_dvd := by simp, arena_le := by simp, arena_le_card := by simp
    edges_le := by simp [PeelState.edges]
    pending_le := by simp, pending_le_sum := by simp }

theorem accepted_of_tryNew {soliton : SolitonCdf} {mode : Mode} {k blockLen totalLen : Nat}
    {sessionId : UInt32} {d : LtDecoder}
    (built : tryNew soliton mode k blockLen sessionId totalLen = .ok (.ok d)) :
    Accepted k blockLen totalLen := by
  rw [tryNew_eq, tryNewMode] at built
  by_cases zero : k = 0 ∨ blockLen = 0 ∨ totalLen = 0
  · simp [zero] at built
  by_cases large : k > MAX_SOURCE_BLOCKS ∨ blockLen > 65535
  · simp [zero, large] at built
  by_cases long : totalLen > MAX_STREAM_BYTES
  · simp [zero, large, long] at built
  by_cases other : k ≠ divCeil totalLen blockLen
  · simp [zero, large, long, other] at built
  exact ⟨by omega, by omega, by omega, by omega, by omega, by simpa using other⟩

/-- What a constructor that succeeds has built. -/
theorem built_ok {soliton : SolitonCdf} {mode : Mode} {k blockLen totalLen : Nat}
    {sessionId : UInt32} {d : LtDecoder}
    (built : tryNew soliton mode k blockLen sessionId totalLen = .ok (.ok d)) :
    d.WF mode ∅ ∧ d.Fresh ∧ d.k = k ∧ d.blockLen = blockLen ∧ d.sessionId = sessionId ∧
      d.totalLen = totalLen ∧ .ok d.cdf = DegreeCdf.new soliton k := by
  obtain ⟨d', built', rest⟩ := tryNew_ok soliton mode sessionId (accepted_of_tryNew built)
  rw [built] at built'
  cases built'
  exact rest

/-- The new decoder of a stream of two one-byte blocks in session 7. -/
def twoBlocks (mode : Mode) : LtDecoder where
  solved := [none, none]
  solvedCount := 0
  frames := []
  byBlock := [[], []]
  arena := []
  k := 2
  blockLen := 1
  words := 1
  sessionId := 7
  totalLen := 2
  sysSpan := mode.sysSpan 2
  causal := mode.isCausal
  cdf := twoBlockCdf
  seen := U32Set.withCapacity 2
  idx := []
  idxScratch := []
  maxArenaWords := 8
  maxPendingEdges := 128
  pendingEdges := 0
  framesNew := 0
  framesDup := 0
  framesDropped := 0

theorem twoBlocks_built (mode : Mode) :
    tryNew twoBlockSoliton mode 2 1 7 2 = .ok (.ok (twoBlocks mode)) := by
  have two : ¬ (2 ≠ divCeil 2 1) := by decide
  rw [tryNew_eq, tryNewMode, if_neg (by decide), if_neg (by decide), if_neg (by decide), if_neg two,
    twoBlockCdf_eq]
  rfl

end LtDecoder

end DeOptiTransfer
