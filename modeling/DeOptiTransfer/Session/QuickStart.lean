import DeOptiTransfer.Session.FileTransfer

/-!
# The quick start

The loop that the crate documentation and its tests run, a sender next to a
receiver: at most four frames for each block, until a container comes out.

* `AtTurn.turn`: one turn of the loop;
* `transferLoop_eq`: the loop needs exactly the frames of the first phase;
* `quickStart_ok`: the whole example, for any file that can be sent.
-/

namespace DeOptiTransfer

/-- `for _ in 0..turns { .. }` of the quick start, where both results are
unwrapped. -/
def transferLoop (blake3 : Blake3) (soliton : SolitonCdf) :
    Nat → Sender → Receiver → Exec (Option (List UInt8))
  | 0, _, _ => .ok none
  | turns + 1, sender, receiver => do
    let (frame, sender) ← sender.tryNextFrame blake3
    match frame with
    | .error _ => .error .noValue
    | .ok frame =>
      let (container, receiver) ← receiver.tryPush blake3 soliton frame.toBytes
      match container with
      | .error _ => .error .noValue
      | .ok (some container) => .ok (some container)
      | .ok none => transferLoop blake3 soliton turns sender receiver

def quickStart (lib : Crates) (soliton : SolitonCdf) (name mimeType : Text) (bytes : List UInt8)
    (blockLen : Nat) (sessionId : UInt16) : Exec OpticalFile :=
  match packFile lib name mimeType bytes with
  | .error _ => .error .noValue
  | .ok packed => do
    let built ← Sender.tryFromPacked lib.blake3 soliton packed blockLen sessionId
    match built with
    | .error _ => .error .noValue
    | .ok sender =>
      let recovered ← transferLoop lib.blake3 soliton (sender.k.toNat * 4) sender .new
      match recovered with
      | none => .error .noValue
      | some container =>
        let file ← unpackFile lib container
        match file with
        | .error _ => .error .noValue
        | .ok file => .ok file

open Receiver

section
variable {blake3 : Blake3} {soliton : SolitonCdf} {mode : Mode} {container : List UInt8}
  {limits : ReceiverLimits} {s₀ s : Sender} {r : Receiver} {A : Finset UInt32} {i : Nat}
  {d₀ : LtDecoder}

theorem Receiver.Linked.delivered_first_phase (linked : Linked mode container limits s₀ A r)
    (wf : s₀.WF blake3 mode container) (phase : mode ≠ .rsd) (sub : A ⊆ firstPhase s₀.encoder.k) :
    r.delivered = true ↔ ∀ seq : UInt32, seq.toNat < s₀.encoder.k → seq ∈ A := by
  cases linked with
  | idle =>
    constructor
    · intro done
      cases done
    · intro all
      exact absurd (all 0 wf.encoder.k_pos) (Finset.notMem_empty 0)
  | active m =>
    have complete := LtDecoder.complete_iff_first_phase m.decoder phase (matched_k m ▸ sub)
    rwa [matched_k m] at complete

/-- Frames `0` to `i - 1` of `s₀` have come through. -/
structure AtTurn (blake3 : Blake3) (mode : Mode) (container : List UInt8) (limits : ReceiverLimits)
    (s₀ : Sender) (i : Nat) (s : Sender) (r : Receiver) : Prop where
  reaches : s₀.Reaches blake3 s
  wf : s.WF blake3 mode container
  same : s₀.Same s
  counts : Sender.Counts i s
  linked : Linked mode container limits s₀ (firstPhase i) r
  waiting : r.delivered = false

theorem firstPhase_succ (lt : i + 1 ≤ MAX_SOURCE_BLOCKS) {seq : UInt32} (seq_eq : seq.toNat = i) :
    firstPhase (i + 1) = insert seq (firstPhase i) := by
  ext seq'
  rw [Finset.mem_insert, mem_firstPhase lt, mem_firstPhase (Nat.le_of_succ_le lt),
    ← UInt32.toNat_inj, seq_eq]
  omega

theorem covers_firstPhase {k : Nat} (le : i ≤ k) (k_le : k ≤ MAX_SOURCE_BLOCKS) :
    (∀ seq : UInt32, seq.toNat < k → seq ∈ firstPhase i) ↔ i = k := by
  constructor
  · intro full
    simp only [MAX_SOURCE_BLOCKS] at k_le
    have value : (UInt32.ofNat i).toNat = i :=
      UInt32.toNat_ofNat_of_lt' (by simp only [UInt32.size]; omega)
    by_contra ne
    have mem := (mem_firstPhase (le.trans k_le)).mp (full (UInt32.ofNat i) (by omega))
    omega
  · rintro rfl seq lt
    exact (mem_firstPhase k_le).mpr lt

/-- Frame `i` is emitted and taken; the last frame of the first phase brings the
container. -/
theorem AtTurn.turn (turn : AtTurn blake3 mode container limits s₀ i s r)
    (wf₀ : s₀.WF blake3 mode container) (phase : mode ≠ .rsd) (admitted : Within limits s₀.identity)
    (new : LtDecoder.tryNew soliton mode s₀.encoder.k s₀.encoder.blockLen s₀.encoder.sessionId
      container.length = .ok (.ok d₀))
    (m₀ : Matched mode container ∅ s₀.encoder d₀) (lt : i < s₀.encoder.k) :
    ∃ frame s' r', s.tryNextFrame blake3 = .ok (.ok frame, s') ∧
      r.tryPush blake3 soliton frame.toBytes =
        .ok (.ok (if i + 1 = s₀.encoder.k then some container else none), r') ∧
      (i + 1 < s₀.encoder.k → AtTurn blake3 mode container limits s₀ (i + 1) s' r') := by
  obtain ⟨reaches, wf, same, counts, linked, waiting⟩ := turn
  have k_le := wf₀.encoder.k_le
  have small : i + 1 ≤ MAX_SOURCE_BLOCKS := by omega
  simp only [MAX_SOURCE_BLOCKS] at k_le
  obtain ⟨left, seq_eq⟩ := counts.running (by omega)
  obtain ⟨s', emit, wf', same', _⟩ := Sender.tryNextFrame_ok wf left
  obtain ⟨_, _, emit', _, _, counts'⟩ := counts.step wf
  rw [emit] at emit'
  cases emit'
  have sent : s₀.Sent blake3 s.seq (Frame.toBytes _) := ⟨s, _, s', reaches, emit, rfl, rfl⟩
  obtain ⟨result, r', A', push, linked', _, serves, grows, few, collects⟩ :=
    linked.push_sent wf₀ admitted new m₀ sent
  have before : firstPhase i ⊆ firstPhase s₀.encoder.k := by
    intro seq mem
    rw [mem_firstPhase (by omega)] at mem
    exact (mem_firstPhase wf₀.encoder.k_le).mpr (by omega)
  have here : s.seq ∈ firstPhase s₀.encoder.k :=
    (mem_firstPhase wf₀.encoder.k_le).mpr (by omega)
  have done := linked'.delivered_first_phase wf₀ phase
    (few.trans (Finset.insert_subset here before))
  have mem : s.seq ∈ A' := by
    rcases collects phase before (by omega) with delivered | mem
    · exact done.mp delivered s.seq (by omega)
    · exact mem
  have all : A' = firstPhase (i + 1) := by
    rw [firstPhase_succ small seq_eq]
    exact Finset.Subset.antisymm few (Finset.insert_subset mem grows)
  subst all
  have last : r'.delivered = true ↔ i + 1 = s₀.encoder.k := by
    rw [done]
    exact covers_firstPhase lt wf₀.encoder.k_le
  have out := serves.delivers
  obtain ⟨c, taken⟩ := serves.taken s.seq sent
  dsimp only at out taken
  subst taken
  refine ⟨_, s', r', emit, ?_, ?_⟩
  · rw [push]
    by_cases full : i + 1 = s₀.encoder.k
    · have delivers := (out container).mpr ⟨rfl, waiting, last.mpr full⟩
      rw [if_pos full, delivers]
    · have silent : c = none := by
        rw [Option.eq_none_iff_forall_ne_some]
        rintro c' rfl
        exact full (last.mp ((out c').mp rfl).2.2)
      rw [if_neg full, silent]
  · intro more
    refine ⟨.next reaches emit, wf', same.trans same', counts', linked', ?_⟩
    exact Bool.eq_false_iff.mpr fun delivered => by
      have := last.mp delivered
      omega

/-- The loop delivers at turn `k` and not before. -/
theorem AtTurn.loop (turn : AtTurn blake3 mode container limits s₀ i s r)
    (wf₀ : s₀.WF blake3 mode container) (phase : mode ≠ .rsd) (admitted : Within limits s₀.identity)
    (new : LtDecoder.tryNew soliton mode s₀.encoder.k s₀.encoder.blockLen s₀.encoder.sessionId
      container.length = .ok (.ok d₀))
    (m₀ : Matched mode container ∅ s₀.encoder d₀) (lt : i < s₀.encoder.k) (turns : Nat) :
    transferLoop blake3 soliton turns s r =
      .ok (if i + turns < s₀.encoder.k then none else some container) := by
  induction turns generalizing i s r with
  | zero => rw [transferLoop, if_pos (by omega)]
  | succ turns ih =>
    obtain ⟨frame, s', r', emit, push, later⟩ := turn.turn wf₀ phase admitted new m₀ lt
    simp only [transferLoop, emit, exec_ok_bind, push]
    by_cases full : i + 1 = s₀.encoder.k
    · simp only [full, ↓reduceIte]
      rw [if_neg (by omega)]
    · simp only [full, ↓reduceIte]
      rw [ih (later (by omega)) (by omega), Nat.add_right_comm, Nat.add_assoc]

end

/-- A new sender and a new receiver are at turn 0. -/
theorem transferLoop_eq (blake3 : Blake3) (soliton : SolitonCdf) {mode : Mode} (phase : mode ≠ .rsd)
    {container : List UInt8} {blockLen : Nat} {sessionId : UInt16} {s : Sender}
    (built : Sender.build mode blake3 soliton container blockLen sessionId = .ok (.ok s))
    {limits : ReceiverLimits} (admitted : Within limits s.identity) (turns : Nat) :
    transferLoop blake3 soliton turns s (withLimits limits) =
      .ok (if turns < s.k.toNat then none else some container) := by
  obtain ⟨new_encoder, wf, zero, fresh, _, blockLen_eq⟩ := Sender.build_ok built
  obtain ⟨d₀, new, m₀⟩ := matched_new new_encoder
  rw [← blockLen_eq, (LtEncoder.tryNew_ok new_encoder).2.2.2.1.symm] at new
  have start : AtTurn blake3 mode container limits s 0 s (withLimits limits) := by
    refine ⟨.refl, wf, Sender.Same.refl s, ?_, .idle, rfl⟩
    constructor
    · intro _
      rw [zero]
      exact ⟨fresh, rfl⟩
    · intro far
      omega
  rw [start.loop wf phase admitted new m₀ wf.encoder.k_pos, Nat.zero_add, wf.k_eq]

/-- Whatever can be packed and sent comes out of the loop, in whichever of the
two modes with a first phase, after exactly `k` frames; and the documented
program returns the file. -/
theorem quickStart_ok (lib : Crates) (lawful : lib.flate2.Lawful) (soliton : SolitonCdf) :
    (∀ (mode : Mode) (container : List UInt8) (blockLen : Nat) (sessionId : UInt16) (s : Sender)
      (limits : ReceiverLimits) (turns : Nat), mode ≠ .rsd →
        Sender.build mode lib.blake3 soliton container blockLen sessionId = .ok (.ok s) →
          Within limits s.identity →
            transferLoop lib.blake3 soliton turns s (withLimits limits) =
              .ok (if turns < s.k.toNat then none else some container)) ∧
    ∀ (name mimeType : Text) (bytes : List UInt8) (blockLen : Nat) (sessionId : UInt16)
      (packed : PackedOpticalFile) (s : Sender), packFile lib name mimeType bytes = .ok packed →
        Sender.tryFromPacked lib.blake3 soliton packed blockLen sessionId = .ok (.ok s) →
          ∃ file, quickStart lib soliton name mimeType bytes blockLen sessionId = .ok file ∧
            file.bytes = bytes ∧ verifyFile lib file = true ∧
            file.name = safeFileName (safeFileName name) ∧
            normalizeMimeType mimeType = .ok file.mimeType := by
  constructor
  · intro mode container blockLen sessionId s limits turns phase built admitted
    exact transferLoop_eq lib.blake3 soliton phase built admitted turns
  · intro name mimeType bytes blockLen sessionId packed s packs built
    obtain ⟨_, _, normal, _, _, _, normal_eq, unpacked⟩ := packFile_unpacks lawful packs
    have sending : Sender.build .causal lib.blake3 soliton packed.container blockLen sessionId =
        .ok (.ok s) := built
    have loop := transferLoop_eq lib.blake3 soliton (by decide) sending
      (Sender.within_maximum sending) (s.k.toNat * 4)
    rw [if_neg (by omega)] at loop
    have returns : ∀ file, unpackFile lib packed.container = .ok (.ok file) →
        quickStart lib soliton name mimeType bytes blockLen sessionId = .ok file := by
      intro file unpacked
      simp only [quickStart, packs, built, exec_ok_bind, Receiver.new, loop, unpacked]
    refine ⟨_, returns _ unpacked, ?_, verifyFile_iff.mpr ?_, ?_, normal_eq⟩
    all_goals dsimp only

theorem quickStart_ok_sample :
    ∃ file, quickStart plainCrates twoBlockSoliton sampleName sampleType [0x61] 45 7 = .ok file ∧
      file.bytes = [0x61] := by
  have packs : packFile plainCrates sampleName sampleType [0x61] = .ok samplePlain := by
    decide +kernel
  obtain ⟨s, built⟩ : ∃ s, Sender.build .causal plainCrates.blake3 twoBlockSoliton
      samplePlain.container 45 7 = .ok (.ok s) :=
    (Sender.build_iff_fits .causal (by decide +kernel) (by decide +kernel)).mpr (by decide +kernel)
  obtain ⟨file, run, bytes_eq, _⟩ := (quickStart_ok plainCrates Flate2.stored_lawful
    twoBlockSoliton).2 sampleName sampleType [0x61] 45 7 samplePlain s packs built
  exact ⟨file, run, bytes_eq⟩

end DeOptiTransfer
