import DeOptiTransfer.Capacity
import DeOptiTransfer.Fountain.Soundness

/-!
# The sender

`Sender` of `session.rs` turns a container into frames that describe
themselves.

* `build_ok`: what a constructor that succeeds has built;
* `tryNextFrame_ok`: a call emits the frame of the encoder for the next
  sequence number, under a header that `parse_frame` accepts.
-/

namespace DeOptiTransfer

/-- The mode a header asks for: `match flags` of the source. -/
def modeOfFlags (flags : UInt8) : Mode :=
  if flags = FLAG_CAUSAL then .causal
  else if flags = FLAG_SYSTEMATIC then .systematic
  else .rsd

/-- The flags of each mode. -/
def Mode.flags (mode : Mode) : UInt8 :=
  match mode with
  | .rsd => 0
  | .systematic => FLAG_SYSTEMATIC
  | .causal => FLAG_CAUSAL

@[simp] theorem modeOfFlags_flags (mode : Mode) : modeOfFlags mode.flags = mode := by
  cases mode <;> decide

structure Sender where
  encoder : LtEncoder
  seq : UInt32
  exhausted : Bool
  sessionId : UInt16
  k : UInt16
  blockLen : UInt16
  totalLen : UInt32
  streamTag : UInt32
  flags : UInt8

structure Frame where
  header : FrameHeader
  block : List UInt8

def Frame.toBytes (frame : Frame) : List UInt8 := packFrame frame.header frame.block

namespace Sender

def tryWithMode (blake3 : Blake3) (soliton : SolitonCdf) (container : List UInt8)
    (blockLen : Nat) (sessionId : UInt16) (flags : UInt8) : Exec (Except Error Sender) :=
  if container.isEmpty then .ok (.error .empty)
  else if blockLen = 0 ∨ blockLen > 65535 then .ok (.error .invalidStream)
  else if container.length > MAX_STREAM_BYTES then
    .ok (.error (.tooLarge container.length MAX_STREAM_BYTES))
  else
    match checkedAdd blockLen HEADER_LEN with
    | none => .ok (.error .invalidStream)
    | some frameBytes =>
      match sourceBlockCount container.length frameBytes with
      | none => .ok (.error .invalidStream)
      | some k =>
        if k = 0 ∨ k > 65535 then .ok (.error .invalidStream)
        else do
          let built ← LtEncoder.tryNew soliton (modeOfFlags flags) container blockLen
            sessionId.toUInt32
          match built with
          | .error e => .ok (.error e)
          | .ok encoder =>
            .ok (.ok {
              encoder
              seq := 0
              exhausted := false
              sessionId
              k := UInt16.ofNat k
              blockLen := UInt16.ofNat blockLen
              totalLen := UInt32.ofNat container.length
              streamTag := checksum32 blake3 container
              flags })

def tryNew (blake3 : Blake3) (soliton : SolitonCdf) (container : List UInt8) (blockLen : Nat)
    (sessionId : UInt16) : Exec (Except Error Sender) :=
  tryWithMode blake3 soliton container blockLen sessionId FLAG_CAUSAL

def tryNewSystematic (blake3 : Blake3) (soliton : SolitonCdf) (container : List UInt8)
    (blockLen : Nat) (sessionId : UInt16) : Exec (Except Error Sender) :=
  tryWithMode blake3 soliton container blockLen sessionId FLAG_SYSTEMATIC

def tryNewRsd (blake3 : Blake3) (soliton : SolitonCdf) (container : List UInt8) (blockLen : Nat)
    (sessionId : UInt16) : Exec (Except Error Sender) :=
  tryWithMode blake3 soliton container blockLen sessionId 0

/-- The constructor of each mode. -/
def build (mode : Mode) (blake3 : Blake3) (soliton : SolitonCdf) (container : List UInt8)
    (blockLen : Nat) (sessionId : UInt16) : Exec (Except Error Sender) :=
  match mode with
  | .rsd => tryNewRsd blake3 soliton container blockLen sessionId
  | .systematic => tryNewSystematic blake3 soliton container blockLen sessionId
  | .causal => tryNew blake3 soliton container blockLen sessionId

/-- The header `try_next_frame` puts before a block. -/
def header (blake3 : Blake3) (s : Sender) (block : List UInt8) : FrameHeader :=
  let header : FrameHeader := {
    flags := s.flags
    sessionId := s.sessionId
    seq := s.seq
    k := s.k
    blockLen := s.blockLen
    totalLen := s.totalLen
    streamTag := s.streamTag
    frameTag := 0 }
  { header with frameTag := frameChecksum blake3 header block }

def tryNextFrame (blake3 : Blake3) (s : Sender) : Exec (Except Error Frame × Sender) :=
  if s.exhausted then .ok (.error .sequenceExhausted, s)
  else do
    let seq := s.seq
    let (block, encoder) ← s.encoder.encode seq
    let header := s.header blake3 block
    let s := { s with encoder }
    if seq.toNat = 2 ^ 32 - 1 then .ok (.ok { header, block }, { s with exhausted := true })
    else .ok (.ok { header, block }, { s with seq := seq + 1 })

/-! ## What a sender emits -/

/-- A sender of `container` between calls. -/
structure WF (blake3 : Blake3) (mode : Mode) (container : List UInt8) (s : Sender) : Prop where
  encoder : s.encoder.WF mode container
  k_eq : s.k.toNat = s.encoder.k
  blockLen_eq : s.blockLen.toNat = s.encoder.blockLen
  sessionId_eq : s.sessionId.toUInt32 = s.encoder.sessionId
  totalLen_eq : s.totalLen.toNat = container.length
  streamTag_eq : s.streamTag = checksum32 blake3 container
  flags_eq : s.flags = mode.flags

/-- The parts of a sender no call changes. -/
structure Same (s s' : Sender) : Prop where
  eq : s' = { s with encoder := s'.encoder, seq := s'.seq, exhausted := s'.exhausted }
  encoder : s.encoder.Same s'.encoder

theorem Same.refl (s : Sender) : s.Same s := ⟨rfl, LtEncoder.Same.refl s.encoder⟩

theorem Same.trans {s s' s'' : Sender} (h : s.Same s') (h' : s'.Same s'') : s.Same s'' := by
  refine ⟨?_, h.encoder.trans h'.encoder⟩
  rw [h'.eq, h.eq]

/-- The identity of every frame of a sender. -/
def identity (s : Sender) : StreamIdentity where
  flags := s.flags
  sessionId := s.sessionId
  k := s.k
  blockLen := s.blockLen
  totalLen := s.totalLen
  streamTag := s.streamTag

theorem Same.identity {s s' : Sender} (h : s.Same s') : s'.identity = s.identity := by
  rw [h.eq]
  rfl

/-- The block of frame `seq`. -/
def block (mode : Mode) (container : List UInt8) (s : Sender) (seq : UInt32) : List UInt8 :=
  frameBlock container s.encoder.blockLen (frameIndices mode s.encoder.cdf s.encoder.sessionId seq)

theorem Same.block {mode : Mode} {container : List UInt8} {s s' : Sender} (h : s.Same s') :
    s'.block mode container = s.block mode container := by
  unfold Sender.block
  rw [h.encoder]

section
variable {blake3 : Blake3} {soliton : SolitonCdf} {mode : Mode} {container : List UInt8}
  {blockLen : Nat} {sessionId : UInt16} {s s' : Sender}

theorem build_eq :
    build mode blake3 soliton container blockLen sessionId =
      tryWithMode blake3 soliton container blockLen sessionId mode.flags := by
  cases mode <;> rfl

/-- What `try_with_mode` checks before it builds the encoder. -/
theorem tryWithMode_eq (pos : 0 < blockLen) (le : blockLen ≤ 65535) (nonempty : container ≠ [])
    (total : container.length ≤ MAX_STREAM_BYTES) (k_le : divCeil container.length blockLen ≤ 65535)
    (flags : UInt8) :
    tryWithMode blake3 soliton container blockLen sessionId flags =
      LtEncoder.tryNew soliton (modeOfFlags flags) container blockLen sessionId.toUInt32 >>=
        fun built => match built with
          | .error e => .ok (.error e)
          | .ok encoder => .ok (.ok {
              encoder, seq := 0, exhausted := false, sessionId
              k := UInt16.ofNat (divCeil container.length blockLen)
              blockLen := UInt16.ofNat blockLen
              totalLen := UInt32.ofNat container.length
              streamTag := checksum32 blake3 container
              flags }) := by
  have k_pos := divCeil_pos (List.length_pos_iff.mpr nonempty) pos
  rw [tryWithMode, if_neg (by simpa using nonempty), if_neg (by omega), if_neg (by omega),
    checkedAdd_eq (by simp only [HEADER_LEN]; omega)]
  simp only [sourceBlockCount_add_header _ pos le]
  rw [if_neg (by omega)]

theorem checks_of_tryWithMode {flags : UInt8}
    (built : tryWithMode blake3 soliton container blockLen sessionId flags = .ok (.ok s)) :
    0 < blockLen ∧ blockLen ≤ 65535 ∧ container ≠ [] ∧ container.length ≤ MAX_STREAM_BYTES ∧
      divCeil container.length blockLen ≤ 65535 := by
  rw [tryWithMode] at built
  by_cases empty : container.isEmpty
  · simp [empty] at built
  by_cases unsized : blockLen = 0 ∨ blockLen > 65535
  · simp [empty, unsized] at built
  by_cases long : container.length > MAX_STREAM_BYTES
  · simp [empty, unsized, long] at built
  rw [if_neg empty, if_neg unsized, if_neg long,
    checkedAdd_eq (by simp only [HEADER_LEN]; omega)] at built
  simp only [sourceBlockCount_add_header container.length (show 0 < blockLen by omega)
    (by omega)] at built
  by_cases many : divCeil container.length blockLen = 0 ∨ divCeil container.length blockLen > 65535
  · rw [if_pos many] at built
    cases built
  · exact ⟨by omega, by omega, by simpa using empty, by omega, by omega⟩

/-- What a constructor that succeeds has built. -/
theorem build_ok (built : build mode blake3 soliton container blockLen sessionId = .ok (.ok s)) :
    LtEncoder.tryNew soliton mode container blockLen sessionId.toUInt32 = .ok (.ok s.encoder) ∧
      s.WF blake3 mode container ∧ s.seq = 0 ∧ s.exhausted = false ∧ s.sessionId = sessionId ∧
      s.encoder.blockLen = blockLen := by
  rw [build_eq] at built
  obtain ⟨pos, le, nonempty, total, k_le⟩ := checks_of_tryWithMode built
  rw [tryWithMode_eq pos le nonempty total k_le, exec_bind_eq_ok, modeOfFlags_flags] at built
  obtain ⟨_ | encoder, new, built⟩ := built
  · cases built
  cases built
  obtain ⟨checked, wf, blockLen_eq, sessionId_eq, _⟩ := LtEncoder.tryNew_ok new
  have k_eq := (checkedEncoderK_ok checked).2.2.2.2.1
  have word : container.length < UInt32.size := Nat.lt_of_le_of_lt total (by decide)
  refine ⟨new, ⟨wf, ?_, ?_, ?_, ?_, rfl, rfl⟩, rfl, rfl, rfl, blockLen_eq⟩
  · rw [k_eq]
    exact UInt16.toNat_ofNat_of_lt' (by simp only [UInt16.size]; omega)
  · rw [blockLen_eq]
    exact UInt16.toNat_ofNat_of_lt' (by simp only [UInt16.size]; omega)
  · exact sessionId_eq.symm
  · exact UInt32.toNat_ofNat_of_lt' word

/-- A call emits the frame of the next sequence number, until the last one has
been used. -/
theorem tryNextFrame_ok (wf : s.WF blake3 mode container) (left : s.exhausted = false) :
    ∃ s', s.tryNextFrame blake3 =
        .ok (.ok ⟨s.header blake3 (s.block mode container s.seq), s.block mode container s.seq⟩, s') ∧
      s'.WF blake3 mode container ∧ s.Same s' ∧
      (s.seq.toNat = 2 ^ 32 - 1 → s'.exhausted = true ∧ s'.seq = s.seq) ∧
      (s.seq.toNat ≠ 2 ^ 32 - 1 → s'.exhausted = false ∧ s'.seq = s.seq + 1) := by
  obtain ⟨encoder, encode, encoder_wf, same⟩ := LtEncoder.encode_ok wf.encoder s.seq
  have emitted : s.encoder.encode s.seq = .ok (s.block mode container s.seq, encoder) := encode
  have kept : ∀ seq exhausted,
      ({ s with encoder, seq, exhausted } : Sender).WF blake3 mode container := by
    intro seq exhausted
    exact ⟨encoder_wf, same.k ▸ wf.k_eq, same.blockLen ▸ wf.blockLen_eq,
      same.sessionId ▸ wf.sessionId_eq, wf.totalLen_eq, wf.streamTag_eq, wf.flags_eq⟩
  simp only [tryNextFrame, left, Bool.false_eq_true, ↓reduceIte, emitted, exec_ok_bind]
  by_cases last : s.seq.toNat = 2 ^ 32 - 1
  · rw [if_pos last]
    exact ⟨_, rfl, kept s.seq true, ⟨rfl, same⟩, fun _ => ⟨rfl, rfl⟩, fun other => absurd last other⟩
  · rw [if_neg last]
    refine ⟨_, rfl, ?_, ⟨rfl, same⟩, fun this => absurd this last, fun _ => ⟨rfl, rfl⟩⟩
    exact kept (s.seq + 1) false

/-- An emitted frame is accepted by the parser. -/
theorem WF.parsed (wf : s.WF blake3 mode container) (seq : UInt32) :
    Parsed blake3 (packFrame (s.header blake3 (s.block mode container seq))
      (s.block mode container seq)) (s.header blake3 (s.block mode container seq))
      (s.block mode container seq) := by
  refine ⟨rfl, ⟨?_, ?_, ?_, ?_⟩, ?_, rfl⟩
  · show s.flags = 0 ∨ s.flags = FLAG_SYSTEMATIC ∨ s.flags = FLAG_CAUSAL
    rw [wf.flags_eq]
    cases mode <;> simp [Mode.flags]
  · intro (zero : s.k = 0)
    have := wf.encoder.k_pos
    rw [← wf.k_eq, zero] at this
    exact absurd this (by decide)
  · intro (zero : s.blockLen = 0)
    have := wf.encoder.blockLen_pos
    rw [← wf.blockLen_eq, zero] at this
    exact absurd this (by decide)
  · intro (zero : s.totalLen = 0)
    have := List.length_pos_iff.mpr wf.encoder.nonempty
    rw [← wf.totalLen_eq, zero] at this
    exact absurd this (by decide)
  · show (s.block mode container seq).length = s.blockLen.toNat
    rw [wf.blockLen_eq, block, frameBlock_length]

/-- Any number of calls of `try_next_frame`. -/
inductive Reaches (blake3 : Blake3) : Sender → Sender → Prop
  | refl {s : Sender} : Reaches blake3 s s
  | next {s s' s'' : Sender} {result : Except Error Frame} (calls : Reaches blake3 s s')
      (call : s'.tryNextFrame blake3 = .ok (result, s'')) : Reaches blake3 s s''

/-- `bytes` is the frame with number `seq` that some later call of a sender
emits. -/
def Sent (blake3 : Blake3) (s : Sender) (seq : UInt32) (bytes : List UInt8) : Prop :=
  ∃ s' frame s'', Reaches blake3 s s' ∧ s'.tryNextFrame blake3 = .ok (.ok frame, s'') ∧
    frame.header.seq = seq ∧ bytes = frame.toBytes

theorem reaches_ok (wf : s.WF blake3 mode container) (calls : Reaches blake3 s s') :
    s'.WF blake3 mode container ∧ s.Same s' := by
  induction calls with
  | refl => exact ⟨wf, Same.refl _⟩
  | @next s' s'' _ _ call ih =>
    obtain ⟨wf', same⟩ := ih
    cases left : s'.exhausted with
    | true =>
      rw [tryNextFrame, if_pos left] at call
      cases call
      exact ⟨wf', same⟩
    | false =>
      obtain ⟨s₁, emit, wf₁, same₁, _⟩ := tryNextFrame_ok wf' left
      rw [call] at emit
      cases emit
      exact ⟨wf₁, same.trans same₁⟩

/-- Every frame a sender emits parses back, to the block of its sequence number
and the identity of the sender. -/
theorem sent_ok {seq : UInt32} {bytes : List UInt8} (wf : s.WF blake3 mode container)
    (sent : Sent blake3 s seq bytes) :
    ∃ h, Parsed blake3 bytes h (s.block mode container seq) ∧ h.seq = seq ∧
      streamIdentity h = s.identity := by
  obtain ⟨s', frame, s'', calls, call, rfl, rfl⟩ := sent
  obtain ⟨wf', same⟩ := reaches_ok wf calls
  cases left : s'.exhausted with
  | true =>
    rw [tryNextFrame, if_pos left] at call
    cases call
  | false =>
    obtain ⟨s₁, emit, _⟩ := tryNextFrame_ok wf' left
    rw [call] at emit
    cases emit
    refine ⟨_, ?_, rfl, same.identity⟩
    rw [← same.block]
    exact wf'.parsed s'.seq

end

/-- The sender of the container "ab" as two one-byte blocks, in session 7. -/
def twoBlocks (mode : Mode) : Sender where
  encoder := twoBlocksEncoder mode
  seq := 0
  exhausted := false
  sessionId := 7
  k := 2
  blockLen := 1
  totalLen := 2
  streamTag := 0x9999c92d
  flags := mode.flags

theorem twoBlocks_built (mode : Mode) :
    build mode sampleHash twoBlockSoliton [0x61, 0x62] 1 7 = .ok (.ok (twoBlocks mode)) := by
  have new := twoBlocksEncoder_built mode
  have session : (7 : UInt16).toUInt32 = 7 := rfl
  rw [build_eq, tryWithMode_eq (by decide) (by decide) (by decide) (by decide) (by decide),
    modeOfFlags_flags, session, new]
  rfl

/-- The frames of the causal first phase. -/
def twoBlocksFrame (seq : UInt32) : List UInt8 :=
  packFrame
    { flags := FLAG_CAUSAL, sessionId := 7, seq, k := 2, blockLen := 1, totalLen := 2
      streamTag := 0x9999c92d, frameTag := if seq = 0 then 0x394dc0bf else 0xfaea63ac }
    (if seq = 0 then [0x61] else [0x03])

end Sender

end DeOptiTransfer
