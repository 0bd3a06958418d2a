import DeOptiTransfer.Fountain.Closure
import DeOptiTransfer.Session.Sender

/-!
# The receiver

`Receiver` of `session.rs` locks to the stream of the first frame it can use and
collects the container. What a call has done to its receiver is part of its
result, also when the call fails.

* `Receiver.State`: what holds between calls;
* `tryPush_ok`: every push returns, keeps `State`, and is one of the six kinds
  of `Pushed`.
-/

namespace DeOptiTransfer

structure ReceiverLimits where
  maxStreamBytes : Nat
  maxSourceBlocks : Nat
  maxBlockLen : Nat
  deriving DecidableEq, Repr

def ReceiverLimits.MAXIMUM : ReceiverLimits where
  maxStreamBytes := MAX_STREAM_BYTES
  maxSourceBlocks := MAX_SOURCE_BLOCKS
  maxBlockLen := 65535

structure Receiver where
  decoder : Option LtDecoder
  identity : Option StreamIdentity
  delivered : Bool
  limits : ReceiverLimits

namespace Receiver

def withLimits (limits : ReceiverLimits) : Receiver where
  decoder := none
  identity := none
  delivered := false
  limits

def new : Receiver := withLimits .MAXIMUM

def reset (r : Receiver) : Receiver :=
  { r with decoder := none, identity := none, delivered := false }

/-- The part of `try_push` that compares the identity of a frame, or takes it on
with a new decoder. It has changed nothing where it fails. -/
def lock (soliton : SolitonCdf) (r : Receiver) (h : FrameHeader) :
    Exec (Except Error Receiver) :=
  let id := streamIdentity h
  match r.identity with
  | some active => if active ≠ id then .ok (.error .streamConflict) else .ok (.ok r)
  | none =>
    if h.totalLen.toNat > r.limits.maxStreamBytes ∨ h.k.toNat > r.limits.maxSourceBlocks ∨
        h.blockLen.toNat > r.limits.maxBlockLen then .ok (.error .resourceLimit)
    else do
      let built ← LtDecoder.tryNew soliton (modeOfFlags h.flags) h.k.toNat h.blockLen.toNat
        h.sessionId.toUInt32 h.totalLen.toNat
      match built with
      | .error e => .ok (.error e)
      | .ok decoder => .ok (.ok { r with decoder := some decoder, identity := some id })

/-- The part of `try_push` after the identity is settled. -/
def feed (blake3 : Blake3) (r : Receiver) (h : FrameHeader) (block : List UInt8) :
    Exec (Except Error (Option (List UInt8)) × Receiver) :=
  if r.delivered then .ok (.ok none, r)
  else
    match r.decoder with
    | none => .ok (.error .invalidStream, r)
    | some decoder => do
      let decoder ← decoder.addFrame h.seq block
      let r := { r with decoder := some decoder }
      if ¬ decoder.isComplete then .ok (.ok none, r)
      else
        let container ← decoder.assemble
        match container with
        | none => .ok (.error .invalidStream, r)
        | some container =>
          if checksum32 blake3 container ≠ h.streamTag then
            .ok (.error .corruptFrame, r.reset)
          else .ok (.ok (some container), { r with delivered := true })

def tryPush (blake3 : Blake3) (soliton : SolitonCdf) (r : Receiver) (bytes : List UInt8) :
    Exec (Except Error (Option (List UInt8)) × Receiver) := do
  let parsed ← parseFrame blake3 bytes
  match parsed with
  | none => .ok (.error .corruptFrame, r)
  | some (h, block) =>
    let locked ← r.lock soliton h
    match locked with
    | .error e => .ok (.error e, r)
    | .ok r => r.feed blake3 h block

/-! ## What a push does -/

/-- The decoder of a stream has the parameters of its identity. -/
structure Agrees (id : StreamIdentity) (d : LtDecoder) : Prop where
  k_eq : d.k = id.k.toNat
  blockLen_eq : d.blockLen = id.blockLen.toNat
  sessionId_eq : d.sessionId = id.sessionId.toUInt32
  totalLen_eq : d.totalLen = id.totalLen.toNat
  sysSpan_eq : d.sysSpan = (modeOfFlags id.flags).sysSpan d.k
  causal_eq : d.causal = (modeOfFlags id.flags).isCausal

structure Within (limits : ReceiverLimits) (id : StreamIdentity) : Prop where
  totalLen_le : id.totalLen.toNat ≤ limits.maxStreamBytes
  k_le : id.k.toNat ≤ limits.maxSourceBlocks
  blockLen_le : id.blockLen.toNat ≤ limits.maxBlockLen

/-- A receiver that is locked to `id`, with decoder `d`. -/
def locked (limits : ReceiverLimits) (id : StreamIdentity) (d : LtDecoder) : Receiver where
  decoder := some d
  identity := some id
  delivered := d.isComplete
  limits

/-- A receiver between calls. -/
inductive State : Receiver → Prop
  | idle {limits : ReceiverLimits} : State (withLimits limits)
  | active {limits : ReceiverLimits} {id : StreamIdentity} {d : LtDecoder} {A : Finset UInt32}
      (wf : d.WF (modeOfFlags id.flags) A) (agrees : Agrees id d) (within : Within limits id) :
      State (locked limits id d)

/-- What a push of `bytes` returns and leaves. -/
inductive Pushed (blake3 : Blake3) (soliton : SolitonCdf) (r : Receiver) (bytes : List UInt8) :
    Except Error (Option (List UInt8)) → Receiver → Prop
  | unparsed (rejected : ∀ h block, ¬ Parsed blake3 bytes h block) :
      Pushed blake3 soliton r bytes (.error .corruptFrame) r
  | refused {h : FrameHeader} {block : List UInt8} {e : Error} (parsed : Parsed blake3 bytes h block)
      (lock : r.lock soliton h = .ok (.error e)) : Pushed blake3 soliton r bytes (.error e) r
  | late {h : FrameHeader} {block : List UInt8} (parsed : Parsed blake3 bytes h block)
      (lock : r.lock soliton h = .ok (.ok r)) (delivered : r.delivered = true) :
      Pushed blake3 soliton r bytes (.ok none) r
  | fed {h : FrameHeader} {block : List UInt8} {d d' : LtDecoder}
      (parsed : Parsed blake3 bytes h block)
      (lock : r.lock soliton h = .ok (.ok (locked r.limits (streamIdentity h) d)))
      (waiting : d.isComplete = false) (added : d.addFrame h.seq block = .ok d')
      (unfinished : d'.isComplete = false) :
      Pushed blake3 soliton r bytes (.ok none) (locked r.limits (streamIdentity h) d')
  | mismatched {h : FrameHeader} {block container : List UInt8} {d d' : LtDecoder}
      (parsed : Parsed blake3 bytes h block)
      (lock : r.lock soliton h = .ok (.ok (locked r.limits (streamIdentity h) d)))
      (waiting : d.isComplete = false) (added : d.addFrame h.seq block = .ok d')
      (read : d'.assemble = .ok (some container)) (wrong : checksum32 blake3 container ≠ h.streamTag) :
      Pushed blake3 soliton r bytes (.error .corruptFrame) (withLimits r.limits)
  | delivers {h : FrameHeader} {block container : List UInt8} {d d' : LtDecoder}
      (parsed : Parsed blake3 bytes h block)
      (lock : r.lock soliton h = .ok (.ok (locked r.limits (streamIdentity h) d)))
      (waiting : d.isComplete = false) (added : d.addFrame h.seq block = .ok d')
      (complete : d'.isComplete = true) (read : d'.assemble = .ok (some container))
      (length : container.length = h.totalLen.toNat)
      (tag : checksum32 blake3 container = h.streamTag) :
      Pushed blake3 soliton r bytes (.ok (some container)) (locked r.limits (streamIdentity h) d')

section
variable {blake3 : Blake3} {soliton : SolitonCdf} {r r' : Receiver} {h : FrameHeader}
  {block bytes : List UInt8}

/-- A new decoder waits for frames. -/
theorem unfinished_of_fresh {mode : Mode} {A : Finset UInt32} {d : LtDecoder} (wf : d.WF mode A)
    (fresh : d.Fresh) : d.isComplete = false := by
  rw [← Bool.not_eq_true, LtDecoder.isComplete_iff wf]
  intro all
  have known := all 0 wf.k_pos
  rw [PeelState.Known, LtDecoder.replicate_offset fresh.solved] at known
  cases known

/-- A decoder constructor always returns. -/
theorem tryNew_returns (soliton : SolitonCdf) (mode : Mode) (k blockLen : Nat) (sessionId : UInt32)
    (totalLen : Nat) :
    ∃ built, LtDecoder.tryNew soliton mode k blockLen sessionId totalLen = .ok built := by
  by_cases accepted : LtDecoder.Accepted k blockLen totalLen
  · obtain ⟨d, new, _⟩ := LtDecoder.tryNew_ok soliton mode sessionId accepted
    exact ⟨_, new⟩
  · rw [LtDecoder.tryNew_eq, LtDecoder.tryNewMode]
    by_cases zero : k = 0 ∨ blockLen = 0 ∨ totalLen = 0
    · exact ⟨_, if_pos zero⟩
    by_cases large : k > MAX_SOURCE_BLOCKS ∨ blockLen > 65535
    · exact ⟨_, by rw [if_neg zero, if_pos large]⟩
    by_cases long : totalLen > MAX_STREAM_BYTES
    · exact ⟨_, by rw [if_neg zero, if_neg large, if_pos long]⟩
    by_cases other : k ≠ divCeil totalLen blockLen
    · exact ⟨_, by rw [if_neg zero, if_neg large, if_neg long, if_pos other]⟩
    · exact absurd ⟨by omega, by omega, by omega, by omega, by omega, not_not.mp other⟩ accepted

/-- The decoder taken on for an identity. -/
theorem active_of_tryNew {d : LtDecoder}
    (built : LtDecoder.tryNew soliton (modeOfFlags h.flags) h.k.toNat h.blockLen.toNat
      h.sessionId.toUInt32 h.totalLen.toNat = .ok (.ok d)) :
    d.WF (modeOfFlags h.flags) ∅ ∧ d.isComplete = false ∧ Agrees (streamIdentity h) d := by
  obtain ⟨wf, fresh, k_eq, blockLen_eq, sessionId_eq, totalLen_eq, _⟩ := LtDecoder.built_ok built
  exact ⟨wf, unfinished_of_fresh wf fresh,
    ⟨k_eq, blockLen_eq, sessionId_eq, totalLen_eq, wf.sysSpan_eq, wf.causal_eq⟩⟩

/-- A locked receiver only compares. -/
theorem lock_locked (soliton : SolitonCdf) (limits : ReceiverLimits) (id : StreamIdentity)
    (d : LtDecoder) (h : FrameHeader) :
    (locked limits id d).lock soliton h =
      if id ≠ streamIdentity h then .ok (.error .streamConflict) else .ok (.ok (locked limits id d)) :=
  rfl

/-- Locking leaves a receiver locked to the frame, or fails. -/
theorem lock_ok (soliton : SolitonCdf) (state : State r) (h : FrameHeader) :
    ∃ result, r.lock soliton h = .ok result ∧ ∀ r', result = .ok r' →
      ∃ d A, r' = locked r.limits (streamIdentity h) d ∧ (r' = r ∨ d.isComplete = false) ∧
        d.WF (modeOfFlags h.flags) A ∧ Agrees (streamIdentity h) d ∧
        Within r.limits (streamIdentity h) := by
  cases state with
  | @idle limits =>
    by_cases large : h.totalLen.toNat > limits.maxStreamBytes ∨ h.k.toNat > limits.maxSourceBlocks ∨
        h.blockLen.toNat > limits.maxBlockLen
    · exact ⟨.error .resourceLimit, if_pos large, fun r' eq => by cases eq⟩
    obtain ⟨built, new⟩ := tryNew_returns soliton (modeOfFlags h.flags) h.k.toNat h.blockLen.toNat
      h.sessionId.toUInt32 h.totalLen.toNat
    have within : Within limits (streamIdentity h) := by
      refine ⟨?_, ?_, ?_⟩ <;> simp only [streamIdentity] <;> omega
    simp only [lock, withLimits, large, ↓reduceIte, new, exec_ok_bind]
    cases built with
    | error e => exact ⟨_, rfl, fun r' eq => by cases eq⟩
    | ok d =>
      obtain ⟨wf, waiting, agrees⟩ := active_of_tryNew new
      refine ⟨_, rfl, fun r' eq => ?_⟩
      cases eq
      refine ⟨d, ∅, ?_, Or.inr waiting, wf, agrees, within⟩
      rw [locked, waiting]
  | @active limits id d A wf agrees within =>
    rw [lock_locked]
    by_cases other : id ≠ streamIdentity h
    · exact ⟨.error .streamConflict, if_pos other, fun r' eq => by cases eq⟩
    · obtain rfl := not_not.mp other
      refine ⟨_, if_neg other, fun r' eq => ?_⟩
      cases eq
      exact ⟨d, A, rfl, Or.inl rfl, wf, agrees, within⟩

theorem Agrees.same {id : StreamIdentity} {d d' : LtDecoder} (agrees : Agrees id d)
    (same : d.Same d') : Agrees id d' := by
  rw [same]
  exact ⟨agrees.k_eq, agrees.blockLen_eq, agrees.sessionId_eq, agrees.totalLen_eq,
    agrees.sysSpan_eq, agrees.causal_eq⟩

/-- A complete decoder takes no more frames. -/
theorem feed_complete {limits : ReceiverLimits} {id : StreamIdentity} {d : LtDecoder}
    (complete : d.isComplete = true) :
    (locked limits id d).feed blake3 h block = .ok (.ok none, locked limits id d) := by
  rw [feed, if_pos (by exact complete)]

/-- A waiting receiver takes the frame, and delivers when its decoder is
complete. -/
theorem feed_waiting (blake3 : Blake3) (limits : ReceiverLimits) (id : StreamIdentity)
    {d : LtDecoder} {A : Finset UInt32} (wf : d.WF (modeOfFlags id.flags) A) (waiting : d.isComplete = false)
    (seq : UInt32) (block : List UInt8) :
    ∃ d' A', d.addFrame seq block = .ok d' ∧ d'.WF (modeOfFlags id.flags) A' ∧ d.Same d' ∧
      ∀ h : FrameHeader, h.seq = seq →
        (d'.isComplete = false ∧ (locked limits id d).feed blake3 h block =
          .ok (.ok none, locked limits id d')) ∨
        ∃ container, d'.isComplete = true ∧ d'.assemble = .ok (some container) ∧
          container.length = d.totalLen ∧ (locked limits id d).feed blake3 h block =
            if checksum32 blake3 container ≠ h.streamTag then
              .ok (.error .corruptFrame, withLimits limits)
            else .ok (.ok (some container), locked limits id d') := by
  obtain ⟨d', A', added, wf', step⟩ := LtDecoder.addFrame_ok wf seq block
  refine ⟨d', A', added, wf', step.same, ?_⟩
  rintro h rfl
  obtain ⟨out, read, _, full⟩ := LtDecoder.assemble_ok wf'
  cases complete : d'.isComplete with
  | false =>
    refine Or.inl ⟨rfl, ?_⟩
    simp [feed, locked, waiting, added, complete]
  | true =>
    obtain ⟨container, rfl, length⟩ := full complete
    refine Or.inr ⟨container, rfl, read, ?_, ?_⟩
    · rw [length, step.same]
    · simp [feed, locked, waiting, added, complete, read, reset, withLimits]

theorem tryPush_of_lock {r₁ : Receiver} (parse : parseFrame blake3 bytes = .ok (some (h, block)))
    (lock : r.lock soliton h = .ok (.ok r₁)) :
    r.tryPush blake3 soliton bytes = r₁.feed blake3 h block := by
  simp only [tryPush, parse, exec_ok_bind, lock]

/-- Every push returns and is one of the six kinds. -/
theorem tryPush_ok (blake3 : Blake3) (soliton : SolitonCdf) (state : State r) (bytes : List UInt8) :
    ∃ result r', r.tryPush blake3 soliton bytes = .ok (result, r') ∧ State r' ∧
      Pushed blake3 soliton r bytes result r' := by
  rcases parseFrame_cases blake3 bytes with ⟨parse, rejected⟩ | ⟨h, block, parse, parsed⟩
  · exact ⟨.error .corruptFrame, r, by rw [tryPush, parse]; rfl, state, .unparsed rejected⟩
  · obtain ⟨result, lock, settled⟩ := lock_ok soliton state h
    cases result with
    | error e =>
      exact ⟨.error e, r, by simp only [tryPush, parse, exec_ok_bind, lock], state,
        .refused parsed lock⟩
    | ok r₁ =>
      obtain ⟨d, A, rfl, new, wf, agrees, within⟩ := settled r₁ rfl
      rw [tryPush_of_lock parse lock]
      cases waiting : d.isComplete with
      | true =>
        have same : locked r.limits (streamIdentity h) d = r := by
          rw [waiting] at new
          exact new.resolve_right (by simp)
        refine ⟨.ok none, r, ?_, state, .late parsed (same ▸ lock) ?_⟩
        · rw [feed_complete waiting, same]
        · rw [← same]
          exact waiting
      | false =>
        obtain ⟨d', A', added, wf', same, calls⟩ := feed_waiting blake3 r.limits
          (streamIdentity h) wf waiting h.seq block
        have state' : State (locked r.limits (streamIdentity h) d') :=
          .active wf' (agrees.same same) within
        rcases calls h rfl with ⟨unfinished, feed⟩ | ⟨container, complete, read, length, feed⟩
        · exact ⟨_, _, feed, state', .fed parsed lock waiting added unfinished⟩
        · by_cases tag : checksum32 blake3 container = h.streamTag
          · refine ⟨_, _, by rw [feed, if_neg (not_not.mpr tag)], state', ?_⟩
            exact .delivers parsed lock waiting added complete read
              (length.trans agrees.totalLen_eq) tag
          · refine ⟨_, _, by rw [feed, if_pos tag], .idle, ?_⟩
            exact .mismatched parsed lock waiting added read tag

end

end Receiver

end DeOptiTransfer
