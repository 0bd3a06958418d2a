import DeOptiTransfer.Session.Sender

/-!
# Sequence numbers

Any number of calls of `try_next_frame`.

* `calls_ok`: the counter after each of them;
* `sequence_discipline`: call `n` emits frame `n`, until the sequence numbers
  are used up.
-/

namespace DeOptiTransfer.Sender

/-- The sender after `n` calls of `try_next_frame`. -/
def calls (blake3 : Blake3) (s : Sender) : Nat → Exec Sender
  | 0 => .ok s
  | n + 1 => do
    let s ← s.calls blake3 n
    let (_, s) ← s.tryNextFrame blake3
    .ok s

/-- The counter of a sender that `n` calls have been made of. -/
structure Counts (n : Nat) (s : Sender) : Prop where
  running : n < 2 ^ 32 → s.exhausted = false ∧ s.seq.toNat = n
  stopped : 2 ^ 32 ≤ n → s.exhausted = true

section
variable {blake3 : Blake3} {soliton : SolitonCdf} {mode : Mode} {container : List UInt8}
  {s s' : Sender} {n : Nat}

theorem tryNextFrame_exhausted (stop : s.exhausted = true) :
    s.tryNextFrame blake3 = .ok (.error .sequenceExhausted, s) :=
  if_pos stop

theorem Counts.step (wf : s.WF blake3 mode container) (counts : Counts n s) :
    ∃ result s', s.tryNextFrame blake3 = .ok (result, s') ∧ s'.WF blake3 mode container ∧
      s.Same s' ∧ Counts (n + 1) s' := by
  by_cases running : n < 2 ^ 32
  · obtain ⟨left, seq_eq⟩ := counts.running running
    obtain ⟨s', emit, wf', same, last, next⟩ := tryNextFrame_ok wf left
    refine ⟨_, s', emit, wf', same, ?_, ?_⟩
    · intro more
      obtain ⟨left', seq_eq'⟩ := next (by omega)
      refine ⟨left', ?_⟩
      rw [seq_eq', UInt32.toNat_add, seq_eq]
      exact Nat.mod_eq_of_lt more
    · intro done
      exact (last (by omega)).1
  · have stop := counts.stopped (by omega)
    refine ⟨_, s, tryNextFrame_exhausted stop, wf, Same.refl s, ?_, fun _ => stop⟩
    intro more
    omega

/-- The counter is the number of calls, up to the last sequence number. -/
theorem calls_ok (wf : s.WF blake3 mode container) (fresh : s.exhausted = false) (zero : s.seq = 0)
    (n : Nat) :
    ∃ s', s.calls blake3 n = .ok s' ∧ s'.WF blake3 mode container ∧ s.Same s' ∧ Counts n s' := by
  induction n with
  | zero =>
    refine ⟨s, rfl, wf, Same.refl s, fun _ => ⟨fresh, ?_⟩, fun done => by omega⟩
    rw [zero]
    rfl
  | succ n ih =>
    obtain ⟨s₁, run, wf₁, same₁, counts₁⟩ := ih
    obtain ⟨result, s', call, wf', same', counts'⟩ := counts₁.step wf₁
    refine ⟨s', ?_, wf', same₁.trans same', counts'⟩
    simp only [calls, run, exec_ok_bind, call]

theorem calls_reaches {n : Nat} (run : s.calls blake3 n = .ok s') : Reaches blake3 s s' := by
  induction n generalizing s' with
  | zero =>
    cases run
    exact .refl
  | succ n ih =>
    obtain ⟨before, run, last⟩ := exec_bind_eq_ok.mp run
    obtain ⟨⟨result, after⟩, call, last⟩ := exec_bind_eq_ok.mp last
    cases last
    exact .next (ih run) call

theorem exists_sent {blockLen : Nat} {sessionId : UInt16}
    (built : build mode blake3 soliton container blockLen sessionId = .ok (.ok s)) (seq : UInt32) :
    ∃ bytes, s.Sent blake3 seq bytes := by
  obtain ⟨_, wf, zero, fresh, _⟩ := build_ok built
  obtain ⟨before, run, wf', _, counts⟩ := calls_ok wf fresh zero seq.toNat
  obtain ⟨left, seq_eq⟩ := counts.running seq.toNat_lt
  obtain ⟨after, emit, _⟩ := tryNextFrame_ok wf' left
  exact ⟨_, before, _, after, calls_reaches run, emit, UInt32.toNat_inj.mp seq_eq, rfl⟩

/-- Call `n` emits frame `n`. It parses back to itself, with the identity of the
sender; after the last sequence number every call is refused and changes
nothing. -/
theorem sequence_discipline (blake3 : Blake3) (soliton : SolitonCdf) (mode : Mode)
    (container : List UInt8) (blockLen : Nat) (sessionId : UInt16) (s : Sender)
    (built : build mode blake3 soliton container blockLen sessionId = .ok (.ok s)) (n : Nat) :
    ∃ before, s.calls blake3 n = .ok before ∧
      (n < 2 ^ 32 → ∃ frame after, before.tryNextFrame blake3 = .ok (.ok frame, after) ∧
        frame.header.seq.toNat = n ∧
        parseFrame blake3 frame.toBytes = .ok (some (frame.header, frame.block)) ∧
        streamIdentity frame.header = s.identity) ∧
      (2 ^ 32 ≤ n → before.tryNextFrame blake3 = .ok (.error .sequenceExhausted, before)) := by
  obtain ⟨_, wf, zero, fresh, _⟩ := build_ok built
  obtain ⟨before, run, wf', same, counts⟩ := calls_ok wf fresh zero n
  refine ⟨before, run, ?_, fun done => tryNextFrame_exhausted (counts.stopped done)⟩
  intro running
  obtain ⟨left, seq_eq⟩ := counts.running running
  obtain ⟨after, emit, _⟩ := tryNextFrame_ok wf' left
  exact ⟨_, after, emit, seq_eq, parseFrame_eq_some_iff.mpr (wf'.parsed before.seq), same.identity⟩

end

theorem sequence_discipline_twoBlocks :
    ∃ before, (twoBlocks .causal).calls sampleHash 1 = .ok before ∧
      (1 < 2 ^ 32 → ∃ frame after, before.tryNextFrame sampleHash = .ok (.ok frame, after) ∧
        frame.header.seq.toNat = 1 ∧
        parseFrame sampleHash frame.toBytes = .ok (some (frame.header, frame.block)) ∧
        streamIdentity frame.header = (twoBlocks .causal).identity) ∧
      (2 ^ 32 ≤ 1 → before.tryNextFrame sampleHash = .ok (.error .sequenceExhausted, before)) :=
  sequence_discipline sampleHash twoBlockSoliton .causal [0x61, 0x62] 1 7 _ (twoBlocks_built .causal) 1

end DeOptiTransfer.Sender
