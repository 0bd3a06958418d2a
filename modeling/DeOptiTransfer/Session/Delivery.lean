import DeOptiTransfer.Fountain.FirstPhase
import DeOptiTransfer.Session.ReceiverRuns

/-!
# Delivery

A receiver is given frames of one sender, in any order, with losses and
repetitions, among strings that do not parse and frames of other streams.
`delivery_run`: it takes every frame of the sender, never starts over, and delivers
the container and nothing else.
-/

namespace DeOptiTransfer

/-- A string that is no frame of the stream of `s`. -/
def Sender.Foreign (blake3 : Blake3) (s : Sender) (bytes : List UInt8) : Prop :=
  ∀ h block, parseFrame blake3 bytes = .ok (some (h, block)) → streamIdentity h ≠ s.identity

/-- All frames of the first phase are among `inputs`. -/
def Sender.Collected (blake3 : Blake3) (s : Sender) (inputs : List (List UInt8)) : Prop :=
  ∀ seq : UInt32, seq.toNat < s.k.toNat → ∃ bytes ∈ inputs, s.Sent blake3 seq bytes

/-- The first frame that parses, if there is one, comes from `s`. -/
def Sender.Leads (blake3 : Blake3) (s : Sender) (inputs : List (List UInt8)) : Prop :=
  ∀ before bytes after, inputs = before ++ bytes :: after →
    (∀ b ∈ before, parseFrame blake3 b = .ok none) → parseFrame blake3 bytes ≠ .ok none →
      ∃ seq, s.Sent blake3 seq bytes

namespace Receiver

abbrev Push := Event Receiver (List UInt8) (Except Error (Option (List UInt8)))

/-- A receiver that has taken the frames `A` of `s` and nothing else. -/
inductive Linked (mode : Mode) (container : List UInt8) (limits : ReceiverLimits) (s : Sender) :
    Finset UInt32 → Receiver → Prop
  | idle : Linked mode container limits s ∅ (withLimits limits)
  | active {A : Finset UInt32} {d : LtDecoder} (m : Matched mode container A s.encoder d) :
      Linked mode container limits s A (locked limits s.identity d)

/-- What holds of every push. -/
structure Serves (blake3 : Blake3) (soliton : SolitonCdf) (container : List UInt8) (s : Sender)
    (e : Push) : Prop where
  taken : ∀ seq, s.Sent blake3 seq e.input → ∃ c, e.output = .ok c
  tag : ¬ WrongTag blake3 soliton e.before e.input
  delivers : ∀ c, e.output = .ok (some c) ↔
    c = container ∧ e.before.delivered = false ∧ e.after.delivered = true
  stays : e.before.delivered = true → e.after.delivered = true

section
variable {blake3 : Blake3} {soliton : SolitonCdf} {mode : Mode} {container bytes : List UInt8}
  {limits : ReceiverLimits} {s : Sender} {A : Finset UInt32} {r : Receiver} {seq : UInt32}
  {d₀ : LtDecoder}

theorem genuine_eq {d : LtDecoder} (m : Matched mode container A s.encoder d) (seq : UInt32) :
    genuine mode container d seq = s.block mode container seq := by
  rw [genuine, Sender.block, m.blockLen_eq, m.cdf_eq, m.sessionId_eq]

theorem matched_k {d : LtDecoder} (m : Matched mode container A s.encoder d) :
    d.k = s.encoder.k := by
  rw [m.decoder.k_eq, m.encoder.k_eq, m.blockLen_eq, m.totalLen_eq]

theorem Linked.lock {h : FrameHeader} (linked : Linked mode container limits s A r)
    (wf : s.WF blake3 mode container) (admitted : Within limits s.identity)
    (new : LtDecoder.tryNew soliton mode s.encoder.k s.encoder.blockLen s.encoder.sessionId
      container.length = .ok (.ok d₀))
    (m₀ : Matched mode container ∅ s.encoder d₀) (same : streamIdentity h = s.identity) :
    ∃ d, r.lock soliton h = .ok (.ok (locked limits s.identity d)) ∧
      Matched mode container A s.encoder d ∧ r.delivered = d.isComplete := by
  cases linked with
  | idle =>
    obtain ⟨_, fresh, _⟩ := LtDecoder.built_ok new
    have waiting := unfinished_of_fresh m₀.decoder fresh
    have flags : h.flags = mode.flags := (congrArg StreamIdentity.flags same).trans wf.flags_eq
    have k : h.k = s.k := congrArg StreamIdentity.k same
    have blockLen : h.blockLen = s.blockLen := congrArg StreamIdentity.blockLen same
    have sessionId : h.sessionId = s.sessionId := congrArg StreamIdentity.sessionId same
    have totalLen : h.totalLen = s.totalLen := congrArg StreamIdentity.totalLen same
    have small : ¬ (container.length > limits.maxStreamBytes ∨
        s.encoder.k > limits.maxSourceBlocks ∨ s.encoder.blockLen > limits.maxBlockLen) := by
      rw [← wf.totalLen_eq, ← wf.k_eq, ← wf.blockLen_eq]
      have := admitted.totalLen_le
      have := admitted.k_le
      have := admitted.blockLen_le
      simp only [Sender.identity] at *
      omega
    refine ⟨d₀, ?_, m₀, waiting.symm⟩
    simp only [Receiver.lock, withLimits, flags, modeOfFlags_flags, k, blockLen, sessionId, totalLen,
      wf.k_eq, wf.blockLen_eq, wf.sessionId_eq, wf.totalLen_eq, small, ↓reduceIte, new, exec_ok_bind,
      locked, waiting, same]
  | @active A d m =>
    exact ⟨d, by rw [lock_locked, if_neg (by simp [same])], m, rfl⟩

/-- What a matched decoder gives has the tag of the stream. -/
theorem no_wrong_tag {h : FrameHeader} {d : LtDecoder} (wf : s.WF blake3 mode container)
    (parsed : Parsed blake3 bytes h (s.block mode container h.seq))
    (same : streamIdentity h = s.identity)
    (lock : r.lock soliton h = .ok (.ok (locked limits s.identity d)))
    (m : Matched mode container A s.encoder d) : ¬ WrongTag blake3 soliton r bytes := by
  rintro ⟨h', block, d₁, d', c, parsed', lock', added, read, wrong⟩
  have frame := (parseFrame_eq_some_iff.mpr parsed').symm.trans (parseFrame_eq_some_iff.mpr parsed)
  cases frame
  rw [lock] at lock'
  obtain rfl : d = d₁ :=
    Option.some.inj (congrArg Receiver.decoder (Except.ok.inj (Except.ok.inj lock')))
  obtain ⟨d'', A', call, wf', step⟩ :=
    LtDecoder.addFrame_ok m.decoder h.seq (genuine mode container d h.seq)
  rw [genuine_eq m, added] at call
  cases call
  have m' := m.step wf' step
  have complete : d'.isComplete = true := by
    by_contra unfinished
    obtain ⟨out, read', none, _⟩ := LtDecoder.assemble_ok wf'
    rw [none (by simpa using unfinished), read] at read'
    cases read'
  rw [LtDecoder.assemble_payload wf' m'.totalLen_eq m'.values complete] at read
  cases read
  exact wrong (wf.streamTag_eq.symm.trans (congrArg StreamIdentity.streamTag same).symm)

theorem Linked.push_sent (linked : Linked mode container limits s A r)
    (wf : s.WF blake3 mode container) (admitted : Within limits s.identity)
    (new : LtDecoder.tryNew soliton mode s.encoder.k s.encoder.blockLen s.encoder.sessionId
      container.length = .ok (.ok d₀))
    (m₀ : Matched mode container ∅ s.encoder d₀) (sent : s.Sent blake3 seq bytes) :
    ∃ result r' A', r.tryPush blake3 soliton bytes = .ok (result, r') ∧
      Linked mode container limits s A' r' ∧ r'.identity = some s.identity ∧
      Serves blake3 soliton container s ⟨r, bytes, result, r'⟩ ∧ A ⊆ A' ∧ A' ⊆ insert seq A ∧
      (mode ≠ .rsd → A ⊆ firstPhase s.encoder.k → seq.toNat < s.encoder.k →
        r'.delivered = true ∨ seq ∈ A') := by
  obtain ⟨h, parsed, rfl, same⟩ := Sender.sent_ok wf sent
  obtain ⟨d, lock, m, waits⟩ := linked.lock wf admitted new m₀ same
  have tag := no_wrong_tag wf parsed same lock m
  rw [tryPush_of_lock (parseFrame_eq_some_iff.mpr parsed) lock]
  cases waiting : d.isComplete with
  | true =>
    refine ⟨_, _, A, feed_complete waiting, .active m, rfl, ⟨?_, tag, ?_, ?_⟩,
      Finset.Subset.refl A, Finset.subset_insert _ A, fun _ _ _ => Or.inl waiting⟩
    · exact fun _ _ => ⟨none, rfl⟩
    · intro c
      simp [waits, waiting]
    · exact fun _ => waiting
  | false =>
    obtain ⟨d', A', added, wf', step⟩ :=
      LtDecoder.addFrame_ok m.decoder h.seq (genuine mode container d h.seq)
    have m' := m.step wf' step
    have mode_eq : modeOfFlags s.identity.flags = mode := by
      rw [Sender.identity, wf.flags_eq, modeOfFlags_flags]
    obtain ⟨_, _, added', _, _, calls⟩ := feed_waiting blake3 limits s.identity
      (mode_eq ▸ m.decoder) waiting h.seq (genuine mode container d h.seq)
    rw [added] at added'
    cases added'
    have grows : A' ⊆ insert h.seq A := by
      rcases step.cases_accepted with ⟨rfl, _⟩ | ⟨rfl, _⟩
      · exact Finset.subset_insert _ _
      · exact Finset.Subset.refl _
    have collects : mode ≠ .rsd → A ⊆ firstPhase s.encoder.k → h.seq.toNat < s.encoder.k →
        d'.isComplete = true ∨ h.seq ∈ A' := by
      intro phase sub lt
      rw [← matched_k m] at sub lt
      exact (step.accepted m.decoder wf' (frameBlock_length ..) fun _ fresh =>
        LtDecoder.first_phase_room m.decoder phase sub lt fresh).1
    rw [← genuine_eq m]
    rcases calls h rfl with ⟨unfinished, feed⟩ | ⟨c, complete, read, _, feed⟩
    · refine ⟨_, _, A', feed, .active m', rfl, ⟨fun _ _ => ⟨none, rfl⟩, tag, ?_, ?_⟩, step.sub, grows,
        collects⟩
      · intro c
        simp [locked, unfinished]
      · simp [waits, waiting]
    · rw [LtDecoder.assemble_payload wf' m'.totalLen_eq m'.values complete] at read
      cases read
      rw [if_neg (by
        rw [not_not, ← wf.streamTag_eq]
        exact (congrArg StreamIdentity.streamTag same).symm)] at feed
      refine ⟨_, _, A', feed, .active m', rfl, ⟨fun _ _ => ⟨_, rfl⟩, tag, ?_, ?_⟩, step.sub, grows,
        collects⟩
      · intro c
        simp [locked, complete, waits, waiting, eq_comm]
      · simp [waits, waiting]

/-- A string that is no frame of the stream changes nothing. -/
theorem Linked.push_foreign (soliton : SolitonCdf) (linked : Linked mode container limits s A r)
    (foreign : s.Foreign blake3 bytes) (unsent : ∀ seq, ¬ s.Sent blake3 seq bytes)
    (start : r.identity = none → parseFrame blake3 bytes = .ok none) :
    ∃ err, r.tryPush blake3 soliton bytes = .ok (.error err, r) ∧
      Serves blake3 soliton container s ⟨r, bytes, .error err, r⟩ := by
  have serves : ¬ WrongTag blake3 soliton r bytes → ∀ err,
      Serves blake3 soliton container s ⟨r, bytes, .error err, r⟩ := by
    intro tag err
    refine ⟨fun seq sent => absurd sent (unsent seq), tag, fun c => ?_, id⟩
    simp only [reduceCtorEq, false_iff, not_and]
    intro _ waiting delivered
    rw [waiting] at delivered
    cases delivered
  rcases parseFrame_cases blake3 bytes with ⟨parse, rejected⟩ | ⟨h, block, parse, parsed⟩
  · refine ⟨.corruptFrame, by rw [tryPush, parse]; rfl, serves ?_ _⟩
    rintro ⟨h, block, _, _, _, parsed, _⟩
    exact rejected h block parsed
  · cases linked with
    | idle =>
      have := start rfl
      rw [parse] at this
      cases this
    | @active A d m =>
      have other := foreign h block parse
      have lock : (locked limits s.identity d).lock soliton h = .ok (.error .streamConflict) := by
        rw [lock_locked, if_pos (by exact fun eq => other eq.symm)]
      refine ⟨.streamConflict, by simp only [tryPush, parse, exec_ok_bind, lock], serves ?_ _⟩
      rintro ⟨h', block', _, _, _, parsed', lock', _⟩
      have frame := (parseFrame_eq_some_iff.mpr parsed').symm.trans parse
      cases frame
      rw [lock] at lock'
      cases lock'

/-! ## Whole runs -/

theorem leads_tail {rest : List (List UInt8)} (leads : s.Leads blake3 (bytes :: rest))
    (parse : parseFrame blake3 bytes = .ok none) : s.Leads blake3 rest := by
  intro before b after split junk parsed
  refine leads (bytes :: before) b after (by rw [split]; rfl) ?_ parsed
  intro b' mem
  rcases List.mem_cons.mp mem with rfl | mem
  · exact parse
  · exact junk b' mem

theorem leads_prefix {xs ys : List (List UInt8)} (leads : s.Leads blake3 (xs ++ ys)) :
    s.Leads blake3 xs := by
  intro before b after split
  exact leads before b (after ++ ys) (by rw [split]; simp)

/-- A string is one frame, so it has one number. -/
theorem sent_unique {seq' : UInt32} (wf : s.WF blake3 mode container)
    (sent : s.Sent blake3 seq bytes) (sent' : s.Sent blake3 seq' bytes) : seq' = seq := by
  obtain ⟨h, parsed, rfl, _⟩ := Sender.sent_ok wf sent
  obtain ⟨h', parsed', rfl, _⟩ := Sender.sent_ok wf sent'
  have frame := (parseFrame_eq_some_iff.mpr parsed').symm.trans (parseFrame_eq_some_iff.mpr parsed)
  exact congrArg FrameHeader.seq (congrArg Prod.fst (Option.some.inj (Except.ok.inj frame)))

/-- What a run over `inputs` leads to from `r`, which has taken the frames `A`. -/
structure Ran (blake3 : Blake3) (soliton : SolitonCdf) (mode : Mode) (container : List UInt8)
    (limits : ReceiverLimits) (s : Sender) (A : Finset UInt32) (r : Receiver)
    (inputs : List (List UInt8)) (t : List Push) (A' : Finset UInt32) (r' : Receiver) : Prop where
  linked : Linked mode container limits s A' r'
  serves : ∀ e ∈ t, Serves blake3 soliton container s e
  grows : A ⊆ A'
  source : ∀ seq ∈ A', seq ∈ A ∨ ∃ bytes ∈ inputs, s.Sent blake3 seq bytes
  stays : r.delivered = true → r'.delivered = true
  collects : mode ≠ .rsd → A ⊆ firstPhase s.encoder.k →
    (∀ bytes ∈ inputs, ∀ seq, s.Sent blake3 seq bytes → seq.toNat < s.encoder.k) →
      r'.delivered = true ∨ ∀ bytes ∈ inputs, ∀ seq, s.Sent blake3 seq bytes → seq ∈ A'

section
variable {rest : List (List UInt8)} {t : List Push} {A₁ A' : Finset UInt32} {r₁ r' : Receiver}
  {result : Except Error (Option (List UInt8))}

theorem Ran.cons_sent (wf : s.WF blake3 mode container) (sent : s.Sent blake3 seq bytes)
    (first : Serves blake3 soliton container s ⟨r, bytes, result, r₁⟩) (grows : A ⊆ A₁)
    (few : A₁ ⊆ insert seq A)
    (collects : mode ≠ .rsd → A ⊆ firstPhase s.encoder.k → seq.toNat < s.encoder.k →
      r₁.delivered = true ∨ seq ∈ A₁)
    (ran : Ran blake3 soliton mode container limits s A₁ r₁ rest t A' r') :
    Ran blake3 soliton mode container limits s A r (bytes :: rest) (⟨r, bytes, result, r₁⟩ :: t)
      A' r' := by
  refine ⟨ran.linked, ?_, grows.trans ran.grows, ?_, fun done => ran.stays (first.stays done), ?_⟩
  · intro e mem
    rcases List.mem_cons.mp mem with rfl | mem
    · exact first
    · exact ran.serves e mem
  · intro seq' mem
    rcases ran.source seq' mem with mem | ⟨b, mem, sent'⟩
    · rcases Finset.mem_insert.mp (few mem) with rfl | mem
      · exact Or.inr ⟨bytes, by simp, sent⟩
      · exact Or.inl mem
    · exact Or.inr ⟨b, by simp [mem], sent'⟩
  · intro phase sub inPhase
    have lt := inPhase bytes (by simp) seq sent
    have sub₁ : A₁ ⊆ firstPhase s.encoder.k :=
      few.trans (Finset.insert_subset ((mem_firstPhase wf.encoder.k_le).mpr lt) sub)
    rcases collects phase sub lt with done | mem
    · exact Or.inl (ran.stays done)
    rcases ran.collects phase sub₁ fun b hb => inPhase b (by simp [hb]) with done | taken
    · exact Or.inl done
    · apply Or.inr
      intro b hb seq' sent'
      rcases List.mem_cons.mp hb with rfl | hb
      · rw [sent_unique wf sent sent']
        exact ran.grows mem
      · exact taken b hb seq' sent'

theorem Ran.cons_foreign (unsent : ∀ seq, ¬ s.Sent blake3 seq bytes)
    (first : Serves blake3 soliton container s ⟨r, bytes, result, r⟩)
    (ran : Ran blake3 soliton mode container limits s A r rest t A' r') :
    Ran blake3 soliton mode container limits s A r (bytes :: rest) (⟨r, bytes, result, r⟩ :: t)
      A' r' := by
  refine ⟨ran.linked, ?_, ran.grows, ?_, ran.stays, ?_⟩
  · intro e mem
    rcases List.mem_cons.mp mem with rfl | mem
    · exact first
    · exact ran.serves e mem
  · intro seq' mem
    rcases ran.source seq' mem with mem | ⟨b, mem, sent'⟩
    · exact Or.inl mem
    · exact Or.inr ⟨b, by simp [mem], sent'⟩
  · intro phase sub inPhase
    rcases ran.collects phase sub fun b hb => inPhase b (by simp [hb]) with done | taken
    · exact Or.inl done
    · apply Or.inr
      intro b hb seq' sent'
      rcases List.mem_cons.mp hb with rfl | hb
      · exact absurd sent' (unsent seq')
      · exact taken b hb seq' sent'

end

/-- A run of a linked receiver takes the frames of the sender and nothing else.
First-phase frames are all accepted. -/
theorem Linked.run (linked : Linked mode container limits s A r)
    (wf : s.WF blake3 mode container) (admitted : Within limits s.identity)
    (new : LtDecoder.tryNew soliton mode s.encoder.k s.encoder.blockLen s.encoder.sessionId
      container.length = .ok (.ok d₀))
    (m₀ : Matched mode container ∅ s.encoder d₀) (inputs : List (List UInt8))
    (each : ∀ bytes ∈ inputs, (∃ seq, s.Sent blake3 seq bytes) ∨ s.Foreign blake3 bytes)
    (start : r.identity = none → s.Leads blake3 inputs) :
    ∃ t r' A', trace (tryPush blake3 soliton) r inputs = .ok (t, r') ∧
      Ran blake3 soliton mode container limits s A r inputs t A' r' := by
  induction inputs generalizing r A with
  | nil =>
    exact ⟨[], r, A, rfl, linked, by simp, Finset.Subset.refl A, fun seq mem => Or.inl mem, id,
      fun _ _ _ => Or.inr (by simp)⟩
  | cons bytes rest ih =>
    have each' : ∀ b ∈ rest, (∃ seq, s.Sent blake3 seq b) ∨ s.Foreign blake3 b :=
      fun b mem => each b (by simp [mem])
    by_cases sent : ∃ seq, s.Sent blake3 seq bytes
    · obtain ⟨seq, sent⟩ := sent
      obtain ⟨result, r₁, A₁, push, linked₁, active, serves, grows, few, collects⟩ :=
        linked.push_sent wf admitted new m₀ sent
      obtain ⟨t, r', A', run, ran⟩ :=
        ih linked₁ each' (fun idle => by rw [active] at idle; cases idle)
      exact ⟨_, r', A', trace_cons push run, ran.cons_sent wf sent serves grows few collects⟩
    · have unsent : ∀ seq, ¬ s.Sent blake3 seq bytes := fun seq h => sent ⟨seq, h⟩
      have foreign := (each bytes (by simp)).resolve_left sent
      have junk : r.identity = none → parseFrame blake3 bytes = .ok none := by
        intro idle
        by_contra parsed
        exact sent (start idle [] bytes rest rfl (by simp) parsed)
      obtain ⟨err, push, serves⟩ := linked.push_foreign soliton foreign unsent junk
      obtain ⟨t, r', A', run, ran⟩ := ih linked each' fun idle => leads_tail (start idle) (junk idle)
      exact ⟨_, r', A', trace_cons push run, ran.cons_foreign unsent serves⟩

theorem deliveries_run {t : List Push} {r r' : Receiver} {inputs : List (List UInt8)}
    (run : trace (tryPush blake3 soliton) r inputs = .ok (t, r'))
    (serves : ∀ e ∈ t, Serves blake3 soliton container s e) :
    (r.delivered = true → deliveries t = []) ∧
      (deliveries t = [] ∨ deliveries t = [container]) := by
  induction t generalizing r inputs with
  | nil => exact ⟨fun _ => rfl, Or.inl rfl⟩
  | cons e t ih =>
    obtain ⟨rest, _, rfl, _, calls⟩ := trace_eq_cons run
    obtain ⟨silent, few⟩ := ih calls fun e' mem => serves e' (by simp [mem])
    have serve := serves e (by simp)
    cases out : delivery e with
    | none =>
      rw [deliveries, List.filterMap_cons_none out]
      exact ⟨fun done => silent (serve.stays done), few⟩
    | some c =>
      obtain ⟨rfl, waiting, done⟩ := (serve.delivers c).mp (delivery_eq_some.mp out)
      have rest_nil := silent done
      rw [deliveries] at rest_nil
      rw [deliveries, List.filterMap_cons_some out, rest_nil]
      refine ⟨fun done => ?_, Or.inr rfl⟩
      rw [waiting] at done
      cases done

theorem Linked.collected {inputs : List (List UInt8)} {r' : Receiver}
    (linked : Linked mode container limits s A r') (wf : s.WF blake3 mode container)
    (phase : mode ≠ .rsd)
    (first : ∀ bytes ∈ inputs, ∀ seq, s.Sent blake3 seq bytes → seq.toNat < s.encoder.k)
    (source : ∀ seq ∈ A, ∃ bytes ∈ inputs, s.Sent blake3 seq bytes)
    (taken : r'.delivered = true ∨ ∀ bytes ∈ inputs, ∀ seq, s.Sent blake3 seq bytes → seq ∈ A) :
    r'.delivered = true ↔ s.Collected blake3 inputs := by
  have sub : A ⊆ firstPhase s.encoder.k := by
    intro seq mem
    obtain ⟨bytes, mem, sent⟩ := source seq mem
    exact (mem_firstPhase wf.encoder.k_le).mpr (first bytes mem seq sent)
  rw [Sender.Collected, wf.k_eq]
  cases linked with
  | idle =>
    constructor
    · intro done
      cases done
    · intro all
      obtain ⟨bytes, mem, sent⟩ := all 0 wf.encoder.k_pos
      rcases taken with done | taken
      · exact done
      · exact absurd (taken bytes mem 0 sent) (Finset.notMem_empty 0)
  | @active A d m =>
    have complete := LtDecoder.complete_iff_first_phase m.decoder phase (matched_k m ▸ sub)
    rw [matched_k m] at complete
    constructor
    · intro done seq lt
      exact source seq (complete.mp done seq lt)
    · intro all
      rcases taken with done | taken
      · exact done
      · refine complete.mpr fun seq lt => ?_
        obtain ⟨bytes, mem, sent⟩ := all seq lt
        exact taken bytes mem seq sent

/-- A fresh receiver that is given the frames of one sender among strings that
do not parse and frames of other streams answers each of them, never starts
over, and delivers the container at most once. The frames of the first phase
deliver it when the last one comes. -/
theorem delivery_run (blake3 : Blake3) (soliton : SolitonCdf) (mode : Mode)
    (container : List UInt8) (blockLen : Nat) (sessionId : UInt16) (s : Sender)
    (built : Sender.build mode blake3 soliton container blockLen sessionId = .ok (.ok s))
    (limits : ReceiverLimits) (admitted : Within limits s.identity) (inputs : List (List UInt8))
    (each : ∀ bytes ∈ inputs, (∃ seq, s.Sent blake3 seq bytes) ∨ s.Foreign blake3 bytes)
    (leads : s.Leads blake3 inputs) :
    ∃ t r, trace (tryPush blake3 soliton) (withLimits limits) inputs = .ok (t, r) ∧
      (∀ e ∈ t, ∀ seq, s.Sent blake3 seq e.input → ∃ c, e.output = .ok c) ∧
      (∀ e ∈ t, ¬ WrongTag blake3 soliton e.before e.input) ∧
      (deliveries t = [] ∨ deliveries t = [container]) ∧
      (mode ≠ .rsd →
        (∀ bytes ∈ inputs, ∀ seq, s.Sent blake3 seq bytes → seq.toNat < s.k.toNat) →
          ∀ before e after, t = before ++ e :: after →
            (e.output = .ok (some container) ↔ ¬ s.Collected blake3 (before.map (·.input)) ∧
              s.Collected blake3 ((before ++ [e]).map (·.input)))) := by
  obtain ⟨new_encoder, wf, _, _, _, blockLen_eq⟩ := Sender.build_ok built
  obtain ⟨d₀, new, m₀⟩ := matched_new new_encoder
  rw [← blockLen_eq, (LtEncoder.tryNew_ok new_encoder).2.2.2.1.symm] at new
  have runs : ∀ xs ys, inputs = xs ++ ys → _ := fun xs ys split =>
    Linked.run (Linked.idle : Linked mode container limits s ∅ _) wf admitted new m₀ xs
      (fun b mem => each b (by rw [split]; simp [mem])) fun _ => leads_prefix (split ▸ leads)
  obtain ⟨t, r, A, run, ran⟩ := runs inputs [] (by simp)
  have serves := ran.serves
  refine ⟨t, r, run, fun e mem => (serves e mem).taken, fun e mem => (serves e mem).tag,
    (deliveries_run run serves).2, ?_⟩
  intro phase first before e after split
  have delivered : ∀ xs ys t' r', inputs = xs ++ ys →
      trace (tryPush blake3 soliton) (withLimits limits) xs = .ok (t', r') →
        (r'.delivered = true ↔ s.Collected blake3 xs) := by
    intro xs ys t' r' prefix_eq run'
    obtain ⟨_, _, A', run'', ran'⟩ := runs xs ys prefix_eq
    rw [run'] at run''
    cases run''
    have first' : ∀ b ∈ xs, ∀ seq, s.Sent blake3 seq b → seq.toNat < s.encoder.k :=
      fun b mem seq sent => wf.k_eq ▸ first b (by rw [prefix_eq]; simp [mem]) seq sent
    exact ran'.linked.collected wf phase first'
      (fun seq mem => (ran'.source seq mem).resolve_left (by simp))
      (ran'.collects phase (Finset.empty_subset _) first')
  subst split
  have inputs_eq := (trace_inputs run).symm
  obtain ⟨upto, through⟩ := trace_upto run
  have start := delivered _ ((e :: after).map (·.input)) _ _ (by simpa using inputs_eq) upto
  have finish := delivered _ (after.map (·.input)) _ _ (by simpa using inputs_eq) through
  rw [(serves e (by simp)).delivers container, ← start, ← finish, Bool.not_eq_true]
  simp

theorem inputs_of_known {inputs : List (List UInt8)}
    (known : ∀ bytes ∈ inputs, parseFrame blake3 bytes = .ok none ∨ ∃ seq, s.Sent blake3 seq bytes) :
    (∀ bytes ∈ inputs, (∃ seq, s.Sent blake3 seq bytes) ∨ s.Foreign blake3 bytes) ∧
      s.Leads blake3 inputs := by
  constructor
  · intro bytes mem
    rcases known bytes mem with junk | sent
    · refine Or.inr fun h block parse => ?_
      rw [junk] at parse
      cases parse
    · exact Or.inl sent
  · rintro before bytes after rfl _ parsed
    exact (known bytes (by simp)).resolve_left parsed

end

theorem twoBlocks_sent :
    (Sender.twoBlocks .causal).Sent sampleHash 0 (Sender.twoBlocksFrame 0) ∧
      (Sender.twoBlocks .causal).Sent sampleHash 1 (Sender.twoBlocksFrame 1) :=
  ⟨⟨_, _, _, .refl, rfl, rfl, rfl⟩, ⟨_, _, _, .next .refl rfl, rfl, rfl, rfl⟩⟩

/-- A string that does not parse, then the two frames of "ab" in the wrong
order. -/
theorem twoBlocks_known : ∀ bytes ∈ [[0xd1], Sender.twoBlocksFrame 1, Sender.twoBlocksFrame 0],
    parseFrame sampleHash bytes = .ok none ∨
      ∃ seq, (Sender.twoBlocks .causal).Sent sampleHash seq bytes := by
  obtain ⟨sent₀, sent₁⟩ := twoBlocks_sent
  intro bytes mem
  simp only [List.mem_cons, List.not_mem_nil, or_false] at mem
  rcases mem with rfl | rfl | rfl
  · exact Or.inl rfl
  · exact Or.inr ⟨1, sent₁⟩
  · exact Or.inr ⟨0, sent₀⟩

theorem delivery_run_twoBlocks :
    ∃ t r, trace (tryPush sampleHash twoBlockSoliton) (withLimits .MAXIMUM)
        [[0xd1], Sender.twoBlocksFrame 1, Sender.twoBlocksFrame 0] = .ok (t, r) ∧
      (∀ e ∈ t, ∀ seq, (Sender.twoBlocks .causal).Sent sampleHash seq e.input →
        ∃ c, e.output = .ok c) ∧
      (∀ e ∈ t, ¬ WrongTag sampleHash twoBlockSoliton e.before e.input) ∧
      (deliveries t = [] ∨ deliveries t = [[0x61, 0x62]]) ∧
      (Mode.causal ≠ .rsd →
        (∀ bytes ∈ [[0xd1], Sender.twoBlocksFrame 1, Sender.twoBlocksFrame 0], ∀ seq,
          (Sender.twoBlocks .causal).Sent sampleHash seq bytes →
            seq.toNat < (Sender.twoBlocks .causal).k.toNat) →
          ∀ before e after, t = before ++ e :: after →
            (e.output = .ok (some [0x61, 0x62]) ↔
              ¬ (Sender.twoBlocks .causal).Collected sampleHash (before.map (·.input)) ∧
                (Sender.twoBlocks .causal).Collected sampleHash
                  ((before ++ [e]).map (·.input)))) :=
  delivery_run sampleHash twoBlockSoliton .causal [0x61, 0x62] 1 7 _
    (Sender.twoBlocks_built .causal) .MAXIMUM ⟨by decide, by decide, by decide⟩ _
    (inputs_of_known twoBlocks_known).1 (inputs_of_known twoBlocks_known).2

end Receiver

end DeOptiTransfer
