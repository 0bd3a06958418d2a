import DeOptiTransfer.Session.Delivery

/-!
# What a channel lets through

A channel loses, repeats and reorders the frames of a sender and puts other
strings between them. The receiver keeps the frames that come through, first
phase and repairs alike.

* `Linked.gathers`: within the budgets of the decoder it keeps all of them;
* `delivery_iff_determined`: it delivers at the frame that makes the last block
  follow.
-/

namespace DeOptiTransfer

namespace Sender

/-- What a receiver is given for the frames of `s`. -/
structure Channel (blake3 : Blake3) (s : Sender) (inputs : List (List UInt8)) : Prop where
  each : ∀ bytes ∈ inputs, (∃ seq, s.Sent blake3 seq bytes) ∨ s.Foreign blake3 bytes
  leads : s.Leads blake3 inputs

/-- The numbers of the frames of `s` among `inputs`. -/
def received (blake3 : Blake3) (s : Sender) (inputs : List (List UInt8)) : Set UInt32 :=
  {seq | ∃ bytes ∈ inputs, s.Sent blake3 seq bytes}

/-- The blocks that frame `seq` combines. -/
def indices (mode : Mode) (s : Sender) (seq : UInt32) : Set Nat :=
  {b | b ∈ frameIndices mode s.encoder.cdf s.encoder.sessionId seq}

/-- Every block of the container follows from the frames among `inputs`. -/
def Determined (blake3 : Blake3) (mode : Mode) (s : Sender) (inputs : List (List UInt8)) : Prop :=
  ∀ b < s.encoder.k, Solvable (s.indices mode) (s.received blake3 inputs) b

/-- A decoder has room for all the frames in `S`. -/
structure InBudget (mode : Mode) (s : Sender) (S : Finset UInt32) : Prop where
  frames : S.card ≤ 4 * s.encoder.k
  edges : ∑ seq ∈ S, (frameIndices mode s.encoder.cdf s.encoder.sessionId seq).length ≤
    64 * s.encoder.k

section
variable {blake3 : Blake3} {mode : Mode} {s : Sender} {inputs rest : List (List UInt8)}
  {bytes : List UInt8}

theorem received_nil : s.received blake3 [] = ∅ := by
  ext seq
  simp [received]

theorem Channel.take (channel : s.Channel blake3 (inputs ++ rest)) : s.Channel blake3 inputs :=
  ⟨fun bytes mem => channel.each bytes (List.mem_append_left rest mem),
    Receiver.leads_prefix channel.leads⟩

/-- A channel that only loses, repeats and reorders. -/
theorem channel_of_sent (sent : ∀ bytes ∈ inputs, ∃ seq, s.Sent blake3 seq bytes) :
    s.Channel blake3 inputs := by
  obtain ⟨each, leads⟩ := Receiver.inputs_of_known fun bytes mem => Or.inr (sent bytes mem)
  exact ⟨each, leads⟩

theorem within_maximum {container : List UInt8} {soliton : SolitonCdf} {blockLen : Nat}
    {sessionId : UInt16}
    (built : build mode blake3 soliton container blockLen sessionId = .ok (.ok s)) :
    Receiver.Within .MAXIMUM s.identity := by
  obtain ⟨_, wf, _⟩ := build_ok built
  rw [build_eq] at built
  constructor
  · rw [identity, wf.totalLen_eq]
    exact (checks_of_tryWithMode built).2.2.2.1
  · exact Nat.le_of_lt_succ s.k.toNat_lt
  · exact Nat.le_of_lt_succ s.blockLen.toNat_lt

theorem determined_of_collected {container : List UInt8} {soliton : SolitonCdf} {blockLen : Nat}
    {sessionId : UInt16} (phase : mode ≠ .rsd)
    (built : build mode blake3 soliton container blockLen sessionId = .ok (.ok s))
    (collected : s.Collected blake3 inputs) : s.Determined blake3 mode inputs := by
  obtain ⟨new_encoder, wf, _⟩ := build_ok built
  obtain ⟨d, _, m⟩ := matched_new new_encoder
  have index : d.indices mode = s.indices mode := by
    funext seq
    rw [LtDecoder.indices, indices, m.cdf_eq, m.sessionId_eq]
  have k_eq := Receiver.matched_k m
  have mem : ∀ {seq : UInt32}, seq ∈ firstPhase d.k ↔ seq.toNat < d.k := mem_firstPhase m.decoder.k_le
  intro b lt
  have solved : Solvable (d.indices mode) (firstPhase d.k) b :=
    LtDecoder.first_phase_solves m.decoder.toConf phase (fun _ below => mem.mpr below) (k_eq ▸ lt)
  rw [← index]
  refine solvable_mono (fun seq first => ?_) solved
  apply collected seq
  rw [wf.k_eq, ← k_eq]
  exact mem.mp first

end

end Sender

namespace Receiver

section
variable {blake3 : Blake3} {soliton : SolitonCdf} {mode : Mode} {container bytes : List UInt8}
  {limits : ReceiverLimits} {s : Sender} {A S : Finset UInt32} {r r' : Receiver} {seq : UInt32}
  {d₀ : LtDecoder}

/-- The frames that a decoder has accepted are in its set, so its state says
which they are. -/
theorem Linked.unique {A' : Finset UInt32} {d : LtDecoder}
    (linked : Linked mode container limits s A (locked limits s.identity d)) (wf : d.WF mode A') :
    A = A' := by
  cases linked with
  | active m =>
    ext seq
    have one := U32Set.contains_ok m.decoder.seen_holds seq
    rw [U32Set.contains_ok wf.seen_holds seq] at one
    exact (decide_eq_decide.mp (Except.ok.inj one)).symm

theorem room_of_inBudget {d : LtDecoder} (m : Matched mode container A s.encoder d) (sub : A ⊆ S)
    (fits : s.InBudget mode S) (mem : seq ∈ S) (fresh : seq ∉ A) : d.Room mode seq := by
  refine LtDecoder.room_of_budget m.decoder sub mem fresh ?_ ?_
  · rw [matched_k m]
    exact fits.frames
  · rw [matched_k m]
    refine (Finset.sum_le_sum fun seq _ => ?_).trans fits.edges
    rw [LtDecoder.indexSet, m.cdf_eq, m.sessionId_eq]
    exact List.toFinset_card_le _

/-- A frame that finds room is kept, unless the container has been delivered. -/
theorem Linked.keeps {result : Except Error (Option (List UInt8))} {A' : Finset UInt32}
    (linked : Linked mode container limits s A r) (wf : s.WF blake3 mode container)
    (admitted : Within limits s.identity)
    (new : LtDecoder.tryNew soliton mode s.encoder.k s.encoder.blockLen s.encoder.sessionId
      container.length = .ok (.ok d₀))
    (m₀ : Matched mode container ∅ s.encoder d₀) (sub : A ⊆ S) (fits : s.InBudget mode S)
    (mem : seq ∈ S) (sent : s.Sent blake3 seq bytes)
    (push : r.tryPush blake3 soliton bytes = .ok (result, r'))
    (linked' : Linked mode container limits s A' r') : r'.delivered = true ∨ seq ∈ A' := by
  obtain ⟨h, parsed, rfl, same⟩ := Sender.sent_ok wf sent
  obtain ⟨d, lock, m, _⟩ := linked.lock wf admitted new m₀ same
  have tag := no_wrong_tag wf parsed same lock m
  rw [tryPush_of_lock (parseFrame_eq_some_iff.mpr parsed) lock] at push
  cases waiting : d.isComplete with
  | true =>
    rw [feed_complete waiting] at push
    cases push
    exact Or.inl waiting
  | false =>
    obtain ⟨d', A'', added, wf', step⟩ :=
      LtDecoder.addFrame_ok m.decoder h.seq (s.block mode container h.seq)
    have mode_eq : modeOfFlags s.identity.flags = mode := by
      rw [Sender.identity, wf.flags_eq, modeOfFlags_flags]
    obtain ⟨_, _, added', _, _, calls⟩ := feed_waiting blake3 limits s.identity
      (mode_eq ▸ m.decoder) waiting h.seq (s.block mode container h.seq)
    rw [added] at added'
    cases added'
    have length : (s.block mode container h.seq).length = d.blockLen := by
      rw [Sender.block, frameBlock_length, m.blockLen_eq]
    have accepted := (step.accepted m.decoder wf' length fun _ fresh =>
      room_of_inBudget m sub fits mem fresh).1
    have kept : r' = locked limits s.identity d' → r'.delivered = true ∨ h.seq ∈ A' := by
      rintro rfl
      rw [linked'.unique wf']
      exact accepted
    rcases calls h rfl with ⟨_, feed⟩ | ⟨c, _, read, _, feed⟩
    · rw [feed] at push
      cases push
      exact kept rfl
    · have right : checksum32 blake3 c = h.streamTag := by
        by_contra wrong
        have limits_eq : r.limits = limits := by cases linked <;> rfl
        rw [← limits_eq, ← same] at lock
        exact tag ⟨h, _, d, d', c, parsed, lock, added, read, wrong⟩
      rw [feed, if_neg (not_not_intro right)] at push
      cases push
      exact kept rfl

/-- Within the budgets a run keeps everything that is received. -/
theorem Linked.gathers (linked : Linked mode container limits s A r)
    (wf : s.WF blake3 mode container) (admitted : Within limits s.identity)
    (new : LtDecoder.tryNew soliton mode s.encoder.k s.encoder.blockLen s.encoder.sessionId
      container.length = .ok (.ok d₀))
    (m₀ : Matched mode container ∅ s.encoder d₀) (fits : s.InBudget mode S)
    (inputs : List (List UInt8)) (sub : A ⊆ S) (inS : s.received blake3 inputs ⊆ S)
    (each : ∀ bytes ∈ inputs, (∃ seq, s.Sent blake3 seq bytes) ∨ s.Foreign blake3 bytes)
    (start : r.identity = none → s.Leads blake3 inputs) :
    ∃ t r' A', trace (tryPush blake3 soliton) r inputs = .ok (t, r') ∧
      Linked mode container limits s A' r' ∧ A ⊆ A' ∧
      (∀ seq ∈ A', seq ∈ A ∨ seq ∈ s.received blake3 inputs) ∧
      (r.delivered = true → r'.delivered = true) ∧
      (r'.delivered = true ∨ s.received blake3 inputs ⊆ A') := by
  induction inputs generalizing r A with
  | nil =>
    refine ⟨[], r, A, rfl, linked, Finset.Subset.refl A, fun seq mem => Or.inl mem, id, Or.inr ?_⟩
    rw [Sender.received_nil]
    exact Set.empty_subset _
  | cons bytes rest ih =>
    have each' : ∀ b ∈ rest, (∃ seq, s.Sent blake3 seq b) ∨ s.Foreign blake3 b :=
      fun b mem => each b (by simp [mem])
    have inS' : s.received blake3 rest ⊆ S := by
      rintro seq ⟨b, mem, sent⟩
      exact inS ⟨b, by simp [mem], sent⟩
    by_cases sent : ∃ seq, s.Sent blake3 seq bytes
    · obtain ⟨seq, sent⟩ := sent
      have here : seq ∈ S := inS ⟨bytes, by simp, sent⟩
      obtain ⟨result, r₁, A₁, push, linked₁, active, serves, grows, few, _⟩ :=
        linked.push_sent wf admitted new m₀ sent
      have kept := linked.keeps wf admitted new m₀ sub fits here sent push linked₁
      obtain ⟨t, r', A', run, linked', grows', source, stays, all⟩ :=
        ih linked₁ (few.trans (Finset.insert_subset here sub)) inS' each'
          (fun idle => by rw [active] at idle; cases idle)
      refine ⟨_, r', A', trace_cons push run, linked', grows.trans grows', ?_,
        fun done => stays (serves.stays done), ?_⟩
      · intro seq' mem
        rcases source seq' mem with mem | ⟨b, mem, sent'⟩
        · rcases Finset.mem_insert.mp (few mem) with rfl | mem
          · exact Or.inr ⟨bytes, by simp, sent⟩
          · exact Or.inl mem
        · exact Or.inr ⟨b, by simp [mem], sent'⟩
      · rcases kept with done | mem
        · exact Or.inl (stays done)
        · apply all.imp_right
          rintro all seq' ⟨b, hb, sent'⟩
          rcases List.mem_cons.mp hb with rfl | hb
          · rw [sent_unique wf sent sent']
            exact grows' mem
          · exact all ⟨b, hb, sent'⟩
    · have unsent : ∀ seq, ¬ s.Sent blake3 seq bytes := fun seq h => sent ⟨seq, h⟩
      have junk : r.identity = none → parseFrame blake3 bytes = .ok none := by
        intro idle
        by_contra parsed
        exact sent (start idle [] bytes rest rfl (by simp) parsed)
      obtain ⟨err, push, _⟩ := linked.push_foreign soliton
        ((each bytes (by simp)).resolve_left sent) unsent junk
      obtain ⟨t, r', A', run, linked', grows, source, stays, all⟩ :=
        ih linked sub inS' each' fun idle => leads_tail (start idle) (junk idle)
      have same : s.received blake3 (bytes :: rest) = s.received blake3 rest := by
        ext seq
        simp [Sender.received, unsent seq]
      rw [same]
      exact ⟨_, r', A', trace_cons push run, linked', grows, source, stays, all⟩

theorem Linked.delivered_iff {inputs : List (List UInt8)} (linked : Linked mode container limits s A r)
    (wf : s.WF blake3 mode container) (source : ∀ seq ∈ A, seq ∈ s.received blake3 inputs)
    (all : r.delivered = true ∨ s.received blake3 inputs ⊆ A) :
    r.delivered = true ↔ s.Determined blake3 mode inputs := by
  cases linked with
  | idle =>
    constructor
    · intro done
      cases done
    · intro determined
      refine all.resolve_right fun none_received => ?_
      have first := determined 0 wf.encoder.k_pos
      have empty := solvable_mono none_received first
      cases empty with
      | peel mem _ _ => simp at mem
  | @active A d m =>
    have index : d.indices mode = s.indices mode := by
      funext seq
      rw [LtDecoder.indices, Sender.indices, m.cdf_eq, m.sessionId_eq]
    show d.isComplete = true ↔ _
    rw [LtDecoder.isComplete_iff m.decoder, matched_k m, Sender.Determined, ← index]
    constructor
    · intro known b lt
      exact solvable_mono source ((LtDecoder.known_iff_solvable m.decoder).mp (known b lt))
    · intro determined b lt
      rcases all with complete | all
      · exact (LtDecoder.isComplete_iff m.decoder).mp complete b (matched_k m ▸ lt)
      · exact (LtDecoder.known_iff_solvable m.decoder).mpr (solvable_mono all (determined b lt))

theorem delivered_stays {t : List Push} {inputs : List (List UInt8)}
    (run : trace (tryPush blake3 soliton) r inputs = .ok (t, r'))
    (serves : ∀ e ∈ t, Serves blake3 soliton container s e) (done : r.delivered = true) :
    r'.delivered = true := by
  induction t generalizing r inputs with
  | nil => rwa [(trace_eq_nil run).2]
  | cons e t ih =>
    obtain ⟨rest, _, rfl, _, calls⟩ := trace_eq_cons run
    exact ih calls (fun e' mem => serves e' (by simp [mem])) ((serves e (by simp)).stays done)

/-- A run that ends with the container delivered has returned it on the way. -/
theorem deliveries_iff {t : List Push} {inputs : List (List UInt8)}
    (run : trace (tryPush blake3 soliton) r inputs = .ok (t, r'))
    (serves : ∀ e ∈ t, Serves blake3 soliton container s e) (waiting : r.delivered = false) :
    deliveries t = [container] ↔ r'.delivered = true := by
  induction t generalizing r inputs with
  | nil =>
    obtain ⟨_, rfl⟩ := trace_eq_nil run
    simp [deliveries, waiting]
  | cons e t ih =>
    obtain ⟨rest, _, rfl, _, calls⟩ := trace_eq_cons run
    have serves' : ∀ e' ∈ t, Serves blake3 soliton container s e' :=
      fun e' mem => serves e' (by simp [mem])
    have serve := serves e (by simp)
    cases done : e.after.delivered with
    | false =>
      have silent : delivery e = none := by
        rw [Option.eq_none_iff_forall_ne_some]
        intro c eq
        have := ((serve.delivers c).mp (delivery_eq_some.mp eq)).2.2
        rw [done] at this
        cases this
      rw [deliveries, List.filterMap_cons_none silent]
      exact ih calls serves' done
    | true =>
      have out := delivery_eq_some.mpr ((serve.delivers container).mpr ⟨rfl, waiting, done⟩)
      have silent := (deliveries_run calls serves').1 done
      rw [deliveries] at silent
      rw [deliveries, List.filterMap_cons_some out, silent]
      exact iff_of_true rfl (delivered_stays calls serves' done)

theorem channel_run {blockLen : Nat} {sessionId : UInt16}
    (built : Sender.build mode blake3 soliton container blockLen sessionId = .ok (.ok s))
    (admitted : Within limits s.identity) {inputs : List (List UInt8)}
    (channel : s.Channel blake3 inputs) :
    ∃ t r, trace (tryPush blake3 soliton) (withLimits limits) inputs = .ok (t, r) ∧
      (∀ e ∈ t, Serves blake3 soliton container s e) ∧
      ∀ S, s.InBudget mode S → s.received blake3 inputs ⊆ S →
        (r.delivered = true ↔ s.Determined blake3 mode inputs) := by
  obtain ⟨new_encoder, wf, _, _, _, blockLen_eq⟩ := Sender.build_ok built
  obtain ⟨d₀, new, m₀⟩ := matched_new new_encoder
  rw [← blockLen_eq, (LtEncoder.tryNew_ok new_encoder).2.2.2.1.symm] at new
  have fresh : Linked mode container limits s ∅ (withLimits limits) := .idle
  obtain ⟨t, r, A, run, ran⟩ := fresh.run wf admitted new m₀ inputs channel.each
    fun _ => channel.leads
  refine ⟨t, r, run, ran.serves, fun S fits inS => ?_⟩
  obtain ⟨_, _, A', run', linked, _, source, _, all⟩ := fresh.gathers wf admitted new m₀ fits inputs
    (Finset.empty_subset S) inS channel.each fun _ => channel.leads
  rw [run] at run'
  cases run'
  exact linked.delivered_iff wf (fun seq mem => (source seq mem).resolve_left (by simp)) all

/-- In every mode, and whichever frames come through a channel, the container is
delivered at the frame from which on all its blocks follow, as long as the
frames so far fit the budgets of the decoder. -/
theorem delivery_iff_determined (blake3 : Blake3) (soliton : SolitonCdf) (mode : Mode)
    (container : List UInt8) (blockLen : Nat) (sessionId : UInt16) (s : Sender)
    (built : Sender.build mode blake3 soliton container blockLen sessionId = .ok (.ok s))
    (limits : ReceiverLimits) (admitted : Within limits s.identity) (inputs : List (List UInt8))
    (channel : s.Channel blake3 inputs) :
    ∃ t r, trace (tryPush blake3 soliton) (withLimits limits) inputs = .ok (t, r) ∧
      (deliveries t = [] ∨ deliveries t = [container]) ∧
      ∀ before e after S, t = before ++ e :: after → s.InBudget mode S →
        s.received blake3 ((before ++ [e]).map (·.input)) ⊆ S →
          (e.output = .ok (some container) ↔
            ¬ s.Determined blake3 mode (before.map (·.input)) ∧
              s.Determined blake3 mode ((before ++ [e]).map (·.input))) := by
  obtain ⟨t, r, run, serves, _⟩ := channel_run built admitted channel
  refine ⟨t, r, run, (deliveries_run run serves).2, ?_⟩
  rintro before e after S rfl fits inS
  have inputs_eq := trace_inputs run
  obtain ⟨upto, through⟩ := trace_upto run
  have delivered : ∀ xs ys t' r', inputs = xs ++ ys → s.received blake3 xs ⊆ S →
      trace (tryPush blake3 soliton) (withLimits limits) xs = .ok (t', r') →
        (r'.delivered = true ↔ s.Determined blake3 mode xs) := by
    rintro xs ys t' r' rfl sub run'
    obtain ⟨_, _, run'', _, iff⟩ := channel_run built admitted channel.take
    rw [run'] at run''
    cases run''
    exact iff S fits sub
  have start := delivered _ ((e :: after).map (·.input)) _ _ (by rw [← inputs_eq]; simp) (by
    rintro seq ⟨bytes, mem, sent⟩
    exact inS ⟨bytes, by rw [List.map_append]; exact List.mem_append_left _ mem, sent⟩) upto
  have finish := delivered _ (after.map (·.input)) _ _ (by rw [← inputs_eq]; simp) inS through
  rw [(serves e (by simp)).delivers container, ← start, ← finish, Bool.not_eq_true]
  simp

end

theorem twoBlocks_channel :
    (Sender.twoBlocks .causal).Channel sampleHash
      [[0xd1], Sender.twoBlocksFrame 1, Sender.twoBlocksFrame 0] :=
  ⟨(inputs_of_known twoBlocks_known).1, (inputs_of_known twoBlocks_known).2⟩

theorem delivery_iff_determined_twoBlocks :
    ∃ t r, trace (tryPush sampleHash twoBlockSoliton) (withLimits .MAXIMUM)
        [[0xd1], Sender.twoBlocksFrame 1, Sender.twoBlocksFrame 0] = .ok (t, r) ∧
      (deliveries t = [] ∨ deliveries t = [[0x61, 0x62]]) ∧
      ∀ before e after S, t = before ++ e :: after →
        (Sender.twoBlocks .causal).InBudget .causal S →
          (Sender.twoBlocks .causal).received sampleHash ((before ++ [e]).map (·.input)) ⊆ S →
            (e.output = .ok (some [0x61, 0x62]) ↔
              ¬ (Sender.twoBlocks .causal).Determined sampleHash .causal (before.map (·.input)) ∧
                (Sender.twoBlocks .causal).Determined sampleHash .causal
                  ((before ++ [e]).map (·.input))) :=
  delivery_iff_determined sampleHash twoBlockSoliton .causal [0x61, 0x62] 1 7 _
    (Sender.twoBlocks_built .causal) .MAXIMUM ⟨by decide, by decide, by decide⟩ _ twoBlocks_channel

end Receiver

end DeOptiTransfer
