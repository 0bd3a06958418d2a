import DeOptiTransfer.Fountain.Memory
import DeOptiTransfer.Session.ReceiverRuns

/-!
# Within the limits

What a receiver holds and hands out is bounded by its limits, whatever is
pushed into it.

* `Footprint`: the vectors of a decoder, but for the set of sequence numbers;
* `receiver_limits`: runs of any pushes and resets, and how many pushes a
  container takes.
-/

namespace DeOptiTransfer

namespace Receiver

/-- The lengths of the vectors for one stream. The set of the sequence numbers is
not among them. -/
structure Footprint (limits : ReceiverLimits) (d : LtDecoder) : Prop where
  solved_le : d.solved.length ≤ limits.maxSourceBlocks
  lists_le : d.byBlock.length ≤ limits.maxSourceBlocks
  subscriptions_le : (d.byBlock.map List.length).sum ≤ 64 * limits.maxSourceBlocks
  frames_le : d.frames.length ≤ 4 * limits.maxSourceBlocks
  sets_le : d.setSizes ≤ 256 * limits.maxSourceBlocks
  arena_le : d.arena.length ≤ 4 * limits.maxSourceBlocks * divCeil limits.maxBlockLen 4
  table_le : d.cdf.cdf.length ≤ limits.maxSourceBlocks
  quantiles_eq : d.cdf.quant.length = QUANT + 1
  idx_le : d.idx.length ≤ limits.maxSourceBlocks
  scratch_le : d.idxScratch.length ≤ limits.maxSourceBlocks
  output_le : d.totalLen ≤ limits.maxStreamBytes

theorem divCeil_mono {a b c : Nat} (pos : 0 < c) (le : a ≤ b) : divCeil a c ≤ divCeil b c :=
  (divCeil_le_iff pos).mpr (le.trans (le_divCeil_mul b pos))

section
variable {limits : ReceiverLimits} {id : StreamIdentity} {mode : Mode} {A : Finset UInt32}
  {d : LtDecoder}

theorem Footprint.of_wf (wf : d.WF mode A) (paid : d.Paid) (buffers : d.Buffers)
    (agrees : Agrees id d) (within : Within limits id) : Footprint limits d := by
  have k_le : d.k ≤ limits.maxSourceBlocks := agrees.k_eq ▸ within.k_le
  have block_le : d.blockLen ≤ limits.maxBlockLen := agrees.blockLen_eq ▸ within.blockLen_le
  have safe := wf.safe
  refine ⟨?_, ?_, ?_, ?_, ?_, ?_, ?_, wf.cdf_wf.quant_length, buffers.idx_le.trans k_le,
    buffers.scratch_le.trans k_le, agrees.totalLen_eq ▸ within.totalLen_le⟩
  · exact wf.shape.solved_length.trans_le k_le
  · exact wf.shape.byBlock_length.trans_le k_le
  · exact (safe.edges_le.trans safe.pending_le).trans (Nat.mul_le_mul_left 64 k_le)
  · exact (paid.frames_le_k wf).trans (Nat.mul_le_mul_left 4 k_le)
  · exact (paid.sets_le_k wf).trans (Nat.mul_le_mul_left 256 k_le)
  · refine safe.arena_le.trans ?_
    rw [wf.words_eq]
    exact Nat.mul_le_mul (Nat.mul_le_mul_left 4 k_le) (divCeil_mono (by decide) block_le)
  · exact wf.cdf_k.trans_le k_le

end

/-- The frames that the decoder of a receiver has accepted. -/
def accepted (r : Receiver) : Nat :=
  match r.decoder with
  | none => 0
  | some d => d.framesNew

/-- A receiver between calls, all of whose slots have been paid for. -/
structure Kept (limits : ReceiverLimits) (r : Receiver) : Prop where
  state : State r
  limits_eq : r.limits = limits
  paid : ∀ d, r.decoder = some d → d.Paid ∧ d.Buffers

section
variable {blake3 : Blake3} {soliton : SolitonCdf} {limits : ReceiverLimits} {r r' : Receiver}
  {bytes : List UInt8} {result : Except Error (Option (List UInt8))} {h : FrameHeader}

/-- Locking takes on a decoder that has accepted nothing, or none. -/
theorem Kept.lock (kept : Kept limits r) (lock : r.lock soliton h = .ok (.ok r')) :
    accepted r' = accepted r ∧ ∀ d, r'.decoder = some d → d.Paid ∧ d.Buffers := by
  cases kept.state with
  | @idle limits =>
    by_cases large : h.totalLen.toNat > limits.maxStreamBytes ∨ h.k.toNat > limits.maxSourceBlocks ∨
        h.blockLen.toNat > limits.maxBlockLen
    · simp only [Receiver.lock, withLimits, large, ↓reduceIte] at lock
      cases lock
    · simp only [Receiver.lock, withLimits, large, ↓reduceIte] at lock
      obtain ⟨built, new, lock⟩ := exec_bind_eq_ok.mp lock
      cases built with
      | error e => cases lock
      | ok d =>
        cases lock
        obtain ⟨wf, fresh, _⟩ := LtDecoder.built_ok new
        refine ⟨wf.framesNew_eq, fun d' found => ?_⟩
        cases found
        exact ⟨fresh.paid wf, fresh.buffers⟩
  | active wf agrees within =>
    rw [lock_locked] at lock
    split at lock
    · cases lock
    · cases lock
      exact ⟨rfl, kept.paid⟩

/-- A frame is accepted at most once. -/
theorem step_accepted {mode : Mode} {A A' : Finset UInt32} {d d' : LtDecoder} {seq : UInt32}
    {block : List UInt8} (step : d.Step mode A seq block A' d') : d'.framesNew ≤ d.framesNew + 1 := by
  cases step with
  | refused _ _ => exact Nat.le_succ _
  | redundant _ _ => exact Nat.le_refl _
  | useful _ _ _ _ _ => exact Nat.le_refl _

/-- What a decoder that takes a frame has become. -/
theorem Kept.feed (kept : Kept limits r) {d d' : LtDecoder} {block : List UInt8}
    (lock : r.lock soliton h = .ok (.ok (locked r.limits (streamIdentity h) d)))
    (added : d.addFrame h.seq block = .ok d') :
    (d'.Paid ∧ d'.Buffers) ∧ d'.framesNew ≤ accepted r + 1 ∧
      ∃ A, d'.WF (modeOfFlags h.flags) A ∧ Agrees (streamIdentity h) d' ∧
        Within limits (streamIdentity h) := by
  obtain ⟨same, paid⟩ := kept.lock lock
  obtain ⟨_, lock', settled⟩ := lock_ok soliton kept.state h
  rw [lock] at lock'
  cases lock'
  obtain ⟨d₀, A, eq, _, wf, agrees, within⟩ := settled _ rfl
  cases eq
  obtain ⟨d₁, A', added', wf', step⟩ := LtDecoder.addFrame_ok wf h.seq block
  rw [added] at added'
  cases added'
  obtain ⟨paid, buffers⟩ := paid d rfl
  refine ⟨⟨LtDecoder.addFrame_paid wf paid added step,
    LtDecoder.addFrame_buffers wf.toConf buffers added⟩, ?_, A', wf', agrees.same step.same,
    kept.limits_eq ▸ within⟩
  rw [← same]
  exact step_accepted step

/-- What every call keeps to. -/
structure Bounded (limits : ReceiverLimits) (e : Call) : Prop where
  footprint : ∀ d, e.after.decoder = some d → Footprint limits d
  accepts : accepted e.after ≤ accepted e.before + 1
  restarts : e.input = .reset → accepted e.after = 0
  delivers : ∀ c, e.output = .ok (some c) → c.length ≤ limits.maxStreamBytes ∧
    ∃ id, e.after.identity = some id ∧ id.k.toNat ≤ accepted e.after

theorem Kept.footprint (kept : Kept limits r) {d : LtDecoder} (found : r.decoder = some d) :
    Footprint limits d := by
  obtain ⟨state, rfl, paid⟩ := kept
  cases state with
  | idle => cases found
  | active wf agrees within =>
    cases found
    obtain ⟨paid, buffers⟩ := paid d rfl
    exact .of_wf wf paid buffers agrees within

theorem Kept.push (kept : Kept limits r) (state' : State r')
    (pushed : Pushed blake3 soliton r bytes result r') :
    Kept limits r' ∧ Bounded limits ⟨r, .push bytes, result, r'⟩ := by
  have kept' : Kept limits r' := by
    refine ⟨state', pushed.limits_eq.trans kept.limits_eq, fun d found => ?_⟩
    cases pushed with
    | unparsed | refused _ _ | late _ _ _ => exact kept.paid d found
    | fed _ lock _ added _ | delivers _ lock _ added _ _ _ _ =>
      cases found
      exact (kept.feed lock added).1
    | mismatched _ _ _ _ _ _ => cases found
  refine ⟨kept', fun d found => kept'.footprint found, ?_, by simp, ?_⟩
  · cases pushed with
    | unparsed | refused _ _ | late _ _ _ => exact Nat.le_succ _
    | fed _ lock _ added _ | delivers _ lock _ added _ _ _ _ => exact (kept.feed lock added).2.1
    | mismatched _ _ _ _ _ _ => exact Nat.zero_le _
  · intro c out
    cases pushed with
    | unparsed | refused _ _ | late _ _ _ | fed _ _ _ _ _ | mismatched _ _ _ _ _ _ => cases out
    | @delivers h _ _ _ d' _ lock _ added complete _ length _ =>
      cases out
      obtain ⟨⟨paid, _⟩, _, A, wf, agrees, within⟩ := kept.feed lock added
      refine ⟨length.trans_le within.totalLen_le, streamIdentity h, rfl, ?_⟩
      have enough := paid.k_le_new wf complete
      rwa [agrees.k_eq] at enough

theorem Kept.apply (kept : Kept limits r) (blake3 : Blake3) (soliton : SolitonCdf) (op : Op) :
    ∃ result r', r.apply blake3 soliton op = .ok (result, r') ∧ Kept limits r' ∧
      Bounded limits ⟨r, op, result, r'⟩ := by
  cases op with
  | push bytes =>
    obtain ⟨result, r', call, state', pushed⟩ := tryPush_ok blake3 soliton kept.state bytes
    obtain ⟨kept', bounded⟩ := kept.push state' pushed
    exact ⟨result, r', call, kept', bounded⟩
  | reset =>
    refine ⟨.ok none, r.reset, rfl, ⟨.idle, kept.limits_eq, ?_⟩, ?_, Nat.zero_le _, fun _ => rfl, ?_⟩
    · intro d found
      cases found
    · intro d found
      cases found
    · intro c out
      cases out

/-- A run accepts at most one frame with each call. -/
theorem accepted_le {t : List Call} {ops : List Op}
    (run : trace (Receiver.apply blake3 soliton) r ops = .ok (t, r'))
    (bounded : ∀ e ∈ t, Bounded limits e) : accepted r' ≤ accepted r + t.length := by
  induction t generalizing r ops with
  | nil =>
    obtain ⟨_, rfl⟩ := trace_eq_nil run
    exact Nat.le_refl _
  | cons e t ih =>
    obtain ⟨rest, _, rfl, _, calls⟩ := trace_eq_cons run
    have first := (bounded e (by simp)).accepts
    have others := ih calls fun e' mem => bounded e' (by simp [mem])
    rw [List.length_cons]
    omega

end

/-- Whatever is pushed into a receiver, in every state the vectors of its decoder
are bounded by the limits, apart from the set of the sequence numbers, and so is
what it delivers. A container of `k` blocks takes at least `k` pushes since the
last reset. -/
theorem receiver_limits (blake3 : Blake3) (soliton : SolitonCdf) (limits : ReceiverLimits)
    (ops : List Op) :
    ∃ t r, trace (Receiver.apply blake3 soliton) (withLimits limits) ops = .ok (t, r) ∧
      (∀ e ∈ t, ∀ d, e.after.decoder = some d → Footprint limits d) ∧
      (∀ c ∈ deliveries t, c.length ≤ limits.maxStreamBytes) ∧
      ∀ old mid e later c, t = old ++ (mid ++ e :: later) →
        (∀ older last, old = older ++ [last] → last.input = .reset) → e.output = .ok (some c) →
          ∃ id, e.after.identity = some id ∧ id.k.toNat ≤ mid.length + 1 := by
  have start : Kept limits (withLimits limits) := ⟨.idle, rfl, fun d found => by cases found⟩
  obtain ⟨t, r, run, _, all⟩ := trace_ok (Kept limits) (Bounded limits)
    (fun r op kept => kept.apply blake3 soliton op) start ops
  have bounded : ∀ e ∈ t, Bounded limits e := fun e mem => (all e mem).2
  refine ⟨t, r, run, fun e mem => (bounded e mem).footprint, ?_, ?_⟩
  · intro c mem
    obtain ⟨e, here, out⟩ := List.mem_filterMap.mp mem
    exact ((bounded e here).delivers c (delivery_eq_some.mp out)).1
  · rintro old mid e later c rfl resets out
    obtain ⟨s, before, rest⟩ := trace_split run
    have clean : accepted s = 0 := by
      rcases List.eq_nil_or_concat' old with rfl | ⟨older, last, rfl⟩
      · obtain ⟨_, rfl⟩ := trace_eq_nil before
        rfl
      · have last_run := (trace_upto before).2
        rw [before] at last_run
        cases last_run
        exact (bounded last (by simp)).restarts (resets older last rfl)
    obtain ⟨id, found, enough⟩ := ((bounded e (by simp)).delivers c out).2
    have count := accepted_le (trace_upto rest).2 fun e' mem => bounded e' (by
      rcases List.mem_append.mp mem with mem | mem
      · simp [mem]
      · simp [List.mem_singleton.mp mem])
    refine ⟨id, found, enough.trans ?_⟩
    rw [clean, List.length_append, List.length_singleton] at count
    omega

end Receiver

end DeOptiTransfer
