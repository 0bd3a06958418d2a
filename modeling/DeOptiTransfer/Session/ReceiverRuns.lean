import DeOptiTransfer.Base.Traces
import DeOptiTransfer.Session.Receiver

/-!
# Runs of the receiver

Any number of pushes of any byte strings, with resets in between.
`receiver_runs`: decoder and identity stay together, a stream is delivered once,
and a refused push leaves the receiver as it was, or new when the tag was wrong.
-/

namespace DeOptiTransfer

namespace Receiver

inductive Op where
  | push (bytes : List UInt8)
  | reset
  deriving DecidableEq, Repr

/-- One call. A reset has no result and is given that of a push that delivers
nothing. -/
def apply (blake3 : Blake3) (soliton : SolitonCdf) (r : Receiver) :
    Op → Exec (Except Error (Option (List UInt8)) × Receiver)
  | .push bytes => r.tryPush blake3 soliton bytes
  | .reset => .ok (.ok none, r.reset)

abbrev Call := Event Receiver Op (Except Error (Option (List UInt8)))

section
variable {ι : Type}

def delivery (e : Event Receiver ι (Except Error (Option (List UInt8)))) : Option (List UInt8) :=
  match e.output with
  | .ok container => container
  | .error _ => none

def deliveries (t : List (Event Receiver ι (Except Error (Option (List UInt8))))) :
    List (List UInt8) :=
  t.filterMap delivery

theorem delivery_eq_some {e : Event Receiver ι (Except Error (Option (List UInt8)))}
    {c : List UInt8} : delivery e = some c ↔ e.output = .ok (some c) := by
  unfold delivery
  cases e.output <;> simp

end

/-- Decoder and identity are both there or both absent, and fit together. -/
structure Consistent (limits : ReceiverLimits) (r : Receiver) : Prop where
  limits_eq : r.limits = limits
  both : r.decoder.isSome = r.identity.isSome
  agrees : ∀ d id, r.decoder = some d → r.identity = some id → Agrees id d ∧ Within limits id

/-- The frame completes the stream, whose tag does not match. -/
def WrongTag (blake3 : Blake3) (soliton : SolitonCdf) (r : Receiver) (bytes : List UInt8) : Prop :=
  ∃ h block d d' container, Parsed blake3 bytes h block ∧
    r.lock soliton h = .ok (.ok (locked r.limits (streamIdentity h) d)) ∧
    d.addFrame h.seq block = .ok d' ∧ d'.assemble = .ok (some container) ∧
    checksum32 blake3 container ≠ h.streamTag

/-- The push that a receiver which has not delivered answers by starting over. -/
def StartsOver (blake3 : Blake3) (soliton : SolitonCdf) (r : Receiver) (bytes : List UInt8) : Prop :=
  r.delivered = false ∧ WrongTag blake3 soliton r bytes

section
variable {blake3 : Blake3} {soliton : SolitonCdf} {limits : ReceiverLimits} {r r' : Receiver}
  {bytes : List UInt8} {result : Except Error (Option (List UInt8))}

theorem State.consistent (state : State r) : Consistent r.limits r := by
  cases state with
  | idle => exact ⟨rfl, rfl, fun d id found => by cases found⟩
  | active _ agrees within =>
    refine ⟨rfl, rfl, fun d id found found' => ?_⟩
    cases found
    cases found'
    exact ⟨agrees, within⟩

/-- The two `ok_or(Error::InvalidStream)` of `try_push` never fire. -/
theorem feed_never_falls_back (blake3 : Blake3) (state : State r) {h : FrameHeader}
    (block : List UInt8) (lock : r.lock soliton h = .ok (.ok r')) :
    ∃ result r'', r'.feed blake3 h block = .ok (result, r'') ∧ result ≠ .error .invalidStream := by
  obtain ⟨_, lock', settled⟩ := lock_ok soliton state h
  rw [lock] at lock'
  cases lock'
  obtain ⟨d, A, rfl, _, wf, _⟩ := settled r' rfl
  cases waiting : d.isComplete with
  | true => exact ⟨_, _, feed_complete waiting, by simp⟩
  | false =>
    obtain ⟨d', A', _, _, _, calls⟩ := feed_waiting blake3 r.limits (streamIdentity h) wf
      waiting h.seq block
    rcases calls h rfl with ⟨_, feed⟩ | ⟨container, _, _, _, feed⟩
    · exact ⟨_, _, feed, by simp⟩
    · rw [feed]
      split
      · exact ⟨_, _, rfl, by simp⟩
      · exact ⟨_, _, rfl, by simp⟩

theorem Pushed.limits_eq (pushed : Pushed blake3 soliton r bytes result r') :
    r'.limits = r.limits := by
  cases pushed <;> rfl

/-- What holds of every call. -/
structure Post (blake3 : Blake3) (soliton : SolitonCdf) (e : Call) : Prop where
  limits_eq : e.after.limits = e.before.limits
  /-- A delivery is of the length and the tag of the identity. -/
  delivered : ∀ c, e.output = .ok (some c) → e.after.delivered = true ∧
    ∃ id, e.after.identity = some id ∧ c.length = id.totalLen.toNat ∧
      checksum32 blake3 c = id.streamTag
  /-- A receiver that has delivered does so no more until it is reset. -/
  quiet : e.input ≠ .reset → e.before.delivered = true →
    (∀ c, e.output ≠ .ok (some c)) ∧ e.after.delivered = true
  /-- A container of the wrong tag starts the receiver over. -/
  restarts : ∀ bytes, e.input = .push bytes → StartsOver blake3 soliton e.before bytes →
    e.output = .error .corruptFrame ∧ e.after = withLimits e.before.limits
  /-- Any other push that fails changes nothing. -/
  unchanged : ∀ bytes err, e.input = .push bytes → e.output = .error err →
    ¬ StartsOver blake3 soliton e.before bytes → e.after = e.before

theorem lock_delivered {h : FrameHeader} (lock : r.lock soliton h = .ok (.ok r')) :
    r'.delivered = r.delivered := by
  unfold Receiver.lock at lock
  dsimp only at lock
  split at lock
  · split at lock
    · cases lock
    · cases lock
      rfl
  · split at lock
    · cases lock
    · obtain ⟨built, _, lock⟩ := exec_bind_eq_ok.mp lock
      cases built <;> cases lock
      rfl

theorem StartsOver.push (starts : StartsOver blake3 soliton r bytes) :
    r.tryPush blake3 soliton bytes = .ok (.error .corruptFrame, withLimits r.limits) := by
  obtain ⟨undelivered, h, block, d, d', container, parsed, lock, added, read, wrong⟩ := starts
  have waiting : d.isComplete = false := (lock_delivered lock).trans undelivered
  have complete : d'.isComplete = true := by
    by_contra unfinished
    rw [LtDecoder.assemble, if_pos unfinished] at read
    cases read
  rw [tryPush_of_lock (parseFrame_eq_some_iff.mpr parsed) lock]
  simp [feed, locked, waiting, added, complete, read, wrong, reset, withLimits]

theorem Pushed.post (call : r.tryPush blake3 soliton bytes = .ok (result, r'))
    (pushed : Pushed blake3 soliton r bytes result r') :
    Post blake3 soliton ⟨r, .push bytes, result, r'⟩ := by
  refine ⟨pushed.limits_eq, ?_, ?_, ?_, ?_⟩
  · intro c eq
    cases pushed with
    | delivers _ _ _ _ complete _ length tag =>
      cases eq
      exact ⟨complete, _, rfl, length, tag⟩
    | _ => cases eq
  · intro _ (done : r.delivered = true)
    cases pushed with
    | unparsed | refused _ _ | late _ _ _ =>
      exact ⟨(fun c eq => by cases eq), done⟩
    | fed _ lock waiting _ _ | mismatched _ lock waiting _ _ _ | delivers _ lock waiting _ _ _ _ _ =>
      rw [← lock_delivered lock] at done
      exact absurd (done.symm.trans waiting) (by decide)
  · intro bytes' input starts
    cases input
    have restarted := starts.push
    rw [call] at restarted
    exact Prod.mk.inj (Except.ok.inj restarted)
  · intro bytes' err input eq other
    cases input
    cases pushed with
    | unparsed | refused _ _ => rfl
    | mismatched parsed lock waiting added read wrong =>
      refine absurd ⟨?_, _, _, _, _, _, parsed, lock, added, read, wrong⟩ other
      exact (lock_delivered lock).symm.trans waiting
    | late _ _ _ | fed _ _ _ _ _ | delivers _ _ _ _ _ _ _ _ => cases eq

theorem apply_ok (blake3 : Blake3) (soliton : SolitonCdf) (state : State r) (op : Op) :
    ∃ result r', r.apply blake3 soliton op = .ok (result, r') ∧ State r' ∧
      Post blake3 soliton ⟨r, op, result, r'⟩ := by
  cases op with
  | push bytes =>
    obtain ⟨result, r', call, state', pushed⟩ := tryPush_ok blake3 soliton state bytes
    exact ⟨result, r', call, state', pushed.post call⟩
  | reset =>
    refine ⟨.ok none, r.reset, rfl, .idle, rfl, ?_, ?_, ?_, ?_⟩
    · intro c eq
      cases eq
    · intro other
      exact absurd rfl other
    · intro bytes input
      cases input
    · intro bytes err input
      cases input

/-! ## Whole runs -/

theorem deliveries_eq_nil {t : List Call} (none : ∀ e ∈ t, ∀ c, e.output ≠ .ok (some c)) :
    deliveries t = [] := by
  rw [deliveries, List.filterMap_eq_nil_iff]
  intro e mem
  rw [Option.eq_none_iff_forall_ne_some]
  intro c eq
  exact none e mem c (delivery_eq_some.mp eq)

theorem quiet_run {t : List Call} {ops : List Op}
    (run : trace (apply blake3 soliton) r ops = .ok (t, r'))
    (post : ∀ e ∈ t, Post blake3 soliton e) (unreset : ∀ e ∈ t, e.input ≠ .reset)
    (delivered : r.delivered = true) : ∀ e ∈ t, ∀ c, e.output ≠ .ok (some c) := by
  induction t generalizing r ops with
  | nil => simp
  | cons e t ih =>
    obtain ⟨rest, _, rfl, _, calls⟩ := trace_eq_cons run
    obtain ⟨silent, still⟩ := (post e (by simp)).quiet (unreset e (by simp)) delivered
    intro e' mem
    rcases List.mem_cons.mp mem with rfl | mem
    · exact silent
    · exact ih calls (fun e' mem => post e' (by simp [mem])) (fun e' mem => unreset e' (by simp [mem]))
        still e' mem

/-- Between two resets there is at most one delivery. -/
theorem deliveries_le_one {t : List Call} {ops : List Op}
    (run : trace (apply blake3 soliton) r ops = .ok (t, r'))
    (post : ∀ e ∈ t, Post blake3 soliton e) (unreset : ∀ e ∈ t, e.input ≠ .reset) :
    (deliveries t).length ≤ 1 := by
  induction t generalizing r ops with
  | nil => simp [deliveries]
  | cons e t ih =>
    obtain ⟨rest, _, _, _, calls⟩ := trace_eq_cons run
    have post' : ∀ e' ∈ t, Post blake3 soliton e' := fun e' mem => post e' (by simp [mem])
    have unreset' : ∀ e' ∈ t, e'.input ≠ .reset := fun e' mem => unreset e' (by simp [mem])
    cases out : delivery e with
    | none =>
      rw [deliveries, List.filterMap_cons_none out]
      exact ih calls post' unreset'
    | some c =>
      have done := ((post e (by simp)).delivered c (delivery_eq_some.mp out)).1
      have silent := quiet_run calls post' unreset' done
      rw [deliveries, List.filterMap_cons_some out]
      have rest_nil : deliveries t = [] := deliveries_eq_nil silent
      rw [deliveries] at rest_nil
      simp [rest_nil]

/-- Decoder and identity agree and the inner fallbacks are never taken; a stream is
delivered at most once between two resets, with the length and the tag of its
identity; a push that completes a stream of the wrong tag starts over, and any
other failed push changes nothing, so that it can be left out of a run. -/
theorem receiver_runs (blake3 : Blake3) (soliton : SolitonCdf) (limits : ReceiverLimits)
    (ops : List Op) :
    ∃ t r, trace (apply blake3 soliton) (withLimits limits) ops = .ok (t, r) ∧
      Consistent limits r ∧
      (∀ h block r₁, r.lock soliton h = .ok (.ok r₁) → ∃ result r₂,
        r₁.feed blake3 h block = .ok (result, r₂) ∧ result ≠ .error .invalidStream) ∧
      (∀ before mid after, t = before ++ (mid ++ after) → (∀ e ∈ mid, e.input ≠ .reset) →
        (deliveries mid).length ≤ 1) ∧
      (∀ before e mid after c, t = before ++ e :: (mid ++ after) → e.output = .ok (some c) →
        (∃ id, e.after.identity = some id ∧ c.length = id.totalLen.toNat ∧
          checksum32 blake3 c = id.streamTag) ∧
        ((∀ e' ∈ mid, e'.input ≠ .reset) → ∀ e' ∈ mid, ∀ c', e'.output ≠ .ok (some c'))) ∧
      (∀ e ∈ t, ∀ bytes, e.input = .push bytes →
        (StartsOver blake3 soliton e.before bytes →
          e.output = .error .corruptFrame ∧ e.after = withLimits limits) ∧
        (¬ StartsOver blake3 soliton e.before bytes →
          ∀ err, e.output = .error err → e.after = e.before)) ∧
      ∀ keep : Call → Bool, (∀ e ∈ t, keep e = false → ∃ bytes err, e.input = .push bytes ∧
          e.output = .error err ∧ ¬ StartsOver blake3 soliton e.before bytes) →
        trace (apply blake3 soliton) (withLimits limits) ((t.filter keep).map (·.input)) =
          .ok (t.filter keep, r) := by
  obtain ⟨t, r, run, ⟨state, limits_eq⟩, each⟩ := trace_ok
    (fun r => State r ∧ r.limits = limits) (Post blake3 soliton)
    (by
      rintro r op ⟨state, limits_eq⟩
      obtain ⟨result, r', call, state', post⟩ := apply_ok blake3 soliton state op
      exact ⟨result, r', call, ⟨state', post.limits_eq.trans limits_eq⟩, post⟩)
    ⟨State.idle, rfl⟩ ops
  have post : ∀ e ∈ t, Post blake3 soliton e := fun e mem => (each e mem).2
  refine ⟨t, r, run, limits_eq ▸ state.consistent, ?_, ?_, ?_, ?_, ?_⟩
  · exact fun h block r₁ lock => feed_never_falls_back blake3 state block lock
  · rintro before mid after rfl unreset
    obtain ⟨_, _, run⟩ := trace_split run
    obtain ⟨_, run, _⟩ := trace_split run
    exact deliveries_le_one run (fun e mem => post e (by simp [mem])) unreset
  · rintro before e mid after c rfl out
    obtain ⟨done, fits⟩ := (post e (by simp)).delivered c out
    refine ⟨fits, fun unreset => ?_⟩
    obtain ⟨_, _, run⟩ := trace_split run
    obtain ⟨rest, _, _, _, run⟩ := trace_eq_cons run
    obtain ⟨_, run, _⟩ := trace_split run
    exact quiet_run run (fun e' mem => post e' (by simp [mem])) unreset done
  · intro e mem bytes input
    rw [← (each e mem).1.2]
    exact ⟨(post e mem).restarts bytes input,
      fun other err output => (post e mem).unchanged bytes err input output other⟩
  · intro keep rejected
    refine trace_filter keep run fun e mem dropped => ?_
    obtain ⟨bytes, err, input, output, other⟩ := rejected e mem dropped
    exact (post e mem).unchanged bytes err input output other

end

end Receiver

end DeOptiTransfer
