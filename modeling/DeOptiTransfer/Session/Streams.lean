import DeOptiTransfer.Session.Channel

/-!
# Stream after stream

A receiver is reset between streams. Whatever it was given before, each stream is
delivered as if the receiver were new; and before a reset nothing of another stream
gets in.

* `Transmission.run`: one stream, after any history;
* `locked_run`: strings of other streams at a receiver that is locked;
* `streams_in_order`: any number of streams.
-/

namespace DeOptiTransfer

namespace Receiver

/-- One stream: the sender of a container, and what the receiver is given between
two resets. -/
structure Transmission (blake3 : Blake3) (soliton : SolitonCdf) (limits : ReceiverLimits) where
  mode : Mode
  container : List UInt8
  blockLen : Nat
  sessionId : UInt16
  sender : Sender
  inputs : List (List UInt8)
  built : Sender.build mode blake3 soliton container blockLen sessionId = .ok (.ok sender)
  admitted : Within limits sender.identity
  channel : sender.Channel blake3 inputs

namespace Transmission

variable {blake3 : Blake3} {soliton : SolitonCdf} {limits : ReceiverLimits}

def ops (x : Transmission blake3 soliton limits) : List Op := .reset :: x.inputs.map .push

/-- The decoder has room for all that is received. -/
def Fits (x : Transmission blake3 soliton limits) : Prop :=
  ∃ S, x.sender.InBudget x.mode S ∧ x.sender.received blake3 x.inputs ⊆ S

/-- Every block of the container follows from what is received. -/
def Complete (x : Transmission blake3 soliton limits) : Prop :=
  x.sender.Determined blake3 x.mode x.inputs

end Transmission

section
variable {blake3 : Blake3} {soliton : SolitonCdf} {limits : ReceiverLimits} {r : Receiver}

theorem deliveries_append {ι : Type}
    (t₁ t₂ : List (Event Receiver ι (Except Error (Option (List UInt8))))) :
    deliveries (t₁ ++ t₂) = deliveries t₁ ++ deliveries t₂ :=
  List.filterMap_append

theorem deliveries_onInput {ι κ : Type} (f : ι → κ)
    (t : List (Event Receiver ι (Except Error (Option (List UInt8))))) :
    deliveries (t.map (·.onInput f)) = deliveries t := by
  rw [deliveries, List.filterMap_map]
  rfl

/-- A history leaves a receiver in order. -/
theorem history_run (blake3 : Blake3) (soliton : SolitonCdf) (state : State r) (ops : List Op) :
    ∃ t r', trace (apply blake3 soliton) r ops = .ok (t, r') ∧ State r' ∧
      r'.limits = r.limits := by
  obtain ⟨t, r', run, ⟨state', limits_eq⟩, _⟩ := trace_ok
    (fun r' => State r' ∧ r'.limits = r.limits) (Post blake3 soliton)
    (by
      rintro r₁ op ⟨state₁, limits_eq⟩
      obtain ⟨result, r₂, call, state₂, post⟩ := apply_ok blake3 soliton state₁ op
      exact ⟨result, r₂, call, ⟨state₂, post.limits_eq.trans limits_eq⟩, post⟩)
    ⟨state, rfl⟩ ops
  exact ⟨t, r', run, state', limits_eq⟩

theorem Transmission.run (x : Transmission blake3 soliton limits) (state : State r)
    (limits_eq : r.limits = limits) :
    ∃ t r', trace (apply blake3 soliton) r x.ops = .ok (t, r') ∧ State r' ∧
      r'.limits = limits ∧ (deliveries t = [] ∨ deliveries t = [x.container]) ∧
      (x.Fits → (deliveries t = [x.container] ↔ x.Complete)) := by
  obtain ⟨t, r', pushes, serves, exactly⟩ := channel_run x.built x.admitted x.channel
  have start : r.apply blake3 soliton .reset = .ok (.ok none, withLimits limits) := by
    rw [← limits_eq]
    rfl
  have same : ∀ r bytes, apply blake3 soliton r (.push bytes) = r.tryPush blake3 soliton bytes :=
    fun _ _ => rfl
  have run := trace_cons start (trace_map same pushes)
  obtain ⟨t', r'', run', state', limits_eq'⟩ := history_run blake3 soliton state x.ops
  rw [ops, run] at run'
  cases run'
  refine ⟨_, r', run, state', limits_eq'.trans limits_eq, ?_, ?_⟩
  · rw [deliveries, List.filterMap_cons_none rfl, ← deliveries, deliveries_onInput]
    exact (deliveries_run pushes serves).2
  · rintro ⟨S, fits, received⟩
    rw [deliveries, List.filterMap_cons_none rfl, ← deliveries, deliveries_onInput,
      deliveries_iff pushes serves rfl]
    exact exactly S fits received

/-- A locked receiver refuses other streams and stays as it is. -/
theorem locked_run {id : StreamIdentity} (state : State r) (active : r.identity = some id)
    (inputs : List (List UInt8))
    (other : ∀ bytes ∈ inputs, ∀ h block, parseFrame blake3 bytes = .ok (some (h, block)) →
      streamIdentity h ≠ id) :
    ∃ t, trace (apply blake3 soliton) r (inputs.map .push) = .ok (t, r) ∧
      ∀ e ∈ t, ∃ err, e.output = .error err := by
  induction inputs with
  | nil => exact ⟨[], rfl, by simp⟩
  | cons bytes rest ih =>
    obtain ⟨t, run, refused⟩ := ih fun b mem => other b (by simp [mem])
    have conflict : ∀ {h : FrameHeader} {block : List UInt8}, Parsed blake3 bytes h block →
        r.lock soliton h = .ok (.error .streamConflict) := by
      intro h block parsed
      have ne := other bytes (by simp) h block (parseFrame_eq_some_iff.mpr parsed)
      simp only [lock, active, ne_eq, ne.symm, not_false_eq_true, ↓reduceIte]
    have refuse : ∃ err, r.apply blake3 soliton (.push bytes) = .ok (.error err, r) := by
      obtain ⟨result, r', push, _, pushed⟩ := tryPush_ok blake3 soliton state bytes
      cases pushed with
      | unparsed | refused _ _ => exact ⟨_, push⟩
      | late parsed lock _ | fed parsed lock _ _ _ | mismatched parsed lock _ _ _ _
      | delivers parsed lock _ _ _ _ _ _ =>
        rw [conflict parsed] at lock
        cases lock
    obtain ⟨err, push⟩ := refuse
    refine ⟨_, trace_cons push run, fun e mem => ?_⟩
    rcases List.mem_cons.mp mem with rfl | mem
    · exact ⟨err, rfl⟩
    · exact refused e mem

open Classical in
/-- Any number of streams, one after the other. -/
theorem transmissions_run (xs : List (Transmission blake3 soliton limits)) (state : State r)
    (limits_eq : r.limits = limits) :
    ∃ t r', trace (apply blake3 soliton) r (xs.flatMap (·.ops)) = .ok (t, r') ∧ State r' ∧
      (deliveries t).Sublist (xs.map (·.container)) ∧
      ((∀ x ∈ xs, x.Fits) →
        deliveries t = (xs.filter fun x => x.Complete).map (·.container)) := by
  induction xs generalizing r with
  | nil => exact ⟨[], r, rfl, state, List.Sublist.refl [], fun _ => rfl⟩
  | cons x xs ih =>
    obtain ⟨t₁, r₁, run₁, state₁, limits₁, few, exactly⟩ := x.run state limits_eq
    obtain ⟨t₂, r₂, run₂, state₂, ordered, all⟩ := ih state₁ limits₁
    refine ⟨t₁ ++ t₂, r₂, ?_, state₂, ?_, fun fits => ?_⟩
    · rw [List.flatMap_cons]
      exact trace_concat run₁ run₂
    · rw [deliveries_append, List.map_cons]
      rcases few with none | one
      · rw [none, List.nil_append]
        exact ordered.cons x.container
      · rw [one]
        exact ordered.cons_cons x.container
    · have head := exactly (fits x (by simp))
      rw [deliveries_append, all fun x' mem => fits x' (by simp [mem])]
      by_cases complete : x.Complete
      · rw [head.mpr complete, List.filter_cons_of_pos (by simpa using complete), List.map_cons]
        rfl
      · have none := few.resolve_right (mt head.mp complete)
        rw [none, List.filter_cons_of_neg (by simpa using complete), List.nil_append]

open Classical in
/-- Streams arrive in order, each on its own. After any history, a receiver that
is reset before each of several streams delivers some of their containers, in
their order, and exactly those whose frames suffice if the budgets do; what it
is given of other streams after that is refused and changes nothing. -/
theorem streams_in_order (blake3 : Blake3) (soliton : SolitonCdf) (limits : ReceiverLimits)
    (history : List Op) (xs : List (Transmission blake3 soliton limits)) :
    ∃ t₀ r₀ t r, trace (apply blake3 soliton) (withLimits limits) history = .ok (t₀, r₀) ∧
      trace (apply blake3 soliton) r₀ (xs.flatMap (·.ops)) = .ok (t, r) ∧
      (deliveries t).Sublist (xs.map (·.container)) ∧
      ((∀ x ∈ xs, x.Fits) →
        deliveries t = (xs.filter fun x => x.Complete).map (·.container)) ∧
      ∀ (id : StreamIdentity) (inputs : List (List UInt8)), r.identity = some id →
        (∀ bytes ∈ inputs, ∀ h block, parseFrame blake3 bytes = .ok (some (h, block)) →
          streamIdentity h ≠ id) →
        ∃ t', trace (apply blake3 soliton) r (inputs.map .push) = .ok (t', r) ∧
          ∀ e ∈ t', ∃ err, e.output = .error err := by
  have new : State (withLimits limits) := .idle
  obtain ⟨t₀, r₀, before, state₀, limits_eq⟩ := history_run blake3 soliton new history
  obtain ⟨t, r, run, state, ordered, all⟩ := transmissions_run xs state₀ limits_eq
  exact ⟨t₀, r₀, t, r, before, run, ordered, all,
    fun _ inputs active other => locked_run state active inputs other⟩

end

def twoBlocksTransmission : Transmission sampleHash twoBlockSoliton .MAXIMUM where
  mode := .causal
  container := [0x61, 0x62]
  blockLen := 1
  sessionId := 7
  sender := Sender.twoBlocks .causal
  inputs := [[0xd1], Sender.twoBlocksFrame 1, Sender.twoBlocksFrame 0]
  built := Sender.twoBlocks_built .causal
  admitted := ⟨by decide, by decide, by decide⟩
  channel := twoBlocks_channel

theorem twoBlocksTransmission_fits : twoBlocksTransmission.Fits := by
  obtain ⟨sent₀, sent₁⟩ := twoBlocks_sent
  obtain ⟨_, wf, _⟩ := Sender.build_ok (Sender.twoBlocks_built .causal)
  refine ⟨{0, 1}, ⟨by decide, by decide +kernel⟩, ?_⟩
  rintro seq ⟨bytes, mem, sent⟩
  simp only [twoBlocksTransmission, List.mem_cons, List.not_mem_nil, or_false] at mem
  rcases mem with rfl | rfl | rfl
  · obtain ⟨_, parsed, _⟩ := Sender.sent_ok wf sent
    have junk : parseFrame sampleHash [0xd1] = .ok none := rfl
    rw [parseFrame_eq_some_iff.mpr parsed] at junk
    cases junk
  · simp [sent_unique wf sent sent₁]
  · simp [sent_unique wf sent sent₀]

theorem twoBlocksTransmission_complete : twoBlocksTransmission.Complete := by
  obtain ⟨sent₀, sent₁⟩ := twoBlocks_sent
  refine Sender.determined_of_collected (by decide) (Sender.twoBlocks_built .causal) ?_
  intro seq lt
  have few : seq = 0 ∨ seq = 1 := by
    have two : seq.toNat < 2 := lt
    rcases (show seq.toNat = 0 ∨ seq.toNat = 1 by omega) with eq | eq
    · exact Or.inl (UInt32.toNat_inj.mp eq)
    · exact Or.inr (UInt32.toNat_inj.mp eq)
  rcases few with rfl | rfl
  · exact ⟨_, by simp [twoBlocksTransmission], sent₀⟩
  · exact ⟨_, by simp [twoBlocksTransmission], sent₁⟩

theorem streams_in_order_twoBlocks :
    ∃ t r, trace (apply sampleHash twoBlockSoliton) (withLimits .MAXIMUM)
        (twoBlocksTransmission.ops ++ twoBlocksTransmission.ops) = .ok (t, r) ∧
      deliveries t = [[0x61, 0x62], [0x61, 0x62]] := by
  obtain ⟨_, _, t, r, before, run, _, all, _⟩ := streams_in_order sampleHash twoBlockSoliton
    .MAXIMUM [] [twoBlocksTransmission, twoBlocksTransmission]
  cases before
  refine ⟨t, r, run, (all fun x mem => ?_).trans ?_⟩
  · simp only [List.mem_cons, List.not_mem_nil, or_false, or_self] at mem
    exact mem ▸ twoBlocksTransmission_fits
  · simp only [twoBlocksTransmission_complete, decide_true, List.filter_cons_of_pos, List.filter_nil]
    rfl

end Receiver

end DeOptiTransfer
