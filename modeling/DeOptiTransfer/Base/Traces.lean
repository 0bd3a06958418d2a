import DeOptiTransfer.Base.Exec

/-!
# Traces of a machine

A machine answers every input and moves to a next state. A trace lists what
happened: the state before, the input, the output and the state after.

* `trace_ok`: the rule for invariants and for what every event meets;
* `trace_append`, `trace_split`, `trace_upto`: a trace in two parts;
* `trace_filter`: events that leave the state as it is can be left out;
* `trace_map`: a trace as one of a machine with more inputs.
-/

namespace DeOptiTransfer

structure Event (σ ι ο : Type) where
  before : σ
  input : ι
  output : ο
  after : σ

section
variable {σ ι ο : Type} {step : σ → ι → Exec (ο × σ)} {s s' : σ} {inputs : List ι}
  {t t₁ t₂ : List (Event σ ι ο)}

/-- Answer `inputs` one after the other. -/
def trace (step : σ → ι → Exec (ο × σ)) : σ → List ι → Exec (List (Event σ ι ο) × σ)
  | s, [] => .ok ([], s)
  | s, input :: rest => do
    let (output, s₁) ← step s input
    let (t, s') ← trace step s₁ rest
    .ok (⟨s, input, output, s₁⟩ :: t, s')

theorem trace_cons {input : ι} {rest : List ι} {output : ο} {s₁ : σ}
    (call : step s input = .ok (output, s₁)) (calls : trace step s₁ rest = .ok (t, s')) :
    trace step s (input :: rest) = .ok (⟨s, input, output, s₁⟩ :: t, s') := by
  simp only [trace, call, exec_ok_bind, calls]

/-- What a trace that starts with an event says. -/
theorem trace_eq_cons {e : Event σ ι ο} (h : trace step s inputs = .ok (e :: t, s')) :
    ∃ rest, inputs = e.input :: rest ∧ e.before = s ∧ step s e.input = .ok (e.output, e.after) ∧
      trace step e.after rest = .ok (t, s') := by
  cases inputs with
  | nil => cases h
  | cons input rest =>
    obtain ⟨⟨output, s₁⟩, call, h⟩ := exec_bind_eq_ok.mp h
    obtain ⟨⟨t', s₂⟩, calls, h⟩ := exec_bind_eq_ok.mp h
    cases h
    exact ⟨rest, rfl, rfl, call, calls⟩

theorem trace_eq_nil (h : trace step s inputs = .ok ([], s')) : inputs = [] ∧ s' = s := by
  cases inputs with
  | nil =>
    cases h
    exact ⟨rfl, rfl⟩
  | cons input rest =>
    obtain ⟨⟨output, s₁⟩, _, h⟩ := exec_bind_eq_ok.mp h
    obtain ⟨⟨t', s₂⟩, _, h⟩ := exec_bind_eq_ok.mp h
    cases h

theorem trace_inputs (h : trace step s inputs = .ok (t, s')) : t.map (·.input) = inputs := by
  induction t generalizing s inputs with
  | nil => exact (trace_eq_nil h).1.symm
  | cons e t ih =>
    obtain ⟨rest, rfl, _, _, calls⟩ := trace_eq_cons h
    rw [List.map_cons, ih calls]

/-- Invariant rule. If every step from a state with `Inv` returns, keeps `Inv`
and meets `Post`, so do all steps of a trace. -/
theorem trace_ok (Inv : σ → Prop) (Post : Event σ ι ο → Prop)
    (step_ok : ∀ s input, Inv s →
      ∃ output s', step s input = .ok (output, s') ∧ Inv s' ∧ Post ⟨s, input, output, s'⟩)
    (start : Inv s) (inputs : List ι) :
    ∃ t s', trace step s inputs = .ok (t, s') ∧ Inv s' ∧ ∀ e ∈ t, Inv e.before ∧ Post e := by
  induction inputs generalizing s with
  | nil => exact ⟨[], s, rfl, start, by simp⟩
  | cons input rest ih =>
    obtain ⟨output, s₁, call, inv₁, post⟩ := step_ok s input start
    obtain ⟨t, s', calls, inv, all⟩ := ih inv₁
    refine ⟨_, s', trace_cons call calls, inv, fun e mem => ?_⟩
    rcases List.mem_cons.mp mem with rfl | mem
    · exact ⟨start, post⟩
    · exact all e mem

theorem trace_append (h : trace step s (t₁.map (·.input)) = .ok (t₁, s'))
    {s'' : σ} (h' : trace step s' (t₂.map (·.input)) = .ok (t₂, s'')) :
    trace step s ((t₁ ++ t₂).map (·.input)) = .ok (t₁ ++ t₂, s'') := by
  induction t₁ generalizing s with
  | nil =>
    obtain ⟨_, rfl⟩ := trace_eq_nil h
    exact h'
  | cons e t ih =>
    obtain ⟨rest, eq, rfl, call, calls⟩ := trace_eq_cons h
    rw [List.map_cons, List.cons.injEq] at eq
    rw [← eq.2] at calls
    exact trace_cons call (ih calls)

/-- The parts of a trace are traces. -/
theorem trace_split (h : trace step s inputs = .ok (t₁ ++ t₂, s')) :
    ∃ s₁, trace step s (t₁.map (·.input)) = .ok (t₁, s₁) ∧
      trace step s₁ (t₂.map (·.input)) = .ok (t₂, s') := by
  induction t₁ generalizing s inputs with
  | nil =>
    rw [List.nil_append] at h
    exact ⟨s, rfl, by rw [trace_inputs h, h]⟩
  | cons e t ih =>
    obtain ⟨rest, _, rfl, call, calls⟩ := trace_eq_cons h
    obtain ⟨s₁, first, second⟩ := ih calls
    exact ⟨s₁, trace_cons call first, second⟩

/-- A trace up to an event, without and with it. -/
theorem trace_upto {e : Event σ ι ο} (h : trace step s inputs = .ok (t₁ ++ e :: t₂, s')) :
    trace step s (t₁.map (·.input)) = .ok (t₁, e.before) ∧
      trace step s ((t₁ ++ [e]).map (·.input)) = .ok (t₁ ++ [e], e.after) := by
  obtain ⟨s₁, first, second⟩ := trace_split h
  obtain ⟨rest, _, rfl, call, _⟩ := trace_eq_cons second
  exact ⟨first, trace_append first (trace_cons call rfl)⟩

/-- Events that change nothing can be left out, and the rest of the trace stays
as it is. -/
theorem trace_filter (keep : Event σ ι ο → Bool) (h : trace step s inputs = .ok (t, s'))
    (idle : ∀ e ∈ t, keep e = false → e.after = e.before) :
    trace step s ((t.filter keep).map (·.input)) = .ok (t.filter keep, s') := by
  induction t generalizing s inputs with
  | nil =>
    obtain ⟨_, rfl⟩ := trace_eq_nil h
    rfl
  | cons e t ih =>
    obtain ⟨rest, rfl, rfl, call, calls⟩ := trace_eq_cons h
    have tail := ih calls fun e' mem => idle e' (by simp [mem])
    cases kept : keep e with
    | true =>
      rw [List.filter_cons_of_pos kept]
      exact trace_cons call tail
    | false =>
      rw [List.filter_cons_of_neg (by simp [kept])]
      rw [idle e (by simp) kept] at tail
      exact tail

theorem trace_concat {s₁ : σ} {inputs' : List ι} (h : trace step s inputs = .ok (t₁, s₁))
    (h' : trace step s₁ inputs' = .ok (t₂, s')) :
    trace step s (inputs ++ inputs') = .ok (t₁ ++ t₂, s') := by
  have eq := trace_inputs h
  have eq' := trace_inputs h'
  subst eq eq'
  rw [← List.map_append]
  exact trace_append h h'

variable {κ : Type} {step' : σ → κ → Exec (ο × σ)} {f : ι → κ}

/-- The event as one of a machine that calls its input `f input`. -/
def Event.onInput (f : ι → κ) (e : Event σ ι ο) : Event σ κ ο :=
  ⟨e.before, f e.input, e.output, e.after⟩

theorem trace_map (same : ∀ s input, step' s (f input) = step s input)
    (h : trace step s inputs = .ok (t, s')) :
    trace step' s (inputs.map f) = .ok (t.map (·.onInput f), s') := by
  induction t generalizing s inputs with
  | nil =>
    obtain ⟨rfl, rfl⟩ := trace_eq_nil h
    rfl
  | cons e t ih =>
    obtain ⟨rest, rfl, rfl, call, calls⟩ := trace_eq_cons h
    exact trace_cons ((same _ _).trans call) (ih calls)

end

end DeOptiTransfer
