import Mathlib.Algebra.Group.Nat.Defs
import Mathlib.Data.List.Basic
import Mathlib.Tactic.Common

/-!
# Programs that can stop

A program of a language with checked indexing either returns or panics, and a
loop that is not structurally recursive is given a bound it must not reach.
`Exec` is the type of such computations, with the checked list operations the
models use:

* `getAt`, `setAt`, `slice`, `splitAtMut`, `writeSlice`: indexing and slicing;
* `foldlM_ok`, `foldlM_keeps`: the rules for loops over a list, from an
  invariant that each turn keeps;
* `exec_bind_eq_ok`: inversion of a sequence that has returned.
-/

namespace DeOptiTransfer

/-- Why a computation has no result. `precondition` and `diverges` are checks
of the model: the first is a condition that a call must meet and the source
does not test, the second says that a loop was still running at the bound the
model gives it. -/
inductive Panic where
  | outOfBounds
  | underflow
  | assertion
  | noValue
  | unreachable
  | precondition
  | diverges
  deriving DecidableEq, Repr

abbrev Exec (α : Type) := Except Panic α

@[simp] theorem exec_pure {α : Type} (a : α) : (pure a : Exec α) = .ok a := rfl

@[simp] theorem exec_ok_bind {α β : Type} (a : α) (f : α → Exec β) :
    ((Except.ok a : Exec α) >>= f) = f a := rfl

@[simp] theorem exec_error_bind {α β : Type} (e : Panic) (f : α → Exec β) :
    ((Except.error e : Exec α) >>= f) = .error e := rfl

/-- The condition `c` of a call, checked where the call is made. -/
def requires (c : Prop) [Decidable c] : Exec Unit :=
  if c then .ok () else .error .precondition

theorem requires_ok {c : Prop} [Decidable c] (h : c) : requires c = .ok () := by
  simp [requires, h]

/-- A sequence returns exactly when its first part returns and the rest
returns from there. -/
theorem exec_bind_eq_ok {α β : Type} {x : Exec α} {f : α → Exec β} {r : β} :
    x >>= f = .ok r ↔ ∃ a, x = .ok a ∧ f a = .ok r := by
  cases x with
  | error e => simp
  | ok a => simp

/-- What is done to the result of a sequence is done to that of its last part. -/
theorem exec_map_bind {α β γ : Type} (x : Exec α) (f : α → Exec β) (g : β → γ) :
    (x >>= f).map g = x >>= fun a => (f a).map g := by
  cases x with
  | error e => rfl
  | ok a => rfl

section Lists
variable {α : Type}

/-- `xs[i]` -/
def getAt (xs : List α) (i : Nat) : Exec α :=
  match xs[i]? with
  | some a => .ok a
  | none => .error .outOfBounds

/-- `xs[i] = a` -/
def setAt (xs : List α) (i : Nat) (a : α) : Exec (List α) :=
  if i < xs.length then .ok (xs.set i a) else .error .outOfBounds

/-- `&xs[lo..hi]` -/
def slice (xs : List α) (lo hi : Nat) : Exec (List α) :=
  if lo ≤ hi ∧ hi ≤ xs.length then .ok ((xs.drop lo).take (hi - lo)) else .error .outOfBounds

/-- `xs.split_at_mut(mid)` and `xs.split_at(mid)` -/
def splitAtMut (xs : List α) (mid : Nat) : Exec (List α × List α) :=
  if mid ≤ xs.length then .ok (xs.take mid, xs.drop mid) else .error .outOfBounds

/-- `xs[lo..hi].copy_from_slice(src)` -/
def writeSlice (xs : List α) (lo hi : Nat) (src : List α) : Exec (List α) :=
  if lo ≤ hi ∧ hi ≤ xs.length ∧ src.length = hi - lo then
    .ok (xs.take lo ++ src ++ xs.drop hi)
  else .error .outOfBounds

/-- `a - b` on an unsigned type -/
def checkedSub (a b : Nat) : Exec Nat :=
  if b ≤ a then .ok (a - b) else .error .underflow

theorem getAt_eq_ok {xs : List α} {i : Nat} {a : α} : getAt xs i = .ok a ↔ xs[i]? = some a := by
  unfold getAt
  cases xs[i]? <;> simp

theorem getAt_of_lt {xs : List α} {i : Nat} (h : i < xs.length) : getAt xs i = .ok xs[i] :=
  getAt_eq_ok.mpr (List.getElem?_eq_getElem h)

theorem setAt_of_lt {xs : List α} {i : Nat} (h : i < xs.length) (a : α) :
    setAt xs i a = .ok (xs.set i a) := by
  simp [setAt, h]

theorem setAt_length {xs ys : List α} {i : Nat} {a : α} (h : setAt xs i a = .ok ys) :
    ys.length = xs.length := by
  unfold setAt at h
  split at h
  · cases h
    exact List.length_set
  · cases h

theorem slice_of_le {xs : List α} {lo hi : Nat} (h : lo ≤ hi) (h' : hi ≤ xs.length) :
    slice xs lo hi = .ok ((xs.drop lo).take (hi - lo)) := by
  simp [slice, h, h']

/-- The part between the other two. -/
theorem slice_append {pre mid post : List α} {lo hi : Nat} (lo_eq : pre.length = lo)
    (hi_eq : lo + mid.length = hi) : slice (pre ++ mid ++ post) lo hi = .ok mid := by
  subst lo_eq hi_eq
  rw [slice_of_le (Nat.le_add_right _ _) (by simp), List.append_assoc, List.drop_left,
    Nat.add_sub_cancel_left, List.take_left]

theorem splitAtMut_append {pre post : List α} {mid : Nat} (mid_eq : pre.length = mid) :
    splitAtMut (pre ++ post) mid = .ok (pre, post) := by
  subst mid_eq
  simp [splitAtMut]

theorem splitAtMut_of_le {xs : List α} {mid : Nat} (h : mid ≤ xs.length) :
    splitAtMut xs mid = .ok (xs.take mid, xs.drop mid) := by
  simp [splitAtMut, h]

theorem writeSlice_of_le {xs src : List α} {lo hi : Nat} (h : lo ≤ hi) (h' : hi ≤ xs.length)
    (hs : src.length = hi - lo) :
    writeSlice xs lo hi src = .ok (xs.take lo ++ src ++ xs.drop hi) := by
  simp [writeSlice, h, h', hs]

theorem checkedSub_of_le {a b : Nat} (h : b ≤ a) : checkedSub a b = .ok (a - b) := by
  simp [checkedSub, h]

end Lists

/-- Loop rule. `P rest s` is what holds when the elements `rest` are still to
come. If every turn returns and keeps it, the loop returns. -/
theorem foldlM_ok {α σ : Type} {f : σ → α → Exec σ} (P : List α → σ → Prop)
    (step : ∀ a rest s, P (a :: rest) s → ∃ s', f s a = .ok s' ∧ P rest s') :
    ∀ (l : List α) (s : σ), P l s → ∃ s', l.foldlM f s = .ok s' ∧ P [] s' := by
  intro l
  induction l with
  | nil => intro s h; exact ⟨s, rfl, h⟩
  | cons a rest ih =>
    intro s h
    obtain ⟨s', hs', h'⟩ := step a rest s h
    obtain ⟨t, ht, h''⟩ := ih s' h'
    exact ⟨t, by rw [List.foldlM_cons, hs', exec_ok_bind, ht], h''⟩

/-- Loop rule for a loop that has returned. -/
theorem foldlM_keeps {α σ : Type} {f : σ → α → Exec σ} (P : σ → Prop)
    (step : ∀ a s s', f s a = .ok s' → P s → P s') {l : List α} {s s' : σ}
    (run : l.foldlM f s = .ok s') (start : P s) : P s' := by
  induction l generalizing s with
  | nil =>
    cases run
    exact start
  | cons a rest ih =>
    rw [List.foldlM_cons] at run
    obtain ⟨t, first, run⟩ := exec_bind_eq_ok.mp run
    exact ih run (step a s t first start)

/-- Loop rule for `for i in 0..n`. -/
theorem foldlM_range_ok {σ : Type} {f : σ → Nat → Exec σ} (P : Nat → σ → Prop) (n : Nat)
    {s : σ} (start : P 0 s)
    (step : ∀ i, i < n → ∀ s, P i s → ∃ s', f s i = .ok s' ∧ P (i + 1) s') :
    ∃ s', (List.range n).foldlM f s = .ok s' ∧ P n s' := by
  induction n with
  | zero => exact ⟨s, rfl, start⟩
  | succ n ih =>
    obtain ⟨t, eq, ht⟩ := ih (fun i hi => step i (by omega))
    obtain ⟨s', eq', hs'⟩ := step n (by omega) t ht
    refine ⟨s', ?_, hs'⟩
    rw [List.range_succ, List.foldlM_append, eq, exec_ok_bind, List.foldlM_cons, eq',
      exec_ok_bind, List.foldlM_nil, exec_pure]

/-- A loop that collects a result for each element. -/
theorem mapM_ok {α β : Type} {f : α → Exec β} {P : β → Prop} (l : List α)
    (h : ∀ a ∈ l, ∃ b, f a = .ok b ∧ P b) :
    ∃ bs, l.mapM f = .ok bs ∧ bs.length = l.length ∧ ∀ b ∈ bs, P b := by
  induction l with
  | nil => exact ⟨[], rfl, rfl, by simp⟩
  | cons a rest ih =>
    obtain ⟨b, hb, pb⟩ := h a (by simp)
    obtain ⟨bs, hbs, len, pbs⟩ := ih (fun c hc => h c (by simp [hc]))
    refine ⟨b :: bs, ?_, by simp [len], ?_⟩
    · rw [List.mapM_cons, hb, exec_ok_bind, hbs, exec_ok_bind, exec_pure]
    · intro c hc
      rcases List.mem_cons.mp hc with rfl | hc
      · exact pb
      · exact pbs c hc

/-- A loop whose every turn returns collects the results. -/
theorem mapM_eq_ok_map {α β : Type} {f : α → Exec β} {g : α → β} (l : List α)
    (h : ∀ a ∈ l, f a = .ok (g a)) : l.mapM f = .ok (l.map g) := by
  induction l with
  | nil => rfl
  | cons a rest ih =>
    rw [List.mapM_cons, h a (by simp), exec_ok_bind, ih (fun b hb => h b (by simp [hb])),
      exec_ok_bind, exec_pure, List.map_cons]

end DeOptiTransfer
