import DeOptiTransfer.Set

/-!
# Runs of the sequence-number set

Any calls of `insert` and `contains`, on a set that `new` or `with_capacity`
made.

* `Table.invariant`: the layout facts the probing rests on;
* `runCalls_ok`: every call returns and answers as a finite set would;
* `set_refines`: the answer to each call, the length, and the invariant, which
  growing keeps.
-/

namespace DeOptiTransfer.U32Set

inductive Call where
  | insert (v : UInt32)
  | contains (v : UInt32)
  deriving DecidableEq

/-- The sets the two constructors make, for capacities up to `2^31`. -/
inductive Fresh : U32Set → Prop where
  | new : Fresh .new
  | withCapacity (n : Nat) (le : n ≤ 2 ^ 31) : Fresh (.withCapacity n)

namespace Call

def run : Call → U32Set → Exec (Bool × U32Set)
  | .insert v, s => s.insert v
  | .contains v, s => do
    let found ← s.contains v
    .ok (found, s)

def inserts : Call → Finset UInt32
  | .insert v => {v}
  | .contains _ => ∅

/-- What a finite set answers when its elements are those of `A`. -/
def answer (A : Finset UInt32) : Call → Bool
  | .insert v => decide (v ∉ A)
  | .contains v => decide (v ∈ A)

theorem run_ok {s : U32Set} {A : Finset UInt32} (h : s.Holds A) (call : Call) :
    ∃ s', call.run s = .ok (call.answer A, s') ∧ s'.Holds (A ∪ call.inserts) := by
  cases call with
  | insert v =>
    obtain ⟨s', run, holds⟩ := insert_ok h v
    exact ⟨s', run, by rwa [inserts, Finset.union_comm, ← Finset.insert_eq]⟩
  | contains v =>
    refine ⟨s, ?_, by rwa [inserts, Finset.union_empty]⟩
    simp only [run, contains_ok h v, exec_ok_bind, answer]

end Call

/-- The answers to a list of calls, and the set after them. -/
def runCalls : List Call → U32Set → Exec (List Bool × U32Set)
  | [], s => .ok ([], s)
  | call :: rest, s => do
    let (answer, s) ← call.run s
    let (answers, s) ← runCalls rest s
    .ok (answer :: answers, s)

/-- The keys that some call of the list inserts. -/
def inserted : List Call → Finset UInt32
  | [] => ∅
  | call :: rest => call.inserts ∪ inserted rest

/-- What the probing rests on. -/
structure Invariant (s : U32Set) : Prop where
  capacity : s.keys.length = 0 ∨ ∃ t, 3 ≤ t ∧ s.keys.length = 2 ^ t
  load : s.keys.length = 0 ∧ s.len = 0 ∨ s.len * LOAD_DEN < s.keys.length * LOAD_NUM
  path : ∀ i v, s.slot i = some v → ∃ d, d < s.keys.length ∧
    (hash v + d) % s.keys.length = i ∧
    ∀ j, j < d → s.slot ((hash v + j) % s.keys.length) ≠ none

theorem lt_of_slot {s : U32Set} {i : Nat} {v : UInt32} (holds : s.slot i = some v) :
    i < s.keys.length := by
  unfold slot at holds
  split at holds
  · exact (List.getElem?_eq_some_iff.mp holds).1
  · cases holds

section
variable {s : U32Set} {A : Finset UInt32}

theorem Table.invariant {t : Nat} (h : Table hash s t A) : s.Invariant := by
  constructor
  · exact Or.inr ⟨t, h.three_le, h.keys_length⟩
  · exact Or.inr (h.keys_length ▸ h.load)
  · intro i v holds
    have inside := lt_of_slot holds
    rw [h.keys_length] at inside ⊢
    exact h.probing.path i v inside holds

theorem Holds.invariant (h : s.Holds A) : s.Invariant := by
  rcases h with ⟨rfl, rfl⟩ | ⟨t, table⟩
  · refine ⟨Or.inl rfl, Or.inl ⟨rfl, rfl⟩, ?_⟩
    intro i v holds
    have inside := lt_of_slot holds
    exact absurd inside (Nat.not_lt_zero i)
  · exact table.invariant

theorem Fresh.holds (fresh : Fresh s) : s.Holds ∅ := by
  cases fresh with
  | new => exact Or.inl ⟨rfl, rfl⟩
  | withCapacity n le => exact withCapacity_holds n

/-- Every call returns, and answers for the keys inserted before it. -/
theorem runCalls_ok (h : s.Holds A) (calls : List Call) :
    ∃ answers s', runCalls calls s = .ok (answers, s') ∧ s'.Holds (A ∪ inserted calls) ∧
      answers.length = calls.length ∧
      ∀ before call after, calls = before ++ call :: after →
        answers[before.length]? = some (call.answer (A ∪ inserted before)) := by
  induction calls generalizing s A with
  | nil => exact ⟨[], s, rfl, by rwa [inserted, Finset.union_empty], rfl, by simp⟩
  | cons first rest ih =>
    obtain ⟨s₁, run, holds⟩ := Call.run_ok h first
    obtain ⟨answers, s₂, runs, holds', length, each⟩ := ih holds
    refine ⟨first.answer A :: answers, s₂, ?_, ?_, by rw [List.length_cons, length,
      List.length_cons], ?_⟩
    · simp only [runCalls, run, exec_ok_bind, runs]
    · rwa [inserted, ← Finset.union_assoc]
    · intro before call after split
      cases before with
      | nil =>
        obtain ⟨rfl, rfl⟩ := List.cons.inj split
        simp [inserted]
      | cons head before =>
        obtain ⟨rfl, tail⟩ := List.cons.inj split
        rw [List.length_cons, List.getElem?_cons_succ, each before call after tail, inserted,
          Finset.union_assoc]

/-- Growing keeps the keys, the length and the invariant. -/
theorem grow_keeps (h : s.Holds A) :
    ∃ g, grow (insertWithin 1) s = .ok g ∧ g.Invariant ∧ g.len = s.len ∧
      ∀ v, g.contains v = s.contains v := by
  obtain ⟨g, t, run, table, _⟩ := grow_ok h 0
  refine ⟨g, run, table.invariant, ?_, ?_⟩
  · rw [table.len_eq, len_eq_card h]
  · intro v
    rw [contains_ok (Or.inr ⟨t, table⟩) v, contains_ok h v]

/-- The set is a finite set. Whatever the calls, each returns; the answer to
each is that of the set of the keys inserted before it; the length counts the
different keys; the invariant holds, before and after growing. -/
theorem set_refines (start : U32Set) (fresh : Fresh start) (calls : List Call) :
    ∃ answers s, runCalls calls start = .ok (answers, s) ∧
      answers.length = calls.length ∧
      (∀ before call after, calls = before ++ call :: after →
        answers[before.length]? = some (call.answer (inserted before))) ∧
      s.len = (inserted calls).card ∧
      s.Invariant ∧
      ∃ g, grow (insertWithin 1) s = .ok g ∧ g.Invariant ∧ g.len = s.len ∧
        ∀ v, g.contains v = s.contains v := by
  obtain ⟨answers, s, run, holds, length, each⟩ := runCalls_ok fresh.holds calls
  rw [Finset.empty_union] at holds
  simp only [Finset.empty_union] at each
  exact ⟨answers, s, run, length, each, len_eq_card holds, holds.invariant, grow_keeps holds⟩

end

/-- The two extreme keys, one of them twice. -/
theorem set_refines_extremes :
    Fresh (.withCapacity 4) ∧
    ∃ answers s, runCalls [.insert 0, .insert 0xffffffff, .insert 0, .contains 0xffffffff]
        (.withCapacity 4) = .ok (answers, s) ∧ s.len = 2 ∧ answers[2]? = some false := by
  have fresh : Fresh (.withCapacity 4) := .withCapacity 4 (by decide)
  obtain ⟨answers, s, run, _, each, len, _⟩ := set_refines _ fresh
    [.insert 0, .insert 0xffffffff, .insert 0, .contains 0xffffffff]
  exact ⟨fresh, answers, s, run, by rw [len]; decide,
    each [.insert 0, .insert 0xffffffff] (.insert 0) [.contains 0xffffffff] rfl⟩

/-- A set without a table is not below the load limit: both sides are zero. -/
theorem load_fails_without_table :
    ¬ ∀ start, Fresh start → ∀ calls answers s, runCalls calls start = .ok (answers, s) →
      s.len * LOAD_DEN < s.keys.length * LOAD_NUM := by
  intro below
  exact absurd (below .new .new [] [] .new rfl) (by decide)

end DeOptiTransfer.U32Set
