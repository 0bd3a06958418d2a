import DeOptiTransfer.Base.Peeling
import DeOptiTransfer.Fountain.Arena
import DeOptiTransfer.Fountain.BlockSet
import Mathlib.Data.List.GetD

/-!
# The peeling loop

`LtDecoder::resolve` of `fountain.rs`: a solved block is taken out of every
frame that waits for it, and a frame left with one block solves that block in
turn. `PeelState` holds the fields of the decoder the loop works on.

* `Shape`: slots, block sets and waiting lists fit together, whatever the
  frames contain;
* `Closure`: every accepted frame is used up or still held, so a loop that has
  stopped has missed nothing;
* `Values`: each held slot is the exclusive or of the blocks left in it.

`resolve_ok` proves that the loop returns and keeps all three.
-/

namespace DeOptiTransfer

structure PendingFrame where
  idx : BlockSet
  off : Nat
  active : Bool
  deriving DecidableEq

/-- The fields of the decoder that peeling changes. -/
structure PeelState where
  solved : List (Option Nat)
  solvedCount : Nat
  frames : List PendingFrame
  byBlock : List (List Nat)
  arena : List UInt32
  deriving DecidableEq

/-- Blocks to solve, with the slot of each. The next one is at the head. -/
abbrev Queue : Type := List (Nat × Nat)

/-- `idx.single()`, which is for a set of one member. -/
def singleOf (idx : BlockSet) : Exec Nat := do
  requires (idx.members.card = 1)
  idx.single

/-- The turn of the inner loop of `resolve` for one waiting frame. -/
def wake (words b : Nat) (s : PeelState × Queue) (frameId : Nat) : Exec (PeelState × Queue) := do
  let (p, queue) := s
  let frame ← getAt p.frames frameId
  if ¬ frame.active then .ok (p, queue)
  else
    let sOff ← getAt p.solved b
    match sOff with
    | none => .error .noValue
    | some sOff => do
      let arena ← xorSlots words p.arena frame.off sOff
      let idx ← frame.idx.remove b
      match idx.len with
      | 0 => do
        let frames ← setAt p.frames frameId { frame with idx, active := false }
        .ok ({ p with arena, frames }, queue)
      | 1 => do
        let r ← singleOf idx
        let frames ← setAt p.frames frameId { frame with idx, active := false }
        let rOff ← getAt p.solved r
        .ok ({ p with arena, frames }, if rOff.isNone then (r, frame.off) :: queue else queue)
      | _ => do
        let frames ← setAt p.frames frameId { frame with idx }
        .ok ({ p with arena, frames }, queue)

/-- The outer loop of `resolve`, with a bound on its turns. -/
def resolveLoop (words : Nat) : Nat → PeelState × Queue → Exec PeelState
  | _, (p, []) => .ok p
  | 0, (_, _ :: _) => .error .diverges
  | turns + 1, (p, (b, off) :: queue) => do
    let known ← getAt p.solved b
    if known.isSome then resolveLoop words turns (p, queue)
    else
      let solved ← setAt p.solved b (some off)
      let waiting ← getAt p.byBlock b
      let byBlock ← setAt p.byBlock b []
      let s ← waiting.foldlM (wake words b)
        ({ p with solved, solvedCount := p.solvedCount + 1, byBlock }, queue)
      resolveLoop words turns s

/-- Each turn after the first is for a frame that was active before. -/
def resolve (words : Nat) (p : PeelState) (b off : Nat) : Exec PeelState :=
  resolveLoop words (p.frames.length + 1) (p, [(b, off)])

/-- What replacing one entry does to a total over the list. -/
theorem sum_map_set {α : Type} (f : α → Nat) (xs : List α) {i : Nat} (h : i < xs.length) (a : α) :
    ((xs.set i a).map f).sum + f xs[i] = (xs.map f).sum + f a := by
  induction xs generalizing i with
  | nil => cases h
  | cons x rest ih =>
    cases i with
    | zero =>
      simp only [List.set_cons_zero, List.map_cons, List.sum_cons, List.getElem_cons_zero]
      omega
    | succ i =>
      have := ih (i := i) (by simpa using h)
      simp only [List.set_cons_succ, List.map_cons, List.sum_cons, List.getElem_cons_succ]
      omega

namespace PeelState

/-- Where block `b` is stored, once it is solved. -/
def offset (p : PeelState) (b : Nat) : Option Nat := p.solved.getD b none

def Known (p : PeelState) (b : Nat) : Prop := (p.offset b).isSome

instance (p : PeelState) (b : Nat) : Decidable (p.Known b) := inferInstanceAs (Decidable (_ = _))

/-- The frames that wait for block `b`. -/
def waiting (p : PeelState) (b : Nat) : List Nat := p.byBlock.getD b []

def solvedBlocks (p : PeelState) : Finset Nat := (Finset.range p.solved.length).filter p.Known

/-- Frame `f`, number `i`, still takes part. -/
def Active (p : PeelState) (i : Nat) (f : PendingFrame) : Prop :=
  p.frames[i]? = some f ∧ f.active = true

/-- Of the index set `m` of a frame, the blocks in `rest` are the ones left. -/
def Reduced (p : PeelState) (m rest : Finset Nat) : Prop :=
  rest ⊆ m ∧ ∀ c ∈ m, c ∉ rest → p.Known c

/-- What is solved stays where it is. -/
def Keeps (words : Nat) (p p' : PeelState) : Prop :=
  ∀ b off, p.offset b = some off →
    p'.offset b = some off ∧ slot words p'.arena off = slot words p.arena off

/-- How the parts of the state fit together. `wait` gives the waiting lists.
While the loop solves block `cur`, what is left of the list of `cur` is still
to be woken. -/
structure Shape (k words : Nat) (wait : Nat → List Nat) (cur : Option Nat) (p : PeelState)
    (q : Queue) : Prop where
  solved_length : p.solved.length = k
  byBlock_length : p.byBlock.length = k
  count : p.solvedCount = p.solvedBlocks.card
  solved_slot : ∀ b off, p.offset b = some off → SlotIn words p.arena.length off
  frame_slot : ∀ i f, p.Active i f → SlotIn words p.arena.length f.off
  queue_slot : ∀ r off, (r, off) ∈ q → r < k ∧ SlotIn words p.arena.length off
  frames_apart : ∀ i j f g, p.Active i f → p.Active j g → i ≠ j → f.off ≠ g.off
  solved_apart : ∀ i f b off, p.Active i f → p.offset b = some off → f.off ≠ off
  queue_apart : ∀ i f r off, p.Active i f → (r, off) ∈ q → f.off ≠ off
  set_wf : ∀ i f, p.Active i f → f.idx.WF k
  two_left : ∀ i f, p.Active i f → 2 ≤ f.idx.members.card
  watched : ∀ i f c, p.Active i f → (c ∈ f.idx.members ↔ i ∈ wait c)
  wait_nodup : ∀ c, (wait c).Nodup
  wait_lt : ∀ c, ∀ i ∈ wait c, i < p.frames.length
  wait_known : ∀ c, p.Known c → cur ≠ some c → wait c = []

/-- Every frame of `A`, of index sets `I`, is used up, held as active, or
queued, and only what follows from `A` is solved. -/
structure Closure (I : UInt32 → Finset Nat) (A : Finset UInt32) (p : PeelState) (q : Queue) :
    Prop where
  frame_origin : ∀ i f, p.Active i f → ∃ s ∈ A, p.Reduced (I s) f.idx.members
  queue_origin : ∀ r off, (r, off) ∈ q → ∃ s ∈ A, p.Reduced (I s) {r}
  covered : ∀ s ∈ A, p.Reduced (I s) ∅ ∨ (∃ i f, p.Active i f ∧ p.Reduced (I s) f.idx.members) ∨
    ∃ r off, (r, off) ∈ q ∧ p.Reduced (I s) {r}
  derived : ∀ b, p.Known b → Solvable (fun s => (I s : Set Nat)) A b

/-- Adding a block of an equation takes it out. -/
def Sums (V : Finset Nat → List UInt32) : Prop :=
  ∀ s c, c ∈ s → List.zipWith (· ^^^ ·) (V s) (V {c}) = V (s.erase c)

/-- Each held slot is the value `V` of the blocks left in it. -/
structure Values (words : Nat) (V : Finset Nat → List UInt32) (p : PeelState) (q : Queue) :
    Prop where
  solved : ∀ b off, p.offset b = some off → slot words p.arena off = V {b}
  frame : ∀ i f, p.Active i f → slot words p.arena f.off = V f.idx.members
  queue : ∀ r off, (r, off) ∈ q → slot words p.arena off = V {r}

/-! ## One waiting frame -/

/-- What waking frame `i` for the solved block `b` does. -/
inductive Woken (k words b i : Nat) (p : PeelState) (q : Queue) : PeelState → Queue → Prop
  | idle (used : ∀ f, p.frames[i]? = some f → f.active = false) : Woken k words b i p q p q
  | reduced {f : PendingFrame} {off : Nat} (idx : BlockSet) (active : p.Active i f)
      (solved : p.offset b = some off) (wf : idx.WF k)
      (members : idx.members = f.idx.members.erase b) (two : 2 ≤ idx.members.card) :
      Woken k words b i p q
        { p with
          arena := putSlot words p.arena f.off
            (List.zipWith (· ^^^ ·) (slot words p.arena f.off) (slot words p.arena off))
          frames := p.frames.set i { f with idx } } q
  | last {f : PendingFrame} {off r : Nat} (idx : BlockSet) (active : p.Active i f)
      (solved : p.offset b = some off) (members : f.idx.members.erase b = {r}) :
      Woken k words b i p q
        { p with
          arena := putSlot words p.arena f.off
            (List.zipWith (· ^^^ ·) (slot words p.arena f.off) (slot words p.arena off))
          frames := p.frames.set i { f with idx, active := false } } ((r, f.off) :: q)

section
variable {k words b i : Nat} {wait : Nat → List Nat} {rest : List Nat} {p p' : PeelState}
  {q q' : Queue}

theorem known_iff {c : Nat} : p.Known c ↔ ∃ off, p.offset c = some off := Option.isSome_iff_exists

theorem lt_of_known {c : Nat} (h : p.Known c) : c < p.solved.length := by
  by_contra out
  rw [Known, offset, List.getD_eq_default _ _ (by omega)] at h
  cases h

theorem getAt_solved {c : Nat} (h : c < p.solved.length) : getAt p.solved c = .ok (p.offset c) := by
  rw [getAt_of_lt h, offset, List.getD_eq_getElem _ _ h]

/-- The frames after one of them is replaced. -/
theorem active_set {p : PeelState} {i : Nat} (lt : i < p.frames.length) {f' : PendingFrame}
    {arena : List UInt32} {j : Nat} {g : PendingFrame} :
    Active { p with arena, frames := p.frames.set i f' } j g ↔
      (j = i ∧ g = f' ∧ f'.active = true) ∨ (j ≠ i ∧ p.Active j g) := by
  unfold Active
  by_cases here : j = i
  · subst here
    simp only [List.getElem?_set_self lt, Option.some.injEq, true_and, ne_eq, not_true, false_and,
      or_false]
    constructor
    · rintro ⟨rfl, act⟩
      exact ⟨rfl, act⟩
    · rintro ⟨rfl, act⟩
      exact ⟨rfl, act⟩
  · simp only [List.getElem?_set_ne (Ne.symm here), here, false_and, false_or, ne_eq,
      not_false_eq_true, true_and]

/-- Waking a frame returns. It leaves a used-up frame alone, and takes the block
out of an active one, whose last block goes to the queue. -/
theorem wake_ok (shape : Shape k words wait (some b) p q) (here : wait b = i :: rest)
    (known : p.Known b) :
    ∃ p' q', wake words b (p, q) i = .ok (p', q') ∧ Woken k words b i p q p' q' := by
  have lt : i < p.frames.length := shape.wait_lt b i (by rw [here]; simp)
  have at_i : p.frames[i]? = some p.frames[i] := List.getElem?_eq_getElem lt
  obtain ⟨off, stored⟩ := known_iff.mp known
  by_cases act : p.frames[i].active = true
  · have active : p.Active i p.frames[i] := ⟨at_i, act⟩
    generalize p.frames[i] = f at at_i act active
    have member : b ∈ f.idx.members := (shape.watched i f b active).mpr (by rw [here]; simp)
    have below : b < k := (shape.set_wf i f active).below b member
    obtain ⟨idx, remove, wf, members⟩ := BlockSet.remove_ok (shape.set_wf i f active) below
    have two := shape.two_left i f active
    have card : idx.members.card = f.idx.members.card - 1 := by
      rw [members, Finset.card_erase_of_mem member]
    have xor := xorAt_ok (shape.frame_slot i f active) (shape.solved_slot b off stored)
      (shape.solved_apart i f b off active stored)
    have len := BlockSet.len_eq_card wf
    by_cases one : idx.members.card = 1
    · -- the block left is unsolved, or the frame would be on no waiting list for it
      obtain ⟨r, single⟩ := Finset.card_eq_one.mp one
      have left : r ∈ f.idx.members.erase b := by
        rw [← members, single]
        exact Finset.mem_singleton_self r
      have mem : r ∈ f.idx.members := Finset.mem_of_mem_erase left
      have other : r ≠ b := Finset.ne_of_mem_erase left
      have open_ : p.offset r = none := by
        by_contra solved
        have known' : p.Known r := Option.isSome_iff_ne_none.mpr solved
        have := (shape.watched i f r active).mp mem
        rw [shape.wait_known r known' (by simpa using other.symm)] at this
        cases this
      refine ⟨_, _, ?_, .last idx active stored (members ▸ single)⟩
      have in_r : r < p.solved.length := by
        rw [shape.solved_length]
        exact (shape.set_wf i f active).below r mem
      have in_b : b < p.solved.length := lt_of_known known
      simp only [wake, getAt_eq_ok.mpr at_i, exec_ok_bind, act, not_true, ↓reduceIte,
        getAt_solved in_b, stored, xor, remove, len.trans one, singleOf, requires_ok one,
        BlockSet.single_ok single wf, setAt_of_lt lt, getAt_solved in_r, open_, Option.isNone_none]
    · refine ⟨_, _, ?_, .reduced idx active stored wf members (by omega)⟩
      have in_b : b < p.solved.length := lt_of_known known
      obtain ⟨n, many⟩ : ∃ n, idx.len = n + 2 := ⟨idx.len - 2, by omega⟩
      simp only [wake, getAt_eq_ok.mpr at_i, exec_ok_bind, act, not_true, ↓reduceIte,
        getAt_solved in_b, stored, xor, remove, many, setAt_of_lt lt]
  · refine ⟨p, q, ?_, .idle ?_⟩
    · simp only [wake, getAt_eq_ok.mpr at_i, exec_ok_bind, act, Bool.false_eq_true,
        not_false_eq_true, ↓reduceIte]
    · intro f hf
      rw [at_i, Option.some.injEq] at hf
      subst hf
      simpa using act

theorem Active.lt {f : PendingFrame} (h : p.Active i f) : i < p.frames.length :=
  (List.getElem?_eq_some_iff.mp h.1).1

theorem Active.unique {f g : PendingFrame} (hf : p.Active i f) (hg : p.Active i g) : f = g :=
  Option.some.inj (hf.1.symm.trans hg.1)

theorem Shape.sum_length {f : PendingFrame} {off : Nat} (shape : Shape k words wait (some b) p q)
    (active : p.Active i f) (solved : p.offset b = some off) :
    (List.zipWith (· ^^^ ·) (slot words p.arena f.off) (slot words p.arena off)).length = words := by
  simp [slot_length (shape.frame_slot i f active), slot_length (shape.solved_slot b off solved)]

/-- The arena after a slot of a frame is overwritten by the sum. -/
theorem Shape.arena_length {f : PendingFrame} {off : Nat}
    (shape : Shape k words wait (some b) p q) (active : p.Active i f)
    (solved : p.offset b = some off) :
    (putSlot words p.arena f.off (List.zipWith (· ^^^ ·) (slot words p.arena f.off)
      (slot words p.arena off))).length = p.arena.length :=
  putSlot_length (shape.frame_slot i f active) (shape.sum_length active solved)

theorem Shape.push {r off : Nat} {cur : Option Nat} (shape : Shape k words wait cur p q)
    (lt : r < k) (inside : SlotIn words p.arena.length off)
    (apart : ∀ i f, p.Active i f → f.off ≠ off) : Shape k words wait cur p ((r, off) :: q) := by
  refine { shape with queue_slot := ?_, queue_apart := ?_ }
  · intro r' o hr
    rcases List.mem_cons.mp hr with eq | hr
    · cases eq
      exact ⟨lt, inside⟩
    · exact shape.queue_slot r' o hr
  · intro j g r' o act hr
    rcases List.mem_cons.mp hr with eq | hr
    · cases eq
      exact apart j g act
    · exact shape.queue_apart j g r' o act hr

theorem Shape.pop {r off : Nat} {cur : Option Nat}
    (shape : Shape k words wait cur p ((r, off) :: q)) : Shape k words wait cur p q :=
  { shape with
    queue_slot := fun r' o hr => shape.queue_slot r' o (List.mem_cons_of_mem _ hr)
    queue_apart := fun j g r' o act hr =>
      shape.queue_apart j g r' o act (List.mem_cons_of_mem _ hr) }

/-- The waiting lists once the head of the list of `b` has been woken. -/
theorem Shape.lists (shape : Shape k words wait (some b) p q) (here : wait b = i :: rest) :
    (∀ c, (Function.update wait b rest c).Nodup) ∧
      (∀ c, ∀ j ∈ Function.update wait b rest c, j ∈ wait c) ∧
      (∀ c, p.Known c → some b ≠ some c → Function.update wait b rest c = []) ∧
      (∀ j c, j ≠ i → (j ∈ Function.update wait b rest c ↔ j ∈ wait c)) ∧ i ∉ rest := by
  have nodup := shape.wait_nodup b
  rw [here, List.nodup_cons] at nodup
  refine ⟨?_, ?_, ?_, ?_, nodup.1⟩
  · intro c
    by_cases eq : c = b
    · subst eq
      rw [Function.update_self]
      exact nodup.2
    · rw [Function.update_of_ne eq]
      exact shape.wait_nodup c
  · intro c j hj
    by_cases eq : c = b
    · subst eq
      rw [Function.update_self] at hj
      simp [here, hj]
    · rwa [Function.update_of_ne eq] at hj
  · intro c hc ne
    rw [Function.update_of_ne (by simpa using ne.symm)]
    exact shape.wait_known c hc ne
  · intro j c ne
    by_cases eq : c = b
    · subst eq
      simp [here, ne]
    · rw [Function.update_of_ne eq]

/-- A frame is replaced by what is left of it without block `b`. -/
theorem Shape.replace (shape : Shape k words wait (some b) p q) (here : wait b = i :: rest)
    {f : PendingFrame} {arena : List UInt32} (active : p.Active i f) (f' : PendingFrame)
    (off_eq : f'.off = f.off)
    (left : f'.active = true → f'.idx.WF k ∧ f'.idx.members = f.idx.members.erase b ∧
      2 ≤ f'.idx.members.card)
    (len : arena.length = p.arena.length) :
    Shape k words (Function.update wait b rest) (some b)
      { p with arena, frames := p.frames.set i f' } q := by
  obtain ⟨nodup, sub, known, others, fresh⟩ := shape.lists here
  have lt := active.lt
  refine { shape with
    solved_slot := ?_, frame_slot := ?_, queue_slot := ?_, frames_apart := ?_, solved_apart := ?_,
    queue_apart := ?_, set_wf := ?_, two_left := ?_, watched := ?_, wait_nodup := nodup,
    wait_lt := ?_, wait_known := known }
  · intro c o hc
    rw [len]
    exact shape.solved_slot c o hc
  · intro j g act
    rw [len]
    rcases (active_set lt).mp act with ⟨rfl, rfl, _⟩ | ⟨_, old⟩
    · rw [off_eq]
      exact shape.frame_slot j f active
    · exact shape.frame_slot j g old
  · intro r o hr
    rw [len]
    exact shape.queue_slot r o hr
  · intro j j' g g' act act' ne
    rcases (active_set lt).mp act with ⟨eq, rfl, _⟩ | ⟨_, old⟩ <;>
      rcases (active_set lt).mp act' with ⟨eq', rfl, _⟩ | ⟨_, old'⟩
    · exact absurd (eq.trans eq'.symm) ne
    · rw [off_eq]
      exact shape.frames_apart i j' f g' active old' (eq ▸ ne)
    · rw [off_eq]
      exact shape.frames_apart j i g f old active (eq' ▸ ne)
    · exact shape.frames_apart j j' g g' old old' ne
  · intro j g c o act hc
    rcases (active_set lt).mp act with ⟨rfl, rfl, _⟩ | ⟨_, old⟩
    · rw [off_eq]
      exact shape.solved_apart j f c o active hc
    · exact shape.solved_apart j g c o old hc
  · intro j g r o act hr
    rcases (active_set lt).mp act with ⟨rfl, rfl, _⟩ | ⟨_, old⟩
    · rw [off_eq]
      exact shape.queue_apart j f r o active hr
    · exact shape.queue_apart j g r o old hr
  · intro j g act
    rcases (active_set lt).mp act with ⟨rfl, rfl, on⟩ | ⟨_, old⟩
    · exact (left on).1
    · exact shape.set_wf j g old
  · intro j g act
    rcases (active_set lt).mp act with ⟨rfl, rfl, on⟩ | ⟨_, old⟩
    · exact (left on).2.2
    · exact shape.two_left j g old
  · intro j g c act
    rcases (active_set lt).mp act with ⟨rfl, rfl, on⟩ | ⟨ne, old⟩
    · rw [(left on).2.1, Finset.mem_erase, shape.watched j f c active]
      by_cases eq : c = b
      · subst eq
        simp [fresh]
      · simp [eq]
    · exact (shape.watched j g c old).trans (others j c ne).symm
  · intro c j hj
    rw [List.length_set]
    exact shape.wait_lt c j (sub c j hj)

theorem Shape.woken (shape : Shape k words wait (some b) p q) (here : wait b = i :: rest)
    (woken : Woken k words b i p q p' q') :
    Shape k words (Function.update wait b rest) (some b) p' q' := by
  cases woken with
  | idle used =>
    obtain ⟨nodup, sub, known, others, _⟩ := shape.lists here
    have awake : ∀ j f, p.Active j f → j ≠ i := by
      rintro j f ⟨at_j, act⟩ rfl
      rw [used f at_j] at act
      cases act
    exact { shape with
      watched := fun j f c act => (shape.watched j f c act).trans (others j c (awake j f act)).symm
      wait_nodup := nodup
      wait_lt := fun c j hj => shape.wait_lt c j (sub c j hj)
      wait_known := known }
  | @reduced f _ idx active solved wf members two =>
    exact shape.replace here active { f with idx } rfl (fun _ => ⟨wf, members, two⟩)
      (shape.arena_length active solved)
  | @last f off r idx active solved members =>
    have len := shape.arena_length active solved
    have mem : r ∈ f.idx.members := by
      apply Finset.mem_of_mem_erase (a := b)
      rw [members]
      exact Finset.mem_singleton_self r
    have off_inside := shape.frame_slot i f active
    refine (shape.replace here active { f with idx, active := false } rfl
      (fun on => by cases on) len).push ((shape.set_wf i f active).below r mem) ?_ ?_
    · rw [len]
      exact off_inside
    · intro j g act
      rcases (active_set active.lt).mp act with ⟨_, _, on⟩ | ⟨ne, old⟩
      · cases on
      · exact shape.frames_apart j i g f old active ne

theorem Reduced.mono {m s : Finset Nat} (h : p.Reduced m s) (more : ∀ c, p.Known c → p'.Known c) :
    p'.Reduced m s :=
  ⟨h.1, fun c hc out => more c (h.2 c hc out)⟩

theorem Reduced.erase {m s : Finset Nat} (h : p.Reduced m s) (known : p.Known b) :
    p.Reduced m (s.erase b) := by
  refine ⟨(Finset.erase_subset b s).trans h.1, fun c hc out => ?_⟩
  by_cases eq : c = b
  · exact eq ▸ known
  · exact h.2 c hc fun mem => out (Finset.mem_erase.mpr ⟨eq, mem⟩)

theorem Closure.woken {I : UInt32 → Finset Nat} {A : Finset UInt32} (closure : Closure I A p q)
    (known : p.Known b) (woken : Woken k words b i p q p' q') : Closure I A p' q' := by
  cases woken with
  | idle _ => exact closure
  | @reduced f off idx active solved wf members two =>
    have lt := active.lt
    refine { closure with frame_origin := ?_, covered := ?_ }
    · intro j g act
      rcases (active_set lt).mp act with ⟨rfl, rfl, _⟩ | ⟨_, old⟩
      · obtain ⟨s, hs, red⟩ := closure.frame_origin j f active
        exact ⟨s, hs, members ▸ red.erase known⟩
      · exact closure.frame_origin j g old
    · intro s hs
      rcases closure.covered s hs with used | ⟨j, g, old, red⟩ | queued
      · exact Or.inl used
      · refine Or.inr (Or.inl ?_)
        by_cases eq : j = i
        · subst eq
          cases old.unique active
          exact ⟨j, { f with idx }, (active_set lt).mpr (Or.inl ⟨rfl, rfl, old.2⟩),
            members ▸ red.erase known⟩
        · exact ⟨j, g, (active_set lt).mpr (Or.inr ⟨eq, old⟩), red⟩
      · exact Or.inr (Or.inr queued)
  | @last f off r idx active solved members =>
    have lt := active.lt
    refine { closure with frame_origin := ?_, queue_origin := ?_, covered := ?_ }
    · intro j g act
      rcases (active_set lt).mp act with ⟨_, _, on⟩ | ⟨_, old⟩
      · cases on
      · exact closure.frame_origin j g old
    · intro r' o hr
      rcases List.mem_cons.mp hr with eq | hr
      · cases eq
        obtain ⟨s, hs, red⟩ := closure.frame_origin i f active
        exact ⟨s, hs, members ▸ red.erase known⟩
      · exact closure.queue_origin r' o hr
    · intro s hs
      rcases closure.covered s hs with used | ⟨j, g, old, red⟩ | ⟨r', o, hr, red⟩
      · exact Or.inl used
      · by_cases eq : j = i
        · subst eq
          cases old.unique active
          exact Or.inr (Or.inr ⟨r, f.off, List.mem_cons_self, members ▸ red.erase known⟩)
        · exact Or.inr (Or.inl ⟨j, g, (active_set lt).mpr (Or.inr ⟨eq, old⟩), red⟩)
      · exact Or.inr (Or.inr ⟨r', o, List.mem_cons_of_mem _ hr, red⟩)

/-- The sum written to the slot of a frame changes no solved block, no queued
block and no other frame. -/
theorem Shape.sum_apart {f : PendingFrame} {off : Nat} (shape : Shape k words wait (some b) p q)
    (active : p.Active i f) (solved : p.offset b = some off) :
    let arena := putSlot words p.arena f.off
      (List.zipWith (· ^^^ ·) (slot words p.arena f.off) (slot words p.arena off))
    (∀ c o, p.offset c = some o → slot words arena o = slot words p.arena o) ∧
      (∀ r o, (r, o) ∈ q → slot words arena o = slot words p.arena o) ∧
      ∀ j g, p.Active j g → j ≠ i → slot words arena g.off = slot words p.arena g.off := by
  have at_f := shape.frame_slot i f active
  have len := shape.sum_length active solved
  refine ⟨?_, ?_, ?_⟩
  · intro c o hc
    exact slot_putSlot_ne at_f (shape.solved_slot c o hc)
      (shape.solved_apart i f c o active hc).symm len
  · intro r o hr
    exact slot_putSlot_ne at_f (shape.queue_slot r o hr).2
      (shape.queue_apart i f r o active hr).symm len
  · intro j g act ne
    exact slot_putSlot_ne at_f (shape.frame_slot j g act)
      (shape.frames_apart j i g f act active ne) len

theorem Keeps.refl (p : PeelState) : Keeps words p p := fun _ _ h => ⟨h, rfl⟩

theorem Keeps.trans {p'' : PeelState} (h : Keeps words p p') (h' : Keeps words p' p'') :
    Keeps words p p'' := by
  intro c o hc
  obtain ⟨hc', same⟩ := h c o hc
  obtain ⟨hc'', same'⟩ := h' c o hc'
  exact ⟨hc'', same'.trans same⟩

theorem Keeps.known {c : Nat} (h : Keeps words p p') (hc : p.Known c) : p'.Known c := by
  obtain ⟨o, ho⟩ := known_iff.mp hc
  exact known_iff.mpr ⟨o, (h c o ho).1⟩

theorem Keeps.woken (shape : Shape k words wait (some b) p q)
    (woken : Woken k words b i p q p' q') : Keeps words p p' := by
  cases woken with
  | idle _ => exact Keeps.refl p
  | reduced _ active solved _ _ _ =>
    exact fun c o hc => ⟨hc, (shape.sum_apart active solved).1 c o hc⟩
  | last _ active solved _ => exact fun c o hc => ⟨hc, (shape.sum_apart active solved).1 c o hc⟩

theorem Values.woken {V : Finset Nat → List UInt32}
    (sums : Sums V)
    (shape : Shape k words wait (some b) p q) (here : wait b = i :: rest)
    (values : Values words V p q) (woken : Woken k words b i p q p' q') :
    Values words V p' q' := by
  cases woken with
  | idle _ => exact values
  | @reduced f off idx active solved wf members two =>
    have lt := active.lt
    obtain ⟨blocks, queued, frames⟩ := shape.sum_apart active solved
    have member : b ∈ f.idx.members := (shape.watched i f b active).mpr (by rw [here]; simp)
    refine ⟨?_, ?_, ?_⟩
    · intro c o hc
      exact (blocks c o hc).trans (values.solved c o hc)
    · intro j g act
      rcases (active_set lt).mp act with ⟨rfl, rfl, _⟩ | ⟨ne, old⟩
      · show slot words (putSlot words p.arena f.off _) f.off = V idx.members
        rw [slot_putSlot_self (shape.frame_slot j f active) (shape.sum_length active solved),
          values.frame j f active, values.solved b off solved, sums _ _ member, members]
      · exact (frames j g old ne).trans (values.frame j g old)
    · intro r o hr
      exact (queued r o hr).trans (values.queue r o hr)
  | @last f off r idx active solved members =>
    have lt := active.lt
    obtain ⟨blocks, queued, frames⟩ := shape.sum_apart active solved
    have member : b ∈ f.idx.members := (shape.watched i f b active).mpr (by rw [here]; simp)
    refine ⟨?_, ?_, ?_⟩
    · intro c o hc
      exact (blocks c o hc).trans (values.solved c o hc)
    · intro j g act
      rcases (active_set lt).mp act with ⟨_, _, on⟩ | ⟨ne, old⟩
      · cases on
      · exact (frames j g old ne).trans (values.frame j g old)
    · intro r' o hr
      rcases List.mem_cons.mp hr with eq | hr
      · cases eq
        show slot words (putSlot words p.arena f.off _) f.off = V {r}
        rw [slot_putSlot_self (shape.frame_slot i f active) (shape.sum_length active solved),
          values.frame i f active, values.solved b off solved, sums _ _ member, members]
      · exact (queued r' o hr).trans (values.queue r' o hr)

/-- The turns the outer loop can still take. -/
def turnsLeft (p : PeelState) (q : Queue) : Nat := p.frames.countP (·.active) + q.length

theorem Active.countP_set {f : PendingFrame} (h : p.Active i f) (f' : PendingFrame) :
    (p.frames.set i f').countP (·.active) + 1 =
      p.frames.countP (·.active) + if f'.active = true then 1 else 0 := by
  have lt := h.lt
  have at_i : p.frames[i] = f :=
    Option.some.inj ((List.getElem?_eq_getElem h.lt).symm.trans h.1)
  have pos : 0 < p.frames.countP (·.active) :=
    List.countP_pos_iff.mpr ⟨f, List.mem_of_getElem? h.1, h.2⟩
  rw [List.countP_set h.lt, at_i, h.2]
  simp only [↓reduceIte]
  omega

theorem Woken.turnsLeft (woken : Woken k words b i p q p' q') :
    p'.turnsLeft q' = p.turnsLeft q := by
  cases woken with
  | idle _ => rfl
  | @reduced f _ idx active _ _ _ _ =>
    have := active.countP_set { f with idx }
    simp only [active.2, ↓reduceIte] at this
    simp only [PeelState.turnsLeft]
    rw [active.2]
    omega
  | @last f _ _ idx active _ _ =>
    have := active.countP_set { f with idx, active := false }
    simp only [Bool.false_eq_true, ↓reduceIte] at this
    simp only [PeelState.turnsLeft, List.length_cons]
    omega

/-- The number of entries in the waiting lists. -/
def edges (p : PeelState) : Nat := (p.byBlock.map List.length).sum

/-- What every part of the loop has in common. -/
structure Progress (words : Nat) (p : PeelState) (q : Queue) (p' : PeelState) (q' : Queue) :
    Prop where
  keeps : Keeps words p p'
  arena_length : p'.arena.length = p.arena.length
  frames_length : p'.frames.length = p.frames.length
  edges_le : p'.edges ≤ p.edges
  values : ∀ V, Sums V → Values words V p q → Values words V p' q'

theorem Progress.refl (p : PeelState) (q : Queue) : Progress words p q p q :=
  ⟨Keeps.refl p, rfl, rfl, Nat.le_refl _, fun _ _ h => h⟩

theorem Progress.trans {p'' : PeelState} {q'' : Queue} (h : Progress words p q p' q')
    (h' : Progress words p' q' p'' q'') : Progress words p q p'' q'' :=
  ⟨h.keeps.trans h'.keeps, h'.arena_length.trans h.arena_length,
    h'.frames_length.trans h.frames_length, h'.edges_le.trans h.edges_le,
    fun V sums v => h'.values V sums (h.values V sums v)⟩

theorem Woken.byBlock (woken : Woken k words b i p q p' q') : p'.byBlock = p.byBlock := by
  cases woken <;> rfl

theorem Progress.woken (shape : Shape k words wait (some b) p q) (here : wait b = i :: rest)
    (woken : Woken k words b i p q p' q') : Progress words p q p' q' := by
  refine ⟨Keeps.woken shape woken, ?_, ?_, ?_, ?_⟩
  · cases woken with
    | idle _ => rfl
    | reduced _ active solved _ _ _ => exact shape.arena_length active solved
    | last _ active solved _ => exact shape.arena_length active solved
  · cases woken with
    | idle _ => rfl
    | reduced _ _ _ _ _ _ => exact List.length_set
    | last _ _ _ _ => exact List.length_set
  · rw [edges, edges, woken.byBlock]
  · exact fun V sums values => Values.woken sums shape here values woken

/-- The inner loop has come from `p` and `q` to the state `s` and has the frames
`rest` left to wake. -/
structure Waking (k words b : Nat) (wait : Nat → List Nat) (I : UInt32 → Finset Nat)
    (A : Finset UInt32) (p : PeelState) (q : Queue) (rest : List Nat) (s : PeelState × Queue) :
    Prop where
  shape : Shape k words (Function.update wait b rest) (some b) s.1 s.2
  closure : Closure I A s.1 s.2
  byBlock : s.1.byBlock = p.byBlock
  turnsLeft : s.1.turnsLeft s.2 = p.turnsLeft q
  progress : Progress words p q s.1 s.2

theorem Waking.turn {I : UInt32 → Finset Nat} {A : Finset UInt32} (known : p.Known b)
    {s : PeelState × Queue} (waking : Waking k words b wait I A p q (i :: rest) s) :
    ∃ s', wake words b s i = .ok s' ∧ Waking k words b wait I A p q rest s' := by
  obtain ⟨p₁, q₁⟩ := s
  obtain ⟨shape₁, closure₁, lists, turns, progress⟩ := waking
  have head : Function.update wait b (i :: rest) b = i :: rest := Function.update_self ..
  have known₁ := progress.keeps.known known
  obtain ⟨p₂, q₂, run, woken⟩ := wake_ok shape₁ head known₁
  have shape₂ := shape₁.woken head woken
  rw [Function.update_idem] at shape₂
  exact ⟨(p₂, q₂), run, shape₂, closure₁.woken known₁ woken, woken.byBlock.trans lists,
    woken.turnsLeft.trans turns, progress.trans (Progress.woken shape₁ head woken)⟩

/-- Every frame that waits for a solved block is woken. -/
theorem wakeAll_ok {I : UInt32 → Finset Nat} {A : Finset UInt32}
    (shape : Shape k words wait (some b) p q) (closure : Closure I A p q) (known : p.Known b) :
    ∃ p' q', (wait b).foldlM (wake words b) (p, q) = .ok (p', q') ∧
      Waking k words b wait I A p q [] (p', q') := by
  have start : Waking k words b wait I A p q (wait b) (p, q) := by
    refine ⟨?_, closure, rfl, rfl, Progress.refl p q⟩
    rwa [Function.update_eq_self]
  obtain ⟨⟨p', q'⟩, run, done⟩ := foldlM_ok (Waking k words b wait I A p q)
    (fun _ _ _ waking => waking.turn known) (wait b) (p, q) start
  exact ⟨p', q', run, done⟩

/-! ## One block -/

/-- The state once block `b` is recorded as solved by the slot at `off`. -/
def solve (p : PeelState) (b off : Nat) : PeelState :=
  { p with
    solved := p.solved.set b (some off)
    solvedCount := p.solvedCount + 1
    byBlock := p.byBlock.set b [] }

theorem offset_solve {c : Nat} {off : Nat} (lt : b < p.solved.length) :
    (p.solve b off).offset c = if c = b then some off else p.offset c := by
  unfold offset solve
  by_cases eq : c = b
  · subst eq
    simp [List.getD_eq_getElem?_getD, lt]
  · simp [List.getD_eq_getElem?_getD, eq, List.getElem?_set_ne (Ne.symm eq)]

theorem known_solve {c off : Nat} (lt : b < p.solved.length) :
    (p.solve b off).Known c ↔ c = b ∨ p.Known c := by
  unfold Known
  rw [offset_solve lt]
  by_cases eq : c = b <;> simp [eq]

theorem waiting_solve (off : Nat) (lt : b < p.byBlock.length) :
    (p.solve b off).waiting = Function.update p.waiting b [] := by
  funext c
  unfold waiting solve
  by_cases eq : c = b
  · subst eq
    simp [List.getD_eq_getElem?_getD, lt]
  · rw [Function.update_of_ne eq]
    simp [List.getD_eq_getElem?_getD, List.getElem?_set_ne (Ne.symm eq)]

section
variable {off : Nat} (shape : Shape k words p.waiting none p ((b, off) :: q)) (fresh : ¬ p.Known b)
include shape fresh

theorem Shape.solve : Shape k words p.waiting (some b) (p.solve b off) q := by
  obtain ⟨lt, inside⟩ := shape.queue_slot b off List.mem_cons_self
  have in_b : b < p.solved.length := by rw [shape.solved_length]; exact lt
  refine { shape.pop with
    solved_length := ?_, byBlock_length := ?_, count := ?_, solved_slot := ?_,
    solved_apart := ?_, wait_known := ?_ }
  · simpa [PeelState.solve] using shape.solved_length
  · simpa [PeelState.solve] using shape.byBlock_length
  · have more : (p.solve b off).solvedBlocks = insert b p.solvedBlocks := by
      ext c
      simp only [solvedBlocks, Finset.mem_filter, Finset.mem_range, Finset.mem_insert,
        known_solve in_b]
      have : (p.solve b off).solved.length = p.solved.length := by simp [PeelState.solve]
      rw [this]
      constructor
      · rintro ⟨hc, rfl | known⟩
        · exact Or.inl rfl
        · exact Or.inr ⟨hc, known⟩
      · rintro (rfl | ⟨hc, known⟩)
        · exact ⟨in_b, Or.inl rfl⟩
        · exact ⟨hc, Or.inr known⟩
    rw [more, Finset.card_insert_of_notMem (by simp [solvedBlocks, fresh]), ← shape.count]
    rfl
  · intro c o hc
    rw [offset_solve in_b] at hc
    split at hc
    · cases hc
      exact inside
    · exact shape.solved_slot c o hc
  · intro j g c o act hc
    rw [offset_solve in_b] at hc
    split at hc
    · cases hc
      exact shape.queue_apart j g b off act List.mem_cons_self
    · exact shape.solved_apart j g c o act hc
  · intro c hc ne
    rcases (known_solve in_b).mp hc with rfl | known
    · exact absurd rfl ne
    · exact shape.wait_known c known (by simp)

theorem Progress.solve : Progress words p ((b, off) :: q) (p.solve b off) q := by
  obtain ⟨lt, _⟩ := shape.queue_slot b off List.mem_cons_self
  have in_b : b < p.solved.length := by rw [shape.solved_length]; exact lt
  have in_lists : b < p.byBlock.length := by rw [shape.byBlock_length]; exact lt
  have fewer : (p.solve b off).edges ≤ p.edges := by
    have := sum_map_set List.length p.byBlock in_lists []
    simp only [edges, PeelState.solve, List.length_nil] at this ⊢
    omega
  refine ⟨?_, rfl, rfl, fewer, ?_⟩
  · intro c o hc
    refine ⟨?_, rfl⟩
    rw [offset_solve in_b, if_neg ?_]
    · exact hc
    · rintro rfl
      exact fresh (known_iff.mpr ⟨o, hc⟩)
  · intro V _ values
    refine ⟨?_, values.frame, fun r o hr => values.queue r o (List.mem_cons_of_mem _ hr)⟩
    intro c o hc
    rw [offset_solve in_b] at hc
    split at hc
    · rename_i eq
      cases hc
      rw [eq]
      exact values.queue b off List.mem_cons_self
    · exact values.solved c o hc

theorem Closure.solve {I : UInt32 → Finset Nat} {A : Finset UInt32}
    (closure : Closure I A p ((b, off) :: q)) : Closure I A (p.solve b off) q := by
  obtain ⟨lt, _⟩ := shape.queue_slot b off List.mem_cons_self
  have in_b : b < p.solved.length := by rw [shape.solved_length]; exact lt
  have more : ∀ c, p.Known c → (p.solve b off).Known c :=
    fun c hc => (known_solve in_b).mpr (Or.inr hc)
  have now : (p.solve b off).Known b := (known_solve in_b).mpr (Or.inl rfl)
  refine ⟨?_, ?_, ?_, ?_⟩
  · intro j g act
    obtain ⟨s, hs, red⟩ := closure.frame_origin j g act
    exact ⟨s, hs, red.mono more⟩
  · intro r o hr
    obtain ⟨s, hs, red⟩ := closure.queue_origin r o (List.mem_cons_of_mem _ hr)
    exact ⟨s, hs, red.mono more⟩
  · intro s hs
    rcases closure.covered s hs with used | ⟨j, g, act, red⟩ | ⟨r, o, hr, red⟩
    · exact Or.inl (used.mono more)
    · exact Or.inr (Or.inl ⟨j, g, act, red.mono more⟩)
    · rcases List.mem_cons.mp hr with eq | hr
      · cases eq
        refine Or.inl ?_
        have := (red.mono more).erase now
        rwa [Finset.erase_singleton] at this
      · exact Or.inr (Or.inr ⟨r, o, hr, red.mono more⟩)
  · intro c hc
    rcases (known_solve in_b).mp hc with rfl | known
    · obtain ⟨s, hs, red⟩ := closure.queue_origin c off List.mem_cons_self
      refine .peel hs (red.1 (Finset.mem_singleton_self c)) ?_
      intro d hd ne
      exact closure.derived d (red.2 d hd (by simpa using ne))
    · exact closure.derived c known

end

theorem Closure.pop {I : UInt32 → Finset Nat} {A : Finset UInt32} {off : Nat}
    (closure : Closure I A p ((b, off) :: q)) (known : p.Known b) : Closure I A p q := by
  refine { closure with queue_origin := ?_, covered := ?_ }
  · exact fun r o hr => closure.queue_origin r o (List.mem_cons_of_mem _ hr)
  · intro s hs
    rcases closure.covered s hs with used | held | ⟨r, o, hr, red⟩
    · exact Or.inl used
    · exact Or.inr (Or.inl held)
    · rcases List.mem_cons.mp hr with eq | hr
      · cases eq
        refine Or.inl ?_
        have := red.erase known
        rwa [Finset.erase_singleton] at this
      · exact Or.inr (Or.inr ⟨r, o, hr, red⟩)

theorem Progress.pop {off : Nat} : Progress words p ((b, off) :: q) p q :=
  ⟨Keeps.refl p, rfl, rfl, Nat.le_refl _, fun _ _ values =>
    { values with queue := fun r o hr => values.queue r o (List.mem_cons_of_mem _ hr) }⟩

/-- Between blocks no waiting list is left half done. -/
theorem Shape.settle (shape : Shape k words p'.waiting (some b) p' q)
    (empty : p'.waiting b = []) : Shape k words p'.waiting none p' q :=
  { shape with
    wait_known := by
      intro c hc _
      by_cases eq : c = b
      · rw [eq, empty]
      · exact shape.wait_known c hc (by simpa using Ne.symm eq) }

/-- The outer loop returns within `turnsLeft` turns. -/
theorem resolveLoop_ok {I : UInt32 → Finset Nat} {A : Finset UInt32} {turns : Nat}
    (shape : Shape k words p.waiting none p q) (closure : Closure I A p q)
    (enough : p.turnsLeft q ≤ turns) :
    ∃ p', resolveLoop words turns (p, q) = .ok p' ∧ Shape k words p'.waiting none p' [] ∧
      Closure I A p' [] ∧ Progress words p q p' [] := by
  induction turns generalizing p q with
  | zero =>
    cases q with
    | nil => exact ⟨p, rfl, shape, closure, Progress.refl p []⟩
    | cons head q => simp [turnsLeft] at enough
  | succ turns ih =>
    rcases q with _ | ⟨⟨b, off⟩, q⟩
    · exact ⟨p, rfl, shape, closure, Progress.refl p []⟩
    · obtain ⟨lt, _⟩ := shape.queue_slot b off List.mem_cons_self
      have in_b : b < p.solved.length := by rw [shape.solved_length]; exact lt
      have in_lists : b < p.byBlock.length := by rw [shape.byBlock_length]; exact lt
      have fewer : p.turnsLeft q ≤ turns := by
        simp only [turnsLeft, List.length_cons] at enough ⊢
        omega
      by_cases known : p.Known b
      · obtain ⟨p', run, shape', closure', progress⟩ := ih shape.pop (closure.pop known) fewer
        refine ⟨p', ?_, shape', closure', Progress.pop.trans progress⟩
        have : (p.offset b).isSome = true := known
        simp only [resolveLoop, getAt_solved in_b, exec_ok_bind, this, ↓reduceIte, run]
      · have solved_shape := shape.solve known
        obtain ⟨p₁, q₁, woken, ⟨shape₁, closure₁, lists, turns₁, progress₁⟩⟩ :=
          wakeAll_ok solved_shape (closure.solve shape known)
            ((known_solve in_b).mpr (Or.inl rfl))
        have waiting₁ : p₁.waiting = Function.update p.waiting b [] := by
          rw [← waiting_solve off in_lists]
          unfold waiting
          rw [lists]
        rw [← waiting₁] at shape₁
        have settled := shape₁.settle (by rw [waiting₁, Function.update_self])
        obtain ⟨p', run, shape', closure', progress⟩ :=
          ih settled closure₁ (turns₁.trans_le fewer)
        refine ⟨p', ?_, shape', closure', ((Progress.solve shape known).trans progress₁).trans progress⟩
        have list : getAt p.byBlock b = .ok (p.waiting b) := by
          rw [getAt_of_lt in_lists, waiting, List.getD_eq_getElem _ _ in_lists]
        have unknown : (p.offset b).isSome = false := by simpa [Known] using known
        simp only [resolveLoop, getAt_solved in_b, exec_ok_bind, unknown, Bool.false_eq_true,
          ↓reduceIte, setAt_of_lt in_b, list, setAt_of_lt in_lists]
        unfold solve at woken
        rw [woken, exec_ok_bind, run]

/-- Peeling returns and keeps the three invariants. -/
theorem resolve_ok {I : UInt32 → Finset Nat} {A : Finset UInt32} {off : Nat}
    (shape : Shape k words p.waiting none p [(b, off)]) (closure : Closure I A p [(b, off)]) :
    ∃ p', resolve words p b off = .ok p' ∧ Shape k words p'.waiting none p' [] ∧
      Closure I A p' [] ∧ Progress words p [(b, off)] p' [] := by
  apply resolveLoop_ok shape closure
  have := List.countP_le_length (p := fun f : PendingFrame => f.active) (l := p.frames)
  simp only [turnsLeft, List.length_cons, List.length_nil]
  omega

end

end PeelState

end DeOptiTransfer
