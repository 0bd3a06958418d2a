import DeOptiTransfer.Base.Arith
import DeOptiTransfer.Base.Bitmap
import Mathlib.Data.Finset.Card
import Mathlib.Data.Finset.Dedup

/-!
# The remaining blocks of a pending equation

`BlockSet` of `fountain.rs`: a vector of at most 256 members, or a bit vector
with a separately kept count. `members` is the finite set either form stands
for. Both forms answer alike:

* `new_ok`, `remove_ok`: construction and removal are those of finite sets;
* `len_eq_card`, `single_ok`: the length is the cardinality, and the single
  member of a one-element set is found;
* `forms_agree`: after any removals the two forms, and the one `new` picks,
  answer for the members that are left.
-/

namespace DeOptiTransfer

def DENSE_LIMIT : Nat := 256

inductive BlockSet where
  | dense (v : List Nat)
  | sparse (bits : List (BitVec 64)) (count : Nat)
  deriving DecidableEq

/-- `v.swap_remove(i)` -/
def swapRemove (v : List Nat) (i : Nat) : Exec (List Nat) := do
  let lastIdx ← checkedSub v.length 1
  let last ← getAt v lastIdx
  let v ← setAt v i last
  .ok v.dropLast

namespace BlockSet

/-- The first branch of `new`. -/
def newSparse (k : Nat) (members : List Nat) : Exec BlockSet := do
  let bits ← members.foldlM (fun bits b => bitSet bits (b / 64) (b % 64))
    (List.replicate (divCeil k 64) 0#64)
  .ok (.sparse bits members.length)

def new (k : Nat) (members : List Nat) : Exec BlockSet :=
  if members.length > DENSE_LIMIT then newSparse k members else .ok (.dense members)

def len : BlockSet → Nat
  | .dense v => v.length
  | .sparse _ count => count

def remove (s : BlockSet) (block : Nat) : Exec BlockSet :=
  match s with
  | .dense v =>
    match v.findIdx? (· = block) with
    | some i => do
      let v ← swapRemove v i
      .ok (.dense v)
    | none => .ok (.dense v)
  | .sparse bits count => do
    let set ← bitTest bits (block / 64) (block % 64)
    if set then
      let bits ← bitClear bits (block / 64) (block % 64)
      let count ← checkedSub count 1
      .ok (.sparse bits count)
    else .ok (.sparse bits count)

/-- The scan of `single`: the first set bit from word number `wi` on. -/
def firstBit : List (BitVec 64) → Nat → Exec Nat
  | [], _ => .error .unreachable
  | word :: rest, wi =>
    if word ≠ 0#64 then .ok (wi * 64 + word.ctz.toNat) else firstBit rest (wi + 1)

def single : BlockSet → Exec Nat
  | .dense v => getAt v 0
  | .sparse bits _ => firstBit bits 0

/-! ## The finite set behind both forms -/

/-- The blocks still in the set. -/
def members : BlockSet → Finset Nat
  | .dense v => v.toFinset
  | .sparse bits _ => (Finset.range (64 * bits.length)).filter fun i => bitAt bits i = true

/-- A well-formed set of blocks below `k`. -/
structure WF (k : Nat) (s : BlockSet) : Prop where
  below : ∀ b ∈ s.members, b < k
  form : match s with
    | .dense v => v.Nodup
    | .sparse bits count =>
      bits.length = divCeil k 64 ∧ count = (members (.sparse bits count)).card

theorem mem_members_sparse {bits : List (BitVec 64)} {count i : Nat} :
    i ∈ members (.sparse bits count) ↔ i < 64 * bits.length ∧ bitAt bits i = true := by
  simp [members]

theorem len_eq_card {k : Nat} {s : BlockSet} (wf : s.WF k) : s.len = s.members.card := by
  cases s with
  | dense v => exact (List.toFinset_card_of_nodup wf.form).symm
  | sparse bits count => exact wf.form.2

theorem bitSet_all {k : Nat} (l : List Nat) (below : ∀ b ∈ l, b < k)
    (bits : List (BitVec 64)) (len : bits.length = divCeil k 64) :
    ∃ bits', l.foldlM (fun bits b => bitSet bits (b / 64) (b % 64)) bits = .ok bits' ∧
      bits'.length = divCeil k 64 ∧ ∀ i, bitAt bits' i = (decide (i ∈ l) || bitAt bits i) := by
  induction l generalizing bits with
  | nil => exact ⟨bits, rfl, len, by simp⟩
  | cons b rest ih =>
    have inside : b / 64 < bits.length := by
      rw [len]
      exact div_lt_divCeil (by decide) (below b (by simp))
    obtain ⟨bits', set, len', bit⟩ := bitSet_ok inside
    obtain ⟨bits'', run, len'', bit'⟩ :=
      ih (fun c hc => below c (by simp [hc])) bits' (by rw [len', len])
    refine ⟨bits'', ?_, len'', ?_⟩
    · rw [List.foldlM_cons, set, exec_ok_bind, run]
    · intro i
      rw [bit', bit]
      by_cases here : i = b <;> simp [here]

theorem dense_ok {k : Nat} {l : List Nat} (nodup : l.Nodup) (below : ∀ b ∈ l, b < k) :
    (BlockSet.dense l).WF k :=
  ⟨by simpa [members] using below, nodup⟩

theorem newSparse_ok {k : Nat} {l : List Nat} (nodup : l.Nodup) (below : ∀ b ∈ l, b < k) :
    ∃ s, newSparse k l = .ok s ∧ s.WF k ∧ s.members = l.toFinset := by
  obtain ⟨bits, run, len, bit⟩ :=
    bitSet_all l below (List.replicate (divCeil k 64) 0#64) (by simp)
  have mem : members (.sparse bits l.length) = l.toFinset := by
    ext i
    rw [mem_members_sparse, bit, bitAt_replicate, len, List.mem_toFinset]
    simp only [Bool.or_false, decide_eq_true_eq, and_iff_right_iff_imp]
    intro hi
    have := le_divCeil_mul k (b := 64) (by decide)
    have := below i hi
    omega
  refine ⟨.sparse bits l.length, ?_, ⟨?_, len, ?_⟩, mem⟩
  · simp only [newSparse, run, exec_ok_bind]
  · rw [mem]
    simpa using below
  · rw [mem, List.toFinset_card_of_nodup nodup]

/-- `new` picks one of the two forms. -/
theorem new_eq (k : Nat) (l : List Nat) :
    new k l = newSparse k l ∨ new k l = .ok (.dense l) := by
  unfold new
  split
  · exact Or.inl rfl
  · exact Or.inr rfl

theorem new_ok {k : Nat} {l : List Nat} (nodup : l.Nodup) (below : ∀ b ∈ l, b < k) :
    ∃ s, new k l = .ok s ∧ s.WF k ∧ s.members = l.toFinset := by
  rcases new_eq k l with sparse | dense
  · rw [sparse]
    exact newSparse_ok nodup below
  · exact ⟨.dense l, dense, dense_ok nodup below, rfl⟩

/-- `swap_remove` removes one element and keeps the others. -/
theorem swapRemove_ok {v : List Nat} {i : Nat} (h : i < v.length) :
    ∃ v', swapRemove v i = .ok v' ∧ (v[i] :: v').Perm v := by
  have last : v.length - 1 < v.length := by omega
  refine ⟨(v.set i v[v.length - 1]).dropLast, ?_, ?_⟩
  · simp only [swapRemove, checkedSub_of_le (show 1 ≤ v.length by omega), exec_ok_bind,
      getAt_of_lt last, setAt_of_lt h]
  · -- moving the last element to place `i` and element `i` to the end permutes `v`
    have perm := List.set_set_perm h last
    have split : (v.set i v[v.length - 1]).set (v.length - 1) v[i] =
        (v.set i v[v.length - 1]).dropLast ++ [v[i]] := by
      apply List.ext_getElem
      · simp; omega
      · intro j h1 h2
        simp only [List.length_set] at h1
        by_cases end_ : j = v.length - 1
        · subst end_
          rw [List.getElem_set_self, List.getElem_append_right (by simp)]
          simp
        · rw [List.getElem_set_ne (Ne.symm end_), List.getElem_append_left (by simp; omega),
            List.getElem_dropLast]
    rw [split] at perm
    exact (List.perm_append_singleton _ _).symm.trans perm

section
variable {k block : Nat}

theorem remove_dense_ok {v : List Nat} (wf : (BlockSet.dense v).WF k) :
    ∃ s', (BlockSet.dense v).remove block = .ok s' ∧ s'.WF k ∧
      s'.members = (members (.dense v)).erase block := by
  have nodup : v.Nodup := wf.form
  cases found : v.findIdx? (· = block) with
  | none =>
    have absent : block ∉ v := by
      intro mem
      have := List.findIdx?_eq_none_iff.mp found block mem
      simp at this
    refine ⟨.dense v, by simp only [remove, found], wf, ?_⟩
    exact (Finset.erase_eq_of_notMem (by simpa [members] using absent)).symm
  | some i =>
    obtain ⟨hi, at_i, _⟩ := List.findIdx?_eq_some_iff_getElem.mp found
    simp only [decide_eq_true_eq] at at_i
    obtain ⟨v', run, perm⟩ := swapRemove_ok hi
    rw [at_i] at perm
    obtain ⟨fresh, nodup'⟩ := List.nodup_cons.mp (perm.nodup_iff.mpr nodup)
    have mem : members (.dense v') = (members (.dense v)).erase block := by
      ext c
      simp only [members, List.mem_toFinset, Finset.mem_erase, ← perm.mem_iff, List.mem_cons]
      constructor
      · intro hc
        exact ⟨fun eq => fresh (eq ▸ hc), Or.inr hc⟩
      · rintro ⟨ne, rfl | hc⟩
        · exact absurd rfl ne
        · exact hc
    refine ⟨.dense v', by simp only [remove, found, run, exec_ok_bind], ⟨?_, nodup'⟩, mem⟩
    rw [mem]
    exact fun b hb => wf.below b (Finset.mem_of_mem_erase hb)

theorem remove_sparse_ok {bits : List (BitVec 64)} {count : Nat}
    (wf : (BlockSet.sparse bits count).WF k) (lt : block < k) :
    ∃ s', (BlockSet.sparse bits count).remove block = .ok s' ∧ s'.WF k ∧
      s'.members = (members (.sparse bits count)).erase block := by
  obtain ⟨len, card⟩ := wf.form
  have inside : block / 64 < bits.length := by
    rw [len]
    exact div_lt_divCeil (by decide) lt
  have covered : block < 64 * bits.length := by omega
  by_cases set : bitAt bits block = true
  · obtain ⟨bits', run, len', bit⟩ := bitClear_ok inside
    have mem : members (.sparse bits' (count - 1)) =
        (members (.sparse bits count)).erase block := by
      ext c
      rw [Finset.mem_erase, mem_members_sparse, mem_members_sparse, len', bit]
      simp only [Bool.and_eq_true, decide_eq_true_eq]
      tauto
    have here : block ∈ members (.sparse bits count) := mem_members_sparse.mpr ⟨covered, set⟩
    have pos := Finset.card_pos.mpr ⟨block, here⟩
    refine ⟨.sparse bits' (count - 1), ?_, ⟨?_, by rw [len', len], ?_⟩, mem⟩
    · simp only [remove, bitTest_ok inside, set, exec_ok_bind, ↓reduceIte, run,
        checkedSub_of_le (show 1 ≤ count by omega)]
    · rw [mem]
      exact fun b hb => wf.below b (Finset.mem_of_mem_erase hb)
    · rw [mem, Finset.card_erase_of_mem here, ← card]
  · refine ⟨.sparse bits count, ?_, wf, ?_⟩
    · simp only [remove, bitTest_ok inside, set, exec_ok_bind, Bool.false_eq_true, ↓reduceIte]
    · rw [Finset.erase_eq_of_notMem]
      rw [mem_members_sparse]
      exact fun h => set h.2

theorem remove_ok {s : BlockSet} (wf : s.WF k) (lt : block < k) :
    ∃ s', s.remove block = .ok s' ∧ s'.WF k ∧ s'.members = s.members.erase block := by
  cases s with
  | dense v => exact remove_dense_ok wf
  | sparse bits count => exact remove_sparse_ok wf lt

end

theorem firstBit_ok (bits : List (BitVec 64)) (wi : Nat) {i : Nat} (bit : bitAt bits i = true) :
    ∃ j, firstBit bits wi = .ok (wi * 64 + j) ∧ bitAt bits j = true ∧ j < 64 * bits.length := by
  induction bits generalizing wi i with
  | nil => simp [bitAt] at bit
  | cons word rest ih =>
    by_cases zero : word = 0#64
    · have later : 64 ≤ i := by
        by_contra early
        have : i / 64 = 0 := by omega
        simp [bitAt, this, zero] at bit
      have shift : ∀ m, bitAt (word :: rest) (m + 64) = bitAt rest m := by
        intro m
        unfold bitAt
        rw [Nat.add_div_right m (by decide), List.getD_cons_succ, Nat.add_mod_right]
      have bit' : bitAt rest (i - 64) = true := by
        rw [← shift, Nat.sub_add_cancel later, bit]
      obtain ⟨j, run, bit'', lt⟩ := ih (wi + 1) bit'
      refine ⟨j + 64, ?_, ?_, ?_⟩
      · simp only [firstBit, zero, ne_eq, not_true, ↓reduceIte, run]
        congr 1
        omega
      · rw [shift, bit'']
      · simp only [List.length_cons]
        omega
    · have ctz_lt : word.ctz.toNat < 64 := by
        have := BitVec.ctz_lt_iff_ne_zero.mpr zero
        simpa [BitVec.lt_def] using this
      refine ⟨word.ctz.toNat, ?_, ?_, ?_⟩
      · simp only [firstBit, zero, ne_eq, not_false_eq_true, ↓reduceIte]
      · have here := BitVec.getLsbD_true_ctz_of_ne_zero zero
        have quot : word.ctz.toNat / 64 = 0 := by omega
        have rem : word.ctz.toNat % 64 = word.ctz.toNat := Nat.mod_eq_of_lt ctz_lt
        simp only [bitAt, quot, rem, List.getD_cons_zero, here]
      · simp only [List.length_cons]
        omega

/-- The member of a one-element set is found, in either form. -/
theorem single_ok {s : BlockSet} {r : Nat} (one : s.members = {r}) {k : Nat} (wf : s.WF k) :
    s.single = .ok r := by
  cases s with
  | dense v =>
    have nodup : v.Nodup := wf.form
    have len : v.length = 1 := by
      rw [← List.toFinset_card_of_nodup nodup]
      have : v.toFinset = {r} := one
      rw [this, Finset.card_singleton]
    obtain ⟨a, rfl⟩ := List.length_eq_one_iff.mp len
    have : a = r := by simpa [members] using one
    rw [this]
    rfl
  | sparse bits count =>
    have mem : r ∈ members (.sparse bits count) := by rw [one]; exact Finset.mem_singleton_self r
    obtain ⟨j, run, bit, lt⟩ := firstBit_ok bits 0 (mem_members_sparse.mp mem).2
    have : j ∈ members (.sparse bits count) := mem_members_sparse.mpr ⟨lt, bit⟩
    rw [one, Finset.mem_singleton] at this
    rw [single, run, this, Nat.zero_mul, Nat.zero_add]

/-! ## Runs of removals -/

/-- Remove the blocks one after the other. -/
def removeAll (blocks : List Nat) (s : BlockSet) : Exec BlockSet :=
  blocks.foldlM (fun s block => s.remove block) s

theorem removeAll_ok {k : Nat} {s : BlockSet} (wf : s.WF k) (blocks : List Nat)
    (below : ∀ b ∈ blocks, b < k) :
    ∃ s', removeAll blocks s = .ok s' ∧ s'.WF k ∧ s'.members = s.members \ blocks.toFinset := by
  induction blocks generalizing s with
  | nil => exact ⟨s, rfl, wf, by simp⟩
  | cons block rest ih =>
    obtain ⟨s₁, run, wf₁, mem₁⟩ := remove_ok wf (below block (by simp))
    obtain ⟨s₂, runs, wf₂, mem₂⟩ := ih wf₁ fun b hb => below b (by simp [hb])
    refine ⟨s₂, ?_, wf₂, ?_⟩
    · rw [removeAll, List.foldlM_cons, run, exec_ok_bind]
      exact runs
    · rw [mem₂, mem₁, List.toFinset_cons, Finset.sdiff_insert, Finset.erase_sdiff_comm]

/-- The answers of a set whose members are those of `left`. -/
structure Answers (left : Finset Nat) (s : BlockSet) : Prop where
  len : s.len = left.card
  single : left.card = 1 → ∃ r, left = {r} ∧ s.single = .ok r

theorem answers_of_wf {k : Nat} {s : BlockSet} (wf : s.WF k) : Answers s.members s := by
  constructor
  · exact len_eq_card wf
  · intro one
    obtain ⟨r, is_r⟩ := Finset.card_eq_one.mp one
    exact ⟨r, is_r, single_ok is_r wf⟩

/-- The two forms agree. After any removals of blocks below `k`, the vector, the
bit vector and whichever of them `new` picks answer for the members that are
left. -/
theorem forms_agree (k : Nat) (members : List Nat) (nodup : members.Nodup)
    (below : ∀ b ∈ members, b < k) (removed : List Nat) (removed_below : ∀ b ∈ removed, b < k) :
    ∀ built ∈ [.ok (.dense members), newSparse k members, new k members], ∃ s,
      built >>= removeAll removed = .ok s ∧ Answers (members.toFinset \ removed.toFinset) s := by
  have forms : ∀ built ∈ [.ok (.dense members), newSparse k members, new k members], ∃ s,
      built = .ok s ∧ s.WF k ∧ s.members = members.toFinset := by
    intro built form
    simp only [List.mem_cons, List.not_mem_nil, or_false] at form
    rcases form with rfl | rfl | rfl
    · exact ⟨_, rfl, dense_ok nodup below, rfl⟩
    · exact newSparse_ok nodup below
    · exact new_ok nodup below
  intro built form
  obtain ⟨s, rfl, wf, mem⟩ := forms built form
  obtain ⟨s', run, wf', mem'⟩ := removeAll_ok wf removed removed_below
  rw [mem] at mem'
  exact ⟨s', by rw [exec_ok_bind, run], mem' ▸ answers_of_wf wf'⟩

/-- Three hundred members, all but one of them removed, some twice. -/
theorem forms_agree_sparse :
    ∃ s, new 300 (List.range 300) >>= removeAll (List.range 299 ++ [7]) = .ok s ∧
      s.single = .ok 299 := by
  obtain ⟨s, run, answers⟩ := forms_agree 300 (List.range 300) List.nodup_range
    (fun b hb => List.mem_range.mp hb) (List.range 299 ++ [7])
    (by simp only [List.mem_append, List.mem_range, List.mem_singleton]; omega)
    (new 300 (List.range 300)) (by simp)
  have left : (List.range 300).toFinset \ (List.range 299 ++ [7]).toFinset = {299} := by
    ext i
    simp only [Finset.mem_sdiff, List.mem_toFinset, List.mem_append, List.mem_range,
      List.mem_singleton, Finset.mem_singleton]
    omega
  rw [left] at answers
  obtain ⟨r, is_r, single⟩ := answers.single (Finset.card_singleton 299)
  obtain rfl := Finset.singleton_injective is_r
  exact ⟨s, run, single⟩

end BlockSet

end DeOptiTransfer
