import DeOptiTransfer.Base.Bitmap
import DeOptiTransfer.Base.Probing
import Mathlib.Data.Finset.Insert
import Mathlib.Data.Nat.Bitwise

/-!
# The sequence-number set

`U32Set` of `set.rs`: open addressing with linear probing, occupancy in a bit
vector, and a table that doubles at 0.7 load. `Holds` relates a set to the
finite set of the keys inserted so far:

* `contains_ok`: membership is exact and the probe loop ends;
* `insert_ok`: an insertion, with the growth it may trigger, adds exactly its
  key.
-/

namespace DeOptiTransfer

def LOAD_NUM : Nat := 7
def LOAD_DEN : Nat := 10

structure U32Set where
  keys : List UInt32
  occ : List (BitVec 64)
  mask : Nat
  len : Nat
  deriving DecidableEq

def hash (v : UInt32) : Nat := (v * 0x9e3779b1).toNat

def occBit (occ : List (BitVec 64)) (i : Nat) : Exec Bool :=
  bitTest occ (i >>> 6) (i &&& 63)

def occSet (occ : List (BitVec 64)) (i : Nat) (v : Bool) : Exec (List (BitVec 64)) :=
  if v then bitSet occ (i >>> 6) (i &&& 63) else bitClear occ (i >>> 6) (i &&& 63)

namespace U32Set

def new : U32Set := ⟨[], [], 0, 0⟩

def withCapacity (n : Nat) : U32Set :=
  let cap := max n.nextPowerOfTwo 8
  ⟨List.replicate cap 0, List.replicate (cap / 64 + 1) 0#64, cap - 1, 0⟩

/-- The loop of `contains` and of `insert`: from slot `i` on, the first slot
that is free or holds `v`, and whether it holds `v`. -/
def probe (s : U32Set) (v : UInt32) : Nat → Nat → Exec (Nat × Bool)
  | 0, _ => .error .diverges
  | turns + 1, i => do
    let occupied ← occBit s.occ i
    if occupied then
      let key ← getAt s.keys i
      if key = v then .ok (i, true) else probe s v turns ((i + 1) &&& s.mask)
    else .ok (i, false)

def contains (s : U32Set) (v : UInt32) : Exec Bool :=
  if s.mask = 0 then .ok false
  else do
    let (_, found) ← s.probe v s.keys.length (hash v &&& s.mask)
    .ok found

/-- `insert` after its growth check. -/
def place (s : U32Set) (v : UInt32) : Exec (Bool × U32Set) := do
  let (i, found) ← s.probe v s.keys.length (hash v &&& s.mask)
  if found then .ok (false, s)
  else
    let occ ← occSet s.occ i true
    let keys ← setAt s.keys i v
    .ok (true, { s with occ, keys, len := s.len + 1 })

/-- Reinsert one slot of the old table. -/
def rehash (insert : U32Set → UInt32 → Exec (Bool × U32Set)) (oldOcc : List (BitVec 64))
    (t : U32Set) (slot : UInt32 × Nat) : Exec U32Set := do
  let occupied ← occBit oldOcc slot.2
  if occupied then
    let (_, t) ← insert t slot.1
    .ok t
  else .ok t

/-- The empty table that `grow` reinserts the keys into. -/
def doubled (s : U32Set) : U32Set :=
  let newCap := if s.mask = 0 then 8 else (s.mask + 1) * 2
  ⟨List.replicate newCap 0, List.replicate (newCap / 64 + 1) 0#64, newCap - 1, 0⟩

def grow (insert : U32Set → UInt32 → Exec (Bool × U32Set)) (s : U32Set) : Exec U32Set :=
  if s.mask ≠ 0 then s.keys.zipIdx.foldlM (rehash insert s.occ) s.doubled else .ok s.doubled

/-- `insert` and `grow` call each other; `depth` bounds how often. -/
def insertWithin : Nat → U32Set → UInt32 → Exec (Bool × U32Set)
  | 0, _, _ => .error .diverges
  | depth + 1, s, v => do
    let s ← if s.mask = 0 ∨ (s.len + 1) * LOAD_DEN ≥ s.keys.length * LOAD_NUM
      then grow (insertWithin depth) s else .ok s
    s.place v

/-- An insertion grows the table at most once, and reinserting never does. -/
def insert (s : U32Set) (v : UInt32) : Exec (Bool × U32Set) := insertWithin 2 s v

/-! ## What a table holds -/

/-- The key in slot `i`, if the slot is occupied. -/
def slot (s : U32Set) (i : Nat) : Option UInt32 :=
  if bitAt s.occ i then s.keys[i]? else none

/-- A table of `2 ^ t` slots that holds the keys of `A`, probed from `home`. -/
structure Table (home : UInt32 → Nat) (s : U32Set) (t : Nat) (A : Finset UInt32) : Prop where
  three_le : 3 ≤ t
  keys_length : s.keys.length = 2 ^ t
  occ_length : s.occ.length = 2 ^ t / 64 + 1
  mask_eq : s.mask = 2 ^ t - 1
  probing : Probing.Table (2 ^ t) home s.slot
  stores : Probing.Stores (2 ^ t) s.slot A
  len_eq : s.len = A.card
  load : s.len * LOAD_DEN < 2 ^ t * LOAD_NUM

/-- The set holds exactly the keys of `A`. A set without a table is empty. -/
def Holds (s : U32Set) (A : Finset UInt32) : Prop :=
  s = new ∧ A = ∅ ∨ ∃ t, Table hash s t A

theorem occBit_ok (occ : List (BitVec 64)) (i : Nat) (h : i / 64 < occ.length) :
    occBit occ i = .ok (bitAt occ i) := by
  have low : i &&& 63 = i % 64 := Nat.and_two_pow_sub_one_eq_mod i 6
  rw [occBit, Nat.shiftRight_eq_div_pow, low]
  exact bitTest_ok h

theorem occSet_ok (occ : List (BitVec 64)) (i : Nat) (h : i / 64 < occ.length) :
    ∃ occ', occSet occ i true = .ok occ' ∧ occ'.length = occ.length ∧
      ∀ j, bitAt occ' j = (decide (j = i) || bitAt occ j) := by
  have low : i &&& 63 = i % 64 := Nat.and_two_pow_sub_one_eq_mod i 6
  simp only [occSet, ↓reduceIte, Nat.shiftRight_eq_div_pow, low]
  exact bitSet_ok h

section
variable {home : UInt32 → Nat} {s : U32Set} {t : Nat} {A : Finset UInt32}

theorem Table.mask_ne_zero (h : Table home s t A) : s.mask ≠ 0 := by
  have := Nat.pow_le_pow_right (n := 2) (by decide) h.three_le
  rw [h.mask_eq]
  omega

theorem Table.and_mask (h : Table home s t A) (i : Nat) : i &&& s.mask = i % 2 ^ t := by
  rw [h.mask_eq, Nat.and_two_pow_sub_one_eq_mod]

theorem Table.occupied (h : Table home s t A) {i : Nat} (hi : i < 2 ^ t) :
    occBit s.occ i = .ok (s.slot i).isSome := by
  rw [occBit_ok s.occ i (by rw [h.occ_length]; omega), slot]
  have : i < s.keys.length := by rw [h.keys_length]; exact hi
  cases bitAt s.occ i <;> simp [this]

theorem getAt_key {s : U32Set} {i : Nat} {v : UInt32} (holds : s.slot i = some v) :
    getAt s.keys i = .ok v := by
  rw [getAt_eq_ok]
  unfold slot at holds
  split at holds
  · exact holds
  · cases holds

/-- The probe loop follows the walk of its key to the end. -/
theorem Table.probe_walk (h : Table home s t A) (v : UInt32) {d : Nat}
    (walk : Probing.Walk (2 ^ t) home s.slot v d)
    (stop : s.slot (Probing.pos (2 ^ t) home v d) = none ∨
      s.slot (Probing.pos (2 ^ t) home v d) = some v)
    (e turns : Nat) (le : e ≤ d) (enough : d - e < turns) :
    s.probe v turns (Probing.pos (2 ^ t) home v e) =
      .ok (Probing.pos (2 ^ t) home v d, (s.slot (Probing.pos (2 ^ t) home v d)).isSome) := by
  induction turns generalizing e with
  | zero => omega
  | succ turns ih =>
    have inside := fun j => Probing.pos_lt (Nat.two_pow_pos t) home v j
    simp only [probe, h.occupied (inside e), exec_ok_bind]
    by_cases last : e = d
    · subst last
      rcases stop with none | some
      · simp [none]
      · simp [some, getAt_key some]
    · obtain ⟨w, hw, ne⟩ := walk e (by omega)
      simp only [hw, Option.isSome_some, ↓reduceIte, getAt_key hw, exec_ok_bind, ne]
      rw [h.and_mask, Probing.pos_succ]
      exact ih (e + 1) (by omega) (by omega)

/-- Probing a table finds the key, or the free slot at the end of its walk. -/
theorem Table.probe_ok (h : Table home s t A) (v : UInt32) :
    ∃ d, d < 2 ^ t ∧ Probing.Walk (2 ^ t) home s.slot v d ∧
      s.probe v s.keys.length (home v &&& s.mask) =
        .ok (Probing.pos (2 ^ t) home v d, decide (v ∈ A)) ∧
      (v ∉ A → s.slot (Probing.pos (2 ^ t) home v d) = none) := by
  have room : A.card < 2 ^ t := by
    have := h.load
    rw [h.len_eq] at this
    simp only [LOAD_DEN, LOAD_NUM] at this
    omega
  obtain ⟨d, hd, walk, stop⟩ := Probing.exists_stop v (Probing.exists_empty h.probing h.stores room)
  have start : home v &&& s.mask = Probing.pos (2 ^ t) home v 0 := by
    rw [h.and_mask, Probing.pos, Nat.add_zero]
  have run := h.probe_walk v walk stop 0 s.keys.length (by omega) (by rw [h.keys_length]; omega)
  refine ⟨d, hd, walk, ?_, ?_⟩
  · rw [start, run]
    congr 2
    rcases stop with none | some
    · have absent := Probing.absent_of_empty h.probing walk none
      have : v ∉ A := by
        rw [h.stores v]
        rintro ⟨i, hi, holds⟩
        exact absent i hi holds
      simp [none, this]
    · have : v ∈ A := (h.stores v).mpr ⟨_, Probing.pos_lt (Nat.two_pow_pos t) home v d, some⟩
      simp [some, this]
  · intro out
    rcases stop with none | some
    · exact none
    · exact absurd ((h.stores v).mpr ⟨_, Probing.pos_lt (Nat.two_pow_pos t) home v d, some⟩) out

/-- Writing an absent key into the free slot at the end of its walk. -/
theorem Table.put_ok (h : Table home s t A) {v : UInt32} {d : Nat} (hd : d < 2 ^ t)
    (walk : Probing.Walk (2 ^ t) home s.slot v d)
    (empty : s.slot (Probing.pos (2 ^ t) home v d) = none) (fresh : v ∉ A)
    (room : (s.len + 1) * LOAD_DEN < 2 ^ t * LOAD_NUM) :
    ∃ occ keys, occSet s.occ (Probing.pos (2 ^ t) home v d) true = .ok occ ∧
      setAt s.keys (Probing.pos (2 ^ t) home v d) v = .ok keys ∧
      Table home { s with occ, keys, len := s.len + 1 } t (Insert.insert v A) := by
  have inside := Probing.pos_lt (Nat.two_pow_pos t) home v d
  generalize hp : Probing.pos (2 ^ t) home v d = p at inside empty ⊢
  have in_keys : p < s.keys.length := by rw [h.keys_length]; exact inside
  obtain ⟨occ, set, occ_length, bits⟩ :=
    occSet_ok s.occ p (by rw [h.occ_length]; omega)
  have slot_eq : slot { s with occ, keys := s.keys.set p v, len := s.len + 1 } =
      Function.update s.slot p (some v) := by
    funext i
    by_cases here : i = p
    · subst here
      simp [slot, bits, in_keys]
    · rw [Function.update_of_ne here]
      simp [slot, bits, here, List.getElem?_set_ne (Ne.symm here)]
  refine ⟨occ, s.keys.set p v, set, setAt_of_lt in_keys v, ?_⟩
  refine ⟨h.three_le, by simpa using h.keys_length, by rw [← h.occ_length]; exact occ_length,
    h.mask_eq, ?_, ?_, ?_, room⟩
  · rw [slot_eq, ← hp]
    exact Probing.place hd (hp ▸ empty) h.probing walk
  · rw [slot_eq, ← hp]
    exact Probing.place_stores hd (hp ▸ empty) h.stores
  · show s.len + 1 = _
    rw [Finset.card_insert_of_notMem fresh, h.len_eq]

theorem emptyTable (home : UInt32 → Nat) {t : Nat} (three_le : 3 ≤ t) :
    Table home ⟨List.replicate (2 ^ t) 0, List.replicate (2 ^ t / 64 + 1) 0#64, 2 ^ t - 1, 0⟩ t ∅ := by
  have free : ∀ i, slot ⟨List.replicate (2 ^ t) 0, List.replicate (2 ^ t / 64 + 1) 0#64,
      2 ^ t - 1, 0⟩ i = none := by
    intro i
    simp [slot, bitAt_replicate]
  refine ⟨three_le, by simp, by simp, rfl, ⟨?_, ?_⟩, ?_, rfl, ?_⟩
  · intro i j v _ _ holds
    rw [free] at holds
    cases holds
  · intro i v _ holds
    rw [free] at holds
    cases holds
  · intro v
    simp [free]
  · have := Nat.two_pow_pos t
    simp only [LOAD_NUM]
    omega

end

section
variable {s : U32Set} {A : Finset UInt32}

/-- An insertion into a table with room for one more key. -/
theorem place_ok {t : Nat} (h : Table hash s t A) (v : UInt32)
    (room : (s.len + 1) * LOAD_DEN < 2 ^ t * LOAD_NUM) :
    ∃ s', s.place v = .ok (decide (v ∉ A), s') ∧ Table hash s' t (Insert.insert v A) := by
  obtain ⟨d, hd, walk, probe, free⟩ := h.probe_ok v
  by_cases mem : v ∈ A
  · refine ⟨s, ?_, by rwa [Finset.insert_eq_self.mpr mem]⟩
    simp only [place, probe, exec_ok_bind, mem, decide_true, ↓reduceIte, not_true, decide_false]
  · obtain ⟨occ, keys, set, put, table⟩ := h.put_ok hd walk (free mem) mem room
    refine ⟨_, ?_, table⟩
    simp only [place, probe, exec_ok_bind, mem, decide_false, Bool.false_eq_true, ↓reduceIte, set,
      put, not_false_eq_true, decide_true]

theorem insertWithin_of_room {t : Nat} (h : Table hash s t A) (v : UInt32)
    (room : (s.len + 1) * LOAD_DEN < 2 ^ t * LOAD_NUM) (depth : Nat) :
    insertWithin (depth + 1) s v = s.place v := by
  have stay : ¬ (s.mask = 0 ∨ (s.len + 1) * LOAD_DEN ≥ s.keys.length * LOAD_NUM) := by
    rw [h.keys_length]
    have := h.mask_ne_zero
    omega
  simp only [insertWithin, stay, ↓reduceIte, exec_ok_bind]

/-- The doubled table has room: the load was below the limit of the old one. -/
theorem Table.room_after_doubling {t n : Nat} (h : Table hash s t A) (le : n ≤ A.card) :
    (n + 1) * LOAD_DEN < 2 ^ (t + 1) * LOAD_NUM := by
  have load := h.load
  rw [h.len_eq] at load
  have := Nat.pow_le_pow_right (n := 2) (by decide) h.three_le
  simp only [LOAD_DEN, LOAD_NUM, Nat.pow_succ] at load ⊢
  omega

/-- While the slots `rest` of the table `s` are still to be reinserted, the keys
of `A` are those in them and those in the new table `x`. -/
structure Rehashing (s : U32Set) (t : Nat) (A : Finset UInt32) (rest : List (UInt32 × Nat))
    (x : U32Set) : Prop where
  bound : ∀ e ∈ rest, e.2 < 2 ^ t
  parts : ∃ B, Table hash x (t + 1) B ∧
    ∀ v, v ∈ A ↔ v ∈ B ∨ ∃ e ∈ rest, e.1 = v ∧ bitAt s.occ e.2 = true

section
variable {t : Nat}

theorem Table.rehashing (h : Table hash s t A) :
    Rehashing s t A s.keys.zipIdx ⟨List.replicate (2 ^ (t + 1)) 0,
      List.replicate (2 ^ (t + 1) / 64 + 1) 0#64, 2 ^ (t + 1) - 1, 0⟩ := by
  have three := h.three_le
  refine ⟨?_, ∅, emptyTable hash (by omega), ?_⟩
  · rintro ⟨key, i⟩ he
    have entry := List.mem_zipIdx_iff_getElem?.mp he
    have inside := (List.getElem?_eq_some_iff.mp entry).1
    rwa [h.keys_length] at inside
  · intro v
    rw [h.stores v]
    simp only [Finset.notMem_empty, false_or, slot]
    constructor
    · rintro ⟨i, hi, holds⟩
      split at holds
      · exact ⟨(v, i), List.mem_zipIdx_iff_getElem?.mpr holds, rfl, by assumption⟩
      · cases holds
    · rintro ⟨⟨_, i⟩, he, rfl, bit⟩
      have key := List.mem_zipIdx_iff_getElem?.mp he
      have inside := (List.getElem?_eq_some_iff.mp key).1
      exact ⟨i, by rwa [h.keys_length] at inside, by simpa [bit] using key⟩

/-- One turn of the loop reinserts the key of an occupied slot. -/
theorem Rehashing.turn (h : Table hash s t A) (depth : Nat) {e : UInt32 × Nat}
    {rest : List (UInt32 × Nat)} {x : U32Set} (state : Rehashing s t A (e :: rest) x) :
    ∃ x', rehash (insertWithin (depth + 1)) s.occ x e = .ok x' ∧ Rehashing s t A rest x' := by
  obtain ⟨key, i⟩ := e
  obtain ⟨bound, B, table, mem⟩ := state
  have bound' : ∀ e ∈ rest, e.2 < 2 ^ t := fun e he => bound e (by simp [he])
  have inside : i / 64 < s.occ.length := by
    have below : i < 2 ^ t := bound (key, i) (by simp)
    rw [h.occ_length]
    omega
  have bit := occBit_ok s.occ i inside
  have sub : B ⊆ A := fun v hv => (mem v).mpr (Or.inl hv)
  by_cases set : bitAt s.occ i = true
  · have room := h.room_after_doubling (Finset.card_le_card sub)
    rw [← table.len_eq] at room
    obtain ⟨x', place, table'⟩ := place_ok table key room
    refine ⟨x', ?_, bound', _, table', ?_⟩
    · simp only [rehash, bit, set, exec_ok_bind, ↓reduceIte,
        insertWithin_of_room table key room depth, place]
    · intro v
      rw [mem v, Finset.mem_insert]
      simp only [List.mem_cons, exists_eq_or_imp, set, and_true]
      grind
  · refine ⟨x, ?_, bound', B, table, ?_⟩
    · simp only [rehash, bit, set, exec_ok_bind, Bool.false_eq_true, ↓reduceIte]
    · intro v
      simp [mem v, set]

end

/-- Growing keeps the keys. The new table holds what the old one held and has
room for one more. -/
theorem grow_ok (h : s.Holds A) (depth : Nat) :
    ∃ s' t, grow (insertWithin (depth + 1)) s = .ok s' ∧ Table hash s' t A ∧
      (s'.len + 1) * LOAD_DEN < 2 ^ t * LOAD_NUM := by
  rcases h with ⟨rfl, rfl⟩ | ⟨t, h⟩
  · exact ⟨_, 3, rfl, emptyTable hash (t := 3) (by decide), by decide⟩
  · have cap : (s.mask + 1) * 2 = 2 ^ (t + 1) := by
      have := Nat.two_pow_pos t
      rw [h.mask_eq, Nat.pow_succ]
      omega
    obtain ⟨x, run, _, B, table, mem⟩ := foldlM_ok (Rehashing s t A)
      (fun _ _ _ state => state.turn h depth) s.keys.zipIdx _ h.rehashing
    have all : B = A := by
      ext v
      simp [mem v]
    subst all
    refine ⟨x, t + 1, ?_, table, ?_⟩
    · simp only [grow, doubled, h.mask_ne_zero, ↓reduceIte, cap, ne_eq, not_false_eq_true, run]
    · rw [table.len_eq]
      exact h.room_after_doubling (Nat.le_refl _)

/-- An insertion adds exactly its key and reports whether it was new. -/
theorem insert_ok (h : s.Holds A) (v : UInt32) :
    ∃ s', s.insert v = .ok (decide (v ∉ A), s') ∧ s'.Holds (Insert.insert v A) := by
  by_cases full : s.mask = 0 ∨ (s.len + 1) * LOAD_DEN ≥ s.keys.length * LOAD_NUM
  · obtain ⟨g, t, grown, table, room⟩ := grow_ok h 0
    obtain ⟨s', place, table'⟩ := place_ok table v room
    refine ⟨s', ?_, Or.inr ⟨t, table'⟩⟩
    unfold insert insertWithin
    simp only [full, ↓reduceIte, grown, exec_ok_bind, place]
  · rcases h with ⟨rfl, rfl⟩ | ⟨t, h⟩
    · exact absurd (Or.inl rfl) full
    · have room : (s.len + 1) * LOAD_DEN < 2 ^ t * LOAD_NUM := by
        rw [h.keys_length] at full
        omega
      obtain ⟨s', place, table'⟩ := place_ok h v room
      exact ⟨s', by rw [insert, insertWithin_of_room h v room, place], Or.inr ⟨t, table'⟩⟩

/-- Membership is exact. -/
theorem contains_ok (h : s.Holds A) (v : UInt32) : s.contains v = .ok (decide (v ∈ A)) := by
  rcases h with ⟨rfl, rfl⟩ | ⟨t, h⟩
  · simp [contains, new]
  · obtain ⟨d, _, _, probe, _⟩ := h.probe_ok v
    simp only [contains, h.mask_ne_zero, ↓reduceIte, probe, exec_ok_bind]

theorem len_eq_card (h : s.Holds A) : s.len = A.card := by
  rcases h with ⟨rfl, rfl⟩ | ⟨t, h⟩
  · rfl
  · exact h.len_eq

theorem withCapacity_holds (n : Nat) : (withCapacity n).Holds ∅ := by
  obtain ⟨m, hm⟩ := Nat.isPowerOfTwo_nextPowerOfTwo n
  have cap : max n.nextPowerOfTwo 8 = 2 ^ max m 3 := by
    rw [hm]
    rcases Nat.le_total m 3 with le | le
    · rw [Nat.max_eq_right le, Nat.max_eq_right (Nat.pow_le_pow_right (n := 2) (by decide) le)]
    · rw [Nat.max_eq_left le, Nat.max_eq_left (Nat.pow_le_pow_right (n := 2) (by decide) le)]
  refine Or.inr ⟨max m 3, ?_⟩
  rw [withCapacity, cap]
  exact emptyTable hash (Nat.le_max_right m 3)

end

end U32Set

end DeOptiTransfer
