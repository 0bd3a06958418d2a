import DeOptiTransfer.Base.Exec
import DeOptiTransfer.Fountain.Equations

/-!
# The word arena

The decoder keeps every block it stores in one array of words, in slots of
`words` words each.

* `xorAt_ok`: `xor_at` of `fountain.rs`, on two slots, changes the first of
  them and nothing else;
* `slot_putSlot_ne`: a write to one slot leaves the others alone;
* `slot_append`: growing the arena keeps its slots.
-/

namespace DeOptiTransfer

def xorAt (arena : List UInt32) (a b words : Nat) : Exec (List UInt32) :=
  if a = b then .error .assertion
  else if a < b then do
    let (left, right) ← splitAtMut arena b
    let dst ← slice left a (a + words)
    let src ← slice right 0 words
    let row ← xorInto dst src
    let left ← writeSlice left a (a + words) row
    .ok (left ++ right)
  else do
    let (left, right) ← splitAtMut arena a
    let dst ← slice right 0 words
    let src ← slice left b (b + words)
    let row ← xorInto dst src
    let right ← writeSlice right 0 words row
    .ok (left ++ right)

/-- The slot at `off` lies inside an arena of `len` words. -/
def SlotIn (words len off : Nat) : Prop := words ∣ off ∧ off + words ≤ len

instance (words len off : Nat) : Decidable (SlotIn words len off) :=
  inferInstanceAs (Decidable (_ ∧ _))

/-- A call of `xor_at`, which takes two different and disjoint slots of the
arena. -/
def xorSlots (words : Nat) (arena : List UInt32) (a b : Nat) : Exec (List UInt32) := do
  requires (SlotIn words arena.length a ∧ SlotIn words arena.length b ∧ a ≠ b ∧
    (a + words ≤ b ∨ b + words ≤ a))
  xorAt arena a b words

/-- The contents of the slot at `off`. -/
def slot (words : Nat) (arena : List UInt32) (off : Nat) : List UInt32 :=
  (arena.drop off).take words

/-- The arena with `row` written to the slot at `off`. -/
def putSlot (words : Nat) (arena : List UInt32) (off : Nat) (row : List UInt32) : List UInt32 :=
  arena.take off ++ row ++ arena.drop (off + words)

section
variable {words : Nat} {arena : List UInt32} {a b : Nat}

theorem SlotIn.mono {len len' : Nat} (h : SlotIn words len a) (le : len ≤ len') :
    SlotIn words len' a :=
  ⟨h.1, h.2.trans le⟩

/-- Two different slots are disjoint. -/
theorem SlotIn.apart {len : Nat} (ha : SlotIn words len a) (hb : SlotIn words len b)
    (ne : a ≠ b) : a + words ≤ b ∨ b + words ≤ a := by
  obtain ⟨⟨m, rfl⟩, _⟩ := ha
  obtain ⟨⟨n, rfl⟩, _⟩ := hb
  have ne' : m ≠ n := fun eq => ne (by rw [eq])
  rcases Nat.lt_or_gt_of_ne ne' with lt | lt
  · left
    have := Nat.mul_le_mul_left words (show m + 1 ≤ n from lt)
    rwa [Nat.mul_add, Nat.mul_one] at this
  · right
    have := Nat.mul_le_mul_left words (show n + 1 ≤ m from lt)
    rwa [Nat.mul_add, Nat.mul_one] at this

theorem slot_length (h : SlotIn words arena.length a) : (slot words arena a).length = words := by
  have := h.2
  simp only [slot, List.length_take, List.length_drop]
  omega

theorem slice_slot (h : SlotIn words arena.length a) :
    slice arena a (a + words) = .ok (slot words arena a) := by
  rw [slice_of_le (by omega) h.2, slot, Nat.add_sub_cancel_left]

theorem putSlot_length {row : List UInt32} (h : SlotIn words arena.length a)
    (len : row.length = words) : (putSlot words arena a row).length = arena.length := by
  have := h.2
  simp only [putSlot, List.length_append, List.length_take, List.length_drop]
  omega

theorem slot_putSlot_self {row : List UInt32} (h : SlotIn words arena.length a)
    (len : row.length = words) : slot words (putSlot words arena a row) a = row := by
  have := h.2
  rw [slot, putSlot, List.append_assoc, List.drop_left' (by simp; omega), List.take_left' len]

theorem slot_putSlot_ne {row : List UInt32} (ha : SlotIn words arena.length a)
    (hb : SlotIn words arena.length b) (ne : b ≠ a) (len : row.length = words) :
    slot words (putSlot words arena a row) b = slot words arena b := by
  have in_a := ha.2
  have in_b := hb.2
  apply List.ext_getElem?
  intro i
  simp only [slot, putSlot, List.getElem?_take, List.getElem?_drop]
  split
  · rename_i inside
    rcases ha.apart hb ne.symm with after | before
    · rw [List.getElem?_append_right (by simp; omega), List.getElem?_drop]
      congr 1
      simp
      omega
    · rw [List.append_assoc, List.getElem?_append_left (by simp; omega),
        List.getElem?_take_of_lt (by omega)]
  · rfl

theorem slot_append (more : List UInt32) (h : SlotIn words arena.length a) :
    slot words (arena ++ more) a = slot words arena a := by
  have := h.2
  rw [slot, slot, List.drop_append_of_le_length (by omega),
    List.take_append_of_le_length (by simp; omega)]

theorem take_drop_append_drop {α : Type} (xs : List α) {m n : Nat} (h : m ≤ n) :
    (xs.drop m).take (n - m) ++ xs.drop n = xs.drop m := by
  have := List.take_append_drop (n - m) (xs.drop m)
  rwa [List.drop_drop, Nat.add_sub_cancel' h] at this

/-- `xor_at` adds one slot to another. -/
theorem xorAt_ok (ha : SlotIn words arena.length a) (hb : SlotIn words arena.length b)
    (ne : a ≠ b) :
    xorSlots words arena a b =
      .ok (putSlot words arena a
        (List.zipWith (· ^^^ ·) (slot words arena a) (slot words arena b))) := by
  have in_a := ha.2
  have in_b := hb.2
  have len_a := slot_length ha
  have len_b := slot_length hb
  have row_length : (List.zipWith (· ^^^ ·) (slot words arena a) (slot words arena b)).length =
      words := by simp [len_a, len_b]
  have sum := xorInto_ok (len_a.trans len_b.symm)
  simp only [xorSlots, requires_ok (⟨ha, hb, ne, ha.apart hb ne⟩ : _ ∧ _ ∧ _ ∧ _), exec_ok_bind, xorAt, ne, ↓reduceIte]
  rcases ha.apart hb ne with before | after
  · have dst : slice (arena.take b) a (a + words) = .ok (slot words arena a) := by
      rw [slice_of_le (by omega) (by simp; omega), slot, Nat.add_sub_cancel_left, List.drop_take,
        List.take_take]
      congr 2
      omega
    have src : slice (arena.drop b) 0 words = .ok (slot words arena b) := by
      rw [slice_of_le (by omega) (by simp; omega)]
      rfl
    simp only [show a < b by omega, ↓reduceIte, splitAtMut_of_le (show b ≤ arena.length by omega),
      exec_ok_bind, dst, src, sum]
    rw [writeSlice_of_le (by omega) (by simp; omega) (by omega), exec_ok_bind]
    simp only [putSlot, List.take_take, Nat.min_eq_left (show a ≤ b by omega), List.append_assoc]
    rw [List.drop_take, take_drop_append_drop arena before]
  · have dst : slice (arena.drop a) 0 words = .ok (slot words arena a) := by
      rw [slice_of_le (by omega) (by simp; omega)]
      rfl
    have src : slice (arena.take a) b (b + words) = .ok (slot words arena b) := by
      rw [slice_of_le (by omega) (by simp; omega), slot, Nat.add_sub_cancel_left, List.drop_take,
        List.take_take]
      congr 2
      omega
    simp only [show ¬ a < b by omega, ↓reduceIte,
      splitAtMut_of_le (show a ≤ arena.length by omega), exec_ok_bind, dst, src, sum]
    rw [writeSlice_of_le (by omega) (by simp; omega) (by omega), exec_ok_bind]
    simp only [putSlot, List.take_zero, List.nil_append, List.append_assoc, List.drop_drop]

end

end DeOptiTransfer
