import DeOptiTransfer.Base.Exec
import Mathlib.Tactic.Common

/-!
# Loops over lanes

A function of two elements applied in place to a destination and a source,
`w` neighbouring elements at a time while that many are left, then one at a
time. `Buffers` keeps, next to the elements, every index that was read or
written.

* `lanesLoop_ok`: a loop of any width does the elements it passes and stops
  where fewer than `w` are left;
* `zipInto_ok`: both loops together do every element, and their accesses are
  each index below the length once, in order, and no other.
-/

namespace DeOptiTransfer.Lanes

/-- Two buffers and the accesses made to them so far, in order. -/
@[ext]
structure Buffers (α : Type) where
  dst : List α
  src : List α
  dstReads : List Nat
  srcReads : List Nat
  dstWrites : List Nat
  deriving DecidableEq

section
variable {α : Type}

def Buffers.untouched (dst src : List α) : Buffers α := ⟨dst, src, [], [], []⟩

def Buffers.loadDst (b : Buffers α) (w i : Nat) : Exec (List α × Buffers α) := do
  let lanes ← slice b.dst i (i + w)
  .ok (lanes, { b with dstReads := b.dstReads ++ List.range' i w })

def Buffers.loadSrc (b : Buffers α) (w i : Nat) : Exec (List α × Buffers α) := do
  let lanes ← slice b.src i (i + w)
  .ok (lanes, { b with srcReads := b.srcReads ++ List.range' i w })

def Buffers.storeDst (b : Buffers α) (w i : Nat) (lanes : List α) : Exec (Buffers α) := do
  let dst ← writeSlice b.dst i (i + w) lanes
  .ok { b with dst, dstWrites := b.dstWrites ++ List.range' i w }

variable (f : α → α → α) (w n : Nat)

/-- Load `w` lanes of both buffers, combine them, store the result. -/
def combine (i : Nat) (b : Buffers α) : Exec (Buffers α) := do
  let (x, b) ← b.loadDst w i
  let (y, b) ← b.loadSrc w i
  b.storeDst w i (List.zipWith f x y)

/-- `while i + w <= n { combine; i += w }`, with the index it stops at. -/
def lanesLoop : Nat → Nat → Buffers α → Exec (Nat × Buffers α)
  | 0, _, _ => .error .diverges
  | turns + 1, i, b =>
    if i + w ≤ n then do
      let b ← combine f w i b
      lanesLoop turns (i + w) b
    else .ok (i, b)

/-- The loop over `w` lanes and the loop over what it leaves. -/
def zipInto (dst src : List α) : Exec (Buffers α) := do
  let n := dst.length
  let (i, b) ← lanesLoop f w n (n + 1) 0 (.untouched dst src)
  let (_, b) ← lanesLoop f 1 n (n + 1) i b
  .ok b

end

section
variable {α : Type} {f : α → α → α} {w : Nat} {dst src : List α}

/-- The buffers when the first `i` elements are done. -/
structure Done (f : α → α → α) (dst src : List α) (i : Nat) (b : Buffers α) : Prop where
  le : i ≤ dst.length
  dst_eq : b.dst = List.zipWith f (dst.take i) (src.take i) ++ dst.drop i
  src_eq : b.src = src
  dstReads_eq : b.dstReads = List.range i
  srcReads_eq : b.srcReads = List.range i
  dstWrites_eq : b.dstWrites = List.range i

theorem range_append_range' (i w : Nat) : List.range i ++ List.range' i w = List.range (i + w) := by
  rw [List.range_eq_range', List.range_eq_range']
  simpa using List.range'_append_1 (s := 0) (m := i) (n := w)

theorem Done.start (f : α → α → α) (dst src : List α) : Done f dst src 0 (.untouched dst src) :=
  ⟨Nat.zero_le _, by simp [Buffers.untouched], rfl, rfl, rfl, rfl⟩

section
variable (same : dst.length = src.length)
include same

/-- A turn does the next `w` elements. -/
theorem combine_ok {i : Nat} {b : Buffers α} (done : Done f dst src i b)
    (room : i + w ≤ dst.length) :
    ∃ b', combine f w i b = .ok b' ∧ Done f dst src (i + w) b' := by
  obtain ⟨_, dst_eq, src_eq, dstReads, srcReads, dstWrites⟩ := done
  have head : (List.zipWith f (dst.take i) (src.take i)).length = i := by
    simp only [List.length_zipWith, List.length_take]
    omega
  have cut : b.dst = List.zipWith f (dst.take i) (src.take i) ++ (dst.drop i).take w ++
      dst.drop (i + w) := by
    rw [dst_eq, List.append_assoc, ← List.drop_drop, List.take_append_drop]
  have lanes : ((dst.drop i).take w).length = w := by
    simp only [List.length_take, List.length_drop]
    omega
  have fits : (List.zipWith f ((dst.drop i).take w) ((src.drop i).take w)).length = w := by
    simp only [List.length_zipWith, List.length_take, List.length_drop]
    omega
  have length : b.dst.length = dst.length := by
    rw [dst_eq, List.length_append, head, List.length_drop]
    omega
  have load : slice b.dst i (i + w) = .ok ((dst.drop i).take w) := by
    rw [cut]
    exact slice_append head (by rw [lanes])
  have loadSrc : slice b.src i (i + w) = .ok ((src.drop i).take w) := by
    rw [src_eq, slice_of_le (Nat.le_add_right i w) (by omega), Nat.add_sub_cancel_left]
  have store : writeSlice b.dst i (i + w)
      (List.zipWith f ((dst.drop i).take w) ((src.drop i).take w)) =
      .ok (List.zipWith f (dst.take (i + w)) (src.take (i + w)) ++ dst.drop (i + w)) := by
    have before : b.dst.take i = List.zipWith f (dst.take i) (src.take i) := by
      rw [dst_eq, List.take_left' head]
    have after : b.dst.drop (i + w) = dst.drop (i + w) := by
      rw [cut, List.drop_left' (by rw [List.length_append, head, lanes])]
    rw [writeSlice_of_le (Nat.le_add_right i w) (by omega) (by omega), before, after, List.take_add,
      List.take_add, List.zipWith_append (by simp; omega)]
  refine ⟨⟨_, b.src, List.range (i + w), List.range (i + w), List.range (i + w)⟩, ?_,
    ⟨room, rfl, src_eq, rfl, rfl, rfl⟩⟩
  simp only [combine, Buffers.loadDst, Buffers.loadSrc, Buffers.storeDst, load, loadSrc, store,
    exec_ok_bind, dstReads, srcReads, dstWrites, range_append_range']

/-- A loop stops where fewer than `w` elements are left, with those before it
done. -/
theorem lanesLoop_ok (pos : 0 < w) {i : Nat} {b : Buffers α} (turns : Nat)
    (done : Done f dst src i b) (enough : dst.length < i + turns) :
    ∃ j b', lanesLoop f w dst.length turns i b = .ok (j, b') ∧ Done f dst src j b' ∧ i ≤ j ∧
      dst.length < j + w := by
  induction turns generalizing i b with
  | zero => have := done.le; omega
  | succ turns ih =>
    simp only [lanesLoop]
    by_cases room : i + w ≤ dst.length
    · obtain ⟨b', turn, done'⟩ := combine_ok same done room
      obtain ⟨j, b'', run, done'', le, stop⟩ := ih done' (by omega)
      refine ⟨j, b'', ?_, done'', by omega, stop⟩
      simp only [room, ↓reduceIte, turn, exec_ok_bind, run]
    · exact ⟨i, b, by simp only [room, ↓reduceIte], done, Nat.le_refl i, by omega⟩

/-- Every element is combined, every index accessed once. -/
theorem zipInto_ok (pos : 0 < w) :
    zipInto f w dst src = .ok ⟨List.zipWith f dst src, src, List.range dst.length,
      List.range dst.length, List.range dst.length⟩ := by
  obtain ⟨i, b, chunks, done, _, _⟩ :=
    lanesLoop_ok same pos (dst.length + 1) (Done.start f dst src) (by omega)
  obtain ⟨j, b', tail, done', _, last⟩ :=
    lanesLoop_ok same Nat.one_pos (dst.length + 1) done (by omega)
  have all : j = dst.length := by
    have := done'.le
    omega
  subst all
  obtain ⟨_, dst_eq, src_eq, dstReads, srcReads, dstWrites⟩ := done'
  have whole : b'.dst = List.zipWith f dst src := by
    rw [dst_eq, List.take_length, List.drop_length, List.append_nil, List.take_of_length_le (by omega)]
  have result : b' = ⟨List.zipWith f dst src, src, List.range dst.length,
      List.range dst.length, List.range dst.length⟩ :=
    Buffers.ext whole src_eq dstReads srcReads dstWrites
  simp only [zipInto, chunks, tail, exec_ok_bind, result]

end

end

end DeOptiTransfer.Lanes
