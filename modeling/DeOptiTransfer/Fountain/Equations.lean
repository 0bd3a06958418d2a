import DeOptiTransfer.Base.Arith
import DeOptiTransfer.Base.LittleEndian
import DeOptiTransfer.Base.XorSum
import Mathlib.Data.UInt

/-!
# Source blocks and their equations

A payload is cut into blocks of `blockLen` bytes, the last one padded with
zeros, and a block is held as `words` 32-bit words. An equation is the
exclusive or of the blocks of an index set:

* `blockWords`, `equationWords`: the words of a block and of an equation;
* `equationWords_erase`: adding a block of the equation takes it out;
* `equationWords_padded`: the bytes past `blockLen` are zero in every
  equation, so a frame of `blockLen` bytes determines all its words.
-/

namespace DeOptiTransfer

/-- Source block `b`, padded with zeros to `blockLen` bytes. -/
def blockBytes (payload : List UInt8) (blockLen b : Nat) : List UInt8 :=
  let chunk := (payload.drop (b * blockLen)).take blockLen
  chunk ++ List.replicate (blockLen - chunk.length) 0

/-- Source block `b` as the words that hold it. -/
def blockWords (payload : List UInt8) (blockLen b : Nat) : List UInt32 :=
  wordsOfBytes (blockBytes payload blockLen b ++
    List.replicate (4 * divCeil blockLen 4 - blockLen) 0)

/-- The exclusive or of the source blocks in `s`, word by word. -/
def equationWords (payload : List UInt8) (blockLen : Nat) (s : Finset Nat) : List UInt32 :=
  (List.range (divCeil blockLen 4)).map fun w =>
    xorSum s fun b => (blockWords payload blockLen b).getD w 0

/-- `xor_into`: the exclusive or of two rows of one length. -/
def xorInto (dst src : List UInt32) : Exec (List UInt32) :=
  if dst.length = src.length then .ok (List.zipWith (· ^^^ ·) dst src) else .error .assertion

variable (payload : List UInt8) (blockLen : Nat)

theorem blockLen_le_words : blockLen ≤ 4 * divCeil blockLen 4 := by
  have := le_divCeil_mul blockLen (b := 4) (by decide)
  omega

@[simp] theorem blockBytes_length (b : Nat) : (blockBytes payload blockLen b).length = blockLen := by
  simp only [blockBytes, List.length_append, List.length_take, List.length_drop,
    List.length_replicate]
  omega

theorem wordsAsBytes_blockWords (b : Nat) :
    wordsAsBytes (blockWords payload blockLen b) = blockBytes payload blockLen b ++
      List.replicate (4 * divCeil blockLen 4 - blockLen) 0 := by
  have := blockLen_le_words blockLen
  exact wordsAsBytes_wordsOfBytes (n := divCeil blockLen 4) (by simp; omega)

@[simp] theorem blockWords_length (b : Nat) :
    (blockWords payload blockLen b).length = divCeil blockLen 4 := by
  have := blockLen_le_words blockLen
  exact wordsOfBytes_length (by simp; omega)

@[simp] theorem equationWords_length (s : Finset Nat) :
    (equationWords payload blockLen s).length = divCeil blockLen 4 := by
  simp [equationWords]

theorem equationWords_empty :
    equationWords payload blockLen ∅ = List.replicate (divCeil blockLen 4) 0 := by
  simp [equationWords]

theorem equationWords_singleton (b : Nat) :
    equationWords payload blockLen {b} = blockWords payload blockLen b := by
  apply List.ext_getElem
  · simp
  · intro w _ h
    simp only [blockWords_length] at h
    simp [equationWords, h]

/-- Adding one of its blocks to an equation takes the block out. -/
theorem equationWords_erase {s : Finset Nat} {b : Nat} (hb : b ∈ s) :
    List.zipWith (· ^^^ ·) (equationWords payload blockLen s) (blockWords payload blockLen b) =
      equationWords payload blockLen (s.erase b) := by
  apply List.ext_getElem
  · simp
  · intro w h _
    simp only [List.length_zipWith, equationWords_length, blockWords_length, Nat.min_self] at h
    have inside : w < (blockWords payload blockLen b).length := by simpa using h
    have term : (blockWords payload blockLen b)[w] =
        (blockWords payload blockLen b).getD w 0 := by
      simp [h]
    rw [List.getElem_zipWith, term]
    simp only [equationWords, List.getElem_map, List.getElem_range]
    exact xorSum_erase (fun b => (blockWords payload blockLen b).getD w 0) hb

theorem equationWords_insert {s : Finset Nat} {b : Nat} (hb : b ∉ s) :
    List.zipWith (· ^^^ ·) (equationWords payload blockLen s) (blockWords payload blockLen b) =
      equationWords payload blockLen (insert b s) := by
  apply List.ext_getElem
  · simp
  · intro w h _
    simp only [List.length_zipWith, equationWords_length, blockWords_length, Nat.min_self] at h
    have inside : w < (blockWords payload blockLen b).length := by simpa using h
    have term : (blockWords payload blockLen b)[w] =
        (blockWords payload blockLen b).getD w 0 := by
      simp [h]
    rw [List.getElem_zipWith, term]
    simp only [equationWords, List.getElem_map, List.getElem_range]
    rw [xorSum_insert (fun b => (blockWords payload blockLen b).getD w 0) hb, UInt32.xor_comm]

/-- The part of a row of words past `blockLen` bytes is zero. -/
def Padded (ws : List UInt32) : Prop :=
  (wordsAsBytes ws).drop blockLen = List.replicate (4 * divCeil blockLen 4 - blockLen) 0

variable {blockLen}

theorem Padded.xor {as bs : List UInt32} (ha : Padded blockLen as) (hb : Padded blockLen bs)
    (len : as.length = bs.length) : Padded blockLen (List.zipWith (· ^^^ ·) as bs) := by
  unfold Padded at *
  rw [wordsAsBytes_xor as bs len, List.drop_zipWith, ha, hb]
  simp

theorem blockWords_padded (b : Nat) : Padded blockLen (blockWords payload blockLen b) := by
  rw [Padded, wordsAsBytes_blockWords, List.drop_left' (by simp)]

theorem equationWords_padded (s : Finset Nat) :
    Padded blockLen (equationWords payload blockLen s) := by
  induction s using Finset.induction_on with
  | empty =>
    rw [Padded, equationWords_empty, wordsAsBytes_replicate, List.drop_replicate]
  | insert b s hb ih =>
    rw [← equationWords_insert payload blockLen hb]
    exact ih.xor (blockWords_padded payload b) (by simp)

/-- A frame of `blockLen` bytes determines the words it was cut from. -/
theorem wordsOfBytes_take {ws : List UInt32} (h : Padded blockLen ws) :
    wordsOfBytes ((wordsAsBytes ws).take blockLen ++
      List.replicate (4 * divCeil blockLen 4 - blockLen) 0) = ws := by
  rw [← h, List.take_append_drop, wordsOfBytes_wordsAsBytes]

theorem take_wordsAsBytes_blockWords (b : Nat) :
    (wordsAsBytes (blockWords payload blockLen b)).take blockLen =
      blockBytes payload blockLen b := by
  rw [wordsAsBytes_blockWords, List.take_left' (by simp)]

theorem xorInto_ok {dst src : List UInt32} (h : dst.length = src.length) :
    xorInto dst src = .ok (List.zipWith (· ^^^ ·) dst src) := by
  simp [xorInto, h]

end DeOptiTransfer
