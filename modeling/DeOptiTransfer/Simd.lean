import DeOptiTransfer.Base.Lanes
import DeOptiTransfer.Fountain.Equations

/-!
# The vector exclusive or

`simd.rs`: `xor_into` picks one of four implementations, by architecture and,
on x86_64, by a cached check for AVX2. Three of them are raw-pointer loops
over lanes, here loops over `Lanes.Buffers` whose accesses are checked and
recorded.

* `xorInto_eq`: whichever is picked, the result is the exclusive or that the
  fountain code is modelled with;
* `vector_xor_eq_scalar`: the loops element by element, their accesses, the
  dispatch, and that a second call undoes the first.
-/

namespace DeOptiTransfer.Simd

/-- The targets the source is compiled for, as far as it tells them apart. -/
inductive Arch where
  | x86_64
  | aarch64
  | other
  deriving DecidableEq, Repr

/-- What the processor answers: `__cpuid(1).ecx`, `_xgetbv(0)` and
`__cpuid(7).ebx`. -/
structure Cpu where
  leaf1Ecx : UInt32
  xcr0 : UInt64
  leaf7Ebx : UInt32
  deriving DecidableEq

def detectAvx2 (cpu : Cpu) : Bool :=
  let osxsave := cpu.leaf1Ecx &&& ((1 : UInt32) <<< 27) != 0
  let avx := cpu.leaf1Ecx &&& ((1 : UInt32) <<< 28) != 0
  if !osxsave || !avx then false
  else if cpu.xcr0 &&& 0x6 != 0x6 then false
  else cpu.leaf7Ebx &&& ((1 : UInt32) <<< 5) != 0

/-- The answer, and `AVX2_STATE` after the call: `0` unknown, `1` absent,
`2` present. -/
def avx2Available (cpu : Cpu) (AVX2_STATE : UInt8) : Bool × UInt8 :=
  match AVX2_STATE with
  | 1 => (false, AVX2_STATE)
  | 2 => (true, AVX2_STATE)
  | _ =>
    let detected := detectAvx2 cpu
    (detected, if detected then 2 else 1)

/-- `_mm256_loadu_si256`, `_mm256_xor_si256` and `_mm256_storeu_si256` are on
eight lanes. -/
def xorAvx2 (dst src : List UInt32) : Exec (Lanes.Buffers UInt32) :=
  Lanes.zipInto (· ^^^ ·) 8 dst src

/-- `_mm_loadu_si128`, `_mm_xor_si128` and `_mm_storeu_si128` are on four
lanes. -/
def xorSse2 (dst src : List UInt32) : Exec (Lanes.Buffers UInt32) :=
  Lanes.zipInto (· ^^^ ·) 4 dst src

/-- `vld1q_u32`, `veorq_u32` and `vst1q_u32` are on four lanes. -/
def xorNeon (dst src : List UInt32) : Exec (Lanes.Buffers UInt32) :=
  Lanes.zipInto (· ^^^ ·) 4 dst src

/-- `for (d, s) in dst.iter_mut().zip(src)` ends with the shorter slice. -/
def xorScalar (dst src : List UInt32) : List UInt32 :=
  List.zipWith (· ^^^ ·) dst src ++ dst.drop src.length

/-- The new `dst` and the new `AVX2_STATE`. -/
def xorInto (arch : Arch) (cpu : Cpu) (AVX2_STATE : UInt8) (dst src : List UInt32) :
    Exec (List UInt32 × UInt8) :=
  if dst.length ≠ src.length then .error .assertion
  else match arch with
    | .x86_64 => do
      let (available, AVX2_STATE) := avx2Available cpu AVX2_STATE
      let b ← if available then xorAvx2 dst src else xorSse2 dst src
      .ok (b.dst, AVX2_STATE)
    | .aarch64 => do
      let b ← xorNeon dst src
      .ok (b.dst, AVX2_STATE)
    | .other => .ok (xorScalar dst src, AVX2_STATE)

section
variable {dst src : List UInt32} (same : dst.length = src.length)
include same

theorem xorScalar_eq : xorScalar dst src = List.zipWith (· ^^^ ·) dst src := by
  rw [xorScalar, ← same, List.drop_length, List.append_nil]

theorem lanes_ok {w : Nat} (pos : 0 < w) :
    Lanes.zipInto (· ^^^ ·) w dst src = .ok ⟨xorScalar dst src, src, List.range dst.length,
      List.range dst.length, List.range dst.length⟩ := by
  rw [Lanes.zipInto_ok same pos, xorScalar_eq same]

theorem xorInto_ok (arch : Arch) (cpu : Cpu) (AVX2_STATE : UInt8) :
    ∃ state, xorInto arch cpu AVX2_STATE dst src = .ok (xorScalar dst src, state) := by
  have equal : ¬ dst.length ≠ src.length := by omega
  have four : 0 < 4 := by decide
  have eight : 0 < 8 := by decide
  cases arch with
  | x86_64 =>
    refine ⟨(avx2Available cpu AVX2_STATE).2, ?_⟩
    simp only [xorInto, equal, ↓reduceIte]
    cases (avx2Available cpu AVX2_STATE).1
    · simp only [Bool.false_eq_true, ↓reduceIte, xorSse2, lanes_ok same four, exec_ok_bind]
    · simp only [↓reduceIte, xorAvx2, lanes_ok same eight, exec_ok_bind]
  | aarch64 =>
    refine ⟨AVX2_STATE, ?_⟩
    simp only [xorInto, equal, ↓reduceIte, xorNeon, lanes_ok same four, exec_ok_bind]
  | other =>
    refine ⟨AVX2_STATE, ?_⟩
    simp only [xorInto, equal, ↓reduceIte]

theorem xorScalar_length : (xorScalar dst src).length = dst.length := by
  rw [xorScalar_eq same, List.length_zipWith]
  omega

theorem xorScalar_getElem (i : Nat) (hi : i < dst.length) :
    (xorScalar dst src)[i]? = some (dst[i] ^^^ src[i]) := by
  have hi' : i < src.length := by omega
  rw [xorScalar_eq same, List.getElem?_zipWith, List.getElem?_eq_getElem hi,
    List.getElem?_eq_getElem hi']

theorem xorScalar_twice : xorScalar (xorScalar dst src) src = dst := by
  have length := xorScalar_length same
  apply List.ext_getElem?
  intro i
  by_cases hi : i < dst.length
  · have first := xorScalar_getElem same i hi
    rw [List.getElem?_eq_getElem (by omega)] at first
    rw [xorScalar_getElem (length.trans same) i (by omega), Option.some.inj first,
      List.getElem?_eq_getElem hi, UInt32.xor_assoc, UInt32.xor_self, UInt32.xor_zero]
  · have out := xorScalar_length (length.trans same)
    rw [List.getElem?_eq_none (by omega), List.getElem?_eq_none (by omega)]

end

/-- The fountain code is modelled with the exclusive or that every path
computes. -/
theorem xorInto_eq (arch : Arch) (cpu : Cpu) (AVX2_STATE : UInt8) (dst src : List UInt32) :
    (xorInto arch cpu AVX2_STATE dst src).map Prod.fst = DeOptiTransfer.xorInto dst src := by
  by_cases same : dst.length = src.length
  · obtain ⟨state, run⟩ := xorInto_ok same arch cpu AVX2_STATE
    rw [run, DeOptiTransfer.xorInto_ok same, ← xorScalar_eq same]
    rfl
  · simp only [xorInto, ne_eq, same, not_false_eq_true, ↓reduceIte, DeOptiTransfer.xorInto]
    rfl

/-- Each loop leaves the exclusive or of every element, reads and writes every
index below the length once and no other, and so `xor_into` does the same on
every path; a second call, on whichever path, restores `dst`. -/
theorem vector_xor_eq_scalar (dst src : List UInt32) (same : dst.length = src.length) :
    (∀ loop ∈ [xorAvx2, xorSse2, xorNeon], ∃ b, loop dst src = .ok b ∧
      b.dst.length = dst.length ∧
      (∀ i (hi : i < dst.length), b.dst[i]? = some (dst[i] ^^^ src[i])) ∧
      b.src = src ∧
      b.dstReads = List.range dst.length ∧
      b.srcReads = List.range dst.length ∧
      b.dstWrites = List.range dst.length) ∧
    (∀ arch cpu state, ∃ state',
      xorInto arch cpu state dst src = .ok (xorScalar dst src, state')) ∧
    ∀ arch cpu state arch' cpu' state', ∃ mid s s',
      xorInto arch cpu state dst src = .ok (mid, s) ∧
      xorInto arch' cpu' state' mid src = .ok (dst, s') := by
  refine ⟨?_, fun arch cpu state => xorInto_ok same arch cpu state, ?_⟩
  · intro loop path
    have run : loop dst src = .ok ⟨xorScalar dst src, src, List.range dst.length,
        List.range dst.length, List.range dst.length⟩ := by
      simp only [List.mem_cons, List.not_mem_nil, or_false] at path
      rcases path with rfl | rfl | rfl
      · exact lanes_ok same (by decide)
      · exact lanes_ok same (by decide)
      · exact lanes_ok same (by decide)
    exact ⟨_, run, xorScalar_length same, xorScalar_getElem same, rfl, rfl, rfl, rfl⟩
  · intro arch cpu state arch' cpu' state'
    obtain ⟨s, first⟩ := xorInto_ok same arch cpu state
    obtain ⟨s', second⟩ := xorInto_ok ((xorScalar_length same).trans same) arch' cpu' state'
    rw [xorScalar_twice same] at second
    exact ⟨_, s, s', first, second⟩

/-- Nine words: one turn of the eight lanes, two of the four, and a tail. -/
theorem vector_xor_eq_scalar_nine :
    (List.replicate 9 (5 : UInt32)).length = (List.range' 0 9).length ∧
    ∃ s s', xorInto .x86_64 ⟨0, 0, 0⟩ 2 (List.replicate 9 5) ((List.range' 0 9).map .ofNat) =
        .ok ([5, 4, 7, 6, 1, 0, 3, 2, 13], s) ∧
      xorInto .aarch64 ⟨0, 0, 0⟩ 0 [5, 4, 7, 6, 1, 0, 3, 2, 13] ((List.range' 0 9).map .ofNat) =
        .ok (List.replicate 9 5, s') := by
  obtain ⟨_, _, twice⟩ := vector_xor_eq_scalar (List.replicate 9 5) ((List.range' 0 9).map .ofNat)
    (by decide)
  obtain ⟨mid, s, s', first, second⟩ := twice .x86_64 ⟨0, 0, 0⟩ 2 .aarch64 ⟨0, 0, 0⟩ 0
  have result : mid = [5, 4, 7, 6, 1, 0, 3, 2, 13] := by
    have run : xorInto .x86_64 ⟨0, 0, 0⟩ 2 (List.replicate 9 5) ((List.range' 0 9).map .ofNat) =
        .ok ([5, 4, 7, 6, 1, 0, 3, 2, 13], 2) := by decide +kernel
    rw [first] at run
    exact congrArg Prod.fst (Except.ok.inj run)
  subst result
  exact ⟨by decide, s, s', first, second⟩

end DeOptiTransfer.Simd
