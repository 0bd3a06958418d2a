import Mathlib.Algebra.Group.Nat.Defs
import Mathlib.Tactic.Common

/-!
# UTF-8

A text is a list of Unicode scalar values. Bytes are decoded the way a decoder
with replacement does it: a run of bytes that starts a character and then breaks
off counts as one error.

* `decodeChar_encode`: a character is read back;
* `fromUtf8_utf8Encode`, `fromUtf8Lossy_utf8Encode`: so is a text.
-/

namespace DeOptiTransfer

def utf8Encode (s : List Char) : List UInt8 := s.flatMap String.utf8EncodeChar

/-- The number of bytes that follow a first byte, if it can be one. -/
def utf8More (first : Nat) : Nat :=
  if 0xc2 ≤ first ∧ first ≤ 0xdf then 1
  else if 0xe0 ≤ first ∧ first ≤ 0xef then 2
  else if 0xf0 ≤ first ∧ first ≤ 0xf4 then 3
  else 0

/-- The second byte excludes overlong forms, surrogates and what is past the
last code point. -/
def utf8Second (first second : Nat) : Bool :=
  if first = 0xe0 then 0xa0 ≤ second ∧ second ≤ 0xbf
  else if first = 0xed then 0x80 ≤ second ∧ second ≤ 0x9f
  else if first = 0xf0 then 0x90 ≤ second ∧ second ≤ 0xbf
  else if first = 0xf4 then 0x80 ≤ second ∧ second ≤ 0x8f
  else 0x80 ≤ second ∧ second ≤ 0xbf

/-- Add `n` continuation bytes to the value `v`. -/
def utf8Tail : Nat → Nat → List UInt8 → Option Nat × List UInt8
  | 0, v, rest => (some v, rest)
  | _ + 1, _, [] => (none, [])
  | n + 1, v, x :: rest =>
    if 0x80 ≤ x.toNat ∧ x.toNat ≤ 0xbf then utf8Tail n (v * 64 + x.toNat % 64) rest
    else (none, x :: rest)

/-- The character that starts with byte `b`, or nothing for an error, and the
bytes after it. -/
def decodeChar (b : UInt8) (rest : List UInt8) : Option Char × List UInt8 :=
  let first := b.toNat
  if first < 0x80 then (some (Char.ofNat first), rest)
  else
    let more := utf8More first
    if more = 0 then (none, rest)
    else
      match rest with
      | [] => (none, [])
      | x :: after =>
        if utf8Second first x.toNat then
          let (v, after) := utf8Tail (more - 1) (first % 2 ^ (6 - more) * 64 + x.toNat % 64) after
          (v.map Char.ofNat, after)
        else (none, x :: after)

/-- The characters and errors of `bytes`, of which there are at most `n`. -/
def utf8Chunks : Nat → List UInt8 → List (Option Char)
  | 0, _ => []
  | _ + 1, [] => []
  | n + 1, b :: rest =>
    let (c, rest) := decodeChar b rest
    c :: utf8Chunks n rest

/-- `str::from_utf8` -/
def fromUtf8 (bytes : List UInt8) : Option (List Char) :=
  (utf8Chunks bytes.length bytes).mapM id

/-- `String::from_utf8_lossy` -/
def fromUtf8Lossy (bytes : List UInt8) : List Char :=
  (utf8Chunks bytes.length bytes).map (·.getD '\uFFFD')

theorem utf8Tail_succ {n v : Nat} {low : Nat} (lt : low < 64) (rest : List UInt8) :
    utf8Tail (n + 1) v (UInt8.ofNat (low + 0x80) :: rest) = utf8Tail n (v * 64 + low) rest := by
  have value : (UInt8.ofNat (low + 0x80)).toNat = low + 0x80 :=
    UInt8.toNat_ofNat_of_lt' (by simp only [UInt8.size]; omega)
  have range : 0x80 ≤ low + 0x80 ∧ low + 0x80 ≤ 0xbf := by omega
  have bits : (low + 0x80) % 64 = low := by omega
  simp only [utf8Tail, value, range, and_self, ↓reduceIte, bits]

theorem byte_value {n : Nat} (lt : n < 256) : (UInt8.ofNat n).toNat = n :=
  UInt8.toNat_ofNat_of_lt' lt

/-- A character of several bytes, from the parts of its value. -/
theorem decodeChar_more {lead low more : Nat} (low_lt : low < 64) (first : 0x80 ≤ lead)
    (lead_lt : lead < 256) (len : utf8More lead = more + 1)
    (second : utf8Second lead (low + 0x80) = true) (rest : List UInt8) :
    decodeChar (UInt8.ofNat lead) (UInt8.ofNat (low + 0x80) :: rest) =
      ((utf8Tail more (lead % 2 ^ (5 - more) * 64 + low) rest).1.map Char.ofNat,
        (utf8Tail more (lead % 2 ^ (5 - more) * 64 + low) rest).2) := by
  have large : ¬ lead < 0x80 := by omega
  have bits : (low + 0x80) % 64 = low := by omega
  have width : 6 - (more + 1) = 5 - more := by omega
  simp only [decodeChar, byte_value lead_lt, byte_value (show low + 0x80 < 256 by omega), large,
    ↓reduceIte, len, Nat.add_one_ne_zero, second, Nat.add_sub_cancel, width, bits]

/-- A character is read back, whatever follows it. -/
theorem decodeChar_encode (c : Char) (after : List UInt8) :
    ∃ b rest, String.utf8EncodeChar c ++ after = b :: rest ∧
      decodeChar b rest = (some c, after) := by
  obtain ⟨v, hv⟩ : ∃ v, c.val.toNat = v := ⟨_, rfl⟩
  have back : Char.ofNat v = c := by rw [← hv]; exact Char.ofNat_toNat c
  have valid : v < 0xd800 ∨ 0xdfff < v ∧ v < 0x110000 := hv ▸ c.valid
  unfold String.utf8EncodeChar
  simp only [hv]
  by_cases one : v ≤ 0x7f
  · refine ⟨UInt8.ofNat v, after, by rw [if_pos one]; rfl, ?_⟩
    simp only [decodeChar, byte_value (show v < 256 by omega), show v < 0x80 by omega, ↓reduceIte,
      back]
  rw [if_neg one]
  by_cases two : v ≤ 0x7ff
  · have lead : v / 64 % 32 + 0xc0 = v / 64 + 0xc0 := by omega
    refine ⟨UInt8.ofNat (v / 64 + 0xc0), UInt8.ofNat (v % 64 + 0x80) :: after,
      by rw [if_pos two, lead]; rfl, ?_⟩
    have len : utf8More (v / 64 + 0xc0) = 0 + 1 := by
      rw [utf8More, if_pos (by omega)]
    have second : utf8Second (v / 64 + 0xc0) (v % 64 + 0x80) = true := by
      unfold utf8Second
      split_ifs <;> simp <;> omega
    rw [decodeChar_more (by omega) (by omega) (by omega) len second]
    have value : (v / 64 + 0xc0) % 2 ^ (5 - 0) * 64 + v % 64 = v := by omega
    simp only [utf8Tail, value, Option.map_some, back]
  rw [if_neg two]
  by_cases three : v ≤ 0xffff
  · have lead : v / 4096 % 16 + 0xe0 = v / 4096 + 0xe0 := by omega
    refine ⟨UInt8.ofNat (v / 4096 + 0xe0),
      UInt8.ofNat (v / 64 % 64 + 0x80) :: UInt8.ofNat (v % 64 + 0x80) :: after,
      by rw [if_pos three, lead]; rfl, ?_⟩
    have len : utf8More (v / 4096 + 0xe0) = 1 + 1 := by
      rw [utf8More, if_neg (by omega), if_pos (by omega)]
    have second : utf8Second (v / 4096 + 0xe0) (v / 64 % 64 + 0x80) = true := by
      unfold utf8Second
      split_ifs <;> simp <;> omega
    rw [decodeChar_more (by omega) (by omega) (by omega) len second, utf8Tail_succ (by omega)]
    have value : ((v / 4096 + 0xe0) % 2 ^ (5 - 1) * 64 + v / 64 % 64) * 64 + v % 64 = v := by omega
    simp only [utf8Tail, value, Option.map_some, back]
  · have lead : v / 262144 % 8 + 0xf0 = v / 262144 + 0xf0 := by omega
    refine ⟨UInt8.ofNat (v / 262144 + 0xf0), UInt8.ofNat (v / 4096 % 64 + 0x80) ::
      UInt8.ofNat (v / 64 % 64 + 0x80) :: UInt8.ofNat (v % 64 + 0x80) :: after,
      by rw [if_neg three, lead]; rfl, ?_⟩
    have len : utf8More (v / 262144 + 0xf0) = 2 + 1 := by
      rw [utf8More, if_neg (by omega), if_neg (by omega), if_pos (by omega)]
    have second : utf8Second (v / 262144 + 0xf0) (v / 4096 % 64 + 0x80) = true := by
      unfold utf8Second
      split_ifs <;> simp <;> omega
    rw [decodeChar_more (by omega) (by omega) (by omega) len second, utf8Tail_succ (by omega),
      utf8Tail_succ (by omega)]
    have value : (((v / 262144 + 0xf0) % 2 ^ (5 - 2) * 64 + v / 4096 % 64) * 64 + v / 64 % 64) * 64 +
        v % 64 = v := by omega
    simp only [utf8Tail, value, Option.map_some, back]

/-- A text is split into its characters. -/
theorem utf8Chunks_utf8Encode (s : List Char) (n : Nat) (enough : (utf8Encode s).length ≤ n) :
    utf8Chunks n (utf8Encode s) = s.map some := by
  induction s generalizing n with
  | nil => cases n <;> rfl
  | cons c s ih =>
    obtain ⟨b, rest, eq, decode⟩ := decodeChar_encode c (utf8Encode s)
    have whole : utf8Encode (c :: s) = b :: rest := by
      rw [← eq]
      rfl
    have shorter : (utf8Encode s).length < (utf8Encode (c :: s)).length := by
      have := Char.utf8Size_pos c
      simp only [utf8Encode, List.flatMap_cons, List.length_append, String.length_utf8EncodeChar]
      omega
    obtain ⟨m, rfl⟩ : ∃ m, n = m + 1 := ⟨n - 1, by omega⟩
    rw [whole, utf8Chunks, decode]
    simp only [List.map_cons, ih m (by omega)]

theorem fromUtf8_utf8Encode (s : List Char) : fromUtf8 (utf8Encode s) = some s := by
  rw [fromUtf8, utf8Chunks_utf8Encode s _ (Nat.le_refl _)]
  induction s with
  | nil => rfl
  | cons c s ih => simp [List.mapM_cons, ih]

theorem utf8Encode_injective : Function.Injective utf8Encode := by
  intro s s' same
  have decoded := congrArg fromUtf8 same
  rwa [fromUtf8_utf8Encode, fromUtf8_utf8Encode, Option.some.injEq] at decoded

theorem utf8Encode_append (s s' : List Char) :
    utf8Encode (s ++ s') = utf8Encode s ++ utf8Encode s' := List.flatMap_append

theorem length_le_utf8Encode (s : List Char) : s.length ≤ (utf8Encode s).length := by
  induction s with
  | nil => exact Nat.le_refl _
  | cons c s ih =>
    have one : 0 < (String.utf8EncodeChar c).length := by
      rw [String.length_utf8EncodeChar]
      exact c.utf8Size_pos
    have bytes : utf8Encode (c :: s) = String.utf8EncodeChar c ++ utf8Encode s := rfl
    rw [bytes, List.length_append, List.length_cons]
    omega

theorem fromUtf8Lossy_utf8Encode (s : List Char) : fromUtf8Lossy (utf8Encode s) = s := by
  rw [fromUtf8Lossy, utf8Chunks_utf8Encode s _ (Nat.le_refl _), List.map_map]
  exact List.map_id s

end DeOptiTransfer
