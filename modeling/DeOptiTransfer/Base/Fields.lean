import DeOptiTransfer.Base.LittleEndian

/-!
# Records of fixed-width fields

A record is written as its fields one after the other, each of a known width,
and read back by cutting the bytes at those widths with nothing left over.
`splitFields_iff`: the two are inverse.
-/

namespace DeOptiTransfer

/-- A row of exactly `n` bytes. -/
structure FixedBytes (n : Nat) where
  bytes : List UInt8
  length_eq : bytes.length = n
  deriving DecidableEq, Repr

namespace FixedBytes

variable {n : Nat}

@[ext] theorem ext {a b : FixedBytes n} (h : a.bytes = b.bytes) : a = b := by
  cases a
  cases b
  cases h
  rfl

@[simp] theorem length_bytes (a : FixedBytes n) : a.bytes.length = n := a.length_eq

/-- The row `bytes`, if it has the right length. -/
def ofList (n : Nat) (bytes : List UInt8) : Option (FixedBytes n) :=
  if h : bytes.length = n then some ⟨bytes, h⟩ else none

theorem ofList_bytes (a : FixedBytes n) : ofList n a.bytes = some a := by
  simp [ofList]

theorem ofList_eq_some {bytes : List UInt8} {a : FixedBytes n} :
    ofList n bytes = some a ↔ bytes = a.bytes := by
  constructor
  · intro h
    unfold ofList at h
    split at h
    · cases h
      rfl
    · cases h
  · rintro rfl
    exact a.ofList_bytes

/-- The first `n` bytes of a row that has so many. -/
theorem exists_append {bytes : List UInt8} (le : n ≤ bytes.length) :
    ∃ (a : FixedBytes n) (rest : List UInt8), bytes = a.bytes ++ rest :=
  ⟨⟨bytes.take n, List.length_take_of_le le⟩, bytes.drop n, (List.take_append_drop n bytes).symm⟩

/-- `array.copy_from_slice(src)` for an array of `n` bytes -/
def copyFromSlice (n : Nat) (src : List UInt8) : Exec (FixedBytes n) :=
  match ofList n src with
  | some a => .ok a
  | none => .error .outOfBounds

theorem copyFromSlice_bytes (a : FixedBytes n) : copyFromSlice n a.bytes = .ok a := by
  rw [copyFromSlice, ofList_bytes]

/-- `[0; n]` -/
def zero (n : Nat) : FixedBytes n := ⟨List.replicate n 0, List.length_replicate⟩

end FixedBytes

/-- Cut `bytes` into fields of the given widths. -/
def splitFields : List Nat → List UInt8 → Option (List (List UInt8))
  | [], [] => some []
  | [], _ :: _ => none
  | width :: widths, bytes =>
    if bytes.length < width then none
    else (splitFields widths (bytes.drop width)).map (bytes.take width :: ·)

theorem splitFields_flatten (fields : List (List UInt8)) :
    splitFields (fields.map List.length) fields.flatten = some fields := by
  induction fields with
  | nil => rfl
  | cons field rest ih =>
    have enough : ¬ (field ++ rest.flatten).length < field.length := by simp
    simp only [List.map_cons, List.flatten_cons, splitFields, enough, ↓reduceIte, List.drop_left,
      List.take_left, ih, Option.map_some]

theorem flatten_splitFields {widths : List Nat} {bytes : List UInt8} {fields : List (List UInt8)}
    (h : splitFields widths bytes = some fields) :
    fields.flatten = bytes ∧ fields.map List.length = widths := by
  induction widths generalizing bytes fields with
  | nil =>
    cases bytes with
    | nil =>
      cases h
      exact ⟨rfl, rfl⟩
    | cons b bs => cases h
  | cons width widths ih =>
    rw [splitFields] at h
    split at h
    · cases h
    · rename_i enough
      obtain ⟨rest, split, rfl⟩ := Option.map_eq_some_iff.mp h
      obtain ⟨flat, lengths⟩ := ih split
      refine ⟨by rw [List.flatten_cons, flat, List.take_append_drop], ?_⟩
      rw [List.map_cons, lengths, List.length_take]
      congr 1
      omega

/-- Reading inverts writing, and nothing else is read. -/
theorem splitFields_iff {widths : List Nat} {bytes : List UInt8} {fields : List (List UInt8)} :
    splitFields widths bytes = some fields ↔
      fields.flatten = bytes ∧ fields.map List.length = widths := by
  constructor
  · exact flatten_splitFields
  · rintro ⟨rfl, rfl⟩
    exact splitFields_flatten fields

/-! ## Numbers in fields -/

theorem uint8_of_field (v : UInt8) : UInt8.ofNat (leValue (leBytes 1 v.toNat)) = v := by
  have lt : v.toNat < 256 ^ 1 := v.toNat_lt
  rw [leValue_leBytes, Nat.mod_eq_of_lt lt, UInt8.ofNat_toNat]

theorem uint16_of_field (v : UInt16) : UInt16.ofNat (leValue (leBytes 2 v.toNat)) = v := by
  have lt : v.toNat < 256 ^ 2 := v.toNat_lt
  rw [leValue_leBytes, Nat.mod_eq_of_lt lt, UInt16.ofNat_toNat]

theorem uint32_of_field (v : UInt32) : UInt32.ofNat (leValue (leBytes 4 v.toNat)) = v := by
  have lt : v.toNat < 256 ^ 4 := v.toNat_lt
  rw [leValue_leBytes, Nat.mod_eq_of_lt lt, UInt32.ofNat_toNat]

/-- A field of `n` bytes is written back as it was read. -/
theorem leBytes_leValue_of_length {bs : List UInt8} {n v : Nat} (len : bs.length = n)
    (hv : v = leValue bs % 256 ^ n) : leBytes n v = bs := by
  have lt := leValue_lt bs
  rw [len] at lt
  rw [hv, Nat.mod_eq_of_lt lt, ← len, leBytes_leValue]

end DeOptiTransfer
