import DeOptiTransfer.Container.FileName

/-!
# Reserved device names

`safe_file_name` puts an underscore before a name whose stem Windows reserves,
but it looks at the stem with its trailing spaces, and only those at the end of
the whole name have been cut off.

* `isWindowsDeviceName_iff`: the test is that of the reserved names, in any
  letter case;
* `spaced_cleanedName_iff`: which names are left with spaces between a reserved
  stem and its dot;
* `noDevice_iff`: these are the names whose sanitised form is still reserved.
-/

namespace DeOptiTransfer

/-- The names Windows reserves. -/
def deviceNames : List Text :=
  ["CON", "PRN", "AUX", "NUL", "COM1", "COM2", "COM3", "COM4", "COM5", "COM6", "COM7", "COM8",
    "COM9", "LPT1", "LPT2", "LPT3", "LPT4", "LPT5", "LPT6", "LPT7", "LPT8", "LPT9"].map String.toList

/-- One of the reserved names, in any letter case. -/
def Reserved (stem : Text) : Prop := Text.toAsciiUppercase stem ∈ deviceNames

instance (stem : Text) : Decidable (Reserved stem) := inferInstanceAs (Decidable (_ ∈ _))

/-- The part before the first dot, trailing spaces ignored, is not reserved. -/
def NoDevice (s : Text) : Prop := ¬ Reserved ((Text.firstPart '.' s).rdropWhile (· = ' '))

instance (s : Text) : Decidable (NoDevice s) := inferInstanceAs (Decidable (¬ _))

/-- A reserved stem, one or more spaces, and a dot. -/
def Spaced (s : Text) : Prop :=
  ∃ dev gap rest, s = dev ++ gap ++ ['.'] ++ rest ∧ Reserved dev ∧ gap ≠ [] ∧ ∀ c ∈ gap, c = ' '

/-- The last path component, without the characters that are dropped, is a
reserved stem, one or more spaces, a dot and a rest that is not trimmed away;
white space before it does not count. -/
def SpacedDevice (name : Text) : Prop :=
  ∃ lead dev gap rest, visibleBase name = lead ++ (dev ++ gap ++ ['.'] ++ rest) ∧
    (∀ c ∈ lead, isWhitespace c = true) ∧ Reserved dev ∧ gap ≠ [] ∧ (∀ c ∈ gap, c = ' ') ∧
    ∃ c ∈ rest.rdropWhile isWhitespace, c ≠ '.' ∧ c ≠ ' '

/-! ## The test -/

/-- What the test does once the stem is in upper case. -/
def isReservedUpper (upper : Text) : Bool :=
  (upper = "CON".toList ∨ upper = "PRN".toList ∨ upper = "AUX".toList ∨ upper = "NUL".toList) ∨
    ((utf8Encode upper).length = 4 ∧
      ("COM".toList.isPrefixOf upper ∨ "LPT".toList.isPrefixOf upper) ∧
      0x31 ≤ ((utf8Encode upper).getD 3 0).toNat ∧ ((utf8Encode upper).getD 3 0).toNat ≤ 0x39)

theorem isWindowsDeviceName_eq (stem : Text) :
    isWindowsDeviceName stem = isReservedUpper (Text.toAsciiUppercase stem) := rfl

theorem isReservedUpper_of_mem : ∀ upper ∈ deviceNames, isReservedUpper upper = true := by
  decide +kernel

/-- A text that UTF-8 writes as one ASCII byte is the character with that value. -/
theorem utf8Encode_one {s : Text} {b : UInt8} (small : b.toNat < 0x80) (eq : utf8Encode s = [b]) :
    s = [Char.ofNat b.toNat] := by
  have back := fromUtf8_utf8Encode s
  have decoded : fromUtf8 [b] = some [Char.ofNat b.toNat] := by
    simp [fromUtf8, utf8Chunks, decodeChar, small]
  rw [eq, decoded] at back
  exact (Option.some.inj back).symm

/-- The numbered names: three letters and a digit from 1 to 9. -/
theorem numbered_mem {letters upper : Text} (three : (utf8Encode letters).length = 3)
    (listed : ∀ n < 0x3a, 0x31 ≤ n → letters ++ [Char.ofNat n] ∈ deviceNames)
    (starts : letters.isPrefixOf upper = true) (length : (utf8Encode upper).length = 4)
    (low : 0x31 ≤ ((utf8Encode upper).getD 3 0).toNat)
    (high : ((utf8Encode upper).getD 3 0).toNat ≤ 0x39) : upper ∈ deviceNames := by
  obtain ⟨rest, rfl⟩ := List.isPrefixOf_iff_prefix.mp starts
  have split : utf8Encode (letters ++ rest) = utf8Encode letters ++ utf8Encode rest :=
    List.flatMap_append
  rw [split, List.length_append, three] at length
  obtain ⟨b, one⟩ := List.length_eq_one_iff.mp (show (utf8Encode rest).length = 1 by omega)
  have last : (utf8Encode (letters ++ rest)).getD 3 0 = b := by
    rw [split, one, List.getD_eq_getElem?_getD, List.getElem?_append_right (by omega), three]
    rfl
  rw [last] at low high
  rw [utf8Encode_one (by omega) one]
  exact listed b.toNat (by omega) low

/-- The test is that of the reserved names. -/
theorem isWindowsDeviceName_iff (stem : Text) : isWindowsDeviceName stem = true ↔ Reserved stem := by
  rw [isWindowsDeviceName_eq]
  constructor
  · intro test
    unfold Reserved
    generalize Text.toAsciiUppercase stem = upper at test
    simp only [isReservedUpper, decide_eq_true_eq] at test
    rcases test with (rfl | rfl | rfl | rfl) | ⟨length, com | lpt, low, high⟩
    · decide
    · decide
    · decide
    · decide
    · exact numbered_mem (by decide) (by decide +kernel) com length low high
    · exact numbered_mem (by decide) (by decide +kernel) lpt length low high
  · exact isReservedUpper_of_mem _

/-! ## The characters of a reserved stem -/

theorem toUpper_cases (c : Char) : c.toUpper = c ∨ 97 ≤ c.toNat ∧ c.toNat ≤ 122 := by
  unfold Char.toUpper
  split
  · rename_i lower
    exact Or.inr ⟨UInt32.le_iff_toNat_le.mp lower.1, UInt32.le_iff_toNat_le.mp lower.2⟩
  · exact Or.inl rfl

/-- The characters a reserved stem is made of pass through the function. -/
structure StemChar (c : Char) : Prop where
  no_dot : c ≠ '.'
  no_space : c ≠ ' '
  no_underscore : c ≠ '_'
  visible : isWhitespace c = false
  allowed : replaceForbidden c = c

theorem stemChar_of_lower {c : Char} (low : 97 ≤ c.toNat) (high : c.toNat ≤ 122) : StemChar c := by
  have ne : ∀ d : Char, d.toNat < 97 ∨ 122 < d.toNat → c ≠ d := by
    rintro d out rfl
    omega
  refine ⟨ne _ (by decide), ne _ (by decide), ne _ (by decide), ?_, ?_⟩
  · simp only [isWhitespace, decide_eq_false_iff_not]
    omega
  · rw [replaceForbidden, if_neg]
    rintro (rfl | rfl | rfl | rfl | rfl | rfl | rfl) <;> revert low high <;> decide

theorem stemChar_listed : (deviceNames.flatten.all fun c => c ≠ '.' ∧ c ≠ ' ' ∧ c ≠ '_' ∧
    isWhitespace c = false ∧ replaceForbidden c = c) = true := by
  decide +kernel

theorem Reserved.stemChar {dev : Text} (reserved : Reserved dev) : ∀ c ∈ dev, StemChar c := by
  intro c mem
  rcases toUpper_cases c with same | ⟨low, high⟩
  · have upper : c ∈ deviceNames.flatten :=
      List.mem_flatten.mpr ⟨_, reserved, List.mem_map.mpr ⟨c, mem, same⟩⟩
    have listed := of_decide_eq_true (List.all_eq_true.mp stemChar_listed c upper)
    exact ⟨listed.1, listed.2.1, listed.2.2.1, listed.2.2.2.1, listed.2.2.2.2⟩
  · exact stemChar_of_lower low high

theorem Reserved.ne_nil {dev : Text} (reserved : Reserved dev) : dev ≠ [] := by
  rintro rfl
  exact absurd reserved (by decide)

/-- A reserved stem and the spaces after it are not changed. -/
theorem map_stem {dev gap : Text} (reserved : Reserved dev) (spaces : ∀ c ∈ gap, c = ' ') :
    (dev ++ gap ++ ['.']).map replaceForbidden = dev ++ gap ++ ['.'] := by
  apply (List.map_congr_left _).trans (List.map_id _)
  intro c mem
  simp only [List.mem_append, List.mem_singleton] at mem
  rcases mem with (stem | space) | rfl
  · exact (reserved.stemChar c stem).allowed
  · rw [spaces c space]
    decide
  · decide

/-! ## What is left of a name -/

/-- Where no underscore comes out, nothing was replaced. -/
theorem exists_of_map {s front rest : Text} (eq : s.map replaceForbidden = front ++ rest)
    (plain : ∀ c ∈ front, c ≠ '_') : ∃ rest', s = front ++ rest' := by
  obtain ⟨front', rest', rfl, front_eq, _⟩ := List.map_eq_append_iff.mp eq
  have same : front'.map replaceForbidden = front'.map id := by
    apply List.map_congr_left
    intro c mem
    have out : replaceForbidden c ≠ '_' := by
      apply plain
      rw [← front_eq]
      exact List.mem_map_of_mem mem
    unfold replaceForbidden at out ⊢
    split
    · rename_i forbidden
      rw [if_pos forbidden] at out
      exact absurd rfl out
    · rfl
  rw [List.map_id, front_eq] at same
  exact ⟨rest', by rw [same]⟩

theorem spaced_of_spacedDevice {name : Text} (device : SpacedDevice name) :
    Spaced (cleanedName name) := by
  obtain ⟨lead, dev, gap, rest, base, leads, reserved, ne, spaces, c, left, not_dot, not_space⟩ :=
    device
  obtain ⟨tail, rest_eq, tails⟩ := Text.exists_rdropWhile_append isWhitespace rest
  have kept : rest.rdropWhile isWhitespace ≠ [] := List.ne_nil_of_mem left
  have trimmed : Text.trim (visibleBase name) =
      dev ++ gap ++ ['.'] ++ rest.rdropWhile isWhitespace := by
    have shape : visibleBase name =
        lead ++ (dev ++ gap ++ ['.'] ++ rest.rdropWhile isWhitespace) ++ tail := by
      rw [base, List.append_assoc lead, List.append_assoc _ (rest.rdropWhile _), ← rest_eq]
    rw [shape]
    apply Text.trim_append leads tails
    · intro a first
      obtain ⟨d, more, rfl⟩ := List.exists_cons_of_ne_nil reserved.ne_nil
      cases first
      exact (reserved.stemChar a List.mem_cons_self).visible
    · intro a last
      rw [List.getLast?_append_of_ne_nil _ kept] at last
      exact Text.rdropWhile_last last
    · simp
  have cut_kept : (rest.rdropWhile isWhitespace).rdropWhile
      (fun c => decide (c = '.' ∨ c = ' ')) ≠ [] := by
    intro gone
    have all := List.rdropWhile_eq_nil_iff.mp gone c left
    simp [not_dot, not_space] at all
  refine ⟨dev, gap, ((rest.rdropWhile isWhitespace).rdropWhile
    (fun c => decide (c = '.' ∨ c = ' '))).map replaceForbidden, ?_, reserved, ne, spaces⟩
  rw [cleanedName_eq_map, trimmed, cutDots, Text.rdropWhile_append_of_ne_nil _ cut_kept,
    List.map_append, map_stem reserved spaces]

theorem spacedDevice_of_spaced {name : Text} (spaced : Spaced (cleanedName name)) :
    SpacedDevice name := by
  obtain ⟨dev, gap, rest, eq, reserved, ne, spaces⟩ := spaced
  have plain : ∀ c ∈ dev ++ gap ++ ['.'], c ≠ '_' := by
    intro c mem
    simp only [List.mem_append, List.mem_singleton] at mem
    rcases mem with (stem | space) | rfl
    · exact (reserved.stemChar c stem).no_underscore
    · rw [spaces c space]
      decide
    · decide
  rw [cleanedName_eq_map] at eq
  obtain ⟨kept, kept_eq⟩ := exists_of_map eq plain
  obtain ⟨lead, tail, base, leads, tails⟩ := Text.exists_trim (visibleBase name)
  obtain ⟨dots, trim_eq, _⟩ := exists_cutDots (Text.trim (visibleBase name))
  -- the last character that is kept stands after the dot
  have kept_ne : kept ≠ [] := by
    rintro rfl
    have last : (cutDots (Text.trim (visibleBase name))).getLast? = some '.' := by
      rw [kept_eq, List.append_nil, List.getLast?_concat]
    exact absurd (Text.rdropWhile_last last) (by decide)
  obtain ⟨front, c, kept_last⟩ := List.eq_nil_or_concat' kept |>.resolve_left kept_ne
  have stays : c ≠ '.' ∧ c ≠ ' ' := by
    have last : (cutDots (Text.trim (visibleBase name))).getLast? = some c := by
      rw [kept_eq, kept_last, ← List.append_assoc, List.getLast?_concat]
    simpa using Text.rdropWhile_last last
  have trimmed : Text.trim (visibleBase name) = dev ++ gap ++ ['.'] ++ (kept ++ dots) := by
    rw [trim_eq, kept_eq, List.append_assoc]
  have rest_kept : (kept ++ dots ++ tail).rdropWhile isWhitespace = kept ++ dots := by
    rw [Text.rdropWhile_append_of_pos _ tails, Text.rdropWhile_eq_self]
    intro a last
    apply Text.trim_last (s := visibleBase name)
    rw [trimmed, List.getLast?_append_of_ne_nil _ (by simp [kept_ne]), last]
  refine ⟨lead, dev, gap, kept ++ dots ++ tail, ?_, leads, reserved, ne, spaces, c, ?_, stays⟩
  · rw [← List.append_assoc _ (kept ++ dots), ← trimmed, ← List.append_assoc, ← base]
  · rw [rest_kept, kept_last]
    simp

/-- Which names are left with spaces between a reserved stem and its dot. -/
theorem spaced_cleanedName_iff (name : Text) : Spaced (cleanedName name) ↔ SpacedDevice name :=
  ⟨spacedDevice_of_spaced, spaced_of_spacedDevice⟩

/-! ## The sanitised name -/

section
variable {dev gap rest : Text} (reserved : Reserved dev) (spaces : ∀ c ∈ gap, c = ' ')
include reserved spaces

theorem firstPart_spaced : Text.firstPart '.' (dev ++ gap ++ ['.'] ++ rest) = dev ++ gap := by
  have no_dot : ∀ c ∈ dev ++ gap, decide (c ≠ '.') = true := by
    intro c mem
    rcases List.mem_append.mp mem with stem | space
    · simpa using (reserved.stemChar c stem).no_dot
    · rw [spaces c space]
      decide
  rw [List.append_assoc, Text.firstPart, List.takeWhile_append_of_pos no_dot]
  simp

theorem rdropWhile_spaced : (dev ++ gap).rdropWhile (fun c => decide (c = ' ')) = dev := by
  rw [Text.rdropWhile_append_of_pos _ (fun c mem => decide_eq_true (spaces c mem)),
    Text.rdropWhile_eq_self]
  intro c last
  simpa using (reserved.stemChar c (List.mem_of_getLast? last)).no_space

end

theorem not_reserved_spaced {dev gap : Text} (spaces : ∀ c ∈ gap, c = ' ') (ne : gap ≠ []) :
    ¬ Reserved (dev ++ gap) := by
  intro whole
  obtain ⟨c, more, rfl⟩ := List.exists_cons_of_ne_nil ne
  have mem : c ∈ dev ++ c :: more := List.mem_append_right dev List.mem_cons_self
  exact (whole.stemChar c mem).no_space (spaces c List.mem_cons_self)

/-- A name left with spaces after its stem is not marked, and is still reserved. -/
theorem finishName_spaced {s : Text} (spaced : Spaced s) :
    finishName s = s ∧ ¬ NoDevice (finishName s) := by
  obtain ⟨dev, gap, rest, rfl, reserved, ne, spaces⟩ := spaced
  have stem : Text.firstPart '.' (dev ++ gap ++ ['.'] ++ rest) = dev ++ gap :=
    firstPart_spaced reserved spaces
  have unmarked : isWindowsDeviceName (dev ++ gap) ≠ true := by
    rw [ne_eq, isWindowsDeviceName_iff]
    exact not_reserved_spaced spaces ne
  have has_space : ' ' ∈ dev ++ gap ++ ['.'] ++ rest := by
    obtain ⟨c, more, rfl⟩ := List.exists_cons_of_ne_nil ne
    rw [spaces c List.mem_cons_self]
    simp
  have finish : finishName (dev ++ gap ++ ['.'] ++ rest) = dev ++ gap ++ ['.'] ++ rest := by
    rw [finishName, if_neg, stem, if_neg unmarked]
    rintro (empty | one | two)
    · simp at empty
    · rw [one] at has_space
      exact absurd has_space (by decide)
    · rw [two] at has_space
      exact absurd has_space (by decide)
  refine ⟨finish, ?_⟩
  rw [finish, NoDevice, stem, rdropWhile_spaced reserved spaces]
  exact not_not.mpr reserved

theorem noDevice_underscore (s : Text) : NoDevice ('_' :: s) := by
  have stem : Text.firstPart '.' ('_' :: s) = '_' :: Text.firstPart '.' s := rfl
  intro reserved
  rw [stem] at reserved
  have kept : ∃ more, ('_' :: Text.firstPart '.' s).rdropWhile (fun c => decide (c = ' ')) =
      '_' :: more := by
    obtain ⟨tail, eq, spaces⟩ := Text.exists_rdropWhile_append (fun c => decide (c = ' '))
      ('_' :: Text.firstPart '.' s)
    cases left : ('_' :: Text.firstPart '.' s).rdropWhile (fun c => decide (c = ' ')) with
    | nil =>
      rw [left, List.nil_append] at eq
      exact absurd (spaces '_' (eq ▸ List.mem_cons_self)) (by decide)
    | cons c more =>
      rw [left] at eq
      exact ⟨more, by rw [(List.cons.inj eq).1]⟩
  obtain ⟨more, eq⟩ := kept
  rw [eq] at reserved
  exact (reserved.stemChar '_' List.mem_cons_self).no_underscore rfl

/-- A name with a reserved stem is marked. -/
theorem finishName_reserved {s : Text} (reserved : Reserved (Text.firstPart '.' s)) :
    finishName s = '_' :: s := by
  rw [finishName, if_neg, if_pos ((isWindowsDeviceName_iff _).mpr reserved)]
  rintro (empty | one | two)
  · rw [List.isEmpty_iff.mp empty] at reserved
    exact absurd reserved (by decide)
  · rw [one] at reserved
    exact absurd reserved (by decide)
  · rw [two] at reserved
    exact absurd reserved (by decide)

/-- A name that is not marked has spaces after its stem, if it is reserved. -/
theorem spaced_of_reserved {s : Text} (last : ∀ c, s.getLast? = some c → c ≠ '.' ∧ c ≠ ' ')
    (finish : finishName s = s) (reserved : ¬ NoDevice s) : Spaced s := by
  have reserved := not_not.mp reserved
  obtain ⟨gap, stem_eq, spaces⟩ := Text.exists_rdropWhile_append (fun c => decide (c = ' '))
    (Text.firstPart '.' s)
  have spaces : ∀ c ∈ gap, c = ' ' := fun c mem => of_decide_eq_true (spaces c mem)
  generalize (Text.firstPart '.' s).rdropWhile (fun c => decide (c = ' ')) = dev at reserved stem_eq
  have ne : gap ≠ [] := by
    rintro rfl
    rw [List.append_nil] at stem_eq
    have marked := finishName_reserved (s := s) (stem_eq ▸ reserved)
    rw [finish] at marked
    simp at marked
  have whole : s = dev ++ gap ++ s.dropWhile (fun c => decide (c ≠ '.')) := by
    rw [← stem_eq]
    exact List.takeWhile_append_dropWhile.symm
  have stops := List.head?_dropWhile_not (fun c => decide (c ≠ '.')) s
  cases tail : s.dropWhile (fun c => decide (c ≠ '.')) with
  | nil =>
    -- without a dot, the spaces would be at the end of the name
    rw [tail, List.append_nil] at whole
    obtain ⟨front, c, gap_eq⟩ := List.eq_nil_or_concat' gap |>.resolve_left ne
    have ends : s.getLast? = some c := by
      rw [whole, gap_eq, ← List.append_assoc, List.getLast?_concat]
    exact absurd (spaces c (by simp [gap_eq])) (last c ends).2
  | cons c rest =>
    rw [tail] at stops whole
    have dot : c = '.' := by simpa using stops
    subst dot
    exact ⟨dev, gap, rest, by rw [whole]; simp, reserved, ne, spaces⟩

/-- The stem of a sanitised name, trailing spaces ignored, is reserved exactly when
the name has spaces between a reserved stem and its dot. -/
theorem noDevice_iff (name : Text) : NoDevice (safeFileName name) ↔ ¬ SpacedDevice name := by
  rw [← spaced_cleanedName_iff]
  constructor
  · intro clear spaced
    exact (finishName_spaced spaced).2 (safeFileName_eq name ▸ clear)
  · intro unspaced
    rcases finishName_cases name with ⟨_, eq⟩ | ⟨_, eq⟩ | ⟨_, eq, finish⟩
    · rw [eq]
      decide +kernel
    · rw [eq]
      exact noDevice_underscore _
    · rw [eq]
      by_contra reserved
      exact unspaced (spaced_of_reserved (fun _ => cleanedName_last) finish reserved)

/-- A device name with a space before its extension is left as it is. -/
theorem device_survives :
    safeFileName "CON .txt".toList = "CON .txt".toList ∧
      ¬ ∀ name, NoDevice (safeFileName name) := by
  have same : safeFileName "CON .txt".toList = "CON .txt".toList := by decide +kernel
  refine ⟨same, fun clear => ?_⟩
  have reserved := clear "CON .txt".toList
  rw [same] at reserved
  exact absurd reserved (by decide +kernel)

end DeOptiTransfer
