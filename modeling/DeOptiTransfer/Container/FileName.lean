import DeOptiTransfer.Base.Text

/-!
# File names

`safe_file_name` of `container.rs`, taken apart into the characters it keeps
(`visibleBase`), the text it looks at (`cleanedName`) and the name it makes of
it (`finishName`).

* `cleanedName_valid`: what is left of a name holds only characters that pass
  again;
* `safeFileName_idempotent`: when a sanitised name is its own sanitised form.
-/

namespace DeOptiTransfer

def DEFAULT_NAME : Text := "transfer.bin".toList

def isControl (c : Char) : Bool :=
  let v := c.toNat
  v ≤ 0x1f ∨ v = 0x7f

def isBidiControl (c : Char) : Bool :=
  let v := c.toNat
  v = 0x061c ∨ v = 0x200e ∨ v = 0x200f ∨ (0x202a ≤ v ∧ v ≤ 0x202e) ∨ (0x2066 ≤ v ∧ v ≤ 0x2069)

/-- The characters of a stem are compared as bytes, as the source does. -/
def isWindowsDeviceName (stem : Text) : Bool :=
  let upper := Text.toAsciiUppercase stem
  let bytes := utf8Encode upper
  (upper = "CON".toList ∨ upper = "PRN".toList ∨ upper = "AUX".toList ∨ upper = "NUL".toList) ∨
    (bytes.length = 4 ∧ ("COM".toList.isPrefixOf upper ∨ "LPT".toList.isPrefixOf upper) ∧
      0x31 ≤ (bytes.getD 3 0).toNat ∧ (bytes.getD 3 0).toNat ≤ 0x39)

def safeFileName (name : Text) : Text :=
  let base := Text.lastPart (fun c => c = '/' ∨ c = '\x5c') name
  let kept := base.filter fun c => !isControl c && !isBidiControl c
  let mapped := kept.map fun c =>
    if c = '<' ∨ c = '>' ∨ c = ':' ∨ c = '\x22' ∨ c = '|' ∨ c = '?' ∨ c = '*' then '_' else c
  let cleaned := (Text.trim mapped).rdropWhile fun c => c = '.' ∨ c = ' '
  if cleaned.isEmpty ∨ cleaned = ".".toList ∨ cleaned = "..".toList then DEFAULT_NAME
  else
    let stem := Text.firstPart '.' cleaned
    if isWindowsDeviceName stem then '_' :: cleaned else cleaned

example : safeFileName "../a<b>.txt. ".toList = "a_b_.txt".toList := by decide

example : safeFileName "com1.log".toList = "_com1.log".toList := by decide

/-! ## The parts of the function -/

/-- The characters of the last path component that are kept. -/
def visibleBase (name : Text) : Text :=
  (Text.lastPart (fun c => c = '/' ∨ c = '\x5c') name).filter
    fun c => !isControl c && !isBidiControl c

def replaceForbidden (c : Char) : Char :=
  if c = '<' ∨ c = '>' ∨ c = ':' ∨ c = '\x22' ∨ c = '|' ∨ c = '?' ∨ c = '*' then '_' else c

/-- `.trim_end_matches(['.', ' '])` -/
def cutDots (s : Text) : Text := s.rdropWhile fun c => c = '.' ∨ c = ' '

def cleanedName (name : Text) : Text :=
  cutDots (Text.trim ((visibleBase name).map replaceForbidden))

def finishName (cleaned : Text) : Text :=
  if cleaned.isEmpty ∨ cleaned = ".".toList ∨ cleaned = "..".toList then DEFAULT_NAME
  else if isWindowsDeviceName (Text.firstPart '.' cleaned) then '_' :: cleaned else cleaned

theorem safeFileName_eq (name : Text) : safeFileName name = finishName (cleanedName name) := rfl

/-- The characters that the function leaves as they are. -/
structure ValidChar (c : Char) : Prop where
  no_separator : c ≠ '/' ∧ c ≠ '\x5c'
  visible : isControl c = false ∧ isBidiControl c = false
  allowed : replaceForbidden c = c

theorem replaceForbidden_valid {c : Char} (no_separator : c ≠ '/' ∧ c ≠ '\x5c')
    (visible : isControl c = false ∧ isBidiControl c = false) : ValidChar (replaceForbidden c) := by
  unfold replaceForbidden
  split
  · exact ⟨by decide, by decide, by decide⟩
  · rename_i allowed
    exact ⟨no_separator, visible, if_neg allowed⟩

theorem isWhitespace_replaceForbidden (c : Char) :
    isWhitespace (replaceForbidden c) = isWhitespace c := by
  unfold replaceForbidden
  split
  · rename_i forbidden
    rcases forbidden with rfl | rfl | rfl | rfl | rfl | rfl | rfl <;> rfl
  · rfl

theorem dot_replaceForbidden (c : Char) :
    (decide (replaceForbidden c = '.' ∨ replaceForbidden c = ' ')) = decide (c = '.' ∨ c = ' ') := by
  unfold replaceForbidden
  split
  · rename_i forbidden
    rcases forbidden with rfl | rfl | rfl | rfl | rfl | rfl | rfl <;> rfl
  · rfl

/-- Replacing characters can be left to the end. -/
theorem cleanedName_eq_map (name : Text) :
    cleanedName name = (cutDots (Text.trim (visibleBase name))).map replaceForbidden := by
  rw [cleanedName, Text.trim_map isWhitespace_replaceForbidden]
  exact Text.rdropWhile_map dot_replaceForbidden _

theorem cutDots_le (s : Text) : cutDots s <+: s := List.rdropWhile_prefix _ _

theorem trim_subset (s : Text) : Text.trim s ⊆ s := by
  intro c mem
  obtain ⟨lead, tail, eq, _⟩ := Text.exists_trim s
  rw [eq]
  exact List.mem_append_left tail (List.mem_append_right lead mem)

/-- What is left of a name passes again, character by character. -/
theorem cleanedName_valid (name : Text) : ∀ c ∈ cleanedName name, ValidChar c := by
  intro c mem
  rw [cleanedName_eq_map] at mem
  obtain ⟨a, left, rfl⟩ := List.mem_map.mp mem
  have kept : a ∈ visibleBase name := trim_subset _ ((cutDots_le _).subset left)
  obtain ⟨base, visible⟩ := List.mem_filter.mp kept
  have part := List.mem_rtakeWhile_imp base
  apply replaceForbidden_valid
  · simpa using part
  · simpa using visible

theorem cleanedName_head {name : Text} {c : Char} (head : (cleanedName name).head? = some c) :
    isWhitespace c = false := by
  obtain ⟨tail, eq⟩ := cutDots_le (Text.trim ((visibleBase name).map replaceForbidden))
  apply Text.trim_head
  rw [← eq, List.head?_append]
  exact (congrArg (Option.or · _) head).trans (Option.some_or)

theorem cleanedName_last {name : Text} {c : Char} (last : (cleanedName name).getLast? = some c) :
    c ≠ '.' ∧ c ≠ ' ' := by
  have stops := Text.rdropWhile_last last
  simpa using stops

/-- On a text of valid characters only the trimming is left to do. -/
theorem cleanedName_of_valid {v : Text} (valid : ∀ c ∈ v, ValidChar c) :
    cleanedName v = cutDots (Text.trim v) := by
  have base : visibleBase v = v := by
    unfold visibleBase Text.lastPart
    rw [List.rtakeWhile_eq_self_iff.mpr, List.filter_eq_self.mpr]
    · intro c mem
      simp [(valid c mem).visible]
    · intro c mem
      simp [(valid c mem).no_separator]
  have replaced : v.map replaceForbidden = v :=
    (List.map_congr_left fun c mem => (valid c mem).allowed).trans (List.map_id v)
  rw [cleanedName, base, replaced]

/-! ## Sanitising again -/

/-- The last path component, without the characters that are dropped, ends in
dots that hide white space behind them: white space other than a space, then
dots and spaces up to a dot, then any white space. -/
def HidesWhitespace (name : Text) : Prop :=
  ∃ front w dots tail, visibleBase name = front ++ [w] ++ dots ++ tail ∧
    (∃ c ∈ front, isWhitespace c = false) ∧ isWhitespace w = true ∧ w ≠ ' ' ∧
    (∀ c ∈ dots, c = '.' ∨ c = ' ') ∧ dots.getLast? = some '.' ∧
    ∀ c ∈ tail, isWhitespace c = true

theorem isWhitespace_space : isWhitespace ' ' = true := by decide

theorem isWhitespace_dot : isWhitespace '.' = false := by decide

/-- The characters before hidden white space start with one that stays. -/
theorem exists_first_visible {front : Text} (some_visible : ∃ c ∈ front, isWhitespace c = false) :
    ∃ lead c rest, front = lead ++ c :: rest ∧ (∀ a ∈ lead, isWhitespace a = true) ∧
      isWhitespace c = false := by
  obtain ⟨c, mem, visible⟩ := some_visible
  have split := List.takeWhile_append_dropWhile (p := isWhitespace) (l := front)
  have stops := List.head?_dropWhile_not isWhitespace front
  cases rest : front.dropWhile isWhitespace with
  | nil =>
    have all := List.dropWhile_eq_nil_iff.mp rest c mem
    rw [visible] at all
    cases all
  | cons a rest' =>
    rw [rest] at split stops
    exact ⟨_, a, rest', split.symm, fun _ => List.mem_takeWhile_imp, by simpa using stops⟩

/-- What is cut off the end of a text. -/
theorem exists_cutDots (s : Text) :
    ∃ dots, s = cutDots s ++ dots ∧ ∀ c ∈ dots, c = '.' ∨ c = ' ' := by
  obtain ⟨dots, eq, cut⟩ := Text.exists_rdropWhile_append (fun c => decide (c = '.' ∨ c = ' ')) s
  exact ⟨dots, eq, fun c mem => of_decide_eq_true (cut c mem)⟩

/-- A trimmed text does not start with white space. -/
theorem exists_visible_before {s front rest : Text} {w : Char}
    (trimmed : Text.trim s = front ++ w :: rest) (white : isWhitespace w = true) :
    ∃ c ∈ front, isWhitespace c = false := by
  have starts := fun c => @Text.trim_head s c
  rw [trimmed] at starts
  cases front with
  | nil =>
    have visible := starts w rfl
    rw [white] at visible
    cases visible
  | cons c front => exact ⟨c, List.mem_cons_self, starts c rfl⟩

/-- If white space comes before the dots and spaces at the end of a trimmed text,
the last of them is a dot. -/
theorem trimmed_ends_in_dot {s front dots : Text} {w : Char}
    (trimmed : Text.trim s = front ++ [w] ++ dots) (white : isWhitespace w = true)
    (cut : ∀ c ∈ dots, c = '.' ∨ c = ' ') : dots.getLast? = some '.' := by
  have ends := fun c => @Text.trim_last s c
  rw [trimmed, List.getLast?_append] at ends
  cases last : dots.getLast? with
  | none =>
    have visible := ends w (by rw [last, Option.none_or, List.getLast?_concat])
    rw [white] at visible
    cases visible
  | some c =>
    have visible := ends c (by rw [last, Option.some_or])
    rcases cut c (List.mem_of_getLast? last) with rfl | rfl
    · rfl
    · rw [isWhitespace_space] at visible
      cases visible

theorem hidesWhitespace_of_ends {name : Text} {w : Char}
    (last : (cutDots (Text.trim (visibleBase name))).getLast? = some w)
    (white : isWhitespace w = true) : HidesWhitespace name := by
  obtain ⟨lead, tail, base_eq, _, tails⟩ := Text.exists_trim (visibleBase name)
  obtain ⟨dots, trim_eq, cut⟩ := exists_cutDots (Text.trim (visibleBase name))
  obtain ⟨front, kept_eq⟩ := List.getLast?_eq_some_iff.mp last
  rw [kept_eq] at trim_eq
  have not_space : w ≠ ' ' := by
    have stops := Text.rdropWhile_last last
    simp only [decide_eq_false_iff_not, not_or] at stops
    exact stops.2
  obtain ⟨c, mem, visible⟩ := exists_visible_before
    (trim_eq.trans (List.append_assoc front [w] dots)) white
  refine ⟨lead ++ front, w, dots, tail, ?_, ⟨c, List.mem_append_right lead mem, visible⟩, white,
    not_space, cut, trimmed_ends_in_dot trim_eq white cut, tails⟩
  rw [base_eq, trim_eq]
  simp only [List.append_assoc]

theorem ends_of_hidesWhitespace {name : Text} (hides : HidesWhitespace name) :
    ∃ w, (cutDots (Text.trim (visibleBase name))).getLast? = some w ∧ isWhitespace w = true := by
  obtain ⟨front, w, dots, tail, base_eq, some_visible, white, not_space, cut, last_dot, tails⟩ :=
    hides
  obtain ⟨lead, c, rest, rfl, leads, visible⟩ := exists_first_visible some_visible
  have trim_eq : Text.trim (visibleBase name) = c :: rest ++ [w] ++ dots := by
    have shape : visibleBase name = lead ++ (c :: rest ++ [w] ++ dots) ++ tail := by
      rw [base_eq]
      simp only [List.append_assoc]
    rw [shape]
    apply Text.trim_append leads tails
    · intro a head
      cases head
      exact visible
    · intro a last
      rw [List.getLast?_append, last_dot, Option.some_or, Option.some.injEq] at last
      rw [← last]
      exact isWhitespace_dot
    · simp
  have not_dot : w ≠ '.' := by
    rintro rfl
    rw [isWhitespace_dot] at white
    cases white
  refine ⟨w, ?_, white⟩
  have ends : (c :: rest ++ [w]).getLast? = some w := List.getLast?_concat
  rw [trim_eq, cutDots, Text.rdropWhile_append_of_pos _ (fun a ha => decide_eq_true (cut a ha)),
    Text.rdropWhile_eq_self, ends]
  intro a last
  rw [ends, Option.some.injEq] at last
  rw [← last]
  simp [not_dot, not_space]

/-- What is left of a name ends in white space exactly when the name hides some. -/
theorem cleanedName_last_iff (name : Text) :
    (∃ w, (cleanedName name).getLast? = some w ∧ isWhitespace w = true) ↔ HidesWhitespace name := by
  simp only [cleanedName_eq_map, List.getLast?_map, Option.map_eq_some_iff]
  constructor
  · rintro ⟨_, ⟨w, last, rfl⟩, white⟩
    exact hidesWhitespace_of_ends last (isWhitespace_replaceForbidden w ▸ white)
  · intro hides
    obtain ⟨w, last, white⟩ := ends_of_hidesWhitespace hides
    exact ⟨_, ⟨w, last, rfl⟩, (isWhitespace_replaceForbidden w).trans white⟩

/-- A text of valid characters is left alone if neither end needs trimming. -/
theorem cleanedName_self {v : Text} (valid : ∀ c ∈ v, ValidChar c)
    (head : ∀ c, v.head? = some c → isWhitespace c = false)
    (last : ∀ c, v.getLast? = some c → isWhitespace c = false ∧ c ≠ '.' ∧ c ≠ ' ') :
    cleanedName v = v := by
  rw [cleanedName_of_valid valid, Text.trim_eq_self head (fun c ends => (last c ends).1)]
  apply Text.rdropWhile_eq_self
  intro c ends
  simpa using (last c ends).2

/-- A text of valid characters that ends in white space gets shorter. -/
theorem cleanedName_shorter {v : Text} (valid : ∀ c ∈ v, ValidChar c)
    (head : ∀ c, v.head? = some c → isWhitespace c = false) {w : Char}
    (last : v.getLast? = some w) (white : isWhitespace w = true) :
    cleanedName v <+: v ∧ (cleanedName v).length < v.length := by
  have nonempty : v ≠ [] := by
    rintro rfl
    cases last
  have kept : v.dropWhile isWhitespace = v := by
    obtain ⟨c, rest, rfl⟩ := List.exists_cons_of_ne_nil nonempty
    exact List.dropWhile_cons_of_neg (by simp [head c rfl])
  have trimmed : Text.trim v = v.rdropWhile isWhitespace := by rw [Text.trim, kept]
  have pre : Text.trim v <+: v := by
    rw [trimmed]
    exact List.rdropWhile_prefix _ _
  have shorter : (Text.trim v).length < v.length := by
    apply Nat.lt_of_le_of_ne pre.length_le
    intro same
    have whole := pre.eq_of_length same
    have stops := Text.trim_last (s := v) (c := w) (by rw [whole, last])
    rw [white] at stops
    cases stops
  rw [cleanedName_of_valid valid]
  exact ⟨(cutDots_le _).trans pre, Nat.lt_of_le_of_lt (cutDots_le _).length_le shorter⟩

theorem isWindowsDeviceName_underscore (rest : Text) :
    isWindowsDeviceName ('_' :: rest) = false := by
  have upper : Text.toAsciiUppercase ('_' :: rest) = '_' :: Text.toAsciiUppercase rest := rfl
  have con : "CON".toList = ['C', 'O', 'N'] := by decide
  have prn : "PRN".toList = ['P', 'R', 'N'] := by decide
  have aux : "AUX".toList = ['A', 'U', 'X'] := by decide
  have nul : "NUL".toList = ['N', 'U', 'L'] := by decide
  have com : "COM".toList = ['C', 'O', 'M'] := by decide
  have lpt : "LPT".toList = ['L', 'P', 'T'] := by decide
  simp only [isWindowsDeviceName, upper, con, prn, aux, nul, com, lpt, List.cons.injEq,
    List.isPrefixOf]
  simp

theorem finishName_underscore (rest : Text) : finishName ('_' :: rest) = '_' :: rest := by
  have dot : ".".toList = ['.'] := by decide
  have dots : "..".toList = ['.', '.'] := by decide
  have stem : Text.firstPart '.' ('_' :: rest) = '_' :: Text.firstPart '.' rest := rfl
  simp [finishName, dot, dots, stem, isWindowsDeviceName_underscore]

/-- A text that starts with an underscore is not changed by more than trimming. -/
theorem safeFileName_underscore {v : Text} {rest : Text} (eq : cleanedName v = '_' :: rest) :
    safeFileName v = '_' :: rest := by
  rw [safeFileName_eq, eq, finishName_underscore]

/-- What `finishName` makes of a text that is left of a name. -/
theorem finishName_cases (name : Text) :
    (cleanedName name = [] ∧ safeFileName name = DEFAULT_NAME) ∨
      (cleanedName name ≠ [] ∧ safeFileName name = '_' :: cleanedName name) ∨
      (cleanedName name ≠ [] ∧ safeFileName name = cleanedName name ∧
        finishName (cleanedName name) = cleanedName name) := by
  have dot : ".".toList = ['.'] := by decide
  have dots : "..".toList = ['.', '.'] := by decide
  by_cases empty : cleanedName name = []
  · refine Or.inl ⟨empty, ?_⟩
    rw [safeFileName_eq, empty]
    rfl
  · have no_dots : ¬ ((cleanedName name).isEmpty = true ∨ cleanedName name = ".".toList ∨
        cleanedName name = "..".toList) := by
      rintro (none_left | one | two)
      · exact empty (List.isEmpty_iff.mp none_left)
      · exact (cleanedName_last (c := '.') (by rw [one, dot]; rfl)).1 rfl
      · exact (cleanedName_last (c := '.') (by rw [two, dots]; rfl)).1 rfl
    have finish : finishName (cleanedName name) =
        if isWindowsDeviceName (Text.firstPart '.' (cleanedName name)) then '_' :: cleanedName name
        else cleanedName name := if_neg no_dots
    by_cases device : isWindowsDeviceName (Text.firstPart '.' (cleanedName name))
    · rw [if_pos device] at finish
      exact Or.inr (Or.inl ⟨empty, finish⟩)
    · rw [if_neg device] at finish
      exact Or.inr (Or.inr ⟨empty, finish, finish⟩)

/-- A name that ends in white space is changed. -/
theorem safeFileName_ne {v : Text} (valid : ∀ c ∈ v, ValidChar c)
    (head : ∀ c, v.head? = some c → isWhitespace c = false) {w : Char}
    (last : v.getLast? = some w) (white : isWhitespace w = true) : safeFileName v ≠ v := by
  obtain ⟨pre, shorter⟩ := cleanedName_shorter valid head last white
  intro same
  rcases finishName_cases v with ⟨_, eq⟩ | ⟨nonempty, eq⟩ | ⟨_, eq, _⟩
  · have default_last : DEFAULT_NAME.getLast? = some 'n' := by decide
    rw [← same, eq, default_last, Option.some.injEq] at last
    rw [← last] at white
    exact absurd white (by decide)
  · -- the rest would start with the same underscore, and then it is not put before it
    obtain ⟨c, rest, cleaned_eq⟩ := List.exists_cons_of_ne_nil nonempty
    rw [eq] at same
    have first : c = '_' := by
      obtain ⟨tail, pre_eq⟩ := pre
      rw [cleaned_eq] at pre_eq
      exact (List.cons.inj (pre_eq.trans same.symm)).1
    rw [first] at cleaned_eq
    rw [safeFileName_underscore cleaned_eq, ← cleaned_eq] at eq
    have := congrArg List.length eq
    simp at this
  · rw [eq] at same
    rw [same] at shorter
    exact Nat.lt_irrefl _ shorter

/-- Sanitising a name again, when its text is kept as it is in the result. -/
theorem safeFileName_again {name v : Text} (valid : ∀ c ∈ v, ValidChar c)
    (head : ∀ c, v.head? = some c → isWhitespace c = false)
    (last : v.getLast? = (cleanedName name).getLast?) (finish : finishName v = v) :
    safeFileName v = v ↔
      ¬ ∃ w, (cleanedName name).getLast? = some w ∧ isWhitespace w = true := by
  constructor
  · rintro same ⟨w, ends, white⟩
    exact safeFileName_ne valid head (last.trans ends) white same
  · intro none_hidden
    have ends : ∀ c, v.getLast? = some c → isWhitespace c = false ∧ c ≠ '.' ∧ c ≠ ' ' := by
      intro c eq
      rw [last] at eq
      refine ⟨?_, cleanedName_last eq⟩
      by_contra white
      exact none_hidden ⟨c, eq, by simpa using white⟩
    rw [safeFileName_eq, cleanedName_self valid head ends, finish]

/-- A sanitised name is its own sanitised form exactly when the name does not
hide white space behind dots. -/
theorem safeFileName_idempotent (name : Text) :
    safeFileName (safeFileName name) = safeFileName name ↔ ¬ HidesWhitespace name := by
  rw [← cleanedName_last_iff]
  have valid := cleanedName_valid name
  rcases finishName_cases name with ⟨empty, eq⟩ | ⟨nonempty, eq⟩ | ⟨nonempty, eq, finish⟩
  · rw [eq, empty]
    refine iff_of_true (by decide +kernel) ?_
    rintro ⟨w, last, _⟩
    cases last
  · rw [eq]
    apply safeFileName_again
    · intro c mem
      rcases List.mem_cons.mp mem with rfl | mem
      · exact ⟨by decide, by decide, by decide⟩
      · exact valid c mem
    · intro c head
      cases head
      decide
    · obtain ⟨c, rest, cleaned_eq⟩ := List.exists_cons_of_ne_nil nonempty
      rw [cleaned_eq, List.getLast?_cons_cons]
    · exact finishName_underscore _
  · rw [eq]
    exact safeFileName_again valid (fun _ => cleanedName_head) rfl finish

end DeOptiTransfer
