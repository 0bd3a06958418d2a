import DeOptiTransfer.Base.Utf8
import Mathlib.Data.List.DropRight
import Mathlib.Data.List.TakeWhile

/-!
# Texts

The operations on a text that a name or a media type is checked with. A text is
a list of characters, and white space is the Unicode property.
-/

namespace DeOptiTransfer

abbrev Text := List Char

/-- `char::is_whitespace` -/
def isWhitespace (c : Char) : Bool :=
  let v := c.toNat
  (0x09 ≤ v ∧ v ≤ 0x0d) ∨ v = 0x20 ∨ v = 0x85 ∨ v = 0xa0 ∨ v = 0x1680 ∨
    (0x2000 ≤ v ∧ v ≤ 0x200a) ∨ v = 0x2028 ∨ v = 0x2029 ∨ v = 0x202f ∨ v = 0x205f ∨ v = 0x3000

namespace Text

/-- `s.trim()` -/
def trim (s : Text) : Text := (s.dropWhile isWhitespace).rdropWhile isWhitespace

/-- `s.split(sep).next()`, which is never `None` -/
def firstPart (sep : Char) (s : Text) : Text := s.takeWhile (· ≠ sep)

/-- `s.split_once(sep)` -/
def splitOnce (sep : Char) (s : Text) : Option (Text × Text) :=
  match s.dropWhile (· ≠ sep) with
  | [] => none
  | _ :: after => some (s.takeWhile (· ≠ sep), after)

/-- `s.rsplit(seps).next()`, which is never `None` -/
def lastPart (isSep : Char → Bool) (s : Text) : Text := s.rtakeWhile fun c => !isSep c

/-- `s.strip_prefix(pre)` -/
def stripPrefix (pre s : Text) : Option Text :=
  if pre.isPrefixOf s then some (s.drop pre.length) else none

/-- `s.to_ascii_lowercase()` -/
def toAsciiLowercase (s : Text) : Text := s.map Char.toLower

/-- `s.to_ascii_uppercase()` -/
def toAsciiUppercase (s : Text) : Text := s.map Char.toUpper

/-! ## Trimming -/

theorem rdropWhile_map {p : Char → Bool} {f : Char → Char} (same : ∀ c, p (f c) = p c) (s : Text) :
    (s.map f).rdropWhile p = (s.rdropWhile p).map f := by
  have comp : p ∘ f = p := funext same
  rw [List.rdropWhile, ← List.map_reverse, List.dropWhile_map, comp, ← List.map_reverse]
  rfl

theorem rdropWhile_append_of_pos {p : Char → Bool} (s : Text) {tail : Text}
    (all : ∀ c ∈ tail, p c = true) : (s ++ tail).rdropWhile p = s.rdropWhile p := by
  rw [List.rdropWhile, List.reverse_append, List.dropWhile_append_of_pos]
  · rfl
  · intro c mem
    exact all c (List.mem_reverse.mp mem)

theorem rdropWhile_eq_self {p : Char → Bool} {s : Text}
    (last : ∀ c, s.getLast? = some c → p c = false) : s.rdropWhile p = s := by
  apply List.rdropWhile_eq_self_iff.mpr
  intro nonempty holds
  have stops := last _ (List.getLast?_eq_some_getLast nonempty)
  rw [holds] at stops
  cases stops

theorem rdropWhile_last {p : Char → Bool} {s : Text} {c : Char}
    (last : (s.rdropWhile p).getLast? = some c) : p c = false := by
  have nonempty : s.rdropWhile p ≠ [] := by
    intro empty
    rw [empty] at last
    cases last
  rw [List.getLast?_eq_some_getLast nonempty, Option.some.injEq] at last
  rw [← last]
  simpa using List.rdropWhile_last_not p s nonempty

/-- What is kept of the end of a text protects what is before it. -/
theorem rdropWhile_append_of_ne_nil {p : Char → Bool} (s : Text) {t : Text}
    (kept : t.rdropWhile p ≠ []) : (s ++ t).rdropWhile p = s ++ t.rdropWhile p := by
  have split : s ++ t = s ++ t.rdropWhile p ++ t.rtakeWhile p := by
    rw [List.append_assoc, List.rdropWhile_append_rtakeWhile]
  have stops : ∀ c, (s ++ t.rdropWhile p).getLast? = some c → p c = false := by
    intro c last
    rw [List.getLast?_append_of_ne_nil _ kept] at last
    exact rdropWhile_last last
  rw [split, rdropWhile_append_of_pos _ fun _ => List.mem_rtakeWhile_imp, rdropWhile_eq_self stops]

/-- A text is what `rdropWhile` leaves of it and a tail it has dropped. -/
theorem exists_rdropWhile_append (p : Char → Bool) (s : Text) :
    ∃ tail, s = s.rdropWhile p ++ tail ∧ ∀ c ∈ tail, p c = true :=
  ⟨s.rtakeWhile p, List.rdropWhile_append_rtakeWhile.symm, fun _ => List.mem_rtakeWhile_imp⟩

theorem trim_map {f : Char → Char} (same : ∀ c, isWhitespace (f c) = isWhitespace c) (s : Text) :
    trim (s.map f) = (trim s).map f := by
  have comp : isWhitespace ∘ f = isWhitespace := funext same
  rw [trim, List.dropWhile_map, comp, rdropWhile_map same, trim]

theorem trim_last {s : Text} {c : Char} (last : (trim s).getLast? = some c) :
    isWhitespace c = false := rdropWhile_last last

theorem trim_head {s : Text} {c : Char} (head : (trim s).head? = some c) :
    isWhitespace c = false := by
  obtain ⟨tail, eq⟩ : trim s <+: s.dropWhile isWhitespace := List.rdropWhile_prefix _ _
  have first : (s.dropWhile isWhitespace).head? = some c := by
    rw [← eq, List.head?_append, head, Option.some_or]
  have stops := List.head?_dropWhile_not isWhitespace s
  rw [first] at stops
  simpa using stops

/-- A text is its trimmed form between white space. -/
theorem exists_trim (s : Text) :
    ∃ lead tail, s = lead ++ trim s ++ tail ∧ (∀ c ∈ lead, isWhitespace c = true) ∧
      ∀ c ∈ tail, isWhitespace c = true := by
  obtain ⟨tail, eq, dropped⟩ := exists_rdropWhile_append isWhitespace (s.dropWhile isWhitespace)
  refine ⟨s.takeWhile isWhitespace, tail, ?_, fun _ => List.mem_takeWhile_imp, dropped⟩
  rw [trim, List.append_assoc, ← eq, List.takeWhile_append_dropWhile]

/-- White space around a text that neither starts nor ends with it is trimmed. -/
theorem trim_append {lead s tail : Text} (leads : ∀ c ∈ lead, isWhitespace c = true)
    (tails : ∀ c ∈ tail, isWhitespace c = true)
    (head : ∀ c, s.head? = some c → isWhitespace c = false)
    (last : ∀ c, s.getLast? = some c → isWhitespace c = false) (nonempty : s ≠ []) :
    trim (lead ++ s ++ tail) = s := by
  have kept : (s ++ tail).dropWhile isWhitespace = s ++ tail := by
    obtain ⟨c, rest, rfl⟩ := List.exists_cons_of_ne_nil nonempty
    exact List.dropWhile_cons_of_neg (by simp [head c rfl])
  rw [trim, List.append_assoc, List.dropWhile_append_of_pos leads, kept,
    rdropWhile_append_of_pos s tails, rdropWhile_eq_self last]

/-- A text that neither starts nor ends with white space is left alone. -/
theorem trim_eq_self {s : Text} (head : ∀ c, s.head? = some c → isWhitespace c = false)
    (last : ∀ c, s.getLast? = some c → isWhitespace c = false) : trim s = s := by
  by_cases empty : s = []
  · rw [empty]
    rfl
  · have around : trim (([] : Text) ++ s ++ ([] : Text)) = s := by
      apply trim_append _ _ head last empty <;> simp
    rwa [List.nil_append, List.append_nil] at around

/-- Trimming twice trims once. -/
theorem trim_trim (s : Text) : trim (trim s) = trim s :=
  trim_eq_self (fun _ => trim_head) (fun _ => trim_last)

/-- White space around a text is trimmed. -/
theorem trim_around {lead tail : Text} (leads : ∀ c ∈ lead, isWhitespace c = true)
    (tails : ∀ c ∈ tail, isWhitespace c = true) (s : Text) :
    trim (lead ++ s ++ tail) = trim s := by
  rw [trim, trim, List.append_assoc, List.dropWhile_append_of_pos leads, List.dropWhile_append]
  split
  · rename_i empty
    rw [List.isEmpty_iff.mp empty, List.dropWhile_eq_nil_iff.mpr tails]
  · exact rdropWhile_append_of_pos _ tails

/-- The first part of a text is the one of the trimmed text, between white space. -/
theorem trim_firstPart_trim {sep : Char} (visible : isWhitespace sep = false) (s : Text) :
    trim (firstPart sep (trim s)) = trim (firstPart sep s) := by
  have passes : ∀ {w : Text}, (∀ c ∈ w, isWhitespace c = true) → ∀ c ∈ w, decide (c ≠ sep) = true := by
    intro w white c mem
    have := white c mem
    apply decide_eq_true
    rintro rfl
    rw [visible] at this
    cases this
  obtain ⟨lead, tail, eq, leads, tails⟩ := exists_trim s
  have split : firstPart sep s = lead ++ (trim s ++ tail).takeWhile (· ≠ sep) := by
    conv =>
      lhs
      rw [eq, firstPart, List.append_assoc]
    exact List.takeWhile_append_of_pos (passes leads)
  rw [split, List.takeWhile_append]
  split_ifs
  · rename_i whole
    have kept : firstPart sep (trim s) = trim s := (List.takeWhile_prefix _).eq_of_length whole
    have rest : tail.takeWhile (· ≠ sep) = tail :=
      List.takeWhile_eq_self_iff.mpr (passes tails)
    rw [rest, kept, ← List.append_assoc, trim_around leads tails]
  · have around : trim (lead ++ firstPart sep (trim s) ++ []) = trim (firstPart sep (trim s)) :=
      trim_around leads (by simp) _
    rw [List.append_nil] at around
    exact around.symm

end Text

end DeOptiTransfer
