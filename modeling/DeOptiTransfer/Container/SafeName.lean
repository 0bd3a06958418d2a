import DeOptiTransfer.Container.FileName
import DeOptiTransfer.Container.Unpack

/-!
# Received names on disk

What a sanitised name is safe from, stage by stage of `safe_file_name`.

* `ValidChar.safe`: the characters the function leaves alone;
* `SafeName.underscore`: putting an underscore in front keeps a safe name safe;
* `received_names_are_safe`: every sanitised name, and so the name of every
  unpacked file.
-/

namespace DeOptiTransfer

/-- The characters a name must not have to be safe on disk. -/
structure SafeChar (c : Char) : Prop where
  no_separator : c ≠ '/' ∧ c ≠ '\x5c'
  no_control : 0x1f < c.toNat ∧ c.toNat ≠ 0x7f
  no_mark : c.toNat ≠ 0x061c ∧ c.toNat ≠ 0x200e ∧ c.toNat ≠ 0x200f
  no_embedding : ¬ (0x202a ≤ c.toNat ∧ c.toNat ≤ 0x202e)
  no_isolate : ¬ (0x2066 ≤ c.toNat ∧ c.toNat ≤ 0x2069)
  no_forbidden : c ≠ '<' ∧ c ≠ '>' ∧ c ≠ ':' ∧ c ≠ '\x22' ∧ c ≠ '|' ∧ c ≠ '?' ∧ c ≠ '*'

/-- A file name that names a file in the directory it is used in. -/
structure SafeName (s : Text) : Prop where
  nonempty : s ≠ []
  no_dot : s ≠ ".".toList
  no_dots : s ≠ "..".toList
  chars : ∀ c ∈ s, SafeChar c
  head : ∀ c, s.head? = some c → isWhitespace c = false
  last : ∀ c, s.getLast? = some c → c ≠ '.' ∧ c ≠ ' '

theorem ValidChar.safe {c : Char} (valid : ValidChar c) : SafeChar c := by
  obtain ⟨control, bidi⟩ := valid.visible
  simp only [isControl, Bool.decide_or, Bool.or_eq_false_iff, decide_eq_false_iff_not] at control
  simp only [isBidiControl, decide_eq_false_iff_not, not_or] at bidi
  have allowed : c ≠ '<' ∧ c ≠ '>' ∧ c ≠ ':' ∧ c ≠ '\x22' ∧ c ≠ '|' ∧ c ≠ '?' ∧ c ≠ '*' := by
    refine ⟨?_, ?_, ?_, ?_, ?_, ?_, ?_⟩ <;> rintro rfl <;> exact absurd valid.allowed (by decide)
  exact ⟨valid.no_separator, ⟨by omega, control.2⟩, ⟨bidi.1, bidi.2.1, bidi.2.2.1⟩, bidi.2.2.2.1,
    bidi.2.2.2.2, allowed⟩

/-- A text that does not end in a dot is neither of the two directory names. -/
theorem safeName_of_last {s : Text} (nonempty : s ≠ []) (chars : ∀ c ∈ s, SafeChar c)
    (head : ∀ c, s.head? = some c → isWhitespace c = false)
    (last : ∀ c, s.getLast? = some c → c ≠ '.' ∧ c ≠ ' ') : SafeName s := by
  have dot : ".".toList.getLast? = some '.' := by decide
  have dots : "..".toList.getLast? = some '.' := by decide
  constructor
  · exact nonempty
  · rintro rfl
    exact (last '.' dot).1 rfl
  · rintro rfl
    exact (last '.' dots).1 rfl
  · exact chars
  · exact head
  · exact last

theorem safeName_cleaned {name : Text} (nonempty : cleanedName name ≠ []) :
    SafeName (cleanedName name) :=
  safeName_of_last nonempty (fun c mem => (cleanedName_valid name c mem).safe)
    (fun _ => cleanedName_head) (fun _ => cleanedName_last)

theorem SafeName.underscore {s : Text} (safe : SafeName s) : SafeName ('_' :: s) := by
  have under : ValidChar '_' := ⟨by decide, by decide, by decide⟩
  apply safeName_of_last (List.cons_ne_nil _ _)
  · intro c mem
    rcases List.mem_cons.mp mem with rfl | mem
    · exact under.safe
    · exact safe.chars c mem
  · intro c head
    cases head
    decide
  · intro c ends
    apply safe.last c
    obtain ⟨a, rest, rfl⟩ := List.exists_cons_of_ne_nil safe.nonempty
    rwa [List.getLast?_cons_cons] at ends

theorem safeName_default : SafeName DEFAULT_NAME := by
  have whole : cleanedName DEFAULT_NAME = DEFAULT_NAME := by decide +kernel
  have safe : SafeName (cleanedName DEFAULT_NAME) := safeName_cleaned (by rw [whole]; decide)
  rwa [whole] at safe

theorem safeFileName_safe (name : Text) : SafeName (safeFileName name) := by
  rcases finishName_cases name with ⟨_, eq⟩ | ⟨nonempty, eq⟩ | ⟨nonempty, eq, _⟩
  · rw [eq]
    exact safeName_default
  · rw [eq]
    exact (safeName_cleaned nonempty).underscore
  · rw [eq]
    exact safeName_cleaned nonempty

/-- The name of a file is made of the bytes of its name field. -/
theorem checkFile_name {lib : Crates} {h : Header} {nameBytes typeBytes bytes : List UInt8}
    {file : OpticalFile} (checked : checkFile lib h nameBytes typeBytes bytes = .ok file) :
    file.name = safeFileName (fromUtf8Lossy nameBytes) := by
  unfold checkFile at checked
  split at checked
  · cases checked
  · split at checked
    · cases checked
    · split at checked
      · cases checked
      · split at checked
        · cases checked
        · have parts := Except.ok.inj checked
          rw [← parts]

/-- Received names are safe on disk, whatever text they are made of, and so is
the name of every file that is unpacked, whatever the bytes of its name field. -/
theorem received_names_are_safe :
    (∀ name, SafeName (safeFileName name)) ∧
    (∀ nameBytes, SafeName (safeFileName (fromUtf8Lossy nameBytes))) ∧
    ∀ (lib : Crates) (container : List UInt8) (key : Option EncryptionKey) (file : OpticalFile),
      unpackImpl lib container key = .ok (.ok file) → SafeName file.name := by
  refine ⟨safeFileName_safe, fun nameBytes => safeFileName_safe _, ?_⟩
  intro lib container key file ok
  obtain ⟨h, nameBytes, typeBytes, transmitted, plain, bytes, _, _, _, checked⟩ :=
    unpackImpl_ok.mp ok
  rw [checkFile_name checked]
  exact safeFileName_safe _

end DeOptiTransfer
