import DeOptiTransfer.Base.Iteration
import DeOptiTransfer.Container.RoundTrip

/-!
# Files that are passed on

What was unpacked is packed again, from hop to hop. A name that hides white space is
sanitised differently the next time; all else stays.

* `safeFileName_settles`: names settle, by their length;
* `prepare_again`: packing what was packed before;
* `relays_settle`: any number of hops.
-/

namespace DeOptiTransfer

/-- One hop: a container is unpacked, and its file packed again. -/
def relay (lib : Crates) (container : List UInt8) : Exec (Except Error (List UInt8)) := do
  let file ← unpackFile lib container
  match file with
  | .error e => .ok (.error e)
  | .ok file => .ok ((packFile lib file.name file.mimeType file.bytes).map (·.container))

def relays (lib : Crates) : Nat → List UInt8 → Exec (Except Error (List UInt8))
  | 0, container => .ok (.ok container)
  | n + 1, container => do
    let next ← relays lib n container
    match next with
    | .error e => .ok (.error e)
    | .ok container => relay lib container

/-! ## Names -/

/-- A name as sanitising leaves it. -/
structure Sanitised (v : Text) : Prop where
  valid : ∀ c ∈ v, ValidChar c
  head : ∀ c, v.head? = some c → isWhitespace c = false
  last : ∀ c, v.getLast? = some c → c ≠ '.' ∧ c ≠ ' '
  finished : finishName v = v
  nonempty : v ≠ []

theorem sanitised_cleaned {name : Text} (finished : finishName (cleanedName name) = cleanedName name)
    (nonempty : cleanedName name ≠ []) : Sanitised (cleanedName name) :=
  ⟨cleanedName_valid name, fun _ => cleanedName_head, fun _ => cleanedName_last, finished, nonempty⟩

theorem sanitised_default : Sanitised DEFAULT_NAME := by
  have whole : cleanedName DEFAULT_NAME = DEFAULT_NAME := by decide +kernel
  have sanitised : Sanitised (cleanedName DEFAULT_NAME) := by
    apply sanitised_cleaned <;> rw [whole] <;> decide +kernel
  rwa [whole] at sanitised

theorem sanitised_underscore {name : Text} (nonempty : cleanedName name ≠ []) :
    Sanitised ('_' :: cleanedName name) := by
  obtain ⟨c, rest, cleaned_eq⟩ := List.exists_cons_of_ne_nil nonempty
  refine ⟨?_, ?_, ?_, finishName_underscore _, by simp⟩
  · intro c mem
    rcases List.mem_cons.mp mem with rfl | mem
    · exact ⟨by decide, by decide, by decide⟩
    · exact cleanedName_valid name c mem
  · intro c head
    cases head
    decide
  · intro a last
    rw [cleaned_eq, List.getLast?_cons_cons, ← cleaned_eq] at last
    exact cleanedName_last last

theorem sanitised_safeFileName (name : Text) : Sanitised (safeFileName name) := by
  rcases finishName_cases name with ⟨_, eq⟩ | ⟨nonempty, eq⟩ | ⟨nonempty, eq, finish⟩
  · rw [eq]
    exact sanitised_default
  · rw [eq]
    exact sanitised_underscore nonempty
  · rw [eq]
    exact sanitised_cleaned finish nonempty

/-- How often a name can still change: at most once for every character, and once
more for the underscore that is put before it. -/
def nameWeight (v : Text) : Nat :=
  if safeFileName v = v then 0 else v.length + if v.head? = some '_' then 0 else 1

theorem nameWeight_le (v : Text) : nameWeight v ≤ v.length + 1 := by
  unfold nameWeight
  split
  · omega
  · split <;> omega

/-- A sanitised name that changes ends in white space, and loses it. -/
theorem Sanitised.cleaned {v : Text} (h : Sanitised v) (changes : safeFileName v ≠ v) :
    cleanedName v <+: v ∧ (cleanedName v).length < v.length := by
  by_cases white : ∃ w, v.getLast? = some w ∧ isWhitespace w = true
  · obtain ⟨w, last, white⟩ := white
    exact cleanedName_shorter h.valid h.head last white
  · refine absurd ?_ changes
    rw [safeFileName_eq, cleanedName_self h.valid h.head, h.finished]
    intro c last
    refine ⟨?_, h.last c last⟩
    by_contra is_white
    exact white ⟨c, last, by simpa using is_white⟩

theorem head?_of_le {s v : Text} (pre : s <+: v) (nonempty : s ≠ []) : s.head? = v.head? := by
  obtain ⟨tail, rfl⟩ := pre
  rw [List.head?_append_of_ne_nil _ nonempty]

/-- The bytes of a name that can be packed. -/
def Narrow (v : Text) : Prop := (utf8Encode v).length ≤ 65535

theorem Sanitised.narrow {v : Text} (h : Sanitised v) (narrow : Narrow v) :
    Narrow (safeFileName v) := by
  by_cases same : safeFileName v = v
  · rwa [same]
  obtain ⟨⟨tail, split⟩, shorter⟩ := h.cleaned same
  have bytes : (utf8Encode (cleanedName v)).length + (utf8Encode tail).length =
      (utf8Encode v).length := by
    rw [← List.length_append, ← utf8Encode_append, split]
  have chars : (cleanedName v).length + tail.length = v.length := by
    rw [← List.length_append, split]
  have := length_le_utf8Encode tail
  unfold Narrow at narrow ⊢
  rcases finishName_cases v with ⟨_, eq⟩ | ⟨_, eq⟩ | ⟨_, eq, _⟩
  · rw [eq]
    decide +kernel
  · have one : (utf8Encode ('_' :: cleanedName v)).length = (utf8Encode (cleanedName v)).length + 1 := by
      rw [utf8Encode, List.flatMap_cons, List.length_append, Nat.add_comm]
      rfl
    rw [eq, one]
    omega
  · rw [eq]
    omega

theorem safeFileName_settles :
    Settles safeFileName (fun v => Sanitised v ∧ Narrow v) nameWeight := by
  refine ⟨fun v h => ⟨sanitised_safeFileName v, h.1.narrow h.2⟩, fun v ⟨h, _⟩ => ?_⟩
  by_cases same : safeFileName v = v
  · exact Or.inl same
  obtain ⟨pre, shorter⟩ := h.cleaned same
  have weight : nameWeight v = v.length + if v.head? = some '_' then 0 else 1 := if_neg same
  have lighter : ∀ {u : Text}, u.length + (if u.head? = some '_' then 0 else 1) < nameWeight v →
      nameWeight u < nameWeight v := by
    intro u lt
    apply Nat.lt_of_le_of_lt _ lt
    rw [nameWeight]
    split
    · exact Nat.zero_le _
    · exact Nat.le_refl _
  right
  rcases finishName_cases v with ⟨_, eq⟩ | ⟨nonempty, eq⟩ | ⟨nonempty, eq, _⟩
  · have fixed : nameWeight DEFAULT_NAME = 0 := if_pos (by decide +kernel)
    rw [eq, fixed, weight]
    omega
  · -- a name that starts with an underscore does not get another one
    have other : v.head? ≠ some '_' := by
      intro first
      obtain ⟨c, rest, cleaned_eq⟩ := List.exists_cons_of_ne_nil nonempty
      have head := (head?_of_le pre nonempty).trans first
      rw [cleaned_eq, List.head?_cons, Option.some.injEq] at head
      rw [head] at cleaned_eq
      rw [safeFileName_underscore cleaned_eq, ← cleaned_eq] at eq
      have := congrArg List.length eq
      simp at this
    rw [eq]
    apply lighter
    rw [weight, if_neg other, List.head?_cons, if_pos rfl, List.length_cons]
    omega
  · rw [eq]
    apply lighter
    rw [weight, head?_of_le pre nonempty]
    omega

/-! ## Packing again -/

theorem isPrecompressedType_trim (mimeType : Text) :
    isPrecompressedType (Text.trim mimeType) = isPrecompressedType mimeType := by
  unfold isPrecompressedType
  rw [Text.trim_firstPart_trim (by decide)]

/-- A type is normalised to one that is compressed like it. -/
theorem isPrecompressedType_normal {mimeType normal : Text}
    (h : normalizeMimeType mimeType = .ok normal) :
    isPrecompressedType normal = isPrecompressedType mimeType := by
  rw [← isPrecompressedType_trim mimeType]
  unfold normalizeMimeType at h
  dsimp only at h
  split at h
  · rename_i empty
    cases h
    rw [List.isEmpty_iff.mp empty]
    decide +kernel
  · split at h
    · cases h
    · split at h
      · cases h
      · split at h
        · cases h
        · cases h
          rfl

section
variable {lib : Crates} {name mimeType normal : Text} {bytes : List UInt8}

/-- Packing what was packed before, under another name. -/
theorem prepare_again {p : Prepared} (h : prepare lib name mimeType bytes = .ok p)
    (normalized : normalizeMimeType mimeType = .ok normal) {name' : Text}
    (narrow : Narrow (safeFileName name')) :
    prepare lib name' normal bytes = .ok { p with nameBytes := utf8Encode (safeFileName name') } := by
  have again := normalizeMimeType_idempotent normalized
  have same : compressed lib normal bytes = compressed lib mimeType bytes := by
    unfold compressed
    rw [isPrecompressedType_normal normalized]
  obtain ⟨_, normal_eq, type_eq⟩ := (prepare_ok h).typeBytes_eq
  have type_le := (prepare_ok h).type_le
  have name_le := (prepare_ok h).name_le
  rw [normalized] at normal_eq
  cases normal_eq
  rw [type_eq] at type_le
  rw [(prepare_ok h).nameBytes_eq] at name_le
  unfold Narrow at narrow
  unfold prepare at h ⊢
  rw [again, same]
  rw [normalized] at h
  split_ifs at h ⊢
  dsimp only at h ⊢
  rw [if_neg (by omega)] at h ⊢
  cases found : compressed lib mimeType bytes with
  | error e =>
    rw [found] at h
    cases h
  | ok found' =>
    rw [found] at h
    cases found' with
    | none =>
      cases h
      rfl
    | some plain =>
      cases h
      rfl

/-- A container holds the name it was packed under. -/
theorem packFile_name_eq (lawful : lib.flate2.Lawful) {name' mimeType' : Text} {bytes' : List UInt8}
    {packed packed' : PackedOpticalFile} (h : packFile lib name mimeType bytes = .ok packed)
    (h' : packFile lib name' mimeType' bytes' = .ok packed')
    (same : packed.container = packed'.container) : safeFileName name = safeFileName name' := by
  obtain ⟨p, header, _, of, laid, _⟩ := packFile_unpacks lawful h
  obtain ⟨p', header', _, of', laid', _⟩ := packFile_unpacks lawful h'
  rw [← same] at laid'
  have headers : header = header' :=
    Except.ok.inj (Except.ok.inj ((laid.readHeader_eq lib).symm.trans (laid'.readHeader_eq lib)))
  subst headers
  have names := Except.ok.inj (laid.slices.1.symm.trans laid'.slices.1)
  rw [of.nameBytes_eq, of'.nameBytes_eq] at names
  exact utf8Encode_injective names

/-- What is packed at hop `n`: the name was sanitised twice in every hop before. -/
def hopContainer (p : Prepared) (fileLen : Nat) (name : Text) (n : Nat) : List UInt8 :=
  assemble p.compression.flag (utf8Encode (safeFileName^[2 * n] (safeFileName name))) p.typeBytes
    p.plain fileLen p.digest (.zero NONCE_LEN)

theorem safeFileName_hop (name : Text) (n : Nat) :
    safeFileName (safeFileName^[2 * n] name) = safeFileName^[2 * n] (safeFileName name) :=
  (Function.iterate_succ_apply' safeFileName _ name).symm.trans (Function.iterate_succ_apply _ _ _)

theorem hop_packed {p : Prepared} (prepared : prepare lib name mimeType bytes = .ok p)
    (normalized : normalizeMimeType mimeType = .ok normal) (n : Nat) :
    packFile lib (safeFileName^[2 * n] name) normal bytes = .ok {
      container := hopContainer p bytes.length name n
      compression := p.compression
      encrypted := false
      originalSize := bytes.length
      transmittedSize := p.plain.length } := by
  have of := prepare_ok prepared
  have narrow : (utf8Encode (safeFileName name)).length ≤ 65535 := of.nameBytes_eq ▸ of.name_le
  have stored := (safeFileName_settles.holds ⟨sanitised_safeFileName name, narrow⟩ (2 * n)).2
  rw [← safeFileName_hop] at stored
  rw [packFile, prepare_again prepared normalized stored, hopContainer, safeFileName_hop]

/-- One hop. -/
theorem hop_unpacked (lawful : lib.flate2.Lawful) {p : Prepared}
    (prepared : prepare lib name mimeType bytes = .ok p)
    (normalized : normalizeMimeType mimeType = .ok normal) (n : Nat) :
    unpackFile lib (hopContainer p bytes.length name n) = .ok (.ok {
      name := safeFileName^[2 * n + 2] name
      mimeType := normal
      bytes
      digest := lib.blake3.hash bytes
      compression := p.compression
      encrypted := false
      transmittedSize := p.plain.length }) := by
  obtain ⟨_, _, normal', _, _, _, normal_eq, unpacked⟩ :=
    packFile_unpacks lawful (hop_packed prepared normalized n)
  rw [normalizeMimeType_idempotent normalized] at normal_eq
  cases normal_eq
  rw [unpacked, Function.iterate_succ_apply', Function.iterate_succ_apply']

theorem relays_eq (lawful : lib.flate2.Lawful) {p : Prepared}
    (prepared : prepare lib name mimeType bytes = .ok p)
    (normalized : normalizeMimeType mimeType = .ok normal) (n : Nat) :
    relays lib n (hopContainer p bytes.length name 0) =
      .ok (.ok (hopContainer p bytes.length name n)) := by
  induction n with
  | zero => rfl
  | succ n ih =>
    rw [relays, ih, exec_ok_bind]
    dsimp only
    rw [relay, hop_unpacked lawful prepared normalized n, exec_ok_bind]
    dsimp only
    rw [show 2 * n + 2 = 2 * (n + 1) by omega, hop_packed prepared normalized (n + 1)]
    rfl

/-- What is packed, as hop 0. -/
theorem packFile_prepared {packed : PackedOpticalFile}
    (h : packFile lib name mimeType bytes = .ok packed) :
    ∃ p, prepare lib name mimeType bytes = .ok p ∧ packed = {
      container := hopContainer p bytes.length name 0
      compression := p.compression
      encrypted := false
      originalSize := bytes.length
      transmittedSize := p.plain.length } := by
  unfold packFile at h
  cases prepared : prepare lib name mimeType bytes with
  | error e =>
    rw [prepared] at h
    cases h
  | ok p =>
    rw [prepared] at h
    refine ⟨p, rfl, (Except.ok.inj h).symm.trans ?_⟩
    rw [hopContainer, (prepare_ok prepared).nameBytes_eq]
    rfl

/-- What is passed on settles. From hop to hop a file keeps its bytes, its
digest, its type and its compression, and no hop fails; the containers are the
same from the first on if the name does not hide white space, and otherwise
after as many hops as the stored name has characters. -/
theorem relays_settle (lawful : lib.flate2.Lawful) {packed : PackedOpticalFile}
    (packs : packFile lib name mimeType bytes = .ok packed) :
    ∃ (normal : Text) (hops : Nat → List UInt8), normalizeMimeType mimeType = .ok normal ∧
      (∀ n, relays lib n packed.container = .ok (.ok (hops n)) ∧
        unpackFile lib (hops n) = .ok (.ok {
          name := safeFileName^[2 * n + 2] name
          mimeType := normal
          bytes
          digest := lib.blake3.hash bytes
          compression := packed.compression
          encrypted := false
          transmittedSize := packed.transmittedSize })) ∧
      (∀ n, (safeFileName name).length ≤ n → hops n = hops (safeFileName name).length) ∧
      (hops 1 = packed.container ↔ ¬ HidesWhitespace name) := by
  obtain ⟨p, prepared, rfl⟩ := packFile_prepared packs
  have of := prepare_ok prepared
  obtain ⟨normal, normalized, _⟩ := of.typeBytes_eq
  have narrow : (utf8Encode (safeFileName name)).length ≤ 65535 := of.nameBytes_eq ▸ of.name_le
  have start := And.intro (sanitised_safeFileName name) narrow
  refine ⟨normal, hopContainer p bytes.length name, normalized, fun n =>
    ⟨relays_eq lawful prepared normalized n, hop_unpacked lawful prepared normalized n⟩, ?_, ?_⟩
  · intro n le
    have weight := nameWeight_le (safeFileName name)
    have some_char := List.length_pos_iff.mpr (sanitised_safeFileName name).nonempty
    rw [hopContainer, hopContainer,
      safeFileName_settles.iterate_eq start (by omega) (Nat.mul_le_mul_left 2 le)]
  · rw [← safeFileName_idempotent]
    constructor
    · intro same
      have names := packFile_name_eq lawful (hop_packed prepared normalized 1)
        (hop_packed prepared normalized 0) same
      rw [safeFileName_hop, safeFileName_hop] at names
      exact safeFileName_settles.no_return start names
    · intro fixed
      dsimp only
      rw [hopContainer, hopContainer, Function.iterate_fixed fixed, Function.iterate_fixed fixed]

end

/-- A file under a name that hides a no-break space. -/
def hiddenPlain : PackedOpticalFile where
  container := assemble 0 (utf8Encode ['a', '\u00a0']) (utf8Encode sampleType) [0x61] 1
    (sampleHash.hash [0x61]) (.zero NONCE_LEN)
  compression := .none
  encrypted := false
  originalSize := 1
  transmittedSize := 1

theorem hiddenPlain_packed :
    packFile sampleCrates ['a', '\u00a0', '.'] sampleType [0x61] = .ok hiddenPlain := by
  decide +kernel

/-- The first hop changes the container, the second one is the last that could. -/
theorem relays_settle_hidden :
    ∃ hops : Nat → List UInt8,
      (∀ n, relays sampleCrates n hiddenPlain.container = .ok (.ok (hops n))) ∧
      (∀ n, 2 ≤ n → hops n = hops 2) ∧ hops 1 ≠ hiddenPlain.container := by
  have stored : (safeFileName ['a', '\u00a0', '.']).length = 2 := by decide +kernel
  have hides : HidesWhitespace ['a', '\u00a0', '.'] := by
    apply of_not_not
    rw [← safeFileName_idempotent]
    decide +kernel
  obtain ⟨_, hops, _, each, settled, first⟩ :=
    relays_settle Flate2.stored_lawful hiddenPlain_packed
  rw [stored] at settled
  exact ⟨hops, fun n => (each n).1, settled, fun same => first.mp same hides⟩

end DeOptiTransfer
