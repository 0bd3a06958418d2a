import DeOptiTransfer.Base.Text
import DeOptiTransfer.Error

/-!
# Media types

`normalize_mime_type` and `is_precompressed_type` of `container.rs`.

* `normalizeMimeType_idempotent`: a normalised type is its own normal form;
* `normalMime_of_ok`: what it looks like.
-/

namespace DeOptiTransfer

def DEFAULT_MIME : Text := "application/octet-stream".toList

def isMimeTokenByte (b : UInt8) : Bool :=
  let c := Char.ofNat b.toNat
  ('0' ≤ c ∧ c ≤ '9') ∨ ('A' ≤ c ∧ c ≤ 'Z') ∨ ('a' ≤ c ∧ c ≤ 'z') ∨
    c ∈ ['!', '#', '$', '%', '&', '\x27', '*', '+', '-', '.', '^', '_', '\x60', '|', '~']

def normalizeMimeType (mimeType : Text) : Except Error Text :=
  let value := Text.trim mimeType
  if value.isEmpty then .ok DEFAULT_MIME
  else if ¬ (utf8Encode value).all fun b => 0x20 ≤ b.toNat ∧ b.toNat ≤ 0x7e then .error .metadata
  else
    let media := Text.trim (Text.firstPart ';' value)
    match Text.splitOnce '/' media with
    | none => .error .metadata
    | some (typeName, subtype) =>
      if typeName.isEmpty ∨ subtype.isEmpty ∨ ¬ (utf8Encode typeName).all isMimeTokenByte ∨
          ¬ (utf8Encode subtype).all isMimeTokenByte then .error .metadata
      else .ok value

def isPrecompressedType (mimeType : Text) : Bool :=
  let media := Text.toAsciiLowercase (Text.trim (Text.firstPart ';' mimeType))
  match Text.stripPrefix "image/".toList media with
  | some subtype =>
    subtype ∉ ["bmp".toList, "x-ms-bmp".toList, "svg+xml".toList, "tiff".toList, "x-icon".toList,
      "vnd.microsoft.icon".toList]
  | none =>
    match Text.stripPrefix "audio/".toList media with
    | some subtype =>
      subtype ∉ ["wav".toList, "x-wav".toList, "wave".toList, "vnd.wave".toList, "aiff".toList,
        "x-aiff".toList, "basic".toList, "l16".toList]
    | none =>
      if "video/".toList.isPrefixOf media ∨
          "application/vnd.openxmlformats-officedocument.".toList.isPrefixOf media ∨
          "application/vnd.oasis.opendocument.".toList.isPrefixOf media ∨
          "+zip".toList.isSuffixOf media then true
      else
        media ∈ ["application/gzip".toList, "application/java-archive".toList,
          "application/vnd.rar".toList, "application/x-7z-compressed".toList,
          "application/x-brotli".toList, "application/x-bzip".toList, "application/x-bzip2".toList,
          "application/x-gzip".toList, "application/x-lzma".toList,
          "application/x-rar-compressed".toList, "application/x-xz".toList,
          "application/x-zip-compressed".toList, "application/zip".toList,
          "application/zstd".toList]

theorem normalizeMimeType_default : normalizeMimeType DEFAULT_MIME = .ok DEFAULT_MIME := by
  decide +kernel

theorem normalizeMimeType_error {mimeType : Text} {e : Error}
    (h : normalizeMimeType mimeType = .error e) : e = .metadata := by
  unfold normalizeMimeType at h
  dsimp only at h
  split at h
  · cases h
  · split at h
    · cases h
      rfl
    · split at h
      · cases h
        rfl
      · split at h
        · cases h
          rfl
        · cases h

theorem normalizeMimeType_idempotent {mimeType normal : Text}
    (h : normalizeMimeType mimeType = .ok normal) : normalizeMimeType normal = .ok normal := by
  have h' := h
  unfold normalizeMimeType at h'
  dsimp only at h'
  split at h'
  · cases h'
    exact normalizeMimeType_default
  · -- past the default the result is the trimmed text, which all checks see again
    have trimmed : normal = Text.trim mimeType := by
      split at h'
      · cases h'
      · split at h'
        · cases h'
        · split at h'
          · cases h'
          · exact (Except.ok.inj h').symm
    rw [trimmed] at h ⊢
    rw [← h]
    unfold normalizeMimeType
    rw [Text.trim_trim]

/-- A normalised media type: its own normal form, of printable ASCII, with a type
and a subtype that are tokens. -/
structure NormalMime (mime : Text) : Prop where
  fixed : normalizeMimeType mime = .ok mime
  printable : ∀ b ∈ utf8Encode mime, 0x20 ≤ b.toNat ∧ b.toNat ≤ 0x7e
  tokens : ∃ typeName subtype,
    Text.splitOnce '/' (Text.trim (Text.firstPart ';' mime)) = some (typeName, subtype) ∧
      typeName ≠ [] ∧ subtype ≠ [] ∧ (∀ b ∈ utf8Encode typeName, isMimeTokenByte b) ∧
      ∀ b ∈ utf8Encode subtype, isMimeTokenByte b

theorem normalMime_default : NormalMime DEFAULT_MIME := by
  refine ⟨normalizeMimeType_default, by decide +kernel, "application".toList,
    "octet-stream".toList, ?_⟩
  decide +kernel

theorem normalMime_of_ok {mimeType normal : Text} (h : normalizeMimeType mimeType = .ok normal) :
    NormalMime normal := by
  have fixed := normalizeMimeType_idempotent h
  unfold normalizeMimeType at h
  dsimp only at h
  split at h
  · cases h
    exact normalMime_default
  · split at h
    · cases h
    · rename_i printable
      split at h
      · cases h
      · rename_i typeName subtype parts
        split at h
        · cases h
        · rename_i tokens
          cases h
          simp only [List.isEmpty_iff, not_or, Decidable.not_not, List.all_eq_true,
            decide_eq_true_eq] at printable tokens
          exact ⟨fixed, printable, typeName, subtype, parts, tokens.1, tokens.2.1, tokens.2.2.1,
            tokens.2.2.2⟩

end DeOptiTransfer
