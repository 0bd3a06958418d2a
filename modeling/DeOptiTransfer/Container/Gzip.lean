import DeOptiTransfer.Base.Exec
import DeOptiTransfer.Base.LittleEndian
import DeOptiTransfer.Error

/-!
# Compression

`gzip` and `gunzip` of `container.rs` over an encoder and a decoder from another
crate.

* `gunzip_returns`: the loop ends, whatever the decoder yields;
* `gunzip_turns`, `Turns.length_le`: the states it goes through, in none of which
  the output is longer than declared;
* `gunzip_ok`: it returns what the decoder yields up to its end, if that is not
  longer than declared.
-/

namespace DeOptiTransfer

def GZIP_MIN : Nat := 768
def GZIP_ROOM : Nat := 64
def GZIP_MIN_LEN : Nat := 18

/-- The length of the buffer that `gunzip` reads into. -/
def BUF_LEN : Nat := 32 * 1024

/-- What a decoder has put into the buffer: `&buf[..n]`. -/
structure Chunk where
  bytes : List UInt8
  length_le : bytes.length ≤ BUF_LEN

/-- A gzip encoder run to its end, and a decoder that is read a buffer at a time.
Errors are texts. -/
structure Flate2 where
  Decoder : Type
  encode : List UInt8 → Except String (List UInt8)
  newDecoder : List UInt8 → Decoder
  read : Decoder → Except String (Chunk × Decoder)

def gzip (flate2 : Flate2) (bytes : List UInt8) : Except Error (List UInt8) :=
  match flate2.encode bytes with
  | .error msg => .error (.inflate ("compress: " ++ msg))
  | .ok compressed => .ok compressed

/-- The loop of `gunzip`, for at most `turns` turns. -/
def gunzipLoop (flate2 : Flate2) (maxBytes : Nat) :
    Nat → flate2.Decoder → List UInt8 → Exec (Except Error (List UInt8))
  | 0, _, _ => .error .diverges
  | turns + 1, decoder, out =>
    match flate2.read decoder with
    | .error msg => .ok (.error (.inflate msg))
    | .ok (chunk, decoder) =>
      let n := chunk.bytes.length
      if n = 0 then .ok (.ok out)
      else if out.length + n > maxBytes then
        .ok (.error (.inflate "expands past declared length"))
      else gunzipLoop flate2 maxBytes turns decoder (out ++ chunk.bytes)

def gunzip (flate2 : Flate2) (bytes : List UInt8) (maxBytes : Nat) :
    Exec (Except Error (List UInt8)) :=
  gunzipLoop flate2 maxBytes (maxBytes + 1) (flate2.newDecoder bytes) []

namespace Flate2

/-- A decoder that yields `bytes` in pieces and then reports the end. -/
inductive Yields (flate2 : Flate2) : flate2.Decoder → List UInt8 → Prop
  | done {d d' : flate2.Decoder} {chunk : Chunk} (read : flate2.read d = .ok (chunk, d'))
      (empty : chunk.bytes = []) : Yields flate2 d []
  | more {d d' : flate2.Decoder} {chunk : Chunk} {rest : List UInt8}
      (read : flate2.read d = .ok (chunk, d')) (nonempty : chunk.bytes ≠ [])
      (yields : Yields flate2 d' rest) : Yields flate2 d (chunk.bytes ++ rest)

/-- The gzip format: what is encoded is decoded again, and the encoded form is
at least a header and a trailer, which ends with the length. -/
structure Lawful (flate2 : Flate2) : Prop where
  decodes : ∀ bytes c, flate2.encode bytes = .ok c → flate2.Yields (flate2.newDecoder c) bytes
  length_le : ∀ bytes c, flate2.encode bytes = .ok c → GZIP_MIN_LEN ≤ c.length
  isize : ∀ bytes c, flate2.encode bytes = .ok c → c.drop (c.length - 4) = leBytes 4 bytes.length

/-- A decoder that holds what it has not put out yet. -/
def buffered (encode decode : List UInt8 → List UInt8) : Flate2 where
  Decoder := List UInt8
  encode bytes := .ok (encode bytes)
  newDecoder := decode
  read rest := .ok (⟨rest.take BUF_LEN, List.length_take_le BUF_LEN rest⟩, rest.drop BUF_LEN)

section
variable {encode decode : List UInt8 → List UInt8}

theorem buffered_yields (n : Nat) : ∀ bytes : List UInt8, bytes.length ≤ n →
    (buffered encode decode).Yields bytes bytes := by
  induction n with
  | zero =>
    intro bytes le
    rw [List.length_eq_zero_iff.mp (Nat.le_zero.mp le)]
    exact .done rfl rfl
  | succ n ih =>
    intro bytes le
    by_cases empty : bytes = []
    · rw [empty]
      exact .done rfl rfl
    · have pos := List.length_pos_iff.mpr empty
      have first : bytes.take BUF_LEN ≠ [] := by
        apply List.length_pos_iff.mp
        rw [List.length_take, BUF_LEN]
        omega
      have rest : (buffered encode decode).Yields (bytes.drop BUF_LEN) (bytes.drop BUF_LEN) := by
        apply ih
        rw [List.length_drop, BUF_LEN]
        omega
      have yields : (buffered encode decode).Yields bytes
          (bytes.take BUF_LEN ++ bytes.drop BUF_LEN) :=
        .more rfl first rest
      rwa [List.take_append_drop] at yields

theorem buffered_lawful (inverse : ∀ bytes, decode (encode bytes) = bytes)
    (trailer : ∀ bytes, ∃ front, encode bytes = front ++ leBytes 4 bytes.length ∧
      14 ≤ front.length) : (buffered encode decode).Lawful := by
  constructor
  · rintro bytes _ ⟨⟩
    have opened : (buffered encode decode).newDecoder (encode bytes) = bytes := inverse bytes
    rw [opened]
    exact buffered_yields _ bytes (Nat.le_refl _)
  all_goals
    rintro bytes _ ⟨⟩
    obtain ⟨front, eq, long⟩ := trailer bytes
    rw [eq]
  · rw [List.length_append, leBytes_length, GZIP_MIN_LEN]
    omega
  · rw [List.drop_left']
    rw [List.length_append, leBytes_length]
    omega

end

/-- A member of the gzip format's size around the bytes as they are. -/
def store (bytes : List UInt8) : List UInt8 :=
  List.replicate 14 0 ++ bytes ++ leBytes 4 bytes.length

def unstore (compressed : List UInt8) : List UInt8 :=
  (compressed.drop 14).take (compressed.length - 18)

theorem unstore_store (bytes : List UInt8) : unstore (store bytes) = bytes := by
  simp only [unstore, store, List.append_assoc, List.length_append, List.length_replicate,
    leBytes_length]
  rw [List.drop_left' List.length_replicate, List.take_left' (by omega)]

def stored : Flate2 := buffered store unstore

theorem stored_lawful : stored.Lawful :=
  buffered_lawful unstore_store fun bytes => ⟨List.replicate 14 0 ++ bytes, rfl, by simp⟩

end Flate2

section
variable {flate2 : Flate2} {maxBytes : Nat}

/-! ## The loop -/

/-- Every turn but the last adds a byte, so the loop ends before its turns are
used up. -/
theorem gunzipLoop_returns (turns : Nat) (decoder : flate2.Decoder) (out : List UInt8)
    (fits : out.length ≤ maxBytes) (enough : maxBytes < out.length + turns) :
    ∃ r, gunzipLoop flate2 maxBytes turns decoder out = .ok r ∧
      ∀ bytes, r = .ok bytes → bytes.length ≤ maxBytes := by
  induction turns generalizing decoder out with
  | zero => omega
  | succ turns ih =>
    rw [gunzipLoop]
    cases flate2.read decoder with
    | error msg => exact ⟨_, rfl, fun bytes eq => by cases eq⟩
    | ok next =>
      obtain ⟨chunk, decoder'⟩ := next
      dsimp only
      by_cases last : chunk.bytes.length = 0
      · refine ⟨_, if_pos last, fun bytes eq => ?_⟩
        cases eq
        exact fits
      · by_cases long : out.length + chunk.bytes.length > maxBytes
        · refine ⟨.error (.inflate "expands past declared length"), ?_, fun bytes eq => by cases eq⟩
          simp only [last, ↓reduceIte, long]
        · simp only [last, ↓reduceIte, long]
          apply ih
          · rw [List.length_append]
            omega
          · rw [List.length_append]
            omega

/-- The decoder loop returns, with no more than it was told to expect. -/
theorem gunzip_returns (flate2 : Flate2) (bytes : List UInt8) (maxBytes : Nat) :
    ∃ r, gunzip flate2 bytes maxBytes = .ok r ∧ ∀ out, r = .ok out → out.length ≤ maxBytes :=
  gunzipLoop_returns _ _ [] (Nat.zero_le _) (by simp)

/-- The states the loop goes through: the decoder and what has been put out, at
the start of each turn. -/
inductive Turns (flate2 : Flate2) (maxBytes : Nat) (start : flate2.Decoder) :
    Nat → flate2.Decoder → List UInt8 → Prop
  | first : Turns flate2 maxBytes start 0 start []
  | next {n : Nat} {d d' : flate2.Decoder} {out : List UInt8} {chunk : Chunk}
      (turns : Turns flate2 maxBytes start n d out) (read : flate2.read d = .ok (chunk, d'))
      (nonempty : chunk.bytes.length ≠ 0) (fits : ¬ out.length + chunk.bytes.length > maxBytes) :
      Turns flate2 maxBytes start (n + 1) d' (out ++ chunk.bytes)

section
variable {start d : flate2.Decoder} {n : Nat} {out : List UInt8}

theorem Turns.loop_eq (turns : Turns flate2 maxBytes start n d out) (left : Nat) :
    gunzipLoop flate2 maxBytes (n + left) start [] = gunzipLoop flate2 maxBytes left d out := by
  induction turns generalizing left with
  | first => rw [Nat.zero_add]
  | @next n d _ out _ _ read nonempty fits ih =>
    have turn := ih (left + 1)
    rw [show n + (left + 1) = n + 1 + left by omega] at turn
    rw [turn, gunzipLoop, read]
    simp only [nonempty, ↓reduceIte, fits]

/-- The output never grows past what was declared, at any turn, whatever the
decoder does. -/
theorem Turns.length_le (turns : Turns flate2 maxBytes start n d out) :
    out.length ≤ maxBytes := by
  cases turns with
  | first => exact Nat.zero_le _
  | next _ _ _ fits =>
    rw [List.length_append]
    omega

theorem Turns.count_le (turns : Turns flate2 maxBytes start n d out) : n ≤ out.length := by
  induction turns with
  | first => exact Nat.zero_le _
  | next _ _ nonempty _ ih =>
    rw [List.length_append]
    omega

/-- The loop ends in one of the states, which holds what it returns. -/
theorem Turns.ends (turns : Turns flate2 maxBytes start n d out) (left : Nat)
    {r : Except Error (List UInt8)} (run : gunzipLoop flate2 maxBytes left d out = .ok r) :
    ∃ m d' out', Turns flate2 maxBytes start m d' out' ∧ ∀ bytes, r = .ok bytes → bytes = out' := by
  induction left generalizing n d out with
  | zero => cases run
  | succ left ih =>
    rw [gunzipLoop] at run
    cases read : flate2.read d with
    | error msg =>
      rw [read] at run
      cases run
      exact ⟨n, d, out, turns, fun bytes eq => by cases eq⟩
    | ok next =>
      obtain ⟨chunk, d'⟩ := next
      rw [read] at run
      dsimp only at run
      split at run
      · cases run
        exact ⟨n, d, out, turns, fun bytes eq => (Except.ok.inj eq).symm⟩
      · rename_i nonempty
        split at run
        · cases run
          exact ⟨n, d, out, turns, fun bytes eq => by cases eq⟩
        · rename_i fits
          exact ih (.next turns read nonempty fits) run

end

/-- The states are those of the call: each is on its way, and it ends in one. -/
theorem gunzip_turns (flate2 : Flate2) (bytes : List UInt8) (maxBytes : Nat) :
    (∃ r n d out, gunzip flate2 bytes maxBytes = .ok r ∧
      Turns flate2 maxBytes (flate2.newDecoder bytes) n d out ∧ ∀ c, r = .ok c → c = out) ∧
    ∀ n d out, Turns flate2 maxBytes (flate2.newDecoder bytes) n d out →
      gunzip flate2 bytes maxBytes = gunzipLoop flate2 maxBytes (maxBytes + 1 - n) d out := by
  constructor
  · obtain ⟨r, run, _⟩ := gunzip_returns flate2 bytes maxBytes
    obtain ⟨n, d, out, turns, held⟩ := Turns.ends .first _ run
    exact ⟨r, n, d, out, run, turns, held⟩
  · intro n d out turns
    have count := Nat.le_trans turns.count_le turns.length_le
    rw [gunzip, ← turns.loop_eq, Nat.add_sub_cancel' (by omega)]

theorem gunzipLoop_error (turns : Nat) (decoder : flate2.Decoder) (out : List UInt8) {e : Error}
    (h : gunzipLoop flate2 maxBytes turns decoder out = .ok (.error e)) : ∃ msg, e = .inflate msg := by
  induction turns generalizing decoder out with
  | zero => cases h
  | succ turns ih =>
    rw [gunzipLoop] at h
    cases read : flate2.read decoder with
    | error msg =>
      rw [read] at h
      cases h
      exact ⟨msg, rfl⟩
    | ok next =>
      rw [read] at h
      dsimp only at h
      split at h
      · cases h
      · split at h
        · cases h
          exact ⟨_, rfl⟩
        · exact ih _ _ h

/-- Every error of the decoder loop is about the compressed data. -/
theorem gunzip_error {bytes : List UInt8} {e : Error}
    (h : gunzip flate2 bytes maxBytes = .ok (.error e)) : ∃ msg, e = .inflate msg :=
  gunzipLoop_error _ _ _ h

/-! ## Round trip -/

theorem gunzipLoop_ok {decoder : flate2.Decoder} {rest : List UInt8}
    (yields : flate2.Yields decoder rest) (turns : Nat) (out : List UInt8)
    (fits : out.length + rest.length ≤ maxBytes) (enough : maxBytes < out.length + turns) :
    gunzipLoop flate2 maxBytes turns decoder out = .ok (.ok (out ++ rest)) := by
  induction yields generalizing turns out with
  | done read empty =>
    obtain ⟨turns, rfl⟩ : ∃ n, turns = n + 1 := ⟨turns - 1, by omega⟩
    simp only [gunzipLoop, read, empty, List.length_nil, ↓reduceIte, List.append_nil]
  | @more _ _ chunk rest read nonempty _ ih =>
    rw [List.length_append] at fits
    have pos := List.length_pos_iff.mpr nonempty
    obtain ⟨turns, rfl⟩ : ∃ n, turns = n + 1 := ⟨turns - 1, by omega⟩
    have more : ¬ chunk.bytes.length = 0 := by omega
    have short : ¬ out.length + chunk.bytes.length > maxBytes := by omega
    simp only [gunzipLoop, read, more, ↓reduceIte, short]
    rw [ih turns (out ++ chunk.bytes) (by rw [List.length_append]; omega)
      (by rw [List.length_append]; omega), List.append_assoc]

theorem gunzip_ok (lawful : flate2.Lawful) {bytes compressed : List UInt8}
    (encoded : flate2.encode bytes = .ok compressed) (fits : bytes.length ≤ maxBytes) :
    gunzip flate2 compressed maxBytes = .ok (.ok bytes) := by
  rw [gunzip, gunzipLoop_ok (lawful.decodes _ _ encoded) _ _ (by simpa using fits) (by simp),
    List.nil_append]

theorem gzip_ok {bytes compressed : List UInt8} (h : gzip flate2 bytes = .ok compressed) :
    flate2.encode bytes = .ok compressed := by
  unfold gzip at h
  split at h
  · cases h
  · rename_i encoded
    cases h
    exact encoded

end

end DeOptiTransfer
