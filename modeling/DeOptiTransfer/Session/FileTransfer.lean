import DeOptiTransfer.Session.Channel
import DeOptiTransfer.Session.Fitting
import DeOptiTransfer.Session.Sequence

/-!
# Sending a file

A packed file goes through a sender, a channel and a receiver, and what the
receiver delivers is unpacked.

* `file_transfer`: a plain file;
* `sealed_transfer`: a file under a password, also where an attacker owns the
  channel;
* `judge_transfer`: a file that only the judge can open.
-/

namespace DeOptiTransfer

def Sender.tryFromPacked (blake3 : Blake3) (soliton : SolitonCdf) (packed : PackedOpticalFile)
    (blockLen : Nat) (sessionId : UInt16) : Exec (Except Error Sender) :=
  tryNew blake3 soliton packed.container blockLen sessionId

def verifyFile (lib : Crates) (file : OpticalFile) : Bool := lib.blake3.hash file.bytes = file.digest

theorem verifyFile_iff {lib : Crates} {file : OpticalFile} :
    verifyFile lib file = true ↔ lib.blake3.hash file.bytes = file.digest := decide_eq_true_iff

open Receiver

/-- What `unpack` makes of each container that a run delivers. -/
def received {α ι : Type} (unpack : List UInt8 → α)
    (t : List (Event Receiver ι (Except Error (Option (List UInt8))))) : List α :=
  (deliveries t).map unpack

/-- The channel between `s` and a receiver with `limits` carries what `unpack`
makes into `file`: it arrives once or not at all, and does arrive when the blocks
follow from the frames that came through, which the first phase is enough for. -/
structure Carried {α : Type} (blake3 : Blake3) (soliton : SolitonCdf) (mode : Mode) (s : Sender)
    (limits : ReceiverLimits) (unpack : List UInt8 → α) (file : α) (inputs : List (List UInt8)) :
    Prop where
  run : ∃ t r, trace (tryPush blake3 soliton) (withLimits limits) inputs = .ok (t, r) ∧
    (received unpack t = [] ∨ received unpack t = [file]) ∧
    ∀ S, s.InBudget mode S → s.received blake3 inputs ⊆ S →
      (received unpack t = [file] ↔ s.Determined blake3 mode inputs)
  first_phase : mode ≠ .rsd → s.Collected blake3 inputs → s.Determined blake3 mode inputs

section
variable {lib : Crates} {soliton : SolitonCdf} {mode : Mode} {container : List UInt8}
  {blockLen : Nat} {sessionId : UInt16} {s : Sender} {limits : ReceiverLimits}
  {inputs : List (List UInt8)}

/-- A container that unpacks is carried. -/
theorem carried {α : Type} {blake3 : Blake3} {unpack : List UInt8 → α} {file : α}
    (built : Sender.build mode blake3 soliton container blockLen sessionId = .ok (.ok s))
    (admitted : Within limits s.identity) (channel : s.Channel blake3 inputs)
    (unpacks : unpack container = file) :
    Carried blake3 soliton mode s limits unpack file inputs := by
  obtain ⟨t, r, run, serves, delivered⟩ := channel_run built admitted channel
  have once := (deliveries_run run serves).2
  have fits := deliveries_iff run serves rfl
  constructor
  · refine ⟨t, r, run, ?_, fun S inBudget sub => ?_⟩
    · rcases once with silent | out
      · exact Or.inl (by rw [received, silent, List.map_nil])
      · exact Or.inr (by rw [received, out, List.map_singleton, unpacks])
    · rw [← delivered S inBudget sub, ← fits]
      rcases once with silent | out
      · simp [received, silent]
      · simp [received, out, unpacks]
  · exact fun phase collected => Sender.determined_of_collected phase built collected

end

/-- A plain file arrives. What is packed, sent and received is unpacked to the
same bytes, under a name that is safe. -/
theorem file_transfer (lib : Crates) (lawful : lib.flate2.Lawful) (soliton : SolitonCdf)
    (name mimeType : Text) (bytes : List UInt8) (packed : PackedOpticalFile)
    (packs : packFile lib name mimeType bytes = .ok packed) (blockLen : Nat) (sessionId : UInt16)
    (s : Sender)
    (built : Sender.tryFromPacked lib.blake3 soliton packed blockLen sessionId = .ok (.ok s))
    (limits : ReceiverLimits) (admitted : Within limits s.identity) (inputs : List (List UInt8))
    (channel : s.Channel lib.blake3 inputs) :
    ∃ file : OpticalFile, file.bytes = bytes ∧ verifyFile lib file = true ∧
      file.name = safeFileName (safeFileName name) ∧
      normalizeMimeType mimeType = .ok file.mimeType ∧ file.encrypted = false ∧
      Carried lib.blake3 soliton .causal s limits (unpackFile lib) (.ok (.ok file)) inputs := by
  obtain ⟨_, _, normal, _, _, _, normal_eq, unpacked⟩ := packFile_unpacks lawful packs
  refine ⟨_, ?_, verifyFile_iff.mpr ?_, ?_, normal_eq, ?_, carried built admitted channel unpacked⟩
  all_goals dsimp only

/-! ### In two blocks

The examples send a container as two blocks. Frame 0 is lost, and frame 2, which
repeats its block, comes before frame 1. -/

/-- What frame `seq` of `container` hashes. -/
def twoBlockInput (container : List UInt8) (blockLen : Nat) (digest : FixedBytes 32)
    (seq : UInt32) : List UInt8 :=
  checksumInput
    { flags := FLAG_CAUSAL, sessionId := 7, seq, k := 2, blockLen := UInt16.ofNat blockLen
      totalLen := UInt32.ofNat container.length, streamTag := tagOfDigest digest, frameTag := 0 }
    (frameBlock container blockLen (frameIndices .causal twoBlockCdf 7 seq))

/-- BLAKE3 on `container` and on what its frames 0, 1 and 2 hash. -/
def frameHash (container : List UInt8) (blockLen : Nat)
    (digest digest₀ digest₁ digest₂ : FixedBytes 32) : Blake3 where
  hash bytes :=
    if bytes = container then digest
    else if bytes = twoBlockInput container blockLen digest 0 then digest₀
    else if bytes = twoBlockInput container blockLen digest 1 then digest₁
    else if bytes = twoBlockInput container blockLen digest 2 then digest₂
    else sampleHash.hash bytes

structure Repaired (blake3 : Blake3) (s : Sender) (first repair : List UInt8) : Prop where
  sent₁ : s.Sent blake3 1 first
  sent₂ : s.Sent blake3 2 repair
  admitted : Within .MAXIMUM s.identity
  channel : s.Channel blake3 [repair, first]
  inBudget : s.InBudget .causal {1, 2}
  received_sub : s.received blake3 [repair, first] ⊆ ({1, 2} : Finset UInt32)
  determined : s.Determined blake3 .causal [repair, first]

/-- An equation of the first block alone and one of both settle two blocks. -/
theorem solvable_of_pair {ι : Type} {I : ι → Set Nat} {S : Set ι} {one two : ι} (one_mem : one ∈ S)
    (two_mem : two ∈ S) (alone : I one = {0}) (both : I two = {0, 1}) {b : Nat} (lt : b < 2) :
    Solvable I S b := by
  have zero : Solvable I S 0 := by
    refine .peel one_mem (by simp [alone]) fun c mem ne => ?_
    rw [alone] at mem
    exact absurd mem ne
  rcases (show b = 0 ∨ b = 1 by omega) with rfl | rfl
  · exact zero
  · refine .peel two_mem (by simp [both]) fun c mem ne => ?_
    rw [both] at mem
    rcases mem with rfl | mem
    · exact zero
    · exact absurd mem ne

theorem exists_repaired (blake3 : Blake3) {container : List UInt8} {blockLen : Nat}
    (nonempty : container ≠ []) (total : container.length ≤ MAX_STREAM_BYTES)
    (fits : fitsInOneStream container.length (blockLen + HEADER_LEN) = true)
    (two : divCeil container.length blockLen = 2) :
    ∃ s first repair,
      Sender.tryNew blake3 twoBlockSoliton container blockLen 7 = .ok (.ok s) ∧
        Repaired blake3 s first repair := by
  obtain ⟨s, built⟩ := (Sender.build_iff_fits .causal nonempty total).mpr fits
  obtain ⟨first, sent₁⟩ := Sender.exists_sent built 1
  obtain ⟨repair, sent₂⟩ := Sender.exists_sent built 2
  obtain ⟨new, wf, _⟩ := Sender.build_ok built
  obtain ⟨checked, _, _, session_eq, cdf⟩ := LtEncoder.tryNew_ok new
  have k_eq : s.encoder.k = 2 := (checkedEncoderK_ok checked).2.2.2.2.1.trans two
  rw [k_eq, twoBlockCdf_eq] at cdf
  have cdf_eq := (Except.ok.inj cdf).symm
  have session : (7 : UInt16).toUInt32 = 7 := rfl
  rw [session] at session_eq
  have indices_eq : ∀ seq, s.indices .causal seq =
      {b | b ∈ frameIndices .causal twoBlockCdf 7 seq} := by
    intro seq
    rw [Sender.indices, cdf_eq, session_eq]
  have known : ∀ bytes ∈ [repair, first],
      ∃ seq : UInt32, s.Sent blake3 seq bytes ∧ (seq = 1 ∨ seq = 2) := by
    intro bytes mem
    simp only [List.mem_cons, List.not_mem_nil, or_false] at mem
    rcases mem with rfl | rfl
    · exact ⟨2, sent₂, Or.inr rfl⟩
    · exact ⟨1, sent₁, Or.inl rfl⟩
  refine ⟨s, first, repair, built, sent₁, sent₂, Sender.within_maximum built,
    Sender.channel_of_sent fun bytes mem => (known bytes mem).imp fun _ => And.left, ⟨?_, ?_⟩, ?_, ?_⟩
  · rw [k_eq]
    decide
  · rw [k_eq, cdf_eq, session_eq]
    decide +kernel
  · rintro seq ⟨bytes, mem, sent⟩
    obtain ⟨seq', sent', which⟩ := known bytes mem
    rw [sent_unique wf sent' sent]
    simpa using which
  · intro b lt
    have mem₂ : 2 ∈ s.received blake3 [repair, first] := ⟨repair, by simp, sent₂⟩
    have mem₁ : 1 ∈ s.received blake3 [repair, first] := ⟨first, by simp, sent₁⟩
    refine solvable_of_pair mem₂ mem₁ ?_ ?_ (k_eq ▸ lt)
    · have drawn : frameIndices .causal twoBlockCdf 7 2 = [0] := by decide +kernel
      ext b
      simp [indices_eq, drawn]
    · have drawn : frameIndices .causal twoBlockCdf 7 1 = [0, 1] := by decide +kernel
      ext b
      simp [indices_eq, drawn]

/-- What is carried arrives. -/
theorem Repaired.arrives {α : Type} {blake3 : Blake3} {s : Sender} {first repair : List UInt8}
    {unpack : List UInt8 → α} {file : α} (repaired : Repaired blake3 s first repair)
    (carries : Carried blake3 twoBlockSoliton .causal s .MAXIMUM unpack file [repair, first]) :
    ∃ t r, trace (tryPush blake3 twoBlockSoliton) .new [repair, first] = .ok (t, r) ∧
      received unpack t = [file] := by
  obtain ⟨t, r, run, _, arrives⟩ := carries.run
  exact ⟨t, r, run,
    (arrives _ repaired.inBudget repaired.received_sub).mpr repaired.determined⟩

def plainCrates : Crates :=
  { sampleCrates with
    blake3 := frameHash samplePlain.container 45
      ⟨[0x1c, 0x23, 0x71, 0xa7, 0x23, 0x57, 0xaa, 0xad, 0xa1, 0xd8, 0xf9, 0xbe, 0xf0, 0xd6, 0x1b,
        0xcc, 0x5e, 0x7f, 0x3c, 0xdc, 0x3a, 0x55, 0x51, 0xca, 0x51, 0xe2, 0xd7, 0xbf, 0x5f, 0x5a,
        0xcd, 0x0f], rfl⟩
      ⟨[0x94, 0x0b, 0xb0, 0xa8, 0x6d, 0xd5, 0xab, 0xfc, 0xbb, 0x55, 0x49, 0x06, 0xe4, 0x66, 0x9d,
        0xc2, 0x1a, 0xe1, 0x88, 0x99, 0x7a, 0x94, 0x43, 0x3f, 0x9b, 0xc5, 0x6e, 0x37, 0x8c, 0xbc,
        0x58, 0xb6], rfl⟩
      ⟨[0xbe, 0xc3, 0x3b, 0xda, 0xcf, 0x2d, 0x5a, 0x7b, 0x3e, 0x26, 0xcf, 0xee, 0xe8, 0xaf, 0x6e,
        0xfe, 0xa3, 0x32, 0x9e, 0xb9, 0xda, 0x55, 0x76, 0x02, 0x78, 0xdf, 0xc5, 0x4b, 0x05, 0x39,
        0xd7, 0xcd], rfl⟩
      ⟨[0xc8, 0xbc, 0x8e, 0xbd, 0x71, 0x8b, 0x49, 0xa2, 0xb6, 0xcf, 0x55, 0x00, 0x12, 0xb0, 0x9a,
        0xec, 0x57, 0x5e, 0x8e, 0x2c, 0x9a, 0x0b, 0xfa, 0x08, 0xdd, 0x34, 0x36, 0x1a, 0xe4, 0x7d,
        0xbe, 0xb7], rfl⟩ }

theorem file_transfer_sample :
    ∃ s first repair file,
      Sender.tryFromPacked plainCrates.blake3 twoBlockSoliton samplePlain 45 7 = .ok (.ok s) ∧
      s.Sent plainCrates.blake3 1 first ∧ s.Sent plainCrates.blake3 2 repair ∧
      file.bytes = [0x61] ∧
      ∃ t r, trace (tryPush plainCrates.blake3 twoBlockSoliton) .new [repair, first] = .ok (t, r) ∧
        received (unpackFile plainCrates) t = [.ok (.ok file)] := by
  have packs : packFile plainCrates sampleName sampleType [0x61] = .ok samplePlain := by
    decide +kernel
  obtain ⟨s, first, repair, built, repaired⟩ :
      ∃ s first repair, Sender.tryFromPacked plainCrates.blake3 twoBlockSoliton samplePlain 45 7 =
        .ok (.ok s) ∧ Repaired plainCrates.blake3 s first repair :=
    exists_repaired plainCrates.blake3 (by decide +kernel) (by decide +kernel) (by decide +kernel)
      (by decide +kernel)
  obtain ⟨file, bytes_eq, _, _, _, _, carries⟩ := file_transfer plainCrates Flate2.stored_lawful
    twoBlockSoliton sampleName sampleType [0x61] samplePlain packs 45 7 s built .MAXIMUM
    repaired.admitted [repair, first] repaired.channel
  exact ⟨s, first, repair, file, built, repaired.sent₁, repaired.sent₂, bytes_eq,
    repaired.arrives carries⟩

/-! ## Under a password -/

section
variable {lib : Crates} {calls : Set PasswordCall} {call : PasswordCall} {packed : PackedOpticalFile}

/-- `file` is the file of `call`. -/
structure PasswordCall.Recovers (lib : Crates) (call : PasswordCall) (file : OpticalFile) : Prop where
  bytes_eq : file.bytes = call.bytes
  verified : verifyFile lib file = true
  name_eq : file.name = safeFileName (safeFileName call.name)
  mimeType_eq : normalizeMimeType call.mimeType = .ok file.mimeType
  encrypted : file.encrypted = true

/-- The key of a call unpacks its container. -/
theorem PasswordCall.unpacks_with_key (ideal : Ideal lib (sealingsOf lib calls))
    (lawful : lib.flate2.Lawful) (mem : call ∈ calls) {key : EncryptionKey}
    (derived : call.Derives lib key) (packs : call.pack lib = .ok packed) :
    ∃ file, unpackFileWithKey lib packed.container key = .ok (.ok file) ∧
      call.Recovers lib file := by
  rw [pack_eq derived] at packs
  obtain ⟨normal, normal_eq, unpacked⟩ :=
    Sealing.unpackFileWithKey_eq ideal lawful ⟨call, mem, key, derived, rfl⟩ packs
  refine ⟨_, unpacked, ?_, verifyFile_iff.mpr ?_, ?_, normal_eq, ?_⟩
  all_goals dsimp only [sealing]

/-- The password of a call unpacks its container. -/
theorem PasswordCall.unpacks (ideal : Ideal lib (sealingsOf lib calls)) (lawful : lib.flate2.Lawful)
    (mem : call ∈ calls) (packs : call.pack lib = .ok packed) :
    ∃ file, unpackFileWithPassword lib packed.container call.password = .ok (.ok file) ∧
      call.Recovers lib file := by
  obtain ⟨key, derived⟩ := derives_of_pack packs
  obtain ⟨file, unpacked, recovers⟩ := unpacks_with_key ideal lawful mem derived packs
  rw [pack_eq derived] at packs
  obtain ⟨p, h, _, _, _, laid, nonce_eq, covered_eq, _⟩ := Sealing.laid ideal packs
  have crypt : h.flags &&& FLAG_CRYPT ≠ 0 := by
    rw [show h.flags = p.compression.flag ||| FLAG_CRYPT from congrArg Covered.flags covered_eq]
    exact p.compression.flag_crypt
  have same_key : EncryptionKey.fromPassword lib.argon2 call.password h.nonce = .ok key := by
    rw [nonce_eq]
    exact derived
  exact ⟨file, (unpackFileWithPassword_eq (laid.readHeader_eq lib) crypt same_key).trans unpacked,
    recovers⟩

/-- What a password opens is the file of a call, and its container. -/
theorem PasswordCall.recovers_of_opened (ideal : Ideal lib (sealingsOf lib calls))
    (lawful : lib.flate2.Lawful) {container password : List UInt8} {file : OpticalFile}
    (opened : unpackFileWithPassword lib container password = .ok (.ok file)) :
    ∃ call ∈ calls, ∃ packed, call.pack lib = .ok packed ∧ packed.container = container ∧
      call.Recovers lib file := by
  obtain ⟨h, key, read, crypt, _, with_key⟩ := unpackFileWithPassword_ok opened
  obtain ⟨_, _, _, _, laid, decrypted, _⟩ := unpackFileWithKey_ok read crypt with_key
  obtain ⟨_, ⟨call, mem, _, derived, rfl⟩, rfl, _, packed, packs, rfl⟩ :=
    ideal.container_packed laid decrypted
  rw [← pack_eq derived] at packs
  obtain ⟨file', unpacked, recovers⟩ := unpacks_with_key ideal lawful mem derived packs
  have same := unpacked.symm.trans with_key
  cases same
  exact ⟨call, mem, packed, packs, rfl, recovers⟩

end

/-- What some password opens is a container that was packed, and opens to its
file; so whatever an attacker pushes into a receiver, only packed files come out.
Over a channel without an attacker the file arrives like a plain one. -/
theorem sealed_transfer (lib : Crates) (lawful : lib.flate2.Lawful) (soliton : SolitonCdf)
    (calls : Set PasswordCall) (ideal : Ideal lib (PasswordCall.sealingsOf lib calls)) :
    (∀ container password file, unpackFileWithPassword lib container password = .ok (.ok file) →
      ∃ call ∈ calls, ∃ packed, call.pack lib = .ok packed ∧ packed.container = container ∧
        call.Recovers lib file) ∧
    (∀ (limits : ReceiverLimits) (ops : List Op), ∃ t r,
      trace (Receiver.apply lib.blake3 soliton) (withLimits limits) ops = .ok (t, r) ∧
        ∀ password file, .ok (.ok file) ∈ received (unpackFileWithPassword lib · password) t →
          ∃ call ∈ calls, call.Recovers lib file) ∧
    ∀ call ∈ calls, ∀ packed, call.pack lib = .ok packed → ∃ file, call.Recovers lib file ∧
      ∀ (blockLen : Nat) (sessionId : UInt16) (s : Sender),
        Sender.tryFromPacked lib.blake3 soliton packed blockLen sessionId = .ok (.ok s) →
          ∀ limits inputs, Within limits s.identity → s.Channel lib.blake3 inputs →
            Carried lib.blake3 soliton .causal s limits
              (unpackFileWithPassword lib · call.password) (.ok (.ok file)) inputs := by
  refine ⟨fun _ _ _ opened => PasswordCall.recovers_of_opened ideal lawful opened, ?_, ?_⟩
  · intro limits ops
    obtain ⟨t, r, run, _⟩ := trace_ok State (fun _ => True)
      (fun r op state => by
        obtain ⟨result, r', call, state', _⟩ := apply_ok lib.blake3 soliton state op
        exact ⟨result, r', call, state', trivial⟩)
      (State.idle : State (withLimits limits)) ops
    refine ⟨t, r, run, fun password file mem => ?_⟩
    obtain ⟨container, _, opened⟩ := List.mem_map.mp mem
    obtain ⟨call, made, _, _, _, recovers⟩ :=
      PasswordCall.recovers_of_opened ideal lawful opened
    exact ⟨call, made, recovers⟩
  · intro call mem packed packs
    obtain ⟨file, unpacked, recovers⟩ := PasswordCall.unpacks ideal lawful mem packs
    refine ⟨file, recovers, fun blockLen sessionId s built limits inputs admitted channel => ?_⟩
    exact carried built admitted channel unpacked

/-- Only the hash of the files counts in what the cipher seals. -/
theorem Ideal.withHash {lib : Crates} {calls : Set PasswordCall} {blake3 : Blake3}
    (same : ∀ call ∈ calls, blake3.hash call.bytes = lib.blake3.hash call.bytes)
    (ideal : Ideal lib (PasswordCall.sealingsOf lib calls)) :
    Ideal { lib with blake3 } (PasswordCall.sealingsOf { lib with blake3 } calls) := by
  have prepares : ∀ call ∈ calls, prepare { lib with blake3 } call.name call.mimeType call.bytes =
      prepare lib call.name call.mimeType call.bytes := by
    intro call mem
    simp only [prepare, same call mem]
    rfl
  have computes : ∀ s ∈ PasswordCall.sealingsOf lib calls, ∀ plaintext aad ciphertext,
      s.Computes { lib with blake3 } plaintext aad ciphertext ↔
        s.Computes lib plaintext aad ciphertext := by
    rintro _ ⟨call, mem, key, _, rfl⟩ plaintext aad ciphertext
    simp only [Sealing.Computes, PasswordCall.sealing, prepares call mem]
  constructor
  · intro key nonce ciphertext aad plaintext
    rw [ideal.opens]
    constructor
    · rintro ⟨s, mem, key_eq, nonce_eq, computed⟩
      exact ⟨s, mem, key_eq, nonce_eq, (computes s mem _ _ _).mpr computed⟩
    · rintro ⟨s, mem, key_eq, nonce_eq, computed⟩
      exact ⟨s, mem, key_eq, nonce_eq, (computes s mem _ _ _).mp computed⟩
  · exact ideal.overhead

def sealedCrates : Crates :=
  { sampleCrates with
    blake3 := frameHash sampleSealed.container 53
      ⟨[0x50, 0xfb, 0x4c, 0x2e, 0x70, 0x35, 0x6c, 0x1f, 0x19, 0x87, 0xbb, 0xb2, 0x70, 0x35, 0xaa,
        0xf4, 0x32, 0x9d, 0x5e, 0x8e, 0xbd, 0x84, 0x9b, 0x5d, 0x55, 0xde, 0x02, 0xbc, 0x8e, 0xb9,
        0x31, 0x1b], rfl⟩
      ⟨[0x06, 0x71, 0x37, 0x3d, 0x95, 0xc2, 0x8c, 0x4d, 0x81, 0x18, 0xec, 0x13, 0xd2, 0xe6, 0xae,
        0x90, 0x21, 0x83, 0xb0, 0xf0, 0xaf, 0x69, 0x92, 0xaf, 0xa9, 0x74, 0x80, 0xb5, 0xed, 0x25,
        0x35, 0x96], rfl⟩
      ⟨[0x68, 0x9f, 0x7b, 0xb9, 0x19, 0x34, 0x10, 0xcd, 0xa8, 0xbb, 0x23, 0xae, 0xd6, 0xb1, 0x18,
        0x27, 0xdc, 0xfd, 0xa4, 0x9d, 0x0a, 0x01, 0x5d, 0x9b, 0x9a, 0x8c, 0xa8, 0xa9, 0xfb, 0x26,
        0x73, 0x17], rfl⟩
      ⟨[0x05, 0x94, 0x36, 0x43, 0x7b, 0x0a, 0x94, 0x30, 0x49, 0xf4, 0xef, 0x01, 0x52, 0x45, 0x6b,
        0x46, 0xb6, 0xa0, 0x09, 0x67, 0x30, 0xb5, 0xe9, 0x09, 0x7b, 0xb6, 0x45, 0xeb, 0x3e, 0x0d,
        0x08, 0x75], rfl⟩ }

theorem sealed_transfer_sample :
    ∃ s first repair file,
      Sender.tryFromPacked sealedCrates.blake3 twoBlockSoliton sampleSealed 53 7 = .ok (.ok s) ∧
      s.Sent sealedCrates.blake3 1 first ∧ s.Sent sealedCrates.blake3 2 repair ∧
      file.bytes = [0x61] ∧
      ∃ t r, trace (tryPush sealedCrates.blake3 twoBlockSoliton) .new [repair, first] = .ok (t, r) ∧
        received (unpackFileWithPassword sealedCrates · [0x70, 0x77]) t = [.ok (.ok file)] := by
  have packs : sampleCall.pack sealedCrates = .ok sampleSealed := by decide +kernel
  have ideal : Ideal sealedCrates (PasswordCall.sealingsOf sealedCrates {sampleCall}) := by
    refine sample_ideal.withHash fun call mem => ?_
    rw [Set.mem_singleton_iff.mp mem]
    decide +kernel
  obtain ⟨s, first, repair, built, repaired⟩ :
      ∃ s first repair, Sender.tryFromPacked sealedCrates.blake3 twoBlockSoliton sampleSealed 53 7 =
        .ok (.ok s) ∧ Repaired sealedCrates.blake3 s first repair :=
    exists_repaired sealedCrates.blake3 (by decide +kernel) (by decide +kernel) (by decide +kernel)
      (by decide +kernel)
  obtain ⟨_, _, carried⟩ :=
    sealed_transfer sealedCrates Flate2.stored_lawful twoBlockSoliton {sampleCall} ideal
  obtain ⟨file, recovers, carries⟩ := carried sampleCall rfl sampleSealed packs
  exact ⟨s, first, repair, file, built, repaired.sent₁, repaired.sent₂, recovers.bytes_eq,
    repaired.arrives (carries 53 7 s built .MAXIMUM [repair, first] repaired.admitted
      repaired.channel)⟩

/-! ## For a judge -/

/-- A file for a judge arrives. The envelope goes through the channel like a
container, and the judge unpacks the file that was packed. -/
theorem judge_transfer (lib : Crates) (lawful : lib.flate2.Lawful) (judge : JudgeCrates)
    (agrees : judge.x25519.Agrees) (exact : judge.aead.Exact) (soliton : SolitonCdf)
    (random : Option (FixedBytes 32)) (name mimeType : Text) (bytes : List UInt8)
    (dk : JudgeSecretKey) (nonce : Nonce) (packed : JrcPackedFile)
    (packs : packFileJrc lib judge random name mimeType bytes (dk.toPublic judge) nonce = .ok packed)
    (blockLen : Nat) (sessionId : UInt16) (s : Sender)
    (built : Sender.tryNew lib.blake3 soliton packed.envelope blockLen sessionId = .ok (.ok s))
    (limits : ReceiverLimits) (admitted : Within limits s.identity) (inputs : List (List UInt8))
    (channel : s.Channel lib.blake3 inputs) :
    ∃ file : OpticalFile, file.bytes = bytes ∧ verifyFile lib file = true ∧
      file.name = safeFileName (safeFileName name) ∧
      normalizeMimeType mimeType = .ok file.mimeType ∧
      Carried lib.blake3 soliton .causal s limits (unpackFileJrc lib judge · dk) (.ok (.ok file))
        inputs := by
  obtain ⟨inner, inner_packs, opened⟩ := unpackFileJrc_packFileJrc agrees exact packs
  obtain ⟨_, _, normal, _, _, _, normal_eq, unpacked⟩ := packFile_unpacks lawful inner_packs
  refine ⟨_, ?_, verifyFile_iff.mpr ?_, ?_, normal_eq,
    carried built admitted channel (opened.trans unpacked)⟩
  all_goals dsimp only

/-- The envelope of the plain container of the examples, under the keys of the
golden envelope. -/
def sampleEnvelope : JrcCommitment where
  commitment := ⟨[0xe7, 0x9d, 0x15, 0x4c, 0x0c, 0xb2, 0x26, 0x3c, 0xae, 0xd1, 0xee, 0x52, 0xb7, 0x48,
    0x8a, 0x3f, 0x3b, 0x60, 0xc0, 0x04, 0x76, 0xd0, 0x65, 0xe7, 0x75, 0xde, 0x80, 0x2a, 0x14, 0xdf,
    0xd6, 0x74], rfl⟩
  aux := Jrc.goldenEphemeralKey.bytes ++ Jrc.goldenNonce.bytes ++ [
    0x5e, 0xb9, 0xe5, 0x2c, 0xab, 0x3a, 0xbe, 0x6a, 0x85, 0x2b, 0x84, 0x32, 0xc5, 0x18, 0xad, 0x26,
    0x41, 0x12, 0x1a, 0x7d, 0x7d, 0xb6, 0x8e, 0x36, 0xd2, 0x69, 0x16, 0xf6, 0xc2, 0x5f, 0x5e, 0xd7,
    0x16, 0xd9, 0x6c, 0xe9, 0xe8, 0xe8, 0x85, 0x33, 0x37, 0x4d, 0x34, 0x7c, 0x0a, 0x0c, 0x77, 0x81,
    0x43, 0x93, 0x98, 0x24, 0x58, 0x7c, 0x45, 0xc4, 0xf2, 0x95, 0xbc, 0x36, 0x4b, 0x48, 0x46, 0x16,
    0x20, 0x00, 0x75, 0x1c, 0xa3, 0x66, 0xb2, 0x66, 0xb7, 0xf4, 0xd3, 0x29, 0xd7, 0x96, 0x91, 0xed,
    0x84, 0x92, 0xb1, 0x97, 0xb5, 0x90, 0x44, 0xbf, 0x66, 0xf4, 0xa7, 0x2b, 0x1f, 0x38, 0x03, 0xde,
    0x60, 0xcd, 0xe3, 0xe1, 0x5a, 0xfd, 0xdb, 0x07, 0x01]

def envelopeCrates : Crates :=
  { sampleCrates with
    blake3 := frameHash sampleEnvelope.toBytes 99
      ⟨[0x2d, 0x47, 0x12, 0xbf, 0x23, 0x9e, 0x24, 0x96, 0x07, 0xf5, 0x10, 0x2f, 0x0e, 0x29, 0xd9,
        0x18, 0xfe, 0x96, 0xef, 0xb7, 0xd9, 0xc7, 0xee, 0x07, 0xf4, 0xe7, 0xe1, 0x13, 0x77, 0xda,
        0x39, 0x12], rfl⟩
      ⟨[0x91, 0xd8, 0x92, 0x04, 0x4b, 0xf2, 0x9a, 0xa1, 0x12, 0xd9, 0x5a, 0xcb, 0xf4, 0xb4, 0xf4,
        0x4d, 0x3f, 0x26, 0xe7, 0x2e, 0x7b, 0x3d, 0x06, 0xc8, 0x9a, 0x08, 0x9f, 0x05, 0x82, 0x99,
        0xd3, 0x47], rfl⟩
      ⟨[0xa7, 0x45, 0x09, 0x04, 0x1a, 0x6f, 0xfa, 0x9b, 0x88, 0x5a, 0xc9, 0xea, 0x9d, 0xd7, 0x95,
        0xb3, 0x3d, 0xcd, 0x3e, 0xa4, 0x97, 0x83, 0xfb, 0xb4, 0x78, 0x6a, 0x41, 0xac, 0xe3, 0x27,
        0x26, 0x76], rfl⟩
      ⟨[0x05, 0xf5, 0x53, 0x4a, 0xaf, 0xaf, 0xa4, 0x8a, 0xc3, 0xca, 0x63, 0x48, 0x48, 0x2f, 0xa7,
        0x10, 0x60, 0xed, 0xbc, 0x63, 0x9e, 0xcf, 0x63, 0x48, 0xa3, 0xc8, 0xcc, 0x9d, 0xb2, 0x0a,
        0xbf, 0x93], rfl⟩ }

def envelopeJudge : JudgeCrates where
  x25519 := Jrc.goldenCrates.x25519
  blake3 := {
    deriveKey := Jrc.goldenCrates.blake3.deriveKey
    keyedHash := fun key m =>
      if key = Jrc.goldenComKey ∧ m = samplePlain.container then sampleEnvelope.commitment
      else .zero 32 }
  aead := Jrc.sealedOnce Jrc.goldenEncKey Jrc.goldenNonce samplePlain.container
    sampleEnvelope.commitment.bytes (sampleEnvelope.aux.drop (Jrc.EPHEMERAL_PK_LEN + NONCE_LEN))

theorem judge_transfer_sample :
    ∃ s first repair file,
      Sender.tryNew envelopeCrates.blake3 twoBlockSoliton sampleEnvelope.toBytes 99 7 =
        .ok (.ok s) ∧
      s.Sent envelopeCrates.blake3 1 first ∧ s.Sent envelopeCrates.blake3 2 repair ∧
      file.bytes = [0x61] ∧
      ∃ t r, trace (tryPush envelopeCrates.blake3 twoBlockSoliton) .new [repair, first] =
          .ok (t, r) ∧
        received (unpackFileJrc envelopeCrates envelopeJudge · Jrc.goldenJudge) t =
          [.ok (.ok file)] := by
  have packs : packFileJrc envelopeCrates envelopeJudge (some Jrc.goldenEphemeral) sampleName
      sampleType [0x61] (Jrc.goldenJudge.toPublic envelopeJudge) Jrc.goldenNonce =
        .ok ⟨sampleEnvelope.toBytes, 1, 197⟩ := by
    decide +kernel
  have exact : envelopeJudge.aead.Exact := Jrc.sealedOnce_exact (by decide +kernel)
  obtain ⟨s, first, repair, built, repaired⟩ :
      ∃ s first repair, Sender.tryNew envelopeCrates.blake3 twoBlockSoliton sampleEnvelope.toBytes
        99 7 = .ok (.ok s) ∧ Repaired envelopeCrates.blake3 s first repair :=
    exists_repaired envelopeCrates.blake3 (by decide +kernel) (by decide +kernel) (by decide +kernel)
      (by decide +kernel)
  obtain ⟨file, bytes_eq, _, _, _, carries⟩ := judge_transfer envelopeCrates Flate2.stored_lawful
    envelopeJudge Jrc.golden_agrees exact twoBlockSoliton (some Jrc.goldenEphemeral) sampleName
    sampleType [0x61] Jrc.goldenJudge Jrc.goldenNonce ⟨sampleEnvelope.toBytes, 1, 197⟩ packs 99 7 s
    built .MAXIMUM repaired.admitted [repair, first] repaired.channel
  exact ⟨s, first, repair, file, built, repaired.sent₁, repaired.sent₂, bytes_eq,
    repaired.arrives carries⟩

end DeOptiTransfer
