import DeOptiTransfer.Base.Exec

/-!
# Little-endian numbers

Fixed-width little-endian fields and the reinterpretation of 32-bit words as
bytes:

* `leBytes`, `leValue`: the two directions of one field, with
  `leValue_leBytes` and `leBytes_leValue`;
* `wordsAsBytes`, `wordsOfBytes`: a row of words as its bytes in memory;
* `leBytes_xor`, `wordsAsBytes_xor`: exclusive or goes through both.
-/

namespace DeOptiTransfer

/-- The `n` low bytes of `v`, the least significant one first. -/
def leBytes : Nat → Nat → List UInt8
  | 0, _ => []
  | n + 1, v => UInt8.ofNat v :: leBytes n (v / 256)

def leValue : List UInt8 → Nat
  | [] => 0
  | b :: bs => b.toNat + 256 * leValue bs

@[simp] theorem leBytes_length (n v : Nat) : (leBytes n v).length = n := by
  induction n generalizing v with
  | zero => rfl
  | succ n ih => simp [leBytes, ih]

theorem leValue_lt (bs : List UInt8) : leValue bs < 256 ^ bs.length := by
  induction bs with
  | nil => simp [leValue]
  | cons b bs ih =>
    have hb := b.toNat_lt
    simp only [leValue, List.length_cons, Nat.pow_succ]
    omega

/-- Reading back a field gives the value up to the width of the field. -/
theorem leValue_leBytes (n v : Nat) : leValue (leBytes n v) = v % 256 ^ n := by
  induction n generalizing v with
  | zero => simp [leBytes, leValue, Nat.mod_one]
  | succ n ih =>
    have low : (UInt8.ofNat v).toNat = v % 256 := UInt8.toNat_ofNat'
    rw [leBytes, leValue, ih, low, Nat.pow_succ, Nat.mul_comm (256 ^ n) 256, Nat.mod_mul]

/-- Every row of bytes is the field of its own value. -/
theorem leBytes_leValue (bs : List UInt8) : leBytes bs.length (leValue bs) = bs := by
  induction bs with
  | nil => rfl
  | cons b bs ih =>
    have hb := b.toNat_lt
    have low : UInt8.ofNat (b.toNat + 256 * leValue bs) = b := by
      apply UInt8.toNat_inj.mp
      simp only [UInt8.toNat_ofNat']
      omega
    have high : (b.toNat + 256 * leValue bs) / 256 = leValue bs := by omega
    simp only [List.length_cons, leValue, leBytes, low, high, ih]

theorem leBytes_inj {n a b : Nat} (ha : a < 256 ^ n) (hb : b < 256 ^ n)
    (h : leBytes n a = leBytes n b) : a = b := by
  have := congrArg leValue h
  rwa [leValue_leBytes, leValue_leBytes, Nat.mod_eq_of_lt ha, Nat.mod_eq_of_lt hb] at this

theorem leBytes_zero (n : Nat) : leBytes n 0 = List.replicate n 0 := by
  induction n with
  | zero => rfl
  | succ n ih => simp [leBytes, ih, List.replicate_succ]

theorem leBytes_xor (n a b : Nat) :
    leBytes n (a ^^^ b) = List.zipWith (· ^^^ ·) (leBytes n a) (leBytes n b) := by
  induction n generalizing a b with
  | zero => rfl
  | succ n ih =>
    have head : UInt8.ofNat (a ^^^ b) = UInt8.ofNat a ^^^ UInt8.ofNat b := by
      apply UInt8.toNat_inj.mp
      simp
    have tail : (a ^^^ b) / 256 = a / 256 ^^^ b / 256 := Nat.xor_div_two_pow (n := 8)
    simp only [leBytes, head, tail, ih, List.zipWith_cons_cons]

/-! ## Words in memory -/

/-- A row of words as the bytes it occupies. -/
def wordsAsBytes (ws : List UInt32) : List UInt8 :=
  ws.flatMap fun w => leBytes 4 w.toNat

/-- The words a row of bytes, four for each word, spells. -/
def wordsOfBytes : List UInt8 → List UInt32
  | b0 :: b1 :: b2 :: b3 :: bs => UInt32.ofNat (leValue [b0, b1, b2, b3]) :: wordsOfBytes bs
  | _ => []

@[simp] theorem wordsAsBytes_nil : wordsAsBytes [] = [] := rfl

@[simp] theorem wordsAsBytes_cons (w : UInt32) (ws : List UInt32) :
    wordsAsBytes (w :: ws) = leBytes 4 w.toNat ++ wordsAsBytes ws := by
  simp [wordsAsBytes]

@[simp] theorem wordsAsBytes_length (ws : List UInt32) :
    (wordsAsBytes ws).length = 4 * ws.length := by
  induction ws with
  | nil => rfl
  | cons w ws ih => simp [ih]; omega

theorem wordsOfBytes_leBytes (w : UInt32) (bs : List UInt8) :
    wordsOfBytes (leBytes 4 w.toNat ++ bs) = w :: wordsOfBytes bs := by
  have value := leValue_leBytes 4 w.toNat
  have bound : w.toNat % 256 ^ 4 = w.toNat := Nat.mod_eq_of_lt w.toNat_lt
  simp only [leBytes, List.cons_append, List.nil_append, wordsOfBytes] at value ⊢
  rw [value, bound, UInt32.ofNat_toNat]

theorem wordsOfBytes_wordsAsBytes (ws : List UInt32) : wordsOfBytes (wordsAsBytes ws) = ws := by
  induction ws with
  | nil => rfl
  | cons w ws ih => rw [wordsAsBytes_cons, wordsOfBytes_leBytes, ih]

theorem wordsAsBytes_wordsOfBytes {n : Nat} {bs : List UInt8} (h : bs.length = 4 * n) :
    wordsAsBytes (wordsOfBytes bs) = bs := by
  induction n generalizing bs with
  | zero =>
    obtain rfl : bs = [] := List.eq_nil_of_length_eq_zero (by omega)
    rfl
  | succ n ih =>
    match bs, h with
    | b0 :: b1 :: b2 :: b3 :: rest, h =>
      have bound := leValue_lt [b0, b1, b2, b3]
      have back := leBytes_leValue [b0, b1, b2, b3]
      simp only [List.length_cons, List.length_nil] at bound back h
      have value := UInt32.toNat_ofNat_of_lt' (show leValue [b0, b1, b2, b3] < UInt32.size from bound)
      rw [wordsOfBytes, wordsAsBytes_cons, value, back, ih (by omega)]
      rfl

theorem wordsOfBytes_length {n : Nat} {bs : List UInt8} (h : bs.length = 4 * n) :
    (wordsOfBytes bs).length = n := by
  have := congrArg List.length (wordsAsBytes_wordsOfBytes h)
  rw [wordsAsBytes_length] at this
  omega

theorem wordsAsBytes_replicate (n : Nat) :
    wordsAsBytes (List.replicate n 0) = List.replicate (4 * n) 0 := by
  induction n with
  | zero => rfl
  | succ n ih =>
    rw [List.replicate_succ, wordsAsBytes_cons, ih, UInt32.toNat_zero, leBytes_zero,
      ← List.replicate_add]
    congr 1
    omega

theorem wordsAsBytes_xor (as bs : List UInt32) (h : as.length = bs.length) :
    wordsAsBytes (List.zipWith (· ^^^ ·) as bs) =
      List.zipWith (· ^^^ ·) (wordsAsBytes as) (wordsAsBytes bs) := by
  induction as generalizing bs with
  | nil => simp
  | cons a as ih =>
    match bs, h with
    | b :: bs, h =>
      simp only [List.zipWith_cons_cons, wordsAsBytes_cons]
      rw [ih bs (by simpa using h), UInt32.toNat_xor, leBytes_xor,
        List.zipWith_append (by simp)]

end DeOptiTransfer
