import DeOptiTransfer.Base.Fields
import DeOptiTransfer.Error

/-!
# Encryption

`crypto.rs` over an authenticated cipher and a password hash from other crates.
-/

namespace DeOptiTransfer

def NONCE_LEN : Nat := 24
def TAG_LEN : Nat := 16

abbrev Nonce := FixedBytes NONCE_LEN
abbrev EncryptionKey := FixedBytes 32

/-- XChaCha20-Poly1305: key, nonce, text and associated data. -/
structure Aead where
  encrypt : EncryptionKey → Nonce → List UInt8 → List UInt8 → Option (List UInt8)
  decrypt : EncryptionKey → Nonce → List UInt8 → List UInt8 → Option (List UInt8)

/-- A ciphertext is the text and a tag. -/
def Aead.AddsTag (aead : Aead) : Prop :=
  ∀ k n m a c, aead.encrypt k n m a = some c → c.length = m.length + TAG_LEN

/-- Argon2id with the parameters of the crate: password and salt. -/
structure Argon2 where
  hashPassword : List UInt8 → Nonce → Option EncryptionKey

def EncryptionKey.fromPassword (argon2 : Argon2) (password : List UInt8) (salt : Nonce) :
    Except Error EncryptionKey :=
  match argon2.hashPassword password salt with
  | some key => .ok key
  | none => .error .crypto

def encrypt (aead : Aead) (key : EncryptionKey) (nonce : Nonce) (plaintext aad : List UInt8) :
    Except Error (List UInt8) :=
  match aead.encrypt key nonce plaintext aad with
  | some ciphertext => .ok ciphertext
  | none => .error .crypto

def decrypt (aead : Aead) (key : EncryptionKey) (nonce : Nonce) (ciphertext aad : List UInt8) :
    Except Error (List UInt8) :=
  match aead.decrypt key nonce ciphertext aad with
  | some plaintext => .ok plaintext
  | none => .error .crypto

theorem EncryptionKey.fromPassword_ok {argon2 : Argon2} {password : List UInt8} {salt : Nonce}
    {key : EncryptionKey} :
    fromPassword argon2 password salt = .ok key ↔ argon2.hashPassword password salt = some key := by
  unfold fromPassword
  cases argon2.hashPassword password salt <;> simp

theorem encrypt_ok {aead : Aead} {key : EncryptionKey} {nonce : Nonce}
    {plaintext aad ciphertext : List UInt8} :
    encrypt aead key nonce plaintext aad = .ok ciphertext ↔
      aead.encrypt key nonce plaintext aad = some ciphertext := by
  unfold encrypt
  cases aead.encrypt key nonce plaintext aad <;> simp

theorem decrypt_ok {aead : Aead} {key : EncryptionKey} {nonce : Nonce}
    {ciphertext aad plaintext : List UInt8} :
    decrypt aead key nonce ciphertext aad = .ok plaintext ↔
      aead.decrypt key nonce ciphertext aad = some plaintext := by
  unfold decrypt
  cases aead.decrypt key nonce ciphertext aad <;> simp

end DeOptiTransfer
