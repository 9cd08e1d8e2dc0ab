import Mathlib.Data.Vector.Basic

/-! # Cryptographic primitives

The ciphers, hashes and key agreements come from other crates.  They are parameters
here, with what the code relies on: decryption inverts encryption, lengths are kept, and
a shared secret is shared.  That something is *rejected* is never a law of a primitive;
it is said of the blocks at hand where a result needs it.
-/

namespace Venom.Crypto

/-- A byte array of fixed length. -/
abbrev Bytes (n : Nat) := List.Vector UInt8 n

abbrev Key := Bytes 32

/-- The first `n` bytes of a list, as an array. -/
def toBytes (n : Nat) (l : List UInt8) : Bytes n := ⟨(l ++ List.replicate n 0).take n, by simp⟩

@[simp] theorem toBytes_toList {n : Nat} (b : Bytes n) : toBytes n b.toList = b := by
  obtain ⟨l, hl⟩ := b
  apply Subtype.ext
  change (l ++ List.replicate n 0).take n = l
  rw [← hl, List.take_left]

/-- An authenticated cipher, its tag kept apart from the ciphertext. -/
structure Aead where
  encrypt : (key : Key) → (nonce aad plaintext : List UInt8) → Option (List UInt8 × List UInt8)
  decrypt : (key : Key) → (nonce aad ciphertext tag : List UInt8) → Option (List UInt8)
  length_encrypt : ∀ {key nonce aad plaintext ciphertext tag},
    encrypt key nonce aad plaintext = some (ciphertext, tag) →
      ciphertext.length = plaintext.length ∧ tag.length = 16
  decrypt_encrypt : ∀ {key nonce aad plaintext ciphertext tag},
    encrypt key nonce aad plaintext = some (ciphertext, tag) →
      decrypt key nonce aad ciphertext tag = some plaintext
  length_decrypt : ∀ {key nonce aad plaintext ciphertext tag},
    decrypt key nonce aad ciphertext tag = some plaintext → plaintext.length = ciphertext.length
  /-- The smallest length limit of the three ciphers is that of EAX. -/
  encrypt_isSome : ∀ {key nonce aad plaintext},
    plaintext.length + aad.length < 2 ^ 36 → (encrypt key nonce aad plaintext).isSome

def x25519SkSize : Nat := 32

def seedSize : Nat := 64

def ekSize : Nat := 1568

structure Primitives where
  xchacha20Poly1305 : Aead
  deoxysII256 : Aead
  serpentEax : Aead
  blake3DeriveKey : (context : String) → (material : List UInt8) → Key
  argon2id : (password salt : List UInt8) → (memoryKib iterations parallelism : Nat) →
    Except String Key
  /-- The public key of an X25519 secret. -/
  x25519Public : Bytes 32 → Bytes 32
  x25519DiffieHellman : (secret their : Bytes 32) → Bytes 32
  x25519_shared : ∀ a b,
    x25519DiffieHellman a (x25519Public b) = x25519DiffieHellman b (x25519Public a)
  /-- The ML-KEM-1024 encapsulation key of a seed. -/
  mlkemEk : Bytes 64 → Bytes 1568
  mlkemEncapsulate : (ek : Bytes 1568) → (randomness : Bytes 32) → Option (Bytes 1568 × Bytes 32)
  mlkemDecapsulate : (seed : Bytes 64) → (ct : Bytes 1568) → Bytes 32
  mlkem_shared : ∀ {seed randomness ct ss},
    mlkemEncapsulate (mlkemEk seed) randomness = some (ct, ss) → mlkemDecapsulate seed ct = ss

end Venom.Crypto
