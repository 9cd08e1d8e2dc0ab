import Venom.Library.Words
import Venom.Error
import Venom.Crypto.Primitives

/-! # Deriving keys

From passwords with Argon2id, and from the two shared secrets of the hybrid key
encapsulation (X25519 and ML-KEM-1024) with BLAKE3.
-/

namespace Venom.Crypto

open Venom.Library.Words

variable (P : Primitives)

/-! ## Passwords -/

structure KdfParams where
  memoryKib : Nat
  iterations : Nat
  parallelism : Nat
  /-- In hexadecimal. -/
  salt : String

namespace KdfParams

def interactive : KdfParams := { memoryKib := 65536, iterations := 3, parallelism := 4, salt := "" }

def sensitive : KdfParams := { memoryKib := 262144, iterations := 4, parallelism := 4, salt := "" }

end KdfParams

def kdfParamsForProfile (profile : String) : KdfParams :=
  if profile = "sensitive" then .sensitive else .interactive

def kdfParamsForProfileId (profileId : UInt8) : KdfParams :=
  kdfParamsForProfile (if profileId = 1 then "sensitive" else "interactive")

/-- Derive a 32-byte key from a password. -/
def deriveKey (password : List UInt8) (params : KdfParams) : Except VnmError Key :=
  match hexDecode params.salt with
  | none => .error (.kdfError "invalid salt hex")
  | some saltBytes =>
    match P.argon2id password saltBytes params.memoryKib params.iterations params.parallelism with
    | .error e => .error (.kdfError e)
    | .ok key => .ok key

/-- The key of a password under a salt and a profile, as every caller derives it. -/
def passwordKey (password salt : List UInt8) (profileId : UInt8) : Except VnmError Key :=
  deriveKey P password { kdfParamsForProfileId profileId with salt := hexEncode salt }

theorem passwordKey_ok {password salt : List UInt8} {profileId : UInt8} {key : Key} :
    passwordKey P password salt profileId = .ok key ↔
      P.argon2id password salt (kdfParamsForProfileId profileId).memoryKib
        (kdfParamsForProfileId profileId).iterations (kdfParamsForProfileId profileId).parallelism =
          .ok key := by
  unfold passwordKey deriveKey
  rw [hexDecode_hexEncode]
  dsimp only
  cases P.argon2id password salt (kdfParamsForProfileId profileId).memoryKib
    (kdfParamsForProfileId profileId).iterations (kdfParamsForProfileId profileId).parallelism <;>
    simp

/-! ## Key encapsulation -/

structure HybridPublicKey where
  x25519Pk : Bytes 32
  mlkemEk : Bytes 1568
  deriving DecidableEq

structure HybridPrivateKey where
  x25519Sk : Bytes 32
  mlkemSeed : Bytes 64
  deriving DecidableEq

/-- The public half, which the source keeps beside the private one. -/
def HybridPrivateKey.publicKey (sk : HybridPrivateKey) : HybridPublicKey where
  x25519Pk := P.x25519Public sk.x25519Sk
  mlkemEk := P.mlkemEk sk.mlkemSeed

structure HybridCiphertext where
  x25519EphPk : Bytes 32
  mlkemCt : Bytes 1568
  sharedSecret : Key

/-- Combine the two shared secrets, bound to the ciphertext. -/
def combine (x25519Ss mlkemSs ephPk : Bytes 32) (mlkemCt : Bytes 1568) : Key :=
  P.blake3DeriveKey "venom:hybrid:v1"
    (x25519Ss.toList ++ mlkemSs.toList ++ ephPk.toList ++ mlkemCt.toList)

def decapsulate (sk : HybridPrivateKey) (x25519EphPk : Bytes 32) (mlkemCt : Bytes 1568) : Key :=
  combine P (P.x25519DiffieHellman sk.x25519Sk x25519EphPk) (P.mlkemDecapsulate sk.mlkemSeed mlkemCt)
    x25519EphPk mlkemCt

/-- `encapsulate` with its random choices as arguments: an ephemeral secret, and the
    randomness of ML-KEM. -/
def encapsulateWith (ephSk randomness : Bytes 32) (recipient : HybridPublicKey) :
    Except VnmError HybridCiphertext :=
  match P.mlkemEncapsulate recipient.mlkemEk randomness with
  | none => .error (.cipherError "invalid ML-KEM public key")
  | some (mlkemCt, mlkemSs) =>
    let ephPk := P.x25519Public ephSk
    .ok
      { x25519EphPk := ephPk
        mlkemCt
        sharedSecret := combine P (P.x25519DiffieHellman ephSk recipient.x25519Pk) mlkemSs ephPk
          mlkemCt }

/-- The holder of the private key recovers the shared secret. -/
theorem decapsulate_encapsulateWith {ephSk randomness : Bytes 32} {sk : HybridPrivateKey}
    {ct : HybridCiphertext} (h : encapsulateWith P ephSk randomness (sk.publicKey P) = .ok ct) :
    decapsulate P sk ct.x25519EphPk ct.mlkemCt = ct.sharedSecret := by
  unfold encapsulateWith at h
  cases he : P.mlkemEncapsulate (sk.publicKey P).mlkemEk randomness with
  | none => rw [he] at h; cases h
  | some out =>
    obtain ⟨mlkemCt, mlkemSs⟩ := out
    rw [he] at h
    cases h
    have hss : P.mlkemDecapsulate sk.mlkemSeed mlkemCt = mlkemSs := P.mlkem_shared he
    have hdh : P.x25519DiffieHellman sk.x25519Sk (P.x25519Public ephSk) =
        P.x25519DiffieHellman ephSk (P.x25519Public sk.x25519Sk) := P.x25519_shared _ _
    simp only [decapsulate, HybridPrivateKey.publicKey, hss, hdh]

end Venom.Crypto
