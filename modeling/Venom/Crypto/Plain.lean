import Venom.Crypto.Cipher
import Venom.Crypto.Kdf

/-! # Primitives for examples

They satisfy the laws and hide nothing: a ciphertext is its plaintext, and a tag is the
beginning of the key and a mark of the cipher, so that other keys and other ciphers are
rejected.
-/

namespace Venom.Crypto

open Venom.Container (CipherAlgorithm)
open Venom.Library.StateError

def plainTag (mark : UInt8) (key : Key) : List UInt8 := key.toList.take 15 ++ [mark]

theorem length_plainTag (mark : UInt8) (key : Key) : (plainTag mark key).length = 16 := by
  rw [plainTag, List.length_append, List.length_take, key.toList_length]
  rfl

def plainAead (mark : UInt8) : Aead where
  encrypt key _ _ plaintext := some (plaintext, plainTag mark key)
  decrypt key _ _ ciphertext tag := if tag = plainTag mark key then some ciphertext else none
  length_encrypt h := by
    cases h
    exact ⟨rfl, length_plainTag _ _⟩
  decrypt_encrypt h := by
    cases h
    exact if_pos rfl
  length_decrypt h := by
    split at h
    · cases h
      rfl
    · cases h
  encrypt_isSome _ := rfl

/-- The bytewise sum. -/
def addBytes {n : Nat} (a b : Bytes n) : Bytes n := List.Vector.map₂ (· + ·) a b

theorem addBytes_comm {n : Nat} (a b : Bytes n) : addBytes a b = addBytes b a := by
  apply List.Vector.toList_injective
  obtain ⟨a, ha⟩ := a
  obtain ⟨b, hb⟩ := b
  change List.zipWith (· + ·) a b = List.zipWith (· + ·) b a
  exact List.zipWith_comm_of_comm fun x y => UInt8.add_comm x y

theorem toList_toBytes {n : Nat} {l : List UInt8} (h : n ≤ l.length) :
    (toBytes n l).toList = l.take n := by
  change (l ++ List.replicate n 0).take n = l.take n
  exact List.take_append_of_le_length h

theorem toBytes_toBytes (seed : Bytes 64) :
    toBytes 32 (toBytes 1568 seed.toList).toList = toBytes 32 seed.toList := by
  apply List.Vector.toList_injective
  have hlen : seed.toList.length = 64 := seed.toList_length
  have hek : (toBytes 1568 seed.toList).toList =
      (seed.toList ++ List.replicate 1568 0).take 1568 := rfl
  have hlong : 32 ≤ (toBytes 1568 seed.toList).toList.length := by
    rw [List.Vector.toList_length]
    decide
  rw [toList_toBytes hlong, toList_toBytes (n := 32) (l := seed.toList) (by omega), hek, List.take_take]
  exact List.take_append_of_le_length (by omega)

def plain : Primitives where
  xchacha20Poly1305 := plainAead 1
  deoxysII256 := plainAead 2
  serpentEax := plainAead 3
  blake3DeriveKey context material := toBytes 32 (UInt8.ofNat context.length :: material)
  argon2id password _ _ _ _ := .ok (toBytes 32 (1 :: password))
  x25519Public := id
  x25519DiffieHellman secret their := addBytes secret their
  x25519_shared a b := addBytes_comm a b
  mlkemEk seed := toBytes 1568 seed.toList
  mlkemEncapsulate ek randomness := some (toBytes 1568 randomness.toList, toBytes 32 ek.toList)
  mlkemDecapsulate seed _ := toBytes 32 seed.toList
  mlkem_shared h := by
    cases h
    exact (toBytes_toBytes _).symm

/-- Every password has a key. -/
theorem plain_passwordKey (password salt : List UInt8) (profileId : UInt8) :
    passwordKey plain password salt profileId = .ok (toBytes 32 (1 :: password)) := by
  rw [passwordKey, deriveKey, Venom.Library.Words.hexDecode_hexEncode]
  rfl

/-! ## Tags of sealed blocks -/

/-- The mark of the outermost layer. -/
def plainMark : CipherAlgorithm → UInt8
  | .xchacha20Poly1305 => 1
  | .deoxysII256 => 2
  | .serpent256 | .triple => 3

/-- The key of the outermost layer. -/
def plainLayerKey (key : Key) : CipherAlgorithm → Key
  | .triple => toBytes 32 (20 :: key.toList)
  | _ => key

theorem plainTag_inj {mark mark' : UInt8} {key key' : Key} (h : plainTag mark key = plainTag mark' key') :
    key.toList.take 15 = key'.toList.take 15 ∧ mark = mark' := by
  obtain ⟨hkey, hmark⟩ := List.append_inj' h rfl
  exact ⟨hkey, List.singleton_inj.mp hmark⟩

theorem openLayer_plain {mark : UInt8} {key : Key} {nonce aad x plaintext : List UInt8}
    (h : openLayer (plainAead mark) key nonce aad x = .ok plaintext) :
    x.drop (x.length - 16) = plainTag mark key ∧ plaintext = x.take (x.length - 16) := by
  unfold openLayer plainAead at h
  dsimp only at h
  by_cases htag : x.drop (x.length - 16) = plainTag mark key
  · rw [if_pos htag] at h
    cases h
    exact ⟨htag, rfl⟩
  · rw [if_neg htag] at h
    cases h

theorem decryptSingle_plain {mark : UInt8} {n : Nat} {key : Key} {aad data plaintext : List UInt8}
    (h : decryptSingle (plainAead mark) n key aad data = .ok plaintext) :
    data.drop (data.length - 16) = plainTag mark key := by
  unfold decryptSingle at h
  obtain ⟨u, hcheck, hopen⟩ := except_bind_ok.mp h
  have hlen := checkVnmb_length hcheck
  obtain ⟨htag, -⟩ := openLayer_plain hopen
  rw [List.drop_drop, List.length_drop] at htag
  rw [← htag]
  congr 1
  omega

theorem plain_k3 (key : Key) : (deriveTripleKeys plain key).k3 = toBytes 32 (20 :: key.toList) := by
  have hcontext : UInt8.ofNat "venom:triple:serpent".length = 20 := by decide
  exact congrArg (fun c => toBytes 32 (c :: key.toList)) hcontext

/-- The layers of Triple, outside in. -/
theorem decryptTriple_plain {key : Key} {aad data plaintext : List UInt8}
    (h : decryptTriple plain key aad data = .ok plaintext) :
    data.drop (data.length - 16) = plainTag 3 (toBytes 32 (20 :: key.toList)) ∧
      plaintext = (data.drop 63).take (data.length - 63 - 48) := by
  unfold decryptTriple at h
  dsimp only at h
  obtain ⟨u, hcheck, h₁⟩ := except_bind_ok.mp h
  obtain ⟨layer₂, hopen₃, h₂⟩ := except_bind_ok.mp h₁
  obtain ⟨layer₁, hopen₂, hopen₁⟩ := except_bind_ok.mp h₂
  have hlen : 63 + 48 + 1 ≤ data.length := checkVnmb_length hcheck
  obtain ⟨htag, rfl⟩ := openLayer_plain hopen₃
  obtain ⟨-, rfl⟩ := openLayer_plain hopen₂
  obtain ⟨-, rfl⟩ := openLayer_plain hopen₁
  have hoff : nonceOffset + tripleNonceLen = 63 := rfl
  rw [hoff] at htag ⊢
  constructor
  · rw [List.drop_drop, List.length_drop] at htag
    rw [plain_k3] at htag
    rw [← htag]
    congr 1
    omega
  · simp only [List.length_take, List.length_drop, List.take_take]
    exact congrArg (fun n => (data.drop 63).take n) (by omega)

/-- A block that decrypts ends in the tag of its outermost layer. -/
theorem decryptBlock_plain {cipher : CipherAlgorithm} {key : Key} {aad data plaintext : List UInt8}
    (h : decryptBlock plain key cipher aad data = .ok plaintext) :
    data.drop (data.length - 16) = plainTag (plainMark cipher) (plainLayerKey key cipher) := by
  cases cipher with
  | triple => exact (decryptTriple_plain h).1
  | xchacha20Poly1305 => exact decryptSingle_plain h
  | deoxysII256 => exact decryptSingle_plain h
  | serpent256 => exact decryptSingle_plain h

/-- A sealed key that opens ends in the tag of its outermost layer. -/
theorem decryptBlockInto32_plain {cipher : CipherAlgorithm} {key k : Key} {aad data : List UInt8}
    (h : decryptBlockInto32 plain key cipher aad data = .ok k) :
    data.drop (data.length - 16) = plainTag (plainMark cipher) (plainLayerKey key cipher) := by
  have hlen := decryptBlockInto32_length h
  rw [decryptBlockInto32_eq hlen] at h
  obtain ⟨plaintext, hdec, -⟩ := except_bind_ok.mp h
  exact decryptBlock_plain hdec

end Venom.Crypto
