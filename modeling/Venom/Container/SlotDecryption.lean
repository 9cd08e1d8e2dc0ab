import Venom.Container.Recipient

/-! # Decryption in place

Recipient slots are opened by a decryptor of its own that works in a 32-byte buffer: for
the single ciphers it asks for the exact length before it looks at anything else, and for
Triple it decrypts as usual and asks for the length of the plaintext.  It accepts what the
general decryptor takes for 32 bytes, and nothing else.
-/

namespace Venom.Container

open Venom.Crypto
open Venom.Library.Words
open Venom.Library.StateError

variable {P : Primitives} {key k : Key} {cipher : CipherAlgorithm} {aad data plain : List UInt8}

/-! ## The length of a plaintext -/

theorem length_openLayer {A : Aead} {nonce ctWithTag : List UInt8}
    (h : openLayer A key nonce aad ctWithTag = .ok plain) :
    plain.length = ctWithTag.length - 16 := by
  unfold openLayer at h
  dsimp only at h
  cases hdec : A.decrypt key nonce aad (ctWithTag.take (ctWithTag.length - 16))
      (ctWithTag.drop (ctWithTag.length - 16)) with
  | none => rw [hdec] at h; cases h
  | some p =>
    rw [hdec] at h
    cases h
    rw [A.length_decrypt hdec, List.length_take]
    exact min_eq_left (Nat.sub_le _ _)

theorem length_decryptSingle {A : Aead} {n : Nat} (h : decryptSingle A n key aad data = .ok plain) :
    data.length = nonceOffset + n + 16 + plain.length := by
  unfold decryptSingle at h
  obtain ⟨_, hcheck, hopen⟩ := except_bind_ok.mp h
  have hlen := checkVnmb_length hcheck
  have hplain := length_openLayer hopen
  rw [List.length_drop] at hplain
  omega

theorem length_decryptTriple (h : decryptTriple P key aad data = .ok plain) :
    data.length = nonceOffset + tripleNonceLen + 48 + plain.length := by
  unfold decryptTriple at h
  obtain ⟨_, hcheck, h₁⟩ := except_bind_ok.mp h
  obtain ⟨layer2, hopen₃, h₂⟩ := except_bind_ok.mp h₁
  obtain ⟨layer1, hopen₂, hopen₁⟩ := except_bind_ok.mp h₂
  have hlen := checkVnmb_length hcheck
  have h3 := length_openLayer hopen₃
  have h2 := length_openLayer hopen₂
  have h1 := length_openLayer hopen₁
  rw [List.length_drop] at h3
  omega

/-- A block is longer than its plaintext by the cipher's overhead. -/
theorem length_decryptBlock (h : decryptBlock P key cipher aad data = .ok plain) :
    data.length = vnmbOverhead cipher + plain.length := by
  cases cipher with
  | triple => exact length_decryptTriple h
  | xchacha20Poly1305 => exact length_decryptSingle h
  | deoxysII256 => exact length_decryptSingle h
  | serpent256 => exact length_decryptSingle h

/-! ## The two decryptors -/

theorem asKey_ok : asKey plain = .ok k ↔ plain = k.toList := by
  constructor
  · intro h
    unfold asKey at h
    split at h
    next => cases h; rfl
    next => cases h
  · rintro rfl
    exact asKey_toList k

theorem decryptBlockInto32_ok :
    decryptBlockInto32 P key cipher aad data = .ok k ↔
      decryptBlock P key cipher aad data = .ok k.toList := by
  have hbind : decryptBlock P key cipher aad data >>= asKey = .ok k ↔
      decryptBlock P key cipher aad data = .ok k.toList := by
    rw [except_bind_ok]
    constructor
    · rintro ⟨plain, hdec, hkey⟩
      rwa [asKey_ok.mp hkey] at hdec
    · exact fun hdec => ⟨_, hdec, asKey_toList k⟩
  constructor
  · intro h
    rwa [decryptBlockInto32_eq (decryptBlockInto32_length h), hbind] at h
  · intro h
    have hlen := length_decryptBlock h
    rw [List.Vector.toList_length] at hlen
    rwa [decryptBlockInto32_eq fun _ => hlen, hbind]

/-- A block whose magic or version is wrong. -/
def Malformed (data : List UInt8) : Prop :=
  data.take 4 ≠ vnmbMagic ∨ ofLittleEndian (sub data 4 4) ≠ vnmbVersion

theorem checkVnmb_malformed {minLen : Nat} {u : Unit} (h : Malformed data) :
    checkVnmb minLen data ≠ .ok u := by
  intro hok
  unfold checkVnmb at hok
  dsimp only at hok
  rcases h with hmagic | hversion
  · rw [if_pos hmagic] at hok
    split at hok <;> cases hok
  · rw [if_pos hversion] at hok
    (repeat' split at hok) <;> cases hok

/-- Both refuse a malformed block. -/
theorem decryptBlock_malformed (h : Malformed data) :
    decryptBlock P key cipher aad data ≠ .ok plain := by
  intro hdec
  have hsingle : ∀ (A : Aead) (n : Nat), decryptSingle A n key aad data ≠ .ok plain := by
    intro A n hok
    unfold decryptSingle at hok
    obtain ⟨_, hcheck, -⟩ := except_bind_ok.mp hok
    exact checkVnmb_malformed h hcheck
  cases cipher with
  | triple =>
    change decryptTriple P key aad data = _ at hdec
    unfold decryptTriple at hdec
    obtain ⟨_, hcheck, -⟩ := except_bind_ok.mp hdec
    exact checkVnmb_malformed h hcheck
  | xchacha20Poly1305 => exact hsingle _ _ hdec
  | deoxysII256 => exact hsingle _ _ hdec
  | serpent256 => exact hsingle _ _ hdec

/-! ## Slots -/

/-- The ciphers tried with the general decryptor. -/
def tryCiphersGeneral (P : Primitives) (key : Key) (aad slot : List UInt8) (base : Nat) :
    Option (Key × CipherAlgorithm) :=
  allCiphers.findSome? fun cipher =>
    (decryptBlock P key cipher aad (sub slot base (vnmbEnc32 cipher))).toOption.map
      fun plain => (toBytes 32 plain, cipher)

theorem vnmbEnc32_le (cipher : CipherAlgorithm) : vnmbEnc32 cipher ≤ vnmbEnc32 .triple := by
  cases cipher <;> decide

/-- On the slices of a slot the two decryptors are one. -/
theorem tryCiphers_general {slot : List UInt8} {base : Nat}
    (hlen : base + vnmbEnc32 .triple ≤ slot.length) :
    tryCiphers P key aad slot base = tryCiphersGeneral P key aad slot base := by
  unfold tryCiphers tryCiphersGeneral
  congr 1
  funext c
  have hslice : (sub slot base (vnmbEnc32 c)).length = vnmbOverhead c + 32 := by
    have := vnmbEnc32_le c
    rw [length_sub (by omega), vnmbEnc32]
  rw [decryptBlockInto32_eq fun _ => hslice]
  cases hdec : decryptBlock P key c aad (sub slot base (vnmbEnc32 c)) with
  | error e => rfl
  | ok plain =>
    -- the plaintext has 32 bytes because the slice has the length of a sealed key
    have hplain : plain.length = 32 := by
      have := length_decryptBlock hdec
      omega
    obtain ⟨k, rfl⟩ : ∃ k : Key, plain = k.toList := ⟨⟨plain, hplain⟩, rfl⟩
    rw [except_bind_of_ok rfl, asKey_toList]
    change some (k, c) = some (toBytes 32 k.toList, c)
    rw [toBytes_toList]

/-- What `try_password_slot` finds with the general decryptor. -/
def passwordSlotGeneral (P : Primitives) (slot password : List UInt8) :
    Option (Key × CipherAlgorithm) :=
  match passwordKey P password (sub slot 0 32) (slot.getD 32 0) with
  | .error _ => none
  | .ok key => tryCiphersGeneral P key aadPw slot 33

/-- What `try_key_slot` finds with the general decryptor. -/
def keySlotGeneral (P : Primitives) (slot : List UInt8) (sk : HybridPrivateKey) :
    Option (Key × CipherAlgorithm) :=
  tryCiphersGeneral P (decapsulate P sk (toBytes 32 (sub slot 0 x25519PkSize))
    (toBytes 1568 (sub slot x25519PkSize ctSize))) aadKey slot encBase

/-- The decryptor in place accepts exactly what the general one takes for 32 bytes: nothing
    of another length, nothing malformed, and in a slot what the general one finds there. -/
theorem in_place_decryption (P : Primitives) (cipher : CipherAlgorithm) (key : Key)
    (aad data : List UInt8) :
    (∀ k, decryptBlockInto32 P key cipher aad data = .ok k ↔
      ∃ plain, decryptBlock P key cipher aad data = .ok plain ∧ plain.length = 32 ∧
        plain = k.toList) ∧
    ((data.length ≠ vnmbEnc32 cipher ∨ Malformed data) →
      (∀ k, decryptBlockInto32 P key cipher aad data ≠ .ok k) ∧
      ∀ plain, decryptBlock P key cipher aad data = .ok plain → plain.length ≠ 32) ∧
    (∀ slot : Bytes pwSlotSize, ∀ password,
      tryPasswordSlot P slot.toList password = passwordSlotGeneral P slot.toList password) ∧
    ∀ slot : Bytes keySlotSize, ∀ sk,
      tryKeySlot P slot.toList sk = keySlotGeneral P slot.toList sk := by
  refine ⟨fun k => ?_, fun h => ?_, fun slot password => ?_, fun slot sk => ?_⟩
  · rw [decryptBlockInto32_ok]
    exact ⟨fun hdec => ⟨_, hdec, k.toList_length, rfl⟩, fun ⟨_, hdec, _, hk⟩ => hk ▸ hdec⟩
  · have hrefused : ∀ plain, decryptBlock P key cipher aad data = .ok plain →
        plain.length ≠ 32 := by
      intro plain hdec hplain
      rcases h with hlen | hbad
      · exact hlen (by rw [length_decryptBlock hdec, hplain, vnmbEnc32])
      · exact decryptBlock_malformed hbad hdec
    exact ⟨fun k hk => hrefused _ (decryptBlockInto32_ok.mp hk) k.toList_length, hrefused⟩
  · unfold tryPasswordSlot passwordSlotGeneral
    cases passwordKey P password (sub slot.toList 0 32) (slot.toList.getD 32 0) with
    | error e => rfl
    | ok key => exact tryCiphers_general (by rw [slot.toList_length]; decide)
  · exact tryCiphers_general (by rw [slot.toList_length]; decide)

end Venom.Container
