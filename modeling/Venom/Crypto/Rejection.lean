import Venom.Crypto.Plain

/-! # What a cipher rejects

The laws of a primitive say what it accepts.  Where a result needs a rejection, it is one of
those here: of another associated data, of a ciphertext with zeros behind its tag, of another
key, of another password.  They pass from the outermost layer to the block.
-/

namespace Venom.Crypto

open Venom.Container (CipherAlgorithm)
open Venom.Library.Words
open Venom.Library.StateError

/-- What has been encrypted with `aad` is not accepted with `aad'`. -/
def Aead.Separates (A : Aead) (aad aad' : List UInt8) : Prop :=
  ∀ key nonce plaintext ciphertext tag, A.encrypt key nonce aad plaintext = some (ciphertext, tag) →
    A.decrypt key nonce aad' ciphertext tag = none

/-- A ciphertext and its tag with zeros behind them are not a ciphertext and its tag. -/
def Aead.RejectsPadded (A : Aead) (aad : List UInt8) : Prop :=
  ∀ key nonce plaintext ciphertext tag n, A.encrypt key nonce aad plaintext = some (ciphertext, tag) →
    0 < n → openLayer A key nonce aad (ciphertext ++ tag ++ List.replicate n 0) =
      .error .authenticationFailed

/-- What has been encrypted with `key` is not accepted with `key'`. -/
def Aead.SeparatesKeys (A : Aead) (key key' : Key) : Prop :=
  ∀ nonce aad plaintext ciphertext tag, A.encrypt key nonce aad plaintext = some (ciphertext, tag) →
    A.decrypt key' nonce aad ciphertext tag = none

/-- Two different passwords do not have the same key under a salt. -/
def Primitives.SeparatesPasswords (P : Primitives) (password password' salt : List UInt8) : Prop :=
  ∀ memoryKib iterations parallelism key,
    P.argon2id password salt memoryKib iterations parallelism = .ok key →
      P.argon2id password' salt memoryKib iterations parallelism = .ok key → password = password'

/-- The cipher of the outermost layer of a block. -/
def Primitives.outermost (P : Primitives) : CipherAlgorithm → Aead
  | .xchacha20Poly1305 => P.xchacha20Poly1305
  | .deoxysII256 => P.deoxysII256
  | .serpent256 | .triple => P.serpentEax

section Layer

variable {A : Aead} {key key' : Key} {nonce aad aad' plaintext s : List UInt8} {n : Nat}

theorem openLayer_rejected
    (hreject : ∀ ciphertext tag, A.encrypt key nonce aad plaintext = some (ciphertext, tag) →
      A.decrypt key' nonce aad' ciphertext tag = none)
    (h : sealLayer A key nonce aad plaintext = .ok s) :
    openLayer A key' nonce aad' s = .error .authenticationFailed := by
  unfold sealLayer at h
  cases he : A.encrypt key nonce aad plaintext with
  | none => rw [he] at h; cases h
  | some sealedText =>
    obtain ⟨ciphertext, tag⟩ := sealedText
    rw [he] at h
    cases h
    obtain ⟨-, htag⟩ := A.length_encrypt he
    have hstart : (ciphertext ++ tag).length - 16 = ciphertext.length := by
      rw [List.length_append]; omega
    simp only [openLayer, hstart, List.take_left, List.drop_left, hreject _ _ he]

theorem openLayer_separated (hsep : A.Separates aad aad')
    (h : sealLayer A key nonce aad plaintext = .ok s) :
    openLayer A key nonce aad' s = .error .authenticationFailed :=
  openLayer_rejected (fun _ _ => hsep _ _ _ _ _) h

theorem openLayer_padded (hpad : A.RejectsPadded aad)
    (h : sealLayer A key nonce aad plaintext = .ok s) (hn : 0 < n) :
    openLayer A key nonce aad (s ++ List.replicate n 0) = .error .authenticationFailed := by
  unfold sealLayer at h
  cases he : A.encrypt key nonce aad plaintext with
  | none => rw [he] at h; cases h
  | some sealedText =>
    obtain ⟨ciphertext, tag⟩ := sealedText
    rw [he] at h
    cases h
    exact hpad _ _ _ _ _ n he hn

/-- Tags that never end in a zero cannot be moved by zeros behind them. -/
theorem rejectsPadded_of_last (h : ∀ key nonce ciphertext tag plaintext,
    A.decrypt key nonce aad ciphertext tag = some plaintext → tag.getLast? ≠ some 0) :
    A.RejectsPadded aad := by
  intro key nonce plaintext ciphertext tag n henc hn
  obtain ⟨-, htag⟩ := A.length_encrypt henc
  obtain ⟨k, rfl⟩ := Nat.exists_eq_succ_of_ne_zero hn.ne'
  have hlen : ¬ (ciphertext ++ tag ++ List.replicate (k + 1) 0).length ≤
      (ciphertext ++ tag ++ List.replicate (k + 1) 0).length - 16 := by
    simp only [List.length_append]
    omega
  unfold openLayer
  dsimp only
  cases hdec : A.decrypt key nonce aad ((ciphertext ++ tag ++ List.replicate (k + 1) 0).take
      ((ciphertext ++ tag ++ List.replicate (k + 1) 0).length - 16))
      ((ciphertext ++ tag ++ List.replicate (k + 1) 0).drop
        ((ciphertext ++ tag ++ List.replicate (k + 1) 0).length - 16)) with
  | none => rfl
  | some opened =>
    refine absurd ?_ (h _ _ _ _ _ hdec)
    rw [List.getLast?_drop, if_neg hlen, List.replicate_succ', ← List.append_assoc, List.getLast?_concat]

end Layer

section Block

variable {P : Primitives} {key key' : Key} {cipher : CipherAlgorithm}
  {aad aad' plaintext block : List UInt8} {w w' : World}

/-- The nonce and the ciphertext of a single-cipher block are found behind its header. -/
theorem decryptSingle_vnmbHeader {A : Aead} {nonce s : List UInt8} {n : Nat} (hn : nonce.length = n)
    (hlen : 16 ≤ s.length) :
    decryptSingle A n key aad (vnmbHeader nonce ++ s) = openLayer A key nonce aad s := by
  have hnonce : sub (vnmbHeader nonce ++ s) nonceOffset n = nonce := by
    have := sub_vnmbHeader [] nonce [] s
    rwa [List.nil_append, List.append_nil, List.length_nil, Nat.add_zero, hn] at this
  unfold decryptSingle
  dsimp only
  rw [except_bind_of_ok (checkVnmb_vnmbHeader (by omega)), hnonce, drop_vnmbHeader hn]

theorem encryptSingle_sealed {A : Aead} {n : Nat}
    (h : (encryptSingle A n key aad plaintext).run w = .ok block w') :
    ∃ nonce s, nonce.length = n ∧ sealLayer A key nonce aad plaintext = .ok s ∧
      block = vnmbHeader nonce ++ s := by
  unfold encryptSingle at h
  obtain ⟨nonce, w₁, hdraw, h₁⟩ := run_bind_ok.mp h
  obtain ⟨s, w₂, hthrow, h₂⟩ := run_bind_ok.mp h₁
  obtain ⟨hseal, rfl⟩ := orThrow_ok.mp hthrow
  cases h₂
  exact ⟨nonce.toList, s, nonce.toList_length, hseal, rfl⟩

theorem decryptSingle_separated {A : Aead} {n : Nat} (hsep : A.Separates aad aad')
    (h : (encryptSingle A n key aad plaintext).run w = .ok block w') :
    decryptSingle A n key aad' block = .error .authenticationFailed := by
  obtain ⟨nonce, s, hn, hseal, rfl⟩ := encryptSingle_sealed h
  rw [decryptSingle_vnmbHeader hn (by rw [(sealLayer_ok hseal).1]; omega)]
  exact openLayer_separated hsep hseal

theorem decryptSingle_otherKey {A : Aead} {n : Nat} (hsep : A.SeparatesKeys key key')
    (h : (encryptSingle A n key aad plaintext).run w = .ok block w') :
    decryptSingle A n key' aad block = .error .authenticationFailed := by
  obtain ⟨nonce, s, hn, hseal, rfl⟩ := encryptSingle_sealed h
  rw [decryptSingle_vnmbHeader hn (by rw [(sealLayer_ok hseal).1]; omega)]
  exact openLayer_rejected (fun _ _ => hsep _ _ _ _ _) hseal

theorem decryptSingle_padded {A : Aead} {n k : Nat} (hpad : A.RejectsPadded aad)
    (h : (encryptSingle A n key aad plaintext).run w = .ok block w') (hk : 0 < k) :
    decryptSingle A n key aad (block ++ List.replicate k 0) = .error .authenticationFailed := by
  obtain ⟨nonce, s, hn, hseal, rfl⟩ := encryptSingle_sealed h
  have hlen : 16 ≤ (s ++ List.replicate k 0).length := by
    rw [List.length_append, (sealLayer_ok hseal).1]; omega
  rw [List.append_assoc, decryptSingle_vnmbHeader hn hlen]
  exact openLayer_padded hpad hseal hk

/-- The Triple decoder opens the Serpent layer first. -/
theorem decryptTriple_separated (hsep : P.serpentEax.Separates aad aad')
    (h : (encryptTriple P key aad plaintext).run w = .ok block w') :
    decryptTriple P key aad' block = .error .authenticationFailed := by
  unfold encryptTriple at h
  obtain ⟨nonce1, w₁, -, h₁⟩ := run_bind_ok.mp h
  obtain ⟨nonce2, w₂, -, h₂⟩ := run_bind_ok.mp h₁
  obtain ⟨nonce3, w₃, -, h₃⟩ := run_bind_ok.mp h₂
  obtain ⟨l₁, w₄, -, h₄⟩ := run_bind_ok.mp h₃
  obtain ⟨l₂, w₅, -, h₅⟩ := run_bind_ok.mp h₄
  obtain ⟨l₃, w₆, hthrow, h₆⟩ := run_bind_ok.mp h₅
  obtain ⟨hseal, rfl⟩ := orThrow_ok.mp hthrow
  cases h₆
  have hnonces : (nonce1.toList ++ nonce2.toList ++ nonce3.toList).length = tripleNonceLen := by
    simp only [List.length_append, List.Vector.toList_length, tripleNonceLen]
  have hs3 : sub (vnmbHeader (nonce1.toList ++ nonce2.toList ++ nonce3.toList) ++ l₃) (8 + n1 + n2) n3 =
      nonce3.toList := by
    have := sub_vnmbHeader (nonce1.toList ++ nonce2.toList) nonce3.toList [] l₃
    rwa [List.append_nil, List.length_append, List.Vector.toList_length, List.Vector.toList_length,
      List.Vector.toList_length] at this
  unfold decryptTriple
  dsimp only
  rw [hs3, drop_vnmbHeader hnonces, openLayer_separated hsep hseal]
  by_cases hcheck : ∃ u, checkVnmb (nonceOffset + tripleNonceLen + 48 + 1)
      (vnmbHeader (nonce1.toList ++ nonce2.toList ++ nonce3.toList) ++ l₃) = .ok u
  · obtain ⟨u, hu⟩ := hcheck
    rw [except_bind_of_ok hu]
    rfl
  · -- the block of an empty plaintext is too short, and rejected with the same error
    have hshort : (vnmbHeader (nonce1.toList ++ nonce2.toList ++ nonce3.toList) ++ l₃).length <
        nonceOffset + tripleNonceLen + 48 + 1 := by
      by_contra hlong
      rw [List.length_append, length_vnmbHeader, hnonces] at hlong
      exact hcheck ⟨(), checkVnmb_vnmbHeader (by rw [hnonces]; omega)⟩
    simp only [checkVnmb, if_pos hshort]
    rfl

/-- A sealed block is rejected with other associated data. -/
theorem decryptBlock_separated (hsep : (P.outermost cipher).Separates aad aad')
    (h : (encryptBlock P key cipher aad plaintext).run w = .ok block w') :
    decryptBlock P key cipher aad' block = .error .authenticationFailed := by
  cases cipher with
  | triple => exact decryptTriple_separated hsep h
  | xchacha20Poly1305 | deoxysII256 | serpent256 => exact decryptSingle_separated hsep h

/-- A sealed single-cipher block is rejected with zeros behind it. -/
theorem decryptBlock_padded {k : Nat} (hpad : (P.outermost cipher).RejectsPadded aad)
    (hcipher : cipher ≠ .triple)
    (h : (encryptBlock P key cipher aad plaintext).run w = .ok block w') (hk : 0 < k) :
    decryptBlock P key cipher aad (block ++ List.replicate k 0) = .error .authenticationFailed := by
  cases cipher with
  | triple => exact absurd rfl hcipher
  | xchacha20Poly1305 | deoxysII256 | serpent256 => exact decryptSingle_padded hpad h hk

end Block

/-! ## An example that rejects -/

/-- The tag of `plainAead` with the length of the associated data in it. -/
def boundTag (mark : UInt8) (key : Key) (aad : List UInt8) : List UInt8 :=
  key.toList.take 14 ++ [UInt8.ofNat aad.length, mark]

theorem length_boundTag (mark : UInt8) (key : Key) (aad : List UInt8) :
    (boundTag mark key aad).length = 16 := by
  rw [boundTag, List.length_append, List.length_take, key.toList_length]
  rfl

def boundAead (mark : UInt8) : Aead where
  encrypt key _ aad plaintext := some (plaintext, boundTag mark key aad)
  decrypt key _ aad ciphertext tag := if tag = boundTag mark key aad then some ciphertext else none
  length_encrypt h := by
    cases h
    exact ⟨rfl, length_boundTag _ _ _⟩
  decrypt_encrypt h := by
    cases h
    exact if_pos rfl
  length_decrypt h := by
    split at h
    · cases h
      rfl
    · cases h
  encrypt_isSome _ := rfl

theorem boundAead_separates {mark : UInt8} {aad aad' : List UInt8}
    (hne : UInt8.ofNat aad.length ≠ UInt8.ofNat aad'.length) : (boundAead mark).Separates aad aad' := by
  rintro key nonce plaintext ciphertext tag h
  cases h
  refine if_neg fun htag => hne ?_
  have hlast := (List.append_inj' htag rfl).2
  simpa using hlast

theorem boundAead_rejectsPadded {mark : UInt8} (hmark : mark ≠ 0) (aad : List UInt8) :
    (boundAead mark).RejectsPadded aad := by
  refine rejectsPadded_of_last fun key nonce ciphertext tag plaintext hdec hlast => hmark ?_
  have htag : tag = boundTag mark key aad := by
    by_contra hne
    exact absurd ((if_neg hne).symm.trans hdec) (by simp)
  rw [htag, boundTag] at hlast
  simpa using hlast

/-- Primitives that reject other associated data and other lengths. -/
def bound : Primitives :=
  { plain with
    xchacha20Poly1305 := boundAead 1
    deoxysII256 := boundAead 2
    serpentEax := boundAead 3 }

theorem bound_separates (cipher : CipherAlgorithm) {aad aad' : List UInt8}
    (hne : UInt8.ofNat aad.length ≠ UInt8.ofNat aad'.length) :
    (bound.outermost cipher).Separates aad aad' := by
  cases cipher <;> exact boundAead_separates hne

theorem bound_rejectsPadded (cipher : CipherAlgorithm) (aad : List UInt8) :
    (bound.outermost cipher).RejectsPadded aad := by
  cases cipher <;> exact boundAead_rejectsPadded (by decide) aad

theorem plain_rejectsPadded (cipher : CipherAlgorithm) (aad : List UInt8) :
    (plain.outermost cipher).RejectsPadded aad := by
  have hmark : ∀ mark, mark ≠ 0 → (plainAead mark).RejectsPadded aad := by
    intro mark hmark
    refine rejectsPadded_of_last fun key nonce ciphertext tag plaintext hdec hlast => hmark ?_
    have htag : tag = plainTag mark key := by
      by_contra hne
      exact absurd ((if_neg hne).symm.trans hdec) (by simp)
    rw [htag, plainTag] at hlast
    simpa using hlast
  cases cipher <;> exact hmark _ (by decide)

theorem plainAead_separatesKeys {mark : UInt8} {key key' : Key}
    (hne : plainTag mark key ≠ plainTag mark key') : (plainAead mark).SeparatesKeys key key' := by
  intro nonce aad plaintext ciphertext tag henc
  cases henc
  exact if_neg hne

end Venom.Crypto
