import Venom.Container.Recipient
import Venom.Crypto.Plain

/-! # Headers and slots sealed with the example primitives

Which keys and ciphers they are rejected under.
-/

namespace Venom.Container

open Venom.Crypto
open Venom.Library.Words
open Venom.Library.StateError

variable {k : Key}

theorem plainTag_last (mark : UInt8) (key : Key) : (plainTag mark key)[15]? = some mark := by
  have hlen : (key.toList.take 15).length = 15 := by
    rw [List.length_take, key.toList_length]
    rfl
  rw [plainTag, List.getElem?_append_right (by omega), hlen]
  rfl

/-- A block that decrypts ends in the mark of its cipher. -/
theorem mark_of_decrypt {cipher : CipherAlgorithm} {key : Key} {aad data plaintext : List UInt8}
    (h : decryptBlock plain key cipher aad data = .ok plaintext) :
    (data.drop (data.length - 16))[15]? = some (plainMark cipher) := by
  rw [decryptBlock_plain h, plainTag_last]

theorem mark_of_decryptInto32 {cipher : CipherAlgorithm} {key k : Key} {aad data : List UInt8}
    (h : decryptBlockInto32 plain key cipher aad data = .ok k) :
    (data.drop (data.length - 16))[15]? = some (plainMark cipher) := by
  rw [decryptBlockInto32_plain h, plainTag_last]

/-- A header in the first cipher is rejected under the other ones. -/
theorem IsHeader.onlyCipher_plain {isHidden : Bool} {payload : HeaderPayload} {raw : List UInt8}
    (h : IsHeader plain k isHidden payload raw) (hcipher : payload.cipher = .xchacha20Poly1305) :
    OnlyCipher plain k isHidden payload.cipher raw := by
  have hbody : ∀ {c : CipherAlgorithm} {p : HeaderPayload}, decodeHeader plain raw k c isHidden = .ok p →
      ((sub raw bodyOffset bodyAvailable).drop ((sub raw bodyOffset bodyAvailable).length - 16))[15]? =
        some (plainMark c) := by
    intro c p hc
    unfold decodeHeader at hc
    rw [encBodySize_eq] at hc
    cases hdec : decryptBlock plain k c (headerAad isHidden) (sub raw bodyOffset bodyAvailable) with
    | error e => rw [hdec] at hc; cases hc
    | ok body => exact mark_of_decrypt hdec
  intro c hne
  cases hc : decodeHeader plain raw k c isHidden with
  | error e => rfl
  | ok p =>
    have hmark := (hbody hc).symm.trans (hbody h.decode)
    rw [hcipher] at hne hmark
    cases c with
    | xchacha20Poly1305 => exact absurd rfl hne
    | deoxysII256 | serpent256 | triple => exact absurd hmark (by decide)

/-- The sealed key inside a password slot. -/
theorem IsPasswordSlot.content {password slot : List UInt8} (h : IsPasswordSlot plain k password slot)
    {j : Nat} (hj : j < 32) : slot[96 + j]? = k.toList[j]? := by
  obtain ⟨hlen, key, -, hdec⟩ := h
  have henc : vnmbEnc32 .triple = 143 := rfl
  have hsub : (sub slot 33 143).length = 143 := length_sub (by rw [hlen]; decide)
  rw [henc] at hdec
  obtain ⟨plaintext, htriple, hkey⟩ := except_bind_ok.mp
    (show (decryptTriple plain key aadPw (sub slot 33 143) >>= asKey) = .ok k from hdec)
  obtain ⟨-, hplain⟩ := decryptTriple_plain htriple
  have hk : k.toList = plaintext := by
    unfold asKey at hkey
    by_cases hlen : plaintext.length = 32
    · rw [dif_pos hlen] at hkey
      cases hkey
      rfl
    · rw [dif_neg hlen] at hkey
      cases hkey
  rw [hk, hplain, hsub, List.getElem?_take_of_lt (by omega), List.getElem?_drop, sub,
    List.getElem?_take_of_lt (by omega), List.getElem?_drop]
  exact congrArg (fun i => slot[i]?) (by omega)

/-- A password slot that seals a repeated byte which is no mark is rejected under the single
    ciphers. -/
theorem IsPasswordSlot.single_plain {password slot : List UInt8} {b : UInt8}
    (h : IsPasswordSlot plain k password slot) (hk : k.toList = List.replicate 32 b)
    (hb : ∀ c, b ≠ plainMark c) (key : Key) {c : CipherAlgorithm} (hne : c ≠ .triple) :
    (decryptBlockInto32 plain key c aadPw (sub slot 33 (vnmbEnc32 c))).toOption = none := by
  cases hc : decryptBlockInto32 plain key c aadPw (sub slot 33 (vnmbEnc32 c)) with
  | error e => rfl
  | ok k' =>
    have hlen : (sub slot 33 (vnmbEnc32 c)).length = vnmbEnc32 c :=
      length_sub (by rw [h.1]; cases c <;> decide)
    have hmark := mark_of_decryptInto32 hc
    have hbyte : ∀ j, j < 32 → slot[96 + j]? = some b := by
      intro j hj
      rw [h.content hj, hk, List.getElem?_replicate, if_pos hj]
    rw [hlen, List.getElem?_drop, sub] at hmark
    have hmark' : some b = some (plainMark c) := by
      cases c with
      | triple => exact absurd rfl hne
      | xchacha20Poly1305 =>
        rw [List.getElem?_take_of_lt (by decide), List.getElem?_drop] at hmark
        exact (hbyte 16 (by omega)).symm.trans hmark
      | deoxysII256 =>
        rw [List.getElem?_take_of_lt (by decide), List.getElem?_drop] at hmark
        exact (hbyte 7 (by omega)).symm.trans hmark
      | serpent256 =>
        rw [List.getElem?_take_of_lt (by decide), List.getElem?_drop] at hmark
        exact (hbyte 8 (by omega)).symm.trans hmark
    exact absurd (Option.some.inj hmark') (hb c)

theorem IsPasswordSlot.onlyTriple_plain {password slot : List UInt8} {b : UInt8}
    (h : IsPasswordSlot plain k password slot) (hk : k.toList = List.replicate 32 b)
    (hb : ∀ c, b ≠ plainMark c) : OnlyTriple plain password slot :=
  fun key _ _ hne => h.single_plain hk hb key hne

/-- The slot of one password is rejected under a password that begins differently. -/
theorem IsPasswordSlot.rejects_plain {password other slot : List UInt8} {b : UInt8}
    (h : IsPasswordSlot plain k password slot) (hk : k.toList = List.replicate 32 b)
    (hb : ∀ c, b ≠ plainMark c)
    (hne : (plainLayerKey (toBytes 32 (1 :: other)) .triple).toList.take 15 ≠
      (plainLayerKey (toBytes 32 (1 :: password)) .triple).toList.take 15) :
    tryPasswordSlot plain slot other = none := by
  obtain ⟨-, key, hkey, hdec⟩ := id h
  cases (plain_passwordKey _ _ _).symm.trans hkey
  rw [tryPasswordSlot, plain_passwordKey]
  refine List.findSome?_eq_none_iff.mpr fun c _ => ?_
  by_cases hc : c = .triple
  · subst hc
    cases hother : decryptBlockInto32 plain (toBytes 32 (1 :: other)) .triple aadPw
        (sub slot 33 (vnmbEnc32 .triple)) with
    | error e => rfl
    | ok k' =>
      have htag := (decryptBlockInto32_plain hother).symm.trans (decryptBlockInto32_plain hdec)
      exact absurd (plainTag_inj htag).1 hne
  · rw [h.single_plain hk hb _ hc]
    rfl

end Venom.Container
