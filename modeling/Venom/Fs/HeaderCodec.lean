import Venom.Fs.Created
import Venom.Crypto.Rejection

/-! # The two header encoders

`encode_header` fits its body to the cipher, so that every header it writes is decoded.
`encode_header_with_password` takes the body length of XChaCha20-Poly1305 whatever the
cipher: under DeoxysII and Serpent the decoder slices zeros behind the block, and under
Triple the block does not fit the header.
-/

namespace Venom.Fs

open Venom.Container
open Venom.Crypto
open Venom.Library.Words
open Venom.Library.StateError

variable {P : Primitives} {payload : HeaderPayload} {password raw : List UInt8} {w w' : World}

/-- The ciphers reject the other header's associated data, and a sealed body with zeros behind
    it. -/
structure HeaderRejects (P : Primitives) : Prop where
  separates : ∀ cipher isHidden,
    (P.outermost cipher).Separates (headerAad isHidden) (headerAad (!isHidden))
  padded : ∀ cipher, (P.outermost cipher).RejectsPadded (headerAad true)

/-- A header that its password decodes, as a hidden header and not as an outer one. -/
def DecodesWithPassword (P : Primitives) (payload : HeaderPayload) (password raw : List UInt8) : Prop :=
  ∃ key, deriveHiddenKey P raw password = .ok key ∧
    decodeHeader P raw key payload.cipher true = .ok payload ∧
    (decodeHeader P raw key payload.cipher false).toOption = none

/-! ## The outer encoder -/

theorem decodeHeader_otherFlag {key : Key} {isHidden : Bool} {version blen : Nat} {enc : List UInt8}
    {salt : Bytes saltLen} (hrej : HeaderRejects P)
    (h : SealedBody P key isHidden payload version blen enc) :
    (decodeHeader P (headerPrefix salt payload ++ enc) key payload.cipher (!isHidden)).toOption =
      none := by
  obtain ⟨v, v', henc⟩ := h.sealed
  rw [decodeHeader, h.sub_body, decryptBlock_separated (hrej.separates _ isHidden) henc]
  rfl

theorem encodeHeader_decoded {k : Key} {isHidden : Bool} (hrej : HeaderRejects P)
    (h : (encodeHeader P payload k isHidden).run w = .ok raw w') :
    decodeHeader P raw k payload.cipher isHidden = .ok payload ∧
      (decodeHeader P raw k payload.cipher (!isHidden)).toOption = none := by
  obtain ⟨-, salt, enc, rfl, hbody⟩ := encodeHeader_sealed h
  rw [hbody.header_eq.1]
  exact ⟨hbody.decode, decodeHeader_otherFlag hrej hbody⟩

/-! ## The hidden encoder -/

/-- The key is found again from the salt and the profile in the header. -/
theorem deriveHiddenKey_header {salt : Bytes saltLen} {rest : List UInt8} :
    deriveHiddenKey P (headerPrefix salt payload ++ rest) password =
      passwordKey P password salt.toList payload.kdfProfile := by
  obtain ⟨hprofile, -⟩ := getD_headerPrefix salt payload rest
  have hsalt : sub (headerPrefix salt payload ++ rest) 0 64 = salt.toList := by
    rw [headerPrefix, List.append_assoc]
    exact sub_append_left (a := salt.toList) salt.toList_length _
  rw [deriveHiddenKey, hprofile, hsalt]

/-- The sealed body is as long as the cipher's overhead makes it. -/
theorem length_hiddenBody {key : Key} {enc : List UInt8} {v v' : World}
    (henc : (encryptBlock P key payload.cipher (headerAad true)
      (padTo defaultBodyLen (headerBody 3 payload))).run v = .ok enc v') :
    enc.length = vnmbOverhead payload.cipher + defaultBodyLen := by
  rw [(encryptBlock_ok henc).2.1, length_padTo (by rw [length_headerBody]; decide)]

/-- Only XChaCha20-Poly1305 makes the body as long as the decoder takes it to be. -/
theorem hidden_fits_iff (cipher : CipherAlgorithm) :
    vnmbOverhead cipher + defaultBodyLen = bodyAvailable ↔ cipher = .xchacha20Poly1305 := by
  cases cipher <;> decide

/-- From the hidden header its password yields the key it was sealed with. -/
theorem deriveHiddenKey_encoded
    (h : (encodeHeaderWithPassword P payload password true).run w = .ok raw w') :
    deriveHiddenKey P raw password =
      passwordKey P password (w.drawn saltLen).toList payload.kdfProfile := by
  obtain ⟨-, key, enc, -, -, -, rfl⟩ := encodeHeaderWithPassword_sealed h
  rw [padTo, List.append_assoc, deriveHiddenKey_header]

theorem hiddenHeader_decode {key : Key} (hcipher : payload.cipher = .xchacha20Poly1305)
    (h : (encodeHeaderWithPassword P payload password true).run w = .ok raw w')
    (hkey : deriveHiddenKey P raw password = .ok key) : IsHeader P key true payload raw := by
  rw [deriveHiddenKey_encoded h] at hkey
  obtain ⟨-, hlen, hplain⟩ := encodeHeaderWithPassword_ok h
  obtain ⟨-, key', enc, hkey', henc, -, rfl⟩ := encodeHeaderWithPassword_sealed h
  cases hkey'.symm.trans hkey
  have hbody : SealedBody P key true payload 3 defaultBodyLen enc :=
    ⟨by decide, (hidden_fits_iff _).mpr hcipher, henc⟩
  refine ⟨hlen, hplain, ?_⟩
  rw [hbody.header_eq.1]
  exact hbody.decode

theorem decodesWithPassword_of_fits (hrej : HeaderRejects P) (hcipher : payload.cipher = .xchacha20Poly1305)
    (h : (encodeHeaderWithPassword P payload password true).run w = .ok raw w') :
    DecodesWithPassword P payload password raw := by
  obtain ⟨-, key, enc, hkey, henc, -, rfl⟩ := encodeHeaderWithPassword_sealed h
  have hderive := (deriveHiddenKey_encoded h).trans hkey
  have hbody : SealedBody P key true payload 3 defaultBodyLen enc :=
    ⟨by decide, (hidden_fits_iff _).mpr hcipher, henc⟩
  refine ⟨key, hderive, (hiddenHeader_decode hcipher h hderive).decode, ?_⟩
  rw [hbody.header_eq.1]
  exact decodeHeader_otherFlag hrej hbody

/-- Under Triple the body does not fit the header. -/
theorem not_encodeHeaderWithPassword_triple (hcipher : payload.cipher = .triple) :
    (encodeHeaderWithPassword P payload password true).run w ≠ .ok raw w' := by
  intro h
  obtain ⟨-, key, enc, -, ⟨v, v', henc⟩, hfits, -⟩ := encodeHeaderWithPassword_sealed h
  have hlen := length_hiddenBody henc
  rw [hcipher] at hlen
  have hover : vnmbOverhead .triple + defaultBodyLen = 507 := rfl
  have hoff : bodyOffset = 68 := rfl
  have hsize : headerSize = 512 := rfl
  omega

/-- A body that is too short has zeros behind it where the decoder slices. -/
theorem hiddenHeader_rejected {key : Key}
    (hpad : (P.outermost payload.cipher).RejectsPadded (headerAad true))
    (hcipher : payload.cipher ≠ .xchacha20Poly1305)
    (h : (encodeHeaderWithPassword P payload password true).run w = .ok raw w')
    (hkey : deriveHiddenKey P raw password = .ok key) :
    decodeHeader P raw key payload.cipher true = .error .authenticationFailed := by
  rw [deriveHiddenKey_encoded h] at hkey
  obtain ⟨-, key', enc, hkey', ⟨v, v', henc⟩, hfits, rfl⟩ := encodeHeaderWithPassword_sealed h
  cases hkey'.symm.trans hkey
  have hlen := length_hiddenBody henc
  have hshort : enc.length < bodyAvailable := by
    have hne := mt (hidden_fits_iff payload.cipher).mp hcipher
    have hbody : bodyOffset + bodyAvailable = headerSize := rfl
    rw [← hlen] at hne
    omega
  have htriple : payload.cipher ≠ .triple := fun htriple => not_encodeHeaderWithPassword_triple htriple h
  have hraw : padTo headerSize (headerPrefix (w.drawn saltLen) payload ++ enc) =
      headerPrefix (w.drawn saltLen) payload ++
        (enc ++ List.replicate (bodyAvailable - enc.length) 0) := by
    have hbody : bodyOffset + bodyAvailable = headerSize := rfl
    rw [padTo, List.length_append, length_headerPrefix, ← hbody, Nat.add_sub_add_left, List.append_assoc]
  have hsub : sub (headerPrefix (w.drawn saltLen) payload ++
      (enc ++ List.replicate (bodyAvailable - enc.length) 0)) bodyOffset (encBodySize payload.cipher) =
        enc ++ List.replicate (bodyAvailable - enc.length) 0 := by
    rw [encBodySize_eq]
    refine @sub_field _ _ _ [] _ _ (by rw [List.append_nil]) (length_headerPrefix _ payload) ?_
    rw [List.length_append, List.length_replicate]
    omega
  rw [hraw, decodeHeader, hsub, decryptBlock_padded hpad htriple henc (by omega)]

theorem not_decodesWithPassword (hrej : HeaderRejects P) (hcipher : payload.cipher ≠ .xchacha20Poly1305)
    (h : (encodeHeaderWithPassword P payload password true).run w = .ok raw w') :
    ¬ DecodesWithPassword P payload password raw := by
  rintro ⟨key, hkey, hdecode, -⟩
  rw [hiddenHeader_rejected (hrej.padded _) hcipher h hkey] at hdecode
  cases hdecode

/-! ## Both encoders -/

/-- `encode_header` is inverted for every payload, key, cipher and flag.  The header encoder of
    the hidden volume is inverted exactly under XChaCha20-Poly1305. -/
theorem header_round_trip (hrej : HeaderRejects P) :
    (∀ payload k isHidden w, ∃ raw w', (encodeHeader P payload k isHidden).run w = .ok raw w' ∧
      decodeHeader P raw k payload.cipher isHidden = .ok payload ∧
      (decodeHeader P raw k payload.cipher (!isHidden)).toOption = none) ∧
    ∀ payload password w, HasKeys P password payload.kdfProfile →
      ((∃ raw w', (encodeHeaderWithPassword P payload password true).run w = .ok raw w' ∧
        raw.length = headerSize ∧ DecodesWithPassword P payload password raw) ↔
      payload.cipher = .xchacha20Poly1305) := by
  refine ⟨fun payload k isHidden w => ?_, fun payload password w hkeys => ⟨?_, fun hcipher => ?_⟩⟩
  · obtain ⟨raw, w', h⟩ := @encodeHeader_isOk P payload _ _ w
    exact ⟨raw, w', h, encodeHeader_decoded hrej h⟩
  · rintro ⟨raw, w', h, -, hdecodes⟩
    by_contra hcipher
    exact not_decodesWithPassword hrej hcipher h hdecodes
  · obtain ⟨raw, w', h⟩ := encodeHeaderWithPassword_isOk (hkeys.header w) (by rw [hcipher]; decide)
    exact ⟨raw, w', h, (encodeHeaderWithPassword_ok h).2.1, decodesWithPassword_of_fits hrej hcipher h⟩

/-! ## An example -/

theorem bound_headerRejects : HeaderRejects bound where
  separates cipher isHidden := bound_separates cipher (by cases isHidden <;> decide)
  padded cipher := bound_rejectsPadded cipher _

theorem bound_hasKeys (password : List UInt8) (kdfProfile : UInt8) : HasKeys bound password kdfProfile :=
  plain_hasKeys password kdfProfile

/-- A header payload with nothing in it. -/
def blankPayload (cipher : CipherAlgorithm) : HeaderPayload :=
  { cipher, kdfProfile := 0, numPasswordSlots := 1, numKeySlots := 0, outerSlots := 2
    hiddenStart := 0, rootSlot := 1, createdAt := 0, label := toBytes 64 [], containerId := toBytes 16 [] }

theorem header_round_trip_blank : ∃ raw w', (encodeHeaderWithPassword bound
    (blankPayload .xchacha20Poly1305) [1] true).run (freePath 7) = .ok raw w' ∧
      raw.length = headerSize ∧ DecodesWithPassword bound (blankPayload .xchacha20Poly1305) [1] raw :=
  ((header_round_trip bound_headerRejects).2 _ _ _ (bound_hasKeys _ _)).mpr rfl

/-- Under DeoxysII the hidden header is written and not decoded again. -/
theorem hidden_header_deoxys : ∃ raw w', (encodeHeaderWithPassword bound
    (blankPayload .deoxysII256) [1] true).run (freePath 7) = .ok raw w' ∧
      ¬ DecodesWithPassword bound (blankPayload .deoxysII256) [1] raw := by
  obtain ⟨raw, w', h⟩ := @encodeHeaderWithPassword_isOk bound (blankPayload .deoxysII256) true
    (freePath 7) [1] ((bound_hasKeys _ _).header _) (by decide)
  exact ⟨raw, w', h, not_decodesWithPassword bound_headerRejects (by decide) h⟩

end Venom.Fs
