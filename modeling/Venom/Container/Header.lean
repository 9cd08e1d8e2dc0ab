import Venom.Crypto.Cipher
import Venom.Crypto.Kdf

/-! # Container headers

A header is 512 bytes: a salt, four plaintext bytes (a zero, the KDF profile and the two
recipient counts) and a sealed body, whose length depends on the cipher.  The hidden
volume's header is sealed with a key derived from its password.
-/

namespace Venom.Container

open Venom.Crypto
open Venom.Library.Words
open Venom.Library.StateError

variable (P : Primitives)

def magic : List UInt8 := [0x56, 0x4E, 0x4D, 0x31]

def formatVersion : Nat := 1

def saltLen : Nat := 64

def bodyOffset : Nat := 68

/-- Available bytes for the encrypted block inside the header. -/
def bodyAvailable : Nat := headerSize - bodyOffset

/-- Plaintext body length for a given cipher. -/
def bodyLen (cipher : CipherAlgorithm) : Nat := bodyAvailable - vnmbOverhead cipher

/-- `BODY_LEN`, the body length of the hidden header whatever the cipher. -/
def defaultBodyLen : Nat := 396

def encBodySize (cipher : CipherAlgorithm) : Nat := vnmbOverhead cipher + bodyLen cipher

def ascii (s : String) : List UInt8 := s.toUTF8.data.toList

def aadOuter : List UInt8 := ascii "vnm:header:outer:v1"

def aadHidden : List UInt8 := ascii "vnm:header:hidden:v1"

def headerAad (isHidden : Bool) : List UInt8 := if isHidden then aadHidden else aadOuter

/-- Decoded header metadata. -/
structure HeaderPayload where
  cipher : CipherAlgorithm
  kdfProfile : UInt8
  numPasswordSlots : UInt8
  numKeySlots : UInt8
  /-- The number of slots of the volume. -/
  outerSlots : UInt64
  /-- Outer: 0; hidden: the first slot of the hidden volume. -/
  hiddenStart : UInt64
  rootSlot : UInt64
  createdAt : UInt64
  label : Bytes 64
  /-- All zeros means an old container without rollback support. -/
  containerId : Bytes 16
  deriving DecidableEq

def le64 (n : UInt64) : List UInt8 := littleEndian 8 n.toNat

def ofLe64 (bytes : List UInt8) : UInt64 := UInt64.ofNat (ofLittleEndian bytes)

/-- A field that is longer than its text ends in zeros. -/
theorem toList_toBytes_eq {n : Nat} {l : List UInt8} (h : l.length ≤ n) :
    (toBytes n l).toList = padTo n l := by
  change (l ++ List.replicate n 0).take n = l ++ List.replicate (n - l.length) 0
  rw [List.take_append, List.take_of_length_le h, List.take_replicate, Nat.min_eq_left (Nat.sub_le _ _)]

/-! ## Encoding -/

/-- The plaintext in front of the body. -/
def headerPrefix (salt : Bytes saltLen) (p : HeaderPayload) : List UInt8 :=
  salt.toList ++ [0, p.kdfProfile, p.numPasswordSlots, p.numKeySlots]

/-- The body's 128 bytes in use. -/
def headerBody (version : Nat) (p : HeaderPayload) : List UInt8 :=
  magic ++ littleEndian 4 version ++ littleEndian 8 dataAreaOffset ++ le64 p.outerSlots ++
    le64 p.hiddenStart ++ le64 p.rootSlot ++ le64 p.createdAt ++ p.label.toList ++
    p.containerId.toList

def encodeHeader (payload : HeaderPayload) (kMaster : Key) (isHidden : Bool) :
    WorldM (List UInt8) := do
  let salt ← fillBytes saltLen
  let body := padTo (bodyLen payload.cipher) (headerBody formatVersion payload)
  let enc ← encryptBlock P kMaster payload.cipher (headerAad isHidden) body
  pure (padTo headerSize (headerPrefix salt payload ++ enc))

/-- Encode a hidden header with a key derived from the password.  A sealed body that does
    not fit the header is an out-of-range slice. -/
def encodeHeaderWithPassword (payload : HeaderPayload) (password : List UInt8) (isHidden : Bool) :
    EStateM Fault World (List UInt8) := do
  let salt ← fillBytes saltLen
  let key ← fallible (orThrow (passwordKey P password salt.toList payload.kdfProfile))
  let body := padTo defaultBodyLen (headerBody 3 payload)
  let enc ← fallible (encryptBlock P key payload.cipher (headerAad isHidden) body)
  if bodyOffset + enc.length ≤ headerSize then
    pure (padTo headerSize (headerPrefix salt payload ++ enc))
  else throw (.panic "range end index out of range for slice of length 512")

/-! ## Decoding -/

/-- The fields of a decrypted body, next to the plaintext ones. -/
def payloadOf (raw : List UInt8) (cipher : CipherAlgorithm) (body : List UInt8) : HeaderPayload where
  cipher
  kdfProfile := raw.getD 65 0
  numPasswordSlots := raw.getD 66 0
  numKeySlots := raw.getD 67 0
  outerSlots := ofLe64 (sub body 16 8)
  hiddenStart := ofLe64 (sub body 24 8)
  rootSlot := ofLe64 (sub body 32 8)
  createdAt := ofLe64 (sub body 40 8)
  label := toBytes 64 (sub body 48 64)
  containerId := toBytes 16 (sub body 112 16)

def decodeHeader (raw : List UInt8) (kMaster : Key) (cipher : CipherAlgorithm) (isHidden : Bool) :
    Except VnmError HeaderPayload :=
  match decryptBlock P kMaster cipher (headerAad isHidden)
      (sub raw bodyOffset (encBodySize cipher)) with
  | .error _ => .error .authenticationFailed
  | .ok body =>
    if body.length < 112 then .error (.invalidFormat "header body too short")
    else if body.take 4 ≠ magic then .error .authenticationFailed
    else .ok (payloadOf raw cipher body)

/-- The unauthenticated plaintext fields: KDF profile and slot counts. -/
def readHeaderPlaintext (raw : List UInt8) : UInt8 × UInt8 × UInt8 :=
  (raw.getD 65 0, raw.getD 66 0, raw.getD 67 0)

/-! ## Decoding inverts encoding -/

theorem encBodySize_eq (cipher : CipherAlgorithm) : encBodySize cipher = bodyAvailable := by
  cases cipher <;> rfl

theorem length_headerPrefix (salt : Bytes saltLen) (p : HeaderPayload) :
    (headerPrefix salt p).length = bodyOffset := by
  rw [headerPrefix, List.length_append, List.Vector.toList_length]
  rfl

theorem length_headerBody (version : Nat) (p : HeaderPayload) :
    (headerBody version p).length = 128 := by
  simp [headerBody, le64, magic]

theorem headerBody_le_bodyLen (cipher : CipherAlgorithm) : 128 ≤ bodyLen cipher := by
  cases cipher <;> decide

theorem ofLe64_le64 (n : UInt64) : ofLe64 (le64 n) = n := by
  rw [ofLe64, le64, ofLittleEndian_u64 n.toNat_lt, UInt64.ofNat_toNat]

/-- The plaintext bytes of a header. -/
theorem getD_headerPrefix (salt : Bytes saltLen) (p : HeaderPayload) (rest : List UInt8) :
    (headerPrefix salt p ++ rest).getD 65 0 = p.kdfProfile ∧
      (headerPrefix salt p ++ rest).getD 66 0 = p.numPasswordSlots ∧
      (headerPrefix salt p ++ rest).getD 67 0 = p.numKeySlots := by
  obtain ⟨l, hl⟩ := salt
  have hget : ∀ i, (l ++ [0, p.kdfProfile, p.numPasswordSlots, p.numKeySlots] ++ rest).getD (64 + i) 0 =
      ([0, p.kdfProfile, p.numPasswordSlots, p.numKeySlots] ++ rest).getD i 0 := by
    intro i
    have hsalt : l.length = 64 := hl
    rw [List.append_assoc, List.getD_eq_getElem?_getD, List.getElem?_append_right (by omega), hsalt,
      Nat.add_sub_cancel_left, List.getD_eq_getElem?_getD]
  exact ⟨hget 1, hget 2, hget 3⟩

theorem readHeaderPlaintext_prefix (salt : Bytes saltLen) (p : HeaderPayload) (rest : List UInt8) :
    readHeaderPlaintext (headerPrefix salt p ++ rest) =
      (p.kdfProfile, p.numPasswordSlots, p.numKeySlots) := by
  obtain ⟨h1, h2, h3⟩ := getD_headerPrefix salt p rest
  rw [readHeaderPlaintext, h1, h2, h3]

theorem payloadOf_headerBody {p : HeaderPayload} {cipher : CipherAlgorithm} {salt : Bytes saltLen}
    {rest pad : List UInt8} {version : Nat} (hcipher : p.cipher = cipher) :
    payloadOf (headerPrefix salt p ++ rest) cipher (headerBody version p ++ pad) = p := by
  obtain ⟨hkdf, hpw, hkey⟩ := getD_headerPrefix salt p rest
  have hslots : sub (headerBody version p ++ pad) 16 8 = le64 p.outerSlots := by
    apply @sub_field _ (magic ++ littleEndian 4 version ++ littleEndian 8 dataAreaOffset) _
      (le64 p.hiddenStart ++ le64 p.rootSlot ++ le64 p.createdAt ++ p.label.toList ++
        p.containerId.toList ++ pad) <;> simp [headerBody, le64, magic]
  have hhid : sub (headerBody version p ++ pad) 24 8 = le64 p.hiddenStart := by
    apply @sub_field _ (magic ++ littleEndian 4 version ++ littleEndian 8 dataAreaOffset ++
        le64 p.outerSlots) _
      (le64 p.rootSlot ++ le64 p.createdAt ++ p.label.toList ++ p.containerId.toList ++ pad) <;>
      simp [headerBody, le64, magic]
  have hroot : sub (headerBody version p ++ pad) 32 8 = le64 p.rootSlot := by
    apply @sub_field _ (magic ++ littleEndian 4 version ++ littleEndian 8 dataAreaOffset ++
        le64 p.outerSlots ++ le64 p.hiddenStart) _
      (le64 p.createdAt ++ p.label.toList ++ p.containerId.toList ++ pad) <;>
      simp [headerBody, le64, magic]
  have hcreated : sub (headerBody version p ++ pad) 40 8 = le64 p.createdAt := by
    apply @sub_field _ (magic ++ littleEndian 4 version ++ littleEndian 8 dataAreaOffset ++
        le64 p.outerSlots ++ le64 p.hiddenStart ++ le64 p.rootSlot) _
      (p.label.toList ++ p.containerId.toList ++ pad) <;> simp [headerBody, le64, magic]
  have hlabel : sub (headerBody version p ++ pad) 48 64 = p.label.toList := by
    apply @sub_field _ (magic ++ littleEndian 4 version ++ littleEndian 8 dataAreaOffset ++
        le64 p.outerSlots ++ le64 p.hiddenStart ++ le64 p.rootSlot ++ le64 p.createdAt) _
      (p.containerId.toList ++ pad) <;> simp [headerBody, le64, magic]
  have hid : sub (headerBody version p ++ pad) 112 16 = p.containerId.toList := by
    apply @sub_field _ (magic ++ littleEndian 4 version ++ littleEndian 8 dataAreaOffset ++
        le64 p.outerSlots ++ le64 p.hiddenStart ++ le64 p.rootSlot ++ le64 p.createdAt ++
        p.label.toList) _ pad <;> simp [headerBody, le64, magic]
  subst hcipher
  rw [payloadOf, hkdf, hpw, hkey, hslots, hhid, hroot, hcreated, hlabel, hid]
  simp only [ofLe64_le64, toBytes_toList]

/-- 512 bytes that decode to a payload, with the same plaintext fields. -/
structure IsHeader (kMaster : Key) (isHidden : Bool) (payload : HeaderPayload) (raw : List UInt8) :
    Prop where
  length : raw.length = headerSize
  plaintext : readHeaderPlaintext raw =
    (payload.kdfProfile, payload.numPasswordSlots, payload.numKeySlots)
  decode : decodeHeader P raw kMaster payload.cipher isHidden = .ok payload

/-- The sealed body is rejected under all ciphers but one. -/
def OnlyCipher (k : Key) (isHidden : Bool) (cipher : CipherAlgorithm)
    (raw : List UInt8) : Prop :=
  ∀ c, c ≠ cipher → (decodeHeader P raw k c isHidden).toOption = none

section Encoding

variable {P}
variable {payload : HeaderPayload} {kMaster : Key} {isHidden : Bool} {w w' : World}
  {header : List UInt8}

/-- A body whose sealed length is what the decoder slices. -/
structure SealedBody (P : Primitives) (key : Key) (isHidden : Bool) (payload : HeaderPayload)
    (version blen : Nat) (enc : List UInt8) : Prop where
  room : 128 ≤ blen
  fits : vnmbOverhead payload.cipher + blen = bodyAvailable
  sealed : ∃ w w', (encryptBlock P key payload.cipher (headerAad isHidden)
    (padTo blen (headerBody version payload))).run w = .ok enc w'

namespace SealedBody

variable {key : Key} {version blen : Nat} {enc : List UInt8} {salt : Bytes saltLen}

theorem length_body (h : SealedBody P key isHidden payload version blen enc) :
    (padTo blen (headerBody version payload)).length = blen :=
  length_padTo (by rw [length_headerBody]; exact h.room)

theorem length_enc (h : SealedBody P key isHidden payload version blen enc) :
    enc.length = bodyAvailable := by
  obtain ⟨w, w', henc⟩ := h.sealed
  rw [(encryptBlock_ok henc).2.1, h.length_body, h.fits]

/-- Prefix and body fill the header. -/
theorem header_eq (h : SealedBody P key isHidden payload version blen enc) :
    padTo headerSize (headerPrefix salt payload ++ enc) = headerPrefix salt payload ++ enc ∧
      (headerPrefix salt payload ++ enc).length = headerSize := by
  have hfull : (headerPrefix salt payload ++ enc).length = headerSize := by
    rw [List.length_append, length_headerPrefix, h.length_enc]
    rfl
  refine ⟨?_, hfull⟩
  rw [padTo, hfull, Nat.sub_self, List.replicate_zero, List.append_nil]

theorem sub_body (h : SealedBody P key isHidden payload version blen enc) (cipher : CipherAlgorithm) :
    sub (headerPrefix salt payload ++ enc) bodyOffset (encBodySize cipher) = enc := by
  rw [encBodySize_eq]
  exact @sub_field _ _ _ [] _ _ (by rw [List.append_nil])
    (length_headerPrefix salt payload) h.length_enc

theorem decode (h : SealedBody P key isHidden payload version blen enc) :
    decodeHeader P (headerPrefix salt payload ++ enc) key payload.cipher isHidden = .ok payload := by
  obtain ⟨w, w', henc⟩ := h.sealed
  have hroom := h.room
  have hplain := (encryptBlock_ok henc).2.2 fun _ hnil => by
    have hlen := h.length_body
    rw [hnil, List.length_nil] at hlen
    omega
  have htake : (padTo blen (headerBody version payload)).take 4 = magic := rfl
  have hlong : ¬ (padTo blen (headerBody version payload)).length < 112 := by
    rw [h.length_body]
    omega
  rw [decodeHeader, h.sub_body, hplain]
  dsimp only
  rw [if_neg hlong, if_neg (by rw [htake]; simp)]
  rw [padTo, payloadOf_headerBody rfl]

end SealedBody

/-- The body of `encode_header`. -/
theorem encodeHeader_sealed (h : (encodeHeader P payload kMaster isHidden).run w = .ok header w') :
    w.OnlyDrew w' ∧ ∃ salt enc, header = padTo headerSize (headerPrefix salt payload ++ enc) ∧
      SealedBody P kMaster isHidden payload formatVersion (bodyLen payload.cipher) enc := by
  unfold encodeHeader at h
  obtain ⟨salt, w₁, hdraw, h₁⟩ := run_bind_ok.mp h
  obtain ⟨enc, w₂, henc, h₂⟩ := run_bind_ok.mp h₁
  cases h₂
  refine ⟨(fillBytes_ok hdraw).2.trans (encryptBlock_ok henc).1, salt, enc, rfl,
    headerBody_le_bodyLen _, encBodySize_eq payload.cipher, _, _, henc⟩

theorem encodeHeader_took (h : (encodeHeader P payload kMaster isHidden).run w = .ok header w') :
    World.Took (saltLen + nonceSectionLen payload.cipher) w w' := by
  unfold encodeHeader at h
  obtain ⟨salt, w₁, hdraw, h₁⟩ := run_bind_ok.mp h
  obtain ⟨enc, w₂, henc, h₂⟩ := run_bind_ok.mp h₁
  cases h₂
  exact (fillBytes_took hdraw).trans (encryptBlock_took henc)

/-- An encoded header: 512 bytes that decode to the payload under the payload's cipher. -/
theorem encodeHeader_ok (h : (encodeHeader P payload kMaster isHidden).run w = .ok header w') :
    w.OnlyDrew w' ∧ header.length = headerSize ∧
      readHeaderPlaintext header =
        (payload.kdfProfile, payload.numPasswordSlots, payload.numKeySlots) ∧
      decodeHeader P header kMaster payload.cipher isHidden = .ok payload := by
  obtain ⟨hdrew, salt, enc, rfl, hbody⟩ := encodeHeader_sealed h
  obtain ⟨hpad, hfull⟩ := hbody.header_eq
  rw [hpad]
  exact ⟨hdrew, hfull, readHeaderPlaintext_prefix _ _ _, hbody.decode⟩

theorem encodeHeader_isOk : ∃ header w', (encodeHeader P payload kMaster isHidden).run w =
    .ok header w' := by
  have hbody : (headerBody formatVersion payload).length ≤ bodyLen payload.cipher := by
    rw [length_headerBody]; exact headerBody_le_bodyLen _
  have hlen : (padTo (bodyLen payload.cipher) (headerBody formatVersion payload)).length +
      (headerAad isHidden).length + 32 < 2 ^ 36 := by
    rw [length_padTo hbody]
    have hle : bodyLen payload.cipher ≤ bodyAvailable := Nat.sub_le _ _
    have haad : (headerAad isHidden).length ≤ 20 := by cases isHidden <;> decide
    have : bodyAvailable = 444 := rfl
    omega
  obtain ⟨w₁, hdraw, -⟩ := fillBytes_run (ε := VnmError) saltLen w
  obtain ⟨enc, w₂, henc⟩ := @encryptBlock_isOk P kMaster payload.cipher _ _ w₁ hlen
  unfold encodeHeader
  rw [run_bind_of_ok hdraw]
  dsimp only
  rw [run_bind_of_ok henc]
  exact ⟨_, _, rfl⟩

theorem encodeHeader_isHeader (h : (encodeHeader P payload kMaster isHidden).run w = .ok header w') :
    w.OnlyDrew w' ∧ IsHeader P kMaster isHidden payload header := by
  obtain ⟨hdrew, hlen, hplain, hdecode⟩ := encodeHeader_ok h
  exact ⟨hdrew, hlen, hplain, hdecode⟩

/-- The steps of `encode_header_with_password`. -/
theorem encodeHeaderWithPassword_sealed {password : List UInt8}
    (h : (encodeHeaderWithPassword P payload password isHidden).run w = .ok header w') :
    w.OnlyDrew w' ∧ ∃ key enc,
      passwordKey P password (w.drawn saltLen).toList payload.kdfProfile = .ok key ∧
      (∃ v v', (encryptBlock P key payload.cipher (headerAad isHidden)
        (padTo defaultBodyLen (headerBody 3 payload))).run v = .ok enc v') ∧
      bodyOffset + enc.length ≤ headerSize ∧
      header = padTo headerSize (headerPrefix (w.drawn saltLen) payload ++ enc) := by
  unfold encodeHeaderWithPassword at h
  obtain ⟨salt, w₁, hdraw, h₁⟩ := run_bind_ok.mp h
  obtain ⟨key, w₂, hthrow, h₂⟩ := run_bind_ok.mp h₁
  obtain ⟨hkey, rfl⟩ := orThrow_ok.mp (fallible_ok.mp hthrow)
  obtain ⟨enc, w₃, henc, h₃⟩ := run_bind_ok.mp h₂
  have hdrew := (encryptBlock_ok (fallible_ok.mp henc)).1
  by_cases hfits : bodyOffset + enc.length ≤ headerSize
  · rw [if_pos hfits] at h₃
    cases h₃
    cases (fillBytes_ok hdraw).1
    exact ⟨(fillBytes_ok hdraw).2.trans hdrew, key, enc, hkey, ⟨_, _, fallible_ok.mp henc⟩, hfits, rfl⟩
  · rw [if_neg hfits] at h₃
    cases h₃

/-- The hidden header with its salt: 512 bytes, with the counts in the plaintext. -/
theorem encodeHeaderWithPassword_ok {password : List UInt8}
    (h : (encodeHeaderWithPassword P payload password isHidden).run w = .ok header w') :
    w.OnlyDrew w' ∧ header.length = headerSize ∧ readHeaderPlaintext header =
      (payload.kdfProfile, payload.numPasswordSlots, payload.numKeySlots) := by
  obtain ⟨hdrew, key, enc, -, -, hfits, rfl⟩ := encodeHeaderWithPassword_sealed h
  refine ⟨hdrew, length_padTo ?_, ?_⟩
  · rw [List.length_append, length_headerPrefix]
    exact hfits
  · rw [padTo, List.append_assoc, readHeaderPlaintext_prefix]

/-- With a key for the drawn salt the body is sealed, and it is left to see whether it fits. -/
theorem encodeHeaderWithPassword_run {password : List UInt8}
    (hkey : ∃ key, passwordKey P password (w.drawn saltLen).toList payload.kdfProfile = .ok key) :
    ∃ enc w', enc.length = defaultBodyLen + vnmbOverhead payload.cipher ∧
      (encodeHeaderWithPassword P payload password isHidden).run w =
        (if bodyOffset + enc.length ≤ headerSize then
          pure (padTo headerSize (headerPrefix (w.drawn saltLen) payload ++ enc))
        else throw (.panic "range end index out of range for slice of length 512") :
          EStateM Fault World (List UInt8)).run w' := by
  have hbody : (padTo defaultBodyLen (headerBody 3 payload)).length = defaultBodyLen :=
    length_padTo (by rw [length_headerBody]; decide)
  have hlen : (padTo defaultBodyLen (headerBody 3 payload)).length + (headerAad isHidden).length +
      32 < 2 ^ 36 := by
    have haad : (headerAad isHidden).length ≤ 20 := by cases isHidden <;> decide
    have : defaultBodyLen = 396 := rfl
    omega
  obtain ⟨key, hkey⟩ := hkey
  obtain ⟨enc, w', henc⟩ := @encryptBlock_isOk P key payload.cipher _ _ (w.skip saltLen) hlen
  have hthrow : (fallible (orThrow (passwordKey P password (w.drawn saltLen).toList
      payload.kdfProfile))).run (w.skip saltLen) = .ok key (w.skip saltLen) :=
    fallible_ok.mpr (orThrow_ok.mpr ⟨hkey, rfl⟩)
  refine ⟨enc, w', by rw [(encryptBlock_ok henc).2.1, hbody, Nat.add_comm], ?_⟩
  unfold encodeHeaderWithPassword
  rw [run_bind_of_ok (fillBytes_eq saltLen w)]
  dsimp only
  rw [run_bind_of_ok hthrow, run_bind_of_ok (fallible_ok.mpr henc)]

/-- The hidden header is encoded when the password has a key and the body fits. -/
theorem encodeHeaderWithPassword_isOk {password : List UInt8}
    (hkey : ∃ key, passwordKey P password (w.drawn saltLen).toList payload.kdfProfile = .ok key)
    (hcipher : payload.cipher ≠ .triple) :
    ∃ header w', (encodeHeaderWithPassword P payload password isHidden).run w = .ok header w' := by
  obtain ⟨enc, w', hlen, hrun⟩ := @encodeHeaderWithPassword_run P payload isHidden w password hkey
  have hfits : bodyOffset + enc.length ≤ headerSize := by
    rw [hlen]
    cases hc : payload.cipher with
    | triple => exact absurd hc hcipher
    | xchacha20Poly1305 | deoxysII256 | serpent256 => decide
  rw [hrun, if_pos hfits]
  exact ⟨_, _, rfl⟩

/-- Under Triple the body does not fit, and the copy into the header panics. -/
theorem encodeHeaderWithPassword_triple {password : List UInt8}
    (hkey : ∃ key, passwordKey P password (w.drawn saltLen).toList payload.kdfProfile = .ok key)
    (hcipher : payload.cipher = .triple) : ∃ message w',
      (encodeHeaderWithPassword P payload password isHidden).run w = .error (.panic message) w' := by
  obtain ⟨enc, w', hlen, hrun⟩ := @encodeHeaderWithPassword_run P payload isHidden w password hkey
  have hlarge : ¬ bodyOffset + enc.length ≤ headerSize := by
    rw [hlen, hcipher]
    decide
  rw [hrun, if_neg hlarge]
  exact ⟨_, _, rfl⟩

end Encoding

end Venom.Container
