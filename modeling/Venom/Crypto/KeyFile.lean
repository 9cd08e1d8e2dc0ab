import Venom.Library.Utf8Lossy
import Venom.Storage.VaultFs
import Venom.Container.Header
import Venom.Crypto.Rejection

/-! # Key files

A `.key` file holds a key pair, a `.pub` file its public half.  Both start with the same
header, whose fields are plaintext; in a `.key` file a byte behind it says whether the
private half follows in plaintext or sealed under a passphrase.

A file that was encoded is decoded to what went in, by every decoder of its kind; the
decoders of the other kind reject it.
-/

namespace Venom.Crypto.KeyFile

open Venom.Container (CipherAlgorithm ascii le64 ofLe64 ofLe64_le64 toList_toBytes_eq)
open Venom.Storage (utf8)
open Venom.Library.Words
open Venom.Library.StateError
open Venom.Library.Utf8Lossy

-- the hash of a byte string comes from another crate too
variable (P : Primitives) (blake3 : List UInt8 → Bytes 32)

def keyMagic : List UInt8 := [0x56, 0x4B, 0x45, 0x59]

def pubMagic : List UInt8 := [0x56, 0x50, 0x55, 0x42]

def fileVersion : Nat := 1

/-- The cipher of the private half. -/
def cipher : CipherAlgorithm := .xchacha20Poly1305

def protectAad : List UInt8 := ascii "vnm:key:protect:v1"

def offX25519Pk : Nat := 88

def offMlkemEk : Nat := 120

def offProtected : Nat := 1688

def offPrivStart : Nat := 1689

/-- The size of the sealed private half. -/
def encPrivSize : Nat := 144

def keyFileSize : Nat := offPrivStart + 32 + 64

def keyFileProtectedSize : Nat := offPrivStart + 64 + 1 + encPrivSize

def pubFileSize : Nat := 88 + 32 + ekSize

/-- The source's `HybridPrivateKey`: its public half is a field of its own, and need not
    belong to the private one. -/
structure KeyPair extends HybridPrivateKey where
  cached : HybridPublicKey
  deriving DecidableEq

structure KeyFileData where
  label : String
  createdAt : UInt64
  key : KeyPair
  isProtected : Bool
  deriving DecidableEq

/-- What a `.key` file says without its passphrase. -/
structure KeyPublicData where
  label : String
  createdAt : UInt64
  publicKey : HybridPublicKey
  isProtected : Bool
  deriving DecidableEq

structure PubFileData where
  label : String
  createdAt : UInt64
  publicKey : HybridPublicKey
  deriving DecidableEq

/-! ## Encoding -/

def labelBytes (s : String) : Bytes 64 := toBytes 64 (utf8 s)

def labelStr (raw : Bytes 64) : String := fromUtf8Lossy (raw.toList.takeWhile (· ≠ 0))

/-- The first eight bytes of the hash of both public keys. -/
def fingerprint (key : HybridPublicKey) : List UInt8 :=
  (blake3 (key.x25519Pk.toList ++ key.mlkemEk.toList)).toList.take 8

def writePublicHeader (magic : List UInt8) (key : HybridPublicKey) (label : String)
    (createdAt : UInt64) : List UInt8 :=
  magic ++ littleEndian 4 fileVersion ++ le64 createdAt ++ (labelBytes label).toList ++
    fingerprint blake3 key ++ key.x25519Pk.toList ++ key.mlkemEk.toList

/-- The private half: both secrets, one behind the other. -/
def privateBytes (key : HybridPrivateKey) : List UInt8 :=
  key.x25519Sk.toList ++ key.mlkemSeed.toList

/-- Encode an unprotected key pair at a time. -/
def encodeKeyFile (now : UInt64) (key : KeyPair) (label : String) : List UInt8 :=
  writePublicHeader blake3 keyMagic key.cached label now ++ [0] ++ privateBytes key.toHybridPrivateKey

/-- Encode a key pair protected by a passphrase. -/
def encodeKeyFileProtected (key : KeyPair) (label : String) (passphrase : List UInt8)
    (kdfProfile : UInt8) : WorldM (List UInt8) := do
  let now := (← get).now
  let header := writePublicHeader blake3 keyMagic key.cached label now ++ [1]
  let salt ← fillBytes 64
  let encKey ← orThrow (passwordKey P passphrase salt.toList kdfProfile)
  let enc ← encryptBlock P encKey cipher protectAad (privateBytes key.toHybridPrivateKey)
  pure (header ++ salt.toList ++ [kdfProfile] ++ enc)

def encodePubFile (pubKey : HybridPublicKey) (label : String) (createdAt : UInt64) : List UInt8 :=
  writePublicHeader blake3 pubMagic pubKey label createdAt

/-! ## Decoding -/

/-- Read what needs no passphrase. -/
def readPublicFromKeyBytes (data : List UInt8) : Except VnmError KeyPublicData :=
  if data.length < offPrivStart then .error (.invalidFormat "key file too short")
  else if sub data 0 4 ≠ keyMagic then .error (.invalidFormat "not a Venom .key file")
  else
    .ok
      { label := labelStr (toBytes 64 (sub data 16 64))
        createdAt := ofLe64 (sub data 8 8)
        publicKey :=
          { x25519Pk := toBytes 32 (sub data offX25519Pk 32)
            mlkemEk := toBytes 1568 (sub data offMlkemEk ekSize) }
        isProtected := decide (data.getD offProtected 0 ≠ 0) }

/-- Decode an unprotected key pair. -/
def decodeKeyFile (data : List UInt8) : Except VnmError KeyFileData := do
  let pubData ← readPublicFromKeyBytes data
  let len := data.length
  if pubData.isProtected then .error .authenticationFailed
  else if len < keyFileSize then
    .error (.invalidFormat s!".key file too short for unprotected ({len} B, expected {keyFileSize})")
  else
    .ok
      { label := pubData.label
        createdAt := pubData.createdAt
        isProtected := false
        key :=
          { x25519Sk := toBytes 32 (sub data offPrivStart 32)
            mlkemSeed := toBytes 64 (sub data (offPrivStart + 32) 64)
            cached := pubData.publicKey } }

/-- Decode a key pair, protected or not; for an unprotected one the passphrase is ignored. -/
def decodeKeyFileWithPassphrase (data passphrase : List UInt8) : Except VnmError KeyFileData := do
  let pubData ← readPublicFromKeyBytes data
  let len := data.length
  if ¬ pubData.isProtected then decodeKeyFile data
  else if len < keyFileProtectedSize then
    .error (.invalidFormat
      s!".key file too short for protected ({len} B, expected {keyFileProtectedSize})")
  else do
    let encKey ← passwordKey P passphrase (sub data offPrivStart 64)
      (data.getD (offPrivStart + 64) 0)
    match decryptBlock P encKey cipher protectAad (data.drop (offPrivStart + 65)) with
    | .error _ => .error .authenticationFailed
    | .ok plain =>
      if plain.length < 96 then .error (.invalidFormat "decrypted private key too short")
      else
        .ok
          { label := pubData.label
            createdAt := pubData.createdAt
            isProtected := true
            key :=
              { x25519Sk := toBytes 32 (sub plain 0 32)
                mlkemSeed := toBytes 64 (sub plain 32 64)
                cached := pubData.publicKey } }

def decodePubFile (data : List UInt8) : Except VnmError PubFileData :=
  let len := data.length
  if len < pubFileSize then
    .error (.invalidFormat s!".pub file too short ({len} B, expected {pubFileSize})")
  else if sub data 0 4 ≠ pubMagic then .error (.invalidFormat "not a Venom .pub file")
  else
    .ok
      { label := labelStr (toBytes 64 (sub data 16 64))
        createdAt := ofLe64 (sub data 8 8)
        publicKey :=
          { x25519Pk := toBytes 32 (sub data 88 32)
            mlkemEk := toBytes 1568 (sub data 120 ekSize) } }

/-! ## The public part -/

/-- A label that a file can hold: at most 64 bytes, and none of them zero. -/
structure LabelFits (label : String) : Prop where
  short : (utf8 label).length ≤ 64
  text : (0 : UInt8) ∉ utf8 label

theorem labelStr_labelBytes {label : String} (h : LabelFits label) :
    labelStr (labelBytes label) = label := by
  rw [labelStr, labelBytes, toList_toBytes_eq h.short, takeWhile_padTo h.text]
  exact fromUtf8Lossy_toUTF8 label

section Header

variable {blake3}
variable {magic rest : List UInt8} {key : HybridPublicKey} {label : String} {createdAt : UInt64}

theorem length_fingerprint : (fingerprint blake3 key).length = 8 := by
  rw [fingerprint, List.length_take, List.Vector.toList_length]
  rfl

theorem length_writePublicHeader (hmagic : magic.length = 4) :
    (writePublicHeader blake3 magic key label createdAt).length = pubFileSize := by
  simp [writePublicHeader, le64, hmagic, length_fingerprint, pubFileSize, ekSize]

/-- Where a decoder finds the fields of the header. -/
structure PublicFields (magic : List UInt8) (key : HybridPublicKey) (label : String)
    (createdAt : UInt64) (data : List UInt8) : Prop where
  magic : sub data 0 4 = magic
  createdAt : ofLe64 (sub data 8 8) = createdAt
  label : toBytes 64 (sub data 16 64) = labelBytes label
  x25519Pk : toBytes 32 (sub data 88 32) = key.x25519Pk
  mlkemEk : toBytes 1568 (sub data 120 ekSize) = key.mlkemEk

/-- Every field stands where it is read. -/
theorem publicFields (hmagic : magic.length = 4) :
    PublicFields magic key label createdAt
      (writePublicHeader blake3 magic key label createdAt ++ rest) := by
  have htime : sub (writePublicHeader blake3 magic key label createdAt ++ rest) 8 8 =
      le64 createdAt := by
    apply @sub_field _ (magic ++ littleEndian 4 fileVersion) _ ((labelBytes label).toList ++
      fingerprint blake3 key ++ key.x25519Pk.toList ++ key.mlkemEk.toList ++ rest) <;>
      simp [writePublicHeader, le64, hmagic]
  have hlabel : sub (writePublicHeader blake3 magic key label createdAt ++ rest) 16 64 =
      (labelBytes label).toList := by
    apply @sub_field _ (magic ++ littleEndian 4 fileVersion ++ le64 createdAt) _
      (fingerprint blake3 key ++ key.x25519Pk.toList ++ key.mlkemEk.toList ++ rest) <;>
      simp [writePublicHeader, le64, hmagic]
  have hx : sub (writePublicHeader blake3 magic key label createdAt ++ rest) 88 32 =
      key.x25519Pk.toList := by
    apply @sub_field _ (magic ++ littleEndian 4 fileVersion ++ le64 createdAt ++
      (labelBytes label).toList ++ fingerprint blake3 key) _ (key.mlkemEk.toList ++ rest) <;>
      simp [writePublicHeader, le64, hmagic, length_fingerprint]
  have hek : sub (writePublicHeader blake3 magic key label createdAt ++ rest) 120 ekSize =
      key.mlkemEk.toList := by
    apply @sub_field _ (magic ++ littleEndian 4 fileVersion ++ le64 createdAt ++
      (labelBytes label).toList ++ fingerprint blake3 key ++ key.x25519Pk.toList) _ rest <;>
      simp [writePublicHeader, le64, hmagic, length_fingerprint, ekSize]
  refine ⟨?_, ?_, ?_, ?_, ?_⟩
  · apply @sub_field _ [] _ (littleEndian 4 fileVersion ++ le64 createdAt ++
      (labelBytes label).toList ++ fingerprint blake3 key ++ key.x25519Pk.toList ++
      key.mlkemEk.toList ++ rest) <;> simp [writePublicHeader, hmagic]
  · rw [htime, ofLe64_le64]
  · rw [hlabel, toBytes_toList]
  · rw [hx, toBytes_toList]
  · rw [hek, toBytes_toList]

end Header

/-- A `.key` file: the header, the byte that says whether the rest is protected, the rest. -/
def keyFile (t : UInt64) (key : HybridPublicKey) (label : String) (mark : UInt8)
    (rest : List UInt8) : List UInt8 :=
  writePublicHeader blake3 keyMagic key label t ++ ([mark] ++ rest)

section KeyFile

variable {P} {blake3}
variable {rest : List UInt8} {key : KeyPair} {pk : HybridPublicKey} {label : String}
  {t now : UInt64} {mark : UInt8}

theorem length_keyFile : (keyFile blake3 t pk label mark rest).length = offPrivStart + rest.length := by
  rw [keyFile, List.length_append, length_writePublicHeader rfl]
  simp only [List.length_append, List.length_singleton, pubFileSize, ekSize, offPrivStart]
  omega

theorem getD_keyFile (i : Nat) :
    (keyFile blake3 t pk label mark rest).getD (offProtected + i) 0 = ([mark] ++ rest).getD i 0 := by
  have hlen : (writePublicHeader blake3 keyMagic pk label t).length = offProtected :=
    length_writePublicHeader rfl
  rw [keyFile, List.getD_eq_getElem?_getD, List.getElem?_append_right (by omega), hlen,
    Nat.add_sub_cancel_left, List.getD_eq_getElem?_getD]

theorem drop_keyFile (i : Nat) :
    (keyFile blake3 t pk label mark rest).drop (offPrivStart + i) = rest.drop i := by
  have hlen : (writePublicHeader blake3 keyMagic pk label t ++ [mark]).length = offPrivStart := by
    rw [List.length_append, length_writePublicHeader rfl]
    rfl
  rw [keyFile, ← List.append_assoc, ← hlen, List.drop_length_add_append]

theorem sub_keyFile (i n : Nat) :
    sub (keyFile blake3 t pk label mark rest) (offPrivStart + i) n = sub rest i n := by
  rw [sub, drop_keyFile]
  rfl

/-- What the public part of a `.key` file is read as. -/
theorem readPublic_keyFile (hlabel : LabelFits label) :
    readPublicFromKeyBytes (keyFile blake3 t pk label mark rest) =
      .ok { label, createdAt := t, publicKey := pk, isProtected := decide (mark ≠ 0) } := by
  have hfields : PublicFields keyMagic pk label t (keyFile blake3 t pk label mark rest) :=
    publicFields rfl
  have hlen : ¬ (keyFile blake3 t pk label mark rest).length < offPrivStart := by
    rw [length_keyFile]
    omega
  have hmark : (keyFile blake3 t pk label mark rest).getD offProtected 0 = mark := getD_keyFile 0
  unfold readPublicFromKeyBytes
  rw [if_neg hlen, if_neg (not_not_intro hfields.magic), hfields.label, hfields.createdAt, hmark,
    labelStr_labelBytes hlabel]
  exact congrArg₂ (fun x ek => Except.ok (KeyPublicData.mk label t ⟨x, ek⟩ (decide (mark ≠ 0))))
    hfields.x25519Pk hfields.mlkemEk

/-! ## Unprotected files -/

theorem encodeKeyFile_eq : encodeKeyFile blake3 now key label =
    keyFile blake3 now key.cached label 0 (privateBytes key.toHybridPrivateKey) :=
  List.append_assoc _ _ _

theorem length_privateBytes (sk : HybridPrivateKey) : (privateBytes sk).length = 96 := by
  rw [privateBytes, List.length_append, List.Vector.toList_length, List.Vector.toList_length]

/-- The private half as a decoder takes it apart. -/
theorem privateBytes_parts (sk : HybridPrivateKey) :
    toBytes 32 (sub (privateBytes sk) 0 32) = sk.x25519Sk ∧
      toBytes 64 (sub (privateBytes sk) 32 64) = sk.mlkemSeed := by
  have hsk : sub (privateBytes sk) 0 32 = sk.x25519Sk.toList :=
    sub_append_left sk.x25519Sk.toList_length _
  have hseed : sub (privateBytes sk) 32 64 = sk.mlkemSeed.toList := by
    apply @sub_field _ sk.x25519Sk.toList _ [] <;> simp [privateBytes]
  rw [hsk, hseed, toBytes_toList, toBytes_toList]
  exact ⟨rfl, rfl⟩

theorem decodeKeyFile_encoded (hlabel : LabelFits label) :
    decodeKeyFile (encodeKeyFile blake3 now key label) =
      .ok { label, createdAt := now, key, isProtected := false } := by
  have hlen : ¬ (encodeKeyFile blake3 now key label).length < keyFileSize := by
    rw [encodeKeyFile_eq, length_keyFile, length_privateBytes]
    decide
  have hread : readPublicFromKeyBytes (encodeKeyFile blake3 now key label) =
      .ok { label, createdAt := now, publicKey := key.cached, isProtected := false } := by
    rw [encodeKeyFile_eq]
    exact readPublic_keyFile hlabel
  obtain ⟨hsk, hseed⟩ := privateBytes_parts key.toHybridPrivateKey
  unfold decodeKeyFile
  rw [except_bind_of_ok hread, if_neg Bool.false_ne_true, if_neg hlen, encodeKeyFile_eq, sub_keyFile,
    ← Nat.add_zero offPrivStart, sub_keyFile, hsk, hseed]

/-- An unprotected file needs no passphrase. -/
theorem decodeWithPassphrase_encoded (hlabel : LabelFits label) (passphrase : List UInt8) :
    decodeKeyFileWithPassphrase P (encodeKeyFile blake3 now key label) passphrase =
      .ok { label, createdAt := now, key, isProtected := false } := by
  have hread : readPublicFromKeyBytes (encodeKeyFile blake3 now key label) =
      .ok { label, createdAt := now, publicKey := key.cached, isProtected := false } := by
    rw [encodeKeyFile_eq]
    exact readPublic_keyFile hlabel
  unfold decodeKeyFileWithPassphrase
  rw [except_bind_of_ok hread, if_pos Bool.false_ne_true]
  exact decodeKeyFile_encoded hlabel

/-! ## Protected files -/

/-- What the encoder puts behind the header: a salt, a profile and the sealed private half. -/
structure SealedKey (P : Primitives) (blake3 : List UInt8 → Bytes 32) (key : KeyPair)
    (label : String) (passphrase : List UInt8) (kdfProfile : UInt8) (w : World)
    (data : List UInt8) (encKey : Key) (enc : List UInt8) : Prop where
  data : data = keyFile blake3 w.now key.cached label 1 ((w.drawn 64).toList ++ [kdfProfile] ++ enc)
  derived : passwordKey P passphrase (w.drawn 64).toList kdfProfile = .ok encKey
  length : enc.length = encPrivSize
  sealed : ∃ v v', (encryptBlock P encKey cipher protectAad (privateBytes key.toHybridPrivateKey)).run v =
    .ok enc v'

variable {passphrase : List UInt8} {kdfProfile : UInt8} {w w' : World} {data : List UInt8}

theorem encodeProtected_sealed
    (h : (encodeKeyFileProtected P blake3 key label passphrase kdfProfile).run w = .ok data w') :
    ∃ encKey enc, SealedKey P blake3 key label passphrase kdfProfile w data encKey enc := by
  unfold encodeKeyFileProtected at h
  obtain ⟨v, w₀, hget, h₁⟩ := run_bind_ok.mp h
  cases hget
  obtain ⟨salt, w₁, hdraw, h₂⟩ := run_bind_ok.mp h₁
  obtain ⟨rfl, -⟩ := fillBytes_ok hdraw
  obtain ⟨encKey, w₂, hthrow, h₃⟩ := run_bind_ok.mp h₂
  obtain ⟨hkey, rfl⟩ := orThrow_ok.mp hthrow
  obtain ⟨enc, w₃, henc, h₄⟩ := run_bind_ok.mp h₃
  cases h₄
  refine ⟨encKey, enc, ⟨?_, hkey, ?_, w₂, w', henc⟩⟩
  · simp only [keyFile, List.append_assoc]
  · rw [(encryptBlock_ok henc).2.1, length_privateBytes]
    decide

namespace SealedKey

variable {encKey k : Key} {enc : List UInt8} {q : List UInt8}

theorem read (h : SealedKey P blake3 key label passphrase kdfProfile w data encKey enc)
    (hlabel : LabelFits label) : readPublicFromKeyBytes data =
      .ok { label, createdAt := w.now, publicKey := key.cached, isProtected := true } := by
  rw [h.data]
  exact readPublic_keyFile hlabel

/-- The decoder goes on with the salt, the profile and the sealed block of the encoder. -/
theorem parts (h : SealedKey P blake3 key label passphrase kdfProfile w data encKey enc) :
    ¬ data.length < keyFileProtectedSize ∧ sub data offPrivStart 64 = (w.drawn 64).toList ∧
      data.getD (offPrivStart + 64) 0 = kdfProfile ∧ data.drop (offPrivStart + 65) = enc := by
  have hsalt : (w.drawn 64).toList.length = 64 := (w.drawn 64).toList_length
  rw [h.data]
  refine ⟨?_, ?_, ?_, ?_⟩
  · rw [length_keyFile, List.length_append, List.length_append, List.length_singleton, hsalt, h.length]
    decide
  · have hsub := @sub_keyFile blake3 ((w.drawn 64).toList ++ [kdfProfile] ++ enc) key.cached label w.now
      1 0 64
    rw [Nat.add_zero] at hsub
    rw [hsub, List.append_assoc, sub_append_left hsalt]
  · -- the profile is the 65th byte behind the protected byte
    have hget := @getD_keyFile blake3 ((w.drawn 64).toList ++ [kdfProfile] ++ enc) key.cached label
      w.now 1 65
    refine hget.trans ?_
    have hlen : ([1] ++ (w.drawn 64).toList).length = 65 := by
      rw [List.length_append, hsalt]
      rfl
    rw [← List.append_assoc, ← List.append_assoc, List.append_assoc _ [kdfProfile],
      List.getD_eq_getElem?_getD, List.getElem?_append_right (by omega), hlen]
    rfl
  · have hlen : ((w.drawn 64).toList ++ [kdfProfile]).length = 65 := by
      rw [List.length_append, hsalt]
      rfl
    rw [drop_keyFile, List.drop_left' hlen]

theorem decode (h : SealedKey P blake3 key label passphrase kdfProfile w data encKey enc)
    (hlabel : LabelFits label) : decodeKeyFileWithPassphrase P data passphrase =
      .ok { label, createdAt := w.now, key, isProtected := true } := by
  obtain ⟨hlen, hsalt, hprofile, hdrop⟩ := h.parts
  obtain ⟨v, v', henc⟩ := h.sealed
  have hdec : decryptBlock P encKey cipher protectAad enc =
      .ok (privateBytes key.toHybridPrivateKey) := (encryptBlock_ok henc).2.2 nofun
  obtain ⟨hsk, hseed⟩ := privateBytes_parts key.toHybridPrivateKey
  have hplain : ¬ (privateBytes key.toHybridPrivateKey).length < 96 := by
    rw [length_privateBytes]
    decide
  unfold decodeKeyFileWithPassphrase
  rw [except_bind_of_ok (h.read hlabel), if_neg (not_not_intro rfl), if_neg hlen, hsalt, hprofile, hdrop,
    except_bind_of_ok h.derived, hdec]
  dsimp only
  rw [if_neg hplain, hsk, hseed]

/-- Without a passphrase the file is not decoded. -/
theorem decode_bare (h : SealedKey P blake3 key label passphrase kdfProfile w data encKey enc)
    (hlabel : LabelFits label) : decodeKeyFile data = .error .authenticationFailed := by
  unfold decodeKeyFile
  rw [except_bind_of_ok (h.read hlabel), if_pos rfl]

/-- A passphrase whose key the cipher tells from the right one does not open the file. -/
theorem decode_other (h : SealedKey P blake3 key label passphrase kdfProfile w data encKey enc)
    (hlabel : LabelFits label) (hother : ∀ k, passwordKey P q (w.drawn 64).toList kdfProfile = .ok k →
      P.xchacha20Poly1305.SeparatesKeys encKey k) :
    ∃ e, decodeKeyFileWithPassphrase P data q = .error e := by
  obtain ⟨hlen, hsalt, hprofile, hdrop⟩ := h.parts
  obtain ⟨v, v', henc⟩ := h.sealed
  unfold decodeKeyFileWithPassphrase
  rw [except_bind_of_ok (h.read hlabel), if_neg (not_not_intro rfl), if_neg hlen, hsalt, hprofile, hdrop]
  cases hkey : passwordKey P q (w.drawn 64).toList kdfProfile with
  | error e => exact ⟨e, rfl⟩
  | ok k =>
    have hreject : decryptBlock P k cipher protectAad enc = .error .authenticationFailed :=
      decryptSingle_otherKey (hother k hkey) henc
    rw [except_bind_of_ok rfl, hreject]
    exact ⟨_, rfl⟩

end SealedKey

/-- The encoder fails only where no key is derived. -/
theorem encodeProtected_isOk {encKey : Key}
    (hkey : passwordKey P passphrase (w.drawn 64).toList kdfProfile = .ok encKey) :
    ∃ data w', (encodeKeyFileProtected P blake3 key label passphrase kdfProfile).run w = .ok data w' := by
  have hlen : (privateBytes key.toHybridPrivateKey).length + protectAad.length + 32 < 2 ^ 36 := by
    rw [length_privateBytes]
    decide
  obtain ⟨enc, w', henc⟩ := @encryptBlock_isOk P encKey cipher _ _ (w.skip 64) hlen
  unfold encodeKeyFileProtected
  rw [run_bind_of_ok (show (get : WorldM World).run w = .ok w w from rfl),
    run_bind_of_ok (fillBytes_eq 64 w), run_bind_of_ok (orThrow_ok.mpr ⟨hkey, rfl⟩),
    run_bind_of_ok henc]
  exact ⟨_, _, rfl⟩

/-! ## Files of the other kind -/

theorem decodePub_encoded (hlabel : LabelFits label) :
    decodePubFile (encodePubFile blake3 pk label t) = .ok { label, createdAt := t, publicKey := pk } := by
  have hfields : PublicFields pubMagic pk label t (encodePubFile blake3 pk label t) := by
    have := @publicFields blake3 pubMagic [] pk label t rfl
    rwa [List.append_nil] at this
  have hlen : ¬ (encodePubFile blake3 pk label t).length < pubFileSize := by
    rw [encodePubFile, length_writePublicHeader rfl]
    exact lt_irrefl _
  unfold decodePubFile
  dsimp only
  rw [if_neg hlen, if_neg (not_not_intro hfields.magic), hfields.label, hfields.createdAt,
    labelStr_labelBytes hlabel, hfields.x25519Pk, hfields.mlkemEk]

/-- A `.pub` file is one byte too short for a `.key` file. -/
theorem readPublic_pub :
    readPublicFromKeyBytes (encodePubFile blake3 pk label t) =
      .error (.invalidFormat "key file too short") := by
  have hlen : (encodePubFile blake3 pk label t).length < offPrivStart := by
    rw [encodePubFile, length_writePublicHeader rfl]
    decide
  rw [readPublicFromKeyBytes, if_pos hlen]

theorem decodeKeyFile_unread {e : VnmError} (h : readPublicFromKeyBytes data = .error e) :
    decodeKeyFile data = .error e := by
  unfold decodeKeyFile
  rw [h]
  rfl

theorem decodeWithPassphrase_unread {e : VnmError} (h : readPublicFromKeyBytes data = .error e)
    (q : List UInt8) : decodeKeyFileWithPassphrase P data q = .error e := by
  unfold decodeKeyFileWithPassphrase
  rw [h]
  rfl

/-- A `.key` file is long enough for a `.pub` file, but has another magic. -/
theorem decodePub_keyFile :
    decodePubFile (keyFile blake3 t pk label mark rest) =
      .error (.invalidFormat "not a Venom .pub file") := by
  have hmagic : sub (keyFile blake3 t pk label mark rest) 0 4 = keyMagic :=
    (@publicFields blake3 keyMagic ([mark] ++ rest) pk label t rfl).magic
  have hlen : ¬ (keyFile blake3 t pk label mark rest).length < pubFileSize := by
    rw [length_keyFile, pubFileSize, ekSize, offPrivStart]
    omega
  unfold decodePubFile
  dsimp only
  rw [if_neg hlen, hmagic, if_pos (by decide)]

end KeyFile

/-! ## Round trips -/

/-- Every decoder returns what its kind of file was made from, and rejects the other kind.  A
    protected file opens with its passphrase and with no other one that Argon2id and the cipher
    tell apart from it; it can be made whenever the passphrase has a key. -/
theorem keyFiles_roundTrip (key : KeyPair) (label : String) (passphrase : List UInt8)
    (kdfProfile : UInt8) (now t : UInt64) (w : World) (hlabel : LabelFits label) :
    decodeKeyFile (encodeKeyFile blake3 now key label) =
      .ok { label, createdAt := now, key, isProtected := false } ∧
    (∀ q, decodeKeyFileWithPassphrase P (encodeKeyFile blake3 now key label) q =
      .ok { label, createdAt := now, key, isProtected := false }) ∧
    readPublicFromKeyBytes (encodeKeyFile blake3 now key label) =
      .ok { label, createdAt := now, publicKey := key.cached, isProtected := false } ∧
    decodePubFile (encodePubFile blake3 key.cached label t) =
      .ok { label, createdAt := t, publicKey := key.cached } ∧
    (∀ encKey, passwordKey P passphrase (w.drawn 64).toList kdfProfile = .ok encKey →
      ∃ data w', (encodeKeyFileProtected P blake3 key label passphrase kdfProfile).run w =
        .ok data w') ∧
    (∀ data w', (encodeKeyFileProtected P blake3 key label passphrase kdfProfile).run w = .ok data w' →
      decodeKeyFileWithPassphrase P data passphrase =
        .ok { label, createdAt := w.now, key, isProtected := true } ∧
      decodeKeyFile data = .error .authenticationFailed ∧
      (∀ q, q ≠ passphrase → P.SeparatesPasswords passphrase q (w.drawn 64).toList →
        (∀ k k', passwordKey P passphrase (w.drawn 64).toList kdfProfile = .ok k →
          passwordKey P q (w.drawn 64).toList kdfProfile = .ok k' → k ≠ k' →
            P.xchacha20Poly1305.SeparatesKeys k k') →
        ∃ e, decodeKeyFileWithPassphrase P data q = .error e) ∧
      readPublicFromKeyBytes data =
        .ok { label, createdAt := w.now, publicKey := key.cached, isProtected := true } ∧
      ∃ e, decodePubFile data = .error e) ∧
    (∃ e, decodePubFile (encodeKeyFile blake3 now key label) = .error e) ∧
    ∀ pk l s, (∃ e, readPublicFromKeyBytes (encodePubFile blake3 pk l s) = .error e) ∧
      (∃ e, decodeKeyFile (encodePubFile blake3 pk l s) = .error e) ∧
      ∀ q, ∃ e, decodeKeyFileWithPassphrase P (encodePubFile blake3 pk l s) q = .error e := by
  refine ⟨decodeKeyFile_encoded hlabel, decodeWithPassphrase_encoded hlabel, ?_,
    decodePub_encoded hlabel, fun encKey => encodeProtected_isOk, ?_, ?_, ?_⟩
  · rw [encodeKeyFile_eq]
    exact readPublic_keyFile hlabel
  · intro data w' hrun
    obtain ⟨encKey, enc, hsealed⟩ := encodeProtected_sealed hrun
    refine ⟨hsealed.decode hlabel, hsealed.decode_bare hlabel, ?_, hsealed.read hlabel, ?_⟩
    · intro q hne hargon hcipher
      apply hsealed.decode_other hlabel
      intro k hk
      apply hcipher encKey k hsealed.derived hk
      rintro rfl
      have hpw := (passwordKey_ok P).mp hsealed.derived
      have hq := (passwordKey_ok P).mp hk
      exact hne (hargon _ _ _ _ hpw hq).symm
    · rw [hsealed.data]
      exact ⟨_, decodePub_keyFile⟩
  · rw [encodeKeyFile_eq]
    exact ⟨_, decodePub_keyFile⟩
  · intro pk l s
    have hread := @readPublic_pub blake3 pk l s
    exact ⟨⟨_, hread⟩, ⟨_, decodeKeyFile_unread hread⟩,
      fun q => ⟨_, decodeWithPassphrase_unread hread q⟩⟩

def examplePair : KeyPair where
  x25519Sk := toBytes 32 [1, 2]
  mlkemSeed := toBytes 64 [3, 4, 5]
  cached := { x25519Pk := toBytes 32 [6], mlkemEk := toBytes 1568 [7, 8] }

def emptyWorld : World :=
  { path := "", file := none, issued := [], rollback := .empty
    rng := fun n => UInt8.ofNat (n + 9), now := 1700000000 }

/-- A protected file of a key pair, its passphrase and another one. -/
theorem keyFiles_roundTrip_plain :
    ∃ data, decodeKeyFileWithPassphrase plain data (ascii "s3cret") =
        .ok { label := "test-key", createdAt := 1700000000, key := examplePair, isProtected := true } ∧
      decodeKeyFile data = .error .authenticationFailed ∧
      ∃ e, decodeKeyFileWithPassphrase plain data (ascii "wrong") = .error e := by
  obtain ⟨-, -, -, -, hencode, hdecode, -, -⟩ := keyFiles_roundTrip plain (toBytes 32)
    examplePair "test-key" (ascii "s3cret") 0 0 0 emptyWorld ⟨by decide, by decide⟩
  obtain ⟨data, w', hrun⟩ := hencode _ (plain_passwordKey _ _ _)
  obtain ⟨hopen, hbare, hother, -, -⟩ := hdecode data w' hrun
  have hkeys : toBytes 32 (1 :: ascii "s3cret") ≠ toBytes 32 (1 :: ascii "wrong") := by decide
  have htags : plainTag 1 (toBytes 32 (1 :: ascii "s3cret")) ≠
      plainTag 1 (toBytes 32 (1 :: ascii "wrong")) := by decide
  refine ⟨data, hopen, hbare, hother (ascii "wrong") (by decide) ?_ ?_⟩
  · intro m i p key h h'
    exact absurd (Except.ok.inj (h.trans h'.symm)) hkeys
  · intro k k' hk hk' _
    rw [plain_passwordKey] at hk hk'
    cases hk
    cases hk'
    exact plainAead_separatesKeys htags

end Venom.Crypto.KeyFile
