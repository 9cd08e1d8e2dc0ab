import Venom.Container.Layout
import Venom.Library.Words
import Venom.World

/-! # VNMB blocks

A sealed block carries its nonces: magic, version, nonce section, ciphertext, tag.  The
lengths of the nonce section and of the tags depend on the cipher.  The Triple cipher runs
three ciphers inside one another, each with a subkey of its own; the ciphertext grows by
one tag per layer.
-/

namespace Venom.Crypto

open Venom.Container (CipherAlgorithm)
open Venom.Library.Words
open Venom.Library.StateError

/-! ## Sizes -/

def nonceOffset : Nat := 8

def nonceSectionLen : CipherAlgorithm → Nat
  | .xchacha20Poly1305 => 24
  | .deoxysII256 => 15
  | .serpent256 => 16
  | .triple => 55

def tagsLen : CipherAlgorithm → Nat
  | .triple => 48
  | _ => 16

/-- Number of extra bytes a VNMB block adds over its plaintext. -/
def vnmbOverhead (cipher : CipherAlgorithm) : Nat :=
  nonceOffset + nonceSectionLen cipher + tagsLen cipher

theorem vnmbOverhead_ge (cipher : CipherAlgorithm) : 36 ≤ vnmbOverhead cipher := by
  cases cipher <;> decide

theorem vnmbOverhead_le (cipher : CipherAlgorithm) : vnmbOverhead cipher ≤ 111 := by
  cases cipher <;> decide

/-! ## Keys and headers -/

variable (P : Primitives)

def vnmbMagic : List UInt8 := [0x56, 0x4E, 0x4D, 0x42]

def vnmbVersion : Nat := 1

def n1 : Nat := 24
def n2 : Nat := 15
def n3 : Nat := 16

def tripleNonceLen : Nat := n1 + n2 + n3

/-- `aead::Error` as text. -/
def aeadError : VnmError := .cipherError "aead::Error"

structure TripleKeys where
  k1 : Key
  k2 : Key
  k3 : Key

def deriveTripleKeys (kMaster : Key) : TripleKeys where
  k1 := P.blake3DeriveKey "venom:triple:xchacha20" kMaster.toList
  k2 := P.blake3DeriveKey "venom:triple:deoxys" kMaster.toList
  k3 := P.blake3DeriveKey "venom:triple:serpent" kMaster.toList

/-- What stands in front of the ciphertext. -/
def vnmbHeader (nonces : List UInt8) : List UInt8 :=
  vnmbMagic ++ littleEndian 4 vnmbVersion ++ nonces

/-! ## Encryption -/

/-- One layer: the ciphertext with its tag behind it. -/
def sealLayer (A : Aead) (key : Key) (nonce aad plaintext : List UInt8) :
    Except VnmError (List UInt8) :=
  match A.encrypt key nonce aad plaintext with
  | none => .error aeadError
  | some (ciphertext, tag) => .ok (ciphertext ++ tag)

/-- Turn a failure into one of the computation. -/
def orThrow {σ α : Type} (x : Except VnmError α) : EStateM VnmError σ α := fun s =>
  match x with
  | .ok a => .ok a s
  | .error e => .error e s

def encryptSingle (A : Aead) (nonceLen : Nat) (key : Key) (aad plaintext : List UInt8) :
    WorldM (List UInt8) := do
  let nonce ← fillBytes nonceLen
  let sealedText ← orThrow (sealLayer A key nonce.toList aad plaintext)
  pure (vnmbHeader nonce.toList ++ sealedText)

def encryptTriple (key : Key) (aad plaintext : List UInt8) : WorldM (List UInt8) := do
  let keys := deriveTripleKeys P key
  let nonce1 ← fillBytes n1
  let nonce2 ← fillBytes n2
  let nonce3 ← fillBytes n3
  let layer1 ← orThrow (sealLayer P.xchacha20Poly1305 keys.k1 nonce1.toList aad plaintext)
  let layer2 ← orThrow (sealLayer P.deoxysII256 keys.k2 nonce2.toList aad layer1)
  let layer3 ← orThrow (sealLayer P.serpentEax keys.k3 nonce3.toList aad layer2)
  pure (vnmbHeader (nonce1.toList ++ nonce2.toList ++ nonce3.toList) ++ layer3)

def encryptBlock (key : Key) (cipher : CipherAlgorithm) (aad plaintext : List UInt8) :
    WorldM (List UInt8) :=
  match cipher with
  | .triple => encryptTriple P key aad plaintext
  | .xchacha20Poly1305 => encryptSingle P.xchacha20Poly1305 n1 key aad plaintext
  | .deoxysII256 => encryptSingle P.deoxysII256 n2 key aad plaintext
  | .serpent256 => encryptSingle P.serpentEax n3 key aad plaintext

/-! ## Decryption -/

/-- One layer: the last 16 bytes are the tag. -/
def openLayer (A : Aead) (key : Key) (nonce aad ctWithTag : List UInt8) :
    Except VnmError (List UInt8) :=
  let tagStart := ctWithTag.length - 16
  match A.decrypt key nonce aad (ctWithTag.take tagStart) (ctWithTag.drop tagStart) with
  | none => .error .authenticationFailed
  | some plaintext => .ok plaintext

/-- The checks in front of every decryption. -/
def checkVnmb (minLen : Nat) (data : List UInt8) : Except VnmError Unit :=
  if data.length < minLen then .error .authenticationFailed
  else if data.take 4 ≠ vnmbMagic then .error .authenticationFailed
  else
    let version := ofLittleEndian (sub data 4 4)
    if version ≠ vnmbVersion then .error (.invalidFormat s!"unknown VNMB block version {version}")
    else .ok ()

def decryptSingle (A : Aead) (nonceLen : Nat) (key : Key) (aad data : List UInt8) :
    Except VnmError (List UInt8) := do
  let hlen := nonceOffset + nonceLen
  checkVnmb (hlen + 16) data
  openLayer A key (sub data nonceOffset nonceLen) aad (data.drop hlen)

def decryptTriple (key : Key) (aad data : List UInt8) : Except VnmError (List UInt8) := do
  let hlen := nonceOffset + tripleNonceLen
  checkVnmb (hlen + 48 + 1) data
  let nonce1 := sub data 8 n1
  let nonce2 := sub data (8 + n1) n2
  let nonce3 := sub data (8 + n1 + n2) n3
  let keys := deriveTripleKeys P key
  let layer2 ← openLayer P.serpentEax keys.k3 nonce3 aad (data.drop hlen)
  let layer1 ← openLayer P.deoxysII256 keys.k2 nonce2 aad layer2
  openLayer P.xchacha20Poly1305 keys.k1 nonce1 aad layer1

def decryptBlock (key : Key) (cipher : CipherAlgorithm) (aad data : List UInt8) :
    Except VnmError (List UInt8) :=
  match cipher with
  | .triple => decryptTriple P key aad data
  | .xchacha20Poly1305 => decryptSingle P.xchacha20Poly1305 n1 key aad data
  | .deoxysII256 => decryptSingle P.deoxysII256 n2 key aad data
  | .serpent256 => decryptSingle P.serpentEax n3 key aad data

/-- A plaintext as a key. -/
def asKey (plain : List UInt8) : Except VnmError Key :=
  if h : plain.length = 32 then .ok ⟨plain, h⟩ else .error .authenticationFailed

/-- The single-cipher half of `decrypt_block_into_32`: the length is checked first. -/
def decryptSingleInto32 (A : Aead) (nonceLen : Nat) (key : Key) (aad data : List UInt8) :
    Except VnmError Key := do
  let hlen := nonceOffset + nonceLen
  if data.length ≠ hlen + 32 + 16 then .error .authenticationFailed
  else do
    checkVnmb 0 data
    let plain ← match A.decrypt key (sub data nonceOffset nonceLen) aad (sub data hlen 32)
        (data.drop (hlen + 32)) with
      | none => .error .authenticationFailed
      | some plain => .ok plain
    asKey plain

def decryptBlockInto32 (key : Key) (cipher : CipherAlgorithm) (aad data : List UInt8) :
    Except VnmError Key :=
  match cipher with
  | .triple => do
    let plain ← decryptTriple P key aad data
    asKey plain
  | .xchacha20Poly1305 => decryptSingleInto32 P.xchacha20Poly1305 n1 key aad data
  | .deoxysII256 => decryptSingleInto32 P.deoxysII256 n2 key aad data
  | .serpent256 => decryptSingleInto32 P.serpentEax n3 key aad data

/-! ## Decryption inverts encryption -/

theorem orThrow_ok {σ α : Type} {x : Except VnmError α} {s s' : σ} {a : α} :
    (orThrow x).run s = .ok a s' ↔ x = .ok a ∧ s' = s := by
  change orThrow x s = _ ↔ _
  unfold orThrow
  cases x <;> simp [eq_comm]

theorem orThrow_error {σ α : Type} {x : Except VnmError α} {s s' : σ} {e : VnmError} :
    (orThrow x).run s = .error e s' ↔ x = .error e ∧ s' = s := by
  change orThrow x s = _ ↔ _
  unfold orThrow
  cases x <;> simp [eq_comm]

theorem sealLayer_ok {A : Aead} {key : Key} {nonce aad plaintext s : List UInt8}
    (h : sealLayer A key nonce aad plaintext = .ok s) :
    s.length = plaintext.length + 16 ∧ openLayer A key nonce aad s = .ok plaintext := by
  unfold sealLayer at h
  cases he : A.encrypt key nonce aad plaintext with
  | none => rw [he] at h; cases h
  | some sealedText =>
    obtain ⟨ciphertext, tag⟩ := sealedText
    rw [he] at h
    cases h
    obtain ⟨hct, htag⟩ := A.length_encrypt he
    have hstart : (ciphertext ++ tag).length - 16 = ciphertext.length := by
      rw [List.length_append]; omega
    refine ⟨by rw [List.length_append]; omega, ?_⟩
    simp only [openLayer, hstart, List.take_left, List.drop_left, A.decrypt_encrypt he]

theorem sealLayer_isOk {A : Aead} {key : Key} {nonce aad plaintext : List UInt8}
    (h : plaintext.length + aad.length < 2 ^ 36) :
    ∃ s, sealLayer A key nonce aad plaintext = .ok s := by
  obtain ⟨⟨ciphertext, tag⟩, he⟩ := Option.isSome_iff_exists.mp
    (@Aead.encrypt_isSome A key nonce _ _ h)
  exact ⟨ciphertext ++ tag, by rw [sealLayer, he]⟩

theorem length_vnmbHeader (nonces : List UInt8) :
    (vnmbHeader nonces).length = nonceOffset + nonces.length := by
  simp [vnmbHeader, vnmbMagic, nonceOffset]
  omega

theorem checkVnmb_vnmbHeader {nonces rest : List UInt8} {minLen : Nat}
    (h : minLen ≤ nonceOffset + nonces.length + rest.length) :
    checkVnmb minLen (vnmbHeader nonces ++ rest) = .ok () := by
  have hlen : ¬ (vnmbHeader nonces ++ rest).length < minLen := by
    rw [List.length_append, length_vnmbHeader]; omega
  have hmagic : (vnmbHeader nonces ++ rest).take 4 = vnmbMagic := rfl
  have hversion : sub (vnmbHeader nonces ++ rest) 4 4 = littleEndian 4 vnmbVersion := rfl
  rw [checkVnmb, if_neg hlen, if_neg (by rw [hmagic]; simp), hversion,
    ofLittleEndian_u32 (by decide)]
  rfl

theorem checkVnmb_length {minLen : Nat} {data : List UInt8} {u : Unit}
    (h : checkVnmb minLen data = .ok u) : minLen ≤ data.length := by
  unfold checkVnmb at h
  by_cases hlen : data.length < minLen
  · rw [if_pos hlen] at h
    cases h
  · omega

/-- The nonce section of a block, and what follows it. -/
theorem sub_vnmbHeader (before nonce after rest : List UInt8) :
    sub (vnmbHeader (before ++ nonce ++ after) ++ rest) (nonceOffset + before.length)
      nonce.length = nonce := by
  have hsplit : vnmbHeader (before ++ nonce ++ after) ++ rest =
      vnmbHeader before ++ (nonce ++ (after ++ rest)) := by simp [vnmbHeader]
  rw [hsplit, ← Nat.add_zero (nonceOffset + before.length),
    sub_append_right (length_vnmbHeader before), sub_append_left rfl]

theorem drop_vnmbHeader {nonces : List UInt8} {n : Nat} (h : nonces.length = n)
    (rest : List UInt8) : (vnmbHeader nonces ++ rest).drop (nonceOffset + n) = rest :=
  List.drop_left' (by rw [length_vnmbHeader, h])

/-- A sealed single-cipher block. -/
theorem decryptSingle_sealed {A : Aead} {key : Key} {nonce aad plaintext s : List UInt8} {n : Nat}
    (hn : nonce.length = n) (h : sealLayer A key nonce aad plaintext = .ok s) :
    decryptSingle A n key aad (vnmbHeader nonce ++ s) = .ok plaintext := by
  obtain ⟨hlen, hopen⟩ := sealLayer_ok h
  have hnonce : sub (vnmbHeader nonce ++ s) nonceOffset n = nonce := by
    have := sub_vnmbHeader [] nonce [] s
    rwa [List.nil_append, List.append_nil, List.length_nil, Nat.add_zero, hn] at this
  unfold decryptSingle
  dsimp only
  rw [except_bind_of_ok (checkVnmb_vnmbHeader (by omega)), hnonce, drop_vnmbHeader hn]
  exact hopen

/-- A sealed Triple block.  The length check asks for at least one byte of plaintext. -/
theorem decryptTriple_sealed {key : Key} {nonce1 nonce2 nonce3 aad plaintext l₁ l₂ l₃ : List UInt8}
    (h1 : nonce1.length = n1) (h2 : nonce2.length = n2) (h3 : nonce3.length = n3)
    (hl₁ : sealLayer P.xchacha20Poly1305 (deriveTripleKeys P key).k1 nonce1 aad plaintext = .ok l₁)
    (hl₂ : sealLayer P.deoxysII256 (deriveTripleKeys P key).k2 nonce2 aad l₁ = .ok l₂)
    (hl₃ : sealLayer P.serpentEax (deriveTripleKeys P key).k3 nonce3 aad l₂ = .ok l₃)
    (hne : plaintext ≠ []) :
    decryptTriple P key aad (vnmbHeader (nonce1 ++ nonce2 ++ nonce3) ++ l₃) = .ok plaintext := by
  obtain ⟨hlen₁, hopen₁⟩ := sealLayer_ok hl₁
  obtain ⟨hlen₂, hopen₂⟩ := sealLayer_ok hl₂
  obtain ⟨hlen₃, hopen₃⟩ := sealLayer_ok hl₃
  have hpos := List.length_pos_of_ne_nil hne
  have hnonces : (nonce1 ++ nonce2 ++ nonce3).length = tripleNonceLen := by
    simp only [List.length_append, h1, h2, h3, tripleNonceLen]
  have hs1 : sub (vnmbHeader (nonce1 ++ nonce2 ++ nonce3) ++ l₃) 8 n1 = nonce1 := by
    have := sub_vnmbHeader [] nonce1 (nonce2 ++ nonce3) l₃
    rwa [List.nil_append, ← List.append_assoc, List.length_nil, Nat.add_zero, h1] at this
  have hs2 : sub (vnmbHeader (nonce1 ++ nonce2 ++ nonce3) ++ l₃) (8 + n1) n2 = nonce2 := by
    have := sub_vnmbHeader nonce1 nonce2 nonce3 l₃
    rwa [h1, h2] at this
  have hs3 : sub (vnmbHeader (nonce1 ++ nonce2 ++ nonce3) ++ l₃) (8 + n1 + n2) n3 = nonce3 := by
    have := sub_vnmbHeader (nonce1 ++ nonce2) nonce3 [] l₃
    rwa [List.append_nil, List.length_append, h1, h2, h3] at this
  unfold decryptTriple
  dsimp only
  rw [except_bind_of_ok (checkVnmb_vnmbHeader (by rw [hnonces]; omega)), hs1, hs2, hs3,
    drop_vnmbHeader hnonces, except_bind_of_ok hopen₃, except_bind_of_ok hopen₂]
  exact hopen₁

/-! ## Sealing a block -/

section Sealing

variable {P}
variable {key : Key} {cipher : CipherAlgorithm} {aad plaintext block : List UInt8} {w w' : World}

theorem encryptSingle_ok {A : Aead} {n : Nat}
    (h : (encryptSingle A n key aad plaintext).run w = .ok block w') :
    w.OnlyDrew w' ∧ block.length = nonceOffset + n + 16 + plaintext.length ∧
      decryptSingle A n key aad block = .ok plaintext := by
  unfold encryptSingle at h
  obtain ⟨nonce, w₁, hdraw, h₁⟩ := run_bind_ok.mp h
  obtain ⟨s, w₂, hthrow, h₂⟩ := run_bind_ok.mp h₁
  obtain ⟨hseal, rfl⟩ := orThrow_ok.mp hthrow
  cases h₂
  have hn : nonce.toList.length = n := nonce.toList_length
  refine ⟨(fillBytes_ok hdraw).2, ?_, decryptSingle_sealed hn hseal⟩
  rw [List.length_append, length_vnmbHeader, hn, (sealLayer_ok hseal).1]
  omega

theorem encryptTriple_ok (h : (encryptTriple P key aad plaintext).run w = .ok block w') :
    w.OnlyDrew w' ∧ block.length = nonceOffset + tripleNonceLen + 48 + plaintext.length ∧
      (plaintext ≠ [] → decryptTriple P key aad block = .ok plaintext) := by
  unfold encryptTriple at h
  obtain ⟨nonce1, w₁, hdraw1, h₁⟩ := run_bind_ok.mp h
  obtain ⟨nonce2, w₂, hdraw2, h₂⟩ := run_bind_ok.mp h₁
  obtain ⟨nonce3, w₃, hdraw3, h₃⟩ := run_bind_ok.mp h₂
  obtain ⟨l₁, w₄, hthrow₁, h₄⟩ := run_bind_ok.mp h₃
  obtain ⟨l₂, w₅, hthrow₂, h₅⟩ := run_bind_ok.mp h₄
  obtain ⟨l₃, w₆, hthrow₃, h₆⟩ := run_bind_ok.mp h₅
  obtain ⟨hl₁, rfl⟩ := orThrow_ok.mp hthrow₁
  obtain ⟨hl₂, rfl⟩ := orThrow_ok.mp hthrow₂
  obtain ⟨hl₃, rfl⟩ := orThrow_ok.mp hthrow₃
  cases h₆
  refine ⟨((fillBytes_ok hdraw1).2.trans (fillBytes_ok hdraw2).2).trans (fillBytes_ok hdraw3).2, ?_,
    decryptTriple_sealed P nonce1.toList_length nonce2.toList_length nonce3.toList_length
      hl₁ hl₂ hl₃⟩
  rw [List.length_append, length_vnmbHeader, (sealLayer_ok hl₃).1, (sealLayer_ok hl₂).1,
    (sealLayer_ok hl₁).1]
  simp only [List.length_append, List.Vector.toList_length, tripleNonceLen]
  omega

/-- A sealed block is longer than its plaintext by the cipher's overhead, and decrypts to
    it.  Triple does not decrypt the empty plaintext. -/
theorem encryptBlock_ok (h : (encryptBlock P key cipher aad plaintext).run w = .ok block w') :
    w.OnlyDrew w' ∧ block.length = vnmbOverhead cipher + plaintext.length ∧
      ((cipher = .triple → plaintext ≠ []) → decryptBlock P key cipher aad block = .ok plaintext) := by
  cases cipher with
  | triple =>
    obtain ⟨hdrew, hlen, hdec⟩ := encryptTriple_ok h
    exact ⟨hdrew, hlen, fun hne => hdec (hne rfl)⟩
  | xchacha20Poly1305 =>
    obtain ⟨hdrew, hlen, hdec⟩ := encryptSingle_ok h
    exact ⟨hdrew, hlen, fun _ => hdec⟩
  | deoxysII256 =>
    obtain ⟨hdrew, hlen, hdec⟩ := encryptSingle_ok h
    exact ⟨hdrew, hlen, fun _ => hdec⟩
  | serpent256 =>
    obtain ⟨hdrew, hlen, hdec⟩ := encryptSingle_ok h
    exact ⟨hdrew, hlen, fun _ => hdec⟩

theorem encryptSingle_took {A : Aead} {n : Nat}
    (h : (encryptSingle A n key aad plaintext).run w = .ok block w') : World.Took n w w' := by
  unfold encryptSingle at h
  obtain ⟨nonce, w₁, hdraw, h₁⟩ := run_bind_ok.mp h
  obtain ⟨s, w₂, hthrow, h₂⟩ := run_bind_ok.mp h₁
  obtain ⟨-, rfl⟩ := orThrow_ok.mp hthrow
  cases h₂
  exact fillBytes_took hdraw

/-- Sealing draws the nonces. -/
theorem encryptBlock_took (h : (encryptBlock P key cipher aad plaintext).run w = .ok block w') :
    World.Took (nonceSectionLen cipher) w w' := by
  cases cipher with
  | triple =>
    change (encryptTriple P key aad plaintext).run w = _ at h
    unfold encryptTriple at h
    obtain ⟨nonce1, w₁, hdraw1, h₁⟩ := run_bind_ok.mp h
    obtain ⟨nonce2, w₂, hdraw2, h₂⟩ := run_bind_ok.mp h₁
    obtain ⟨nonce3, w₃, hdraw3, h₃⟩ := run_bind_ok.mp h₂
    obtain ⟨l₁, w₄, hthrow₁, h₄⟩ := run_bind_ok.mp h₃
    obtain ⟨l₂, w₅, hthrow₂, h₅⟩ := run_bind_ok.mp h₄
    obtain ⟨l₃, w₆, hthrow₃, h₆⟩ := run_bind_ok.mp h₅
    obtain ⟨-, rfl⟩ := orThrow_ok.mp hthrow₁
    obtain ⟨-, rfl⟩ := orThrow_ok.mp hthrow₂
    obtain ⟨-, rfl⟩ := orThrow_ok.mp hthrow₃
    cases h₆
    exact ((fillBytes_took hdraw1).trans (fillBytes_took hdraw2)).trans (fillBytes_took hdraw3)
  | xchacha20Poly1305 | deoxysII256 | serpent256 => exact encryptSingle_took h

/-- Whether or not it succeeds, sealing only draws random bytes. -/
theorem encryptBlock_within (key : Key) (cipher : CipherAlgorithm) (aad plaintext : List UInt8) :
    Within World.OnlyDrew (encryptBlock P key cipher aad plaintext) := by
  have hfill : ∀ n : Nat, Within World.OnlyDrew (fillBytes n : WorldM (Bytes n)) :=
    fun n w => .skip w n
  have hthrow : ∀ {α : Type} (x : Except VnmError α), Within World.OnlyDrew (orThrow x : WorldM α) := by
    intro α x w
    cases x <;> exact .refl w
  have hsingle : ∀ (A : Aead) (n : Nat),
      Within World.OnlyDrew (encryptSingle A n key aad plaintext) := fun A n =>
    .bind (hfill n) fun _ => .bind (hthrow _) fun _ => .pure _
  cases cipher with
  | triple =>
    exact .bind (hfill n1) fun _ => .bind (hfill n2) fun _ => .bind (hfill n3) fun _ =>
      .bind (hthrow _) fun _ => .bind (hthrow _) fun _ => .bind (hthrow _) fun _ => .pure _
  | xchacha20Poly1305 => exact hsingle _ _
  | deoxysII256 => exact hsingle _ _
  | serpent256 => exact hsingle _ _

theorem encryptSingle_isOk {A : Aead} {n : Nat} (hlen : plaintext.length + aad.length < 2 ^ 36) :
    ∃ block w', (encryptSingle A n key aad plaintext).run w = .ok block w' := by
  obtain ⟨s, hs⟩ := @sealLayer_isOk A key (w.drawn n).toList _ _ hlen
  obtain ⟨w₁, hdraw, -⟩ := fillBytes_run (ε := VnmError) n w
  unfold encryptSingle
  rw [run_bind_of_ok hdraw, hs]
  exact ⟨_, _, rfl⟩

/-- Sealing succeeds below the length limit. -/
theorem encryptBlock_isOk (hlen : plaintext.length + aad.length + 32 < 2 ^ 36) :
    ∃ block w', (encryptBlock P key cipher aad plaintext).run w = .ok block w' := by
  cases cipher with
  | triple =>
    obtain ⟨w₁, hdraw1, -⟩ := fillBytes_run (ε := VnmError) n1 w
    obtain ⟨w₂, hdraw2, -⟩ := fillBytes_run (ε := VnmError) n2 w₁
    obtain ⟨w₃, hdraw3, -⟩ := fillBytes_run (ε := VnmError) n3 w₂
    obtain ⟨l₁, hl₁⟩ := @sealLayer_isOk P.xchacha20Poly1305 (deriveTripleKeys P key).k1
      (w.drawn n1).toList aad plaintext (by omega)
    have hlen₁ := (sealLayer_ok hl₁).1
    obtain ⟨l₂, hl₂⟩ := @sealLayer_isOk P.deoxysII256 (deriveTripleKeys P key).k2
      (w₁.drawn n2).toList aad l₁ (by omega)
    have hlen₂ := (sealLayer_ok hl₂).1
    obtain ⟨l₃, hl₃⟩ := @sealLayer_isOk P.serpentEax (deriveTripleKeys P key).k3
      (w₂.drawn n3).toList aad l₂ (by omega)
    change ∃ block w', (encryptTriple P key aad plaintext).run w = .ok block w'
    unfold encryptTriple
    dsimp only
    rw [run_bind_of_ok hdraw1, run_bind_of_ok hdraw2, run_bind_of_ok hdraw3, hl₁,
      run_bind_of_ok (orThrow_ok.mpr ⟨rfl, rfl⟩), hl₂,
      run_bind_of_ok (orThrow_ok.mpr ⟨rfl, rfl⟩), hl₃]
    exact ⟨_, _, rfl⟩
  | xchacha20Poly1305 => exact encryptSingle_isOk (by omega)
  | deoxysII256 => exact encryptSingle_isOk (by omega)
  | serpent256 => exact encryptSingle_isOk (by omega)

/-! ## Sealed keys -/

/-- On data of the right length the in-place decryptor is the general one. -/
theorem decryptSingleInto32_eq {A : Aead} {n : Nat} {data : List UInt8}
    (hlen : data.length = nonceOffset + n + 32 + 16) :
    decryptSingleInto32 A n key aad data = decryptSingle A n key aad data >>= asKey := by
  have hct : (data.drop (nonceOffset + n)).take 32 = sub data (nonceOffset + n) 32 := rfl
  have hdrop : (data.drop (nonceOffset + n)).drop 32 = data.drop (nonceOffset + n + 32) :=
    List.drop_drop
  have hstart : (data.drop (nonceOffset + n)).length - 16 = 32 := by
    rw [List.length_drop]; omega
  have hcheck : checkVnmb (nonceOffset + n + 16) data = checkVnmb 0 data := by
    have hle : ¬ data.length < nonceOffset + n + 16 := by omega
    rw [checkVnmb, checkVnmb, if_neg hle, if_neg (Nat.not_lt_zero _)]
  unfold decryptSingleInto32 decryptSingle openLayer
  dsimp only
  rw [if_neg (by omega), hcheck, hstart, hdrop, hct]
  cases checkVnmb 0 data with
  | error e => rfl
  | ok u =>
    cases A.decrypt key (sub data nonceOffset n) aad (sub data (nonceOffset + n) 32)
      (data.drop (nonceOffset + n + 32)) <;> rfl

theorem decryptBlockInto32_eq {data : List UInt8}
    (hlen : cipher ≠ .triple → data.length = vnmbOverhead cipher + 32) :
    decryptBlockInto32 P key cipher aad data = decryptBlock P key cipher aad data >>= asKey := by
  cases cipher with
  | triple => rfl
  | xchacha20Poly1305 => exact decryptSingleInto32_eq (hlen (by simp))
  | deoxysII256 => exact decryptSingleInto32_eq (hlen (by simp))
  | serpent256 => exact decryptSingleInto32_eq (hlen (by simp))

theorem decryptSingleInto32_length {A : Aead} {n : Nat} {key k : Key} {aad data : List UInt8}
    (h : decryptSingleInto32 A n key aad data = .ok k) : data.length = nonceOffset + n + 32 + 16 := by
  unfold decryptSingleInto32 at h
  dsimp only at h
  by_contra hlen
  rw [if_pos hlen] at h
  cases h

theorem decryptBlockInto32_length {P : Primitives} {cipher : CipherAlgorithm} {key k : Key}
    {aad data : List UInt8} (h : decryptBlockInto32 P key cipher aad data = .ok k)
    (hne : cipher ≠ .triple) : data.length = vnmbOverhead cipher + 32 := by
  cases cipher with
  | triple => exact absurd rfl hne
  | xchacha20Poly1305 | deoxysII256 | serpent256 =>
    have hlen := decryptSingleInto32_length h
    rw [hlen]
    decide

theorem asKey_toList (k : Key) : asKey k.toList = .ok k := by
  rw [asKey, dif_pos k.toList_length]
  rfl

/-- A sealed key is opened again. -/
theorem decryptBlockInto32_sealed {k : Key}
    (h : (encryptBlock P key cipher aad k.toList).run w = .ok block w') :
    decryptBlockInto32 P key cipher aad block = .ok k := by
  have hne : k.toList ≠ [] := by
    intro hnil
    have := k.toList_length
    rw [hnil] at this
    cases this
  obtain ⟨-, hlen, hdec⟩ := encryptBlock_ok h
  rw [List.Vector.toList_length] at hlen
  rw [decryptBlockInto32_eq (fun _ => hlen), except_bind_of_ok (hdec fun _ => hne), asKey_toList]

end Sealing

end Venom.Crypto
