import Venom.Container.Header

/-! # Recipient slots

Each slot holds the master key sealed for one credential.  A password slot always uses
Triple; a key slot uses the container's cipher, behind the ciphertext of the key
encapsulation.  A reader tries the ciphers in order until one authenticates.
-/

namespace Venom.Container

open Venom.Crypto
open Venom.Library.Words
open Venom.Library.StateError

variable (P : Primitives)

/-- The size of a sealed 32-byte key. -/
def vnmbEnc32 (cipher : CipherAlgorithm) : Nat := vnmbOverhead cipher + 32

def aadPw : List UInt8 := ascii "vnm:pw:v1"

def aadKey : List UInt8 := ascii "vnm:key:v1"

/-- Ciphers tried in order during blind decryption. -/
def allCiphers : List CipherAlgorithm := [.xchacha20Poly1305, .deoxysII256, .serpent256, .triple]

/-- The first cipher under which the bytes at `base` are a sealed key. -/
def tryCiphers (key : Key) (aad : List UInt8) (slot : List UInt8) (base : Nat) :
    Option (Key × CipherAlgorithm) :=
  allCiphers.findSome? fun cipher =>
    (decryptBlockInto32 P key cipher aad (sub slot base (vnmbEnc32 cipher))).toOption.map
      fun k => (k, cipher)

/-! ## Password slots -/

def encodePasswordSlot (kMaster : Key) (password : List UInt8) (kdfProfile : UInt8) :
    WorldM (List UInt8) := do
  let salt ← fillBytes 32
  let key ← orThrow (passwordKey P password salt.toList kdfProfile)
  let enc ← encryptBlock P key .triple aadPw kMaster.toList
  pure (padTo pwSlotSize (salt.toList ++ [kdfProfile] ++ enc))

/-- Attempt to decrypt the master key from a password slot. -/
def tryPasswordSlot (slot password : List UInt8) : Option (Key × CipherAlgorithm) :=
  match passwordKey P password (sub slot 0 32) (slot.getD 32 0) with
  | .error _ => none
  | .ok key => tryCiphers P key aadPw slot 33

/-! ## Key slots -/

/-- The offset of the sealed key in a key slot. -/
def encBase : Nat := x25519PkSize + ctSize

/-- Encapsulate to a recipient; the ephemeral secret is drawn first. -/
def encapsulate (recipient : HybridPublicKey) : WorldM HybridCiphertext := do
  let ephSk ← fillBytes 32
  let randomness ← fillBytes 32
  orThrow (encapsulateWith P ephSk randomness recipient)

def encodeKeySlot (kMaster : Key) (recipient : HybridPublicKey) (cipher : CipherAlgorithm) :
    WorldM (List UInt8) := do
  let ct ← encapsulate P recipient
  let enc ← encryptBlock P ct.sharedSecret cipher aadKey kMaster.toList
  pure (padTo keySlotSize (ct.x25519EphPk.toList ++ ct.mlkemCt.toList ++ enc))

/-- Attempt to decrypt the master key from a key slot. -/
def tryKeySlot (slot : List UInt8) (sk : HybridPrivateKey) : Option (Key × CipherAlgorithm) :=
  let shared := decapsulate P sk (toBytes 32 (sub slot 0 x25519PkSize))
    (toBytes 1568 (sub slot x25519PkSize ctSize))
  tryCiphers P shared aadKey slot encBase

/-! ## A slot opens for its credential -/

/-- The bytes of a password slot that seals a key for a password. -/
def IsPasswordSlot (kMaster : Key) (password slot : List UInt8) : Prop :=
  slot.length = pwSlotSize ∧
    ∃ key, passwordKey P password (sub slot 0 32) (slot.getD 32 0) = .ok key ∧
      decryptBlockInto32 P key .triple aadPw (sub slot 33 (vnmbEnc32 .triple)) = .ok kMaster

/-- A password slot's sealed key is rejected under all ciphers but Triple. -/
def OnlyTriple (password slot : List UInt8) : Prop :=
  ∀ key, passwordKey P password (sub slot 0 32) (slot.getD 32 0) = .ok key → ∀ c, c ≠ .triple →
    (decryptBlockInto32 P key c aadPw (sub slot 33 (vnmbEnc32 c))).toOption = none

/-- The bytes of a key slot that seals a key for a recipient. -/
def IsKeySlot (kMaster : Key) (recipient : HybridPublicKey) (cipher : CipherAlgorithm)
    (slot : List UInt8) : Prop :=
  slot.length = keySlotSize ∧
    ∃ ct, (∃ ephSk randomness, encapsulateWith P ephSk randomness recipient = .ok ct) ∧
      toBytes 32 (sub slot 0 x25519PkSize) = ct.x25519EphPk ∧
      toBytes 1568 (sub slot x25519PkSize ctSize) = ct.mlkemCt ∧
      decryptBlockInto32 P ct.sharedSecret cipher aadKey (sub slot encBase (vnmbEnc32 cipher)) =
        .ok kMaster

/-- A key slot's sealed key is rejected under all ciphers but one. -/
def OnlySealed (sk : HybridPrivateKey) (cipher : CipherAlgorithm) (slot : List UInt8) : Prop :=
  ∀ c, c ≠ cipher →
    (decryptBlockInto32 P (decapsulate P sk (toBytes 32 (sub slot 0 x25519PkSize))
      (toBytes 1568 (sub slot x25519PkSize ctSize))) c aadKey
      (sub slot encBase (vnmbEnc32 c))).toOption = none

section Slots

variable {P}
variable {kMaster : Key} {w w' : World} {slot : List UInt8}

/-- A block that authenticates under one of the ciphers gives some key away. -/
theorem tryCiphers_isSome {key : Key} {aad : List UInt8} {base : Nat} {cipher : CipherAlgorithm}
    {k : Key} (h : decryptBlockInto32 P key cipher aad (sub slot base (vnmbEnc32 cipher)) = .ok k) :
    (tryCiphers P key aad slot base).isSome := by
  rw [tryCiphers, List.findSome?_isSome_iff]
  refine ⟨cipher, by cases cipher <;> decide, ?_⟩
  rw [h]
  rfl

/-- A block is opened under its own cipher when those tried before reject it. -/
theorem tryCiphers_eq {key : Key} {aad : List UInt8} {base : Nat} {cipher : CipherAlgorithm}
    {k : Key} (h : decryptBlockInto32 P key cipher aad (sub slot base (vnmbEnc32 cipher)) = .ok k)
    (hreject : ∀ c, c ≠ cipher →
      (decryptBlockInto32 P key c aad (sub slot base (vnmbEnc32 c))).toOption = none) :
    tryCiphers P key aad slot base = some (k, cipher) := by
  have hall : ∀ l : List CipherAlgorithm, cipher ∈ l →
      l.findSome? (fun c => (decryptBlockInto32 P key c aad (sub slot base (vnmbEnc32 c))).toOption.map
        fun k => (k, c)) = some (k, cipher) := by
    intro l hl
    induction l with
    | nil => cases hl
    | cons c l ih =>
      rw [List.findSome?_cons]
      by_cases hc : c = cipher
      · subst hc
        rw [h]
        rfl
      · rw [hreject c hc]
        exact ih ((List.mem_cons.mp hl).resolve_left fun he => hc he.symm)
  exact hall allCiphers (by cases cipher <;> decide)

/-- An encoded password slot: its bytes, and the key it is sealed with. -/
theorem encodePasswordSlot_ok {password : List UInt8} {kdfProfile : UInt8}
    (h : (encodePasswordSlot P kMaster password kdfProfile).run w = .ok slot w') :
    w.OnlyDrew w' ∧ slot.length = pwSlotSize ∧
      ∃ key, passwordKey P password (sub slot 0 32) (slot.getD 32 0) = .ok key ∧
        decryptBlockInto32 P key .triple aadPw (sub slot 33 (vnmbEnc32 .triple)) = .ok kMaster := by
  unfold encodePasswordSlot at h
  obtain ⟨salt, w₁, hdraw, h₁⟩ := run_bind_ok.mp h
  obtain ⟨key, w₂, hthrow, h₂⟩ := run_bind_ok.mp h₁
  obtain ⟨hkey, rfl⟩ := orThrow_ok.mp hthrow
  obtain ⟨enc, w₃, henc, h₃⟩ := run_bind_ok.mp h₂
  cases h₃
  obtain ⟨hdrew, hlen, -⟩ := encryptBlock_ok henc
  rw [List.Vector.toList_length] at hlen
  have hfull : (salt.toList ++ [kdfProfile] ++ enc).length = pwSlotSize := by
    rw [List.length_append, List.length_append, List.Vector.toList_length, hlen]
    rfl
  have hpad : padTo pwSlotSize (salt.toList ++ [kdfProfile] ++ enc) =
      salt.toList ++ ([kdfProfile] ++ enc) := by
    rw [padTo, hfull, Nat.sub_self, List.replicate_zero, List.append_nil, List.append_assoc]
  have hsalt : sub (salt.toList ++ ([kdfProfile] ++ enc)) 0 32 = salt.toList :=
    sub_append_left salt.toList_length _
  have hprofile : (salt.toList ++ ([kdfProfile] ++ enc)).getD 32 0 = kdfProfile := by
    rw [List.getD_eq_getElem?_getD, List.getElem?_append_right (by rw [salt.toList_length]),
      salt.toList_length]
    rfl
  have hsub : sub (salt.toList ++ ([kdfProfile] ++ enc)) 33 (vnmbEnc32 .triple) = enc :=
    @sub_field _ (salt.toList ++ [kdfProfile]) _ [] _ _ (by simp)
      (by rw [List.length_append, List.Vector.toList_length]; rfl) hlen
  refine ⟨(fillBytes_ok hdraw).2.trans hdrew, by rw [hpad, ← List.append_assoc, hfull], key, ?_, ?_⟩
  · rw [hpad, hsalt, hprofile]
    exact hkey
  · rw [hpad, hsub]
    exact decryptBlockInto32_sealed henc

theorem encodePasswordSlot_took {password : List UInt8} {kdfProfile : UInt8}
    (h : (encodePasswordSlot P kMaster password kdfProfile).run w = .ok slot w') :
    World.Took (32 + nonceSectionLen .triple) w w' := by
  unfold encodePasswordSlot at h
  obtain ⟨salt, w₁, hdraw, h₁⟩ := run_bind_ok.mp h
  obtain ⟨key, w₂, hthrow, h₂⟩ := run_bind_ok.mp h₁
  obtain ⟨-, rfl⟩ := orThrow_ok.mp hthrow
  obtain ⟨enc, w₃, henc, h₃⟩ := run_bind_ok.mp h₂
  cases h₃
  exact (fillBytes_took hdraw).trans (encryptBlock_took henc)

theorem encodePasswordSlot_within (kMaster : Key) (password : List UInt8) (kdfProfile : UInt8) :
    Within World.OnlyDrew (encodePasswordSlot P kMaster password kdfProfile) := by
  refine .bind (fun w => .skip w _) fun salt => .bind (fun w => ?_) fun _ =>
    .bind (encryptBlock_within _ _ _ _) fun _ => .pure _
  cases passwordKey P password salt.toList kdfProfile <;> exact .refl w

theorem encapsulate_ok {recipient : HybridPublicKey} {ct : HybridCiphertext}
    (h : (encapsulate P recipient).run w = .ok ct w') :
    w.OnlyDrew w' ∧ ∃ ephSk randomness, encapsulateWith P ephSk randomness recipient = .ok ct := by
  unfold encapsulate at h
  obtain ⟨ephSk, w₁, hdraw, h₁⟩ := run_bind_ok.mp h
  obtain ⟨randomness, w₂, hdraw', h₂⟩ := run_bind_ok.mp h₁
  obtain ⟨hct, rfl⟩ := orThrow_ok.mp h₂
  exact ⟨(fillBytes_ok hdraw).2.trans (fillBytes_ok hdraw').2, ephSk, randomness, hct⟩

/-- An encoded key slot: its bytes, and the shared secret it is sealed with. -/
theorem encodeKeySlot_ok {recipient : HybridPublicKey} {cipher : CipherAlgorithm}
    (h : (encodeKeySlot P kMaster recipient cipher).run w = .ok slot w') :
    w.OnlyDrew w' ∧ slot.length = keySlotSize ∧
      ∃ ct, (∃ ephSk randomness, encapsulateWith P ephSk randomness recipient = .ok ct) ∧
        toBytes 32 (sub slot 0 x25519PkSize) = ct.x25519EphPk ∧
        toBytes 1568 (sub slot x25519PkSize ctSize) = ct.mlkemCt ∧
        decryptBlockInto32 P ct.sharedSecret cipher aadKey (sub slot encBase (vnmbEnc32 cipher)) =
          .ok kMaster := by
  unfold encodeKeySlot at h
  obtain ⟨ct, w₁, hct, h₁⟩ := run_bind_ok.mp h
  obtain ⟨enc, w₂, henc, h₂⟩ := run_bind_ok.mp h₁
  cases h₂
  obtain ⟨hdrew, hlen, -⟩ := encryptBlock_ok henc
  rw [List.Vector.toList_length] at hlen
  obtain ⟨hdrew', hwith⟩ := encapsulate_ok hct
  have hle : (ct.x25519EphPk.toList ++ ct.mlkemCt.toList ++ enc).length ≤ keySlotSize := by
    rw [List.length_append, List.length_append, List.Vector.toList_length, List.Vector.toList_length,
      hlen]
    cases cipher <;> decide
  have hsplit : ∀ n, padTo n (ct.x25519EphPk.toList ++ ct.mlkemCt.toList ++ enc) =
      ct.x25519EphPk.toList ++ (ct.mlkemCt.toList ++ (enc ++
        List.replicate (n - (ct.x25519EphPk.toList ++ ct.mlkemCt.toList ++ enc).length) 0)) := by
    intro n
    simp only [padTo, List.append_assoc]
  refine ⟨hdrew'.trans hdrew, length_padTo hle, ct, hwith, ?_, ?_, ?_⟩
  · rw [hsplit, x25519PkSize, sub_append_left ct.x25519EphPk.toList_length, toBytes_toList]
  · have hfield : sub (padTo keySlotSize (ct.x25519EphPk.toList ++ ct.mlkemCt.toList ++ enc))
        x25519PkSize ctSize = ct.mlkemCt.toList :=
      sub_field (hsplit _) ct.x25519EphPk.toList_length ct.mlkemCt.toList_length
    rw [hfield, toBytes_toList]
  · have hbase : (ct.x25519EphPk.toList ++ ct.mlkemCt.toList).length = encBase := by
      rw [List.length_append, List.Vector.toList_length, List.Vector.toList_length]
      rfl
    have hfield : sub (padTo keySlotSize (ct.x25519EphPk.toList ++ ct.mlkemCt.toList ++ enc))
        encBase (vnmbEnc32 cipher) = enc :=
      sub_field ((hsplit _).trans (List.append_assoc _ _ _).symm) hbase hlen
    rw [hfield]
    exact decryptBlockInto32_sealed henc

theorem encodeKeySlot_within (kMaster : Key) (recipient : HybridPublicKey) (cipher : CipherAlgorithm) :
    Within World.OnlyDrew (encodeKeySlot P kMaster recipient cipher) := by
  have hencap : Within World.OnlyDrew (encapsulate P recipient) := by
    refine .bind (fun w => .skip w _) fun e => .bind (fun w => .skip w _)
      fun r w => ?_
    cases encapsulateWith P e r recipient <;> exact .refl w
  exact .bind hencap fun _ => .bind (encryptBlock_within _ _ _ _) fun _ => .pure _

/-- A password slot opens with its password. -/
theorem IsPasswordSlot.opens {password : List UInt8} (h : IsPasswordSlot P kMaster password slot) :
    (tryPasswordSlot P slot password).isSome := by
  obtain ⟨-, key, hkey, hdec⟩ := h
  rw [tryPasswordSlot, hkey]
  exact tryCiphers_isSome hdec

theorem tryPasswordSlot_eq {password : List UInt8} (h : IsPasswordSlot P kMaster password slot)
    (honly : OnlyTriple P password slot) : tryPasswordSlot P slot password = some (kMaster, .triple) := by
  obtain ⟨-, key, hkey, hdec⟩ := h
  rw [tryPasswordSlot, hkey]
  exact tryCiphers_eq hdec (honly key hkey)

theorem tryKeySlot_eq {sk : HybridPrivateKey} {cipher : CipherAlgorithm}
    (h : IsKeySlot P kMaster (sk.publicKey P) cipher slot) (honly : OnlySealed P sk cipher slot) :
    tryKeySlot P slot sk = some (kMaster, cipher) := by
  obtain ⟨-, ct, ⟨ephSk, randomness, hwith⟩, heph, hct, hdec⟩ := h
  unfold OnlySealed at honly
  unfold tryKeySlot
  dsimp only
  rw [heph, hct, decapsulate_encapsulateWith P hwith] at honly ⊢
  exact tryCiphers_eq hdec honly

theorem encodePasswordSlot_isSlot {password : List UInt8} {kdfProfile : UInt8}
    (h : (encodePasswordSlot P kMaster password kdfProfile).run w = .ok slot w') :
    w.OnlyDrew w' ∧ IsPasswordSlot P kMaster password slot := by
  obtain ⟨hdrew, hlen, hopens⟩ := encodePasswordSlot_ok h
  exact ⟨hdrew, hlen, hopens⟩

theorem encodeKeySlot_isSlot {recipient : HybridPublicKey} {cipher : CipherAlgorithm}
    (h : (encodeKeySlot P kMaster recipient cipher).run w = .ok slot w') :
    w.OnlyDrew w' ∧ IsKeySlot P kMaster recipient cipher slot := by
  obtain ⟨hdrew, hlen, hopens⟩ := encodeKeySlot_ok h
  exact ⟨hdrew, hlen, hopens⟩

theorem encodePasswordSlot_isOk {password : List UInt8} {kdfProfile : UInt8}
    (hkey : ∃ key, passwordKey P password (w.drawn 32).toList kdfProfile = .ok key) :
    ∃ slot w', (encodePasswordSlot P kMaster password kdfProfile).run w = .ok slot w' := by
  obtain ⟨w₁, hdraw, -⟩ := fillBytes_run (ε := VnmError) 32 w
  obtain ⟨key, hkey⟩ := hkey
  have hlen : kMaster.toList.length + aadPw.length + 32 < 2 ^ 36 := by
    rw [List.Vector.toList_length]
    decide
  obtain ⟨enc, w₂, henc⟩ := @encryptBlock_isOk P key .triple _ _ w₁ hlen
  unfold encodePasswordSlot
  rw [run_bind_of_ok hdraw, run_bind_of_ok (orThrow_ok.mpr ⟨hkey, rfl⟩), run_bind_of_ok henc]
  exact ⟨_, _, rfl⟩

theorem encodeKeySlot_isOk {recipient : HybridPublicKey} {cipher : CipherAlgorithm}
    (hct : ∀ ephSk randomness, ∃ ct, encapsulateWith P ephSk randomness recipient = .ok ct) :
    ∃ slot w', (encodeKeySlot P kMaster recipient cipher).run w = .ok slot w' := by
  obtain ⟨w₁, hdraw, -⟩ := fillBytes_run (ε := VnmError) 32 w
  obtain ⟨w₂, hdraw', -⟩ := fillBytes_run (ε := VnmError) 32 w₁
  obtain ⟨ct, hct⟩ := hct (w.drawn 32) (w₁.drawn 32)
  have hlen : kMaster.toList.length + aadKey.length + 32 < 2 ^ 36 := by
    rw [List.Vector.toList_length]
    decide
  obtain ⟨enc, w₃, henc⟩ := @encryptBlock_isOk P ct.sharedSecret cipher _ _ w₂ hlen
  have hencap : (encapsulate P recipient).run w = .ok ct w₂ := by
    unfold encapsulate
    rw [run_bind_of_ok hdraw, run_bind_of_ok hdraw']
    exact orThrow_ok.mpr ⟨hct, rfl⟩
  unfold encodeKeySlot
  rw [run_bind_of_ok hencap, run_bind_of_ok henc]
  exact ⟨_, _, rfl⟩

end Slots

end Venom.Container
