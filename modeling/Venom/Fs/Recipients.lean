import Venom.Fs.NewFile

/-! # Recipients

What the recipient calls write: a slot of the recipient area, and the outer header with new
counts in both places.  Underneath is a list of the credentials that may open the
container; `Granted` says that the file carries it, and every call keeps it.
-/

namespace Venom.Fs

open Venom.Container
open Venom.Crypto
open Venom.Storage
open Venom.Library
open Venom.Library.Words
open Venom.Library.StateError

variable {P : Primitives}

/-! ## Lifting -/

section Lifting

variable {ε α : Type} {m m' : Mounted} {a : α} {e : ε}

theorem onStore_ok {x : EStateM ε OpenStore α} (h : (onStore x).run m = .ok a m') :
    ∃ s, x.run { store := m.container.store, world := m.world } = .ok a s ∧
      m' = { container := { m.container with store := s.store }, world := s.world } := by
  change onStore x m = _ at h
  unfold onStore at h
  cases hx : x.run { store := m.container.store, world := m.world } with
  | ok b s => rw [hx] at h; cases h; exact ⟨s, rfl, rfl⟩
  | error e s => rw [hx] at h; cases h

theorem onStore_error {x : EStateM ε OpenStore α} (h : (onStore x).run m = .error e m') :
    ∃ s, x.run { store := m.container.store, world := m.world } = .error e s ∧
      m' = { container := { m.container with store := s.store }, world := s.world } := by
  change onStore x m = _ at h
  unfold onStore at h
  cases hx : x.run { store := m.container.store, world := m.world } with
  | ok b s => rw [hx] at h; cases h
  | error e s => rw [hx] at h; cases h; exact ⟨s, rfl, rfl⟩

theorem onStore_run {x : EStateM ε OpenStore α} {s : OpenStore}
    (h : x.run { store := m.container.store, world := m.world } = .ok a s) : (onStore x).run m =
      .ok a { container := { m.container with store := s.store }, world := s.world } := by
  change onStore x m = _
  rw [onStore, h]

theorem onStore_run_error {x : EStateM ε OpenStore α} {s : OpenStore}
    (h : x.run { store := m.container.store, world := m.world } = .error e s) : (onStore x).run m =
      .error e { container := { m.container with store := s.store }, world := s.world } := by
  change onStore x m = _
  rw [onStore, h]

theorem onFile_ok {x : EStateM ε World α} (h : (onFile x).run m = .ok a m') :
    ∃ w, x.run m.world = .ok a w ∧ m' = { m with world := w } := by
  obtain ⟨s, hs, rfl⟩ := onStore_ok h
  obtain ⟨hx, hstore⟩ := SlotStore.onWorld_ok hs
  exact ⟨s.world, hx, by rw [hstore]⟩

theorem onFile_error {x : EStateM ε World α} (h : (onFile x).run m = .error e m') :
    ∃ w, x.run m.world = .error e w ∧ m' = { m with world := w } := by
  obtain ⟨s, hs, rfl⟩ := onStore_error h
  obtain ⟨hx, hstore⟩ := SlotStore.onWorld_error hs
  exact ⟨s.world, hx, by rw [hstore]⟩

theorem onFile_run {x : EStateM ε World α} {w : World} (h : x.run m.world = .ok a w) :
    (onFile x).run m = .ok a { m with world := w } := onStore_run (SlotStore.onWorld_run h)

end Lifting

/-! ## Writes to several parts -/

/-- A sequence of writes, one to each of a list of parts. -/
structure Rewrites (lay : Layout) (parts : List Part) (ws : List ByteFile.Write) : Prop where
  atPart : List.Forall₂ (AtPart lay) parts ws
  nodup : parts.Nodup

namespace Rewrites

variable {total : UInt64} {hidden : Option UInt64} {lay : Layout} {parts : List Part}
  {ws : List ByteFile.Write} {f : ByteFile} {p : Part} {x : ByteFile.Write}

theorem inside (h : Rewrites lay parts ws) (hs : Sizes total hidden lay) :
    ∀ x ∈ ws, x.off + x.data.length ≤ lay.fileSize.toNat := by
  intro x hx
  obtain ⟨p, -, hp⟩ := forall₂_right h.atPart hx
  exact hp.inside hs

theorem size (h : Rewrites lay parts ws) (hs : Sizes total hidden lay)
    (hsize : f.size = lay.fileSize.toNat) : (f.replay ws).size = lay.fileSize.toNat := by
  rw [ByteFile.size_replay (by rw [hsize]; exact h.inside hs), hsize]

/-- A part holds what has been written to it. -/
theorem slice (h : Rewrites lay parts ws) (hs : Sizes total hidden lay)
    (hmem : (p, x) ∈ parts.zip ws) :
    (f.replay ws).slice (lay.region p).off (lay.region p).len = x.data :=
  AtPart.slice h.atPart hs h.nodup hmem

/-- The other parts are as before. -/
theorem slice_other (h : Rewrites lay parts ws) (hs : Sizes total hidden lay)
    (hsize : f.size = lay.fileSize.toNat) (hp : lay.Has p) (hnot : p ∉ parts) :
    (f.replay ws).slice (lay.region p).off (lay.region p).len =
      f.slice (lay.region p).off (lay.region p).len := by
  refine (ByteFile.agreeOn_replay (by rw [hsize]; exact hs.inside hp) fun x hx => ?_).slice_eq
  obtain ⟨q, hq, hx⟩ := forall₂_right h.atPart hx
  exact hx.beside hs hp fun he => hnot (he ▸ hq)

theorem pwSlot_other (h : Rewrites lay parts ws) (hs : Sizes total hidden lay)
    (hsize : f.size = lay.fileSize.toNat) {i : Nat} (hi : i < maxPasswordSlots)
    (hnot : .pwSlot i ∉ parts) :
    (f.replay ws).slice (pwSlotOffset i) pwSlotSize = f.slice (pwSlotOffset i) pwSlotSize :=
  h.slice_other (p := .pwSlot i) hs hsize hi hnot

theorem keySlot_other (h : Rewrites lay parts ws) (hs : Sizes total hidden lay)
    (hsize : f.size = lay.fileSize.toNat) {j : Nat} (hj : j < maxKeySlots)
    (hnot : .keySlot j ∉ parts) :
    (f.replay ws).slice (keySlotOffset j) keySlotSize = f.slice (keySlotOffset j) keySlotSize :=
  h.slice_other (p := .keySlot j) hs hsize hj hnot

theorem pwSlot_self (h : Rewrites lay parts ws) (hs : Sizes total hidden lay) {i : Nat}
    {slot : List UInt8} (hmem : (.pwSlot i, ⟨pwSlotOffset i, slot⟩) ∈ parts.zip ws) :
    (f.replay ws).slice (pwSlotOffset i) pwSlotSize = slot :=
  h.slice (p := .pwSlot i) (x := ⟨pwSlotOffset i, slot⟩) hs hmem

theorem keySlot_self (h : Rewrites lay parts ws) (hs : Sizes total hidden lay) {j : Nat}
    {slot : List UInt8} (hmem : (.keySlot j, ⟨keySlotOffset j, slot⟩) ∈ parts.zip ws) :
    (f.replay ws).slice (keySlotOffset j) keySlotSize = slot :=
  h.slice (p := .keySlot j) (x := ⟨keySlotOffset j, slot⟩) hs hmem

end Rewrites

/-! ## The outer header with new counts -/

section Headers

variable {k : Key} {payload : HeaderPayload} {cipher : CipherAlgorithm} {raw : List UInt8}
  {nPw nKey : UInt8} {w w' : World} {f : ByteFile} {u : Unit}

theorem updateSlotCounts_ok (hf : w.file = some f) (hheader : IsHeader P k false payload raw)
    (hcipher : payload.cipher = cipher)
    (h : (updateSlotCounts P nPw nKey k cipher raw).run w = .ok u w') :
    ∃ hdr, IsHeader P k false { payload with numPasswordSlots := nPw, numKeySlots := nKey } hdr ∧
      World.Issued [⟨0, hdr⟩, ⟨inferredBackupOffset f.size, hdr⟩] w w' := by
  subst hcipher
  unfold updateSlotCounts at h
  obtain ⟨header, w₁, hthrow, h₁⟩ := run_bind_ok.mp h
  obtain ⟨hdecode, rfl⟩ := orThrow_ok.mp hthrow
  cases hheader.decode.symm.trans hdecode
  obtain ⟨hdr, w₂, hencode, h₂⟩ := run_bind_ok.mp h₁
  obtain ⟨hdrew, hisHeader⟩ := encodeHeader_isHeader hencode
  obtain ⟨w₃, w₄, hget, h₃⟩ := run_bind_ok.mp h₂
  cases hget
  rw [hdrew.file, hf] at h₃
  obtain ⟨u₁, w₅, hwrite₁, hwrite₂⟩ := run_bind_ok.mp h₃
  have i₁ := World.Issued.of_wrote (writeBytesAt_wrote hwrite₁)
  have i₂ := World.Issued.of_wrote (writeBytesAt_wrote hwrite₂)
  exact ⟨hdr, hisHeader, (i₁.drew_trans hdrew).trans i₂⟩

theorem updateSlotCounts_isOk (hf : w.file = some f) (hheader : IsHeader P k false payload raw)
    (hcipher : payload.cipher = cipher) :
    ∃ w', (updateSlotCounts P nPw nKey k cipher raw).run w = .ok () w' := by
  subst hcipher
  obtain ⟨hdr, w₁, hencode⟩ := @encodeHeader_isOk P
    { payload with numPasswordSlots := nPw, numKeySlots := nKey } k false w
  have hf₁ : w₁.file = some f := by rw [(encodeHeader_isHeader hencode).1.file, hf]
  refine ⟨(w₁.write 0 hdr f).write (inferredBackupOffset f.size) hdr (f.write 0 hdr), ?_⟩
  unfold updateSlotCounts
  rw [run_bind_of_ok (orThrow_ok.mpr ⟨hheader.decode, rfl⟩), run_bind_of_ok hencode,
    run_bind_of_ok run_get, hf₁]
  change (writeBytesAt 0 hdr >>= fun _ => writeBytesAt (inferredBackupOffset f.size) hdr).run w₁ = _
  rw [run_bind_of_ok (writeBytesAt_run hf₁)]
  exact writeBytesAt_run (World.file_write _ _ _ _)

/-- The header a call starts from. -/
theorem readHeader_ok (hf : w.file = some f) (h : readHeader.run w = .ok raw w') :
    raw = f.slice 0 512 ∧ w' = w := by
  unfold readHeader at h
  obtain ⟨w₁, w₂, hget, h₁⟩ := run_bind_ok.mp h
  cases hget
  obtain ⟨hread, rfl⟩ := orThrow_ok.mp h₁
  obtain ⟨f', hf', -, hraw⟩ := World.read_ok hread
  cases hf.symm.trans hf'
  exact ⟨hraw, rfl⟩

theorem readHeader_run (hf : w.file = some f) (hsize : 512 ≤ f.size) :
    readHeader.run w = .ok (f.slice 0 512) w := by
  unfold readHeader
  rw [run_bind_of_ok run_get]
  exact orThrow_ok.mpr ⟨World.read_eq hf (by omega), rfl⟩

end Headers

/-! ## The access list -/

/-- Who may open a container. -/
structure AccessList where
  passwords : List (List UInt8)
  keys : List HybridPublicKey

/-- A new container opens with its creation password; an empty one gets no slot. -/
def AccessList.created (outerPassword : List UInt8) : AccessList where
  passwords := if outerPassword.isEmpty then [] else [outerPassword]
  keys := []

inductive RecipientCall
  | addPassword (newPassword : List UInt8)
  | addKey (recipient : HybridPublicKey)
  | removeKey (slotIndex : Nat)

namespace RecipientCall

def run (P : Primitives) : RecipientCall → MountedM Unit
  | .addPassword newPassword => addPasswordRecipient P newPassword
  | .addKey recipient => addKeyRecipient P recipient
  | .removeKey slotIndex => removeKeyRecipient P slotIndex

/-- What a call means. -/
def apply (l : AccessList) : RecipientCall → AccessList
  | .addPassword newPassword => { l with passwords := l.passwords ++ [newPassword] }
  | .addKey recipient => { l with keys := l.keys ++ [recipient] }
  | .removeKey slotIndex => { l with keys := l.keys.eraseIdx slotIndex }

end RecipientCall

/-- The payload with the counts of a list. -/
def counted (payload : HeaderPayload) (l : AccessList) : HeaderPayload :=
  { payload with
    numPasswordSlots := UInt8.ofNat l.passwords.length
    numKeySlots := UInt8.ofNat l.keys.length }

/-- The file carries an access list: both copies of the header have its counts, and there is
    a slot for each of its entries. -/
structure Granted (P : Primitives) (lay : Layout) (k : Key) (payload : HeaderPayload)
    (l : AccessList) (f : ByteFile) : Prop where
  size : f.size = lay.fileSize.toNat
  passwords_le : l.passwords.length ≤ maxPasswordSlots
  keys_le : l.keys.length ≤ maxKeySlots
  header : IsHeader P k false (counted payload l) (f.slice 0 512)
  backup : f.slice (outerBackupOffset lay.fileSize.toNat lay.hasHidden) 512 = f.slice 0 512
  pwSlot : ∀ i p, l.passwords[i]? = some p →
    IsPasswordSlot P k p (f.slice (pwSlotOffset i) pwSlotSize)
  keySlot : ∀ j pk, l.keys[j]? = some pk →
    IsKeySlot P k pk payload.cipher (f.slice (keySlotOffset j) keySlotSize)

/-- The parts recipient management writes to. -/
def Part.IsAccess : Part → Prop
  | .outerHeader | .outerBackup | .pwSlot _ | .keySlot _ => True
  | .hiddenBackup | .hiddenPrimary | .outerSlot _ | .hiddenSlot _ => False

/-- The parts and the writes of a header with new counts. -/
def headerParts : List Part := [.outerHeader, .outerBackup]

def headerWrites (lay : Layout) (hdr : List UInt8) : List ByteFile.Write :=
  [⟨0, hdr⟩, ⟨inferredBackupOffset lay.fileSize.toNat, hdr⟩]

theorem isAccess_of_mem_headerParts {p : Part} (h : p ∈ headerParts) : p.IsAccess := by
  simp only [headerParts, List.mem_cons, List.not_mem_nil, or_false] at h
  rcases h with rfl | rfl <;> trivial

theorem toNat_ofNat_le {n : Nat} (h : n ≤ 8) : (UInt8.ofNat n).toNat = n :=
  UInt8.toNat_ofNat_of_lt (by change n < 256; omega)

section Steps

variable {total : UInt64} {hidden : Option UInt64} {lay : Layout} {k : Key} {payload : HeaderPayload}
  {l l' : AccessList} {f : ByteFile} {hdr : List UInt8}

/-- The counts a call reads. -/
theorem Granted.plaintext (h : Granted P lay k payload l f) :
    readHeaderPlaintext (f.slice 0 512) = (payload.kdfProfile, UInt8.ofNat l.passwords.length,
      UInt8.ofNat l.keys.length) := h.header.plaintext

theorem headers_atPart (hs : Sizes total hidden lay) (hlen : hdr.length = headerSize) :
    List.Forall₂ (AtPart lay) headerParts (headerWrites lay hdr) := by
  unfold headerParts headerWrites
  rw [hs.inferredBackup]
  exact .cons ⟨trivial, rfl, hlen⟩ (.cons ⟨trivial, rfl, hlen⟩ .nil)

/-- Slots of the recipient area and a header with the counts of a list have been written. -/
theorem Granted.of_rewrites {slots : List Part} {ws : List ByteFile.Write}
    (h : Granted P lay k payload l f) (hs : Sizes total hidden lay)
    (hr : Rewrites lay (slots ++ headerParts) (ws ++ headerWrites lay hdr))
    (hlength : slots.length = ws.length) (hhdr : IsHeader P k false (counted payload l') hdr)
    (hpwLe : l'.passwords.length ≤ maxPasswordSlots) (hkeyLe : l'.keys.length ≤ maxKeySlots)
    (hpw : ∀ i p, l'.passwords[i]? = some p → IsPasswordSlot P k p
      ((f.replay (ws ++ headerWrites lay hdr)).slice (pwSlotOffset i) pwSlotSize))
    (hkey : ∀ j pk, l'.keys[j]? = some pk → IsKeySlot P k pk payload.cipher
      ((f.replay (ws ++ headerWrites lay hdr)).slice (keySlotOffset j) keySlotSize)) :
    Granted P lay k payload l' (f.replay (ws ++ headerWrites lay hdr)) := by
  have hzip : ∀ p x, (p, x) ∈ headerParts.zip (headerWrites lay hdr) →
      (p, x) ∈ (slots ++ headerParts).zip (ws ++ headerWrites lay hdr) := by
    intro p x hx
    rw [List.zip_append hlength]
    exact List.mem_append_right _ hx
  have hprimary := hr.slice (f := f) hs (hzip .outerHeader ⟨0, hdr⟩ (.head _))
  have hregion : lay.region .outerHeader = ⟨0, 512⟩ := rfl
  rw [hregion] at hprimary
  have hcopy := hr.slice (f := f) hs
    (hzip .outerBackup ⟨inferredBackupOffset lay.fileSize.toNat, hdr⟩ (.tail _ (.head _)))
  have hregion' : lay.region .outerBackup =
      ⟨outerBackupOffset lay.fileSize.toNat lay.hasHidden, 512⟩ := rfl
  rw [hregion'] at hcopy
  dsimp only at hprimary hcopy
  refine ⟨hr.size hs h.size, hpwLe, hkeyLe, ?_, ?_, hpw, hkey⟩
  · rw [hprimary]
    exact hhdr
  · rw [hprimary, hcopy]

/-! ### One call -/

/-- What a successful call has done. -/
structure Regranted (P : Primitives) (lay : Layout) (k : Key) (payload : HeaderPayload)
    (l' : AccessList) (f : ByteFile) (m m' : Mounted) (parts : List Part)
    (ws : List ByteFile.Write) : Prop where
  rewrites : Rewrites lay parts ws
  access : ∀ p ∈ parts, p.IsAccess
  issued : World.Issued ws m.world m'.world
  container : m'.container = m.container
  granted : Granted P lay k payload l' (f.replay ws)

theorem ofNat_succ (n : Nat) : UInt8.ofNat n + 1 = UInt8.ofNat (n + 1) := (UInt8.ofNat_add n 1).symm

theorem ofNat_pred {n : Nat} (h : 0 < n) : UInt8.ofNat n - 1 = UInt8.ofNat (n - 1) := by
  obtain ⟨n, rfl⟩ := Nat.exists_eq_succ_of_ne_zero (Nat.pos_iff_ne_zero.mp h)
  rw [← ofNat_succ, Nat.succ_sub_one]
  exact UInt8.add_sub_cancel _ _

theorem getElem?_concat_eq_some {α : Type} {xs : List α} {a b : α} {i : Nat}
    (h : (xs ++ [a])[i]? = some b) : xs[i]? = some b ∨ i = xs.length ∧ b = a := by
  rcases Nat.lt_trichotomy i xs.length with hlt | heq | hgt
  · rw [List.getElem?_append_left hlt] at h
    exact .inl h
  · rw [heq, List.getElem?_append_right (Nat.le_refl _), Nat.sub_self] at h
    exact .inr ⟨heq, (Option.some.inj h).symm⟩
  · rw [List.getElem?_eq_none (by rw [List.length_append, List.length_singleton]; omega)] at h
    cases h

section Calls

variable {m m' : Mounted} {u : Unit}

/-- Slots of the recipient area are written, then the header. -/
theorem Rewrites.headers {slots : List Part} {ws : List ByteFile.Write} (h : Rewrites lay slots ws)
    (hs : Sizes total hidden lay) (hlen : hdr.length = headerSize)
    (hne : ∀ p ∈ slots, p ∉ headerParts) :
    Rewrites lay (slots ++ headerParts) (ws ++ headerWrites lay hdr) :=
  ⟨List.rel_append h.atPart (headers_atPart hs hlen),
    h.nodup.append (by simp [headerParts]) fun p hp hp' => hne p hp hp'⟩

theorem Rewrites.one {p : Part} {x : ByteFile.Write} (h : AtPart lay p x) : Rewrites lay [p] [x] :=
  ⟨.cons h .nil, List.nodup_singleton p⟩

theorem counted_addPassword (newPassword : List UInt8) :
    counted payload (RecipientCall.apply l (.addPassword newPassword)) =
      { counted payload l with
        numPasswordSlots := UInt8.ofNat (l.passwords.length + 1)
        numKeySlots := UInt8.ofNat l.keys.length } := by
  simp [counted, RecipientCall.apply]

theorem addPassword_ok {newPassword : List UInt8} (h : Granted P lay k payload l f)
    (hs : Sizes total hidden lay) (hf : m.world.file = some f) (hk : m.container.kMaster = k)
    (hcipher : payload.cipher = m.container.cipher)
    (hrun : (addPasswordRecipient P newPassword).run m = .ok u m') :
    ∃ parts ws, Regranted P lay k payload (RecipientCall.apply l (.addPassword newPassword)) f m m'
      parts ws := by
  unfold addPasswordRecipient at hrun
  obtain ⟨m₀, m₁, hget, hrun₁⟩ := run_bind_ok.mp hrun
  cases hget
  obtain ⟨w, hfile, rfl⟩ := onFile_ok hrun₁
  obtain ⟨raw, w₁, hread, h₁⟩ := run_bind_ok.mp hfile
  obtain ⟨hraw, rfl⟩ := readHeader_ok hf hread
  rw [hraw, h.plaintext] at h₁
  dsimp only at h₁
  rw [toNat_ofNat_le h.passwords_le] at h₁
  by_cases hfull : maxPasswordSlots ≤ l.passwords.length
  · rw [if_pos hfull] at h₁
    cases h₁
  · rw [if_neg hfull] at h₁
    obtain ⟨slot, w₂, hencode, h₂⟩ := run_bind_ok.mp h₁
    obtain ⟨u₁, w₃, hwrite, hupdate⟩ := run_bind_ok.mp h₂
    obtain ⟨hdrew, hslot⟩ := encodePasswordSlot_isSlot hencode
    rw [hk] at hslot hupdate
    have hissued := (World.Issued.of_wrote (writeBytesAt_wrote hwrite)).drew_trans hdrew
    obtain ⟨hdr, hheader, hissued'⟩ := updateSlotCounts_ok (hissued.file_eq hf) h.header hcipher hupdate
    rw [ofNat_succ, ← counted_addPassword newPassword] at hheader
    have hone : Rewrites lay [.pwSlot l.passwords.length] [⟨pwSlotOffset l.passwords.length, slot⟩] :=
      .one ⟨Nat.lt_of_not_le hfull, rfl, hslot.1⟩
    have hr := @Rewrites.headers _ _ _ hdr _ _ hone hs hheader.length (by simp [headerParts])
    rw [hone.size hs h.size] at hissued'
    refine ⟨_, _, hr, by simp [headerParts, Part.IsAccess], hissued.trans hissued', rfl,
      h.of_rewrites hs hr rfl hheader ?_ h.keys_le ?_ ?_⟩
    · change (l.passwords ++ [newPassword]).length ≤ _
      rw [List.length_append, List.length_singleton]
      exact Nat.lt_of_not_le hfull
    · intro i p hi
      rcases getElem?_concat_eq_some hi with hold | ⟨rfl, rfl⟩
      · have hlt := (List.getElem?_eq_some_iff.mp hold).1
        rw [hr.pwSlot_other hs h.size (by omega) (by simp [headerParts]; omega)]
        exact h.pwSlot i p hold
      · rw [hr.pwSlot_self hs (.head _)]
        exact hslot
    · intro j pk hj
      have hlt : j < maxKeySlots :=
        Nat.lt_of_lt_of_le (List.getElem?_eq_some_iff.mp hj).1 h.keys_le
      rw [hr.keySlot_other hs h.size hlt (by simp [headerParts])]
      exact h.keySlot j pk hj

theorem counted_addKey (recipient : HybridPublicKey) :
    counted payload (RecipientCall.apply l (.addKey recipient)) =
      { counted payload l with
        numPasswordSlots := UInt8.ofNat l.passwords.length
        numKeySlots := UInt8.ofNat (l.keys.length + 1) } := by
  simp [counted, RecipientCall.apply]

theorem addKey_ok {recipient : HybridPublicKey} (h : Granted P lay k payload l f)
    (hs : Sizes total hidden lay) (hf : m.world.file = some f) (hk : m.container.kMaster = k)
    (hcipher : payload.cipher = m.container.cipher)
    (hrun : (addKeyRecipient P recipient).run m = .ok u m') :
    ∃ parts ws, Regranted P lay k payload (RecipientCall.apply l (.addKey recipient)) f m m'
      parts ws := by
  unfold addKeyRecipient at hrun
  obtain ⟨m₀, m₁, hget, hrun₁⟩ := run_bind_ok.mp hrun
  cases hget
  obtain ⟨w, hfile, rfl⟩ := onFile_ok hrun₁
  obtain ⟨raw, w₁, hread, h₁⟩ := run_bind_ok.mp hfile
  obtain ⟨hraw, rfl⟩ := readHeader_ok hf hread
  rw [hraw, h.plaintext] at h₁
  dsimp only at h₁
  rw [toNat_ofNat_le h.keys_le] at h₁
  by_cases hfull : maxKeySlots ≤ l.keys.length
  · rw [if_pos hfull] at h₁
    cases h₁
  · rw [if_neg hfull] at h₁
    obtain ⟨slot, w₂, hencode, h₂⟩ := run_bind_ok.mp h₁
    obtain ⟨u₁, w₃, hwrite, hupdate⟩ := run_bind_ok.mp h₂
    obtain ⟨hdrew, hslot⟩ := encodeKeySlot_isSlot hencode
    rw [hk, ← hcipher] at hslot
    rw [hk] at hupdate
    have hissued := (World.Issued.of_wrote (writeBytesAt_wrote hwrite)).drew_trans hdrew
    obtain ⟨hdr, hheader, hissued'⟩ := updateSlotCounts_ok (hissued.file_eq hf) h.header hcipher hupdate
    rw [ofNat_succ, ← counted_addKey recipient] at hheader
    have hone : Rewrites lay [.keySlot l.keys.length] [⟨keySlotOffset l.keys.length, slot⟩] :=
      .one ⟨Nat.lt_of_not_le hfull, rfl, hslot.1⟩
    have hr := @Rewrites.headers _ _ _ hdr _ _ hone hs hheader.length (by simp [headerParts])
    rw [hone.size hs h.size] at hissued'
    refine ⟨_, _, hr, by simp [headerParts, Part.IsAccess], hissued.trans hissued', rfl,
      h.of_rewrites hs hr rfl hheader h.passwords_le ?_ ?_ ?_⟩
    · change (l.keys ++ [recipient]).length ≤ _
      rw [List.length_append, List.length_singleton]
      exact Nat.lt_of_not_le hfull
    · intro i p hi
      have hlt : i < maxPasswordSlots :=
        Nat.lt_of_lt_of_le (List.getElem?_eq_some_iff.mp hi).1 h.passwords_le
      rw [hr.pwSlot_other hs h.size hlt (by simp [headerParts])]
      exact h.pwSlot i p hi
    · intro j pk hj
      rcases getElem?_concat_eq_some hj with hold | ⟨rfl, rfl⟩
      · have hlt := (List.getElem?_eq_some_iff.mp hold).1
        rw [hr.keySlot_other hs h.size (by omega) (by simp [headerParts]; omega)]
        exact h.keySlot j pk hold
      · rw [hr.keySlot_self hs (.head _)]
        exact hslot

/-! ### Removing a key -/

/-- The parts and the writes of a list of key slots, the first at index 0. -/
def keyParts (slots : List (List UInt8)) : List Part := slots.zipIdx.map fun s => .keySlot s.2

/-- Key slots with their indices. -/
def indexedWrites (slots : List (List UInt8 × Nat)) : List ByteFile.Write :=
  slots.map fun s => ⟨keySlotOffset s.2, s.1⟩

def keyWrites (slots : List (List UInt8)) : List ByteFile.Write := indexedWrites slots.zipIdx

theorem keyParts_eq (slots : List (List UInt8)) :
    keyParts slots = (List.range slots.length).map .keySlot := by
  rw [List.range_eq_range', ← List.zipIdx_map_snd 0 slots, List.map_map]
  rfl

theorem mem_keyParts {slots : List (List UInt8)} {p : Part} (h : p ∈ keyParts slots) :
    ∃ j, p = .keySlot j := by
  rw [keyParts_eq] at h
  obtain ⟨j, -, rfl⟩ := List.mem_map.mp h
  exact ⟨j, rfl⟩

theorem length_keyWrites (slots : List (List UInt8)) :
    (keyParts slots).length = (keyWrites slots).length := by
  rw [keyParts, keyWrites, indexedWrites, List.length_map, List.length_map]

theorem writeKeySlots_ok {slots : List (List UInt8)} {w w' : World}
    (h : (writeKeySlots slots).run w = .ok u w') : World.Issued (keyWrites slots) w w' := by
  refine forM_ok_induction (fun done v => World.Issued (indexedWrites done) w v) (l := slots.zipIdx) h
    (.of_drew (.refl w)) fun done s rest v v' _ hinv hrun => ?_
  have hstep := World.Issued.of_wrote (writeBytesAt_wrote hrun)
  rw [indexedWrites, List.map_append, List.map_singleton]
  exact hinv.trans hstep

/-- Key slots written from the first on. -/
theorem keySlots_rewrites {slots : List (List UInt8)} (hlen : ∀ s ∈ slots, s.length = keySlotSize)
    (hle : slots.length ≤ maxKeySlots) : Rewrites lay (keyParts slots) (keyWrites slots) := by
  refine ⟨?_, ?_⟩
  · unfold keyParts keyWrites indexedWrites
    rw [List.forall₂_map_left_iff, List.forall₂_map_right_iff, List.forall₂_same]
    intro s hmem
    obtain ⟨hlt, hget⟩ := List.mem_zipIdx' hmem
    exact ⟨Nat.lt_of_lt_of_le hlt hle, rfl, hlen _ (hget ▸ List.getElem_mem hlt)⟩
  · rw [keyParts_eq]
    exact List.nodup_range.map fun _ _ he => Part.keySlot.inj he

/-- What has been written to one of the key slots. -/
theorem mem_keyWrites {slots : List (List UInt8)} {j : Nat} {slot : List UInt8}
    (h : slots[j]? = some slot) :
    (Part.keySlot j, (⟨keySlotOffset j, slot⟩ : ByteFile.Write)) ∈
      (keyParts slots ++ headerParts).zip (keyWrites slots ++ headerWrites lay hdr) := by
  rw [List.zip_append (length_keyWrites slots), keyParts, keyWrites, indexedWrites, List.zip_map']
  exact List.mem_append_left _ (List.mem_map.mpr ⟨(slot, j), List.mem_zipIdx_iff_getElem?.mpr h, rfl⟩)

theorem readKeySlots_run {n : Nat} {w : World} (hf : w.file = some f)
    (hsize : ∀ j < n, keySlotOffset j + keySlotSize ≤ f.size) : (readKeySlots n).run w =
      .ok ((List.range n).map fun j => f.slice (keySlotOffset j) keySlotSize) w := by
  have hread : ∀ j ∈ List.range n, readKeySlotRaw w j = .ok (f.slice (keySlotOffset j) keySlotSize) :=
    fun j hj => World.read_eq hf (hsize j (List.mem_range.mp hj))
  unfold readKeySlots
  rw [run_bind_of_ok run_get]
  exact orThrow_ok.mpr ⟨except_mapM_ok hread, rfl⟩

theorem counted_removeKey {slotIndex : Nat} (h : slotIndex < l.keys.length) :
    counted payload (RecipientCall.apply l (.removeKey slotIndex)) =
      { counted payload l with
        numPasswordSlots := UInt8.ofNat l.passwords.length
        numKeySlots := UInt8.ofNat (l.keys.length - 1) } := by
  simp [counted, RecipientCall.apply, List.length_eraseIdx, h]

/-- The slot kept at an index is that of the recipient kept there. -/
theorem getElem?_kept {n i j : Nat} {pk : HybridPublicKey} {slot : Nat → List UInt8}
    (hn : l.keys.length = n) (h : (l.keys.eraseIdx i)[j]? = some pk) :
    ∃ j', l.keys[j']? = some pk ∧ (((List.range n).map slot).eraseIdx i)[j]? = some (slot j') := by
  have hget : ∀ j', l.keys[j']? = some pk → ((List.range n).map slot)[j']? = some (slot j') := by
    intro j' hj'
    have hlt := (List.getElem?_eq_some_iff.mp hj').1
    rw [List.getElem?_map, List.getElem?_range (by omega)]
    rfl
  rw [List.getElem?_eraseIdx] at h ⊢
  by_cases hlt : j < i
  · rw [if_pos hlt] at h ⊢
    exact ⟨j, h, hget j h⟩
  · rw [if_neg hlt] at h ⊢
    exact ⟨j + 1, h, hget _ h⟩

theorem removeKey_ok {slotIndex : Nat} (h : Granted P lay k payload l f)
    (hs : Sizes total hidden lay) (hf : m.world.file = some f) (hk : m.container.kMaster = k)
    (hcipher : payload.cipher = m.container.cipher)
    (hrun : (removeKeyRecipient P slotIndex).run m = .ok u m') :
    ∃ parts ws, Regranted P lay k payload (RecipientCall.apply l (.removeKey slotIndex)) f m m'
      parts ws := by
  unfold removeKeyRecipient at hrun
  obtain ⟨m₀, m₁, hget, hrun₁⟩ := run_bind_ok.mp hrun
  cases hget
  obtain ⟨w, hfile, rfl⟩ := onFile_ok hrun₁
  obtain ⟨raw, w₁, hread, h₁⟩ := run_bind_ok.mp hfile
  obtain ⟨hraw, rfl⟩ := readHeader_ok hf hread
  rw [hraw, h.plaintext] at h₁
  dsimp only at h₁
  rw [toNat_ofNat_le h.keys_le] at h₁
  by_cases hrange : l.keys.length ≤ slotIndex
  · rw [if_pos hrange] at h₁
    cases h₁
  · rw [if_neg hrange] at h₁
    have hlt : slotIndex < l.keys.length := Nat.lt_of_not_le hrange
    obtain ⟨slots, w₂, hslots, h₂⟩ := run_bind_ok.mp h₁
    obtain ⟨u₁, w₃, hkept, h₃⟩ := run_bind_ok.mp h₂
    obtain ⟨random, w₄, hdraw, h₄⟩ := run_bind_ok.mp h₃
    obtain ⟨u₂, w₅, hwipe, hupdate⟩ := run_bind_ok.mp h₄
    have hreadAll := readKeySlots_run (n := l.keys.length) hf fun j hj => by
      rw [h.size]
      exact hs.inside (p := .keySlot j) (Nat.lt_of_lt_of_le hj h.keys_le)
    cases hreadAll.symm.trans hslots
    obtain ⟨kept, hkeptEq⟩ : ∃ kept, kept = ((List.range l.keys.length).map fun j =>
      f.slice (keySlotOffset j) keySlotSize).eraseIdx slotIndex := ⟨_, rfl⟩
    rw [← hkeptEq] at hkept hwipe
    have hcount : kept.length = l.keys.length - 1 := by
      rw [hkeptEq, List.length_eraseIdx, List.length_map, List.length_range, if_pos hlt]
    have hlen : ∀ s ∈ kept ++ [random.toList], s.length = keySlotSize := by
      intro s hmem
      rcases List.mem_append.mp hmem with hmem | hmem
      · rw [hkeptEq] at hmem
        obtain ⟨j, -, rfl⟩ := List.mem_map.mp (List.mem_of_mem_eraseIdx hmem)
        exact ByteFile.length_slice _ _ _
      · rw [List.mem_singleton.mp hmem]
        exact List.Vector.toList_length _
    have hslotsAll : Rewrites lay (keyParts (kept ++ [random.toList]))
        (keyWrites (kept ++ [random.toList])) := by
      refine keySlots_rewrites hlen ?_
      rw [List.length_append, List.length_singleton, hcount]
      have := h.keys_le
      omega
    have hwrites : keyWrites (kept ++ [random.toList]) =
        keyWrites kept ++ [⟨keySlotOffset kept.length, random.toList⟩] := by
      rw [keyWrites, List.zipIdx_append, indexedWrites, List.map_append, Nat.zero_add]
      rfl
    have hwiped := (World.Issued.of_wrote (writeBytesAt_wrote hwipe)).drew_trans (fillBytes_ok hdraw).2
    have hissued := (writeKeySlots_ok hkept).trans hwiped
    rw [← hwrites] at hissued
    rw [hk] at hupdate
    obtain ⟨hdr, hheader, hissued'⟩ := updateSlotCounts_ok (hissued.file_eq hf) h.header hcipher hupdate
    rw [ofNat_pred (by omega), ← counted_removeKey hlt] at hheader
    have hr := @Rewrites.headers _ _ _ hdr _ _ hslotsAll hs hheader.length (by
      intro p hp
      obtain ⟨j, rfl⟩ := mem_keyParts hp
      simp [headerParts])
    rw [hslotsAll.size hs h.size] at hissued'
    refine ⟨_, _, hr, ?_, hissued.trans hissued', rfl,
      h.of_rewrites hs hr (length_keyWrites _) hheader h.passwords_le ?_ ?_ ?_⟩
    · intro p hp
      rcases List.mem_append.mp hp with hp | hp
      · obtain ⟨j, rfl⟩ := mem_keyParts hp
        trivial
      · exact isAccess_of_mem_headerParts hp
    · exact (List.length_eraseIdx_le _ _).trans h.keys_le
    · intro i p hi
      have hi' : i < maxPasswordSlots :=
        Nat.lt_of_lt_of_le (List.getElem?_eq_some_iff.mp hi).1 h.passwords_le
      have hnot : Part.pwSlot i ∉ keyParts (kept ++ [random.toList]) ++ headerParts := by
        intro hp
        rcases List.mem_append.mp hp with hp | hp
        · obtain ⟨j, he⟩ := mem_keyParts hp
          cases he
        · simp [headerParts] at hp
      rw [hr.pwSlot_other hs h.size hi' hnot]
      exact h.pwSlot i p hi
    · intro j pk hj
      obtain ⟨j', hold, hslot⟩ := @getElem?_kept _ _ _ _ _
        (fun j => f.slice (keySlotOffset j) keySlotSize) rfl hj
      rw [← hkeptEq] at hslot
      have hlast : (kept ++ [random.toList])[j]? = some (f.slice (keySlotOffset j') keySlotSize) := by
        rw [List.getElem?_append_left (List.getElem?_eq_some_iff.mp hslot).1]
        exact hslot
      rw [hr.keySlot_self hs (mem_keyWrites hlast)]
      exact h.keySlot j' pk hold

theorem RecipientCall.run_ok {c : RecipientCall} (h : Granted P lay k payload l f)
    (hs : Sizes total hidden lay) (hf : m.world.file = some f) (hk : m.container.kMaster = k)
    (hcipher : payload.cipher = m.container.cipher) (hrun : (c.run P).run m = .ok u m') :
    ∃ parts ws, Regranted P lay k payload (c.apply l) f m m' parts ws := by
  cases c with
  | addPassword newPassword => exact addPassword_ok h hs hf hk hcipher hrun
  | addKey recipient => exact addKey_ok h hs hf hk hcipher hrun
  | removeKey slotIndex => exact removeKey_ok h hs hf hk hcipher hrun

/-! ### A call that fails -/

/-- Nothing but random bytes has been drawn. -/
structure Untouched (m m' : Mounted) : Prop where
  container : m'.container = m.container
  drew : m.world.OnlyDrew m'.world

theorem Untouched.refl (m : Mounted) : Untouched m m := ⟨rfl, .refl m.world⟩

theorem Granted.large (h : Granted P lay k payload l f) (hs : Sizes total hidden lay) :
    512 ≤ f.size := by
  have hinside := hs.inside (p := .outerHeader) trivial
  rw [h.size]
  exact (Nat.zero_add 512).symm.le.trans hinside

theorem fault_of_run {ε σ α : Type} {x : EStateM ε σ α} {s s' s'' : σ} {e : ε} {a : α}
    (herror : x.run s = .error e s') (hok : x.run s = .ok a s'') : False := by
  rw [herror] at hok
  cases hok

/-- Once its slot has been encoded, nothing can keep a call from finishing. -/
theorem finish_isOk {w : World} {off : Nat} {slot raw : List UInt8} {nPw nKey : UInt8}
    {payload : HeaderPayload} {cipher : CipherAlgorithm} (hf : w.file = some f)
    (hheader : IsHeader P k false payload raw) (hcipher : payload.cipher = cipher) :
    ∃ w', (writeBytesAt off slot >>= fun _ => updateSlotCounts P nPw nKey k cipher raw).run w =
      .ok () w' := by
  obtain ⟨w', hupdate⟩ := @updateSlotCounts_isOk P _ _ _ _ nPw nKey _ _
    (World.file_write w off slot f) hheader hcipher
  exact ⟨w', (run_bind_of_ok (writeBytesAt_run hf)).trans hupdate⟩

theorem addPassword_isOk {newPassword slot : List UInt8} {w : World}
    (h : Granted P lay k payload l f) (hs : Sizes total hidden lay) (hf : m.world.file = some f)
    (hk : m.container.kMaster = k) (hcipher : payload.cipher = m.container.cipher)
    (hlt : l.passwords.length < maxPasswordSlots)
    (hencode : (encodePasswordSlot P k newPassword payload.kdfProfile).run m.world = .ok slot w) :
    ∃ m', (addPasswordRecipient P newPassword).run m = .ok () m' := by
  have hfile : w.file = some f := by rw [(encodePasswordSlot_isSlot hencode).1.file, hf]
  obtain ⟨w', hfinish⟩ := @finish_isOk P _ _ _ (pwSlotOffset l.passwords.length) slot _
    (UInt8.ofNat l.passwords.length + 1) (UInt8.ofNat l.keys.length) _ _ hfile h.header hcipher
  refine ⟨{ m with world := w' }, ?_⟩
  unfold addPasswordRecipient
  rw [run_bind_of_ok run_get, hk]
  refine onFile_run ?_
  rw [run_bind_of_ok (readHeader_run hf (h.large hs)), h.plaintext]
  dsimp only
  rw [toNat_ofNat_le h.passwords_le, if_neg (Nat.not_le_of_lt hlt), run_bind_of_ok hencode]
  exact hfinish

theorem addKey_isOk {recipient : HybridPublicKey} {slot : List UInt8} {w : World}
    (h : Granted P lay k payload l f) (hs : Sizes total hidden lay) (hf : m.world.file = some f)
    (hk : m.container.kMaster = k) (hcipher : payload.cipher = m.container.cipher)
    (hlt : l.keys.length < maxKeySlots)
    (hencode : (encodeKeySlot P k recipient m.container.cipher).run m.world = .ok slot w) :
    ∃ m', (addKeyRecipient P recipient).run m = .ok () m' := by
  have hfile : w.file = some f := by rw [(encodeKeySlot_isSlot hencode).1.file, hf]
  obtain ⟨w', hfinish⟩ := @finish_isOk P _ _ _ (keySlotOffset l.keys.length) slot _
    (UInt8.ofNat l.passwords.length) (UInt8.ofNat l.keys.length + 1) _ _ hfile h.header hcipher
  refine ⟨{ m with world := w' }, ?_⟩
  unfold addKeyRecipient
  rw [run_bind_of_ok run_get, hk]
  refine onFile_run ?_
  rw [run_bind_of_ok (readHeader_run hf (h.large hs)), h.plaintext]
  dsimp only
  rw [toNat_ofNat_le h.keys_le, if_neg (Nat.not_le_of_lt hlt), run_bind_of_ok hencode]
  exact hfinish

theorem addPassword_error {newPassword : List UInt8} {e : VnmError}
    (h : Granted P lay k payload l f) (hs : Sizes total hidden lay) (hf : m.world.file = some f)
    (hk : m.container.kMaster = k) (hcipher : payload.cipher = m.container.cipher)
    (hrun : (addPasswordRecipient P newPassword).run m = .error e m') : Untouched m m' := by
  unfold addPasswordRecipient at hrun
  rw [run_bind_of_ok run_get, hk] at hrun
  obtain ⟨w, hfile, rfl⟩ := onFile_error hrun
  rw [run_bind_of_ok (readHeader_run hf (h.large hs)), h.plaintext] at hfile
  dsimp only at hfile
  by_cases hfull : maxPasswordSlots ≤ (UInt8.ofNat l.passwords.length).toNat
  · rw [if_pos hfull] at hfile
    cases hfile
    exact .refl m
  · rw [if_neg hfull] at hfile
    rcases run_bind_error.mp hfile with hencode | ⟨slot, w₁, hencode, hfinish⟩
    · exact ⟨rfl, (encodePasswordSlot_within _ _ _).error hencode⟩
    · have hf₁ : w₁.file = some f := by rw [(encodePasswordSlot_isSlot hencode).1.file, hf]
      obtain ⟨w', hok⟩ := finish_isOk (P := P) hf₁ h.header hcipher
      exact (fault_of_run hfinish hok).elim

theorem addKey_error {recipient : HybridPublicKey} {e : VnmError}
    (h : Granted P lay k payload l f) (hs : Sizes total hidden lay) (hf : m.world.file = some f)
    (hk : m.container.kMaster = k) (hcipher : payload.cipher = m.container.cipher)
    (hrun : (addKeyRecipient P recipient).run m = .error e m') : Untouched m m' := by
  unfold addKeyRecipient at hrun
  rw [run_bind_of_ok run_get, hk] at hrun
  obtain ⟨w, hfile, rfl⟩ := onFile_error hrun
  rw [run_bind_of_ok (readHeader_run hf (h.large hs)), h.plaintext] at hfile
  dsimp only at hfile
  by_cases hfull : maxKeySlots ≤ (UInt8.ofNat l.keys.length).toNat
  · rw [if_pos hfull] at hfile
    cases hfile
    exact .refl m
  · rw [if_neg hfull] at hfile
    rcases run_bind_error.mp hfile with hencode | ⟨slot, w₁, hencode, hfinish⟩
    · exact ⟨rfl, (encodeKeySlot_within _ _ _).error hencode⟩
    · have hf₁ : w₁.file = some f := by rw [(encodeKeySlot_isSlot hencode).1.file, hf]
      obtain ⟨w', hok⟩ := finish_isOk (P := P) hf₁ h.header hcipher
      exact (fault_of_run hfinish hok).elim

/-- There is a file to write to, so writing key slots does not fail. -/
theorem writeKeySlots_isOk {slots : List (List UInt8)} {w : World} (hf : w.file = some f) :
    ∃ w', (writeKeySlots slots).run w = .ok () w' := by
  obtain ⟨w', hrun, -⟩ := forM_total (l := slots.zipIdx) (s := w)
    (f := fun s => writeBytesAt (keySlotOffset s.2) s.1) (fun _ v => ∃ g, v.file = some g) ⟨f, hf⟩
    fun done s rest v _ ⟨g, hg⟩ => ⟨_, writeBytesAt_run hg, _, World.file_write v _ _ g⟩
  exact ⟨w', hrun⟩

theorem removeKey_error {slotIndex : Nat} {e : VnmError}
    (h : Granted P lay k payload l f) (hs : Sizes total hidden lay) (hf : m.world.file = some f)
    (hk : m.container.kMaster = k) (hcipher : payload.cipher = m.container.cipher)
    (hrun : (removeKeyRecipient P slotIndex).run m = .error e m') : Untouched m m' := by
  unfold removeKeyRecipient at hrun
  rw [run_bind_of_ok run_get, hk] at hrun
  obtain ⟨w, hfile, rfl⟩ := onFile_error hrun
  rw [run_bind_of_ok (readHeader_run hf (h.large hs)), h.plaintext] at hfile
  dsimp only at hfile
  rw [toNat_ofNat_le h.keys_le] at hfile
  by_cases hrange : l.keys.length ≤ slotIndex
  · rw [if_pos hrange] at hfile
    cases hfile
    exact .refl m
  · have hreadAll := readKeySlots_run (n := l.keys.length) hf fun j hj => by
      rw [h.size]
      exact hs.inside (p := .keySlot j) (Nat.lt_of_lt_of_le hj h.keys_le)
    rw [if_neg hrange, run_bind_of_ok hreadAll] at hfile
    obtain ⟨w₁, hkept⟩ := @writeKeySlots_isOk _ (((List.range l.keys.length).map
      fun j => f.slice (keySlotOffset j) keySlotSize).eraseIdx slotIndex) _ hf
    have hf₁ := (writeKeySlots_ok hkept).file_eq hf
    rw [run_bind_of_ok hkept, run_bind_of_ok (fillBytes_eq _ _)] at hfile
    obtain ⟨w', hok⟩ := finish_isOk (P := P) (w := w₁.skip keySlotSize) hf₁ h.header hcipher
    exact (fault_of_run hfile hok).elim

/-- A call that fails leaves the file alone. -/
theorem RecipientCall.run_error {c : RecipientCall} {e : VnmError}
    (h : Granted P lay k payload l f) (hs : Sizes total hidden lay) (hf : m.world.file = some f)
    (hk : m.container.kMaster = k) (hcipher : payload.cipher = m.container.cipher)
    (hrun : (c.run P).run m = .error e m') : Untouched m m' := by
  cases c with
  | addPassword newPassword => exact addPassword_error h hs hf hk hcipher hrun
  | addKey recipient => exact addKey_error h hs hf hk hcipher hrun
  | removeKey slotIndex => exact removeKey_error h hs hf hk hcipher hrun

end Calls

end Steps

end Venom.Fs
