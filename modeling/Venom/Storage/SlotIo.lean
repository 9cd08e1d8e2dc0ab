import Venom.Storage.SlotStore

/-! # Slot input and output

What the calls of the slot store do to the file.  `Holds` says that a slot's bytes decrypt
to a plaintext; a write makes its slot hold what was written and leaves the bytes of all
others alone.
-/

namespace Venom.Storage.SlotStore

open Venom.Container (CipherAlgorithm slotSize dataAreaOffset)
open Venom.Crypto
open Venom.Library
open Venom.Library.Words
open Venom.Library.StateError

variable {P : Primitives}

/-- The slot lies in the file and decrypts to `data`. -/
def Holds (P : Primitives) (st : SlotStore) (f : ByteFile) (slot : Nat) (data : List UInt8) : Prop :=
  slotOffset slot + slotSize ≤ f.size ∧
    st.openSlot P slot (f.slice (slotOffset slot) slotSize) = .ok data

section Holds

variable {st st' : SlotStore} {f f' : ByteFile} {w : World} {slot : Nat} {data : List UInt8}

/-- Decryption sees the key and the cipher only. -/
theorem openSlot_congr (hkey : st'.masterKey = st.masterKey) (hcipher : st'.cipher = st.cipher)
    (slot : Nat) (buf : List UInt8) : st'.openSlot P slot buf = st.openSlot P slot buf := by
  unfold openSlot deriveSlotKey
  rw [hkey, hcipher]

theorem Holds.of_store (h : Holds P st f slot data) (hkey : st'.masterKey = st.masterKey)
    (hcipher : st'.cipher = st.cipher) : Holds P st' f slot data :=
  ⟨h.1, by rw [openSlot_congr hkey hcipher]; exact h.2⟩

theorem Holds.of_agree (h : Holds P st f slot data) (hsize : f.size ≤ f'.size)
    (hagree : ByteFile.AgreeOn (slotOffset slot) slotSize f' f) : Holds P st f' slot data :=
  ⟨h.1.trans hsize, by rw [hagree.slice_eq]; exact h.2⟩

theorem read_eq_ok (hf : w.file = some f) :
    st.read P w slot = .ok data ↔ Holds P st f slot data := by
  unfold read Holds
  constructor
  · intro h
    obtain ⟨buf, hbuf, hopen⟩ := except_bind_ok.mp h
    obtain ⟨f₁, hf₁, hle, hslice⟩ := World.read_ok hbuf
    rw [hf, Option.some.injEq] at hf₁
    rw [hslice, ← hf₁] at hopen
    exact ⟨hf₁ ▸ hle, hopen⟩
  · rintro ⟨hle, hopen⟩
    rw [except_bind_of_ok (World.read_eq hf hle)]
    exact hopen

end Holds

/-! ## One slot's bytes -/

theorem length_slotBytes {encrypted : List UInt8} (h : encrypted.length + 4 ≤ slotSize) :
    (slotBytes encrypted).length = slotSize :=
  length_padTo (by rw [List.length_append, length_littleEndian]; omega)

/-- A block that fits is found again in the slot's bytes, and decrypted there. -/
theorem openSlot_slotBytes_eq {st : SlotStore} {slot : Nat} {encrypted : List UInt8}
    (hlo : 36 ≤ encrypted.length) (hhi : encrypted.length + 4 ≤ slotSize) :
    st.openSlot P slot (slotBytes encrypted) =
      (decryptBlock P (st.deriveSlotKey P slot) st.cipher (littleEndian 8 slot) encrypted).mapError
        fun _ => .corruptedSlot slot "authentication failed" := by
  have hsplit : slotBytes encrypted = littleEndian 4 encrypted.length ++ (encrypted ++
      List.replicate (slotSize - (littleEndian 4 encrypted.length ++ encrypted).length) 0) := by
    rw [slotBytes, padTo, List.append_assoc]
  have htake : (slotBytes encrypted).take 4 = littleEndian 4 encrypted.length := by
    rw [hsplit]
    exact List.take_left' (length_littleEndian 4 _)
  have hlt : encrypted.length < 2 ^ 32 := by
    have : slotSize = 32768 := rfl
    omega
  have hlen : ofLittleEndian ((slotBytes encrypted).take 4) = encrypted.length := by
    rw [htake, ofLittleEndian_u32 hlt]
  have hsub : sub (slotBytes encrypted) 4 encrypted.length = encrypted :=
    sub_field hsplit (length_littleEndian 4 _) rfl
  have hrange : ¬ (encrypted.length < 36 ∨ 4 + encrypted.length > slotSize) := by omega
  unfold openSlot
  dsimp only
  rw [hlen, if_neg hrange, hsub]
  cases decryptBlock P (st.deriveSlotKey P slot) st.cipher (littleEndian 8 slot) encrypted <;> rfl

/-- A sealed block that fits is read back from the slot's bytes. -/
theorem openSlot_slotBytes {st : SlotStore} {slot : Nat} {encrypted data : List UInt8}
    (hlo : 36 ≤ encrypted.length) (hhi : encrypted.length + 4 ≤ slotSize)
    (hdec : decryptBlock P (st.deriveSlotKey P slot) st.cipher (littleEndian 8 slot) encrypted =
      .ok data) : st.openSlot P slot (slotBytes encrypted) = .ok data := by
  rw [openSlot_slotBytes_eq hlo hhi, hdec]
  rfl

/-! ## Lifting -/

theorem onWorld_ok {ε α : Type} {x : EStateM ε World α} {s s' : OpenStore} {a : α}
    (h : (onWorld x).run s = .ok a s') :
    x.run s.world = .ok a s'.world ∧ s'.store = s.store := by
  change onWorld x s = _ at h
  unfold onWorld at h
  cases hx : x.run s.world with
  | ok b w => rw [hx] at h; cases h; exact ⟨rfl, rfl⟩
  | error e w => rw [hx] at h; cases h

theorem onWorld_run {ε α : Type} {x : EStateM ε World α} {s : OpenStore} {w : World} {a : α}
    (h : x.run s.world = .ok a w) : (onWorld x).run s = .ok a { s with world := w } := by
  change onWorld x s = _
  rw [onWorld, h]

theorem onWorld_run_error {ε α : Type} {x : EStateM ε World α} {s : OpenStore} {w : World} {e : ε}
    (h : x.run s.world = .error e w) : (onWorld x).run s = .error e { s with world := w } := by
  change onWorld x s = _
  rw [onWorld, h]

theorem onWorld_error {ε α : Type} {x : EStateM ε World α} {s s' : OpenStore} {e : ε}
    (h : (onWorld x).run s = .error e s') :
    x.run s.world = .error e s'.world ∧ s'.store = s.store := by
  change onWorld x s = _ at h
  unfold onWorld at h
  cases hx : x.run s.world with
  | ok b w => rw [hx] at h; cases h
  | error e' w => rw [hx] at h; cases h; exact ⟨rfl, rfl⟩

@[simp] theorem modifyStore_run {ε : Type} (g : SlotStore → SlotStore) (s : OpenStore) :
    (modifyStore g : EStateM ε OpenStore Unit).run s = .ok () { s with store := g s.store } := rfl

/-! ## Write -/

section Write

variable {slot : Nat} {plaintext : List UInt8} {s s' : OpenStore} {u : Unit}

/-- A successful write: the slot's new bytes decrypt to the plaintext. -/
structure Written (P : Primitives) (slot : Nat) (plaintext : List UInt8) (s s' : OpenStore)
    (bytes : List UInt8) : Prop where
  length : bytes.length = slotSize
  wrote : World.Wrote (slotOffset slot) bytes s.world s'.world
  opens : (s.store.cipher = .triple → plaintext ≠ []) →
    s.store.openSlot P slot bytes = .ok plaintext
  store : s'.store = { s.store with merkleDirty := true }
  fits : plaintext.length + vnmbOverhead s.store.cipher + 4 ≤ slotSize

/-- A successful write seals the plaintext and writes the sealed block. -/
theorem write_sealed (h : (write P slot plaintext).run s = .ok u s') :
    ∃ encrypted w, (encryptBlock P (s.store.deriveSlotKey P slot) s.store.cipher (littleEndian 8 slot)
        plaintext).run s.world = .ok encrypted w ∧ encrypted.length + 4 ≤ slotSize ∧
      (writeBytesAt (slotOffset slot) (slotBytes encrypted)).run w = .ok () s'.world ∧
      s'.store = { s.store with merkleDirty := true } := by
  unfold write at h
  obtain ⟨t, s₁, hget, h₁⟩ := run_bind_ok.mp h
  cases hget
  obtain ⟨encrypted, s₂, henc, h₂⟩ := run_bind_ok.mp h₁
  obtain ⟨henc, hstore⟩ := onWorld_ok henc
  split at h₂
  next => cases h₂
  next hfits =>
    obtain ⟨u₁, s₃, hwrite, h₃⟩ := run_bind_ok.mp h₂
    obtain ⟨hwrite, hstore'⟩ := onWorld_ok hwrite
    cases h₃
    refine ⟨encrypted, s₂.world, henc, by omega, hwrite, ?_⟩
    change { s₃.store with merkleDirty := true } = _
    rw [hstore', hstore]

theorem write_ok (h : (write P slot plaintext).run s = .ok u s') :
    ∃ bytes, Written P slot plaintext s s' bytes := by
  obtain ⟨encrypted, w, henc, hfits, hwrite, hstore⟩ := write_sealed h
  obtain ⟨hdrew, hlen, hdec⟩ := encryptBlock_ok henc
  have hge := vnmbOverhead_ge s.store.cipher
  exact ⟨slotBytes encrypted, length_slotBytes hfits, .of_drew hdrew (writeBytesAt_wrote hwrite),
    fun hne => openSlot_slotBytes (by omega) hfits (hdec hne), hstore, by omega⟩

/-- A write fails for a plaintext that does not fit, or without a file; the store and the
    file are unchanged. -/
theorem write_error {e : VnmError} (h : (write P slot plaintext).run s = .error e s') :
    s.world.OnlyDrew s'.world ∧ s'.store = s.store ∧
      (slotSize < plaintext.length + vnmbOverhead s.store.cipher + 4 ∨ s.world.file = none) := by
  unfold write at h
  rcases run_bind_error.mp h with hget | ⟨t, s₁, hget, h₁⟩
  · cases hget
  · cases hget
    rcases run_bind_error.mp h₁ with henc | ⟨encrypted, s₂, henc, h₂⟩
    · obtain ⟨henc, hstore⟩ := onWorld_error henc
      refine ⟨(encryptBlock_within _ _ _ _).error henc, hstore, .inl ?_⟩
      by_contra hfits
      have hsmall : plaintext.length + (littleEndian 8 slot).length + 32 < 2 ^ 36 := by
        rw [length_littleEndian]
        have : slotSize = 32768 := rfl
        omega
      obtain ⟨block, w', hok⟩ := @encryptBlock_isOk P (s.store.deriveSlotKey P slot)
        s.store.cipher _ _ s.world hsmall
      rw [henc] at hok
      cases hok
    · obtain ⟨henc, hstore⟩ := onWorld_ok henc
      obtain ⟨hdrew, hlen, -⟩ := encryptBlock_ok henc
      split at h₂
      next hbig =>
        cases h₂
        exact ⟨hdrew, hstore, .inl (by omega)⟩
      next =>
        rcases run_bind_error.mp h₂ with hwrite | ⟨u₁, s₃, hwrite, h₃⟩
        · obtain ⟨hwrite, hstore'⟩ := onWorld_error hwrite
          cases hf : s₂.world.file with
          | none =>
            have hnone : (writeBytesAt (slotOffset slot) (slotBytes encrypted)).run s₂.world =
                .error World.notFound s₂.world := by
              change writeBytesAt _ _ s₂.world = _
              rw [writeBytesAt, hf]
            rw [hnone] at hwrite
            injection hwrite with he hw
            refine ⟨hw ▸ hdrew, hstore'.trans hstore, .inr ?_⟩
            rw [← hdrew.file, hf]
          | some f => rw [writeBytesAt_run hf] at hwrite; cases hwrite
        · cases h₃

/-- A plaintext that fits is written, if there is a file. -/
theorem write_isOk (hfile : s.world.file ≠ none)
    (hfits : plaintext.length + vnmbOverhead s.store.cipher + 4 ≤ slotSize) :
    ∃ s', (write P slot plaintext).run s = .ok () s' := by
  rcases run_cases (write P slot plaintext) s with ⟨u, h⟩ | ⟨e, h⟩
  · exact ⟨_, h⟩
  · obtain ⟨-, -, hbig | hnone⟩ := write_error h
    · omega
    · exact absurd hnone hfile

namespace Written

variable {bytes : List UInt8} {f : ByteFile}

/-- The file after a write, the slot just written and the others. -/
theorem file (h : Written P slot plaintext s s' bytes) (hf : s.world.file = some f) :
    s'.world.file = some (f.write (slotOffset slot) bytes) := by
  obtain ⟨f₁, hf₁, hf'⟩ := h.wrote.file
  cases hf.symm.trans hf₁
  exact hf'

theorem holds (h : Written P slot plaintext s s' bytes)
    (hne : s.store.cipher = .triple → plaintext ≠ []) :
    Holds P s.store (f.write (slotOffset slot) bytes) slot plaintext := by
  refine ⟨by rw [ByteFile.size_write, h.length]; exact Nat.le_max_right _ _, ?_⟩
  have := ByteFile.slice_write_self (slotOffset slot) bytes f
  rw [h.length] at this
  rw [this]
  exact h.opens hne

end Written

end Write

/-- Two different slots lie side by side. -/
theorem slotOffset_disjoint {s t : Nat} (h : s ≠ t) :
    slotOffset s + slotSize ≤ slotOffset t ∨ slotOffset t + slotSize ≤ slotOffset s := by
  have hlt : ∀ {s t : Nat}, s < t → slotOffset s + slotSize ≤ slotOffset t := by
    intro s t hst
    unfold slotOffset
    rw [Nat.add_assoc, ← Nat.succ_mul]
    exact Nat.add_le_add_left (Nat.mul_le_mul_right _ hst) _
  exact (Nat.lt_or_gt_of_ne h).imp hlt hlt

/-- Other slots keep their bytes. -/
theorem agreeOn_slot {f : ByteFile} {s t : Nat} {bytes : List UInt8} (hlen : bytes.length = slotSize)
    (hsize : slotOffset t + slotSize ≤ f.size) (hne : t ≠ s) :
    ByteFile.AgreeOn (slotOffset t) slotSize (f.write (slotOffset s) bytes) f :=
  ByteFile.agreeOn_write hsize (by rw [hlen]; exact slotOffset_disjoint hne)

/-! ## Allocate, wipe and free -/

theorem alloc_ok {slot : Nat} {s s' : OpenStore} (h : alloc.run s = .ok slot s') :
    s.store.free = s'.store.free ++ [slot] ∧
      s' = { s with store := { s.store with free := s.store.free.dropLast } } := by
  unfold alloc at h
  obtain ⟨t, s₁, hget, h₁⟩ := run_bind_ok.mp h
  cases hget
  cases hlast : s.store.free.getLast? with
  | none => rw [hlast] at h₁; cases h₁
  | some last =>
    rw [hlast] at h₁
    cases h₁
    exact ⟨(List.dropLast_append_getLast? _ hlast).symm, rfl⟩

theorem alloc_run {slot : Nat} {s : OpenStore} (h : s.store.free.getLast? = some slot) :
    alloc.run s = .ok slot { s with store := { s.store with free := s.store.free.dropLast } } := by
  unfold alloc
  rw [run_bind_of_ok run_get, h]
  rfl

theorem alloc_empty {s : OpenStore} (h : s.store.free = []) : alloc.run s = .error .noSpaceLeft s := by
  unfold alloc
  rw [run_bind_of_ok run_get, h]
  rfl

theorem alloc_error {e : VnmError} {s s' : OpenStore} (h : alloc.run s = .error e s') :
    s' = s ∧ s.store.free = [] := by
  cases hlast : s.store.free.getLast? with
  | none =>
    have hempty := List.getLast?_eq_none_iff.mp hlast
    rw [alloc_empty hempty] at h
    injection h with he hs
    exact ⟨hs.symm, hempty⟩
  | some last => rw [alloc_run hlast] at h; cases h

/-- A slot is wiped with the next random bytes, and goes back to the free list. -/
theorem freeSlot_wipes (slot : Nat) {s : OpenStore} (hfile : s.world.file ≠ none) :
    World.Wrote (slotOffset slot) (s.world.drawn slotSize).toList s.world (freeSlot slot s).world ∧
      (freeSlot slot s).store =
        { s.store with free := insertFree slot s.store.free, merkleDirty := true } := by
  obtain ⟨f, hf⟩ := Option.ne_none_iff_exists'.mp hfile
  obtain ⟨w₁, hdraw, hdrew⟩ := fillBytes_run (ε := VnmError) slotSize s.world
  have hf₁ : w₁.file = some f := by rw [hdrew.file, hf]
  have hwrite := @writeBytesAt_run (slotOffset slot) (s.world.drawn slotSize).toList _ _ hf₁
  have hrun : (wipe slot).run s = .ok ()
      { store := { s.store with merkleDirty := true }
        world := w₁.write (slotOffset slot) (s.world.drawn slotSize).toList f } := by
    unfold wipe
    rw [run_bind_of_ok (onWorld_run hdraw), run_bind_of_ok (onWorld_run hwrite)]
    rfl
  constructor
  · change World.Wrote _ _ s.world (after (wipe slot) s).world
    rw [after_of_ok hrun]
    exact .of_drew hdrew (writeBytesAt_wrote hwrite)
  · unfold freeSlot
    rw [after_of_ok hrun]

theorem freeSlot_spec (slot : Nat) {s : OpenStore} (hfile : s.world.file ≠ none) :
    ∃ bytes, bytes.length = slotSize ∧
      World.Wrote (slotOffset slot) bytes s.world (freeSlot slot s).world ∧
      (freeSlot slot s).store =
        { s.store with free := insertFree slot s.store.free, merkleDirty := true } :=
  ⟨_, List.Vector.toList_length _, freeSlot_wipes slot hfile⟩

/-- Whether or not the slot could be wiped, it goes back to its place in the free list. -/
theorem freeSlot_store (slot : Nat) (s : OpenStore) :
    ∃ dirty, (freeSlot slot s).store =
      { s.store with free := insertFree slot s.store.free, merkleDirty := dirty } := by
  cases hf : s.world.file with
  | none =>
    obtain ⟨w₁, hdraw, hdrew⟩ := fillBytes_run (ε := VnmError) slotSize s.world
    have hnone : w₁.file = none := by rw [hdrew.file, hf]
    have hwrite : (writeBytesAt (slotOffset slot) (s.world.drawn slotSize).toList).run w₁ =
        .error World.notFound w₁ := by
      change writeBytesAt _ _ w₁ = _
      rw [writeBytesAt, hnone]
    have hrun : (wipe slot).run s = .error World.notFound { s with world := w₁ } := by
      unfold wipe
      rw [run_bind_of_ok (onWorld_run hdraw)]
      exact run_bind_of_error (onWorld_run_error hwrite)
    refine ⟨s.store.merkleDirty, ?_⟩
    unfold freeSlot
    rw [after_of_error hrun]
  | some f =>
    obtain ⟨_, -, -, hstore⟩ := freeSlot_spec slot (s := s) (by rw [hf]; exact Option.some_ne_none f)
    exact ⟨true, hstore⟩

end Venom.Storage.SlotStore
