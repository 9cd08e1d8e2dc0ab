import Venom.Fs.Recipients

/-! # What a recipient call writes

Whatever the file holds and whoever holds the handle, a recipient call is refused before it
writes anything, or it writes slots at places that come from the counts in the plaintext of
the primary header.  Only then is that header decoded: if that fails the call ends in an
error with its slots written, otherwise the header gets the new counts in both places.
-/

namespace Venom.Fs

open Venom.Container
open Venom.Crypto
open Venom.Storage
open Venom.Library
open Venom.Library.Words
open Venom.Library.StateError

variable {P : Primitives}

/-! ## Failing below a handle -/

section Lifting

variable {ε α : Type} {m : Mounted} {e : ε}

theorem onFile_run_error {x : EStateM ε World α} {w : World} (h : x.run m.world = .error e w) :
    (onFile x).run m = .error e { m with world := w } := by
  refine onStore_run_error (s := { store := m.container.store, world := w }) ?_
  change onWorld x _ = _
  rw [onWorld, h]

end Lifting

/-- A list of results is there when each of them is. -/
theorem except_mapM_mem {ε α β : Type} {g : α → Except ε β} {l : List α} {bs : List β}
    (h : l.mapM g = .ok bs) : ∀ a ∈ l, ∃ b, g a = .ok b := by
  induction l generalizing bs with
  | nil => intro a ha; cases ha
  | cons a l ih =>
    rw [List.mapM_cons] at h
    obtain ⟨b, hb, h₁⟩ := except_bind_ok.mp h
    obtain ⟨bs', hbs, -⟩ := except_bind_ok.mp h₁
    intro a' ha'
    rcases List.mem_cons.mp ha' with rfl | ha'
    · exact ⟨b, hb⟩
    · exact ih hbs a' ha'

/-! ## The slots -/

/-- The plaintext of the primary header. -/
def primaryPlaintext (f : ByteFile) : UInt8 × UInt8 × UInt8 := readHeaderPlaintext (f.slice 0 512)

def primaryPwCount (f : ByteFile) : UInt8 := (primaryPlaintext f).2.1

def primaryKeyCount (f : ByteFile) : UInt8 := (primaryPlaintext f).2.2

def keySlotBytes (f : ByteFile) (j : Nat) : List UInt8 := f.slice (keySlotOffset j) keySlotSize

theorem primaryCounts_eq (f : ByteFile) : ∃ kdf nPw nKey,
    readHeaderPlaintext (f.slice 0 512) = (kdf, nPw, nKey) ∧ primaryPwCount f = nPw ∧
      primaryKeyCount f = nKey := by
  unfold primaryKeyCount primaryPwCount primaryPlaintext
  -- the header's bytes are not to be computed
  generalize readHeaderPlaintext (f.slice 0 512) = plaintext
  exact ⟨plaintext.1, plaintext.2.1, plaintext.2.2, rfl, rfl, rfl⟩

/-- The key slots that stay when one is removed. -/
def keptSlots (f : ByteFile) (slotIndex : Nat) : List (List UInt8) :=
  ((List.range (primaryKeyCount f).toNat).map (keySlotBytes f)).eraseIdx slotIndex

/-- The key slots after a removal: those that stay, and random bytes in the last place. -/
def slotsAfterRemoval (w : World) (f : ByteFile) (slotIndex : Nat) : List (List UInt8) :=
  keptSlots f slotIndex ++ [(w.drawn keySlotSize).toList]

theorem length_slotsAfterRemoval {w : World} {f : ByteFile} {slotIndex : Nat}
    (h : slotIndex < (primaryKeyCount f).toNat) :
    (slotsAfterRemoval w f slotIndex).length = (primaryKeyCount f).toNat := by
  rw [slotsAfterRemoval, keptSlots, List.length_append, List.length_eraseIdx, List.length_map,
    List.length_range, if_pos h, List.length_singleton]
  omega

theorem length_of_mem_slotsAfterRemoval {w : World} {f : ByteFile} {slotIndex : Nat} {slot : List UInt8}
    (h : slot ∈ slotsAfterRemoval w f slotIndex) : slot.length = keySlotSize := by
  rcases List.mem_append.mp h with h | h
  · obtain ⟨j, -, rfl⟩ := List.mem_map.mp (List.mem_of_mem_eraseIdx h)
    exact ByteFile.length_slice _ _ _
  · rw [List.mem_singleton.mp h]
    exact List.Vector.toList_length _

/-- A write of a key slot is that of one of the slots, at its place. -/
theorem of_mem_keyWrites {slots : List (List UInt8)} {x : ByteFile.Write} (h : x ∈ keyWrites slots) :
    ∃ j, slots[j]? = some x.data ∧ x.off = keySlotOffset j := by
  obtain ⟨⟨slot, j⟩, hmem, rfl⟩ := List.mem_map.mp h
  exact ⟨j, List.mem_zipIdx_iff_getElem?.mp hmem, rfl⟩

/-- The slots a call writes and the counts it asks for. -/
inductive SlotWrites (P : Primitives) (m : Mounted) (f : ByteFile) :
    RecipientCall → List ByteFile.Write → UInt8 → UInt8 → Prop
  | addPassword {newPassword slot : List UInt8}
      (hfree : (primaryPwCount f).toNat < maxPasswordSlots)
      (hslot : IsPasswordSlot P m.container.kMaster newPassword slot) :
      SlotWrites P m f (.addPassword newPassword)
        [⟨pwSlotOffset (primaryPwCount f).toNat, slot⟩] (primaryPwCount f + 1) (primaryKeyCount f)
  | addKey {recipient : HybridPublicKey} {slot : List UInt8}
      (hfree : (primaryKeyCount f).toNat < maxKeySlots)
      (hslot : IsKeySlot P m.container.kMaster recipient m.container.cipher slot) :
      SlotWrites P m f (.addKey recipient)
        [⟨keySlotOffset (primaryKeyCount f).toNat, slot⟩] (primaryPwCount f) (primaryKeyCount f + 1)
  | removeKey {slotIndex : Nat} (hrange : slotIndex < (primaryKeyCount f).toNat)
      (hread : ∀ j < (primaryKeyCount f).toNat, keySlotOffset j + keySlotSize ≤ f.size) :
      SlotWrites P m f (.removeKey slotIndex) (keyWrites (slotsAfterRemoval m.world f slotIndex))
        (primaryPwCount f) (primaryKeyCount f - 1)

/-- The primary header decodes under the key of a handle. -/
def PrimaryDecodes (P : Primitives) (m : Mounted) (f : ByteFile) : Prop :=
  ∃ header, decodeHeader P (f.slice 0 512) m.container.kMaster m.container.cipher false = .ok header

/-- What a call asks for before it writes: a header to read the counts from, a free place and a
    slot to put there, or a slot in range and all those counted to be there. -/
def RecipientCall.Proceeds (P : Primitives) (m : Mounted) (f : ByteFile) : RecipientCall → Prop
  | .addPassword newPassword =>
    512 ≤ f.size ∧ (primaryPwCount f).toNat < maxPasswordSlots ∧ ∃ slot w,
      (encodePasswordSlot P m.container.kMaster newPassword (primaryPlaintext f).1).run m.world =
        .ok slot w
  | .addKey recipient =>
    512 ≤ f.size ∧ (primaryKeyCount f).toNat < maxKeySlots ∧ ∃ slot w,
      (encodeKeySlot P m.container.kMaster recipient m.container.cipher).run m.world = .ok slot w
  | .removeKey slotIndex =>
    512 ≤ f.size ∧ slotIndex < (primaryKeyCount f).toNat ∧
      ∀ j < (primaryKeyCount f).toNat, keySlotOffset j + keySlotSize ≤ f.size

/-- The ways a call can end. -/
inductive Outcome (P : Primitives) (m : Mounted) (f : ByteFile) (c : RecipientCall) :
    EStateM.Result VnmError Mounted Unit → Prop
  | refused {e : VnmError} {m' : Mounted} (huntouched : Untouched m m') (hcall : ¬ c.Proceeds P m f) :
      Outcome P m f c (.error e m')
  | rejected {e : VnmError} {ws : List ByteFile.Write} {nPw nKey : UInt8} {w : World}
      (hcall : c.Proceeds P m f) (hslots : SlotWrites P m f c ws nPw nKey) (hissued : World.Issued ws m.world w)
      (hdecode : ¬ PrimaryDecodes P m f) : Outcome P m f c (.error e { m with world := w })
  | finished {header : HeaderPayload} {hdr : List UInt8} {ws : List ByteFile.Write}
      {nPw nKey : UInt8} {w : World} (hcall : c.Proceeds P m f)
      (hslots : SlotWrites P m f c ws nPw nKey) (hdecode : decodeHeader P (f.slice 0 512) m.container.kMaster m.container.cipher false = .ok header)
      (hheader : IsHeader P m.container.kMaster false
        { header with numPasswordSlots := nPw, numKeySlots := nKey } hdr)
      (hissued : World.Issued (ws ++ [⟨0, hdr⟩, ⟨inferredBackupOffset (f.replay ws).size, hdr⟩])
        m.world w) : Outcome P m f c (.ok () { m with world := w })

section Outcome

variable {m : Mounted} {f : ByteFile} {c : RecipientCall}

/-- Once the slots are written, only the primary header decides. -/
theorem Outcome.of_slots {x : WorldM Unit} {ws : List ByteFile.Write} {nPw nKey : UInt8} {w : World}
    (hf : m.world.file = some f) (hcall : c.Proceeds P m f)
    (hslots : SlotWrites P m f c ws nPw nKey) (hissued : World.Issued ws m.world w)
    (hx : x.run m.world = (updateSlotCounts P nPw nKey m.container.kMaster m.container.cipher
      (f.slice 0 512)).run w) : Outcome P m f c ((onFile x).run m) := by
  have hf' := hissued.file_eq hf
  cases hdecode : decodeHeader P (f.slice 0 512) m.container.kMaster m.container.cipher false with
  | error e =>
    -- the slots stay written
    have hrun : x.run m.world = .error e w := by
      rw [hx, updateSlotCounts]
      exact run_bind_of_error (orThrow_error.mpr ⟨hdecode, rfl⟩)
    rw [onFile_run_error hrun]
    refine .rejected hcall hslots hissued fun ⟨header, hheader⟩ => ?_
    rw [hdecode] at hheader
    cases hheader
  | ok header =>
    obtain ⟨hdr, w₁, hencode⟩ := @encodeHeader_isOk P
      { header with numPasswordSlots := nPw, numKeySlots := nKey } m.container.kMaster false w
    obtain ⟨hdrew, hheader⟩ := encodeHeader_isHeader hencode
    have hf₁ : w₁.file = some (f.replay ws) := by rw [hdrew.file, hf']
    have hwrite₁ := @writeBytesAt_run 0 hdr _ _ hf₁
    have hwrite₂ := @writeBytesAt_run (inferredBackupOffset (f.replay ws).size) hdr _ _
      (World.file_write w₁ 0 hdr (f.replay ws))
    have hrun : x.run m.world = .ok () ((w₁.write 0 hdr (f.replay ws)).write
        (inferredBackupOffset (f.replay ws).size) hdr ((f.replay ws).write 0 hdr)) := by
      rw [hx, updateSlotCounts, run_bind_of_ok (orThrow_ok.mpr ⟨hdecode, rfl⟩),
        run_bind_of_ok hencode, run_bind_of_ok run_get, hf₁]
      change (writeBytesAt 0 hdr >>= fun _ => writeBytesAt _ hdr).run w₁ = _
      rw [run_bind_of_ok hwrite₁]
      exact hwrite₂
    rw [onFile_run hrun]
    have hheaders := (World.Issued.of_wrote (writeBytesAt_wrote hwrite₁)).trans
      (.of_wrote (writeBytesAt_wrote hwrite₂))
    exact .finished hcall hslots hdecode hheader (hissued.trans (hheaders.drew_trans hdrew))

/-- A call that is refused has drawn random bytes at most. -/
theorem Outcome.of_refused {x : WorldM Unit} {e : VnmError} {w : World}
    (hx : x.run m.world = .error e w) (hdrew : m.world.OnlyDrew w) (hcall : ¬ c.Proceeds P m f) :
    Outcome P m f c ((onFile x).run m) := by
  rw [onFile_run_error hx]
  exact .refused ⟨rfl, hdrew⟩ hcall

/-- A file too short for a header is refused by every call. -/
theorem readHeader_short (hf : m.world.file = some f) (hshort : ¬ 512 ≤ f.size) :
    ∃ e, readHeader.run m.world = .error e m.world := by
  have hnone : f.read 0 512 = none := by
    rw [ByteFile.read, if_neg (by omega)]
  refine ⟨World.unexpectedEof, ?_⟩
  unfold readHeader
  rw [run_bind_of_ok run_get]
  refine orThrow_error.mpr ⟨?_, rfl⟩
  simp only [read512At, World.read, hf, hnone]

theorem addPassword_outcome {newPassword : List UInt8} (hf : m.world.file = some f) :
    Outcome P m f (.addPassword newPassword) ((addPasswordRecipient P newPassword).run m) := by
  obtain ⟨kdf, nPw, nKey, hplain, hpw, -⟩ := primaryCounts_eq f
  unfold addPasswordRecipient
  rw [run_bind_of_ok run_get]
  by_cases hsize : 512 ≤ f.size
  · have hread := readHeader_run hf hsize
    by_cases hfull : maxPasswordSlots ≤ nPw.toNat
    · refine .of_refused (w := m.world) (e := maxReached "password") ?_ (.refl _)
        fun hcall => hfull.not_gt (hpw ▸ hcall.2.1)
      rw [run_bind_of_ok hread, hplain]
      dsimp only
      rw [if_pos hfull]
      rfl
    · rcases run_cases (encodePasswordSlot P m.container.kMaster newPassword kdf) m.world
        with ⟨slot, hencode⟩ | ⟨e, hencode⟩
      · obtain ⟨hdrew, hslot⟩ := encodePasswordSlot_isSlot hencode
        have hwrite := @writeBytesAt_run (pwSlotOffset (primaryPwCount f).toNat) slot _ _
          (hdrew.file.trans hf)
        have hfree : (primaryPwCount f).toNat < maxPasswordSlots := by
          rw [hpw]
          exact Nat.lt_of_not_le hfull
        have hcall : (RecipientCall.addPassword newPassword).Proceeds P m f := by
          have hslot := hencode
          rw [show kdf = (primaryPlaintext f).1 by rw [primaryPlaintext, hplain]] at hslot
          exact ⟨hsize, hfree, slot, _, hslot⟩
        refine .of_slots hf hcall (.addPassword hfree hslot)
          ((World.Issued.of_wrote (writeBytesAt_wrote hwrite)).drew_trans hdrew) ?_
        rw [hpw] at hwrite
        rw [run_bind_of_ok hread, hplain]
        dsimp only
        rw [if_neg hfull, run_bind_of_ok hencode, run_bind_of_ok hwrite, primaryKeyCount,
          primaryPwCount, primaryPlaintext, hplain]
      · refine .of_refused (e := e) ?_ ((encodePasswordSlot_within _ _ _).error hencode)
          fun hcall => ?_
        · rw [run_bind_of_ok hread, hplain]
          dsimp only
          rw [if_neg hfull]
          exact run_bind_of_error hencode
        · obtain ⟨slot, w, hslot⟩ := hcall.2.2
          rw [primaryPlaintext, hplain] at hslot
          rw [hencode] at hslot
          cases hslot
  · obtain ⟨e, hread⟩ := readHeader_short hf hsize
    exact .of_refused (run_bind_of_error hread) (.refl _) fun hcall => hsize hcall.1

theorem addKey_outcome {recipient : HybridPublicKey} (hf : m.world.file = some f) :
    Outcome P m f (.addKey recipient) ((addKeyRecipient P recipient).run m) := by
  obtain ⟨kdf, nPw, nKey, hplain, -, hkey⟩ := primaryCounts_eq f
  unfold addKeyRecipient
  rw [run_bind_of_ok run_get]
  by_cases hsize : 512 ≤ f.size
  · have hread := readHeader_run hf hsize
    by_cases hfull : maxKeySlots ≤ nKey.toNat
    · refine .of_refused (w := m.world) (e := maxReached "key") ?_ (.refl _)
        fun hcall => hfull.not_gt (hkey ▸ hcall.2.1)
      rw [run_bind_of_ok hread, hplain]
      dsimp only
      rw [if_pos hfull]
      rfl
    · rcases run_cases (encodeKeySlot P m.container.kMaster recipient m.container.cipher) m.world
        with ⟨slot, hencode⟩ | ⟨e, hencode⟩
      · obtain ⟨hdrew, hslot⟩ := encodeKeySlot_isSlot hencode
        have hwrite := @writeBytesAt_run (keySlotOffset (primaryKeyCount f).toNat) slot _ _
          (hdrew.file.trans hf)
        have hfree : (primaryKeyCount f).toNat < maxKeySlots := by
          rw [hkey]
          exact Nat.lt_of_not_le hfull
        refine .of_slots hf ⟨hsize, hfree, slot, _, hencode⟩ (.addKey hfree hslot)
          ((World.Issued.of_wrote (writeBytesAt_wrote hwrite)).drew_trans hdrew) ?_
        rw [hkey] at hwrite
        rw [run_bind_of_ok hread, hplain]
        dsimp only
        rw [if_neg hfull, run_bind_of_ok hencode, run_bind_of_ok hwrite, primaryKeyCount,
          primaryPwCount, primaryPlaintext, hplain]
      · refine .of_refused (e := e) ?_ ((encodeKeySlot_within _ _ _).error hencode)
          fun hcall => ?_
        · rw [run_bind_of_ok hread, hplain]
          dsimp only
          rw [if_neg hfull]
          exact run_bind_of_error hencode
        · obtain ⟨slot, w, hslot⟩ := hcall.2.2
          rw [hencode] at hslot
          cases hslot
  · obtain ⟨e, hread⟩ := readHeader_short hf hsize
    exact .of_refused (run_bind_of_error hread) (.refl _) fun hcall => hsize hcall.1

theorem writeKeySlots_run {slots : List (List UInt8)} {w : World} (hf : w.file = some f) :
    ∃ w', (writeKeySlots slots).run w = .ok () w' ∧ w'.rng = w.rng := by
  obtain ⟨w', hrun, -, hrng⟩ := forM_total (l := slots.zipIdx) (s := w)
    (f := fun s => writeBytesAt (keySlotOffset s.2) s.1)
    (fun _ v => (∃ g, v.file = some g) ∧ v.rng = w.rng) ⟨⟨f, hf⟩, rfl⟩
    fun done s rest v _ ⟨⟨g, hg⟩, hrng⟩ =>
      ⟨_, writeBytesAt_run hg, ⟨_, World.file_write v _ _ g⟩, hrng⟩
  exact ⟨w', hrun, hrng⟩

theorem keyWrites_concat (slots : List (List UInt8)) (slot : List UInt8) :
    keyWrites (slots ++ [slot]) = keyWrites slots ++ [⟨keySlotOffset slots.length, slot⟩] := by
  rw [keyWrites, List.zipIdx_append, indexedWrites, List.map_append, Nat.zero_add]
  rfl

theorem readKeySlots_error {n : Nat} {w : World} (hf : w.file = some f)
    (h : ¬ ∀ j < n, keySlotOffset j + keySlotSize ≤ f.size) :
    ∃ e, (readKeySlots n).run w = .error e w := by
  unfold readKeySlots
  rw [run_bind_of_ok run_get]
  cases hread : (List.range n).mapM (readKeySlotRaw w) with
  | error e => exact ⟨e, orThrow_error.mpr ⟨rfl, rfl⟩⟩
  | ok slots =>
    refine absurd (fun j hj => ?_) h
    obtain ⟨slot, hslot⟩ := except_mapM_mem hread j (List.mem_range.mpr hj)
    obtain ⟨g, hg, hle, -⟩ := World.read_ok hslot
    cases hf.symm.trans hg
    exact hle

theorem removeKey_outcome {slotIndex : Nat} (hf : m.world.file = some f) :
    Outcome P m f (.removeKey slotIndex) ((removeKeyRecipient P slotIndex).run m) := by
  obtain ⟨kdf, nPw, nKey, hplain, -, hkey⟩ := primaryCounts_eq f
  unfold removeKeyRecipient
  rw [run_bind_of_ok run_get]
  by_cases hsize : 512 ≤ f.size
  · have hheader := readHeader_run hf hsize
    by_cases hrange : nKey.toNat ≤ slotIndex
    · refine .of_refused (w := m.world) (e := .invalidFormat "key slot index out of range") ?_ (.refl _)
        fun hcall => hrange.not_gt (hkey ▸ hcall.2.1)
      rw [run_bind_of_ok hheader, hplain]
      dsimp only
      rw [if_pos hrange]
      rfl
    · by_cases hread : ∀ j < nKey.toNat, keySlotOffset j + keySlotSize ≤ f.size
      · obtain ⟨w₁, hkept, hrng⟩ := @writeKeySlots_run _ (keptSlots f slotIndex) _ hf
        have hissued := writeKeySlots_ok hkept
        have hdraw := @fillBytes_eq VnmError keySlotSize w₁
        rw [show w₁.drawn keySlotSize = m.world.drawn keySlotSize from
          drawn_congr (fun i => congrFun hrng i) keySlotSize] at hdraw
        have hwipe := @writeBytesAt_run (keySlotOffset (keptSlots f slotIndex).length)
          (m.world.drawn keySlotSize).toList (w₁.skip keySlotSize) _ (hissued.file_eq hf)
        have hall := hissued.trans
          ((World.Issued.of_wrote (writeBytesAt_wrote hwipe)).drew_trans (fillBytes_ok hdraw).2)
        rw [← keyWrites_concat] at hall
        have hslots := hread
        rw [← hkey] at hslots
        have hin : slotIndex < (primaryKeyCount f).toNat := by
          rw [hkey]
          exact Nat.lt_of_not_le hrange
        refine .of_slots hf ⟨hsize, hin, hslots⟩ (.removeKey hin hslots) hall ?_
        have hkeptEq : keptSlots f slotIndex =
            ((List.range nKey.toNat).map fun j => f.slice (keySlotOffset j) keySlotSize).eraseIdx
              slotIndex := by
          rw [keptSlots, hkey]
          rfl
        rw [hkeptEq] at hkept hwipe
        rw [run_bind_of_ok hheader, hplain]
        dsimp only
        rw [if_neg hrange, run_bind_of_ok (readKeySlots_run hf hread)]
        rw [run_bind_of_ok hkept, run_bind_of_ok hdraw, run_bind_of_ok hwipe,
          primaryKeyCount, primaryPwCount, primaryPlaintext, hplain, hkeptEq]
      · obtain ⟨e, hslots⟩ := readKeySlots_error hf hread
        refine .of_refused (w := m.world) (e := e) ?_ (.refl _)
          fun hcall => hread (hkey ▸ hcall.2.2)
        rw [run_bind_of_ok hheader, hplain]
        dsimp only
        rw [if_neg hrange]
        exact run_bind_of_error hslots
  · obtain ⟨e, hread⟩ := readHeader_short hf hsize
    exact .of_refused (run_bind_of_error hread) (.refl _) fun hcall => hsize hcall.1

/-- Every call, on every file, ends in one of the three ways. -/
theorem RecipientCall.outcome (c : RecipientCall) (hf : m.world.file = some f) :
    Outcome P m f c ((c.run P).run m) := by
  cases c with
  | addPassword newPassword => exact addPassword_outcome hf
  | addKey recipient => exact addKey_outcome hf
  | removeKey slotIndex => exact removeKey_outcome hf

end Outcome

end Venom.Fs
