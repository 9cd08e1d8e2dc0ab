import Venom.Fs.RecipientArea
import Venom.Fs.DamagedHeader

/-! # Opening a file after recipient calls

What `open` reads of a file of a container's size: the counts in force, the slots of the
credential, the header copies and the slots of the volume.  A file that differs from another
in the recipient area only has the same volumes; which credentials lead to them is decided by
the slots and the counts.
-/

namespace Venom.Fs

open Venom.Container
open Venom.Crypto
open Venom.Storage
open Venom.Storage.SlotStore
open Venom.Library
open Venom.Library.Words
open Venom.Library.StateError

variable {P : Primitives}

/-! ## Volumes -/

section Volumes

variable {total : UInt64} {hidden : Option UInt64} {lay : Layout} {f f' : ByteFile} {w w' : World}

/-- The slots read the same, those behind the last one fail the same. -/
theorem StaysInArea.reads (h : StaysInArea lay f f') (hs : Sizes total hidden lay)
    (hsize : f.size = lay.fileSize.toNat) (hf : w.file = some f) (hf' : w'.file = some f') (slot : Nat) :
    w'.read (slotOffset slot) slotSize = w.read (slotOffset slot) slotSize := by
  by_cases hslot : slot < lay.outerSlots.toNat + lay.hiddenSlots.toNat
  · simp only [World.read, hf, hf', ByteFile.read, h.size, h.slots slot hslot]
  · have hfile := hs.fileSize_eq
    have htail := hs.tail_eq
    have hmono : slotOffset (lay.outerSlots.toNat + lay.hiddenSlots.toNat) ≤ slotOffset slot :=
      Nat.add_le_add_left (Nat.mul_le_mul_right _ (Nat.le_of_not_lt hslot)) _
    -- the tail is shorter than a slot
    have hbeyond : ¬ slotOffset slot + slotSize ≤ f.size := by
      rw [slotSize_eq]
      split at htail <;> omega
    simp only [World.read, hf, hf', ByteFile.read, h.size, if_neg hbeyond]

/-- A volume is loaded from its slots and checked against the baselines. -/
theorem openVolume_congr
    (hreads : ∀ slot, w'.read (slotOffset slot) slotSize = w.read (slotOffset slot) slotSize)
    (hrollback : w'.rollback = w.rollback) (k : Key) (header : HeaderPayload) (isHidden : Bool)
    (slotStart slotLimit allocSlot : Nat) (outerLimit : UInt64) :
    openVolume P w' k header isHidden slotStart slotLimit allocSlot outerLimit =
      openVolume P w k header isHidden slotStart slotLimit allocSlot outerLimit := by
  have hload : RollbackState.load w' = RollbackState.load w := by
    unfold RollbackState.load
    rw [hrollback]
  unfold openVolume
  simp only [loadFreeList_congr hreads, hload]

end Volumes

/-! ## The slots of a credential -/

namespace OpenCredential

/-- The bytes of slot `j` of the credential's kind. -/
def slotIn (f : ByteFile) : OpenCredential → Nat → List UInt8
  | .password _ => fun i => f.slice (pwSlotOffset i) pwSlotSize
  | .privateKey _ => fun j => f.slice (keySlotOffset j) keySlotSize

end OpenCredential

section Slots

variable {total : UInt64} {hidden : Option UInt64} {lay : Layout} {f : ByteFile} {w : World}

theorem namedCounts_lt {raw : List UInt8} {counts : Nat × Nat} (h : namedCounts raw = some counts) :
    counts.1 < 256 ∧ counts.2 < 256 := by
  unfold namedCounts at h
  generalize readHeaderPlaintext raw = plaintext at h
  obtain ⟨kdf, p, k⟩ := plaintext
  dsimp only at h
  by_cases hzero : p = 0 ∧ k = 0
  · rw [if_pos hzero] at h
    cases h
  · rw [if_neg hzero] at h
    cases h
    exact ⟨p.toNat_lt, k.toNat_lt⟩

theorem getD_counts_lt {named : Option (Nat × Nat)} {counts : Nat × Nat}
    (h : ∀ c, named = some c → c.1 < 256 ∧ c.2 < 256) (hd : counts.1 < 256 ∧ counts.2 < 256) :
    (named.getD counts).1 < 256 ∧ (named.getD counts).2 < 256 := by
  cases named with
  | none => exact hd
  | some c => exact h c rfl

theorem tailCounts_lt (f : ByteFile) : (tailCounts f).1 < 256 ∧ (tailCounts f).2 < 256 := by
  refine getD_counts_lt (fun c hc => ?_) ⟨Nat.succ_pos 255, Nat.succ_pos 255⟩
  rcases Option.or_eq_some_iff.mp hc with hc | ⟨-, hc⟩
  · exact namedCounts_lt hc
  · exact namedCounts_lt hc

/-- The counts in force. -/
def countsOf (f : ByteFile) : Nat × Nat := (namedCounts (f.slice 0 512)).getD (tailCounts f)

theorem countsOf_lt (f : ByteFile) : (countsOf f).1 < 256 ∧ (countsOf f).2 < 256 :=
  getD_counts_lt (fun _ => namedCounts_lt) (tailCounts_lt f)

/-- The places of 256 slots of either kind end before the last slot of a container does. -/
theorem slotIn_inside (hlay : layout total hidden = .ok lay) (hsize : f.size = lay.fileSize.toNat)
    {j : Nat} (hj : j < 256) :
    pwSlotOffset j + pwSlotSize ≤ f.size ∧ keySlotOffset j + keySlotSize ≤ f.size := by
  have hback := backup_inside (layout_sizes hlay)
  have hge := backup_ge hlay
  have hpw : pwSlotSize = 176 := rfl
  have hkey : keySlotSize = 1743 := rfl
  rw [dataAreaOffset_eq, slotSize_eq] at hge
  rw [pwSlotOffset_eq, keySlotOffset_eq]
  omega

theorem large_of_layout (hlay : layout total hidden = .ok lay) (hsize : f.size = lay.fileSize.toNat) :
    1536 ≤ f.size := by
  have hback := backup_inside (layout_sizes hlay)
  have hge := backup_ge hlay
  rw [dataAreaOffset_eq, slotSize_eq] at hge
  omega

/-- The slots in force are tried in order. -/
theorem recoverMaster_eq (hlay : layout total hidden = .ok lay) (hsize : f.size = lay.fileSize.toNat)
    (hf : w.file = some f) (credential : OpenCredential) :
    recoverMaster P w f.size credential =
      (List.range' 0 (credential.count (countsOf f))).findSome? fun j =>
        credential.trySlot P (credential.slotIn f j) := by
  have hlarge := large_of_layout hlay hsize
  have hlt := countsOf_lt f
  rw [recoverMaster_search, slotCounts_named hf (by omega)]
  change trySlots _ _ 0 (credential.count (countsOf f)) = _
  refine trySlots_eq fun j _ hj => ?_
  cases credential with
  | password p =>
    change j < 0 + (countsOf f).1 at hj
    exact World.read_eq hf (slotIn_inside hlay hsize (by omega)).1
  | privateKey sk =>
    change j < 0 + (countsOf f).2 at hj
    exact World.read_eq hf (slotIn_inside hlay hsize (by omega)).2

/-- A credential that recovers the key of an intact primary header opens its volume. -/
theorem openContainer_of_master (hlay : layout total hidden = .ok lay)
    (hsize : f.size = lay.fileSize.toNat) (hf : w.file = some f) {k : Key} {c : CipherAlgorithm}
    {header : HeaderPayload} (hheader : IsHeader P k false header (f.slice 0 512))
    (honly : OnlyCipher P k false header.cipher (f.slice 0 512)) {credential : OpenCredential}
    (hmaster : recoverMaster P w f.size credential = some (k, c)) :
    openContainer P w credential = openOuter P w k header := by
  have hlarge := large_of_layout hlay hsize
  have hfound := findOuterHeader_primary hf (by omega) (probeHeader_eq hheader honly)
  exact openContainer_outer hf (findOuter_eq_some.mpr ⟨⟨c, hmaster⟩, hfound⟩)

end Slots

end Venom.Fs
