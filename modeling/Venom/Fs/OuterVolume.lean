import Venom.Fs.NewTree
import Venom.Fs.Reopening
import Venom.Fs.SkippedRoot
import Venom.Storage.Reloading

/-! # Outer volumes

The primary header lies in front of the slots, and no call on nodes reaches it.  So a mounted
container that begins with the header of an outer volume, and whose store is the one that `open`
would set up for it, stays one whatever the driver does.  After a flush, `open` finds the store
that was saved.
-/

namespace Venom.Fs

open Venom.Container
open Venom.Crypto
open Venom.Storage
open Venom.Storage.SlotStore
open Venom.Library
open Venom.Library.StateError

variable {P : Primitives}

/-- The primary header of an outer volume, and what is sealed in it. -/
structure OuterHeader (P : Primitives) where
  raw : List UInt8
  key : Key
  payload : HeaderPayload
  isHeader : IsHeader P key false payload raw
  only : OnlyCipher P key false payload.cipher raw
  hasId : payload.containerId ≠ zeroId
  slots : outerAllocSlot < payload.outerSlots.toNat

namespace OuterHeader

/-- The store that `open` sets up before it loads the free list. -/
def blank (H : OuterHeader P) : SlotStore :=
  storeToLoad H.key H.payload 0 H.payload.outerSlots.toNat outerAllocSlot

/-- The file begins with the header, and has room for the slots. -/
def Heads (H : OuterHeader P) (w : World) : Prop :=
  ∃ f, w.file = some f ∧ f.slice 0 512 = H.raw ∧ slotOffset H.payload.outerSlots.toNat ≤ f.size

/-- The volume is the one of the header. -/
structure On (H : OuterHeader P) (v : MountedVolume P) : Prop where
  heads : H.Heads v.mounted.world
  shape : SameShape H.blank v.store
  containerId : v.mounted.container.containerId = H.payload.containerId

variable {H : OuterHeader P} {v v' : MountedVolume P} {m m' : Mounted} {w w' : World}

/-! ## The header stays -/

theorem header_le_slotOffset (slot : Nat) : 1024 ≤ slotOffset slot :=
  (show 1024 ≤ dataAreaOffset by decide).trans (Nat.le_add_right _ _)

/-- A slot of the volume lies in the file. -/
theorem slot_inside {slot n size : Nat} (hslot : slot < n) (hsize : slotOffset n ≤ size) :
    slotOffset slot + slotSize ≤ size := by
  refine le_trans ?_ hsize
  rw [slotOffset, slotOffset, Nat.add_assoc, ← Nat.succ_mul]
  exact Nat.add_le_add_left (Nat.mul_le_mul_right _ hslot) _

/-- Writes behind the header. -/
theorem Heads.issues (h : H.Heads w) (hissues : World.Issues (fun x => 512 ≤ x.off) w w') :
    H.Heads w' := by
  obtain ⟨f, hf, hraw, hsize⟩ := h
  have hlarge : 0 + 512 ≤ f.size := by
    have := header_le_slotOffset H.payload.outerSlots.toNat
    omega
  have hbehind : World.Issues (fun x => 0 + 512 ≤ x.off ∨ x.off + x.data.length ≤ 0) w w' :=
    hissues.mono fun x hx => .inl (by omega)
  obtain ⟨f', hf', hle, hagree⟩ := hbehind.agreeOn hf hlarge
  exact ⟨f', hf', by rw [hagree.slice_eq, hraw], hsize.trans hle⟩

theorem issues_wrote {slot : Nat} {bytes : List UInt8} (h : World.Wrote (slotOffset slot) bytes w w') :
    World.Issues (fun x => 512 ≤ x.off) w w' :=
  .of_wrote h ((show 512 ≤ 1024 by decide).trans (header_le_slotOffset slot))

/-- No call of the driver leads away from the volume. -/
instance : KeptByCalls H.On := MountedVolume.keptByCalls fun {v v'} hstep hv => by
  obtain ⟨st, -, hcontainer⟩ := hstep.container
  refine ⟨hv.heads.issues (hstep.issues.mono ?_), hv.shape.trans hstep.shape, ?_⟩
  · rintro x ⟨slot, hoff⟩
    rw [hoff]
    exact (show 512 ≤ 1024 by decide).trans (header_le_slotOffset slot)
  · rw [hcontainer]
    exact hv.containerId

end OuterHeader

/-- A mounted outer volume. -/
abbrev OuterVolume (H : OuterHeader P) : Type := Restricted H.On

/-! ## A new container -/

section Created

variable {outerPassword : List UInt8} {totalSizeBytes : UInt64} {cipher : CipherAlgorithm}
  {kdfProfile : String} {label : Option String} {hidden : Option HiddenVolumeOptions}
  {w w' : World} {m : VnmContainer} {b : Blocks}

/-- The primary header of a file opens with one cipher only. -/
def OneHeader (P : Primitives) (m : VnmContainer) (w : World) : Prop :=
  ∀ f, w.file = some f → OnlyCipher P m.kMaster false m.cipher (f.slice 0 512)

namespace Created

theorem kMaster (h : Created P outerPassword totalSizeBytes cipher kdfProfile label hidden w m w' b) :
    m.kMaster = drawnKey w b.lay := by rw [h.parts.container]

theorem containerId_eq (h : Created P outerPassword totalSizeBytes cipher kdfProfile label hidden w m w' b) :
    m.containerId = drawnContainerId w b.lay := by rw [h.parts.container]

/-- The header that `create` has written. -/
def outerHeader (h : Created P outerPassword totalSizeBytes cipher kdfProfile label hidden w m w' b)
    (hid : m.containerId ≠ zeroId) (honly : OneHeader P m w') : OuterHeader P where
  raw := b.hdr
  key := drawnKey w b.lay
  payload := newPayload b cipher w outerPassword kdfProfile label
  isHeader := h.isHeader
  only := by
    have hcipher : m.cipher = cipher := by rw [h.parts.container]
    have hslice : (image b w').slice 0 512 = b.hdr := h.slice_header
    have hfile := honly _ h.file_eq
    rwa [hslice, h.kMaster, hcipher] at hfile
  hasId := by
    rw [h.containerId_eq] at hid
    exact hid
  slots := Nat.lt_of_lt_of_le (by decide) h.sizes.outer

variable (h : Created P outerPassword totalSizeBytes cipher kdfProfile label hidden w m w' b)
  (hid : m.containerId ≠ zeroId) (honly : OneHeader P m w')

theorem on : (h.outerHeader hid honly).On h.volume := by
  refine ⟨⟨image b w', h.file_eq, h.slice_header, ?_⟩, ?_, h.containerId_eq⟩
  · -- the last slot ends in front of the tail
    rw [h.size, h.sizes.fileSize]
    change dataAreaOffset + b.lay.outerSlots.toNat * slotSize ≤ _
    rw [Nat.add_mul]
    omega
  · have hid' : drawnContainerId w b.lay ≠ zeroId := h.containerId_eq ▸ hid
    have hgen : decide (drawnContainerId w b.lay ≠ zeroId) = true := decide_eq_true hid'
    change SameShape _ m.store
    rw [h.store]
    exact ⟨rfl, rfl, rfl, rfl, rfl, hgen.symm⟩

/-- The new volume, as one of its header. -/
def outerVolume : OuterVolume (h.outerHeader hid honly) := ⟨h.volume, h.on hid honly⟩

end Created

end Created

end Venom.Fs
