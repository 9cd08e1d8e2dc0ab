import Venom.Fs.MountedVolume
import Venom.Storage.NodeSize
import Venom.Storage.Allocator

/-! # Writes that fail

`write_node` takes a slot before it knows whether the node can be encoded and fits.  A call
that fails for another reason than a full volume has lost its slot: the slot is not free any
more, no node refers to it, and it counts as used.
-/

namespace Venom.Fs

open Venom.Container
open Venom.Crypto
open Venom.Storage
open Venom.Storage.SlotStore
open Venom.Library
open Venom.Library.StateError

variable {P : Primitives} {m m' : Mounted} {node : VaultNode}

/-- The free list, the used slots and the bytes of all slots are the same. -/
structure VolumeUnchanged (m m' : Mounted) : Prop where
  free : m'.container.store.free = m.container.store.free
  used : m'.container.store.usedSlots = m.container.store.usedSlots
  file : m'.world.file = m.world.file

/-- The node can be encoded and fits one slot of the file. -/
def Storable (m : Mounted) (node : VaultNode) : Prop :=
  Fits m.container.store.cipher node ∧ m.world.file ≠ none

theorem writeNode_storable {slot : Nat} (hlast : m.container.store.free.getLast? = some slot)
    (h : Storable m node) : ∃ m', (writeNode P node).run m = .ok slot m' := by
  obtain ⟨payload, hpayload⟩ := MountedVolume.toVecNamed_of_fits h.1
  exact writeNode_isOk hlast h.2 hpayload ((MountedVolume.fits_iff hpayload).mp h.1)

theorem storable_of_writeNode {slot : Nat} (h : (writeNode P node).run m = .ok slot m') :
    Storable m node := by
  obtain ⟨-, payload, bytes, s, hpayload, hwritten, -⟩ := writeNode_ok h
  obtain ⟨f, hf, -⟩ := hwritten.wrote.file
  refine ⟨(MountedVolume.fits_iff hpayload).mpr hwritten.fits, ?_⟩
  rw [show m.world.file = some f from hf]
  exact Option.some_ne_none f

/-- A failed call of a volume with free slots loses the last of them. -/
theorem writeNode_loses {e : VnmError} (h : (writeNode P node).run m = .error e m')
    (hfree : m.container.store.free ≠ []) :
    ∃ slot, m.container.store.free = m'.container.store.free ++ [slot] := by
  obtain ⟨slot, hlast⟩ := Option.ne_none_iff_exists'.mp (mt List.getLast?_eq_none_iff.mp hfree)
  rw [writeNode_popped hlast h]
  exact ⟨slot, (List.dropLast_append_getLast? _ hlast).symm⟩

/-- A failing `write_node` leaves the volume as it was exactly when no slot is free; in that
    case nothing at all has changed.  Where a slot is free, the calls that fail are those whose
    node is not storable, and each loses one slot. -/
theorem writeNode_error_unchanged_iff (P : Primitives) (m : Mounted) (node : VaultNode) :
    ((∀ e m', (writeNode P node).run m = .error e m' → VolumeUnchanged m m') ↔
      m.container.store.free = [] ∨ Storable m node) ∧
    (m.container.store.free = [] → (writeNode P node).run m = .error .noSpaceLeft m) ∧
    ∀ e m', (writeNode P node).run m = .error e m' → m.container.store.free ≠ [] →
      m'.world.file = m.world.file ∧
        ∃ slot, m.container.store.free = m'.container.store.free ++ [slot] := by
  refine ⟨⟨fun hkept => ?_, ?_⟩, writeNode_noSpace, fun e m' h hfree => ?_⟩
  · by_contra hcond
    obtain ⟨hfree, hstore⟩ := not_or.mp hcond
    rcases run_cases (writeNode P node) m with ⟨slot, hok⟩ | ⟨e, herror⟩
    · exact hstore (storable_of_writeNode hok)
    · obtain ⟨slot, hslot⟩ := writeNode_loses herror hfree
      rw [(hkept _ _ herror).free] at hslot
      simp at hslot
  · rintro (hfree | hstore) e m' h
    · rw [writeNode_noSpace hfree] at h
      cases h
      exact ⟨rfl, rfl, rfl⟩
    · cases hlast : m.container.store.free.getLast? with
      | none =>
        rw [writeNode_noSpace (List.getLast?_eq_none_iff.mp hlast)] at h
        cases h
        exact ⟨rfl, rfl, rfl⟩
      | some slot =>
        obtain ⟨m₁, hok⟩ := writeNode_storable (P := P) hlast hstore
        cases hok.symm.trans h
  · exact ⟨(writeNode_error h).1.file, writeNode_loses h hfree⟩

/-- A node of 32768 bytes of data. -/
def largeNode : VaultNode := .fileData { kind := .fileData, data := List.replicate 32768 0 }

theorem largeNode_not_fits (cipher : CipherAlgorithm) : ¬ Fits cipher largeNode := by
  rintro ⟨-, hfits⟩
  rw [largeNode, encodedLen_fileData, List.length_replicate] at hfits
  have hslot : slotSize = 32768 := rfl
  omega

/-- An outer volume with one free slot. -/
def oneFree : Mounted where
  container :=
    { store := { smallStore with free := [2] }
      rootSlot := 1
      isHidden := false
      cipher := .xchacha20Poly1305
      outerSlots := 8
      outerLimit := 8
      label := none
      createdAt := 0
      kMaster := toBytes 32 []
      containerId := toBytes 16 [1] }
  world := blankWorld

/-- The large node is refused, and the last free slot is gone. -/
theorem large_node_takes_last_slot :
    ¬ ∀ (m m' : Mounted) (node : VaultNode) (e : VnmError),
      (writeNode plain node).run m = .error e m' → VolumeUnchanged m m' := by
  intro h
  rcases run_cases (writeNode plain largeNode) oneFree with ⟨slot, hok⟩ | ⟨e, herror⟩
  · exact largeNode_not_fits _ (storable_of_writeNode hok).1
  · obtain ⟨slot, hslot⟩ := writeNode_loses herror (List.cons_ne_nil 2 [])
    rw [(h _ _ _ _ herror).free] at hslot
    simp at hslot

end Venom.Fs
