import Venom.Storage.MerkleBinding
import Venom.Storage.MerkleCache

/-! # Loading a volume again

A volume is loaded from the block that a save has left in its allocation slot.  Whatever has
become of the other slots, the load succeeds exactly when the saved root is that of the slots
that were in use, and then it finds the free list, the generation and the root that were saved.
-/

namespace Venom.Storage.SlotStore

open Venom.Container (slotSize)
open Venom.Crypto
open Venom.Library
open Venom.Library.Words
open Venom.Library.StateError

variable {P : Primitives}

/-- What comes back of the store `st` that was saved. -/
structure Reloaded (st st' : SlotStore) : Prop where
  shape : SameShape st st'
  mem_free : ∀ slot, slot ∈ st'.free ↔ slot ∈ st.free
  descending : st'.free.SortedGT
  generation : st'.generation = st.saved.generation
  root : st'.cachedMerkleRoot = st.cachedMerkleRoot

namespace Reloaded

variable {st st' : SlotStore}

theorem usedSlots (h : Reloaded st st') : st'.usedSlots = st.usedSlots :=
  usedSlots_congr h.shape.slotStart h.shape.slotLimit h.shape.allocSlot fun slot _ => h.mem_free slot

theorem perm (h : Reloaded st st') (hnodup : st.free.Nodup) : st'.free.Perm st.free :=
  (List.perm_ext_iff_of_nodup h.descending.nodup hnodup).mpr h.mem_free

/-- A list in order comes back as it was. -/
theorem free_eq (h : Reloaded st st') (hsorted : st.free.SortedGT) : st'.free = st.free :=
  h.descending.eq_of_mem_iff hsorted h.mem_free

end Reloaded

/-! ## Files with one root -/

/-- Two different inputs of two computations have one hash. -/
def Collision (P : Primitives) (inputs inputs' : List (String × List UInt8)) : Prop :=
  ∃ x ∈ inputs, ∃ y ∈ inputs', x ≠ y ∧ blake3 P x = blake3 P y

/-- Where one root is that of slots of two files, they are the same slots with the same bytes, or
    the hash has a collision. -/
theorem slots_of_sameRoot {w w' : World} {slots slots' : List Nat} {root : Key}
    (hslots : ∀ slot ∈ slots, slot < 2 ^ 64) (hslots' : ∀ slot ∈ slots', slot < 2 ^ 64)
    (hne : slots ≠ []) (hne' : slots' ≠ []) (hroot : computeMerkleRoot P w slots = .ok root)
    (hroot' : computeMerkleRoot P w' slots' = .ok root) :
    (slots = slots' ∧
        ∀ slot ∈ slots, w'.read (slotOffset slot) slotSize = w.read (slotOffset slot) slotSize) ∨
      Collision P (merkleInputs P w slots) (merkleInputs P w' slots') := by
  obtain ⟨hreads, hcase⟩ := computeMerkleRoot_ok hroot
  obtain ⟨hreads', hcase'⟩ := computeMerkleRoot_ok hroot'
  have htree := hcase.resolve_left fun h => hne h.1
  have htree' := hcase'.resolve_left fun h => hne' h.1
  obtain heq | ⟨x, hx, y, hy, hdiff, hsame⟩ :=
    MerkleTree.eq_or_collision (fun x => blake3 P (hashInput x)) htree htree'
  · -- the leaves name the slots
    have hfst := congrArg (List.map Prod.fst) heq
    simp only [rawLeaves, List.map_map, Function.comp_def, List.map_id'] at hfst
    subst hfst
    refine .inl ⟨rfl, fun slot hslot => ?_⟩
    have hraw := (Prod.mk.inj (List.map_inj_left.mp heq slot hslot)).2
    rw [hreads slot hslot, hreads' slot hslot, hraw]
  · refine .inr ⟨_, List.mem_map_of_mem hx, _, List.mem_map_of_mem hy, fun heq => hdiff ?_, hsame⟩
    exact hashInput_inj (slot_lt_of_mem hslots hx) (slot_lt_of_mem hslots' hy) heq

/-- Where slots have one root on two files, they have the same bytes, or the hash has a collision. -/
theorem reads_of_sameRoot {w w' : World} {slots : List Nat} {root : Key}
    (hslots : ∀ slot ∈ slots, slot < 2 ^ 64) (hroot : computeMerkleRoot P w slots = .ok root)
    (hroot' : computeMerkleRoot P w' slots = .ok root) :
    (∀ slot ∈ slots, w'.read (slotOffset slot) slotSize = w.read (slotOffset slot) slotSize) ∨
      Collision P (merkleInputs P w slots) (merkleInputs P w' slots) := by
  by_cases hnil : slots = []
  · exact .inl fun slot hslot => by simp [hnil] at hslot
  · exact (slots_of_sameRoot hslots hslots hnil hnil hroot hroot').imp_left fun h => h.2

section Load

variable {s : OpenStore} {st st' : SlotStore} {w w' : World}

/-- The block that `st'` reads says what was saved of `st`. -/
def Adopts (P : Primitives) (st st' : SlotStore) (w : World) : Prop :=
  ∃ data, st'.read P w st'.allocSlot = .ok data ∧ allocHeaderLen ≤ data.length ∧
    (parseAllocBlock true data).merkleRoot = st.cachedMerkleRoot ∧
    Reloaded st (st'.adopt (parseAllocBlock true data))

/-- So it is right after a save. -/
theorem SavedAt.adopts (h : SavedAt P s st w) (hgen : s.store.hasGeneration = true)
    (hrange : FreeInRange s.store) : Adopts P s.store st w := by
  obtain ⟨s', hsave, hshape, hfile⟩ := h.saved
  obtain ⟨bitmap, bytes, hbitmap, hwritten⟩ := saveFreeList_ok hsave
  obtain ⟨f, hf, -⟩ := hwritten.wrote.file
  obtain ⟨f', hf', hsize, hagree⟩ := hfile _ (hwritten.file hf)
  obtain ⟨hlength, hbits⟩ := freeBitmap_some hbitmap
  have hread : st.read P w st.allocSlot = .ok (s.store.saved.allocData bitmap) := by
    have hholds : Holds P s.store (f.write (slotOffset s.store.allocSlot) bytes) s.store.allocSlot
        (s.store.saved.allocData bitmap) := (hwritten.holds fun _ => allocData_ne_nil).of_store rfl rfl
    rw [hshape.allocSlot] at hagree ⊢
    exact (read_eq_ok hf').mpr ((hholds.of_agree hsize hagree).of_store hshape.masterKey hshape.cipher)
  have hgen' : s.store.saved.hasGeneration = true := hgen
  have hcount : s.store.slotLimit - s.store.slotStart < 2 ^ 64 := by
    have hfits := hwritten.fits
    rw [length_allocData, hlength] at hfits
    have hslot : slotSize = 32768 := rfl
    omega
  have hlt : s.store.saved.generation < 2 ^ 64 := by
    change (if s.store.hasGeneration then (s.store.generation + 1) % 2 ^ 64 else _) < _
    rw [hgen, if_pos rfl]
    exact Nat.mod_lt _ (Nat.two_pow_pos 64)
  have hblock : parseAllocBlock true (s.store.saved.allocData bitmap) =
      { count := s.store.slotLimit - s.store.slotStart, generation := s.store.saved.generation
        merkleRoot := s.store.cachedMerkleRoot, bitmap } :=
    parseAllocBlock_allocData hgen' hlt hcount
  refine ⟨_, hread, ?_, by rw [hblock], ?_⟩
  · rw [length_allocData, hgen', if_pos rfl]
    exact Nat.le_add_right _ _
  · rw [hblock]
    refine ⟨hshape.trans ⟨rfl, rfl, rfl, rfl, rfl, rfl⟩, fun slot => ?_, sortedGT_freeOfBitmap _ _ _,
      rfl, rfl⟩
    -- the bits of the bitmap are the free slots
    change slot ∈ freeOfBitmap st.slotStart (s.store.slotLimit - s.store.slotStart) bitmap ↔ _
    rw [hshape.slotStart, mem_freeOfBitmap]
    constructor
    · rintro ⟨i, -, hbit, rfl⟩
      rwa [hbits, decide_eq_true_iff] at hbit
    · intro hslot
      have hin := hrange slot hslot
      have hback : s.store.slotStart + (slot - s.store.slotStart) = slot := by omega
      refine ⟨slot - s.store.slotStart, by omega, ?_, hback⟩
      rw [hbits, hback]
      exact decide_eq_true hslot

/-- A root that was loaded has been checked. -/
theorem rootCurrent_of_load (hnew : st.cachedMerkleRoot = zeroRoot) (hload : st.loadFreeList P w = .ok st') :
    RootCurrent P { store := st', world := w } := by
  rintro ⟨-, hne⟩
  dsimp only at hne ⊢
  obtain ⟨-, rfl⟩ | ⟨data, hread, hlong, rfl⟩ := loadFreeList_ok hload
  · exact absurd hnew hne
  · have hgen : st.hasGeneration = true := by
      by_contra hlegacy
      rw [Bool.not_eq_true] at hlegacy
      rw [hlegacy] at hne
      exact hne rfl
    rw [hgen] at hlong hne hload ⊢
    have hlong' : allocHeaderLen ≤ data.length := hlong
    unfold loadFreeList at hload
    simp only [hread, hgen, if_true] at hload
    rw [if_pos hlong', if_pos ⟨hgen, hne⟩] at hload
    obtain ⟨computed, hcompute, hcheck⟩ := except_bind_ok.mp hload
    split at hcheck
    next => cases hcheck
    next heq =>
      rw [hcompute, not_not.mp heq]
      rfl

namespace Adopts

variable {st₀ : SlotStore}

/-- What a load finds. -/
theorem reloaded (h : Adopts P st st₀ w) (hgen : st.hasGeneration = true)
    (hload : st₀.loadFreeList P w = .ok st') : Reloaded st st' ∧ st'.merkleDirty = st₀.merkleDirty := by
  obtain ⟨data, hread, hlong, -, hre⟩ := h
  have hgen' : st₀.hasGeneration = true := hre.shape.hasGeneration.trans hgen
  obtain ⟨hshort, -⟩ | ⟨data', hread', -, rfl⟩ := loadFreeList_ok hload
  · have hlt := hshort data hread
    rw [hgen', if_pos rfl] at hlt
    exact absurd hlong (Nat.not_le_of_lt hlt)
  · cases hread.symm.trans hread'
    rw [hgen']
    exact ⟨hre, rfl⟩

/-- A load succeeds exactly when the slots in use have the root that was saved, or none was. -/
theorem loads_iff (h : Adopts P st st₀ w) (hgen : st.hasGeneration = true) :
    (∃ st', st₀.loadFreeList P w = .ok st') ↔ (st.cachedMerkleRoot ≠ zeroRoot →
      computeMerkleRoot P w st.usedSlots = .ok st.cachedMerkleRoot) := by
  obtain ⟨data, hread, hlong, hroot, hre⟩ := h
  have hgen' : st₀.hasGeneration = true := hre.shape.hasGeneration.trans hgen
  have hused := hre.usedSlots
  by_cases hzero : st.cachedMerkleRoot = zeroRoot
  · refine iff_of_true ⟨_, loadFreeList_unchecked hgen' hread hlong (hroot.trans hzero)⟩ ?_
    exact fun hne => absurd hzero hne
  · constructor
    · rintro ⟨st', hload⟩ -
      unfold loadFreeList at hload
      simp only [hread, hgen', if_true, hlong, hroot] at hload
      rw [if_pos ⟨hgen', hzero⟩, hused] at hload
      obtain ⟨computed, hcompute, hcheck⟩ := except_bind_ok.mp hload
      split at hcheck
      next => cases hcheck
      next heq => rw [hcompute, not_not.mp heq]
    · intro hcompute
      refine ⟨_, loadFreeList_checked hgen' hread hlong ?_⟩
      rw [hused, hroot]
      exact hcompute hzero

/-- Slots with another root are refused. -/
theorem refused (h : Adopts P st st₀ w) (hgen : st.hasGeneration = true)
    (hzero : st.cachedMerkleRoot ≠ zeroRoot) {root : Key}
    (hroot : computeMerkleRoot P w st.usedSlots = .ok root) (hne : root ≠ st.cachedMerkleRoot) :
    st₀.loadFreeList P w = .error .merkleIntegrityFailure := by
  obtain ⟨data, hread, hlong, hsaved, hre⟩ := h
  have hgen' : st₀.hasGeneration = true := hre.shape.hasGeneration.trans hgen
  unfold loadFreeList
  simp only [hread, hgen', if_true, hlong, hsaved]
  rw [if_pos ⟨hgen', hzero⟩, hre.usedSlots, except_bind_of_ok hroot, if_pos hne]

end Adopts

end Load

/-! ## After a save -/

section Saved

variable {s s' : OpenStore} {st : SlotStore} {w : World} {u : Unit}

/-- The allocation slot right after a save. -/
theorem SavedAt.of_save (hsave : (saveFreeList P).run s = .ok u s') (hshape : SameShape s.store st)
    (hw : w.file = s'.world.file) : SavedAt P s st w :=
  ⟨s', hsave, hshape, fun f hf => ⟨f, hw.trans hf, le_rfl, fun _ _ _ => rfl⟩⟩

end Saved

/-! ## A saved list -/

/-- A block saved while slot 1 is in use names safe slots for the root in slot 1, and not for one
    in slot 2. -/
theorem loaded_list_safe_iff_saved :
    ∃ w st', smallStore.loadFreeList plain w = .ok st' ∧ st'.free = [7, 6, 5, 4, 3, 2] ∧
      NamesSafeSlots plain smallStore w 1 ∧ ¬ NamesSafeSlots plain smallStore w 2 ∧
      ∀ v slot s', alloc.run { store := st', world := v } = .ok slot s' → slot ≠ 1 := by
  have hok : FreeListOk (smallWith [7, 6, 5, 4, 3, 2]).store := ⟨by decide, show ∀ slot ∈
    [7, 6, 5, 4, 3, 2], (0 ≤ slot ∧ slot < 8) ∧ slot ≠ 0 by decide⟩
  obtain ⟨s', hsave⟩ := @saveFreeList_isOk plain (smallWith [7, 6, 5, 4, 3, 2])
    (Option.some_ne_none _) hok.inRange (by decide)
  have hshape : SameShape (smallWith [7, 6, 5, 4, 3, 2]).store smallStore :=
    ⟨rfl, rfl, rfl, rfl, rfl, rfl⟩
  obtain ⟨st', hload⟩ := saveFreeList_loads hsave hshape fun _ hne => absurd rfl hne
  obtain ⟨hfree, hshape'⟩ := (SavedAt.of_save hsave hshape rfl).load hok hload
  have hlist : st'.free = [7, 6, 5, 4, 3, 2] := hfree
  have hok' : FreeListOk st' :=
    ⟨hfree ▸ hok.descending, fun slot hslot => hshape'.isData.mpr (hok.isData slot (hfree ▸ hslot))⟩
  have hnames : NamesSafeSlots plain smallStore s'.world 1 :=
    (safeFreeList_iff hload).mp ⟨hok', by rw [hlist]; decide⟩
  have hsafe := (loaded_list_safe_iff 1 hload).mpr hnames
  refine ⟨s'.world, st', hload, hlist, hnames, fun htwo => ?_,
    fun v slot s₁ halloc => (hsafe.2.2 v slot s₁ halloc).2.1⟩
  exact ((loaded_list_safe_iff 2 hload).mpr htwo).1.noRoot (by rw [hlist]; decide)

end Venom.Storage.SlotStore
