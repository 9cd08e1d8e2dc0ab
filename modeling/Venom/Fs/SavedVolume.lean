import Venom.Fs.OuterVolume
import Venom.Storage.NodeRuns

/-! # Saved volumes

A flush saves the free list, the generation and the root of the slots in use.  Where a file
still begins with the header and still has the saved block, `open` finds that volume exactly
when the slots in use have the saved root, and then with the free list that was saved.
-/

namespace Venom.Fs

open Venom.Container
open Venom.Crypto
open Venom.Storage
open Venom.Storage.SlotStore
open Venom.Library
open Venom.Library.StateError

variable {P : Primitives} {H : OuterHeader P} {v v' : MountedVolume P} {st : SlotStore}
  {m' : Mounted} {w : World} {credential : OpenCredential} {c : VnmContainer}

/-! ## Slots that have not changed -/

/-- In a file with the same slots a store of the same shape has the same nodes. -/
theorem MountedVolume.reopens_of_slices {f f' : ByteFile} (hf : v.mounted.world.file = some f)
    (hf' : v'.mounted.world.file = some f') (hsize : f'.size = f.size)
    (hshape : SameShape v.store v'.store) (hfree : v'.store.free.Perm v.store.free)
    (hslices : ∀ slot, v.store.slotStart ≤ slot ∧ slot < v.store.slotLimit → slot ≠ v.store.allocSlot →
      slotOffset slot + slotSize ≤ f.size →
      f'.slice (slotOffset slot) slotSize = f.slice (slotOffset slot) slotSize) :
    Storage.Reopens v v' := by
  have hslot : ∀ s, MountedVolume.HasSlot v' s ↔ MountedVolume.HasSlot v s := fun s => by
    constructor
    · rintro ⟨hrange, hne, g, hg, hinside⟩
      cases hf'.symm.trans hg
      rw [hshape.slotStart, hshape.slotLimit] at hrange
      rw [hshape.allocSlot] at hne
      exact ⟨hrange, hne, f, hf, hsize ▸ hinside⟩
    · rintro ⟨hrange, hne, g, hg, hinside⟩
      cases hf.symm.trans hg
      refine ⟨?_, ?_, f', hf', hsize.symm ▸ hinside⟩
      · rwa [hshape.slotStart, hshape.slotLimit]
      · rwa [hshape.allocSlot]
  refine ⟨⟨hshape.cipher, ?_, ?_⟩, fun s hs => ?_, hfree⟩
  · change v'.store.slotLimit - v'.store.slotStart = v.store.slotLimit - v.store.slotStart
    rw [hshape.slotLimit, hshape.slotStart]
  · funext s
    exact propext (hslot s)
  · obtain ⟨hrange, hne, g, hg, hinside⟩ : MountedVolume.HasSlot v s := hs
    cases hf.symm.trans hg
    have hread : v'.store.read P v'.mounted.world s = v.store.read P v.mounted.world s :=
      read_congr hf hf' hsize (hslices s hrange hne hinside) hshape.masterKey hshape.cipher
    change (readNode P s v'.mounted).toOption = (readNode P s v.mounted).toOption
    exact congrArg Except.toOption (congrArg (· >>= _) hread)

/-! ## Flush -/

/-- A flush has saved the store `st` of the volume `v`, and left `m'`. -/
structure SavedTo (H : OuterHeader P) (v : MountedVolume P) (st : SlotStore) (m' : Mounted) : Prop where
  rooted : Rooted P v.mounted.world v.store st
  block : SavedAt P { store := st, world := v.mounted.world } H.blank m'.world
  /-- Nothing but the allocation slot is written. -/
  wrote : ∃ bytes w₁, bytes.length = slotSize ∧
    World.Wrote (slotOffset outerAllocSlot) bytes v.mounted.world w₁ ∧ m'.world.file = w₁.file
  baseline : m'.world.baseline H.payload.containerId = some st.saved.generation
  /-- The root is computed anew at the next flush, since the allocation slot has been written. -/
  container : m'.container = { v.mounted.container with store := { st.saved with merkleDirty := true } }

theorem flush_container {m : Mounted} (hrun : (flush P).run m = .ok () m') :
    m'.container = { m.container with store := m'.container.store } := by
  obtain ⟨m₁, hslots, hcontainer, -⟩ := flush_ok hrun
  obtain ⟨st, bitmap, bytes, s, -, -, -, rfl⟩ := flushSlots_ok hslots
  rw [hcontainer]
  rfl

namespace OuterHeader

theorem On.hasGeneration (h : H.On v) : v.store.hasGeneration = true := by
  rw [h.shape.hasGeneration]
  exact decide_eq_true H.hasId

theorem On.masterKey (h : H.On v) : v.store.masterKey = H.key := h.shape.masterKey

theorem On.allocSlot (h : H.On v) : v.store.allocSlot = outerAllocSlot := h.shape.allocSlot

theorem On.flushed (h : H.On v) (hrun : (flush P).run v.mounted = .ok () m') : ∃ st, SavedTo H v st m' := by
  obtain ⟨st, s', hrooted, hsave, hstore, hfile⟩ := flush_saves hrun
  obtain ⟨bitmap, bytes, -, hwritten⟩ := saveFreeList_ok hsave
  obtain ⟨hshape, -, hgeneration⟩ := hrooted.sameShape
  have hblank : SameShape st H.blank := hshape.symm.trans h.shape.symm
  obtain ⟨-, -, -, hbaseline⟩ := flush_generation hrun h.hasGeneration
  refine ⟨st, hrooted, .of_save hsave hblank hfile, ⟨bytes, s'.world, hwritten.length, ?_, hfile⟩, ?_, ?_⟩
  · have halloc : st.allocSlot = outerAllocSlot := hshape.allocSlot.trans h.allocSlot
    rw [← halloc]
    exact hwritten.wrote
  · rw [← h.containerId, hbaseline (by rw [h.containerId]; exact H.hasId)]
    change some _ = some (if st.hasGeneration then (st.generation + 1) % 2 ^ 64 else st.generation)
    rw [hshape.hasGeneration, show v.mounted.container.store.hasGeneration = true from h.hasGeneration,
      if_pos rfl, hgeneration]
  · rw [flush_container hrun, hstore, hwritten.store]

end OuterHeader

namespace SavedTo

theorem shape (h : SavedTo H v st m') (hv : H.On v) : SameShape H.blank st :=
  hv.shape.trans h.rooted.sameShape.1

theorem free_eq (h : SavedTo H v st m') : st.free = v.store.free := h.rooted.sameShape.2.1

theorem heads (h : SavedTo H v st m') (hv : H.On v) : H.Heads m'.world := by
  obtain ⟨bytes, w₁, -, hwrote, hfile⟩ := h.wrote
  obtain ⟨f, hf, hraw, hsize⟩ := hv.heads.issues (OuterHeader.issues_wrote hwrote)
  exact ⟨f, hfile.trans hf, hraw, hsize⟩

/-- The size of the file and the slots but the allocation slot are as before. -/
theorem slots (h : SavedTo H v st m') (hv : H.On v) : ∃ f f', v.mounted.world.file = some f ∧
    m'.world.file = some f' ∧ f'.size = f.size ∧ ∀ slot, slot ≠ outerAllocSlot →
      slotOffset slot + slotSize ≤ f.size →
      f'.slice (slotOffset slot) slotSize = f.slice (slotOffset slot) slotSize := by
  obtain ⟨bytes, w₁, hlen, hwrote, hfile⟩ := h.wrote
  obtain ⟨f, hf, hf₁⟩ := hwrote.file
  obtain ⟨f₀, hf₀, -, hsize⟩ := hv.heads
  cases hf.symm.trans hf₀
  refine ⟨f, _, hf, hfile.trans hf₁, ?_, fun slot hne hinside => ?_⟩
  · exact ByteFile.size_write_of_le (by rw [hlen]; exact OuterHeader.slot_inside H.slots hsize)
  · exact (agreeOn_slot hlen hinside hne).slice_eq

/-- Whoever has the saved file and the free list has the nodes of the volume. -/
theorem reopens (h : SavedTo H v st m') (hv : H.On v) (hfile : v'.mounted.world.file = m'.world.file)
    (hshape : SameShape v.store v'.store) (hfree : v'.store.free.Perm v.store.free) :
    Storage.Reopens v v' := by
  obtain ⟨f, f', hf, hf', hsize, hslices⟩ := h.slots hv
  refine MountedVolume.reopens_of_slices hf (hfile.trans hf') hsize hshape hfree fun slot _ hne => ?_
  rw [hv.allocSlot] at hne
  exact hslices slot hne

/-- The handle goes on with the volume that it has saved. -/
theorem on (h : SavedTo H v st m') (hv : H.On v) (hm : v'.mounted = m') : H.On v' := by
  refine ⟨?_, ?_, ?_⟩
  · rw [hm]
    exact h.heads hv
  · rw [MountedVolume.store, hm, h.container]
    exact (h.shape hv).trans ⟨rfl, rfl, rfl, rfl, rfl, rfl⟩
  · rw [hm, h.container]
    exact hv.containerId

theorem current (h : SavedTo H v st m') (hm : v'.mounted = m') : RootCurrent P v'.mounted.openStore := by
  apply rootCurrent_of_dirty
  rw [Mounted.openStore, hm, h.container]

/-- So the nodes and the free list are as before. -/
theorem flushed (h : SavedTo H v st m') (hv : H.On v) (hm : v'.mounted = m') : Storage.Reopens v v' := by
  have hstore : v'.store = { st.saved with merkleDirty := true } := by
    rw [MountedVolume.store, hm, h.container]
  refine h.reopens hv (by rw [hm]) ?_ ?_
  · rw [hstore]
    exact h.rooted.sameShape.1.trans ⟨rfl, rfl, rfl, rfl, rfl, rfl⟩
  · rw [hstore, ← h.free_eq]
    exact List.Perm.refl _

end SavedTo

/-! ## Open -/

/-- The credential recovers the master key `k` from the file. -/
def Recovers (P : Primitives) (k : Key) (w : World) (credential : OpenCredential) : Prop :=
  ∃ f cipher, w.file = some f ∧ recoverMaster P w f.size credential = some (k, cipher)

/-- The generation is not older than the baseline. -/
def NotOlder (H : OuterHeader P) (w : World) (generation : Nat) : Prop :=
  ∀ stored, w.baseline H.payload.containerId = some stored → stored ≤ generation

/-- A file that begins with the header is opened as the volume of the header. -/
theorem openContainer_of_heads (hheads : H.Heads w) (hfinds : Recovers P H.key w credential) :
    openContainer P w credential = openOuter P w H.key H.payload := by
  obtain ⟨f, hf, hraw, hsize⟩ := hheads
  obtain ⟨f', cipher, hf', hmaster⟩ := hfinds
  cases hf.symm.trans hf'
  have hlarge : 1024 ≤ f.size := (OuterHeader.header_le_slotOffset _).trans hsize
  have hprobe : probeHeader P (f.slice 0 512) H.key false = some H.payload := by
    rw [hraw]
    exact probeHeader_eq H.isHeader H.only
  have hfound := findOuter_eq_some.mpr ⟨⟨cipher, hmaster⟩, findOuterHeader_primary hf hlarge hprobe⟩
  exact openContainer_outer hf hfound

theorem openContainer_eq_ok (hheads : H.Heads w) (hfinds : Recovers P H.key w credential) :
    openContainer P w credential = .ok c ↔ ∃ store, H.blank.loadFreeList P w = .ok store ∧
      NotOlder H w store.generation ∧
      c = containerOf H.key H.payload false H.payload.outerSlots store := by
  rw [openContainer_of_heads hheads hfinds]
  exact openVolume_eq_ok.trans (exists_congr fun store => and_congr_right fun _ =>
    and_congr_left fun _ => ⟨fun h => h H.hasId, fun h _ => h⟩)

/-- An error of the load is the one that is returned. -/
theorem openContainer_eq_error {e : VnmError} (hheads : H.Heads w)
    (hfinds : Recovers P H.key w credential) (hload : H.blank.loadFreeList P w = .error e) :
    openContainer P w credential = .error e := by
  rw [openContainer_of_heads hheads hfinds, openOuter, openVolume]
  exact except_bind_error.mpr (.inl hload)

namespace SavedTo

/-- `open` succeeds exactly when the slots in use have the saved root, or none was saved. -/
theorem opens_iff (h : SavedTo H v st m') (hv : H.On v) (hrange : FreeInRange st) (hheads : H.Heads w)
    (hblock : SavedAt P { store := st, world := v.mounted.world } H.blank w)
    (hfinds : Recovers P H.key w credential) (hbase : NotOlder H w st.saved.generation) :
    (∃ c, openContainer P w credential = .ok c) ↔ (st.cachedMerkleRoot ≠ zeroRoot →
      computeMerkleRoot P w st.usedSlots = .ok st.cachedMerkleRoot) := by
  have hgen : st.hasGeneration = true := h.rooted.sameShape.1.hasGeneration.trans hv.hasGeneration
  refine Iff.trans ?_ ((hblock.adopts hgen hrange).loads_iff hgen)
  constructor
  · rintro ⟨c, hopen⟩
    obtain ⟨store, hload, -, -⟩ := (openContainer_eq_ok hheads hfinds).mp hopen
    exact ⟨store, hload⟩
  · rintro ⟨store, hload⟩
    obtain ⟨hre, -⟩ := (hblock.adopts hgen hrange).reloaded hgen hload
    refine ⟨_, (openContainer_eq_ok hheads hfinds).mpr ⟨store, hload, fun stored hstored => ?_, rfl⟩⟩
    rw [hre.generation]
    exact hbase stored hstored

/-- What `open` finds is what was saved. -/
theorem opened (h : SavedTo H v st m') (hv : H.On v) (hrange : FreeInRange st) (hheads : H.Heads w)
    (hblock : SavedAt P { store := st, world := v.mounted.world } H.blank w)
    (hfinds : Recovers P H.key w credential) (hopen : openContainer P w credential = .ok c) :
    ∃ store, c = containerOf H.key H.payload false H.payload.outerSlots store ∧
      Reloaded st store ∧ store.merkleDirty = false ∧ H.blank.loadFreeList P w = .ok store := by
  have hgen : st.hasGeneration = true := h.rooted.sameShape.1.hasGeneration.trans hv.hasGeneration
  obtain ⟨store, hload, -, rfl⟩ := (openContainer_eq_ok hheads hfinds).mp hopen
  obtain ⟨hre, hdirty⟩ := (hblock.adopts hgen hrange).reloaded hgen hload
  exact ⟨store, rfl, hre, hdirty, hload⟩

end SavedTo

/-! ## Both -/

/-- The volume is flushed, and opened again with one of its credentials. -/
def Remounts (v v' : MountedVolume P) : Prop :=
  ∃ m' credential c, (flush P).run v.mounted = .ok () m' ∧
    Recovers P v.store.masterKey m'.world credential ∧ openContainer P m'.world credential = .ok c ∧
    v'.mounted = { container := c, world := m'.world }

theorem freeInRange_of_freeOk (h : FreeOk v) : FreeInRange v.store := fun s hs => (h.dataSlot s hs).range

/-- A flush succeeds when the saved block fits into its slot. -/
theorem OuterHeader.On.flush_isOk (hv : H.On v) (hfree : FreeOk v)
    (hfits : AllocFits H.payload.cipher H.payload.outerSlots.toNat) : ∃ v' : MountedVolume P,
      (flush P).run v.mounted = .ok () v'.mounted := by
  obtain ⟨f, hf, -, hroom⟩ := hv.heads
  have hstart : v.store.slotStart = 0 := hv.shape.slotStart
  have hlimit : v.store.slotLimit = H.payload.outerSlots.toNat := hv.shape.slotLimit
  have hcipher : v.store.cipher = H.payload.cipher := hv.shape.cipher
  obtain ⟨m', hrun⟩ := Fs.flush_isOk hf (fun s hs => slot_inside (hlimit ▸ hs) hroom)
    (freeInRange_of_freeOk hfree) hv.hasGeneration (by
      change AllocFits v.store.cipher (v.store.slotLimit - v.store.slotStart)
      rw [hcipher, hlimit, hstart]
      exact hfits)
  obtain ⟨st, hst⟩ := hv.flushed hrun
  obtain ⟨f', hf', -⟩ := hst.heads hv
  exact ⟨⟨m', by rw [hf']; exact Option.some_ne_none f'⟩, hrun⟩

namespace SavedTo

theorem inRange (h : SavedTo H v st m') (hfree : FreeOk v) : FreeInRange st := fun s hs => by
  have hshape := h.rooted.sameShape.1
  have hs' := freeInRange_of_freeOk hfree s (by rwa [← h.free_eq])
  rwa [← hshape.slotStart, ← hshape.slotLimit] at hs'

/-- Right after a flush the block is the one that was saved. -/
theorem notOlder (h : SavedTo H v st m') : NotOlder H m'.world st.saved.generation := fun stored hstored => by
  rw [h.baseline] at hstored
  exact (Option.some.inj hstored).ge

/-- A root that was current when it was saved is the root of the slots that the flush leaves. -/
theorem root (h : SavedTo H v st m') (hv : H.On v) (hcurrent : RootCurrent P v.mounted.openStore)
    (hne : st.cachedMerkleRoot ≠ zeroRoot) :
    computeMerkleRoot P m'.world st.usedSlots = .ok st.cachedMerkleRoot := by
  have hbefore : computeMerkleRoot P v.mounted.world st.usedSlots = .ok st.cachedMerkleRoot := by
    obtain ⟨hclean, rfl⟩ | ⟨-, root, hcompute, rfl⟩ := h.rooted
    · exact hcurrent ⟨hclean, hne⟩
    · exact hcompute
  obtain ⟨bytes, w₁, hlen, hwrote, hfile⟩ := h.wrote
  rw [computeMerkleRoot_congr hfile]
  refine computeMerkleRoot_wrote hwrote hlen (fun hmem => ?_) hbefore
  -- the allocation slot is not among the slots in use
  refine (mem_usedSlots.mp hmem).2.1 ?_
  rw [(h.shape hv).allocSlot]
  rfl

end SavedTo

/-- After a flush every credential of the volume opens it again, if its root was current. -/
theorem OuterHeader.On.opens (hv : H.On v) (hfree : FreeOk v) (hcurrent : RootCurrent P v.mounted.openStore)
    (hrun : (flush P).run v.mounted = .ok () m')
    (hfinds : Recovers P v.store.masterKey m'.world credential) :
    ∃ c, openContainer P m'.world credential = .ok c := by
  obtain ⟨st, h⟩ := hv.flushed hrun
  rw [hv.masterKey] at hfinds
  exact (h.opens_iff hv (h.inRange hfree) (h.heads hv) h.block hfinds h.notOlder).mpr
    (h.root hv hcurrent)

namespace Remounts

/-- What was saved, and what was loaded of it. -/
theorem loaded (h : Remounts v v') (hv : H.On v) (hfree : FreeOk v) : ∃ st m' store,
    SavedTo H v st m' ∧ Reloaded st store ∧ store.merkleDirty = false ∧
      H.blank.loadFreeList P m'.world = .ok store ∧
      v'.mounted = { container := containerOf H.key H.payload false H.payload.outerSlots store
                     world := m'.world } := by
  obtain ⟨m', credential, c, hrun, hfinds, hopen, hv'⟩ := h
  rw [hv.masterKey] at hfinds
  obtain ⟨st, hst⟩ := hv.flushed hrun
  obtain ⟨store, rfl, hre, hdirty, hload⟩ :=
    hst.opened hv (hst.inRange hfree) (hst.heads hv) hst.block hfinds hopen
  exact ⟨st, m', store, hst, hre, hdirty, hload, hv'⟩

theorem on (h : Remounts v v') (hv : H.On v) (hfree : FreeOk v) : H.On v' := by
  obtain ⟨st, m', store, hst, hre, -, -, hv'⟩ := h.loaded hv hfree
  refine ⟨?_, ?_, ?_⟩
  · rw [hv']
    exact hst.heads hv
  · rw [MountedVolume.store, hv']
    exact (hst.shape hv).trans hre.shape
  · rw [hv']
    rfl

/-- The new handle has the nodes and the free list of the old one. -/
theorem reopens (h : Remounts v v') (hv : H.On v) (hfree : FreeOk v) : Storage.Reopens v v' := by
  obtain ⟨st, m', store, hst, hre, -, -, hv'⟩ := h.loaded hv hfree
  have hstore : v'.store = store := by rw [MountedVolume.store, hv']; rfl
  refine hst.reopens hv (by rw [hv']) ?_ ?_
  · rw [hstore]
    exact hst.rooted.sameShape.1.trans hre.shape
  · rw [hstore, ← hst.free_eq]
    exact hre.perm (by rw [hst.free_eq]; exact hfree.nodup)

theorem generation (h : Remounts v v') (hv : H.On v) (hfree : FreeOk v) :
    v'.store.generation = (v.store.generation + 1) % 2 ^ 64 := by
  obtain ⟨st, m', store, hst, hre, -, -, hv'⟩ := h.loaded hv hfree
  obtain ⟨hshape, -, hgeneration⟩ := hst.rooted.sameShape
  have hstore : v'.store = store := congrArg (fun m : Mounted => m.container.store) hv'
  rw [hstore, hre.generation]
  change (if st.hasGeneration then (st.generation + 1) % 2 ^ 64 else st.generation) = _
  rw [hshape.hasGeneration, hv.hasGeneration, if_pos rfl, hgeneration]

/-- A root that was loaded has been checked. -/
theorem current (h : Remounts v v') (hv : H.On v) (hfree : FreeOk v) :
    RootCurrent P v'.mounted.openStore := by
  obtain ⟨st, m', store, -, -, -, hload, hv'⟩ := h.loaded hv hfree
  rw [Mounted.openStore, hv']
  exact rootCurrent_of_load rfl hload

end Remounts

end Venom.Fs
