import Venom.Fs.FlushRounds

/-! # Files whose slots have been tampered with

Somebody changes slots of a container file after a flush, and not the headers or the recipient
area.  The Merkle root covers the data slots, but it is kept in the allocation block: where that
does not authenticate any more, `open` goes on with an empty volume and checks nothing.  Only a
baseline on the device then gives the change away.
-/

namespace Venom.Fs

open Venom.Container
open Venom.Crypto
open Venom.Storage
open Venom.Storage.SlotStore
open Venom.Library
open Venom.Library.Words
open Venom.Library.StateError

variable {P : Primitives}

/-! ## The root that a flush saves -/

/-- A root that would be reused is that of slots in use, if not of all of them: a node that could
    not be written may have taken a slot. -/
def RootKnown (P : Primitives) (s : OpenStore) : Prop :=
  ReusesRoot s.store → ∃ slots, slots.Sublist s.store.usedSlots ∧
    computeMerkleRoot P s.world slots = .ok s.store.cachedMerkleRoot

theorem rootKnown_of_current {s : OpenStore} (h : RootCurrent P s) : RootKnown P s := fun hreuses =>
  ⟨_, List.Sublist.refl _, h hreuses⟩

/-- A slot that is taken is in use. -/
theorem usedSlots_popFree (st : SlotStore) : st.usedSlots.Sublist (popFree st).usedSlots := by
  refine List.monotone_filter_right _ fun slot hslot => ?_
  obtain ⟨hne, hnot⟩ := of_decide_eq_true hslot
  exact decide_eq_true ⟨hne, fun hmem => hnot (List.dropLast_subset _ hmem)⟩

section Steps

variable {total : UInt64} {hidden : Option UInt64} {lay : Layout} {k : Key} {payload : HeaderPayload}
  {s s' : OuterSession} {m m' : Mounted}

/-- The file is as before, and no slot has been given back. -/
theorem RootKnown.quiet {t t' : OpenStore} (h : RootKnown P t) (hfile : t'.world.file = t.world.file)
    (hused : t.store.usedSlots.Sublist t'.store.usedSlots)
    (hroot : t'.store.cachedMerkleRoot = t.store.cachedMerkleRoot)
    (hdirty : t'.store.merkleDirty = t.store.merkleDirty) : RootKnown P t' := by
  rintro ⟨hclean, hne⟩
  obtain ⟨slots, hsub, hcompute⟩ := h ⟨hdirty ▸ hclean, hroot ▸ hne⟩
  refine ⟨slots, hsub.trans hused, ?_⟩
  rw [computeMerkleRoot_congr hfile, hroot]
  exact hcompute

theorem RootKnown.untouched (h : RootKnown P m.openStore) (hu : Untouched m m') :
    RootKnown P m'.openStore := by
  obtain ⟨hcontainer, hdrew⟩ := hu
  rw [Mounted.openStore, hcontainer]
  exact h.quiet hdrew.file (.refl _) rfl rfl

theorem rootKnown_written {slot : Nat} {payload bytes : List UInt8} {s t : OpenStore}
    (h : Written P slot payload s t bytes) : RootKnown P t :=
  rootKnown_of_current (rootCurrent_of_dirty (by rw [h.store]))

/-- Calls keep a root known. -/
theorem RootKnown.called (h : RootKnown P s.mounted.openStore) (hinv : OuterInv P lay k payload s)
    (hs : Sizes total hidden lay) (hcall : OuterCall P s s') : RootKnown P s'.mounted.openStore := by
  obtain ⟨l, f, hf, hg⟩ := hinv.granted
  cases hcall with
  | wrote hrun =>
    obtain ⟨-, data, bytes, t, -, hwritten, rfl⟩ := writeNode_ok hrun
    exact rootKnown_written hwritten
  | writeFailed hrun =>
    obtain ⟨hdrew, hcontainer | hcontainer⟩ := writeNode_error hrun
    · exact h.untouched ⟨hcontainer, hdrew⟩
    · rw [Mounted.openStore, hcontainer]
      exact h.quiet hdrew.file (usedSlots_popFree _) rfl rfl
  | updated hknown hrun =>
    obtain ⟨data, bytes, t, -, hwritten, rfl⟩ := updateNode_ok hrun
    exact rootKnown_written hwritten
  | updateFailed hrun => exact h.untouched (updateNode_error hrun)
  | @freed slot hknown =>
    obtain ⟨bytes, -, -, hcontainer⟩ := freeNode_spec slot (m := s.mounted)
      (by rw [hf]; exact Option.some_ne_none f)
    refine rootKnown_of_current (rootCurrent_of_dirty ?_)
    change (freeNode slot s.mounted).container.store.merkleDirty = true
    rw [hcontainer]
  | recipient hrun =>
    obtain ⟨parts, ws, hre⟩ := RecipientCall.run_ok hg hs hf hinv.kMaster hinv.cipher hrun
    rintro ⟨hclean, hne⟩
    rw [Mounted.openStore, hre.container] at hclean hne ⊢
    obtain ⟨slots, hsub, hcompute⟩ := h ⟨hclean, hne⟩
    refine ⟨slots, hsub, computeMerkleRoot_of_reads (fun slot hslot raw hraw => ?_) hcompute⟩
    have hrange := (mem_usedSlots.mp (hsub.subset hslot)).1.2
    rw [show s.mounted.openStore.store.slotLimit = lay.outerSlots.toNat from hinv.shape.slotLimit] at hrange
    exact (hre.read_slot hs hf hg.size hrange).trans hraw
  | recipientFailed hrun => exact h.untouched (RecipientCall.run_error hg hs hf hinv.kMaster hinv.cipher hrun)

theorem RootKnown.step (h : RootKnown P s.mounted.openStore) (hinv : OuterInv P lay k payload s)
    (hs : Sizes total hidden lay) (hslots : payload.outerSlots = lay.outerSlots)
    (hstep : OuterStep P true s s') : RootKnown P s'.mounted.openStore := by
  cases hstep with
  | called hcall => exact h.called hinv hs hcall
  | flushed hrun =>
    obtain ⟨st, t, -, hsave, hstore, -⟩ := flush_saves hrun
    obtain ⟨bitmap, bytes, -, hwritten⟩ := saveFreeList_ok hsave
    refine rootKnown_of_current (rootCurrent_of_dirty ?_)
    rw [Mounted.openStore, hstore, hwritten.store]
  | flushFailed hrun =>
    obtain ⟨hdrew, st, hst, hcontainer⟩ := flushSlots_error (flush_error hrun)
    have hst' : RootKnown P { store := st, world := s.mounted.world } := by
      rcases hst with rfl | ⟨-, rfl⟩ | ⟨-, root, hcompute, rfl⟩
      · exact h
      · exact h
      · exact rootKnown_of_current fun _ => hcompute
    rw [Mounted.openStore]
    rcases hcontainer with hcontainer | hcontainer
    · rw [hcontainer]
      exact hst'.quiet hdrew.file (.refl _) rfl rfl
    · rw [hcontainer]
      exact hst'.quiet hdrew.file (.refl _) rfl rfl
  | opened hopen houter hkey hcipher hintact =>
    obtain ⟨l, store, hload, rfl⟩ := hinv.reopened hs hslots hopen houter hkey hcipher
    exact rootKnown_of_current (rootCurrent_of_load rfl hload)

theorem RootKnown.run (h : RootKnown P s.mounted.openStore) (hinv : OuterInv P lay k payload s)
    (hs : Sizes total hidden lay) (hroot : RootInside lay payload) (hslots : payload.outerSlots = lay.outerSlots)
    (hrun : Relation.ReflTransGen (OuterStep P true) s s') : RootKnown P s'.mounted.openStore := by
  induction hrun with
  | refl => exact h
  | tail hbefore hstep ih => exact ih.step (hinv.run hs hroot hslots hbefore).1 hs hslots hstep

/-- The store that `open` sets up before it loads the free list. -/
def toLoad (k : Key) (payload : HeaderPayload) : SlotStore :=
  storeToLoad k payload 0 payload.outerSlots.toNat outerAllocSlot

/-- What a flush has saved: its block is in the file, and the root is that of slots in use. -/
theorem OuterInv.flushedBlock (h : OuterInv P lay k payload s) (hslots : payload.outerSlots = lay.outerSlots)
    (hid : payload.containerId ≠ zeroId) (hknown : RootKnown P s.mounted.openStore)
    (hrun : (flush P).run s.mounted = .ok () m') : ∃ st : SlotStore, st.hasGeneration = true ∧
      Adopts P st (toLoad k payload) m'.world ∧
      m'.container.store = { st.saved with merkleDirty := true } ∧
      (st.cachedMerkleRoot ≠ zeroRoot → ∃ slots, slots.Sublist st.usedSlots ∧
        computeMerkleRoot P m'.world slots = .ok st.cachedMerkleRoot) := by
  obtain ⟨st, t, hrooted, hsave, hstore, hfile⟩ := flush_saves hrun
  obtain ⟨bitmap, bytes, -, hwritten⟩ := saveFreeList_ok hsave
  obtain ⟨hshape, hfree, -⟩ := hrooted.sameShape
  have hgen : st.hasGeneration = true := hshape.hasGeneration.trans (h.generation hid)
  have hblank : SameShape st (toLoad k payload) := by
    have hst := h.shape.with_free hshape
    refine ⟨hst.masterKey.symm, hst.cipher.symm, hst.slotStart.symm, ?_, hst.allocSlot.symm, ?_⟩
    · rw [hst.slotLimit, ← hslots]
      rfl
    · rw [hgen]
      exact decide_eq_true hid
  have hrange : FreeInRange st := fun slot hslot => by
    rw [hshape.slotStart, hshape.slotLimit]
    exact h.range slot (hfree ▸ hslot)
  refine ⟨st, hgen, (SavedAt.of_save hsave hblank hfile).adopts hgen hrange, hstore.trans hwritten.store,
    fun hne => ?_⟩
  have hbefore : ∃ slots, slots.Sublist st.usedSlots ∧
      computeMerkleRoot P s.mounted.world slots = .ok st.cachedMerkleRoot := by
    obtain ⟨hclean, rfl⟩ | ⟨-, root, hcompute, rfl⟩ := hrooted
    · exact hknown ⟨hclean, hne⟩
    · exact ⟨_, .refl _, hcompute⟩
  obtain ⟨slots, hsub, hcompute⟩ := hbefore
  refine ⟨slots, hsub, ?_⟩
  rw [computeMerkleRoot_congr hfile]
  -- the flush writes the allocation slot, which is not among the slots in use
  exact computeMerkleRoot_wrote hwritten.wrote hwritten.length
    (fun hmem => (mem_usedSlots.mp (hsub.subset hmem)).2.1 rfl) hcompute

end Steps

/-! ## The allocation block of a changed file -/

/-- The part of a slot that is looked at: the length and the sealed block, not the zeros behind. -/
def sealedBlock (buf : List UInt8) : List UInt8 := buf.take (4 + ofLittleEndian (buf.take 4))

theorem take_sealedBlock (buf : List UInt8) : (sealedBlock buf).take 4 = buf.take 4 := by
  rw [sealedBlock, List.take_take, Nat.min_eq_left (Nat.le_add_right _ _)]

theorem drop_sealedBlock (buf : List UInt8) :
    (sealedBlock buf).drop 4 = sub buf 4 (ofLittleEndian (buf.take 4)) := by
  rw [sealedBlock, List.drop_take, Nat.add_sub_cancel_left, sub]

theorem openSlot_of_sealedBlock {st : SlotStore} {slot : Nat} {buf buf' : List UInt8}
    (h : sealedBlock buf' = sealedBlock buf) : st.openSlot P slot buf' = st.openSlot P slot buf := by
  have hlen : buf'.take 4 = buf.take 4 := by rw [← take_sealedBlock, h, take_sealedBlock]
  have hblock : sub buf' 4 (ofLittleEndian (buf'.take 4)) = sub buf 4 (ofLittleEndian (buf.take 4)) := by
    rw [← drop_sealedBlock, h, drop_sealedBlock]
  unfold openSlot
  dsimp only
  rw [hblock, hlen]

/-- The allocation block is the one of `w`. -/
def BlockIntact (w x : World) : Prop :=
  sealedBlock (rawSlot x outerAllocSlot) = sealedBlock (rawSlot w outerAllocSlot)

instance (w x : World) : Decidable (BlockIntact w x) := inferInstanceAs (Decidable (_ = _))

/-- A block other than that of `w` does not authenticate in the allocation slot. -/
def Unforged (P : Primitives) (k : Key) (cipher : CipherAlgorithm) (w x : World) : Prop :=
  ¬ BlockIntact w x → ∀ data,
    decryptBlock P ((SlotStore.new k cipher 0 0 outerAllocSlot true).deriveSlotKey P outerAllocSlot) cipher
      (littleEndian 8 outerAllocSlot) ((sealedBlock (rawSlot x outerAllocSlot)).drop 4) ≠ .ok data

/-- A file of the same size with the same headers and recipient area. -/
def Tampered (w x : World) : Prop :=
  ∃ f f', w.file = some f ∧ x.file = some f' ∧ f'.size = f.size ∧ ByteFile.AgreeOn 0 dataAreaOffset f' f

section Load

variable {k : Key} {payload : HeaderPayload} {w x : World}

theorem read_rawSlot {st : SlotStore} {slot : Nat} {raw : List UInt8}
    (hread : x.read (slotOffset slot) slotSize = .ok raw) :
    st.read P x slot = st.openSlot P slot (rawSlot x slot) := by
  rw [rawSlot_of_read hread, SlotStore.read, except_bind_of_ok hread]

/-- An intact block is read as before. -/
theorem BlockIntact.adopts {st : SlotStore} {raw raw' : List UInt8} (h : BlockIntact w x)
    (hread : w.read (slotOffset outerAllocSlot) slotSize = .ok raw)
    (hread' : x.read (slotOffset outerAllocSlot) slotSize = .ok raw')
    (hadopts : Adopts P st (toLoad k payload) w) : Adopts P st (toLoad k payload) x := by
  obtain ⟨data, hdata, hrest⟩ := hadopts
  refine ⟨data, ?_, hrest⟩
  change (toLoad k payload).read P w outerAllocSlot = _ at hdata
  change (toLoad k payload).read P x outerAllocSlot = _
  rw [read_rawSlot hread', openSlot_of_sealedBlock h, ← read_rawSlot hread]
  exact hdata

/-- Another block is not read, and the load goes on with an empty volume. -/
theorem Unforged.load {raw : List UInt8} (h : Unforged P k payload.cipher w x) (hnot : ¬ BlockIntact w x)
    (hread : x.read (slotOffset outerAllocSlot) slotSize = .ok raw) :
    (toLoad k payload).loadFreeList P x = .ok (toLoad k payload).rebuildFreeList := by
  refine loadFreeList_unreadable fun data hdata => ?_
  change (toLoad k payload).read P x outerAllocSlot = _ at hdata
  rw [read_rawSlot hread] at hdata
  unfold openSlot at hdata
  dsimp only at hdata
  split at hdata
  next => cases hdata
  next =>
    rw [← drop_sealedBlock] at hdata
    split at hdata
    next plain hplain => exact h hnot plain hplain
    next => cases hdata

/-- A store without a generation is loaded from whatever its slot holds. -/
theorem load_legacy_isOk {st : SlotStore} (hgen : st.hasGeneration = false) :
    ∃ st', st.loadFreeList P x = .ok st' := by
  by_cases hlong : ∃ data, st.read P x st.allocSlot = .ok data ∧ 8 ≤ data.length
  · obtain ⟨data, hread, hlen⟩ := hlong
    exact ⟨_, loadFreeList_legacy hgen hread hlen⟩
  · unfold loadFreeList
    cases hread : st.read P x st.allocSlot with
    | error e => exact ⟨_, rfl⟩
    | ok data =>
      refine ⟨st.rebuildFreeList, ?_⟩
      dsimp only
      rw [hgen, if_neg]
      exact fun hlen => hlong ⟨data, hread, hlen⟩

end Load

/-! ## Opening a changed file -/

/-- Different hash inputs of slots of `w` and of those of `x` have different hashes. -/
def NoCollision (P : Primitives) (w x : World) (used : List Nat) : Prop :=
  ∀ slots, slots.Sublist used → ¬ Collision P (merkleInputs P w slots) (merkleInputs P x used)

/-- The generation of a changed file: that of the flush, or none where its block is not there. -/
def generationRead (m' : Mounted) (x : World) : Nat :=
  if BlockIntact m'.world x then m'.container.store.generation else 0

/-- The slots in use are those that have been flushed, with the root that has been saved. -/
def SlotsIntact (P : Primitives) (m' : Mounted) (x : World) : Prop :=
  computeMerkleRoot P m'.world m'.container.store.usedSlots = .ok m'.container.store.cachedMerkleRoot ∧
    ∀ slot ∈ m'.container.store.usedSlots, SameSlot m'.world x slot

/-- A volume with an id is refused when its block is intact and its slots are not, or when the
    device has seen a later generation than it has now. -/
def Detected (P : Primitives) (m : VnmContainer) (m' : Mounted) (x : World) : Prop :=
  m.containerId ≠ zeroId ∧ ((BlockIntact m'.world x ∧ ¬ SlotsIntact P m' x) ∨
    ∃ stored, x.baseline m.containerId = some stored ∧ generationRead m' x < stored)

section Opening

variable {total : UInt64} {hidden : Option UInt64} {lay : Layout} {k : Key} {payload : HeaderPayload}
  {s : OuterSession} {m' : Mounted} {w x : World} {credential : OpenCredential}

/-- The slots of a changed file can still be read. -/
theorem OuterInv.read_slot (h : OuterInv P lay k payload s) (hs : Sizes total hidden lay)
    (ht : Tampered s.mounted.world x) {slot : Nat} (hslot : slot < lay.outerSlots.toNat) :
    (∃ raw, s.mounted.world.read (slotOffset slot) slotSize = .ok raw) ∧
      ∃ raw, x.read (slotOffset slot) slotSize = .ok raw := by
  obtain ⟨l, f, hf, hg⟩ := h.granted
  obtain ⟨g, f', hg', hf', hsize, -⟩ := ht
  cases hf.symm.trans hg'
  have hinside : slotOffset slot + slotSize ≤ f.size := hg.size ▸ hs.inside (p := .outerSlot slot) hslot
  exact ⟨⟨_, World.read_eq hf hinside⟩, _, World.read_eq hf' (hsize.symm ▸ hinside)⟩

/-- The header is found, and the volume depends on its slots and on the device. -/
theorem OuterInv.open_tampered (h : OuterInv P lay k payload s) (hlay : layout total hidden = .ok lay)
    (honly : ∀ f, s.mounted.world.file = some f → OnlyCipher P k false payload.cipher (f.slice 0 512))
    (ht : Tampered s.mounted.world x) (hfinds : Recovers P k x credential) :
    (∃ c, openContainer P x credential = .ok c) ↔ ∃ store, (toLoad k payload).loadFreeList P x = .ok store ∧
      (payload.containerId ≠ zeroId → ∀ stored, x.baseline payload.containerId = some stored →
        stored ≤ store.generation) := by
  obtain ⟨l, f, hf, hg⟩ := h.granted
  obtain ⟨g, f', hg', hf', hsize, hfront⟩ := ht
  cases hf.symm.trans hg'
  obtain ⟨f'', cipher, hf'', hmaster⟩ := hfinds
  cases hf'.symm.trans hf''
  have hraw : f'.slice 0 512 = f.slice 0 512 :=
    ByteFile.slice_eq_iff.mpr fun i _ hi => hfront i (Nat.zero_le i) (by rw [dataAreaOffset_eq]; omega)
  have hheader : IsHeader P k false (counted payload l) (f'.slice 0 512) := by
    rw [hraw]
    exact hg.header
  have honly' : OnlyCipher P k false (counted payload l).cipher (f'.slice 0 512) := by
    rw [hraw]
    exact honly f hf
  rw [openContainer_of_master hlay (hsize.trans hg.size) hf' hheader honly' hmaster]
  constructor
  · rintro ⟨c, hopen⟩
    obtain ⟨store, hload, hbase, -⟩ := openVolume_eq_ok.mp hopen
    exact ⟨store, hload, hbase⟩
  · rintro ⟨store, hload, hbase⟩
    exact ⟨_, openVolume_eq_ok.mpr ⟨store, hload, hbase, rfl⟩⟩

/-- The slots of a file have the saved root exactly when they are the saved ones. -/
theorem sameRoot_iff {slots used : List Nat} {root : Key} (hword : ∀ slot ∈ used, slot < 2 ^ 64)
    (hne : root ≠ zeroRoot) (hsub : slots.Sublist used) (hsaved : computeMerkleRoot P w slots = .ok root)
    (hcollision : NoCollision P w x used) : computeMerkleRoot P x used = .ok root ↔
      computeMerkleRoot P w used = .ok root ∧ ∀ slot ∈ used, SameSlot w x slot := by
  constructor
  · intro hroot
    -- the root of no slot is zero
    have hnil : ∀ {v : World} {l : List Nat}, computeMerkleRoot P v l = .ok root → l ≠ [] := by
      rintro v l hl rfl
      exact hne (Except.ok.inj hl).symm
    obtain ⟨rfl, hreads⟩ | hcollides := slots_of_sameRoot (fun slot hslot => hword slot (hsub.subset hslot))
      hword (hnil hsaved) (hnil hroot) hsaved hroot
    · exact ⟨hsaved, hreads⟩
    · exact absurd hcollides (hcollision slots hsub)
  · rintro ⟨hroot, hsame⟩
    exact computeMerkleRoot_of_reads (fun slot hslot raw hraw => (hsame slot hslot).trans hraw) hroot

/-- A changed file is opened exactly when nothing of the change is noticed. -/
theorem OuterInv.tampered_opens_iff (h : OuterInv P lay k payload s) (hlay : layout total hidden = .ok lay)
    (hslots : payload.outerSlots = lay.outerSlots) (hknown : RootKnown P s.mounted.openStore)
    (hrun : (flush P).run s.mounted = .ok () m') (hroot : m'.container.store.cachedMerkleRoot ≠ zeroRoot)
    (honly : ∀ f, m'.world.file = some f → OnlyCipher P k false payload.cipher (f.slice 0 512))
    (ht : Tampered m'.world x) (hforge : Unforged P k payload.cipher m'.world x)
    (hcollision : NoCollision P m'.world x m'.container.store.usedSlots) (hfinds : Recovers P k x credential) :
    (∃ c, openContainer P x credential = .ok c) ↔ (payload.containerId ≠ zeroId →
      (BlockIntact m'.world x → SlotsIntact P m' x) ∧
        ∀ stored, x.baseline payload.containerId = some stored → stored ≤ generationRead m' x) := by
  have hs := layout_sizes hlay
  obtain ⟨hinv, -⟩ := h.flushed hs hrun
  rw [hinv.open_tampered hlay honly ht hfinds]
  by_cases hid : payload.containerId = zeroId
  · -- a legacy block is not checked
    refine iff_of_true ?_ fun hne => absurd hid hne
    have hgen : (toLoad k payload).hasGeneration = false := decide_eq_false (not_not.mpr hid)
    obtain ⟨store, hload⟩ := load_legacy_isOk (P := P) (x := x) hgen
    exact ⟨store, hload, fun hne => absurd hid hne⟩
  · obtain ⟨⟨raw, hread⟩, raw', hread'⟩ := hinv.read_slot hs ht
      (show outerAllocSlot < lay.outerSlots.toNat from Nat.lt_of_lt_of_le Nat.two_pos hs.outer)
    by_cases hblock : BlockIntact m'.world x
    · obtain ⟨st, hgen, hadopts, hstore, hsaved⟩ := h.flushedBlock hslots hid hknown hrun
      have hadopts' := hblock.adopts hread hread' hadopts
      have hused : m'.container.store.usedSlots = st.usedSlots := by rw [hstore]; rfl
      have hcached : m'.container.store.cachedMerkleRoot = st.cachedMerkleRoot := by rw [hstore]; rfl
      have hgeneration : generationRead m' x = st.saved.generation := by
        rw [generationRead, if_pos hblock, hstore]
      rw [hused] at hcollision
      rw [hcached] at hroot
      obtain ⟨slots, hsub, hcompute⟩ := hsaved hroot
      have hword : ∀ slot ∈ st.usedSlots, slot < 2 ^ 64 := fun slot hslot => by
        obtain ⟨data, -, -, -, hre⟩ := hadopts
        have hlt := (mem_usedSlots.mp hslot).1.2
        have hlimit : st.slotLimit = payload.outerSlots.toNat := hre.shape.slotLimit.symm
        have hmax := payload.outerSlots.toNat_lt
        omega
      have hsame := sameRoot_iff hword hroot hsub hcompute hcollision
      have hloads := hadopts'.loads_iff hgen
      simp only [hid, not_false_eq_true, ne_eq, true_implies, hblock, SlotsIntact, hused, hcached, hgeneration]
      rw [← hsame]
      constructor
      · rintro ⟨store, hload, hbase⟩
        obtain ⟨hre, -⟩ := hadopts'.reloaded hgen hload
        rw [← hre.generation]
        exact ⟨hloads.mp ⟨store, hload⟩ hroot, hbase⟩
      · rintro ⟨hcompute', hbase⟩
        obtain ⟨store, hload⟩ := hloads.mpr fun _ => hcompute'
        obtain ⟨hre, -⟩ := hadopts'.reloaded hgen hload
        exact ⟨store, hload, hre.generation ▸ hbase⟩
    · have hload := hforge.load hblock hread'
      have hgeneration : generationRead m' x = 0 := if_neg hblock
      simp only [hid, not_false_eq_true, ne_eq, true_implies, hblock, false_implies, true_and, hgeneration]
      constructor
      · rintro ⟨store, hload', hbase⟩
        cases hload.symm.trans hload'
        exact hbase
      · exact fun hbase => ⟨_, hload, hbase⟩

end Opening

section Created

variable {outerPassword : List UInt8} {totalSizeBytes : UInt64} {cipher : CipherAlgorithm}
  {kdfProfile : String} {label : Option String} {hidden : Option HiddenVolumeOptions}
  {w w' x : World} {m : VnmContainer} {b : Blocks} {s : OuterSession} {m' : Mounted}
  {credential : OpenCredential}

theorem Created.rootKnown
    (h : Created P outerPassword totalSizeBytes cipher kdfProfile label hidden w m w' b) :
    RootKnown P (OuterSession.created m w').mounted.openStore := by
  refine rootKnown_of_current (rootCurrent_of_dirty ?_)
  change m.store.merkleDirty = true
  rw [h.store]

/-- A change of a new container's file after any run of calls and a flush is noticed or not. -/
theorem Created.tampered_opens_iff
    (h : Created P outerPassword totalSizeBytes cipher kdfProfile label hidden w m w' b)
    (hrun : Relation.ReflTransGen (OuterStep P true) (.created m w') s)
    (hflush : (flush P).run s.mounted = .ok () m') (hroot : m'.container.store.cachedMerkleRoot ≠ zeroRoot)
    (honly : OneHeader P m m'.world) (ht : Tampered m'.world x)
    (hforge : Unforged P m.kMaster m.cipher m'.world x)
    (hcollision : NoCollision P m'.world x m'.container.store.usedSlots)
    (hfinds : Recovers P m.kMaster x credential) :
    (∃ c, openContainer P x credential = .ok c) ↔ ¬ Detected P m m' x := by
  have hcipher : m.cipher = cipher := by rw [h.parts.container]
  obtain ⟨hinv, -⟩ := h.outerInv.run h.sizes h.rootInside rfl hrun
  have hknown := h.rootKnown.run h.outerInv h.sizes h.rootInside rfl hrun
  rw [h.kMaster] at hforge hfinds
  rw [hcipher] at hforge
  have honly' : ∀ f, m'.world.file = some f →
      OnlyCipher P (drawnKey w b.lay) false cipher (f.slice 0 512) := fun f hf => by
    rw [← h.kMaster, ← hcipher]
    exact honly f hf
  refine (hinv.tampered_opens_iff h.layout rfl hknown hflush hroot honly' ht hforge hcollision hfinds).trans ?_
  rw [show (newPayload b cipher w outerPassword kdfProfile label).containerId = m.containerId from
    h.containerId_eq.symm]
  simp only [Detected, not_and, not_or, not_exists, not_lt, not_not]

end Created

/-! ## A container whose root directory has been written again -/

/-- The bytes of a slot are replaced. -/
def overwritten (w : World) (slot : Nat) (bytes : List UInt8) : World :=
  { w with file := w.file.map fun f => f.write (slotOffset slot) bytes }

/-- A slot of zeros. -/
def zeroSlot : List UInt8 := List.replicate slotSize 0

theorem length_zeroSlot : zeroSlot.length = slotSize := List.length_replicate

theorem sealedBlock_zeroSlot : sealedBlock zeroSlot = [0, 0, 0, 0] := by
  have htake : zeroSlot.take 4 = [0, 0, 0, 0] := by
    rw [zeroSlot, List.take_replicate]
    rfl
  rw [sealedBlock, htake]
  exact htake

/-- It holds no block. -/
theorem openSlot_zeroSlot {st : SlotStore} {slot : Nat} {data : List UInt8} :
    st.openSlot P slot zeroSlot ≠ .ok data := by
  have hlen : ofLittleEndian (zeroSlot.take 4) = 0 := by
    rw [← take_sealedBlock, sealedBlock_zeroSlot]
    rfl
  unfold openSlot
  dsimp only
  rw [hlen, if_pos (.inl (by decide))]
  rintro ⟨⟩

theorem decryptBlock_nil (key : Key) (cipher : CipherAlgorithm) (aad data : List UInt8) :
    decryptBlock P key cipher aad [] ≠ .ok data := by
  intro h
  cases cipher <;> cases h

theorem merkleInputs_single (w : World) (slot : Nat) :
    merkleInputs P w [slot] = [hashInput (.leaf (slot, rawSlot w slot))] := by
  unfold merkleInputs MerkleTree.hashed
  rw [MerkleTree.climbInputs, if_neg (by simp [rawLeaves]), List.append_nil]
  rfl

/-- One slot has one hash input. -/
theorem noCollision_single {w x : World} {slot : Nat}
    (h : rawSlot x slot = rawSlot w slot ∨ blake3 P (hashInput (.leaf (slot, rawSlot w slot))) ≠
      blake3 P (hashInput (.leaf (slot, rawSlot x slot)))) : NoCollision P w x [slot] := by
  rintro slots hsub ⟨a, ha, b, hb, hne, heq⟩
  rw [merkleInputs_single, List.mem_singleton] at hb
  rcases List.sublist_singleton.mp hsub with rfl | rfl
  · rw [merkleInputs, rawLeaves, List.map_nil, MerkleTree.hashed, MerkleTree.climbInputs] at ha
    cases ha
  · rw [merkleInputs_single, List.mem_singleton] at ha
    subst ha hb
    rcases h with h | h
    · exact hne (by rw [h])
    · exact h heq

/-- The toy hash sees the first byte of a slot. -/
theorem plain_leaf_ne {slot : Nat} {raw raw' : List UInt8} (hlen : raw.length = slotSize)
    (hlen' : raw'.length = slotSize) (h : raw[0]? ≠ raw'[0]?) :
    blake3 plain (hashInput (.leaf (slot, raw))) ≠ blake3 plain (hashInput (.leaf (slot, raw'))) := by
  have hfirst : ∀ l : List UInt8, l.length = slotSize →
      (blake3 plain (hashInput (.leaf (slot, l)))).toList[9]? = l[0]? := fun l hl => by
    change (toBytes 32 (UInt8.ofNat leafCtx.length :: (littleEndian 8 slot ++ l))).toList[9]? = _
    rw [slotSize_eq] at hl
    rw [toList_toBytes (by simp; omega), List.getElem?_take_of_lt (by decide), List.getElem?_cons_succ,
      List.getElem?_append_right (by simp)]
    simp
  intro heq
  rw [← hfirst raw hlen, ← hfirst raw' hlen', heq] at h
  exact h rfl

/-- The root directory of a new container has been written again, and flushed. -/
structure Rewritten (m : VnmContainer) (w' : World) (v v' : MountedVolume plain) : Prop where
  create : (create plain [1] 1000000 .xchacha20Poly1305 "interactive" (some "vault") none).run
    (freePath 7) = .ok m w'
  update : (updateNode plain outerRootSlot emptyDirectory).run { container := m, world := w' } =
    .ok () v.mounted
  flushed : (flush plain).run v.mounted = .ok () v'.mounted

theorem rewritten_million : ∃ m w' v v', Rewritten m w' v v' := by
  obtain ⟨m, w', hcreate⟩ := create_million_isOk 7
  obtain ⟨b, h⟩ := create_ok hcreate
  obtain ⟨hthirty, -⟩ := free_million h
  have hinv := h.clientInv (created_million_id h) h.oneHeader_plain
  obtain ⟨v, hupdate⟩ := hinv.update_isOk (show Fits .xchacha20Poly1305 emptyDirectory by decide) outerRootSlot
  have hinv' : Client.Inv b.lay m.kMaster _ ⟨v, _, .created [1]⟩ :=
    hinv.called h.sizes rfl (.updated (C := newContents) (n := emptyDirectory) (by
      rw [newContents, Function.update_self]
      exact Option.some_ne_none _) hupdate)
  obtain ⟨v', hflush⟩ := hinv'.flush_isOk (show AllocFits .xchacha20Poly1305 b.lay.outerSlots.toNat by
    rw [hthirty]; decide)
  exact ⟨m, w', v, v', hcreate, onSubtype_ok.mp hupdate, hflush⟩

namespace Rewritten

variable {m : VnmContainer} {w' x : World} {v v' : MountedVolume plain}

/-- The session of these calls. -/
def session (m : VnmContainer) (w' : World) (v : MountedVolume plain) : OuterSession :=
  { OuterSession.created m w' with
    mounted := v.mounted, intact := (OuterSession.created m w').touched outerRootSlot }

theorem created (h : Rewritten m w' v v') : ∃ b, Created plain [1] 1000000 .xchacha20Poly1305
    "interactive" (some "vault") none (freePath 7) m w' b := create_ok h.create

theorem run (h : Rewritten m w' v v') :
    Relation.ReflTransGen (OuterStep plain true) (.created m w') (session m w' v) := by
  obtain ⟨b, hb⟩ := h.created
  refine .single (.called (.updated (.inl ?_) h.update))
  change outerRootSlot = m.rootSlot.toNat
  rw [hb.parts.container]
  rfl

theorem inv (h : Rewritten m w' v v') : ∃ b, Created plain [1] 1000000 .xchacha20Poly1305
    "interactive" (some "vault") none (freePath 7) m w' b ∧ Client.Saved b.lay
      (newPayload b .xchacha20Poly1305 (freePath 7) [1] "interactive" (some "vault")) m
      ⟨v, newContents, .created [1]⟩ v'.mounted := by
  obtain ⟨b, hb⟩ := h.created
  have hinv := hb.clientInv (created_million_id hb) hb.oneHeader_plain
  have hcall : NodeCall (hb.volume, newContents) (v, Function.update newContents outerRootSlot
      (some emptyDirectory)) := .updated (by
    rw [newContents, Function.update_self]
    exact Option.some_ne_none _) (onSubtype_ok.mpr h.update)
  rw [newContents, Function.update_idem] at hcall
  exact ⟨b, hb, hb.saved (hinv.called hb.sizes rfl hcall) h.flushed⟩

theorem store (h : Rewritten m w' v v') : v.store = { m.store with merkleDirty := true } ∧
    v.mounted.container.containerId = m.containerId := by
  obtain ⟨data, bytes, t, -, hwritten, hm⟩ := updateNode_ok h.update
  rw [MountedVolume.store, hm]
  exact ⟨hwritten.store, rfl⟩

/-- The root slot is the only one in use. -/
theorem used (h : Rewritten m w' v v') : v'.store.usedSlots = [outerRootSlot] := by
  obtain ⟨b, hb, hsaved⟩ := h.inv
  obtain ⟨hthirty, -⟩ := free_million hb
  obtain ⟨H, st, hv, -, -, hst, hused⟩ := hsaved.volume
  obtain ⟨hstore, -⟩ := h.store
  have hsame : SameShape m.store v.store := by
    rw [hstore]
    exact ⟨rfl, rfl, rfl, rfl, rfl, rfl⟩
  have hshape : SameShape m.store st := hsame.trans hst.rooted.sameShape.1
  have hfree : st.free = m.store.free := hst.free_eq.trans (by
    change v.store.free = _
    rw [hstore])
  have hst' : st.usedSlots = m.store.usedSlots :=
    usedSlots_congr hshape.slotStart hshape.slotLimit hshape.allocSlot fun slot _ => by rw [hfree]
  rw [show v'.store.usedSlots = st.usedSlots from hused, hst', hb.store]
  change (List.range' 0 (b.lay.outerSlots.toNat - 0)).filter (fun slot => decide (slot ≠ outerAllocSlot ∧
    slot ∉ (emptied (outerStore b.lay .xchacha20Poly1305 (drawnKey (freePath 7) b.lay)) outerRootSlot).free)) = _
  rw [hthirty, List.filter_congr (q := fun slot => decide (slot = outerRootSlot)) fun slot hslot => ?_]
  · rfl
  · have hlt := (List.mem_range'_1.mp hslot).2
    have hlimit : (outerStore b.lay .xchacha20Poly1305 (drawnKey (freePath 7) b.lay)).slotLimit = 30 := hthirty
    rw [decide_eq_decide, mem_emptied, hlimit]
    constructor
    · rintro ⟨hne, hnot⟩
      by_contra hroot
      exact hnot ⟨⟨Nat.zero_le _, by omega⟩, hne, hroot⟩
    · rintro rfl
      exact ⟨by decide, fun hmem => hmem.2.2 rfl⟩

theorem root_ne_zero (h : Rewritten m w' v v') : v'.store.cachedMerkleRoot ≠ zeroRoot := by
  obtain ⟨b, hb, hsaved⟩ := h.inv
  refine hsaved.root_ne_zero ?_ (by rw [show v'.mounted.container.store.usedSlots = _ from h.used]; simp)
  exact congrArg merkleDirty h.store.1

theorem granted (h : Rewritten m w' v v') : ∃ b, Created plain [1] 1000000 .xchacha20Poly1305
    "interactive" (some "vault") none (freePath 7) m w' b ∧ b.lay.outerSlots.toNat = 30 ∧
      ∃ f, v'.mounted.world.file = some f ∧ Granted plain b.lay m.kMaster
        (newPayload b .xchacha20Poly1305 (freePath 7) [1] "interactive" (some "vault")) (.created [1]) f ∧
        ∀ {t}, t < 30 → slotOffset t + slotSize ≤ f.size := by
  obtain ⟨b, hb, hsaved⟩ := h.inv
  obtain ⟨hthirty, -⟩ := free_million hb
  have hinv : Client.Inv b.lay m.kMaster _ ⟨v', newContents, .created [1]⟩ :=
    hsaved.inv.flushed hb.sizes rfl h.flushed
  obtain ⟨f, hf, hg⟩ := hinv.granted
  refine ⟨b, hb, hthirty, f, hf, hg, fun {t} ht => ?_⟩
  have hin := hb.sizes.inside (p := .outerSlot t) (show t < _ by rw [hthirty]; exact ht)
  rw [← hg.size] at hin
  exact hin

/-- One of its slots is given other bytes. -/
theorem changed (h : Rewritten m w' v v') {slot : Nat} (hslot : slot < 30) {bytes : List UInt8}
    (hlen : bytes.length = slotSize)
    (hx : x.file = v'.mounted.world.file.map fun f => f.write (slotOffset slot) bytes) :
    OneHeader plain m v'.mounted.world ∧ Tampered v'.mounted.world x ∧
      Recovers plain m.kMaster x (.password [1]) ∧ rawSlot x slot = bytes ∧
      ∀ t, t < 30 → t ≠ slot → rawSlot x t = rawSlot v'.mounted.world t := by
  obtain ⟨b, hb, hthirty, f, hf, hg, hinside⟩ := h.granted
  have hxf : x.file = some (f.write (slotOffset slot) bytes) := by
    rw [hx, hf]
    rfl
  have hsize : (f.write (slotOffset slot) bytes).size = f.size :=
    ByteFile.size_write_of_le (by rw [hlen]; exact hinside hslot)
  have hkey : m.kMaster.toList = List.replicate 32 7 := hb.kMaster ▸ drawn_freePath 7 _ 32
  have hcipher : m.cipher = .xchacha20Poly1305 := by rw [hb.parts.container]
  have hgranted := Client.granted_written hg hb.sizes (show slot < _ by rw [hthirty]; exact hslot) hlen
  have hself := ByteFile.slice_write_self (slotOffset slot) bytes f
  rw [hlen] at hself
  refine ⟨hg.oneHeader_plain hf rfl hcipher, ⟨f, _, hf, hxf, hsize, ?_⟩, ⟨_, .triple, hxf,
    hgranted.recoverMaster_plain hb.sizes hxf hkey seven_unmarked (show SetsApart (.created [1]) [1] by decide)⟩,
    ?_, fun t ht hne => ?_⟩
  · refine ByteFile.agreeOn_write ?_ (.inl ((Nat.zero_add _).trans_le (Nat.le_add_right _ _)))
    exact ((Nat.zero_add _).trans_le (Nat.le_add_right _ _)).trans ((Nat.le_add_right _ _).trans (hinside hslot))
  · rw [rawSlot_of_read (World.read_eq hxf (hsize.symm ▸ hinside hslot)), hself]
  · rw [rawSlot_of_read (World.read_eq hxf (hsize.symm ▸ hinside ht)),
      rawSlot_of_read (World.read_eq hf (hinside ht))]
    exact (agreeOn_slot hlen (hinside ht) hne).slice_eq

/-- The allocation slot of `x` holds no block. -/
theorem zeroed (h : Rewritten m w' v v')
    (hx : x.file = v'.mounted.world.file.map fun f => f.write (slotOffset outerAllocSlot) zeroSlot) :
    ¬ BlockIntact v'.mounted.world x ∧ Unforged plain m.kMaster m.cipher v'.mounted.world x ∧
      NoCollision plain v'.mounted.world x v'.store.usedSlots := by
  obtain ⟨-, -, -, hraw, hothers⟩ := h.changed (by decide) length_zeroSlot hx
  refine ⟨fun hintact => ?_, fun _ data => ?_, ?_⟩
  · obtain ⟨b, hb, hsaved⟩ := h.inv
    obtain ⟨H, st, hv, -, -, hst, -⟩ := hsaved.volume
    have hgen : st.hasGeneration = true := hst.rooted.sameShape.1.hasGeneration.trans hv.hasGeneration
    obtain ⟨data, hdata, -⟩ := hst.block.adopts hgen (hst.inRange hsaved.inv.holds.freeOk)
    obtain ⟨raw, hread, -⟩ := except_bind_ok.mp hdata
    rw [read_rawSlot hread] at hdata
    change openSlot plain H.blank outerAllocSlot (rawSlot v'.mounted.world outerAllocSlot) = _ at hdata
    rw [← openSlot_of_sealedBlock hintact, hraw] at hdata
    exact openSlot_zeroSlot hdata
  · rw [hraw, sealedBlock_zeroSlot]
    exact decryptBlock_nil _ _ _ _
  · rw [h.used]
    exact noCollision_single (.inl (hothers outerRootSlot (by decide) (by decide)))

/-- The flush has raised the baseline to 2. -/
theorem baseline (h : Rewritten m w' v v') : v'.mounted.world.baseline m.containerId = some 2 := by
  obtain ⟨b, hb⟩ := h.created
  obtain ⟨hstore, hid⟩ := h.store
  have hgen : v.mounted.container.store.hasGeneration = true := by
    rw [show v.mounted.container.store = _ from hstore, hb.store]
    rfl
  obtain ⟨-, -, -, hbaseline⟩ := flush_generation h.flushed hgen
  have hone : v.mounted.container.store.generation = 1 := by
    rw [show v.mounted.container.store = _ from hstore]
    exact hb.generation
  rw [hid, hone] at hbaseline
  exact hbaseline (created_million_id hb)

/-- The root slot has other bytes. -/
theorem flips (h : Rewritten m w' v v') : ∃ bytes : List UInt8, bytes.length = slotSize ∧
    (flipped v'.mounted.world outerRootSlot).file =
      v'.mounted.world.file.map (fun f => f.write (slotOffset outerRootSlot) bytes) ∧
    (rawSlot v'.mounted.world outerRootSlot).length = slotSize ∧
    (rawSlot v'.mounted.world outerRootSlot)[0]? ≠ bytes[0]? := by
  obtain ⟨-, -, -, f, hf, -, hinside⟩ := h.granted
  have hraw : rawSlot v'.mounted.world outerRootSlot = f.slice (slotOffset outerRootSlot) slotSize :=
    rawSlot_of_read (World.read_eq hf (hinside (by decide)))
  have hlen : (f.slice (slotOffset outerRootSlot) slotSize).length = slotSize := ByteFile.length_slice _ _ _
  have hpos : 0 < (f.slice (slotOffset outerRootSlot) slotSize).length := by
    rw [hlen]
    decide
  refine ⟨otherBytes f outerRootSlot, length_otherBytes f outerRootSlot, ?_, by rw [hraw, hlen], ?_⟩
  · simp only [flipped, hf, Option.map_some]
  · rw [hraw, otherBytes, List.getElem?_map, List.getElem?_eq_getElem hpos, Option.map_some, ne_eq,
      Option.some.injEq, eq_comm, UInt8.add_eq_left]
    decide

end Rewritten

/-! ## Changed files -/

section Changed

variable {outerPassword : List UInt8} {totalSizeBytes : UInt64} {cipher : CipherAlgorithm}
  {kdfProfile : String} {label : Option String} {hidden : Option HiddenVolumeOptions}
  {w w' x : World} {m : VnmContainer} {s : OuterSession} {m' : Mounted} {credential : OpenCredential}

/-- After any run of calls and a flush, a change of the file is refused exactly if it is noticed. -/
theorem tampered_file_refused_iff
    (hcreate : (create P outerPassword totalSizeBytes cipher kdfProfile label hidden).run w = .ok m w')
    (hrun : Relation.ReflTransGen (OuterStep P true) (.created m w') s)
    (hflush : (flush P).run s.mounted = .ok () m') (hroot : m'.container.store.cachedMerkleRoot ≠ zeroRoot)
    (honly : OneHeader P m m'.world) (ht : Tampered m'.world x)
    (hforge : Unforged P m.kMaster m.cipher m'.world x)
    (hcollision : NoCollision P m'.world x m'.container.store.usedSlots)
    (hfinds : Recovers P m.kMaster x credential) :
    (∃ e, openContainer P x credential = .error e) ↔ Detected P m m' x := by
  obtain ⟨b, h⟩ := create_ok hcreate
  rw [← not_iff_not, ← h.tampered_opens_iff hrun hflush hroot honly ht hforge hcollision hfinds]
  cases openContainer P x credential with
  | error e => simp
  | ok c => simp

/-- Zeros in the allocation slot go unnoticed on another device; on the same one, and for other bytes
    in the root slot, the file is refused. -/
theorem tampered_file_refused_iff_million : ∃ (m : VnmContainer) (w' : World) (v v' : MountedVolume plain),
    Rewritten m w' v v' ∧
      (∃ c, openContainer plain { overwritten v'.mounted.world outerAllocSlot zeroSlot with rollback := .empty }
        (.password [1]) = .ok c) ∧
      (∃ e, openContainer plain (overwritten v'.mounted.world outerAllocSlot zeroSlot) (.password [1]) = .error e) ∧
      ∃ e, openContainer plain (flipped v'.mounted.world outerRootSlot) (.password [1]) = .error e := by
  obtain ⟨m, w', v, v', h⟩ := rewritten_million
  obtain ⟨b, hb⟩ := h.created
  have hid := created_million_id hb
  refine ⟨m, w', v, v', h, ?_, ?_, ?_⟩
  · obtain ⟨honly, ht, hfinds, -⟩ := h.changed (by decide) length_zeroSlot
      (x := { overwritten v'.mounted.world outerAllocSlot zeroSlot with rollback := .empty }) rfl
    obtain ⟨hnot, hforge, hcollision⟩ := h.zeroed
      (x := { overwritten v'.mounted.world outerAllocSlot zeroSlot with rollback := .empty }) rfl
    have hiff := tampered_file_refused_iff h.create h.run h.flushed h.root_ne_zero honly ht hforge hcollision hfinds
    cases hopen : openContainer plain { overwritten v'.mounted.world outerAllocSlot zeroSlot with
        rollback := .empty } (.password [1]) with
    | ok c => exact ⟨c, rfl⟩
    | error e =>
      rcases (hiff.mp ⟨e, hopen⟩).2 with ⟨hintact, -⟩ | ⟨stored, hstored, -⟩
      · exact absurd hintact hnot
      · cases hstored
  · obtain ⟨honly, ht, hfinds, -⟩ := h.changed (by decide) length_zeroSlot
      (x := overwritten v'.mounted.world outerAllocSlot zeroSlot) rfl
    obtain ⟨hnot, hforge, hcollision⟩ := h.zeroed (x := overwritten v'.mounted.world outerAllocSlot zeroSlot) rfl
    refine (tampered_file_refused_iff h.create h.run h.flushed h.root_ne_zero honly ht hforge hcollision
      hfinds).mpr ⟨hid, .inr ⟨2, h.baseline, ?_⟩⟩
    rw [generationRead, if_neg hnot]
    decide
  · obtain ⟨bytes, hlen, hx, hraw, hother⟩ := h.flips
    obtain ⟨honly, ht, hfinds, hraw', hothers⟩ := h.changed (by decide) hlen hx
    have hintact : BlockIntact v'.mounted.world (flipped v'.mounted.world outerRootSlot) :=
      congrArg sealedBlock (hothers outerAllocSlot (by decide) (by decide))
    have hcollision : NoCollision plain v'.mounted.world (flipped v'.mounted.world outerRootSlot)
        v'.store.usedSlots := by
      rw [h.used]
      refine noCollision_single (.inr (plain_leaf_ne hraw ?_ ?_))
      · rw [hraw', hlen]
      · rw [hraw']
        exact hother
    refine (tampered_file_refused_iff h.create h.run h.flushed h.root_ne_zero honly ht (absurd hintact)
      hcollision hfinds).mpr ⟨hid, .inl ⟨hintact, fun hslots => ?_⟩⟩
    have hsame := hslots.2 outerRootSlot (by rw [show v'.mounted.container.store.usedSlots = _ from h.used]; simp)
    refine hother ?_
    rw [← hraw', rawSlot, rawSlot, show (flipped v'.mounted.world outerRootSlot).read _ _ = _ from hsame]

/-- A file whose allocation slot has been filled with zeros is opened on another device. -/
theorem zeroed_block_opens : ¬ ∀ (P : Primitives) (outerPassword : List UInt8) (totalSizeBytes : UInt64)
    (cipher : CipherAlgorithm) (kdfProfile : String) (label : Option String)
    (hidden : Option HiddenVolumeOptions) (w w' x : World) (m : VnmContainer) (s : OuterSession)
    (m' : Mounted) (credential : OpenCredential),
    (create P outerPassword totalSizeBytes cipher kdfProfile label hidden).run w = .ok m w' →
    Relation.ReflTransGen (OuterStep P true) (.created m w') s → (flush P).run s.mounted = .ok () m' →
    m'.container.store.cachedMerkleRoot ≠ zeroRoot → OneHeader P m m'.world → Tampered m'.world x →
    Unforged P m.kMaster m.cipher m'.world x → NoCollision P m'.world x m'.container.store.usedSlots →
    Recovers P m.kMaster x credential →
    (∃ slot, (slot ∈ m'.container.store.usedSlots ∨ slot = outerAllocSlot) ∧ ¬ SameSlot m'.world x slot) →
    ∃ e, openContainer P x credential = .error e := by
  intro hall
  obtain ⟨m, w', v, v', h⟩ := rewritten_million
  obtain ⟨b, hb⟩ := h.created
  let x : World := { overwritten v'.mounted.world outerAllocSlot zeroSlot with rollback := .empty }
  obtain ⟨honly, ht, hfinds, -⟩ := h.changed (x := x) (by decide) length_zeroSlot rfl
  obtain ⟨hnot, hforge, hcollision⟩ := h.zeroed (x := x) rfl
  have hdiffers : ¬ SameSlot v'.mounted.world x outerAllocSlot := fun hsame => by
    refine hnot (congrArg sealedBlock ?_)
    rw [rawSlot, rawSlot, show x.read _ _ = _ from hsame]
  obtain ⟨e, herror⟩ := hall plain _ _ _ _ _ _ _ w' x m _ v'.mounted (.password [1]) h.create h.run h.flushed
    h.root_ne_zero honly ht hforge hcollision hfinds ⟨outerAllocSlot, .inr rfl, hdiffers⟩
  obtain ⟨c, hopen⟩ := (hb.tampered_opens_iff h.run h.flushed h.root_ne_zero honly ht hforge hcollision
    hfinds).mpr fun hdetected => by
      rcases hdetected.2 with ⟨hintact, -⟩ | ⟨stored, hstored, -⟩
      · exact hnot hintact
      · cases hstored
  cases herror.symm.trans hopen

end Changed

end Venom.Fs
