import Venom.Fs.OuterHandle
import Venom.Fs.Deniability

/-! # Work in the outer volume leaves the hidden volume alone

All that the outer handle writes lies in the outer volume, so the bytes of the hidden volume
stay.  A container whose id was drawn as zeros is the exception: it is taken for one of the
old format, its bitmap is read from the wrong place, and a node lands in the allocation slot.
-/

namespace Venom.Fs

open Venom.Container
open Venom.Crypto
open Venom.Storage
open Venom.Storage.SlotStore
open Venom.Library
open Venom.Library.Words
open Venom.Library.StateError

variable {P : Primitives}

section Frame

variable {total : UInt64} {hidden : Option UInt64} {lay : Layout} {f : ByteFile}

/-- The hidden parts are as before. -/
theorem hidden_of_issues (hs : Sizes total hidden lay) {w w' : World} (hf : w.file = some f)
    (hsize : f.size = lay.fileSize.toNat) (h : World.Issues (OuterWrite lay) w w') {p : Part}
    (hp : lay.Has p) (hhidden : ¬ p.IsOuter) : ∃ f', w'.file = some f' ∧
      ByteFile.AgreeOn (lay.region p).off (lay.region p).len f' f := by
  have hinside := hs.inside hp
  rw [← hsize] at hinside
  obtain ⟨f', hf', -, hagree⟩ := World.Issues.agreeOn hf hinside (h.mono fun x ⟨q, hq, hx⟩ =>
    hx.beside hs hp fun he => hhidden (he ▸ hq))
  exact ⟨f', hf', hagree⟩

end Frame

section Create

variable {outerPassword : List UInt8} {totalSizeBytes : UInt64} {cipher : CipherAlgorithm}
  {kdfProfile : String} {label : Option String} {opts : HiddenVolumeOptions}
  {w w' : World} {m : VnmContainer}

/-- No guarded run through the outer handle changes a byte of the hidden data slots or of the
    two hidden header copies: from any point of the run on, they are what they were. -/
theorem hidden_volume_untouched {s s' : OuterSession} {lay : Layout}
    (hcreate : (create P outerPassword totalSizeBytes cipher kdfProfile label (some opts)).run w =
      .ok m w')
    (hlay : layout totalSizeBytes (some opts.sizeBytes) = .ok lay)
    (hbefore : Relation.ReflTransGen (OuterStep P true) (.created m w') s)
    (hrun : Relation.ReflTransGen (OuterStep P true) s s') {p : Part} (hp : lay.Has p) (hhidden : ¬ p.IsOuter) :
    ∃ f f', s.mounted.world.file = some f ∧ s'.mounted.world.file = some f' ∧
      ByteFile.AgreeOn (lay.region p).off (lay.region p).len f' f := by
  obtain ⟨b, h⟩ := create_ok hcreate
  cases hlay.symm.trans h.layout
  obtain ⟨hinv, -⟩ := h.outerInv.run h.sizes h.rootInside rfl hbefore
  obtain ⟨-, hissues⟩ := hinv.run h.sizes h.rootInside rfl hrun
  obtain ⟨l, f, hf, hg⟩ := hinv.granted
  obtain ⟨f', hf', hagree⟩ := hidden_of_issues h.sizes hf hg.size hissues hp hhidden
  exact ⟨f, f', hf, hf', hagree⟩

/-- The root of the outer volume is freed, and the header of the hidden volume stays. -/
theorem hidden_volume_untouched_freed :
    ∃ m w' f f', (create plain [1] 1000000 .xchacha20Poly1305 "interactive" none
        (some hiddenOptions)).run (freePath 7) = .ok m w' ∧ w'.file = some f ∧
      (freeNode m.rootSlot.toNat { container := m, world := w' }).world.file = some f' ∧
      ByteFile.AgreeOn 967160 512 f' f := by
  obtain ⟨m, w', hcreate⟩ := create_hidden_isOk
  obtain ⟨f, f', hf, hf', hagree⟩ := hidden_volume_untouched hcreate
    (show layout 1000000 (some 70000) = .ok ⟨26, 3, 1024, 967672⟩ from rfl) .refl
    (.single (.called (.freed (.inl rfl))))
    (show Layout.Has ⟨26, 3, 1024, 967672⟩ .hiddenPrimary from rfl) not_false
  exact ⟨m, w', f, f', hcreate, hf, hf', hagree⟩

/-! ### A container whose id is zero -/

/-- A chunk of data. -/
def chunk (data : List UInt8) : VaultNode := .fileData { kind := .fileData, data }

def chunkPayload (data : List UInt8) : List UInt8 := (toVecNamed (chunk data)).getD []

theorem toVecNamed_chunk : toVecNamed (chunk []) = some (chunkPayload []) ∧
    toVecNamed (chunk [1]) = some (chunkPayload [1]) := by decide +kernel

/-- Read as an allocation block, a chunk names slot 2 before any other. -/
theorem chunk_names_two (start : Nat) : (freeOfBitmap start
    (parseAllocBlock false (chunkPayload [])).count
    (parseAllocBlock false (chunkPayload [])).bitmap).getLast? = some (start + 2) :=
  getLast?_freeOfBitmap (by decide +kernel) (by decide +kernel) (by decide +kernel)

/-- Read as a legacy block, the block of a new container names the allocation slot. -/
theorem new_block_names_zero {st : SlotStore} {bitmap : List UInt8} (hgen : st.hasGeneration = true)
    (hone : st.generation = 1) {n : Nat} (hn : 0 < n) (start : Nat) : (freeOfBitmap start n
      (parseAllocBlock false (st.allocData bitmap)).bitmap).getLast? = some (start + 0) := by
  have hdrop : (parseAllocBlock false (st.allocData bitmap)).bitmap =
      littleEndian 8 1 ++ (st.cachedMerkleRoot.toList ++ bitmap) := by
    change (st.allocData bitmap).drop 8 = _
    rw [allocData_eq hgen, hone]
    exact List.drop_left' (length_littleEndian _ _)
  refine getLast?_freeOfBitmap hn ?_ fun j hj => absurd hj (Nat.not_lt_zero j)
  rw [hdrop]
  rfl

/-- Slots to spare for the hidden volume: two are left for the outer one. -/
def mostlyHidden : HiddenVolumeOptions where
  password := [2]
  sizeBytes := 884736
  label := none
  kdfProfile := "interactive"

def mostlyHiddenLayout : Layout := ⟨2, 27, 1024, 967672⟩

theorem layout_mostlyHidden : layout 1000000 (some mostlyHidden.sizeBytes) = .ok mostlyHiddenLayout := rfl

theorem create_mostlyHidden_isOk : ∃ m w', (create plain [1] 1000000 .xchacha20Poly1305 "interactive"
    none (some mostlyHidden)).run (freePath 0) = .ok m w' := by
  refine create_isOk rfl layout_mostlyHidden (fun _ => plain_hasKeys _ _) (by decide) ?_
  rintro h ⟨⟩
  exact ⟨plain_hasKeys _ _, by decide, by decide⟩

section ZeroId

variable {b : Blocks}

/-- The header of the container. -/
def zeroHeader (b : Blocks) : HeaderPayload :=
  newPayload b .xchacha20Poly1305 (freePath 0) [1] "interactive" none

theorem zeroHeader_id (b : Blocks) : (zeroHeader b).containerId = zeroId :=
  List.Vector.toList_injective (drawn_freePath 0 _ 16)

/-- The store that `open` loads, before its free list. -/
def zeroStore (b : Blocks) : SlotStore :=
  storeToLoad (drawnKey (freePath 0) b.lay) (zeroHeader b) 0 b.lay.outerSlots.toNat outerAllocSlot

/-- The store whose free list the new container has in its block. -/
def newStore (b : Blocks) : SlotStore :=
  (emptied (outerStore b.lay .xchacha20Poly1305 (drawnKey (freePath 0) b.lay)) outerRootSlot).saved

/-- The handle that `open` gives on what it reads in the allocation slot. -/
def zeroHandle (b : Blocks) (data : List UInt8) : VnmContainer :=
  containerOf (drawnKey (freePath 0) b.lay) (zeroHeader b) false b.lay.outerSlots
    ((zeroStore b).adopt (parseAllocBlock false data))

theorem open_zeroId (h : Created plain [1] 1000000 .xchacha20Poly1305 "interactive" none
      (some mostlyHidden) (freePath 0) m w' b) {v : World} {g : ByteFile} {data : List UInt8}
    (hv : v.file = some g) (hg : Granted plain b.lay (drawnKey (freePath 0) b.lay) (zeroHeader b)
      (.created [1]) g) (hread : (zeroStore b).read plain v outerAllocSlot = .ok data)
    (hlen : 8 ≤ data.length) :
    openContainer plain v (.password [1]) = .ok (zeroHandle b data) := by
  have hmarks : ∀ c, (0 : UInt8) ≠ plainMark c := fun c => by cases c <;> decide
  obtain ⟨hmaster, hheader⟩ := h.found_plain (by simp) hmarks hv hg
  rw [openContainer_outer hv (findOuter_eq_some.mpr ⟨hmaster, hheader⟩)]
  have hgen : (zeroStore b).hasGeneration = false := by
    change decide ((zeroHeader b).containerId ≠ zeroId) = false
    rw [zeroHeader_id]
    rfl
  exact openVolume_eq_ok.mpr ⟨_, loadFreeList_legacy hgen hread hlen,
    fun hne => absurd (zeroHeader_id b) hne, rfl⟩

/-- What a chunk leaves that a handle on the zero store has written to a slot. -/
structure ChunkWritten (b : Blocks) (g : ByteFile) (slot : Nat) (m' : Mounted) (bytes : List UInt8) :
    Prop where
  file : m'.world.file = some (g.replay [⟨slotOffset slot, bytes⟩])
  length : bytes.length = slotSize
  opens : (zeroStore b).openSlot plain slot bytes = .ok (chunkPayload [])
  kMaster : m'.container.kMaster = drawnKey (freePath 0) b.lay
  cipher : m'.container.cipher = .xchacha20Poly1305
  masterKey : m'.container.store.masterKey = (zeroStore b).masterKey
  storeCipher : m'.container.store.cipher = .xchacha20Poly1305

/-- A node is written to the slot that a handle names first. -/
theorem writes_chunk {v : World} {g : ByteFile} {data : List UInt8} {slot : Nat} (hv : v.file = some g)
    (hlast : (zeroHandle b data).store.free.getLast? = some slot) :
    ∃ m' bytes, (writeNode plain (chunk [])).run { container := zeroHandle b data, world := v } =
      .ok slot m' ∧ ChunkWritten b g slot m' bytes := by
  have hfile : v.file ≠ none := by
    rw [hv]
    exact Option.some_ne_none g
  have hcipher : (zeroHandle b data).store.cipher = .xchacha20Poly1305 := rfl
  have hfits : (chunkPayload []).length + vnmbOverhead (zeroHandle b data).store.cipher + 4 ≤ slotSize := by
    rw [hcipher]
    decide +kernel
  obtain ⟨m', hrun⟩ := writeNode_isOk (P := plain) (m := { container := zeroHandle b data, world := v })
    hlast hfile toVecNamed_chunk.1 hfits
  obtain ⟨-, payload, bytes, t, hpayload, hwritten, rfl⟩ := writeNode_ok hrun
  cases toVecNamed_chunk.1.symm.trans hpayload
  have hstore := hwritten.store
  refine ⟨_, bytes, hrun, (World.Issued.of_wrote hwritten.wrote).file_eq hv, hwritten.length,
    hwritten.opens fun _ => toVecNamed_ne_nil toVecNamed_chunk.1, rfl, rfl, ?_, ?_⟩
  · change t.store.masterKey = _
    rw [hstore]
    rfl
  · change t.store.cipher = _
    rw [hstore]
    rfl

/-- The block of the new container is read as a legacy one, and a node is written to the
    allocation slot. -/
theorem zero_id_first (h : Created plain [1] 1000000 .xchacha20Poly1305 "interactive" none
      (some mostlyHidden) (freePath 0) m w' b) :
    ∃ m' bytes, Relation.ReflTransGen (OuterStep plain false) (.created m w')
      { mounted := m', live := [0], intact := false } ∧
      ChunkWritten b (Created.image b w') outerAllocSlot m' bytes := by
  have hm := h.parts.container
  have hkey : m.kMaster = drawnKey (freePath 0) b.lay := by rw [hm]
  have hcipher : m.cipher = .xchacha20Poly1305 := by rw [hm]
  have houter := h.sizes.outer
  have hread : (zeroStore b).read plain w' outerAllocSlot = .ok ((newStore b).allocData b.bitmap) :=
    h.reads_alloc h.file_eq (Nat.le_refl _) rfl rfl rfl
  have hopen := open_zeroId h h.file_eq h.granted hread (by
    rw [length_allocData]
    change 8 ≤ allocHeaderLen + _
    exact Nat.le_add_right_of_le (by decide))
  have hcount : (parseAllocBlock false ((newStore b).allocData b.bitmap)).count =
      b.lay.outerSlots.toNat := count_allocData b.lay.outerSlots.toNat_lt
  have hlast : (zeroHandle b ((newStore b).allocData b.bitmap)).store.free.getLast? =
      some outerAllocSlot := new_block_names_zero rfl rfl (by rw [hcount]; omega) 0
  obtain ⟨m', bytes, hwrite, hwritten⟩ := writes_chunk h.file_eq hlast
  exact ⟨m', bytes, (Relation.ReflTransGen.single (.opened hopen rfl hkey.symm hcipher.symm nofun)).tail
    (.called (.wrote hwrite)), hwritten⟩

/-- The node is read as an allocation block, and the next one is written to slot 2. -/
theorem zero_id_second (h : Created plain [1] 1000000 .xchacha20Poly1305 "interactive" none
      (some mostlyHidden) (freePath 0) m w' b) :
    ∃ m' g bytes, Relation.ReflTransGen (OuterStep plain false) (.created m w')
      { mounted := m', live := [2, 0], intact := false } ∧ ChunkWritten b g 2 m' bytes := by
  obtain ⟨m₁, bytes₁, hrun, hw⟩ := zero_id_first h
  have hat : AtPart b.lay (.outerSlot outerAllocSlot) ⟨slotOffset outerAllocSlot, bytes₁⟩ :=
    ⟨h.alloc.has, rfl, hw.length⟩
  have hg := h.granted.slot_write h.sizes hat
  have hread : (zeroStore b).read plain m₁.world outerAllocSlot = .ok (chunkPayload []) := by
    refine (read_eq_ok hw.file).mpr ⟨?_, ?_⟩
    · rw [hg.size]
      exact h.sizes.inside h.alloc.has
    · have hslice := (Rewrites.one hat).slice (f := Created.image b w') h.sizes (.head _)
      have hregion : b.lay.region (.outerSlot outerAllocSlot) = ⟨slotOffset outerAllocSlot, slotSize⟩ := rfl
      rw [hregion] at hslice
      dsimp only at hslice
      rw [hslice]
      exact hw.opens
  have hopen := open_zeroId h hw.file hg hread (by decide +kernel)
  have hlast : (zeroHandle b (chunkPayload [])).store.free.getLast? = some 2 := chunk_names_two 0
  obtain ⟨m', bytes, hwrite, hwritten⟩ := writes_chunk hw.file hlast
  exact ⟨m', _, bytes, (hrun.tail (.opened hopen rfl hw.kMaster.symm hw.cipher.symm nofun)).tail
    (.called (.wrote hwrite)), hwritten⟩

/-- The handle of a container whose id is zero is given the allocation slot for a node, and
    after the next `open` a slot of the hidden volume. -/
theorem zero_id_touches_hidden : ¬ ∀ (P : Primitives) (outerPassword : List UInt8)
    (totalSizeBytes : UInt64) (cipher : CipherAlgorithm) (kdfProfile : String) (label : Option String)
    (opts : HiddenVolumeOptions) (lay : Layout) (w w' : World) (m : VnmContainer) (s s' : OuterSession),
    (create P outerPassword totalSizeBytes cipher kdfProfile label (some opts)).run w = .ok m w' →
    layout totalSizeBytes (some opts.sizeBytes) = .ok lay →
    Relation.ReflTransGen (OuterStep P false) (.created m w') s →
    Relation.ReflTransGen (OuterStep P false) s s' → ∀ p : Part, lay.Has p → ¬ p.IsOuter →
    ∃ f f', s.mounted.world.file = some f ∧ s'.mounted.world.file = some f' ∧
      ByteFile.AgreeOn (lay.region p).off (lay.region p).len f' f := by
  intro hall
  obtain ⟨m, w', hcreate⟩ := create_mostlyHidden_isOk
  obtain ⟨b, h⟩ := create_ok hcreate
  have hlay : b.lay = mostlyHiddenLayout := Except.ok.inj (h.layout.symm.trans layout_mostlyHidden)
  obtain ⟨m₁, g, bytes, hrun, hw⟩ := zero_id_second h
  have hfits : (chunkPayload [1]).length + vnmbOverhead m₁.container.store.cipher + 4 ≤ slotSize := by
    rw [hw.storeCipher]
    decide +kernel
  obtain ⟨m₂, hupdate⟩ : ∃ m₂, (updateNode plain 2 (chunk [1])).run m₁ = .ok () m₂ :=
    updateNode_isOk (by rw [hw.file]; exact Option.some_ne_none _) toVecNamed_chunk.2 hfits
  have hhas : b.lay.Has (.hiddenSlot 2) := by
    rw [hlay]
    exact ⟨by decide, by decide⟩
  obtain ⟨f, f', hf, hf', hagree⟩ := hall plain _ _ _ _ _ _ b.lay _ w' m _ _ hcreate h.layout hrun
    (.single (.called (.updated (.inr (.head _)) hupdate))) _ hhas not_false
  obtain ⟨payload, bytes', t, hpayload, hwritten, rfl⟩ := updateNode_ok hupdate
  cases toVecNamed_chunk.2.symm.trans hpayload
  have hopens' := hwritten.opens fun _ => toVecNamed_ne_nil toVecNamed_chunk.2
  have hfile' := (World.Issued.of_wrote hwritten.wrote).file_eq hw.file
  have hregion : b.lay.region (.hiddenSlot 2) = ⟨slotOffset 2, slotSize⟩ := rfl
  rw [hregion] at hagree
  have hslice := hagree.slice_eq
  have hnew := ByteFile.slice_write_self (slotOffset 2) bytes' (g.replay [⟨slotOffset 2, bytes⟩])
  have hold := ByteFile.slice_write_self (slotOffset 2) bytes g
  rw [hwritten.length] at hnew
  rw [hw.length] at hold
  rw [← Option.some.inj (hw.file.symm.trans hf), ← Option.some.inj (hfile'.symm.trans hf')] at hslice
  have hbytes : bytes' = bytes := hnew.symm.trans (hslice.trans hold)
  have hopens : m₁.container.store.openSlot plain 2 bytes = .ok (chunkPayload []) :=
    (openSlot_congr hw.masterKey hw.storeCipher 2 bytes).trans hw.opens
  rw [hbytes] at hopens'
  have hpayloads := Except.ok.inj (hopens.symm.trans hopens')
  revert hpayloads
  decide +kernel

end ZeroId

end Create

end Venom.Fs
