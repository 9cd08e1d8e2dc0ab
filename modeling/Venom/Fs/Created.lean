import Venom.Fs.Layout
import Venom.Storage.FreeList
import Venom.Crypto.Plain

/-! # What `create` writes

The writes of `create` in order: the random fill, the hidden part, the outer header and its
backup, the password slot, and the root directory and the allocation block of the outer
volume.  They determine the new file.
-/

namespace Venom.Fs

open Venom.Container
open Venom.Crypto
open Venom.Storage
open Venom.Storage.SlotStore
open Venom.Library
open Venom.Library.Words
open Venom.Library.StateError

variable {P : Primitives}

/-! ## Nodes in slots -/

theorem toVecNamed_ne_nil {node : VaultNode} {payload : List UInt8}
    (h : toVecNamed node = some payload) : payload ≠ [] := by
  rintro rfl
  have hlen := length_toVecNamed h
  have hpos := node.toValue.size_pos
  rw [encodedLen] at hlen
  rw [← hlen] at hpos
  exact absurd hpos (Nat.lt_irrefl 0)

theorem writeNodeAt_ok {slot : Nat} {node : VaultNode} {s s' : OpenStore} {u : Unit}
    (h : (writeNodeAt P slot node).run s = .ok u s') :
    ∃ payload bytes, toVecNamed node = some payload ∧ Written P slot payload s s' bytes := by
  unfold writeNodeAt at h
  cases hp : toVecNamed node with
  | none => rw [hp] at h; cases h
  | some payload =>
    rw [hp] at h
    obtain ⟨bytes, hw⟩ := write_ok h
    exact ⟨payload, bytes, rfl, hw⟩

theorem withStore_ok {α : Type} {st st' : SlotStore} {x : EStateM Fault OpenStore α} {w w' : World} :
    (withStore st x).run w = .ok st' w' ↔
      ∃ a s', x.run { store := st, world := w } = .ok a s' ∧ st' = s'.store ∧ w' = s'.world := by
  change withStore st x w = _ ↔ _
  unfold withStore
  cases x.run { store := st, world := w } with
  | ok a s => simp [eq_comm]
  | error e s => simp

/-! ## An empty volume -/

/-- The encoding of an empty directory. -/
def emptyPayload : List UInt8 := (toVecNamed emptyDirectory).getD []

theorem toVecNamed_emptyDirectory : toVecNamed emptyDirectory = some emptyPayload := by decide +kernel

/-- All slots but the allocation slot and the root are free. -/
def emptied (st : SlotStore) (rootSlot : Nat) : SlotStore :=
  { st with free := st.rebuildFreeList.free.filter (· ≠ rootSlot) }

theorem mem_emptied {st : SlotStore} {rootSlot s : Nat} :
    s ∈ (emptied st rootSlot).free ↔
      (st.slotStart ≤ s ∧ s < st.slotLimit) ∧ s ≠ st.allocSlot ∧ s ≠ rootSlot := by
  change s ∈ st.rebuildFreeList.free.filter (· ≠ rootSlot) ↔ _
  rw [List.mem_filter, mem_rebuildFreeList, decide_eq_true_iff, and_assoc]

theorem sortedGT_emptied (st : SlotStore) (rootSlot : Nat) : (emptied st rootSlot).free.SortedGT :=
  List.sortedGT_iff_pairwise.mpr ((sortedGT_rebuildFreeList st).pairwise.filter _)

theorem freeInRange_emptied (st : SlotStore) (rootSlot : Nat) : FreeInRange (emptied st rootSlot) :=
  fun _ hs => (mem_emptied.mp hs).1

/-- What setting up an empty volume leaves in its slots and in the store. -/
structure EmptyVolume (P : Primitives) (st : SlotStore) (rootSlot : Nat) (st' : SlotStore)
    (bitmap root alloc : List UInt8) : Prop where
  rootLength : root.length = slotSize
  allocLength : alloc.length = slotSize
  rootOpens : st.openSlot P rootSlot root = .ok emptyPayload
  bits : (emptied st rootSlot).freeBitmap = some bitmap
  allocOpens : st.openSlot P st.allocSlot alloc = .ok ((emptied st rootSlot).saved.allocData bitmap)
  store : st' = { (emptied st rootSlot).saved with merkleDirty := true }

theorem initVolume_ok {rootSlot : Nat} {s s' : OpenStore} {u : Unit}
    (h : (initVolume P rootSlot).run s = .ok u s') :
    ∃ bitmap root alloc, EmptyVolume P s.store rootSlot s'.store bitmap root alloc ∧
      World.Issued [⟨slotOffset rootSlot, root⟩, ⟨slotOffset s.store.allocSlot, alloc⟩]
        s.world s'.world := by
  unfold initVolume at h
  obtain ⟨u₁, s₁, hm₁, h₁⟩ := run_bind_ok.mp h
  cases hm₁
  obtain ⟨u₂, s₂, hm₂, h₂⟩ := run_bind_ok.mp h₁
  cases hm₂
  obtain ⟨u₃, s₃, hnode, h₃⟩ := run_bind_ok.mp h₂
  obtain ⟨payload, root, hpayload, hroot⟩ := writeNodeAt_ok (fallible_ok.mp hnode)
  cases toVecNamed_emptyDirectory.symm.trans hpayload
  obtain ⟨bitmap, alloc, hbitmap, halloc⟩ := saveFreeList_ok h₃
  have hstore := hroot.store
  have hstore' := halloc.store
  refine ⟨bitmap, root, alloc, ⟨hroot.length, halloc.length,
    hroot.opens fun _ => toVecNamed_ne_nil hpayload, ?_, ?_, ?_⟩, ?_⟩
  · rw [hstore] at hbitmap
    exact hbitmap
  · have hopens := halloc.opens fun _ => allocData_ne_nil
    rw [hstore] at hopens
    exact hopens
  · rw [hstore', hstore]
    rfl
  · have hwrote := World.Issued.of_wrote halloc.wrote
    rw [hstore] at hwrote
    exact (World.Issued.of_wrote hroot.wrote).trans hwrote

/-- The store that is loaded from the allocation block of an empty volume. -/
theorem EmptyVolume.load {st st' : SlotStore} {rootSlot : Nat} {bitmap root alloc : List UInt8}
    (h : EmptyVolume P st rootSlot st' bitmap root alloc) (hgen : st.hasGeneration = true)
    (hnew : st.generation = 0 ∧ st.cachedMerkleRoot = zeroRoot)
    (hlimit : st.slotLimit - st.slotStart < 2 ^ 64) {v : World} {g : ByteFile} (hv : v.file = some g)
    (hinside : slotOffset st.allocSlot + slotSize ≤ g.size)
    (hslice : g.slice (slotOffset st.allocSlot) slotSize = alloc) :
    ∃ store, st.loadFreeList P v = .ok store ∧ store.generation = 1 ∧
      store.free = (emptied st rootSlot).free ∧ SameShape st store := by
  have hread : st.read P v st.allocSlot = .ok ((emptied st rootSlot).saved.allocData bitmap) :=
    (read_eq_ok hv).mpr ⟨hinside, by rw [hslice]; exact h.allocOpens⟩
  have hgeneration : (emptied st rootSlot).saved.generation = 1 := by
    change (if st.hasGeneration = true then (st.generation + 1) % 2 ^ 64 else st.generation) = 1
    rw [if_pos hgen, hnew.1]
    rfl
  have hparse := @parseAllocBlock_allocData (emptied st rootSlot).saved bitmap hgen
    (by rw [hgeneration]; decide) hlimit
  have hload := loadFreeList_unchecked hgen hread
    (by rw [length_allocData, show (emptied st rootSlot).saved.hasGeneration = true from hgen]
        exact Nat.le_add_right _ _)
    (by rw [hparse]; exact hnew.2)
  obtain ⟨bitmap', hbitmap, -, hbits⟩ := freeBitmap_isSome (freeInRange_emptied st rootSlot)
  cases hbitmap.symm.trans h.bits
  refine ⟨_, hload, ?_, ?_, loadFreeList_sameShape hload⟩
  · rw [hparse]
    exact hgeneration
  · rw [hparse]
    exact freeOfBitmap_eq (sortedGT_emptied _ _) (freeInRange_emptied _ _) hbits

/-- The root directory of an empty volume always fits; what is left to do is to save the free
    list. -/
theorem initVolume_run {rootSlot : Nat} {s : OpenStore} (hfile : s.world.file ≠ none) :
    ∃ s₁, (initVolume P rootSlot).run s = (saveFreeList P).run s₁ ∧ s₁.world.file ≠ none ∧
      s₁.store = { emptied s.store rootSlot with merkleDirty := true } := by
  have hpayload : emptyPayload.length + vnmbOverhead s.store.cipher + 4 ≤ slotSize := by
    have hlen : emptyPayload.length ≤ allocHeaderLen := by decide +kernel
    have hover := vnmbOverhead_le s.store.cipher
    have hheader : allocHeaderLen = 48 := rfl
    have hslot : slotSize = 32768 := rfl
    omega
  obtain ⟨s₁, hs₁⟩ := @write_isOk P rootSlot _ { s with store := emptied s.store rootSlot }
    hfile hpayload
  obtain ⟨bytes, hwritten⟩ := write_ok hs₁
  obtain ⟨f, hf⟩ := Option.ne_none_iff_exists'.mp hfile
  have hnode : (fallible (writeNodeAt P rootSlot emptyDirectory)).run
      { s with store := emptied s.store rootSlot } = .ok () s₁ := by
    rw [fallible_ok, writeNodeAt, toVecNamed_emptyDirectory]
    exact hs₁
  refine ⟨s₁, ?_, ?_, hwritten.store⟩
  · unfold initVolume
    rw [run_bind_of_ok (modifyStore_run _ _), run_bind_of_ok (modifyStore_run _ _)]
    exact run_bind_of_ok hnode
  · rw [hwritten.file hf]
    exact Option.some_ne_none _

/-- An empty volume can be set up when its allocation block fits a slot. -/
theorem initVolume_isOk {rootSlot : Nat} {s : OpenStore} (hfile : s.world.file ≠ none)
    (hgen : s.store.hasGeneration = true)
    (hfits : allocHeaderLen + (s.store.slotLimit - s.store.slotStart + 7) / 8 +
      vnmbOverhead s.store.cipher + 4 ≤ slotSize) :
    ∃ s', (initVolume P rootSlot).run s = .ok () s' := by
  obtain ⟨s₁, hrun, hfile₁, hstore⟩ := @initVolume_run P rootSlot s hfile
  rw [hrun]
  apply saveFreeList_isOk hfile₁
  · rw [hstore]
    exact freeInRange_emptied s.store rootSlot
  · rw [hstore]
    change (if s.store.hasGeneration = true then allocHeaderLen else 8) + _ + _ + 4 ≤ _
    rw [hgen, if_pos rfl]
    exact hfits

/-- When the block does not fit, setting up the volume fails at its last step. -/
theorem initVolume_tooLarge {rootSlot : Nat} {s : OpenStore} (hfile : s.world.file ≠ none)
    (hgen : s.store.hasGeneration = true)
    (hlarge : slotSize < allocHeaderLen + (s.store.slotLimit - s.store.slotStart + 7) / 8 +
      vnmbOverhead s.store.cipher + 4) :
    ∃ e s', (initVolume P rootSlot).run s = .error (.error e) s' ∧ s'.world.file ≠ none := by
  obtain ⟨s₁, hrun, hfile₁, hstore⟩ := @initVolume_run P rootSlot s hfile
  obtain ⟨e, s', herr, hdrew⟩ := @saveFreeList_tooLarge P s₁
    (by rw [hstore]; exact freeInRange_emptied s.store rootSlot)
    (by
      rw [hstore]
      change _ < (if s.store.hasGeneration = true then allocHeaderLen else 8) + _ + _ + 4
      rw [hgen, if_pos rfl]
      exact hlarge)
  refine ⟨e, s', hrun.trans herr, ?_⟩
  rw [hdrew.file]
  exact hfile₁

/-! ## The random fill -/

/-- Piece `i` of the fill of a file of `n` bytes. -/
def fillWrite (w : World) (n i : Nat) : ByteFile.Write :=
  ⟨i * 65536, ((List.range 65536).map fun j => w.rng (65536 * i + j)).take (n - i * 65536)⟩

/-- The number of pieces of a fill. -/
def fillPieces (n : Nat) : Nat := (n + 65535) / 65536

def fillWrites (w : World) (n : Nat) : List ByteFile.Write :=
  (List.range (fillPieces n)).map (fillWrite w n)

/-- The file `set_len` leaves. -/
def zeroFile (n : Nat) : ByteFile := { size := n, byteAt := fun _ => 0 }

theorem fillWrite_inside {w : World} {n i : Nat} (hi : i < fillPieces n) :
    (fillWrite w n i).off + (fillWrite w n i).data.length ≤ n := by
  change i * 65536 + (((List.range 65536).map _).take (n - i * 65536)).length ≤ n
  rw [List.length_take]
  unfold fillPieces at hi
  omega

theorem mem_fillWrites {w : World} {n : Nat} {x : ByteFile.Write} (hx : x ∈ fillWrites w n) :
    x.off + x.data.length ≤ n := by
  obtain ⟨i, hi, rfl⟩ := List.mem_map.mp hx
  exact fillWrite_inside (List.mem_range.mp hi)

/-- The new file after the first `k` pieces, and what has been drawn for them. -/
structure Filled (w : World) (n k : Nat) (w' : World) : Prop where
  issued : w'.issued = (List.range k).map (fillWrite w n)
  file : w'.file = some ((zeroFile n).replay ((List.range k).map (fillWrite w n)))
  rollback : w'.rollback = w.rollback
  now : w'.now = w.now
  rng : ∀ i, w'.rng i = w.rng (65536 * k + i)

/-- One pass of the loop of `createFile`. -/
def fillPiece (n k : Nat) : WorldM Unit := do
  let buf ← fillBytes 65536
  writeBytesAt (k * 65536) (buf.toList.take (n - k * 65536))

theorem Filled.step {w v : World} {n k : Nat} (h : Filled w n k v) :
    ∃ v', (fillPiece n k).run v = .ok () v' ∧ Filled w n (k + 1) v' := by
  have hrng : v.rng = fun j => w.rng (65536 * k + j) := funext h.rng
  have hdata : (v.drawn 65536).toList.take (n - k * 65536) = (fillWrite w n k).data := by
    rw [World.toList_drawn, hrng, fillWrite]
  have hpieces : (List.range (k + 1)).map (fillWrite w n) =
      (List.range k).map (fillWrite w n) ++ [fillWrite w n k] := by
    rw [List.range_succ, List.map_append, List.map_singleton]
  have hskip : (v.skip 65536).file = v.file := rfl
  refine ⟨(v.skip 65536).write (k * 65536) (fillWrite w n k).data
    ((zeroFile n).replay ((List.range k).map (fillWrite w n))), ?_, ?_, ?_, h.rollback, h.now, ?_⟩
  · rw [fillPiece, run_bind_of_ok (fillBytes_eq 65536 v), hdata]
    exact writeBytesAt_run (hskip.trans h.file)
  · rw [hpieces, ← h.issued]
    rfl
  · rw [hpieces, ByteFile.replay_concat]
    rfl
  · intro i
    have hdrawn : ((v.skip 65536).write (k * 65536) (fillWrite w n k).data
        ((zeroFile n).replay ((List.range k).map (fillWrite w n)))).rng i = v.rng (65536 + i) := rfl
    rw [hdrawn, h.rng]
    congr 1
    ring

theorem createFile_run (w : World) (n : Nat) :
    ∃ w', (createFile n).run w = .ok () w' ∧ Filled w n (fillPieces n) w' := by
  have hloop := forM_total (f := fillPiece n) (l := List.range (fillPieces n))
    (s := { w with file := some (zeroFile n), issued := [] })
    (fun done v => done = List.range done.length ∧ Filled w n done.length v)
    ⟨rfl, rfl, rfl, rfl, rfl, by simp⟩
    (fun done k rest v hl hinv => by
      have hk : k = done.length := by
        have hget : (List.range (fillPieces n))[done.length]? = some k := by
          rw [hl, List.getElem?_append_right (Nat.le_refl _), Nat.sub_self]
          rfl
        obtain ⟨hlt, hget⟩ := List.getElem?_eq_some_iff.mp hget
        rw [List.getElem_range] at hget
        exact hget.symm
      obtain ⟨v', hrun, hfilled⟩ := hinv.2.step
      refine ⟨v', ?_, ?_⟩
      · rw [hk]
        exact hrun
      · rw [List.length_append, List.length_singleton, hk]
        exact ⟨by rw [List.range_succ, ← hinv.1], hfilled⟩)
  obtain ⟨w', hrun, -, hfilled⟩ := hloop
  rw [List.length_range] at hfilled
  exact ⟨w', hrun, hfilled⟩

/-! ## The hidden part -/

/-- The writes of the hidden part: its header three times, the root and the allocation block. -/
def HiddenWrites (lay : Layout) (ws : List ByteFile.Write) : Prop :=
  ∃ hdr₁ hdr₂ root alloc : List UInt8, hdr₁.length = headerSize ∧ hdr₂.length = headerSize ∧
    root.length = slotSize ∧ alloc.length = slotSize ∧
    (∃ kdfProfile, readHeaderPlaintext hdr₂ = (kdfProfile, 1, 0)) ∧
    ws = [⟨lay.fileSize.toNat - 512, hdr₁⟩, ⟨lay.fileSize.toNat - 512, hdr₂⟩, ⟨512, hdr₂⟩,
      ⟨slotOffset (lay.outerSlots.toNat + 1), root⟩,
      ⟨slotOffset (lay.outerSlots.toNat + lay.hiddenSlots.toNat - 1), alloc⟩]

/-- The store of the hidden part. -/
def hiddenStore (lay : Layout) (cipher : CipherAlgorithm) (kHidden : Key) : SlotStore :=
  SlotStore.new kHidden cipher lay.outerSlots.toNat (lay.outerSlots.toNat + lay.hiddenSlots.toNat)
    (lay.outerSlots.toNat + lay.hiddenSlots.toNat - 1) true

section Parts

variable {lay : Layout} {cipher : CipherAlgorithm} {now : UInt64} {w w' : World}

/-- The blocks of the hidden part: the header that is overwritten, the header that stays, and
    the slots. -/
structure HiddenBlocks where
  unusedHdr : List UInt8
  hdr : List UInt8
  bitmap : List UInt8
  root : List UInt8
  alloc : List UInt8

def HiddenBlocks.writes (b : HiddenBlocks) (lay : Layout) : List ByteFile.Write :=
  [⟨lay.fileSize.toNat - 512, b.unusedHdr⟩, ⟨lay.fileSize.toNat - 512, b.hdr⟩, ⟨512, b.hdr⟩,
    ⟨slotOffset (lay.outerSlots.toNat + 1), b.root⟩,
    ⟨slotOffset (lay.outerSlots.toNat + lay.hiddenSlots.toNat - 1), b.alloc⟩]

/-- The number of random bytes the hidden part draws in front of the salt of its header: the key,
    the container id, the password slot and the header that is overwritten. -/
def drawnBeforeSalt (cipher : CipherAlgorithm) : Nat :=
  32 + 16 + (32 + nonceSectionLen .triple) + (saltLen + nonceSectionLen cipher)

/-- What a successful hidden part has written. -/
structure HiddenParts (P : Primitives) (lay : Layout) (cipher : CipherAlgorithm) (now : UInt64)
    (h : HiddenVolumeOptions) (w : World) (b : HiddenBlocks) : Prop where
  unusedLength : b.unusedHdr.length = headerSize
  header : ∃ v v', World.Took (drawnBeforeSalt cipher) w v ∧ (encodeHeaderWithPassword P
    (hiddenPayload lay cipher now h ((w.skip 32).drawn 16)) h.password true).run v = .ok b.hdr v'
  volume : ∃ st, EmptyVolume P (hiddenStore lay cipher (w.drawn 32)) (lay.outerSlots.toNat + 1) st
    b.bitmap b.root b.alloc

theorem createHidden_parts {h : HiddenVolumeOptions} {u : Unit}
    (hrun : (createHidden P lay cipher now h).run w = .ok u w') :
    ∃ b, HiddenParts P lay cipher now h w b ∧ World.Issued (b.writes lay) w w' := by
  unfold createHidden at hrun
  obtain ⟨kHidden, w₁, hkey, h₁⟩ := run_bind_ok.mp hrun
  obtain ⟨containerId, w₂, hid, h₂⟩ := run_bind_ok.mp h₁
  obtain ⟨pwSlot, w₃, hslot, h₃⟩ := run_bind_ok.mp h₂
  obtain ⟨hdr₁, w₄, hhdr₁, h₄⟩ := run_bind_ok.mp h₃
  obtain ⟨u₁, w₅, hwrite₁, h₅⟩ := run_bind_ok.mp h₄
  obtain ⟨hdr₂, w₆, hhdr₂, h₆⟩ := run_bind_ok.mp h₅
  obtain ⟨u₂, w₇, hwrite₂, h₇⟩ := run_bind_ok.mp h₆
  obtain ⟨u₃, w₈, hwrite₃, h₈⟩ := run_bind_ok.mp h₇
  obtain ⟨st, w₉, hstore, h₉⟩ := run_bind_ok.mp h₈
  cases h₉
  obtain ⟨u₄, s, hinit, -, rfl⟩ := withStore_ok.mp hstore
  obtain ⟨bitmap, root, alloc, hvolume, hissued⟩ := initVolume_ok hinit
  have hdrew := (((fillBytes_ok hkey).2.trans (fillBytes_ok hid).2).trans
    (encodePasswordSlot_isSlot (fallible_ok.mp hslot)).1).trans
      (encodeHeader_isHeader (fallible_ok.mp hhdr₁)).1
  -- the first header is written before the salt of the second one is drawn
  have htook := (((fillBytes_took hkey).trans (fillBytes_took hid)).trans
    (encodePasswordSlot_took (fallible_ok.mp hslot))).trans (encodeHeader_took (fallible_ok.mp hhdr₁))
  have hwrote := (writeBytesAt_ok (fallible_ok.mp hwrite₁)).choose_spec.2
  have i₁ := World.Issued.of_wrote (writeBytesAt_wrote (fallible_ok.mp hwrite₁))
  have i₂ := World.Issued.of_wrote (writeBytesAt_wrote (fallible_ok.mp hwrite₂))
  have i₃ := World.Issued.of_wrote (writeBytesAt_wrote (fallible_ok.mp hwrite₃))
  cases hkey
  cases hid
  refine ⟨⟨hdr₁, hdr₂, bitmap, root, alloc⟩, ⟨(encodeHeader_isHeader (fallible_ok.mp hhdr₁)).2.length,
    ⟨w₅, w₆, ?_, hhdr₂⟩, _, hvolume⟩, ?_⟩
  · rw [hwrote]
    exact htook
  · exact (i₁.drew_trans hdrew).trans
      ((i₂.drew_trans (encodeHeaderWithPassword_ok hhdr₂).1).trans (i₃.trans hissued))

theorem HiddenParts.hiddenWrites {h : HiddenVolumeOptions} {b : HiddenBlocks}
    (hb : HiddenParts P lay cipher now h w b) : HiddenWrites lay (b.writes lay) := by
  obtain ⟨v, v', -, hhdr⟩ := hb.header
  obtain ⟨-, hlen, hplain⟩ := encodeHeaderWithPassword_ok hhdr
  obtain ⟨st, hvolume⟩ := hb.volume
  exact ⟨b.unusedHdr, b.hdr, b.root, b.alloc, hb.unusedLength, hlen, hvolume.rootLength,
    hvolume.allocLength, ⟨_, hplain⟩, rfl⟩

/-! ## The outer part -/

/-- The writes of the outer part. -/
def outerWrites (lay : Layout) (hidden : Bool) (outerPassword hdr pwSlot root alloc : List UInt8) :
    List ByteFile.Write :=
  [⟨0, hdr⟩, ⟨outerBackupOffset lay.fileSize.toNat hidden, hdr⟩] ++
    (if outerPassword.isEmpty then [] else [⟨pwSlotOffset 0, pwSlot⟩]) ++
    [⟨slotOffset outerRootSlot, root⟩, ⟨slotOffset outerAllocSlot, alloc⟩]

/-- The store `create` sets up. -/
def outerStore (lay : Layout) (cipher : CipherAlgorithm) (kOuter : Key) : SlotStore :=
  SlotStore.new kOuter cipher 0 lay.outerSlots.toNat outerAllocSlot true

/-- The store and the blocks of a new outer volume. -/
structure OuterParts (P : Primitives) (lay : Layout) (cipher : CipherAlgorithm) (now : UInt64)
    (outerPassword : List UInt8) (kdfProfile : String) (label : Option String) (kOuter : Key)
    (containerId : Bytes 16) (m : VnmContainer) (hdr pwSlot bitmap root alloc : List UInt8) :
    Prop where
  header : IsHeader P kOuter false
    (outerPayload lay cipher now outerPassword kdfProfile label containerId) hdr
  pwSlot : outerPassword ≠ [] → IsPasswordSlot P kOuter outerPassword pwSlot
  volume : EmptyVolume P (outerStore lay cipher kOuter) outerRootSlot m.store bitmap root alloc
  container : m = { store := m.store, rootSlot := UInt64.ofNat outerRootSlot, isHidden := false, cipher
                    outerSlots := lay.outerSlots, outerLimit := lay.outerSlots, label
                    createdAt := now, kMaster := kOuter, containerId }

variable {hidden : Bool} {outerPassword : List UInt8} {kdfProfile : String} {label : Option String}
  {kOuter : Key} {containerId : Bytes 16} {m : VnmContainer}

theorem writePasswordSlot_ok {u : Unit}
    (h : (writePasswordSlot P outerPassword kdfProfile kOuter).run w = .ok u w') :
    ∃ pwSlot, (outerPassword ≠ [] → IsPasswordSlot P kOuter outerPassword pwSlot) ∧
      World.Issued (if outerPassword.isEmpty then [] else [⟨pwSlotOffset 0, pwSlot⟩]) w w' := by
  unfold writePasswordSlot at h
  by_cases hempty : outerPassword.isEmpty = true
  · rw [if_pos hempty] at h
    cases h
    refine ⟨[], fun hne => absurd (List.isEmpty_iff.mp hempty) hne, ?_⟩
    rw [if_pos hempty]
    exact .of_drew (.refl w)
  · rw [if_neg hempty] at h
    obtain ⟨pwSlot, w₁, hencode, hwrite⟩ := run_bind_ok.mp h
    obtain ⟨hdrew, hslot⟩ := encodePasswordSlot_isSlot (fallible_ok.mp hencode)
    have hissued := World.Issued.of_wrote (writeBytesAt_wrote (fallible_ok.mp hwrite))
    refine ⟨pwSlot, fun _ => hslot, ?_⟩
    rw [if_neg hempty]
    exact hissued.drew_trans hdrew

theorem createOuter_ok (h : (createOuter P lay hidden cipher now outerPassword kdfProfile label kOuter
    containerId).run w = .ok m w') :
    ∃ hdr pwSlot bitmap root alloc, OuterParts P lay cipher now outerPassword kdfProfile label kOuter
        containerId m hdr pwSlot bitmap root alloc ∧
      ∃ w₁, World.Issued (outerWrites lay hidden outerPassword hdr pwSlot root alloc) w w₁ ∧
        (updateRollback containerId m.store.generation : EStateM Fault World Unit).run w₁ =
          .ok () w' := by
  unfold createOuter at h
  obtain ⟨hdr, w₁, hhdr, h₁⟩ := run_bind_ok.mp h
  obtain ⟨u₁, w₂, hwrite₁, h₂⟩ := run_bind_ok.mp h₁
  obtain ⟨u₂, w₃, hwrite₂, h₃⟩ := run_bind_ok.mp h₂
  obtain ⟨u₃, w₄, hpw, h₄⟩ := run_bind_ok.mp h₃
  obtain ⟨store, w₅, hstore, h₅⟩ := run_bind_ok.mp h₄
  obtain ⟨u₄, w₆, hrollback, h₆⟩ := run_bind_ok.mp h₅
  cases h₆
  obtain ⟨u₅, s, hinit, rfl, rfl⟩ := withStore_ok.mp hstore
  obtain ⟨bitmap, root, alloc, hvolume, hissued⟩ := initVolume_ok hinit
  obtain ⟨hdrew, hheader⟩ := encodeHeader_isHeader (fallible_ok.mp hhdr)
  have i₁ := World.Issued.of_wrote (writeBytesAt_wrote (fallible_ok.mp hwrite₁))
  have i₂ := World.Issued.of_wrote (writeBytesAt_wrote (fallible_ok.mp hwrite₂))
  have hheaders := (i₁.drew_trans hdrew).trans i₂
  obtain ⟨pwSlot, hisSlot, hpwIssued⟩ := writePasswordSlot_ok hpw
  refine ⟨hdr, pwSlot, bitmap, root, alloc, ⟨hheader, hisSlot, hvolume, rfl⟩, s.world, ?_, hrollback⟩
  exact (hheaders.trans hpwIssued).trans hissued

end Parts

/-! ## The whole -/

/-- The random bytes `create` takes for the master key and for the container id: those
    behind the fill. -/
def drawnKey (w : World) (lay : Layout) : Key :=
  (w.skip (65536 * fillPieces lay.fileSize.toNat)).drawn 32

def drawnContainerId (w : World) (lay : Layout) : Bytes 16 :=
  (w.skip (65536 * fillPieces lay.fileSize.toNat + 32)).drawn 16

/-- The blocks of a new container. -/
structure Blocks where
  lay : Layout
  hiddenWrites : List ByteFile.Write
  hdr : List UInt8
  pwSlot : List UInt8
  bitmap : List UInt8
  root : List UInt8
  alloc : List UInt8

/-- What a successful `create` has done. -/
structure Created (P : Primitives) (outerPassword : List UInt8) (totalSizeBytes : UInt64)
    (cipher : CipherAlgorithm) (kdfProfile : String) (label : Option String)
    (hidden : Option HiddenVolumeOptions) (w : World) (m : VnmContainer) (w' : World) (b : Blocks) :
    Prop where
  fresh : w.file = none
  layout : layout totalSizeBytes (hidden.map (·.sizeBytes)) = .ok b.lay
  hiddenNone : hidden = none → b.hiddenWrites = []
  hiddenSome : hidden.isSome → HiddenWrites b.lay b.hiddenWrites
  parts : OuterParts P b.lay cipher w.now outerPassword kdfProfile label (drawnKey w b.lay)
    (drawnContainerId w b.lay) m b.hdr b.pwSlot b.bitmap b.root b.alloc
  issued : w'.issued = fillWrites w b.lay.fileSize.toNat ++ b.hiddenWrites ++
    outerWrites b.lay hidden.isSome outerPassword b.hdr b.pwSlot b.root b.alloc
  file : w'.file = some ((zeroFile b.lay.fileSize.toNat).replay w'.issued)
  rollback : w'.rollback = ((RollbackState.load w).updated (drawnContainerId w b.lay)
    m.store.generation).entries
  now : w'.now = w.now

theorem createHidden?_ok {lay : Layout} {cipher : CipherAlgorithm} {now : UInt64} {w w' : World}
    {hidden : Option HiddenVolumeOptions} {u : Unit}
    (h : (createHidden? P lay cipher now hidden).run w = .ok u w') :
    ∃ ws, (hidden = none → ws = []) ∧ (hidden.isSome → HiddenWrites lay ws) ∧
      World.Issued ws w w' := by
  cases hidden with
  | none =>
    cases h
    exact ⟨[], fun _ => rfl, fun hs => (by cases hs), .of_drew (.refl w)⟩
  | some opts =>
    obtain ⟨b, hparts, hissued⟩ := createHidden_parts h
    exact ⟨b.writes lay, fun hn => (by cases hn), fun _ => hparts.hiddenWrites, hissued⟩

section Steps

variable {outerPassword : List UInt8} {totalSizeBytes : UInt64} {cipher : CipherAlgorithm}
  {kdfProfile : String} {label : Option String} {hidden : Option HiddenVolumeOptions}
  {w w' : World} {m : VnmContainer}

/-- The fill, the draws and the two parts. -/
theorem create_steps
    (h : (create P outerPassword totalSizeBytes cipher kdfProfile label hidden).run w = .ok m w') :
    w.file = none ∧ ∃ lay v v', layout totalSizeBytes (hidden.map (·.sizeBytes)) = .ok lay ∧
      Filled w lay.fileSize.toNat (fillPieces lay.fileSize.toNat) v ∧
      (createHidden? P lay cipher w.now hidden).run ((v.skip 32).skip 16) = .ok () v' ∧
      (createOuter P lay hidden.isSome cipher w.now outerPassword kdfProfile label (drawnKey w lay)
        (drawnContainerId w lay)).run v' = .ok m w' := by
  unfold create at h
  obtain ⟨w₀, w₁, hget, h₁⟩ := run_bind_ok.mp h
  cases hget
  by_cases hfresh : w.file.isSome = true
  · rw [if_pos hfresh] at h₁
    cases h₁
  · rw [if_neg hfresh] at h₁
    obtain ⟨lay, w₂, hthrow, h₂⟩ := run_bind_ok.mp h₁
    obtain ⟨hlay, rfl⟩ := orThrow_ok.mp (fallible_ok.mp hthrow)
    obtain ⟨u₁, v, hfill, h₃⟩ := run_bind_ok.mp h₂
    obtain ⟨v₀, hrun, hfilled⟩ := createFile_run w₂ lay.fileSize.toNat
    cases hrun.symm.trans (fallible_ok.mp hfill)
    obtain ⟨kOuter, w₄, hkey, h₄⟩ := run_bind_ok.mp h₃
    obtain ⟨containerId, w₅, hid, h₅⟩ := run_bind_ok.mp h₄
    obtain ⟨u₂, v', hhidden, h₆⟩ := run_bind_ok.mp h₅
    rw [fillBytes_eq] at hkey
    cases hkey
    rw [fillBytes_eq] at hid
    cases hid
    have hkeyEq : v.drawn 32 = drawnKey w₂ lay := drawn_congr hfilled.rng 32
    have hidEq : (v.skip 32).drawn 16 = drawnContainerId w₂ lay := by
      refine drawn_congr (fun i => ?_) 16
      exact (hfilled.rng (32 + i)).trans (congrArg w₂.rng (Nat.add_assoc _ _ _).symm)
    rw [hkeyEq, hidEq] at h₆
    exact ⟨Option.not_isSome_iff_eq_none.mp hfresh, lay, v, v', hlay, hfilled, hhidden, h₆⟩

/-- The writes of the hidden part and the outer part determine the new file. -/
theorem Created.of_steps {lay : Layout} {v v' : World} {ws : List ByteFile.Write}
    (hfresh : w.file = none) (hlay : Fs.layout totalSizeBytes (hidden.map (·.sizeBytes)) = .ok lay)
    (hfilled : Filled w lay.fileSize.toNat (fillPieces lay.fileSize.toNat) v)
    (hnone : hidden = none → ws = []) (hsome : hidden.isSome → HiddenWrites lay ws)
    (hissued : World.Issued ws ((v.skip 32).skip 16) v')
    (houter : (createOuter P lay hidden.isSome cipher w.now outerPassword kdfProfile label
      (drawnKey w lay) (drawnContainerId w lay)).run v' = .ok m w') :
    ∃ hdr pwSlot bitmap root alloc, Created P outerPassword totalSizeBytes cipher kdfProfile label
      hidden w m w' ⟨lay, ws, hdr, pwSlot, bitmap, root, alloc⟩ := by
  obtain ⟨hdr, pwSlot, bitmap, root, alloc, hparts, w₇, hissued', hrollback⟩ := createOuter_ok houter
  have hdrew : World.OnlyDrew v ((v.skip 32).skip 16) := (World.OnlyDrew.skip v 32).trans (.skip _ 16)
  have htotal := (hissued.drew_trans hdrew).trans hissued'
  cases hrollback
  have hwrites : w₇.issued = fillWrites w lay.fileSize.toNat ++ ws ++
      outerWrites lay hidden.isSome outerPassword hdr pwSlot root alloc := by
    rw [htotal.issued, hfilled.issued, List.append_assoc]
    rfl
  refine ⟨hdr, pwSlot, bitmap, root, alloc, hfresh, hlay, hnone, hsome, hparts, hwrites, ?_, ?_,
    htotal.now.trans hfilled.now⟩
  · change w₇.file = some (ByteFile.replay w₇.issued _)
    rw [htotal.file_eq hfilled.file, htotal.issued, hfilled.issued, ← ByteFile.replay_append]
  · change (RollbackState.updated (RollbackState.load w₇) _ _).entries = _
    have hload : RollbackState.load w₇ = RollbackState.load w := by
      rw [RollbackState.load, htotal.rollback, hfilled.rollback]
      rfl
    rw [hload]

theorem create_ok
    (h : (create P outerPassword totalSizeBytes cipher kdfProfile label hidden).run w = .ok m w') :
    ∃ b, Created P outerPassword totalSizeBytes cipher kdfProfile label hidden w m w' b := by
  obtain ⟨hfresh, lay, v, v', hlay, hfilled, hhidden, houter⟩ := create_steps h
  obtain ⟨ws, hnone, hsome, hissued⟩ := createHidden?_ok hhidden
  obtain ⟨hdr, pwSlot, bitmap, root, alloc, hc⟩ :=
    Created.of_steps hfresh hlay hfilled hnone hsome hissued houter
  exact ⟨_, hc⟩

end Steps

/-! ## When `create` succeeds -/

/-- The password has a key under every salt of a length in use: that of a password slot, and
    that of a header. -/
def HasKeys (P : Primitives) (password : List UInt8) (kdfProfile : UInt8) : Prop :=
  ∀ salt : List UInt8, salt.length = 32 ∨ salt.length = saltLen →
    ∃ key, passwordKey P password salt kdfProfile = .ok key

theorem HasKeys.slot {password : List UInt8} {kdfProfile : UInt8} (h : HasKeys P password kdfProfile)
    (w : World) : ∃ key, passwordKey P password (w.drawn 32).toList kdfProfile = .ok key :=
  h _ (.inl (List.Vector.toList_length _))

theorem HasKeys.header {password : List UInt8} {kdfProfile : UInt8} (h : HasKeys P password kdfProfile)
    (w : World) : ∃ key, passwordKey P password (w.drawn saltLen).toList kdfProfile = .ok key :=
  h _ (.inr (List.Vector.toList_length _))

/-- The allocation block of a volume fits a slot. -/
def AllocFits (cipher : CipherAlgorithm) (slots : Nat) : Prop :=
  allocHeaderLen + (slots + 7) / 8 + vnmbOverhead cipher + 4 ≤ slotSize

instance (cipher : CipherAlgorithm) (slots : Nat) : Decidable (AllocFits cipher slots) :=
  inferInstanceAs (Decidable (_ ≤ _))

section Total

variable {lay : Layout} {cipher : CipherAlgorithm} {now : UInt64} {w : World}

theorem withStore_isOk {α : Type} {st : SlotStore} {x : EStateM Fault OpenStore α} {a : α}
    {s : OpenStore} (h : x.run { store := st, world := w } = .ok a s) :
    (withStore st x).run w = .ok s.store s.world := withStore_ok.mpr ⟨a, s, h, rfl, rfl⟩

theorem initVolume_withStore {st : SlotStore} {rootSlot : Nat} (hfile : w.file ≠ none)
    (hgen : st.hasGeneration = true) (hfits : AllocFits st.cipher (st.slotLimit - st.slotStart)) :
    ∃ st' w', (withStore st (initVolume P rootSlot)).run w = .ok st' w' := by
  obtain ⟨s, hs⟩ := @initVolume_isOk P rootSlot { store := st, world := w } hfile hgen hfits
  exact ⟨_, _, withStore_isOk hs⟩

/-- A write in a computation that may panic. -/
theorem fallible_write {off : Nat} {data : List UInt8} {f : ByteFile} (hf : w.file = some f) :
    (fallible (writeBytesAt off data)).run w = .ok () (w.write off data f) :=
  fallible_ok.mpr (writeBytesAt_run hf)

theorem slots_hiddenStore (kHidden : Key) : (hiddenStore lay cipher kHidden).slotLimit -
    (hiddenStore lay cipher kHidden).slotStart = lay.hiddenSlots.toNat := Nat.add_sub_cancel_left _ _

/-- Up to the second encoding of the header, the hidden part needs the key of the password slot. -/
theorem createHidden_toHeader {h : HiddenVolumeOptions} {f : ByteFile} (hf : w.file = some f)
    (hkeys : HasKeys P h.password (kdfId h.kdfProfile)) :
    ∃ (containerId : Bytes 16) (w' : World), w'.file ≠ none ∧
      (createHidden P lay cipher now h).run w =
        (do
          let hidHdr ← encodeHeaderWithPassword P (hiddenPayload lay cipher now h containerId) h.password true
          fallible (writeBytesAt (lay.fileSize.toNat - 512) hidHdr)
          fallible (writeBytesAt 512 hidHdr)
          let _ ← withStore (hiddenStore lay cipher (w.drawn 32)) (initVolume P (lay.outerSlots.toNat + 1))
          pure () : EStateM Fault World Unit).run w' := by
  have hw₂ : ((w.skip 32).skip 16).file = some f := hf
  obtain ⟨pwSlot, w₃, hslot⟩ := @encodePasswordSlot_isOk P (w.drawn 32)
    ((w.skip 32).skip 16) _ _ (hkeys.slot _)
  have hf₃ : w₃.file = some f := by rw [(encodePasswordSlot_isSlot hslot).1.file, hw₂]
  obtain ⟨hdr, w₄, hhdr⟩ := @encodeHeader_isOk P
    (hiddenPayload lay cipher now h ((w.skip 32).drawn 16)) (w.drawn 32) true w₃
  have hf₄ : w₄.file = some f := by rw [(encodeHeader_isHeader hhdr).1.file, hf₃]
  have hwrite := @fallible_write _ (lay.fileSize.toNat - 512) hdr _ hf₄
  refine ⟨(w.skip 32).drawn 16, w₄.write (lay.fileSize.toNat - 512) hdr f,
    World.file_write_ne_none _ _ _ _, ?_⟩
  unfold createHidden
  dsimp only
  rw [run_bind_of_ok (fillBytes_eq 32 w), run_bind_of_ok (fillBytes_eq 16 _),
    run_bind_of_ok (fallible_ok.mpr hslot), run_bind_of_ok (fallible_ok.mpr hhdr),
    run_bind_of_ok hwrite]
  rfl

/-- With a key and a body that fits the header, what is left is to set up the volume. -/
theorem createHidden_toVolume {h : HiddenVolumeOptions} {f : ByteFile} (hf : w.file = some f)
    (hkeys : HasKeys P h.password (kdfId h.kdfProfile)) (hcipher : cipher ≠ .triple) :
    ∃ w', w'.file ≠ none ∧ (createHidden P lay cipher now h).run w =
      (do
        let _ ← withStore (hiddenStore lay cipher (w.drawn 32)) (initVolume P (lay.outerSlots.toNat + 1))
        pure () : EStateM Fault World Unit).run w' := by
  obtain ⟨containerId, w₅, hfile, hrun⟩ := @createHidden_toHeader P lay cipher now w h f hf hkeys
  obtain ⟨f₅, hf₅⟩ := Option.ne_none_iff_exists'.mp hfile
  obtain ⟨hdr, w₆, hhdr⟩ := @encodeHeaderWithPassword_isOk P
    (hiddenPayload lay cipher now h containerId) true w₅ _ (hkeys.header _) hcipher
  have hf₆ : w₆.file = some f₅ := by rw [(encodeHeaderWithPassword_ok hhdr).1.file, hf₅]
  have hwrite₁ := @fallible_write _ (lay.fileSize.toNat - 512) hdr _ hf₆
  have hwrite₂ := @fallible_write _ 512 hdr _
    (World.file_write w₆ (lay.fileSize.toNat - 512) hdr f₅)
  refine ⟨(w₆.write (lay.fileSize.toNat - 512) hdr f₅).write 512 hdr
    (f₅.write (lay.fileSize.toNat - 512) hdr), World.file_write_ne_none _ _ _ _, hrun.trans ?_⟩
  rw [run_bind_of_ok hhdr, run_bind_of_ok hwrite₁, run_bind_of_ok hwrite₂]

theorem createHidden_isOk {h : HiddenVolumeOptions} {f : ByteFile} (hf : w.file = some f)
    (hkeys : HasKeys P h.password (kdfId h.kdfProfile)) (hcipher : cipher ≠ .triple)
    (hfits : AllocFits cipher lay.hiddenSlots.toNat) :
    ∃ w', (createHidden P lay cipher now h).run w = .ok () w' := by
  obtain ⟨w₁, hfile, hrun⟩ := @createHidden_toVolume P lay cipher now w h f hf hkeys hcipher
  obtain ⟨st, w₂, hinit⟩ := @initVolume_withStore P w₁ (hiddenStore lay cipher (w.drawn 32))
    (lay.outerSlots.toNat + 1) hfile rfl (by rw [slots_hiddenStore]; exact hfits)
  refine ⟨w₂, ?_⟩
  rw [hrun, run_bind_of_ok hinit]
  rfl

theorem createHidden?_isOk {hidden : Option HiddenVolumeOptions} {f : ByteFile}
    (hf : w.file = some f)
    (hhidden : ∀ h ∈ hidden, HasKeys P h.password (kdfId h.kdfProfile) ∧ cipher ≠ .triple ∧
      AllocFits cipher lay.hiddenSlots.toNat) :
    ∃ w' f', (createHidden? P lay cipher now hidden).run w = .ok () w' ∧ w'.file = some f' := by
  have hrun : ∃ w', (createHidden? P lay cipher now hidden).run w = .ok () w' := by
    cases hidden with
    | none => exact ⟨w, rfl⟩
    | some h =>
      obtain ⟨hkeys, hcipher, hfits⟩ := hhidden h rfl
      exact createHidden_isOk hf hkeys hcipher hfits
  obtain ⟨w', hrun⟩ := hrun
  obtain ⟨ws, -, -, hissued⟩ := createHidden?_ok hrun
  exact ⟨w', _, hrun, hissued.file_eq hf⟩

theorem writePasswordSlot_isOk {outerPassword : List UInt8} {kdfProfile : String} {kOuter : Key}
    {f : ByteFile} (hf : w.file = some f)
    (hkeys : outerPassword ≠ [] → HasKeys P outerPassword (kdfId kdfProfile)) :
    ∃ w', (writePasswordSlot P outerPassword kdfProfile kOuter).run w = .ok () w' ∧
      w'.file ≠ none := by
  unfold writePasswordSlot
  by_cases hempty : outerPassword.isEmpty = true
  · rw [if_pos hempty]
    exact ⟨w, rfl, by rw [hf]; exact Option.some_ne_none _⟩
  · rw [if_neg hempty]
    have hempty' : outerPassword ≠ [] := mt List.isEmpty_iff.mpr hempty
    obtain ⟨slot, w₁, hslot⟩ := @encodePasswordSlot_isOk P kOuter w _ _ ((hkeys hempty').slot w)
    have hf₁ : w₁.file = some f := by rw [(encodePasswordSlot_isSlot hslot).1.file, hf]
    refine ⟨w₁.write (pwSlotOffset 0) slot f, ?_, Option.some_ne_none _⟩
    rw [run_bind_of_ok (fallible_ok.mpr hslot)]
    exact fallible_write hf₁

/-- The rest of `createOuter` after the two copies of the header. -/
def createOuterVolume (P : Primitives) (lay : Layout) (cipher : CipherAlgorithm) (now : UInt64)
    (outerPassword : List UInt8) (kdfProfile : String) (label : Option String) (kOuter : Key)
    (containerId : Bytes 16) : EStateM Fault World VnmContainer := do
  writePasswordSlot P outerPassword kdfProfile kOuter
  let store ← withStore (outerStore lay cipher kOuter) (initVolume P outerRootSlot)
  updateRollback containerId store.generation
  pure
    { store, rootSlot := UInt64.ofNat outerRootSlot, isHidden := false, cipher
      outerSlots := lay.outerSlots, outerLimit := lay.outerSlots, label, createdAt := now
      kMaster := kOuter, containerId }

section Outer

variable {hidden : Bool} {outerPassword : List UInt8} {kdfProfile : String} {label : Option String}
  {kOuter : Key} {containerId : Bytes 16} {f : ByteFile}

/-- The header of the outer volume can always be encoded and written. -/
theorem createOuter_toVolume (hf : w.file = some f) :
    ∃ w', w'.file ≠ none ∧ (createOuter P lay hidden cipher now outerPassword kdfProfile label kOuter
      containerId).run w = (createOuterVolume P lay cipher now outerPassword kdfProfile label kOuter
        containerId).run w' := by
  obtain ⟨hdr, w₁, hhdr⟩ := @encodeHeader_isOk P
    (outerPayload lay cipher now outerPassword kdfProfile label containerId) kOuter false w
  have hf₁ : w₁.file = some f := by rw [(encodeHeader_isHeader hhdr).1.file, hf]
  have hwrite₁ := @fallible_write _ 0 hdr _ hf₁
  have hwrite₂ := @fallible_write _ (outerBackupOffset lay.fileSize.toNat hidden) hdr _
    (World.file_write w₁ 0 hdr f)
  refine ⟨(w₁.write 0 hdr f).write (outerBackupOffset lay.fileSize.toNat hidden) hdr (f.write 0 hdr),
    World.file_write_ne_none _ _ _ _, ?_⟩
  unfold createOuter
  dsimp only
  rw [run_bind_of_ok (fallible_ok.mpr hhdr), run_bind_of_ok hwrite₁, run_bind_of_ok hwrite₂]
  rfl

theorem createOuter_isOk (hf : w.file = some f)
    (hkeys : outerPassword ≠ [] → HasKeys P outerPassword (kdfId kdfProfile))
    (hfits : AllocFits cipher lay.outerSlots.toNat) :
    ∃ m w', (createOuter P lay hidden cipher now outerPassword kdfProfile label kOuter
      containerId).run w = .ok m w' := by
  obtain ⟨w₁, hfile, hrun⟩ := @createOuter_toVolume P lay cipher now w hidden outerPassword
    kdfProfile label kOuter containerId f hf
  obtain ⟨f₁, hf₁⟩ := Option.ne_none_iff_exists'.mp hfile
  obtain ⟨w₂, hpw, hfile₂⟩ := @writePasswordSlot_isOk P _ _ _ kOuter _ hf₁ hkeys
  obtain ⟨st, w₃, hinit⟩ := @initVolume_withStore P _ (outerStore lay cipher kOuter)
    outerRootSlot hfile₂ rfl hfits
  rw [hrun, createOuterVolume, run_bind_of_ok hpw, run_bind_of_ok hinit]
  exact ⟨_, _, rfl⟩

end Outer

section Whole

variable {outerPassword : List UInt8} {totalSizeBytes : UInt64} {kdfProfile : String}
  {label : Option String} {hidden : Option HiddenVolumeOptions}

/-- On a free path and with accepted sizes, the file is made and filled, and the two parts are
    left to do. -/
theorem create_toParts (hfresh : w.file = none)
    (hlay : layout totalSizeBytes (hidden.map (·.sizeBytes)) = .ok lay) :
    ∃ (kOuter : Key) (containerId : Bytes 16) (w₁ : World), w₁.file ≠ none ∧
      (create P outerPassword totalSizeBytes cipher kdfProfile label hidden).run w =
        (do
          createHidden? P lay cipher w.now hidden
          createOuter P lay hidden.isSome cipher w.now outerPassword kdfProfile label kOuter
            containerId : EStateM Fault World VnmContainer).run w₁ := by
  obtain ⟨w₁, hfill, hfilled⟩ := createFile_run w lay.fileSize.toNat
  refine ⟨w₁.drawn 32, (w₁.skip 32).drawn 16, (w₁.skip 32).skip 16, ?_, ?_⟩
  · change w₁.file ≠ none
    rw [hfilled.file]
    exact Option.some_ne_none _
  · unfold create
    rw [run_bind_of_ok run_get, hfresh]
    rw [if_neg (show ¬ (none : Option ByteFile).isSome = true from Bool.false_ne_true),
      run_bind_of_ok (fallible_ok.mpr (orThrow_ok.mpr ⟨hlay, rfl⟩)),
      run_bind_of_ok (fallible_ok.mpr hfill), run_bind_of_ok (fillBytes_eq 32 w₁),
      run_bind_of_ok (fillBytes_eq 16 _)]

/-- A size that is refused is refused before there is a file. -/
theorem create_tooSmall {e : VnmError} (hfresh : w.file = none)
    (hlay : layout totalSizeBytes (hidden.map (·.sizeBytes)) = .error e) :
    (create P outerPassword totalSizeBytes cipher kdfProfile label hidden).run w =
      .error (.error e) w := by
  unfold create
  rw [run_bind_of_ok run_get, hfresh,
    if_neg (show ¬ (none : Option ByteFile).isSome = true from Bool.false_ne_true), hlay]
  rfl

/-- `create` succeeds on a free path when the sizes are accepted, the passwords have keys,
    the allocation blocks fit, and a hidden volume does not ask for Triple. -/
theorem create_isOk (hfresh : w.file = none)
    (hlay : layout totalSizeBytes (hidden.map (·.sizeBytes)) = .ok lay)
    (hkeys : outerPassword ≠ [] → HasKeys P outerPassword (kdfId kdfProfile))
    (hfits : AllocFits cipher lay.outerSlots.toNat)
    (hhidden : ∀ h ∈ hidden, HasKeys P h.password (kdfId h.kdfProfile) ∧ cipher ≠ .triple ∧
      AllocFits cipher lay.hiddenSlots.toNat) :
    ∃ m w', (create P outerPassword totalSizeBytes cipher kdfProfile label hidden).run w =
      .ok m w' := by
  obtain ⟨kOuter, containerId, w₁, hfile, hrun⟩ := @create_toParts P lay cipher w outerPassword
    totalSizeBytes kdfProfile label hidden hfresh hlay
  obtain ⟨f, hf⟩ := Option.ne_none_iff_exists'.mp hfile
  obtain ⟨w₂, f₂, hhid, hf₂⟩ := createHidden?_isOk hf hhidden
  rw [hrun, run_bind_of_ok hhid]
  exact createOuter_isOk hf₂ hkeys hfits

end Whole

end Total

/-! ## A path to create a container at -/

/-- No file yet, and a repeated byte to draw. -/
def freePath (b : UInt8) : World where
  path := "container.vnm"
  file := none
  issued := []
  rollback := .empty
  rng _ := b
  now := 0

theorem drawn_freePath (b : UInt8) (i n : Nat) :
    (((freePath b).skip i).drawn n).toList = List.replicate n b := by
  have hrng : ((freePath b).skip i).rng = fun _ => b := rfl
  rw [World.toList_drawn, hrng, List.map_const', List.length_range]

theorem plain_hasKeys (password : List UInt8) (kdfProfile : UInt8) :
    HasKeys plain password kdfProfile := fun salt _ => ⟨_, plain_passwordKey password salt kdfProfile⟩

end Venom.Fs
