import Venom.Storage.Allocator

/-! # The cached Merkle root

The root depends on the bytes of the used slots and on which slots are used.  `write` and
`wipe` set the dirty flag, `updateMerkleRoot` clears it; `alloc` and `rebuildFreeList` change
the used slots without setting it, and `loadFreeList` takes over a root before it is checked.
A root that would be reused is the root of the used slots as long as no call of the latter
kind meets it.
-/

namespace Venom.Storage.SlotStore

open Venom.Container (slotSize)
open Venom.Crypto
open Venom.Library
open Venom.Library.Words
open Venom.Library.StateError

variable (P : Primitives)

/-! ## Calls -/

/-- What a load leaves, whether or not it ends in an error: the block is taken over before
    its root is checked. -/
def afterLoad (st : SlotStore) (w : World) : SlotStore :=
  match st.read P w st.allocSlot with
  | .ok data =>
    if (if st.hasGeneration then allocHeaderLen else 8) ≤ data.length then
      st.adopt (parseAllocBlock st.hasGeneration data)
    else st.rebuildFreeList
  | .error _ => st.rebuildFreeList

/-- The public operations. -/
inductive StoreCall
  | alloc
  | freeSlot (slot : Nat)
  | write (slot : Nat) (plaintext : List UInt8)
  | wipe (slot : Nat)
  | updateMerkleRoot
  | saveFreeList
  | loadFreeList
  | rebuildFreeList

/-- The state after a call, be it successful or not. -/
def StoreCall.perform : StoreCall → OpenStore → OpenStore
  | .alloc, s => after SlotStore.alloc s
  | .freeSlot slot, s => SlotStore.freeSlot slot s
  | .write slot plaintext, s => after (SlotStore.write P slot plaintext) s
  | .wipe slot, s => after (SlotStore.wipe slot) s
  | .updateMerkleRoot, s => after (SlotStore.updateMerkleRoot P) s
  | .saveFreeList, s => after (SlotStore.saveFreeList P) s
  | .loadFreeList, s => { s with store := s.store.afterLoad P s.world }
  | .rebuildFreeList, s => { s with store := s.store.rebuildFreeList }

/-- A flush would reuse the cached root. -/
def ReusesRoot (st : SlotStore) : Prop := st.merkleDirty = false ∧ st.cachedMerkleRoot ≠ zeroRoot

/-- The root that would be reused is that of the used slots. -/
def RootCurrent (s : OpenStore) : Prop :=
  ReusesRoot s.store → computeMerkleRoot P s.world s.store.usedSlots = .ok s.store.cachedMerkleRoot

/-- The call does not meet a root that would be reused with other used slots: `alloc` takes
    no data slot then, the list is not rebuilt, and a block that is loaded has no root or the
    root of the slots that it says are used. -/
def StoreCall.KeepsRoot (s : OpenStore) : StoreCall → Prop
  | .alloc => ReusesRoot s.store → ∀ slot, s.store.free.getLast? = some slot →
      s.store.IsData slot → slot ∈ s.store.free.dropLast
  | .rebuildFreeList => ¬ ReusesRoot s.store
  | .loadFreeList => s.store.merkleDirty = false →
      (BlockUnusable P s.store s.world → s.store.cachedMerkleRoot = zeroRoot) ∧
      ∀ data, s.store.read P s.world s.store.allocSlot = .ok data →
        (if s.store.hasGeneration then allocHeaderLen else 8) ≤ data.length →
        (parseAllocBlock s.store.hasGeneration data).merkleRoot ≠ zeroRoot →
        computeMerkleRoot P s.world
            (s.store.adopt (parseAllocBlock s.store.hasGeneration data)).usedSlots =
          .ok (parseAllocBlock s.store.hasGeneration data).merkleRoot
  | _ => True

/-- A run from a new store on its file, all of whose calls keep the root. -/
inductive RootRun (s : OpenStore) : OpenStore → Prop
  | refl : RootRun s s
  | step {t : OpenStore} (call : StoreCall) (h : RootRun s t) (hcall : call.KeepsRoot P t) :
      RootRun s (call.perform P t)

variable {P}

/-! ## What a load leaves -/

theorem afterLoad_cases (st : SlotStore) (w : World) :
    (BlockUnusable P st w ∧ st.afterLoad P w = st.rebuildFreeList) ∨
      ∃ data, st.read P w st.allocSlot = .ok data ∧
        (if st.hasGeneration then allocHeaderLen else 8) ≤ data.length ∧
        st.afterLoad P w = st.adopt (parseAllocBlock st.hasGeneration data) := by
  unfold afterLoad
  cases hread : st.read P w st.allocSlot with
  | error e =>
    refine .inl ⟨fun data hdata => ?_, rfl⟩
    rw [hread] at hdata
    cases hdata
  | ok data =>
    dsimp only
    by_cases hlen : (if st.hasGeneration = true then allocHeaderLen else 8) ≤ data.length
    · rw [if_pos hlen]
      exact .inr ⟨data, rfl, hlen, rfl⟩
    · rw [if_neg hlen]
      refine .inl ⟨fun data' hdata => ?_, rfl⟩
      rw [hread] at hdata
      cases hdata
      exact Nat.lt_of_not_le hlen

/-! ## One call -/

section Step

variable {s s' : OpenStore}

theorem usedSlots_congr {st st' : SlotStore} (hstart : st'.slotStart = st.slotStart)
    (hlimit : st'.slotLimit = st.slotLimit) (halloc : st'.allocSlot = st.allocSlot)
    (hfree : ∀ slot, st.IsData slot → (slot ∈ st'.free ↔ slot ∈ st.free)) :
    st'.usedSlots = st.usedSlots := by
  unfold usedSlots
  rw [hstart, hlimit, halloc]
  refine List.filter_congr fun slot hslot => decide_eq_decide.mpr ?_
  refine and_congr_right fun hne => not_congr (hfree slot ⟨mem_volume.mp hslot, hne⟩)

theorem computeMerkleRoot_congr {w w' : World} (h : w'.file = w.file) (slots : List Nat) :
    computeMerkleRoot P w' slots = computeMerkleRoot P w slots := by
  unfold computeMerkleRoot
  rw [merkleLeaves_congr fun slot => World.read_congr h _ _]

/-- Nothing of what the root depends on has changed. -/
theorem RootCurrent.of_same (h : RootCurrent P s) (hfile : s'.world.file = s.world.file)
    (hused : s'.store.usedSlots = s.store.usedSlots)
    (hroot : s'.store.cachedMerkleRoot = s.store.cachedMerkleRoot)
    (hdirty : s'.store.merkleDirty = s.store.merkleDirty) : RootCurrent P s' := by
  intro hreuses
  rw [computeMerkleRoot_congr hfile, hused, hroot]
  refine h ⟨hdirty ▸ hreuses.1, hroot ▸ hreuses.2⟩

theorem rootCurrent_of_dirty (h : s.store.merkleDirty = true) : RootCurrent P s := by
  rintro ⟨hclean, -⟩
  rw [h] at hclean
  cases hclean

theorem RootCurrent.alloc (h : RootCurrent P s) (hkeeps : StoreCall.alloc.KeepsRoot P s) :
    RootCurrent P (StoreCall.alloc.perform P s) := by
  cases hlast : s.store.free.getLast? with
  | none =>
    have hrun := alloc_empty (List.getLast?_eq_none_iff.mp hlast)
    rw [StoreCall.perform, after_of_error hrun]
    exact h
  | some slot =>
    rw [StoreCall.perform, after_of_ok (alloc_run hlast)]
    intro hreuses
    -- the slots that are free are the same up to `slot`, which is listed twice or no data slot
    have hfree := List.dropLast_append_getLast? _ hlast
    have hused : SlotStore.usedSlots { s.store with free := s.store.free.dropLast } = s.store.usedSlots := by
      refine usedSlots_congr rfl rfl rfl fun t ht => ⟨List.mem_of_mem_dropLast, fun hmem => ?_⟩
      rw [← hfree] at hmem
      rcases List.mem_append.mp hmem with hmem | hmem
      · exact hmem
      · cases List.mem_singleton.mp hmem
        exact hkeeps hreuses slot hlast ht
    dsimp only
    rw [hused]
    exact h hreuses

theorem RootCurrent.write {slot : Nat} {plaintext : List UInt8} (h : RootCurrent P s) :
    RootCurrent P ((StoreCall.write slot plaintext).perform P s) := by
  rcases run_cases (SlotStore.write P slot plaintext) s with ⟨u, hok⟩ | ⟨e, herror⟩
  · obtain ⟨bytes, hwritten⟩ := write_ok hok
    exact rootCurrent_of_dirty (congrArg SlotStore.merkleDirty hwritten.store)
  · obtain ⟨hdrew, hstore, -⟩ := write_error herror
    exact h.of_same hdrew.file (congrArg usedSlots hstore) (congrArg cachedMerkleRoot hstore)
      (congrArg merkleDirty hstore)

theorem rootCurrent_freeSlot (slot : Nat) (hfile : s.world.file ≠ none) :
    RootCurrent P (freeSlot slot s) := by
  obtain ⟨bytes, -, -, hstore⟩ := freeSlot_spec slot hfile
  exact rootCurrent_of_dirty (congrArg SlotStore.merkleDirty hstore)

theorem wipe_run (slot : Nat) (hfile : s.world.file ≠ none) :
    ∃ w, (wipe slot).run s = .ok () { store := { s.store with merkleDirty := true }, world := w } ∧
      w.file ≠ none := by
  obtain ⟨f, hf⟩ := Option.ne_none_iff_exists'.mp hfile
  obtain ⟨w₁, hdraw, hdrew⟩ := fillBytes_run (ε := VnmError) slotSize s.world
  have hf₁ : w₁.file = some f := by rw [hdrew.file, hf]
  refine ⟨w₁.write (slotOffset slot) (s.world.drawn slotSize).toList f, ?_, Option.some_ne_none _⟩
  unfold wipe
  rw [run_bind_of_ok (onWorld_run hdraw), run_bind_of_ok (onWorld_run (writeBytesAt_run hf₁))]
  rfl

theorem RootCurrent.updateMerkleRoot (h : RootCurrent P s) :
    RootCurrent P (StoreCall.updateMerkleRoot.perform P s) := by
  rcases run_cases (SlotStore.updateMerkleRoot P) s with ⟨u, hok⟩ | ⟨e, herror⟩
  · obtain ⟨root, hroot, hs'⟩ := updateMerkleRoot_ok hok
    intro _
    rw [StoreCall.perform, hs']
    exact hroot
  · rw [StoreCall.perform, updateMerkleRoot_error herror]
    exact h

theorem RootCurrent.saveFreeList (h : RootCurrent P s) :
    RootCurrent P (StoreCall.saveFreeList.perform P s) := by
  rcases run_cases (SlotStore.saveFreeList P) s with ⟨u, hok⟩ | ⟨e, herror⟩
  · obtain ⟨bitmap, bytes, -, hwritten⟩ := saveFreeList_ok hok
    exact rootCurrent_of_dirty (congrArg SlotStore.merkleDirty hwritten.store)
  · -- the generation may have been counted
    obtain ⟨hdrew, hstore⟩ := saveFreeList_error herror
    have hsame : ∀ {β : Type} (field : SlotStore → β), field s.store.saved = field s.store →
        field (after (SlotStore.saveFreeList P) s).store = field s.store := fun field hsaved => by
      rcases hstore with hstore | hstore
      · rw [hstore]
      · rw [hstore, hsaved]
    exact h.of_same hdrew.file (hsame usedSlots rfl) (hsame cachedMerkleRoot rfl) (hsame merkleDirty rfl)

theorem rootCurrent_rebuildFreeList (hkeeps : StoreCall.rebuildFreeList.KeepsRoot P s) :
    RootCurrent P (StoreCall.rebuildFreeList.perform P s) := fun hreuses => absurd hreuses hkeeps

theorem rootCurrent_loadFreeList (hkeeps : StoreCall.loadFreeList.KeepsRoot P s) :
    RootCurrent P (StoreCall.loadFreeList.perform P s) := by
  rintro ⟨hclean, hroot⟩
  rw [StoreCall.perform] at hclean hroot ⊢
  dsimp only at hclean hroot ⊢
  rcases afterLoad_cases (P := P) s.store s.world with ⟨hunusable, heq⟩ | ⟨data, hread, hlen, heq⟩
  · rw [heq] at hclean hroot
    exact absurd ((hkeeps hclean).1 hunusable) hroot
  · rw [heq] at hclean hroot ⊢
    exact (hkeeps hclean).2 data hread hlen hroot

/-- Each call leaves the file there. -/
theorem StoreCall.perform_file (call : StoreCall) (hfile : s.world.file ≠ none) :
    (call.perform P s).world.file ≠ none := by
  have hdrew : ∀ {w : World}, s.world.OnlyDrew w → w.file ≠ none := fun h => by
    rw [h.file]
    exact hfile
  have hwrote : ∀ {off : Nat} {bytes : List UInt8} {w : World}, World.Wrote off bytes s.world w →
      w.file ≠ none := fun h => by
    obtain ⟨f, -, hf⟩ := h.file
    rw [hf]
    exact Option.some_ne_none _
  cases call with
  | alloc =>
    rcases run_cases SlotStore.alloc s with ⟨slot, hok⟩ | ⟨e, herror⟩
    · rw [StoreCall.perform, (alloc_ok hok).2]
      exact hfile
    · rw [StoreCall.perform, (alloc_error herror).1]
      exact hfile
  | freeSlot slot =>
    obtain ⟨bytes, -, hslot, -⟩ := freeSlot_spec slot hfile
    exact hwrote hslot
  | write slot plaintext =>
    rcases run_cases (SlotStore.write P slot plaintext) s with ⟨u, hok⟩ | ⟨e, herror⟩
    · obtain ⟨bytes, hwritten⟩ := write_ok hok
      exact hwrote hwritten.wrote
    · exact hdrew (write_error herror).1
  | wipe slot =>
    obtain ⟨w, hrun, hw⟩ := wipe_run slot hfile
    rw [StoreCall.perform, after_of_ok hrun]
    exact hw
  | updateMerkleRoot =>
    rcases run_cases (SlotStore.updateMerkleRoot P) s with ⟨u, hok⟩ | ⟨e, herror⟩
    · obtain ⟨root, -, hs'⟩ := updateMerkleRoot_ok hok
      rw [StoreCall.perform, hs']
      exact hfile
    · rw [StoreCall.perform, updateMerkleRoot_error herror]
      exact hfile
  | saveFreeList =>
    rcases run_cases (SlotStore.saveFreeList P) s with ⟨u, hok⟩ | ⟨e, herror⟩
    · obtain ⟨bitmap, bytes, -, hwritten⟩ := saveFreeList_ok hok
      exact hwrote hwritten.wrote
    · exact hdrew (saveFreeList_error herror).1
  | loadFreeList => exact hfile
  | rebuildFreeList => exact hfile

/-- A call that keeps the root leaves a current root current. -/
theorem RootCurrent.perform (h : RootCurrent P s) (hfile : s.world.file ≠ none) (call : StoreCall)
    (hkeeps : call.KeepsRoot P s) : RootCurrent P (call.perform P s) := by
  cases call with
  | alloc => exact h.alloc hkeeps
  | freeSlot slot => exact rootCurrent_freeSlot slot hfile
  | write slot plaintext => exact h.write
  | wipe slot =>
    obtain ⟨w, hrun, -⟩ := wipe_run slot hfile
    rw [StoreCall.perform, after_of_ok hrun]
    exact rootCurrent_of_dirty rfl
  | updateMerkleRoot => exact h.updateMerkleRoot
  | saveFreeList => exact h.saveFreeList
  | loadFreeList => exact rootCurrent_loadFreeList hkeeps
  | rebuildFreeList => exact rootCurrent_rebuildFreeList hkeeps

end Step

/-- In every run from a new store, a root that would be reused is current. -/
theorem RootRun.current {st : SlotStore} {w : World} {s : OpenStore}
    (hnew : st.cachedMerkleRoot = zeroRoot) (hfile : w.file ≠ none)
    (hrun : RootRun P { store := st, world := w } s) : RootCurrent P s ∧ s.world.file ≠ none := by
  induction hrun with
  | refl => exact ⟨fun hreuses => absurd hnew hreuses.2, hfile⟩
  | step call _ hcall ih => exact ⟨ih.1.perform ih.2 call hcall, call.perform_file ih.2⟩

/-! ## Blocks that have been saved -/

/-- The bits of the bitmap are the free slots, which it has room for. -/
theorem freeBitmap_some {st : SlotStore} {bitmap : List UInt8} (h : st.freeBitmap = some bitmap) :
    bitmap.length = (st.slotLimit - st.slotStart + 7) / 8 ∧
      ∀ i, Bitmap.getBit i bitmap = decide (st.slotStart + i ∈ st.free) := by
  have go : ∀ (l : List Nat) (before : List UInt8), l.foldlM (fun bitmap slot =>
      if st.slotStart ≤ slot then Bitmap.setBit (slot - st.slotStart) bitmap else none) before =
        some bitmap → bitmap.length = before.length ∧
      ∀ i, Bitmap.getBit i bitmap = (decide (st.slotStart + i ∈ l) || Bitmap.getBit i before) := by
    intro l
    induction l with
    | nil =>
      intro before hl
      cases hl
      exact ⟨rfl, fun i => by simp⟩
    | cons slot l ih =>
      intro before hl
      rw [List.foldlM_cons] at hl
      obtain ⟨next, hnext, hrest⟩ := Option.bind_eq_some_iff.mp hl
      by_cases hle : st.slotStart ≤ slot
      · rw [if_pos hle] at hnext
        obtain ⟨hlen, hbits⟩ := ih next hrest
        refine ⟨hlen.trans (Bitmap.length_setBit hnext), fun i => ?_⟩
        rw [hbits, Bitmap.getBit_setBit hnext, Bool.eq_iff_iff]
        have hi : slot - st.slotStart = i ↔ st.slotStart + i = slot := by omega
        simp only [Bool.or_eq_true, decide_eq_true_eq, List.mem_cons, hi]
        tauto
      · rw [if_neg hle] at hnext
        cases hnext
  obtain ⟨hlen, hbits⟩ := go st.free _ h
  rw [Bitmap.length_zeros] at hlen
  exact ⟨hlen, fun i => by rw [hbits, Bitmap.getBit_zeros, Bool.or_false]⟩

/-- The root comes back from behind the count and the generation. -/
theorem merkleRoot_allocData {st : SlotStore} {bitmap : List UInt8} (hgen : st.hasGeneration = true) :
    (parseAllocBlock true (st.allocData bitmap)).merkleRoot = st.cachedMerkleRoot := by
  have hsplit : st.allocData bitmap = (littleEndian 8 (st.slotLimit - st.slotStart) ++
      littleEndian 8 st.generation) ++ (st.cachedMerkleRoot.toList ++ bitmap) := by
    rw [allocData_eq hgen, ← List.append_assoc]
  have hroot : sub (st.allocData bitmap) 16 32 = st.cachedMerkleRoot.toList :=
    sub_field hsplit (by simp) st.cachedMerkleRoot.toList_length
  unfold parseAllocBlock
  dsimp only
  rw [if_pos rfl, hroot, toBytes_toList]

theorem merkleLeaves_of_reads {w w' : World} {slots : List Nat} {leaves : List Key}
    (hreads : ∀ slot ∈ slots, ∀ raw, w.read (slotOffset slot) slotSize = .ok raw →
      w'.read (slotOffset slot) slotSize = .ok raw)
    (h : merkleLeaves P w slots = .ok leaves) : merkleLeaves P w' slots = .ok leaves := by
  induction slots generalizing leaves with
  | nil => exact h
  | cons slot slots ih =>
    obtain ⟨raw, hraw, h₁⟩ := except_bind_ok.mp h
    obtain ⟨rest, hrest, h₂⟩ := except_bind_ok.mp h₁
    have hrest' := ih (fun t ht => hreads t (List.mem_cons_of_mem _ ht)) hrest
    rw [merkleLeaves, except_bind_of_ok (hreads slot List.mem_cons_self raw hraw),
      except_bind_of_ok hrest']
    exact h₂

/-- The root of slots that read the same is the same. -/
theorem computeMerkleRoot_of_reads {w w' : World} {slots : List Nat} {root : Key}
    (hreads : ∀ slot ∈ slots, ∀ raw, w.read (slotOffset slot) slotSize = .ok raw →
      w'.read (slotOffset slot) slotSize = .ok raw)
    (h : computeMerkleRoot P w slots = .ok root) : computeMerkleRoot P w' slots = .ok root := by
  unfold computeMerkleRoot at h ⊢
  by_cases hnil : slots.isEmpty = true
  · rw [if_pos hnil] at h ⊢
    exact h
  · rw [if_neg hnil] at h ⊢
    obtain ⟨leaves, hleaves, h₁⟩ := except_bind_ok.mp h
    rw [except_bind_of_ok (merkleLeaves_of_reads hreads hleaves)]
    exact h₁

/-- The root sees none of the slots that it does not cover. -/
theorem computeMerkleRoot_wrote {w w' : World} {slot : Nat} {bytes : List UInt8} {slots : List Nat}
    {root : Key} (hwrote : World.Wrote (slotOffset slot) bytes w w') (hlen : bytes.length = slotSize)
    (hnot : slot ∉ slots) (h : computeMerkleRoot P w slots = .ok root) :
    computeMerkleRoot P w' slots = .ok root := by
  obtain ⟨f, hf, hf'⟩ := hwrote.file
  have hreads : ∀ t ∈ slots, ∀ raw, w.read (slotOffset t) slotSize = .ok raw →
      w'.read (slotOffset t) slotSize = .ok raw := by
    intro t ht raw hraw
    obtain ⟨f₁, hf₁, hle, hslice⟩ := World.read_ok hraw
    rw [hf, Option.some.injEq] at hf₁
    rw [← hf₁] at hle hslice
    have hne : t ≠ slot := fun heq => hnot (heq ▸ ht)
    have hagree := @agreeOn_slot f slot t bytes hlen hle hne
    have hinside : slotOffset t + slotSize ≤ (f.write (slotOffset slot) bytes).size := by
      rw [ByteFile.size_write]
      exact Nat.le_trans hle (Nat.le_max_left _ _)
    rw [World.read_eq hf' hinside, hagree.slice_eq, hslice]
  exact computeMerkleRoot_of_reads hreads h

/-- What a load of the same volume reads after a save. -/
theorem saveFreeList_read {s s' : OpenStore} {u : Unit} (hsave : (saveFreeList P).run s = .ok u s') :
    ∃ bitmap bytes, s.store.freeBitmap = some bitmap ∧
      Written P s.store.allocSlot (s.store.saved.allocData bitmap) { s with store := s.store.saved } s'
        bytes ∧
      ∀ st, SameShape s.store st → ∀ w : World, w.file = s'.world.file →
        st.read P w st.allocSlot = .ok (s.store.saved.allocData bitmap) := by
  obtain ⟨bitmap, bytes, hbitmap, hwritten⟩ := saveFreeList_ok hsave
  obtain ⟨f, -, hf'⟩ := hwritten.wrote.file
  refine ⟨bitmap, bytes, hbitmap, hwritten, fun st hshape w hw => ?_⟩
  rw [hshape.allocSlot]
  refine (read_eq_ok (hw.trans hf')).mpr (Holds.of_store (hwritten.holds fun _ => allocData_ne_nil) ?_ ?_)
  · exact hshape.masterKey
  · exact hshape.cipher

/-- A block whose root is that of the used slots, or which has none, is loaded again. -/
theorem saveFreeList_loads {s s' : OpenStore} {u : Unit} {st : SlotStore}
    (hsave : (saveFreeList P).run s = .ok u s') (hshape : SameShape s.store st)
    (hroot : s.store.hasGeneration = true → s.store.cachedMerkleRoot ≠ zeroRoot →
      computeMerkleRoot P s.world s.store.usedSlots = .ok s.store.cachedMerkleRoot) :
    ∃ st', st.loadFreeList P s'.world = .ok st' := by
  obtain ⟨bitmap, bytes, hbitmap, hwritten, hreads⟩ := saveFreeList_read hsave
  obtain ⟨hlength, hbits⟩ := freeBitmap_some hbitmap
  have hread := hreads st hshape s'.world rfl
  have hlong : (if st.hasGeneration then allocHeaderLen else 8) ≤
      (s.store.saved.allocData bitmap).length := by
    rw [length_allocData, hshape.hasGeneration]
    exact Nat.le_add_right _ _
  cases hgen : st.hasGeneration with
  | false =>
    rw [hgen] at hlong
    exact ⟨_, loadFreeList_legacy hgen hread hlong⟩
  | true =>
    rw [hgen, if_pos rfl] at hlong
    have hgen' : s.store.saved.hasGeneration = true := hshape.hasGeneration.symm.trans hgen
    have hstored : (parseAllocBlock true (s.store.saved.allocData bitmap)).merkleRoot =
        s.store.cachedMerkleRoot := merkleRoot_allocData hgen'
    by_cases hzero : s.store.cachedMerkleRoot = zeroRoot
    · exact ⟨_, loadFreeList_unchecked hgen hread hlong (hstored.trans hzero)⟩
    · -- the slots that the bitmap leaves are the used slots
      have hfits := hwritten.fits
      rw [length_allocData, hlength] at hfits
      have hcount : s.store.slotLimit - s.store.slotStart < 2 ^ 64 := by
        have hslot : slotSize = 32768 := rfl
        omega
      have hblock : ofLittleEndian (sub (s.store.saved.allocData bitmap) 0 8) =
          s.store.slotLimit - s.store.slotStart := count_allocData hcount
      have hused : (st.adopt (parseAllocBlock true (s.store.saved.allocData bitmap))).usedSlots =
          s.store.usedSlots := by
        refine usedSlots_congr hshape.slotStart hshape.slotLimit hshape.allocSlot fun slot hdata => ?_
        change slot ∈ freeOfBitmap st.slotStart (ofLittleEndian (sub _ 0 8)) _ ↔ _
        rw [hblock, hshape.slotStart, mem_freeOfBitmap]
        have hbitmap' : (parseAllocBlock true (s.store.saved.allocData bitmap)).bitmap = bitmap :=
          drop_allocData hgen'
        rw [hbitmap']
        constructor
        · rintro ⟨i, -, hbit, rfl⟩
          rwa [hbits, decide_eq_true_iff] at hbit
        · intro hfree
          obtain ⟨⟨hge, hlt⟩, -⟩ := hdata
          refine ⟨slot - s.store.slotStart, by omega, ?_, by omega⟩
          rw [hbits, decide_eq_true_iff, Nat.add_sub_cancel' hge]
          exact hfree
      have halloc : s.store.allocSlot ∉ s.store.usedSlots := fun hmem => (mem_usedSlots.mp hmem).2.1 rfl
      have hcompute := computeMerkleRoot_wrote hwritten.wrote hwritten.length halloc
        (hroot hgen' hzero)
      exact ⟨_, loadFreeList_checked hgen hread hlong (by rw [hused, hstored]; exact hcompute)⟩

end Venom.Storage.SlotStore
