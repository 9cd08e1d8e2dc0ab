import Venom.Storage.FreeList
import Venom.Crypto.Plain

/-! # The slot allocator

The free list is a pool of slots: `alloc` takes the least one, `freeSlot` gives a slot
back.  A list that comes from `rebuildFreeList`, or from a block that `saveFreeList` has
written, is descending and names data slots of the volume only; such a list neither loses
nor doubles a slot, whatever the calls.

What `loadFreeList` makes of a block that something else has written is another matter: it
takes the count and the bitmap as they are.
-/

namespace Venom.Storage.SlotStore

open Venom.Container (CipherAlgorithm slotSize)
open Venom.Crypto
open Venom.Library
open Venom.Library.Words
open Venom.Library.StateError

variable {P : Primitives}

/-! ## Free lists -/

/-- A slot of the volume that is not its allocation slot. -/
def IsData (st : SlotStore) (slot : Nat) : Prop :=
  (st.slotStart ≤ slot ∧ slot < st.slotLimit) ∧ slot ≠ st.allocSlot

/-- A descending list of data slots. -/
structure FreeListOk (st : SlotStore) : Prop where
  descending : st.free.SortedGT
  isData : ∀ slot ∈ st.free, st.IsData slot

theorem FreeListOk.inRange {st : SlotStore} (h : FreeListOk st) : FreeInRange st :=
  fun slot hslot => (h.isData slot hslot).1

theorem rebuildFreeList_freeListOk (st : SlotStore) : FreeListOk st.rebuildFreeList :=
  ⟨sortedGT_rebuildFreeList st, fun _ hslot => mem_rebuildFreeList.mp hslot⟩

/-- A slot is set aside. -/
theorem FreeListOk.filter {st : SlotStore} (h : FreeListOk st) (root : Nat) :
    FreeListOk { st with free := st.free.filter (· ≠ root) } :=
  ⟨List.sortedGT_iff_pairwise.mpr (h.descending.pairwise.filter _),
    fun slot hslot => h.isData slot (List.mem_of_mem_filter hslot)⟩

/-! ## Blocks of unknown origin -/

/-- A list that can be saved, and from which no slot is handed out that is the root
    directory's or not a data slot of the volume. -/
structure SafeFreeList (st : SlotStore) (root : Nat) : Prop extends FreeListOk st where
  noRoot : root ∉ st.free

/-- The block cannot be read, or is shorter than its fixed fields. -/
def BlockUnusable (P : Primitives) (st : SlotStore) (w : World) : Prop :=
  ∀ data, st.read P w st.allocSlot = .ok data →
    data.length < if st.hasGeneration then allocHeaderLen else 8

/-- Each bit set below the stored count is that of a data slot other than the root; without
    a block, the root is none of the data slots. -/
structure NamesSafeSlots (P : Primitives) (st : SlotStore) (w : World) (root : Nat) : Prop where
  listed : ∀ data, st.read P w st.allocSlot = .ok data →
    (if st.hasGeneration then allocHeaderLen else 8) ≤ data.length →
    ∀ i < (parseAllocBlock st.hasGeneration data).count,
      Bitmap.getBit i (parseAllocBlock st.hasGeneration data).bitmap = true →
        st.IsData (st.slotStart + i) ∧ st.slotStart + i ≠ root
  unusable : BlockUnusable P st w → ¬ st.IsData root

section Load

variable {st st' : SlotStore} {w : World} {root : Nat}

theorem safeFreeList_rebuildFreeList_iff :
    SafeFreeList st.rebuildFreeList root ↔ ¬ st.IsData root := by
  constructor
  · intro hsafe hdata
    exact hsafe.noRoot (mem_rebuildFreeList.mpr hdata)
  · intro hnot
    exact ⟨rebuildFreeList_freeListOk st, fun hmem => hnot (mem_rebuildFreeList.mp hmem)⟩

theorem safeFreeList_adopt_iff {b : AllocBlock} :
    SafeFreeList (st.adopt b) root ↔ ∀ i < b.count, Bitmap.getBit i b.bitmap = true →
      st.IsData (st.slotStart + i) ∧ st.slotStart + i ≠ root := by
  have hmem : ∀ slot, slot ∈ (st.adopt b).free ↔
      ∃ i < b.count, Bitmap.getBit i b.bitmap = true ∧ st.slotStart + i = slot :=
    fun _ => mem_freeOfBitmap
  constructor
  · intro hsafe i hi hbit
    have hslot := (hmem (st.slotStart + i)).mpr ⟨i, hi, hbit, rfl⟩
    exact ⟨hsafe.isData _ hslot, fun hroot => hsafe.noRoot (hroot ▸ hslot)⟩
  · intro hlisted
    refine ⟨⟨sortedGT_freeOfBitmap _ _ _, fun slot hslot => ?_⟩, fun hroot => ?_⟩
    · obtain ⟨i, hi, hbit, rfl⟩ := (hmem slot).mp hslot
      exact (hlisted i hi hbit).1
    · obtain ⟨i, hi, hbit, rfl⟩ := (hmem root).mp hroot
      exact (hlisted i hi hbit).2 rfl

/-- The list is safe exactly when the block names safe slots only. -/
theorem safeFreeList_iff (hload : st.loadFreeList P w = .ok st') :
    SafeFreeList st' root ↔ NamesSafeSlots P st w root := by
  rcases loadFreeList_ok hload with ⟨hshort, rfl⟩ | ⟨data, hread, hlen, rfl⟩
  · rw [safeFreeList_rebuildFreeList_iff]
    constructor
    · intro hroot
      refine ⟨fun data hdata hlen => ?_, fun _ => hroot⟩
      exact absurd (hshort data hdata) (Nat.not_lt_of_le hlen)
    · exact fun h => h.unusable hshort
  · rw [safeFreeList_adopt_iff]
    constructor
    · intro hlisted
      refine ⟨fun data' hdata' _ => ?_, fun hunusable => ?_⟩
      · cases hread.symm.trans hdata'
        exact hlisted
      · exact absurd (hunusable data hread) (Nat.not_lt_of_le hlen)
    · exact fun h => h.listed data hread hlen

end Load

/-- A slot taken from a safe list is a data slot other than the root, and the rest is safe. -/
theorem SafeFreeList.alloc {s s' : OpenStore} {root slot : Nat} (h : SafeFreeList s.store root)
    (halloc : alloc.run s = .ok slot s') :
    s.store.IsData slot ∧ slot ≠ root ∧ SafeFreeList s'.store root := by
  obtain ⟨hfree, rfl⟩ := alloc_ok halloc
  have hslot : slot ∈ s.store.free := by
    rw [hfree]
    exact List.mem_append_right _ List.mem_cons_self
  have hdescending := h.descending
  rw [hfree] at hdescending
  refine ⟨h.isData slot hslot, fun hroot => h.noRoot (hroot ▸ hslot), ⟨?_, fun t ht => ?_⟩, fun hroot => ?_⟩
  · exact (Pool.sortedGT_append_singleton.mp hdescending).1
  · exact h.isData t (List.mem_of_mem_dropLast ht)
  · exact h.noRoot (List.mem_of_mem_dropLast hroot)

/-- A loaded list is descending and safe to save and to allocate from exactly when the
    block names safe slots only. -/
theorem loaded_list_safe_iff {st st' : SlotStore} {w : World} (root : Nat)
    (hload : st.loadFreeList P w = .ok st') :
    (SafeFreeList st' root ∧ st'.freeBitmap ≠ none ∧
      ∀ v slot s', alloc.run { store := st', world := v } = .ok slot s' →
        st.IsData slot ∧ slot ≠ root ∧ SafeFreeList s'.store root) ↔
      NamesSafeSlots P st w root := by
  rw [← safeFreeList_iff hload]
  refine ⟨fun h => h.1, fun hsafe => ⟨hsafe, ?_, fun v slot s' halloc => ?_⟩⟩
  · obtain ⟨bitmap, hbitmap, -⟩ := freeBitmap_isSome hsafe.inRange
    rw [hbitmap]
    exact Option.some_ne_none _
  · obtain ⟨hdata, hrest⟩ := hsafe.alloc halloc
    have hshape := loadFreeList_sameShape hload
    refine ⟨?_, hrest⟩
    unfold IsData at hdata ⊢
    rw [← hshape.slotStart, ← hshape.slotLimit, ← hshape.allocSlot]
    exact hdata

/-- An outer volume of eight slots whose file has been overwritten with zeros. -/
def blankWorld : World where
  path := "container.vnm"
  file := some { size := 2 ^ 20, byteAt := fun _ => 0 }
  issued := []
  rollback := .empty
  rng := fun _ => 0
  now := 0

def smallStore : SlotStore := SlotStore.new (toBytes 32 []) .xchacha20Poly1305 0 8 0 true

theorem blankWorld_unreadable (st : SlotStore) (slot : Nat) {data : List UInt8} :
    st.read P blankWorld slot ≠ .ok data := by
  intro hread
  obtain ⟨-, hopen⟩ := (read_eq_ok rfl).mp hread
  unfold openSlot at hopen
  have hlen : ofLittleEndian ((ByteFile.slice { size := 2 ^ 20, byteAt := fun _ => 0 }
      (slotOffset slot) slotSize).take 4) = 0 := by
    rw [ByteFile.take_slice (by decide)]
    rfl
  dsimp only at hopen
  rw [hlen, if_pos (.inl (by decide))] at hopen
  cases hopen

theorem load_blankWorld (st : SlotStore) :
    st.loadFreeList P blankWorld = .ok st.rebuildFreeList :=
  loadFreeList_unreadable fun _ => blankWorld_unreadable st _

/-- The allocation block is lost, the load succeeds, and the root directory's slot is the
    first to be handed out. -/
theorem damaged_block_frees_root :
    ¬ ∀ (st st' : SlotStore) (w : World) (root : Nat), st.loadFreeList plain w = .ok st' →
      SafeFreeList st' root ∧ st'.freeBitmap ≠ none ∧
        ∀ v slot s', alloc.run { store := st', world := v } = .ok slot s' →
          st.IsData slot ∧ slot ≠ root ∧ SafeFreeList s'.store root := by
  intro h
  have hsafe := (h smallStore _ blankWorld 1 (load_blankWorld smallStore)).1
  exact safeFreeList_rebuildFreeList_iff.mp hsafe ⟨by decide, by decide⟩

/-! ## Calls -/

/-- A store, and the slots that have been handed out. -/
structure Client where
  state : OpenStore
  held : Finset Nat

def Client.pool (c : Client) : Pool Nat := ⟨c.state.store.free, c.held⟩

/-- One call.  A slot is given back only by who holds it; the calls that read and write
    slots leave the free list alone. -/
inductive Call : Client → Client → Prop
  | alloc {s s' : OpenStore} {slot : Nat} (held : Finset Nat) (hrun : alloc.run s = .ok slot s') :
      Call ⟨s, held⟩ ⟨s', insert slot held⟩
  | allocError {s s' : OpenStore} {e : VnmError} (held : Finset Nat)
      (hrun : SlotStore.alloc.run s = .error e s') : Call ⟨s, held⟩ ⟨s', held⟩
  | freeSlot (s : OpenStore) {slot : Nat} {held : Finset Nat} (hheld : slot ∈ held) :
      Call ⟨s, held⟩ ⟨SlotStore.freeSlot slot s, held.erase slot⟩
  | other {s s' : OpenStore} (held : Finset Nat) (hshape : SameShape s.store s'.store)
      (hfree : s'.store.free = s.store.free) : Call ⟨s, held⟩ ⟨s', held⟩

abbrev Calls : Client → Client → Prop := Relation.ReflTransGen Call

/-- A call takes from the pool, gives back to it, or does neither. -/
theorem Call.pool {c d : Client} (h : Call c d) : Relation.ReflGen Pool.Step c.pool d.pool := by
  cases h with
  | @alloc s s' slot held hrun =>
    have hpool : Client.pool ⟨s, held⟩ = ⟨s'.store.free ++ [slot], held⟩ := by
      rw [Client.pool, (alloc_ok hrun).1]
    rw [hpool]
    exact .single (.take _ _ held)
  | allocError held hrun =>
    obtain ⟨rfl, -⟩ := alloc_error hrun
    exact .refl
  | @freeSlot s slot held hheld =>
    obtain ⟨dirty, hstore⟩ := freeSlot_store slot s
    have hpool : Client.pool ⟨SlotStore.freeSlot slot s, held.erase slot⟩ =
        ⟨s.store.free.orderedInsert (· ≥ ·) slot, held.erase slot⟩ := by
      rw [Client.pool, hstore]
      rfl
    rw [hpool]
    exact .single (.give _ _ _ hheld)
  | other held hshape hfree =>
    rw [Client.pool, Client.pool, hfree]

theorem Calls.pool {c d : Client} (h : Calls c d) :
    Relation.ReflTransGen Pool.Step c.pool d.pool := by
  induction h with
  | refl => exact .refl
  | tail _ hcall ih => exact ih.trans hcall.pool.to_reflTransGen

theorem SameShape.isData {st st' : SlotStore} {slot : Nat} (h : SameShape st st') :
    st'.IsData slot ↔ st.IsData slot := by
  rw [IsData, IsData, h.slotStart, h.slotLimit, h.allocSlot]

theorem Call.sameShape {c d : Client} (h : Call c d) : SameShape c.state.store d.state.store := by
  cases h with
  | alloc held hrun =>
    obtain ⟨-, rfl⟩ := alloc_ok hrun
    exact ⟨rfl, rfl, rfl, rfl, rfl, rfl⟩
  | allocError held hrun =>
    obtain ⟨rfl, -⟩ := alloc_error hrun
    exact .refl _
  | freeSlot s hheld =>
    obtain ⟨dirty, hstore⟩ := freeSlot_store _ s
    dsimp only
    rw [hstore]
    exact ⟨rfl, rfl, rfl, rfl, rfl, rfl⟩
  | other held hshape hfree => exact hshape

theorem Calls.sameShape {c d : Client} (h : Calls c d) : SameShape c.state.store d.state.store := by
  induction h with
  | refl => exact .refl _
  | tail _ hcall ih => exact ih.trans hcall.sameShape

/-! ## Where free lists come from -/

/-- Data slots that are not free. -/
def HandedOut (st : SlotStore) (held : Finset Nat) : Prop :=
  ∀ slot ∈ held, st.IsData slot ∧ slot ∉ st.free

/-- The allocation slot of `w` is as a save has left it, and `st` is the saved store's volume. -/
structure SavedAt (P : Primitives) (s : OpenStore) (st : SlotStore) (w : World) : Prop where
  saved : ∃ s', (saveFreeList P).run s = .ok () s' ∧ SameShape s.store st ∧
    ∀ f, s'.world.file = some f → ∃ f', w.file = some f' ∧ f.size ≤ f'.size ∧
      ByteFile.AgreeOn (slotOffset st.allocSlot) slotSize f' f

/-- The free list comes from `rebuildFreeList`, with slots set aside or not, or from a block
    that `saveFreeList` has written after any calls. -/
inductive Origin (P : Primitives) : OpenStore → Prop
  | rebuilt (st : SlotStore) (w : World) : Origin P { store := st.rebuildFreeList, world := w }
  | setAside {s : OpenStore} (root : Nat) (h : Origin P s) :
      Origin P { s with store := { s.store with free := s.store.free.filter (· ≠ root) } }
  | loaded {s t : OpenStore} {held held' : Finset Nat} {st st' : SlotStore} {w : World}
      (h : Origin P s) (hheld : HandedOut s.store held) (hcalls : Calls ⟨s, held⟩ ⟨t, held'⟩)
      (hsaved : SavedAt P t st w) (hload : st.loadFreeList P w = .ok st') :
      Origin P { store := st', world := w }

/-- Calls keep a list of data slots one: what is free or handed out does not change. -/
theorem Calls.freeListOk {s t : OpenStore} {held held' : Finset Nat} (hok : FreeListOk s.store)
    (hheld : HandedOut s.store held) (hcalls : Calls ⟨s, held⟩ ⟨t, held'⟩) :
    Pool.Accounts (s.store.free.toFinset ∪ held) ⟨t.store.free, held'⟩ ∧ FreeListOk t.store := by
  have hbefore : Pool.Accounts (s.store.free.toFinset ∪ held) ⟨s.store.free, held⟩ :=
    ⟨hok.descending, fun slot hfree hmem => (hheld slot hmem).2 hfree, rfl⟩
  have hafter : Pool.Accounts _ ⟨t.store.free, held'⟩ := hbefore.run hcalls.pool
  refine ⟨hafter, hafter.descending, fun slot hslot => hcalls.sameShape.isData.mpr ?_⟩
  have hmem := hafter.mem_iff.mpr (.inl hslot)
  rcases hbefore.mem_iff.mp hmem with hfree | hmem
  · exact hok.isData slot hfree
  · exact (hheld slot hmem).1

/-! ## A saved block is loaded -/

section Saved

variable {s s' : OpenStore} {st st' : SlotStore} {w : World} {u : Unit}

/-- The bitmap comes back from behind the fixed fields. -/
theorem bitmap_allocData {bitmap : List UInt8} :
    (parseAllocBlock st.hasGeneration (st.allocData bitmap)).bitmap = bitmap := by
  cases hgen : st.hasGeneration with
  | true => exact drop_allocData hgen
  | false =>
    unfold parseAllocBlock allocData
    rw [hgen]
    exact List.drop_left' (by simp)

/-- The allocation slot of a saved store holds the bitmap of its free list. -/
theorem saveFreeList_holds (hok : FreeListOk s.store) (hsave : (saveFreeList P).run s = .ok u s') :
    ∃ bitmap f, s'.world.file = some f ∧
      Holds P s.store f s.store.allocSlot (s.store.saved.allocData bitmap) ∧
      s.store.slotLimit - s.store.slotStart < 2 ^ 64 ∧
      ∀ i, Bitmap.getBit i bitmap = decide (s.store.slotStart + i ∈ s.store.free) := by
  obtain ⟨bitmap, bytes, hbitmap, hwritten⟩ := saveFreeList_ok hsave
  obtain ⟨bitmap', hbitmap', hlen, hbits⟩ := freeBitmap_isSome hok.inRange
  cases hbitmap.symm.trans hbitmap'
  obtain ⟨f, hf, -⟩ := hwritten.wrote.file
  have hfits := hwritten.fits
  rw [length_allocData] at hfits
  have hslot : slotSize = 32768 := rfl
  refine ⟨bitmap, _, hwritten.file hf, ?_, by omega, hbits⟩
  exact (hwritten.holds fun _ => allocData_ne_nil).of_store rfl rfl

/-- What a load makes of a saved block is the free list that was saved. -/
theorem SavedAt.load (hsaved : SavedAt P s st w) (hok : FreeListOk s.store)
    (hload : st.loadFreeList P w = .ok st') : st'.free = s.store.free ∧ SameShape s.store st' := by
  obtain ⟨s', hsave, hshape, hfile⟩ := hsaved.saved
  obtain ⟨bitmap, f, hf, hholds, hcount, hbits⟩ := saveFreeList_holds hok hsave
  obtain ⟨f', hf', hsize, hagree⟩ := hfile f hf
  rw [hshape.allocSlot] at hagree
  have hread : st.read P w st.allocSlot = .ok (s.store.saved.allocData bitmap) := by
    rw [hshape.allocSlot]
    exact (read_eq_ok hf').mpr ((hholds.of_agree hsize hagree).of_store hshape.masterKey hshape.cipher)
  have hlong : (if st.hasGeneration then allocHeaderLen else 8) ≤
      (s.store.saved.allocData bitmap).length := by
    rw [length_allocData, hshape.hasGeneration]
    exact Nat.le_add_right _ _
  refine ⟨?_, hshape.trans (loadFreeList_sameShape hload)⟩
  rcases loadFreeList_ok hload with ⟨hshort, -⟩ | ⟨data, hdata, -, rfl⟩
  · exact absurd (hshort _ hread) (Nat.not_lt_of_le hlong)
  · cases hread.symm.trans hdata
    change freeOfBitmap st.slotStart (ofLittleEndian (sub _ 0 8))
      (parseAllocBlock st.hasGeneration _).bitmap = _
    have hbitmap : (parseAllocBlock st.hasGeneration (s.store.saved.allocData bitmap)).bitmap =
        bitmap := by
      rw [hshape.hasGeneration]
      exact @bitmap_allocData s.store.saved bitmap
    have hn : ofLittleEndian (sub (s.store.saved.allocData bitmap) 0 8) =
        s.store.slotLimit - s.store.slotStart := count_allocData hcount
    rw [hn, hbitmap, hshape.slotStart]
    exact freeOfBitmap_eq hok.descending hok.inRange hbits

end Saved

/-- Such a free list is descending and names data slots only. -/
theorem Origin.freeListOk {s : OpenStore} (h : Origin P s) : FreeListOk s.store := by
  induction h with
  | rebuilt st w => exact rebuildFreeList_freeListOk st
  | setAside root _ ih => exact ih.filter root
  | @loaded s t held held' st st' w _ hheld hcalls hsaved hload ih =>
    obtain ⟨-, hok⟩ := hcalls.freeListOk ih hheld
    obtain ⟨hfree, hshape⟩ := hsaved.load hok hload
    refine ⟨by rw [hfree]; exact hok.descending, fun slot hslot => ?_⟩
    rw [hfree] at hslot
    exact hshape.isData.mpr (hok.isData slot hslot)

/-! ## The allocator's accounts -/

/-- In every run of calls the free list stays descending and among the data slots, `alloc`
    returns the least free slot and none that is handed out, fails for lack of one only, and
    is undone by `freeSlot`; no slot is lost and none is there twice. -/
theorem allocator_accounts {s t : OpenStore} {held held' : Finset Nat} (horigin : Origin P s)
    (hheld : HandedOut s.store held) (hcalls : Calls ⟨s, held⟩ ⟨t, held'⟩) :
    (t.store.free.SortedGT ∧ ∀ slot ∈ t.store.free, s.store.slotStart ≤ slot ∧
      slot < s.store.slotLimit ∧ slot ≠ s.store.allocSlot) ∧
    (∀ slot t', alloc.run t = .ok slot t' →
      slot ∈ t.store.free ∧ (∀ other ∈ t.store.free, slot ≤ other) ∧ slot ∉ held' ∧
        (freeSlot slot t').store.free = t.store.free) ∧
    (∀ e t', alloc.run t = .error e t' → e = .noSpaceLeft ∧ t.store.free = []) ∧
    (∀ slot ∈ t.store.free, slot ∉ held') ∧
    t.store.free.toFinset ∪ held' = s.store.free.toFinset ∪ held := by
  obtain ⟨haccounts, hok⟩ := hcalls.freeListOk horigin.freeListOk hheld
  refine ⟨⟨hok.descending, fun slot hslot => ?_⟩, fun slot t' halloc => ?_, fun e t' halloc => ?_,
    haccounts.disjoint, haccounts.union⟩
  · obtain ⟨⟨hge, hlt⟩, hne⟩ := hcalls.sameShape.isData.mp (hok.isData slot hslot)
    exact ⟨hge, hlt, hne⟩
  · obtain ⟨hfree, -⟩ := alloc_ok halloc
    have hdescending := hok.descending
    rw [hfree] at hdescending
    have hslot : slot ∈ t.store.free := by
      rw [hfree]
      exact List.mem_append_right _ List.mem_cons_self
    refine ⟨hslot, fun other hother => ?_, haccounts.disjoint slot hslot, ?_⟩
    · rw [hfree] at hother
      exact Pool.last_le hdescending other hother
    · obtain ⟨dirty, hstore⟩ := freeSlot_store slot t'
      rw [hstore, hfree]
      exact insertFree_last hdescending
  · obtain ⟨rfl, hempty⟩ := alloc_error halloc
    rw [alloc_empty hempty] at halloc
    cases halloc
    exact ⟨rfl, hempty⟩

/-- The small store with a free list. -/
def smallWith (free : List Nat) : OpenStore :=
  { store := { smallStore with free }, world := blankWorld }

theorem alloc_smallWith (free : List Nat) (slot : Nat) :
    alloc.run (smallWith (free ++ [slot])) = .ok slot (smallWith free) := by
  rw [alloc_run List.getLast?_concat]
  simp [smallWith]

theorem rebuildFreeList_smallStore : smallStore.rebuildFreeList.free = [7, 6, 5, 4, 3, 2, 1] := by
  refine (sortedGT_rebuildFreeList smallStore).eq_of_mem_iff (by decide) fun s => ?_
  rw [mem_rebuildFreeList]
  change (0 ≤ s ∧ s < 8) ∧ s ≠ 0 ↔ _
  simp only [List.mem_cons, List.not_mem_nil, or_false]
  omega

/-- Two slots are taken from a list built anew, and the first one is given back and taken again. -/
theorem allocator_accounts_freed : ∃ t t', Calls
      ⟨{ store := smallStore.rebuildFreeList, world := blankWorld }, ∅⟩ ⟨t, {2}⟩ ∧
    alloc.run t = .ok 1 t' ∧ (∀ other ∈ t.store.free, 1 ≤ other) ∧
    (freeSlot 1 t').store.free = t.store.free ∧
    t.store.free.toFinset ∪ {2} = smallStore.rebuildFreeList.free.toFinset := by
  have hstart : { store := smallStore.rebuildFreeList, world := blankWorld } =
      smallWith ([7, 6, 5, 4, 3] ++ [2] ++ [1]) := by
    rw [rebuildFreeList, smallWith]
    congr 2
    exact rebuildFreeList_smallStore
  have hcalls : Calls ⟨{ store := smallStore.rebuildFreeList, world := blankWorld }, ∅⟩
      ⟨freeSlot 1 (smallWith [7, 6, 5, 4, 3]), {2}⟩ := by
    have hone : Call ⟨smallWith ([7, 6, 5, 4, 3] ++ [2] ++ [1]), ∅⟩ ⟨smallWith ([7, 6, 5, 4, 3] ++ [2]), {1}⟩ :=
      .alloc ∅ (alloc_smallWith _ 1)
    have htwo : Call ⟨smallWith ([7, 6, 5, 4, 3] ++ [2]), {1}⟩ ⟨smallWith [7, 6, 5, 4, 3], {2, 1}⟩ :=
      .alloc {1} (alloc_smallWith _ 2)
    have hback : Call ⟨smallWith [7, 6, 5, 4, 3], {2, 1}⟩
        ⟨freeSlot 1 (smallWith [7, 6, 5, 4, 3]), {2}⟩ := @Call.freeSlot _ 1 {2, 1} (by decide)
    rw [hstart]
    exact .tail (.tail (.single hone) htwo) hback
  obtain ⟨dirty, hstore⟩ := freeSlot_store 1 (smallWith [7, 6, 5, 4, 3])
  have hlast : (freeSlot 1 (smallWith [7, 6, 5, 4, 3])).store.free.getLast? = some 1 := by
    rw [hstore]
    rfl
  obtain ⟨-, halloc, -, -, hunion⟩ := allocator_accounts (P := plain) (.rebuilt smallStore blankWorld)
    (fun _ h => absurd h (Finset.notMem_empty _)) hcalls
  obtain ⟨-, hleast, -, hundo⟩ := halloc 1 _ (alloc_run hlast)
  exact ⟨_, _, hcalls, alloc_run hlast, hleast, hundo, hunion.trans (by simp)⟩

end Venom.Storage.SlotStore
