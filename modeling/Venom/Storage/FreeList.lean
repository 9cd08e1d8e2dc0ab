import Venom.Storage.SlotIo

/-! # The free list on disk

`saveFreeList` writes the free list as a bitmap and `loadFreeList` reads it back: a free
list in descending order, without repetitions and within the volume, comes back as it was.
-/

namespace Venom.Storage.SlotStore

open Venom.Container (CipherAlgorithm slotSize)
open Venom.Crypto
open Venom.Library
open Venom.Library.Words
open Venom.Library.StateError

variable {P : Primitives}

/-! ## Descending order -/

/-- The slots of a volume but for one, in descending order. -/
def slotsExcept (st : SlotStore) : List Nat :=
  (List.range' st.slotStart (st.slotLimit - st.slotStart)).filter fun s => s ≠ st.allocSlot

theorem mem_descending {l : List Nat} {s : Nat} : s ∈ descending l ↔ s ∈ l :=
  (List.mergeSort_perm _ _).mem_iff

theorem nodup_descending {l : List Nat} : (descending l).Nodup ↔ l.Nodup :=
  (List.mergeSort_perm _ _).nodup_iff

theorem sortedGT_descending {l : List Nat} (h : l.Nodup) : (descending l).SortedGT := by
  have hge : (descending l).SortedGE := List.sortedGE_mergeSort
  exact List.SortedGE.sortedGT_of_nodup hge (nodup_descending.mpr h)

theorem mem_volume {st : SlotStore} {s : Nat} :
    s ∈ List.range' st.slotStart (st.slotLimit - st.slotStart) ↔
      st.slotStart ≤ s ∧ s < st.slotLimit := by
  rw [List.mem_range'_1]
  omega

theorem mem_rebuildFreeList {st : SlotStore} {s : Nat} :
    s ∈ st.rebuildFreeList.free ↔ (st.slotStart ≤ s ∧ s < st.slotLimit) ∧ s ≠ st.allocSlot := by
  change s ∈ descending _ ↔ _
  rw [mem_descending, List.mem_filter, mem_volume, decide_eq_true_iff]

theorem sortedGT_rebuildFreeList (st : SlotStore) : st.rebuildFreeList.free.SortedGT :=
  sortedGT_descending ((List.nodup_range' 1 Nat.one_pos).filter _)

theorem mem_usedSlots {st : SlotStore} {s : Nat} :
    s ∈ st.usedSlots ↔ (st.slotStart ≤ s ∧ s < st.slotLimit) ∧ s ≠ st.allocSlot ∧ s ∉ st.free := by
  rw [usedSlots, List.mem_filter, mem_volume, decide_eq_true_iff]

/-- All free slots belong to the volume. -/
def FreeInRange (st : SlotStore) : Prop := ∀ s ∈ st.free, st.slotStart ≤ s ∧ s < st.slotLimit

/-! ## Bitmaps of slots -/

theorem freeBitmap_eq (st : SlotStore) (h : ∀ s ∈ st.free, st.slotStart ≤ s) :
    st.freeBitmap = Bitmap.setBits (st.free.map (· - st.slotStart))
      (Bitmap.zeros (st.slotLimit - st.slotStart)) := by
  have go : ∀ (l : List Nat) (bitmap : List UInt8), (∀ s ∈ l, st.slotStart ≤ s) →
      l.foldlM (fun bitmap slot =>
        if st.slotStart ≤ slot then Bitmap.setBit (slot - st.slotStart) bitmap else none) bitmap =
      Bitmap.setBits (l.map (· - st.slotStart)) bitmap := by
    intro l
    induction l with
    | nil => intro bitmap _; rfl
    | cons s l ih =>
      intro bitmap hl
      rw [List.foldlM_cons, if_pos (hl s (.head _)), List.map_cons, Bitmap.setBits]
      cases Bitmap.setBit (s - st.slotStart) bitmap with
      | none => rfl
      | some bitmap' => exact ih bitmap' fun t ht => hl t (.tail _ ht)
  exact go st.free _ h

/-- A free list within the volume has a bitmap, and its bits are the free slots. -/
theorem freeBitmap_isSome {st : SlotStore} (h : FreeInRange st) :
    ∃ bitmap, st.freeBitmap = some bitmap ∧
      bitmap.length = (st.slotLimit - st.slotStart + 7) / 8 ∧
      ∀ i, Bitmap.getBit i bitmap = decide (st.slotStart + i ∈ st.free) := by
  have hlt : ∀ i ∈ st.free.map (· - st.slotStart), i < st.slotLimit - st.slotStart := by
    intro i hi
    obtain ⟨s, hs, rfl⟩ := List.mem_map.mp hi
    have := h s hs
    omega
  obtain ⟨bitmap, hset, hlen, hbits⟩ := Bitmap.setBits_zeros hlt
  refine ⟨bitmap, (freeBitmap_eq st fun s hs => (h s hs).1).trans hset, hlen, fun i => ?_⟩
  rw [hbits, decide_eq_decide, List.mem_map]
  constructor
  · rintro ⟨s, hs, rfl⟩
    rwa [Nat.add_sub_cancel' (h s hs).1]
  · intro hs
    exact ⟨_, hs, Nat.add_sub_cancel_left _ _⟩

/-- A bitmap yields slots of its volume only. -/
theorem mem_freeOfBitmap {start n s : Nat} {bitmap : List UInt8} :
    s ∈ freeOfBitmap start n bitmap ↔ ∃ i < n, Bitmap.getBit i bitmap = true ∧ start + i = s := by
  unfold freeOfBitmap
  rw [mem_descending, List.mem_map]
  simp only [List.mem_filter, List.mem_range, and_assoc]

theorem sortedGT_freeOfBitmap (start n : Nat) (bitmap : List UInt8) :
    (freeOfBitmap start n bitmap).SortedGT :=
  sortedGT_descending (((List.nodup_range).filter _).map fun _ _ h => Nat.add_left_cancel h)

/-- The slot handed out first is the lowest that the bitmap names. -/
theorem getLast?_freeOfBitmap {start n i : Nat} {bitmap : List UInt8} (hi : i < n)
    (hset : Bitmap.getBit i bitmap = true) (hclear : ∀ j < i, Bitmap.getBit j bitmap = false) :
    (freeOfBitmap start n bitmap).getLast? = some (start + i) := by
  have hmem : start + i ∈ freeOfBitmap start n bitmap := mem_freeOfBitmap.mpr ⟨i, hi, hset, rfl⟩
  obtain ⟨last, hlast⟩ := Option.ne_none_iff_exists'.mp
    (mt List.getLast?_eq_none_iff.mp (List.ne_nil_of_mem hmem))
  obtain ⟨j, -, hj, rfl⟩ := mem_freeOfBitmap.mp (List.mem_of_getLast? hlast)
  have hle : i ≤ j := Nat.le_of_not_lt fun hlt => by
    rw [hclear j hlt] at hj
    cases hj
  have hsorted := List.sortedGT_iff_pairwise.mp (sortedGT_freeOfBitmap start n bitmap)
  rw [← List.dropLast_append_getLast? _ hlast] at hsorted hmem
  rcases List.mem_append.mp hmem with hinit | hmem
  · have hlt := (List.pairwise_append.mp hsorted).2.2 _ hinit _ (.head _)
    rw [hlast]
    congr 1
    omega
  · rw [hlast, List.mem_singleton.mp hmem]

/-- A descending free list within the volume is read back from its bitmap. -/
theorem freeOfBitmap_eq {st : SlotStore} {bitmap : List UInt8} (hsorted : st.free.SortedGT)
    (hrange : FreeInRange st)
    (hbits : ∀ i, Bitmap.getBit i bitmap = decide (st.slotStart + i ∈ st.free)) :
    freeOfBitmap st.slotStart (st.slotLimit - st.slotStart) bitmap = st.free := by
  refine (sortedGT_freeOfBitmap _ _ _).eq_of_mem_iff hsorted fun s => ?_
  rw [mem_freeOfBitmap]
  constructor
  · rintro ⟨i, -, hbit, rfl⟩
    rwa [hbits, decide_eq_true_iff] at hbit
  · intro hs
    have := hrange s hs
    refine ⟨s - st.slotStart, by omega, ?_, by omega⟩
    rw [hbits, decide_eq_true_iff, Nat.add_sub_cancel' this.1]
    exact hs

/-! ## Allocation blocks -/

theorem length_allocData {st : SlotStore} {bitmap : List UInt8} :
    (st.allocData bitmap).length = (if st.hasGeneration then allocHeaderLen else 8) + bitmap.length := by
  unfold allocData allocHeaderLen
  cases st.hasGeneration with
  | true =>
    simp
    omega
  | false => simp

theorem allocData_ne_nil {st : SlotStore} {bitmap : List UInt8} : st.allocData bitmap ≠ [] := by
  intro hnil
  have hlen := @length_allocData st bitmap
  have hpos : 8 ≤ if st.hasGeneration then allocHeaderLen else 8 := by split <;> decide
  rw [hnil, List.length_nil] at hlen
  omega

/-- The parts of an allocation block with a generation. -/
theorem allocData_eq {st : SlotStore} {bitmap : List UInt8} (hgen : st.hasGeneration = true) :
    st.allocData bitmap = littleEndian 8 (st.slotLimit - st.slotStart) ++
      (littleEndian 8 st.generation ++ (st.cachedMerkleRoot.toList ++ bitmap)) := by
  rw [allocData, hgen, if_pos rfl, List.append_assoc, List.append_assoc]

/-- The number of slots comes first, with and without a generation. -/
theorem count_allocData {st : SlotStore} {bitmap : List UInt8}
    (hcount : st.slotLimit - st.slotStart < 2 ^ 64) :
    ofLittleEndian (sub (st.allocData bitmap) 0 8) = st.slotLimit - st.slotStart := by
  have hsub : sub (st.allocData bitmap) 0 8 = littleEndian 8 (st.slotLimit - st.slotStart) := by
    rw [allocData, List.append_assoc]
    exact sub_append_left (length_littleEndian _ _) _
  rw [hsub, ofLittleEndian_u64 hcount]

theorem drop_allocData {st : SlotStore} {bitmap : List UInt8} (hgen : st.hasGeneration = true) :
    (st.allocData bitmap).drop 48 = bitmap := by
  rw [allocData_eq hgen, ← List.append_assoc, ← List.append_assoc]
  exact List.drop_left' (by simp)

/-- An allocation block with a generation is parsed back. -/
theorem parseAllocBlock_allocData {st : SlotStore} {bitmap : List UInt8}
    (hgen : st.hasGeneration = true) (hlt : st.generation < 2 ^ 64)
    (hcount : st.slotLimit - st.slotStart < 2 ^ 64) :
    parseAllocBlock true (st.allocData bitmap) =
      { count := st.slotLimit - st.slotStart, generation := st.generation
        merkleRoot := st.cachedMerkleRoot, bitmap } := by
  have hsplit := @allocData_eq _ bitmap hgen
  have hgen' : sub (st.allocData bitmap) 8 8 = littleEndian 8 st.generation :=
    sub_field hsplit (length_littleEndian _ _) (length_littleEndian _ _)
  have hsplit' : st.allocData bitmap = (littleEndian 8 (st.slotLimit - st.slotStart) ++
      littleEndian 8 st.generation) ++ (st.cachedMerkleRoot.toList ++ bitmap) := by
    rw [hsplit, ← List.append_assoc]
  have hroot : sub (st.allocData bitmap) 16 32 = st.cachedMerkleRoot.toList :=
    sub_field hsplit' (by simp) st.cachedMerkleRoot.toList_length
  unfold parseAllocBlock
  simp only [if_true]
  rw [count_allocData hcount, hgen', hroot, drop_allocData hgen, ofLittleEndian_u64 hlt, toBytes_toList]

/-! ## Saving -/

/-- The store `saveFreeList` writes: the generation has been increased. -/
def saved (st : SlotStore) : SlotStore :=
  { st with generation := if st.hasGeneration then (st.generation + 1) % 2 ^ 64 else st.generation }

section Save

variable {s s' : OpenStore} {u : Unit}

theorem saveFreeList_ok (h : (saveFreeList P).run s = .ok u s') :
    ∃ bitmap bytes, s.store.freeBitmap = some bitmap ∧
      Written P s.store.allocSlot (s.store.saved.allocData bitmap) { s with store := s.store.saved } s'
        bytes := by
  unfold saveFreeList at h
  obtain ⟨t, s₁, hget, h₁⟩ := run_bind_ok.mp h
  cases hget
  cases hbitmap : s.store.freeBitmap with
  | none => rw [hbitmap] at h₁; cases h₁
  | some bitmap =>
    rw [hbitmap] at h₁
    obtain ⟨u₁, s₂, hmodify, h₂⟩ := run_bind_ok.mp h₁
    cases hmodify
    obtain ⟨t', s₃, hget', h₃⟩ := run_bind_ok.mp h₂
    cases hget'
    obtain ⟨bytes, hwritten⟩ := write_ok (fallible_ok.mp h₃)
    exact ⟨bitmap, bytes, rfl, hwritten⟩

/-- A free list with a bitmap is saved by one write to the allocation slot. -/
theorem saveFreeList_run {bitmap : List UInt8} (hbitmap : s.store.freeBitmap = some bitmap) :
    (saveFreeList P).run s = (fallible (write P s.store.allocSlot
      (s.store.saved.allocData bitmap))).run { s with store := s.store.saved } := by
  unfold saveFreeList
  rw [run_bind_of_ok run_get, hbitmap]
  change (modifyStore _ >>= _ : EStateM Fault OpenStore Unit).run s = _
  rw [run_bind_of_ok (modifyStore_run _ _), run_bind_of_ok run_get]
  rfl

/-- The length of the allocation block of a free list that lies in the volume. -/
theorem length_allocData_saved {st : SlotStore} {bitmap : List UInt8} (hrange : FreeInRange st)
    (hbitmap : st.freeBitmap = some bitmap) : (st.saved.allocData bitmap).length =
      (if st.hasGeneration then allocHeaderLen else 8) + (st.slotLimit - st.slotStart + 7) / 8 := by
  obtain ⟨bitmap', hbitmap', hlen, -⟩ := freeBitmap_isSome hrange
  cases hbitmap.symm.trans hbitmap'
  rw [length_allocData, hlen]
  rfl

/-- Saving succeeds when the free list lies in the volume and the allocation block fits. -/
theorem saveFreeList_isOk (hfile : s.world.file ≠ none) (hrange : FreeInRange s.store)
    (hfits : (if s.store.hasGeneration then allocHeaderLen else 8) +
      (s.store.slotLimit - s.store.slotStart + 7) / 8 + vnmbOverhead s.store.cipher + 4 ≤ slotSize) :
    ∃ s', (saveFreeList P).run s = .ok () s' := by
  obtain ⟨bitmap, hbitmap, -, -⟩ := freeBitmap_isSome hrange
  obtain ⟨s', hs'⟩ := @write_isOk P s.store.allocSlot (s.store.saved.allocData bitmap)
    { s with store := s.store.saved } hfile
    (by rw [length_allocData_saved hrange hbitmap]; exact hfits)
  refine ⟨s', ?_⟩
  rw [saveFreeList_run hbitmap]
  exact fallible_ok.mpr hs'

/-- When the allocation block does not fit, saving ends in an error and writes nothing. -/
theorem saveFreeList_tooLarge (hrange : FreeInRange s.store)
    (hlarge : slotSize < (if s.store.hasGeneration then allocHeaderLen else 8) +
      (s.store.slotLimit - s.store.slotStart + 7) / 8 + vnmbOverhead s.store.cipher + 4) :
    ∃ e s', (saveFreeList P).run s = .error (.error e) s' ∧ s.world.OnlyDrew s'.world := by
  obtain ⟨bitmap, hbitmap, -, -⟩ := freeBitmap_isSome hrange
  rw [saveFreeList_run hbitmap]
  rcases run_cases (write P s.store.allocSlot (s.store.saved.allocData bitmap))
    { s with store := s.store.saved } with ⟨u, hok⟩ | ⟨e, herr⟩
  · obtain ⟨bytes, hwritten⟩ := write_ok hok
    have hfits := hwritten.fits
    rw [length_allocData_saved hrange hbitmap] at hfits
    exact absurd hlarge (Nat.not_lt.mpr hfits)
  · exact ⟨e, _, fallible_error.mpr ⟨e, herr, rfl⟩, (write_error herr).1⟩

end Save

theorem saveFreeList_error {s s' : OpenStore} {e : Fault}
    (h : (saveFreeList P).run s = .error e s') :
    s.world.OnlyDrew s'.world ∧ (s'.store = s.store ∨ s'.store = s.store.saved) := by
  cases hbitmap : s.store.freeBitmap with
  | none =>
    unfold saveFreeList at h
    rw [run_bind_of_ok run_get, hbitmap] at h
    cases h
    exact ⟨.refl _, .inl rfl⟩
  | some bitmap =>
    rw [saveFreeList_run hbitmap] at h
    obtain ⟨e', hwrite, -⟩ := fallible_error.mp h
    obtain ⟨hdrew, hstore, -⟩ := write_error hwrite
    exact ⟨hdrew, .inr hstore⟩

/-! ## The Merkle root -/

theorem updateMerkleRoot_ok {s s' : OpenStore} {u : Unit}
    (h : (updateMerkleRoot P).run s = .ok u s') :
    ∃ root, computeMerkleRoot P s.world s.store.usedSlots = .ok root ∧
      s' = { s with store := { s.store with cachedMerkleRoot := root, merkleDirty := false } } := by
  unfold updateMerkleRoot at h
  obtain ⟨t, s₁, hget, h₁⟩ := run_bind_ok.mp h
  cases hget
  obtain ⟨root, s₂, hroot, h₂⟩ := run_bind_ok.mp h₁
  obtain ⟨hroot, rfl⟩ := orThrow_ok.mp hroot
  cases h₂
  exact ⟨root, hroot, rfl⟩

theorem updateMerkleRoot_run {s : OpenStore} {root : Key}
    (h : computeMerkleRoot P s.world s.store.usedSlots = .ok root) :
    (updateMerkleRoot P).run s = .ok ()
      { s with store := { s.store with cachedMerkleRoot := root, merkleDirty := false } } := by
  unfold updateMerkleRoot
  rw [run_bind_of_ok run_get]
  exact run_bind_of_ok (orThrow_ok.mpr ⟨h, rfl⟩)

theorem updateMerkleRoot_error {s s' : OpenStore} {e : VnmError}
    (h : (updateMerkleRoot P).run s = .error e s') : s' = s := by
  unfold updateMerkleRoot at h
  rw [run_bind_of_ok run_get] at h
  rcases run_bind_error.mp h with hroot | ⟨root, s₁, -, h₁⟩
  · exact (orThrow_error.mp hroot).2
  · cases h₁

/-! ## Loading -/

section Load

variable {st : SlotStore} {w : World} {f : ByteFile} {data : List UInt8}

/-- An unreadable allocation block: every slot but the allocation slot is free. -/
theorem loadFreeList_unreadable (h : ∀ data, st.read P w st.allocSlot ≠ .ok data) :
    st.loadFreeList P w = .ok st.rebuildFreeList := by
  unfold loadFreeList
  dsimp only
  cases hread : st.read P w st.allocSlot with
  | ok data => exact absurd hread (h data)
  | error e => rfl

/-- A legacy allocation block is adopted without a check. -/
theorem loadFreeList_legacy (hgen : st.hasGeneration = false)
    (hread : st.read P w st.allocSlot = .ok data) (hlen : 8 ≤ data.length) :
    st.loadFreeList P w = .ok (st.adopt (parseAllocBlock false data)) := by
  unfold loadFreeList
  dsimp only
  rw [hread]
  dsimp only
  rw [hgen, if_pos (show (if false = true then allocHeaderLen else 8) ≤ data.length from hlen)]
  have hfalse : ¬ ((st.adopt (parseAllocBlock false data)).hasGeneration = true ∧
      (parseAllocBlock false data).merkleRoot ≠ zeroRoot) := by
    rintro ⟨h, -⟩
    rw [show (st.adopt (parseAllocBlock false data)).hasGeneration = st.hasGeneration from rfl,
      hgen] at h
    cases h
  rw [if_neg hfalse]

/-- An allocation block without a Merkle root is adopted without a check. -/
theorem loadFreeList_unchecked (hgen : st.hasGeneration = true)
    (hread : st.read P w st.allocSlot = .ok data) (hlen : allocHeaderLen ≤ data.length)
    (hroot : (parseAllocBlock true data).merkleRoot = zeroRoot) :
    st.loadFreeList P w = .ok (st.adopt (parseAllocBlock true data)) := by
  unfold loadFreeList
  dsimp only
  rw [hread]
  dsimp only
  rw [hgen, if_pos (show (if true = true then allocHeaderLen else 8) ≤ data.length from hlen),
    if_neg (fun h => h.2 hroot)]

/-- An allocation block whose root is that of the slots it says are used. -/
theorem loadFreeList_checked (hgen : st.hasGeneration = true)
    (hread : st.read P w st.allocSlot = .ok data) (hlen : allocHeaderLen ≤ data.length)
    (hroot : computeMerkleRoot P w (st.adopt (parseAllocBlock true data)).usedSlots =
      .ok (parseAllocBlock true data).merkleRoot) :
    st.loadFreeList P w = .ok (st.adopt (parseAllocBlock true data)) := by
  unfold loadFreeList
  dsimp only
  rw [hread]
  dsimp only
  rw [hgen, if_pos (show (if true = true then allocHeaderLen else 8) ≤ data.length from hlen)]
  split
  · rw [except_bind_of_ok hroot, if_neg (not_not_intro rfl)]
  · rfl

/-- The list is rebuilt from an unreadable or short block; what any other says is adopted. -/
theorem loadFreeList_ok {st' : SlotStore} (h : st.loadFreeList P w = .ok st') :
    ((∀ data, st.read P w st.allocSlot = .ok data →
        data.length < if st.hasGeneration then allocHeaderLen else 8) ∧ st' = st.rebuildFreeList) ∨
      ∃ data, st.read P w st.allocSlot = .ok data ∧
        (if st.hasGeneration then allocHeaderLen else 8) ≤ data.length ∧
        st' = st.adopt (parseAllocBlock st.hasGeneration data) := by
  unfold loadFreeList at h
  dsimp only at h
  cases hread : st.read P w st.allocSlot with
  | error e =>
    rw [hread] at h
    cases h
    refine .inl ⟨fun data hdata => ?_, rfl⟩
    cases hdata
  | ok data =>
    rw [hread] at h
    dsimp only at h
    by_cases hlen : (if st.hasGeneration = true then allocHeaderLen else 8) ≤ data.length
    · rw [if_pos hlen] at h
      by_cases hroot : (st.adopt (parseAllocBlock st.hasGeneration data)).hasGeneration = true ∧
          (parseAllocBlock st.hasGeneration data).merkleRoot ≠ zeroRoot
      · rw [if_pos hroot] at h
        obtain ⟨computed, -, h₁⟩ := except_bind_ok.mp h
        by_cases hne : computed ≠ (parseAllocBlock st.hasGeneration data).merkleRoot
        · rw [if_pos hne] at h₁
          cases h₁
        · rw [if_neg hne] at h₁
          cases h₁
          exact .inr ⟨data, rfl, hlen, rfl⟩
      · rw [if_neg hroot] at h
        cases h
        exact .inr ⟨data, rfl, hlen, rfl⟩
    · rw [if_neg hlen] at h
      cases h
      refine .inl ⟨fun data' hdata => ?_, rfl⟩
      cases hdata
      exact Nat.lt_of_not_le hlen

theorem merkleLeaves_error {slots : List Nat} {e : VnmError} (h : merkleLeaves P w slots = .error e) :
    ∃ reason, e = .io reason := by
  induction slots with
  | nil => cases h
  | cons slot slots ih =>
    rcases except_bind_error.mp h with hread | ⟨raw, -, h₁⟩
    · exact World.read_error hread
    · rcases except_bind_error.mp h₁ with hleaves | ⟨leaves, -, h₂⟩
      · exact ih hleaves
      · cases h₂

theorem computeMerkleRoot_error {slots : List Nat} {e : VnmError}
    (h : computeMerkleRoot P w slots = .error e) : ∃ reason, e = .io reason := by
  unfold computeMerkleRoot at h
  split at h
  · cases h
  · rcases except_bind_error.mp h with hleaves | ⟨leaves, -, h₁⟩
    · exact merkleLeaves_error hleaves
    · cases h₁

/-- Slots within the file have a Merkle root. -/
theorem computeMerkleRoot_isOk (hf : w.file = some f) {slots : List Nat}
    (h : ∀ slot ∈ slots, slotOffset slot + slotSize ≤ f.size) :
    ∃ root, computeMerkleRoot P w slots = .ok root := by
  have hleaves : ∃ leaves, merkleLeaves P w slots = .ok leaves := by
    induction slots with
    | nil => exact ⟨[], rfl⟩
    | cons slot slots ih =>
      obtain ⟨leaves, hleaves⟩ := ih fun s hs => h s (.tail _ hs)
      refine ⟨leafHash P slot (f.slice (slotOffset slot) slotSize) :: leaves, ?_⟩
      rw [merkleLeaves, except_bind_of_ok (World.read_eq hf (h slot (.head _))),
        except_bind_of_ok hleaves]
  obtain ⟨leaves, hleaves⟩ := hleaves
  unfold computeMerkleRoot
  split
  · exact ⟨_, rfl⟩
  · exact ⟨_, except_bind_of_ok hleaves⟩

/-- What fails is a read or the check of the Merkle root. -/
theorem loadFreeList_error {e : VnmError} (h : st.loadFreeList P w = .error e) :
    e = .merkleIntegrityFailure ∨ ∃ reason, e = .io reason := by
  unfold loadFreeList at h
  dsimp only at h
  cases hread : st.read P w st.allocSlot with
  | error e => rw [hread] at h; cases h
  | ok data =>
    rw [hread] at h
    dsimp only at h
    by_cases hlen : (if st.hasGeneration = true then allocHeaderLen else 8) ≤ data.length
    · rw [if_pos hlen] at h
      by_cases hroot : (st.adopt (parseAllocBlock st.hasGeneration data)).hasGeneration = true ∧
          (parseAllocBlock st.hasGeneration data).merkleRoot ≠ zeroRoot
      · rw [if_pos hroot] at h
        rcases except_bind_error.mp h with hcompute | ⟨computed, -, h₁⟩
        · exact .inr (computeMerkleRoot_error hcompute)
        · by_cases hne : computed ≠ (parseAllocBlock st.hasGeneration data).merkleRoot
          · rw [if_pos hne] at h₁
            cases h₁
            exact .inl rfl
          · rw [if_neg hne] at h₁
            cases h₁
      · rw [if_neg hroot] at h
        cases h
    · rw [if_neg hlen] at h
      cases h

theorem merkleLeaves_congr {w' : World}
    (h : ∀ slot, w'.read (slotOffset slot) slotSize = w.read (slotOffset slot) slotSize)
    (slots : List Nat) : merkleLeaves P w' slots = merkleLeaves P w slots := by
  induction slots with
  | nil => rfl
  | cons slot slots ih => rw [merkleLeaves, merkleLeaves, h, ih]

/-- A load sees the bytes of slots only. -/
theorem loadFreeList_congr {w' : World}
    (h : ∀ slot, w'.read (slotOffset slot) slotSize = w.read (slotOffset slot) slotSize) :
    st.loadFreeList P w' = st.loadFreeList P w := by
  have hread : ∀ slot, st.read P w' slot = st.read P w slot := fun slot => by rw [read, read, h]
  have hroot : ∀ slots, computeMerkleRoot P w' slots = computeMerkleRoot P w slots := fun slots => by
    rw [computeMerkleRoot, computeMerkleRoot, merkleLeaves_congr h]
  unfold loadFreeList
  simp only [hread, hroot]

/-- A load keeps the key, the cipher and the bounds of the volume. -/
structure SameShape (st st' : SlotStore) : Prop where
  masterKey : st'.masterKey = st.masterKey
  cipher : st'.cipher = st.cipher
  slotStart : st'.slotStart = st.slotStart
  slotLimit : st'.slotLimit = st.slotLimit
  allocSlot : st'.allocSlot = st.allocSlot
  hasGeneration : st'.hasGeneration = st.hasGeneration

theorem SameShape.refl (st : SlotStore) : SameShape st st := ⟨rfl, rfl, rfl, rfl, rfl, rfl⟩

theorem SameShape.symm {st st' : SlotStore} (h : SameShape st st') : SameShape st' st :=
  ⟨h.masterKey.symm, h.cipher.symm, h.slotStart.symm, h.slotLimit.symm, h.allocSlot.symm,
    h.hasGeneration.symm⟩

theorem SameShape.trans {st₁ st₂ st₃ : SlotStore} (h : SameShape st₁ st₂) (h' : SameShape st₂ st₃) :
    SameShape st₁ st₃ :=
  ⟨h'.masterKey.trans h.masterKey, h'.cipher.trans h.cipher, h'.slotStart.trans h.slotStart,
    h'.slotLimit.trans h.slotLimit, h'.allocSlot.trans h.allocSlot,
    h'.hasGeneration.trans h.hasGeneration⟩

theorem loadFreeList_sameShape {st' : SlotStore} (h : st.loadFreeList P w = .ok st') :
    SameShape st st' := by
  rcases loadFreeList_ok h with ⟨-, rfl⟩ | ⟨data, -, -, rfl⟩
  · exact ⟨rfl, rfl, rfl, rfl, rfl, rfl⟩
  · exact ⟨rfl, rfl, rfl, rfl, rfl, rfl⟩

end Load

end Venom.Storage.SlotStore
