import Venom.Storage.NodeStore

/-! # Sizes of encoded nodes

What each kind of node takes in MessagePack, as a constant plus the widths of its numbers
and the length of its bytes, and which nodes always fit one slot.
-/

namespace Venom.Storage

open Venom.Library.MessagePack (Head Value Values Fields)
open Venom.Container (CipherAlgorithm slotSize)
open Venom.Crypto (vnmbOverhead vnmbOverhead_le)

/-- The bytes of a number. -/
def uintLen (n : Nat) : Nat := (Head.uint n).width

/-- The bytes of the numbers of a list. -/
def idsLen (ids : List Nat) : Nat := (ids.map uintLen).sum

theorem uints_size (ids : List Nat) : (uints ids).size = idsLen ids := by
  induction ids with
  | nil => rfl
  | cons n ids ih => simp only [uints, Values.size, Value.size, ih, idsLen, List.map_cons,
      List.sum_cons, uintLen]

theorem uints_length (ids : List Nat) : (uints ids).length = ids.length := by
  induction ids with
  | nil => rfl
  | cons n ids ih => simp only [uints, Values.length, ih, List.length_cons]

theorem uints_valid (ids : List Nat) : (uints ids).valid = true ↔ ∀ n ∈ ids, n < 2 ^ 64 := by
  induction ids with
  | nil => simp [uints, Values.valid]
  | cons n ids ih =>
    simp only [uints, Values.valid, Value.valid, Bool.and_eq_true, ih, List.forall_mem_cons]
    exact and_congr_left' decide_eq_true_iff

theorem one_le_uintLen (n : Nat) : 1 ≤ uintLen n := Head.width_pos _

theorem uintLen_le (n : Nat) : uintLen n ≤ 9 := by
  unfold uintLen Head.width
  dsimp only
  (repeat' split) <;> omega

theorem uintLen_le_five {n : Nat} (h : n < 2 ^ 32) : uintLen n ≤ 5 := by
  unfold uintLen Head.width
  dsimp only
  rw [if_pos h]
  (repeat' split) <;> omega

/-- Every id takes at least a byte. -/
theorem length_le_idsLen (ids : List Nat) : ids.length ≤ idsLen ids := by
  induction ids with
  | nil => simp
  | cons n ids ih =>
    have := one_le_uintLen n
    simp only [idsLen, List.map_cons, List.sum_cons, List.length_cons] at ih ⊢
    omega

theorem idsLen_le {ids : List Nat} (h : ∀ n ∈ ids, n < 2 ^ 32) : idsLen ids ≤ 5 * ids.length := by
  induction ids with
  | nil => simp [idsLen]
  | cons n ids ih =>
    have := uintLen_le_five (h n List.mem_cons_self)
    have := ih fun m hm => h m (List.mem_cons_of_mem _ hm)
    simp only [idsLen, List.map_cons, List.sum_cons, List.length_cons] at this ⊢
    omega

theorem idsLen_perm {ids ids' : List Nat} (h : ids.Perm ids') : idsLen ids = idsLen ids' :=
  (h.map _).sum_nat

/-! ## The kinds of nodes -/

/-- The bytes of a field's name. -/
def keyLen (name : String) : Nat := (Head.str (utf8 name).length).width + (utf8 name).length

theorem field_size (name : String) (v : Value) (tail : Fields) :
    (field name v tail).size = keyLen name + v.size + tail.size := rfl

theorem optUint_size_le (o : Option Nat) : (optUint o).size ≤ 9 := by
  cases o with
  | none => decide
  | some n => exact uintLen_le n

/-- A file's head. -/
theorem encodedLen_file (totalSize : Nat) (dataSlots : List Nat) (indexChain : Option Nat)
    (data : List UInt8) :
    encodedLen (.file { kind := .file, totalSize, dataSlots, indexChain, data }) =
      56 + uintLen totalSize + (Head.array dataSlots.length).width + idsLen dataSlots +
        (optUint indexChain).size + (Head.bin data.length).width + data.length := by
  have hkeys : (Head.map 1).width + keyLen "File" + (Head.map 5).width + keyLen "kind" +
      NodeKind.file.toValue.size + keyLen "total_size" + keyLen "data_slots" +
      keyLen "index_chain" + keyLen "data" = 56 := by decide
  simp only [encodedLen, VaultNode.toValue, FileBlock.toValue, Value.size, field_size,
    Fields.size, uints_size, uints_length]
  change (Head.map 1).width + (keyLen "File" + ((Head.map 5).width + (keyLen "kind" +
    NodeKind.file.toValue.size + (keyLen "total_size" + uintLen totalSize + _))) + 0) = _
  omega

/-- A continuation chunk. -/
theorem encodedLen_fileData (data : List UInt8) :
    encodedLen (.fileData { kind := .fileData, data }) =
      31 + (Head.bin data.length).width + data.length := by
  have hkeys : (Head.map 1).width + keyLen "FileData" + (Head.map 2).width + keyLen "kind" +
      NodeKind.fileData.toValue.size + keyLen "data" = 31 := by decide
  simp only [encodedLen, VaultNode.toValue, FileDataBlock.toValue, Value.size, field_size,
    Fields.size]
  change (Head.map 1).width + (keyLen "FileData" + ((Head.map 2).width + (keyLen "kind" +
    NodeKind.fileData.toValue.size + _)) + 0) = _
  omega

/-- An index block. -/
theorem encodedLen_fileIndex (slotIds : List Nat) (nextIndex : Option Nat) :
    encodedLen (.fileIndex { kind := .fileIndex, slotIds, nextIndex }) =
      48 + (Head.array slotIds.length).width + idsLen slotIds + (optUint nextIndex).size := by
  have hkeys : (Head.map 1).width + keyLen "FileIndex" + (Head.map 3).width + keyLen "kind" +
      NodeKind.fileIndex.toValue.size + keyLen "slot_ids" + keyLen "next_index" = 48 := by decide
  simp only [encodedLen, VaultNode.toValue, FileIndexBlock.toValue, Value.size, field_size,
    Fields.size, uints_size, uints_length]
  change (Head.map 1).width + (keyLen "FileIndex" + ((Head.map 3).width + (keyLen "kind" +
    NodeKind.fileIndex.toValue.size + _)) + 0) = _
  omega

theorem length_utf8 (s : String) : (utf8 s).length = s.utf8ByteSize := by
  simp [utf8]

theorem name_le_size {e : DirEntry} {es : List DirEntry} (h : e ∈ es) :
    (utf8 e.name).length ≤ (entriesToValues es).size := by
  induction es with
  | nil => cases h
  | cons e' es ih =>
    simp only [entriesToValues, Values.size]
    rcases List.mem_cons.mp h with rfl | h
    · simp only [DirEntry.toValue, Value.size, field_size]
      omega
    · have := ih h
      omega

/-- A directory takes at least the bytes of each of its names. -/
theorem name_le_encodedLen {d : DirectoryBlock} {e : DirEntry} (h : e ∈ d.entries) :
    (utf8 e.name).length ≤ encodedLen (.directory d) := by
  have := name_le_size h
  simp only [encodedLen, VaultNode.toValue, DirectoryBlock.toValue, Value.size, field_size,
    Fields.size]
  omega

/-! ## What fits -/

theorem field_valid (name : String) (hname : (utf8 name).length < 2 ^ 32) (v : Value)
    (tail : Fields) : (field name v tail).valid = true ↔ v.valid = true ∧ tail.valid = true := by
  have hkey : (decide (Head.str (utf8 name).length).Valid) = true := decide_eq_true hname
  rw [field, Fields.valid, hkey, Bool.true_and, Bool.and_eq_true]

theorem optUint_valid (o : Option Nat) : (optUint o).valid = true ↔ ∀ n ∈ o, n < 2 ^ 64 := by
  cases o with
  | none => simp [optUint, Value.valid]
  | some n =>
    rw [optUint, Value.valid, decide_eq_true_iff]
    simp [Head.Valid, Head.number, Head.bound]

/-- A struct as the content of its variant. -/
theorem variant_valid (name : String) (hname : (utf8 name).length < 2 ^ 32) {fields : Fields}
    (hlen : fields.length < 2 ^ 32) :
    (Value.map (field name (.map fields) .nil)).valid = true ↔ fields.valid = true := by
  have h1 : (decide (Head.map (field name (.map fields) .nil).length).Valid) = true :=
    decide_eq_true (show 1 < 2 ^ 32 by decide)
  have h2 : (decide (Head.map fields.length).Valid) = true := decide_eq_true hlen
  rw [Value.valid, h1, Bool.true_and, field_valid name hname, Value.valid, h2, Bool.true_and]
  simp [Fields.valid]

theorem kind_valid (k : NodeKind) : k.toValue.valid = true := by cases k <;> decide

theorem bin_valid (data : List UInt8) :
    (Value.bin data).valid = true ↔ data.length < 2 ^ 32 := by
  rw [Value.valid, decide_eq_true_iff]
  rfl

theorem array_valid (ids : List Nat) : (Value.array (uints ids)).valid = true ↔
    ids.length < 2 ^ 32 ∧ ∀ n ∈ ids, n < 2 ^ 64 := by
  rw [Value.valid, Bool.and_eq_true, decide_eq_true_iff, uints_valid, uints_length]
  rfl

/-- The head of a file fits exactly when its encoding is short enough. -/
theorem file_fits {cipher : CipherAlgorithm} {totalSize : Nat} {dataSlots : List Nat}
    {indexChain : Option Nat} {data : List UInt8} (htotal : totalSize < 2 ^ 64)
    (hlen : dataSlots.length < 2 ^ 32) (hslots : ∀ n ∈ dataSlots, n < 2 ^ 64)
    (hchain : ∀ n ∈ indexChain, n < 2 ^ 64) (hdata : data.length < 2 ^ 32) :
    Fits cipher (.file { kind := .file, totalSize, dataSlots, indexChain, data }) ↔
      56 + uintLen totalSize + (Head.array dataSlots.length).width + idsLen dataSlots +
        (optUint indexChain).size + (Head.bin data.length).width + data.length +
        vnmbOverhead cipher + 4 ≤ slotSize := by
  rw [Fits, encodedLen_file]
  refine and_iff_right ?_
  refine (variant_valid "File" (by decide) ?_).mpr ?_
  · exact (show 5 < 2 ^ 32 by decide)
  rw [field_valid "kind" (by decide), field_valid "total_size" (by decide),
    field_valid "data_slots" (by decide), field_valid "index_chain" (by decide),
    field_valid "data" (by decide), array_valid, optUint_valid, bin_valid]
  exact ⟨kind_valid _, decide_eq_true htotal, ⟨hlen, hslots⟩, hchain, hdata, rfl⟩

theorem uintLen_mono {m n : Nat} (h : m ≤ n) : uintLen m ≤ uintLen n := by
  unfold uintLen Head.width
  dsimp only
  (repeat' split) <;> omega

theorem idsLen_take (ids : List Nat) (n : Nat) : idsLen (ids.take n) ≤ idsLen ids := by
  have h : idsLen (ids.take n) + idsLen (ids.drop n) = idsLen ids := by
    rw [idsLen, idsLen, ← List.sum_append, ← List.map_append, List.take_append_drop, idsLen]
  omega

/-- A head with a smaller size, fewer slots, no index chain and fewer bytes still fits. -/
theorem file_fits_cut {cipher : CipherAlgorithm} {totalSize newSize n k : Nat}
    {dataSlots : List Nat} {indexChain : Option Nat} {data : List UInt8}
    (h : Fits cipher (.file { kind := .file, totalSize, dataSlots, indexChain, data }))
    (hsize : newSize ≤ totalSize) :
    Fits cipher (.file { kind := .file, totalSize := newSize, dataSlots := dataSlots.take n,
                         indexChain := none, data := data.take k }) := by
  have hvalid := h.1
  change (Value.map (field "File" (.map _) .nil)).valid = true at hvalid
  rw [variant_valid "File" (by decide) (by exact (show 5 < 2 ^ 32 by decide)),
    field_valid "kind" (by decide), field_valid "total_size" (by decide),
    field_valid "data_slots" (by decide), field_valid "index_chain" (by decide),
    field_valid "data" (by decide), array_valid, optUint_valid, bin_valid] at hvalid
  obtain ⟨-, htotal, ⟨hlen, hslots⟩, hchain, hdata, -⟩ := hvalid
  have htotal' : totalSize < 2 ^ 64 := decide_eq_true_iff.mp htotal
  dsimp only at hlen hslots hchain hdata
  rw [file_fits htotal' hlen hslots hchain hdata] at h
  have htakes := List.length_take_le' n dataSlots
  have htaked := List.length_take_le' k data
  rw [file_fits (lt_of_le_of_lt hsize htotal') (by omega)
    (fun m hm => hslots m (List.mem_of_mem_take hm)) (by simp) (by omega)]
  have h₁ := uintLen_mono hsize
  have h₂ := idsLen_take dataSlots n
  have h₃ : (Head.array (dataSlots.take n).length).width ≤ (Head.array dataSlots.length).width := by
    unfold Head.width
    dsimp only
    (repeat' split) <;> omega
  have h₄ : (Head.bin (data.take k).length).width ≤ (Head.bin data.length).width := by
    unfold Head.width
    dsimp only
    (repeat' split) <;> omega
  have h₅ : (optUint none).size ≤ (optUint indexChain).size := by
    cases indexChain with
    | none => rfl
    | some m => exact one_le_uintLen m
  omega

/-- Every chunk fits a slot. -/
theorem fileData_fits (cipher : CipherAlgorithm) {data : List UInt8}
    (h : data.length ≤ chunkSize) : Fits cipher (.fileData { kind := .fileData, data }) := by
  have hcs : chunkSize = 30000 := rfl
  refine ⟨?_, ?_⟩
  · refine (variant_valid "FileData" (by decide) ?_).mpr ?_
    · exact (show 2 < 2 ^ 32 by decide)
    rw [field_valid "kind" (by decide), field_valid "data" (by decide), bin_valid]
    exact ⟨kind_valid _, h.trans_lt (by decide), rfl⟩
  · have hbin : (Head.bin data.length).width ≤ 3 := by
      unfold Head.width
      dsimp only
      (repeat' split) <;> omega
    have := vnmbOverhead_le cipher
    rw [encodedLen_fileData]
    unfold slotSize
    omega

/-- Every index block fits a slot. -/
theorem fileIndex_fits (cipher : CipherAlgorithm) {slotIds : List Nat} {nextIndex : Option Nat}
    (hlen : slotIds.length ≤ maxIndexSlots) (hslots : ∀ n ∈ slotIds, n < 2 ^ 32)
    (hnext : ∀ n ∈ nextIndex, n < 2 ^ 64) :
    Fits cipher (.fileIndex { kind := .fileIndex, slotIds, nextIndex }) := by
  have hmax : maxIndexSlots = 4080 := rfl
  refine ⟨?_, ?_⟩
  · refine (variant_valid "FileIndex" (by decide) ?_).mpr ?_
    · exact (show 3 < 2 ^ 32 by decide)
    rw [field_valid "kind" (by decide), field_valid "slot_ids" (by decide),
      field_valid "next_index" (by decide), array_valid, optUint_valid]
    exact ⟨kind_valid _, ⟨hlen.trans_lt (by decide), fun n hn => (hslots n hn).trans (by decide)⟩, hnext, rfl⟩
  · have harray : (Head.array slotIds.length).width ≤ 3 := by
      unfold Head.width
      dsimp only
      (repeat' split) <;> omega
    have := vnmbOverhead_le cipher
    have := idsLen_le hslots
    have := optUint_size_le nextIndex
    rw [encodedLen_fileIndex]
    unfold slotSize
    omega

end Venom.Storage
