import Venom.Library.MessagePack

/-! # Vault nodes

The node kinds stored in the slots of a container and their MessagePack form.  A
struct is written as a map from field names, an enum value as a map from the variant
name to its content, a unit variant as its name.
-/

namespace Venom.Storage

open Venom.Library
open MessagePack (Value Values Fields)

/-- Bytes of user data per chunk (head inline or continuation slot). -/
def chunkSize : Nat := 30000

/-- Max continuation-slot ids stored directly in the head before spilling into the
    index chain. -/
def maxDirectSlots : Nat := 4000

/-- Max slot ids per index block. -/
def maxIndexSlots : Nat := 4080

inductive NodeKind
  | directory
  | file
  | fileData
  | fileIndex
  deriving DecidableEq, Repr

structure DirEntry where
  name : String
  slot : Nat
  kind : NodeKind
  deriving DecidableEq

structure DirectoryBlock where
  kind : NodeKind
  entries : List DirEntry
  deriving DecidableEq

/-- Head slot of a file: metadata, the ordered continuation-slot ids, and chunk 0 inline. -/
structure FileBlock where
  kind : NodeKind
  totalSize : Nat
  dataSlots : List Nat
  indexChain : Option Nat
  data : List UInt8
  deriving DecidableEq

/-- Continuation chunk. -/
structure FileDataBlock where
  kind : NodeKind
  data : List UInt8
  deriving DecidableEq

/-- Overflow index: further slot ids and the next index block. -/
structure FileIndexBlock where
  kind : NodeKind
  slotIds : List Nat
  nextIndex : Option Nat
  deriving DecidableEq

inductive VaultNode
  | directory (d : DirectoryBlock)
  | file (f : FileBlock)
  | fileData (d : FileDataBlock)
  | fileIndex (f : FileIndexBlock)
  deriving DecidableEq

/-! ## Serialization -/

def utf8 (s : String) : List UInt8 := s.toUTF8.data.toList

def ofUtf8 (bytes : List UInt8) : Option String := String.fromUTF8? ⟨bytes.toArray⟩

/-- A named value in front of further fields. -/
def field (name : String) (v : Value) (tail : Fields) : Fields := .cons (utf8 name) v tail

def NodeKind.name : NodeKind → String
  | .directory => "directory"
  | .file => "file"
  | .fileData => "file_data"
  | .fileIndex => "file_index"

def NodeKind.toValue (k : NodeKind) : Value := .str (utf8 k.name)

def uints : List Nat → Values
  | [] => .nil
  | n :: ns => .cons (.uint n) (uints ns)

def optUint : Option Nat → Value
  | none => .nil
  | some n => .uint n

def DirEntry.toValue (e : DirEntry) : Value :=
  .map (field "name" (.str (utf8 e.name)) (field "slot" (.uint e.slot)
    (field "kind" e.kind.toValue .nil)))

def entriesToValues : List DirEntry → Values
  | [] => .nil
  | e :: es => .cons e.toValue (entriesToValues es)

def DirectoryBlock.toValue (d : DirectoryBlock) : Value :=
  .map (field "kind" d.kind.toValue (field "entries" (.array (entriesToValues d.entries)) .nil))

def FileBlock.toValue (f : FileBlock) : Value :=
  .map (field "kind" f.kind.toValue (field "total_size" (.uint f.totalSize)
    (field "data_slots" (.array (uints f.dataSlots))
      (field "index_chain" (optUint f.indexChain) (field "data" (.bin f.data) .nil)))))

def FileDataBlock.toValue (d : FileDataBlock) : Value :=
  .map (field "kind" d.kind.toValue (field "data" (.bin d.data) .nil))

def FileIndexBlock.toValue (f : FileIndexBlock) : Value :=
  .map (field "kind" f.kind.toValue (field "slot_ids" (.array (uints f.slotIds))
    (field "next_index" (optUint f.nextIndex) .nil)))

def VaultNode.toValue : VaultNode → Value
  | .directory d => .map (field "Directory" d.toValue .nil)
  | .file f => .map (field "File" f.toValue .nil)
  | .fileData d => .map (field "FileData" d.toValue .nil)
  | .fileIndex f => .map (field "FileIndex" f.toValue .nil)

/-- `rmp_serde::to_vec_named`.  It fails on a number outside `u64`, which no field of
    the source's types can hold. -/
def toVecNamed (n : VaultNode) : Option (List UInt8) :=
  if n.toValue.valid then some n.toValue.encode else none

/-! ## Deserialization -/

def getStr : Value → Option (List UInt8)
  | .str s => some s
  | _ => none

def getUint : Value → Option Nat
  | .uint n => some n
  | _ => none

def getBin : Value → Option (List UInt8)
  | .bin b => some b
  | _ => none

def getArray : Value → Option Values
  | .array vs => some vs
  | _ => none

def getMap : Value → Option Fields
  | .map fs => some fs
  | _ => none

def getUints : Values → Option (List Nat)
  | .nil => some []
  | .cons v vs => do
    let n ← getUint v
    let ns ← getUints vs
    some (n :: ns)

def getOptUint : Value → Option (Option Nat)
  | .nil => some none
  | .uint n => some (some n)
  | _ => none

def NodeKind.ofValue (v : Value) : Option NodeKind := do
  let s ← getStr v
  [NodeKind.directory, .file, .fileData, .fileIndex].find? (fun k => utf8 k.name = s)

/-- The elements of an array as the fields of a struct. -/
def nameFields : List String → Values → Option Fields
  | [], .nil => some .nil
  | name :: names, .cons v vs => (nameFields names vs).map (field name v)
  | _, _ => none

/-- The fields of a struct, by name or as an array in the order of the declaration. -/
def getFields (names : List String) : Value → Option Fields
  | .map fs => some fs
  | .array vs => nameFields names vs
  | _ => none

/-- The value of a struct's field, which must be there once. -/
def getField (fs : Fields) (name : String) : Option Value :=
  match fs.lookup (utf8 name) with
  | [v] => some v
  | _ => none

/-- The value of an `Option` field, which may be left out. -/
def getOptField (fs : Fields) (name : String) : Option (Option Nat) :=
  match fs.lookup (utf8 name) with
  | [] => some none
  | [v] => getOptUint v
  | _ => none

def DirEntry.ofValue (v : Value) : Option DirEntry := do
  let fs ← getFields ["name", "slot", "kind"] v
  let name ← (← getStr (← getField fs "name")) |> ofUtf8
  let slot ← getUint (← getField fs "slot")
  let kind ← NodeKind.ofValue (← getField fs "kind")
  some { name, slot, kind }

def getEntries : Values → Option (List DirEntry)
  | .nil => some []
  | .cons v vs => do
    let e ← DirEntry.ofValue v
    let es ← getEntries vs
    some (e :: es)

def DirectoryBlock.ofValue (v : Value) : Option DirectoryBlock := do
  let fs ← getFields ["kind", "entries"] v
  let kind ← NodeKind.ofValue (← getField fs "kind")
  let entries ← getEntries (← getArray (← getField fs "entries"))
  some { kind, entries }

def FileBlock.ofValue (v : Value) : Option FileBlock := do
  let fs ← getFields ["kind", "total_size", "data_slots", "index_chain", "data"] v
  let kind ← NodeKind.ofValue (← getField fs "kind")
  let totalSize ← getUint (← getField fs "total_size")
  let dataSlots ← getUints (← getArray (← getField fs "data_slots"))
  let indexChain ← getOptField fs "index_chain"
  let data ← getBin (← getField fs "data")
  some { kind, totalSize, dataSlots, indexChain, data }

def FileDataBlock.ofValue (v : Value) : Option FileDataBlock := do
  let fs ← getFields ["kind", "data"] v
  let kind ← NodeKind.ofValue (← getField fs "kind")
  let data ← getBin (← getField fs "data")
  some { kind, data }

def FileIndexBlock.ofValue (v : Value) : Option FileIndexBlock := do
  let fs ← getFields ["kind", "slot_ids", "next_index"] v
  let kind ← NodeKind.ofValue (← getField fs "kind")
  let slotIds ← getUints (← getArray (← getField fs "slot_ids"))
  let nextIndex ← getOptField fs "next_index"
  some { kind, slotIds, nextIndex }

def VaultNode.ofValue (v : Value) : Option VaultNode := do
  match ← getMap v with
  | .cons variant content .nil =>
    if variant = utf8 "Directory" then (DirectoryBlock.ofValue content).map .directory
    else if variant = utf8 "File" then (FileBlock.ofValue content).map .file
    else if variant = utf8 "FileData" then (FileDataBlock.ofValue content).map .fileData
    else if variant = utf8 "FileIndex" then (FileIndexBlock.ofValue content).map .fileIndex
    else none
  | _ => none

/-- `rmp_serde::from_slice`, for the types as a serializer writes them: numbers unsigned, names
    as strings and bytes as binary, variants by name. -/
def fromSlice (bytes : List UInt8) : Option VaultNode :=
  MessagePack.fromSlice bytes >>= VaultNode.ofValue

/-! ## Round trip -/

@[simp] theorem utf8_inj {s t : String} : utf8 s = utf8 t ↔ s = t := by
  simp only [utf8, String.toUTF8_eq_toByteArray, Array.toList_inj]
  rw [← String.toByteArray_inj, ByteArray.ext_iff]

@[simp] theorem ofUtf8_utf8 (s : String) : ofUtf8 (utf8 s) = some s := by
  have hbytes : (⟨(utf8 s).toArray⟩ : ByteArray) = s.toByteArray := by simp [utf8]
  rw [ofUtf8, hbytes, String.fromUTF8?, dif_pos s.isValidUTF8]
  rfl

@[simp] theorem lookup_field (name name' : String) (v : Value) (tail : Fields) :
    (field name v tail).lookup (utf8 name') =
      if name = name' then v :: tail.lookup (utf8 name') else tail.lookup (utf8 name') := by
  simp [field, Fields.lookup]

@[simp] theorem getUints_uints (ns : List Nat) : getUints (uints ns) = some ns := by
  induction ns with
  | nil => rfl
  | cons n ns ih => simp [uints, getUints, getUint, ih]

@[simp] theorem getOptUint_optUint (o : Option Nat) : getOptUint (optUint o) = some o := by
  cases o <;> rfl

@[simp] theorem NodeKind.ofValue_toValue (k : NodeKind) : NodeKind.ofValue k.toValue = some k := by
  cases k <;> simp [ofValue, toValue, getStr, NodeKind.name]

@[simp] theorem DirEntry.ofValue_toValue (e : DirEntry) : DirEntry.ofValue e.toValue = some e := by
  simp [ofValue, toValue, getFields, getField, getStr, getUint]

@[simp] theorem getEntries_entriesToValues (es : List DirEntry) :
    getEntries (entriesToValues es) = some es := by
  induction es with
  | nil => rfl
  | cons e es ih => simp [entriesToValues, getEntries, ih]

@[simp] theorem DirectoryBlock.ofValue_toValue (d : DirectoryBlock) :
    DirectoryBlock.ofValue d.toValue = some d := by
  simp [ofValue, toValue, getFields, getField, getArray]

@[simp] theorem FileBlock.ofValue_toValue (f : FileBlock) :
    FileBlock.ofValue f.toValue = some f := by
  simp [ofValue, toValue, getFields, getField, getOptField, getArray, getUint, getBin]

@[simp] theorem FileDataBlock.ofValue_toValue (d : FileDataBlock) :
    FileDataBlock.ofValue d.toValue = some d := by
  simp [ofValue, toValue, getFields, getField, getBin]

@[simp] theorem FileIndexBlock.ofValue_toValue (f : FileIndexBlock) :
    FileIndexBlock.ofValue f.toValue = some f := by
  simp [ofValue, toValue, getFields, getField, getOptField, getArray]

theorem VaultNode.ofValue_toValue (n : VaultNode) : VaultNode.ofValue n.toValue = some n := by
  cases n <;> simp [ofValue, toValue, getMap, field]

/-- Decoding inverts encoding. -/
theorem fromSlice_toVecNamed {n : VaultNode} {bytes : List UInt8} (h : toVecNamed n = some bytes) :
    fromSlice bytes = some n := by
  unfold toVecNamed at h
  split at h
  next hv =>
    cases h
    rw [fromSlice, MessagePack.fromSlice_encode _ hv]
    exact n.ofValue_toValue
  next => contradiction

/-! ## Sizes -/

/-- The number of bytes of a node's encoding. -/
def encodedLen (n : VaultNode) : Nat := n.toValue.size

theorem length_toVecNamed {n : VaultNode} {bytes : List UInt8} (h : toVecNamed n = some bytes) :
    bytes.length = encodedLen n := by
  unfold toVecNamed at h
  split at h
  · cases h; exact n.toValue.length_encode
  · contradiction

end Venom.Storage
