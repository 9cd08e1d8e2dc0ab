import Venom.Crypto.Cipher
import Venom.Library.MerkleTree
import Venom.Storage.NodeStore
import Venom.Library.Bitmap
import Mathlib.Data.List.Sort

/-! # The slot store

A volume is a range of slots of the container file, one of them its allocation block.
The free list lives in memory; `saveFreeList` writes it to the allocation block as a
bitmap, together with the generation and the cached Merkle root, and `loadFreeList`
reads it back.

An allocation block with a generation is: the number of slots, the generation, the
Merkle root and the bitmap; a legacy one only the number of slots and the bitmap.
-/

namespace Venom.Storage

open Venom.Container (CipherAlgorithm slotSize dataAreaOffset)
open Venom.Crypto
open Venom.Library
open Venom.Library.Words
open Venom.Library.StateError

variable (P : Primitives)

/-! ## The Merkle root of the used slots

Over the raw bytes of the slots, in ascending order; no decryption.
-/

def leafCtx : String := "venom:merkle:leaf:v1"

def nodeCtx : String := "venom:merkle:node:v1"

def slotOffset (slot : Nat) : Nat := dataAreaOffset + slot * slotSize

/-- The root of no slot. -/
def zeroRoot : Key := ⟨List.replicate 32 0, rfl⟩

def leafHash (slot : Nat) (raw : List UInt8) : Key :=
  P.blake3DeriveKey leafCtx (littleEndian 8 slot ++ raw)

def nodeHash (left right : Key) : Key := P.blake3DeriveKey nodeCtx (left.toList ++ right.toList)

/-- The leaves of the tree, each read from the file. -/
def merkleLeaves (w : World) : List Nat → Except VnmError (List Key)
  | [] => .ok []
  | slot :: slots => do
    let raw ← w.read (slotOffset slot) slotSize
    let leaves ← merkleLeaves w slots
    .ok (leafHash P slot raw :: leaves)

def computeMerkleRoot (w : World) (usedSlots : List Nat) : Except VnmError Key :=
  if usedSlots.isEmpty then .ok zeroRoot
  else do
    let leaves ← merkleLeaves P w usedSlots
    .ok ((MerkleTree.climb (nodeHash P) leaves).headD zeroRoot)

/-! ## The store -/

/-- Byte size of the count, generation and Merkle prefix of an allocation block. -/
def allocHeaderLen : Nat := 8 + 8 + 32

structure SlotStore where
  masterKey : Key
  cipher : CipherAlgorithm
  slotStart : Nat
  slotLimit : Nat
  allocSlot : Nat
  free : List Nat
  generation : Nat
  hasGeneration : Bool
  /-- Included in the allocation block by `saveFreeList`. -/
  cachedMerkleRoot : Key
  /-- Set whenever a slot is written or wiped. -/
  merkleDirty : Bool

/-- A store on its file. -/
structure OpenStore where
  store : SlotStore
  world : World

abbrev SlotM := EStateM VnmError OpenStore

/-- Run a computation on the file. -/
def onWorld {ε α : Type} (x : EStateM ε World α) : EStateM ε OpenStore α := fun s =>
  match x.run s.world with
  | .ok a w => .ok a { s with world := w }
  | .error e w => .error e { s with world := w }

def modifyStore {ε : Type} (f : SlotStore → SlotStore) : EStateM ε OpenStore Unit :=
  modify fun s => { s with store := f s.store }

namespace SlotStore

def new (masterKey : Key) (cipher : CipherAlgorithm) (slotStart slotLimit allocSlot : Nat)
    (hasGeneration : Bool) : SlotStore where
  masterKey
  cipher
  slotStart
  slotLimit
  allocSlot
  free := []
  generation := 0
  hasGeneration
  cachedMerkleRoot := zeroRoot
  merkleDirty := false

/-! ## Slot I/O -/

/-- Derive a slot-specific key from the master key and the slot index. -/
def deriveSlotKey (st : SlotStore) (slot : Nat) : Key :=
  P.blake3DeriveKey "venom:slot:v1" (st.masterKey.toList ++ littleEndian 8 slot)

/-- A slot's bytes: the length of the sealed block, the block, zeros. -/
def slotBytes (encrypted : List UInt8) : List UInt8 :=
  padTo slotSize (littleEndian 4 encrypted.length ++ encrypted)

/-- Encrypt `plaintext` and write it to `slot`. -/
def write (slot : Nat) (plaintext : List UInt8) : SlotM Unit := do
  let s ← get
  let encrypted ← onWorld (encryptBlock P (s.store.deriveSlotKey P slot) s.store.cipher
    (littleEndian 8 slot) plaintext)
  if encrypted.length + 4 > slotSize then
    throw (.serialization "plaintext too large for one slot")
  else do
    onWorld (writeBytesAt (slotOffset slot) (slotBytes encrypted))
    modifyStore fun st => { st with merkleDirty := true }

/-- Decrypt a slot's bytes. -/
def openSlot (st : SlotStore) (slot : Nat) (buf : List UInt8) : Except VnmError (List UInt8) :=
  let len := ofLittleEndian (buf.take 4)
  if len < 36 ∨ 4 + len > slotSize then .error (.corruptedSlot slot "invalid length prefix")
  else
    match decryptBlock P (st.deriveSlotKey P slot) st.cipher (littleEndian 8 slot) (sub buf 4 len) with
    | .ok data => .ok data
    | .error _ => .error (.corruptedSlot slot "authentication failed")

/-- Read and decrypt `slot`. -/
def read (st : SlotStore) (w : World) (slot : Nat) : Except VnmError (List UInt8) := do
  let buf ← w.read (slotOffset slot) slotSize
  st.openSlot P slot buf

/-- Overwrite `slot` with random bytes. -/
def wipe (slot : Nat) : SlotM Unit := do
  let buf ← onWorld (fillBytes slotSize)
  onWorld (writeBytesAt (slotOffset slot) buf.toList)
  modifyStore fun st => { st with merkleDirty := true }

/-! ## Allocation -/

def alloc : SlotM Nat := do
  let s ← get
  match s.store.free.getLast? with
  | none => throw .noSpaceLeft
  | some slot => do
    modifyStore fun st => { st with free := st.free.dropLast }
    pure slot

/-- Wipe a slot, whatever comes of it, and put it back in the free list. -/
def freeSlot (slot : Nat) (s : OpenStore) : OpenStore :=
  let s := after (wipe slot) s
  { s with store := { s.store with free := insertFree slot s.store.free } }

/-! ## Merkle helpers -/

/-- The used data slots in ascending order, without the allocation slot. -/
def usedSlots (st : SlotStore) : List Nat :=
  (List.range' st.slotStart (st.slotLimit - st.slotStart)).filter fun s =>
    s ≠ st.allocSlot ∧ s ∉ st.free

/-- Compute the Merkle root of the used slots and cache it. -/
def updateMerkleRoot : SlotM Unit := do
  let s ← get
  let root ← orThrow (computeMerkleRoot P s.world s.store.usedSlots)
  modifyStore fun st => { st with cachedMerkleRoot := root, merkleDirty := false }

/-! ## Free list persistence -/

/-- `sort_unstable_by(|a, b| b.cmp(a))`. -/
def descending (l : List Nat) : List Nat := l.mergeSort fun a b => decide (b ≤ a)

/-- The free slots of a bitmap of `n` slots. -/
def freeOfBitmap (slotStart n : Nat) (bitmap : List UInt8) : List Nat :=
  descending (((List.range n).filter fun i => Bitmap.getBit i bitmap).map fun i => slotStart + i)

/-- The plaintext of an allocation block. -/
structure AllocBlock where
  count : Nat
  generation : Nat
  merkleRoot : Key
  bitmap : List UInt8

def parseAllocBlock (hasGeneration : Bool) (data : List UInt8) : AllocBlock where
  count := ofLittleEndian (sub data 0 8)
  generation := if hasGeneration then ofLittleEndian (sub data 8 8) else 0
  merkleRoot := if hasGeneration then toBytes 32 (sub data 16 32) else zeroRoot
  bitmap := if hasGeneration then data.drop 48 else data.drop 8

/-- Every slot but the allocation slot is free. -/
def rebuildFreeList (st : SlotStore) : SlotStore :=
  { st with
    free := descending ((List.range' st.slotStart (st.slotLimit - st.slotStart)).filter fun s =>
      s ≠ st.allocSlot) }

/-- Take over what an allocation block says. -/
def adopt (st : SlotStore) (b : AllocBlock) : SlotStore :=
  { st with
    generation := b.generation
    cachedMerkleRoot := b.merkleRoot
    free := freeOfBitmap st.slotStart b.count b.bitmap }

/-- Load the allocation state; verify the Merkle root if one was stored. -/
def loadFreeList (st : SlotStore) (w : World) : Except VnmError SlotStore :=
  let minLen := if st.hasGeneration then allocHeaderLen else 8
  match st.read P w st.allocSlot with
  | .ok data =>
    if minLen ≤ data.length then
      let b := parseAllocBlock st.hasGeneration data
      let st := st.adopt b
      if st.hasGeneration ∧ b.merkleRoot ≠ zeroRoot then do
        let computed ← computeMerkleRoot P w st.usedSlots
        if computed ≠ b.merkleRoot then .error .merkleIntegrityFailure else .ok st
      else .ok st
    else .ok st.rebuildFreeList
  | .error _ => .ok st.rebuildFreeList

/-- The bitmap of the free list.  A slot outside of the volume is an index out of range. -/
def freeBitmap (st : SlotStore) : Option (List UInt8) :=
  st.free.foldlM (fun bitmap slot =>
    if st.slotStart ≤ slot then Bitmap.setBit (slot - st.slotStart) bitmap else none)
    (Bitmap.zeros (st.slotLimit - st.slotStart))

/-- The plaintext `saveFreeList` writes. -/
def allocData (st : SlotStore) (bitmap : List UInt8) : List UInt8 :=
  littleEndian 8 (st.slotLimit - st.slotStart) ++
    (if st.hasGeneration then littleEndian 8 st.generation ++ st.cachedMerkleRoot.toList else []) ++
    bitmap

/-- Persist the free list, the generation counter and the cached Merkle root. -/
def saveFreeList : EStateM Fault OpenStore Unit := do
  let s ← get
  match s.store.freeBitmap with
  | none => throw (.panic "index out of bounds")
  | some bitmap => do
    modifyStore fun st =>
      { st with generation :=
          if st.hasGeneration then (st.generation + 1) % 2 ^ 64 else st.generation }
    let s ← get
    fallible (write P s.store.allocSlot (s.store.allocData bitmap))

end SlotStore

end Venom.Storage
