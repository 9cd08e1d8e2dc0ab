import Venom.Storage.NodeStore
import Venom.Library.HashMap
import Venom.Library.Chunks
import Mathlib.Data.List.ReduceOption

/-! # Open files

The per-handle half of the FUSE driver: the chunk cache in front of a file's slots,
and the flush that writes it back.  A handle keeps its own copy of the file's size,
slot ids and index chain; `Handle` pairs it with the container, the state every
function here runs on.  The traversal orders of the hash containers are arguments.
-/

namespace Venom.Fuse

open Venom.Storage
open Venom.Library
open Venom.Library.Chunks (patch rchunks)

/-- Max number of decoded chunks kept in memory per open file handle. -/
def maxCacheChunks : Nat := 256

/-- Dirty continuation chunks above this number are written through. -/
def writeThroughThreshold : Nat := maxCacheChunks / 2

structure OpenFile where
  ino : Nat
  headSlot : Nat
  totalSize : Nat
  /-- Current index-chain pointer. -/
  indexChain : Option Nat
  /-- Physical slot of each chunk; chunk 0 is inline in the head slot. -/
  slotMap : List (Option Nat)
  /-- Decoded chunk bytes. -/
  cache : HashMap Nat (List UInt8)
  /-- Chunk indices that need to be written back. -/
  dirty : HashSet Nat
  /-- True when the size, the slot map or the index chain changed. -/
  metaDirty : Bool

structure Handle (σ : Type) where
  container : σ
  file : OpenFile

abbrev StoreM (σ : Type) := EStateM Failure σ

abbrev HandleM (σ : Type) := EStateM Failure (Handle σ)

def eio : Failure := .errno .eio

variable {σ : Type} [NodeStore σ]

/-! ## Container calls -/

def readNode (s : Nat) : StoreM σ VaultNode := fun c =>
  match NodeStore.readNode s c with
  | .ok n => .ok n c
  | .error _ => .error eio c

def writeNode (n : VaultNode) : StoreM σ Nat := (NodeStore.writeNode n).adaptExcept fun _ => eio

def updateNode (s : Nat) (n : VaultNode) : StoreM σ Unit :=
  (NodeStore.updateNode s n).adaptExcept fun _ => eio

def freeNode (s : Nat) : StoreM σ Unit := modify (NodeStore.freeNode s)

/-- Run a container call behind a handle. -/
def onContainer {α : Type} (x : StoreM σ α) : HandleM σ α := fun h =>
  match x.run h.container with
  | .ok a c => .ok a { h with container := c }
  | .error e c => .error e { h with container := c }

def modifyFile (f : OpenFile → OpenFile) : HandleM σ Unit :=
  modify fun h => { h with file := f h.file }

/-! ## The index chain -/

/-- The ids listed along an index chain. -/
def collectIndex : Nat → Option Nat → StoreM σ (List Nat)
  | _, none => pure []
  | 0, some _ => throw .diverges
  | fuel + 1, some idxSlot => do
    match ← readNode idxSlot with
    | .fileIndex fi => do
      let rest ← collectIndex fuel fi.nextIndex
      pure (fi.slotIds ++ rest)
    | _ => throw eio

/-- A chain longer than the volume has slots never ends. -/
def chainFuel (c : σ) : Nat := NodeStore.slotCount c + 1

/-- Read the head slot and the index chain: size, chain pointer and slot map. -/
def buildSlotMap (headSlot : Nat) : StoreM σ (Nat × Option Nat × List (Option Nat)) := do
  match ← readNode headSlot with
  | .file fb => do
    let c ← get
    let ids ← collectIndex (chainFuel c) fb.indexChain
    pure (fb.totalSize, fb.indexChain, none :: (fb.dataSlots ++ ids).map some)
  | _ => throw (.errno .eisdir)

/-- Free the slots of a chain, each after its link has been read. -/
def freeChainFrom : Nat → Option Nat → StoreM σ Unit
  | _, none => pure ()
  | 0, some _ => throw .diverges
  | fuel + 1, some slot => do
    let c ← get
    match NodeStore.readNode slot c with
    | .ok (.fileIndex fi) => do
      freeNode slot
      freeChainFrom fuel fi.nextIndex
    | _ => freeNode slot

def freeIndexChain (first : Option Nat) : StoreM σ Unit := do
  let c ← get
  freeChainFrom (chainFuel c) first

def indexNode (ids : List Nat) (next : Option Nat) : VaultNode :=
  .fileIndex { kind := .fileIndex, slotIds := ids, nextIndex := next }

/-- Write the index blocks for the given pieces, each linking to the one before. -/
def writeChainFrom : List (List Nat) → Option Nat → StoreM σ (Option Nat)
  | [], next => pure next
  | piece :: pieces, next => do
    let slot ← writeNode (indexNode piece next)
    writeChainFrom pieces (some slot)

def writeIndexChain (ids : List Nat) : StoreM σ (Option Nat) :=
  if ids.isEmpty then pure none else writeChainFrom (rchunks maxIndexSlots ids) none

/-! ## The chunk cache -/

/-- Expected byte count for chunk `ci` of a file of `totalSize` bytes. -/
def chunkActualSize (ci totalSize : Nat) : Option Nat :=
  if ci * chunkSize ≥ totalSize then none else some (min (totalSize - ci * chunkSize) chunkSize)

/-- The number of chunks of a file. -/
def chunkCount (totalSize : Nat) : Nat :=
  if totalSize = 0 then 0 else (totalSize + chunkSize - 1) / chunkSize

/-- The bytes of a chunk on disk; nothing for an unallocated new chunk. -/
def loadChunk (ci : Nat) : HandleM σ (List UInt8) := do
  let h ← get
  match h.file.slotMap[ci]? with
  | some (some slotId) => do
    match ← onContainer (readNode slotId) with
    | .file fb => if ci = 0 then pure fb.data else throw eio
    | .fileData d => pure d.data
    | _ => throw eio
  | some none =>
    if ci = 0 then do
      match ← onContainer (readNode h.file.headSlot) with
      | .file fb => pure fb.data
      | _ => throw eio
    else pure []
  | none => throw eio

/-- Drop a clean chunk when the cache is full; if all are dirty, drop nothing. -/
def evict (ord : IterOrder Nat) (f : OpenFile) : OpenFile :=
  if f.cache.len ≥ maxCacheChunks then
    match (ord.order f.cache.keys).find? (fun k => decide (k ∉ f.dirty)) with
    | some k => { f with cache := f.cache.remove k }
    | none => f
  else f

def cacheInsert (ci : Nat) (data : List UInt8) (f : OpenFile) : OpenFile :=
  { f with cache := f.cache.insert ci data }

/-- Ensure chunk `ci` is in the cache. -/
def ensureCached (ord : IterOrder Nat) (ci : Nat) : HandleM σ Unit := do
  let h ← get
  if h.file.cache.containsKey ci then pure ()
  else do
    let data ← loadChunk ci
    modifyFile fun f => cacheInsert ci data (evict ord f)

/-! ## Reading -/

/-- Copy chunk pieces from `pos` to `stop`; a chunk shorter than asked ends the read. -/
def readLoop (ord : IterOrder Nat) (stop pos : Nat) (acc : List UInt8) :
    HandleM σ (List UInt8) :=
  if pos < stop then do
    ensureCached ord (pos / chunkSize)
    let h ← get
    match h.file.cache.get (pos / chunkSize) with
    | none => throw eio
    | some data =>
      let off := pos % chunkSize
      let take := min (data.length - off) (stop - pos)
      if take = 0 then pure acc
      else readLoop ord stop (pos + take) (acc ++ (data.drop off).take take)
  else pure acc
termination_by stop - pos

def readHandle (ord : IterOrder Nat) (offset size : Nat) : HandleM σ (List UInt8) := do
  let h ← get
  let total := h.file.totalSize
  if offset ≥ total then pure []
  else readLoop ord (min (offset + size) total) offset []

/-! ## Writing back -/

def dataNode (data : List UInt8) : VaultNode := .fileData { kind := .fileData, data }

def assignSlot (ci slot : Nat) (f : OpenFile) : OpenFile :=
  { f with slotMap := f.slotMap.set ci (some slot), metaDirty := true }

/-- Write a cached continuation chunk to its slot, or to a new one. -/
def storeChunk (ci : Nat) : HandleM σ Unit := do
  let h ← get
  match h.file.cache.get ci with
  | none => pure ()
  | some data =>
    match h.file.slotMap[ci]? with
    | some (some slotId) => onContainer (updateNode slotId (dataNode data))
    | some none => do
      let newSlot ← onContainer (writeNode (dataNode data))
      modifyFile (assignSlot ci newSlot)
    | none => pure ()

def dropChunk (ci : Nat) (f : OpenFile) : OpenFile :=
  { f with dirty := f.dirty.remove ci, cache := f.cache.remove ci }

/-- One chunk of a write-through: stored, then no longer dirty nor cached. -/
def writeThroughChunk (ci : Nat) : HandleM σ Unit := do
  let h ← get
  if h.file.cache.containsKey ci ∧ ci < h.file.slotMap.length then do
    storeChunk ci
    modifyFile (dropChunk ci)
  else pure ()

/-- Write the `n` lowest-index dirty continuation chunks to disk. -/
def writeThroughFlush (ord : IterOrder Nat) (n : Nat) : HandleM σ Unit := do
  let h ← get
  let toFlush := (((ord.order h.file.dirty.elems).filter (1 ≤ ·)).mergeSort (· ≤ ·)).take n
  toFlush.forM writeThroughChunk

/-- Step 1 of a flush: write the dirty continuation chunks. -/
def storeDirtyChunks (ord : IterOrder Nat) : HandleM σ Unit := do
  let h ← get
  ((ord.order h.file.dirty.elems).filter (1 ≤ ·)).forM storeChunk

def freeIfSome (opt : Option Nat) : StoreM σ Unit :=
  match opt with
  | some slotId => freeNode slotId
  | none => pure ()

def keepSlots (keep : Nat) (f : OpenFile) : OpenFile :=
  { f with slotMap := f.slotMap.take keep, metaDirty := true }

/-- Step 2: free the slots past the end of a truncated file. -/
def freeExcessSlots (keep : Nat) : HandleM σ Unit := do
  let h ← get
  if keep < h.file.slotMap.length then do
    onContainer ((h.file.slotMap.drop keep).forM freeIfSome)
    modifyFile (keepSlots keep)
  else pure ()

/-- The inline bytes of the head: the cached chunk 0 cut to size, or what is on disk. -/
def headChunk : HandleM σ (List UInt8) := do
  let h ← get
  match h.file.cache.get 0 with
  | some d =>
    match chunkActualSize 0 h.file.totalSize with
    | some sz => pure (d.take sz)
    | none => pure d
  | none =>
    match ← onContainer (readNode h.file.headSlot) with
    | .file fb => pure fb.data
    | _ => throw eio

/-- The allocated continuation slots, in chunk order. -/
def continuationSlots (nChunks : Nat) (slotMap : List (Option Nat)) : List Nat :=
  ((slotMap.take (min (max nChunks 1) slotMap.length)).drop 1).reduceOption

/-- Split the ids between the head and the index chain. -/
def placeIds (ids : List Nat) : StoreM σ (List Nat × Option Nat) :=
  if ids.length ≤ maxDirectSlots then pure (ids, none)
  else do
    let chain ← writeIndexChain (ids.drop maxDirectSlots)
    pure (ids.take maxDirectSlots, chain)

def headNode (totalSize : Nat) (dataSlots : List Nat) (indexChain : Option Nat)
    (data : List UInt8) : VaultNode :=
  .file { kind := .file, totalSize, dataSlots, indexChain, data }

/-- Step 3: rebuild the index chain and the head. -/
def rewriteHead : HandleM σ Unit := do
  let chunk0 ← headChunk
  let h ← get
  let allCont := continuationSlots (chunkCount h.file.totalSize) h.file.slotMap
  onContainer (freeIndexChain h.file.indexChain)
  let (dataSlots, newChain) ← onContainer (placeIds allCont)
  modifyFile fun f => { f with indexChain := newChain }
  onContainer (updateNode h.file.headSlot (headNode h.file.totalSize dataSlots newChain chunk0))

def markClean (f : OpenFile) : OpenFile := { f with dirty := .empty, metaDirty := false }

def flushHandle (ord : IterOrder Nat) : HandleM σ Unit := do
  let h ← get
  if h.file.dirty.isEmpty ∧ h.file.metaDirty = false then pure ()
  else do
    storeDirtyChunks ord
    freeExcessSlots (max (chunkCount h.file.totalSize) 1)
    let h ← get
    if h.file.metaDirty = true ∨ 0 ∈ h.file.dirty then rewriteHead else pure ()
    modifyFile markClean

/-! ## Writing -/

/-- The slot map extended to cover chunk `ci`. -/
def extendSlotMap (ci : Nat) (f : OpenFile) : OpenFile :=
  if f.slotMap.length ≤ ci then
    { f with slotMap := f.slotMap ++ List.replicate (ci + 1 - f.slotMap.length) none,
             metaDirty := true }
  else f

/-- Bring chunk `ci` into the cache for writing; a brand-new chunk starts as zeros. -/
def loadForWrite (ord : IterOrder Nat) (ci : Nat) : HandleM σ Unit := do
  let h ← get
  if h.file.cache.containsKey ci then pure ()
  else if h.file.slotMap[ci]?.join.isSome ∨ ci = 0 then ensureCached ord ci
  else modifyFile (cacheInsert ci (List.replicate chunkSize 0))

/-- A cached chunk overwritten from `coff` on, the handle marked dirty. -/
def patchChunk (ci coff stop : Nat) (chunk piece : List UInt8) (f : OpenFile) : OpenFile :=
  { f with
    cache := f.cache.insert ci (patch 0 chunk coff piece)
    dirty := f.dirty.insert ci
    totalSize := max stop f.totalSize
    metaDirty := f.metaDirty || decide (max stop f.totalSize ≠ f.totalSize) }

/-- The bytes of a write that fall into the chunk of `pos`. -/
def pieceLen (stop pos : Nat) : Nat := min (chunkSize - pos % chunkSize) (stop - pos)

def writePiece (ord : IterOrder Nat) (stop pos : Nat) (piece : List UInt8) : HandleM σ Unit := do
  let ci := pos / chunkSize
  modifyFile (extendSlotMap ci)
  loadForWrite ord ci
  let h ← get
  match h.file.cache.get ci with
  | none => throw eio
  | some chunk => modifyFile (patchChunk ci (pos % chunkSize) stop chunk piece)

def writeLoop (ord : IterOrder Nat) (offset : Nat) (data : List UInt8) (pos : Nat) :
    HandleM σ Unit :=
  if pos < offset + data.length then do
    let take := pieceLen (offset + data.length) pos
    writePiece ord (offset + data.length) pos ((data.drop (pos - offset)).take take)
    writeLoop ord offset data (pos + take)
  else pure ()
termination_by offset + data.length - pos
decreasing_by
  have : pos % chunkSize < chunkSize := Nat.mod_lt _ (by decide)
  unfold pieceLen; omega

def dirtyContinuations (f : OpenFile) : Nat := (f.dirty.elems.filter (1 ≤ ·)).length

def writeHandle (ord : IterOrder Nat) (offset : Nat) (data : List UInt8) : HandleM σ Nat := do
  writeLoop ord offset data offset
  let h ← get
  let dirtyCont := dirtyContinuations h.file
  if writeThroughThreshold < dirtyCont then do
    writeThroughFlush ord (dirtyCont - writeThroughThreshold / 2)
    pure (data.length % 2 ^ 32)
  else pure (data.length % 2 ^ 32)

/-! ## Resizing -/

/-- Truncation in memory: forget the chunks past the end and cut the last one. -/
def truncateFile (newSize : Nat) (f : OpenFile) : OpenFile :=
  let lastCi := if newSize = 0 then 0 else (newSize - 1) / chunkSize
  let lastSz := if newSize = 0 then 0 else (chunkActualSize lastCi newSize).getD 0
  let cache := f.cache.retain (fun k _ => decide (k ≤ lastCi))
  let dirty := f.dirty.retain (fun k => decide (k ≤ lastCi))
  { f with
    cache := match cache.get lastCi with
      | some v => cache.insert lastCi (v.take lastSz)
      | none => cache
    dirty := if 0 < newSize then dirty.insert lastCi else dirty }

def resizeFile (newSize : Nat) (f : OpenFile) : OpenFile :=
  if newSize = f.totalSize then f
  else
    let f' := if newSize < f.totalSize then truncateFile newSize f else f
    { f' with totalSize := newSize, metaDirty := true }

end Venom.Fuse
