import Venom.Fuse.Handle

/-! # The FUSE driver

`VenomFuse` is the mounted file system: the container, the inode numbers handed out to
the kernel and the open files.  The operations are the driver's `op_*` methods, written
in the source's order; each is a computation on the whole driver that ends in a result
or an error code and keeps the changes made before an error.
-/

namespace Venom.Fuse

open Venom.Storage
open Venom.Library

/-! ## Inodes -/

def rootIno : Nat := 1

structure InodeMap where
  slotToIno : HashMap Nat Nat
  inoToSlot : HashMap Nat Nat
  nextIno : Nat

namespace InodeMap

def new (rootSlot : Nat) : InodeMap :=
  { slotToIno := HashMap.empty.insert rootSlot rootIno
    inoToSlot := HashMap.empty.insert rootIno rootSlot
    nextIno := 2 }

/-- The inode of a slot, handed out on first sight.  The numbers count up modulo 2^64. -/
def getOrAlloc (slot : Nat) (m : InodeMap) : Nat × InodeMap :=
  match m.slotToIno.get slot with
  | some ino => (ino, m)
  | none =>
    (m.nextIno,
      { slotToIno := m.slotToIno.insert slot m.nextIno
        inoToSlot := m.inoToSlot.insert m.nextIno slot
        nextIno := (m.nextIno + 1) % 2 ^ 64 })

def slotOf (m : InodeMap) (ino : Nat) : Option Nat := m.inoToSlot.get ino

def removeSlot (slot : Nat) (m : InodeMap) : InodeMap :=
  match m.slotToIno.get slot with
  | some ino =>
    { m with slotToIno := m.slotToIno.remove slot, inoToSlot := m.inoToSlot.remove ino }
  | none => m

end InodeMap

/-! ## The driver's state -/

structure VenomFuse (σ : Type) where
  container : σ
  inodes : InodeMap
  openFiles : HashMap Nat OpenFile
  nextFh : Nat

abbrev FuseM (σ : Type) := EStateM Failure (VenomFuse σ)

variable {σ : Type} [NodeStore σ]

def VenomFuse.new (rootSlot : Nat) (container : σ) : VenomFuse σ :=
  { container, inodes := InodeMap.new rootSlot, openFiles := .empty, nextFh := 1 }

/-- Run a container call behind the driver. -/
def liftStore {α : Type} (x : StoreM σ α) : FuseM σ α := fun s =>
  match x.run s.container with
  | .ok a c => .ok a { s with container := c }
  | .error e c => .error e { s with container := c }

/-- Run a handle's computation on the open file `of` behind `fh`. -/
def withHandle {α : Type} (fh : Nat) (of : OpenFile) (x : HandleM σ α) : FuseM σ α := fun s =>
  match x.run { container := s.container, file := of } with
  | .ok a h => .ok a { s with container := h.container, openFiles := s.openFiles.insert fh h.file }
  | .error e h =>
    .error e { s with container := h.container, openFiles := s.openFiles.insert fh h.file }

/-- Handle numbers count up modulo 2^64 and skip 0. -/
def allocFh : FuseM σ Nat := do
  let s ← get
  set { s with nextFh := max ((s.nextFh + 1) % 2 ^ 64) 1 }
  pure s.nextFh

/-- The slot of an inode, or the given error. -/
def slotOfIno (ino : Nat) : FuseM σ Nat := do
  let s ← get
  match s.inodes.slotOf ino with
  | some slot => pure slot
  | none => throw (.errno .enoent)

def inoOfSlot (slot : Nat) : FuseM σ Nat := do
  let s ← get
  let (ino, inodes) := s.inodes.getOrAlloc slot
  set { s with inodes }
  pure ino

def forgetSlot (slot : Nat) : FuseM σ Unit :=
  modify fun s => { s with inodes := s.inodes.removeSlot slot }

def insertHandle (fh : Nat) (of : OpenFile) : FuseM σ Unit :=
  modify fun s => { s with openFiles := s.openFiles.insert fh of }

/-! ## Directories -/

def readDirBlock (slot : Nat) : FuseM σ DirectoryBlock := do
  match ← liftStore (readNode slot) with
  | .directory d => pure d
  | _ => throw (.errno .enotdir)

def dirAddEntry (parentSlot : Nat) (entry : DirEntry) : FuseM σ Unit := do
  let dir ← readDirBlock parentSlot
  if dir.entries.any (fun e => e.name = entry.name) then throw (.errno .eexist)
  else liftStore (updateNode parentSlot
    (.directory { dir with entries := dir.entries ++ [entry] }))

def dirRemoveEntry (parentSlot : Nat) (name : String) : FuseM σ Nat := do
  let dir ← readDirBlock parentSlot
  match dir.entries.find? (fun e => e.name = name) with
  | none => throw (.errno .enoent)
  | some e => do
    liftStore (updateNode parentSlot
      (.directory { dir with entries := dir.entries.eraseP (fun e => e.name = name) }))
    pure e.slot

def emptyDir : VaultNode := .directory { kind := .directory, entries := [] }

/-- Link a freshly written node, or give its slot back. -/
def linkOrFree (parentSlot slot : Nat) (entry : DirEntry) : FuseM σ Unit := fun s =>
  match (dirAddEntry parentSlot entry).run s with
  | .ok u s => .ok u s
  | .error e s => .error e { s with container := NodeStore.freeNode slot s.container }

/-! ## Name-space operations -/

def opLookup (parent : Nat) (name : String) : FuseM σ (Nat × VaultNode) := do
  let pSlot ← slotOfIno parent
  let dir ← readDirBlock pSlot
  match dir.entries.find? (fun e => e.name = name) with
  | none => throw (.errno .enoent)
  | some entry => do
    let node ← liftStore (readNode entry.slot)
    let ino ← inoOfSlot entry.slot
    pure (ino, node)

def opMkdir (parent : Nat) (name : String) : FuseM σ (Nat × VaultNode) := do
  let pSlot ← slotOfIno parent
  let slot ← liftStore (writeNode emptyDir)
  linkOrFree pSlot slot { name, slot, kind := .directory }
  let ino ← inoOfSlot slot
  pure (ino, emptyDir)

def opRmdir (parent : Nat) (name : String) : FuseM σ Unit := do
  let pSlot ← slotOfIno parent
  let dir ← readDirBlock pSlot
  match dir.entries.find? (fun e => e.name = name) with
  | none => throw (.errno .enoent)
  | some entry => do
    let target ← readDirBlock entry.slot
    if target.entries ≠ [] then throw (.errno .enotempty)
    else do
      let removed ← dirRemoveEntry pSlot name
      liftStore (freeNode removed)
      forgetSlot removed

/-- The open file `op_create` registers. -/
def newFile (ino head : Nat) : OpenFile :=
  { ino, headSlot := head, totalSize := 0, indexChain := none, slotMap := [none],
    cache := .empty, dirty := .empty, metaDirty := false }

def opCreate (parent : Nat) (name : String) : FuseM σ (Nat × Nat) := do
  let pSlot ← slotOfIno parent
  let head ← liftStore (writeNode (headNode 0 [] none []))
  linkOrFree pSlot head { name, slot := head, kind := .file }
  let ino ← inoOfSlot head
  let fh ← allocFh
  insertHandle fh (newFile ino head)
  pure (ino, fh)

def opUnlink (parent : Nat) (name : String) : FuseM σ Unit := do
  let pSlot ← slotOfIno parent
  let removed ← dirRemoveEntry pSlot name
  modify fun s =>
    { s with openFiles := s.openFiles.retain (fun _ of => decide (of.headSlot ≠ removed)) }
  let s ← get
  match NodeStore.readNode removed s.container with
  | .ok (.file fb) => do
    liftStore (fb.dataSlots.forM freeNode)
    liftStore (freeIndexChain fb.indexChain)
  | _ => pure ()
  liftStore (freeNode removed)
  forgetSlot removed

/-- Drop the entry a rename replaces, with its slot and its inode. -/
def replaceEntry (dest : DirectoryBlock) (newname : String) : FuseM σ DirectoryBlock := do
  match dest.entries.find? (fun e => e.name = newname) with
  | none => pure dest
  | some old => do
    liftStore (freeNode old.slot)
    forgetSlot old.slot
    pure { dest with entries := dest.entries.eraseP (fun e => e.name = newname) }

def kindOf : VaultNode → NodeKind
  | .directory _ => .directory
  | _ => .file

def opRename (parent : Nat) (name : String) (newparent : Nat) (newname : String) :
    FuseM σ Unit := do
  let pSlot ← slotOfIno parent
  let npSlot ← slotOfIno newparent
  let moved ← dirRemoveEntry pSlot name
  let node ← liftStore (readNode moved)
  let dest ← readDirBlock npSlot
  let dest ← replaceEntry dest newname
  let entry : DirEntry := { name := newname, slot := moved, kind := kindOf node }
  liftStore (updateNode npSlot (.directory { dest with entries := dest.entries ++ [entry] }))

/-! ## File operations -/

/-- The open file `op_open` registers: chunk 0 is loaded when it holds anything. -/
def openedFile (ino head totalSize : Nat) (indexChain : Option Nat)
    (slotMap : List (Option Nat)) (chunk0 : List UInt8) : OpenFile :=
  { ino, headSlot := head, totalSize, indexChain, slotMap,
    cache := if chunk0.isEmpty then .empty else HashMap.empty.insert 0 chunk0,
    dirty := .empty, metaDirty := false }

def opOpen (ino : Nat) : FuseM σ Nat := do
  let headSlot ← slotOfIno ino
  let (totalSize, indexChain, slotMap) ← liftStore (buildSlotMap headSlot)
  match ← liftStore (readNode headSlot) with
  | .file fb => do
    let fh ← allocFh
    insertHandle fh (openedFile ino headSlot totalSize indexChain slotMap fb.data)
    pure fh
  | _ => throw (.errno .eisdir)

/-- Flush a handle; an unknown one has nothing to flush. -/
def opFlush (ord : IterOrder Nat) (fh : Nat) : FuseM σ Unit := do
  let s ← get
  match s.openFiles.get fh with
  | none => pure ()
  | some of => withHandle fh of (flushHandle ord)

def opRelease (ord : IterOrder Nat) (fh : Nat) : FuseM σ Unit := do
  opFlush ord fh
  modify fun s => { s with openFiles := s.openFiles.remove fh }

/-- A flush whose error is dropped. -/
def tryFlush (ord : IterOrder Nat) (fh : Nat) : FuseM σ Unit := fun s =>
  match (opFlush ord fh).run s with
  | .ok u s => .ok u s
  | .error _ s => .ok () s

/-- What dropping the driver does: flush the handles in the order the map yields them, then the
    container, which is `save` here. -/
def flushAll (ord : IterOrder Nat) (dirtyOrd : Nat → IterOrder Nat) (save : σ → σ) : FuseM σ Unit := do
  let s ← get
  (ord.order s.openFiles.keys).forM fun fh => tryFlush (dirtyOrd fh) fh
  modify fun s => { s with container := save s.container }

def opRead (ord : IterOrder Nat) (fh offset size : Nat) : FuseM σ (List UInt8) := do
  let s ← get
  match s.openFiles.get fh with
  | none => throw (.errno .enoent)
  | some of => withHandle fh of (readHandle ord offset size)

/-- An empty write never looks at its handle. -/
def opWrite (ord : IterOrder Nat) (fh offset : Nat) (data : List UInt8) : FuseM σ Nat := do
  let s ← get
  match s.openFiles.get fh with
  | none => if data.isEmpty then pure 0 else throw (.errno .enoent)
  | some of => withHandle fh of (writeHandle ord offset data)

/-- The handle a resize works on: the given one, or any open on the inode. -/
def findHandle (ord : IterOrder Nat) (ino : Nat) (fhHint : Option Nat)
    (openFiles : HashMap Nat OpenFile) : Option Nat :=
  fhHint <|> (ord.order openFiles.keys).find? (fun fh => ((openFiles.get fh).map (·.ino)) = some ino)

/-- The continuation slots of a file of `nChunks` chunks. -/
def keptSlots (nChunks : Nat) (fb : FileBlock) : List Nat := fb.dataSlots.take (nChunks - 1)

/-- Resize a file nobody has open, directly on disk. -/
def resizeOnDisk (headSlot newSize : Nat) : StoreM σ Unit := do
  match ← readNode headSlot with
  | .file fb =>
    if newSize < fb.totalSize then do
      let nChunks := chunkCount newSize
      (fb.dataSlots.drop (nChunks - 1)).forM freeNode
      freeIndexChain fb.indexChain
      let data := if nChunks = 0 then [] else fb.data.take newSize
      updateNode headSlot (headNode newSize (keptSlots nChunks fb) none data)
    else updateNode headSlot (.file { fb with totalSize := newSize })
  | _ => throw eio

def opSetattrSize (ord : IterOrder Nat) (ino : Nat) (fhHint : Option Nat) (newSize : Nat) :
    FuseM σ Unit := do
  let s ← get
  match findHandle ord ino fhHint s.openFiles with
  | some fh =>
    match s.openFiles.get fh with
    | none => throw (.errno .enoent)
    | some of => withHandle fh of (modifyFile (resizeFile newSize))
  | none => do
    let headSlot ← slotOfIno ino
    liftStore (resizeOnDisk headSlot newSize)

/-! ## Several writes -/

/-- The arguments of a write, with the order its hash containers happen to have. -/
structure WriteCall where
  ord : IterOrder Nat
  offset : Nat
  data : List UInt8

def runWrites (fh : Nat) (ws : List WriteCall) : FuseM σ Unit :=
  ws.forM fun w => do
    let _ ← opWrite w.ord fh w.offset w.data

end Venom.Fuse
