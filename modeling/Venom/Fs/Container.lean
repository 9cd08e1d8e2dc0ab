import Venom.Container.Recipient
import Venom.Storage.SlotStore
import Venom.Rollback

/-! # Containers

A single-file container: an outer header with its backup, a fixed recipient area, the
data slots, and the headers of a hidden volume if there is one.  `create` lays the file
out, `openContainer` finds the volume a credential opens.
-/

namespace Venom.Fs

open Venom.Container
open Venom.Crypto
open Venom.Storage
open Venom.Library
open Venom.Library.Words
open Venom.Library.StateError

variable (P : Primitives)

def outerAllocSlot : Nat := 0

def outerRootSlot : Nat := 1

/-- The file must be at least this large. -/
def minSize : Nat := dataAreaOffset + 16 * slotSize + 512

structure HiddenVolumeOptions where
  password : List UInt8
  sizeBytes : UInt64
  label : Option String
  kdfProfile : String

inductive OpenCredential
  /-- Tries all password slots. -/
  | password (pw : List UInt8)
  /-- Tries all key slots. -/
  | privateKey (sk : HybridPrivateKey)

/-- A mounted container. -/
structure VnmContainer where
  store : SlotStore
  rootSlot : UInt64
  isHidden : Bool
  cipher : CipherAlgorithm
  outerSlots : UInt64
  outerLimit : UInt64
  label : Option String
  createdAt : UInt64
  kMaster : Key
  containerId : Bytes 16

/-- A container on its file. -/
structure Mounted where
  container : VnmContainer
  world : World

abbrev MountedM := EStateM VnmError Mounted

/-- Run a computation of the slot store. -/
def onStore {ε α : Type} (x : EStateM ε OpenStore α) : EStateM ε Mounted α := fun m =>
  match x.run { store := m.container.store, world := m.world } with
  | .ok a s => .ok a { container := { m.container with store := s.store }, world := s.world }
  | .error e s => .error e { container := { m.container with store := s.store }, world := s.world }

/-- Run a computation on the file. -/
def onFile {ε α : Type} (x : EStateM ε World α) : EStateM ε Mounted α := onStore (onWorld x)

/-- Run a computation of a store that is being set up. -/
def withStore {α : Type} (st : SlotStore) (x : EStateM Fault OpenStore α) :
    EStateM Fault World SlotStore := fun w =>
  match x.run { store := st, world := w } with
  | .ok _ s => .ok s.store s.world
  | .error e s => .error e s.world

/-! ## Layout -/

/-- Where the parts of a container lie. -/
structure Layout where
  outerSlots : UInt64
  hiddenSlots : UInt64
  tailSize : UInt64
  fileSize : UInt64

def saturatingSub (a b : UInt64) : UInt64 := if a < b then 0 else a - b

/-- The size checks of `create`, and the sizes.  Sums wrap at 2^64. -/
def layout (totalSizeBytes : UInt64) (hiddenSize : Option UInt64) : Except VnmError Layout :=
  if totalSizeBytes < UInt64.ofNat minSize then .error (.sizeTooSmall minSize)
  else
    let tailSize : UInt64 := if hiddenSize.isSome then 1024 else 512
    let slot := UInt64.ofNat slotSize
    let dataArea := UInt64.ofNat dataAreaOffset
    let totalDataSlots := saturatingSub totalSizeBytes (dataArea + tailSize) / slot
    match hiddenSize with
    | none =>
      .ok { outerSlots := totalDataSlots, hiddenSlots := 0, tailSize
            fileSize := dataArea + (totalDataSlots + 0) * slot + tailSize }
    | some size =>
      let hSlots := max ((size + slot - 1) / slot) 2
      let oSlots := saturatingSub totalDataSlots hSlots
      if oSlots < 2 then .error (.sizeTooSmall minSize)
      else
        .ok { outerSlots := oSlots, hiddenSlots := hSlots, tailSize
              fileSize := dataArea + (oSlots + hSlots) * slot + tailSize }

/-- Byte offset of password slot `i` in the file. -/
def pwSlotOffset (i : Nat) : Nat := headerRegionSize + i * pwSlotSize

/-- Byte offset of key slot `j` in the file. -/
def keySlotOffset (j : Nat) : Nat := headerRegionSize + (maxPasswordSlots * pwSlotSize + j * keySlotSize)

/-- Where `create` puts the backup of the outer header. -/
def outerBackupOffset (fileSize : Nat) (hidden : Bool) : Nat :=
  if hidden then fileSize - 1024 else fileSize - 512

/-- Where `update_slot_counts` puts it, inferred from the size of the file. -/
def inferredBackupOffset (fileSize : Nat) : Nat :=
  if (fileSize - dataAreaOffset) % slotSize = 1024 then fileSize - 1024 else fileSize - 512

/-! ## Helpers -/

def kdfId (kdfProfile : String) : UInt8 := if kdfProfile = "sensitive" then 1 else 0

/-- The label field of a header: at most 64 bytes, zero-filled. -/
def labelBytes (label : Option String) : Bytes 64 := toBytes 64 ((label.map utf8).getD [])

def labelFrom (raw : Bytes 64) : Option String :=
  let text := raw.toList.takeWhile (· ≠ 0)
  if text.isEmpty then none else ofUtf8 text

def zeroId : Bytes 16 := ⟨List.replicate 16 0, rfl⟩

def emptyDirectory : VaultNode := .directory { kind := .directory, entries := [] }

def serializationError : VnmError := .serialization "rmp_serde error"

def writeNodeAt (slot : Nat) (node : VaultNode) : SlotM Unit :=
  match toVecNamed node with
  | none => throw serializationError
  | some payload => SlotStore.write P slot payload

/-- A file of random bytes: its size is set, then it is filled in pieces of 64 KiB. -/
def createFile (fileSize : Nat) : WorldM Unit := do
  modify fun w => { w with file := some { size := fileSize, byteAt := fun _ => 0 }, issued := [] }
  (List.range ((fileSize + 65535) / 65536)).forM fun i => do
    let buf ← fillBytes 65536
    writeBytesAt (i * 65536) (buf.toList.take (fileSize - i * 65536))

/-- Set up an empty volume: its root directory and its allocation block. -/
def initVolume (rootSlot : Nat) : EStateM Fault OpenStore Unit := do
  modifyStore SlotStore.rebuildFreeList
  modifyStore fun st => { st with free := st.free.filter (· ≠ rootSlot) }
  fallible (writeNodeAt P rootSlot emptyDirectory)
  SlotStore.saveFreeList P

/-! ## Create -/

def hiddenPayload (lay : Layout) (cipher : CipherAlgorithm) (now : UInt64) (h : HiddenVolumeOptions)
    (containerId : Bytes 16) : HeaderPayload where
  cipher
  kdfProfile := kdfId h.kdfProfile
  numPasswordSlots := 1
  numKeySlots := 0
  outerSlots := lay.hiddenSlots
  hiddenStart := lay.outerSlots
  rootSlot := lay.outerSlots + 1
  createdAt := now
  label := labelBytes h.label
  containerId

/-- The hidden part of `create`.  Its store gets a fresh random key; the header that stays
    on disk is sealed with a key derived from the password. -/
def createHidden (lay : Layout) (cipher : CipherAlgorithm) (now : UInt64) (h : HiddenVolumeOptions) :
    EStateM Fault World Unit := do
  let fileSize := lay.fileSize.toNat
  let kHidden ← fillBytes 32
  let containerId ← fillBytes 16
  let _ ← fallible (encodePasswordSlot P kHidden h.password (kdfId h.kdfProfile))
  let payload := hiddenPayload lay cipher now h containerId
  let hidHdr ← fallible (encodeHeader P payload kHidden true)
  fallible (writeBytesAt (fileSize - 512) hidHdr)
  let hidHdr ← encodeHeaderWithPassword P payload h.password true
  fallible (writeBytesAt (fileSize - 512) hidHdr)
  fallible (writeBytesAt 512 hidHdr)
  let hidStart := lay.outerSlots.toNat
  let hidEnd := hidStart + lay.hiddenSlots.toNat
  let store := SlotStore.new kHidden cipher hidStart hidEnd (hidEnd - 1) true
  let _ ← withStore store (initVolume P (hidStart + 1))
  pure ()

/-- The hidden part, if a hidden volume is asked for. -/
def createHidden? (lay : Layout) (cipher : CipherAlgorithm) (now : UInt64) :
    Option HiddenVolumeOptions → EStateM Fault World Unit
  | none => pure ()
  | some h => createHidden P lay cipher now h

def outerPayload (lay : Layout) (cipher : CipherAlgorithm) (now : UInt64) (outerPassword : List UInt8)
    (kdfProfile : String) (label : Option String) (containerId : Bytes 16) : HeaderPayload where
  cipher
  kdfProfile := kdfId kdfProfile
  numPasswordSlots := if outerPassword.isEmpty then 0 else 1
  numKeySlots := 0
  outerSlots := lay.outerSlots
  hiddenStart := 0
  rootSlot := UInt64.ofNat outerRootSlot
  createdAt := now
  label := labelBytes label
  containerId

/-- The slot of the creation password.  An empty password gets none. -/
def writePasswordSlot (outerPassword : List UInt8) (kdfProfile : String) (kOuter : Key) :
    EStateM Fault World Unit :=
  if outerPassword.isEmpty then pure ()
  else do
    let pwSlot ← fallible (encodePasswordSlot P kOuter outerPassword (kdfId kdfProfile))
    fallible (writeBytesAt (pwSlotOffset 0) pwSlot)

/-- The outer part of `create`. -/
def createOuter (lay : Layout) (hidden : Bool) (cipher : CipherAlgorithm) (now : UInt64)
    (outerPassword : List UInt8) (kdfProfile : String) (label : Option String) (kOuter : Key)
    (containerId : Bytes 16) : EStateM Fault World VnmContainer := do
  let payload := outerPayload lay cipher now outerPassword kdfProfile label containerId
  let outerHdr ← fallible (encodeHeader P payload kOuter false)
  fallible (writeBytesAt 0 outerHdr)
  fallible (writeBytesAt (outerBackupOffset lay.fileSize.toNat hidden) outerHdr)
  writePasswordSlot P outerPassword kdfProfile kOuter
  let store := SlotStore.new kOuter cipher 0 lay.outerSlots.toNat outerAllocSlot true
  let store ← withStore store (initVolume P outerRootSlot)
  updateRollback containerId store.generation
  pure
    { store, rootSlot := UInt64.ofNat outerRootSlot, isHidden := false, cipher
      outerSlots := lay.outerSlots, outerLimit := lay.outerSlots, label, createdAt := now
      kMaster := kOuter, containerId }

def create (outerPassword : List UInt8) (totalSizeBytes : UInt64) (cipher : CipherAlgorithm)
    (kdfProfile : String) (label : Option String) (hidden : Option HiddenVolumeOptions) :
    EStateM Fault World VnmContainer := do
  let w ← get
  if w.file.isSome then throw (.error (.containerAlreadyExists w.path))
  else do
    let lay ← fallible (orThrow (layout totalSizeBytes (hidden.map (·.sizeBytes))))
    fallible (createFile lay.fileSize.toNat)
    let kOuter ← fillBytes 32
    let containerId ← fillBytes 16
    createHidden? P lay cipher w.now hidden
    createOuter P lay hidden.isSome cipher w.now outerPassword kdfProfile label kOuter containerId

/-! ## Open -/

def read512At (w : World) (off : Nat) : Except VnmError (List UInt8) := w.read off 512

/-- The slot counts of the primary header, or of a backup when both are zero. -/
def slotCounts (w : World) (fileSize : Nat) : Nat × Nat :=
  let raw0 := ((read512At w 0).toOption).getD (List.replicate 512 0)
  let (_, nPw0, nKey0) := readHeaderPlaintext raw0
  if nPw0 = 0 ∧ nKey0 = 0 then
    ([fileSize - 512, fileSize - 1024].findSome? fun off =>
      (read512At w off).toOption.bind fun raw =>
        let (_, p, k) := readHeaderPlaintext raw
        if 0 < p ∨ 0 < k then some (p.toNat, k.toNat) else none).getD (0, 0)
  else (nPw0.toNat, nKey0.toNat)

/-- Try the slots `i`, `i + 1`, .. up to `n` of them; a slot that cannot be read ends the
    search. -/
def trySlots (readSlot : Nat → Except VnmError (List UInt8))
    (trySlot : List UInt8 → Option (Key × CipherAlgorithm)) : Nat → Nat → Option (Key × CipherAlgorithm)
  | _, 0 => none
  | i, n + 1 =>
    match readSlot i with
    | .error _ => none
    | .ok slot =>
      match trySlot slot with
      | some result => some result
      | none => trySlots readSlot trySlot (i + 1) n

def readPwSlotRaw (w : World) (i : Nat) : Except VnmError (List UInt8) := w.read (pwSlotOffset i) pwSlotSize

def readKeySlotRaw (w : World) (j : Nat) : Except VnmError (List UInt8) :=
  w.read (keySlotOffset j) keySlotSize

def tryPwSlots (w : World) (pw : List UInt8) (n : Nat) : Option (Key × CipherAlgorithm) :=
  trySlots (readPwSlotRaw w) (fun slot => tryPasswordSlot P slot pw) 0 n

def tryKeySlots (w : World) (sk : HybridPrivateKey) (n : Nat) : Option (Key × CipherAlgorithm) :=
  trySlots (readKeySlotRaw w) (fun slot => tryKeySlot P slot sk) 0 n

/-- The master key a credential recovers from the recipient slots. -/
def recoverMaster (w : World) (fileSize : Nat) (credential : OpenCredential) :
    Option (Key × CipherAlgorithm) :=
  let (nPw, nKey) := slotCounts w fileSize
  match credential with
  | .password pw => tryPwSlots P w pw nPw
  | .privateKey sk => tryKeySlots P w sk nKey

/-- The first cipher under which a header decodes. -/
def probeHeader (raw : List UInt8) (k : Key) (isHidden : Bool) : Option HeaderPayload :=
  allCiphers.findSome? fun cipher => (decodeHeader P raw k cipher isHidden).toOption

/-- The first header copy that decodes: primary, then the two backup places. -/
def findOuterHeader (w : World) (fileSize : Nat) (k : Key) : Option HeaderPayload :=
  [0, fileSize - 512, fileSize - 1024].findSome? fun off =>
    (read512At w off).toOption.bind fun raw => probeHeader P raw k false

/-- The key of a hidden header, from the password and the salt embedded in the header. -/
def deriveHiddenKey (raw password : List UInt8) : Except VnmError Key :=
  passwordKey P password (sub raw 0 64) (raw.getD 65 0)

def tryHiddenAt (w : World) (hdrOffset : Nat) (password : List UInt8) : Option (Key × HeaderPayload) := do
  let raw ← (read512At w hdrOffset).toOption
  let k ← (deriveHiddenKey P raw password).toOption
  let header ← probeHeader P raw k true
  some (k, header)

def findHidden (w : World) (fileSize : Nat) (password : List UInt8) : Option (Key × HeaderPayload) :=
  (tryHiddenAt P w (fileSize - 512) password).or (tryHiddenAt P w 512 password)

/-- Load a store, check the generation against the baseline, and hand out the container. -/
def openVolume (w : World) (k : Key) (header : HeaderPayload) (isHidden : Bool)
    (slotStart slotLimit allocSlot : Nat) (outerLimit : UInt64) : Except VnmError VnmContainer := do
  let hasGen := decide (header.containerId ≠ zeroId)
  let store ← (SlotStore.new k header.cipher slotStart slotLimit allocSlot hasGen).loadFreeList P w
  if hasGen then (RollbackState.load w).check header.containerId store.generation else .ok ()
  .ok
    { store, rootSlot := header.rootSlot, isHidden, cipher := header.cipher
      outerSlots := header.outerSlots, outerLimit, label := labelFrom header.label
      createdAt := header.createdAt, kMaster := k, containerId := header.containerId }

def openOuter (w : World) (k : Key) (header : HeaderPayload) : Except VnmError VnmContainer :=
  openVolume P w k header false 0 header.outerSlots.toNat outerAllocSlot header.outerSlots

def openHidden (w : World) (k : Key) (header : HeaderPayload) : Except VnmError VnmContainer :=
  let hidEnd := header.hiddenStart.toNat + header.outerSlots.toNat
  openVolume P w k header true header.hiddenStart.toNat hidEnd (hidEnd - 1) header.hiddenStart

/-- The outer volume's key and header, if the credential finds them. -/
def findOuter (w : World) (fileSize : Nat) (credential : OpenCredential) :
    Option (Key × HeaderPayload) := do
  let (k, _) ← recoverMaster P w fileSize credential
  let header ← findOuterHeader P w fileSize k
  some (k, header)

def openContainer (w : World) (credential : OpenCredential) : Except VnmError VnmContainer :=
  match w.file with
  | none => .error (.containerNotFound w.path)
  | some f =>
    match findOuter P w f.size credential with
    | some (k, header) => openOuter P w k header
    | none =>
      match credential with
      | .privateKey _ => .error .authenticationFailed
      | .password pw =>
        match findHidden P w f.size pw with
        | some (k, header) => openHidden P w k header
        | none => .error .authenticationFailed

/-! ## Recipients -/

structure RecipientInfo where
  isKey : Bool
  slotIndex : Nat
  deriving DecidableEq, Repr

/-- List all recipient slots. -/
def listRecipients (m : Mounted) : Except VnmError (List RecipientInfo) := do
  let raw ← read512At m.world 0
  let (_, nPw, nKey) := readHeaderPlaintext raw
  .ok ((List.range nPw.toNat).map (RecipientInfo.mk false) ++
    (List.range nKey.toNat).map (RecipientInfo.mk true))

def maxReached (kind : String) : VnmError := .invalidFormat s!"max {kind} recipients reached"

/-- Re-write the outer header, primary and backup, with updated slot counts. -/
def updateSlotCounts (nPw nKey : UInt8) (kMaster : Key) (cipher : CipherAlgorithm)
    (oldRaw : List UInt8) : WorldM Unit := do
  let header ← orThrow (decodeHeader P oldRaw kMaster cipher false)
  let newPayload := { header with numPasswordSlots := nPw, numKeySlots := nKey }
  let newHdr ← encodeHeader P newPayload kMaster false
  let w ← get
  match w.file with
  | none => throw World.notFound
  | some f => do
    writeBytesAt 0 newHdr
    writeBytesAt (inferredBackupOffset f.size) newHdr

/-- Read the outer header from the file. -/
def readHeader : WorldM (List UInt8) := do
  let w ← get
  orThrow (read512At w 0)

/-- Add a new password recipient. -/
def addPasswordRecipient (newPassword : List UInt8) : MountedM Unit := do
  let m ← get
  onFile do
    let raw ← readHeader
    let (kdfProfile, nPw, nKey) := readHeaderPlaintext raw
    if maxPasswordSlots ≤ nPw.toNat then throw (maxReached "password")
    else do
      let slot ← encodePasswordSlot P m.container.kMaster newPassword kdfProfile
      writeBytesAt (pwSlotOffset nPw.toNat) slot
      updateSlotCounts P (nPw + 1) nKey m.container.kMaster m.container.cipher raw

/-- Add a new key recipient. -/
def addKeyRecipient (recipient : HybridPublicKey) : MountedM Unit := do
  let m ← get
  onFile do
    let raw ← readHeader
    let (_, nPw, nKey) := readHeaderPlaintext raw
    if maxKeySlots ≤ nKey.toNat then throw (maxReached "key")
    else do
      let slot ← encodeKeySlot P m.container.kMaster recipient m.container.cipher
      writeBytesAt (keySlotOffset nKey.toNat) slot
      updateSlotCounts P nPw (nKey + 1) m.container.kMaster m.container.cipher raw

/-- Read the first `n` key slots. -/
def readKeySlots (n : Nat) : WorldM (List (List UInt8)) := do
  let w ← get
  orThrow ((List.range n).mapM (readKeySlotRaw w))

/-- Write key slots from the first on. -/
def writeKeySlots (slots : List (List UInt8)) : WorldM Unit :=
  slots.zipIdx.forM fun s => writeBytesAt (keySlotOffset s.2) s.1

/-- Remove the key slot at an index: the slots behind it move down, the last one is wiped. -/
def removeKeyRecipient (slotIndex : Nat) : MountedM Unit := do
  let m ← get
  onFile do
    let raw ← readHeader
    let (_, nPw, nKey) := readHeaderPlaintext raw
    if nKey.toNat ≤ slotIndex then throw (.invalidFormat "key slot index out of range")
    else do
      let slots ← readKeySlots nKey.toNat
      let kept := slots.eraseIdx slotIndex
      writeKeySlots kept
      let randomSlot ← fillBytes keySlotSize
      writeBytesAt (keySlotOffset kept.length) randomSlot.toList
      updateSlotCounts P nPw (nKey - 1) m.container.kMaster m.container.cipher raw

/-! ## Node I/O -/

def readNode (slot : Nat) (m : Mounted) : Except VnmError VaultNode := do
  let data ← m.container.store.read P m.world slot
  match fromSlice data with
  | some node => .ok node
  | none => .error serializationError

def writeNode (node : VaultNode) : MountedM Nat := do
  let slot ← onStore SlotStore.alloc
  onStore (writeNodeAt P slot node)
  pure slot

def updateNode (slot : Nat) (node : VaultNode) : MountedM Unit := onStore (writeNodeAt P slot node)

def freeNode (slot : Nat) (m : Mounted) : Mounted :=
  let s := SlotStore.freeSlot slot { store := m.container.store, world := m.world }
  { container := { m.container with store := s.store }, world := s.world }

/-- Write the allocation block, and the generation to the rollback state. -/
def flush : EStateM Fault Mounted Unit := do
  let m ← get
  if m.container.store.merkleDirty then fallible (onStore (SlotStore.updateMerkleRoot P)) else pure ()
  onStore (SlotStore.saveFreeList P)
  let m ← get
  if m.container.containerId ≠ zeroId then
    onFile (updateRollback m.container.containerId m.container.store.generation)
  else pure ()

/-- Reset the anti-rollback baseline for this container. -/
def resetRollbackState : MountedM Unit := do
  let m ← get
  if m.container.containerId = zeroId then pure ()
  else onFile do
    let w ← get
    (RollbackState.load w).reset m.container.containerId

end Venom.Fs
