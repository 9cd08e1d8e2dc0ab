import Venom.Fs.OuterHandle

/-! # Anti-rollback on one device

The generation of the handle, the generation in the allocation block and the baseline in the
state file, over the history of one container: calls, flushes, crashes between the slot
writes and the state-file write of a flush, and opening the file again.  A flush that
returns leaves a baseline above the generation of every earlier copy of the file.
-/

namespace Venom.Fs

open Venom.Container
open Venom.Crypto
open Venom.Storage
open Venom.Storage.SlotStore
open Venom.Library
open Venom.Library.Words
open Venom.Library.StateError

variable {P : Primitives}

/-! ## Histories -/

/-- A container on a device. -/
structure DeviceState where
  session : OuterSession
  /-- A process has the file open. -/
  isOpen : Bool
  /-- How often `flush` has been called, whether or not it returned. -/
  saves : Nat

namespace DeviceState

def world (d : DeviceState) : World := d.session.mounted.world

/-- The handle `create` returns. -/
def created (m : VnmContainer) (w : World) : DeviceState where
  session := .created m w
  isOpen := true
  saves := 0

end DeviceState

/-- Every event but a flush that returns `Ok`.  A crash of a flush comes after its slot writes
    and before its write of the state file. -/
inductive UnflushedStep (P : Primitives) : DeviceState → DeviceState → Prop
  | called {s s' : OuterSession} {n : Nat} (h : OuterCall P s s') :
      UnflushedStep P { session := s, isOpen := true, saves := n }
        { session := s', isOpen := true, saves := n }
  | flushFailed {s : OuterSession} {n : Nat} {e : Fault} {m' : Mounted}
      (h : (flush P).run s.mounted = .error e m') :
      UnflushedStep P { session := s, isOpen := true, saves := n }
        { session := { s with mounted := m' }, isOpen := true, saves := n + 1 }
  | crashed {s : OuterSession} {n : Nat} {m' : Mounted} (h : (flushSlots P).run s.mounted = .ok () m') :
      UnflushedStep P { session := s, isOpen := true, saves := n }
        { session := { s with mounted := m', intact := true }, isOpen := false, saves := n + 1 }
  | closed {s : OuterSession} {n : Nat} :
      UnflushedStep P { session := s, isOpen := true, saves := n }
        { session := s, isOpen := false, saves := n }
  | opened {s : OuterSession} {n : Nat} {credential : OpenCredential} {c : VnmContainer}
      (h : openContainer P s.mounted.world credential = .ok c) (houter : c.isHidden = false)
      (hkey : c.kMaster = s.mounted.container.kMaster)
      (hcipher : c.cipher = s.mounted.container.cipher) :
      UnflushedStep P { session := s, isOpen := false, saves := n }
        { session := { s with mounted := { container := c, world := s.mounted.world } }
          isOpen := true, saves := n }

/-- A flush that returns `Ok`. -/
inductive FlushedStep (P : Primitives) : DeviceState → DeviceState → Prop
  | flushed {s : OuterSession} {n : Nat} {m' : Mounted} (h : (flush P).run s.mounted = .ok () m') :
      FlushedStep P { session := s, isOpen := true, saves := n }
        { session := { s with mounted := m', intact := true }, isOpen := true, saves := n + 1 }

inductive DeviceStep (P : Primitives) (d d' : DeviceState) : Prop
  | unflushed (h : UnflushedStep P d d')
  | flushed (h : FlushedStep P d d')

/-! ## What is asked of a credential -/

/-- A credential of the container, on a file.  The key it recovers is the master key; a header
    that opens under the master key is one of the container's; where it finds no outer volume
    it does not find a hidden one. -/
structure OfContainer (P : Primitives) (m : VnmContainer) (w : World) (f : ByteFile)
    (credential : OpenCredential) : Prop where
  master : ∀ k c, recoverMaster P w f.size credential = some (k, c) → k = m.kMaster
  header : ∀ header, findOuterHeader P w f.size m.kMaster = some header →
    header.containerId = m.containerId ∧ header.cipher = m.cipher
  hidden : findOuter P w f.size credential = none → ∀ pw, credential = .password pw →
    findHidden P w f.size pw = none

/-- Opening the current file is not refused as a rollback. -/
def CurrentAccepted (P : Primitives) (m : VnmContainer) (d : DeviceState) : Prop :=
  ∀ credential f, d.world.file = some f → OfContainer P m d.world f credential →
    ∀ current expected, openContainer P d.world credential ≠ .error (.rollbackDetected current expected)

/-- The file after some of its writes, put back on a device. -/
def restored (lay : Layout) (ws : List ByteFile.Write) (w : World) : World :=
  { w with file := some ((zeroFile lay.fileSize.toNat).replay ws) }

/-- No copy of the file taken up to one point of its history opens at another. -/
def CopiesRefused (P : Primitives) (m : VnmContainer) (lay : Layout) (d d' : DeviceState) : Prop :=
  ∀ ws, ws <+: d.world.issued → ∀ credential,
    OfContainer P m (restored lay ws d'.world) ((zeroFile lay.fileSize.toNat).replay ws) credential →
    ∃ e, openContainer P (restored lay ws d'.world) credential = .error e

/-! ## The allocation block of a file -/

/-- What the allocation slot of a file decrypts to. -/
def allocBlock (P : Primitives) (k : Key) (cipher : CipherAlgorithm) (f : ByteFile) :
    Except VnmError (List UInt8) :=
  (SlotStore.new k cipher 0 0 outerAllocSlot true).openSlot P outerAllocSlot
    (f.slice (slotOffset outerAllocSlot) slotSize)

/-- The generation in a block. -/
def blockGeneration (data : List UInt8) : Nat := (parseAllocBlock true data).generation

/-- A write clear of the allocation slot. -/
def BesideAlloc (x : ByteFile.Write) : Prop :=
  slotOffset outerAllocSlot + slotSize ≤ x.off ∨ x.off + x.data.length ≤ slotOffset outerAllocSlot

section Blocks

variable {k : Key} {cipher : CipherAlgorithm} {f f' : ByteFile} {n : Nat}
  {ws before after : List ByteFile.Write} {w : World} {st : SlotStore} {data : List UInt8}

theorem allocBlock_congr (h : f'.slice (slotOffset outerAllocSlot) slotSize =
    f.slice (slotOffset outerAllocSlot) slotSize) :
    allocBlock P k cipher f' = allocBlock P k cipher f := by
  unfold allocBlock
  rw [h]

/-- What the store that `open` loads reads. -/
theorem read_allocBlock (hf : w.file = some f) (hkey : st.masterKey = k) (hcipher : st.cipher = cipher) :
    st.read P w outerAllocSlot = .ok data ↔
      slotOffset outerAllocSlot + slotSize ≤ f.size ∧ allocBlock P k cipher f = .ok data := by
  rw [read_eq_ok hf, Holds, allocBlock]
  have hsame : st.openSlot P outerAllocSlot (f.slice (slotOffset outerAllocSlot) slotSize) =
      (SlotStore.new k cipher 0 0 outerAllocSlot true).openSlot P outerAllocSlot _ :=
    openSlot_congr hkey hcipher _ _
  rw [hsame]

theorem allocBlock_replay (P : Primitives) (k : Key) (cipher : CipherAlgorithm)
    (hsize : slotOffset outerAllocSlot + slotSize ≤ f.size)
    (h : ∀ x ∈ ws, BesideAlloc x) : allocBlock P k cipher (f.replay ws) = allocBlock P k cipher f :=
  allocBlock_congr (ByteFile.slice_eq_iff.mpr (ByteFile.agreeOn_replay hsize h))

/-- After writes clear of the allocation slot there is no block in a prefix that was not in one
    before. -/
theorem allocBlock_of_prefix (P : Primitives) (k : Key) (cipher : CipherAlgorithm)
    (hsize : slotOffset outerAllocSlot + slotSize ≤ f.size)
    (h : ∀ x ∈ after, BesideAlloc x) (hws : ws <+: before ++ after) :
    ∃ ws', ws' <+: before ∧ allocBlock P k cipher (f.replay ws) = allocBlock P k cipher (f.replay ws') := by
  rcases List.prefix_or_prefix_of_prefix hws (List.prefix_append before after) with hbefore | hafter
  · exact ⟨ws, hbefore, rfl⟩
  · obtain ⟨rest, rfl⟩ := hafter
    have hrest := (List.prefix_append_right_inj before).mp hws
    refine ⟨before, List.prefix_rfl, ?_⟩
    rw [ByteFile.replay_append]
    exact allocBlock_replay P k cipher (hsize.trans (ByteFile.size_le_replay before f)) fun x hx =>
      h x (hrest.subset hx)

end Blocks

/-! ## The invariant -/

/-- `generation` is the one in the file, `baseline` the one in the state file.  No file of the
    past has a block of a later generation. -/
structure DeviceInv (P : Primitives) (lay : Layout) (k : Key) (payload : HeaderPayload)
    (d : DeviceState) (generation baseline : Nat) : Prop where
  outer : OuterInv P lay k payload d.session
  containerId : d.session.mounted.container.containerId = payload.containerId
  file : d.world.file = some ((zeroFile lay.fileSize.toNat).replay d.world.issued)
  saved : ∃ data, allocBlock P k payload.cipher ((zeroFile lay.fileSize.toNat).replay d.world.issued) =
    .ok data ∧ allocHeaderLen ≤ data.length ∧ blockGeneration data = generation
  copies : ∀ ws, ws <+: d.world.issued → ∀ data,
    allocBlock P k payload.cipher ((zeroFile lay.fileSize.toNat).replay ws) = .ok data →
      blockGeneration data ≤ generation
  memory : generation ≤ d.session.mounted.container.store.generation
  bound : d.session.mounted.container.store.generation ≤ d.saves + 1
  baseline_eq : d.world.baseline payload.containerId = some baseline
  baseline_le : baseline ≤ generation

section Steps

variable {total : UInt64} {hidden : Option UInt64} {lay : Layout} {k : Key} {payload : HeaderPayload}
  {d d' : DeviceState} {s s' : OuterSession} {n g b : Nat}

theorem alloc_inside (hs : Sizes total hidden lay) (ws : List ByteFile.Write) :
    slotOffset outerAllocSlot + slotSize ≤ ((zeroFile lay.fileSize.toNat).replay ws).size := by
  have houter := hs.outer
  have hinside := hs.inside (p := .outerSlot outerAllocSlot) (by change 0 < _; omega)
  exact hinside.trans (ByteFile.size_le_replay ws (zeroFile lay.fileSize.toNat))

/-- Writes of calls are clear of the allocation slot. -/
theorem CallWrite.besideAlloc {x : ByteFile.Write} (hs : Sizes total hidden lay)
    (h : CallWrite lay true x) : BesideAlloc x := by
  obtain ⟨p, -, hne, hx⟩ := h
  have houter := hs.outer
  exact hx.beside hs (p := .outerSlot outerAllocSlot) (by change 0 < _; omega) (hne rfl).symm

/-- A step that writes nothing but calls do, and leaves the state file alone. -/
theorem DeviceInv.of_called (h : DeviceInv P lay k payload { session := s, isOpen := true, saves := n } g b)
    (hs : Sizes total hidden lay) (hid : payload.containerId ≠ zeroId)
    (hcalled : Called P lay k payload s s') :
    DeviceInv P lay k payload { session := s', isOpen := true, saves := n } g b := by
  obtain ⟨ws, hissued, hfile, hgood⟩ := hcalled.issues
  rw [h.outer.generation hid] at hgood
  have hbeside : ∀ x ∈ ws, BesideAlloc x := fun x hx => (hgood x hx).besideAlloc hs
  have hold : s.mounted.world.file =
      some ((zeroFile lay.fileSize.toNat).replay s.mounted.world.issued) := h.file
  refine ⟨hcalled.inv, hcalled.containerId.trans h.containerId, ?_, ?_, fun ws' hws' data hdata => ?_, ?_,
    ?_, ?_, h.baseline_le⟩
  · change s'.mounted.world.file = some (ByteFile.replay s'.mounted.world.issued _)
    rw [hfile, hold, hissued, ByteFile.replay_append]
    rfl
  · obtain ⟨data, hdata, hrest⟩ := h.saved
    refine ⟨data, ?_, hrest⟩
    change allocBlock P k payload.cipher (ByteFile.replay s'.mounted.world.issued _) = _
    rw [hissued, ByteFile.replay_append, allocBlock_replay _ _ _ (alloc_inside hs _) hbeside]
    exact hdata
  · change ws' <+: s'.mounted.world.issued at hws'
    rw [hissued] at hws'
    obtain ⟨ws₀, hws₀, hsame⟩ := allocBlock_of_prefix P k payload.cipher
      (alloc_inside hs []) hbeside hws'
    exact h.copies ws₀ hws₀ data (hsame.symm.trans hdata)
  · change g ≤ s'.mounted.container.store.generation
    rw [hcalled.generation]
    exact h.memory
  · change s'.mounted.container.store.generation ≤ n + 1
    rw [hcalled.generation]
    exact h.bound
  · change s'.mounted.world.rollback.get _ = _
    rw [hcalled.rollback]
    exact h.baseline_eq

/-- The slot writes of a flush: one generation further. -/
theorem DeviceInv.flushSlots (h : DeviceInv P lay k payload { session := s, isOpen := true, saves := n } g b)
    (hs : Sizes total hidden lay) (hid : payload.containerId ≠ zeroId) (hn : n + 2 < 2 ^ 64)
    {m : Mounted} (isOpen : Bool) (hrun : (flushSlots P).run s.mounted = .ok () m) :
    DeviceInv P lay k payload
        { session := { s with mounted := m, intact := true }, isOpen, saves := n + 1 }
        (s.mounted.container.store.generation + 1) b ∧
      m.container.store.generation = s.mounted.container.store.generation + 1 := by
  obtain ⟨hinv, -⟩ := h.outer.flushSlots hs hrun
  obtain ⟨st, bitmap, bytes, t, hrooted, hbitmap, hwritten, rfl⟩ := flushSlots_ok hrun
  obtain ⟨hshape, -, hgeneration⟩ := hrooted.sameShape
  have hstore : t.store = { st.saved with merkleDirty := true } := hwritten.store
  have hshape' := h.outer.shape
  have hgen : st.hasGeneration = true := hshape.hasGeneration.trans (h.outer.generation hid)
  have hbound : s.mounted.container.store.generation ≤ n + 1 := h.bound
  have hnext : st.saved.generation = s.mounted.container.store.generation + 1 := by
    change (if st.hasGeneration then (st.generation + 1) % 2 ^ 64 else st.generation) = _
    rw [hgen, if_pos rfl, hgeneration, Nat.mod_eq_of_lt (by omega)]
  have hwrote := World.Issued.of_wrote hwritten.wrote
  have hold : s.mounted.world.file =
      some ((zeroFile lay.fileSize.toNat).replay s.mounted.world.issued) := h.file
  have hissued : t.world.issued = s.mounted.world.issued ++ [⟨slotOffset st.allocSlot, bytes⟩] := hwrote.issued
  have halloc : st.allocSlot = outerAllocSlot := hshape.allocSlot.trans hshape'.allocSlot
  have hblock : allocBlock P k payload.cipher ((zeroFile lay.fileSize.toNat).replay t.world.issued) =
      .ok (st.saved.allocData bitmap) := by
    have hslice := @ByteFile.slice_replay s.mounted.world.issued []
      ⟨slotOffset st.allocSlot, bytes⟩ (zeroFile lay.fileSize.toNat) _ _ rfl hwritten.length
      (by simp)
    have hopens := hwritten.opens fun _ => allocData_ne_nil
    rw [halloc] at hslice hopens
    rw [allocBlock, hissued, halloc, hslice, @openSlot_congr _ st.saved _
      (hshape.masterKey.trans hshape'.masterKey).symm (hshape.cipher.trans hshape'.cipher).symm]
    exact hopens
  have hparse : blockGeneration (st.saved.allocData bitmap) = s.mounted.container.store.generation + 1 := by
    have hgen' : st.saved.hasGeneration = true := hgen
    rw [blockGeneration, parseAllocBlock_allocData hgen' (by rw [hnext]; omega)]
    · exact hnext
    · change st.slotLimit - st.slotStart < 2 ^ 64
      rw [hshape.slotLimit, hshape.slotStart, hshape'.slotLimit, hshape'.slotStart]
      exact lay.outerSlots.toNat_lt
  have hmem : t.store.generation = s.mounted.container.store.generation + 1 := by
    rw [hstore]
    exact hnext
  refine ⟨⟨hinv, h.containerId, ?_, ⟨_, hblock, ?_, hparse⟩, fun ws hws data hdata => ?_, ?_, ?_, ?_, ?_⟩,
    hmem⟩
  · change t.world.file = some (ByteFile.replay t.world.issued _)
    rw [hwrote.file_eq hold, hissued, ByteFile.replay_append]
  · rw [length_allocData]
    change allocHeaderLen ≤ (if st.hasGeneration then allocHeaderLen else 8) + _
    rw [hgen, if_pos rfl]
    exact Nat.le_add_right _ _
  · change ws <+: t.world.issued at hws
    rw [hissued] at hws
    rcases List.prefix_concat_iff.mp hws with rfl | hbefore
    · rw [← hissued] at hdata
      cases hblock.symm.trans hdata
      exact Nat.le_of_eq hparse
    · have hle := h.copies ws hbefore data hdata
      have hmemory : g ≤ s.mounted.container.store.generation := h.memory
      omega
  · exact Nat.le_of_eq hmem.symm
  · change t.store.generation ≤ n + 1 + 1
    omega
  · change t.world.rollback.get _ = _
    rw [hwrote.rollback]
    exact h.baseline_eq
  · have hle := h.baseline_le
    have hmemory : g ≤ s.mounted.container.store.generation := h.memory
    omega

/-- A flush that returns: the baseline is the generation it has saved. -/
theorem DeviceInv.flushed (h : DeviceInv P lay k payload { session := s, isOpen := true, saves := n } g b)
    (hs : Sizes total hidden lay) (hid : payload.containerId ≠ zeroId) (hn : n + 2 < 2 ^ 64)
    {m : Mounted} (hrun : (flush P).run s.mounted = .ok () m) :
    DeviceInv P lay k payload
      { session := { s with mounted := m, intact := true }, isOpen := true, saves := n + 1 }
      (s.mounted.container.store.generation + 1) (s.mounted.container.store.generation + 1) := by
  obtain ⟨hinv, -⟩ := h.outer.flushed hs hrun
  obtain ⟨m₁, hslots, hcontainer, hfile, hissued, hbaseline⟩ := flush_ok hrun
  obtain ⟨hsaved, hmem⟩ := h.flushSlots hs hid hn true hslots
  have hsame : m₁.container.containerId = payload.containerId := hsaved.containerId
  obtain ⟨container, world⟩ := m
  cases hcontainer
  rw [hsame] at hbaseline
  refine ⟨hinv, hsaved.containerId, ?_, ?_, ?_, hsaved.memory, hsaved.bound, ?_, Nat.le_refl _⟩
  · change world.file = some (ByteFile.replay world.issued _)
    rw [hfile, hissued]
    exact hsaved.file
  · change ∃ data, allocBlock P k payload.cipher (ByteFile.replay world.issued _) = _ ∧ _
    rw [hissued]
    exact hsaved.saved
  · change ∀ ws, ws <+: world.issued → _
    rw [hissued]
    exact hsaved.copies
  · exact (hbaseline hid).trans (by rw [hmem])

/-- A step that leaves the file and the state file alone. -/
theorem DeviceInv.quiet {isOpen : Bool} (h : DeviceInv P lay k payload d g b)
    (hinv : OuterInv P lay k payload s) (hfile : s.mounted.world.file = d.world.file)
    (hissued : s.mounted.world.issued = d.world.issued)
    (hrollback : s.mounted.world.rollback = d.world.rollback)
    (hcontainerId : s.mounted.container.containerId = payload.containerId)
    (hmemory : g ≤ s.mounted.container.store.generation)
    (hbound : s.mounted.container.store.generation ≤ n + 1) :
    DeviceInv P lay k payload { session := s, isOpen, saves := n } g b := by
  refine ⟨hinv, hcontainerId, ?_, ?_, ?_, hmemory, hbound, ?_, h.baseline_le⟩
  · change s.mounted.world.file = some (ByteFile.replay s.mounted.world.issued _)
    rw [hfile, hissued]
    exact h.file
  · change ∃ data, allocBlock P k payload.cipher (ByteFile.replay s.mounted.world.issued _) = _ ∧ _
    rw [hissued]
    exact h.saved
  · change ∀ ws, ws <+: s.mounted.world.issued → _
    rw [hissued]
    exact h.copies
  · change s.mounted.world.rollback.get _ = _
    rw [hrollback]
    exact h.baseline_eq

/-- A flush that fails may have counted its generation in memory. -/
theorem DeviceInv.flushFailed (h : DeviceInv P lay k payload { session := s, isOpen := true, saves := n } g b)
    (hn : n + 2 < 2 ^ 64) {m : Mounted} {e : Fault} (hrun : (flush P).run s.mounted = .error e m) :
    DeviceInv P lay k payload { session := { s with mounted := m }, isOpen := true, saves := n + 1 } g b := by
  obtain ⟨hinv, -⟩ := h.outer.flushFailed hrun
  obtain ⟨hdrew, st, hst, hcontainer⟩ := flushSlots_error (flush_error hrun)
  have hgeneration : st.generation = s.mounted.container.store.generation := by
    rcases hst with rfl | hrooted
    · rfl
    · exact hrooted.sameShape.2.2
  have hmemory : g ≤ s.mounted.container.store.generation := h.memory
  have hbound : s.mounted.container.store.generation ≤ n + 1 := h.bound
  have hsaved : st.saved.generation = st.generation + 1 ∨ st.saved.generation = st.generation := by
    unfold SlotStore.saved
    dsimp only
    split
    · exact .inl (Nat.mod_eq_of_lt (by omega))
    · exact .inr rfl
  obtain ⟨container, world⟩ := m
  have hcontainerId := h.containerId
  rcases hcontainer with rfl | rfl
  · refine h.quiet hinv hdrew.file hdrew.issued hdrew.rollback hcontainerId ?_ ?_
    · exact hgeneration ▸ hmemory
    · change st.generation ≤ _
      omega
  · refine h.quiet hinv hdrew.file hdrew.issued hdrew.rollback hcontainerId ?_ ?_
    · change g ≤ st.saved.generation
      omega
    · change st.saved.generation ≤ _
      omega

/-- The block that `open` reads in the file of a history. -/
theorem DeviceInv.load (h : DeviceInv P lay k payload d g b) (hs : Sizes total hidden lay)
    (hid : payload.containerId ≠ zeroId) {header : HeaderPayload} {limit : Nat} {store : SlotStore}
    (hheader : header.containerId = payload.containerId ∧ header.cipher = payload.cipher)
    (hload : (storeToLoad k header 0 limit outerAllocSlot).loadFreeList P d.world = .ok store) :
    store.generation = g := by
  obtain ⟨data, hdata, hlen, hgeneration⟩ := h.saved
  have hgen : (storeToLoad k header 0 limit outerAllocSlot).hasGeneration = true :=
    decide_eq_true (by rw [hheader.1]; exact hid)
  have hread : (storeToLoad k header 0 limit outerAllocSlot).read P d.world outerAllocSlot = .ok data :=
    (read_allocBlock h.file rfl hheader.2).mpr ⟨alloc_inside hs _, hdata⟩
  rcases loadFreeList_ok hload with ⟨hshort, -⟩ | ⟨data', hread', -, rfl⟩
  · have hlt := hshort data hread
    rw [hgen, if_pos rfl] at hlt
    omega
  · cases hread.symm.trans hread'
    rw [hgen]
    exact hgeneration

theorem DeviceInv.opened (h : DeviceInv P lay k payload { session := s, isOpen := false, saves := n } g b)
    (hs : Sizes total hidden lay) (hslots : payload.outerSlots = lay.outerSlots)
    (hid : payload.containerId ≠ zeroId) {credential : OpenCredential} {c : VnmContainer}
    (hopen : openContainer P s.mounted.world credential = .ok c) (houter : c.isHidden = false)
    (hkey : c.kMaster = s.mounted.container.kMaster) (hcipher : c.cipher = s.mounted.container.cipher) :
    DeviceInv P lay k payload
      { session := { s with mounted := { container := c, world := s.mounted.world } }
        isOpen := true, saves := n } g b := by
  have hgen : s.mounted.container.store.hasGeneration = true := h.outer.generation hid
  have hinv := h.outer.opened hs hslots hopen houter hkey hcipher fun hfalse => by
    rw [hgen] at hfalse
    cases hfalse
  obtain ⟨l, store, hload, rfl⟩ := h.outer.reopened hs hslots hopen houter hkey hcipher
  have hstore : store.generation = g := h.load hs hid ⟨rfl, rfl⟩ hload
  have hmemory : g ≤ s.mounted.container.store.generation := h.memory
  have hbound : s.mounted.container.store.generation ≤ n + 1 := h.bound
  refine h.quiet hinv rfl rfl rfl rfl (Nat.le_of_eq hstore.symm) ?_
  change store.generation ≤ n + 1
  omega

/-! ### Runs -/

theorem UnflushedStep.saves_le (h : UnflushedStep P d d') : d.saves ≤ d'.saves := by
  cases h with
  | called | closed | opened => exact Nat.le_refl _
  | flushFailed | crashed => exact Nat.le_succ _

theorem FlushedStep.saves_eq (h : FlushedStep P d d') : d'.saves = d.saves + 1 := by
  cases h with
  | flushed => rfl

/-- The baseline stays, and the generation does not fall. -/
theorem DeviceInv.unflushed (h : DeviceInv P lay k payload d g b) (hs : Sizes total hidden lay)
    (hroot : RootInside lay payload) (hslots : payload.outerSlots = lay.outerSlots)
    (hid : payload.containerId ≠ zeroId) (hstep : UnflushedStep P d d') (hn : d'.saves + 1 < 2 ^ 64) :
    ∃ g', DeviceInv P lay k payload d' g' b := by
  cases hstep with
  | called hcall => exact ⟨g, h.of_called hs hid (h.outer.called hs hroot hcall)⟩
  | flushFailed hrun => exact ⟨g, h.flushFailed hn hrun⟩
  | crashed hrun => exact ⟨_, (h.flushSlots hs hid hn false hrun).1⟩
  | closed => exact ⟨g, h.quiet h.outer rfl rfl rfl h.containerId h.memory h.bound⟩
  | opened hopen houter hkey hcipher => exact ⟨g, h.opened hs hslots hid hopen houter hkey hcipher⟩

theorem DeviceInv.unflushed_run (h : DeviceInv P lay k payload d g b) (hs : Sizes total hidden lay)
    (hroot : RootInside lay payload) (hslots : payload.outerSlots = lay.outerSlots)
    (hid : payload.containerId ≠ zeroId) (hrun : Relation.ReflTransGen (UnflushedStep P) d d')
    (hn : d'.saves + 1 < 2 ^ 64) : ∃ g', DeviceInv P lay k payload d' g' b := by
  induction hrun with
  | refl => exact ⟨g, h⟩
  | tail _ hstep ih =>
    have hle := hstep.saves_le
    obtain ⟨g', hinv⟩ := ih (by omega)
    exact hinv.unflushed hs hroot hslots hid hstep hn

theorem DeviceInv.run (h : DeviceInv P lay k payload d g b) (hs : Sizes total hidden lay)
    (hroot : RootInside lay payload) (hslots : payload.outerSlots = lay.outerSlots)
    (hid : payload.containerId ≠ zeroId) (hrun : Relation.ReflTransGen (DeviceStep P) d d')
    (hn : d'.saves + 1 < 2 ^ 64) : ∃ g' b', DeviceInv P lay k payload d' g' b' := by
  induction hrun with
  | refl => exact ⟨g, b, h⟩
  | tail _ hstep ih =>
    rcases hstep with hstep | hstep
    · have hle := hstep.saves_le
      obtain ⟨g', b', hinv⟩ := ih (by omega)
      obtain ⟨g'', hinv'⟩ := hinv.unflushed hs hroot hslots hid hstep hn
      exact ⟨g'', b', hinv'⟩
    · have heq := hstep.saves_eq
      obtain ⟨g', b', hinv⟩ := ih (by omega)
      cases hstep with
      | flushed hflush => exact ⟨_, _, hinv.flushed hs hid hn hflush⟩

end Steps

/-! ## A new container -/

section Create

variable {outerPassword : List UInt8} {totalSizeBytes : UInt64} {cipher : CipherAlgorithm}
  {kdfProfile : String} {label : Option String} {hidden : Option HiddenVolumeOptions}
  {w w' : World} {m : VnmContainer} {b : Blocks} {k : Key} {n : Nat}

/-- The pieces of a fill behind the first. -/
def laterPieces (w : World) (n : Nat) : List ByteFile.Write :=
  (List.range (fillPieces n - 1)).map fun i => fillWrite w n (i + 1)

theorem fillWrites_eq (hpos : 0 < fillPieces n) : fillWrites w n = fillWrite w n 0 :: laterPieces w n := by
  obtain ⟨pieces, hpieces⟩ : ∃ pieces, fillPieces n = pieces + 1 := ⟨fillPieces n - 1, by omega⟩
  rw [fillWrites, laterPieces, hpieces, List.range_succ_eq_map, List.map_cons, List.map_map]
  rfl

/-- The allocation slot lies within the first piece. -/
theorem laterPieces_beside {x : ByteFile.Write} (hx : x ∈ laterPieces w n) : BesideAlloc x := by
  obtain ⟨i, -, rfl⟩ := List.mem_map.mp hx
  have hend : slotOffset outerAllocSlot + slotSize ≤ 65536 := by decide
  refine .inl ?_
  change slotOffset outerAllocSlot + slotSize ≤ (i + 1) * 65536
  omega

/-- A file of zeros has no allocation block. -/
theorem allocBlock_zeroFile {data : List UInt8} : allocBlock P k cipher (zeroFile n) ≠ .ok data := by
  have htake : ((zeroFile n).slice (slotOffset outerAllocSlot) slotSize).take 4 = [0, 0, 0, 0] := by
    rw [ByteFile.take_slice (by decide)]
    rfl
  intro h
  unfold allocBlock openSlot at h
  dsimp only at h
  rw [htake, if_pos (.inl (by decide))] at h
  cases h

namespace Created

/-- The writes of `create` between the first piece of the fill and the allocation block. -/
def middleWrites (w : World) (b : Blocks) (hidden : Bool) (outerPassword : List UInt8) :
    List ByteFile.Write :=
  laterPieces w b.lay.fileSize.toNat ++ b.hiddenWrites ++
    ([⟨0, b.hdr⟩, ⟨outerBackupOffset b.lay.fileSize.toNat hidden, b.hdr⟩] ++
      (if outerPassword.isEmpty then [] else [⟨pwSlotOffset 0, b.pwSlot⟩]) ++
      [⟨slotOffset outerRootSlot, b.root⟩])

theorem fillPieces_pos
    (h : Created P outerPassword totalSizeBytes cipher kdfProfile label hidden w m w' b) :
    0 < fillPieces b.lay.fileSize.toNat := by
  have hsize := alloc_inside h.sizes []
  have hend : 0 < slotOffset outerAllocSlot + slotSize := by decide
  change slotOffset outerAllocSlot + slotSize ≤ b.lay.fileSize.toNat at hsize
  unfold fillPieces
  omega

theorem issued_eq (h : Created P outerPassword totalSizeBytes cipher kdfProfile label hidden w m w' b) :
    w'.issued = [fillWrite w b.lay.fileSize.toNat 0] ++
      middleWrites w b hidden.isSome outerPassword ++ [⟨slotOffset outerAllocSlot, b.alloc⟩] := by
  rw [h.issued, fillWrites_eq h.fillPieces_pos, middleWrites, outerWrites]
  simp only [List.append_assoc, List.cons_append, List.nil_append]

theorem middleWrites_beside
    (h : Created P outerPassword totalSizeBytes cipher kdfProfile label hidden w m w' b)
    {x : ByteFile.Write} (hx : x ∈ middleWrites w b hidden.isSome outerPassword) : BesideAlloc x := by
  have hbeside : ∀ {p : Part}, AtPart b.lay p x → p ≠ .outerSlot outerAllocSlot → BesideAlloc x :=
    fun hat hne => hat.beside h.sizes h.alloc.has hne.symm
  unfold middleWrites at hx
  simp only [List.mem_append] at hx
  rcases hx with (hx | hx) | (hx | hx) | hx
  · exact laterPieces_beside hx
  · cases hidden with
    | none =>
      rw [h.hiddenNone rfl] at hx
      cases hx
    | some opts =>
      obtain ⟨p, hp, hat⟩ := (h.hiddenSome rfl).atPart h.sizes rfl x hx
      refine hbeside hat ?_
      rintro rfl
      rcases hp with hp | hp | ⟨s, hp⟩ <;> cases hp
  · rcases List.mem_cons.mp hx with rfl | hx
    · exact hbeside h.header (by simp)
    · cases List.mem_singleton.mp hx
      exact hbeside h.backup (by simp)
  · by_cases hempty : outerPassword.isEmpty = true
    · rw [if_pos hempty] at hx
      cases hx
    · rw [if_neg hempty] at hx
      cases List.mem_singleton.mp hx
      exact hbeside (h.firstSlot fun hnil => hempty (by rw [hnil]; rfl)) (by simp)
  · cases List.mem_singleton.mp hx
    exact hbeside h.root (by simp [outerRootSlot, outerAllocSlot])

/-- The block of the new file. -/
theorem allocBlock_eq
    (h : Created P outerPassword totalSizeBytes cipher kdfProfile label hidden w m w' b) :
    allocBlock P (drawnKey w b.lay) cipher ((zeroFile b.lay.fileSize.toNat).replay w'.issued) =
      .ok ((emptied (outerStore b.lay cipher (drawnKey w b.lay)) outerRootSlot).saved.allocData
        b.bitmap) :=
  (h.holds_alloc (show (SlotStore.new (drawnKey w b.lay) cipher 0 0 outerAllocSlot
    true).masterKey = _ from rfl) rfl).2

theorem deviceInv (h : Created P outerPassword totalSizeBytes cipher kdfProfile label hidden w m w' b)
    (hfill : ∀ data, allocBlock P (drawnKey w b.lay) cipher
      ((zeroFile b.lay.fileSize.toNat).replay (fillWrites w b.lay.fileSize.toNat)) ≠ .ok data) :
    DeviceInv P b.lay (drawnKey w b.lay) (newPayload b cipher w outerPassword kdfProfile label)
      (.created m w') 1 1 := by
  have hm := h.parts.container
  have hone : blockGeneration ((emptied (outerStore b.lay cipher (drawnKey w b.lay))
      outerRootSlot).saved.allocData b.bitmap) = 1 := by
    rw [blockGeneration, parseAllocBlock_allocData rfl (by change (0 + 1) % 2 ^ 64 < 2 ^ 64; decide)
      (show b.lay.outerSlots.toNat - 0 < 2 ^ 64 from b.lay.outerSlots.toNat_lt)]
    rfl
  refine ⟨h.outerInv, ?_, h.file, ⟨_, h.allocBlock_eq, ?_, hone⟩, fun ws hws data hdata => ?_, ?_, ?_, ?_,
    Nat.le_refl 1⟩
  · change m.containerId = _
    rw [hm]
    rfl
  · rw [length_allocData]
    exact Nat.le_add_right _ _
  · change ws <+: w'.issued at hws
    rw [h.issued_eq] at hws
    rcases List.prefix_concat_iff.mp hws with rfl | hbefore
    · rw [← h.issued_eq] at hdata
      cases h.allocBlock_eq.symm.trans hdata
      exact Nat.le_of_eq hone
    · obtain ⟨ws₀, hws₀, hsame⟩ := allocBlock_of_prefix P (drawnKey w b.lay) cipher
        (alloc_inside h.sizes []) (fun x hx => h.middleWrites_beside hx) hbefore
      rw [ByteFile.replay_nil] at hsame
      have hblock := hsame.symm.trans hdata
      rcases List.prefix_cons_iff.mp hws₀ with rfl | ⟨t, rfl, ht⟩
      · exact absurd hblock allocBlock_zeroFile
      · cases List.prefix_nil.mp ht
        refine absurd ?_ (hfill data)
        rw [fillWrites_eq h.fillPieces_pos]
        have hlater := allocBlock_replay P (drawnKey w b.lay) cipher
          (alloc_inside h.sizes [fillWrite w b.lay.fileSize.toNat 0])
          fun x (hx : x ∈ laterPieces w b.lay.fileSize.toNat) => laterPieces_beside hx
        rw [← ByteFile.replay_append] at hlater
        exact hlater.trans hblock
  · change 1 ≤ m.store.generation
    rw [h.generation]
  · change m.store.generation ≤ 0 + 1
    rw [h.generation]
  · have hbase := h.baseline (drawnContainerId w b.lay)
    rw [if_pos rfl] at hbase
    exact hbase

end Created

/-! ## Sound and complete -/

/-- A credential of the container that gets past the authentication loads the outer volume. -/
theorem OfContainer.openOuter {credential : OpenCredential} {f : ByteFile} (hf : w.file = some f)
    (h : OfContainer P m w f credential) :
    openContainer P w credential = .error .authenticationFailed ∨
      ∃ header, header.containerId = m.containerId ∧ header.cipher = m.cipher ∧
        openContainer P w credential = openOuter P w m.kMaster header := by
  cases hfind : findOuter P w f.size credential with
  | none =>
    refine .inl ?_
    cases credential with
    | password pw => exact openContainer_password_none hf hfind (h.hidden hfind pw rfl)
    | privateKey sk => exact openContainer_privateKey hf hfind
  | some found =>
    obtain ⟨k, header⟩ := found
    obtain ⟨⟨c, hmaster⟩, hheader⟩ := findOuter_eq_some.mp hfind
    cases h.master k c hmaster
    obtain ⟨hid, hcipher⟩ := h.header header hheader
    exact .inr ⟨header, hid, hcipher, openContainer_outer hf hfind⟩

section Invariant

variable {lay : Layout} {payload : HeaderPayload} {d d' : DeviceState} {g g' b : Nat}

/-- The current file is never refused as a rollback. -/
theorem DeviceInv.currentAccepted {total : UInt64} {size : Option UInt64}
    (h : DeviceInv P lay k payload d g b) (hs : Sizes total size lay) (hkey : m.kMaster = k)
    (hid : m.containerId = payload.containerId) (hcipher : m.cipher = payload.cipher)
    (hne : payload.containerId ≠ zeroId) : CurrentAccepted P m d := by
  intro credential f hf hof current expected hopen
  rcases hof.openOuter hf with hauth | ⟨header, hid', hcipher', houter⟩
  · cases hauth.symm.trans hopen
  · rw [houter, hkey] at hopen
    have hsame := And.intro (hid'.trans hid) (hcipher'.trans hcipher)
    cases hload : (storeToLoad k header 0 header.outerSlots.toNat outerAllocSlot).loadFreeList P d.world with
    | error e =>
      have herror : openOuter P d.world k header = .error e := except_bind_error.mpr (.inl hload)
      cases herror.symm.trans hopen
      rcases loadFreeList_error hload with he | ⟨reason, he⟩ <;> cases he
    | ok store =>
      have hstore := h.load hs hne hsame hload
      have hok : openOuter P d.world k header = .ok _ := openVolume_eq_ok.mpr ⟨store, hload,
        fun _ stored hstored => by
          rw [hsame.1, h.baseline_eq] at hstored
          cases hstored
          rw [hstore]
          exact h.baseline_le, rfl⟩
      cases hok.symm.trans hopen

/-- What a prefix of the history loads has a generation of that time. -/
theorem DeviceInv.load_restored (h : DeviceInv P lay k payload d g b) {ws : List ByteFile.Write}
    (hws : ws <+: d.world.issued) {v : World} {header : HeaderPayload} {limit : Nat} {store : SlotStore}
    (hcipher : header.cipher = payload.cipher) (hid : header.containerId ≠ zeroId)
    (hload : (storeToLoad k header 0 limit outerAllocSlot).loadFreeList P (restored lay ws v) =
      .ok store) : store.generation ≤ g := by
  rcases loadFreeList_ok hload with ⟨-, rfl⟩ | ⟨data, hread, -, rfl⟩
  · exact Nat.zero_le g
  · have hgen : (storeToLoad k header 0 limit outerAllocSlot).hasGeneration = true := decide_eq_true hid
    obtain ⟨-, hblock⟩ := (read_allocBlock (w := restored lay ws v) rfl rfl hcipher).mp hread
    rw [hgen]
    exact h.copies ws hws data hblock

/-- Copies of an earlier generation than the baseline are refused. -/
theorem DeviceInv.copiesRefused {c : Nat} (h : DeviceInv P lay k payload d g b)
    (h' : DeviceInv P lay k payload d' g' c) (hlt : g < c) (hkey : m.kMaster = k)
    (hid : m.containerId = payload.containerId) (hcipher : m.cipher = payload.cipher)
    (hne : payload.containerId ≠ zeroId) : CopiesRefused P m lay d d' := by
  intro ws hws credential hof
  cases hopen : openContainer P (restored lay ws d'.world) credential with
  | error e => exact ⟨e, rfl⟩
  | ok opened =>
    rcases hof.openOuter rfl with hauth | ⟨header, hid', hcipher', houter⟩
    · cases hauth.symm.trans hopen
    · rw [houter, hkey] at hopen
      obtain ⟨store, hload, hbase, -⟩ := openVolume_eq_ok.mp hopen
      have hsame : header.containerId = payload.containerId := hid'.trans hid
      have hbaseline : (restored lay ws d'.world).baseline header.containerId = some c := by
        rw [hsame]
        exact h'.baseline_eq
      have hnew := hbase (by rw [hsame]; exact hne) c hbaseline
      have hold := h.load_restored hws (hcipher'.trans hcipher) (by rw [hsame]; exact hne) hload
      omega

end Invariant

/-- Anti-rollback is sound and complete while the generation does not wrap: the current file
    is never refused as a rollback, and after a flush that returned no copy from before it
    opens. -/
theorem anti_rollback {lay : Layout}
    (hcreate : (create P outerPassword totalSizeBytes cipher kdfProfile label hidden).run w = .ok m w')
    (hlay : layout totalSizeBytes (hidden.map (·.sizeBytes)) = .ok lay) (hid : m.containerId ≠ zeroId)
    (hfill : ∀ data, allocBlock P m.kMaster m.cipher
      ((zeroFile lay.fileSize.toNat).replay (fillWrites w lay.fileSize.toNat)) ≠ .ok data) :
    (∀ d, Relation.ReflTransGen (DeviceStep P) (.created m w') d → d.saves + 1 < 2 ^ 64 →
        CurrentAccepted P m d) ∧
      ∀ d d₁ d', Relation.ReflTransGen (DeviceStep P) (.created m w') d → FlushedStep P d d₁ →
        Relation.ReflTransGen (UnflushedStep P) d₁ d' → d'.saves + 1 < 2 ^ 64 →
        CopiesRefused P m lay d d' := by
  obtain ⟨b, h⟩ := create_ok hcreate
  cases hlay.symm.trans h.layout
  have hm := h.parts.container
  have hkey : m.kMaster = drawnKey w b.lay := by rw [hm]
  have hcipher : m.cipher = cipher := by rw [hm]
  have hidEq : m.containerId = drawnContainerId w b.lay := by rw [hm]
  rw [hkey, hcipher] at hfill
  rw [hidEq] at hid
  have hnew := h.deviceInv hfill
  refine ⟨fun d hrun hn => ?_, fun d d₁ d' hrun hflush hrest hn => ?_⟩
  · obtain ⟨g, c, hinv⟩ := hnew.run h.sizes h.rootInside rfl hid hrun hn
    exact hinv.currentAccepted h.sizes hkey hidEq hcipher hid
  · have hmono : d₁.saves ≤ d'.saves := by
      clear hn
      induction hrest with
      | refl => exact Nat.le_refl _
      | tail _ hstep ih => exact ih.trans hstep.saves_le
    have heq := hflush.saves_eq
    obtain ⟨g, c, hinv⟩ := hnew.run h.sizes h.rootInside rfl hid hrun (by omega)
    cases hflush with
    | @flushed s n m₁ hflush =>
      have hsaves : n + 1 ≤ d'.saves := hmono
      have hsaved := hinv.flushed h.sizes hid (by omega) hflush
      obtain ⟨g', hinv'⟩ := hsaved.unflushed_run h.sizes h.rootInside rfl hid hrest hn
      have hmemory : g ≤ s.mounted.container.store.generation := hinv.memory
      exact hinv.copiesRefused hinv' (by omega) hkey hidEq hcipher hid

/-! ### A million bytes -/

/-- Repeated bytes other than zero are no allocation block: they name a length past the slot. -/
theorem fill_freePath (hn : 65536 ≤ n) {data : List UInt8} :
    allocBlock P k cipher ((zeroFile n).replay (fillWrites (freePath 7) n)) ≠ .ok data := by
  have hpos : 0 < fillPieces n := by
    unfold fillPieces
    omega
  have hinside : slotOffset outerAllocSlot + slotSize ≤ 65536 := by decide
  have htake : (((zeroFile n).replay [fillWrite (freePath 7) n 0]).slice (slotOffset outerAllocSlot)
      slotSize).take 4 = [7, 7, 7, 7] := by
    have hdata : (fillWrite (freePath 7) n 0).data = List.replicate 65536 7 := by
      change ((List.range 65536).map fun _ => (7 : UInt8)).take (n - 0 * 65536) = _
      rw [List.map_const', List.length_range, List.take_replicate, Nat.min_eq_right (by omega)]
    rw [ByteFile.take_slice (by decide)]
    have hslice := ByteFile.slice_write_self 0 (List.replicate 65536 (7 : UInt8)) (zeroFile n)
    rw [List.length_replicate] at hslice
    have hfour := @ByteFile.slice_slice ((zeroFile n).write 0 (List.replicate 65536 7)) 0 65536
      (slotOffset outerAllocSlot) 4 (by decide)
    rw [hslice, List.drop_replicate, List.take_replicate, Nat.zero_add] at hfour
    change ((zeroFile n).write 0 (fillWrite (freePath 7) n 0).data).slice _ 4 = _
    rw [hdata, ← hfour]
    decide +kernel
  rw [fillWrites_eq hpos, ← List.singleton_append, ByteFile.replay_append,
    allocBlock_replay _ _ _ (hinside.trans (hn.trans (ByteFile.size_le_replay _ (zeroFile n))))
      fun x (hx : x ∈ laterPieces (freePath 7) n) => laterPieces_beside hx]
  intro h
  unfold allocBlock openSlot at h
  dsimp only at h
  rw [htake, if_pos (.inr (by decide))] at h
  cases h

section Million

variable {v : UInt8}

/-- The copy made right after `create`, put back. -/
theorem Created.ofContainer_restored (h : Created plain outerPassword totalSizeBytes
      .xchacha20Poly1305 kdfProfile label hidden (freePath v) m w' b) (hpw : outerPassword ≠ [])
    (hv : ∀ c, v ≠ plainMark c) (x : World) :
    OfContainer plain m (restored b.lay w'.issued x) ((zeroFile b.lay.fileSize.toNat).replay w'.issued)
      (.password outerPassword) := by
  have hm := h.parts.container
  have hkey : m.kMaster = drawnKey (freePath v) b.lay := by rw [hm]
  obtain ⟨⟨c, hmaster⟩, hheader⟩ := h.found_plain hpw hv (x := restored b.lay w'.issued x) rfl h.granted
  refine ⟨fun k c' hk => ?_, fun header hfound => ?_, fun hnone => ?_⟩
  · rw [hkey]
    cases hmaster.symm.trans hk
    rfl
  · rw [hkey] at hfound
    cases hheader.symm.trans hfound
    rw [hm]
    exact ⟨rfl, rfl⟩
  · cases (findOuter_eq_some.mpr ⟨⟨c, hmaster⟩, hheader⟩).symm.trans hnone

theorem created_million_id {w' : World} {m : VnmContainer} {b : Blocks}
    (h : Created plain [1] 1000000 .xchacha20Poly1305 kdfProfile label hidden (freePath 7) m w' b) :
    m.containerId ≠ zeroId := by
  have hm := h.parts.container
  rw [hm]
  intro hzero
  have hbytes := drawn_freePath 7 (65536 * fillPieces b.lay.fileSize.toNat + 32) 16
  exact absurd (hbytes.symm.trans (congrArg List.Vector.toList hzero)) (by decide)

/-- After one flush the new container's first copy does not open any more. -/
theorem anti_rollback_flushed :
    ∃ m w' m₁ e, (create plain [1] 1000000 .xchacha20Poly1305 "interactive" (some "vault") none).run
        (freePath 7) = .ok m w' ∧ (flush plain).run { container := m, world := w' } = .ok () m₁ ∧
      openContainer plain (restored ⟨30, 0, 512, 999928⟩ w'.issued m₁.world) (.password [1]) =
        .error e := by
  obtain ⟨m, w', hcreate⟩ := create_million_isOk 7
  obtain ⟨b, h⟩ := create_ok hcreate
  have hmillion : layout 1000000 none = .ok ⟨30, 0, 512, 999928⟩ := rfl
  have hlay : b.lay = ⟨30, 0, 512, 999928⟩ := Except.ok.inj (h.layout.symm.trans hmillion)
  have hmarks : ∀ c, (7 : UInt8) ≠ plainMark c := fun c => by cases c <;> decide
  have hgen : m.store.hasGeneration = true := by
    rw [h.store]
    rfl
  have hfits : AllocFits .xchacha20Poly1305 b.lay.outerSlots.toNat := by rw [hlay]; decide
  obtain ⟨m₁, hflush⟩ := h.outerInv.flush_isOk h.sizes hgen hfits
  obtain ⟨e, he⟩ := (anti_rollback hcreate
    (show layout 1000000 none = .ok ⟨30, 0, 512, 999928⟩ from rfl) (created_million_id h)
    fun _ => fill_freePath (by decide)).2 _ _ _ .refl (.flushed hflush) .refl
    (show 0 + 1 + 1 < 2 ^ 64 by decide) w'.issued List.prefix_rfl (.password [1]) (by
      rw [← hlay]
      exact h.ofContainer_restored (by simp) hmarks m₁.world)
  exact ⟨m, w', m₁, e, hcreate, hflush, he⟩

/-- Flushed again and again, the generation goes round. -/
theorem Created.flushed_often (h : Created plain outerPassword totalSizeBytes cipher kdfProfile label
      hidden w m w' b) (hfits : AllocFits cipher b.lay.outerSlots.toNat) (n : Nat) :
    ∃ s, Relation.ReflTransGen (DeviceStep plain) (.created m w')
        { session := s, isOpen := true, saves := n } ∧
      OuterInv plain b.lay (drawnKey w b.lay) (newPayload b cipher w outerPassword kdfProfile label) s ∧
      s.mounted.container.store.hasGeneration = true ∧ s.mounted.container.containerId = m.containerId ∧
      s.mounted.container.store.generation = (n + 1) % 2 ^ 64 ∧ w'.issued <+: s.mounted.world.issued := by
  induction n with
  | zero =>
    refine ⟨.created m w', .refl, h.outerInv, ?_, rfl, h.generation, List.prefix_rfl⟩
    change m.store.hasGeneration = true
    rw [h.store]
    rfl
  | succ n ih =>
    obtain ⟨s, hrun, hinv, hgen, hid, hgeneration, hissued⟩ := ih
    obtain ⟨m₁, hflush⟩ := hinv.flush_isOk h.sizes hgen hfits
    obtain ⟨hinv', ws, hws, -, -⟩ := hinv.flushed h.sizes hflush
    obtain ⟨hid', hgen', hgeneration', -⟩ := flush_generation hflush hgen
    refine ⟨_, hrun.tail (.flushed (.flushed hflush)), hinv', hgen', hid'.trans hid, ?_, ?_⟩
    · rw [hgeneration', hgeneration, Nat.mod_add_mod]
    · exact hissued.trans (hws ▸ List.prefix_append _ ws)

/-- With 2^64 - 1 flushes the generation is back at 0, and the copy made right after `create`
    opens. -/
theorem generation_wraps : ¬ ∀ (P : Primitives) (outerPassword : List UInt8) (totalSizeBytes : UInt64)
    (cipher : CipherAlgorithm) (kdfProfile : String) (label : Option String)
    (hidden : Option HiddenVolumeOptions) (lay : Layout) (w w' : World) (m : VnmContainer),
    (create P outerPassword totalSizeBytes cipher kdfProfile label hidden).run w = .ok m w' →
    layout totalSizeBytes (hidden.map (·.sizeBytes)) = .ok lay → m.containerId ≠ zeroId →
    (∀ data, allocBlock P m.kMaster m.cipher
      ((zeroFile lay.fileSize.toNat).replay (fillWrites w lay.fileSize.toNat)) ≠ .ok data) →
    (∀ d, Relation.ReflTransGen (DeviceStep P) (.created m w') d → CurrentAccepted P m d) ∧
      ∀ d d₁ d', Relation.ReflTransGen (DeviceStep P) (.created m w') d → FlushedStep P d d₁ →
        Relation.ReflTransGen (UnflushedStep P) d₁ d' → CopiesRefused P m lay d d' := by
  intro hall
  obtain ⟨m, w', hcreate⟩ := create_million_isOk 7
  obtain ⟨b, h⟩ := create_ok hcreate
  have hmillion : layout 1000000 none = .ok ⟨30, 0, 512, 999928⟩ := rfl
  have hlay : b.lay = ⟨30, 0, 512, 999928⟩ := Except.ok.inj (h.layout.symm.trans hmillion)
  have hmarks : ∀ c, (7 : UInt8) ≠ plainMark c := fun c => by cases c <;> decide
  have hfits : AllocFits .xchacha20Poly1305 b.lay.outerSlots.toNat := by rw [hlay]; decide
  obtain ⟨s, hrun, hinv, hgen, hid, hgeneration, hissued⟩ := h.flushed_often hfits (2 ^ 64 - 2)
  obtain ⟨m₁, hflush⟩ := hinv.flush_isOk h.sizes hgen hfits
  obtain ⟨-, -, -, hbaseline⟩ := flush_generation hflush hgen
  have hne := created_million_id h
  rw [hid, hgeneration] at hbaseline
  have hzero := hbaseline hne
  have hof := h.ofContainer_restored (by simp) hmarks m₁.world
  have hm := h.parts.container
  have hkey : m.kMaster = drawnKey (freePath 7) b.lay := by rw [hm]
  have hidEq : m.containerId = drawnContainerId (freePath 7) b.lay := by rw [hm]
  obtain ⟨e, he⟩ := (hall _ _ _ _ _ _ _ _ _ _ _ hcreate h.layout hne
    fun _ => by
      rw [hlay]
      exact fill_freePath (by decide)).2 _ _ _ hrun (.flushed hflush) .refl w'.issued hissued _ hof
  obtain ⟨⟨c, hmaster⟩, hheader⟩ := h.found_plain (by simp) hmarks
    (x := restored b.lay w'.issued m₁.world) rfl h.granted
  obtain ⟨store, hopen⟩ := h.opens (v := restored b.lay w'.issued m₁.world) rfl (Nat.le_refl _) rfl
    (fun stored hstored => by
      rw [← hidEq] at hstored
      cases hzero.symm.trans hstored
      decide)
    (show (newPayload b .xchacha20Poly1305 (freePath 7) [1] "interactive" (some "vault")).cipher = _
      from rfl) rfl rfl
  have houter := openContainer_outer (P := plain) (w := restored b.lay w'.issued m₁.world) rfl
    (findOuter_eq_some.mpr ⟨⟨c, hmaster⟩, hheader⟩)
  cases he.symm.trans (houter.trans hopen)

end Million

end Create

end Venom.Fs
