import Venom.Fs.Recipients

/-! # Node input and output

What the node calls and `flush` of a mounted container do, whether they succeed or fail: to
the free list and the generation of its store, and to the file.
-/

namespace Venom.Fs

open Venom.Container
open Venom.Crypto
open Venom.Storage
open Venom.Storage.SlotStore
open Venom.Library
open Venom.Library.Words
open Venom.Library.StateError

variable {P : Primitives} {m m' : Mounted} {slot : Nat} {node : VaultNode}

/-- The store on its file. -/
def Mounted.openStore (m : Mounted) : OpenStore := { store := m.container.store, world := m.world }

/-- The container with another store and another world. -/
def Mounted.withStore (m : Mounted) (s : OpenStore) : Mounted :=
  { container := { m.container with store := s.store }, world := s.world }

/-! ## Write, update, free -/

theorem writeNodeAt_error {e : VnmError} {s s' : OpenStore}
    (h : (writeNodeAt P slot node).run s = .error e s') :
    s.world.OnlyDrew s'.world ∧ s'.store = s.store := by
  unfold writeNodeAt at h
  cases hp : toVecNamed node with
  | none =>
    rw [hp] at h
    cases h
    exact ⟨.refl _, rfl⟩
  | some payload =>
    rw [hp] at h
    obtain ⟨hdrew, hstore, -⟩ := write_error h
    exact ⟨hdrew, hstore⟩

/-- The store without its last free slot. -/
def popFree (st : SlotStore) : SlotStore := { st with free := st.free.dropLast }

theorem writeNode_ok (h : (writeNode P node).run m = .ok slot m') :
    m.container.store.free = m.container.store.free.dropLast ++ [slot] ∧
      ∃ payload bytes s, toVecNamed node = some payload ∧
        Written P slot payload { store := popFree m.container.store, world := m.world } s bytes ∧
        m' = m.withStore s := by
  unfold writeNode at h
  obtain ⟨slot', m₁, halloc, h₁⟩ := run_bind_ok.mp h
  obtain ⟨u, m₂, hwrite, h₂⟩ := run_bind_ok.mp h₁
  cases h₂
  obtain ⟨s₁, hs₁, rfl⟩ := onStore_ok halloc
  obtain ⟨hfree, rfl⟩ := alloc_ok hs₁
  obtain ⟨s₂, hs₂, rfl⟩ := onStore_ok hwrite
  obtain ⟨payload, bytes, hpayload, hwritten⟩ := writeNodeAt_ok hs₂
  exact ⟨hfree, payload, bytes, s₂, hpayload, hwritten, rfl⟩

/-- A failed write may have taken a slot out of the free list; the file is as before. -/
theorem writeNode_error {e : VnmError} (h : (writeNode P node).run m = .error e m') :
    m.world.OnlyDrew m'.world ∧
      (m'.container = m.container ∨
        m'.container = { m.container with store := popFree m.container.store }) := by
  unfold writeNode at h
  rcases run_bind_error.mp h with halloc | ⟨slot', m₁, halloc, h₁⟩
  · obtain ⟨s₁, hs₁, rfl⟩ := onStore_error halloc
    obtain ⟨rfl, -⟩ := alloc_error hs₁
    exact ⟨.refl _, .inl rfl⟩
  · obtain ⟨s₁, hs₁, rfl⟩ := onStore_ok halloc
    obtain ⟨-, rfl⟩ := alloc_ok hs₁
    rcases run_bind_error.mp h₁ with hwrite | ⟨u, m₂, -, h₂⟩
    · obtain ⟨s₂, hs₂, rfl⟩ := onStore_error hwrite
      obtain ⟨hdrew, hstore⟩ := writeNodeAt_error hs₂
      exact ⟨hdrew, .inr (by rw [hstore]; rfl)⟩
    · cases h₂

/-- A slot is taken before the write fails, and it is not put back. -/
theorem writeNode_popped {e : VnmError} (hlast : m.container.store.free.getLast? = some slot)
    (h : (writeNode P node).run m = .error e m') :
    m'.container = { m.container with store := popFree m.container.store } := by
  unfold writeNode at h
  rw [run_bind_of_ok (onStore_run (alloc_run hlast))] at h
  rcases run_bind_error.mp h with hwrite | ⟨u, m₁, -, hpure⟩
  · obtain ⟨s, hs, rfl⟩ := onStore_error hwrite
    rw [(writeNodeAt_error hs).2]
    rfl
  · cases hpure

theorem writeNode_noSpace (hfree : m.container.store.free = []) :
    (writeNode P node).run m = .error .noSpaceLeft m := by
  have halloc : SlotStore.alloc.run m.openStore = .error .noSpaceLeft m.openStore := alloc_empty hfree
  unfold writeNode
  exact run_bind_of_error (onStore_run_error halloc)

/-- A node that fits is written to the last slot of the free list. -/
theorem writeNode_isOk {payload : List UInt8} (hlast : m.container.store.free.getLast? = some slot)
    (hfile : m.world.file ≠ none) (hp : toVecNamed node = some payload)
    (hfits : payload.length + vnmbOverhead m.container.store.cipher + 4 ≤ slotSize) :
    ∃ m', (writeNode P node).run m = .ok slot m' := by
  obtain ⟨s, hs⟩ := @write_isOk P slot payload
    { store := popFree m.container.store, world := m.world } hfile hfits
  have hwrite : (writeNodeAt P slot node).run { store := popFree m.container.store, world := m.world } =
      .ok () s := by
    rw [writeNodeAt, hp]
    exact hs
  unfold writeNode
  rw [run_bind_of_ok (onStore_run (alloc_run hlast))]
  exact ⟨_, run_bind_of_ok (onStore_run hwrite)⟩

theorem updateNode_isOk {payload : List UInt8} (hfile : m.world.file ≠ none)
    (hp : toVecNamed node = some payload)
    (hfits : payload.length + vnmbOverhead m.container.store.cipher + 4 ≤ slotSize) :
    ∃ m', (updateNode P slot node).run m = .ok () m' := by
  obtain ⟨s, hs⟩ := @write_isOk P slot payload m.openStore hfile hfits
  have hwrite : (writeNodeAt P slot node).run m.openStore = .ok () s := by
    rw [writeNodeAt, hp]
    exact hs
  exact ⟨_, onStore_run hwrite⟩

theorem updateNode_ok {u : Unit} (h : (updateNode P slot node).run m = .ok u m') :
    ∃ payload bytes s, toVecNamed node = some payload ∧ Written P slot payload m.openStore s bytes ∧
      m' = m.withStore s := by
  obtain ⟨s, hs, rfl⟩ := onStore_ok h
  obtain ⟨payload, bytes, hpayload, hwritten⟩ := writeNodeAt_ok hs
  exact ⟨payload, bytes, s, hpayload, hwritten, rfl⟩

theorem updateNode_error {e : VnmError} (h : (updateNode P slot node).run m = .error e m') :
    Untouched m m' := by
  obtain ⟨s, hs, rfl⟩ := onStore_error h
  obtain ⟨hdrew, hstore⟩ := writeNodeAt_error hs
  exact ⟨by rw [hstore], hdrew⟩

/-- A freed slot is overwritten with the next random bytes. -/
theorem freeNode_wipes (slot : Nat) (hfile : m.world.file ≠ none) :
    World.Wrote (slotOffset slot) (m.world.drawn slotSize).toList m.world (freeNode slot m).world ∧
      (freeNode slot m).container = { m.container with store :=
        { m.container.store with
          free := insertFree slot m.container.store.free
          merkleDirty := true } } := by
  obtain ⟨hwrote, hstore⟩ := freeSlot_wipes slot (s := m.openStore) hfile
  refine ⟨hwrote, ?_⟩
  unfold freeNode
  exact congrArg (fun st => { m.container with store := st }) hstore

theorem freeNode_spec (slot : Nat) (hfile : m.world.file ≠ none) :
    ∃ bytes, bytes.length = slotSize ∧
      World.Wrote (slotOffset slot) bytes m.world (freeNode slot m).world ∧
      (freeNode slot m).container = { m.container with store :=
        { m.container.store with
          free := insertFree slot m.container.store.free
          merkleDirty := true } } :=
  ⟨_, List.Vector.toList_length _, freeNode_wipes slot hfile⟩

/-! ## Flush -/

/-- The store after its root has been computed, if that was due. -/
def Rooted (P : Primitives) (w : World) (st st' : SlotStore) : Prop :=
  (st.merkleDirty = false ∧ st' = st) ∨
    (st.merkleDirty = true ∧ ∃ root, computeMerkleRoot P w st.usedSlots = .ok root ∧
      st' = { st with cachedMerkleRoot := root, merkleDirty := false })

/-- The slot writes of `flush`. -/
def flushSlots (P : Primitives) : EStateM Fault Mounted Unit := do
  let m ← get
  if m.container.store.merkleDirty then fallible (onStore (SlotStore.updateMerkleRoot P)) else pure ()
  onStore (SlotStore.saveFreeList P)

/-- The write of the state file. -/
def flushState : EStateM Fault Mounted Unit := do
  let m ← get
  if m.container.containerId ≠ zeroId then
    onFile (updateRollback m.container.containerId m.container.store.generation)
  else pure ()

theorem flush_eq : flush P = flushSlots P >>= fun _ => flushState := by
  unfold flush flushSlots flushState
  rw [bind_assoc]
  refine bind_congr fun m => ?_
  split
  · rw [bind_assoc]
  · rfl

/-- The slot writes that succeed: one allocation block, one generation further. -/
theorem flushSlots_ok {u : Unit} (h : (flushSlots P).run m = .ok u m') :
    ∃ st bitmap bytes s, Rooted P m.world m.container.store st ∧ st.freeBitmap = some bitmap ∧
      Written P st.allocSlot (st.saved.allocData bitmap) { store := st.saved, world := m.world } s bytes ∧
      m' = m.withStore s := by
  unfold flushSlots at h
  rw [run_bind_of_ok run_get] at h
  cases hdirty : m.container.store.merkleDirty with
  | true =>
    rw [hdirty, if_pos rfl] at h
    obtain ⟨u₁, m₁, hroot, hsave⟩ := run_bind_ok.mp h
    obtain ⟨s₁, hs₁, rfl⟩ := onStore_ok (fallible_ok.mp hroot)
    obtain ⟨root, hcompute, rfl⟩ := updateMerkleRoot_ok hs₁
    obtain ⟨s₂, hs₂, rfl⟩ := onStore_ok hsave
    obtain ⟨bitmap, bytes, hbitmap, hwritten⟩ := saveFreeList_ok hs₂
    exact ⟨_, bitmap, bytes, s₂, .inr ⟨hdirty, root, hcompute, rfl⟩, hbitmap, hwritten, rfl⟩
  | false =>
    rw [hdirty, if_neg Bool.false_ne_true] at h
    obtain ⟨s₂, hs₂, rfl⟩ := onStore_ok h
    obtain ⟨bitmap, bytes, hbitmap, hwritten⟩ := saveFreeList_ok hs₂
    exact ⟨_, bitmap, bytes, s₂, .inl ⟨hdirty, rfl⟩, hbitmap, hwritten, rfl⟩

/-- Failing slot writes leave the file and the free list alone. -/
theorem flushSlots_error {e : Fault} (h : (flushSlots P).run m = .error e m') :
    m.world.OnlyDrew m'.world ∧ ∃ st, (st = m.container.store ∨ Rooted P m.world m.container.store st) ∧
      (m'.container = { m.container with store := st } ∨
        m'.container = { m.container with store := st.saved }) := by
  unfold flushSlots at h
  rw [run_bind_of_ok run_get] at h
  have hsaving : ∀ {m₁ : Mounted} {st : SlotStore}, m₁ = { m with container := { m.container with store := st } } →
      (onStore (SlotStore.saveFreeList P)).run m₁ = .error e m' → m.world.OnlyDrew m'.world ∧
        (m'.container = { m.container with store := st } ∨
          m'.container = { m.container with store := st.saved }) := by
    rintro m₁ st rfl hsave
    obtain ⟨s, hs, rfl⟩ := onStore_error hsave
    obtain ⟨hdrew, hstore⟩ := saveFreeList_error hs
    exact ⟨hdrew, hstore.imp (fun hst => by rw [hst]) fun hst => by rw [hst]⟩
  cases hdirty : m.container.store.merkleDirty with
  | true =>
    rw [hdirty, if_pos rfl] at h
    rcases run_bind_error.mp h with hroot | ⟨u₁, m₁, hroot, hsave⟩
    · obtain ⟨e', hroot, -⟩ := fallible_error.mp hroot
      obtain ⟨s₁, hs₁, rfl⟩ := onStore_error hroot
      rw [updateMerkleRoot_error hs₁]
      exact ⟨.refl _, _, .inl rfl, .inl rfl⟩
    · obtain ⟨s₁, hs₁, rfl⟩ := onStore_ok (fallible_ok.mp hroot)
      obtain ⟨root, hcompute, rfl⟩ := updateMerkleRoot_ok hs₁
      obtain ⟨hdrew, hcontainer⟩ := hsaving rfl hsave
      exact ⟨hdrew, _, .inr (.inr ⟨hdirty, root, hcompute, rfl⟩), hcontainer⟩
  | false =>
    rw [hdirty, if_neg Bool.false_ne_true] at h
    obtain ⟨hdrew, hcontainer⟩ := hsaving rfl h
    exact ⟨hdrew, _, .inl rfl, hcontainer⟩

/-- The state file gets the generation of the store. -/
theorem flushState_run (m : Mounted) : flushState.run m = .ok ()
    (if m.container.containerId ≠ zeroId then { m with world := { m.world with
      rollback := ((RollbackState.load m.world).updated m.container.containerId
        m.container.store.generation).entries } } else m) := by
  unfold flushState
  rw [run_bind_of_ok run_get]
  by_cases hid : m.container.containerId ≠ zeroId
  · rw [if_pos hid, if_pos hid]
    exact onFile_run rfl
  · rw [if_neg hid, if_neg hid]
    rfl

/-- A flush that succeeds: its slot writes, then the state file. -/
theorem flush_ok {u : Unit} (h : (flush P).run m = .ok u m') :
    ∃ m₁, (flushSlots P).run m = .ok () m₁ ∧ m'.container = m₁.container ∧
      m'.world.file = m₁.world.file ∧ m'.world.issued = m₁.world.issued ∧
      (m₁.container.containerId ≠ zeroId → m'.world.baseline m₁.container.containerId =
        some m₁.container.store.generation) := by
  rw [flush_eq] at h
  obtain ⟨u₁, m₁, hslots, hstate⟩ := run_bind_ok.mp h
  cases (flushState_run m₁).symm.trans hstate
  refine ⟨m₁, hslots, ?_⟩
  by_cases hid : m₁.container.containerId ≠ zeroId
  · rw [if_pos hid]
    refine ⟨rfl, rfl, rfl, fun _ => ?_⟩
    exact (RollbackState.baseline_updated _ _ _ _).trans (if_pos rfl)
  · rw [if_neg hid]
    exact ⟨rfl, rfl, rfl, fun h => absurd h hid⟩

/-- Only the slot writes can fail. -/
theorem flush_error {e : Fault} (h : (flush P).run m = .error e m') :
    (flushSlots P).run m = .error e m' := by
  rw [flush_eq] at h
  rcases run_bind_error.mp h with hslots | ⟨u₁, m₁, -, hstate⟩
  · exact hslots
  · rw [flushState_run] at hstate
    cases hstate

/-- A flush succeeds when the slots lie in the file, the free list in the volume, and the
    allocation block fits a slot. -/
theorem flush_isOk {f : ByteFile} (hf : m.world.file = some f)
    (hinside : ∀ s, s < m.container.store.slotLimit → slotOffset s + slotSize ≤ f.size)
    (hrange : FreeInRange m.container.store) (hgen : m.container.store.hasGeneration = true)
    (hfits : AllocFits m.container.store.cipher
      (m.container.store.slotLimit - m.container.store.slotStart)) :
    ∃ m', (flush P).run m = .ok () m' := by
  have hfile : m.world.file ≠ none := by
    rw [hf]
    exact Option.some_ne_none f
  have hsave : ∀ st, SameShape m.container.store st → st.free = m.container.store.free → ∃ m',
      (onStore (SlotStore.saveFreeList P)).run
        { m with container := { m.container with store := st } } = .ok () m' := by
    intro st hshape hfree
    obtain ⟨s, hs⟩ := saveFreeList_isOk (P := P) (s := { store := st, world := m.world }) hfile
      (by
        intro x hx
        change st.slotStart ≤ x ∧ x < st.slotLimit
        rw [hshape.slotStart, hshape.slotLimit]
        exact hrange x (hfree ▸ hx))
      (by
        change (if st.hasGeneration then allocHeaderLen else 8) + (st.slotLimit - st.slotStart + 7) / 8 +
          vnmbOverhead st.cipher + 4 ≤ slotSize
        rw [hshape.hasGeneration, hshape.slotLimit, hshape.slotStart, hshape.cipher, hgen, if_pos rfl]
        exact hfits)
    exact ⟨_, onStore_run hs⟩
  have hslots : ∃ m₁, (flushSlots P).run m = .ok () m₁ := by
    unfold flushSlots
    rw [run_bind_of_ok run_get]
    by_cases hdirty : m.container.store.merkleDirty = true
    · rw [if_pos hdirty]
      obtain ⟨root, hroot⟩ := computeMerkleRoot_isOk (P := P) hf fun s hs =>
        hinside s (mem_usedSlots.mp hs).1.2
      have hupdate := updateMerkleRoot_run (s := m.openStore) hroot
      obtain ⟨m₁, hm₁⟩ := hsave { m.container.store with cachedMerkleRoot := root, merkleDirty := false }
        ⟨rfl, rfl, rfl, rfl, rfl, rfl⟩ rfl
      exact ⟨m₁, (run_bind_of_ok (fallible_ok.mpr (onStore_run hupdate))).trans hm₁⟩
    · rw [if_neg hdirty]
      exact hsave m.container.store ⟨rfl, rfl, rfl, rfl, rfl, rfl⟩ rfl
  obtain ⟨m₁, hm₁⟩ := hslots
  rw [flush_eq]
  exact ⟨_, (run_bind_of_ok hm₁).trans (flushState_run m₁)⟩

theorem Rooted.sameShape {w : World} {st st' : SlotStore} (h : Rooted P w st st') :
    SameShape st st' ∧ st'.free = st.free ∧ st'.generation = st.generation := by
  rcases h with ⟨-, rfl⟩ | ⟨-, root, -, rfl⟩
  · exact ⟨⟨rfl, rfl, rfl, rfl, rfl, rfl⟩, rfl, rfl⟩
  · exact ⟨⟨rfl, rfl, rfl, rfl, rfl, rfl⟩, rfl, rfl⟩

/-- A flush counts the generation, modulo 2^64, and leaves it as the baseline. -/
theorem flush_generation {u : Unit} (h : (flush P).run m = .ok u m')
    (hgen : m.container.store.hasGeneration = true) :
    m'.container.containerId = m.container.containerId ∧ m'.container.store.hasGeneration = true ∧
      m'.container.store.generation = (m.container.store.generation + 1) % 2 ^ 64 ∧
      (m.container.containerId ≠ zeroId → m'.world.baseline m.container.containerId =
        some ((m.container.store.generation + 1) % 2 ^ 64)) := by
  obtain ⟨m₁, hslots, hcontainer, -, -, hbaseline⟩ := flush_ok h
  obtain ⟨st, bitmap, bytes, s, hrooted, -, hwritten, rfl⟩ := flushSlots_ok hslots
  obtain ⟨hshape, -, hgeneration⟩ := hrooted.sameShape
  have hsaved : s.store.generation = (m.container.store.generation + 1) % 2 ^ 64 := by
    rw [hwritten.store]
    change (if st.hasGeneration then (st.generation + 1) % 2 ^ 64 else st.generation) = _
    rw [hshape.hasGeneration.trans hgen, if_pos rfl, hgeneration]
  rw [hcontainer]
  refine ⟨rfl, ?_, hsaved, fun hid => ?_⟩
  · change s.store.hasGeneration = true
    rw [hwritten.store]
    exact hshape.hasGeneration.trans hgen
  · rw [← hsaved]
    exact hbaseline hid

end Venom.Fs
