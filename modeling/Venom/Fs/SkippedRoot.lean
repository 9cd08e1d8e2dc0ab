import Venom.Fs.FailedWrites
import Venom.Storage.MerkleCache
import Venom.Crypto.Plain

/-! # Flushes that skip the Merkle root

`flush` computes the root only when a slot has been written or wiped since the last time.
Where the cached root is current this makes no difference: the flush writes the block that
one would write that always computes the root, and the block passes the check of the next
load.
-/

namespace Venom.Fs

open Venom.Container
open Venom.Crypto
open Venom.Storage
open Venom.Storage.SlotStore
open Venom.Library
open Venom.Library.Words
open Venom.Library.StateError

variable {P : Primitives} {m m' m'' : Mounted}

/-- `flush` without the test of the dirty flag. -/
def recomputingFlush (P : Primitives) : EStateM Fault Mounted Unit := do
  fallible (onStore (SlotStore.updateMerkleRoot P))
  onStore (SlotStore.saveFreeList P)
  flushState

/-! ## The same run -/

theorem recomputingFlush_dirty (h : m.container.store.merkleDirty = true) :
    (recomputingFlush P).run m = (flush P).run m := by
  rw [flush_eq]
  unfold recomputingFlush flushSlots
  rw [bind_assoc, run_bind_of_ok (x := get) run_get, h, if_pos rfl, bind_assoc]

theorem setRoot_self (st : SlotStore) (h : st.merkleDirty = false) :
    { st with cachedMerkleRoot := st.cachedMerkleRoot, merkleDirty := false } = st := by
  cases st
  cases h
  rfl

/-- The computation finds the root that is cached. -/
theorem updateMerkleRoot_reused (h : RootCurrent P m.openStore) (hreuses : ReusesRoot m.container.store) :
    (fallible (onStore (SlotStore.updateMerkleRoot P))).run m = .ok () m := by
  have hrun : (SlotStore.updateMerkleRoot P).run m.openStore = .ok () m.openStore := by
    rw [updateMerkleRoot_run (h hreuses)]
    exact congrArg (fun st => EStateM.Result.ok () { m.openStore with store := st })
      (setRoot_self m.container.store hreuses.1)
  exact fallible_ok.mpr (onStore_run hrun)

theorem recomputingFlush_reused (h : RootCurrent P m.openStore) (hreuses : ReusesRoot m.container.store) :
    (recomputingFlush P).run m = (flush P).run m := by
  rw [flush_eq]
  unfold recomputingFlush flushSlots
  rw [run_bind_of_ok (updateMerkleRoot_reused h hreuses), bind_assoc, run_bind_of_ok (x := get) run_get,
    hreuses.1, if_neg Bool.false_ne_true]

/-! ## The block of a flush -/

/-- What a flush saves: the root has been computed if a slot had been written. -/
theorem flush_saves {u : Unit} (h : (flush P).run m = .ok u m') :
    ∃ st s', Rooted P m.world m.container.store st ∧
      (SlotStore.saveFreeList P).run { store := st, world := m.world } = .ok () s' ∧
      m'.container.store = s'.store ∧ m'.world.file = s'.world.file := by
  obtain ⟨m₁, hslots, hcontainer, hfile, -⟩ := flush_ok h
  unfold flushSlots at hslots
  rw [run_bind_of_ok run_get] at hslots
  by_cases hdirty : m.container.store.merkleDirty = true
  · rw [if_pos hdirty] at hslots
    obtain ⟨u₁, m₂, hupdate, hsave⟩ := run_bind_ok.mp hslots
    obtain ⟨s₁, hs₁, rfl⟩ := onStore_ok (fallible_ok.mp hupdate)
    obtain ⟨root, hroot, rfl⟩ := updateMerkleRoot_ok hs₁
    obtain ⟨s₂, hs₂, rfl⟩ := onStore_ok hsave
    exact ⟨_, s₂, .inr ⟨hdirty, root, hroot, rfl⟩, hs₂, by rw [hcontainer], hfile⟩
  · rw [if_neg hdirty] at hslots
    obtain ⟨s₂, hs₂, rfl⟩ := onStore_ok hslots
    exact ⟨_, s₂, .inl ⟨Bool.eq_false_iff.mpr hdirty, rfl⟩, hs₂, by rw [hcontainer], hfile⟩

theorem recomputingFlush_saves {u : Unit} (h : (recomputingFlush P).run m = .ok u m') :
    ∃ root s', (SlotStore.saveFreeList P).run { store := { m.container.store with
        cachedMerkleRoot := root, merkleDirty := false }, world := m.world } = .ok () s' ∧
      m'.container.store = s'.store ∧ m'.world.file = s'.world.file := by
  obtain ⟨u₁, m₂, hupdate, h₁⟩ := run_bind_ok.mp h
  obtain ⟨s₁, hs₁, rfl⟩ := onStore_ok (fallible_ok.mp hupdate)
  obtain ⟨root, hroot, rfl⟩ := updateMerkleRoot_ok hs₁
  obtain ⟨u₂, m₃, hsave, hstate⟩ := run_bind_ok.mp h₁
  obtain ⟨s₂, hs₂, rfl⟩ := onStore_ok hsave
  rw [flushState_run] at hstate
  injection hstate with _ hm'
  refine ⟨root, s₂, hs₂, ?_⟩
  rw [← hm']
  split
  · exact ⟨rfl, rfl⟩
  · exact ⟨rfl, rfl⟩

/-- The plaintext of the allocation block of a volume. -/
def storedBlock (P : Primitives) (m : Mounted) : Except VnmError (List UInt8) :=
  m.container.store.read P m.world m.container.store.allocSlot

/-- Without a generation the block has no root in it. -/
theorem storedBlock_legacy (hgen : m.container.store.hasGeneration = false)
    (h : (flush P).run m = .ok () m') (h' : (recomputingFlush P).run m = .ok () m'') :
    storedBlock P m'' = storedBlock P m' := by
  obtain ⟨st, s', hrooted, hsave, hstore, hfile⟩ := flush_saves h
  obtain ⟨root, s'', hsave', hstore', hfile'⟩ := recomputingFlush_saves h'
  obtain ⟨hshape, hfree, hgeneration⟩ := hrooted.sameShape
  obtain ⟨bitmap, bytes, hbitmap, hwritten, hreads⟩ := saveFreeList_read hsave
  obtain ⟨bitmap', bytes', hbitmap', hwritten', hreads'⟩ := saveFreeList_read hsave'
  have hsame : bitmap' = bitmap := by
    unfold freeBitmap at hbitmap hbitmap'
    dsimp only at hbitmap hbitmap'
    rw [hfree, hshape.slotStart, hshape.slotLimit] at hbitmap
    exact Option.some.inj (hbitmap'.symm.trans hbitmap)
  have hblock := hreads m'.container.store
    (by rw [hstore, hwritten.store]; exact ⟨rfl, rfl, rfl, rfl, rfl, rfl⟩) m'.world hfile
  have hblock' := hreads' m''.container.store
    (by rw [hstore', hwritten'.store]; exact ⟨rfl, rfl, rfl, rfl, rfl, rfl⟩) m''.world hfile'
  unfold storedBlock
  rw [hblock, hblock', hsame]
  unfold allocData saved
  dsimp only
  rw [hshape.hasGeneration, hgen, hshape.slotStart, hshape.slotLimit]
  rfl

/-- In every run from a new store whose calls keep the root: a root that would be reused is
    that of the used slots; a flush writes the block that one writes that always computes the
    root, unless the root has never been computed; and the block passes the check of a load. -/
theorem skipped_root_sound {k : Key} {cipher : CipherAlgorithm} {start limit alloc : Nat} {gen : Bool}
    {w : World} (hfile : w.file ≠ none)
    (hrun : RootRun P { store := SlotStore.new k cipher start limit alloc gen, world := w } m.openStore) :
    (m.container.store.merkleDirty = false → m.container.store.cachedMerkleRoot ≠ zeroRoot →
      computeMerkleRoot P m.world m.container.store.usedSlots =
        .ok m.container.store.cachedMerkleRoot) ∧
    (m.container.store.merkleDirty = true ∨ m.container.store.cachedMerkleRoot ≠ zeroRoot ∨
        m.container.store.hasGeneration = false →
      ∀ m' m'', (flush P).run m = .ok () m' → (recomputingFlush P).run m = .ok () m'' →
        storedBlock P m'' = storedBlock P m') ∧
    ∀ m', (flush P).run m = .ok () m' → ∀ st, SameShape m.container.store st →
      ∃ st', st.loadFreeList P m'.world = .ok st' := by
  obtain ⟨hcurrent, -⟩ := hrun.current rfl hfile
  refine ⟨fun hclean hroot => hcurrent ⟨hclean, hroot⟩, fun hcond m' m'' h h' => ?_, fun m' h st hst => ?_⟩
  · by_cases hdirty : m.container.store.merkleDirty = true
    · cases ((recomputingFlush_dirty hdirty).symm.trans h').symm.trans h
      rfl
    · rcases hcond with hdirty' | hroot | hgen
      · exact absurd hdirty' hdirty
      · have hreuses : ReusesRoot m.container.store := ⟨Bool.eq_false_iff.mpr hdirty, hroot⟩
        cases ((recomputingFlush_reused hcurrent hreuses).symm.trans h').symm.trans h
        rfl
      · exact storedBlock_legacy hgen h h'
  · obtain ⟨saved, s', hrooted, hsave, -, hsaved⟩ := flush_saves h
    have hroot : saved.hasGeneration = true → saved.cachedMerkleRoot ≠ zeroRoot →
        computeMerkleRoot P m.world saved.usedSlots = .ok saved.cachedMerkleRoot := by
      intro _ hne
      rcases hrooted with ⟨hclean, rfl⟩ | ⟨-, root, hcompute, rfl⟩
      · exact hcurrent ⟨hclean, hne⟩
      · exact hcompute
    obtain ⟨st', hload⟩ := saveFreeList_loads hsave (hrooted.sameShape.1.symm.trans hst) hroot
    refine ⟨st', ?_⟩
    rw [← hload]
    exact loadFreeList_congr fun slot => World.read_congr hsaved _ _

/-! ## A root that is not current -/

/-- A volume of two data slots. -/
def twoSlots : OpenStore where
  store := SlotStore.new (toBytes 32 []) .xchacha20Poly1305 0 3 0 true
  world := blankWorld

/-- One of the data slots is used. -/
def oneUsed : OpenStore := { twoSlots with store := { twoSlots.store with free := [2] } }

theorem twoSlots_rebuilt : twoSlots.store.rebuildFreeList = { twoSlots.store with free := [2, 1] } := by
  have hfree : twoSlots.store.rebuildFreeList.free = [2, 1] := by
    refine (sortedGT_rebuildFreeList _).eq_of_mem_iff (by decide) fun slot => ?_
    rw [mem_rebuildFreeList]
    change ((0 ≤ slot ∧ slot < 3) ∧ slot ≠ 0) ↔ slot ∈ [2, 1]
    rw [List.mem_cons, List.mem_singleton]
    omega
  unfold rebuildFreeList at hfree ⊢
  exact congrArg (fun free => { twoSlots.store with free }) hfree

theorem twoSlots_taken : StoreCall.alloc.perform plain (StoreCall.rebuildFreeList.perform plain twoSlots) =
    oneUsed := by
  have hrebuilt : StoreCall.rebuildFreeList.perform plain twoSlots =
      { twoSlots with store := { twoSlots.store with free := [2, 1] } } :=
    congrArg (fun st => { twoSlots with store := st }) twoSlots_rebuilt
  have hlast : ([2, 1] : List Nat).getLast? = some 1 := rfl
  rw [hrebuilt]
  exact after_of_ok (@alloc_run 1 { twoSlots with store := { twoSlots.store with free := [2, 1] } } hlast)

theorem plain_firstByte {context : String} {material : List UInt8} (h : 31 ≤ material.length) :
    (plain.blake3DeriveKey context material).toList[0]? = some (UInt8.ofNat context.length) := by
  change (toBytes 32 _).toList[0]? = _
  rw [toList_toBytes (by rw [List.length_cons]; omega)]
  rfl

theorem plain_secondByte {context : String} {a : UInt8} {rest : List UInt8} (h : 30 ≤ rest.length) :
    (plain.blake3DeriveKey context (a :: rest)).toList[1]? = some a := by
  change (toBytes 32 _).toList[1]? = _
  rw [toList_toBytes (by rw [List.length_cons, List.length_cons]; omega)]
  rfl

/-- The bytes of a slot of the blank file. -/
def blankSlot (slot : Nat) : List UInt8 :=
  ByteFile.slice { size := 2 ^ 20, byteAt := fun _ => 0 } (slotOffset slot) slotSize

theorem blankSlot_read {slot : Nat} (h : slotOffset slot + slotSize ≤ 2 ^ 20) :
    blankWorld.read (slotOffset slot) slotSize = .ok (blankSlot slot) := World.read_eq rfl h

theorem merkleLeaves_blank {slots : List Nat} (h : ∀ slot ∈ slots, slotOffset slot + slotSize ≤ 2 ^ 20) :
    merkleLeaves plain blankWorld slots = .ok (slots.map fun slot => leafHash plain slot (blankSlot slot)) := by
  induction slots with
  | nil => rfl
  | cons slot slots ih =>
    rw [merkleLeaves, except_bind_of_ok (blankSlot_read (h slot List.mem_cons_self)),
      except_bind_of_ok (ih fun t ht => h t (List.mem_cons_of_mem _ ht))]
    rfl

theorem oneUsed_root : computeMerkleRoot plain blankWorld [1] = .ok (leafHash plain 1 (blankSlot 1)) := by
  unfold computeMerkleRoot
  rw [if_neg (by decide), except_bind_of_ok (merkleLeaves_blank (by decide)), List.map_singleton,
    MerkleTree.climb_of_le (by simp)]
  rfl

theorem bothUsed_root : computeMerkleRoot plain blankWorld [1, 2] =
    .ok (nodeHash plain (leafHash plain 1 (blankSlot 1)) (leafHash plain 2 (blankSlot 2))) := by
  unfold computeMerkleRoot
  rw [if_neg (by decide), except_bind_of_ok (merkleLeaves_blank (by decide)), List.map_cons,
    List.map_singleton, MerkleTree.climb_of_lt (by simp), MerkleTree.climb_of_le (by simp [MerkleTree.pairUp])]
  rfl

/-- A leaf begins with the length of its context and the slot. -/
theorem leafHash_bytes : (leafHash plain 1 (blankSlot 1)).toList[0]? = some 20 ∧
    (leafHash plain 1 (blankSlot 1)).toList[1]? = some 1 := by
  have hlen : (blankSlot 1).length = 32768 := ByteFile.length_slice _ _ _
  have hcontext : UInt8.ofNat leafCtx.length = 20 := by decide
  refine ⟨?_, ?_⟩
  · rw [leafHash, plain_firstByte (by rw [List.length_append, hlen]; omega), hcontext]
  · change (plain.blake3DeriveKey leafCtx (1 :: ([0, 0, 0, 0, 0, 0, 0] ++ blankSlot 1))).toList[1]? = _
    exact plain_secondByte (by rw [List.length_append, hlen]; omega)

/-- With both slots used the root is another one. -/
theorem nodeHash_ne (right : Key) :
    nodeHash plain (leafHash plain 1 (blankSlot 1)) right ≠ leafHash plain 1 (blankSlot 1) := by
  intro h
  obtain ⟨hfirst, hsecond⟩ := leafHash_bytes
  obtain ⟨a, rest, hleft⟩ : ∃ a rest, (leafHash plain 1 (blankSlot 1)).toList = a :: rest :=
    List.exists_cons_of_length_pos (by rw [List.Vector.toList_length]; decide)
  rw [hleft] at hfirst
  cases hfirst
  have hrest : rest.length = 31 := by
    have hlen := (leafHash plain 1 (blankSlot 1)).toList_length
    rw [hleft, List.length_cons] at hlen
    omega
  have hnode : (nodeHash plain (leafHash plain 1 (blankSlot 1)) right).toList[1]? = some 20 := by
    rw [nodeHash, hleft, List.cons_append]
    exact plain_secondByte (by rw [List.length_append, hrest]; omega)
  rw [h, hsecond] at hnode
  revert hnode
  decide

/-- The volume after its root has been computed. -/
def rooted : OpenStore :=
  { oneUsed with store := { oneUsed.store with
      cachedMerkleRoot := leafHash plain 1 (blankSlot 1), merkleDirty := false } }

theorem oneUsed_updated : StoreCall.updateMerkleRoot.perform plain oneUsed = rooted := by
  have hused : oneUsed.store.usedSlots = [1] := by decide
  have hroot : computeMerkleRoot plain oneUsed.world oneUsed.store.usedSlots =
      .ok (leafHash plain 1 (blankSlot 1)) := by
    rw [hused]
    exact oneUsed_root
  exact after_of_ok (updateMerkleRoot_run hroot)

theorem rooted_reuses : ReusesRoot rooted.store := by
  refine ⟨rfl, fun hzero => ?_⟩
  have hbytes := leafHash_bytes.1
  rw [show leafHash plain 1 (blankSlot 1) = zeroRoot from hzero] at hbytes
  revert hbytes
  decide

/-- A list is built, a slot is taken, and the root is computed. -/
theorem skipped_root_sound_computed :
    computeMerkleRoot plain rooted.world rooted.store.usedSlots = .ok rooted.store.cachedMerkleRoot := by
  have hrun : RootRun plain twoSlots (StoreCall.updateMerkleRoot.perform plain
      (StoreCall.alloc.perform plain (StoreCall.rebuildFreeList.perform plain twoSlots))) :=
    .step .updateMerkleRoot (.step .alloc (.step .rebuildFreeList .refl fun h => h.2 rfl)
      fun h => absurd rfl h.2) trivial
  rw [twoSlots_taken, oneUsed_updated] at hrun
  let m : Mounted :=
    { oneFree with container := { oneFree.container with store := rooted.store }, world := rooted.world }
  exact (skipped_root_sound (m := m) (Option.some_ne_none _) hrun).1 rooted_reuses.1 rooted_reuses.2

/-- A slot is taken, the root is computed, and another slot is taken: the root that a flush
    would save does not cover it. -/
theorem alloc_leaves_root_stale : ¬ ∀ calls : List StoreCall,
    RootCurrent plain (calls.foldl (fun s call => call.perform plain s) twoSlots) := by
  intro h
  have hcurrent := h [.rebuildFreeList, .alloc, .updateMerkleRoot, .alloc]
  rw [List.foldl_cons, List.foldl_cons, twoSlots_taken, List.foldl_cons, List.foldl_cons,
    List.foldl_nil, oneUsed_updated] at hcurrent
  have hstale := hcurrent rooted_reuses
  change computeMerkleRoot plain blankWorld [1, 2] = .ok (leafHash plain 1 (blankSlot 1)) at hstale
  rw [bothUsed_root] at hstale
  exact nodeHash_ne _ (Except.ok.inj hstale)

end Venom.Fs
