import Venom.Fs.OuterHandle
import Venom.Storage.Restricted

/-! # A mounted container as a node store

The driver's `NodeStore` is the container itself: its node calls are the ones of
`Venom.Fs`, and what a slot holds is what `readNode` decodes from the file.  The laws ask
for a file; a mounted volume is a container that has one, which every call keeps.
-/

namespace Venom.Fs

open Venom.Container
open Venom.Crypto
open Venom.Storage
open Venom.Storage.SlotStore
open Venom.Library
open Venom.Library.Words
open Venom.Library.StateError

variable {P : Primitives}

/-- A mounted container whose file is there. -/
def MountedVolume (_ : Primitives) : Type := { m : Mounted // m.world.file ≠ none }

namespace MountedVolume

def mounted (v : MountedVolume P) : Mounted := v.1

def store (v : MountedVolume P) : SlotStore := v.mounted.container.store

/-! ## The file stays -/

theorem Wrote.file_ne_none {off : Nat} {bytes : List UInt8} {w w' : World}
    (h : World.Wrote off bytes w w') : w'.file ≠ none := by
  obtain ⟨f, -, hf'⟩ := h.file
  simp [hf']

theorem writeNode_file {node : VaultNode} (m : Mounted) (hm : m.world.file ≠ none) :
    (after (writeNode P node) m).world.file ≠ none := by
  rcases run_cases (writeNode P node) m with ⟨slot, h⟩ | ⟨e, h⟩
  · obtain ⟨-, payload, bytes, s, -, hwritten, hm'⟩ := writeNode_ok h
    rw [hm']
    exact Wrote.file_ne_none hwritten.wrote
  · rw [(writeNode_error h).1.file]
    exact hm

theorem updateNode_file {slot : Nat} {node : VaultNode} (m : Mounted) (hm : m.world.file ≠ none) :
    (after (updateNode P slot node) m).world.file ≠ none := by
  rcases run_cases (updateNode P slot node) m with ⟨u, h⟩ | ⟨e, h⟩
  · obtain ⟨payload, bytes, s, -, hwritten, hm'⟩ := updateNode_ok h
    rw [hm']
    exact Wrote.file_ne_none hwritten.wrote
  · rw [(updateNode_error h).2.file]
    exact hm

theorem freeNode_file {slot : Nat} (m : Mounted) (hm : m.world.file ≠ none) :
    (freeNode slot m).world.file ≠ none := by
  obtain ⟨bytes, -, hwrote, -⟩ := freeNode_spec slot hm
  exact Wrote.file_ne_none hwrote

/-! ## The interface -/

instance : NodeStore (MountedVolume P) where
  cipher v := v.store.cipher
  slotCount v := v.store.slotLimit - v.store.slotStart
  readNode slot v := readNode P slot v.mounted
  writeNode node := onSubtype (writeNode P node) writeNode_file
  updateNode slot node := onSubtype (updateNode P slot node) updateNode_file
  freeNode slot v := ⟨freeNode slot v.mounted, freeNode_file v.1 v.2⟩

/-- A node slot: in the volume, not its allocation slot, and inside of the file. -/
structure HasSlot (v : MountedVolume P) (slot : Nat) : Prop where
  range : v.store.slotStart ≤ slot ∧ slot < v.store.slotLimit
  ne_alloc : slot ≠ v.store.allocSlot
  inside : ∃ f, v.mounted.world.file = some f ∧ slotOffset slot + slotSize ≤ f.size

instance : NodeView (MountedVolume P) where
  IsDataSlot := HasSlot
  nodes v slot := (readNode P slot v.mounted).toOption
  free v := v.store.free

variable {v v' : MountedVolume P} {slot : Nat} {node : VaultNode} {payload bytes : List UInt8}

theorem isDataSlot_iff : IsDataSlot v slot ↔ HasSlot v slot := Iff.rfl

theorem nodes_of_read {n : VaultNode} (h : readNode P slot v.mounted = .ok n) : nodes v slot = some n := by
  change (readNode P slot v.mounted).toOption = some n
  rw [h]
  rfl

/-! ## One slot is written -/

/-- Bytes written to one slot leave the other slots alone. -/
theorem slot_changed (hshape : SameShape v.store v'.store)
    (hwrote : World.Wrote (slotOffset slot) bytes v.mounted.world v'.mounted.world)
    (hlen : bytes.length = slotSize) (hslot : HasSlot v slot) :
    NodesAgreeExcept slot v v' ∧ Storage.SameVolume v v' := by
  obtain ⟨f, hf, hinside⟩ := hslot.inside
  obtain ⟨f₁, hf₁, hf'⟩ := hwrote.file
  cases hf.symm.trans hf₁
  have hsize : (f.write (slotOffset slot) bytes).size = f.size :=
    ByteFile.size_write_of_le (by rw [hlen]; exact hinside)
  refine ⟨fun t ht hne => ?_, ⟨hshape.cipher, ?_, ?_⟩⟩
  · obtain ⟨f₂, hf₂, hinside'⟩ := ht.inside
    cases hf.symm.trans hf₂
    have hslice := (agreeOn_slot hlen hinside' hne).slice_eq
    have hread := read_congr (P := P) hf hf' hsize hslice hshape.masterKey hshape.cipher
    change (readNode P t v'.mounted).toOption = (readNode P t v.mounted).toOption
    unfold readNode
    exact congrArg Except.toOption (congrArg (· >>= _) hread)
  · change v'.store.slotLimit - v'.store.slotStart = v.store.slotLimit - v.store.slotStart
    rw [hshape.slotLimit, hshape.slotStart]
  · funext t
    refine propext ⟨fun ht => ?_, fun ht => ?_⟩
    · obtain ⟨f₂, hf₂, hinside'⟩ := ht.inside
      cases hf'.symm.trans hf₂
      refine ⟨?_, ?_, f, hf, hsize ▸ hinside'⟩
      · rw [← hshape.slotStart, ← hshape.slotLimit]
        exact ht.range
      · rw [← hshape.allocSlot]
        exact ht.ne_alloc
    · obtain ⟨f₂, hf₂, hinside'⟩ := ht.inside
      cases hf.symm.trans hf₂
      refine ⟨?_, ?_, _, hf', hsize.symm ▸ hinside'⟩
      · rw [hshape.slotStart, hshape.slotLimit]
        exact ht.range
      · rw [hshape.allocSlot]
        exact ht.ne_alloc

/-- A slot that has been written holds its node. -/
theorem nodes_written {s s' : OpenStore} (hwritten : Written P slot payload s s' bytes)
    (hpayload : toVecNamed node = some payload) (hworld : s.world = v.mounted.world)
    (hv' : v'.mounted = v.mounted.withStore s') : nodes v' slot = some node := by
  obtain ⟨f, hf⟩ := Option.ne_none_iff_exists'.mp v.2
  have hholds := hwritten.holds (P := P) (f := f) fun _ => toVecNamed_ne_nil hpayload
  have hfile := hwritten.file (hworld ▸ hf)
  refine nodes_of_read ?_
  rw [hv']
  have hread : s'.store.read P s'.world slot = .ok payload :=
    (read_eq_ok hfile).mpr (hholds.of_store (by rw [hwritten.store]) (by rw [hwritten.store]))
  change (s'.store.read P s'.world slot >>= fun data => _) = _
  rw [except_bind_of_ok hread, fromSlice_toVecNamed hpayload]

theorem fits_iff {cipher : CipherAlgorithm} (hpayload : toVecNamed node = some payload) :
    Fits cipher node ↔ payload.length + vnmbOverhead cipher + 4 ≤ slotSize := by
  rw [Fits, length_toVecNamed hpayload]
  refine and_iff_right ?_
  unfold toVecNamed at hpayload
  split at hpayload
  next hvalid => exact hvalid
  next => cases hpayload

/-- A node that fits is encoded. -/
theorem toVecNamed_of_fits {cipher : CipherAlgorithm} (h : Fits cipher node) :
    ∃ payload, toVecNamed node = some payload :=
  ⟨_, if_pos h.1⟩

/-! ## The laws -/

theorem onSubtype_mounted {α : Type} {x : MountedM α} {a : α}
    {hx : ∀ m : Mounted, m.world.file ≠ none → (after x m).world.file ≠ none}
    (h : (onSubtype x hx).run v = .ok a v') : x.run v.mounted = .ok a v'.mounted := onSubtype_ok.mp h

/-- Writing a node leaves the slot holding it, and the other slots alone. -/
theorem written_laws {st : SlotStore} {s' : OpenStore} (hpayload : toVecNamed node = some payload)
    (hwritten : Written P slot payload { store := st, world := v.mounted.world } s' bytes)
    (hshape : SameShape v.store st) (hv' : v'.mounted = v.mounted.withStore s')
    (hslot : HasSlot v slot) :
    Fits v.store.cipher node ∧ nodes v' slot = some node ∧ free v' = st.free ∧
      NodesAgreeExcept slot v v' ∧ Storage.SameVolume v v' := by
  have hstore : v'.store = { st with merkleDirty := true } := by
    rw [store, hv']
    exact hwritten.store
  have hshape' : SameShape v.store v'.store := by
    rw [hstore]
    exact ⟨hshape.masterKey, hshape.cipher, hshape.slotStart, hshape.slotLimit, hshape.allocSlot,
      hshape.hasGeneration⟩
  have hwrote : World.Wrote (slotOffset slot) bytes v.mounted.world v'.mounted.world := by
    rw [hv']
    exact hwritten.wrote
  obtain ⟨hothers, hsame⟩ := slot_changed hshape' hwrote hwritten.length hslot
  refine ⟨(fits_iff hpayload).mpr ?_, nodes_written hwritten hpayload rfl hv', ?_, hothers, hsame⟩
  · rw [← hshape.cipher]
    exact hwritten.fits
  · change v'.store.free = st.free
    rw [hstore]

/-- A volume whose file and shape are as before. -/
theorem untouched_laws (hfile : v'.mounted.world.file = v.mounted.world.file)
    (hshape : SameShape v.store v'.store) : NodesAgree v v' ∧ Storage.SameVolume v v' := by
  refine ⟨fun t _ => ?_, ⟨hshape.cipher, ?_, ?_⟩⟩
  · obtain ⟨f, hf⟩ := Option.ne_none_iff_exists'.mp v.2
    have hread := @read_congr P _ _ _ _ _ _ t hf (hfile.trans hf) rfl rfl hshape.masterKey hshape.cipher
    change (readNode P t v'.mounted).toOption = (readNode P t v.mounted).toOption
    unfold readNode
    exact congrArg Except.toOption (congrArg (· >>= _) hread)
  · change v'.store.slotLimit - v'.store.slotStart = v.store.slotLimit - v.store.slotStart
    rw [hshape.slotLimit, hshape.slotStart]
  · funext t
    refine propext ⟨fun ht => ⟨?_, ?_, ?_⟩, fun ht => ⟨?_, ?_, ?_⟩⟩
    · rw [← hshape.slotStart, ← hshape.slotLimit]
      exact ht.range
    · rw [← hshape.allocSlot]
      exact ht.ne_alloc
    · rw [← hfile]
      exact ht.inside
    · rw [hshape.slotStart, hshape.slotLimit]
      exact ht.range
    · rw [hshape.allocSlot]
      exact ht.ne_alloc
    · rw [hfile]
      exact ht.inside

/-- A node that is not written has no slot, or does not fit. -/
theorem writeNode_failed {e : VnmError} (h : (writeNode P node).run v.mounted = .error e v'.mounted) :
    (v.store.free = [] ∧ v'.store.free = []) ∨
      ∃ s, v.store.free = v'.store.free ++ [s] ∧ ¬ Fits v.store.cipher node := by
  cases hlast : v.store.free.getLast? with
  | none =>
    have hnil := List.getLast?_eq_none_iff.mp hlast
    obtain ⟨-, hcontainer | hcontainer⟩ := writeNode_error h
    · exact .inl ⟨hnil, by rw [store, hcontainer]; exact hnil⟩
    · refine .inl ⟨hnil, ?_⟩
      rw [store, hcontainer]
      change v.store.free.dropLast = []
      rw [hnil]
      rfl
  | some slot =>
    have hnofit : ¬ Fits v.store.cipher node := fun hfits => by
      obtain ⟨payload, hpayload⟩ := toVecNamed_of_fits hfits
      obtain ⟨m', hok⟩ := writeNode_isOk (P := P) (m := v.mounted) hlast v.2 hpayload
        ((fits_iff hpayload).mp hfits)
      cases hok.symm.trans h
    refine .inr ⟨slot, ?_, hnofit⟩
    rw [store, store, writeNode_popped hlast h]
    exact (List.dropLast_append_getLast? _ hlast).symm

instance : LawfulNodeStore (MountedVolume P) where
  readNode_eq _ _ _ := rfl
  writeNode_ok {v v' n s} h hs := by
    obtain ⟨hfree, payload, bytes, t, hpayload, hwritten, hm'⟩ := writeNode_ok (onSubtype_mounted h)
    obtain ⟨hfits, hnode, hfree', hothers, hsame⟩ :=
      written_laws hpayload hwritten ⟨rfl, rfl, rfl, rfl, rfl, rfl⟩ hm' hs
    refine ⟨?_, hfits, hnode, hothers, hsame⟩
    rw [hfree']
    exact hfree
  writeNode_ok_free {v v' n s} h := by
    obtain ⟨hfree, -⟩ := writeNode_ok (onSubtype_mounted h)
    change s ∈ v.mounted.container.store.free
    rw [hfree]
    exact List.mem_append_right _ List.mem_cons_self
  writeNode_error {v v' n e} h := by
    have hrun : (writeNode P n).run v.mounted = .error e v'.mounted := onSubtype_error.mp h
    obtain ⟨hdrew, hcontainer⟩ := writeNode_error hrun
    have hshape : SameShape v.store v'.store := by
      rcases hcontainer with hcontainer | hcontainer <;>
        · rw [store, store, hcontainer]
          exact ⟨rfl, rfl, rfl, rfl, rfl, rfl⟩
    obtain ⟨hagree, hsame⟩ := untouched_laws hdrew.file hshape
    exact ⟨hagree, hsame, writeNode_failed hrun⟩
  updateNode_ok {v v' s n} h hs := by
    obtain ⟨payload, bytes, t, hpayload, hwritten, hm'⟩ := updateNode_ok (onSubtype_mounted h)
    exact written_laws hpayload hwritten (SameShape.refl v.store) hm' hs
  updateNode_error {v v' s n e} h := by
    have hrun : (updateNode P s n).run v.mounted = .error e v'.mounted := onSubtype_error.mp h
    obtain ⟨hcontainer, hdrew⟩ := updateNode_error hrun
    have hstore : v'.store = v.store := by rw [store, store, hcontainer]
    obtain ⟨hagree, hsame⟩ := untouched_laws hdrew.file (hstore ▸ SameShape.refl v.store)
    refine ⟨fun hfits => ?_, hagree, ?_, hsame⟩
    · obtain ⟨payload, hpayload⟩ := toVecNamed_of_fits hfits
      obtain ⟨m', hok⟩ := @updateNode_isOk P v.mounted s _ _ v.2 hpayload
        ((fits_iff hpayload).mp hfits)
      cases hok.symm.trans hrun
    · change v'.store.free = v.store.free
      rw [hstore]
  freeNode_spec v s hs := by
    obtain ⟨bytes, hlen, hwrote, hcontainer⟩ := freeNode_spec s v.2
    have hstore : store (NodeStore.freeNode s v) =
        { v.store with free := insertFree s v.store.free, merkleDirty := true } :=
      congrArg VnmContainer.store hcontainer
    obtain ⟨hothers, hsame⟩ := @slot_changed P v (NodeStore.freeNode s v) _ _
      (hstore ▸ ⟨rfl, rfl, rfl, rfl, rfl, rfl⟩) hwrote hlen hs
    refine ⟨?_, hothers, hsame⟩
    change (store (NodeStore.freeNode s v)).free = _
    rw [hstore]
    rfl

/-- A slot that is not in the file is not read, whatever is written inside the file. -/
theorem read_outside {f f' : ByteFile} (hf : v.mounted.world.file = some f)
    (hf' : v'.mounted.world.file = some f') (hsize : f'.size = f.size)
    (hout : ¬ slotOffset slot + slotSize ≤ f.size) :
    readNode P slot v'.mounted = readNode P slot v.mounted := by
  have hread : ∀ {u : MountedVolume P} {g : ByteFile}, u.mounted.world.file = some g →
      g.size = f.size → readNode P slot u.mounted = .error World.unexpectedEof := by
    intro u g hg hsize
    unfold readNode SlotStore.read
    have hnone : g.read (slotOffset slot) slotSize = none := if_neg (by rw [hsize]; exact hout)
    rw [World.read, hg]
    dsimp only
    rw [hnone]
    rfl
  rw [hread hf rfl, hread hf' hsize]

instance : FreeingNodeStore (MountedVolume P) where
  free_freeNode v s := by
    obtain ⟨bytes, -, -, hcontainer⟩ := freeNode_spec s v.2
    exact congrArg (fun m : VnmContainer => m.store.free) hcontainer
  readNode_freeNode v s t hs hne := by
    obtain ⟨bytes, hlen, hwrote, hcontainer⟩ := freeNode_spec s v.2
    obtain ⟨f, hf, hinside⟩ := (isDataSlot_iff.mp hs).inside
    obtain ⟨f₁, hf₁, hf'⟩ := hwrote.file
    cases hf.symm.trans hf₁
    have hsize : (f.write (slotOffset s) bytes).size = f.size :=
      ByteFile.size_write_of_le (by rw [hlen]; exact hinside)
    have hstore : store (NodeStore.freeNode s v) =
        { v.store with free := insertFree s v.store.free, merkleDirty := true } :=
      congrArg VnmContainer.store hcontainer
    change (readNode P t (freeNode s v.mounted)).toOption = (readNode P t v.mounted).toOption
    by_cases ht : slotOffset t + slotSize ≤ f.size
    · have hread := @read_congr P _ (store (NodeStore.freeNode s v)) _ _ _ _ t hf hf' hsize
        (agreeOn_slot hlen ht hne).slice_eq (by rw [hstore]) (by rw [hstore])
      unfold readNode
      exact congrArg Except.toOption (congrArg (· >>= _) hread)
    · exact congrArg Except.toOption
        (@read_outside P v (NodeStore.freeNode s v) t f _ hf hf' hsize ht)

instance : FiniteNodeStore (MountedVolume P) := ⟨fun v slots hnodup hslots => by
  have hsub : slots ⊆ List.range' v.store.slotStart (v.store.slotLimit - v.store.slotStart) :=
    fun s hs => by
      have := (isDataSlot_iff.mp (hslots s hs)).range
      exact List.mem_range'_1.mpr ⟨this.1, by omega⟩
  have hle := hnodup.length_le_of_subset hsub
  rwa [List.length_range'] at hle⟩

/-! ## What a call changes -/

/-- What a call of the driver can do to a mounted container: its store keeps its shape, slots are
    written and random bytes drawn. -/
structure Stepped (v v' : MountedVolume P) : Prop where
  container : ∃ st, SameShape v.store st ∧
    v'.mounted.container = { v.mounted.container with store := st }
  issues : World.Issues (fun x => ∃ slot, x.off = slotOffset slot) v.mounted.world v'.mounted.world
  later : v.mounted.world.Later v'.mounted.world

namespace Stepped

theorem shape (h : Stepped v v') : SameShape v.store v'.store := by
  obtain ⟨st, hshape, hcontainer⟩ := h.container
  have hstore : v'.store = st := congrArg VnmContainer.store hcontainer
  rw [hstore]
  exact hshape

theorem of_drew {st : SlotStore} (hshape : SameShape v.store st)
    (hcontainer : v'.mounted.container = { v.mounted.container with store := st })
    (hdrew : v.mounted.world.OnlyDrew v'.mounted.world) : Stepped v v' :=
  ⟨⟨st, hshape, hcontainer⟩, .of_drew hdrew, hdrew.later⟩

theorem of_wrote {st : SlotStore} (hshape : SameShape v.store st)
    (hcontainer : v'.mounted.container = { v.mounted.container with store := st })
    (hwrote : World.Wrote (slotOffset slot) bytes v.mounted.world v'.mounted.world) : Stepped v v' :=
  ⟨⟨st, hshape, hcontainer⟩, .of_wrote hwrote ⟨slot, rfl⟩, hwrote.later⟩

/-- A slot is written, by a store of the volume's shape. -/
theorem of_written {st : SlotStore} {s : OpenStore} (hshape : SameShape v.store st)
    (hwritten : Written P slot payload { store := st, world := v.mounted.world } s bytes)
    (hv' : v'.mounted = v.mounted.withStore s) : Stepped v v' := by
  have hstore : SameShape v.store s.store := by
    rw [hwritten.store]
    exact hshape.trans ⟨rfl, rfl, rfl, rfl, rfl, rfl⟩
  exact .of_wrote hstore (by rw [hv']; rfl) (by rw [hv']; exact hwritten.wrote)

theorem writeNode (n : VaultNode) (v : MountedVolume P) :
    Stepped v (after (NodeStore.writeNode n) v) := by
  have hpop : SameShape v.store (popFree v.store) := ⟨rfl, rfl, rfl, rfl, rfl, rfl⟩
  rcases run_cases (NodeStore.writeNode n) v with ⟨slot, hok⟩ | ⟨e, herror⟩
  · obtain ⟨-, payload, bytes, s, -, hwritten, hm⟩ := writeNode_ok (onSubtype_mounted hok)
    exact .of_written hpop hwritten hm
  · have hrun : (Fs.writeNode P n).run v.mounted = .error e (after (NodeStore.writeNode n) v).mounted :=
      onSubtype_error.mp herror
    obtain ⟨hdrew, hcontainer | hcontainer⟩ := writeNode_error hrun
    · exact .of_drew (.refl _) hcontainer hdrew
    · exact .of_drew hpop hcontainer hdrew

theorem updateNode (slot : Nat) (n : VaultNode) (v : MountedVolume P) :
    Stepped v (after (NodeStore.updateNode slot n) v) := by
  rcases run_cases (NodeStore.updateNode slot n) v with ⟨u, hok⟩ | ⟨e, herror⟩
  · obtain ⟨payload, bytes, s, -, hwritten, hm⟩ := updateNode_ok (onSubtype_mounted hok)
    exact .of_written (.refl _) hwritten hm
  · have hrun : (Fs.updateNode P slot n).run v.mounted =
        .error e (after (NodeStore.updateNode slot n) v).mounted := onSubtype_error.mp herror
    obtain ⟨hcontainer, hdrew⟩ := updateNode_error hrun
    exact .of_drew (.refl _) hcontainer hdrew

theorem freeNode (slot : Nat) (v : MountedVolume P) : Stepped v (NodeStore.freeNode slot v) := by
  obtain ⟨bytes, -, hwrote, hcontainer⟩ := freeNode_spec slot v.2
  have hshape : SameShape v.store
      { v.store with free := insertFree slot v.store.free, merkleDirty := true } :=
    ⟨rfl, rfl, rfl, rfl, rfl, rfl⟩
  exact .of_wrote hshape hcontainer hwrote

end Stepped

/-- What survives every such change is kept by the calls. -/
theorem keptByCalls {p : MountedVolume P → Prop} (h : ∀ {v v'}, Stepped v v' → p v → p v') :
    KeptByCalls p where
  writeNode n v := h (.writeNode n v)
  updateNode slot n v := h (.updateNode slot n v)
  freeNode slot v := h (.freeNode slot v)

/-- Where only node slots decode, the allocation block's slot is the one to spare. -/
theorem nodeSlots (hdecode : ∀ s n, readNode P s v.mounted = .ok n → HasSlot v s)
    (halloc : v.store.slotStart ≤ v.store.allocSlot ∧ v.store.allocSlot < v.store.slotLimit) :
    NodeSlots v where
  dataSlot := hdecode
  spare slots hnodup hslots := by
    have hnew : v.store.allocSlot ∉ slots := fun hmem => by
      obtain ⟨n, hn⟩ := hslots _ hmem
      exact (hdecode _ _ hn).ne_alloc rfl
    have hsub : v.store.allocSlot :: slots ⊆
        List.range' v.store.slotStart (v.store.slotLimit - v.store.slotStart) := by
      intro s hs
      rw [List.mem_range'_1]
      rcases List.mem_cons.mp hs with rfl | hs
      · omega
      · obtain ⟨n, hn⟩ := hslots s hs
        have := (hdecode s n hn).range
        omega
    have hle := (List.nodup_cons.mpr ⟨hnew, hnodup⟩).length_le_of_subset hsub
    rwa [List.length_range', List.length_cons] at hle

end MountedVolume

end Venom.Fs
