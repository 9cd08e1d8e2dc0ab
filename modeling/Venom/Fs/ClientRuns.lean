import Venom.Fs.Generations
import Venom.Fs.SavedVolume

/-! # Clients of a container

A client writes nodes and gives slots back, changes who may open the container, and flushes and
opens it again and again.  Throughout, its nodes are in their slots, the file grants access to
the passwords and keys of the list, and what a flush saves is found by every credential that
recovers the master key.
-/

namespace Venom.Fs

open Venom.Container
open Venom.Crypto
open Venom.Storage
open Venom.Storage.SlotStore
open Venom.Library
open Venom.Library.StateError

variable {P : Primitives}

/-- A volume, the nodes that a client has in it, and the access list. -/
structure Client (P : Primitives) where
  volume : MountedVolume P
  contents : Contents
  access : AccessList

namespace Client

/-- The client's calls, each of which succeeds.  A new header opens with one cipher only. -/
inductive Step : Client P → Client P → Prop
  | called {v v' : MountedVolume P} {C C' : Contents} {l : AccessList} (h : NodeCall (v, C) (v', C')) :
      Step ⟨v, C, l⟩ ⟨v', C', l⟩
  | recipient {v v' : MountedVolume P} {C : Contents} {l : AccessList} (call : RecipientCall)
      (h : (call.run P).run v.mounted = .ok () v'.mounted)
      (honly : OneHeader P v'.mounted.container v'.mounted.world) : Step ⟨v, C, l⟩ ⟨v', C, call.apply l⟩
  | flushed {v v' : MountedVolume P} {C : Contents} {l : AccessList}
      (h : (flush P).run v.mounted = .ok () v'.mounted) : Step ⟨v, C, l⟩ ⟨v', C, l⟩
  | remounted {v v' : MountedVolume P} {C : Contents} {l : AccessList} (h : Remounts v v') :
      Step ⟨v, C, l⟩ ⟨v', C, l⟩

/-- What holds throughout.  The header is that of the volume with the counts of the access list. -/
structure Inv (lay : Layout) (k : Key) (payload : HeaderPayload) (s : Client P) : Prop where
  header : ∃ H : OuterHeader P, H.On s.volume ∧ H.key = k ∧ H.payload = counted payload s.access
  granted : ∃ f, s.volume.mounted.world.file = some f ∧ Granted P lay k payload s.access f
  kMaster : s.volume.mounted.container.kMaster = k
  cipher : s.volume.mounted.container.cipher = payload.cipher
  holds : HoldsNodes s.volume s.contents
  current : RootCurrent P s.volume.mounted.openStore

/-! ## Node calls -/

section Calls

variable {v v' : MountedVolume P} {C C' : Contents} {H : OuterHeader P}

theorem on_called (hv : H.On v) (hcall : NodeCall (v, C) (v', C')) : H.On v' := by
  cases hcall with
  | @wrote _ _ _ n s hrun =>
    have hkept := KeptByCalls.writeNode n v hv
    rwa [after_of_ok hrun] at hkept
  | @updated _ _ _ n s hheld hrun =>
    have hkept := KeptByCalls.updateNode s n v hv
    rwa [after_of_ok hrun] at hkept
  | freed => exact KeptByCalls.freeNode _ v hv

/-- A call writes one slot, and the root has to be computed anew.  The generation stays. -/
structure SlotWritten (v v' : MountedVolume P) (slot : Nat) : Prop where
  container : ∃ st, v'.mounted.container = { v.mounted.container with store := st } ∧
    st.merkleDirty = true ∧ st.generation = v.store.generation
  wrote : ∃ bytes, bytes.length = slotSize ∧
    World.Wrote (slotOffset slot) bytes v.mounted.world v'.mounted.world

theorem slotWritten (hv : HoldsNodes v C) (hcall : NodeCall (v, C) (v', C')) :
    ∃ slot o, C' = Function.update C slot o ∧ SlotChange v v' C slot o ∧ SlotWritten v v' slot := by
  cases hcall with
  | @wrote _ _ _ n s hrun =>
    obtain ⟨-, payload, bytes, t, -, hwritten, hm⟩ := writeNode_ok (MountedVolume.onSubtype_mounted hrun)
    refine ⟨s, _, rfl, hv.wrote hrun, ⟨t.store, ?_, ?_, ?_⟩, bytes, hwritten.length, ?_⟩
    · rw [hm]
      rfl
    · rw [hwritten.store]
    · rw [hwritten.store]
      rfl
    · rw [hm]
      exact hwritten.wrote
  | @updated _ _ _ n s hheld hrun =>
    obtain ⟨payload, bytes, t, -, hwritten, hm⟩ := updateNode_ok (MountedVolume.onSubtype_mounted hrun)
    refine ⟨s, _, rfl, hv.updated hheld hrun, ⟨t.store, ?_, ?_, ?_⟩, bytes, hwritten.length, ?_⟩
    · rw [hm]
      rfl
    · rw [hwritten.store]
    · rw [hwritten.store]
      rfl
    · rw [hm]
      exact hwritten.wrote
  | @freed _ _ s hheld =>
    obtain ⟨bytes, hlen, hwrote, hcontainer⟩ := freeNode_spec s v.2
    exact ⟨s, _, rfl, hv.freed hheld, ⟨_, hcontainer, rfl, rfl⟩, bytes, hlen, hwrote⟩

end Calls

section Steps

variable {total : UInt64} {hidden : Option UInt64} {lay : Layout} {k : Key} {payload : HeaderPayload}
  {s s' : Client P} {v v' : MountedVolume P} {C C' : Contents} {l l' : AccessList} {H : OuterHeader P}

/-- The slots of the volume are the outer ones of the layout. -/
theorem outerSlot_of_on (hv : H.On v) (hslots : H.payload.outerSlots = lay.outerSlots) {slot : Nat}
    (hslot : v.store.slotStart ≤ slot ∧ slot < v.store.slotLimit) : lay.Has (.outerSlot slot) := by
  have hlimit : v.store.slotLimit = H.payload.outerSlots.toNat := hv.shape.slotLimit
  rw [hlimit, hslots] at hslot
  exact hslot.2

theorem granted_written {slot : Nat} {bytes : List UInt8} {f : ByteFile} (hg : Granted P lay k payload l f)
    (hs : Sizes total hidden lay) (hslot : lay.Has (.outerSlot slot)) (hlen : bytes.length = slotSize) :
    Granted P lay k payload l (f.write (slotOffset slot) bytes) :=
  hg.slot_write hs (x := ⟨slotOffset slot, bytes⟩) ⟨hslot, rfl, hlen⟩

theorem granted_wrote {slot : Nat} {w w' : World} {bytes : List UInt8} {f : ByteFile}
    (hg : Granted P lay k payload l f) (hs : Sizes total hidden lay) (hf : w.file = some f)
    (hslot : lay.Has (.outerSlot slot)) (hlen : bytes.length = slotSize)
    (hwrote : World.Wrote (slotOffset slot) bytes w w') :
    ∃ f', w'.file = some f' ∧ Granted P lay k payload l f' := by
  obtain ⟨g, hg', hf'⟩ := hwrote.file
  cases hf.symm.trans hg'
  exact ⟨_, hf', granted_written hg hs hslot hlen⟩

theorem Inv.called (h : Inv lay k payload ⟨v, C, l⟩) (hs : Sizes total hidden lay)
    (hslots : payload.outerSlots = lay.outerSlots) (hcall : NodeCall (v, C) (v', C')) :
    Inv lay k payload ⟨v', C', l⟩ := by
  obtain ⟨⟨H, hv, hkey, hpayload⟩, ⟨f, hf, hg⟩, hkMaster, hcipher, hholds, -⟩ := h
  obtain ⟨slot, o, -, hchange, ⟨st, hcontainer, hdirty, -⟩, bytes, hlen, hwrote⟩ := slotWritten hholds hcall
  have hslot : MountedVolume.HasSlot v slot := hchange.dataSlot
  have hHslots : H.payload.outerSlots = lay.outerSlots := by rw [hpayload]; exact hslots
  refine ⟨⟨H, on_called hv hcall, hkey, hpayload⟩,
    granted_wrote hg hs hf (outerSlot_of_on hv hHslots hslot.range) hlen hwrote, ?_, ?_,
    hholds.call hcall, rootCurrent_of_dirty ?_⟩
  · rw [hcontainer]
    exact hkMaster
  · rw [hcontainer]
    exact hcipher
  · change v'.mounted.container.store.merkleDirty = true
    rw [hcontainer]
    exact hdirty

/-! ## Key management -/

@[simp] theorem containerId_counted : (counted payload l).containerId = payload.containerId := rfl

@[simp] theorem outerSlots_counted : (counted payload l).outerSlots = payload.outerSlots := rfl

@[simp] theorem cipher_counted : (counted payload l).cipher = payload.cipher := rfl

@[simp] theorem storeToLoad_counted {start limit alloc : Nat} :
    storeToLoad k (counted payload l) start limit alloc = storeToLoad k payload start limit alloc := rfl

@[simp] theorem containerOf_counted {outerLimit : UInt64} {st : SlotStore} :
    containerOf k (counted payload l) false outerLimit st = containerOf k payload false outerLimit st := rfl

/-- The header of another access list. -/
def headerOf (H : OuterHeader P) (hpayload : H.payload = counted payload l)
    {raw : List UInt8} (hheader : IsHeader P k false (counted payload l') raw)
    (honly : OnlyCipher P k false payload.cipher raw) : OuterHeader P where
  raw
  key := k
  payload := counted payload l'
  isHeader := hheader
  only := honly
  hasId := by simpa [hpayload] using H.hasId
  slots := by simpa [hpayload] using H.slots

theorem raw_headerOf (hpayload : H.payload = counted payload l) {raw : List UInt8}
    (hheader : IsHeader P k false (counted payload l') raw)
    (honly : OnlyCipher P k false payload.cipher raw) :
    (headerOf H hpayload hheader honly).raw = raw := rfl

/-- The headers and the recipient area change, and no slot does. -/
theorem Inv.recipient (h : Inv lay k payload ⟨v, C, l⟩) (hs : Sizes total hidden lay)
    (hslots : payload.outerSlots = lay.outerSlots) {call : RecipientCall}
    (hrun : (call.run P).run v.mounted = .ok () v'.mounted)
    (honly : OneHeader P v'.mounted.container v'.mounted.world) :
    Inv lay k payload ⟨v', C, call.apply l⟩ := by
  obtain ⟨⟨H, hv, hkey, hpayload⟩, ⟨f, hf, hg⟩, hkMaster, hcipher, hholds, hcurrent⟩ := h
  obtain ⟨parts, ws, hre⟩ := RecipientCall.run_ok hg hs hf hkMaster hcipher.symm hrun
  have hHslots : H.payload.outerSlots = lay.outerSlots := by rw [hpayload]; exact hslots
  have hf' := hre.issued.file_eq hf
  have hsize : (f.replay ws).size = f.size := hre.granted.size.trans hg.size.symm
  have hstore : v'.store = v.store := by rw [MountedVolume.store, hre.container]; rfl
  have hslice : ∀ slot, v.store.slotStart ≤ slot ∧ slot < v.store.slotLimit →
      (f.replay ws).slice (slotOffset slot) slotSize = f.slice (slotOffset slot) slotSize :=
    fun slot hslot => hre.slice_slot hs hg.size (outerSlot_of_on hv hHslots hslot)
  have hreopens : Storage.Reopens v v' := by
    refine MountedVolume.reopens_of_slices hf hf' hsize ?_ (.of_eq (congrArg SlotStore.free hstore))
      fun slot hslot _ _ => hslice slot hslot
    rw [hstore]
    exact .refl _
  refine ⟨?_, ⟨_, hf', hre.granted⟩, ?_, ?_, hholds.reopened hreopens ?_, ?_⟩
  · -- the new header has other counts, and the rest of the old one
    have honly' : OnlyCipher P k false payload.cipher ((f.replay ws).slice 0 512) := by
      have hfile := honly _ hf'
      rwa [hre.container, hkMaster, hcipher] at hfile
    refine ⟨headerOf H hpayload hre.granted.header honly', ⟨⟨_, hf', ?_, ?_⟩, ?_, ?_⟩, rfl, rfl⟩
    · rw [raw_headerOf]
    · obtain ⟨g, hg', -, hroom⟩ := hv.heads
      cases hf.symm.trans hg'
      rw [hpayload, outerSlots_counted] at hroom
      rw [hsize]
      exact hroom
    · have hshape := hv.shape
      rw [OuterHeader.blank, hkey, hpayload, storeToLoad_counted, outerSlots_counted] at hshape
      rw [hstore]
      exact hshape
    · rw [hre.container, hv.containerId, hpayload]
      rfl
  · rw [hre.container]
    exact hkMaster
  · rw [hre.container]
    exact hcipher
  · change v'.store.free.SortedGT
    rw [hstore]
    exact hholds.sorted
  · intro hreuses
    have hstore' : v'.mounted.openStore.store = v.mounted.openStore.store := hstore
    rw [hstore'] at hreuses ⊢
    refine computeMerkleRoot_of_reads (fun slot hslot raw hraw => ?_) (hcurrent hreuses)
    have hrange := outerSlot_of_on hv hHslots (mem_usedSlots.mp hslot).1
    exact (hre.read_slot hs hf hg.size hrange).trans hraw

/-! ## Flush and open -/

theorem granted_saved {st : SlotStore} {m' : Mounted} (h : Inv lay k payload ⟨v, C, l⟩)
    (hs : Sizes total hidden lay) (hslots : payload.outerSlots = lay.outerSlots)
    (hpayload : H.payload = counted payload l) (hsaved : SavedTo H v st m') :
    ∃ f, m'.world.file = some f ∧ Granted P lay k payload l f := by
  obtain ⟨f, hf, hg⟩ := h.granted
  obtain ⟨bytes, w₁, hlen, hwrote, hfile⟩ := hsaved.wrote
  have hroom := H.slots
  rw [hpayload] at hroom
  have hslot : lay.Has (.outerSlot outerAllocSlot) :=
    Nat.lt_of_lt_of_eq hroom (congrArg UInt64.toNat hslots)
  obtain ⟨f', hf', hg'⟩ := granted_wrote hg hs hf hslot hlen hwrote
  exact ⟨f', hfile.trans hf', hg'⟩

theorem Inv.flushed (h : Inv lay k payload ⟨v, C, l⟩) (hs : Sizes total hidden lay)
    (hslots : payload.outerSlots = lay.outerSlots)
    (hrun : (flush P).run v.mounted = .ok () v'.mounted) : Inv lay k payload ⟨v', C, l⟩ := by
  obtain ⟨H, hv, hkey, hpayload⟩ := h.header
  obtain ⟨st, hst⟩ := hv.flushed hrun
  have hgranted := granted_saved h hs hslots hpayload hst
  refine ⟨⟨H, hst.on hv rfl, hkey, hpayload⟩, hgranted, ?_, ?_,
    h.holds.reopened (hst.flushed hv rfl) ?_, hst.current rfl⟩
  · rw [hst.container]
    exact h.kMaster
  · rw [hst.container]
    exact h.cipher
  · change v'.mounted.container.store.free.SortedGT
    rw [hst.container]
    change st.free.SortedGT
    rw [hst.free_eq]
    exact h.holds.sorted

theorem Inv.remounted (h : Inv lay k payload ⟨v, C, l⟩) (hs : Sizes total hidden lay)
    (hslots : payload.outerSlots = lay.outerSlots) (hre : Remounts v v') :
    Inv lay k payload ⟨v', C, l⟩ := by
  obtain ⟨H, hv, hkey, hpayload⟩ := h.header
  have hfree := h.holds.freeOk
  obtain ⟨st, m', store, hst, hreloaded, -, -, hv'⟩ := hre.loaded hv hfree
  obtain ⟨f, hf, hg⟩ := granted_saved h hs hslots hpayload hst
  refine ⟨⟨H, hre.on hv hfree, hkey, hpayload⟩, ⟨f, by rw [hv']; exact hf, hg⟩, ?_, ?_,
    h.holds.reopened (hre.reopens hv hfree) ?_, hre.current hv hfree⟩
  · rw [hv']
    exact hkey
  · rw [hv']
    change H.payload.cipher = _
    rw [hpayload]
    rfl
  · change v'.mounted.container.store.free.SortedGT
    rw [hv']
    exact hreloaded.descending

theorem Inv.step (h : Inv lay k payload s) (hs : Sizes total hidden lay)
    (hslots : payload.outerSlots = lay.outerSlots) (hstep : Step s s') : Inv lay k payload s' := by
  cases hstep with
  | called hcall => exact h.called hs hslots hcall
  | recipient call hrun honly => exact h.recipient hs hslots hrun honly
  | flushed hrun => exact h.flushed hs hslots hrun
  | remounted hre => exact h.remounted hs hslots hre

theorem Inv.run (h : Inv lay k payload s) (hs : Sizes total hidden lay)
    (hslots : payload.outerSlots = lay.outerSlots) (hrun : Relation.ReflTransGen Step s s') :
    Inv lay k payload s' := by
  induction hrun with
  | refl => exact h
  | tail _ hstep ih => exact ih.step hs hslots hstep

/-! ## Calls that succeed -/

theorem Inv.flush_isOk (h : Inv lay k payload s) (hfits : AllocFits payload.cipher payload.outerSlots.toNat) :
    ∃ v' : MountedVolume P, (flush P).run s.volume.mounted = .ok () v'.mounted := by
  obtain ⟨H, hv, -, hpayload⟩ := h.header
  refine hv.flush_isOk h.holds.freeOk ?_
  rw [hpayload]
  exact hfits

theorem Inv.cipher_eq (h : Inv lay k payload s) : NodeStore.cipher s.volume = payload.cipher := by
  obtain ⟨H, hv, -, hpayload⟩ := h.header
  rw [← cipher_counted (l := s.access), ← hpayload]
  exact hv.shape.cipher

theorem Inv.write_isOk {n : VaultNode} (h : Inv lay k payload s) (hfree : free s.volume ≠ [])
    (hfits : Fits payload.cipher n) :
    ∃ slot v', (NodeStore.writeNode n).run s.volume = .ok slot v' :=
  Storage.writeNode_isOk hfree (h.cipher_eq ▸ hfits)

/-- A node goes to a free slot. -/
theorem Inv.wrote {n : VaultNode} {slot : Nat} {v' : MountedVolume P} (h : Inv lay k payload s)
    (hrun : (NodeStore.writeNode n).run s.volume = .ok slot v') :
    Step s { s with volume := v', contents := Function.update s.contents slot (some n) } ∧
      slot ∈ free s.volume ∧ (free s.volume).length = (free v').length + 1 ∧
      v'.store.generation = s.volume.store.generation ∧ v'.store.merkleDirty = true := by
  have hmem := LawfulNodeStore.writeNode_ok_free hrun
  obtain ⟨hpopped, -⟩ := LawfulNodeStore.writeNode_ok hrun (h.holds.freeOk.dataSlot slot hmem)
  have hcall : NodeCall (s.volume, s.contents) (v', Function.update s.contents slot (some n)) :=
    .wrote hrun
  obtain ⟨-, -, -, -, ⟨st, hstore, hdirty, hgeneration⟩, -⟩ := slotWritten h.holds hcall
  have hst : v'.store = st := congrArg VnmContainer.store hstore
  refine ⟨.called hcall, hmem, ?_, ?_, ?_⟩
  · rw [hpopped, List.length_append, List.length_singleton]
  · rw [hst]
    exact hgeneration
  · rw [hst]
    exact hdirty

theorem Inv.update_isOk {n : VaultNode} (h : Inv lay k payload s) (hfits : Fits payload.cipher n) (slot : Nat) :
    ∃ v', (NodeStore.updateNode slot n).run s.volume = .ok () v' :=
  Storage.updateNode_isOk (h.cipher_eq ▸ hfits)

/-- What a flush has saved is opened by any credential that recovers the key. -/
theorem Inv.remounts {m' : Mounted} {credential : OpenCredential} (h : Inv lay k payload s)
    (hrun : (flush P).run s.volume.mounted = .ok () m') (hfinds : Recovers P k m'.world credential) :
    ∃ v', Remounts s.volume v' := by
  obtain ⟨H, hv, hkey, -⟩ := h.header
  rw [← hkey, ← hv.masterKey] at hfinds
  obtain ⟨c, hopen⟩ := hv.opens h.holds.freeOk h.current hrun hfinds
  obtain ⟨st, hst⟩ := hv.flushed hrun
  obtain ⟨f, hf, -⟩ := hst.heads hv
  exact ⟨⟨{ container := c, world := m'.world }, by rw [hf]; exact Option.some_ne_none f⟩, m', credential, c,
    hrun, hfinds, hopen, rfl⟩

theorem Inv.addPassword {p slot : List UInt8} {w : World} (h : Inv lay k payload s)
    (hs : Sizes total hidden lay) (hlt : s.access.passwords.length < maxPasswordSlots)
    (hencode : (encodePasswordSlot P k p payload.kdfProfile).run s.volume.mounted.world = .ok slot w) :
    ∃ v' : MountedVolume P, ((RecipientCall.addPassword p).run P).run s.volume.mounted = .ok () v'.mounted ∧
      v'.mounted.container = s.volume.mounted.container ∧ ∃ f, v'.mounted.world.file = some f ∧
        Granted P lay k payload ((RecipientCall.addPassword p).apply s.access) f := by
  obtain ⟨f, hf, hg⟩ := h.granted
  obtain ⟨m', hrun⟩ := addPassword_isOk hg hs hf h.kMaster h.cipher.symm hlt hencode
  have hrun' : ((RecipientCall.addPassword p).run P).run s.volume.mounted = .ok () m' := hrun
  obtain ⟨parts, ws, hre⟩ := RecipientCall.run_ok hg hs hf h.kMaster h.cipher.symm hrun'
  have hf' := hre.issued.file_eq hf
  exact ⟨⟨m', by rw [hf']; exact Option.some_ne_none _⟩, hrun, hre.container, _, hf', hre.granted⟩

end Steps

end Client

/-! ## From a new container on -/

/-- The file seals the master key for the passwords and the keys of the list. -/
structure Grants (P : Primitives) (m : VnmContainer) (l : AccessList) (w : World) : Prop where
  password : ∀ f i p, w.file = some f → l.passwords[i]? = some p →
    IsPasswordSlot P m.kMaster p (f.slice (pwSlotOffset i) pwSlotSize)
  key : ∀ f j pk, w.file = some f → l.keys[j]? = some pk →
    IsKeySlot P m.kMaster pk m.cipher (f.slice (keySlotOffset j) keySlotSize)

/-- What a header keeps of a label: its first 64 bytes, up to the first zero. -/
def keptLabel (label : Option String) : Option String := labelFrom (labelBytes label)

/-- The container that was opened in `w` is the one whose store `saved` was saved, under the label
    that its header keeps, with all that its client put there. -/
structure Persisted (P : Primitives) (m : VnmContainer) (C : Contents) (saved : SlotStore) (w : World)
    (c : VnmContainer) : Prop where
  container : c = { m with label := keptLabel m.label, store := c.store }
  free : c.store.free = saved.free
  generation : c.store.generation = saved.generation
  nodes : ∀ slot n, C slot = some n → readNode P slot { container := c, world := w } = .ok n

section Created

variable {outerPassword : List UInt8} {totalSizeBytes : UInt64} {cipher : CipherAlgorithm}
  {kdfProfile : String} {label : Option String} {hidden : Option HiddenVolumeOptions}
  {w w' : World} {m : VnmContainer} {b : Blocks}

/-- The client that has made the container. -/
def Client.new (v : MountedVolume P) (outerPassword : List UInt8) : Client P where
  volume := v
  contents := Function.update (fun _ => none) outerRootSlot (some emptyDirectory)
  access := .created outerPassword

theorem Client.root_new (v : MountedVolume P) (outerPassword : List UInt8) :
    (Client.new v outerPassword).contents outerRootSlot = some emptyDirectory := by
  simp [Client.new]

theorem readNode_of_nodes {v : MountedVolume P} {slot : Nat} {n : VaultNode} (h : nodes v slot = some n) :
    readNode P slot v.mounted = .ok n := by
  change (readNode P slot v.mounted).toOption = some n at h
  cases hread : readNode P slot v.mounted with
  | error e => rw [hread] at h; cases h
  | ok n' => rw [hread] at h; cases h; rfl

theorem Created.clientInv
    (h : Created P outerPassword totalSizeBytes cipher kdfProfile label hidden w m w' b)
    (hid : m.containerId ≠ zeroId) (honly : OneHeader P m w') :
    Client.Inv b.lay m.kMaster (newPayload b cipher w outerPassword kdfProfile label)
      (.new h.volume outerPassword) := by
  have hform := h.formatted
  have hfree : ∀ t ∈ free h.volume, IsDataSlot h.volume t := fun t ht => ((hform.mem_free t).mp ht).1
  refine ⟨⟨h.outerHeader hid honly, h.on hid honly, h.kMaster.symm, counted_newPayload.symm⟩,
    ⟨_, h.file_eq, h.kMaster ▸ h.granted⟩, rfl, ?_, ⟨h.sortedGT_free, ⟨hform.nodup, hfree⟩, ?_⟩, ?_⟩
  · change m.cipher = cipher
    rw [h.parts.container]
  · intro slot n hslot
    change Function.update (fun _ => none) outerRootSlot (some emptyDirectory) slot = some n at hslot
    by_cases hroot : slot = outerRootSlot
    · rw [hroot, Function.update_self] at hslot
      cases hslot
      rw [hroot]
      exact ⟨hform.dataSlot, fun hmem => ((hform.mem_free _).mp hmem).2 rfl, hform.rootNode⟩
    · rw [Function.update_of_ne hroot] at hslot
      cases hslot
  · apply rootCurrent_of_dirty
    change m.store.merkleDirty = true
    rw [h.store]

/-- The file grants the access list. -/
theorem Client.Inv.grants {s : Client P}
    (h : Created P outerPassword totalSizeBytes cipher kdfProfile label hidden w m w' b)
    (hinv : Client.Inv b.lay m.kMaster (newPayload b cipher w outerPassword kdfProfile label) s) :
    Grants P m s.access s.volume.mounted.world := by
  obtain ⟨f, hf, hg⟩ := hinv.granted
  have hcipher : m.cipher = cipher := by rw [h.parts.container]
  refine ⟨fun g i p hg' hi => ?_, fun g j pk hg' hj => ?_⟩
  · cases hf.symm.trans hg'
    exact hg.pwSlot i p hi
  · cases hf.symm.trans hg'
    rw [hcipher]
    exact hg.keySlot j pk hj

/-- With the toy primitives, a header in the first cipher opens with that one only. -/
theorem Granted.oneHeader_plain {lay : Layout} {payload : HeaderPayload} {l : AccessList} {f : ByteFile}
    (h : Granted plain lay m.kMaster payload l f) (hf : w.file = some f)
    (hcipher : payload.cipher = .xchacha20Poly1305) (hm : m.cipher = .xchacha20Poly1305) :
    OneHeader plain m w := by
  intro g hg
  cases hf.symm.trans hg
  rw [hm, ← hcipher]
  exact h.header.onlyCipher_plain hcipher

theorem Created.oneHeader_plain (h : Created plain outerPassword totalSizeBytes .xchacha20Poly1305
    kdfProfile label hidden w m w' b) : OneHeader plain m w' := by
  have hcipher : m.cipher = .xchacha20Poly1305 := by rw [h.parts.container]
  exact (h.kMaster ▸ h.granted : Granted plain b.lay m.kMaster _ _ _).oneHeader_plain h.file_eq rfl hcipher

/-- The passwords of the list recover the key, those that the toy primitives tell apart. -/
theorem Client.Inv.recovers_plain {v : UInt8} {s : Client plain} {p : List UInt8} (h : Created plain
      outerPassword totalSizeBytes .xchacha20Poly1305 kdfProfile label hidden (freePath v) m w' b)
    (hinv : Client.Inv b.lay m.kMaster
      (newPayload b .xchacha20Poly1305 (freePath v) outerPassword kdfProfile label) s)
    (hv : ∀ c, v ≠ plainMark c) (hp : SetsApart s.access p) :
    Recovers plain m.kMaster s.volume.mounted.world (.password p) := by
  obtain ⟨f, hf, hg⟩ := hinv.granted
  have hbytes : m.kMaster.toList = List.replicate 32 v := h.kMaster ▸ drawn_freePath v _ 32
  exact ⟨f, .triple, hf, hg.recoverMaster_plain h.sizes hf hbytes hv hp⟩

end Created

/-! ## A client of a container of 30 slots -/

section Million

/-- A file of one chunk. -/
def note (text : List UInt8) : VaultNode :=
  .file { kind := .file, totalSize := text.length, dataSlots := [], indexChain := none, data := text }

/-- A client has written a note, closed the container and opened it again, added a password, written
    another note, and flushed. -/
structure Noted (m : VnmContainer) (w' : World) (v : MountedVolume plain) (s : Client plain)
    (slot : Nat) (v' : MountedVolume plain) : Prop where
  create : (create plain [1] 1000000 .xchacha20Poly1305 "interactive" (some "vault") none).run
    (freePath 7) = .ok m w'
  id : m.containerId ≠ zeroId
  only : OneHeader plain m w'
  mounted : v.mounted = { container := m, world := w' }
  run : Relation.ReflTransGen Client.Step (.new v [1]) s
  access : s.access = { passwords := [[1], [2]], keys := [] }
  contents : s.contents slot = some (note [1, 2, 3])
  dirty : s.volume.store.merkleDirty = true
  flushed : (flush plain).run s.volume.mounted = .ok () v'.mounted
  generation : v'.store.generation = 3
  free : free v' ≠ []

theorem seven_unmarked (c : CipherAlgorithm) : (7 : UInt8) ≠ plainMark c := by
  cases c <;> decide

theorem free_million {m : VnmContainer} {w' : World} {b : Blocks} (h : Created plain [1] 1000000
      .xchacha20Poly1305 "interactive" (some "vault") none (freePath 7) m w' b) :
    b.lay.outerSlots.toNat = 30 ∧ 2 < (free h.volume).length := by
  have hmillion : layout 1000000 none = .ok ⟨30, 0, 512, 999928⟩ := rfl
  have hlay : b.lay = ⟨30, 0, 512, 999928⟩ := Except.ok.inj (h.layout.symm.trans hmillion)
  have hthirty : b.lay.outerSlots.toNat = 30 := by rw [hlay]; rfl
  refine ⟨hthirty, (show [2, 3, 4].Nodup by decide).length_le_of_subset fun t ht => ?_⟩
  obtain ⟨hstart, hlimit, halloc⟩ := h.slots
  rw [h.formatted.mem_free, h.hasSlot_iff, hstart, hlimit, halloc, hthirty]
  revert t
  decide

/-- The note is written, and the container is closed and opened again. -/
theorem reopened_million : ∃ (m : VnmContainer) (w' : World) (b : Blocks) (h : Created plain [1] 1000000
      .xchacha20Poly1305 "interactive" (some "vault") none (freePath 7) m w' b) (slot : Nat)
    (v v' : MountedVolume plain),
    (create plain [1] 1000000 .xchacha20Poly1305 "interactive" (some "vault") none).run (freePath 7) =
      .ok m w' ∧ (NodeStore.writeNode (note [1, 2, 3])).run h.volume = .ok slot v ∧ Remounts v v' ∧
      v'.store.generation = 2 ∧ 1 < (free v').length := by
  obtain ⟨m, w', hcreate⟩ := create_million_isOk 7
  obtain ⟨b, h⟩ := create_ok hcreate
  obtain ⟨hthirty, hfree⟩ := free_million h
  have hfits : AllocFits .xchacha20Poly1305 b.lay.outerSlots.toNat := by rw [hthirty]; decide
  have hinv := h.clientInv (created_million_id h) h.oneHeader_plain
  obtain ⟨slot, v, hwrite⟩ := hinv.write_isOk (List.ne_nil_of_length_pos (Nat.zero_lt_of_lt hfree))
    (show Fits .xchacha20Poly1305 (note [1, 2, 3]) by decide)
  obtain ⟨hstep₁, -, hfree₁, hgeneration₁, -⟩ := hinv.wrote hwrite
  change (free h.volume).length = _ at hfree₁
  let s : Client plain :=
    ⟨v, Function.update (Client.new h.volume [1]).contents slot (some (note [1, 2, 3])), .created [1]⟩
  have hinv₁ := hinv.step h.sizes rfl hstep₁
  obtain ⟨u, hflush⟩ := hinv₁.flush_isOk hfits
  have hfinds : Recovers plain m.kMaster u.mounted.world (.password [1]) :=
    Client.Inv.recovers_plain h (hinv₁.step h.sizes rfl (.flushed hflush)) seven_unmarked
      (show SetsApart (.created [1]) [1] by decide)
  obtain ⟨v', hre⟩ := hinv₁.remounts hflush hfinds
  obtain ⟨H, hv, -, -⟩ := hinv₁.header
  have hfree₂ : (free v').length = (free v).length := (hre.reopens hv hinv₁.holds.freeOk).free.length_eq
  refine ⟨m, w', b, h, slot, v, v', hcreate, hwrite, hre, ?_, by omega⟩
  rw [hre.generation hv hinv₁.holds.freeOk, show s.volume = v from rfl, hgeneration₁]
  rw [show (Client.new h.volume [1]).volume.store.generation = 1 from h.generation]
  decide

theorem noted_million : ∃ m w' v s slot v', Noted m w' v s slot v' := by
  obtain ⟨m, w', b, h, slot, v₁, v₂, hcreate, hwrite₁, hre, hgeneration, hfree⟩ := reopened_million
  obtain ⟨hthirty, -⟩ := free_million h
  have hfits : AllocFits .xchacha20Poly1305 b.lay.outerSlots.toNat := by rw [hthirty]; decide
  have hid := created_million_id h
  have honly := h.oneHeader_plain
  let s₂ : Client plain :=
    ⟨v₂, Function.update (Client.new h.volume [1]).contents slot (some (note [1, 2, 3])), .created [1]⟩
  have hrun : Relation.ReflTransGen Client.Step (.new h.volume [1]) s₂ :=
    (Relation.ReflTransGen.single (.called (.wrote hwrite₁))).tail (.remounted hre)
  have hinv₂ : Client.Inv b.lay m.kMaster _ s₂ := (h.clientInv hid honly).run h.sizes rfl hrun
  -- a password
  obtain ⟨sealed, w₁, hencode⟩ := @encodePasswordSlot_isOk plain m.kMaster v₂.mounted.world [2]
    (kdfId "interactive") ((plain_hasKeys [2] (kdfId "interactive")).slot _)
  obtain ⟨v₃, hadd, hcontainer, f, hf, hg⟩ := hinv₂.addPassword h.sizes
    (show 1 < maxPasswordSlots by decide) hencode
  have hkey : v₃.mounted.container.kMaster = m.kMaster := by rw [hcontainer]; exact hinv₂.kMaster
  have honly₃ : OneHeader plain v₃.mounted.container v₃.mounted.world :=
    (hkey ▸ hg).oneHeader_plain hf rfl (by rw [hcontainer]; exact hinv₂.cipher)
  let s₃ : Client plain := { s₂ with volume := v₃, access := ⟨[[1], [2]], []⟩ }
  have hstep₃ : Client.Step s₂ s₃ := .recipient _ hadd honly₃
  have hinv₃ := hinv₂.step h.sizes rfl hstep₃
  have hstore₃ : v₃.store = v₂.store := congrArg VnmContainer.store hcontainer
  have hfree₃ : 1 < (free v₃).length := (congrArg (fun st => st.free.length) hstore₃).symm ▸ hfree
  -- another note
  obtain ⟨slot', v₄, hwrite⟩ := hinv₃.write_isOk (List.ne_nil_of_length_pos (Nat.zero_lt_of_lt hfree₃))
    (show Fits .xchacha20Poly1305 (note [4, 5]) by decide)
  obtain ⟨hstep₄, hmem, hfree₄, hgeneration₄, hdirty⟩ := hinv₃.wrote hwrite
  change (free v₃).length = _ at hfree₄
  let s₄ : Client plain :=
    ⟨v₄, Function.update s₃.contents slot' (some (note [4, 5])), ⟨[[1], [2]], []⟩⟩
  have hinv₄ := hinv₃.step h.sizes rfl hstep₄
  obtain ⟨v', hflush⟩ := hinv₄.flush_isOk hfits
  obtain ⟨H, hv, -, -⟩ := hinv₄.header
  obtain ⟨st', hsaved⟩ := hv.flushed hflush
  have hfree' : (free v').length = (free v₄).length := (hsaved.flushed hv rfl).free.length_eq
  refine ⟨m, w', h.volume, s₄, slot, v', hcreate, hid, honly, rfl, (hrun.tail hstep₃).tail hstep₄, rfl, ?_,
    hdirty, hflush, ?_, List.ne_nil_of_length_pos (by omega)⟩
  · have hnote : s₃.contents slot = some (note [1, 2, 3]) := Function.update_self _ _ _
    -- the slot of the first note is not free any more
    have hne : slot ≠ slot' := fun heq => (hinv₃.holds.held slot _ hnote).2.1 (heq ▸ hmem)
    exact (Function.update_of_ne hne _ _).trans hnote
  · obtain ⟨-, -, hgeneration', -⟩ := flush_generation hflush hv.hasGeneration
    refine hgeneration'.trans ?_
    rw [show s₄.volume.mounted.container.store.generation = s₃.volume.store.generation from hgeneration₄,
      show s₃.volume.store = v₂.store from hstore₃, hgeneration]
    decide

end Million

end Venom.Fs
