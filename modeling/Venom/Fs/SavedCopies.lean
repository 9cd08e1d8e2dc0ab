import Venom.Fs.ClientRuns

/-! # Copies of a saved container

Somebody may have written to the file since it was saved: an attacker, or a client that has
crashed before its next flush.  As long as the header and the allocation block are in place,
`open` finds what was saved when the slots in use are untouched, and refuses the file when one
of them has other bytes, unless the hash has a collision.
-/

namespace Venom.Fs

open Venom.Container
open Venom.Crypto
open Venom.Storage
open Venom.Storage.SlotStore
open Venom.Library
open Venom.Library.StateError

variable {P : Primitives}

/-- A file with the header and the allocation block of the saved container, on a device that has
    seen no later generation. -/
structure Copy (m : VnmContainer) (saved : Mounted) (w : World) : Prop where
  file : ∃ f f', saved.world.file = some f ∧ w.file = some f' ∧ f.size ≤ f'.size ∧
    f'.slice 0 512 = f.slice 0 512 ∧
    f'.slice (slotOffset outerAllocSlot) slotSize = f.slice (slotOffset outerAllocSlot) slotSize
  baseline : ∀ stored, w.baseline m.containerId = some stored → stored ≤ saved.container.store.generation

/-- A slot has the same bytes in both files. -/
def SameSlot (w w' : World) (slot : Nat) : Prop :=
  w'.read (slotOffset slot) slotSize = w.read (slotOffset slot) slotSize

section Copies

variable {H : OuterHeader P} {v : MountedVolume P} {st : SlotStore} {m : VnmContainer} {m' : Mounted}
  {w : World}

/-! ## What `open` makes of a copy -/

theorem Copy.heads (h : Copy m m' w) (hheads : H.Heads m'.world) : H.Heads w := by
  obtain ⟨f, f', hf, hf', hsize, hheader, -⟩ := h.file
  obtain ⟨g, hg, hraw, hroom⟩ := hheads
  cases hf.symm.trans hg
  exact ⟨f', hf', hheader.trans hraw, hroom.trans hsize⟩

/-- The allocation block is the saved one. -/
theorem Copy.savedAt (h : Copy m m' w) (hst : SavedTo H v st m') :
    SavedAt P { store := st, world := v.mounted.world } H.blank w := by
  obtain ⟨f, f', hf, hf', hsize, -, halloc⟩ := h.file
  obtain ⟨s', hsave, hshape, hfile⟩ := hst.block
  refine ⟨s', hsave, hshape, fun g hg => ?_⟩
  obtain ⟨f₁, hf₁, hle, hagree⟩ := hfile g hg
  cases hf.symm.trans hf₁
  refine ⟨f', hf', hle.trans hsize, fun i h₁ h₂ => ?_⟩
  exact (ByteFile.slice_eq_iff.mp halloc i h₁ h₂).trans (hagree i h₁ h₂)

theorem Copy.notOlder (h : Copy m m' w) (hst : SavedTo H v st m')
    (hid : H.payload.containerId = m.containerId) : NotOlder H w st.saved.generation := by
  intro stored hstored
  rw [hid] at hstored
  have hle := h.baseline stored hstored
  rwa [hst.container] at hle

/-- A copy is large enough for the slots in use. -/
theorem Copy.usedRoot (h : Copy m m' w) (hst : SavedTo H v st m') (hv : H.On v) :
    ∃ root, computeMerkleRoot P w st.usedSlots = .ok root := by
  obtain ⟨f, hf, -, hroom⟩ := h.heads (hst.heads hv)
  refine computeMerkleRoot_isOk hf fun slot hslot => OuterHeader.slot_inside ?_ hroom
  have hlimit : st.slotLimit = H.payload.outerSlots.toNat := (hst.shape hv).slotLimit
  exact hlimit ▸ (mem_usedSlots.mp hslot).1.2

/-- Slots in use are untouched: the saved root is theirs. -/
theorem Copy.sameRoot (hst : SavedTo H v st m') (hv : H.On v)
    (hcurrent : RootCurrent P v.mounted.openStore)
    (hsame : ∀ slot ∈ st.usedSlots, SameSlot m'.world w slot) (hne : st.cachedMerkleRoot ≠ zeroRoot) :
    computeMerkleRoot P w st.usedSlots = .ok st.cachedMerkleRoot :=
  computeMerkleRoot_of_reads (fun slot hslot _ hraw => (hsame slot hslot).trans hraw)
    (hst.root hv hcurrent hne)

/-- One of them has other bytes: the copy has another root, or the hash has a collision. -/
theorem Copy.otherRoot (hst : SavedTo H v st m') (hv : H.On v)
    (hcurrent : RootCurrent P v.mounted.openStore) (hne : st.cachedMerkleRoot ≠ zeroRoot)
    {slot : Nat} (hslot : slot ∈ st.usedSlots) (hother : ¬ SameSlot m'.world w slot)
    (hroot : computeMerkleRoot P w st.usedSlots = .ok st.cachedMerkleRoot) :
    Collision P (merkleInputs P m'.world st.usedSlots) (merkleInputs P w st.usedSlots) := by
  have hword : ∀ s ∈ st.usedSlots, s < 2 ^ 64 := fun s hs => by
    have hlimit : st.slotLimit = H.payload.outerSlots.toNat := (hst.shape hv).slotLimit
    have hlt := (mem_usedSlots.mp hs).1.2
    have hmax := H.payload.outerSlots.toNat_lt
    omega
  obtain hreads | hcollision := reads_of_sameRoot hword (hst.root hv hcurrent hne) hroot
  · exact absurd (hreads slot hslot) hother
  · exact hcollision

/-- Slots that read the same hold the same nodes. -/
theorem readNode_of_sameSlot {c c' : VnmContainer} {w w' : World} {slot : Nat}
    (hshape : SameShape c.store c'.store) (hsame : SameSlot w w' slot) :
    readNode P slot { container := c', world := w' } = readNode P slot { container := c, world := w } := by
  have hread : c'.store.read P w' slot = c.store.read P w slot := by
    rw [SlotStore.read, SlotStore.read, hsame]
    exact congrArg _ (funext fun buf => openSlot_congr hshape.masterKey hshape.cipher slot buf)
  exact congrArg (· >>= _) hread

/-- A flush leaves every slot but the allocation slot. -/
theorem SavedTo.sameSlot (h : SavedTo H v st m') (hv : H.On v) {slot : Nat}
    (hslot : MountedVolume.HasSlot v slot) : SameSlot v.mounted.world m'.world slot := by
  obtain ⟨f, f', hf, hf', hsize, hslices⟩ := h.slots hv
  obtain ⟨-, hne, g, hg, hinside⟩ := hslot
  cases hf.symm.trans hg
  rw [hv.allocSlot] at hne
  rw [SameSlot, World.read, World.read, hf, hf']
  simp only [ByteFile.read, hsize, hslices slot hne hinside]

/-- Another slot of a copy is written. -/
theorem Copy.write (h : Copy m m' w) (hheads : H.Heads w) {slot : Nat} {bytes : List UInt8} {w' : World}
    (hlen : bytes.length = slotSize) (hslot : slot < H.payload.outerSlots.toNat) (hne : slot ≠ outerAllocSlot)
    (hfile : ∃ f, w.file = some f ∧ w'.file = some (f.write (slotOffset slot) bytes))
    (hrollback : w'.rollback = w.rollback) : Copy m m' w' ∧
      ∀ t, t ≠ slot → t < H.payload.outerSlots.toNat → SameSlot w w' t := by
  obtain ⟨f, f', hf, hf', hsize, hheader, halloc⟩ := h.file
  obtain ⟨g, hg, hw'⟩ := hfile
  cases hf'.symm.trans hg
  obtain ⟨g, hg, -, hroom⟩ := hheads
  cases hf'.symm.trans hg
  have hkeeps : (f'.write (slotOffset slot) bytes).size = f'.size :=
    ByteFile.size_write_of_le (by rw [hlen]; exact OuterHeader.slot_inside hslot hroom)
  have hothers : ∀ t, t ≠ slot → t < H.payload.outerSlots.toNat →
      (f'.write (slotOffset slot) bytes).slice (slotOffset t) slotSize =
        f'.slice (slotOffset t) slotSize := fun t ht hlt =>
    (agreeOn_slot hlen (OuterHeader.slot_inside hlt hroom) ht).slice_eq
  refine ⟨⟨⟨f, _, hf, hw', hsize.trans hkeeps.ge, ?_, ?_⟩, fun stored hstored => h.baseline stored ?_⟩,
    fun t ht hlt => ?_⟩
  · -- the header lies in front of the slots
    have hfront : 0 + 512 ≤ slotOffset slot :=
      (show 0 + 512 ≤ 1024 by decide).trans (OuterHeader.header_le_slotOffset slot)
    have hsize' : 0 + 512 ≤ f'.size := hfront.trans (le_trans (Nat.le_add_right _ _)
      (OuterHeader.slot_inside hslot hroom))
    rw [(ByteFile.agreeOn_write hsize' (.inl hfront)).slice_eq, hheader]
  · rw [hothers _ hne.symm H.slots, halloc]
  · rwa [World.baseline, hrollback] at hstored
  · rw [SameSlot, World.read, World.read, hf', hw']
    simp only [ByteFile.read, hkeeps, hothers t ht hlt]

end Copies

/-! ## The client's volume -/

section Clients

variable {lay : Layout} {payload : HeaderPayload} {s : Client P} {m : VnmContainer}
  {m' : Mounted} {w : World} {credential : OpenCredential}

/-- A client has flushed its volume. -/
structure Client.Saved (lay : Layout) (payload : HeaderPayload) (m : VnmContainer) (s : Client P)
    (m' : Mounted) : Prop where
  inv : Client.Inv lay m.kMaster payload s
  container : ∀ st, containerOf m.kMaster payload false payload.outerSlots st =
    { m with label := keptLabel m.label, store := st }
  flushed : (flush P).run s.volume.mounted = .ok () m'

namespace Client.Saved

theorem volume (h : Saved lay payload m s m') : ∃ (H : OuterHeader P) (st : SlotStore),
    H.On s.volume ∧ H.key = m.kMaster ∧ H.payload = counted payload s.access ∧
      SavedTo H s.volume st m' ∧ m'.container.store.usedSlots = st.usedSlots := by
  obtain ⟨H, hv, hkey, hpayload⟩ := h.inv.header
  obtain ⟨st, hst⟩ := hv.flushed h.flushed
  refine ⟨H, st, hv, hkey, hpayload, hst, ?_⟩
  rw [hst.container]
  rfl

theorem containerId (h : Saved lay payload m s m') : payload.containerId = m.containerId :=
  congrArg VnmContainer.containerId (h.container m.store)

/-- Every held slot is in use. -/
theorem used (h : Saved lay payload m s m') {slot : Nat} {n : VaultNode} (hslot : s.contents slot = some n) :
    slot ∈ m'.container.store.usedSlots := by
  obtain ⟨H, st, hv, -, -, hst, hused⟩ := h.volume
  obtain ⟨hdata, hnot, -⟩ := h.inv.holds.held slot n hslot
  have hshape := hst.rooted.sameShape.1
  have hnot' : slot ∉ st.free := by
    rw [hst.free_eq]
    exact hnot
  rw [hused, mem_usedSlots, hshape.slotStart, hshape.slotLimit, hshape.allocSlot]
  exact ⟨hdata.range, hdata.ne_alloc, hnot'⟩

/-- The slots in use are untouched. -/
theorem copy_opens (h : Saved lay payload m s m') (hcopy : Copy m m' w)
    (hfinds : Recovers P m.kMaster w credential)
    (hsame : ∀ slot ∈ m'.container.store.usedSlots, SameSlot m'.world w slot) :
    ∃ c, openContainer P w credential = .ok c ∧
      Persisted P m s.contents m'.container.store w c := by
  obtain ⟨H, st, hv, hkey, hpayload, hst, hused⟩ := h.volume
  have hfree := h.inv.holds.freeOk
  have hheads := hcopy.heads (hst.heads hv)
  have hid : H.payload.containerId = m.containerId := by
    rw [hpayload]
    exact h.containerId
  rw [hused] at hsame
  rw [← hkey] at hfinds
  obtain ⟨c, hopen⟩ := (hst.opens_iff hv (hst.inRange hfree) hheads (hcopy.savedAt hst) hfinds
    (hcopy.notOlder hst hid)).mpr (Copy.sameRoot hst hv h.inv.current hsame)
  obtain ⟨store, hc, hre, -⟩ := hst.opened hv (hst.inRange hfree) hheads (hcopy.savedAt hst) hfinds hopen
  refine ⟨c, hopen, ?_, ?_, ?_, fun slot n hslot => ?_⟩
  · rw [hc, hkey, hpayload, Client.containerOf_counted, Client.outerSlots_counted]
    exact h.container store
  · rw [hst.container, hc]
    refine hre.free_eq ?_
    rw [hst.free_eq]
    exact h.inv.holds.sorted
  · rw [hst.container, hc]
    exact hre.generation
  · obtain ⟨hdata, -, hnode⟩ := h.inv.holds.held slot n hslot
    have hslot' := h.used hslot
    rw [hused] at hslot'
    have hsame' : SameSlot s.volume.mounted.world w slot :=
      (hsame slot hslot').trans (hst.sameSlot hv hdata)
    rw [← readNode_of_nodes hnode]
    refine readNode_of_sameSlot (c := s.volume.mounted.container) ?_ hsame'
    rw [hc]
    exact hst.rooted.sameShape.1.trans hre.shape

/-- A slot in use has other bytes. -/
theorem copy_refused (h : Saved lay payload m s m') (hcopy : Copy m m' w)
    (hfinds : Recovers P m.kMaster w credential)
    (hzero : m'.container.store.cachedMerkleRoot ≠ zeroRoot) {slot : Nat}
    (hslot : slot ∈ m'.container.store.usedSlots) (hother : ¬ SameSlot m'.world w slot) :
    openContainer P w credential = .error .merkleIntegrityFailure ∨
      Collision P (merkleInputs P m'.world m'.container.store.usedSlots)
        (merkleInputs P w m'.container.store.usedSlots) := by
  obtain ⟨H, st, hv, hkey, hpayload, hst, hused⟩ := h.volume
  have hheads := hcopy.heads (hst.heads hv)
  have hzero' : st.cachedMerkleRoot ≠ zeroRoot := by
    rw [hst.container] at hzero
    exact hzero
  have hgen : st.hasGeneration = true := hst.rooted.sameShape.1.hasGeneration.trans hv.hasGeneration
  rw [hused] at hslot ⊢
  rw [← hkey] at hfinds
  obtain ⟨root, hroot⟩ := hcopy.usedRoot hst hv
  by_cases heq : root = st.cachedMerkleRoot
  · rw [heq] at hroot
    exact .inr (Copy.otherRoot hst hv h.inv.current hzero' hslot hother hroot)
  · refine .inl (openContainer_eq_error hheads hfinds ?_)
    exact ((hcopy.savedAt hst).adopts hgen (hst.inRange h.inv.holds.freeOk)).refused hgen hzero' hroot heq

/-- The saved file is a copy of itself. -/
theorem self (h : Saved lay payload m s m') : Copy m m' m'.world := by
  obtain ⟨H, st, hv, -, hpayload, hst, -⟩ := h.volume
  obtain ⟨-, f', -, hf', -⟩ := hst.slots hv
  refine ⟨⟨f', f', hf', hf', le_rfl, rfl, rfl⟩, fun stored hstored => ?_⟩
  have hbase := hst.baseline
  rw [hpayload, Client.containerId_counted, h.containerId] at hbase
  rw [hst.container]
  exact (Option.some.inj (hstored.symm.trans hbase)).le

end Client.Saved

end Clients

/-! ## A crash before the next flush -/

section Crash

variable {m : VnmContainer} {m' : Mounted} {v v' v₁ : MountedVolume P} {C C' C₁ : Contents}
  {H : OuterHeader P}

/-- A call leaves the header, the allocation block and every other slot. -/
theorem Copy.call (h : Copy m m' v.mounted.world) (hv : H.On v) (hheld : HoldsNodes v C)
    (hcall : NodeCall (v, C) (v', C')) : Copy m m' v'.mounted.world ∧
      ∃ slot o, C' = Function.update C slot o ∧ SlotChange v v' C slot o ∧ ∀ t, t ≠ slot →
        MountedVolume.HasSlot v t → SameSlot v.mounted.world v'.mounted.world t := by
  obtain ⟨slot, o, hC', hchange, -, bytes, hlen, hwrote⟩ := Client.slotWritten hheld hcall
  have hslot : MountedVolume.HasSlot v slot := hchange.dataSlot
  have hlimit : v.store.slotLimit = H.payload.outerSlots.toNat := hv.shape.slotLimit
  obtain ⟨hcopy, hothers⟩ := h.write hv.heads hlen (hlimit ▸ hslot.range.2)
    (hv.allocSlot ▸ hslot.ne_alloc) hwrote.file hwrote.rollback
  exact ⟨hcopy, slot, o, hC', hchange, fun t hne ht => hothers t hne (hlimit ▸ ht.range.2)⟩

/-- After any run of node calls the file is still a copy. -/
theorem Copy.calls (h : Copy m m' v.mounted.world) (hv : H.On v) (hheld : HoldsNodes v C)
    (hcalls : Relation.ReflTransGen NodeCall (v, C) (v₁, C₁)) :
    Copy m m' v₁.mounted.world ∧ H.On v₁ ∧ HoldsNodes v₁ C₁ := by
  generalize hgen : (v₁, C₁) = t at hcalls
  induction hcalls generalizing v₁ C₁ with
  | refl =>
    cases hgen
    exact ⟨h, hv, hheld⟩
  | @tail t u _ hcall ih =>
    obtain ⟨v₂, C₂⟩ := t
    cases hgen
    obtain ⟨hcopy, hon, hheld'⟩ := ih rfl
    exact ⟨(hcopy.call hon hheld' hcall).1, Client.on_called hon hcall, hheld'.call hcall⟩

/-- A client that only touches slots it has been given since then leaves the others alone. -/
theorem Copy.freshCalls (h : Copy m m' v.mounted.world) (hv : H.On v)
    (hheld : HoldsNodes v fun _ => none)
    (hcalls : Relation.ReflTransGen NodeCall (v, fun _ => none) (v₁, C₁)) {t : Nat}
    (ht : MountedVolume.HasSlot v t) (hused : t ∉ free v) :
    SameSlot v.mounted.world v₁.mounted.world t := by
  -- what is free or held has been free at the start
  suffices hinv : (t ∉ free v₁ ∧ C₁ t = none) ∧ MountedVolume.HasSlot v₁ t ∧
      SameSlot v.mounted.world v₁.mounted.world t from hinv.2.2
  generalize hgen : (v₁, C₁) = u at hcalls
  induction hcalls generalizing v₁ C₁ with
  | refl =>
    cases hgen
    exact ⟨⟨hused, rfl⟩, ht, rfl⟩
  | @tail u u' hrun hcall ih =>
    obtain ⟨v₂, C₂⟩ := u
    cases hgen
    obtain ⟨⟨hfree₂, hC₂⟩, ht₂, hsame⟩ := ih rfl
    obtain ⟨hcopy, hon, hheld₂⟩ := h.calls hv hheld hrun
    obtain ⟨-, slot, o, rfl, hchange, hothers⟩ := hcopy.call hon hheld₂ hcall
    obtain ⟨hne, hfree₁, hC₁⟩ := hchange.untouched hfree₂ hC₂
    exact ⟨⟨hfree₁, hC₁⟩, hchange.same.isDataSlot.mpr ht₂, (hothers t hne ht₂).trans hsame⟩

end Crash

/-! ## Saved by the client of a new container -/

section Created

variable {outerPassword : List UInt8} {totalSizeBytes : UInt64} {cipher : CipherAlgorithm}
  {kdfProfile : String} {label : Option String} {hidden : Option HiddenVolumeOptions}
  {w w' : World} {m : VnmContainer} {b : Blocks} {v : MountedVolume P} {s : Client P} {m' : Mounted}

theorem Created.saved
    (h : Created P outerPassword totalSizeBytes cipher kdfProfile label hidden w m w' b)
    (hinv : Client.Inv b.lay m.kMaster (newPayload b cipher w outerPassword kdfProfile label) s)
    (hflush : (flush P).run s.volume.mounted = .ok () m') :
    Client.Saved b.lay (newPayload b cipher w outerPassword kdfProfile label) m s m' := by
  refine ⟨hinv, fun st => ?_, hflush⟩
  rw [containerOf, h.parts.container]
  rfl

end Created

/-! ## The client that writes notes -/

/-- Other bytes for a slot. -/
def otherBytes (f : ByteFile) (slot : Nat) : List UInt8 :=
  (f.slice (slotOffset slot) slotSize).map (· + 1)

theorem length_otherBytes (f : ByteFile) (slot : Nat) : (otherBytes f slot).length = slotSize :=
  (List.length_map _).trans (ByteFile.length_slice _ _ _)

/-- No byte is its own successor. -/
theorem otherBytes_ne (f : ByteFile) (slot : Nat) : otherBytes f slot ≠ f.slice (slotOffset slot) slotSize := by
  intro h
  have hpos : 0 < (f.slice (slotOffset slot) slotSize).length := by
    rw [ByteFile.length_slice]
    decide
  obtain ⟨x, rest, heq⟩ := List.exists_cons_of_length_pos hpos
  rw [otherBytes, heq] at h
  exact absurd (UInt8.add_eq_left.mp (List.cons.inj h).1) (by decide)

/-- The file with these bytes in the slot. -/
def flipped (w : World) (slot : Nat) : World :=
  { w with file := w.file.map fun f => f.write (slotOffset slot) (otherBytes f slot) }

theorem plain_root_ne_zero {w : World} {slots : List Nat} {root : Key} (hne : slots ≠ [])
    (h : computeMerkleRoot plain w slots = .ok root) : root ≠ zeroRoot := by
  rintro rfl
  obtain ⟨-, hcase⟩ := computeMerkleRoot_ok h
  obtain ⟨x, hx, hzero⟩ := zero_hashed (hcase.resolve_left fun hnil => hne hnil.1)
  obtain ⟨input, -, rfl⟩ := List.mem_map.mp hx
  -- the hash begins with the length of its context
  have hlen : UInt8.ofNat (hashInput input).1.length = 20 := by
    cases input with
    | leaf x => exact (show UInt8.ofNat leafCtx.length = 20 by decide)
    | node left right => exact (show UInt8.ofNat nodeCtx.length = 20 by decide)
  have hfirst : (blake3 plain (hashInput input)).toList[0]? = some 20 := hlen ▸ rfl
  rw [hzero] at hfirst
  revert hfirst
  decide

/-- The root is computed anew when a slot has been written. -/
theorem Client.Saved.root_ne_zero {lay : Layout} {payload : HeaderPayload} {m : VnmContainer}
    {s : Client plain} {m' : Mounted} (h : Saved lay payload m s m')
    (hdirty : s.volume.store.merkleDirty = true) (hne : m'.container.store.usedSlots ≠ []) :
    m'.container.store.cachedMerkleRoot ≠ zeroRoot := by
  obtain ⟨H, st, hv, -, -, hst, hused⟩ := h.volume
  obtain ⟨hclean, -⟩ | ⟨-, root, hroot, hst'⟩ := hst.rooted
  · cases hdirty.symm.trans hclean
  · have hcached : m'.container.store.cachedMerkleRoot = root := by
      rw [hst.container, hst']
      rfl
    rw [hcached]
    refine plain_root_ne_zero (fun hnil => hne ?_) hroot
    rw [hused, hst']
    exact hnil

namespace Noted

variable {m : VnmContainer} {w' : World} {v v' : MountedVolume plain} {s t : Client plain} {slot u : Nat}

theorem created (h : Noted m w' v s slot v') : ∃ b, ∃ hb : Created plain [1] 1000000 .xchacha20Poly1305
    "interactive" (some "vault") none (freePath 7) m w' b, v = hb.volume ∧ ∀ t,
      Relation.ReflTransGen Client.Step (.new v [1]) t → Client.Inv b.lay m.kMaster
        (newPayload b .xchacha20Poly1305 (freePath 7) [1] "interactive" (some "vault")) t := by
  obtain ⟨b, hb⟩ := create_ok h.create
  obtain rfl : v = hb.volume := Subtype.ext h.mounted
  exact ⟨b, hb, rfl, fun t hrun => (hb.clientInv h.id h.only).run hb.sizes rfl hrun⟩

/-- The added password recovers the key, whatever the client does later. -/
theorem recovers_later (h : Noted m w' v s slot v')
    (hrun : Relation.ReflTransGen Client.Step { s with volume := v' } t)
    (haccess : t.access = { passwords := [[1], [2]], keys := [] }) :
    Recovers plain m.kMaster t.volume.mounted.world (.password [2]) := by
  obtain ⟨b, hb, rfl, hinv⟩ := h.created
  have hstep : Client.Step s { s with volume := v' } := .flushed h.flushed
  refine Client.Inv.recovers_plain hb (hinv t ((h.run.tail hstep).trans hrun)) seven_unmarked ?_
  rw [haccess]
  decide

theorem recovers (h : Noted m w' v s slot v') :
    Recovers plain m.kMaster v'.mounted.world (.password [2]) :=
  h.recovers_later .refl h.access

theorem inv (h : Noted m w' v s slot v') : ∃ b, Client.Inv b.lay m.kMaster
    (newPayload b .xchacha20Poly1305 (freePath 7) [1] "interactive" (some "vault"))
      { s with volume := v' } := by
  obtain ⟨b, hb, rfl, hinv⟩ := h.created
  have hstep : Client.Step s { s with volume := v' } := .flushed h.flushed
  exact ⟨b, hinv _ (h.run.tail hstep)⟩

theorem saved (h : Noted m w' v s slot v') : ∃ b, Client.Saved b.lay
    (newPayload b .xchacha20Poly1305 (freePath 7) [1] "interactive" (some "vault")) m s v'.mounted := by
  obtain ⟨b, hb, rfl, hinv⟩ := h.created
  exact ⟨b, hb.saved (hinv s h.run) h.flushed⟩

/-- It can be flushed again. -/
theorem flushes (h : Noted m w' v s slot v') : ∃ u : MountedVolume plain,
    (flush plain).run v'.mounted = .ok () u.mounted ∧ v'.store.generation < u.store.generation := by
  obtain ⟨b, hb, rfl, hinv⟩ := h.created
  have hstep : Client.Step s { s with volume := v' } := .flushed h.flushed
  have hinv' := hinv _ (h.run.tail hstep)
  obtain ⟨hthirty, -⟩ := free_million hb
  obtain ⟨u, hflush⟩ := hinv'.flush_isOk
    (show AllocFits .xchacha20Poly1305 b.lay.outerSlots.toNat by rw [hthirty]; decide)
  obtain ⟨H, hv, -, -⟩ := hinv'.header
  obtain ⟨-, -, hgeneration, -⟩ := flush_generation hflush hv.hasGeneration
  refine ⟨u, hflush, ?_⟩
  rw [show u.store.generation = _ from hgeneration]
  change _ < (v'.store.generation + 1) % 2 ^ 64
  rw [h.generation]
  decide

theorem used (h : Noted m w' v s slot v') : slot ∈ v'.store.usedSlots := by
  obtain ⟨b, hsaved⟩ := h.saved
  exact hsaved.used h.contents

theorem root_ne_zero (h : Noted m w' v s slot v') : v'.store.cachedMerkleRoot ≠ zeroRoot := by
  obtain ⟨b, hsaved⟩ := h.saved
  exact hsaved.root_ne_zero h.dirty (List.ne_nil_of_mem h.used)

/-- Other bytes in a slot: the header, the allocation block and the other slots are the saved ones. -/
theorem copy (h : Noted m w' v s slot v') (hu : IsDataSlot v' u) :
    Copy m v'.mounted (flipped v'.mounted.world u) ∧
      Recovers plain m.kMaster (flipped v'.mounted.world u) (.password [2]) ∧
      (∀ t ∈ v'.store.usedSlots, t ≠ u → SameSlot v'.mounted.world (flipped v'.mounted.world u) t) ∧
      ¬ SameSlot v'.mounted.world (flipped v'.mounted.world u) u := by
  obtain ⟨b, hb, rfl, hinv⟩ := h.created
  have hstep : Client.Step s { s with volume := v' } := .flushed h.flushed
  have hinv' := hinv _ (h.run.tail hstep)
  obtain ⟨H, hon, -, hpayload⟩ := hinv'.header
  obtain ⟨f, hf, hg⟩ := hinv'.granted
  have hslots : H.payload.outerSlots = b.lay.outerSlots := by rw [hpayload]; rfl
  have hlimit : v'.store.slotLimit = H.payload.outerSlots.toNat := hon.shape.slotLimit
  have hlt : u < H.payload.outerSlots.toNat := hlimit ▸ hu.range.2
  have hpart : b.lay.Has (.outerSlot u) := Nat.lt_of_lt_of_eq hlt (congrArg UInt64.toNat hslots)
  have hlen := length_otherBytes f u
  have hfile : (flipped v'.mounted.world u).file = some (f.write (slotOffset u) (otherBytes f u)) := by
    change Option.map _ v'.mounted.world.file = _
    rw [hf]
    rfl
  obtain ⟨hcopy, hothers⟩ := (hb.saved (hinv s h.run) h.flushed).self.write hon.heads hlen hlt
    (hon.allocSlot ▸ hu.ne_alloc) ⟨f, hf, hfile⟩ rfl
  have hgranted := Client.granted_written hg hb.sizes hpart hlen
  have hapart : SetsApart s.access [2] := by rw [h.access]; decide
  have hkey : m.kMaster.toList = List.replicate 32 7 := hb.kMaster ▸ drawn_freePath 7 _ 32
  refine ⟨hcopy, ⟨_, .triple, hfile, hgranted.recoverMaster_plain hb.sizes hfile hkey seven_unmarked hapart⟩,
    fun t ht hne => hothers t hne (hlimit ▸ (mem_usedSlots.mp ht).1.2), fun hsame => ?_⟩
  obtain ⟨g, hg', hinside⟩ := MountedVolume.HasSlot.inside hu
  cases hf.symm.trans hg'
  have hsize : (f.write (slotOffset u) (otherBytes f u)).size = f.size :=
    ByteFile.size_write_of_le (hlen.symm ▸ hinside)
  have hread := World.read_eq hfile (hsize.symm ▸ hinside)
  have hself := ByteFile.slice_write_self (slotOffset u) (otherBytes f u) f
  rw [hlen] at hself
  rw [SameSlot, World.read_eq hf hinside, hread, hself] at hsame
  exact otherBytes_ne f u (Except.ok.inj hsame)

end Noted

/-! ## Runs on a new container -/

section Created

variable {outerPassword : List UInt8} {totalSizeBytes : UInt64} {cipher : CipherAlgorithm}
  {kdfProfile : String} {label : Option String} {hidden : Option HiddenVolumeOptions}
  {w w' : World} {m : VnmContainer} {b : Blocks} {v : MountedVolume P} {s : Client P} {m' : Mounted}

/-- In every run of a client on a container that it has made, its nodes are there and the file
    grants the access list; and what a flush leaves is found by every credential that recovers
    the master key. -/
theorem client_run_persists
    (hcreate : (create P outerPassword totalSizeBytes cipher kdfProfile label hidden).run w = .ok m w')
    (hid : m.containerId ≠ zeroId) (honly : OneHeader P m w')
    (hv : v.mounted = { container := m, world := w' })
    (hrun : Relation.ReflTransGen Client.Step (.new v outerPassword) s) :
    (∀ slot n, s.contents slot = some n → readNode P slot s.volume.mounted = .ok n) ∧
      Grants P m s.access s.volume.mounted.world ∧
      ∀ m', (flush P).run s.volume.mounted = .ok () m' → ∀ credential,
        Recovers P m.kMaster m'.world credential → ∃ c, openContainer P m'.world credential = .ok c ∧
          Persisted P m s.contents m'.container.store m'.world c := by
  obtain ⟨b, h⟩ := create_ok hcreate
  obtain rfl : v = h.volume := Subtype.ext hv
  have hinv := (h.clientInv hid honly).run h.sizes rfl hrun
  refine ⟨fun slot n hslot => readNode_of_nodes (hinv.holds.held slot n hslot).2.2,
    Client.Inv.grants h hinv, fun m' hflush credential hfinds => ?_⟩
  have hsaved := h.saved hinv hflush
  exact hsaved.copy_opens hsaved.self hfinds fun _ _ => rfl

/-- The added password opens what the client has saved, and finds its note. -/
theorem client_run_persists_million : ∃ (m : VnmContainer) (w' : World) (v v' : MountedVolume plain)
    (s : Client plain) (slot : Nat) (c : VnmContainer), Noted m w' v s slot v' ∧
      openContainer plain v'.mounted.world (.password [2]) = .ok c ∧
      readNode plain slot { container := c, world := v'.mounted.world } = .ok (note [1, 2, 3]) := by
  obtain ⟨m, w', v, s, slot, v', h⟩ := noted_million
  obtain ⟨-, -, hafter⟩ := client_run_persists h.create h.id h.only h.mounted h.run
  obtain ⟨c, hopen, hpersisted⟩ := hafter v'.mounted h.flushed (.password [2]) h.recovers
  exact ⟨m, w', v, v', s, slot, c, h, hopen, hpersisted.nodes slot _ h.contents⟩

/-- After such a run and a flush, a copy of the file opens with all that was saved if the slots in
    use are untouched.  If one of them has other bytes it is refused, unless the hash has a
    collision. -/
theorem saved_copy_opens
    (hcreate : (create P outerPassword totalSizeBytes cipher kdfProfile label hidden).run w = .ok m w')
    (hid : m.containerId ≠ zeroId) (honly : OneHeader P m w')
    (hv : v.mounted = { container := m, world := w' })
    (hrun : Relation.ReflTransGen Client.Step (.new v outerPassword) s)
    (hflush : (flush P).run s.volume.mounted = .ok () m') {x : World} (hcopy : Copy m m' x)
    {credential : OpenCredential} (hfinds : Recovers P m.kMaster x credential) :
    ((∀ slot ∈ m'.container.store.usedSlots, SameSlot m'.world x slot) →
      ∃ c, openContainer P x credential = .ok c ∧
        Persisted P m s.contents m'.container.store x c) ∧
    (m'.container.store.cachedMerkleRoot ≠ zeroRoot →
      ∀ slot ∈ m'.container.store.usedSlots, ¬ SameSlot m'.world x slot →
        openContainer P x credential = .error .merkleIntegrityFailure ∨
          Collision P (merkleInputs P m'.world m'.container.store.usedSlots)
            (merkleInputs P x m'.container.store.usedSlots)) := by
  obtain ⟨b, h⟩ := create_ok hcreate
  obtain rfl : v = h.volume := Subtype.ext hv
  have hinv := (h.clientInv hid honly).run h.sizes rfl hrun
  have hsaved := h.saved hinv hflush
  exact ⟨hsaved.copy_opens hcopy hfinds, fun hzero slot hslot hother =>
    hsaved.copy_refused hcopy hfinds hzero hslot hother⟩

/-- A free slot is overwritten, and the copy opens; the slot of the note is, and it does not. -/
theorem saved_copy_opens_million : ∃ (m : VnmContainer) (w' : World) (v v' : MountedVolume plain)
    (s : Client plain) (slot spare : Nat) (c : VnmContainer), Noted m w' v s slot v' ∧
      ¬ SameSlot v'.mounted.world (flipped v'.mounted.world spare) spare ∧
      openContainer plain (flipped v'.mounted.world spare) (.password [2]) = .ok c ∧
      Persisted plain m s.contents v'.store (flipped v'.mounted.world spare) c ∧
      (openContainer plain (flipped v'.mounted.world slot) (.password [2]) =
          .error .merkleIntegrityFailure ∨
        Collision plain (merkleInputs plain v'.mounted.world v'.store.usedSlots)
          (merkleInputs plain (flipped v'.mounted.world slot) v'.store.usedSlots)) := by
  obtain ⟨m, w', v, s, slot, v', h⟩ := noted_million
  obtain ⟨spare, hspare⟩ := List.exists_mem_of_ne_nil _ h.free
  obtain ⟨b, hinv⟩ := h.inv
  obtain ⟨hcopy, hfinds, hsame, hother⟩ := h.copy (hinv.holds.freeOk.dataSlot spare hspare)
  obtain ⟨hopens, -⟩ := saved_copy_opens h.create h.id h.only h.mounted h.run h.flushed hcopy hfinds
  obtain ⟨c, hopen, hpersisted⟩ := hopens fun t ht =>
    hsame t ht fun heq => (mem_usedSlots.mp ht).2.2 (heq ▸ hspare)
  obtain ⟨hcopy', hfinds', -, hother'⟩ := h.copy (hinv.holds.held slot _ h.contents).1
  obtain ⟨-, hrefused⟩ := saved_copy_opens h.create h.id h.only h.mounted h.run h.flushed hcopy' hfinds'
  exact ⟨m, w', v, v', s, slot, spare, c, h, hother, hopen, hpersisted,
    hrefused h.root_ne_zero slot h.used hother'⟩

/-- A client that dies before its next flush.  If since the last one it has touched no slots but
    those it was given since, the file opens with all that was saved.  Whatever calls it made, if
    the bytes of a slot that was in use have changed the file is refused, unless the hash has a
    collision. -/
theorem crash_before_flush
    (hcreate : (create P outerPassword totalSizeBytes cipher kdfProfile label hidden).run w = .ok m w')
    (hid : m.containerId ≠ zeroId) (honly : OneHeader P m w')
    (hv : v.mounted = { container := m, world := w' })
    (hrun : Relation.ReflTransGen Client.Step (.new v outerPassword) s) {v' : MountedVolume P}
    (hflush : (flush P).run s.volume.mounted = .ok () v'.mounted) :
    (∀ v₁ C₁, Relation.ReflTransGen NodeCall (v', fun _ => none) (v₁, C₁) → ∀ credential,
      Recovers P m.kMaster v₁.mounted.world credential →
        ∃ c, openContainer P v₁.mounted.world credential = .ok c ∧
          Persisted P m s.contents v'.store v₁.mounted.world c) ∧
    (v'.store.cachedMerkleRoot ≠ zeroRoot →
      ∀ v₁ C₁, Relation.ReflTransGen NodeCall (v', s.contents) (v₁, C₁) → ∀ credential,
        Recovers P m.kMaster v₁.mounted.world credential → ∀ slot ∈ v'.store.usedSlots,
          ¬ SameSlot v'.mounted.world v₁.mounted.world slot →
            openContainer P v₁.mounted.world credential = .error .merkleIntegrityFailure ∨
              Collision P (merkleInputs P v'.mounted.world v'.store.usedSlots)
                (merkleInputs P v₁.mounted.world v'.store.usedSlots)) := by
  obtain ⟨b, h⟩ := create_ok hcreate
  obtain rfl : v = h.volume := Subtype.ext hv
  have hinv := (h.clientInv hid honly).run h.sizes rfl hrun
  have hsaved := h.saved hinv hflush
  have hstep : Client.Step s { s with volume := v' } := .flushed hflush
  have hinv' := hinv.step h.sizes rfl hstep
  obtain ⟨H, hon, -⟩ := hinv'.header
  have hfresh : HoldsNodes v' fun _ => none :=
    ⟨hinv'.holds.sorted, hinv'.holds.freeOk, fun t n ht => by cases ht⟩
  refine ⟨fun v₁ C₁ hcalls credential hfinds => ?_, fun hzero v₁ C₁ hcalls credential hfinds slot hslot hother => ?_⟩
  · have hcopy := hsaved.self.calls hon hfresh hcalls
    refine hsaved.copy_opens hcopy.1 hfinds fun slot hslot => ?_
    obtain ⟨hrange, hne, hnot⟩ := mem_usedSlots.mp hslot
    refine hsaved.self.freshCalls hon hfresh hcalls ⟨hrange, hne, ?_⟩ hnot
    obtain ⟨f, hf, -, hroom⟩ := hon.heads
    have hlimit : v'.store.slotLimit = H.payload.outerSlots.toNat := hon.shape.slotLimit
    exact ⟨f, hf, OuterHeader.slot_inside (hlimit ▸ hrange.2) hroom⟩
  · have hcopy := hsaved.self.calls hon hinv'.holds hcalls
    exact hsaved.copy_refused hcopy.1 hfinds hzero hslot hother

/-- The client writes another note and dies, and nothing is lost; it changes its first note and
    dies, and the file is refused. -/
theorem crash_before_flush_million : ∃ (m : VnmContainer) (w' : World) (v v' v₁ v₂ : MountedVolume plain)
    (s : Client plain) (slot new : Nat) (c : VnmContainer), Noted m w' v s slot v' ∧
      (NodeStore.writeNode (note [6])).run v' = .ok new v₁ ∧
      openContainer plain v₁.mounted.world (.password [2]) = .ok c ∧
      Persisted plain m s.contents v'.store v₁.mounted.world c ∧
      (NodeStore.updateNode slot (note [7])).run v' = .ok () v₂ ∧
      (openContainer plain v₂.mounted.world (.password [2]) = .error .merkleIntegrityFailure ∨
        Collision plain (merkleInputs plain v'.mounted.world v'.store.usedSlots)
          (merkleInputs plain v₂.mounted.world v'.store.usedSlots)) := by
  obtain ⟨m, w', v, s, slot, v', h⟩ := noted_million
  obtain ⟨b, hinv⟩ := h.inv
  obtain ⟨hopens, hrefused⟩ := crash_before_flush h.create h.id h.only h.mounted h.run h.flushed
  -- a note that is new
  obtain ⟨new, v₁, hwrite⟩ := hinv.write_isOk h.free (show Fits .xchacha20Poly1305 (note [6]) by decide)
  obtain ⟨hstep₁, -⟩ := hinv.wrote hwrite
  obtain ⟨c, hopen, hpersisted⟩ := hopens v₁ _ (.single (.wrote hwrite)) (.password [2])
    (h.recovers_later (.single hstep₁) h.access)
  -- a note that was saved
  obtain ⟨v₂, hupdate⟩ := hinv.update_isOk (show Fits .xchacha20Poly1305 (note [7]) by decide) slot
  have hheld : s.contents slot ≠ none := by
    rw [h.contents]
    exact Option.some_ne_none _
  have hcall := NodeCall.updated hheld hupdate
  have hstep₂ : Client.Step { s with volume := v' } ⟨v₂, _, s.access⟩ := .called hcall
  refine ⟨m, w', v, v', v₁, v₂, s, slot, new, c, h, hwrite, hopen, hpersisted, hupdate,
    hrefused h.root_ne_zero v₂ _ (.single hcall) (.password [2]) (h.recovers_later (.single hstep₂) h.access)
      slot h.used fun hsame => ?_⟩
  -- the slot holds another node than before
  obtain ⟨hdata, -, hnode⟩ := hinv.holds.held slot _ h.contents
  have hnode' := (LawfulNodeStore.updateNode_ok hupdate hdata).2.1
  have hshape := (MountedVolume.Stepped.updateNode slot (note [7]) v').shape
  rw [after_of_ok hupdate] at hshape
  have hread := readNode_of_sameSlot (P := plain) (c := v'.mounted.container) hshape hsame
  have heq : nodes v₂ slot = nodes v' slot := congrArg Except.toOption hread
  rw [hnode, hnode'] at heq
  exact absurd heq (by decide)

end Created

end Venom.Fs
