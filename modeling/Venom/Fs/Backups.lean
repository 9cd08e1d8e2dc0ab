import Venom.Fs.SavedCopies

/-! # Backups of a container

The device keeps the generation that the last flush has written.  A backup of the file that is
put back later is refused when the generation has moved on since, and opens with all that was
saved when it has not, or once the baseline has been reset.
-/

namespace Venom.Fs

open Venom.Container
open Venom.Crypto
open Venom.Storage
open Venom.Storage.SlotStore
open Venom.Library
open Venom.Library.StateError

variable {P : Primitives}

/-! ## What `open` reads of the device -/

section Devices

variable {k : Key} {w w' : World} {credential : OpenCredential} {H : OuterHeader P}

/-- The recipient slots are read from the file. -/
theorem recoverMaster_congr (hfile : w'.file = w.file) (size : Nat) :
    recoverMaster P w' size credential = recoverMaster P w size credential := by
  have hread : w'.read = w.read := funext fun off => funext fun len => World.read_congr hfile off len
  have hraw : read512At w' = read512At w := by
    unfold read512At
    rw [hread]
  have hpw : readPwSlotRaw w' = readPwSlotRaw w := by
    unfold readPwSlotRaw
    rw [hread]
  have hkey : readKeySlotRaw w' = readKeySlotRaw w := by
    unfold readKeySlotRaw
    rw [hread]
  unfold recoverMaster slotCounts tryPwSlots tryKeySlots
  rw [hraw, hpw, hkey]

theorem Recovers.congr (h : Recovers P k w credential) (hfile : w'.file = w.file) :
    Recovers P k w' credential := by
  obtain ⟨f, cipher, hf, hmaster⟩ := h
  exact ⟨f, cipher, hfile.trans hf, (recoverMaster_congr hfile _).trans hmaster⟩

theorem OuterHeader.Heads.congr (h : H.Heads w) (hfile : w'.file = w.file) : H.Heads w' := by
  obtain ⟨f, hf, hraw, hroom⟩ := h
  exact ⟨f, hfile.trans hf, hraw, hroom⟩

/-- A generation behind the baseline is an error. -/
theorem check_rolledBack {containerId : Bytes 16} {gen stored : Nat}
    (hbase : w.baseline containerId = some stored) (hlt : gen < stored) :
    (RollbackState.load w).check containerId gen = .error (.rollbackDetected gen stored) := by
  have hget : (RollbackState.load w).entries.get (Words.hexEncode containerId.toList) = some stored := hbase
  rw [RollbackState.check, hget]
  exact if_pos hlt

theorem openContainer_rolledBack {store : SlotStore} {stored : Nat} (hheads : H.Heads w)
    (hfinds : Recovers P H.key w credential) (hload : H.blank.loadFreeList P w = .ok store)
    (hbase : w.baseline H.payload.containerId = some stored) (hlt : store.generation < stored) :
    openContainer P w credential = .error (.rollbackDetected store.generation stored) := by
  rw [openContainer_of_heads hheads hfinds, openOuter, openVolume]
  refine except_bind_error.mpr (.inr ⟨store, hload, ?_⟩)
  dsimp only
  rw [if_pos (decide_eq_true H.hasId)]
  exact except_bind_error.mpr (.inl (check_rolledBack hbase hlt))

end Devices

/-! ## The baseline of a client -/

section Tracking

variable {total : UInt64} {hidden : Option UInt64} {lay : Layout} {k : Key} {payload : HeaderPayload}
  {s s' : Client P}

/-- The device knows the generation of the volume. -/
def Client.Tracked (containerId : Bytes 16) (s : Client P) : Prop :=
  s.volume.mounted.world.baseline containerId = some s.volume.store.generation

namespace Client

theorem Tracked.step (ht : Tracked payload.containerId s) (h : Inv lay k payload s)
    (hs : Sizes total hidden lay) (hstep : Step s s') : Tracked payload.containerId s' := by
  obtain ⟨⟨H, hv, -, hpayload⟩, ⟨f, hf, hg⟩, hkMaster, hcipher, hholds, -⟩ := h
  have hid : H.payload.containerId = payload.containerId := by rw [hpayload, containerId_counted]
  cases hstep with
  | called hcall =>
    obtain ⟨slot, o, -, -, ⟨st, hcontainer, -, hgeneration⟩, bytes, -, hwrote⟩ := slotWritten hholds hcall
    rw [Tracked, World.baseline, hwrote.rollback, MountedVolume.store, hcontainer]
    exact ht.trans (congrArg some hgeneration.symm)
  | recipient call hrun =>
    obtain ⟨parts, ws, hre⟩ := RecipientCall.run_ok hg hs hf hkMaster hcipher.symm hrun
    rw [Tracked, World.baseline, hre.issued.rollback, MountedVolume.store, hre.container]
    exact ht
  | flushed hrun =>
    obtain ⟨st, hst⟩ := hv.flushed hrun
    rw [Tracked, ← hid, hst.baseline, MountedVolume.store, hst.container]
  | remounted hre =>
    obtain ⟨st, m', store, hst, hreloaded, -, -, hv'⟩ := hre.loaded hv hholds.freeOk
    rw [Tracked, MountedVolume.store, hv', ← hid]
    exact hst.baseline.trans (congrArg some hreloaded.generation.symm)

theorem Tracked.run (ht : Tracked payload.containerId s) (h : Inv lay k payload s)
    (hs : Sizes total hidden lay) (hslots : payload.outerSlots = lay.outerSlots)
    (hrun : Relation.ReflTransGen Step s s') : Tracked payload.containerId s' := by
  induction hrun with
  | refl => exact ht
  | tail hbefore hstep ih => exact ih.step (h.run hs hslots hbefore) hs hstep

end Client

end Tracking

/-! ## A backup that is put back -/

section Backups

variable {lay : Layout} {payload : HeaderPayload} {s : Client P} {m : VnmContainer}
  {m' : Mounted} {w : World} {credential : OpenCredential}

namespace Client.Saved

theorem backup_opens (h : Saved lay payload m s m') (hfile : w.file = m'.world.file)
    (hfinds : Recovers P m.kMaster m'.world credential)
    (hbase : ∀ stored, w.baseline m.containerId = some stored → stored ≤ m'.container.store.generation) :
    ∃ c, openContainer P w credential = .ok c ∧
      Persisted P m s.contents m'.container.store w c := by
  obtain ⟨f, f', hf, hf', hsame⟩ := h.self.file
  have hcopy : Copy m m' w := ⟨⟨f, f', hf, hfile.trans hf', hsame⟩, hbase⟩
  exact h.copy_opens hcopy (hfinds.congr hfile) fun slot _ => World.read_congr hfile _ _

theorem backup_refused (h : Saved lay payload m s m') (hfile : w.file = m'.world.file)
    (hfinds : Recovers P m.kMaster m'.world credential) {stored : Nat}
    (hbase : w.baseline m.containerId = some stored)
    (hlt : m'.container.store.generation < stored) : openContainer P w credential =
      .error (.rollbackDetected m'.container.store.generation stored) := by
  obtain ⟨H, st, hv, hkey, hpayload, hst, -⟩ := h.volume
  have hgen : st.hasGeneration = true := hst.rooted.sameShape.1.hasGeneration.trans hv.hasGeneration
  have hrange := hst.inRange h.inv.holds.freeOk
  -- what was saved is loaded, since its root is current
  obtain ⟨store, hload⟩ := ((hst.block.adopts hgen hrange).loads_iff hgen).mpr (hst.root hv h.inv.current)
  obtain ⟨hre, -⟩ := (hst.block.adopts hgen hrange).reloaded hgen hload
  have hgeneration : store.generation = m'.container.store.generation := by
    rw [hst.container]
    exact hre.generation
  have hload' : H.blank.loadFreeList P w = .ok store :=
    (loadFreeList_congr fun slot => World.read_congr hfile _ _).trans hload
  have hbase' : w.baseline H.payload.containerId = some stored := by
    rw [hpayload, containerId_counted, h.containerId]
    exact hbase
  rw [← hkey] at hfinds
  rw [← hgeneration] at hlt ⊢
  exact openContainer_rolledBack ((hst.heads hv).congr hfile) (hfinds.congr hfile) hload' hbase' hlt

end Client.Saved

/-- A reset removes the baseline of the container. -/
theorem resetRollbackState_run {n : Mounted} (hid : n.container.containerId ≠ zeroId) : ∃ y,
    resetRollbackState.run n = .ok () { n with world := y } ∧
      y.baseline n.container.containerId = none := by
  refine ⟨{ n.world with
      rollback := ((RollbackState.load n.world).removed n.container.containerId).entries }, ?_, ?_⟩
  · change (if n.container.containerId = zeroId then pure () else onFile _ : MountedM Unit).run n = _
    rw [if_neg hid]
    exact onFile_run rfl
  · exact (RollbackState.baseline_removed (.load n.world) _ _).trans (if_pos rfl)

end Backups

/-! ## Runs on a new container -/

section Created

variable {outerPassword : List UInt8} {totalSizeBytes : UInt64} {cipher : CipherAlgorithm}
  {kdfProfile : String} {label : Option String} {hidden : Option HiddenVolumeOptions}
  {w w' : World} {m : VnmContainer} {b : Blocks} {v v' : MountedVolume P} {s t : Client P} {x : World}
  {credential : OpenCredential}

/-- A backup that a client has made after a flush, and that is put back after it has done more.  It
    is refused if the generation has moved on since.  It opens with all that was saved if not, or
    once the client has reset the baseline. -/
theorem restored_backup
    (hcreate : (create P outerPassword totalSizeBytes cipher kdfProfile label hidden).run w = .ok m w')
    (hid : m.containerId ≠ zeroId) (honly : OneHeader P m w')
    (hv : v.mounted = { container := m, world := w' })
    (hrun : Relation.ReflTransGen Client.Step (.new v outerPassword) s)
    (hflush : (flush P).run s.volume.mounted = .ok () v'.mounted)
    (hlater : Relation.ReflTransGen Client.Step { s with volume := v' } t)
    (hfile : x.file = v'.mounted.world.file) (hrollback : x.rollback = t.volume.mounted.world.rollback)
    (hfinds : Recovers P m.kMaster v'.mounted.world credential) :
    (v'.store.generation < t.volume.store.generation → openContainer P x credential =
        .error (.rollbackDetected v'.store.generation t.volume.store.generation)) ∧
      (t.volume.store.generation ≤ v'.store.generation → ∃ c, openContainer P x credential = .ok c ∧
        Persisted P m s.contents v'.store x c) ∧
      ∃ n, resetRollbackState.run t.volume.mounted = .ok () n ∧
        ∃ c, openContainer P { x with rollback := n.world.rollback } credential = .ok c ∧
          Persisted P m s.contents v'.store { x with rollback := n.world.rollback } c := by
  obtain ⟨b, h⟩ := create_ok hcreate
  obtain rfl : v = h.volume := Subtype.ext hv
  have hnew := h.clientInv hid honly
  have hinv := hnew.run h.sizes rfl hrun
  have hsaved := h.saved hinv hflush
  have hstep : Client.Step s { s with volume := v' } := .flushed hflush
  have hrun' := (hrun.tail hstep).trans hlater
  have hinv' := hnew.run h.sizes rfl hrun'
  -- the device has known the generation from the start
  have htracked : x.baseline m.containerId = some t.volume.store.generation := by
    have hstart : Client.Tracked (newPayload b cipher w outerPassword kdfProfile label).containerId
        (.new h.volume outerPassword) := by
      change w'.baseline (drawnContainerId w b.lay) = some m.store.generation
      rw [h.baseline, if_pos rfl, h.generation]
    rw [World.baseline, hrollback, h.containerId_eq]
    exact hstart.run hnew h.sizes rfl hrun'
  refine ⟨hsaved.backup_refused hfile hfinds htracked, fun hle => ?_, ?_⟩
  · refine hsaved.backup_opens hfile hfinds fun stored hstored => ?_
    cases hstored.symm.trans htracked
    exact hle
  · obtain ⟨H, hon, -, hpayload⟩ := hinv'.header
    have hid' : t.volume.mounted.container.containerId = m.containerId := by
      rw [hon.containerId, hpayload, Client.containerId_counted]
      exact hsaved.containerId
    obtain ⟨y, hreset, hnone⟩ := resetRollbackState_run (n := t.volume.mounted) (by rwa [hid'])
    rw [hid'] at hnone
    refine ⟨_, hreset, hsaved.backup_opens hfile hfinds fun stored hstored => ?_⟩
    cases hstored.symm.trans hnone

/-- A backup of a container with a note is refused after another flush, and opens after a reset. -/
theorem restored_backup_million : ∃ (m : VnmContainer) (w' : World) (v v' u : MountedVolume plain)
    (s : Client plain) (slot : Nat) (n : Mounted) (c : VnmContainer), Noted m w' v s slot v' ∧
      (flush plain).run v'.mounted = .ok () u.mounted ∧
      openContainer plain { u.mounted.world with file := v'.mounted.world.file } (.password [2]) =
        .error (.rollbackDetected v'.store.generation u.store.generation) ∧
      resetRollbackState.run u.mounted = .ok () n ∧
      openContainer plain
        { u.mounted.world with file := v'.mounted.world.file, rollback := n.world.rollback }
        (.password [2]) = .ok c ∧
      readNode plain slot
        { container := c
          world := { u.mounted.world with file := v'.mounted.world.file, rollback := n.world.rollback } } =
        .ok (note [1, 2, 3]) := by
  obtain ⟨m, w', v, s, slot, v', h⟩ := noted_million
  obtain ⟨u, hagain, hlt⟩ := h.flushes
  have hstep : Client.Step { s with volume := v' } { s with volume := u } := .flushed hagain
  obtain ⟨hrefused, -, n, hreset, c, hopen, hpersisted⟩ := restored_backup h.create h.id h.only h.mounted
    h.run h.flushed (.single hstep) (x := { u.mounted.world with file := v'.mounted.world.file }) rfl rfl
    h.recovers
  exact ⟨m, w', v, v', u, s, slot, n, c, h, hagain, hrefused hlt, hreset, hopen,
    hpersisted.nodes slot _ h.contents⟩

end Created

end Venom.Fs
