import Venom.Fuse.WriteBack

/-! # One file behind the driver

The operations of the driver on one file, from the side of the file: `Open` is a driver
state with a handle on it, `Closed` one where the file lies on the disk only.  Each
operation takes one to the other, and accounts for the slots it moved.
-/

namespace Venom.Fuse

open Venom.Storage
open Venom.Library
open Venom.Library.StateError
open Venom.Library.OptionLists

variable {σ : Type}

/-! ## Computations behind the driver -/

theorem withHandle_ok {α : Type} {fh : Nat} {f : OpenFile} {x : HandleM σ α} {s s' : VenomFuse σ}
    {a : α} : (withHandle fh f x).run s = .ok a s' ↔
      ∃ h', x.run ⟨s.container, f⟩ = .ok a h' ∧
        s' = { s with container := h'.container, openFiles := s.openFiles.insert fh h'.file } := by
  change withHandle fh f x s = _ ↔ _
  unfold withHandle
  cases x.run ⟨s.container, f⟩ with
  | ok b h => simp [eq_comm]
  | error e h => simp

theorem withHandle_error {α : Type} {fh : Nat} {f : OpenFile} {x : HandleM σ α}
    {s s' : VenomFuse σ} {e : Failure} : (withHandle fh f x).run s = .error e s' ↔
      ∃ h', x.run ⟨s.container, f⟩ = .error e h' ∧
        s' = { s with container := h'.container, openFiles := s.openFiles.insert fh h'.file } := by
  change withHandle fh f x s = _ ↔ _
  unfold withHandle
  cases x.run ⟨s.container, f⟩ with
  | ok b h => simp
  | error e h => simp [eq_comm]

variable [NodeStore σ]

omit [NodeStore σ] in
theorem withHandle_after {α : Type} (fh : Nat) (f : OpenFile) (x : HandleM σ α)
    (s : VenomFuse σ) : after (withHandle fh f x) s =
      { s with
        container := (after x ⟨s.container, f⟩).container
        openFiles := s.openFiles.insert fh (after x ⟨s.container, f⟩).file } := by
  rcases run_cases x ⟨s.container, f⟩ with ⟨a, hx⟩ | ⟨e, hx⟩
  · rw [after_of_ok (withHandle_ok.mpr ⟨_, hx, rfl⟩)]
  · rw [after_of_error (withHandle_error.mpr ⟨_, hx, rfl⟩)]

omit [NodeStore σ] in
theorem withHandle_valueOf {α : Type} (fh : Nat) (f : OpenFile) (x : HandleM σ α)
    (s : VenomFuse σ) : valueOf (withHandle fh f x) s = valueOf x ⟨s.container, f⟩ := by
  rcases run_cases x ⟨s.container, f⟩ with ⟨a, hx⟩ | ⟨e, hx⟩
  · rw [valueOf_of_ok (withHandle_ok.mpr ⟨_, hx, rfl⟩), valueOf_of_ok hx]
  · rw [valueOf_of_error (withHandle_error.mpr ⟨_, hx, rfl⟩), valueOf_of_error hx]

omit [NodeStore σ] in
theorem liftStore_ok {α : Type} {x : StoreM σ α} {s s' : VenomFuse σ} {a : α} :
    (liftStore x).run s = .ok a s' ↔
      ∃ c, x.run s.container = .ok a c ∧ s' = { s with container := c } := by
  change liftStore x s = _ ↔ _
  unfold liftStore
  cases x.run s.container with
  | ok b c => simp [eq_comm]
  | error e c => simp

omit [NodeStore σ] in
theorem discard_ok {α : Type} {x : FuseM σ α} {s s' : VenomFuse σ} {u : Unit} :
    (discard x).run s = .ok u s' ↔ ∃ a, x.run s = .ok a s' := by
  change (x >>= fun _ => pure ()).run s = _ ↔ _
  rw [run_bind_ok]
  simp

omit [NodeStore σ] in
theorem discard_error {α : Type} {x : FuseM σ α} {s s' : VenomFuse σ} {e : Failure} :
    (discard x).run s = .error e s' ↔ x.run s = .error e s' := by
  change (x >>= fun _ => pure ()).run s = _ ↔ _
  rw [run_bind_error]
  simp

omit [NodeStore σ] in
theorem after_discard {α : Type} (x : FuseM σ α) (s : VenomFuse σ) : after (discard x) s = after x s := by
  cases hrun : x.run s with
  | ok a s' => rw [after_of_ok hrun, after_of_ok (discard_ok (u := ()).mpr ⟨a, hrun⟩)]
  | error e s' => rw [after_of_error hrun, after_of_error (discard_error.mpr hrun)]

omit [NodeStore σ] in
theorem slotOfIno_ok {ino slot : Nat} {s s' : VenomFuse σ} :
    (slotOfIno ino).run s = .ok slot s' ↔ s.inodes.slotOf ino = some slot ∧ s' = s := by
  unfold slotOfIno
  rw [run_bind_of_ok run_get]
  cases s.inodes.slotOf ino with
  | some t => simp [eq_comm]
  | none => simp

omit [NodeStore σ] in
theorem insertHandle_ok {fh : Nat} {f : OpenFile} {s s' : VenomFuse σ} {u : Unit} :
    (insertHandle fh f).run s = .ok u s' ↔
      s' = { s with openFiles := s.openFiles.insert fh f } := by
  unfold insertHandle
  rw [run_modify]
  simp [eq_comm]

/-! ## Calls on an open handle -/

section Handles

variable {s : VenomFuse σ} {fh : Nat} {f : OpenFile}

theorem opRead_run (h : s.openFiles.get fh = some f) (ord : IterOrder Nat) (offset size : Nat) :
    (opRead ord fh offset size).run s = (withHandle fh f (readHandle ord offset size)).run s := by
  unfold opRead
  rw [run_bind_of_ok run_get, h]

theorem opWrite_run (h : s.openFiles.get fh = some f) (ord : IterOrder Nat) (offset : Nat)
    (data : List UInt8) :
    (opWrite ord fh offset data).run s = (withHandle fh f (writeHandle ord offset data)).run s := by
  unfold opWrite
  rw [run_bind_of_ok run_get, h]

theorem opFlush_run (h : s.openFiles.get fh = some f) (ord : IterOrder Nat) :
    (opFlush ord fh).run s = (withHandle fh f (flushHandle ord)).run s := by
  unfold opFlush
  rw [run_bind_of_ok run_get, h]

theorem opSetattrSize_handle {ord : IterOrder Nat} {ino newSize : Nat} {hint : Option Nat}
    (h : s.openFiles.get fh = some f) (hfind : findHandle ord ino hint s.openFiles = some fh) :
    (opSetattrSize ord ino hint newSize).run s =
      (withHandle fh f (modifyFile (resizeFile newSize))).run s := by
  unfold opSetattrSize
  rw [run_bind_of_ok run_get, hfind]
  dsimp only
  rw [h]

theorem opSetattrSize_run (h : s.openFiles.get fh = some f) (ord : IterOrder Nat)
    (ino newSize : Nat) : (opSetattrSize ord ino (some fh) newSize).run s =
      (withHandle fh f (modifyFile (resizeFile newSize))).run s :=
  opSetattrSize_handle h rfl

end Handles

/-! ## The state of one file -/

variable [NodeView σ] [LawfulNodeStore σ]

/-- The file `f` is open at `fh`, and `A` is known of its content. -/
structure Open (A : Content) (s : VenomFuse σ) (fh : Nat) (f : OpenFile) (fb : FileBlock)
    (ids chain : List Nat) : Prop where
  entry : s.openFiles.get fh = some f
  inode : s.inodes.slotOf f.ino = some f.headSlot
  ok : OpenOk A (chunkLimit f.totalSize) ⟨s.container, f⟩ fb ids chain

/-- The file of inode `ino` is on the disk, and `A` is known of its content. -/
structure Closed (A : Content) (s : VenomFuse σ) (ino head : Nat) (fb : FileBlock)
    (ids chain : List Nat) : Prop where
  inode : s.inodes.slotOf ino = some head
  ok : OpenOk A (chunkLimit fb.totalSize) ⟨s.container, reopened ino head fb ids⟩ fb ids chain

/-! ## Operations through the handle -/

variable {A A' : Content} {s s' : VenomFuse σ} {fh : Nat} {f : OpenFile} {fb : FileBlock}
  {ids chain : List Nat} {ord : IterOrder Nat}

omit [NodeStore σ] [LawfulNodeStore σ] in
/-- The state after a handle's computation has the handle it ended with. -/
theorem Open.afterHandle {h' : Handle σ} {fb' : FileBlock} {ids' chain' : List Nat}
    (ho : Open A s fh f fb ids chain) (hino : h'.file.ino = f.ino)
    (hhead : h'.file.headSlot = f.headSlot)
    (hok : OpenOk A' (chunkLimit h'.file.totalSize) h' fb' ids' chain') :
    Open A' { s with container := h'.container, openFiles := s.openFiles.insert fh h'.file }
      fh h'.file fb' ids' chain' := by
  refine ⟨by simp, ?_, hok⟩
  rw [hino, hhead]
  exact ho.inode

theorem opRead_ok {offset size : Nat} {r : List UInt8} (ho : Open A s fh f fb ids chain)
    (hrun : (opRead ord fh offset size).run s = .ok r s') :
    ∃ f', Open A s' fh f' fb ids chain ∧ s'.container = s.container ∧ Recached f f' ∧
      ReadShows A (min (offset + size) f.totalSize) offset r := by
  rw [opRead_run ho.entry] at hrun
  obtain ⟨h', hread, rfl⟩ := withHandle_ok.mp hrun
  obtain ⟨hc, hr, hok, hshows⟩ := readHandle_ok ho.ok le_rfl hread
  exact ⟨h'.file, ho.afterHandle hr.ino hr.headSlot (by rw [hr.totalSize]; exact hok), hc, hr,
    hshows⟩

/-- A write, for content that may change from piece to piece. -/
theorem opWrite_ok {A : Nat → Content} {offset n : Nat} {data : List UInt8}
    (ho : Open (A offset) s fh f fb ids chain)
    (hover : ∀ q k, offset ≤ q → q + k ≤ offset + data.length →
      Overwrites (A q) (A (q + k)) q ((data.drop (q - offset)).take k))
    (hrun : (opWrite ord fh offset data).run s = .ok n s') :
    ∃ f', Open (A (offset + data.length)) s' fh f' fb ids chain ∧
      Moves s.container s'.container (ownedSlots f chain) (ownedSlots f' chain) ∧
      f'.ino = f.ino ∧ (f.metaDirty = true → f'.metaDirty = true) ∧
      f'.totalSize = (if data = [] then f.totalSize else max (offset + data.length) f.totalSize) ∧
      ∀ i, Occupied f' i ↔ Occupied f i ∨
        ∃ p, offset ≤ p ∧ p < offset + data.length ∧ i = p / chunkSize := by
  rw [opWrite_run ho.entry] at hrun
  obtain ⟨h', hwrite, rfl⟩ := withHandle_ok.mp hrun
  obtain ⟨hok, hmoves, hino, hhead, hmeta, htotal, hocc⟩ := writeHandle_ok ho.ok hover hwrite
  exact ⟨h'.file, ho.afterHandle hino hhead hok, hmoves, hino, hmeta, htotal, hocc⟩

/-- What resizing leaves unchanged in a handle. -/
structure Resized (newSize : Nat) (f f' : OpenFile) : Prop where
  ino : f'.ino = f.ino
  headSlot : f'.headSlot = f.headSlot
  slotMap : f'.slotMap = f.slotMap
  totalSize : f'.totalSize = newSize

theorem resizeFile_resized (newSize : Nat) (f : OpenFile) :
    Resized newSize f (resizeFile newSize f) := by
  unfold resizeFile
  split
  next e => exact ⟨rfl, rfl, rfl, e.symm⟩
  next => dsimp only; split <;> exact ⟨rfl, rfl, rfl, rfl⟩

theorem Resized.ownedSlots {newSize : Nat} {f f' : OpenFile} (h : Resized newSize f f')
    (chain : List Nat) : ownedSlots f' chain = Venom.Fuse.ownedSlots f chain := by
  unfold Venom.Fuse.ownedSlots
  rw [h.slotMap, h.headSlot]

omit [LawfulNodeStore σ] in
theorem opSetattrSize_ok {newSize : Nat} {ino : Nat} (ho : Open A s fh f fb ids chain)
    (hsame : newSize = f.totalSize → ∀ p b, A p b → A' p b)
    (hgrow : f.totalSize < newSize → ∀ p b, A p b → A' p b)
    (hcut : newSize < f.totalSize → Truncates A A' newSize (cutsLast newSize f))
    (hrun : (opSetattrSize ord ino (some fh) newSize).run s = .ok () s') :
    Open A' s' fh (resizeFile newSize f) fb ids chain ∧ s'.container = s.container := by
  rw [opSetattrSize_run ho.entry] at hrun
  obtain ⟨h', hmod, rfl⟩ := withHandle_ok.mp hrun
  rw [modifyFile_ok] at hmod
  subst hmod
  have hr := resizeFile_resized newSize f
  have hok : OpenOk A' (chunkLimit (resizeFile newSize f).totalSize)
      ⟨s.container, resizeFile newSize f⟩ fb ids chain := by
    rw [hr.totalSize]
    unfold resizeFile
    split
    next e => exact ⟨ho.ok.handle, ho.ok.backed.mono (hsame e) (by rw [e])⟩
    next hne =>
      dsimp only
      split
      next hlt => exact truncateFile_ok ho.ok (hcut hlt)
      next hge =>
        have hgrown := growFile_ok ho.ok (show f.totalSize ≤ newSize by omega)
        exact ⟨hgrown.handle, hgrown.backed.mono (hgrow (by omega)) le_rfl⟩
  exact ⟨ho.afterHandle hr.ino hr.headSlot hok, rfl⟩

theorem opFlush_ok (ho : Open A s fh f fb ids chain) (hA : ∀ p, f.totalSize ≤ p → A p none)
    (hrun : (opFlush ord fh).run s = .ok () s') :
    ∃ f' fb' ids' chain', Open A s' fh f' fb' ids' chain' ∧ Clean f' ∧ FlushKeeps f f' ∧
      Moves s.container s'.container (ownedSlots f chain) (ownedSlots f' chain') ∧
      (∀ i, 1 ≤ i → i < chunkLimit f.totalSize →
        (f'.slotMap[i]?.join ≠ none ↔ Occupied f i)) ∧
      (f.metaDirty = true → fb'.data = inlineData f fb) := by
  rw [opFlush_run ho.entry] at hrun
  obtain ⟨h', hflush, rfl⟩ := withHandle_ok.mp hrun
  obtain ⟨fb', ids', chain', hok, hclean, hkeeps, hmoves, hocc, hinline⟩ :=
    flush_ok ho.ok hA hflush
  exact ⟨h'.file, fb', ids', chain', ho.afterHandle hkeeps.ino hkeeps.headSlot
    (by rw [hkeeps.totalSize]; exact hok), hclean, hkeeps, hmoves, hocc, hinline⟩

/-! ## Closing and opening -/

omit [NodeView σ] [LawfulNodeStore σ] in
/-- A release is a flush that forgets the handle. -/
theorem opRelease_ok (hrun : (opRelease ord fh).run s = .ok () s') :
    ∃ s₁, (opFlush ord fh).run s = .ok () s₁ ∧
      s' = { s₁ with openFiles := s₁.openFiles.remove fh } := by
  obtain ⟨_, s₁, hflush, hmod⟩ := run_bind_ok.mp hrun
  cases hmod
  exact ⟨s₁, hflush, rfl⟩

omit [NodeStore σ] [LawfulNodeStore σ] in
/-- What a flushed handle leaves on the disk, where the slots keep their positions. -/
theorem Open.closed (ho : Open A s fh f fb ids chain) (hclean : Clean f)
    (hmap : ∀ i, 1 ≤ i →
      (reopened f.ino f.headSlot fb ids).slotMap[i]?.join = f.slotMap[i]?.join ∨
        ∀ off b, off < chunkSize → A (i * chunkSize + off) b) :
    Closed A s f.ino f.headSlot fb ids chain :=
  ⟨ho.inode, ho.ok.handle.reopen hclean, ho.ok.backed.reopen ho.ok.handle hclean hmap⟩

omit [NodeStore σ] [LawfulNodeStore σ] in
/-- Other handles do not matter to a closed file. -/
theorem Closed.withHandles {ino head : Nat} (hc : Closed A s ino head fb ids chain)
    (openFiles : HashMap Nat OpenFile) :
    Closed A { s with openFiles } ino head fb ids chain := ⟨hc.inode, hc.ok⟩

theorem buildSlotMap_ok {c c' : σ} {head : Nat} {r : Nat × Option Nat × List (Option Nat)}
    (hhead : nodes c head = some (.file fb)) (hindex : IndexChain (nodes c) fb.indexChain ids chain)
    (hdata : ∀ t ∈ head :: chain, IsDataSlot c t) (hrun : (buildSlotMap head).run c = .ok r c') :
    r = (fb.totalSize, fb.indexChain, none :: (fb.dataSlots ++ ids).map some) ∧ c' = c := by
  obtain ⟨n, c₁, hread, hcont⟩ := run_bind_ok.mp hrun
  obtain ⟨rfl, hn⟩ := readNode_inv hread
  obtain rfl : n = _ := Option.some.inj ((hn (hdata head List.mem_cons_self)).symm.trans hhead)
  obtain ⟨_, _, hget, hrest⟩ := run_bind_ok.mp hcont
  cases hget
  obtain ⟨ids', c₂, hcol, hret⟩ := run_bind_ok.mp hrest
  obtain ⟨rfl, rfl⟩ := collectIndex_ok hindex (fun s hs => hdata s (List.mem_cons_of_mem _ hs)) hcol
  cases hret
  exact ⟨rfl, rfl⟩

theorem opOpen_ok {ino head : Nat} (hc : Closed A s ino head fb ids chain)
    (hrun : (opOpen ino).run s = .ok fh s') :
    Open A s' fh (reopened ino head fb ids) fb ids chain ∧ s'.container = s.container ∧
      s'.inodes = s.inodes := by
  obtain ⟨slot, s₁, hslot, hcont⟩ := run_bind_ok.mp hrun
  obtain ⟨hslot', rfl⟩ := slotOfIno_ok.mp hslot
  obtain rfl : head = slot := Option.some.inj (hc.inode.symm.trans hslot')
  obtain ⟨r, s₂, hbuild, hcont₂⟩ := run_bind_ok.mp hcont
  obtain ⟨c₂, hbuild', rfl⟩ := liftStore_ok.mp hbuild
  have hhandle := hc.ok.handle
  obtain ⟨rfl, rfl⟩ := buildSlotMap_ok hhandle.head hhandle.index
    (fun t ht => hhandle.accounts.isDataSlot (List.mem_append_right _ ht)) hbuild'
  obtain ⟨n, s₃, hread, hcont₃⟩ := run_bind_ok.mp hcont₂
  obtain ⟨c₃, hread', rfl⟩ := liftStore_ok.mp hread
  obtain ⟨rfl, hn⟩ := readNode_inv hread'
  have hd : IsDataSlot s₁.container head :=
    hc.ok.handle.accounts.isDataSlot (by simp [ownedSlots, reopened, openedFile])
  obtain rfl : n = _ := Option.some.inj ((hn hd).symm.trans hc.ok.handle.head)
  obtain ⟨fh', s₄, halloc, hcont₄⟩ := run_bind_ok.mp hcont₃
  obtain ⟨_, s₅, hins, hret⟩ := run_bind_ok.mp hcont₄
  rw [insertHandle_ok] at hins
  cases halloc
  subst hins
  cases hret
  exact ⟨⟨by simp [reopened], hc.inode, hc.ok⟩, rfl, rfl⟩

/-! ## Creating a file -/

/-- Slots and inodes map to each other, and the next inode is new. -/
structure InodeMap.Ok (m : InodeMap) : Prop where
  mapped : ∀ slot ino, m.slotToIno.get slot = some ino → m.inoToSlot.get ino = some slot
  fresh : ∀ ino slot, m.inoToSlot.get ino = some slot → ino < m.nextIno

/-- The driver's state is sound: the free list is, and no slot with an inode is free. -/
structure DriverOk (s : VenomFuse σ) : Prop where
  freeOk : FreeOk s.container
  inodes : s.inodes.Ok
  used : ∀ ino slot, s.inodes.slotOf ino = some slot →
    IsDataSlot s.container slot ∧ slot ∉ free s.container

theorem InodeMap.new_ok (root : Nat) : (InodeMap.new root).Ok where
  mapped slot ino h := by
    simp only [InodeMap.new, HashMap.get_insert] at h ⊢
    split at h
    next e => cases h; simp [e]
    next => simp at h
  fresh ino slot h := by
    simp only [InodeMap.new, HashMap.get_insert] at h ⊢
    split at h
    next e => rw [e]; decide
    next => simp at h

omit [NodeStore σ] [LawfulNodeStore σ] in
/-- A freshly mounted volume. -/
theorem VenomFuse.new_ok {c : σ} {root : Nat} (hfree : FreeOk c) (hroot : IsDataSlot c root)
    (hused : root ∉ free c) : DriverOk (VenomFuse.new root c) where
  freeOk := hfree
  inodes := InodeMap.new_ok root
  used ino slot h := by
    simp only [VenomFuse.new, InodeMap.new, InodeMap.slotOf, HashMap.get_insert] at h
    split at h
    next => cases h; exact ⟨hroot, hused⟩
    next => simp at h

theorem VenomFuse.fresh_ok (cipher : Container.CipherAlgorithm) {slotCount : Nat}
    (h : 0 < slotCount) : DriverOk (VenomFuse.new 0 (Volume.fresh cipher slotCount)) :=
  VenomFuse.new_ok (Volume.fresh_freeOk cipher slotCount) h fun hm => by
    have := List.mem_range'_1.mp (List.mem_reverse.mp hm)
    omega

/-- A small volume, freshly mounted. -/
def mounted : VenomFuse Volume := VenomFuse.new 0 (Volume.fresh .xchacha20Poly1305 8)

theorem mounted_ok : DriverOk mounted := VenomFuse.fresh_ok _ (by decide)

theorem getOrAlloc_slotOf {m : InodeMap} (hm : m.Ok) (slot : Nat) :
    (m.getOrAlloc slot).2.slotOf (m.getOrAlloc slot).1 = some slot := by
  unfold InodeMap.getOrAlloc
  split
  next ino h => exact hm.mapped slot ino h
  next => simp [InodeMap.slotOf]

theorem readDirBlock_ok {s s' : VenomFuse σ} {slot : Nat} {d : DirectoryBlock}
    (hrun : (readDirBlock slot).run s = .ok d s') :
    s' = s ∧ (IsDataSlot s.container slot → nodes s.container slot = some (.directory d)) := by
  obtain ⟨n, s₁, hread, hcont⟩ := run_bind_ok.mp hrun
  obtain ⟨c, hread', rfl⟩ := liftStore_ok.mp hread
  obtain ⟨rfl, hn⟩ := readNode_inv hread'
  cases n with
  | directory d' => cases hcont; exact ⟨rfl, hn⟩
  | file => cases hcont
  | fileData => cases hcont
  | fileIndex => cases hcont

/-- Adding an entry rewrites one directory. -/
theorem dirAddEntry_ok {s s' : VenomFuse σ} {parent : Nat} {entry : DirEntry}
    (hp : IsDataSlot s.container parent)
    (hrun : (dirAddEntry parent entry).run s = .ok () s') :
    ∃ c d, s' = { s with container := c } ∧ free c = free s.container ∧
      nodes s.container parent = some (.directory d) ∧
      nodes c parent = some (.directory { d with entries := d.entries ++ [entry] }) ∧
      NodesAgreeExcept parent s.container c ∧ SameVolume s.container c := by
  obtain ⟨d, s₁, hread, hcont⟩ := run_bind_ok.mp hrun
  obtain ⟨rfl, hd⟩ := readDirBlock_ok hread
  split at hcont
  next => cases hcont
  next =>
    obtain ⟨c, hupd, rfl⟩ := liftStore_ok.mp hcont
    obtain ⟨-, hnode, hfree, hothers, hsame⟩ :=
      LawfulNodeStore.updateNode_ok (updateNode_store hupd) hp
    exact ⟨c, d, rfl, hfree, hd hp, hnode, hothers, hsame⟩

omit [NodeView σ] [LawfulNodeStore σ] in
theorem linkOrFree_ok {s s' : VenomFuse σ} {parent slot : Nat} {entry : DirEntry}
    (hrun : (linkOrFree parent slot entry).run s = .ok () s') :
    (dirAddEntry parent entry).run s = .ok () s' := by
  change linkOrFree parent slot entry s = _ at hrun
  unfold linkOrFree at hrun
  split at hrun
  next h => cases hrun; exact h
  next => cases hrun

omit [NodeStore σ] [NodeView σ] [LawfulNodeStore σ] in
theorem inoOfSlot_ok {s s' : VenomFuse σ} {slot ino : Nat}
    (hrun : (inoOfSlot slot).run s = .ok ino s') :
    s' = { s with inodes := (s.inodes.getOrAlloc slot).2 } ∧
      ino = (s.inodes.getOrAlloc slot).1 := by
  cases hrun
  exact ⟨rfl, rfl⟩

/-- A new node linked into a directory: its slot leaves the free list. -/
theorem writeAndLink_ok {s s₁ s₂ : VenomFuse σ} {parent slot : Nat} {n : VaultNode}
    {entry : DirEntry} (hs : DriverOk s) (hparent : IsDataSlot s.container parent)
    (hnode : ∀ d, n = .directory d → parent ∉ free s.container)
    (hwrite : (liftStore (writeNode n)).run s = .ok slot s₁)
    (hlink : (linkOrFree parent slot entry).run s₁ = .ok () s₂) :
    s₂ = { s with container := s₂.container } ∧ nodes s₂.container slot = some n ∧
      Moves s.container s₁.container [] [slot] ∧ Accounts s₂.container [slot] ∧
      SameVolume s.container s₂.container ∧ free s.container = free s₂.container ++ [slot] := by
  obtain ⟨c₁, hwrite', rfl⟩ := liftStore_ok.mp hwrite
  have ha : Accounts s.container [] := ⟨by simpa using hs.freeOk.nodup, by simpa using hs.freeOk.dataSlot⟩
  obtain ⟨hstored, hmoves, hfree⟩ := writeNode_inv hwrite' ha
  obtain ⟨c₂, d, rfl, hfree₂, hd, -, hothers, hsame₂⟩ :=
    dirAddEntry_ok (hmoves.same.isDataSlot.mpr hparent) (linkOrFree_ok hlink)
  have hne : slot ≠ parent := by
    rintro rfl
    rw [hstored.node] at hd
    refine hnode d (Option.some.inj hd) ?_
    rw [hfree]; simp
  have ha₁ := hmoves.accounts ha
  refine ⟨rfl, ?_, hmoves, ⟨?_, ?_⟩, hmoves.same.trans hsame₂, ?_⟩
  · rw [hothers slot (ha₁.isDataSlot (by simp)) hne, hstored.node]
  · rw [hfree₂]; exact ha₁.nodup
  · intro t ht
    rw [hfree₂] at ht
    exact hsame₂.isDataSlot.mpr (ha₁.dataSlot t ht)
  · rw [hfree₂]; exact hfree

/-- A new file is empty, and all its slots are its head. -/
theorem opCreate_ok {A : Content} {s s' : VenomFuse σ} {parent ino fh : Nat} {name : String}
    (hs : DriverOk s) (hA : ∀ p, A p none)
    (hrun : (opCreate parent name).run s = .ok (ino, fh) s') :
    ∃ head, Open A s' fh (newFile ino head)
      { kind := .file, totalSize := 0, dataSlots := [], indexChain := none, data := [] } [] [] := by
  obtain ⟨pSlot, s₀, hslot, hcont⟩ := run_bind_ok.mp hrun
  obtain ⟨hp, rfl⟩ := slotOfIno_ok.mp hslot
  obtain ⟨head, s₁, hwrite, hcont₁⟩ := run_bind_ok.mp hcont
  obtain ⟨_, s₂, hlink, hcont₂⟩ := run_bind_ok.mp hcont₁
  obtain ⟨hs₂, hnode, -, ha, -, -⟩ := writeAndLink_ok hs (hs.used _ _ hp).1
    (fun _ h => by cases h) hwrite hlink
  obtain ⟨ino', s₃, hino, hcont₃⟩ := run_bind_ok.mp hcont₂
  obtain ⟨rfl, rfl⟩ := inoOfSlot_ok hino
  obtain ⟨fh', s₄, halloc, hcont₄⟩ := run_bind_ok.mp hcont₃
  obtain ⟨_, s₅, hins, hret⟩ := run_bind_ok.mp hcont₄
  rw [insertHandle_ok] at hins
  cases halloc
  subst hins
  cases hret
  have hinodes : s₂.inodes = s₀.inodes := by rw [hs₂]
  refine ⟨head, ⟨by simp, ?_, ⟨hnode, rfl, .nil, rfl, ?_, ?_, fun _ => ⟨rfl, rfl⟩,
    fun _ => le_max_right _ _⟩, ?_⟩⟩
  · exact getOrAlloc_slotOf (hinodes ▸ hs.inodes) head
  · simpa [ownedSlots, newFile] using ha
  · intro t ht; simp [newFile] at ht
  · have hshows : ∀ i, Shows A i [] := fun i => ⟨by simp, fun off _ => hA _⟩
    refine ⟨fun hd => ?_, fun hd => ?_, fun _ => hshows 0, fun {i t d} ht => ?_,
      fun _ _ _ => hshows _, fun {i t d} ht => ?_⟩
    · simp [newFile] at hd
    · simp [newFile] at hd
    · cases i <;> simp [newFile] at ht
    · cases i <;> simp [newFile] at ht

end Venom.Fuse
