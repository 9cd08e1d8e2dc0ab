import Venom.Fuse.Backing
import Venom.Fuse.Totality

/-! # One file among the others

The calls on one file, from the side of the whole file system: each changes the content of
its file as the byte array of `FileOp` changes, and leaves what backs the others.
-/

namespace Venom.Fuse

open Venom.Storage
open Venom.Library
open Venom.Library.NameTree
open Venom.Library.StateError
open Venom.Library.OptionLists

variable {σ : Type} [NodeStore σ]

/-! ## What a call leaves of the driver -/

omit [NodeStore σ] in
/-- A handle's computation leaves everything else of the driver. -/
theorem withHandle_state {α : Type} {fh : Nat} {f f' : OpenFile} {x : HandleM σ α}
    {s s' : VenomFuse σ} {a : α} (hrun : (withHandle fh f x).run s = .ok a s')
    (hf' : s'.openFiles.get fh = some f') :
    s' = { s with container := s'.container, openFiles := s.openFiles.insert fh f' } := by
  obtain ⟨h', -, rfl⟩ := withHandle_ok.mp hrun
  rw [HashMap.get_insert, if_pos rfl] at hf'
  cases hf'
  rfl

theorem runOp_state {ord : IterOrder Nat} {ino fh fh' : Nat} {op : FileOp} {f f' : OpenFile}
    {s s' : VenomFuse σ} (hf : s.openFiles.get fh = some f) (hop : op ≠ .reopen)
    (hrun : (runOp ord ino fh op).run s = .ok fh' s') (hf' : s'.openFiles.get fh' = some f') :
    fh' = fh ∧
      s' = { s with container := s'.container, openFiles := s.openFiles.insert fh f' } := by
  cases op with
  | write offset data =>
    obtain ⟨_, s₁, hcall, hret⟩ := run_bind_ok.mp hrun
    cases hret
    rw [opWrite_run hf] at hcall
    exact ⟨rfl, withHandle_state hcall hf'⟩
  | read offset size =>
    obtain ⟨_, s₁, hcall, hret⟩ := run_bind_ok.mp hrun
    cases hret
    rw [opRead_run hf] at hcall
    exact ⟨rfl, withHandle_state hcall hf'⟩
  | truncate newSize =>
    obtain ⟨_, s₁, hcall, hret⟩ := run_bind_ok.mp hrun
    cases hret
    rw [opSetattrSize_run hf] at hcall
    exact ⟨rfl, withHandle_state hcall hf'⟩
  | flush =>
    obtain ⟨_, s₁, hcall, hret⟩ := run_bind_ok.mp hrun
    cases hret
    rw [opFlush_run hf] at hcall
    exact ⟨rfl, withHandle_state hcall hf'⟩
  | reopen => exact absurd rfl hop

/-- An open registers a handle, and nothing else. -/
theorem opOpen_state {ino fh : Nat} {s s' : VenomFuse σ} {f : OpenFile}
    (hrun : (opOpen ino).run s = .ok fh s') (hf : s'.openFiles.get fh = some f)
    (hc : s'.container = s.container) :
    fh = s.nextFh ∧ s' = { s with openFiles := s.openFiles.insert fh f,
                                  nextFh := max ((s.nextFh + 1) % 2 ^ 64) 1 } := by
  obtain ⟨slot, s₁, hslot, hcont⟩ := run_bind_ok.mp hrun
  obtain ⟨-, rfl⟩ := slotOfIno_ok.mp hslot
  obtain ⟨r, s₂, hbuild, hcont₂⟩ := run_bind_ok.mp hcont
  obtain ⟨c₂, -, rfl⟩ := liftStore_ok.mp hbuild
  obtain ⟨n, s₃, hread, hcont₃⟩ := run_bind_ok.mp hcont₂
  obtain ⟨c₃, -, rfl⟩ := liftStore_ok.mp hread
  split at hcont₃
  next fb =>
    obtain ⟨fh', s₄, halloc, hcont₄⟩ := run_bind_ok.mp hcont₃
    obtain ⟨_, s₅, hins, hret⟩ := run_bind_ok.mp hcont₄
    rw [insertHandle_ok] at hins
    cases halloc
    subst hins
    cases hret
    dsimp only at hc hf
    rw [HashMap.get_insert, if_pos rfl] at hf
    cases hf
    subst hc
    exact ⟨rfl, rfl⟩
  next => cases hcont₃

/-! ## What the head lists -/

variable [NodeView σ] [LawfulNodeStore σ]

/-- A write-through gives slots to chunks and takes none away. -/
theorem writeThroughFlush_kept {A : Content} {lim n : Nat} {h h' : Handle σ} {fb : FileBlock}
    {ids chain : List Nat} {ord : IterOrder Nat} (hok : OpenOk A lim h fb ids chain)
    (hrun : (writeThroughFlush ord n).run h = .ok () h') {i x : Nat}
    (hx : h.file.slotMap[i]? = some (some x)) : h'.file.slotMap[i]? = some (some x) := by
  obtain ⟨_, _, hget, hloop⟩ := run_bind_ok.mp hrun
  cases hget
  let all := (((ord.order h.file.dirty.elems).filter (1 ≤ ·)).mergeSort (· ≤ ·)).take n
  have hpos : ∀ ci ∈ all, 1 ≤ ci := fun ci hci => by
    have hmem := List.mem_of_mem_take hci
    rw [List.mem_mergeSort, List.mem_filter] at hmem
    exact of_decide_eq_true hmem.2
  let inv (_ : List Nat) (h₁ : Handle σ) : Prop :=
    OpenOk A lim h₁ fb ids chain ∧ h₁.file.slotMap[i]? = some (some x)
  have hall : inv all h' := by
    refine forM_ok_induction inv hloop ⟨hok, hx⟩ ?_
    rintro done ci rest h₁ h₂ hl ⟨hok₁, hx₁⟩ hstep
    have hci : 1 ≤ ci := hpos ci (by rw [show all = _ from hl]; simp)
    refine ⟨(writeThroughChunk_ok hok₁ hci hstep).1, ?_⟩
    obtain ⟨_, _, hget₁, hcont⟩ := run_bind_ok.mp hstep
    cases hget₁
    split at hcont
    next =>
      obtain ⟨_, h₃, hstore, hmod⟩ := run_bind_ok.mp hcont
      rw [modifyFile_ok] at hmod
      subst hmod
      exact (storeChunk_ok hstore hok₁.handle.accounts).1.kept i x hx₁
    next =>
      cases hcont
      exact hx₁
  exact hall.2

theorem writeHandle_kept {A : Content} {h h' : Handle σ} {fb : FileBlock} {ids chain : List Nat}
    {ord : IterOrder Nat} {offset n : Nat} {data : List UInt8}
    (hok : OpenOk A (chunkLimit h.file.totalSize) h fb ids chain)
    (hrun : (writeHandle ord offset data).run h = .ok n h') {i x : Nat}
    (hx : h.file.slotMap[i]? = some (some x)) : h'.file.slotMap[i]? = some (some x) := by
  obtain ⟨_, h₁, hloop, hcont⟩ := run_bind_ok.mp hrun
  obtain ⟨_, _, hget, hrest⟩ := run_bind_ok.mp hcont
  cases hget
  -- nothing need be known of the bytes here
  let total := max (offset + data.length) h.file.totalSize
  have hok₀ : OpenOk Anything (chunkLimit total) h fb ids chain :=
    ⟨hok.handle, hok.backed.mono (fun _ _ _ => trivial) (chunkLimit_mono (le_max_right _ _))⟩
  obtain ⟨-, hok₁, hw, -⟩ := writeLoop_ok (A := fun _ => Anything) hok₀ le_rfl (by omega)
    (fun p _ hp => div_lt_chunkLimit (lt_of_lt_of_le hp (le_max_left _ _)))
    (fun _ _ _ _ => ⟨fun _ _ => trivial, fun _ _ _ _ => trivial, fun _ _ _ => trivial⟩) hloop
  obtain ⟨k, hk⟩ := hw.slotMap
  have hx₁ : h₁.file.slotMap[i]? = some (some x) := by
    rw [hk, getElem?_append_replicate_none]
    exact hx
  dsimp only at hrest
  split at hrest
  next =>
    obtain ⟨_, h₂, hflush, hret⟩ := run_bind_ok.mp hrest
    cases hret
    exact writeThroughFlush_kept hok₁ hflush hx₁
  next =>
    cases hrest
    exact hx₁

/-- The disk never lists a slot of a file that its handle has given up. -/
theorem runOp_lists {A A' : Content} {ino fh fh' : Nat} {op : FileOp} {f f' : OpenFile}
    {fb fb' : FileBlock} {ids chain ids' chain' : List Nat} {s s' : VenomFuse σ} {ord : IterOrder Nat}
    (ho : Open A s fh f fb ids chain) (hend : ∀ p, f.totalSize ≤ p → A p none)
    (hlists : Lists f fb ids) (hop : op ≠ .reopen) (hrun : (runOp ord ino fh op).run s = .ok fh' s')
    (ho' : Open A' s' fh' f' fb' ids' chain') : Lists f' fb' ids' := by
  -- every operation but a flush leaves the head and the chain as they are
  have hkept : ∀ {B : Content} {lim : Nat}, OpenOk B lim ⟨s'.container, f'⟩ fb ids chain →
      (∀ x ∈ f.slotMap.reduceOption, x ∈ f'.slotMap.reduceOption) → Lists f' fb' ids' := by
    intro B lim hok hmap
    obtain ⟨rfl, rfl⟩ := hok.unique ho'.ok
    have hnodup : f.slotMap.reduceOption.Nodup :=
      (List.nodup_append.mp ho.ok.handle.accounts.nodup_own).1
    exact hlists.trans (hnodup.subperm hmap)
  cases op with
  | write offset data =>
    obtain ⟨_, s₁, hcall, hret⟩ := run_bind_ok.mp hrun
    cases hret
    have hany : ∀ q k, offset ≤ q → q + k ≤ offset + data.length →
        Overwrites Anything Anything q ((data.drop (q - offset)).take k) := fun _ _ _ _ =>
      ⟨fun _ _ => trivial, fun _ _ _ _ => trivial, fun _ _ _ => trivial⟩
    have hopen : Open Anything s fh f fb ids chain :=
      ⟨ho.entry, ho.inode, ho.ok.handle, ho.ok.backed.mono (fun _ _ _ => trivial) le_rfl⟩
    obtain ⟨f₁, ho₁, -⟩ := opWrite_ok (A := fun _ => Anything) hopen hany hcall
    cases ho'.entry.symm.trans ho₁.entry
    refine hkept ho₁.ok fun x hx => ?_
    obtain ⟨i, hi⟩ := exists_getElem? hx
    rw [opWrite_run ho.entry] at hcall
    obtain ⟨h₁, hwrite, rfl⟩ := withHandle_ok.mp hcall
    have hentry := ho'.entry
    rw [HashMap.get_insert, if_pos rfl] at hentry
    cases hentry
    exact mem_of_getElem? (writeHandle_kept ho.ok hwrite hi)
  | read offset size =>
    obtain ⟨_, s₁, hcall, hret⟩ := run_bind_ok.mp hrun
    cases hret
    obtain ⟨f₁, ho₁, -, hr, -⟩ := opRead_ok ho hcall
    cases ho'.entry.symm.trans ho₁.entry
    refine hkept ho₁.ok fun x hx => ?_
    rwa [hr.slotMap]
  | truncate newSize =>
    obtain ⟨_, s₁, hcall, hret⟩ := run_bind_ok.mp hrun
    cases hret
    have hopen : Open Anything s fh f fb ids chain :=
      ⟨ho.entry, ho.inode, ho.ok.handle, ho.ok.backed.mono (fun _ _ _ => trivial) le_rfl⟩
    have hcut : newSize < f.totalSize →
        Truncates Anything Anything newSize (cutsLast newSize f) := fun _ =>
      ⟨fun _ _ _ _ _ => trivial, fun _ _ _ => trivial, fun _ _ _ => trivial⟩
    obtain ⟨ho₁, -⟩ := opSetattrSize_ok hopen (fun _ _ _ _ => trivial) (fun _ _ _ _ => trivial) hcut
      hcall
    cases ho'.entry.symm.trans ho₁.entry
    refine hkept ho₁.ok fun x hx => ?_
    rwa [(resizeFile_resized newSize f).slotMap]
  | flush =>
    obtain ⟨_, s₁, hcall, hret⟩ := run_bind_ok.mp hrun
    cases hret
    obtain ⟨f₁, _, _, _, ho₁, hclean, -⟩ := opFlush_ok ho hend hcall
    cases ho'.entry.symm.trans ho₁.entry
    exact ho'.ok.lists hclean.metaDirty
  | reopen => exact absurd rfl hop

/-! ## Steps -/

variable {root : Nat} {s s' : VenomFuse σ} {bytes : Nat → List UInt8}
  {own : Nat → List Nat} {fh fh' : Nat} {f : OpenFile} {ord : IterOrder Nat}

/-- The file with its head in `t` has the content `b` now; the directories, the inodes and the
    other files are as before. -/
structure FileStep (root : Nat) (s s' : VenomFuse σ) (bytes : Nat → List UInt8) (own : Nat → List Nat)
    (t : Nat) (b : List UInt8) : Prop where
  refiled : Refiled root s.container s'.container
  inodes : s'.inodes = s.inodes
  backs : ∃ slots, Backs root s' (Function.update bytes t b) (Function.update own t slots) ∧
    Moves s.container s'.container (own t) slots

omit [LawfulNodeStore σ] in
/-- What a call made of the one handle it worked on, and of its file. -/
theorem Backs.handleStep (h : Backs root s bytes own) (hf : s.openFiles.get fh = some f)
    {f' : OpenFile} {fb' : FileBlock} {ids' chain' : List Nat} {b : List UInt8}
    (hs' : s' = { s with container := s'.container, openFiles := s.openFiles.insert fh f' })
    (hino : f'.ino = f.ino) (hhead : f'.headSlot = f.headSlot)
    (hcarries : Carries s'.container f' fb' ids' chain' b (ownedSlots f' chain'))
    (hmoves : Moves s.container s'.container (own f.headSlot) (ownedSlots f' chain')) :
    FileStep root s s' bytes own f.headSlot b ∧
      ∀ k, (s'.openFiles.get k).map (·.headSlot) = (s.openFiles.get k).map (·.headSlot) := by
  obtain ⟨hin, ⟨fb, hfb⟩, hslot⟩ := h.handles fh f hf
  have hget : ∀ k, s'.openFiles.get k = if k = fh then some f' else s.openFiles.get k := fun k => by
    rw [hs', HashMap.get_insert]
  have hinodes : s'.inodes = s.inodes := by rw [hs']
  have hothers : ∀ k g, g.headSlot ≠ f.headSlot →
      (s'.openFiles.get k = some g ↔ s.openFiles.get k = some g) := fun k g hne => by
    rw [hget]
    split
    next hk =>
      rw [hk, hf, Option.some.injEq, Option.some.injEq]
      constructor
      · exact fun heq => absurd (heq ▸ hhead) hne
      · exact fun heq => absurd (heq ▸ rfl) hne
    next => rfl
  -- the file has this one handle
  have honly : ∀ k g, s'.openFiles.get k = some g → g.headSlot = f.headSlot → k = fh ∧ g = f' := by
    intro k g hg hgh
    rw [hget] at hg
    split at hg
    next hk => exact ⟨hk, (Option.some.inj hg).symm⟩
    next hk => exact absurd (h.single _ _ _ _ hg hf hgh) hk
  have hentry : s'.openFiles.get fh = some f' := by rw [hget, if_pos rfl]
  obtain ⟨hrefiled, hbacks⟩ := h.refiled hin hfb hmoves (.opened hentry hhead hcarries) hinodes
    (by rw [hs']) hothers fun k g hg hgh => by
      obtain ⟨rfl, rfl⟩ := honly k g hg hgh
      exact ⟨hino ▸ hslot, by rw [hs']; exact h.nextFh k f hf, fun k' g' hg' hgh' =>
        (honly k' g' hg' hgh').1⟩
  refine ⟨⟨hrefiled, hinodes, _, hbacks, hmoves⟩, fun k => ?_⟩
  rw [hget]
  split
  next hk => rw [hk, hf, Option.map_some, Option.map_some, hhead]
  next => rfl

/-- An operation through a handle. -/
theorem Backs.runOp {op : FileOp} (h : Backs root s bytes own) (hf : s.openFiles.get fh = some f)
    (hop : op ≠ .reopen) (hgap : op.GapFree (bytes f.headSlot).length)
    (hrun : (runOp ord f.ino fh op).run s = .ok fh' s') :
    FileStep root s s' bytes own f.headSlot (op.apply (bytes f.headSlot)) ∧
      ∀ k, (s'.openFiles.get k).map (·.headSlot) = (s.openFiles.get k).map (·.headSlot) := by
  obtain ⟨fb, ids, chain, ho, hsize, hslots, hlists⟩ := h.opened hf
  obtain ⟨f', fb', ids', chain', ho', hino', hsize', hmoves⟩ :=
    runOp_flat ho hsize (hsize ▸ hgap) hrun
  obtain ⟨rfl, hs'⟩ := runOp_state hf hop hrun ho'.entry
  have hhead : f'.headSlot = f.headSlot := by
    have hslot := ho'.inode
    rw [hs', hino', (h.handles fh' f hf).2.2] at hslot
    exact (Option.some.inj hslot).symm
  have hlists' : Lists f' fb' ids' :=
    runOp_lists ho (fun p hp hlt => absurd hlt (by omega)) hlists hop hrun ho'
  exact h.handleStep hf hs' hino' hhead ⟨ho'.ok, hsize', rfl, hlists'⟩ (hslots ▸ hmoves)

/-- A read gives the bytes of its file. -/
theorem Backs.read {offset size : Nat} {r : List UInt8} (h : Backs root s bytes own)
    (hf : s.openFiles.get fh = some f) (hrun : (opRead ord fh offset size).run s = .ok r s') :
    r = ((bytes f.headSlot).drop offset).take size := by
  obtain ⟨fb, ids, chain, ho, hsize, -, -⟩ := h.opened hf
  obtain ⟨f', -, -, -, hshows⟩ := opRead_ok ho hrun
  rw [hsize] at hshows
  exact hshows.flat

omit [NodeStore σ] [LawfulNodeStore σ] in
/-- Every position of a file without gaps lies in a chunk of the slot map. -/
theorem OpenOk.covered {h : Handle σ} {b : List UInt8} {lim : Nat} {fb : FileBlock} {ids chain : List Nat}
    (hok : OpenOk (Flat b) lim h fb ids chain) {pos : Nat} (hp : pos < b.length) :
    pos / chunkSize < h.file.slotMap.length := by
  by_contra hge
  have hnone : h.file.slotMap[pos / chunkSize]? = none := List.getElem?_eq_none (Nat.le_of_not_lt hge)
  by_cases h0 : pos / chunkSize = 0
  · rw [h0, hok.handle.mapHead] at hnone
    cases hnone
  · have hnot : ¬ Pending h.file (pos / chunkSize) := fun ⟨_, hcached⟩ => by
      obtain ⟨d, hd⟩ := Option.ne_none_iff_exists'.mp hcached
      exact hge (hok.backed.cachedLt hd).1
    -- a chunk that is nowhere would have no bytes
    have hgap := hok.backed.gap (Nat.pos_of_ne_zero h0) (by rw [hnone]; rfl) hnot
    have hbyte := hgap.2 (pos % chunkSize) (Nat.mod_lt _ chunkSize_pos)
    rw [chunk_split] at hbyte
    have hlt := hbyte hp
    rw [List.getElem?_nil, List.getElem?_eq_getElem hp] at hlt
    cases hlt

theorem readLoop_run {h : Handle σ} {b acc : List UInt8} {lim stop pos : Nat} {fb : FileBlock}
    {ids chain : List Nat} (hok : OpenOk (Flat b) lim h fb ids chain) (hstop : stop ≤ b.length)
    (hlim : ∀ p, p < stop → p / chunkSize < lim) :
    ∃ r h', (readLoop ord stop pos acc).run h = .ok r h' := by
  induction hn : stop - pos using Nat.strongRecOn generalizing pos acc h with
  | _ n ih =>
    rw [readLoop]
    split
    next hlt =>
      obtain ⟨h₁, hens⟩ := ensureCached_run ord hok.handle (hok.covered (hlt.trans_le hstop))
      obtain ⟨-, -, -, ⟨d, hd⟩, hok₁⟩ := ensureCached_ok hok (hlim pos hlt) hens
      rw [run_bind_of_ok hens, run_bind_of_ok run_get, hd]
      dsimp only
      split
      next => exact ⟨acc, h₁, rfl⟩
      next hpos => exact ih _ (by omega) hok₁ rfl
    next => exact ⟨acc, h, rfl⟩

/-- A read through an open handle does not fail. -/
theorem Backs.read_run (h : Backs root s bytes own) (hf : s.openFiles.get fh = some f)
    (offset size : Nat) : ∃ r s', (opRead ord fh offset size).run s = .ok r s' := by
  obtain ⟨fb, ids, chain, ho, hsize, -, -⟩ := h.opened hf
  have hhandle : ∃ r h', (readHandle ord offset size).run ⟨s.container, f⟩ = .ok r h' := by
    unfold readHandle
    rw [run_bind_of_ok run_get]
    dsimp only
    split
    next => exact ⟨[], _, rfl⟩
    next =>
      refine readLoop_run ho.ok (hsize ▸ min_le_right _ _) fun p hp => div_lt_chunkLimit ?_
      exact hp.trans_le (min_le_right _ _)
  obtain ⟨r, h', hrun⟩ := hhandle
  rw [opRead_run hf]
  exact ⟨r, _, withHandle_ok.mpr ⟨h', hrun, rfl⟩⟩

/-- A release that succeeds closes the file. -/
theorem Backs.release (h : Backs root s bytes own) (hf : s.openFiles.get fh = some f)
    (hrun : (opRelease ord fh).run s = .ok () s') :
    FileStep root s s' bytes own f.headSlot (bytes f.headSlot) ∧
      ∀ k, s'.openFiles.get k = if k = fh then none else s.openFiles.get k := by
  obtain ⟨hin, ⟨fb, hfb⟩, hino⟩ := h.handles fh f hf
  obtain ⟨fb₀, ids, chain, ho, hsize, hslots, -⟩ := h.opened hf
  obtain ⟨fb', ids', chain', hclosed, htotal, hmoves⟩ := opRelease_flat ho hsize hrun
  obtain ⟨s₁, hflush, rfl⟩ := opRelease_ok hrun
  rw [opFlush_run hf] at hflush
  obtain ⟨h', -, rfl⟩ := withHandle_ok.mp hflush
  have hget : ∀ k, ((s.openFiles.insert fh h'.file).remove fh).get k =
      if k = fh then none else s.openFiles.get k := fun k => by
    rw [HashMap.get_remove, HashMap.get_insert]
    split <;> rfl
  have hgone : ∀ k g, ((s.openFiles.insert fh h'.file).remove fh).get k = some g →
      g.headSlot ≠ f.headSlot := fun k g hg hgh => by
    rw [hget] at hg
    split at hg
    next => cases hg
    next hk => exact hk (h.single _ _ _ _ hg hf hgh)
  have hothers : ∀ k g, g.headSlot ≠ f.headSlot →
      (((s.openFiles.insert fh h'.file).remove fh).get k = some g ↔ s.openFiles.get k = some g) :=
    fun k g hne => by
      rw [hget]
      split
      next hk =>
        rw [hk, hf, Option.some.injEq]
        exact ⟨fun hnone => (by cases hnone), fun heq => absurd (heq ▸ rfl) hne⟩
      next => rfl
  obtain ⟨hrefiled, hbacks⟩ := @Backs.refiled _ _ _ root s
    { s with container := h'.container, openFiles := (s.openFiles.insert fh h'.file).remove fh }
    bytes own f.headSlot fb (bytes f.headSlot) _ h hin hfb (hslots ▸ hmoves)
    (.closed hgone ⟨hclosed.ok.withIno 0, htotal, rfl, hclosed.ok.lists rfl⟩) rfl le_rfl hothers
    fun k g hg hgh => absurd hgh (hgone k g hg)
  exact ⟨⟨hrefiled, rfl, _, hbacks, hslots ▸ hmoves⟩, hget⟩

omit [LawfulNodeStore σ] in
/-- A file that has no handle gets one. -/
theorem Backs.addHandle {ino t : Nat} {fb : FileBlock} {ids chain : List Nat}
    (h : Backs root s bytes own) (hino : s.inodes.slotOf ino = some t)
    (hcarries : Carries s.container (reopened ino t fb ids) fb ids chain (bytes t) (own t))
    (hno : ∀ k g, s.openFiles.get k = some g → g.headSlot ≠ t) (hnext : s.nextFh + 1 < 2 ^ 64)
    (hs' : s' = { s with openFiles := s.openFiles.insert s.nextFh (reopened ino t fb ids),
                         nextFh := max ((s.nextFh + 1) % 2 ^ 64) 1 }) :
    FileStep root s s' bytes own t (bytes t) ∧ s.openFiles.get s.nextFh = none ∧
      ∀ k, s'.openFiles.get k =
        if k = s.nextFh then some (reopened ino t fb ids) else s.openFiles.get k := by
  have hc : s'.container = s.container := by rw [hs']
  have hinodes : s'.inodes = s.inodes := by rw [hs']
  have hnone : s.openFiles.get s.nextFh = none := by
    cases hk : s.openFiles.get s.nextFh with
    | none => rfl
    | some g => exact absurd (h.nextFh _ g hk) (lt_irrefl _)
  have hget : ∀ k, s'.openFiles.get k =
      if k = s.nextFh then some (reopened ino t fb ids) else s.openFiles.get k := fun k => by
    rw [hs', HashMap.get_insert]
  have hnext' : s'.nextFh = s.nextFh + 1 := by
    rw [hs']
    change max ((s.nextFh + 1) % 2 ^ 64) 1 = _
    rw [Nat.mod_eq_of_lt hnext]
    omega
  have hmoves : Moves s.container s'.container (own t) (own t) := by
    rw [hc]
    exact .refl _ _
  have honly : ∀ k g, s'.openFiles.get k = some g → g.headSlot = t → k = s.nextFh ∧
      g = reopened ino t fb ids := fun k g hg hgh => by
    rw [hget] at hg
    split at hg
    next hk => exact ⟨hk, (Option.some.inj hg).symm⟩
    next => exact absurd hgh (hno k g hg)
  have hothers : ∀ k g, g.headSlot ≠ t →
      (s'.openFiles.get k = some g ↔ s.openFiles.get k = some g) := fun k g hne => by
    rw [hget]
    split
    next hk =>
      rw [hk, hnone, Option.some.injEq]
      exact ⟨fun heq => absurd (heq ▸ rfl) hne, fun heq => by cases heq⟩
    next => rfl
  have hfile : FileAt s' t (bytes t) (own t) :=
    .opened (by rw [hget, if_pos rfl]) rfl (by rw [hc]; exact hcarries)
  obtain ⟨hrefiled, hbacks⟩ := h.refiled (h.known ino t hino) hcarries.head.1 hmoves hfile hinodes
    (by omega) hothers fun k g hg hgh => by
      obtain ⟨rfl, rfl⟩ := honly k g hg hgh
      exact ⟨hino, by omega, fun k' g' hg' hgh' => (honly k' g' hg' hgh').1⟩
  exact ⟨⟨hrefiled, hinodes, _, hbacks, hmoves⟩, hnone, hget⟩

/-- An open of a file that has no handle. -/
theorem Backs.openFh {ino t : Nat} {fb : FileBlock} (h : Backs root s bytes own)
    (hino : s.inodes.slotOf ino = some t) (hfb : nodes s.container t = some (.file fb))
    (hno : ∀ k g, s.openFiles.get k = some g → g.headSlot ≠ t) (hnext : s.nextFh + 1 < 2 ^ 64)
    (hrun : (opOpen ino).run s = .ok fh s') :
    FileStep root s s' bytes own t (bytes t) ∧ s.openFiles.get fh = none ∧
      ∃ f', f'.headSlot = t ∧
        ∀ k, s'.openFiles.get k = if k = fh then some f' else s.openFiles.get k := by
  obtain ⟨ids, chain, hok, hsize, hslots, hlists⟩ := h.closedFile (h.known ino t hino) hfb hno
  have hok' := hok.withIno ino
  obtain ⟨ho', hc, -⟩ := opOpen_ok (⟨hino, hok'⟩ : Closed (Flat (bytes t)) s ino t fb ids chain) hrun
  obtain ⟨rfl, hs'⟩ := opOpen_state hrun ho'.entry hc
  obtain ⟨hstep, hnone, hget⟩ := h.addHandle hino ⟨hok', hsize, hslots, hlists⟩ hno hnext hs'
  exact ⟨hstep, hnone, _, rfl, hget⟩

end Venom.Fuse
