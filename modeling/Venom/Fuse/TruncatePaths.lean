import Venom.Fuse.ChunkReads
import Venom.Fuse.HeadSize
import Venom.Fuse.Truncate

/-! # The two ways to truncate a file

A file that nobody has open is cut on the disk; an open one is cut in its handle, and the
release writes the cut back.  Both leave the same head and the same free slots when the
head lists all slots of the file.  The ids of an index chain are forgotten by the first
way, which frees only the blocks they stand in.
-/

namespace Venom.Fuse

open Venom.Storage
open Venom.Library
open Venom.Library.StateError
open Venom.Library.OptionLists

variable {σ : Type} [NodeStore σ]

/-! ## The two ways -/

/-- Truncate through a handle: open, resize, release. -/
def resizeThroughHandle (ord : IterOrder Nat) (ino newSize : Nat) : FuseM σ Unit := do
  let fh ← opOpen ino
  opSetattrSize ord ino (some fh) newSize
  opRelease ord fh

/-- Read from a file through a new handle. -/
def readFile (ord : IterOrder Nat) (ino offset size : Nat) : FuseM σ (List UInt8) := do
  let fh ← opOpen ino
  opRead ord fh offset size

variable [NodeView σ]

/-- A file on the disk as the driver writes it: its head fits the slot and lists no more
    slots directly than a head may. -/
structure ClosedFile (s : VenomFuse σ) (ino head : Nat) (fb : FileBlock)
    (ids chain : List Nat) : Prop where
  closed : Closed Anything s ino head fb ids chain
  kind : fb.kind = .file
  direct : fb.dataSlots.length ≤ maxDirectSlots
  fits : Fits (NodeStore.cipher s.container) (.file fb)

/-- `s'` is `s` with the file cut to `newSize`: its content is the beginning of the old
    one, and of the old slots exactly those it no longer refers to are free. -/
structure CutExactly (s s' : VenomFuse σ) (ino newSize head : Nat) (fb : FileBlock)
    (ids chain : List Nat) : Prop where
  size : fileSize s' ino none = some newSize
  content : ∀ ord offset size, valueOf (readFile ord ino offset size) s' =
    valueOf (readFile ord ino offset (min size (newSize - offset))) s
  freed : ∃ fb' ids' chain', nodes s'.container head = some (.file fb') ∧
    IndexChain (nodes s'.container) fb'.indexChain ids' chain' ∧
    ∀ t ∈ fb.dataSlots ++ ids ++ chain,
      t ∈ free s'.container ↔ t ∉ fb'.dataSlots ++ ids' ++ chain'

/-- Both ways end well, cut the file, and free the same slots. -/
def PathsAgree (ord : IterOrder Nat) (s : VenomFuse σ) (ino newSize head : Nat) (fb : FileBlock)
    (ids chain : List Nat) : Prop :=
  ∃ s₁ s₂, (opSetattrSize ord ino none newSize).run s = .ok () s₁ ∧
    (resizeThroughHandle ord ino newSize).run s = .ok () s₂ ∧
    CutExactly s s₁ ino newSize head fb ids chain ∧
    CutExactly s s₂ ino newSize head fb ids chain ∧
    ∀ t, t ∈ free s₁.container ↔ t ∈ free s₂.container

/-! ## What is freed -/

theorem Moves.mem_free {c c' : σ} {own own' : List Nat} (h : Moves c c' own own')
    (ha : Accounts c own) (t : Nat) :
    t ∈ free c' ↔ (t ∈ free c ∨ t ∈ own) ∧ t ∉ own' := by
  have hmem : t ∈ free c' ∨ t ∈ own' ↔ t ∈ free c ∨ t ∈ own := by
    simpa using h.perm.mem_iff (a := t)
  have hnot : t ∈ own' → t ∉ free c' := fun ht => (h.accounts ha).not_free ht
  constructor
  · intro hf
    exact ⟨hmem.mp (.inl hf), fun ht => hnot ht hf⟩
  · rintro ⟨hown, ht⟩
    exact (hmem.mpr hown).resolve_right ht

section Finite

variable [FiniteNodeStore σ]

variable {s : VenomFuse σ} {ino head newSize : Nat} {fb : FileBlock} {ids chain : List Nat}

/-! ## Opening and reading -/

theorem buildSlotMap_run {c : σ} (hok : HandleOk c (reopened ino head fb ids) fb ids chain) :
    (buildSlotMap head).run c =
      .ok (fb.totalSize, fb.indexChain, none :: (fb.dataSlots ++ ids).map some) c := by
  have hdata : IsDataSlot c head :=
    hok.accounts.isDataSlot (by simp [ownedSlots, reopened, openedFile])
  have hfuel : chain.length ≤ chainFuel c := by
    have hle := hok.accounts.length_le
    rw [reopened_ownedSlots, List.length_append, List.length_cons] at hle
    unfold chainFuel
    omega
  have hcollect : (collectIndex (chainFuel c) fb.indexChain).run c = .ok ids c :=
    collectIndex_run hok.index
      (fun s hs => hok.accounts.isDataSlot (by simp [ownedSlots, hs])) hfuel
  unfold buildSlotMap
  rw [run_bind_of_ok (readNode_run hdata hok.head)]
  dsimp only
  rw [run_bind_of_ok run_get, run_bind_of_ok hcollect]
  rfl

theorem opOpen_run {A : Content} (hc : Closed A s ino head fb ids chain) :
    ∃ fh n, (opOpen ino).run s = .ok fh
      { s with openFiles := s.openFiles.insert fh (reopened ino head fb ids), nextFh := n } := by
  have hok := hc.ok.handle
  have hdata : IsDataSlot s.container head :=
    hok.accounts.isDataSlot (by simp [ownedSlots, reopened, openedFile])
  have hslot : (slotOfIno ino).run s = .ok head s := slotOfIno_ok.mpr ⟨hc.inode, rfl⟩
  have hbuild : (liftStore (buildSlotMap head)).run s = .ok _ s :=
    liftStore_ok.mpr ⟨_, buildSlotMap_run hok, rfl⟩
  have hread : (liftStore (readNode head)).run s = .ok (.file fb) s :=
    liftStore_ok.mpr ⟨_, readNode_run hdata hok.head, rfl⟩
  refine ⟨s.nextFh, max ((s.nextFh + 1) % 2 ^ 64) 1, ?_⟩
  unfold opOpen
  rw [run_bind_of_ok hslot, run_bind_of_ok hbuild]
  dsimp only
  rw [run_bind_of_ok hread]
  rfl

/-- Reading a closed file is a function of its chunks. -/
theorem readFile_chunks {A : Content} (hc : Closed A s ino head fb ids chain)
    (ord : IterOrder Nat) (offset size : Nat) : valueOf (readFile ord ino offset size) s =
      readChunks (chunkBytes ⟨s.container, reopened ino head fb ids⟩)
        (min (offset + size) fb.totalSize) offset := by
  obtain ⟨fh, n, hopen⟩ := opOpen_run hc
  have hs := (reopened_synced hc.ok.handle).1
  have hget : (s.openFiles.insert fh (reopened ino head fb ids)).get fh =
      some (reopened ino head fb ids) := by simp
  unfold readFile
  rw [valueOf_bind_of_ok hopen, valueOf_congr (opRead_run hget _ _ _), withHandle_valueOf,
    readHandle_chunks ord hs]
  rfl

/-! ## A file cut exactly -/

/-- Below the new size the chunks of the cut file are those of the old one. -/
theorem cut_chunks {c c' : σ} {stop i : Nat}
    (hok : HandleOk c (reopened ino head fb []) fb [] chain)
    (hok' : HandleOk c' (reopened ino head (resizedHead fb newSize) []) (resizedHead fb newSize)
      [] []) (hvolume : Storage.SameVolume c c') (hlt : newSize < fb.totalSize)
    (hsame : ∀ t ∈ keptSlots (chunkCount newSize) fb, nodes c' t = nodes c t)
    (hstop : stop ≤ newSize) (hi : i * chunkSize < stop) :
    (chunkBytes ⟨c', reopened ino head (resizedHead fb newSize) []⟩ i).map
        (List.take (stop - i * chunkSize)) =
      (chunkBytes ⟨c, reopened ino head fb []⟩ i).map (List.take (stop - i * chunkSize)) := by
  have hcount : i < chunkCount newSize := lt_chunkCount.mpr (by omega)
  have hfb : resizedHead fb newSize = _ := if_pos hlt
  cases i with
  | zero =>
    rw [(reopened_synced hok').2, (reopened_synced hok).2, hfb]
    dsimp only
    rw [if_neg (by omega), Option.map_some, Option.map_some, List.take_take,
      Nat.min_eq_left (by omega)]
  | succ k =>
    rw [reopened_chunk_succ, reopened_chunk_succ, hfb]
    dsimp only
    rw [List.append_nil, List.append_nil, keptSlots, List.getElem?_take_of_lt (by omega)]
    cases hs : fb.dataSlots[k]? with
    | none => rfl
    | some t =>
      have hkept : t ∈ keptSlots (chunkCount newSize) fb := by
        refine List.mem_of_getElem? (i := k) ?_
        rw [keptSlots, List.getElem?_take_of_lt (by omega)]
        exact hs
      have hd : IsDataSlot c t := hok.accounts.isDataSlot (by
        rw [reopened_ownedSlots]
        simp [List.mem_of_getElem? hs])
      rw [Option.bind_some, Option.bind_some, LawfulNodeStore.readNode_eq c t hd,
        LawfulNodeStore.readNode_eq c' t (hvolume.isDataSlot.mpr hd), hsame t hkept]

/-- The file is cut exactly when its head is cut and the slots it gives up are freed. -/
theorem CutExactly.of_moves {s' : VenomFuse σ} (hc : Closed Anything s ino head fb [] chain)
    (hlt : newSize < fb.totalSize) (hino : s'.inodes.slotOf ino = some head)
    (hhead : nodes s'.container head = some (.file (resizedHead fb newSize)))
    (hmoves : Moves s.container s'.container (fb.dataSlots ++ [] ++ head :: chain)
      (keptSlots (chunkCount newSize) fb ++ [head]))
    (hsame : ∀ t ∈ keptSlots (chunkCount newSize) fb,
      nodes s'.container t = nodes s.container t) :
    CutExactly s s' ino newSize head fb [] chain := by
  have hok := hc.ok.handle
  have hown := hok.accounts
  rw [reopened_ownedSlots] at hown
  have hok' := hok.cut hlt hhead (hmoves.accounts hown) hsame
  have htotal : (resizedHead fb newSize).totalSize = newSize := by rw [resizedHead, if_pos hlt]
  have hcut : TruncatesOnDisk Anything Anything newSize :=
    ⟨fun _ _ _ _ _ => trivial, fun _ => trivial⟩
  have hc' : Closed Anything s' ino head (resizedHead fb newSize) [] [] :=
    ⟨hino, hok', by rw [htotal]; exact cutOnDisk_backed hc.ok.backed hlt hcut hsame⟩
  refine ⟨by rw [hc'.fileSize, htotal], fun ord offset size => ?_,
    resizedHead fb newSize, [], [], hhead, ?_, fun t ht => ?_⟩
  · rw [readFile_chunks hc' ord, readFile_chunks hc ord, htotal]
    by_cases hoff : offset < newSize
    · rw [show min (offset + min size (newSize - offset)) fb.totalSize =
        min (offset + size) newSize by omega]
      exact readChunks_congr (fun i hi =>
        cut_chunks hok hok' hmoves.same hlt hsame (Nat.min_le_right _ _) hi) _
    · rw [readChunks, readChunks, if_neg (by omega), if_neg (by omega)]
  · rw [resizedHead, if_pos hlt]
    exact .nil
  · have hne : t ≠ head := by
      rintro rfl
      have hdisj := (List.nodup_append.mp hown.nodup_own).2.2
      rcases List.mem_append.mp ht with h | h
      · exact hdisj t h t List.mem_cons_self rfl
      · exact (List.nodup_cons.mp (List.nodup_append.mp hown.nodup_own).2.1).1 h
    have hmem : t ∈ fb.dataSlots ++ [] ++ head :: chain := by
      rcases List.mem_append.mp ht with h | h
      · exact List.mem_append_left _ h
      · exact List.mem_append_right _ (List.mem_cons_of_mem _ h)
    rw [hmoves.mem_free hown, and_iff_right (.inr hmem), resizedHead, if_pos hlt]
    simp [hne]

/-! ## Cutting on the disk -/

theorem resizedHead_fits {cipher : Container.CipherAlgorithm} (hkind : fb.kind = .file)
    (hfits : Fits cipher (.file fb)) (hlt : newSize < fb.totalSize) :
    Fits cipher (.file (resizedHead fb newSize)) := by
  obtain ⟨kind, totalSize, dataSlots, indexChain, data⟩ := fb
  obtain rfl : kind = .file := hkind
  rw [resizedHead, if_pos hlt]
  dsimp only [keptSlots]
  split
  next => exact file_fits_cut (k := 0) hfits (le_of_lt hlt)
  next => exact file_fits_cut hfits (le_of_lt hlt)

/-- Cutting a file on the disk succeeds. -/
theorem cutOnDisk_run {c : σ} (hok : HandleOk c (reopened ino head fb ids) fb ids chain)
    (hkind : fb.kind = .file) (hfits : Fits (NodeStore.cipher c) (.file fb))
    (hlt : newSize < fb.totalSize) : ∃ c', (resizeOnDisk head newSize).run c = .ok () c' := by
  have hown := hok.accounts
  rw [reopened_ownedSlots] at hown
  have hhead₀ : nodes c head = some (.file fb) := hok.head
  have ha := hown.of_perm (cut_perm ids chain head (chunkCount newSize) fb).symm
  obtain ⟨c₁, hfree⟩ := freeNodes_run (fb.dataSlots.drop (chunkCount newSize - 1)) c
  obtain ⟨hm₁, hagree₁⟩ := freeNodes_ok hfree ha
  have hindex : IndexChain (nodes c₁) fb.indexChain ids chain :=
    hok.index.kept ha (fun s hs => List.mem_append_left _ hs) hagree₁
  obtain ⟨c₂, hchain⟩ := freeIndexChain_run hindex (hm₁.accounts ha)
  obtain ⟨hm₂, -⟩ := freeIndexChain_ok hindex (hm₁.accounts ha) hchain
  have hcipher : NodeStore.cipher c₂ = NodeStore.cipher c := hm₂.same.cipher.trans hm₁.same.cipher
  have hhead := resizedHead_fits hkind hfits hlt
  rw [← hcipher, resizedHead, if_pos hlt] at hhead
  obtain ⟨c₃, hupd⟩ := updateNode_run (s := head) hhead
  refine ⟨c₃, ?_⟩
  unfold resizeOnDisk
  rw [run_bind_of_ok (readNode_run (hown.isDataSlot (by simp)) hhead₀)]
  dsimp only
  rw [if_pos hlt, run_bind_of_ok hfree, run_bind_of_ok hchain]
  exact hupd

omit [FiniteNodeStore σ] in
/-- Without a handle a resize works on the disk. -/
theorem opSetattrSize_onDisk {A : Content} {ord : IterOrder Nat} {s' : VenomFuse σ}
    (hc : Closed A s ino head fb ids chain)
    (hno : findHandle ord ino none s.openFiles = none) :
    (opSetattrSize ord ino none newSize).run s = .ok () s' ↔
      ∃ c', (resizeOnDisk head newSize).run s.container = .ok () c' ∧
        s' = { s with container := c' } := by
  unfold opSetattrSize
  rw [run_bind_of_ok run_get, hno]
  dsimp only
  rw [run_bind_of_ok (slotOfIno_ok.mpr ⟨hc.inode, rfl⟩), liftStore_ok]

/-! ## Cutting in the handle -/

theorem resizeFile_cut {f : OpenFile} (hlt : newSize < f.totalSize) :
    resizeFile newSize f =
      { truncateFile newSize f with totalSize := newSize, metaDirty := true } := by
  unfold resizeFile
  rw [if_neg (by omega), if_pos hlt]

omit [NodeView σ] [FiniteNodeStore σ] in
/-- Chunks that are not cached cannot be stored. -/
theorem storeChunks_uncached {h : Handle σ} {l : List Nat}
    (hl : ∀ i ∈ l, h.file.cache.get i = none) : (l.forM storeChunk).run h = .ok () h := by
  induction l with
  | nil => rfl
  | cons i l ih =>
    have hstore : (storeChunk i).run h = .ok () h := by
      unfold storeChunk
      rw [run_bind_of_ok run_get, hl i List.mem_cons_self]
      rfl
    change (storeChunk i >>= fun _ => l.forM storeChunk).run h = _
    rw [run_bind_of_ok hstore, ih fun j hj => hl j (List.mem_cons_of_mem _ hj)]

omit [NodeView σ] [FiniteNodeStore σ] in
theorem freeExcessSlots_run (keep : Nat) (h : Handle σ) :
    ∃ h', (freeExcessSlots keep).run h = .ok () h' := by
  unfold freeExcessSlots
  rw [run_bind_of_ok run_get]
  split
  next =>
    obtain ⟨c', hfree⟩ := freeNodes_run (h.file.slotMap.drop keep).reduceOption h.container
    rw [← forM_freeIfSome] at hfree
    exact ⟨_, by rw [run_bind_of_ok (onContainer_run hfree)]; rfl⟩
  next => exact ⟨h, rfl⟩

/-- The head gets the bytes a cut on the disk would leave in it. -/
theorem inlineData_cut (hlen : fb.data.length ≤ chunkSize) (hlt : newSize < fb.totalSize) :
    inlineData (resizeFile newSize (reopened ino head fb ids)) fb =
      (resizedHead fb newSize).data := by
  have hcount : chunkCount newSize = 0 ↔ newSize = 0 := by
    have := lt_chunkCount (i := 0) (n := newSize)
    omega
  rw [resizeFile_cut hlt, resizedHead, if_pos hlt]
  unfold inlineData
  dsimp only
  rw [truncateFile_get]
  by_cases hnil : fb.data = []
  · simp [reopened, openedFile, hnil]
  have hcache : (reopened ino head fb ids).cache.get 0 = some fb.data := by
    simp [reopened, openedFile, hnil]
  rw [hcache]
  rcases Nat.eq_zero_or_pos newSize with rfl | hpos
  · rfl
  have hcut : ∀ d, cutHead newSize d = d.take (min newSize chunkSize) := fun d => by
    rw [cutHead, chunkActualSize, if_neg (by omega)]
    simp
  have hne : chunkCount newSize ≠ 0 := by omega
  rw [if_neg hne]
  have hlast : 0 < lastChunk newSize ↔ chunkSize < newSize := by
    unfold lastChunk
    rw [if_neg (by omega), Nat.div_pos_iff]
    have := chunkSize_pos
    omega
  by_cases hbig : chunkSize < newSize
  · -- the whole of chunk 0 is kept
    rw [if_pos (hlast.mpr hbig)]
    dsimp only
    rw [hcut, List.take_of_length_le (by omega), List.take_of_length_le (by omega)]
  · have hzero : lastChunk newSize = 0 := by omega
    rw [hzero, if_neg (Nat.lt_irrefl _), if_pos rfl, Nat.zero_mul, Nat.sub_zero]
    dsimp only [Option.map_some]
    rw [hcut, List.take_take, Nat.min_eq_left (by omega), Nat.min_eq_left (by omega)]

/-! ## The flush of a cut handle -/

/-- A rewritten head without an index chain. -/
theorem rewriteHead_direct {h : Handle σ} {fb : FileBlock} {ids chain : List Nat}
    (hhead : nodes h.container h.file.headSlot = some (.file fb))
    (hindex : IndexChain (nodes h.container) h.file.indexChain ids chain)
    (ha : Accounts h.container (ownedSlots h.file chain))
    (hdirect : (continuationSlots (chunkCount h.file.totalSize) h.file.slotMap).length ≤
      maxDirectSlots)
    (hfits : Fits (NodeStore.cipher h.container) (headNode h.file.totalSize
      (continuationSlots (chunkCount h.file.totalSize) h.file.slotMap) none
      (inlineData h.file fb))) :
    ∃ c', rewriteHead.run h = .ok () ⟨c', { h.file with indexChain := none }⟩ ∧
      nodes c' h.file.headSlot = some (headNode h.file.totalSize
        (continuationSlots (chunkCount h.file.totalSize) h.file.slotMap) none
        (inlineData h.file fb)) ∧
      Moves h.container c' (ownedSlots h.file chain) (ownedSlots h.file []) ∧
      ∀ s ∈ h.file.slotMap.reduceOption, nodes c' s = nodes h.container s := by
  have hdata : IsDataSlot h.container h.file.headSlot := ha.isDataSlot (by simp [ownedSlots])
  have hperm : (ownedSlots h.file chain).Perm
      (chain ++ (h.file.slotMap.reduceOption ++ [h.file.headSlot])) := by
    have happ : ownedSlots h.file chain =
        h.file.slotMap.reduceOption ++ [h.file.headSlot] ++ chain := by simp [ownedSlots]
    rw [happ]
    exact List.perm_append_comm
  obtain ⟨c₁, hfree⟩ := freeIndexChain_run hindex (ha.of_perm hperm.symm)
  obtain ⟨hm₁, -⟩ := freeIndexChain_ok hindex (ha.of_perm hperm.symm) hfree
  rw [← hm₁.same.cipher] at hfits
  obtain ⟨c', hrun⟩ := rewriteHead_run hdata hhead hfree hdirect hfits
  obtain ⟨dataSlots, overflow, new, hids, -, hnode, hnew, hmoves, hsame⟩ :=
    rewriteHead_ok hrun hhead hindex ha
  cases hnew
  rw [List.append_nil] at hids
  subst hids
  exact ⟨c', hrun, hnode, hmoves, hsame⟩

omit [NodeStore σ] [FiniteNodeStore σ] in
/-- Where no chunk was stored, the slots that stay hold what they held. -/
theorem SlotsFlushed.unstored_all {keep : Nat} {c c' : σ} {f f' : OpenFile}
    (h : SlotsFlushed keep c f c' f') (hp : ∀ i, ¬ (1 ≤ i ∧ Pending f i)) :
    f'.slotMap = f.slotMap.take keep ∧
      ∀ s ∈ f'.slotMap.reduceOption, nodes c' s = nodes c s := by
  refine ⟨List.ext_getElem? fun i => ?_, fun s hs => ?_⟩
  · have hlen := h.length
    by_cases hi : i < f'.slotMap.length
    · rw [h.others i hi (hp i), List.getElem?_take_of_lt (by omega)]
    · rw [List.getElem?_eq_none (by omega),
        List.getElem?_eq_none (by rw [List.length_take]; omega)]
  · obtain ⟨i, hi⟩ := exists_getElem? hs
    exact h.unstored i s (hp i) hi

/-- A file opened and cut: its head, slots and chain are those of the disk, and of the
    chunks it can only have the first. -/
structure CutHandle (newSize head : Nat) (fb : FileBlock) (f : OpenFile) : Prop where
  slotMap : f.slotMap = none :: (fb.dataSlots ++ []).map some
  headSlot : f.headSlot = head
  indexChain : f.indexChain = fb.indexChain
  totalSize : f.totalSize = newSize
  metaDirty : f.metaDirty = true
  cache : ∀ i, 1 ≤ i → f.cache.get i = none

theorem resizeFile_cutHandle (hlt : newSize < fb.totalSize) :
    CutHandle newSize head fb (resizeFile newSize (reopened ino head fb [])) := by
  rw [resizeFile_cut hlt]
  refine ⟨rfl, rfl, rfl, rfl, rfl, fun i hi => ?_⟩
  have hnone : (reopened ino head fb []).cache.get i = none := by
    by_contra hsome
    obtain ⟨d, hd⟩ := Option.ne_none_iff_exists'.mp hsome
    have := (openedFile_get hd).1
    omega
  dsimp only
  rw [truncateFile_get, hnone]
  simp

/-- Steps 1 and 2 of its flush: nothing is stored, and the slots past the end are freed. -/
theorem CutHandle.slots_freed {c : σ} {f : OpenFile} (hf : CutHandle newSize head fb f)
    (ord : IterOrder Nat) (ha : Accounts c (fb.dataSlots ++ [] ++ head :: chain)) :
    ∃ c₂ f₂, (storeDirtyChunks ord).run ⟨c, f⟩ = .ok () ⟨c, f⟩ ∧
      (freeExcessSlots (chunkLimit newSize)).run ⟨c, f⟩ = .ok () ⟨c₂, f₂⟩ ∧
      f₂ = { f with slotMap := none :: (keptSlots (chunkCount newSize) fb).map some } ∧
      Moves c c₂ (fb.dataSlots ++ [] ++ head :: chain)
        (keptSlots (chunkCount newSize) fb ++ head :: chain) ∧
      ∀ t ∈ keptSlots (chunkCount newSize) fb ++ head :: chain, nodes c₂ t = nodes c t := by
  have hown : f.slotMap.reduceOption = fb.dataSlots ++ [] := by
    rw [hf.slotMap, List.reduceOption_cons_of_none, reduceOption_map_some]
  have hstore : (storeDirtyChunks ord).run ⟨c, f⟩ = .ok () ⟨c, f⟩ := by
    unfold storeDirtyChunks
    rw [run_bind_of_ok run_get]
    exact storeChunks_uncached fun i hi => hf.cache i (by simpa using (List.mem_filter.mp hi).2)
  obtain ⟨⟨c₂, f₂⟩, hcut⟩ := freeExcessSlots_run (chunkLimit newSize) ⟨c, f⟩
  rw [← hown] at ha ⊢
  obtain ⟨hslots, ⟨m, b, rfl⟩, hmoves, hsame, hclean⟩ := storeAndCut_ok hstore hcut ha
  obtain ⟨hmap, hkept⟩ := hslots.unstored_all fun i ⟨h1, _, hc⟩ => hc (hf.cache i h1)
  dsimp only at hmap hkept hmoves hsame hclean
  have htake : m = none :: (keptSlots (chunkCount newSize) fb).map some := by
    rw [hmap, hf.slotMap, chunkLimit, show max (chunkCount newSize) 1 = chunkCount newSize - 1 + 1 by
      omega, List.take_succ_cons, ← List.map_take, List.append_nil, keptSlots]
  have hred : m.reduceOption = keptSlots (chunkCount newSize) fb := by
    rw [htake, List.reduceOption_cons_of_none, reduceOption_map_some]
  obtain rfl : b = true := by
    cases b
    · exact absurd (hclean rfl).1 (by rw [hf.metaDirty]; simp)
    · rfl
  rw [hred] at hmoves hkept
  refine ⟨c₂, _, hstore, hcut, by rw [htake, ← hf.metaDirty], hmoves, fun t ht => ?_⟩
  exact (List.mem_append.mp ht).elim (hkept t) (hsame t)

/-- The flush of a cut handle succeeds and writes the head a cut on the disk writes. -/
theorem CutHandle.flush {c : σ} {f : OpenFile} (hf : CutHandle newSize head fb f)
    (ord : IterOrder Nat) (hok : HandleOk c (reopened ino head fb []) fb [] chain)
    (hdirect : fb.dataSlots.length ≤ maxDirectSlots)
    (hinline : inlineData f fb = (resizedHead fb newSize).data)
    (hfits : Fits (NodeStore.cipher c) (.file (resizedHead fb newSize)))
    (hlt : newSize < fb.totalSize) :
    ∃ c' f', (flushHandle ord).run ⟨c, f⟩ = .ok () ⟨c', f'⟩ ∧
      nodes c' head = some (.file (resizedHead fb newSize)) ∧
      Moves c c' (fb.dataSlots ++ [] ++ head :: chain)
        (keptSlots (chunkCount newSize) fb ++ [head]) ∧
      ∀ t ∈ keptSlots (chunkCount newSize) fb, nodes c' t = nodes c t := by
  have ha := hok.accounts
  rw [reopened_ownedSlots] at ha
  obtain ⟨c₂, f₂, hstore, hcut, hf₂, hm₂, hsame₂⟩ := hf.slots_freed ord ha
  have hhead : f₂.headSlot = head := by rw [hf₂, ← hf.headSlot]
  have htotal : f₂.totalSize = newSize := by rw [hf₂, ← hf.totalSize]
  have hmap : f₂.slotMap = none :: (keptSlots (chunkCount newSize) fb).map some := by rw [hf₂]
  have hred : f₂.slotMap.reduceOption = keptSlots (chunkCount newSize) fb := by
    rw [hmap, List.reduceOption_cons_of_none, reduceOption_map_some]
  have hcont : continuationSlots (chunkCount f₂.totalSize) f₂.slotMap =
      keptSlots (chunkCount newSize) fb := by
    rw [htotal, continuationSlots_eq, hred]
    · have : (keptSlots (chunkCount newSize) fb).length ≤ chunkCount newSize - 1 :=
        List.length_take_le ..
      rw [hmap, List.length_cons, List.length_map]
      omega
    · rw [hmap]
      rfl
  have hnode : headNode f₂.totalSize (keptSlots (chunkCount newSize) fb) none
      (inlineData f₂ fb) = .file (resizedHead fb newSize) := by
    have hinline₂ : inlineData f₂ fb = inlineData f fb := by rw [hf₂]; rfl
    rw [hinline₂, hinline, htotal, resizedHead, if_pos hlt]
    rfl
  have hhead₂ : nodes c₂ f₂.headSlot = some (.file fb) := by
    have hfb : nodes c head = some (.file fb) := hok.head
    rw [hhead, hsame₂ head (by simp), hfb]
  have hindex₂ : IndexChain (nodes c₂) f₂.indexChain [] chain := by
    rw [show f₂.indexChain = fb.indexChain by rw [hf₂, ← hf.indexChain]]
    exact hok.index.congr fun t ht => hsame₂ t (by simp [ht])
  have hown : ∀ l, ownedSlots f₂ l = keptSlots (chunkCount newSize) fb ++ head :: l := fun l => by
    rw [ownedSlots, hred, hhead]
  obtain ⟨c', hrewrite, hnew, hmoves, hsame⟩ := rewriteHead_direct (h := ⟨c₂, f₂⟩) hhead₂ hindex₂
    (by rw [hown]; exact hm₂.accounts ha)
    (by rw [hcont]; exact (List.length_take_le' ..).trans hdirect)
    (by rw [hcont, hnode, hm₂.same.cipher]; exact hfits)
  dsimp only at hnew hmoves hsame
  rw [hcont, hnode, hhead] at hnew
  rw [hown, hown] at hmoves
  refine ⟨c', markClean { f₂ with indexChain := none }, ?_, hnew, hm₂.trans hmoves, fun t ht => ?_⟩
  · have hlimit : max (chunkCount f.totalSize) 1 = chunkLimit newSize := by
      rw [hf.totalSize, chunkLimit]
    have hmeta₂ : f₂.metaDirty = true := by rw [hf₂]; exact hf.metaDirty
    unfold flushHandle
    rw [run_bind_of_ok run_get]
    dsimp only
    rw [hf.metaDirty, if_neg (by simp), run_bind_of_ok hstore, hlimit, run_bind_of_ok hcut,
      run_bind_of_ok run_get, if_pos (.inl hmeta₂), run_bind_of_ok hrewrite]
    exact modifyFile_ok.mpr rfl
  · rw [hsame t (hred ▸ ht), hsame₂ t (List.mem_append_left _ ht)]

/-! ## The two ways compared -/

/-- The way through a handle. -/
theorem resizeThroughHandle_run (ord : IterOrder Nat) (hc : ClosedFile s ino head fb [] chain)
    (hlt : newSize < fb.totalSize) :
    ∃ s', (resizeThroughHandle ord ino newSize).run s = .ok () s' ∧ s'.inodes = s.inodes ∧
      nodes s'.container head = some (.file (resizedHead fb newSize)) ∧
      Moves s.container s'.container (fb.dataSlots ++ [] ++ head :: chain)
        (keptSlots (chunkCount newSize) fb ++ [head]) ∧
      ∀ t ∈ keptSlots (chunkCount newSize) fb, nodes s'.container t = nodes s.container t := by
  obtain ⟨hok, hb⟩ := hc.closed.ok
  have hlen : fb.data.length ≤ chunkSize :=
    (hb.inline (not_pending_of_clean (reopened_clean ino head fb []) 0)).1
  obtain ⟨c', f', hflush, hhead, hmoves, hsame⟩ := (resizeFile_cutHandle hlt).flush ord hok
    hc.direct (inlineData_cut hlen hlt) (resizedHead_fits hc.kind hc.fits hlt) hlt
  obtain ⟨fh, n, hopen⟩ := opOpen_run hc.closed
  let s₁ : VenomFuse σ :=
    { s with openFiles := s.openFiles.insert fh (reopened ino head fb []), nextFh := n }
  let f₂ := resizeFile newSize (reopened ino head fb [])
  let s₂ : VenomFuse σ := { s₁ with openFiles := s₁.openFiles.insert fh f₂ }
  have hget₁ : s₁.openFiles.get fh = some (reopened ino head fb []) := by simp [s₁]
  have hget₂ : s₂.openFiles.get fh = some f₂ := by simp [s₂]
  have hresize : (opSetattrSize ord ino (some fh) newSize).run s₁ = .ok () s₂ := by
    rw [opSetattrSize_run hget₁]
    exact withHandle_ok.mpr ⟨_, modifyFile_ok.mpr rfl, rfl⟩
  let s₃ : VenomFuse σ :=
    { s₂ with container := c', openFiles := (s₂.openFiles.insert fh f').remove fh }
  have hrelease : (opRelease ord fh).run s₂ = .ok () s₃ := by
    have hopFlush : (opFlush ord fh).run s₂ =
        .ok () { s₂ with container := c', openFiles := s₂.openFiles.insert fh f' } := by
      rw [opFlush_run hget₂]
      exact withHandle_ok.mpr ⟨_, hflush, rfl⟩
    unfold opRelease
    rw [run_bind_of_ok hopFlush]
    rfl
  refine ⟨s₃, ?_, rfl, hhead, hmoves, hsame⟩
  unfold resizeThroughHandle
  rw [run_bind_of_ok hopen, run_bind_of_ok hresize, hrelease]

/-- A cut on the disk that frees what the file no longer needs found no ids in the chain:
    an id of the chain is neither freed nor kept. -/
theorem ids_nil_of_cutExactly {s' : VenomFuse σ} {ord : IterOrder Nat}
    (hc : ClosedFile s ino head fb ids chain)
    (hno : findHandle ord ino none s.openFiles = none) (hlt : newSize < fb.totalSize)
    (hrun : (opSetattrSize ord ino none newSize).run s = .ok () s')
    (hcut : CutExactly s s' ino newSize head fb ids chain) : ids = [] := by
  obtain ⟨c', hresize, rfl⟩ := (opSetattrSize_onDisk hc.closed hno).mp hrun
  have hok := hc.closed.ok.handle
  have hown := hok.accounts
  rw [reopened_ownedSlots] at hown
  obtain ⟨hhead, hmoves, -⟩ := cutOnDisk_ok hok.head hok.index hown hlt hresize
  obtain ⟨fb', ids', chain', hhead', hindex, hfreed⟩ := hcut.freed
  obtain rfl : fb' = resizedHead fb newSize := by
    have := hhead'.symm.trans hhead
    simpa using this
  have hnone : (resizedHead fb newSize).indexChain = none := by rw [resizedHead, if_pos hlt]
  have hdata : (resizedHead fb newSize).dataSlots = keptSlots (chunkCount newSize) fb := by
    rw [resizedHead, if_pos hlt]
  rw [hnone] at hindex
  cases hindex
  refine List.eq_nil_iff_forall_not_mem.mpr fun t ht => ?_
  have hkept : t ∈ keptSlots (chunkCount newSize) fb := by
    have hnot := mt (hfreed t (by simp [ht])).mpr
      ((hmoves.accounts hown).not_free (List.mem_append_right _ ht))
    rw [not_not, hdata] at hnot
    simpa using hnot
  have hdisj := (List.nodup_append.mp (List.nodup_append.mp hown.nodup_own).1).2.2
  exact hdisj t (List.mem_of_mem_take hkept) t ht rfl

end Finite

/-! ## Files on full volumes -/

/-- The head in slot 1 of a file whose chunk 0 is empty: `direct` continuation slots from
    slot 2 on, and `more` behind them listed in an index block. -/
def sparseHead (direct more : Nat) : FileBlock :=
  { kind := .file, totalSize := (direct + more + 1) * chunkSize,
    dataSlots := List.range' 2 direct,
    indexChain := if more = 0 then none else some (direct + more + 2), data := [] }

/-- The volume of that file and the root directory. -/
def sparseVolume (direct more : Nat) : Volume :=
  { cipher := .xchacha20Poly1305, slotCount := direct + more + 3, free := []
    nodes := fun s =>
      if s = 0 then some (.directory { kind := .directory, entries := [⟨"notes", 1, .file⟩] })
      else if s = 1 then some (.file (sparseHead direct more))
      else if s = direct + more + 2 then
        some (indexNode (List.range' (direct + 2) more) none)
      else some (dataNode (List.replicate chunkSize 9)) }

/-- The volume mounted, the file as inode 2. -/
def sparseMounted (direct more : Nat) : VenomFuse Volume :=
  { VenomFuse.new 0 (sparseVolume direct more) with inodes := ((InodeMap.new 0).getOrAlloc 1).2 }

theorem sparseVolume_nodes (direct more s : Nat) : nodes (sparseVolume direct more) s =
    if s = 0 then some (.directory { kind := .directory, entries := [⟨"notes", 1, .file⟩] })
    else if s = 1 then some (.file (sparseHead direct more))
    else if s = direct + more + 2 then some (indexNode (List.range' (direct + 2) more) none)
    else some (dataNode (List.replicate chunkSize 9)) := rfl

theorem sparseVolume_index (direct more : Nat) : IndexChain (nodes (sparseVolume direct more))
    (sparseHead direct more).indexChain (List.range' (direct + 2) more)
    (if more = 0 then [] else [direct + more + 2]) := by
  unfold sparseHead
  dsimp only
  split
  next h => subst h; exact .nil
  next h =>
    have hnode : nodes (sparseVolume direct more) (direct + more + 2) =
        some (indexNode (List.range' (direct + 2) more) none) := by
      rw [sparseVolume_nodes, if_neg (by omega), if_neg (by omega), if_pos rfl]
    have := IndexChain.cons hnode .nil
    rwa [List.append_nil] at this

theorem sparseSlots_eq (direct more : Nat) : (sparseHead direct more).dataSlots ++
    List.range' (direct + 2) more = List.range' 2 (direct + more) := by
  rw [sparseHead, Nat.add_comm direct 2, List.range'_append_1]

theorem sparseVolume_data {direct more s : Nat} (hs : s ∈ List.range' 2 (direct + more)) :
    nodes (sparseVolume direct more) s = some (dataNode (List.replicate chunkSize 9)) := by
  have := List.mem_range'_1.mp hs
  rw [sparseVolume_nodes, if_neg (by omega), if_neg (by omega), if_neg (by omega)]

theorem sparseHead_fits {direct more : Nat} (cipher : Container.CipherAlgorithm)
    (hdirect : direct ≤ maxDirectSlots) (hmore : more ≤ 1) :
    Fits cipher (.file (sparseHead direct more)) := by
  have hmax : maxDirectSlots = 4000 := rfl
  have hcs : chunkSize = 30000 := rfl
  refine (file_fits ?_ ?_ ?_ ?_ ?_).mpr ?_
  · rw [hcs]
    omega
  · rw [List.length_range']; omega
  · intro n hn
    have := List.mem_range'_1.mp hn
    omega
  · intro n hn
    split at hn
    · cases hn
    · cases hn; omega
  · simp
  · have hids : idsLen (List.range' 2 direct) ≤ 5 * (List.range' 2 direct).length :=
      idsLen_le fun n hn => by
        have := List.mem_range'_1.mp hn
        omega
    have harr : (Library.MessagePack.Head.array (List.range' 2 direct).length).width ≤ 5 := by
      unfold Library.MessagePack.Head.width
      dsimp only
      (repeat' split) <;> omega
    have htotal := uintLen_le ((direct + more + 1) * chunkSize)
    have hchain := optUint_size_le (if more = 0 then none else some (direct + more + 2))
    have hbin : (Library.MessagePack.Head.bin ([] : List UInt8).length).width ≤ 3 := by decide
    have hover : Crypto.vnmbOverhead cipher ≤ 200 := by cases cipher <;> decide
    have hslot : Container.slotSize = 32768 := rfl
    rw [List.length_range'] at hids
    simp only [List.length_nil] at hbin ⊢
    omega

theorem chunkCount_mul (n : Nat) : chunkCount (n * chunkSize) = n := by
  have hcs := chunkSize_pos
  refine Nat.le_antisymm (Nat.le_of_not_lt fun hlt => ?_) (Nat.le_of_not_lt fun hlt => ?_)
  · rw [lt_chunkCount] at hlt
    omega
  · have hlt' := Nat.mul_lt_mul_of_pos_right hlt hcs
    rw [← lt_chunkCount] at hlt'
    omega

theorem sparseVolume_accounts (direct more : Nat) : Accounts (sparseVolume direct more)
    (List.range' 2 (direct + more) ++ 1 :: (if more = 0 then [] else [direct + more + 2])) := by
  have htail : ∀ s ∈ 1 :: (if more = 0 then [] else [direct + more + 2]),
      s = 1 ∨ s = direct + more + 2 := fun s hs => by
    split at hs
    · exact .inl (by simpa using hs)
    · simpa using hs
  refine ⟨?_, fun s (hs : s ∈ List.range' 2 (direct + more) ++ _) => ?_⟩
  · change (List.range' 2 (direct + more) ++ _).Nodup
    refine List.nodup_append.mpr ⟨List.nodup_range', ?_, fun s hs t ht => ?_⟩
    · split <;> simp
    · have := List.mem_range'_1.mp hs
      have := htail t ht
      omega
  · change s < direct + more + 3
    rcases List.mem_append.mp hs with h | h
    · have := List.mem_range'_1.mp h
      omega
    · have := htail s h
      omega

/-- The file is well formed. -/
theorem sparseMounted_closed {direct more : Nat} (hdirect : direct ≤ maxDirectSlots)
    (hmore : more ≤ 1) : ClosedFile (sparseMounted direct more) 2 1 (sparseHead direct more)
      (List.range' (direct + 2) more) (if more = 0 then [] else [direct + more + 2]) := by
  have hslots := sparseSlots_eq direct more
  obtain ⟨f, hf⟩ : ∃ f, f = reopened 2 1 (sparseHead direct more) (List.range' (direct + 2) more) :=
    ⟨_, rfl⟩
  have hmap : f.slotMap = none :: (List.range' 2 (direct + more)).map some := by
    rw [hf, ← hslots]; rfl
  have hred : f.slotMap.reduceOption = List.range' 2 (direct + more) := by
    rw [hmap, List.reduceOption_cons_of_none, reduceOption_map_some]
  have hcached : ∀ {i d}, f.cache.get i = some d → i = 0 ∧ d = [] := fun hd => by
    rw [hf] at hd
    exact openedFile_get hd
  have hdata : ∀ {i s : Nat} {d}, f.slotMap[i]? = some (some s) →
      nodes (sparseVolume direct more) s = some (.fileData d) → d.data.length ≤ chunkSize := by
    intro i s d hs hnode
    rw [sparseVolume_data (hred ▸ mem_of_getElem? hs)] at hnode
    cases hnode
    rw [List.length_replicate]
  have hnil : ∀ i, Shows Anything i [] := fun i => ⟨Nat.zero_le _, fun _ _ => trivial⟩
  refine ⟨⟨rfl, ?_⟩, rfl, by rwa [sparseHead, List.length_range'], sparseHead_fits _ hdirect hmore⟩
  rw [← hf]
  refine ⟨⟨by rw [hf]; rfl, by rw [hf]; rfl, by rw [hf]; exact sparseVolume_index direct more,
      by rw [hmap]; rfl, ?_, fun s hs => ⟨_, sparseVolume_data (hred ▸ hs)⟩, fun _ => ⟨by rw [hf]; rfl, ?_⟩,
      fun _ => ?_⟩,
    fun hd => ?_, fun hd => ?_, fun _ => hnil 0,
    fun hs hnode _ => ⟨hdata hs hnode, fun _ _ => trivial⟩, fun _ _ _ => hnil _, hdata⟩
  · rw [hf, reopened_ownedSlots, hslots]
    exact sparseVolume_accounts direct more
  · rw [hred, hslots]
  · have htotal : f.totalSize = (direct + more + 1) * chunkSize := by rw [hf]; rfl
    rw [hmap, htotal, chunkLimit, chunkCount_mul, List.length_cons, List.length_map,
      List.length_range']
    omega
  · obtain ⟨rfl, rfl⟩ := hcached hd
    exact hnil 0
  · obtain ⟨rfl, -⟩ := hcached hd
    rw [hmap]
    exact ⟨Nat.succ_pos _, Nat.lt_of_lt_of_le Nat.one_pos (le_max_right _ _)⟩

end Venom.Fuse
