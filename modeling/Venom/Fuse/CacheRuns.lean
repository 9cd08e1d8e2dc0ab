import Venom.Fuse.CacheBound
import Venom.Fuse.History

/-! # The chunk cache over the life of a handle

`HandleRun` is any run of reads, writes, resizes and flushes on a handle, from the open or
the create that made it.  The cache stays within its bound as long as each call fits, in the
sense of the steps.  A hundred and twenty-nine truncations that mark a chunk without caching
it are enough to break the bound on dirty chunks.
-/

namespace Venom.Fuse

open Venom.Storage
open Venom.Library
open Venom.Library.StateError

variable {σ : Type} [NodeStore σ]

/-! ## Calls on a handle -/

inductive HandleCall
  | read (offset size : Nat)
  | write (offset : Nat) (data : List UInt8)
  | resize (ino : Nat) (hint : Option Nat) (newSize : Nat)
  | flush

namespace HandleCall

def run (ord : IterOrder Nat) (fh : Nat) : HandleCall → FuseM σ Unit
  | read offset size => do
    let _ ← opRead ord fh offset size
    pure ()
  | write offset data => do
    let _ ← opWrite ord fh offset data
    pure ()
  | resize ino hint newSize => opSetattrSize ord ino hint newSize
  | flush => opFlush ord fh

/-- The call works on the handle `fh`, and writes no more than a chunk. -/
def On (ord : IterOrder Nat) (fh : Nat) (s : VenomFuse σ) : HandleCall → Prop
  | write _ data => data.length ≤ chunkSize
  | resize ino hint _ => findHandle ord ino hint s.openFiles = some fh
  | read .. | flush => True

/-- Brand-new chunks find room, reads find a clean chunk to drop, and write-through finds
    its chunks in the cache. -/
def Fits (f : OpenFile) : HandleCall → Prop
  | read offset size => RoomToRead f offset (min (offset + size) f.totalSize)
  | write offset data => RoomForNew f offset (offset + data.length) ∧
      WriteThroughReaches f offset (offset + data.length)
  | resize .. | flush => True

instance (f : OpenFile) : (call : HandleCall) → Decidable (call.Fits f)
  | read offset size =>
    inferInstanceAs (Decidable (RoomToRead f offset (min (offset + size) f.totalSize)))
  | write offset data =>
    inferInstanceAs (Decidable (RoomForNew f offset (offset + data.length) ∧
      WriteThroughReaches f offset (offset + data.length)))
  | resize .. | flush => .isTrue trivial

def isWrite : HandleCall → Bool
  | write .. => true
  | read .. | resize .. | flush => false

end HandleCall

/-- A run on the handle `fh`, all of its calls `Ok`.  The flag says that the last one was a
    write; in a careful run every call fits. -/
inductive HandleRun (careful : Prop) : Nat → VenomFuse σ → Bool → Prop
  | opened {ino fh : Nat} {s s' : VenomFuse σ} (h : (opOpen ino).run s = .ok fh s') :
      HandleRun careful fh s' false
  | created {parent ino fh : Nat} {name : String} {s s' : VenomFuse σ}
      (h : (opCreate parent name).run s = .ok (ino, fh) s') : HandleRun careful fh s' false
  | step {fh : Nat} {s s' : VenomFuse σ} {wrote : Bool} (ord : IterOrder Nat) (call : HandleCall)
      (h : HandleRun careful fh s wrote) (hon : call.On ord fh s)
      (hfits : careful → ∀ f, s.openFiles.get fh = some f → call.Fits f)
      (hrun : (call.run ord fh).run s = .ok () s') : HandleRun careful fh s' call.isWrite

/-! ## A new handle -/

/-- A handle whose cache holds chunk 0 at most. -/
theorem cacheOk_of_chunk0 {f : OpenFile} (hcache : ∀ i ∈ cachedChunks f, i = 0)
    (hmap : f.slotMap ≠ []) : CacheOk f := by
  have hsub : cachedChunks f ⊆ {0} := fun i hi => Finset.mem_singleton.mpr (hcache i hi)
  refine ⟨(Finset.card_le_card hsub).trans (by decide), fun i hi => ?_⟩
  rw [hcache i hi]
  exact ⟨List.length_pos_iff.mpr hmap, Nat.lt_of_lt_of_le Nat.zero_lt_one (Nat.le_max_right _ _)⟩

theorem newFile_cacheOk (ino head : Nat) : CacheOk (newFile ino head) :=
  cacheOk_of_chunk0 (fun i hi => absurd hi (Finset.notMem_empty i)) (List.cons_ne_nil _ _)

theorem openedFile_cacheOk {ino head totalSize : Nat} {indexChain : Option Nat}
    {slotMap : List (Option Nat)} {chunk0 : List UInt8} (hmap : slotMap ≠ []) :
    CacheOk (openedFile ino head totalSize indexChain slotMap chunk0) := by
  refine cacheOk_of_chunk0 (fun i hi => ?_) hmap
  obtain ⟨d, hd⟩ := mem_cachedChunks.mp hi
  unfold openedFile at hd
  dsimp only at hd
  split at hd
  next => cases hd
  next =>
    by_contra hne
    rw [HashMap.get_insert, if_neg hne] at hd
    cases hd

/-- The slot map of a file starts with chunk 0. -/
theorem buildSlotMap_ne_nil {head : Nat} {c c' : σ} {r : Nat × Option Nat × List (Option Nat)}
    (hrun : (buildSlotMap head).run c = .ok r c') : r.2.2 ≠ [] := by
  obtain ⟨n, c₁, -, hcont⟩ := run_bind_ok.mp hrun
  cases n with
  | file fb =>
    obtain ⟨_, _, hget, hrest⟩ := run_bind_ok.mp hcont
    cases hget
    obtain ⟨ids, c₂, -, hret⟩ := run_bind_ok.mp hrest
    cases hret
    exact List.cons_ne_nil _ _
  | directory | fileData | fileIndex => cases hcont

theorem opOpen_cacheOk {ino fh : Nat} {s s' : VenomFuse σ} (hrun : (opOpen ino).run s = .ok fh s') :
    ∃ f, s'.openFiles.get fh = some f ∧ CacheOk f := by
  obtain ⟨head, s₁, -, h₁⟩ := run_bind_ok.mp hrun
  obtain ⟨r, s₂, hbuild, h₂⟩ := run_bind_ok.mp h₁
  obtain ⟨c, hbuild, -⟩ := liftStore_ok.mp hbuild
  obtain ⟨n, s₃, -, h₃⟩ := run_bind_ok.mp h₂
  cases n with
  | file fb =>
    obtain ⟨fh', s₄, -, h₄⟩ := run_bind_ok.mp h₃
    obtain ⟨u, s₅, hinsert, hret⟩ := run_bind_ok.mp h₄
    cases hret
    rw [insertHandle_ok] at hinsert
    subst hinsert
    exact ⟨_, by rw [HashMap.get_insert, if_pos rfl], openedFile_cacheOk (buildSlotMap_ne_nil hbuild)⟩
  | directory | fileData | fileIndex => cases h₃

theorem opCreate_handle {parent ino fh : Nat} {name : String} {s s' : VenomFuse σ}
    (hrun : (opCreate parent name).run s = .ok (ino, fh) s') :
    ∃ head, s'.openFiles.get fh = some (newFile ino head) := by
  obtain ⟨slot, s₁, -, h₁⟩ := run_bind_ok.mp hrun
  obtain ⟨head, s₂, -, h₂⟩ := run_bind_ok.mp h₁
  obtain ⟨u, s₃, -, h₃⟩ := run_bind_ok.mp h₂
  obtain ⟨ino', s₄, -, h₄⟩ := run_bind_ok.mp h₃
  obtain ⟨fh', s₅, -, h₅⟩ := run_bind_ok.mp h₄
  obtain ⟨u', s₆, hinsert, hret⟩ := run_bind_ok.mp h₅
  cases hret
  rw [insertHandle_ok] at hinsert
  subst hinsert
  exact ⟨head, by rw [HashMap.get_insert, if_pos rfl]⟩

/-! ## One call -/

theorem call_cacheOk {ord : IterOrder Nat} {call : HandleCall} {fh : Nat} {s s' : VenomFuse σ}
    {f : OpenFile} (hf : s.openFiles.get fh = some f) (hok : CacheOk f) (hon : call.On ord fh s)
    (hfits : call.Fits f) (hrun : (call.run ord fh).run s = .ok () s') :
    ∃ f', s'.openFiles.get fh = some f' ∧ CacheOk f' ∧
      (call.isWrite = true → (continuations (dirtyChunks f')).card ≤ writeThroughThreshold) := by
  have hget : ∀ (h' : Handle σ), (s.openFiles.insert fh h'.file).get fh = some h'.file :=
    fun h' => by rw [HashMap.get_insert, if_pos rfl]
  cases call with
  | read offset size =>
    change (opRead ord fh offset size >>= fun _ => pure ()).run s = _ at hrun
    obtain ⟨r, s₁, hread, hret⟩ := run_bind_ok.mp hrun
    cases hret
    rw [opRead_run hf] at hread
    obtain ⟨h', hloop, rfl⟩ := withHandle_ok.mp hread
    exact ⟨h'.file, hget h', readHandle_cached (h := ⟨s.container, f⟩) hok hfits hloop, fun hw => absurd hw Bool.false_ne_true⟩
  | write offset data =>
    change (opWrite ord fh offset data >>= fun _ => pure ()).run s = _ at hrun
    obtain ⟨n, s₁, hwrite, hret⟩ := run_bind_ok.mp hrun
    cases hret
    rw [opWrite_run hf] at hwrite
    obtain ⟨h', hloop, rfl⟩ := withHandle_ok.mp hwrite
    obtain ⟨hok', hfew⟩ := writeHandle_cached (h := ⟨s.container, f⟩) hok hfits.1 hfits.2 hloop
    exact ⟨h'.file, hget h', hok', fun _ => hfew⟩
  | resize ino hint newSize =>
    change (opSetattrSize ord ino hint newSize).run s = _ at hrun
    rw [opSetattrSize_handle hf hon] at hrun
    obtain ⟨h', hresize, rfl⟩ := withHandle_ok.mp hrun
    rw [modifyFile_ok] at hresize
    subst hresize
    exact ⟨_, hget _, resizeFile_cached newSize hok, fun hw => absurd hw Bool.false_ne_true⟩
  | flush =>
    change (opFlush ord fh).run s = _ at hrun
    rw [opFlush_run hf] at hrun
    obtain ⟨h', hflush, rfl⟩ := withHandle_ok.mp hrun
    exact ⟨h'.file, hget h', flushHandle_cached (h := ⟨s.container, f⟩) hok hflush, fun hw => absurd hw Bool.false_ne_true⟩

/-! ## Whole runs -/

theorem handleRun_cacheOk {fh : Nat} {s : VenomFuse σ} {wrote : Bool} (h : HandleRun True fh s wrote) :
    ∃ f, s.openFiles.get fh = some f ∧ CacheOk f ∧
      (wrote = true → (continuations (dirtyChunks f)).card ≤ writeThroughThreshold) := by
  induction h with
  | opened hrun =>
    obtain ⟨f, hf, hok⟩ := opOpen_cacheOk hrun
    exact ⟨f, hf, hok, nofun⟩
  | created hrun =>
    obtain ⟨head, hf⟩ := opCreate_handle hrun
    exact ⟨_, hf, newFile_cacheOk _ _, nofun⟩
  | step ord call _ hon hfits hrun ih =>
    obtain ⟨f, hf, hok, -⟩ := ih
    exact call_cacheOk hf hok hon (hfits trivial f hf) hrun

/-- The file grown to `newSize` and cut back, over and over, each time one chunk later. -/
def cuts (newSize : Nat) (f : OpenFile) : Nat → OpenFile
  | 0 => f
  | n + 1 => resizeFile ((n + 1) * chunkSize + 1) (resizeFile newSize (cuts newSize f n))

/-- The marks are there, and nothing is cached. -/
structure Marked (f : OpenFile) (n : Nat) : Prop where
  cache : ∀ i, f.cache.get i = none
  dirty : ∀ i, i ∈ f.dirty ↔ 1 ≤ i ∧ i ≤ n
  totalSize : f.totalSize ≤ n * chunkSize + 1

theorem lastChunk_cut (n : Nat) : lastChunk ((n + 1) * chunkSize + 1) = n + 1 := by
  rw [lastChunk, if_neg (Nat.succ_ne_zero _), Nat.add_sub_cancel,
    Nat.mul_div_cancel _ chunkSize_pos]

theorem Marked.cut {newSize n : Nat} {f : OpenFile} (h : Marked f n)
    (hroom : (n + 1) * chunkSize + 1 < newSize) :
    Marked (resizeFile ((n + 1) * chunkSize + 1) (resizeFile newSize f)) (n + 1) := by
  have hsize := h.totalSize
  have hlen : (n + 1) * chunkSize = n * chunkSize + chunkSize := Nat.succ_mul _ _
  have hgrow : resizeFile newSize f = { f with totalSize := newSize, metaDirty := true } := by
    rw [resizeFile, if_neg (by omega)]
    dsimp only
    rw [if_neg (by omega)]
  have hcut : resizeFile ((n + 1) * chunkSize + 1) (resizeFile newSize f) =
      { truncateFile ((n + 1) * chunkSize + 1) (resizeFile newSize f) with
        totalSize := (n + 1) * chunkSize + 1
        metaDirty := true } := by
    rw [hgrow, resizeFile, if_neg (by dsimp only; omega)]
    dsimp only
    rw [if_pos hroom]
  rw [hcut]
  refine ⟨fun i => ?_, fun i => ?_, le_rfl⟩
  · change (truncateFile _ (resizeFile newSize f)).cache.get i = none
    have hnone : (resizeFile newSize f).cache.get i = none := by
      rw [hgrow]
      exact h.cache i
    rw [truncateFile_get, hnone]
    split
    · rfl
    · split <;> rfl
  · change i ∈ (truncateFile _ (resizeFile newSize f)).dirty ↔ _
    rw [truncateFile_dirty, lastChunk_cut, hgrow]
    change (i ∈ f.dirty ∧ _) ∨ _ ↔ _
    rw [h.dirty]
    omega

theorem cuts_marked {newSize : Nat} {f : OpenFile} (h : Marked f 0) (n : Nat)
    (hroom : n * chunkSize + 1 < newSize) : Marked (cuts newSize f n) n := by
  induction n with
  | zero => exact h
  | succ n ih =>
    have hlen : (n + 1) * chunkSize = n * chunkSize + chunkSize := Nat.succ_mul _ _
    exact (ih (by omega)).cut hroom

theorem cuts_same (newSize : Nat) (f : OpenFile) (n : Nat) :
    (cuts newSize f n).slotMap = f.slotMap ∧ (cuts newSize f n).headSlot = f.headSlot := by
  induction n with
  | zero => exact ⟨rfl, rfl⟩
  | succ n ih =>
    have hr := resizeFile_resized newSize (cuts newSize f n)
    have hr' := resizeFile_resized ((n + 1) * chunkSize + 1) (resizeFile newSize (cuts newSize f n))
    exact ⟨(hr'.slotMap.trans hr.slotMap).trans ih.1, (hr'.headSlot.trans hr.headSlot).trans ih.2⟩

/-- A resize in a run. -/
theorem HandleRun.resized {fh : Nat} {s : VenomFuse σ} {f : OpenFile}
    (h : HandleRun False fh s false) (hf : s.openFiles.get fh = some f) (newSize : Nat) :
    ∃ s' : VenomFuse σ, HandleRun False fh s' false ∧
      s'.openFiles.get fh = some (resizeFile newSize f) ∧ s'.container = s.container := by
  have hrun : (opSetattrSize .listed f.ino (some fh) newSize).run s = .ok ()
      { s with
        container := s.container
        openFiles := s.openFiles.insert fh (resizeFile newSize f) } := by
    rw [opSetattrSize_run hf]
    exact withHandle_ok.mpr ⟨_, modifyFile_ok.mpr rfl, rfl⟩
  exact ⟨_, h.step .listed (.resize f.ino (some fh) newSize) rfl nofun hrun,
    by rw [HashMap.get_insert, if_pos rfl], rfl⟩

theorem HandleRun.cuts {fh : Nat} {s : VenomFuse σ} {f : OpenFile} (newSize : Nat)
    (h : HandleRun False fh s false) (hf : s.openFiles.get fh = some f) (n : Nat) :
    ∃ s' : VenomFuse σ, HandleRun False fh s' false ∧
      s'.openFiles.get fh = some (cuts newSize f n) ∧ s'.container = s.container := by
  induction n with
  | zero => exact ⟨s, h, hf, rfl⟩
  | succ n ih =>
    obtain ⟨s₁, h₁, hf₁, hc₁⟩ := ih
    obtain ⟨s₂, h₂, hf₂, hc₂⟩ := h₁.resized hf₁ newSize
    obtain ⟨s₃, h₃, hf₃, hc₃⟩ := h₂.resized hf₂ ((n + 1) * chunkSize + 1)
    exact ⟨s₃, h₃, hf₃, hc₃.trans (hc₂.trans hc₁)⟩

/-! ## A write that meets the marks -/

/-- Write-through skips what is not cached. -/
theorem writeThroughFlush_skips {h : Handle σ} (ord : IterOrder Nat) (n : Nat)
    (hskip : ∀ i ∈ cachedChunks h.file, i = 0) : (writeThroughFlush ord n).run h = .ok () h := by
  let cis := ((ord.order h.file.dirty.elems).filter (1 ≤ ·)).mergeSort (· ≤ ·)
  have hloop : ∃ s, ((cis.take n).forM writeThroughChunk).run h = .ok () s ∧ s = h := by
    refine forM_total (fun _ s => s = h) rfl fun done ci rest s hl hs => ?_
    subst hs
    have hci : ci ∈ cis := List.mem_of_mem_take (i := n) (by simp [hl])
    have hpos : 1 ≤ ci := by simpa using (List.mem_filter.mp (List.mem_mergeSort.mp hci)).2
    have hout : ¬ (s.file.cache.containsKey ci = true ∧ ci < s.file.slotMap.length) := by
      rintro ⟨hkey, -⟩
      have hzero := hskip ci (mem_cachedChunks.mpr ((HashMap.containsKey_eq_true _ _).mp hkey))
      omega
    refine ⟨s, ?_, rfl⟩
    unfold writeThroughChunk
    rw [run_bind_of_ok run_get, if_neg hout]
    rfl
  obtain ⟨s, hrun, rfl⟩ := hloop
  exact hrun

/-- A piece of chunk 0 can be written when the chunk can be read. -/
theorem writePiece_chunk0 {h : Handle σ} {d : List UInt8} (ord : IterOrder Nat) (stop : Nat)
    (piece : List UInt8) (hcache : h.file.cache.get 0 = none) (hmap : h.file.slotMap ≠ [])
    (hdisk : diskChunk h.container h.file 0 = some d) :
    ∃ h', (writePiece ord stop 0 piece).run h = .ok () h' := by
  have hsame : extendSlotMap 0 h.file = h.file := by
    rw [extendSlotMap, if_neg (Nat.not_le.mpr (List.length_pos_iff.mpr hmap))]
  have hkey : ¬ h.file.cache.containsKey 0 = true := by
    rw [HashMap.containsKey_eq_true, hcache]
    rintro ⟨d, hd⟩
    cases hd
  have hext : (modifyFile (extendSlotMap 0) : HandleM σ Unit).run h = .ok () h :=
    modifyFile_ok.mpr (by rw [hsame])
  have hload : (loadForWrite ord 0).run h =
      .ok () { h with file := cacheInsert 0 d (evict ord h.file) } := by
    have hread : (loadChunk 0).run h = .ok d h := by rw [loadChunk_eq, hdisk]; rfl
    unfold loadForWrite
    rw [run_bind_of_ok run_get, if_neg hkey, if_pos (.inr rfl)]
    unfold ensureCached
    rw [run_bind_of_ok run_get, if_neg hkey, run_bind_of_ok hread]
    exact modifyFile_ok.mpr rfl
  have hget : (cacheInsert 0 d (evict ord h.file)).cache.get 0 = some d := by
    rw [cacheInsert, HashMap.get_insert, if_pos rfl]
  unfold writePiece
  dsimp only
  rw [Nat.zero_div, run_bind_of_ok hext, run_bind_of_ok hload, run_bind_of_ok run_get, hget]
  exact ⟨_, modifyFile_ok.mpr rfl⟩

/-- A byte written to chunk 0 leaves all the marks. -/
theorem Marked.write {h : Handle σ} {n : Nat} {d : List UInt8} (hm : Marked h.file n)
    (ord : IterOrder Nat) (b : UInt8) (hmap : h.file.slotMap ≠ [])
    (hdisk : diskChunk h.container h.file 0 = some d) :
    ∃ h', (writeHandle ord 0 [b]).run h = .ok 1 h' ∧ dirtyContinuations h'.file = n := by
  obtain ⟨h', hpiece⟩ := writePiece_chunk0 ord 1 [b] (hm.cache 0) hmap hdisk
  have ht := writePiece_touched hpiece
  have hloop : (writeLoop ord 0 [b] 0).run h = .ok () h' := by
    rw [writeLoop, if_pos (show 0 < 0 + [b].length from Nat.zero_lt_one)]
    refine run_bind_ok.mpr ⟨(), h', hpiece, ?_⟩
    change (writeLoop ord 0 [b] 1).run h' = _
    rw [writeLoop, if_neg (show ¬ 1 < 0 + [b].length from Nat.lt_irrefl 1)]
    rfl
  have hcached : ∀ i ∈ cachedChunks h'.file, i = 0 := by
    intro i hi
    rcases Finset.mem_insert.mp (ht.cached.subset hi) with rfl | hi
    · exact Nat.zero_div _
    · obtain ⟨d', hd'⟩ := mem_cachedChunks.mp hi
      rw [hm.cache] at hd'
      cases hd'
  have hcount : dirtyContinuations h'.file = n := by
    have hset : continuations (dirtyChunks h'.file) = Finset.Icc 1 n := by
      ext i
      rw [ht.dirty, continuations, Finset.mem_filter, Finset.mem_insert, mem_dirtyChunks, hm.dirty,
        Finset.mem_Icc, Nat.zero_div]
      omega
    rw [← card_continuations, hset, Nat.card_Icc, Nat.add_sub_cancel]
  refine ⟨h', ?_, hcount⟩
  unfold writeHandle
  rw [run_bind_of_ok hloop, run_bind_of_ok run_get]
  dsimp only
  split
  next => rw [run_bind_of_ok (writeThroughFlush_skips ord _ hcached)]; rfl
  next => rfl

/-- Any number of marks can be made, and none of them goes away with a write. -/
theorem HandleRun.marks {fh : Nat} {s : VenomFuse σ} {f : OpenFile} {d : List UInt8}
    (h : HandleRun False fh s false) (hf : s.openFiles.get fh = some f) (hm : Marked f 0)
    (hmap : f.slotMap ≠ []) (hdisk : diskChunk s.container f 0 = some d) (n : Nat) :
    ∃ s' : VenomFuse σ, HandleRun False fh s' true ∧
      ∃ f', s'.openFiles.get fh = some f' ∧ dirtyContinuations f' = n := by
  let newSize := n * chunkSize + 2
  obtain ⟨s₁, hcut, hf₁, hc⟩ := h.cuts newSize hf n
  obtain ⟨hslots, hhead⟩ := cuts_same newSize f n
  have hm₁ := cuts_marked hm n (Nat.lt_succ_self (n * chunkSize + 1))
  have hdisk₁ : diskChunk s₁.container (Fuse.cuts newSize f n) 0 = some d := by
    rw [diskChunk_congr hslots hhead, hc]
    exact hdisk
  obtain ⟨h', hwrite, hcount⟩ := Marked.write (h := ⟨s₁.container, Fuse.cuts newSize f n⟩) hm₁
    .listed 7 (by rw [hslots]; exact hmap) hdisk₁
  have hrun : (opWrite .listed fh 0 [7]).run s₁ = .ok 1
      { s₁ with container := h'.container, openFiles := s₁.openFiles.insert fh h'.file } := by
    rw [opWrite_run hf₁]
    exact withHandle_ok.mpr ⟨h', hwrite, rfl⟩
  refine ⟨_, hcut.step .listed (.write 0 [7]) (show 1 ≤ chunkSize from chunkSize_pos) nofun
    (run_bind_ok.mpr ⟨1, _, hrun, rfl⟩), h'.file, ?_, hcount⟩
  rw [HashMap.get_insert, if_pos rfl]

end Venom.Fuse
