import Mathlib.Order.Interval.Finset.Nat
import Venom.Fuse.ChunkReads
import Venom.Library.BoundedCache

/-! # The bound of the chunk cache

A handle keeps at most `maxCacheChunks` chunks, and after a write at most
`writeThroughThreshold` dirty continuation chunks.  Three paths bring chunks into the cache
and only `ensure_cached` makes room; a truncation marks a chunk that may not be cached, and
write-through skips such a chunk.  The bounds are kept by every step in which a brand-new
chunk finds room, a read finds a clean chunk to drop, and write-through finds enough of its
chunks in the cache.
-/

namespace Venom.Fuse

open Venom.Storage
open Venom.Library
open Venom.Library.BoundedCache
open Venom.Library.StateError

variable {σ : Type} [NodeStore σ]

/-! ## The chunks of a handle -/

def cachedChunks (f : OpenFile) : Finset Nat := f.cache.keys.toFinset

def dirtyChunks (f : OpenFile) : Finset Nat := f.dirty.elems.toFinset

/-- Chunk 0 is written with the head. -/
def continuations (s : Finset Nat) : Finset Nat := s.filter (1 ≤ ·)

/-- The chunks of the positions from `pos` to `stop`. -/
def chunksOf (pos stop : Nat) : Finset Nat := (Finset.Ico pos stop).image (· / chunkSize)

section Sets

variable {f : OpenFile} {i : Nat}

theorem mem_cachedChunks : i ∈ cachedChunks f ↔ ∃ d, f.cache.get i = some d := by
  rw [cachedChunks, List.mem_toFinset, HashMap.mem_keys, Option.isSome_iff_exists]

theorem mem_dirtyChunks : i ∈ dirtyChunks f ↔ i ∈ f.dirty := List.mem_toFinset

theorem card_cachedChunks (f : OpenFile) : (cachedChunks f).card = f.cache.len := by
  rw [cachedChunks, List.toFinset_card_of_nodup f.cache.nodup_keys, HashMap.length_keys]

theorem continuations_dirtyChunks (f : OpenFile) :
    continuations (dirtyChunks f) = (f.dirty.elems.filter (1 ≤ ·)).toFinset := by
  rw [continuations, dirtyChunks, List.toFinset_filter]
  simp

theorem card_continuations (f : OpenFile) :
    (continuations (dirtyChunks f)).card = dirtyContinuations f := by
  rw [continuations_dirtyChunks, List.toFinset_card_of_nodup (f.dirty.nodup.filter _)]
  rfl

theorem continuations_sdiff (s t : Finset Nat) : continuations (s \ t) = continuations s \ t := by
  ext j
  simp only [continuations, Finset.mem_filter, Finset.mem_sdiff]
  tauto

/-- One chunk more with chunk 0. -/
theorem card_le_continuations (s : Finset Nat) : s.card ≤ (continuations s).card + 1 := by
  have hsub : s ⊆ insert 0 (continuations s) := by
    intro j hj
    rcases Nat.eq_zero_or_pos j with rfl | hpos
    · exact Finset.mem_insert_self _ _
    · exact Finset.mem_insert_of_mem (Finset.mem_filter.mpr ⟨hj, hpos⟩)
  exact (Finset.card_le_card hsub).trans (Finset.card_insert_le _ _)

@[simp] theorem cachedChunks_cacheInsert (ci : Nat) (d : List UInt8) (f : OpenFile) :
    cachedChunks (cacheInsert ci d f) = insert ci (cachedChunks f) := by
  ext j
  rw [mem_cachedChunks, Finset.mem_insert, mem_cachedChunks, cacheInsert]
  by_cases hj : j = ci <;> simp [hj]

theorem mem_chunksOf {pos stop : Nat} : i ∈ chunksOf pos stop ↔ ∃ p, pos ≤ p ∧ p < stop ∧ p / chunkSize = i := by
  simp [chunksOf, and_assoc]

theorem chunksOf_self (pos : Nat) : chunksOf pos pos = ∅ := by simp [chunksOf]

/-- A piece that does not leave its chunk adds that chunk. -/
theorem chunksOf_piece {pos p n : Nat} (hpos : pos ≤ p) (hn : 0 < n)
    (hfit : p % chunkSize + n ≤ chunkSize) :
    chunksOf pos (p + n) = insert (p / chunkSize) (chunksOf pos p) := by
  have hsplit := chunk_split p
  ext j
  rw [Finset.mem_insert, mem_chunksOf, mem_chunksOf]
  constructor
  · rintro ⟨q, hle, hlt, rfl⟩
    by_cases hq : q < p
    · exact .inr ⟨q, hle, hq, rfl⟩
    · have hoff : q = p / chunkSize * chunkSize + (p % chunkSize + (q - p)) := by omega
      left
      rw [hoff, div_chunk (by omega)]
  · rintro (rfl | ⟨q, hle, hlt, rfl⟩)
    · exact ⟨p, hpos, by omega, rfl⟩
    · exact ⟨q, hle, by omega, rfl⟩

theorem chunksOf_mono {pos pos' stop : Nat} (h : pos ≤ pos') : chunksOf pos' stop ⊆ chunksOf pos stop :=
  Finset.image_subset_image (Finset.Ico_subset_Ico_left h)

end Sets

/-! ## Making room -/

/-- Evicting takes out a clean chunk of a full cache, if there is one. -/
theorem evict_cases (ord : IterOrder Nat) (f : OpenFile) :
    (evict ord f = f ∧ ((cachedChunks f).card < maxCacheChunks ∨ cachedChunks f ⊆ dirtyChunks f)) ∨
    ∃ old, old ∈ cachedChunks f ∧ old ∉ dirtyChunks f ∧
      evict ord f = { f with cache := f.cache.remove old } := by
  unfold evict
  split
  next hfull =>
    split
    next old hold =>
      have hclean : old ∉ f.dirty := by simpa using List.find?_some hold
      have hmem : old ∈ f.cache.keys := (ord.mem_order).mp (List.mem_of_find?_eq_some hold)
      exact .inr ⟨old, List.mem_toFinset.mpr hmem, mt mem_dirtyChunks.mp hclean, rfl⟩
    next hnone =>
      refine .inl ⟨rfl, .inr fun j hj => ?_⟩
      have hall := List.find?_eq_none.mp hnone j ((ord.mem_order).mpr (List.mem_toFinset.mp hj))
      exact mem_dirtyChunks.mpr (by simpa using hall)
  next hroom =>
    refine .inl ⟨rfl, .inl ?_⟩
    rw [card_cachedChunks]
    exact Nat.not_le.mp hroom

theorem cachedChunks_remove (f : OpenFile) (old : Nat) :
    cachedChunks { f with cache := f.cache.remove old } = (cachedChunks f).erase old := by
  ext j
  rw [mem_cachedChunks, Finset.mem_erase, mem_cachedChunks]
  by_cases hj : j = old <;> simp [hj]

/-- Loading a chunk through the cache.  Nothing else of the handle changes. -/
theorem ensureCached_load {h h' : Handle σ} {ord : IterOrder Nat} {ci : Nat} {u : Unit}
    (hrun : (ensureCached ord ci).run h = .ok u h') :
    (∃ m, h'.file = { h.file with cache := m }) ∧
      Load maxCacheChunks (dirtyChunks h.file) ci (cachedChunks h.file) (cachedChunks h'.file) ∧
      (ci ∈ cachedChunks h.file ∨ ci < h.file.slotMap.length) := by
  obtain ⟨_, _, hget, hcont⟩ := run_bind_ok.mp hrun
  cases hget
  split at hcont
  next hin =>
    cases hcont
    have hmem := mem_cachedChunks.mpr ((HashMap.containsKey_eq_true _ _).mp hin)
    exact ⟨⟨h.file.cache, rfl⟩, .hit hmem, .inl hmem⟩
  next hout =>
    have hnot : ci ∉ cachedChunks h.file := fun hmem =>
      hout ((HashMap.containsKey_eq_true _ _).mpr (mem_cachedChunks.mp hmem))
    obtain ⟨d, h₁, hload, hmod⟩ := run_bind_ok.mp hcont
    rw [loadChunk_eq] at hload
    have hmapped : ci < h.file.slotMap.length := by
      by_contra hge
      have hnone : diskChunk h.container h.file ci = none := by
        rw [diskChunk, List.getElem?_eq_none (Nat.not_lt.mp hge)]
      rw [hnone] at hload
      cases hload
    cases hdisk : diskChunk h.container h.file ci with
    | none => rw [hdisk] at hload; cases hload
    | some bytes =>
      rw [hdisk] at hload
      cases hload
      rw [modifyFile_ok] at hmod
      subst hmod
      have hfile : ∃ m, cacheInsert ci d (evict ord h.file) = { h.file with cache := m } := by
        obtain ⟨⟨m, hm⟩, -⟩ := (evict_recached ord h.file).1
        exact ⟨_, by rw [hm]; rfl⟩
      refine ⟨hfile, ?_, .inr hmapped⟩
      rw [cachedChunks_cacheInsert]
      rcases evict_cases ord h.file with ⟨heq, hroom | hdirty⟩ | ⟨old, hold, hclean, heq⟩
      · rw [heq]; exact .room hroom
      · rw [heq]; exact .overfull hdirty
      · rw [heq, cachedChunks_remove]; exact .replaced old hold hclean hnot

/-! ## What holds between the operations -/

/-- The cache is within its bound, and its chunks lie in the slot map and in the file. -/
structure CacheOk (f : OpenFile) : Prop where
  bounded : (cachedChunks f).card ≤ maxCacheChunks
  mapped : ∀ i ∈ cachedChunks f, i < f.slotMap.length ∧ i < chunkLimit f.totalSize

/-! ## Reading -/

/-- A read of chunks that are all cached, or one that leaves a clean chunk to drop. -/
def RoomToRead (f : OpenFile) (pos stop : Nat) : Prop :=
  chunksOf pos stop ⊆ cachedChunks f ∨
    (dirtyChunks f ∩ (cachedChunks f ∪ chunksOf pos stop)).card < maxCacheChunks

instance (f : OpenFile) (pos stop : Nat) : Decidable (RoomToRead f pos stop) :=
  inferInstanceAs (Decidable (_ ∨ _))

/-- One chunk of a read. -/
theorem ensureCached_read {h h' : Handle σ} {ord : IterOrder Nat} {pos n stop : Nat} {u : Unit}
    (hok : CacheOk h.file) (hroom : RoomToRead h.file pos stop) (hlt : pos < stop)
    (hstop : stop ≤ h.file.totalSize)
    (hrun : (ensureCached ord (pos / chunkSize)).run h = .ok u h') :
    CacheOk h'.file ∧ RoomToRead h'.file (pos + n) stop ∧
      h'.file.totalSize = h.file.totalSize := by
  obtain ⟨⟨m, hm⟩, hload, hmapped⟩ := ensureCached_load hrun
  have hdirty : dirtyChunks h'.file = dirtyChunks h.file := by rw [hm]; rfl
  have hmem : pos / chunkSize ∈ chunksOf pos stop := mem_chunksOf.mpr ⟨pos, le_rfl, hlt, rfl⟩
  have hrest : chunksOf (pos + n) stop ⊆ chunksOf pos stop := chunksOf_mono (Nat.le_add_right _ _)
  have hin : ∀ i ∈ cachedChunks h'.file, i < h'.file.slotMap.length ∧ i < chunkLimit h'.file.totalSize := by
    intro i hi
    rw [hm]
    rcases Finset.mem_insert.mp (hload.subset hi) with rfl | hi
    · exact ⟨hmapped.elim (fun hc => (hok.mapped _ hc).1) id, div_lt_chunkLimit (hlt.trans_le hstop)⟩
    · exact hok.mapped i hi
  refine ⟨⟨?_, hin⟩, ?_, by rw [hm]⟩
  · rcases hroom with hall | hfew
    · rw [hload.eq_of_mem (hall hmem)]
      exact hok.bounded
    · refine hload.card_le hok.bounded (lt_of_le_of_lt (Finset.card_le_card ?_) hfew)
      exact Finset.inter_subset_inter_left Finset.subset_union_left
  · rcases hroom with hall | hfew
    · left
      rw [hload.eq_of_mem (hall hmem)]
      exact hrest.trans hall
    · right
      rw [hdirty]
      refine lt_of_le_of_lt (Finset.card_le_card (Finset.inter_subset_inter_left ?_)) hfew
      refine Finset.union_subset (hload.subset.trans ?_) (hrest.trans Finset.subset_union_right)
      exact Finset.insert_subset (Finset.mem_union_right _ hmem) Finset.subset_union_left

theorem readLoop_cached {h h' : Handle σ} {ord : IterOrder Nat} {stop pos : Nat}
    {acc r : List UInt8} (hok : CacheOk h.file) (hroom : RoomToRead h.file pos stop)
    (hstop : stop ≤ h.file.totalSize) (hrun : (readLoop ord stop pos acc).run h = .ok r h') :
    CacheOk h'.file := by
  induction hn : stop - pos using Nat.strongRecOn generalizing pos acc h with
  | _ n ih =>
    rw [readLoop] at hrun
    split at hrun
    next hlt =>
      obtain ⟨_, h₁, hensure, hcont⟩ := run_bind_ok.mp hrun
      obtain ⟨_, _, hget, hbody⟩ := run_bind_ok.mp hcont
      cases hget
      split at hbody
      next => cases hbody
      next data _ =>
        let take := min (data.length - pos % chunkSize) (stop - pos)
        obtain ⟨hok₁, hroom₁, htotal⟩ := @ensureCached_read _ _ _ _ _ pos take stop _ hok hroom hlt hstop
          hensure
        dsimp only at hbody
        split at hbody
        next =>
          cases hbody
          exact hok₁
        next hpos =>
          exact ih (stop - (pos + take)) (by omega) hok₁ hroom₁ (by rw [htotal]; exact hstop) hbody rfl
    next =>
      cases hrun
      exact hok

theorem readHandle_cached {h h' : Handle σ} {ord : IterOrder Nat} {offset size : Nat}
    {r : List UInt8} (hok : CacheOk h.file)
    (hroom : RoomToRead h.file offset (min (offset + size) h.file.totalSize))
    (hrun : (readHandle ord offset size).run h = .ok r h') : CacheOk h'.file := by
  obtain ⟨_, _, hget, hcont⟩ := run_bind_ok.mp hrun
  cases hget
  dsimp only at hcont
  split at hcont
  next =>
    cases hcont
    exact hok
  next => exact readLoop_cached hok hroom (Nat.min_le_right _ _) hcont

/-! ## Writing in the cache -/

/-- A brand-new chunk: it has no slot, and no dirty copy that would stay in the cache. -/
def BrandNew (f : OpenFile) (ci : Nat) : Prop :=
  1 ≤ ci ∧ f.slotMap[ci]?.join = none ∧ ¬ (ci ∈ cachedChunks f ∧ ci ∈ dirtyChunks f)

instance (f : OpenFile) (ci : Nat) : Decidable (BrandNew f ci) :=
  inferInstanceAs (Decidable (_ ∧ _))

/-- Each brand-new chunk of a write finds room next to the cached chunks and the chunks
    written before it. -/
def RoomForNew (f : OpenFile) (pos stop : Nat) : Prop :=
  ∀ ci ∈ chunksOf pos stop, BrandNew f ci →
    (cachedChunks f ∪ (chunksOf pos stop).filter (· ≤ ci)).card ≤ maxCacheChunks

instance (f : OpenFile) (pos stop : Nat) : Decidable (RoomForNew f pos stop) :=
  inferInstanceAs (Decidable (∀ ci ∈ chunksOf pos stop, _))

/-- Chunk `ci` gets into the cache of a handle: through `ensureCached`, or as a brand-new
    chunk for which no room is made. -/
def Enters (ci : Nat) (f : OpenFile) (cached : Finset Nat) : Prop :=
  Load maxCacheChunks (dirtyChunks f) ci (cachedChunks f) cached ∨
    (ci ∉ cachedChunks f ∧ 1 ≤ ci ∧ f.slotMap[ci]?.join = none ∧ cached = insert ci (cachedChunks f))

namespace Enters

variable {ci : Nat} {f : OpenFile} {cached : Finset Nat}

theorem mem (h : Enters ci f cached) : ci ∈ cached := by
  rcases h with hload | ⟨-, -, -, rfl⟩
  · exact hload.mem
  · exact Finset.mem_insert_self _ _

theorem subset (h : Enters ci f cached) : cached ⊆ insert ci (cachedChunks f) := by
  rcases h with hload | ⟨-, -, -, rfl⟩
  · exact hload.subset
  · exact Finset.Subset.refl _

theorem keeps (h : Enters ci f cached) {i : Nat} (hi : i ∈ cachedChunks f) (hd : i ∈ dirtyChunks f) :
    i ∈ cached := by
  rcases h with hload | ⟨-, -, -, rfl⟩
  · exact hload.keeps hi hd
  · exact Finset.mem_insert_of_mem hi

end Enters

theorem loadForWrite_enters {h h' : Handle σ} {ord : IterOrder Nat} {ci : Nat} {u : Unit}
    (hrun : (loadForWrite ord ci).run h = .ok u h') :
    (∃ m, h'.file = { h.file with cache := m }) ∧ Enters ci h.file (cachedChunks h'.file) := by
  obtain ⟨_, _, hget, hcont⟩ := run_bind_ok.mp hrun
  cases hget
  split at hcont
  next hin =>
    cases hcont
    have hmem := mem_cachedChunks.mpr ((HashMap.containsKey_eq_true _ _).mp hin)
    exact ⟨⟨h.file.cache, rfl⟩, .inl (.hit hmem)⟩
  next hout =>
    have hnot : ci ∉ cachedChunks h.file := fun hmem =>
      hout ((HashMap.containsKey_eq_true _ _).mpr (mem_cachedChunks.mp hmem))
    split at hcont
    next =>
      obtain ⟨hfile, hload, -⟩ := ensureCached_load hcont
      exact ⟨hfile, .inl hload⟩
    next hnew =>
      rw [modifyFile_ok] at hcont
      subst hcont
      obtain ⟨hslot, hci⟩ := not_or.mp hnew
      refine ⟨⟨_, rfl⟩, .inr ⟨hnot, by omega, by simpa using hslot, ?_⟩⟩
      exact cachedChunks_cacheInsert _ _ _

/-- What one piece of a write, in chunk `ci`, does to the handle. -/
structure Touched (ci stop : Nat) (f f' : OpenFile) : Prop where
  dirty : dirtyChunks f' = insert ci (dirtyChunks f)
  cached : Enters ci f (cachedChunks f')
  slotMap : ∃ k, f'.slotMap = f.slotMap ++ List.replicate k none
  mapped : ci < f'.slotMap.length
  totalSize : f'.totalSize = max stop f.totalSize

theorem writePiece_touched {h h' : Handle σ} {ord : IterOrder Nat} {stop pos : Nat}
    {piece : List UInt8} {u : Unit} (hrun : (writePiece ord stop pos piece).run h = .ok u h') :
    Touched (pos / chunkSize) stop h.file h'.file := by
  obtain ⟨_, h₁, hext, hcont⟩ := run_bind_ok.mp hrun
  rw [modifyFile_ok] at hext
  subst hext
  obtain ⟨_, h₂, hload, hcont₂⟩ := run_bind_ok.mp hcont
  obtain ⟨_, _, hget, hbody⟩ := run_bind_ok.mp hcont₂
  cases hget
  split at hbody
  next => cases hbody
  next chunk _ =>
    rw [modifyFile_ok] at hbody
    subst hbody
    let ci := pos / chunkSize
    obtain ⟨⟨k, hk⟩, hlong⟩ := extendSlotMap_slotMap ci h.file
    obtain ⟨-, htotal, hdirty, hcache⟩ := extendSlotMap_written ci h.file
    obtain ⟨⟨m, hm⟩, henters⟩ := loadForWrite_enters hload
    have hcached₁ : cachedChunks (extendSlotMap ci h.file) = cachedChunks h.file := by
      rw [cachedChunks, hcache, cachedChunks]
    have hdirty₁ : dirtyChunks (extendSlotMap ci h.file) = dirtyChunks h.file := by
      rw [dirtyChunks, hdirty, dirtyChunks]
    -- the patch overwrites a chunk that is cached by now
    have hcached₂ : cachedChunks (patchChunk ci (pos % chunkSize) stop chunk piece h₂.file) =
        cachedChunks h₂.file :=
      (cachedChunks_cacheInsert ci _ h₂.file).trans (Finset.insert_eq_of_mem henters.mem)
    refine ⟨?_, ?_, ⟨k, ?_⟩, ?_, ?_⟩
    · ext j
      rw [Finset.mem_insert, mem_dirtyChunks, mem_dirtyChunks]
      change j ∈ h₂.file.dirty.insert ci ↔ _
      rw [HashSet.mem_insert, hm]
      change j = ci ∨ j ∈ (extendSlotMap ci h.file).dirty ↔ _
      rw [hdirty]
    · change Enters ci h.file (cachedChunks (patchChunk ci _ stop chunk piece h₂.file))
      rw [hcached₂]
      unfold Enters at henters ⊢
      rw [hcached₁, hdirty₁, hk, join_append_replicate_none] at henters
      exact henters
    · change h₂.file.slotMap = _
      rw [hm]
      exact hk
    · change ci < h₂.file.slotMap.length
      rw [hm]
      exact hlong
    · change max stop h₂.file.totalSize = _
      rw [hm]
      exact congrArg (max stop) htotal

/-- The handle `f` after the chunks `done` of a write that began with `f₀`. -/
structure Writing (f₀ : OpenFile) (done : Finset Nat) (f : OpenFile) : Prop where
  dirty : dirtyChunks f = dirtyChunks f₀ ∪ done
  subset : cachedChunks f ⊆ cachedChunks f₀ ∪ done
  keeps : ∀ i ∈ cachedChunks f₀, i ∈ dirtyChunks f₀ → i ∈ cachedChunks f
  written : done ⊆ cachedChunks f
  slots : ∀ i : Nat, f.slotMap[i]?.join = f₀.slotMap[i]?.join
  mapped : ∀ i ∈ cachedChunks f, i < f.slotMap.length ∧ i < chunkLimit f.totalSize
  settled : Settled maxCacheChunks (dirtyChunks f) (cachedChunks f)

theorem CacheOk.writing {f : OpenFile} (h : CacheOk f) : Writing f ∅ f where
  dirty := (Finset.union_empty _).symm
  subset := Finset.subset_union_left
  keeps _ hi _ := hi
  written := Finset.empty_subset _
  slots _ := rfl
  mapped := h.mapped
  settled := .inl h.bounded

/-- One chunk more. -/
theorem Writing.touched {f₀ f f' : OpenFile} {done : Finset Nat} {ci stop : Nat}
    (hw : Writing f₀ done f) (ht : Touched ci stop f f') (hci : ci < chunkLimit stop)
    (hroom : BrandNew f₀ ci → (insert ci (cachedChunks f₀ ∪ done)).card ≤ maxCacheChunks) :
    Writing f₀ (insert ci done) f' := by
  obtain ⟨k, hk⟩ := ht.slotMap
  refine ⟨?_, ?_, fun i hi hd => ?_, ?_, fun i => ?_, fun i hi => ?_, ?_⟩
  · rw [ht.dirty, hw.dirty, Finset.union_insert]
  · rw [Finset.union_insert]
    exact ht.cached.subset.trans (Finset.insert_subset_insert _ hw.subset)
  · refine ht.cached.keeps (hw.keeps i hi hd) ?_
    rw [hw.dirty]
    exact Finset.mem_union_left _ hd
  · refine Finset.insert_subset ht.cached.mem fun i hi => ht.cached.keeps (hw.written hi) ?_
    rw [hw.dirty]
    exact Finset.mem_union_right _ hi
  · rw [hk, join_append_replicate_none, hw.slots]
  · rw [ht.totalSize]
    rcases Finset.mem_insert.mp (ht.cached.subset hi) with rfl | hi
    · exact ⟨ht.mapped, hci.trans_le (chunkLimit_mono (Nat.le_max_left _ _))⟩
    · obtain ⟨hlen, hlim⟩ := hw.mapped i hi
      refine ⟨?_, hlim.trans_le (chunkLimit_mono (Nat.le_max_right _ _))⟩
      rw [hk, List.length_append]
      omega
  · rw [ht.dirty]
    rcases ht.cached with hload | ⟨hnot, hpos, hslot, heq⟩
    · exact hload.settled hw.settled
    · -- a chunk without a slot that is not cached now was brand-new from the start
      have hnew : BrandNew f₀ ci := by
        refine ⟨hpos, ?_, fun hboth => hnot (hw.keeps ci hboth.1 hboth.2)⟩
        rw [← hw.slots]
        exact hslot
      rw [heq]
      exact .inl ((Finset.card_le_card (Finset.insert_subset_insert _ hw.subset)).trans (hroom hnew))

/-- The loop of a write, from `offset` on; what is before `pos` has been written. -/
theorem writeLoop_writing {f₀ : OpenFile} {h h' : Handle σ} {ord : IterOrder Nat}
    {offset pos : Nat} {data : List UInt8} {u : Unit} (hw : Writing f₀ (chunksOf offset pos) h.file)
    (hpos : offset ≤ pos) (hend : pos ≤ offset + data.length)
    (hroom : RoomForNew f₀ offset (offset + data.length))
    (hrun : (writeLoop ord offset data pos).run h = .ok u h') :
    Writing f₀ (chunksOf offset (offset + data.length)) h'.file := by
  induction hn : offset + data.length - pos using Nat.strongRecOn generalizing pos h with
  | _ n ih =>
    rw [writeLoop] at hrun
    split at hrun
    next hlt =>
      obtain ⟨_, h₁, hpiece, hrest⟩ := run_bind_ok.mp hrun
      have hmod := Nat.mod_lt pos chunkSize_pos
      let take := pieceLen (offset + data.length) pos
      have htake : take = min (chunkSize - pos % chunkSize) (offset + data.length - pos) := rfl
      have hsteps := @chunksOf_piece offset pos take hpos (by omega) (by omega)
      have hmem : pos / chunkSize ∈ chunksOf offset (offset + data.length) :=
        mem_chunksOf.mpr ⟨pos, hpos, hlt, rfl⟩
      have hw₁ := hw.touched (writePiece_touched hpiece) (div_lt_chunkLimit hlt) fun hnew => by
        refine (Finset.card_le_card ?_).trans (hroom _ hmem hnew)
        rw [← Finset.union_insert]
        refine Finset.union_subset_union_right fun i hi => ?_
        rcases Finset.mem_insert.mp hi with rfl | hi
        · exact Finset.mem_filter.mpr ⟨hmem, le_rfl⟩
        · obtain ⟨q, hq, hqlt, rfl⟩ := mem_chunksOf.mp hi
          exact Finset.mem_filter.mpr ⟨mem_chunksOf.mpr ⟨q, hq, by omega, rfl⟩,
            Nat.div_le_div_right hqlt.le⟩
      rw [← hsteps] at hw₁
      exact ih (offset + data.length - (pos + take)) (by omega) hw₁ (by omega) (by omega) hrest rfl
    next hge =>
      cases hrun
      obtain rfl : pos = offset + data.length := by omega
      exact hw

/-! ## Writing through -/

/-- The chunks `out` have been written back: they are neither cached nor dirty any more. -/
structure WrittenBack (out : Finset Nat) (f f' : OpenFile) : Prop where
  cached : cachedChunks f' = cachedChunks f \ out
  dirty : dirtyChunks f' = dirtyChunks f \ out
  totalSize : f'.totalSize = f.totalSize
  length : f'.slotMap.length = f.slotMap.length

namespace WrittenBack

variable {out out' : Finset Nat} {f f' f'' : OpenFile}

theorem refl (f : OpenFile) : WrittenBack ∅ f f := ⟨by simp, by simp, rfl, rfl⟩

theorem trans (h : WrittenBack out f f') (h' : WrittenBack out' f' f'') :
    WrittenBack (out ∪ out') f f'' where
  cached := by rw [h'.cached, h.cached, sdiff_sdiff_left]; rfl
  dirty := by rw [h'.dirty, h.dirty, sdiff_sdiff_left]; rfl
  totalSize := h'.totalSize.trans h.totalSize
  length := h'.length.trans h.length

/-- The chunks left in the cache are where they were. -/
theorem mapped (h : WrittenBack out f f')
    (hf : ∀ i ∈ cachedChunks f, i < f.slotMap.length ∧ i < chunkLimit f.totalSize) :
    ∀ i ∈ cachedChunks f', i < f'.slotMap.length ∧ i < chunkLimit f'.totalSize := by
  intro i hi
  rw [h.cached] at hi
  rw [h.length, h.totalSize]
  exact hf i (Finset.sdiff_subset hi)

end WrittenBack

/-- Storing a chunk may give it a slot. -/
theorem storeChunk_file {h h' : Handle σ} {ci : Nat} {u : Unit}
    (hrun : (storeChunk ci).run h = .ok u h') : ∃ m b,
      h'.file = { h.file with slotMap := m, metaDirty := b } ∧ m.length = h.file.slotMap.length := by
  obtain ⟨_, _, hget, hcont⟩ := run_bind_ok.mp hrun
  cases hget
  split at hcont
  next =>
    cases hcont
    exact ⟨_, _, rfl, rfl⟩
  next =>
    split at hcont
    next =>
      obtain ⟨c, -, rfl⟩ := onContainer_ok.mp hcont
      exact ⟨_, _, rfl, rfl⟩
    next =>
      obtain ⟨slot, h₁, hwrite, hassign⟩ := run_bind_ok.mp hcont
      obtain ⟨c, -, rfl⟩ := onContainer_ok.mp hwrite
      rw [modifyFile_ok] at hassign
      subst hassign
      exact ⟨_, _, rfl, List.length_set⟩
    next =>
      cases hcont
      exact ⟨_, _, rfl, rfl⟩

theorem dropChunk_writtenBack (ci : Nat) (f : OpenFile) : WrittenBack {ci} f (dropChunk ci f) where
  cached := by
    rw [Finset.sdiff_singleton_eq_erase, ← cachedChunks_remove]
    rfl
  dirty := by
    ext j
    rw [Finset.mem_sdiff, Finset.mem_singleton, mem_dirtyChunks, mem_dirtyChunks]
    exact HashSet.mem_remove
  totalSize := rfl
  length := rfl

/-- A cached chunk is written through, another one is skipped. -/
theorem writeThroughChunk_writtenBack {h h' : Handle σ} {ci : Nat} {u : Unit}
    (hmapped : ∀ i ∈ cachedChunks h.file, i < h.file.slotMap.length)
    (hrun : (writeThroughChunk ci).run h = .ok u h') :
    WrittenBack ({ci} ∩ cachedChunks h.file) h.file h'.file := by
  obtain ⟨_, _, hget, hcont⟩ := run_bind_ok.mp hrun
  cases hget
  have hkey : h.file.cache.containsKey ci = true ↔ ci ∈ cachedChunks h.file := by
    rw [HashMap.containsKey_eq_true, mem_cachedChunks]
  split at hcont
  next hin =>
    obtain ⟨_, h₁, hstore, hdrop⟩ := run_bind_ok.mp hcont
    rw [modifyFile_ok] at hdrop
    subst hdrop
    obtain ⟨m, b, hfile, hlen⟩ := storeChunk_file hstore
    rw [Finset.singleton_inter_of_mem (hkey.mp hin.1)]
    have hdropped := dropChunk_writtenBack ci h₁.file
    have hsame : WrittenBack ∅ h.file h₁.file := by
      rw [hfile]
      exact ⟨(WrittenBack.refl h.file).cached, (WrittenBack.refl h.file).dirty, rfl, hlen⟩
    have hboth := hsame.trans hdropped
    rwa [Finset.empty_union] at hboth
  next hout =>
    cases hcont
    have hnot : ci ∉ cachedChunks h.file := fun hmem => hout ⟨hkey.mpr hmem, hmapped ci hmem⟩
    rw [Finset.singleton_inter_of_notMem hnot]
    exact .refl _

/-- The order in which the dirty chunks are met does not matter. -/
theorem lowest_continuations (ord : IterOrder Nat) (f : OpenFile) (n : Nat) :
    (((((ord.order f.dirty.elems).filter (1 ≤ ·)).mergeSort (· ≤ ·)).take n).toFinset) =
      lowest n (continuations (dirtyChunks f)) := by
  let l := ((ord.order f.dirty.elems).filter (1 ≤ ·)).mergeSort (· ≤ ·)
  have hnodup : l.Nodup := (List.mergeSort_perm _ _).nodup_iff.mpr
    ((ord.nodup_order f.dirty.nodup).filter _)
  have hset : l.toFinset = continuations (dirtyChunks f) := by
    ext j
    rw [List.mem_toFinset, List.mem_mergeSort, continuations, Finset.mem_filter, mem_dirtyChunks]
    simp [HashSet.mem_elems, and_comm]
  have hsorted : l.Pairwise (· ≤ ·) := List.pairwise_mergeSort' _ _
  have hl : (continuations (dirtyChunks f)).sort (· ≤ ·) = l := by
    rw [← hset]
    exact (List.toFinset_sort _ hnodup).mpr hsorted
  rw [lowest, hl]

theorem writeThroughFlush_writtenBack {h h' : Handle σ} {ord : IterOrder Nat} {n : Nat} {u : Unit}
    (hmapped : ∀ i ∈ cachedChunks h.file, i < h.file.slotMap.length)
    (hrun : (writeThroughFlush ord n).run h = .ok u h') :
    WrittenBack (lowest n (continuations (dirtyChunks h.file)) ∩ cachedChunks h.file)
      h.file h'.file := by
  obtain ⟨_, _, hget, hloop⟩ := run_bind_ok.mp hrun
  cases hget
  rw [← lowest_continuations ord h.file n]
  refine forM_ok_induction
    (fun done s => WrittenBack (done.toFinset ∩ cachedChunks h.file) h.file s.file) hloop ?_ ?_
  · rw [List.toFinset_nil, Finset.empty_inter]
    exact .refl _
  · intro done ci rest s₁ s₂ _ hdone hstep
    have hmapped₁ : ∀ i ∈ cachedChunks s₁.file, i < s₁.file.slotMap.length := by
      intro i hi
      rw [hdone.cached] at hi
      rw [hdone.length]
      exact hmapped i (Finset.sdiff_subset hi)
    have hnext := hdone.trans (writeThroughChunk_writtenBack hmapped₁ hstep)
    have hout : done.toFinset ∩ cachedChunks h.file ∪ {ci} ∩ cachedChunks s₁.file =
        (done ++ [ci]).toFinset ∩ cachedChunks h.file := by
      rw [hdone.cached]
      ext j
      simp only [Finset.mem_union, Finset.mem_inter, Finset.mem_sdiff, Finset.mem_singleton,
        List.mem_toFinset, List.mem_append, List.mem_singleton]
      tauto
    rwa [hout] at hnext

/-- Write-through is not needed, or finds all but half the threshold of its chunks in the
    cache. -/
def WriteThroughReaches (f : OpenFile) (pos stop : Nat) : Prop :=
  let marks := continuations (dirtyChunks f ∪ chunksOf pos stop)
  marks.card ≤ writeThroughThreshold ∨
    (lowest (marks.card - writeThroughThreshold / 2) marks \
      (cachedChunks f ∪ chunksOf pos stop)).card ≤ writeThroughThreshold / 2

instance (f : OpenFile) (pos stop : Nat) : Decidable (WriteThroughReaches f pos stop) :=
  inferInstanceAs (Decidable (_ ∨ _))

/-- What is dirty after the loop of a write and not cached was neither cached before nor
    written. -/
theorem Writing.missing {f₀ f : OpenFile} {done : Finset Nat} (hw : Writing f₀ done f) (n : Nat) :
    lowest n (continuations (dirtyChunks f)) \ cachedChunks f ⊆
      lowest n (continuations (dirtyChunks f₀ ∪ done)) \ (cachedChunks f₀ ∪ done) := by
  intro i hi
  rw [hw.dirty] at hi
  obtain ⟨hlow, hnot⟩ := Finset.mem_sdiff.mp hi
  refine Finset.mem_sdiff.mpr ⟨hlow, fun hmem => hnot ?_⟩
  rcases Finset.mem_union.mp hmem with hcached | hdone
  · have hmark := Finset.mem_of_mem_filter i (lowest_subset _ _ hlow)
    rcases Finset.mem_union.mp hmark with hdirty | hdone
    · exact hw.keeps i hcached hdirty
    · exact hw.written hdone
  · exact hw.written hdone

/-- A write keeps the cache within its bound and brings the dirty chunks below the
    threshold. -/
theorem writeHandle_cached {h h' : Handle σ} {ord : IterOrder Nat} {offset n : Nat}
    {data : List UInt8} (hok : CacheOk h.file)
    (hroom : RoomForNew h.file offset (offset + data.length))
    (hreach : WriteThroughReaches h.file offset (offset + data.length))
    (hrun : (writeHandle ord offset data).run h = .ok n h') :
    CacheOk h'.file ∧ (continuations (dirtyChunks h'.file)).card ≤ writeThroughThreshold := by
  obtain ⟨_, h₁, hloop, hcont⟩ := run_bind_ok.mp hrun
  obtain ⟨_, _, hget, hrest⟩ := run_bind_ok.mp hcont
  cases hget
  have hw := writeLoop_writing (by rw [chunksOf_self]; exact hok.writing) le_rfl
    (Nat.le_add_right _ _) hroom hloop
  have hsmall : writeThroughThreshold + 1 ≤ maxCacheChunks := by decide
  dsimp only at hrest
  rw [← card_continuations] at hrest
  split at hrest
  next hmany =>
    obtain ⟨_, h₂, hflush, hret⟩ := run_bind_ok.mp hrest
    cases hret
    have hback := writeThroughFlush_writtenBack (fun i hi => (hw.mapped i hi).1) hflush
    have hmiss := hw.missing
      ((continuations (dirtyChunks h₁.file)).card - writeThroughThreshold / 2)
    unfold WriteThroughReaches at hreach
    dsimp only at hreach
    rw [← hw.dirty] at hmiss hreach
    -- of the chunks tried, at most half the threshold stay
    have hstay := (Finset.card_le_card hmiss).trans (hreach.resolve_left (Nat.not_le.mpr hmany))
    have hleft : (continuations (dirtyChunks h'.file)).card ≤ writeThroughThreshold := by
      rw [hback.dirty, continuations_sdiff, card_sdiff_lowest (Nat.sub_le _ _)]
      have hhalf : writeThroughThreshold / 2 + writeThroughThreshold / 2 ≤ writeThroughThreshold := by
        decide
      omega
    refine ⟨⟨?_, hback.mapped hw.mapped⟩, hleft⟩
    have hsettled := hw.settled.sdiff (lowest ((continuations (dirtyChunks h₁.file)).card -
      writeThroughThreshold / 2) (continuations (dirtyChunks h₁.file)) ∩ cachedChunks h₁.file)
    rw [← hback.cached, ← hback.dirty] at hsettled
    exact hsettled.card_le ((card_le_continuations _).trans (by omega))
  next hfew =>
    cases hrest
    have hleft := Nat.not_lt.mp hfew
    exact ⟨⟨hw.settled.card_le ((card_le_continuations _).trans (by omega)), hw.mapped⟩, hleft⟩

/-! ## Flushing and resizing -/

/-- What a flush leaves of a handle: the cache, the size, and the slot map up to the chunk
    `keep`. -/
def KeepsCache (keep : Nat) (h h' : Handle σ) : Prop :=
  h'.file.cache = h.file.cache ∧ h'.file.totalSize = h.file.totalSize ∧
    ∀ i < keep, i < h.file.slotMap.length → i < h'.file.slotMap.length

instance (keep : Nat) : Std.Refl (KeepsCache (σ := σ) keep) := ⟨fun _ => ⟨rfl, rfl, fun _ _ h => h⟩⟩

instance (keep : Nat) : IsTrans (Handle σ) (KeepsCache keep) :=
  ⟨fun _ _ _ h h' => ⟨h'.1.trans h.1, h'.2.1.trans h.2.1, fun i hi hlen => h'.2.2 i hi (h.2.2 i hi hlen)⟩⟩

section Flush

variable {keep : Nat}

omit [NodeStore σ] in
theorem onContainer_keepsCache {α : Type} (x : StoreM σ α) : Within (KeepsCache keep) (onContainer x) := by
  intro h
  rcases run_cases x h.container with ⟨a, hx⟩ | ⟨e, hx⟩
  · rw [after_of_ok (onContainer_ok.mpr ⟨_, hx, rfl⟩)]
    exact ⟨rfl, rfl, fun _ _ hlen => hlen⟩
  · have herr : (onContainer x).run h = .error e { h with container := after x h.container } := by
      change onContainer x h = _
      rw [onContainer, hx]
    rw [after_of_error herr]
    exact ⟨rfl, rfl, fun _ _ hlen => hlen⟩

omit [NodeStore σ] in
theorem modifyFile_keepsCache {g : OpenFile → OpenFile} (hcache : ∀ f, (g f).cache = f.cache)
    (hsize : ∀ f, (g f).totalSize = f.totalSize)
    (hmap : ∀ f, ∀ i < keep, i < f.slotMap.length → i < (g f).slotMap.length) :
    Within (KeepsCache keep) (modifyFile g : HandleM σ Unit) :=
  .modify fun _ => ⟨hcache _, hsize _, hmap _⟩

theorem storeChunk_keepsCache (ci : Nat) : Within (KeepsCache keep) (storeChunk (σ := σ) ci) := by
  refine .bind .get fun h => ?_
  split
  next => exact .pure _
  next =>
    split
    next => exact onContainer_keepsCache _
    next =>
      refine .bind (onContainer_keepsCache _) fun slot => ?_
      refine modifyFile_keepsCache (fun _ => rfl) (fun _ => rfl) fun f i _ hlen => ?_
      change i < (f.slotMap.set ci (some slot)).length
      rw [List.length_set]
      exact hlen
    next => exact .pure _

theorem storeDirtyChunks_keepsCache (ord : IterOrder Nat) :
    Within (KeepsCache keep) (storeDirtyChunks (σ := σ) ord) :=
  .bind .get fun _ => .forM fun ci _ => storeChunk_keepsCache ci

theorem freeExcessSlots_keepsCache : Within (KeepsCache keep) (freeExcessSlots (σ := σ) keep) := by
  refine .bind .get fun h => .ite (.bind (onContainer_keepsCache _) fun _ => ?_) (.pure _)
  refine modifyFile_keepsCache (fun _ => rfl) (fun _ => rfl) fun f i hi hlen => ?_
  change i < (f.slotMap.take keep).length
  rw [List.length_take]
  omega

theorem rewriteHead_keepsCache : Within (KeepsCache keep) (rewriteHead (σ := σ)) := by
  have hchunk : Within (KeepsCache keep) (headChunk (σ := σ)) := by
    refine .bind .get fun h => ?_
    split
    next => split <;> exact .pure _
    next =>
      refine .bind (onContainer_keepsCache _) fun n => ?_
      split
      next => exact .pure _
      next => exact .throw _
  refine .bind hchunk fun _ => .bind .get fun _ => .bind (onContainer_keepsCache _) fun _ =>
    .bind (onContainer_keepsCache _) fun ids => ?_
  obtain ⟨dataSlots, newChain⟩ := ids
  exact .bind (modifyFile_keepsCache (fun _ => rfl) (fun _ => rfl) fun _ _ _ hlen => hlen)
    fun _ => onContainer_keepsCache _

theorem flushHandle_cached {h h' : Handle σ} {ord : IterOrder Nat} {u : Unit} (hok : CacheOk h.file)
    (hrun : (flushHandle ord).run h = .ok u h') : CacheOk h'.file := by
  have hkeeps : KeepsCache (chunkLimit h.file.totalSize) h h' := by
    unfold flushHandle at hrun
    rw [run_bind_of_ok run_get] at hrun
    split at hrun
    next =>
      cases hrun
      exact Std.Refl.refl _
    next =>
      have hclean : Within (KeepsCache (chunkLimit h.file.totalSize))
          (modifyFile markClean : HandleM σ Unit) :=
        modifyFile_keepsCache (fun _ => rfl) (fun _ => rfl) fun _ _ _ hlen => hlen
      exact Within.ok (.bind (storeDirtyChunks_keepsCache ord) fun _ =>
        .bind freeExcessSlots_keepsCache fun _ => .bind .get fun _ =>
          .ite (.bind rewriteHead_keepsCache fun _ => hclean) hclean) hrun
  obtain ⟨hcache, hsize, hmap⟩ := hkeeps
  have hsame : cachedChunks h'.file = cachedChunks h.file := by
    rw [cachedChunks, hcache, cachedChunks]
  refine ⟨by rw [hsame]; exact hok.bounded, fun i hi => ?_⟩
  rw [hsame] at hi
  obtain ⟨hlen, hlim⟩ := hok.mapped i hi
  rw [hsize]
  exact ⟨hmap i hlim hlen, hlim⟩

end Flush

/-- Resizing only drops chunks from the cache, those behind the end. -/
theorem resizeFile_cached (newSize : Nat) {f : OpenFile} (hok : CacheOk f) :
    CacheOk (resizeFile newSize f) := by
  have hr := resizeFile_resized newSize f
  have hkept : ∀ i ∈ cachedChunks (resizeFile newSize f), i ∈ cachedChunks f ∧ i < chunkLimit newSize := by
    intro i hi
    unfold resizeFile at hi
    split at hi
    next hsame =>
      rw [hsame]
      exact ⟨hi, (hok.mapped i hi).2⟩
    next =>
      dsimp only at hi
      split at hi
      next =>
        obtain ⟨d, hd⟩ := mem_cachedChunks.mp hi
        change (truncateFile newSize f).cache.get i = some d at hd
        rw [truncateFile_get] at hd
        have hlast := lastChunk_lt newSize
        rcases Nat.lt_trichotomy i (lastChunk newSize) with hlt | rfl | hgt
        · rw [if_pos hlt] at hd
          exact ⟨mem_cachedChunks.mpr ⟨d, hd⟩, hlt.trans hlast⟩
        · rw [if_neg (Nat.lt_irrefl _), if_pos rfl, Option.map_eq_some_iff] at hd
          obtain ⟨d', hd', -⟩ := hd
          exact ⟨mem_cachedChunks.mpr ⟨d', hd'⟩, hlast⟩
        · rw [if_neg (by omega), if_neg hgt.ne'] at hd
          cases hd
      next hge =>
        exact ⟨hi, (hok.mapped i hi).2.trans_le (chunkLimit_mono (by omega))⟩
  refine ⟨(Finset.card_le_card fun i hi => (hkept i hi).1).trans hok.bounded, fun i hi => ?_⟩
  rw [hr.slotMap, hr.totalSize]
  exact ⟨(hok.mapped i (hkept i hi).1).1, (hkept i hi).2⟩

end Venom.Fuse
