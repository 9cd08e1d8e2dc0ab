import Venom.Fuse.Session

/-! # The chunks a read sees

A handle takes a chunk from its cache, or else from the disk.  `chunkBytes` is what it
finds; as long as the clean chunks of the cache are copies of the disk, loading and
evicting do not change it.  A read is then a function of `chunkBytes` alone, and it is
complete exactly when every position it covers lies inside its chunk.
-/

namespace Venom.Fuse

open Venom.Storage
open Venom.Library
open Venom.Library.StateError
open Venom.Library.OptionLists

variable {σ : Type} [NodeStore σ]

/-! ## Cache and disk -/

/-- The bytes a node gives for chunk `ci`. -/
def chunkOfNode (ci : Nat) : VaultNode → Option (List UInt8)
  | .file fb => if ci = 0 then some fb.data else none
  | .fileData d => some d.data
  | _ => none

def headBytes : VaultNode → Option (List UInt8)
  | .file fb => some fb.data
  | _ => none

/-- What loading chunk `ci` from the disk gives. -/
def diskChunk (c : σ) (f : OpenFile) (ci : Nat) : Option (List UInt8) :=
  match f.slotMap[ci]? with
  | some (some slotId) => (NodeStore.readNode slotId c).toOption.bind (chunkOfNode ci)
  | some none =>
    if ci = 0 then (NodeStore.readNode f.headSlot c).toOption.bind headBytes else some []
  | none => none

/-- The bytes of chunk `ci`: the cached ones, or else those on the disk. -/
def chunkBytes (h : Handle σ) (ci : Nat) : Option (List UInt8) :=
  h.file.cache.get ci <|> diskChunk h.container h.file ci

/-- The clean chunks of the cache are copies of the disk. -/
def Synced (h : Handle σ) : Prop :=
  ∀ i d, h.file.cache.get i = some d → i ∉ h.file.dirty →
    diskChunk h.container h.file i = some d

theorem chunkBytes_cached {h : Handle σ} {ci : Nat} {d : List UInt8}
    (hd : h.file.cache.get ci = some d) : chunkBytes h ci = some d := by
  simp [chunkBytes, hd]

theorem chunkBytes_uncached {h : Handle σ} {ci : Nat} (hd : h.file.cache.get ci = none) :
    chunkBytes h ci = diskChunk h.container h.file ci := by
  simp [chunkBytes, hd]

/-- Only the slot map and the head decide what is on the disk. -/
theorem diskChunk_congr {c : σ} {f f' : OpenFile} (hmap : f'.slotMap = f.slotMap)
    (hhead : f'.headSlot = f.headSlot) : diskChunk c f' = diskChunk c f := by
  funext ci
  rw [diskChunk, diskChunk, hmap, hhead]

theorem readNode_run_toOption (c : σ) (s : Nat) :
    (readNode s).run c =
      (NodeStore.readNode s c).toOption.elim (.error eio c) fun n => .ok n c := by
  change readNode s c = _
  unfold readNode
  cases NodeStore.readNode s c <;> rfl

theorem onContainer_readNode (h : Handle σ) (s : Nat) :
    (onContainer (readNode s)).run h =
      (NodeStore.readNode s h.container).toOption.elim (.error eio h) fun n => .ok n h := by
  change onContainer (readNode s) h = _
  unfold onContainer
  rw [readNode_run_toOption]
  cases (NodeStore.readNode s h.container).toOption <;> rfl

/-- Loading a chunk looks at the disk and changes nothing. -/
theorem loadChunk_eq (h : Handle σ) (ci : Nat) :
    (loadChunk ci).run h =
      (diskChunk h.container h.file ci).elim (.error eio h) fun d => .ok d h := by
  unfold loadChunk diskChunk
  rw [run_bind_of_ok run_get]
  cases h.file.slotMap[ci]? with
  | none => rfl
  | some o =>
    cases o with
    | some s =>
      dsimp only
      have hread := onContainer_readNode h s
      cases hn : (NodeStore.readNode s h.container).toOption with
      | none =>
        rw [hn] at hread
        rw [run_bind_of_error hread]
        rfl
      | some n =>
        rw [hn] at hread
        rw [run_bind_of_ok hread, Option.bind_some]
        cases n with
        | file fb => by_cases hci : ci = 0 <;> simp [chunkOfNode, hci]
        | fileData d => rfl
        | directory d => rfl
        | fileIndex fi => rfl
    | none =>
      dsimp only
      split
      next =>
        have hread := onContainer_readNode h h.file.headSlot
        cases hn : (NodeStore.readNode h.file.headSlot h.container).toOption with
        | none =>
          rw [hn] at hread
          rw [run_bind_of_error hread]
          rfl
        | some n =>
          rw [hn] at hread
          rw [run_bind_of_ok hread, Option.bind_some]
          cases n <;> rfl
      next => rfl

/-! ## Loading through the cache -/

/-- Evicting drops a clean chunk, so its bytes are still those of the disk. -/
theorem evict_chunks {c : σ} {f : OpenFile} (hs : Synced ⟨c, f⟩) (ord : IterOrder Nat) :
    Synced ⟨c, evict ord f⟩ ∧ chunkBytes ⟨c, evict ord f⟩ = chunkBytes ⟨c, f⟩ := by
  unfold evict
  split
  next =>
    split
    next k hk =>
      have hclean : k ∉ f.dirty := by simpa using List.find?_some hk
      have hdisk : diskChunk c { f with cache := f.cache.remove k } = diskChunk c f :=
        diskChunk_congr rfl rfl
      refine ⟨fun i d hd hi => ?_, funext fun i => ?_⟩
      · rw [HashMap.get_remove] at hd
        split at hd
        · cases hd
        · rw [hdisk]; exact hs i d hd hi
      · by_cases hik : i = k
        · subst hik
          rw [chunkBytes_uncached (by simp), hdisk]
          cases hd : f.cache.get i with
          | none => rw [chunkBytes_uncached hd]
          | some d => rw [chunkBytes_cached hd]; exact hs i d hd hclean
        · simp only [chunkBytes, HashMap.get_remove, if_neg hik, hdisk]
    next => exact ⟨hs, rfl⟩
  next => exact ⟨hs, rfl⟩

/-- Caching what the disk holds. -/
theorem cacheInsert_chunks {c : σ} {f : OpenFile} {ci : Nat} {d : List UInt8}
    (hs : Synced ⟨c, f⟩) (hd : chunkBytes ⟨c, f⟩ ci = some d)
    (hdisk : diskChunk c f ci = some d) :
    Synced ⟨c, cacheInsert ci d f⟩ ∧ chunkBytes ⟨c, cacheInsert ci d f⟩ = chunkBytes ⟨c, f⟩ := by
  have hsame : diskChunk c (cacheInsert ci d f) = diskChunk c f := diskChunk_congr rfl rfl
  refine ⟨fun i d' hd' hi => ?_, funext fun i => ?_⟩
  · rw [hsame]
    simp only [cacheInsert, HashMap.get_insert] at hd' hi
    split at hd'
    next e => rw [e, hdisk]; exact hd'
    next => exact hs i d' hd' hi
  · by_cases hic : i = ci
    · subst hic
      rw [chunkBytes_cached (d := d) (by simp [cacheInsert]), hd]
    · simp only [chunkBytes, hsame]
      simp [cacheInsert, hic]

/-- A chunk that is somewhere is cached, and all chunks are what they were. -/
theorem ensureCached_chunks {h : Handle σ} {ci : Nat} {d : List UInt8} (ord : IterOrder Nat)
    (hs : Synced h) (hd : chunkBytes h ci = some d) :
    ∃ h', (ensureCached ord ci).run h = .ok () h' ∧ Synced h' ∧ chunkBytes h' = chunkBytes h ∧
      h'.file.cache.get ci = some d := by
  unfold ensureCached
  rw [run_bind_of_ok run_get]
  cases hc : h.file.cache.get ci with
  | some d' =>
    obtain rfl : d' = d := Option.some.inj ((chunkBytes_cached hc).symm.trans hd)
    rw [if_pos ((HashMap.containsKey_eq_true _ _).mpr ⟨d', hc⟩)]
    exact ⟨h, rfl, hs, rfl, hc⟩
  | none =>
    have hdisk : diskChunk h.container h.file ci = some d := (chunkBytes_uncached hc).symm.trans hd
    have hload := loadChunk_eq h ci
    rw [hdisk] at hload
    rw [if_neg (by simp [HashMap.containsKey, hc]), run_bind_of_ok hload]
    obtain ⟨hs₁, hsame₁⟩ := evict_chunks (c := h.container) (f := h.file) hs ord
    have hr := (evict_recached ord h.file).1
    obtain ⟨hs₂, hsame₂⟩ := cacheInsert_chunks hs₁ (by rw [hsame₁]; exact hd)
      (by rw [diskChunk_congr hr.slotMap hr.headSlot]; exact hdisk)
    exact ⟨_, rfl, hs₂, hsame₂.trans hsame₁, by simp [cacheInsert]⟩

/-- A chunk that is nowhere cannot be loaded. -/
theorem ensureCached_missing {h : Handle σ} {ci : Nat} (ord : IterOrder Nat)
    (hd : chunkBytes h ci = none) : (ensureCached ord ci).run h = .error eio h := by
  obtain ⟨hc, hdisk⟩ : h.file.cache.get ci = none ∧ diskChunk h.container h.file ci = none := by
    simpa [chunkBytes] using hd
  have hload := loadChunk_eq h ci
  rw [hdisk] at hload
  unfold ensureCached
  rw [run_bind_of_ok run_get, if_neg (by simp [HashMap.containsKey, hc]),
    run_bind_of_error hload]

/-! ## Reads as functions of the chunks -/

/-- The byte at position `p`. -/
def chunkByte (chunks : Nat → Option (List UInt8)) (p : Nat) : Option UInt8 :=
  (chunks (p / chunkSize)).bind (·[p % chunkSize]?)

/-- The pieces of the chunks from `pos` to `stop`; a chunk shorter than asked ends them. -/
def readChunks (chunks : Nat → Option (List UInt8)) (stop pos : Nat) : Option (List UInt8) :=
  if pos < stop then
    (chunks (pos / chunkSize)).bind fun d =>
      let take := min (d.length - pos % chunkSize) (stop - pos)
      if take = 0 then some []
      else (readChunks chunks stop (pos + take)).map ((d.drop (pos % chunkSize)).take take ++ ·)
  else some []
termination_by stop - pos

/-- The loop of a read sees the chunks only. -/
theorem readLoop_chunks {h : Handle σ} (ord : IterOrder Nat) (hs : Synced h) (stop pos : Nat)
    (acc : List UInt8) : valueOf (readLoop ord stop pos acc) h =
      (readChunks (chunkBytes h) stop pos).map (acc ++ ·) := by
  induction hn : stop - pos using Nat.strongRecOn generalizing pos acc h with
  | _ n ih =>
    rw [readLoop, readChunks]
    split
    next hlt =>
      cases hd : chunkBytes h (pos / chunkSize) with
      | none => rw [valueOf_bind_of_error (ensureCached_missing ord hd)]; rfl
      | some d =>
        obtain ⟨h₁, hrun, hs₁, hsame, hc⟩ := ensureCached_chunks ord hs hd
        rw [valueOf_bind_of_ok hrun, valueOf_bind_of_ok run_get, hc, Option.bind_some]
        dsimp only
        split
        next => simp [valueOf]
        next =>
          rw [ih _ (by omega) hs₁ _ _ rfl, hsame, Option.map_map]
          congr 1
          funext r
          simp
    next => simp [valueOf]

theorem readHandle_chunks {h : Handle σ} (ord : IterOrder Nat) (hs : Synced h)
    (offset size : Nat) : valueOf (readHandle ord offset size) h =
      readChunks (chunkBytes h) (min (offset + size) h.file.totalSize) offset := by
  unfold readHandle
  rw [valueOf_bind_of_ok run_get]
  dsimp only
  split
  next =>
    rw [readChunks, if_neg (by omega)]
    rfl
  next =>
    rw [readLoop_chunks ord hs]
    simp

/-- Inside a chunk no longer than a chunk, positions count up. -/
theorem chunkByte_in_chunk {chunks : Nat → Option (List UInt8)} {d : List UInt8} {pos k : Nat}
    (hd : chunks (pos / chunkSize) = some d) (hlen : d.length ≤ chunkSize)
    (hk : k < d.length - pos % chunkSize) :
    chunkByte chunks (pos + k) = d[pos % chunkSize + k]? := by
  have hsplit := chunk_split pos
  have hpos : pos + k = pos / chunkSize * chunkSize + (pos % chunkSize + k) := by omega
  rw [chunkByte, hpos, div_chunk (by omega), mod_chunk (by omega), hd]
  rfl

/-- What a read gives are the bytes of its positions, up to the first that is missing. -/
theorem readChunks_bytes {chunks : Nat → Option (List UInt8)}
    (hlen : ∀ i d, chunks i = some d → d.length ≤ chunkSize) {stop pos : Nat} {r : List UInt8}
    (hr : readChunks chunks stop pos = some r) :
    r.length ≤ stop - pos ∧ ∀ k, k < r.length → r[k]? = chunkByte chunks (pos + k) := by
  induction hn : stop - pos using Nat.strongRecOn generalizing pos r with
  | _ n ih =>
    rw [readChunks] at hr
    split at hr
    next hlt =>
      obtain ⟨d, hd, hr⟩ := Option.bind_eq_some_iff.mp hr
      dsimp only at hr
      split at hr
      next => cases hr; simp
      next hpos =>
        obtain ⟨r', hr', rfl⟩ := Option.map_eq_some_iff.mp hr
        obtain ⟨hle, hbytes⟩ := ih _ (by omega) hr' rfl
        have htake : ((d.drop (pos % chunkSize)).take
            (min (d.length - pos % chunkSize) (stop - pos))).length =
            min (d.length - pos % chunkSize) (stop - pos) := by
          rw [List.length_take, List.length_drop]; omega
        refine ⟨by rw [List.length_append, htake]; omega, fun k hk => ?_⟩
        rw [List.length_append, htake] at hk
        by_cases hkt : k < min (d.length - pos % chunkSize) (stop - pos)
        · rw [List.getElem?_append_left (by rw [htake]; exact hkt), List.getElem?_take_of_lt hkt,
            List.getElem?_drop, chunkByte_in_chunk hd (hlen _ _ hd) (by omega)]
        · rw [List.getElem?_append_right (by rw [htake]; omega), htake, hbytes _ (by omega)]
          congr 1; omega
    next => cases hr; simp

/-- Where no position is missing, a read is complete. -/
theorem readChunks_complete {chunks : Nat → Option (List UInt8)} {stop pos : Nat}
    (hall : ∀ p, pos ≤ p → p < stop → chunkByte chunks p ≠ none) :
    ∃ r, readChunks chunks stop pos = some r ∧ r.length = stop - pos := by
  induction hn : stop - pos using Nat.strongRecOn generalizing pos with
  | _ n ih =>
    rw [readChunks]
    split
    next hlt =>
      obtain ⟨b, hb⟩ := Option.ne_none_iff_exists'.mp (hall pos le_rfl hlt)
      obtain ⟨d, hd, hbyte⟩ := Option.bind_eq_some_iff.mp hb
      have hin := (List.getElem?_eq_some_iff.mp hbyte).1
      rw [hd, Option.bind_some]
      dsimp only
      rw [if_neg (by omega)]
      let take := min (d.length - pos % chunkSize) (stop - pos)
      obtain ⟨r, hr, hrlen⟩ := ih (stop - (pos + take)) (by omega)
        (fun p hp => hall p (by omega)) rfl
      refine ⟨_, by rw [hr]; rfl, ?_⟩
      rw [List.length_append, List.length_take, List.length_drop, hrlen]
      omega
    next => exact ⟨[], rfl, by simp; omega⟩

/-- A read that gets the bytes of the whole range finds each of them in its chunk, and
    conversely. -/
theorem readChunks_eq_iff {chunks : Nat → Option (List UInt8)}
    (hlen : ∀ i d, chunks i = some d → d.length ≤ chunkSize) {stop pos : Nat} {g : Nat → UInt8}
    (hg : ∀ p b, chunkByte chunks p = some b → b = g p) :
    readChunks chunks stop pos = some ((List.range (stop - pos)).map fun k => g (pos + k)) ↔
      ∀ p, pos ≤ p → p < stop → chunkByte chunks p ≠ none := by
  constructor
  · intro hr p hp hlt
    have := (readChunks_bytes hlen hr).2 (p - pos) (by simp; omega)
    rw [show pos + (p - pos) = p by omega] at this
    rw [← this]
    simp
    omega
  · intro hall
    obtain ⟨r, hr, hrlen⟩ := readChunks_complete hall
    rw [hr]
    congr 1
    refine List.ext_getElem? fun k => ?_
    by_cases hk : k < stop - pos
    · have hbyte := (readChunks_bytes hlen hr).2 k (by omega)
      obtain ⟨b, hb⟩ := Option.ne_none_iff_exists'.mp (hall (pos + k) (by omega) (by omega))
      rw [hbyte, hb, hg _ _ hb]
      simp [hk]
    · rw [List.getElem?_eq_none (by omega), List.getElem?_eq_none (by simp; omega)]

/-- One step of a read takes what its chunk has up to the end of the read. -/
theorem readChunks_step {chunks : Nat → Option (List UInt8)} {stop pos : Nat} (hlt : pos < stop) :
    readChunks chunks stop pos =
      ((chunks (pos / chunkSize)).map (List.take (stop - pos / chunkSize * chunkSize))).bind fun d =>
        if d.length ≤ pos % chunkSize then some []
        else (readChunks chunks stop (pos + (d.length - pos % chunkSize))).map
          (d.drop (pos % chunkSize) ++ ·) := by
  have hsplit := chunk_split pos
  rw [readChunks, if_pos hlt]
  cases chunks (pos / chunkSize) with
  | none => rfl
  | some d =>
    have htake : min (d.length - pos % chunkSize) (stop - pos) =
        (d.take (stop - pos / chunkSize * chunkSize)).length - pos % chunkSize := by
      rw [List.length_take]; omega
    have hpiece : (d.drop (pos % chunkSize)).take (min (d.length - pos % chunkSize) (stop - pos)) =
        (d.take (stop - pos / chunkSize * chunkSize)).drop (pos % chunkSize) := by
      rw [List.drop_take, ← List.length_drop, Nat.min_comm, ← List.take_eq_take_min,
        show stop - pos / chunkSize * chunkSize - pos % chunkSize = stop - pos by omega]
    rw [Option.bind_some, Option.map_some, Option.bind_some]
    dsimp only
    rw [hpiece, htake]
    split
    next h => rw [if_pos (by omega)]
    next h => rw [if_neg (by omega)]

/-- A read sees each chunk only up to its own end. -/
theorem readChunks_congr {chunks chunks' : Nat → Option (List UInt8)} {stop : Nat}
    (h : ∀ i, i * chunkSize < stop → (chunks' i).map (List.take (stop - i * chunkSize)) =
      (chunks i).map (List.take (stop - i * chunkSize))) (pos : Nat) :
    readChunks chunks' stop pos = readChunks chunks stop pos := by
  induction hn : stop - pos using Nat.strongRecOn generalizing pos with
  | _ n ih =>
    by_cases hlt : pos < stop
    · have hsplit := chunk_split pos
      rw [readChunks_step hlt, readChunks_step hlt, h _ (by omega)]
      refine Option.bind_congr fun d _ => ?_
      split
      next => rfl
      next => rw [ih (stop - (pos + (d.length - pos % chunkSize))) (by omega) _ rfl]
    · rw [readChunks, readChunks, if_neg hlt, if_neg hlt]

/-! ## Chunks of a newly opened file -/

section Reopened

variable [NodeView σ] [LawfulNodeStore σ] {c : σ} {ino head : Nat} {fb : FileBlock}
  {ids chain : List Nat}

/-- A handle just opened has the head's bytes in its cache, and nothing else. -/
theorem reopened_synced (hok : HandleOk c (reopened ino head fb ids) fb ids chain) :
    Synced ⟨c, reopened ino head fb ids⟩ ∧
      chunkBytes ⟨c, reopened ino head fb ids⟩ 0 = some fb.data := by
  have hdata : IsDataSlot c head :=
    hok.accounts.isDataSlot (s := head) (by simp [ownedSlots, reopened, openedFile])
  have hread : (NodeStore.readNode head c).toOption = some (.file fb) :=
    (LawfulNodeStore.readNode_eq c head hdata).trans hok.head
  have hdisk : diskChunk c (reopened ino head fb ids) 0 = some fb.data := by
    change (if 0 = 0 then (NodeStore.readNode head c).toOption.bind headBytes else some []) = _
    rw [if_pos rfl, hread]
    rfl
  refine ⟨fun i d hd _ => ?_, ?_⟩
  · obtain ⟨rfl, rfl⟩ := openedFile_get hd
    exact hdisk
  · cases hc : (reopened ino head fb ids).cache.get 0 with
    | some d =>
      obtain ⟨-, rfl⟩ := openedFile_get hc
      exact chunkBytes_cached hc
    | none => rw [chunkBytes_uncached hc]; exact hdisk

omit [NodeView σ] [LawfulNodeStore σ] in
theorem reopened_chunk_succ (i : Nat) :
    chunkBytes ⟨c, reopened ino head fb ids⟩ (i + 1) =
      (fb.dataSlots ++ ids)[i]?.bind fun s =>
        (NodeStore.readNode s c).toOption.bind (chunkOfNode (i + 1)) := by
  have hnone : (reopened ino head fb ids).cache.get (i + 1) = none := by
    cases hc : (reopened ino head fb ids).cache.get (i + 1) with
    | none => rfl
    | some d => exact absurd (openedFile_get hc).1 (Nat.succ_ne_zero i)
  rw [chunkBytes_uncached hnone, diskChunk, reopened_slotMap_succ]
  cases (fb.dataSlots ++ ids)[i]? <;> rfl

end Reopened

end Venom.Fuse
