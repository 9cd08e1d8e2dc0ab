import Venom.Fuse.CacheBound
import Venom.Fuse.FailedCalls

/-! # The chunks a write takes in

A write takes its chunks in one after the other, and ends at the first that cannot be read; a
chunk that is taken in may push a clean one out of the cache.  `taken` is what this does to the
cache, whatever the bytes are, and `Placing` what a write has done after any number of chunks.
-/

namespace Venom.Fuse

open Venom.Storage
open Venom.Library
open Venom.Library.StateError
open Venom.Library.Chunks (patch)

/-! ## What a write does to the cache -/

/-- The cache before chunk `ci` is changed: it is there already, or is loaded, or is a new one. -/
def makeRoom (ord : IterOrder Nat) (ci : Nat) (f : OpenFile) : OpenFile :=
  if f.cache.containsKey ci then f
  else if f.slotMap[ci]?.join.isSome ∨ ci = 0 then evict ord f
  else f

/-- The handle with chunk `ci` taken in, apart from the bytes. -/
def takeChunk (ord : IterOrder Nat) (ci : Nat) (f : OpenFile) : OpenFile :=
  let f := makeRoom ord ci (extendSlotMap ci f)
  { f with cache := f.cache.insert ci [], dirty := f.dirty.insert ci }

/-- The handle with `n` chunks from `first` on taken in. -/
def taken (ord : IterOrder Nat) (f : OpenFile) (first : Nat) : Nat → OpenFile
  | 0 => f
  | n + 1 => takeChunk ord (first + n) (taken ord f first n)

/-- Two handles whose caches differ in the bytes only. -/
structure SameCache (g f : OpenFile) : Prop where
  keys : g.cache.keys = f.cache.keys
  dirty : g.dirty = f.dirty
  slotMap : g.slotMap = f.slotMap

namespace SameCache

variable {g f : OpenFile} {ci i : Nat}

theorem refl (f : OpenFile) : SameCache f f := ⟨rfl, rfl, rfl⟩

theorem get_none (h : SameCache g f) : g.cache.get i = none ↔ f.cache.get i = none := by
  rw [HashMap.get_eq_none, HashMap.get_eq_none, h.keys]

theorem containsKey (h : SameCache g f) : g.cache.containsKey i = f.cache.containsKey i := by
  rw [HashMap.containsKey, HashMap.containsKey, ← Option.not_isNone, ← Option.not_isNone,
    Bool.not_inj_iff, Bool.eq_iff_iff, Option.isNone_iff_eq_none, Option.isNone_iff_eq_none]
  exact h.get_none

theorem extend (h : SameCache g f) (ci : Nat) : SameCache (extendSlotMap ci g) (extendSlotMap ci f) := by
  unfold extendSlotMap
  rw [h.slotMap]
  split
  · exact ⟨h.keys, h.dirty, rfl⟩
  · exact h

/-- The same chunk is pushed out of both. -/
theorem evict (h : SameCache g f) (ord : IterOrder Nat) : SameCache (evict ord g) (evict ord f) := by
  unfold Fuse.evict
  rw [← HashMap.length_keys, ← HashMap.length_keys, h.keys, h.dirty]
  split
  next =>
    split
    next k hk => exact ⟨by rw [HashMap.keys_remove, HashMap.keys_remove, h.keys], rfl, h.slotMap⟩
    next => exact h
  next => exact h

theorem makeRoom (h : SameCache g f) (ord : IterOrder Nat) (ci : Nat) :
    SameCache (makeRoom ord ci g) (makeRoom ord ci f) := by
  unfold Fuse.makeRoom
  rw [h.containsKey, h.slotMap]
  split
  · exact h
  · split
    · exact h.evict ord
    · exact h

end SameCache

theorem extendSlotMap_frame (ci : Nat) (f : OpenFile) :
    (extendSlotMap ci f).cache = f.cache ∧ (extendSlotMap ci f).dirty = f.dirty ∧
      (extendSlotMap ci f).headSlot = f.headSlot ∧ (extendSlotMap ci f).totalSize = f.totalSize := by
  unfold extendSlotMap
  split
  · exact ⟨rfl, rfl, rfl, rfl⟩
  · exact ⟨rfl, rfl, rfl, rfl⟩

/-- The entry of chunk `ci` after the slot map has been extended to cover it. -/
theorem extendSlotMap_entry (ci : Nat) (f : OpenFile) :
    (extendSlotMap ci f).slotMap[ci]? = some (f.slotMap[ci]?.join) := by
  unfold extendSlotMap
  split
  next hle =>
    dsimp only
    rw [List.getElem?_append_right hle, List.getElem?_replicate, if_pos (by omega),
      List.getElem?_eq_none hle]
    rfl
  next hlt =>
    rw [List.getElem?_eq_getElem (by omega)]
    rfl

theorem extendSlotMap_congr {f g : OpenFile} (h : g.slotMap = f.slotMap) (ci : Nat) :
    (extendSlotMap ci g).slotMap = (extendSlotMap ci f).slotMap := by
  unfold extendSlotMap
  rw [h]
  split
  · rfl
  · exact h

/-- The last extension is what counts. -/
theorem extendSlotMap_extend {ci i : Nat} (h : ci ≤ i) (f : OpenFile) :
    (extendSlotMap i (extendSlotMap ci f)).slotMap = (extendSlotMap i f).slotMap := by
  have hlong : ∀ {j : Nat} {g : OpenFile}, g.slotMap.length ≤ j → (extendSlotMap j g).slotMap =
      g.slotMap ++ List.replicate (j + 1 - g.slotMap.length) none := fun hj => by
    rw [extendSlotMap, if_pos hj]
  by_cases hci : f.slotMap.length ≤ ci
  · have hlen : (extendSlotMap ci f).slotMap.length = ci + 1 := by
      rw [hlong hci, List.length_append, List.length_replicate]
      omega
    rw [hlong (Nat.le_trans hci h)]
    by_cases heq : i = ci
    · rw [extendSlotMap, if_neg (by omega), hlong hci, heq]
    · rw [hlong (by omega), hlen, hlong hci, List.append_assoc, List.replicate_append_replicate]
      congr 2
      omega
  · rw [show extendSlotMap ci f = f from if_neg hci]

theorem makeRoom_recached (ord : IterOrder Nat) (ci : Nat) (f : OpenFile) :
    Recached f (makeRoom ord ci f) ∧ (makeRoom ord ci f).dirty = f.dirty := by
  unfold makeRoom
  split
  · exact ⟨.refl f, rfl⟩
  · split
    · refine ⟨(evict_recached ord f).1, ?_⟩
      unfold evict
      split
      · split <;> rfl
      · rfl
    · exact ⟨.refl f, rfl⟩

/-- A chunk is pushed out whole, and no dirty one is. -/
theorem makeRoom_get (ord : IterOrder Nat) (ci : Nat) (f : OpenFile) (i : Nat) :
    (makeRoom ord ci f).cache.get i = f.cache.get i ∨
      (makeRoom ord ci f).cache.get i = none ∧ i ∉ f.dirty := by
  unfold makeRoom
  split
  · exact .inl rfl
  · split
    · unfold evict
      split
      · split
        next k hk =>
          have hclean : k ∉ f.dirty := by simpa using List.find?_some hk
          by_cases hik : i = k
          · exact .inr ⟨by simp [hik], hik ▸ hclean⟩
          · exact .inl (by simp [hik])
        next => exact .inl rfl
      · exact .inl rfl
    · exact .inl rfl

/-! ## One chunk -/

section Pieces

variable {σ : Type} [NodeStore σ]

/-- The handle `g'` is `g` with `piece` written into chunk `ci`, which was `d` before. -/
structure Took (ord : IterOrder Nat) (c : σ) (ci off stop : Nat) (d piece : List UInt8)
    (g g' : OpenFile) : Prop where
  base : g.cache.get ci = some d ∨ g.cache.get ci = none ∧
    (diskChunk c g ci = some d ∨ diskChunk c g ci = some [] ∧ d = List.replicate chunkSize 0)
  get : ∀ i, g'.cache.get i =
    if i = ci then some (patch 0 d off piece) else (makeRoom ord ci g).cache.get i
  keys : g'.cache.keys = ci :: (makeRoom ord ci g).cache.keys.filter (· ≠ ci)
  dirty : g'.dirty = g.dirty.insert ci
  slotMap : g'.slotMap = g.slotMap
  headSlot : g'.headSlot = g.headSlot
  totalSize : g'.totalSize = max stop g.totalSize

/-- A chunk in the cache of `l` is changed. -/
theorem Took.patched {ord : IterOrder Nat} {c : σ} {ci off stop : Nat} {d piece : List UInt8}
    {g l : OpenFile}
    (hbase : g.cache.get ci = some d ∨ g.cache.get ci = none ∧
      (diskChunk c g ci = some d ∨ diskChunk c g ci = some [] ∧ d = List.replicate chunkSize 0))
    (hcache : l.cache = (makeRoom ord ci g).cache ∨ l.cache = (makeRoom ord ci g).cache.insert ci d)
    (hdirty : l.dirty = g.dirty) (hmap : l.slotMap = g.slotMap) (hhead : l.headSlot = g.headSlot)
    (htotal : l.totalSize = g.totalSize) :
    Took ord c ci off stop d piece g (patchChunk ci off stop d piece l) := by
  refine ⟨hbase, fun i => ?_, ?_, ?_, hmap, hhead, ?_⟩
  · change (l.cache.insert ci _).get i = _
    rw [HashMap.get_insert]
    split
    next => rfl
    next hne =>
      rcases hcache with hl | hl
      · rw [hl]
      · rw [hl, HashMap.get_insert, if_neg hne]
  · change (l.cache.insert ci _).keys = _
    rw [HashMap.keys_insert]
    rcases hcache with hl | hl
    · rw [hl]
    · rw [hl, HashMap.keys_insert, List.filter_cons_of_neg (by simp), List.filter_filter]
      simp
  · change l.dirty.insert ci = _
    rw [hdirty]
  · change max stop l.totalSize = _
    rw [htotal]

/-- A piece is written into its chunk, unless the chunk is neither in the cache nor on the disk. -/
theorem writePiece_cases (ord : IterOrder Nat) (c : σ) (f : OpenFile) (stop pos : Nat)
    (piece : List UInt8) :
    (∃ d g', (writePiece ord stop pos piece).run ⟨c, f⟩ = .ok () ⟨c, g'⟩ ∧
      Took ord c (pos / chunkSize) (pos % chunkSize) stop d piece (extendSlotMap (pos / chunkSize) f) g') ∨
    (writePiece ord stop pos piece).run ⟨c, f⟩ = .error eio ⟨c, extendSlotMap (pos / chunkSize) f⟩ ∧
      f.cache.get (pos / chunkSize) = none ∧
      diskChunk c (extendSlotMap (pos / chunkSize) f) (pos / chunkSize) = none := by
  obtain ⟨g, hg⟩ : ∃ g, g = extendSlotMap (pos / chunkSize) f := ⟨_, rfl⟩
  have hlen := (extendSlotMap_slotMap (pos / chunkSize) f).2
  have hext : (modifyFile (extendSlotMap (pos / chunkSize))).run (⟨c, f⟩ : Handle σ) = .ok () ⟨c, g⟩ := by
    rw [hg]
    rfl
  -- once the chunk is in the cache it is changed there
  have hpatch : ∀ d l, (loadForWrite ord (pos / chunkSize)).run ⟨c, g⟩ = .ok () ⟨c, l⟩ →
      l.cache.get (pos / chunkSize) = some d → (writePiece ord stop pos piece).run ⟨c, f⟩ =
        .ok () ⟨c, patchChunk (pos / chunkSize) (pos % chunkSize) stop d piece l⟩ := by
    intro d l hload hget
    rw [writePiece, run_bind_of_ok hext, run_bind_of_ok hload, run_bind_of_ok run_get]
    dsimp only
    rw [hget]
    rfl
  have hfail : ∀ e, (loadForWrite ord (pos / chunkSize)).run ⟨c, g⟩ = .error e ⟨c, g⟩ →
      (writePiece ord stop pos piece).run ⟨c, f⟩ = .error e ⟨c, g⟩ := by
    intro e hload
    rw [writePiece, run_bind_of_ok hext, run_bind_of_error hload]
  rw [← (extendSlotMap_frame (pos / chunkSize) f).1]
  rw [← hg] at hlen ⊢
  clear hext hg
  generalize pos / chunkSize = ci at *
  cases hc : g.cache.get ci with
  | some d =>
    have hkey : g.cache.containsKey ci = true := (HashMap.containsKey_eq_true _ _).mpr ⟨d, hc⟩
    have hload : (loadForWrite ord ci).run ⟨c, g⟩ = .ok () ⟨c, g⟩ := by
      unfold loadForWrite
      rw [run_bind_of_ok run_get, if_pos hkey]
      rfl
    have hroom : makeRoom ord ci g = g := by rw [makeRoom, if_pos hkey]
    exact .inl ⟨d, _, hpatch d g hload hc,
      .patched (.inl hc) (.inl (by rw [hroom])) rfl rfl rfl rfl⟩
  | none =>
    have hkey : ¬ g.cache.containsKey ci = true := by
      rw [Bool.not_eq_true, HashMap.containsKey_eq_false]
      exact hc
    by_cases hexists : g.slotMap[ci]?.join.isSome ∨ ci = 0
    · have hload : (loadForWrite ord ci).run ⟨c, g⟩ = (ensureCached ord ci).run ⟨c, g⟩ := by
        unfold loadForWrite
        rw [run_bind_of_ok run_get, if_neg hkey, if_pos hexists]
      have hdisk := loadChunk_eq (⟨c, g⟩ : Handle σ) ci
      unfold ensureCached at hload
      rw [run_bind_of_ok run_get, if_neg hkey] at hload
      cases hd : diskChunk c g ci with
      | none =>
        rw [hd] at hdisk
        rw [run_bind_of_error hdisk] at hload
        exact .inr ⟨hfail eio hload, rfl, rfl⟩
      | some d =>
        rw [hd] at hdisk
        rw [run_bind_of_ok hdisk] at hload
        have hroom : makeRoom ord ci g = evict ord g := by rw [makeRoom, if_neg hkey, if_pos hexists]
        obtain ⟨hr, hdirty⟩ := makeRoom_recached ord ci g
        rw [hroom] at hr hdirty
        exact .inl ⟨d, _, hpatch d _ hload (by simp [cacheInsert]),
          .patched (.inr ⟨hc, .inl hd⟩) (.inr (by rw [hroom]; rfl)) hdirty hr.slotMap hr.headSlot
            hr.totalSize⟩
    · have hload : (loadForWrite ord ci).run ⟨c, g⟩ =
          .ok () ⟨c, cacheInsert ci (List.replicate chunkSize 0) g⟩ := by
        unfold loadForWrite
        rw [run_bind_of_ok run_get, if_neg hkey, if_neg hexists]
        rfl
      -- a brand-new chunk has an empty entry
      obtain ⟨hnone, hne⟩ := not_or.mp hexists
      have hentry : g.slotMap[ci]? = some none := by
        have hat := List.getElem?_eq_getElem hlen
        rw [hat] at hnone ⊢
        cases hslot : g.slotMap[ci] with
        | none => rfl
        | some t =>
          rw [hslot] at hnone
          exact absurd rfl hnone
      have hdisk : diskChunk c g ci = some [] := by
        rw [diskChunk, hentry]
        exact if_neg hne
      have hroom : makeRoom ord ci g = g := by rw [makeRoom, if_neg hkey, if_neg hexists]
      exact .inl ⟨_, _, hpatch _ _ hload (by simp [cacheInsert]),
        .patched (.inr ⟨hc, .inr ⟨hdisk, rfl⟩⟩) (.inr (by rw [hroom]; rfl)) rfl rfl rfl rfl⟩

/-! ## Bytes -/

/-- The byte at a position, zero where its chunk is shorter. -/
def byteOf (h : Handle σ) (p : Nat) : Option UInt8 :=
  (chunkBytes h (p / chunkSize)).map fun d => d.getD (p % chunkSize) 0

/-- The byte the disk has for a position. -/
def diskByte (c : σ) (f : OpenFile) (p : Nat) : Option UInt8 :=
  (diskChunk c f (p / chunkSize)).map fun d => d.getD (p % chunkSize) 0

section Bytes

variable {c : σ} {f g : OpenFile} {p i : Nat} {b : UInt8}

theorem byteOf_cached {d : List UInt8} (h : f.cache.get (p / chunkSize) = some d) :
    byteOf ⟨c, f⟩ p = some (d.getD (p % chunkSize) 0) := by
  rw [byteOf, chunkBytes_cached h, Option.map_some]

theorem byteOf_uncached (h : f.cache.get (p / chunkSize) = none) :
    byteOf ⟨c, f⟩ p = diskByte c f p := by
  rw [byteOf, chunkBytes_uncached h, diskByte]

/-- What is on the disk stays there when the slot map gets empty entries. -/
theorem diskChunk_extended {m : Nat} {d : List UInt8} (hmap : g.slotMap = f.slotMap ++ List.replicate m none)
    (hhead : g.headSlot = f.headSlot) (h : diskChunk c f i = some d) : diskChunk c g i = some d := by
  unfold diskChunk at h ⊢
  by_cases hi : i < f.slotMap.length
  · rw [hmap, List.getElem?_append_left hi, hhead]
    exact h
  · rw [List.getElem?_eq_none (Nat.le_of_not_lt hi)] at h
    cases h

theorem diskByte_extended {m : Nat} (hmap : g.slotMap = f.slotMap ++ List.replicate m none)
    (hhead : g.headSlot = f.headSlot) (h : diskByte c f p = some b) : diskByte c g p = some b := by
  obtain ⟨d, hd, hb⟩ := Option.map_eq_some_iff.mp h
  exact Option.map_eq_some_iff.mpr ⟨d, diskChunk_extended hmap hhead hd, hb⟩

/-- A byte that is read is still read when the slot map gets empty entries. -/
theorem byteOf_extended {m : Nat} (hmap : g.slotMap = f.slotMap ++ List.replicate m none)
    (hhead : g.headSlot = f.headSlot)
    (hcache : g.cache.get (p / chunkSize) = f.cache.get (p / chunkSize))
    (h : byteOf ⟨c, f⟩ p = some b) : byteOf ⟨c, g⟩ p = some b := by
  cases hc : f.cache.get (p / chunkSize) with
  | some d =>
    rw [byteOf_cached hc] at h
    rw [byteOf_cached (hcache.trans hc)]
    exact h
  | none =>
    rw [byteOf_uncached hc] at h
    rw [byteOf_uncached (hcache.trans hc)]
    exact diskByte_extended hmap hhead h

/-- Outside the piece a patched chunk reads as before. -/
theorem getD_patch_outside {d piece : List UInt8} {off i : Nat} (h : i < off ∨ off + piece.length ≤ i) :
    (patch 0 d off piece).getD i 0 = d.getD i 0 := by
  rw [List.getD_eq_getElem?_getD, List.getD_eq_getElem?_getD,
    Chunks.getElem?_patch_outside 0 d off piece h]
  by_cases hi : i < d.length
  · rw [if_pos hi]
  · rw [if_neg hi, List.getElem?_eq_none (Nat.le_of_not_lt hi)]
    split <;> rfl

end Bytes

/-! ## Where a write stops -/

/-- The write has bytes for its `j`-th chunk. -/
def HasPiece (offset len j : Nat) : Prop :=
  len ≠ 0 ∧ (offset / chunkSize + j) * chunkSize < offset + len

instance (offset len j : Nat) : Decidable (HasPiece offset len j) := inferInstanceAs (Decidable (_ ∧ _))

/-- The `k`-th chunk of the write is neither in the cache nor on the disk when its turn comes. -/
def Missing (ord : IterOrder Nat) (h : Handle σ) (offset k : Nat) : Prop :=
  (taken ord h.file (offset / chunkSize) k).cache.get (offset / chunkSize + k) = none ∧
    diskChunk h.container (extendSlotMap (offset / chunkSize + k) h.file) (offset / chunkSize + k) = none

/-- The write takes in `k` chunks: all of its chunks, or those in front of the first missing one. -/
structure Stops (ord : IterOrder Nat) (h : Handle σ) (offset len k : Nat) : Prop where
  before : ∀ j < k, HasPiece offset len j ∧ ¬ Missing ord h offset j
  stop : HasPiece offset len k → Missing ord h offset k

/-- The slot map extended as far as a write gets that takes in `k` chunks. -/
def stretched (f : OpenFile) (offset len k : Nat) : OpenFile :=
  if len = 0 then f
  else extendSlotMap (offset / chunkSize + if HasPiece offset len k then k else k - 1) f

/-- A cached chunk that one of the first `k` chunks has pushed out, reloaded or not. -/
def PushedOut (ord : IterOrder Nat) (f : OpenFile) (first k i : Nat) : Prop :=
  f.cache.get i ≠ none ∧ ∃ j ≤ k, (taken ord f first j).cache.get i = none

instance (ord : IterOrder Nat) (f : OpenFile) (first k i : Nat) : Decidable (PushedOut ord f first k i) :=
  inferInstanceAs (Decidable (_ ∧ ∃ j ≤ k, _))

/-- The disk is read for the position afterwards, unless write-through stores its chunk. -/
def FromDisk (ord : IterOrder Nat) (f : OpenFile) (offset k p : Nat) : Prop :=
  f.cache.get (p / chunkSize) = none ∨ PushedOut ord f (offset / chunkSize) k (p / chunkSize)

instance (ord : IterOrder Nat) (f : OpenFile) (offset k p : Nat) : Decidable (FromDisk ord f offset k p) :=
  inferInstanceAs (Decidable (_ ∨ _))

theorem Stops.unique {ord : IterOrder Nat} {h : Handle σ} {offset len k k' : Nat}
    (hk : Stops ord h offset len k) (hk' : Stops ord h offset len k') : k = k' := by
  rcases Nat.lt_trichotomy k k' with hlt | heq | hlt
  · exact absurd (hk.stop (hk'.before k hlt).1) (hk'.before k hlt).2
  · exact heq
  · exact absurd (hk'.stop (hk.before k' hlt).1) (hk.before k' hlt).2

section Disturbance

variable {ord : IterOrder Nat} {c : σ} {f g g' : OpenFile} {first k ci p : Nat}

theorem PushedOut.succ {i : Nat} (h : PushedOut ord f first k i) : PushedOut ord f first (k + 1) i := by
  obtain ⟨hin, j, hj, hout⟩ := h
  exact ⟨hin, j, by omega, hout⟩

/-- The handle with a new slot map. -/
def withSlots (f : OpenFile) (slotMap : List (Option Nat)) : OpenFile := { f with slotMap }

/-- What `k` chunks of a write to `[offset, stop)` do to the positions outside. -/
structure Undisturbed (ord : IterOrder Nat) (c : σ) (f : OpenFile) (offset stop k : Nat)
    (g : OpenFile) : Prop where
  cached : ∀ i, g.cache.get i = none ↔ (taken ord f (offset / chunkSize) k).cache.get i = none
  headSlot : g.headSlot = f.headSlot
  slotMap : ∃ m, g.slotMap = f.slotMap ++ List.replicate m none
  pushed : ∀ p, p < offset ∨ stop ≤ p → PushedOut ord f (offset / chunkSize) k (p / chunkSize) →
    byteOf ⟨c, g⟩ p = diskByte c g p
  kept : ∀ p, p < offset ∨ stop ≤ p → ¬ PushedOut ord f (offset / chunkSize) k (p / chunkSize) →
    byteOf ⟨c, g⟩ p = byteOf ⟨c, withSlots f g.slotMap⟩ p

namespace Undisturbed

variable {offset stop : Nat}

theorem start (ord : IterOrder Nat) (c : σ) (f : OpenFile) (offset stop : Nat) :
    Undisturbed ord c f offset stop 0 f where
  cached _ := Iff.rfl
  headSlot := rfl
  slotMap := ⟨0, by simp⟩
  pushed p _ hp := by
    obtain ⟨hin, j, hj, hout⟩ := hp
    obtain rfl : j = 0 := by omega
    exact absurd hout hin
  kept _ _ _ := rfl

/-- A chunk that is not in the cache now was not there before, unless it has been pushed out. -/
theorem uncached (h : Undisturbed ord c f offset stop k g) {i : Nat} (hg : g.cache.get i = none)
    (hp : ¬ PushedOut ord f (offset / chunkSize) k i) : f.cache.get i = none := by
  by_contra hin
  exact hp ⟨hin, k, le_rfl, (h.cached i).mp hg⟩

/-- Bytes come from the disk where the chunk is not in the cache. -/
theorem kept_uncached (h : Undisturbed ord c f offset stop k g)
    (hg : g.cache.get (p / chunkSize) = none)
    (hp : ¬ PushedOut ord f (offset / chunkSize) k (p / chunkSize)) (hhead : g'.headSlot = f.headSlot) :
    diskByte c g' p = byteOf ⟨c, withSlots f g'.slotMap⟩ p := by
  have hf : (withSlots f g'.slotMap).cache.get (p / chunkSize) = none := h.uncached hg hp
  have hdisk : diskChunk c g' = diskChunk c (withSlots f g'.slotMap) := diskChunk_congr rfl hhead
  rw [byteOf_uncached hf, diskByte, diskByte, hdisk]

/-- Both facts survive a longer slot map. -/
theorem lengthen (h : Undisturbed ord c f offset stop k g) {m : Nat}
    (hcache : g'.cache = g.cache) (hhead : g'.headSlot = g.headSlot)
    (hmap : g'.slotMap = g.slotMap ++ List.replicate m none) :
    Undisturbed ord c f offset stop k g' where
  cached i := by rw [hcache]; exact h.cached i
  headSlot := hhead.trans h.headSlot
  slotMap := by
    obtain ⟨n, hn⟩ := h.slotMap
    exact ⟨n + m, by rw [hmap, hn, List.append_assoc, List.replicate_append_replicate]⟩
  pushed p hp hpush := by
    cases hc : g.cache.get (p / chunkSize) with
    | none => exact byteOf_uncached (by rw [hcache]; exact hc)
    | some d =>
      have hbyte : byteOf ⟨c, g⟩ p = some (d.getD (p % chunkSize) 0) := byteOf_cached hc
      rw [byteOf_cached (by rw [hcache]; exact hc)]
      exact (diskByte_extended hmap hhead ((h.pushed p hp hpush).symm.trans hbyte)).symm
  kept p hp hpush := by
    cases hc : g.cache.get (p / chunkSize) with
    | none =>
      rw [byteOf_uncached (by rw [hcache]; exact hc)]
      exact h.kept_uncached hc hpush (hhead.trans h.headSlot)
    | some d =>
      have hbyte : byteOf ⟨c, g⟩ p = some (d.getD (p % chunkSize) 0) := byteOf_cached hc
      rw [byteOf_cached (by rw [hcache]; exact hc)]
      exact (byteOf_extended (f := withSlots f g.slotMap) (g := withSlots f g'.slotMap) hmap rfl rfl
        ((h.kept p hp hpush).symm.trans hbyte)).symm

theorem extend (h : Undisturbed ord c f offset stop k g) (ci : Nat) :
    Undisturbed ord c f offset stop k (extendSlotMap ci g) := by
  obtain ⟨hcache, -, hhead, -⟩ := extendSlotMap_frame ci g
  obtain ⟨m, hm⟩ : ∃ m, (extendSlotMap ci g).slotMap = g.slotMap ++ List.replicate m none := by
    unfold extendSlotMap
    split
    · exact ⟨_, rfl⟩
    · exact ⟨0, by simp⟩
  exact h.lengthen hcache hhead hm

end Undisturbed

/-- Outside the piece a chunk in the cache reads as before. -/
theorem Took.byteOf {off stop : Nat} {d piece : List UInt8} (h : Took ord c ci off stop d piece g g')
    (hp : p / chunkSize = ci → p % chunkSize < off ∨ off + piece.length ≤ p % chunkSize)
    (hin : g'.cache.get (p / chunkSize) ≠ none) :
    Venom.Fuse.byteOf ⟨c, g'⟩ p = Venom.Fuse.byteOf ⟨c, g⟩ p := by
  by_cases hci : p / chunkSize = ci
  · have hnew : g'.cache.get (p / chunkSize) = some (patch 0 d off piece) := by
      rw [h.get, if_pos hci]
    rw [byteOf_cached hnew, getD_patch_outside (hp hci)]
    rcases h.base with hold | ⟨hnone, hdisk⟩
    · rw [byteOf_cached (hci ▸ hold)]
    · rw [byteOf_uncached (hci ▸ hnone), diskByte, hci]
      rcases hdisk with hdisk | ⟨hdisk, rfl⟩
      · rw [hdisk, Option.map_some]
      · rw [hdisk, Option.map_some, List.getD_nil, List.getD_eq_getElem?_getD, List.getElem?_replicate]
        split <;> rfl
  · have hnew : g'.cache.get (p / chunkSize) = (makeRoom ord ci g).cache.get (p / chunkSize) := by
      rw [h.get, if_neg hci]
    have hsame : g'.cache.get (p / chunkSize) = g.cache.get (p / chunkSize) :=
      (makeRoom_get ord ci g (p / chunkSize)).elim hnew.trans fun hout => absurd (hnew.trans hout.1) hin
    unfold Venom.Fuse.byteOf chunkBytes
    rw [hsame, diskChunk_congr h.slotMap h.headSlot]

end Disturbance

/-- One more chunk. -/
theorem Undisturbed.took {ord : IterOrder Nat} {c : σ} {f g g' : OpenFile} {offset stop k ci off total : Nat}
    {d piece : List UInt8} (h : Undisturbed ord c f offset stop k g)
    (ht : Took ord c ci off total d piece g g')
    (hp : ∀ p, p < offset ∨ stop ≤ p → p / chunkSize = ci →
      p % chunkSize < off ∨ off + piece.length ≤ p % chunkSize)
    (hcached : ∀ i, g'.cache.get i = none ↔ (taken ord f (offset / chunkSize) (k + 1)).cache.get i = none) :
    Undisturbed ord c f offset stop (k + 1) g' := by
  -- what is in the cache now was not pushed out by this chunk
  have hpush : ∀ {i}, g'.cache.get i ≠ none → PushedOut ord f (offset / chunkSize) (k + 1) i →
      PushedOut ord f (offset / chunkSize) k i := by
    intro i hin ⟨hf, j, hj, hout⟩
    refine ⟨hf, j, Nat.le_of_lt_succ (lt_of_le_of_ne hj fun e => hin ?_), hout⟩
    rw [hcached]
    subst e
    exact hout
  have hhead := ht.headSlot.trans h.headSlot
  refine ⟨hcached, hhead, ?_, fun p hout hpushed => ?_, fun p hout hkept => ?_⟩
  · rw [ht.slotMap]
    exact h.slotMap
  · by_cases hin : g'.cache.get (p / chunkSize) = none
    · exact byteOf_uncached hin
    · rw [ht.byteOf (hp p hout) hin, h.pushed p hout (hpush hin hpushed), diskByte, diskByte,
        diskChunk_congr ht.slotMap ht.headSlot]
  · by_cases hin : g'.cache.get (p / chunkSize) = none
    · rw [byteOf_uncached hin]
      have hf : (withSlots f g'.slotMap).cache.get (p / chunkSize) = none := by
        by_contra hne
        exact hkept ⟨hne, k + 1, le_rfl, (hcached _).mp hin⟩
      have hdisk : diskChunk c g' = diskChunk c (withSlots f g'.slotMap) := diskChunk_congr rfl hhead
      rw [byteOf_uncached hf, diskByte, diskByte, hdisk]
    · rw [ht.byteOf (hp p hout) hin, h.kept p hout fun hk => hkept hk.succ, ht.slotMap]

/-! ## The loop -/

/-- A write that has placed `[offset, pos)`, the bytes of its first `k` chunks. -/
structure Placing (ord : IterOrder Nat) (c : σ) (f : OpenFile) (offset : Nat) (data : List UInt8)
    (k pos : Nat) (g : OpenFile) : Prop where
  same : SameCache g (taken ord f (offset / chunkSize) k)
  undisturbed : Undisturbed ord c f offset (offset + data.length) k g
  totalSize : g.totalSize = if k = 0 then f.totalSize else max (offset + data.length) f.totalSize
  placed : ∀ p, offset ≤ p → p < pos → ∃ d, g.cache.get (p / chunkSize) = some d ∧
    d[p % chunkSize]? = data[p - offset]? ∧ p / chunkSize ∈ g.dirty
  chunk : pos < offset + data.length → pos / chunkSize = offset / chunkSize + k
  first : k = 0 → pos = offset
  aligned : k ≠ 0 → pos < offset + data.length → pos % chunkSize = 0
  lower : offset ≤ pos
  upper : pos ≤ offset + data.length
  reached : pos = offset + data.length →
    data.length = 0 ∨ offset + data.length ≤ (offset / chunkSize + k) * chunkSize

namespace Placing

variable {ord : IterOrder Nat} {c : σ} {f g g' : OpenFile} {offset k pos : Nat} {data : List UInt8}

theorem begin (ord : IterOrder Nat) (c : σ) (f : OpenFile) (offset : Nat) (data : List UInt8) :
    Placing ord c f offset data 0 offset f where
  same := .refl f
  undisturbed := .start ord c f offset _
  totalSize := rfl
  placed p hp hlt := by omega
  chunk _ := rfl
  first _ := rfl
  aligned h := absurd rfl h
  lower := le_rfl
  upper := by omega
  reached h := .inl (by omega)

theorem hasPiece (h : Placing ord c f offset data k pos g) (hlt : pos < offset + data.length) :
    HasPiece offset data.length k := by
  have hlower := h.lower
  have hsplit := chunk_split pos
  refine ⟨by omega, ?_⟩
  rw [← h.chunk hlt]
  omega

theorem not_hasPiece (h : Placing ord c f offset data k pos g) (hge : ¬ pos < offset + data.length) :
    ¬ HasPiece offset data.length k := by
  intro ⟨hne, hlt⟩
  have hupper := h.upper
  rcases h.reached (by omega) with hnil | hle
  · exact hne hnil
  · omega

/-- The entry of the next chunk is the one it has in the first handle. -/
theorem missing_iff (h : Placing ord c f offset data k pos g) (hlt : pos < offset + data.length) :
    Missing ord ⟨c, f⟩ offset k ↔ g.cache.get (pos / chunkSize) = none ∧
      diskChunk c (extendSlotMap (pos / chunkSize) g) (pos / chunkSize) = none := by
  have hentry : (extendSlotMap (pos / chunkSize) g).slotMap[pos / chunkSize]? =
      (extendSlotMap (pos / chunkSize) f).slotMap[pos / chunkSize]? := by
    obtain ⟨m, hm⟩ := h.undisturbed.slotMap
    rw [extendSlotMap_entry, extendSlotMap_entry, hm]
    by_cases hin : pos / chunkSize < f.slotMap.length
    · rw [List.getElem?_append_left hin]
    · rw [List.getElem?_append_right (by omega), List.getElem?_replicate,
        List.getElem?_eq_none (Nat.not_lt.mp hin)]
      split <;> rfl
  have hdisk : diskChunk c (extendSlotMap (pos / chunkSize) g) (pos / chunkSize) =
      diskChunk c (extendSlotMap (pos / chunkSize) f) (pos / chunkSize) := by
    unfold diskChunk
    rw [hentry, (extendSlotMap_frame _ g).2.2.1, (extendSlotMap_frame _ f).2.2.1, h.undisturbed.headSlot]
  rw [Missing, ← h.chunk hlt, hdisk, h.same.get_none]

/-- One piece more. -/
theorem step {d : List UInt8} (h : Placing ord c f offset data k pos g)
    (hlt : pos < offset + data.length)
    (ht : Took ord c (pos / chunkSize) (pos % chunkSize) (offset + data.length) d
      ((data.drop (pos - offset)).take (pieceLen (offset + data.length) pos))
      (extendSlotMap (pos / chunkSize) g) g') :
    Placing ord c f offset data (k + 1) (pos + pieceLen (offset + data.length) pos) g' := by
  have hlower := h.lower
  have hsplit := chunk_split pos
  have hmod := Nat.mod_lt pos chunkSize_pos
  have htake : pieceLen (offset + data.length) pos =
      min (chunkSize - pos % chunkSize) (offset + data.length - pos) := rfl
  have hlen : ((data.drop (pos - offset)).take (pieceLen (offset + data.length) pos)).length =
      pieceLen (offset + data.length) pos := by
    rw [List.length_take, List.length_drop]; omega
  have hchunk : offset / chunkSize + k = pos / chunkSize := (h.chunk hlt).symm
  have hnext : (pos / chunkSize + 1) * chunkSize = pos / chunkSize * chunkSize + chunkSize :=
    Nat.succ_mul _ _
  obtain ⟨hcache, hdirty, -, htotal⟩ := extendSlotMap_frame (pos / chunkSize) g
  obtain ⟨hroom, hroomDirty⟩ := makeRoom_recached ord (pos / chunkSize)
    (extendSlotMap (pos / chunkSize) (taken ord f (offset / chunkSize) k))
  have hsame : SameCache g' (taken ord f (offset / chunkSize) (k + 1)) := by
    have hext := h.same.extend (pos / chunkSize)
    rw [taken, hchunk]
    refine ⟨?_, ?_, ?_⟩
    · rw [ht.keys, (hext.makeRoom ord (pos / chunkSize)).keys]
      exact (HashMap.keys_insert _ _ _).symm
    · rw [ht.dirty, hext.dirty, ← hroomDirty]
      rfl
    · rw [ht.slotMap, hext.slotMap, ← hroom.slotMap]
      rfl
  have hin : ∀ p, p / chunkSize = pos / chunkSize → p = pos / chunkSize * chunkSize + p % chunkSize :=
    fun p hp => by rw [← hp, chunk_split]
  have hbefore : ∀ p, offset ≤ p → p < pos → p / chunkSize ≠ pos / chunkSize := fun p hp hpos heq => by
    -- the chunks before this one are complete
    have hk : k ≠ 0 := fun hk => by have := h.first hk; omega
    have := hin p heq
    have := h.aligned hk hlt
    omega
  refine ⟨hsame, ?_, ?_, fun p hp hpos => ?_, fun hmore => ?_, fun hk => absurd hk (by omega), fun _ hmore => ?_,
    by omega, by omega, fun hend => .inr ?_⟩
  · refine (h.undisturbed.extend (pos / chunkSize)).took ht (fun p hp heq => ?_) fun i => hsame.get_none
    have := hin p heq
    rw [hlen]
    omega
  · rw [ht.totalSize, htotal, h.totalSize]
    split <;> simp
  · by_cases heq : p / chunkSize = pos / chunkSize
    · have hp' := hin p heq
      have hge : pos ≤ p := by
        by_contra hlt'
        exact hbefore p hp (by omega) heq
      refine ⟨_, by rw [ht.get, if_pos heq], ?_, by rw [ht.dirty, heq]; simp⟩
      rw [Chunks.getElem?_patch_inside 0 d _ _ (by omega) (by rw [hlen]; omega),
        List.getElem?_take_of_lt (by omega), List.getElem?_drop]
      congr 1
      omega
    · have hlt' : p < pos := by
        by_contra hge
        have hle : p / chunkSize < pos / chunkSize + 1 :=
          (Nat.div_lt_iff_lt_mul chunkSize_pos).mpr (by omega)
        have hge' : pos / chunkSize ≤ p / chunkSize := Nat.div_le_div_right (by omega)
        omega
      obtain ⟨d₀, hd₀, hbyte, hmem⟩ := h.placed p hp hlt'
      refine ⟨d₀, ?_, hbyte, by rw [ht.dirty, hdirty]; simp [hmem]⟩
      -- a dirty chunk is not pushed out
      rw [ht.get, if_neg heq]
      rcases makeRoom_get ord (pos / chunkSize) (extendSlotMap (pos / chunkSize) g) (p / chunkSize)
        with hkeep | ⟨-, hclean⟩
      · rw [hkeep, hcache, hd₀]
      · exact absurd (hdirty ▸ hmem) hclean
  · have hpos : pos + pieceLen (offset + data.length) pos = (pos / chunkSize + 1) * chunkSize := by omega
    rw [hpos, Nat.mul_div_cancel _ chunkSize_pos]
    omega
  · have hpos : pos + pieceLen (offset + data.length) pos = (pos / chunkSize + 1) * chunkSize := by omega
    rw [hpos, Nat.mul_mod_left]
  · rw [show offset / chunkSize + (k + 1) = pos / chunkSize + 1 by omega]
    omega

end Placing

/-- The loop of a write places everything, or everything in front of the first missing chunk. -/
theorem writeLoop_stops {ord : IterOrder Nat} {c : σ} {f g : OpenFile} {offset k pos : Nat}
    {data : List UInt8} (h : Placing ord c f offset data k pos g)
    (hbefore : ∀ j < k, HasPiece offset data.length j ∧ ¬ Missing ord ⟨c, f⟩ offset j) :
    ∃ n stop g', Stops ord ⟨c, f⟩ offset data.length n ∧ Placing ord c f offset data n stop g' ∧
      ((writeLoop ord offset data pos).run ⟨c, g⟩ = .ok () ⟨c, g'⟩ ∧ stop = offset + data.length ∧
          ¬ HasPiece offset data.length n ∨
        (writeLoop ord offset data pos).run ⟨c, g⟩ = .error eio ⟨c, extendSlotMap (stop / chunkSize) g'⟩ ∧
          stop < offset + data.length) := by
  induction hn : offset + data.length - pos using Nat.strongRecOn generalizing k pos g with
  | _ n ih =>
    rw [writeLoop]
    split
    next hlt =>
      dsimp only
      rcases writePiece_cases ord c g (offset + data.length) pos
        ((data.drop (pos - offset)).take (pieceLen (offset + data.length) pos)) with
        ⟨d, g₁, hrun, ht⟩ | ⟨hrun, hcache, hdisk⟩
      · rw [run_bind_of_ok hrun]
        have hpos := pieceLen_pos hlt
        refine ih _ (by omega) (h.step hlt ht) (fun j hj => ?_) rfl
        rcases Nat.lt_succ_iff_lt_or_eq.mp hj with hj | rfl
        · exact hbefore j hj
        · refine ⟨h.hasPiece hlt, fun hmiss => ?_⟩
          obtain ⟨hnone, hnodisk⟩ := (h.missing_iff hlt).mp hmiss
          rw [← (extendSlotMap_frame (pos / chunkSize) g).1] at hnone
          rcases ht.base with hin | ⟨-, hd | ⟨hd, -⟩⟩
          · rw [hnone] at hin; cases hin
          · rw [hnodisk] at hd; cases hd
          · rw [hnodisk] at hd; cases hd
      · rw [run_bind_of_error hrun]
        exact ⟨k, pos, g, ⟨hbefore, fun _ => (h.missing_iff hlt).mpr ⟨hcache, hdisk⟩⟩, h, .inr ⟨rfl, hlt⟩⟩
    next hge =>
      have hnone := h.not_hasPiece hge
      have hupper := h.upper
      exact ⟨k, pos, g, ⟨hbefore, fun hp => absurd hp hnone⟩, h, .inl ⟨rfl, by omega, hnone⟩⟩

/-! ## Outside the write -/

section Outside

variable {ord : IterOrder Nat} {c : σ} {f g t : OpenFile} {offset stop k n p pos : Nat} {data : List UInt8}

/-- The bytes outside the write, once it has stopped with the slot map of `t`. -/
theorem Undisturbed.outside (h : Undisturbed ord c f offset stop k g) (hp : p < offset ∨ stop ≤ p)
    (hmap : t.slotMap = g.slotMap) (hhead : t.headSlot = f.headSlot) :
    byteOf ⟨c, g⟩ p =
      if FromDisk ord f offset k p then diskByte c t p else byteOf ⟨c, f⟩ p := by
  have hdisk : diskChunk c g = diskChunk c t := diskChunk_congr hmap.symm (h.headSlot.trans hhead.symm)
  split
  next hcase =>
    by_cases hpush : PushedOut ord f (offset / chunkSize) k (p / chunkSize)
    · rw [h.pushed p hp hpush, diskByte, diskByte, hdisk]
    · have hnone : (withSlots f g.slotMap).cache.get (p / chunkSize) = none := hcase.resolve_right hpush
      have hslots : diskChunk c (withSlots f g.slotMap) = diskChunk c t := diskChunk_congr hmap.symm hhead.symm
      rw [h.kept p hp hpush, byteOf_uncached hnone, diskByte, diskByte, hslots]
  next hcase =>
    obtain ⟨hne, hpush⟩ := not_or.mp hcase
    obtain ⟨d, hd⟩ := Option.ne_none_iff_exists'.mp hne
    have hslots : (withSlots f g.slotMap).cache.get (p / chunkSize) = some d := hd
    rw [h.kept p hp hpush, byteOf_cached hslots, byteOf_cached hd]

theorem taken_slotMap (ord : IterOrder Nat) (f : OpenFile) (first n : Nat) :
    (taken ord f first (n + 1)).slotMap = (extendSlotMap (first + n) f).slotMap := by
  have hlast : ∀ t : OpenFile, (takeChunk ord (first + n) t).slotMap = (extendSlotMap (first + n) t).slotMap :=
    fun t => (makeRoom_recached ord (first + n) (extendSlotMap (first + n) t)).1.slotMap
  rw [taken, hlast]
  cases n with
  | zero => rfl
  | succ n =>
    rw [extendSlotMap_congr (taken_slotMap ord f first n)]
    exact extendSlotMap_extend (by omega) f

theorem taken_headSlot (ord : IterOrder Nat) (f : OpenFile) (first n : Nat) :
    (taken ord f first n).headSlot = f.headSlot := by
  induction n with
  | zero => rfl
  | succ n ih =>
    rw [taken]
    change (makeRoom ord _ (extendSlotMap _ (taken ord f first n))).headSlot = _
    rw [(makeRoom_recached ord _ _).1.headSlot, (extendSlotMap_frame _ _).2.2.1, ih]

theorem stretched_headSlot (f : OpenFile) (offset len n : Nat) : (stretched f offset len n).headSlot = f.headSlot := by
  unfold stretched
  split
  · rfl
  · exact (extendSlotMap_frame _ _).2.2.1

/-- A write has extended the slot map as far as it has got. -/
theorem Placing.stretched_slotMap (h : Placing ord c f offset data n pos g)
    (hs : Stops ord ⟨c, f⟩ offset data.length n) : (stretched f offset data.length n).slotMap =
      (if HasPiece offset data.length n then extendSlotMap (offset / chunkSize + n) g else g).slotMap := by
  have hmap := h.same.slotMap
  unfold stretched
  by_cases hpiece : HasPiece offset data.length n
  · rw [if_neg hpiece.1, if_pos hpiece, if_pos hpiece, extendSlotMap_congr hmap]
    cases n with
    | zero => rfl
    | succ n =>
      rw [extendSlotMap_congr (taken_slotMap ord f _ n)]
      exact (extendSlotMap_extend (by omega) f).symm
  · rw [if_neg hpiece, if_neg hpiece, hmap]
    split
    next hnil =>
      -- nothing is written
      cases n with
      | zero => rfl
      | succ n => exact absurd hnil (hs.before n (Nat.lt_succ_self n)).1.1
    next hne =>
      cases n with
      | zero =>
        have hsplit := chunk_split offset
        exact absurd ⟨hne, by rw [Nat.add_zero]; omega⟩ hpiece
      | succ n => exact (taken_slotMap ord f _ n).symm

end Outside

end Pieces

end Venom.Fuse
