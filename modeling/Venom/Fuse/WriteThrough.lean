import Venom.Fuse.FailedCalls
import Venom.Fuse.FlushRoom

/-! # Write-through without room

Write-through fails at the first new chunk that finds no slot: the chunks in front of it are
on the disk by then, and no longer in the cache.  Nothing is assumed of the slots they go to.
They may be the slots of other chunks of the handle, or of its head, and then those are read
from there as well.  `source` says where a chunk is read from afterwards, by what the slot map
and the free list were before.
-/

namespace Venom.Fuse

open Venom.Storage
open Venom.Library
open Venom.Library.OptionLists
open Venom.Library.StateError

variable {σ : Type} [NodeStore σ] [NodeView σ]

/-! ## The chunks that are stored -/

/-- The chunks that write-through comes to, in order. -/
def throughQueue (ord : IterOrder Nat) (f : OpenFile) : List Nat :=
  (((ord.order f.dirty.elems).filter (1 ≤ ·)).mergeSort (· ≤ ·)).take
    (dirtyContinuations f - writeThroughThreshold / 2)

theorem throughQueue_nodup (ord : IterOrder Nat) (f : OpenFile) : (throughQueue ord f).Nodup :=
  ((List.mergeSort_perm _ _).nodup_iff.mpr (toStore_nodup ord f)).sublist (List.take_sublist _ _)

/-- The chunks `done` use up the free list, and a new one is next. -/
structure Fills (ord : IterOrder Nat) (c : σ) (f : OpenFile) (done : List Nat) : Prop where
  next : ∃ ci rest, throughQueue ord f = done ++ ci :: rest ∧ f.cache.get ci ≠ none ∧
    f.slotMap[ci]? = some none
  full : (newChunks f done).length = (free c).length

omit [NodeStore σ] in
theorem Fills.not_longer {ord : IterOrder Nat} {c : σ} {f : OpenFile} {done done' : List Nat}
    (h : Fills ord c f done) (h' : Fills ord c f done') : done'.length ≤ done.length := by
  by_contra hlt
  obtain ⟨ci, rest, hq, hin, hs⟩ := h.next
  obtain ⟨ci', rest', hq', -, -⟩ := h'.next
  have hprefix : done ++ [ci] <+: done' := by
    have hfront : done ++ [ci] <+: throughQueue ord f := ⟨rest, by rw [hq]; simp⟩
    refine List.prefix_of_prefix_length_le hfront ⟨ci' :: rest', hq'.symm⟩ ?_
    rw [List.length_append, List.length_singleton]
    omega
  obtain ⟨more, rfl⟩ := hprefix
  have hfull := h.full
  have hfull' := h'.full
  rw [newChunks, List.filter_append, ← newChunks, newChunks_snoc, if_pos ⟨hin, hs⟩, List.length_append,
    List.length_append, List.length_singleton] at hfull'
  omega

omit [NodeStore σ] in
theorem Fills.unique {ord : IterOrder Nat} {c : σ} {f : OpenFile} {done done' : List Nat}
    (h : Fills ord c f done) (h' : Fills ord c f done') : done = done' := by
  have hlen := Nat.le_antisymm (h'.not_longer h) (h.not_longer h')
  obtain ⟨ci, rest, hq, -, -⟩ := h.next
  obtain ⟨ci', rest', hq', -, -⟩ := h'.next
  exact (List.append_inj (hq.symm.trans hq') hlen).1

/-- The chunks `done` have gone from the cache to their slots. -/
structure WroteThrough (c : σ) (f : OpenFile) (done : List Nat) (h : Handle σ) : Prop where
  stored : StoredUpTo c f done ⟨h.container, { h.file with cache := f.cache, dirty := f.dirty }⟩
  cache : ∀ i, h.file.cache.get i =
    if i ∈ done ∧ i < f.slotMap.length then none else f.cache.get i
  room : (newChunks f done).length ≤ (free c).length

namespace WroteThrough

variable {c : σ} {f : OpenFile} {done : List Nat} {h : Handle σ} {ci : Nat}

theorem start (c : σ) (f : OpenFile) : WroteThrough c f [] ⟨c, f⟩ where
  stored := .start c f
  cache _ := by simp
  room := Nat.zero_le _

theorem slotMap (h₁ : WroteThrough c f done h) :
    h.file.slotMap = slotsFilled f (free c).reverse done := by
  obtain ⟨b, hfile, -⟩ := h₁.stored.file
  have hsame := congrArg OpenFile.slotMap hfile
  exact hsame

theorem headSlot (h₁ : WroteThrough c f done h) : h.file.headSlot = f.headSlot := by
  obtain ⟨b, hfile, -⟩ := h₁.stored.file
  have hsame := congrArg OpenFile.headSlot hfile
  exact hsame

theorem totalSize (h₁ : WroteThrough c f done h) : h.file.totalSize = f.totalSize := by
  obtain ⟨b, hfile, -⟩ := h₁.stored.file
  have hsame := congrArg OpenFile.totalSize hfile
  exact hsame

/-- A chunk that is still to come is as it was. -/
theorem pending (h₁ : WroteThrough c f done h) (hci : ci ∉ done) :
    h.file.cache.get ci = f.cache.get ci ∧ h.file.slotMap[ci]? = f.slotMap[ci]? := by
  refine ⟨by rw [h₁.cache, if_neg fun hin => hci hin.1], ?_⟩
  rw [h₁.slotMap]
  exact slotsFilled_kept fun hmem => hci (List.mem_of_mem_filter hmem)

theorem cache_snoc (h₁ : WroteThrough c f done h) {f' : OpenFile} (hlt : ci < f.slotMap.length)
    (hcache : f'.cache = h.file.cache.remove ci) (i : Nat) : f'.cache.get i =
      if i ∈ done ++ [ci] ∧ i < f.slotMap.length then none else f.cache.get i := by
  rw [hcache, HashMap.get_remove, h₁.cache]
  by_cases hi : i = ci
  · rw [if_pos hi, if_pos ⟨by rw [hi]; simp, hi ▸ hlt⟩]
  · rw [if_neg hi]
    simp [hi]

variable [LawfulNodeStore σ]

/-- One chunk more. -/
theorem step {h' : Handle σ} (h₁ : WroteThrough c f done h) (hw : HandleWithin (IsDataSlot c) ⟨c, f⟩)
    (hci : ci ∉ done) (hrun : (writeThroughChunk ci).run h = .ok () h') :
    WroteThrough c f (done ++ [ci]) h' := by
  obtain ⟨hcached, hentry⟩ := h₁.pending hci
  obtain ⟨_, _, hget, hcont⟩ := run_bind_ok.mp hrun
  cases hget
  split at hcont
  next hin =>
    obtain ⟨d, hd⟩ := (HashMap.containsKey_eq_true _ _).mp hin.1
    obtain ⟨_, h₂, hstore, hdrop⟩ := run_bind_ok.mp hcont
    rw [modifyFile_ok] at hdrop
    subst hdrop
    obtain ⟨_, _, hget, hstore⟩ := run_bind_ok.mp hstore
    cases hget
    rw [hd] at hstore
    dsimp only at hstore
    rw [hcached] at hd
    have hlt : ci < f.slotMap.length := by
      have hlt := hin.2
      rwa [h₁.slotMap, slotsFilled, length_fill] at hlt
    split at hstore
    next slot hslot =>
      obtain ⟨c', hupdate, rfl⟩ := onContainer_ok.mp hstore
      rw [hentry] at hslot
      refine ⟨h₁.stored.update hw hci hd hslot hupdate, h₁.cache_snoc hlt rfl, ?_⟩
      rw [newChunks_snoc, if_neg (by simp [hslot]), List.append_nil]
      exact h₁.room
    next hslot =>
      obtain ⟨slot, h₃, hplace, hassign⟩ := run_bind_ok.mp hstore
      obtain ⟨c', hwrite, rfl⟩ := onContainer_ok.mp hplace
      rw [modifyFile_ok] at hassign
      subst hassign
      rw [hentry] at hslot
      refine ⟨h₁.stored.place hw hci hd hslot hwrite, h₁.cache_snoc hlt rfl, ?_⟩
      -- the slot came from the rest of the free list
      have hmem := LawfulNodeStore.writeNode_ok_free (writeNode_store hwrite)
      have hlen := congrArg List.length h₁.stored.pool
      have hpos := List.length_pos_of_mem hmem
      simp only [List.length_reverse, List.length_drop] at hlen
      rw [newChunks_snoc, if_pos ⟨by simp [hd], hslot⟩, List.length_append, List.length_singleton]
      omega
    next hslot =>
      rw [List.getElem?_eq_getElem hin.2] at hslot
      exact absurd hslot (Option.some_ne_none _)
  next hout =>
    cases hcont
    have hskip : f.cache.get ci = none ∨ f.slotMap[ci]? = none := by
      rw [← hcached, ← hentry, ← HashMap.containsKey_eq_false, List.getElem?_eq_none_iff]
      by_contra hno
      obtain ⟨hkey, hlen⟩ := not_or.mp hno
      exact hout ⟨by simpa using hkey, Nat.not_le.mp hlen⟩
    refine ⟨h₁.stored.skip hci hskip, fun i => ?_, ?_⟩
    · rw [h₁.cache]
      by_cases hi : i = ci
      · rw [if_neg fun hin => hci (hi ▸ hin.1)]
        split
        next hin =>
          rcases hskip with hnone | hnone
          · rw [hi, hnone]
          · exact absurd (hi ▸ hin.2) (Nat.not_lt.mpr (List.getElem?_eq_none_iff.mp hnone))
        next => rfl
      · simp [hi]
    · rw [newChunks_snoc, if_neg, List.append_nil]
      · exact h₁.room
      · rintro ⟨hin, hslot⟩
        rcases hskip with hnone | hnone
        · exact hin hnone
        · rw [hnone] at hslot
          cases hslot

/-- A chunk that cannot be stored is a new one, and there is no free slot. -/
theorem failed {h' : Handle σ} {e : Failure} (h₁ : WroteThrough c f done h)
    (hw : HandleWithin (IsDataSlot c) ⟨c, f⟩) (hci : ci ∉ done)
    (hrun : (writeThroughChunk ci).run h = .error e h') :
    f.cache.get ci ≠ none ∧ f.slotMap[ci]? = some none ∧
      (newChunks f done).length = (free c).length := by
  obtain ⟨hcached, hentry⟩ := h₁.pending hci
  have hcipher : NodeStore.cipher h.container = NodeStore.cipher c := h₁.stored.volume.cipher
  rcases run_bind_error.mp hrun with hget | ⟨_, _, hget, hcont⟩
  · cases hget
  cases hget
  split at hcont
  next hin =>
    obtain ⟨d, hd⟩ := (HashMap.containsKey_eq_true _ _).mp hin.1
    have hfits : Fits (NodeStore.cipher h.container) (dataNode d) :=
      fileData_fits _ (hw.file.cached ci d (hcached.symm.trans hd))
    rcases run_bind_error.mp hcont with hstore | ⟨_, _, -, hdrop⟩
    · rcases run_bind_error.mp hstore with hget | ⟨_, _, hget, hstore⟩
      · cases hget
      cases hget
      rw [hd] at hstore
      dsimp only at hstore
      split at hstore
      next slot hslot =>
        obtain ⟨c', hupdate, -⟩ := onContainer_error.mp hstore
        exact absurd hfits (updateNode_failed hupdate).1
      next hslot =>
        have hdirty : f.cache.get ci ≠ none := by
          rw [← hcached, hd]
          exact Option.some_ne_none d
        refine ⟨hdirty, by rw [← hentry, hslot], Nat.le_antisymm h₁.room ?_⟩
        rcases run_bind_error.mp hstore with hplace | ⟨_, _, -, hassign⟩
        · obtain ⟨c', hwrite, -⟩ := onContainer_error.mp hplace
          obtain ⟨e', hwrite'⟩ := writeNode_failed hwrite
          obtain ⟨-, -, ⟨hnil, -⟩ | ⟨s, -, hno⟩⟩ := LawfulNodeStore.writeNode_error hwrite'
          · have hlen := congrArg List.length h₁.stored.pool
            simp only [hnil, List.reverse_nil, List.length_nil, List.length_drop, List.length_reverse] at hlen
            omega
          · exact absurd hfits hno
        · cases hassign
      next => cases hstore
    · cases hdrop
  next => cases hcont

end WroteThrough

variable [LawfulNodeStore σ]

/-- Write-through that fails has stored what the free list has room for. -/
theorem writeThroughFlush_fills {ord : IterOrder Nat} {c : σ} {f : OpenFile} {h' : Handle σ} {e : Failure}
    (hw : HandleWithin (IsDataSlot c) ⟨c, f⟩)
    (hrun : (writeThroughFlush ord (dirtyContinuations f - writeThroughThreshold / 2)).run ⟨c, f⟩ =
      .error e h') :
    ∃ done h, Fills ord c f done ∧ WroteThrough c f done h ∧ HandleWithin (IsDataSlot c) h ∧
      h'.file = h.file ∧ SameNodes h.container h'.container := by
  have hnodup := throughQueue_nodup ord f
  rcases run_bind_error.mp hrun with hget | ⟨_, _, hget, hloop⟩
  · cases hget
  cases hget
  change ((throughQueue ord f).forM writeThroughChunk).run ⟨c, f⟩ = _ at hloop
  have hnot : ∀ done ci rest, throughQueue ord f = done ++ ci :: rest → ci ∉ done :=
    fun done ci rest hq hmem => by
      rw [hq] at hnodup
      exact (List.nodup_append.mp hnodup).2.2 ci hmem ci List.mem_cons_self rfl
  obtain ⟨done, ci, rest, h, hq, ⟨hst, hh⟩, hfail⟩ := forM_error_induction
    (fun done h => WroteThrough c f done h ∧ HandleWithin (IsDataSlot c) h) hloop ⟨.start c f, hw⟩
    fun done ci rest h₁ h₂ hq hst hrun =>
      ⟨hst.1.step hw (hnot done ci rest hq) hrun, ((writeThroughChunk_keeps ci).ok hst.2 hrun).1⟩
  obtain ⟨hin, hslot, hfull⟩ := hst.failed hw (hnot done ci rest hq) hfail
  obtain ⟨hfile, hnodes⟩ := writeThroughChunk_error hfail
  exact ⟨done, h, ⟨⟨ci, rest, hq, hin, hslot⟩, hfull⟩, hst, hh, hfile, hnodes⟩

/-! ## Where the chunks are read from -/

/-- Where a chunk is read from. -/
inductive Source
  | cache
  | disk
  /-- A slot that chunk `ci` was the last to go to. -/
  | stored (ci : Nat)
  /-- The slot of the head, which a chunk has gone to. -/
  | lost

/-- Where chunk `i` is read from once the chunks `done` have been stored. -/
def source (f : OpenFile) (pool done : List Nat) (i : Nat) : Source :=
  if f.cache.get i ≠ none ∧ ¬ (i ∈ done ∧ i < f.slotMap.length) then .cache
  else
    match (slotsFilled f pool done)[i]? with
    | some (some t) =>
      match lastStored f pool done t with
      | some ci => .stored ci
      | none => .disk
    | some none => if i = 0 ∧ (lastStored f pool done f.headSlot).isSome then .lost else .disk
    | none => .disk

omit [NodeStore σ] [NodeView σ] [LawfulNodeStore σ] in
/-- A stored chunk is in the cache, and its slot is read for it. -/
theorem lastStored_some {f : OpenFile} {pool done : List Nat} {t ci : Nat}
    (h : lastStored f pool done t = some ci) : ci ∈ done ∧ ∃ d, f.cache.get ci = some d := by
  obtain ⟨hmem, hin⟩ := List.mem_filter.mp (List.mem_of_getLast? h)
  exact ⟨hmem, Option.ne_none_iff_exists'.mp (of_decide_eq_true hin).1⟩

omit [NodeStore σ] [NodeView σ] [LawfulNodeStore σ] in
theorem lastStored_isSome {f : OpenFile} {pool done : List Nat} {t ci : Nat} (hci : ci ∈ done)
    (hin : f.cache.get ci ≠ none) (hslot : (slotsFilled f pool done)[ci]? = some (some t)) :
    lastStored f pool done t ≠ none := by
  rw [lastStored, Ne, List.getLast?_eq_none_iff]
  exact List.ne_nil_of_mem (List.mem_filter.mpr ⟨hci, decide_eq_true ⟨hin, hslot⟩⟩)

omit [NodeStore σ] [NodeView σ] [LawfulNodeStore σ] in
theorem source_cache {f : OpenFile} {pool done : List Nat} {i : Nat} (h : source f pool done i = .cache) :
    ∃ d, f.cache.get i = some d := by
  unfold source at h
  split at h
  next hin => exact Option.ne_none_iff_exists'.mp hin.1
  next =>
    split at h
    · split at h <;> cases h
    · split at h <;> cases h
    · cases h

omit [NodeStore σ] [NodeView σ] [LawfulNodeStore σ] in
theorem source_stored {f : OpenFile} {pool done : List Nat} {i ci : Nat}
    (h : source f pool done i = .stored ci) : ∃ d, f.cache.get ci = some d := by
  unfold source at h
  split at h
  next => cases h
  next =>
    split at h
    next t _ =>
      split at h
      next hl => cases h; exact (lastStored_some hl).2
      next => cases h
    next => split at h <;> cases h
    next => cases h

/-- The bytes that are read from there. -/
def readFrom (c : σ) (f : OpenFile) (i : Nat) : Source → Option (List UInt8)
  | .cache => f.cache.get i
  | .disk => diskChunk c f i
  | .stored ci => f.cache.get ci
  | .lost => none

namespace WroteThrough

variable {c : σ} {f : OpenFile} {done : List Nat} {h : Handle σ}

/-- What a slot holds. -/
theorem read (h₁ : WroteThrough c f done h) {t : Nat} (ht : IsDataSlot c t) :
    (NodeStore.readNode t h.container).toOption =
      (lastStored f (free c).reverse done t).elim (NodeStore.readNode t c).toOption fun ci =>
        (f.cache.get ci).map dataNode := by
  rw [LawfulNodeStore.readNode_eq _ _ (h₁.stored.volume.isDataSlot.mpr ht), h₁.stored.last t ht,
    LawfulNodeStore.readNode_eq _ _ ht]

omit [LawfulNodeStore σ] in
/-- A chunk that is read from the disk still has its old entry. -/
theorem entry (h₁ : WroteThrough c f done h) {i : Nat}
    (hno : ∀ t, (slotsFilled f (free c).reverse done)[i]? = some (some t) →
      lastStored f (free c).reverse done t = none) :
    (slotsFilled f (free c).reverse done)[i]? = f.slotMap[i]? := by
  refine slotsFilled_kept fun hmem => ?_
  obtain ⟨hdone, hnew⟩ := List.mem_filter.mp hmem
  obtain ⟨hin, hslot⟩ := of_decide_eq_true hnew
  have hroom : (newChunks f done).length ≤ (free c).reverse.length := by
    rw [List.length_reverse]
    exact h₁.room
  obtain ⟨t, -, ht⟩ := getElem?_fill_mem hroom hmem (List.getElem?_eq_some_iff.mp hslot).1
  exact lastStored_isSome hdone hin ht (hno t ht)

/-- Every chunk is read from its source. -/
theorem chunkBytes_eq (h₁ : WroteThrough c f done h) (hw : HandleWithin (IsDataSlot c) ⟨c, f⟩)
    (hh : HandleWithin (IsDataSlot c) h) (i : Nat) :
    chunkBytes h i = readFrom c f i (source f (free c).reverse done i) := by
  have hslots : ∀ {t}, (slotsFilled f (free c).reverse done)[i]? = some (some t) → IsDataSlot c t := fun ht => by
    rw [← h₁.slotMap] at ht
    exact hh.file.slots _ (List.mem_of_getElem? ht)
  unfold source
  split
  next hin =>
    obtain ⟨d, hd⟩ := Option.ne_none_iff_exists'.mp hin.1
    rw [chunkBytes_cached (d := d) (by rw [h₁.cache, if_neg hin.2, hd])]
    exact hd.symm
  next hout =>
    have hnone : h.file.cache.get i = none := by
      rw [h₁.cache]
      split
      next => rfl
      next hkept => exact by_contra fun hne => hout ⟨hne, hkept⟩
    rw [chunkBytes_uncached hnone, diskChunk, h₁.slotMap, h₁.headSlot]
    cases hs : (slotsFilled f (free c).reverse done)[i]? with
    | none =>
      have hentry := h₁.entry (i := i) fun t ht => by rw [hs] at ht; cases ht
      rw [hs] at hentry
      simp [readFrom, diskChunk, ← hentry]
    | some o =>
      cases o with
      | some t =>
        dsimp only
        rw [h₁.read (hslots hs)]
        cases hl : lastStored f (free c).reverse done t with
        | some ci =>
          obtain ⟨d, hd⟩ := (lastStored_some hl).2
          simp [readFrom, hd, chunkOfNode, dataNode]
        | none =>
          have hentry := h₁.entry (i := i) fun t' ht' => by cases hs.symm.trans ht'; exact hl
          rw [hs] at hentry
          simp [readFrom, diskChunk, ← hentry]
      | none =>
        have hentry := h₁.entry (i := i) fun t ht => by rw [hs] at ht; cases ht
        rw [hs] at hentry
        dsimp only
        rw [h₁.read hw.file.head]
        by_cases hi : i = 0
        · cases hl : lastStored f (free c).reverse done f.headSlot with
          | some ci =>
            obtain ⟨d, hd⟩ := (lastStored_some hl).2
            simp [hi, readFrom, hd, headBytes, dataNode]
          | none =>
            rw [hi] at hentry
            simp [hi, readFrom, diskChunk, ← hentry]
        · simp [hi, readFrom, diskChunk, ← hentry]

end WroteThrough

end Venom.Fuse
