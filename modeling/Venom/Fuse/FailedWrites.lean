import Venom.Fuse.Reached
import Venom.Fuse.TakenChunks
import Venom.Fuse.WriteThrough

/-! # Writes that fail

A write ends early at a chunk it cannot load, or fails behind its last chunk because
write-through finds no slot.  The size is the final one from the first chunk on, so the first
kind leaves a file longer than what has been placed when it fails behind its first chunk.  The
second kind has stored some chunks by then, and not all of their slots need be theirs.
`WriteSafe` says of the state before when neither does any harm.
-/

namespace Venom.Fuse

open Venom.Storage
open Venom.Library
open Venom.Library.StateError

/-! ## Handles with the same chunks -/

namespace SameCache

variable {g f : OpenFile}

theorem throughQueue (h : SameCache g f) (ord : IterOrder Nat) :
    throughQueue ord g = Fuse.throughQueue ord f := by
  unfold Fuse.throughQueue dirtyContinuations
  rw [h.dirty]

theorem newChunks (h : SameCache g f) (cis : List Nat) : newChunks g cis = Fuse.newChunks f cis := by
  refine List.filter_congr fun ci _ => ?_
  rw [decide_eq_decide, Ne, h.get_none, h.slotMap]

theorem slotsFilled (h : SameCache g f) (pool cis : List Nat) :
    slotsFilled g pool cis = Fuse.slotsFilled f pool cis := by
  rw [Fuse.slotsFilled, Fuse.slotsFilled, h.newChunks, h.slotMap]

theorem lastStored (h : SameCache g f) (pool cis : List Nat) (t : Nat) :
    lastStored g pool cis t = Fuse.lastStored f pool cis t := by
  unfold Fuse.lastStored
  congr 1
  refine List.filter_congr fun ci _ => ?_
  rw [decide_eq_decide, Ne, h.get_none, h.slotsFilled]

/-- The chunks are read from the same places. -/
theorem source (h : SameCache g f) (hhead : g.headSlot = f.headSlot) (pool done : List Nat) (i : Nat) :
    source g pool done i = Fuse.source f pool done i := by
  unfold Fuse.source
  simp only [ne_eq, h.get_none, h.slotMap, h.slotsFilled, h.lastStored, hhead]

end SameCache

section Writes

variable {σ : Type}

theorem Fills.congr [NodeView σ] {ord : IterOrder Nat} {c : σ} {f g : OpenFile} {done : List Nat}
    (h : Fills ord c g done) (hsame : SameCache g f) : Fills ord c f done := by
  obtain ⟨ci, rest, hq, hin, hs⟩ := h.next
  refine ⟨⟨ci, rest, ?_, ?_, ?_⟩, ?_⟩
  · rw [← hsame.throughQueue, hq]
  · rwa [Ne, ← hsame.get_none]
  · rw [← hsame.slotMap, hs]
  · rw [← hsame.newChunks, h.full]

/-! ## What a failed write leaves -/

variable [NodeStore σ]

/-- Every position in front of the old end and outside the write reads as before, and the size
    does not go past what the write has placed. -/
structure NotExtended (h h' : Handle σ) (offset : Nat) (data : List UInt8) : Prop where
  same : ∀ p < h.file.totalSize, p < offset ∨ offset + data.length ≤ p → byteOf h' p = byteOf h p
  size : ∃ m ≤ data.length, (∀ i < m, byteOf h' (offset + i) = data[i]?) ∧
    h'.file.totalSize ≤ max h.file.totalSize (offset + m)

/-- The write has failed at its `k`-th chunk and does no harm. -/
structure StopSafe (ord : IterOrder Nat) (h : Handle σ) (offset len k : Nat) : Prop where
  /-- That is its first chunk, or it would have ended inside the file. -/
  short : k = 0 ∨ offset + len ≤ h.file.totalSize
  /-- What is taken from the disk afterwards is there as it was read before. -/
  onDisk : ∀ p < h.file.totalSize, p < offset ∨ offset + len ≤ p → FromDisk ord h.file offset k p →
    diskByte h.container (stretched h.file offset len k) p = byteOf h p

/-- The byte of a position when all `k` chunks of the write are in the cache. -/
def placedByte (ord : IterOrder Nat) (h : Handle σ) (offset : Nat) (data : List UInt8) (k p : Nat) :
    Option UInt8 :=
  if offset ≤ p ∧ p < offset + data.length then data[p - offset]?
  else if FromDisk ord h.file offset k p then
    diskByte h.container (stretched h.file offset data.length k) p
  else byteOf h p

/-- The byte it should have afterwards. -/
def wantedByte (h : Handle σ) (offset : Nat) (data : List UInt8) (p : Nat) : Option UInt8 :=
  if offset ≤ p ∧ p < offset + data.length then data[p - offset]? else byteOf h p

/-- The positions outside of the write, and its own if it makes the file longer. -/
def Matters (total offset len p : Nat) : Prop :=
  p < total ∧ (p < offset ∨ offset + len ≤ p) ∨
    total < offset + len ∧ offset ≤ p ∧ p < offset + len

variable [NodeView σ]

/-- Where a chunk is read from when write-through has failed behind the chunks `done`. -/
def sourceAfter (ord : IterOrder Nat) (h : Handle σ) (offset k : Nat) (done : List Nat) (i : Nat) : Source :=
  source (taken ord h.file (offset / chunkSize) k) (free h.container).reverse done i

/-- The write has taken in its `k` chunks, write-through has stored the chunks `done`, and this does
    no harm. -/
structure ThroughSafe (ord : IterOrder Nat) (h : Handle σ) (offset : Nat) (data : List UInt8) (k : Nat)
    (done : List Nat) : Prop where
  /-- What is taken from the disk is there as it was read before. -/
  onDisk : ∀ p < h.file.totalSize, p < offset ∨ offset + data.length ≤ p → FromDisk ord h.file offset k p →
    (sourceAfter ord h offset k done (p / chunkSize) = .cache ∨
      sourceAfter ord h offset k done (p / chunkSize) = .disk) →
    diskByte h.container (stretched h.file offset data.length k) p = byteOf h p
  /-- What is read from a slot with another chunk has the same byte there. -/
  stored : ∀ p ci, Matters h.file.totalSize offset data.length p →
    sourceAfter ord h offset k done (p / chunkSize) = .stored ci →
    placedByte ord h offset data k (ci * chunkSize + p % chunkSize) = wantedByte h offset data p
  /-- The head's slot is not written to, unless the head could not be read before. -/
  head : ∀ p, Matters h.file.totalSize offset data.length p →
    sourceAfter ord h offset k done (p / chunkSize) = .lost → wantedByte h offset data p = none

/-- When a failed write leaves the file as it was. -/
structure WriteSafe (ord : IterOrder Nat) (h : Handle σ) (offset : Nat) (data : List UInt8) : Prop where
  missing : ∀ k, Stops ord h offset data.length k → HasPiece offset data.length k →
    StopSafe ord h offset data.length k
  full : ∀ k, Stops ord h offset data.length k → ¬ HasPiece offset data.length k →
    ∀ done, Fills ord h.container (taken ord h.file (offset / chunkSize) k) done →
    ThroughSafe ord h offset data k done

/-! ## The end of the loop -/

section Ends

variable {ord : IterOrder Nat} {h : Handle σ} {offset n stop : Nat} {data : List UInt8} {g : OpenFile}

omit [NodeView σ] in
/-- A write that stops at a missing chunk leaves the file as it was just when it is safe. -/
theorem missing_notExtended (hs : Stops ord h offset data.length n)
    (hpl : Placing ord h.container h.file offset data n stop g) (hlt : stop < offset + data.length) :
    NotExtended h ⟨h.container, extendSlotMap (stop / chunkSize) g⟩ offset data ↔
      StopSafe ord h offset data.length n := by
  have hpiece := hpl.hasPiece hlt
  have hmiss := hs.stop hpiece
  have hund := hpl.undisturbed.extend (stop / chunkSize)
  have hmap : (stretched h.file offset data.length n).slotMap =
      (extendSlotMap (stop / chunkSize) g).slotMap := by
    rw [hpl.stretched_slotMap hs, if_pos hpiece, hpl.chunk hlt]
  have houtside : ∀ p, p < offset ∨ offset + data.length ≤ p → _ := fun p hp =>
    hund.outside hp hmap (stretched_headSlot h.file offset data.length n)
  have htotal := hpl.totalSize
  rw [← (extendSlotMap_frame (stop / chunkSize) g).2.2.2] at htotal
  constructor
  · intro hne
    refine ⟨?_, fun p hp hout hcase => ?_⟩
    · by_contra hbad
      obtain ⟨hk0, hend⟩ := not_or.mp hbad
      rw [if_neg hk0] at htotal
      obtain ⟨m, hm, hplaced, hsize⟩ := hne.size
      dsimp only at hsize
      have hlower := hpl.lower
      -- the missing chunk's byte would have been placed
      have hbyte := hplaced (stop - offset) (by omega)
      obtain ⟨hnone, hnodisk⟩ := (hpl.missing_iff hlt).mp hmiss
      rw [← (extendSlotMap_frame (stop / chunkSize) g).1] at hnone
      rw [show offset + (stop - offset) = stop by omega, byteOf_uncached hnone, diskByte, hnodisk,
        List.getElem?_eq_getElem (by omega)] at hbyte
      cases hbyte
    · have hbyte := houtside p hout
      rw [if_pos hcase, hne.same p hp hout] at hbyte
      exact hbyte.symm
  · intro hsafe
    refine ⟨fun p hp hout => ?_, 0, Nat.zero_le _, fun i hi => absurd hi (Nat.not_lt_zero i), ?_⟩
    · rw [houtside p hout]
      split
      next hcase => exact hsafe.onDisk p hp hout hcase
      next => rfl
    · dsimp only
      rw [htotal]
      rcases hsafe.short with hzero | hend
      · rw [if_pos hzero]
        omega
      · split <;> omega

omit [NodeView σ] in
/-- All chunks are in the cache, or on the disk where they were. -/
theorem Placing.byteOf_placed (hpl : Placing ord h.container h.file offset data n stop g)
    (hs : Stops ord h offset data.length n) (hend : stop = offset + data.length)
    (hpiece : ¬ HasPiece offset data.length n) (p : Nat) :
    byteOf ⟨h.container, g⟩ p = placedByte ord h offset data n p := by
  unfold placedByte
  split
  next hin =>
    obtain ⟨d, hd, hdata, -⟩ := hpl.placed p hin.1 (by omega)
    have hlt : p - offset < data.length := by omega
    rw [List.getElem?_eq_getElem hlt] at hdata
    rw [byteOf_cached hd, List.getD_eq_getElem?_getD, hdata, List.getElem?_eq_getElem hlt]
    rfl
  next hout =>
    have hmap := hpl.stretched_slotMap hs
    rw [if_neg hpiece] at hmap
    exact hpl.undisturbed.outside (by omega) hmap (stretched_headSlot h.file offset data.length n)

omit [NodeView σ] in
/-- What has to be read when everything has been placed. -/
theorem notExtended_iff {h' : Handle σ} (hend : ¬ HasPiece offset data.length n)
    (htotal : h'.file.totalSize =
      if n = 0 then h.file.totalSize else max (offset + data.length) h.file.totalSize) :
    NotExtended h h' offset data ↔ ∀ p, Matters h.file.totalSize offset data.length p →
      byteOf h' p = wantedByte h offset data p := by
  constructor
  · rintro ⟨hsame, m, hm, hplaced, hsize⟩ p (⟨hp, hout⟩ | ⟨hlong, hin⟩)
    · rw [hsame p hp hout, wantedByte, if_neg (by omega)]
    · have hn : n ≠ 0 := fun hn => hend ⟨by omega, by have := chunk_split offset; rw [hn, Nat.add_zero]; omega⟩
      rw [if_neg hn] at htotal
      have hbyte := hplaced (p - offset) (by omega)
      rw [show offset + (p - offset) = p by omega] at hbyte
      rw [hbyte, wantedByte, if_pos hin]
  · intro hbytes
    refine ⟨fun p hp hout => ?_, ?_⟩
    · rw [hbytes p (.inl ⟨hp, hout⟩), wantedByte, if_neg (by omega)]
    · by_cases hlong : h.file.totalSize < offset + data.length
      · refine ⟨data.length, le_rfl, fun i hi => ?_, by rw [htotal]; split <;> omega⟩
        rw [hbytes (offset + i) (.inr ⟨hlong, by omega⟩), wantedByte, if_pos (by omega), Nat.add_sub_cancel_left]
      · exact ⟨0, Nat.zero_le _, fun i hi => absurd hi (Nat.not_lt_zero i), by rw [htotal]; split <;> omega⟩

omit [NodeStore σ] in
/-- A chunk that was in the cache is not read from its old place. -/
theorem source_ne_disk {c : σ} {f : OpenFile} {done : List Nat} {i : Nat} (hin : f.cache.get i ≠ none)
    (hroom : (newChunks f done).length ≤ (free c).length) : source f (free c).reverse done i ≠ .disk := by
  have hroom' : (newChunks f done).length ≤ (free c).reverse.length := by
    rw [List.length_reverse]
    exact hroom
  unfold source
  by_cases hdone : i ∈ done ∧ i < f.slotMap.length
  · rw [if_neg fun h => h.2 hdone]
    obtain ⟨t, ht⟩ : ∃ t, (slotsFilled f (free c).reverse done)[i]? = some (some t) := by
      by_cases hnew : i ∈ newChunks f done
      · obtain ⟨t, -, ht⟩ := OptionLists.getElem?_fill_mem hroom' hnew hdone.2
        exact ⟨t, ht⟩
      · have hkept : (slotsFilled f (free c).reverse done)[i]? = f.slotMap[i]? :=
          slotsFilled_kept hnew
        rw [List.getElem?_eq_getElem hdone.2] at hkept
        cases hs : f.slotMap[i] with
        | some t => exact ⟨t, by rw [hkept, hs]⟩
        | none =>
          refine absurd (List.mem_filter.mpr ⟨hdone.1, decide_eq_true ⟨hin, ?_⟩⟩) hnew
          rw [List.getElem?_eq_getElem hdone.2, hs]
    obtain ⟨ci, hl⟩ := Option.ne_none_iff_exists'.mp (lastStored_isSome hdone.1 hin ht)
    rw [ht]
    dsimp only
    rw [hl]
    nofun
  · rw [if_pos ⟨hin, hdone⟩]
    nofun

/-- A write that has placed everything before write-through fails leaves the file as it was just when
    it is safe. -/
theorem through_notExtended {h' : Handle σ} {done : List Nat} (hs : Stops ord h offset data.length n)
    (hpl : Placing ord h.container h.file offset data n stop g) (hend : stop = offset + data.length)
    (hpiece : ¬ HasPiece offset data.length n)
    (hroom : (newChunks g done).length ≤ (free h.container).length)
    (hchunks : ∀ i, chunkBytes h' i =
      readFrom h.container g i (source g (free h.container).reverse done i))
    (htotal : h'.file.totalSize = g.totalSize) :
    NotExtended h h' offset data ↔ ThroughSafe ord h offset data n done := by
  rw [notExtended_iff hpiece (htotal.trans hpl.totalSize)]
  have hplaced := hpl.byteOf_placed hs hend hpiece
  have hhead : g.headSlot = (taken ord h.file (offset / chunkSize) n).headSlot := by
    rw [taken_headSlot, hpl.undisturbed.headSlot]
  have hsource : ∀ i, sourceAfter ord h offset n done i = source g (free h.container).reverse done i :=
    fun i => (hpl.same.source hhead _ done i).symm
  have hmap := hpl.stretched_slotMap hs
  rw [if_neg hpiece] at hmap
  -- the byte of a position, by the place it is read from
  have hcached : ∀ p, sourceAfter ord h offset n done (p / chunkSize) = .cache →
      byteOf h' p = placedByte ord h offset data n p := fun p hp => by
    rw [hsource] at hp
    obtain ⟨d, hd⟩ := source_cache hp
    rw [← hplaced, byteOf_cached hd, byteOf, hchunks, hp, readFrom, hd, Option.map_some]
  have hdisk : ∀ p, sourceAfter ord h offset n done (p / chunkSize) = .disk →
      byteOf h' p = diskByte h.container (stretched h.file offset data.length n) p := fun p hp => by
    rw [hsource] at hp
    rw [byteOf, hchunks, hp, readFrom, diskByte,
      diskChunk_congr hmap ((stretched_headSlot _ _ _ _).trans hpl.undisturbed.headSlot.symm)]
  have hstored : ∀ p ci, sourceAfter ord h offset n done (p / chunkSize) = .stored ci →
      byteOf h' p = placedByte ord h offset data n (ci * chunkSize + p % chunkSize) := fun p ci hp => by
    rw [hsource] at hp
    obtain ⟨d, hd⟩ := source_stored hp
    have hmod := Nat.mod_lt p chunkSize_pos
    have hdiv : (ci * chunkSize + p % chunkSize) / chunkSize = ci := by
      rw [Nat.mul_comm, Nat.mul_add_div chunkSize_pos, Nat.div_eq_of_lt hmod, Nat.add_zero]
    have hmod' : (ci * chunkSize + p % chunkSize) % chunkSize = p % chunkSize := by
      rw [Nat.mul_comm, Nat.mul_add_mod, Nat.mod_mod]
    have hbyte : byteOf ⟨h.container, g⟩ (ci * chunkSize + p % chunkSize) = some (d.getD (p % chunkSize) 0) := by
      rw [byteOf_cached (by rw [hdiv]; exact hd), hmod']
    rw [← hplaced, hbyte, byteOf, hchunks, hp, readFrom, hd, Option.map_some]
  have hlost : ∀ p, sourceAfter ord h offset n done (p / chunkSize) = .lost → byteOf h' p = none := fun p hp => by
    rw [hsource] at hp
    rw [byteOf, hchunks, hp, readFrom, Option.map_none]
  constructor
  · intro hbytes
    refine ⟨fun p hp hout hfrom hat => ?_, fun p ci hp hat => ?_, fun p hp hat => ?_⟩
    · have hbyte := hbytes p (.inl ⟨hp, hout⟩)
      rw [wantedByte, if_neg (by omega)] at hbyte
      rcases hat with hat | hat
      · rw [hcached p hat, placedByte, if_neg (by omega), if_pos hfrom] at hbyte
        exact hbyte
      · rw [hdisk p hat] at hbyte
        exact hbyte
    · rw [← hstored p ci hat, hbytes p hp]
    · rw [← hlost p hat, hbytes p hp]
  · intro hsafe p hp
    cases hat : sourceAfter ord h offset n done (p / chunkSize) with
    | cache =>
      rw [hcached p hat, placedByte, wantedByte]
      rcases hp with ⟨hp, hout⟩ | ⟨-, hin⟩
      · have hno : ¬ (offset ≤ p ∧ p < offset + data.length) := by omega
        rw [if_neg hno, if_neg hno]
        split
        next hfrom => exact hsafe.onDisk p hp hout hfrom (.inl hat)
        next => rfl
      · rw [if_pos hin, if_pos hin]
    | disk =>
      have hnone : g.cache.get (p / chunkSize) = none := by
        by_contra hin
        exact source_ne_disk hin hroom (by rw [← hsource, hat])
      rw [hdisk p hat]
      rcases hp with ⟨hp, hout⟩ | ⟨-, hin⟩
      · rw [wantedByte, if_neg (by omega)]
        refine hsafe.onDisk p hp hout ?_ (.inr hat)
        -- what is no longer in the cache was never there, or has been pushed out
        by_cases hf : h.file.cache.get (p / chunkSize) = none
        · exact .inl hf
        · exact .inr ⟨hf, n, le_rfl, hpl.same.get_none.mp hnone⟩
      · obtain ⟨d, hd, -⟩ := hpl.placed p hin.1 (by omega)
        rw [hnone] at hd
        cases hd
    | stored ci => rw [hstored p ci hat, hsafe.stored p ci hp hat]
    | lost => rw [hlost p hat, hsafe.head p hp hat]

variable [LawfulNodeStore σ]

/-- How a write fails: at a chunk it cannot load, or when all of its chunks have been placed. -/
theorem writeHandle_error {h' : Handle σ} {e : Failure} (hw : HandleWithin (IsDataSlot h.container) h)
    (hrun : (writeHandle ord offset data).run h = .error e h') :
    ∃ n stop g, Stops ord h offset data.length n ∧ Placing ord h.container h.file offset data n stop g ∧
      (stop < offset + data.length ∧ h' = ⟨h.container, extendSlotMap (stop / chunkSize) g⟩ ∨
        stop = offset + data.length ∧ ¬ HasPiece offset data.length n ∧ ∃ done,
          Fills ord h.container (taken ord h.file (offset / chunkSize) n) done ∧
          (newChunks g done).length ≤ (free h.container).length ∧
          (∀ i, chunkBytes h' i = readFrom h.container g i (source g (free h.container).reverse done i)) ∧
          h'.file.totalSize = g.totalSize) := by
  obtain ⟨n, stop, g, hs, hpl, hend⟩ := writeLoop_stops
    (Placing.begin ord h.container h.file offset data) fun j hj => absurd hj (Nat.not_lt_zero j)
  refine ⟨n, stop, g, hs, hpl, ?_⟩
  rcases hend with ⟨hloop, hstop, hpiece⟩ | ⟨hloop, hlt⟩
  · refine .inr ⟨hstop, hpiece, ?_⟩
    have hwg := ((writeLoop_keeps ord offset data offset).ok hw hloop).1
    rw [writeHandle, run_bind_of_ok hloop, run_bind_of_ok run_get] at hrun
    dsimp only at hrun
    split at hrun
    next =>
      rcases run_bind_error.mp hrun with hthrough | ⟨_, _, -, hpure⟩
      · obtain ⟨done, h₁, hfills, hst, hh, hfile, hnodes⟩ := writeThroughFlush_fills hwg hthrough
        have hslots : ∀ s ∈ ownedSlots h₁.file [], IsDataSlot h₁.container s := fun s hmem => by
          refine hst.stored.volume.isDataSlot.mpr ?_
          rcases List.mem_append.mp hmem with hmem | hmem
          · exact hh.file.slots s (List.reduceOption_mem_iff.mp hmem)
          · rw [List.mem_singleton.mp hmem]
            exact hh.file.head
        refine ⟨done, hfills.congr hpl.same, hst.room, fun i => ?_, ?_⟩
        · rw [hnodes.chunkBytes hfile hslots, hst.chunkBytes_eq hwg hh]
        · rw [hfile, hst.totalSize]
      · cases hpure
    next => cases hrun
  · rw [writeHandle, run_bind_of_error hloop] at hrun
    cases hrun
    exact .inl ⟨hlt, rfl⟩

/-- A write that fails leaves the file as it was just when it is safe. -/
theorem writeHandle_failed {h' : Handle σ} {e : Failure} (hw : HandleWithin (IsDataSlot h.container) h)
    (hrun : (writeHandle ord offset data).run h = .error e h') :
    NotExtended h h' offset data ↔ WriteSafe ord h offset data := by
  obtain ⟨n, stop, g, hs, hpl, ⟨hlt, rfl⟩ | ⟨hend, hpiece, done, hfills, hroom, hchunks, htotal⟩⟩ :=
    writeHandle_error hw hrun
  · rw [missing_notExtended hs hpl hlt]
    have hpiece := hpl.hasPiece hlt
    refine ⟨fun hsafe => ⟨fun k hk _ => hk.unique hs ▸ hsafe, fun k hk hno => ?_⟩,
      fun hsafe => hsafe.missing n hs hpiece⟩
    obtain rfl := hk.unique hs
    exact absurd hpiece hno
  · rw [through_notExtended hs hpl hend hpiece hroom hchunks htotal]
    refine ⟨fun hsafe => ⟨fun k hk hkp => ?_, fun k hk _ done' hdone' => ?_⟩,
      fun hsafe => hsafe.full n hs hpiece done hfills⟩
    · obtain rfl := hk.unique hs
      exact absurd hkp hpiece
    · obtain rfl := hk.unique hs
      exact hfills.unique hdone' ▸ hsafe

/-- A write never makes the file shorter, also one that fails. -/
theorem writeHandle_totalSize {h' : Handle σ} {e : Failure} (hw : HandleWithin (IsDataSlot h.container) h)
    (hrun : (writeHandle ord offset data).run h = .error e h') : h.file.totalSize ≤ h'.file.totalSize := by
  obtain ⟨n, stop, g, -, hpl, hend⟩ := writeHandle_error hw hrun
  have hle : h.file.totalSize ≤ g.totalSize := by
    rw [hpl.totalSize]
    split <;> omega
  rcases hend with ⟨-, rfl⟩ | ⟨-, -, -, -, -, -, htotal⟩
  · dsimp only
    rw [(extendSlotMap_frame _ g).2.2.2]
    exact hle
  · rw [htotal]
    exact hle

omit [NodeView σ] [LawfulNodeStore σ] in
/-- A write with a chunk it cannot load fails. -/
theorem writeHandle_missing (hs : Stops ord h offset data.length n) (hp : HasPiece offset data.length n) :
    ∃ h', (writeHandle ord offset data).run h = .error eio h' := by
  obtain ⟨n', stop, g, hs', -, hend⟩ := writeLoop_stops
    (Placing.begin ord h.container h.file offset data) fun j hj => absurd hj (Nat.not_lt_zero j)
  obtain rfl := hs'.unique hs
  rcases hend with ⟨-, -, hno⟩ | ⟨hloop, -⟩
  · exact absurd hp hno
  · exact ⟨_, by rw [writeHandle, run_bind_of_error hloop]⟩

end Ends

/-! ## The driver -/

/-- What a program gets for a position: the reply to a read of one byte, filled up with zeros. -/
def readsAt (ord : IterOrder Nat) (fh p : Nat) (s : VenomFuse σ) : Option UInt8 :=
  (valueOf (opRead ord fh p 1) s).map (·.headD 0)

omit [NodeView σ] in
/-- A chunk that is somewhere gets into the cache. -/
theorem ensureCached_get {h : Handle σ} {ci : Nat} {d : List UInt8} (ord : IterOrder Nat)
    (hd : chunkBytes h ci = some d) :
    ∃ h', (ensureCached ord ci).run h = .ok () h' ∧ h'.file.cache.get ci = some d := by
  unfold ensureCached
  rw [run_bind_of_ok run_get]
  cases hc : h.file.cache.get ci with
  | some d' =>
    obtain rfl : d' = d := Option.some.inj ((chunkBytes_cached hc).symm.trans hd)
    rw [if_pos ((HashMap.containsKey_eq_true _ _).mpr ⟨d', hc⟩)]
    exact ⟨h, rfl, hc⟩
  | none =>
    have hload := loadChunk_eq h ci
    rw [(chunkBytes_uncached hc).symm.trans hd] at hload
    rw [if_neg (by simp [HashMap.containsKey, hc]), run_bind_of_ok hload]
    exact ⟨_, rfl, by simp [cacheInsert]⟩

omit [NodeView σ] in
/-- Reading one byte in front of the end. -/
theorem readsAt_eq {s : VenomFuse σ} {fh p : Nat} {f : OpenFile} (ord : IterOrder Nat)
    (hf : s.openFiles.get fh = some f) (hp : p < f.totalSize) :
    readsAt ord fh p s = byteOf ⟨s.container, f⟩ p := by
  rw [readsAt, valueOf_congr (opRead_run hf ord p 1), withHandle_valueOf, readHandle,
    valueOf_bind_of_ok run_get]
  dsimp only
  rw [if_neg (by omega), show min (p + 1) f.totalSize = p + 1 by omega, readLoop, if_pos (by omega)]
  cases hd : chunkBytes (⟨s.container, f⟩ : Handle σ) (p / chunkSize) with
  | none => rw [valueOf_bind_of_error (ensureCached_missing ord hd), byteOf, hd]; rfl
  | some d =>
    obtain ⟨h₁, hrun, hget⟩ := ensureCached_get ord hd
    rw [valueOf_bind_of_ok hrun, valueOf_bind_of_ok run_get, hget, byteOf, hd, Option.map_some]
    dsimp only
    by_cases hin : p % chunkSize < d.length
    · rw [if_neg (by omega), show p + min (d.length - p % chunkSize) (p + 1 - p) = p + 1 by omega,
        readLoop, if_neg (by omega), show min (d.length - p % chunkSize) (p + 1 - p) = 1 by omega,
        List.drop_eq_getElem_cons hin, List.getD_eq_getElem?_getD, List.getElem?_eq_getElem hin]
      rfl
    · rw [if_pos (by omega), List.getD_eq_getElem?_getD, List.getElem?_eq_none (by omega)]
      rfl

/-- A program reads the rest of the file as before, and the size does not go past what is in the
    cache or on the disk. -/
structure LeftAlone (fh offset : Nat) (data : List UInt8) (f f' : OpenFile) (s s' : VenomFuse σ) :
    Prop where
  same : ∀ (ord : IterOrder Nat) (p : Nat), p < f.totalSize → p < offset ∨ offset + data.length ≤ p →
    readsAt ord fh p s' = readsAt ord fh p s
  size : ∃ m ≤ data.length,
    (∀ i < m, byteOf ⟨s'.container, f'⟩ (offset + i) = data[i]?) ∧
      f'.totalSize ≤ max f.totalSize (offset + m)

section Driver

variable {ord : IterOrder Nat} {offset fh : Nat} {data : List UInt8}
  {f f' : OpenFile} {s s' : VenomFuse σ} {e : Failure}

omit [NodeView σ] in
theorem leftAlone_iff (hf : s.openFiles.get fh = some f) (hf' : s'.openFiles.get fh = some f')
    (hle : f.totalSize ≤ f'.totalSize) : LeftAlone fh offset data f f' s s' ↔
      NotExtended ⟨s.container, f⟩ ⟨s'.container, f'⟩ offset data := by
  constructor
  · refine fun h => ⟨fun p hp hout => ?_, h.size⟩
    have hsame := h.same .listed p hp hout
    rwa [readsAt_eq _ hf hp, readsAt_eq _ hf' (lt_of_lt_of_le hp hle)] at hsame
  · refine fun h => ⟨fun ord p hp hout => ?_, h.size⟩
    rw [readsAt_eq _ hf hp, readsAt_eq _ hf' (lt_of_lt_of_le hp hle)]
    exact h.same p hp hout

variable [LawfulNodeStore σ]

omit [NodeView σ] [LawfulNodeStore σ] in
theorem opWrite_missing {k : Nat} (hf : s.openFiles.get fh = some f)
    (hs : Stops ord ⟨s.container, f⟩ offset data.length k) (hp : HasPiece offset data.length k) :
    ∃ s' f', (opWrite ord fh offset data).run s = .error eio s' ∧ s'.openFiles.get fh = some f' := by
  obtain ⟨h', hrun⟩ := writeHandle_missing hs hp
  exact ⟨_, h'.file, by rw [opWrite_run hf]; exact withHandle_error.mpr ⟨h', hrun, rfl⟩, by simp⟩

end Driver

/-! ## A chunk whose slot is gone -/

/-- A file of two chunks is open twice, and one of the handles has cut it to a byte: the slot of the
    second chunk is wiped behind the other handle, which is the third. -/
def cutBehind : VenomFuse Volume :=
  let s := after (DriverCall.write .listed 1 chunkSize [9, 9]).run withNotes
  let s := after (DriverCall.setattrSize .listed 2 (some 1) (chunkSize + 1)).run s
  let s := after (DriverCall.flush .listed 1).run s
  let s := after (DriverCall.openFile 2).run s
  let s := after (DriverCall.openFile 2).run s
  let s := after (DriverCall.setattrSize .listed 2 (some 2) 1).run s
  after (DriverCall.flush .listed 2).run s

theorem cutBehind_reached : Reached 0 cutBehind :=
  .call _ (.call _ (.call _ (.call _ (.call _ (.call _ (.call _ withNotes_reached))))))

/-- That handle still has the slot in its map, and nothing in its cache. -/
theorem cutBehind_third : ∃ f, cutBehind.openFiles.get 3 = some f ∧ f.totalSize = chunkSize + 1 ∧
    extendSlotMap 0 f = f ∧ extendSlotMap 1 f = f ∧ f.cache.keys = [] ∧
      diskChunk cutBehind.container f 0 ≠ none ∧ diskChunk cutBehind.container f 1 = none := by
  have hthird : (cutBehind.openFiles.get 3).any (fun f => f.totalSize = chunkSize + 1 ∧
      f.slotMap.length = 2 ∧ f.cache.keys = [] ∧ diskChunk cutBehind.container f 0 ≠ none ∧
      diskChunk cutBehind.container f 1 = none) = true := by
    decide +kernel
  obtain ⟨f, hf, h⟩ := (Option.any_eq_true _ _).mp hthird
  obtain ⟨htotal, hlength, hrest⟩ := of_decide_eq_true h
  have hext : ∀ ci < 2, extendSlotMap ci f = f := fun ci hci => by
    unfold extendSlotMap
    rw [if_neg (by omega)]
  exact ⟨f, hf, htotal, hext 0 (by omega), hext 1 (by omega), hrest⟩

/-- A write to the second chunk is safe, and one across both is not: it stops at the second chunk. -/
theorem cutBehind_writes : ∃ f, cutBehind.openFiles.get 3 = some f ∧
    Stops .listed ⟨cutBehind.container, f⟩ chunkSize [(1 : UInt8)].length 0 ∧
    WriteSafe .listed ⟨cutBehind.container, f⟩ chunkSize [1] ∧
    Stops .listed ⟨cutBehind.container, f⟩ (chunkSize - 1) [(1 : UInt8), 2, 3].length 1 ∧
    ¬ WriteSafe .listed ⟨cutBehind.container, f⟩ (chunkSize - 1) [1, 2, 3] := by
  obtain ⟨f, hf, htotal, hext₀, hext₁, hkeys, hdisk₀, hdisk₁⟩ := cutBehind_third
  generalize cutBehind = s at *
  have hnone : ∀ i, f.cache.get i = none := fun i => (HashMap.get_eq_none _ _).mpr (by rw [hkeys]; simp)
  have hgone : diskChunk s.container (extendSlotMap 1 f) 1 = none := by rwa [hext₁]
  have hfirst : Stops .listed ⟨s.container, f⟩ chunkSize [(1 : UInt8)].length 0 :=
    ⟨fun j hj => absurd hj (Nat.not_lt_zero j), fun _ => ⟨hnone _, hgone⟩⟩
  have hacross : Stops .listed ⟨s.container, f⟩ (chunkSize - 1) [(1 : UInt8), 2, 3].length 1 := by
    refine ⟨fun j hj => ?_, fun _ => ⟨?_, hgone⟩⟩
    · obtain rfl : j = 0 := by omega
      refine ⟨by decide, fun hmiss => hdisk₀ ?_⟩
      have hload := hmiss.2
      change diskChunk s.container (extendSlotMap 0 f) 0 = none at hload
      rwa [hext₀] at hload
    · -- the first chunk is the only one in the cache
      change ((makeRoom .listed 0 (extendSlotMap 0 f)).cache.insert 0 []).get 1 = none
      rw [hext₀, HashMap.get_insert, if_neg (by decide)]
      exact (makeRoom_get .listed 0 f 1).elim (fun hsame => hsame.trans (hnone 1)) fun hout => hout.1
  refine ⟨f, hf, hfirst, ⟨fun k hk _ => ?_, fun k hk hno => ?_⟩, hacross, fun hsafe => ?_⟩
  · obtain rfl := hk.unique hfirst
    refine ⟨.inl rfl, fun p _ _ _ => ?_⟩
    rw [byteOf_uncached (hnone _)]
    exact congrArg (diskByte s.container · p) hext₁
  · obtain rfl := hk.unique hfirst
    exact absurd (by decide) hno
  · rcases (hsafe.missing 1 hacross (by decide)).short with hone | hshort
    · exact absurd hone (by decide)
    · rw [htotal] at hshort
      exact absurd hshort (by decide)

end Writes

end Venom.Fuse
