import Venom.Fuse.FailedCalls
import Venom.Fuse.Sparse
import Venom.Fuse.FlatFile
import Venom.Fuse.Totality

/-! # Reads of files with holes

A file that only grows has at every position the byte last written there, or a zero, or no
byte at all: a chunk may be shorter than the part of the file it stands for.  A read is
right exactly when no position it covers is missing, and no position ever is in a run
whose writes and extensions start where the bytes end.
-/

namespace Venom.Fuse

open Venom.Storage
open Venom.Library
open Venom.Library.Chunks
open Venom.Library.StateError
open Venom.Library.OptionLists

variable {σ : Type} [NodeStore σ] [NodeView σ] [LawfulNodeStore σ]

/-! ## Steps that keep the chunks -/

/-- A handle that shows `chunks`, and differs from `f` at most in where they are. -/
structure Showing (A : Content) (f : OpenFile) (fb : FileBlock) (ids chain : List Nat)
    (chunks : Nat → Option (List UInt8)) (h : Handle σ) : Prop where
  ok : OpenOk A (chunkLimit f.totalSize) h fb ids chain
  synced : Synced h
  chunks : chunkBytes h = chunks
  ino : h.file.ino = f.ino
  headSlot : h.file.headSlot = f.headSlot
  totalSize : h.file.totalSize = f.totalSize

section Keeping

variable {A : Content} {f : OpenFile} {fb : FileBlock} {ids chain : List Nat}
  {chunks : Nat → Option (List UInt8)}

omit [LawfulNodeStore σ] in
theorem Showing.of_ok {c : σ} (hok : OpenOk A (chunkLimit f.totalSize) ⟨c, f⟩ fb ids chain)
    (hs : Synced ⟨c, f⟩) : Showing A f fb ids chain (chunkBytes ⟨c, f⟩) ⟨c, f⟩ :=
  ⟨hok, hs, rfl, rfl, rfl, rfl⟩

theorem ensureCached_showing (ord : IterOrder Nat) {ci : Nat} (hci : ci < chunkLimit f.totalSize) :
    Keeps (Showing (σ := σ) A f fb ids chain chunks) (ensureCached ord ci) fun _ => True where
  ok {h h' _} hsh hrun := by
    obtain ⟨-, hr, -, -, hok⟩ := ensureCached_ok hsh.ok hci hrun
    cases hd : chunkBytes h ci with
    | none => rw [ensureCached_missing ord hd] at hrun; cases hrun
    | some d =>
      obtain ⟨h₁, hrun₁, hs, hsame, -⟩ := ensureCached_chunks ord hsh.synced hd
      obtain rfl : h₁ = h' := by rw [hrun] at hrun₁; cases hrun₁; rfl
      exact ⟨⟨hok, hs, hsame.trans hsh.chunks, hr.ino.trans hsh.ino,
        hr.headSlot.trans hsh.headSlot, hr.totalSize.trans hsh.totalSize⟩, trivial⟩
  error {h h' _} hsh hrun := by
    cases hd : chunkBytes h ci with
    | none => rw [ensureCached_missing ord hd] at hrun; cases hrun; exact hsh
    | some d =>
      obtain ⟨h₁, hrun₁, -⟩ := ensureCached_chunks ord hsh.synced hd
      rw [hrun₁] at hrun
      cases hrun

theorem readLoop_showing (ord : IterOrder Nat) {stop : Nat} (hstop : stop ≤ f.totalSize)
    (pos : Nat) (acc : List UInt8) :
    Keeps (Showing (σ := σ) A f fb ids chain chunks) (readLoop ord stop pos acc)
      fun _ => True := by
  induction hn : stop - pos using Nat.strongRecOn generalizing pos acc with
  | _ n ih =>
    rw [readLoop]
    refine .ite (fun hlt => ?_) fun _ => .pure trivial
    refine (ensureCached_showing ord (div_lt_chunkLimit (by omega))).bind fun _ _ =>
      Keeps.get.bind fun h _ => ?_
    split
    next => exact .throw _
    next => exact .ite (fun _ => .pure trivial) fun _ => ih _ (by omega) _ _ rfl

theorem readHandle_showing (ord : IterOrder Nat) (offset size : Nat) :
    Keeps (Showing (σ := σ) A f fb ids chain chunks) (readHandle ord offset size)
      fun _ => True :=
  Keeps.get.bind fun _ hsh => .ite (fun _ => .pure trivial) fun _ =>
    readLoop_showing ord (by rw [← hsh.totalSize]; omega) _ _

theorem writeThroughChunk_showing {ci : Nat} (hci : 1 ≤ ci) :
    Keeps (Showing (σ := σ) A f fb ids chain chunks) (writeThroughChunk ci) fun _ => True where
  ok {h h' _} hsh hrun := by
    obtain ⟨hok, -⟩ := writeThroughChunk_ok hsh.ok hci hrun
    obtain ⟨hsame, hsynced, -, hino, hhead, htotal⟩ :=
      writeThroughChunk_chunks hsh.ok.handle.accounts hrun
    exact ⟨⟨hok, hsynced hsh.synced, hsame.trans hsh.chunks, hino.trans hsh.ino,
      hhead.trans hsh.headSlot, htotal.trans hsh.totalSize⟩, trivial⟩
  error {h h' _} hsh hrun := by
    obtain ⟨hfile, hnodes⟩ := writeThroughChunk_error hrun
    have hslots : ∀ s ∈ ownedSlots h.file chain, IsDataSlot h.container s :=
      fun _ hs => hsh.ok.handle.accounts.isDataSlot hs
    have hchunks := hnodes.chunkBytes hfile hslots
    obtain ⟨c', _⟩ := h'
    obtain rfl := hfile
    have hdisk := hnodes.diskChunk hslots
    exact ⟨hnodes.openOk hsh.ok, fun i d hd hi => (congrFun hdisk i).trans (hsh.synced i d hd hi),
      hchunks.trans hsh.chunks, hsh.ino, hsh.headSlot, hsh.totalSize⟩

theorem writeThroughFlush_showing (ord : IterOrder Nat) (n : Nat) :
    Keeps (Showing (σ := σ) A f fb ids chain chunks) (writeThroughFlush ord n)
      fun _ => True := by
  refine Keeps.get.bind fun h _ => .forM fun ci hci => writeThroughChunk_showing ?_
  have := List.mem_mergeSort.mp (List.mem_of_mem_take hci)
  simpa using (List.mem_filter.mp this).2

end Keeping

/-! ## What a write makes of the chunks -/

/-- No chunk of `h` has become shorter in `h'`. -/
def Grows (h h' : Handle σ) : Prop :=
  ∀ i d, chunkBytes h i = some d → ∃ d', chunkBytes h' i = some d' ∧ d.length ≤ d'.length

omit [NodeView σ] [LawfulNodeStore σ] in
theorem Grows.refl (h : Handle σ) : Grows h h := fun _ d hd => ⟨d, hd, le_rfl⟩

omit [NodeView σ] [LawfulNodeStore σ] in
theorem Grows.trans {h h' h'' : Handle σ} (hg : Grows h h') (hg' : Grows h' h'') : Grows h h'' :=
  fun i d hd => by
    obtain ⟨d', hd', hle⟩ := hg i d hd
    obtain ⟨d'', hd'', hle'⟩ := hg' i d' hd'
    exact ⟨d'', hd'', hle.trans hle'⟩

omit [NodeView σ] [LawfulNodeStore σ] in
theorem Grows.of_eq {h h' : Handle σ} (he : chunkBytes h' = chunkBytes h) : Grows h h' :=
  fun i d hd => ⟨d, by rw [he]; exact hd, le_rfl⟩

theorem chunkByte_ne_none {chunks : Nat → Option (List UInt8)} {p : Nat} :
    chunkByte chunks p ≠ none ↔ ∃ d, chunks (p / chunkSize) = some d ∧ p % chunkSize < d.length := by
  unfold chunkByte
  cases chunks (p / chunkSize) with
  | none => simp
  | some d => simp

omit [NodeView σ] [LawfulNodeStore σ] in
theorem Grows.chunkByte {h h' : Handle σ} (hg : Grows h h') {p : Nat}
    (hp : chunkByte (chunkBytes h) p ≠ none) : chunkByte (chunkBytes h') p ≠ none := by
  obtain ⟨d, hd, hlt⟩ := chunkByte_ne_none.mp hp
  obtain ⟨d', hd', hle⟩ := hg _ d hd
  exact chunkByte_ne_none.mpr ⟨d', hd', lt_of_lt_of_le hlt hle⟩

/-- Clean cached chunks other than `ci` are copies of the disk. -/
def SyncedExcept (ci : Nat) (h : Handle σ) : Prop :=
  ∀ i d, i ≠ ci → h.file.cache.get i = some d → i ∉ h.file.dirty →
    diskChunk h.container h.file i = some d

omit [NodeView σ] [LawfulNodeStore σ] in
theorem Synced.except {h : Handle σ} (hs : Synced h) (ci : Nat) : SyncedExcept ci h :=
  fun i d _ => hs i d

omit [NodeView σ] [LawfulNodeStore σ] in
theorem diskChunk_append {c : σ} {f f' : OpenFile} {k i : Nat} {d : List UInt8}
    (hmap : f'.slotMap = f.slotMap ++ List.replicate k none) (hhead : f'.headSlot = f.headSlot)
    (hd : diskChunk c f i = some d) : diskChunk c f' i = some d := by
  have hlt : i < f.slotMap.length := by
    by_contra hge
    rw [diskChunk, List.getElem?_eq_none (by omega)] at hd
    cases hd
  rw [diskChunk, hmap, hhead, List.getElem?_append_left hlt]
  exact hd

section Writing

variable {c : σ} {f : OpenFile} {fb : FileBlock} {ids chain : List Nat} {lim : Nat}

omit [NodeView σ] [LawfulNodeStore σ]

theorem extendSlotMap_chunks (hs : Synced ⟨c, f⟩) (ci : Nat) :
    Synced ⟨c, extendSlotMap ci f⟩ ∧ Grows ⟨c, f⟩ ⟨c, extendSlotMap ci f⟩ := by
  obtain ⟨hw, -, hdirty, hcache⟩ := extendSlotMap_written ci f
  obtain ⟨k, hk⟩ := hw.slotMap
  refine ⟨fun i d hd hi => ?_, fun i d hd => ⟨d, ?_, le_rfl⟩⟩
  · dsimp only at hd hi ⊢
    rw [hcache] at hd
    rw [hdirty] at hi
    exact diskChunk_append hk hw.headSlot (hs i d hd hi)
  · unfold chunkBytes at hd ⊢
    dsimp only at hd ⊢
    rw [hcache]
    cases hc : f.cache.get i with
    | some d' => rw [hc] at hd; exact hd
    | none =>
      rw [hc] at hd
      exact diskChunk_append hk hw.headSlot hd

/-- After loading, the chunk is cached and no chunk is shorter. -/
theorem loadForWrite_chunks {h h' : Handle σ} {ord : IterOrder Nat} {ci : Nat} (hs : Synced h)
    (hrun : (loadForWrite ord ci).run h = .ok () h') : SyncedExcept ci h' ∧ Grows h h' := by
  obtain ⟨_, _, hget, hcont⟩ := run_bind_ok.mp hrun
  cases hget
  split at hcont
  next =>
    cases hcont
    exact ⟨hs.except ci, .refl _⟩
  next hout =>
    have hnone : h.file.cache.get ci = none :=
      (HashMap.containsKey_eq_false _ _).mp (Bool.eq_false_iff.mpr hout)
    split at hcont
    next =>
      cases hd : chunkBytes h ci with
      | none => rw [ensureCached_missing ord hd] at hcont; cases hcont
      | some d =>
        obtain ⟨h₁, hrun₁, hs₁, hsame, -⟩ := ensureCached_chunks ord hs hd
        rw [hrun₁] at hcont
        cases hcont
        exact ⟨hs₁.except ci, .of_eq hsame⟩
    next hnew =>
      -- a brand-new chunk of zeros, where the disk has none or an empty one
      obtain ⟨hslot, hci⟩ := not_or.mp hnew
      rw [modifyFile_ok] at hcont
      subst hcont
      have hsame : diskChunk h.container (cacheInsert ci (List.replicate chunkSize 0) h.file) =
          diskChunk h.container h.file := diskChunk_congr rfl rfl
      refine ⟨fun i d hne hd hi => ?_, fun i d hd => ?_⟩
      · dsimp only at hd hi ⊢
        rw [hsame]
        exact hs i d (by simpa [cacheInsert, hne] using hd) hi
      · by_cases e : i = ci
        · subst e
          refine ⟨List.replicate chunkSize 0, chunkBytes_cached (by simp [cacheInsert]), ?_⟩
          rw [chunkBytes_uncached hnone, diskChunk] at hd
          cases hm : h.file.slotMap[i]? with
          | none => rw [hm] at hd; cases hd
          | some o =>
            cases o with
            | some s => simp [hm] at hslot
            | none =>
              rw [hm] at hd
              dsimp only at hd
              rw [if_neg hci] at hd
              cases hd
              exact Nat.zero_le _
        · refine ⟨d, ?_, le_rfl⟩
          simp only [chunkBytes, hsame] at hd ⊢
          simpa [cacheInsert, e] using hd

/-- A patched chunk reaches at least to the end of the piece. -/
theorem patchChunk_chunks {ci : Nat} {chunk : List UInt8} (coff stop : Nat) (piece : List UInt8)
    (hs : SyncedExcept ci ⟨c, f⟩) (hchunk : f.cache.get ci = some chunk) :
    Synced ⟨c, patchChunk ci coff stop chunk piece f⟩ ∧
      Grows ⟨c, f⟩ ⟨c, patchChunk ci coff stop chunk piece f⟩ ∧
      ∃ d, chunkBytes ⟨c, patchChunk ci coff stop chunk piece f⟩ ci = some d ∧
        coff + piece.length ≤ d.length := by
  have hsame : diskChunk c (patchChunk ci coff stop chunk piece f) = diskChunk c f :=
    diskChunk_congr rfl rfl
  have hci : chunkBytes ⟨c, patchChunk ci coff stop chunk piece f⟩ ci =
      some (patch 0 chunk coff piece) := chunkBytes_cached (by simp [patchChunk])
  have hlen := length_patch (0 : UInt8) chunk coff piece
  refine ⟨fun i d hd hi => ?_, fun i d hd => ?_, _, hci, by omega⟩
  · dsimp only at hd hi ⊢
    simp only [patchChunk, HashSet.mem_insert, not_or] at hi
    rw [hsame]
    exact hs i d hi.1 (by simpa [patchChunk, hi.1] using hd) hi.2
  · by_cases e : i = ci
    · subst e
      rw [chunkBytes_cached hchunk] at hd
      cases hd
      exact ⟨_, hci, by omega⟩
    · refine ⟨d, ?_, le_rfl⟩
      simp only [chunkBytes, hsame] at hd ⊢
      simpa [patchChunk, e] using hd

theorem writePiece_chunks {h h' : Handle σ} {ord : IterOrder Nat} {stop pos : Nat}
    {piece : List UInt8} (hs : Synced h)
    (hrun : (writePiece ord stop pos piece).run h = .ok () h') :
    Synced h' ∧ Grows h h' ∧ ∀ p, p / chunkSize = pos / chunkSize → p < pos + piece.length →
      chunkByte (chunkBytes h') p ≠ none := by
  obtain ⟨_, h₁, hext, hcont⟩ := run_bind_ok.mp hrun
  rw [modifyFile_ok] at hext
  subst hext
  obtain ⟨_, h₂, hload, hcont₂⟩ := run_bind_ok.mp hcont
  obtain ⟨hs₁, hg₁⟩ := extendSlotMap_chunks (c := h.container) (f := h.file) hs (pos / chunkSize)
  obtain ⟨hs₂, hg₂⟩ := loadForWrite_chunks hs₁ hload
  obtain ⟨_, _, hget, hbody⟩ := run_bind_ok.mp hcont₂
  cases hget
  split at hbody
  next => cases hbody
  next chunk hchunk =>
    rw [modifyFile_ok] at hbody
    subst hbody
    obtain ⟨hs₃, hg₃, d, hd, hlen⟩ := patchChunk_chunks (c := h₂.container) (f := h₂.file)
      (pos % chunkSize) stop piece hs₂ hchunk
    refine ⟨hs₃, (hg₁.trans hg₂).trans hg₃, fun p hp hlt => ?_⟩
    have hsplit := chunk_split p
    have hsplit' := chunk_split pos
    rw [hp] at hsplit
    exact chunkByte_ne_none.mpr ⟨d, by rw [hp]; exact hd, by omega⟩

/-- A write reaches every position of its chunks up to its end. -/
theorem writeLoop_chunks {h h' : Handle σ} {ord : IterOrder Nat} {offset pos : Nat}
    {data : List UInt8} (hs : Synced h) (hpos : offset ≤ pos)
    (hrun : (writeLoop ord offset data pos).run h = .ok () h') :
    Synced h' ∧ Grows h h' ∧ ∀ p, pos / chunkSize ≤ p / chunkSize →
      pos < offset + data.length → p < offset + data.length →
      chunkByte (chunkBytes h') p ≠ none := by
  induction hn : offset + data.length - pos using Nat.strongRecOn generalizing pos h with
  | _ n ih =>
    rw [writeLoop] at hrun
    split at hrun
    next hlt =>
      obtain ⟨_, h₁, hpiece, hrest⟩ := run_bind_ok.mp hrun
      have hmod := Nat.mod_lt pos chunkSize_pos
      let take := pieceLen (offset + data.length) pos
      have htake : take = min (chunkSize - pos % chunkSize) (offset + data.length - pos) := rfl
      have hlen : ((data.drop (pos - offset)).take take).length = take := by
        rw [List.length_take, List.length_drop]; omega
      obtain ⟨hs₁, hg₁, hin⟩ := writePiece_chunks hs hpiece
      obtain ⟨hs₂, hg₂, hrest₂⟩ := ih (offset + data.length - (pos + take)) (by omega) hs₁
        (by omega) hrest rfl
      refine ⟨hs₂, hg₁.trans hg₂, fun p hp _ hpend => ?_⟩
      by_cases hbefore : p < pos + take
      · -- up to the end of the piece: the position is in its chunk
        refine hg₂.chunkByte (hin p ?_ (by rw [hlen]; exact hbefore))
        have hsplit := chunk_split pos
        have hle : p / chunkSize < pos / chunkSize + 1 := by
          rw [Nat.div_lt_iff_lt_mul chunkSize_pos, Nat.succ_mul]
          omega
        omega
      · exact hrest₂ p (Nat.div_le_div_right (by omega)) (by omega) hpend
    next hge =>
      cases hrun
      exact ⟨hs, .refl _, fun p _ hlt => absurd hlt hge⟩

end Writing

/-! ## The latest bytes -/

/-- Every byte is the last one written to its position, or a zero where nothing was
    written; a missing byte was not written. -/
def Latest (ws : List WriteCall) : Content := fun p b =>
  b = some ((lastWritten ws p).getD 0) ∨ (b = none ∧ lastWritten ws p = none)

theorem latest_overwrites (ws : List WriteCall) (w : WriteCall) (q k : Nat) (hq : w.offset ≤ q)
    (hk : q + k ≤ w.offset + w.data.length) :
    Overwrites (Latest (ws ++ [{ w with data := w.data.take (q - w.offset) }]))
      (Latest (ws ++ [{ w with data := w.data.take (q + k - w.offset) }])) q
      ((w.data.drop (q - w.offset)).take k) := by
  have hlen := length_piece hq hk
  refine ⟨fun i hi => ?_, fun p b hp ha => ?_, fun p hp ha => ?_⟩
  · rw [Latest, lastWritten_inside ws w hq hk (hlen ▸ hi), List.getElem?_eq_getElem hi]
    exact .inl rfl
  · rw [Latest, lastWritten_outside ws w hq hk (hlen ▸ hp)]
    exact ha
  · have hnone := (ha.resolve_left (by simp)).2
    rw [Latest, lastWritten_outside ws w hq hk (hlen ▸ hp), hnone]
    exact .inl rfl

/-- A write, whether it ends well or in an error. -/
theorem writeHandle_after {ws : List WriteCall} {h : Handle σ} {fb : FileBlock}
    {ids chain : List Nat} (w : WriteCall)
    (hok : OpenOk (Latest ws) (chunkLimit h.file.totalSize) h fb ids chain) (hs : Synced h) :
    let h' := after (writeHandle w.ord w.offset w.data) h
    OpenOk (Latest (ws ++ [w])) (chunkLimit h'.file.totalSize) h' fb ids chain ∧ Synced h' ∧
      h'.file.ino = h.file.ino ∧ h'.file.headSlot = h.file.headSlot ∧
      h'.file.totalSize = (if w.data = [] then h.file.totalSize
        else max (w.offset + w.data.length) h.file.totalSize) ∧
      Grows h h' ∧ ∀ p, w.offset / chunkSize ≤ p / chunkSize → w.data ≠ [] →
        p < w.offset + w.data.length → chunkByte (chunkBytes h') p ≠ none := by
  intro h'
  have hempty : w.data = [] ↔ ¬ w.offset < w.offset + w.data.length := by
    rw [← List.length_eq_zero_iff]; omega
  let total := if w.data = [] then h.file.totalSize
    else max (w.offset + w.data.length) h.file.totalSize
  have hle : h.file.totalSize ≤ total := by dsimp only [total]; split <;> omega
  have hlim : ∀ p, w.offset ≤ p → p < w.offset + w.data.length →
      p / chunkSize < chunkLimit total := fun p hp hlt => by
    refine div_lt_chunkLimit ?_
    dsimp only [total]
    rw [if_neg fun e => hempty.mp e (by omega)]
    omega
  -- nothing of the piece is known before the loop, all of it after
  let A (q : Nat) : Content := Latest (ws ++ [{ w with data := w.data.take (q - w.offset) }])
  have hstart : ∀ p, lastWritten (ws ++ [{ w with data := w.data.take (w.offset - w.offset) }]) p =
      lastWritten ws p := fun p => by
    rw [lastWritten_snoc, if_neg (by simp)]
  have hok₀ : OpenOk (A w.offset) (chunkLimit total) h fb ids chain :=
    ⟨hok.handle, hok.backed.mono (fun p b hb => by
      dsimp only [A, Latest]; rw [hstart]; exact hb) (chunkLimit_mono hle)⟩
  have hover := latest_overwrites ws w
  have hwide : OpenOk (A w.offset) (max (chunkLimit total) h.file.slotMap.length) h fb ids chain :=
    ⟨hok₀.handle, hok₀.backed.mono (fun _ _ => id) (le_max_left _ _)⟩
  obtain ⟨h₁, hloop, -⟩ := writeLoop_run w.ord hwide le_rfl
    (fun p hp hlt => lt_of_lt_of_le (hlim p hp hlt) (le_max_left _ _)) (le_max_right _ _) hover
  obtain ⟨-, hok₁, hw, htotal⟩ := writeLoop_ok hok₀ le_rfl (by omega) hlim hover hloop
  obtain ⟨hs₁, hg₁, hin₁⟩ := writeLoop_chunks hs le_rfl hloop
  have htotal₁ : h₁.file.totalSize = total := by
    rw [htotal]
    dsimp only [total]
    by_cases e : w.data = []
    · rw [if_pos e, if_neg (hempty.mp e)]
    · rw [if_neg e, if_pos (not_not.mp (mt hempty.mpr e))]
  have hend : A (w.offset + w.data.length) = Latest (ws ++ [w]) := by
    dsimp only [A]
    rw [Nat.add_sub_cancel_left, List.take_length]
  rw [hend] at hok₁
  -- what is left of the call moves chunks to the disk at most
  have hrest : Showing (Latest (ws ++ [w])) h₁.file fb ids chain (chunkBytes h₁) h' := by
    have hsh : Showing (Latest (ws ++ [w])) h₁.file fb ids chain (chunkBytes h₁) h₁ :=
      .of_ok (by rw [htotal₁]; exact hok₁) hs₁
    dsimp only [h']
    unfold writeHandle
    rw [after_bind_of_ok hloop, after_bind_of_ok run_get]
    dsimp only
    split
    next => exact ((writeThroughFlush_showing _ _).bind fun _ _ => .pure trivial).after
              (Q := fun _ => True) hsh
    next => exact hsh
  refine ⟨?_, hrest.synced, hrest.ino.trans hw.ino, hrest.headSlot.trans hw.headSlot,
    hrest.totalSize.trans htotal₁, hg₁.trans (.of_eq hrest.chunks), fun p hp hne hlt => ?_⟩
  · rw [hrest.totalSize]
    exact hrest.ok
  · rw [hrest.chunks]
    exact hin₁ p hp (not_not.mp (mt hempty.mpr hne)) hlt

/-! ## Runs of a growing file -/

/-- Position `p` lies inside the bytes the handle finds for its chunk. -/
def HasByte (s : VenomFuse σ) (fh p : Nat) : Prop :=
  ∃ f d, s.openFiles.get fh = some f ∧
    chunkBytes ⟨s.container, f⟩ (p / chunkSize) = some d ∧ p % chunkSize < d.length

/-- From the end of the file up to `stop` only positions of the chunks `filled` are missing. -/
def NoGap (s : VenomFuse σ) (fh stop : Nat) (filled : Nat → Prop) : Prop :=
  ∀ total, totalSizeOf s fh = some total →
    ∀ p, total ≤ p → p < stop → HasByte s fh p ∨ filled (p / chunkSize)

/-- The states of a file that is created and then written, extended and read through its
    handle, each with the writes so far.  A call that fails counts like any other.  With
    `careful`, a write starts where the bytes end or in the chunk after them, and an
    extension stays inside them. -/
inductive GrowRun (careful : Prop) (ino fh : Nat) : VenomFuse σ → List WriteCall → Prop
  | create {s s' : VenomFuse σ} {parent : Nat} {name : String} : DriverOk s →
      (opCreate parent name).run s = .ok (ino, fh) s' → GrowRun careful ino fh s' []
  | write {s : VenomFuse σ} {ws : List WriteCall} (w : WriteCall) :
      GrowRun careful ino fh s ws →
      (careful → w.data ≠ [] → NoGap s fh w.offset (· = w.offset / chunkSize)) →
      GrowRun careful ino fh (after (opWrite w.ord fh w.offset w.data) s) (ws ++ [w])
  | extend {s : VenomFuse σ} {ws : List WriteCall} {total : Nat} (ord : IterOrder Nat)
      (hint : Option Nat) (newSize : Nat) : GrowRun careful ino fh s ws →
      findHandle ord ino hint s.openFiles = some fh → totalSizeOf s fh = some total →
      total ≤ newSize → (careful → NoGap s fh newSize fun _ => False) →
      GrowRun careful ino fh (after (opSetattrSize ord ino hint newSize) s) ws
  | read {s : VenomFuse σ} {ws : List WriteCall} (ord : IterOrder Nat) (offset size : Nat) :
      GrowRun careful ino fh s ws →
      GrowRun careful ino fh (after (opRead ord fh offset size) s) ws

/-- The bytes a read should give: the last one written to each position, zeros in holes. -/
def latestBytes (ws : List WriteCall) (total offset size : Nat) : List UInt8 :=
  (List.range (min size (total - offset))).map fun k => (lastWritten ws (offset + k)).getD 0

/-- The open file shows the writes so far; with `careful`, no byte of it is missing. -/
structure Grown (careful : Prop) (ino fh : Nat) (s : VenomFuse σ) (ws : List WriteCall)
    (f : OpenFile) (fb : FileBlock) (ids chain : List Nat) : Prop where
  shows : Open (Latest ws) s fh f fb ids chain
  synced : Synced ⟨s.container, f⟩
  ino : f.ino = ino
  full : careful → ∀ p, p < f.totalSize → chunkByte (chunkBytes ⟨s.container, f⟩) p ≠ none

section GrowRun

variable {careful : Prop} {ino fh : Nat} {s : VenomFuse σ} {ws : List WriteCall} {f : OpenFile}
  {fb : FileBlock} {ids chain : List Nat}

omit [NodeView σ] [LawfulNodeStore σ] in
theorem hasByte_iff (h : s.openFiles.get fh = some f) (p : Nat) :
    HasByte s fh p ↔ chunkByte (chunkBytes ⟨s.container, f⟩) p ≠ none := by
  rw [chunkByte_ne_none]
  constructor
  · rintro ⟨f', d, hf, hd, hlt⟩
    obtain rfl : f = f' := Option.some.inj (h.symm.trans hf)
    exact ⟨d, hd, hlt⟩
  · rintro ⟨d, hd, hlt⟩
    exact ⟨f, d, h, hd, hlt⟩

omit [LawfulNodeStore σ] in
theorem Grown.totalSizeOf (hg : Grown careful ino fh s ws f fb ids chain) :
    totalSizeOf s fh = some f.totalSize := by
  rw [Venom.Fuse.totalSizeOf, hg.shows.entry]
  rfl

theorem Grown.created {s' : VenomFuse σ} {parent : Nat} {name : String} (hs : DriverOk s)
    (hrun : (opCreate parent name).run s = .ok (ino, fh) s') :
    ∃ f fb ids chain, Grown careful ino fh s' [] f fb ids chain := by
  obtain ⟨head, ho⟩ := opCreate_ok (A := Latest []) hs (fun _ => .inr ⟨rfl, rfl⟩) hrun
  refine ⟨_, _, _, _, ho, fun i d hd => ?_, rfl, fun _ p hp => ?_⟩
  · cases hd
  · cases hp

/-- Writing fills the chunk a write starts in, so only the chunks before it may have gaps. -/
theorem Grown.write (hg : Grown careful ino fh s ws f fb ids chain) (w : WriteCall)
    (hgap : careful → w.data ≠ [] → NoGap s fh w.offset (· = w.offset / chunkSize)) :
    ∃ f', Grown careful ino fh (after (opWrite w.ord fh w.offset w.data) s) (ws ++ [w])
      f' fb ids chain := by
  have ho := hg.shows
  obtain ⟨hok, hs, hino, hhead, htotal, hgrow, hin⟩ :=
    writeHandle_after w (h := ⟨s.container, f⟩) ho.ok hg.synced
  rw [after_congr (opWrite_run ho.entry _ _ _), withHandle_after]
  refine ⟨_, ho.afterHandle hino hhead hok, hs, hino.trans hg.ino, fun hc p hp => ?_⟩
  rw [htotal] at hp
  by_cases hold : p < f.totalSize
  · exact hgrow.chunkByte (hg.full hc p hold)
  split at hp
  next => exact absurd hp hold
  next hne =>
    have hend : p < w.offset + w.data.length := by dsimp only at hp; omega
    by_cases hstart : p < w.offset
    · rcases hgap hc hne _ hg.totalSizeOf p (by omega) hstart with hbyte | hsame
      · exact hgrow.chunkByte ((hasByte_iff ho.entry p).mp hbyte)
      · exact hin p hsame.ge hne hend
    · exact hin p (Nat.div_le_div_right (by omega)) hne hend

omit [LawfulNodeStore σ] in
theorem Grown.extend (hg : Grown careful ino fh s ws f fb ids chain) {ord : IterOrder Nat}
    {hint : Option Nat} {newSize : Nat} (hfind : findHandle ord ino hint s.openFiles = some fh)
    (hle : f.totalSize ≤ newSize) (hgap : careful → NoGap s fh newSize fun _ => False) :
    ∃ f', Grown careful ino fh (after (opSetattrSize ord ino hint newSize) s) ws
      f' fb ids chain := by
  have ho := hg.shows
  have hr := resizeFile_resized newSize f
  have hrun : (opSetattrSize ord ino hint newSize).run s = .ok ()
      { s with openFiles := s.openFiles.insert fh (resizeFile newSize f) } := by
    rw [opSetattrSize_found hfind, opSetattrSize_run ho.entry]
    exact withHandle_ok.mpr ⟨⟨s.container, resizeFile newSize f⟩, rfl, rfl⟩
  have hgrown : resizeFile newSize f = f ∨
      resizeFile newSize f = { f with totalSize := newSize, metaDirty := true } := by
    unfold resizeFile
    split
    · exact .inl rfl
    · rw [if_neg (by omega)]
      exact .inr rfl
  have hdisk : diskChunk s.container (resizeFile newSize f) = diskChunk s.container f :=
    diskChunk_congr hr.slotMap hr.headSlot
  have hcache : (resizeFile newSize f).cache = f.cache := by rcases hgrown with e | e <;> rw [e]
  have hdirty : (resizeFile newSize f).dirty = f.dirty := by rcases hgrown with e | e <;> rw [e]
  have hbytes : chunkBytes ⟨s.container, resizeFile newSize f⟩ = chunkBytes ⟨s.container, f⟩ := by
    funext i
    simp only [chunkBytes, hcache, hdisk]
  rw [after_of_ok hrun]
  refine ⟨_, (opSetattrSize_ok ho (fun _ _ _ h => h) (fun _ _ _ h => h) (fun hlt => by omega)
    (by rw [← opSetattrSize_found hfind]; exact hrun)).1, fun i d hd hi => ?_,
    hr.ino.trans hg.ino, fun hc p hp => ?_⟩
  · dsimp only at hd hi ⊢
    rw [hcache] at hd
    rw [hdirty] at hi
    rw [hdisk]
    exact hg.synced i d hd hi
  · dsimp only
    rw [hbytes]
    rw [hr.totalSize] at hp
    by_cases hold : p < f.totalSize
    · exact hg.full hc p hold
    · exact (hasByte_iff ho.entry p).mp
        ((hgap hc _ hg.totalSizeOf p (by omega) hp).resolve_right id)

theorem Grown.read (hg : Grown careful ino fh s ws f fb ids chain) (ord : IterOrder Nat)
    (offset size : Nat) :
    ∃ f', Grown careful ino fh (after (opRead ord fh offset size) s) ws f' fb ids chain := by
  have ho := hg.shows
  have hsh := (readHandle_showing ord offset size).after (.of_ok ho.ok hg.synced)
  rw [after_congr (opRead_run ho.entry _ _ _), withHandle_after]
  refine ⟨_, ho.afterHandle hsh.ino hsh.headSlot (by rw [hsh.totalSize]; exact hsh.ok),
    hsh.synced, hsh.ino.trans hg.ino, fun hc p hp => ?_⟩
  change chunkByte (chunkBytes (after (readHandle ord offset size) ⟨s.container, f⟩)) p ≠ none
  rw [hsh.chunks]
  rw [hsh.totalSize] at hp
  exact hg.full hc p hp

theorem GrowRun.grown (h : GrowRun careful ino fh s ws) :
    ∃ f fb ids chain, Grown careful ino fh s ws f fb ids chain := by
  induction h with
  | create hs hrun => exact Grown.created hs hrun
  | write w _ hgap ih =>
    obtain ⟨f, fb, ids, chain, hg⟩ := ih
    obtain ⟨f', hg'⟩ := hg.write w hgap
    exact ⟨f', fb, ids, chain, hg'⟩
  | extend ord hint newSize _ hfind htotal hle hgap ih =>
    obtain ⟨f, fb, ids, chain, hg⟩ := ih
    obtain rfl := Option.some.inj (hg.totalSizeOf.symm.trans htotal)
    obtain ⟨f', hg'⟩ := hg.extend hfind hle hgap
    exact ⟨f', fb, ids, chain, hg'⟩
  | read ord offset size _ ih =>
    obtain ⟨f, fb, ids, chain, hg⟩ := ih
    obtain ⟨f', hg'⟩ := hg.read ord offset size
    exact ⟨f', fb, ids, chain, hg'⟩

theorem Shows.of_chunkBytes {A : Content} {lim : Nat} {h : Handle σ} {fb : FileBlock}
    {ids chain : List Nat} (hok : OpenOk A lim h fb ids chain) {i : Nat} {d : List UInt8}
    (hd : chunkBytes h i = some d) : Shows A i d := by
  cases hc : h.file.cache.get i with
  | some d' =>
    obtain rfl : d' = d := Option.some.inj ((chunkBytes_cached hc).symm.trans hd)
    exact hok.backed.cached hc
  | none =>
    have hload := loadChunk_eq h i
    rw [(chunkBytes_uncached hc).symm.trans hd] at hload
    exact (loadChunk_ok hok hc hload).2.2

/-- A read is right exactly when no position it covers is missing. -/
theorem Grown.read_iff (hg : Grown careful ino fh s ws f fb ids chain) (ord : IterOrder Nat)
    (offset size : Nat) :
    valueOf (opRead ord fh offset size) s = some (latestBytes ws f.totalSize offset size) ↔
      ∀ p, offset ≤ p → p < offset + size → p < f.totalSize → HasByte s fh p := by
  have ho := hg.shows
  have hlen : ∀ i d, chunkBytes ⟨s.container, f⟩ i = some d → d.length ≤ chunkSize :=
    fun i d hd => (Shows.of_chunkBytes ho.ok hd).1
  have hlatest : ∀ p b, chunkByte (chunkBytes ⟨s.container, f⟩) p = some b →
      b = (lastWritten ws p).getD 0 := fun p b hb => by
    obtain ⟨d, hd, hbyte⟩ := Option.bind_eq_some_iff.mp hb
    have hshow := (Shows.of_chunkBytes ho.ok hd).2 _ (Nat.mod_lt p chunkSize_pos)
    rw [chunk_split, hbyte] at hshow
    exact Option.some.inj (hshow.resolve_right (by simp))
  rw [valueOf_congr (opRead_run ho.entry _ _ _), withHandle_valueOf,
    readHandle_chunks ord hg.synced, latestBytes,
    show min size (f.totalSize - offset) = min (offset + size) f.totalSize - offset by omega]
  rw [readChunks_eq_iff hlen hlatest]
  refine forall₂_congr fun p hp => ?_
  rw [hasByte_iff ho.entry, Nat.lt_min, and_imp]

end GrowRun

/-- A read of a growing file gives the last bytes written, and zeros in the holes, exactly
    when no position it covers is missing from its chunk; in a careful run none is. -/
theorem grown_reads {careful : Prop} {ino fh : Nat} {s : VenomFuse σ} {ws : List WriteCall}
    (h : GrowRun careful ino fh s ws) :
    ∃ total, totalSizeOf s fh = some total ∧
      (∀ ord offset size,
        valueOf (opRead ord fh offset size) s = some (latestBytes ws total offset size) ↔
          ∀ p, offset ≤ p → p < offset + size → p < total → HasByte s fh p) ∧
      (careful → ∀ ord offset size,
        valueOf (opRead ord fh offset size) s = some (latestBytes ws total offset size)) := by
  obtain ⟨f, fb, ids, chain, hg⟩ := h.grown
  refine ⟨f.totalSize, hg.totalSizeOf, hg.read_iff, fun hc ord offset size => ?_⟩
  rw [hg.read_iff]
  exact fun p _ _ hp => (hasByte_iff hg.shows.entry p).mpr (hg.full hc p hp)

/-- A byte in chunk 0 of a new file and two in chunk 1. -/
def twoChunks : VenomFuse Volume :=
  after (opWrite .listed 1 chunkSize [98, 99]) (after (opWrite .listed 1 0 [97]) created)

/-- Chunk 1 is read whole.  Chunk 0 ends after its byte, and the read gives nothing. -/
theorem grown_reads_chunks :
    GrowRun False 2 1 twoChunks [⟨.listed, 0, [97]⟩, ⟨.listed, chunkSize, [98, 99]⟩] ∧
      (∀ ord, valueOf (opRead ord 1 chunkSize 2) twoChunks = some [98, 99]) ∧
      valueOf (opRead .listed 1 0 2) twoChunks ≠ some [97, 0] := by
  have hcreate : GrowRun False 2 1 created [] := .create mounted_ok
    (run_of_valueOf (x := opCreate 1 "notes") (a := (2, 1)) (by decide +kernel))
  have hrun : GrowRun False 2 1 twoChunks
      ([] ++ [⟨.listed, 0, [97]⟩] ++ [⟨.listed, chunkSize, [98, 99]⟩]) :=
    .write ⟨.listed, chunkSize, [98, 99]⟩ (.write ⟨.listed, 0, [97]⟩ hcreate False.elim) False.elim
  obtain ⟨total, htotal, hreads, -⟩ := grown_reads hrun
  obtain rfl : total = chunkSize + 2 := Option.some.inj (htotal.symm.trans (by decide +kernel))
  obtain ⟨f, hf⟩ : ∃ f, twoChunks.openFiles.get 1 = some f :=
    Option.isSome_iff_exists.mp (by decide +kernel)
  have hbytes : ∀ p, HasByte twoChunks 1 p ↔ chunkByte (chunkBytes ⟨twoChunks.container, f⟩) p ≠ none :=
    hasByte_iff hf
  refine ⟨hrun, fun ord => ((hreads ord chunkSize 2).mpr fun p hle hlt _ => ?_).trans
    (by decide +kernel), fun hread => ?_⟩
  · rw [hbytes]
    have hboth : p = chunkSize ∨ p = chunkSize + 1 := by omega
    rcases hboth with rfl | rfl
    · exact of_openFile (fun f => chunkByte (chunkBytes ⟨twoChunks.container, f⟩) chunkSize ≠ none)
        (by decide +kernel) f hf
    · exact of_openFile (fun f => chunkByte (chunkBytes ⟨twoChunks.container, f⟩) (chunkSize + 1) ≠ none)
        (by decide +kernel) f hf
  · have hone := (hreads .listed 0 2).mp (hread.trans (by decide +kernel)) 1 (by decide) (by decide)
      (by decide)
    refine (hbytes 1).mp hone ?_
    exact of_openFile (fun f => chunkByte (chunkBytes ⟨twoChunks.container, f⟩) 1 = none)
      (by decide +kernel) f hf

/-- A new file extended to ten bytes reads as empty. -/
theorem extended_read_short : ¬ ∀ (ino fh total : Nat) (s : VenomFuse Volume)
    (ws : List WriteCall), GrowRun False ino fh s ws → totalSizeOf s fh = some total →
    ∀ ord offset size,
      valueOf (opRead ord fh offset size) s = some (latestBytes ws total offset size) := by
  intro hall
  have hrun : GrowRun False 2 1 (after (opSetattrSize .listed 2 none 10) created) [] :=
    .extend .listed none 10 (.create mounted_ok
      (run_of_valueOf (x := opCreate 1 "notes") (a := (2, 1)) (by decide +kernel)))
      (by decide +kernel) (show totalSizeOf created 1 = some 0 by decide +kernel)
      (Nat.zero_le _) False.elim
  have hread := hall 2 1 10 _ _ hrun (by decide +kernel) .listed 0 10
  revert hread
  decide +kernel

end Venom.Fuse
