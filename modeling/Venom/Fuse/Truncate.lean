import Venom.Fuse.History

/-! # Bytes behind a truncation

A truncation cuts only what it finds in the cache: a last chunk that is not cached, slots
of the handle past the new end, and chunk 0 of a file cut to nothing keep their bytes for a
while.  `TruncatedRun` is a truncation and what may follow it; where each step takes care
of these places, a position behind the cut reads as zero or not at all.
-/

namespace Venom.Fuse

open Venom.Storage
open Venom.Library
open Venom.Library.Chunks
open Venom.Library.StateError

variable {σ : Type} [NodeStore σ]

/-! ## Runs after a truncation -/

/-- The size of a file: its handle's, or without a handle the head's. -/
def fileSize (s : VenomFuse σ) (ino : Nat) : Option Nat → Option Nat
  | some fh => (s.openFiles.get fh).map (·.totalSize)
  | none => (s.inodes.slotOf ino).bind fun head =>
    match NodeStore.readNode head s.container with
    | .ok (.file fb) => some fb.totalSize
    | _ => none

/-- What may follow a truncation. -/
inductive CutOp
  | read (offset size : Nat)
  | write (offset : Nat) (data : List UInt8)
  | extend (hint : Option Nat) (newSize : Nat)
  | flush
  | release
  | reopen

/-- The operation on the file, open at `fh` if at all; the handle it ends with. -/
def CutOp.run (ord : IterOrder Nat) (ino : Nat) : CutOp → Option Nat → FuseM σ (Option Nat)
  | .read offset size, some fh => do
    let _ ← opRead ord fh offset size
    pure (some fh)
  | .write offset data, some fh => do
    let _ ← opWrite ord fh offset data
    pure (some fh)
  | .extend hint newSize, fh => do
    opSetattrSize ord ino hint newSize
    pure fh
  | .flush, some fh => do
    opFlush ord fh
    pure (some fh)
  | .release, some fh => do
    opRelease ord fh
    pure none
  | .reopen, none => do
    let fh ← opOpen ino
    pure (some fh)
  | _, _ => throw (.errno .einval)

/-- Writes spare position `p`, and resizes only extend. -/
def CutOp.Allowed (p : Nat) (ord : IterOrder Nat) (ino : Nat) (s : VenomFuse σ)
    (fh : Option Nat) : CutOp → Prop
  | .write offset data => ¬ (offset ≤ p ∧ p < offset + data.length)
  | .extend hint newSize => findHandle ord ino hint s.openFiles = fh ∧
    ∃ size, fileSize s ino fh = some size ∧ size ≤ newSize
  | _ => True

/-! ## Care -/

/-- The truncation cuts the last chunk: the handle has it in the cache, or there is
    nothing to cut from a continuation chunk. -/
def CutSafe (s : VenomFuse σ) (newSize : Nat) : Option Nat → Prop
  | some fh => ∀ f, s.openFiles.get fh = some f →
    f.cache.get (lastChunk newSize) ≠ none ∨ (0 < newSize ∧ newSize % chunkSize = 0)
  | none => newSize ≤ chunkSize ∨ newSize % chunkSize = 0

/-- The handle has no slots past the end of the file, and of a file cut to nothing chunk 0
    will be written back. -/
def GrowSafe (chunk0 : Prop) (f : OpenFile) : Prop :=
  f.slotMap.length ≤ chunkLimit f.totalSize ∧
    (f.totalSize = 0 → f.metaDirty = true → 0 ∈ f.dirty ∨ chunk0)

/-- A file grows only where nothing is left past its end, and is released without holes. -/
def CutOp.Safe (s : VenomFuse σ) : Option Nat → CutOp → Prop
  | some fh, .write offset data => ∀ f, s.openFiles.get fh = some f → data ≠ [] →
    f.totalSize < offset + data.length → GrowSafe (offset < chunkSize) f
  | some fh, .extend _ newSize => ∀ f, s.openFiles.get fh = some f →
    f.totalSize < newSize → GrowSafe False f
  | some fh, .release => ∀ f, s.openFiles.get fh = some f → ∀ i j, 1 ≤ j → j < i →
    i < chunkLimit f.totalSize → Occupied f i → Occupied f j
  | _, _ => True

variable [NodeView σ]

/-- A truncation below position `p` and what follows it; with `careful`, every step takes
    care of the bytes behind the cut. -/
inductive TruncatedRun (careful : Prop) (ino p : Nat) : VenomFuse σ → Option Nat → Prop
  | truncate {s s' : VenomFuse σ} {fh : Option Nat} {size : Nat} (ord : IterOrder Nat)
      (hint : Option Nat) (newSize : Nat) : FileRun ino s fh →
      findHandle ord ino hint s.openFiles = fh → fileSize s ino fh = some size →
      newSize < size → newSize ≤ p → (careful → CutSafe s newSize fh) →
      (opSetattrSize ord ino hint newSize).run s = .ok () s' → TruncatedRun careful ino p s' fh
  | step {s s' : VenomFuse σ} {fh fh' : Option Nat} (ord : IterOrder Nat) (op : CutOp) :
      TruncatedRun careful ino p s fh → op.Allowed p ord ino s fh → (careful → op.Safe s fh) →
      (op.run ord ino fh).run s = .ok fh' s' → TruncatedRun careful ino p s' fh'

/-! ## Where the bytes behind the cut are -/

/-- Position `p` is zero or missing. -/
def ZeroAt (p : Nat) : Content := fun q b => q = p → b = none ∨ b = some 0

/-- A file after a careful truncation: position `p` is zero wherever its chunk is, or the
    chunk lies past the end, or the file was cut to nothing and not yet written back. -/
inductive CutState (ino p : Nat) : VenomFuse σ → Option Nat → Prop
  | zero {s : VenomFuse σ} {fh : Nat} {f : OpenFile} {fb : FileBlock} {ids chain : List Nat} :
      Open (ZeroAt p) s fh f fb ids chain → f.ino = ino → CutState ino p s (some fh)
  | behind {s : VenomFuse σ} {fh : Nat} {f : OpenFile} {fb : FileBlock} {ids chain : List Nat} :
      Open Anything s fh f fb ids chain → f.ino = ino → chunkLimit f.totalSize ≤ p / chunkSize →
      CutState ino p s (some fh)
  | emptied {s : VenomFuse σ} {fh : Nat} {f : OpenFile} {fb : FileBlock} {ids chain : List Nat} :
      Open Anything s fh f fb ids chain → f.ino = ino → p < chunkSize → f.totalSize = 0 →
      f.metaDirty = true → f.cache.get 0 = some [] → (∀ i, i ∈ f.dirty → i = 0) →
      CutState ino p s (some fh)
  | closed {s : VenomFuse σ} {head : Nat} {fb : FileBlock} {ids chain : List Nat} :
      Closed (ZeroAt p) s ino head fb ids chain → CutState ino p s none

theorem zeroAt_missing (p i : Nat) : Shows (ZeroAt p) i [] :=
  ⟨by simp, fun _ _ _ => .inl (by simp)⟩

theorem zeroAt_other {p q : Nat} {b : Option UInt8} (h : q / chunkSize ≠ p / chunkSize) :
    ZeroAt p q b := fun e => absurd (e ▸ rfl) h

variable [LawfulNodeStore σ]

omit [NodeStore σ] [LawfulNodeStore σ] in
/-- A chunk past the end of a handle without slots there is nowhere. -/
theorem OpenOk.behind_zero {h : Handle σ} {fb : FileBlock} {ids chain : List Nat} {p : Nat}
    (hok : OpenOk Anything (chunkLimit h.file.totalSize) h fb ids chain)
    (hp : chunkLimit h.file.totalSize ≤ p / chunkSize)
    (htrim : h.file.slotMap.length ≤ chunkLimit h.file.totalSize) :
    OpenOk (ZeroAt p) (chunkLimit h.file.totalSize) h fb ids chain := by
  refine hok.only (i := p / chunkSize) (fun _ _ => zeroAt_other) (fun d hd => ?_) (fun e _ => ?_)
    (fun s d hs _ _ => ?_) (zeroAt_missing p _)
  · have := (hok.backed.cachedLt hd).2
    omega
  · unfold chunkLimit at hp
    omega
  · have := (List.getElem?_eq_some_iff.mp hs).1
    omega

omit [NodeStore σ] [LawfulNodeStore σ] in
/-- An emptied chunk 0 that will be written back. -/
theorem OpenOk.emptied_zero {h : Handle σ} {fb : FileBlock} {ids chain : List Nat} {lim p : Nat}
    (hok : OpenOk Anything lim h fb ids chain) (hp : p < chunkSize)
    (hcache : h.file.cache.get 0 = some [])
    (hhead : 0 ∈ h.file.dirty ∨ fb.data = []) : OpenOk (ZeroAt p) lim h fb ids chain := by
  have hzero : p / chunkSize = 0 := Nat.div_eq_of_lt hp
  refine hok.only (i := 0) (fun q b hne => zeroAt_other (by rwa [hzero])) (fun d hd => ?_)
    (fun _ hn => ?_) (fun s d hs _ _ => ?_) (zeroAt_missing p 0)
  · rw [hcache] at hd
    cases hd
    exact zeroAt_missing p 0
  · rcases hhead with hd | e
    · exact absurd ⟨hd, by rw [hcache]; simp⟩ hn
    · rw [e]; exact zeroAt_missing p 0
  · rw [hok.handle.mapHead] at hs
    cases hs

omit [NodeStore σ] [LawfulNodeStore σ] in
theorem Open.behind_zero {s : VenomFuse σ} {fh : Nat} {f : OpenFile} {fb : FileBlock}
    {ids chain : List Nat} {p : Nat} (ho : Open Anything s fh f fb ids chain)
    (hp : chunkLimit f.totalSize ≤ p / chunkSize)
    (htrim : f.slotMap.length ≤ chunkLimit f.totalSize) : Open (ZeroAt p) s fh f fb ids chain :=
  ⟨ho.entry, ho.inode, OpenOk.behind_zero (h := ⟨s.container, f⟩) ho.ok hp htrim⟩

omit [NodeStore σ] [LawfulNodeStore σ] in
theorem Open.emptied_zero {s : VenomFuse σ} {fh : Nat} {f : OpenFile} {fb : FileBlock}
    {ids chain : List Nat} {p : Nat} (ho : Open Anything s fh f fb ids chain)
    (hp : p < chunkSize) (hcache : f.cache.get 0 = some [])
    (hhead : 0 ∈ f.dirty ∨ fb.data = []) : Open (ZeroAt p) s fh f fb ids chain :=
  ⟨ho.entry, ho.inode, ho.ok.emptied_zero hp hcache hhead⟩

/-! ## The truncation -/

theorem lastChunk_le {n p : Nat} (h : n ≤ p) : lastChunk n ≤ p / chunkSize := by
  unfold lastChunk
  split
  next => exact Nat.zero_le _
  next => exact Nat.div_le_div_right (by omega)

theorem chunkLimit_eq (n : Nat) : chunkLimit n = lastChunk n + 1 := by
  unfold chunkLimit chunkCount lastChunk
  by_cases h : n = 0
  · simp [h]
  · have hcount : (n + chunkSize - 1) / chunkSize = (n - 1) / chunkSize + 1 := by
      rw [show n + chunkSize - 1 = n - 1 + chunkSize by omega, Nat.add_div_right _ chunkSize_pos]
    rw [if_neg h, if_neg h, hcount]
    exact Nat.max_eq_left (Nat.le_add_left 1 _)

/-- No position behind a cut at a multiple of the chunk size is in the last chunk. -/
theorem lastChunk_lt_of_mod {n p : Nat} (hpos : 0 < n) (hmod : n % chunkSize = 0) (hp : n ≤ p) :
    lastChunk n < p / chunkSize := by
  obtain ⟨k, hk⟩ := Nat.dvd_of_mod_eq_zero hmod
  have hle := Nat.div_le_div_right (c := chunkSize) hp
  rw [hk, Nat.mul_div_cancel_left _ chunkSize_pos] at hle
  have hcs := chunkSize_pos
  have hlt : (n - 1) / chunkSize < k := by
    rw [Nat.div_lt_iff_lt_mul hcs, Nat.mul_comm]; omega
  unfold lastChunk
  rw [if_neg (by omega)]
  omega

theorem Closed.fileSize {A : Content} {s : VenomFuse σ} {ino head : Nat} {fb : FileBlock}
    {ids chain : List Nat} (hc : Closed A s ino head fb ids chain) :
    fileSize s ino none = some fb.totalSize := by
  have hread : NodeStore.readNode head s.container = .ok (.file fb) :=
    (readNode_ok (s := head) (hc.ok.handle.accounts.isDataSlot
      (by rw [reopened_ownedSlots]; simp))).mpr hc.ok.handle.head
  rw [Venom.Fuse.fileSize, hc.inode, Option.bind_some, hread]

theorem truncate_cutState {s s' : VenomFuse σ} {fh : Option Nat} {ino p size newSize : Nat}
    {ord : IterOrder Nat} {hint : Option Nat} (hok : FileOk Anything ino s fh)
    (hfind : findHandle ord ino hint s.openFiles = fh) (hsize : fileSize s ino fh = some size)
    (hlt : newSize < size) (hp : newSize ≤ p) (hsafe : CutSafe s newSize fh)
    (hrun : (opSetattrSize ord ino hint newSize).run s = .ok () s') : CutState ino p s' fh := by
  cases fh with
  | none =>
    obtain ⟨head, fb, ids, chain, hc⟩ := hok
    obtain rfl : fb.totalSize = size := Option.some.inj (hc.fileSize.symm.trans hsize)
    have hcut : TruncatesOnDisk Anything (ZeroAt p) newSize := by
      refine ⟨fun q b _ hq hcount e => absurd hcount ?_, fun _ _ => .inl rfl⟩
      -- the position is not kept: it lies in chunk 0 behind the cut, or behind the last chunk
      subst e
      rw [lt_chunkCount]
      have hsplit := chunk_split q
      rcases hsafe with hone | hmod
      · have := Nat.le_mul_of_pos_left chunkSize (show 0 < q / chunkSize by omega)
        omega
      · rcases Nat.eq_zero_or_pos newSize with rfl | hpos
        · omega
        · have hlast := lastChunk_lt_of_mod hpos hmod hp
          have hnot : ¬ q / chunkSize < chunkCount newSize := by
            have := chunkLimit_eq newSize
            unfold chunkLimit at this
            omega
          rwa [lt_chunkCount] at hnot
    obtain ⟨fb', ids', chain', hc', -⟩ := opSetattrSize_closed hc hfind (fun _ => hcut)
      (fun hge => by omega) hrun
    exact .closed hc'
  | some fh =>
    obtain ⟨f, fb, ids, chain, ho, rfl⟩ := hok
    rw [opSetattrSize_found hfind] at hrun
    obtain rfl : f.totalSize = size := by
      rw [fileSize, ho.entry] at hsize
      exact Option.some.inj hsize
    have hresize := resizeFile_resized newSize f
    have hany : Open Anything s' fh (resizeFile newSize f) fb ids chain :=
      (opSetattrSize_ok ho (fun _ _ _ h => h) (fun _ _ _ h => h)
        (fun _ => anything_truncates _ _) hrun).1
    have hge := lastChunk_le hp
    have hlimit := chunkLimit_eq newSize
    by_cases hlast : lastChunk newSize = p / chunkSize
    · have hcached : f.cache.get (lastChunk newSize) ≠ none := by
        rcases hsafe f ho.entry with hc | ⟨hpos, hmod⟩
        · exact hc
        · have := lastChunk_lt_of_mod hpos hmod hp
          omega
      rcases Nat.eq_zero_or_pos newSize with rfl | hpos
      · -- cut to nothing
        have hfile : resizeFile 0 f =
            { truncateFile 0 f with totalSize := 0, metaDirty := true } := by
          unfold resizeFile
          rw [if_neg (by omega), if_pos hlt]
        have hp0 : p < chunkSize := by
          have : p / chunkSize = 0 := hlast.symm
          exact (Nat.div_eq_zero_iff.mp this).resolve_left (by have := chunkSize_pos; omega)
        refine .emptied hany hresize.ino hp0 hresize.totalSize (by rw [hfile]) ?_ fun i hi => ?_
        · obtain ⟨d, hd⟩ := Option.ne_none_iff_exists'.mp hcached
          rw [hfile]
          change (truncateFile 0 f).cache.get 0 = some []
          rw [truncateFile_get]
          have hl0 : lastChunk 0 = 0 := rfl
          rw [hl0] at hd ⊢
          simp [hd]
        · rw [hfile] at hi
          change i ∈ (truncateFile 0 f).dirty at hi
          rw [truncateFile_dirty] at hi
          have hl0 : lastChunk 0 = 0 := rfl
          omega
      · refine .zero (opSetattrSize_ok ho (by omega) (by omega) (fun _ => ⟨?_, ?_, ?_⟩) hrun).1
          hresize.ino
        · have hcuts : cutsLast newSize f = true := by
            rw [cutsLast, Bool.and_eq_true]
            exact ⟨by simpa using hpos, Option.isSome_iff_ne_none.mpr hcached⟩
          rintro q b - hq - rfl
          rw [hcuts] at hq
          rcases hq with hq | hq | hq
          · omega
          · exact absurd hlast.symm hq
          · cases hq
        · exact fun _ _ _ _ => .inl rfl
        · rintro q b hq rfl
          omega
    · exact .behind hany hresize.ino (by rw [hresize.totalSize]; omega)

/-! ## The steps after it -/

section Steps

variable {s s' : VenomFuse σ} {ino p fh : Nat} {f : OpenFile} {fb : FileBlock}
  {ids chain : List Nat} {ord : IterOrder Nat}

theorem zeroAt_overwrites {offset q k : Nat} {data : List UInt8}
    (hout : ¬ (offset ≤ p ∧ p < offset + data.length)) (hq : offset ≤ q)
    (hk : q + k ≤ offset + data.length) :
    Overwrites (ZeroAt p) (ZeroAt p) q ((data.drop (q - offset)).take k) := by
  refine ⟨fun i hi e => ?_, fun _ _ _ h => h, fun _ _ _ _ => .inr rfl⟩
  rw [List.length_take, List.length_drop] at hi
  omega

theorem write_zero {offset n : Nat} {data : List UInt8} (ho : Open (ZeroAt p) s fh f fb ids chain)
    (hout : ¬ (offset ≤ p ∧ p < offset + data.length))
    (hrun : (opWrite ord fh offset data).run s = .ok n s') : CutState f.ino p s' (some fh) := by
  obtain ⟨f', ho', -, hino, -⟩ := opWrite_ok (A := fun _ => ZeroAt p) ho
    (fun _ _ => zeroAt_overwrites hout) hrun
  exact .zero ho' hino

omit [LawfulNodeStore σ] in
theorem Open.resized_same {A : Content} (ho : Open A s fh f fb ids chain)
    (hrun : (opSetattrSize ord ino (some fh) f.totalSize).run s = .ok () s') :
    Open A s' fh f fb ids chain := by
  obtain ⟨ho', -⟩ := opSetattrSize_ok ho (fun _ _ _ h => h) (fun _ _ _ h => h)
    (fun hlt => absurd hlt (Nat.lt_irrefl _)) hrun
  rwa [show resizeFile f.totalSize f = f from if_pos rfl] at ho'

omit [LawfulNodeStore σ] in
theorem extend_zero {newSize : Nat} (ho : Open (ZeroAt p) s fh f fb ids chain)
    (hle : f.totalSize ≤ newSize)
    (hrun : (opSetattrSize ord ino (some fh) newSize).run s = .ok () s') :
    CutState f.ino p s' (some fh) := by
  obtain ⟨ho', -⟩ := opSetattrSize_ok ho (fun _ _ _ h => h) (fun _ _ _ h => h)
    (fun hlt => by omega) hrun
  exact .zero ho' (resizeFile_resized newSize f).ino

omit [NodeView σ] [LawfulNodeStore σ] in
/-- A piece written to a cached chunk. -/
theorem writePiece_cached {h : Handle σ} {pos stop : Nat} {piece d : List UInt8}
    (hd : h.file.cache.get (pos / chunkSize) = some d) :
    (writePiece ord stop pos piece).run h = .ok () { h with
      file := patchChunk (pos / chunkSize) (pos % chunkSize) stop d piece
        (extendSlotMap (pos / chunkSize) h.file) } := by
  obtain ⟨-, -, -, hcache⟩ := extendSlotMap_written (pos / chunkSize) h.file
  have hd' : (extendSlotMap (pos / chunkSize) h.file).cache.get (pos / chunkSize) = some d := by
    rw [hcache]; exact hd
  let h₁ : Handle σ := { h with file := extendSlotMap (pos / chunkSize) h.file }
  have hext : (modifyFile (extendSlotMap (pos / chunkSize))).run h = .ok () h₁ :=
    modifyFile_ok.mpr rfl
  have hload : (loadForWrite ord (pos / chunkSize)).run h₁ = .ok () h₁ := by
    unfold loadForWrite
    rw [run_bind_of_ok run_get, if_pos ((HashMap.containsKey_eq_true _ _).mpr ⟨d, hd'⟩)]
    rfl
  have hchunk : h₁.file.cache.get (pos / chunkSize) = some d := hd'
  unfold writePiece
  rw [run_bind_of_ok hext, run_bind_of_ok hload, run_bind_of_ok run_get, hchunk]
  exact modifyFile_ok.mpr rfl

omit [NodeView σ] [LawfulNodeStore σ] in
/-- A write that starts in the cached chunk 0 does not depend on whether it was dirty. -/
theorem writeHandle_dirty0 {h : Handle σ} {offset : Nat} {data d : List UInt8}
    (hd : h.file.cache.get 0 = some d) (hne : data ≠ []) (hoff : offset < chunkSize) :
    (writeHandle ord offset data).run h = (writeHandle ord offset data).run
      { h with file := { h.file with dirty := h.file.dirty.insert 0 } } := by
  have hci : offset / chunkSize = 0 := Nat.div_eq_of_lt hoff
  have hlt : offset < offset + data.length := by
    have := List.length_pos_iff.mpr hne
    omega
  have hext : ∀ f : OpenFile, extendSlotMap 0 { f with dirty := f.dirty.insert 0 } =
      { extendSlotMap 0 f with dirty := f.dirty.insert 0 } := fun f => by
    unfold extendSlotMap
    split <;> rfl
  have hdirty := (extendSlotMap_written 0 h.file).2.2.1
  have hloop : (writeLoop ord offset data offset).run h =
      (writeLoop ord offset data offset).run
        { h with file := { h.file with dirty := h.file.dirty.insert 0 } } := by
    rw [writeLoop, if_pos hlt, run_bind_of_ok (writePiece_cached (d := d) (by rw [hci]; exact hd)),
      run_bind_of_ok (writePiece_cached (d := d) (by rw [hci]; exact hd)), hci, hext]
    simp only [patchChunk, hdirty, HashSet.insert_insert]
  unfold writeHandle
  rw [EStateM.run_bind, EStateM.run_bind, hloop]

omit [NodeStore σ] [LawfulNodeStore σ] in
/-- A chunk marked dirty will be taken from the cache at least. -/
theorem OpenOk.dirtied {A : Content} {lim i : Nat} {c : σ}
    (hok : OpenOk A lim ⟨c, f⟩ fb ids chain) :
    OpenOk A lim ⟨c, { f with dirty := f.dirty.insert i }⟩ fb ids chain := by
  obtain ⟨hh, hb⟩ := hok
  have hp : ∀ {j}, ¬ Pending { f with dirty := f.dirty.insert i } j → ¬ Pending f j :=
    fun hn hp => hn ⟨HashSet.mem_insert.mpr (.inr hp.1), hp.2⟩
  exact ⟨⟨hh.head, hh.chainEq, hh.index, hh.mapHead, hh.accounts, hh.data, hh.clean, hh.trimmed⟩,
    ⟨hb.cached, hb.cachedLt, fun hn => hb.inline (hp hn),
      fun hs hnode hn => hb.slot hs hnode (hp hn), fun h1 hs hn => hb.gap h1 hs (hp hn),
      hb.slotLen⟩⟩

omit [NodeView σ] [LawfulNodeStore σ] in
/-- An empty write with no continuation chunk to write back does nothing. -/
theorem writeHandle_nil {h h' : Handle σ} {offset n : Nat} (hdirty : ∀ i, i ∈ h.file.dirty → i = 0)
    (hrun : (writeHandle ord offset []).run h = .ok n h') : h' = h := by
  obtain ⟨_, h₁, hloop, hcont⟩ := run_bind_ok.mp hrun
  rw [writeLoop, if_neg (by simp)] at hloop
  cases hloop
  obtain ⟨_, _, hget, hrest⟩ := run_bind_ok.mp hcont
  cases hget
  have hnone : dirtyContinuations h.file = 0 := by
    unfold dirtyContinuations
    rw [List.length_eq_zero_iff, List.filter_eq_nil_iff]
    intro i hi
    rw [hdirty i hi]
    decide
  dsimp only at hrest
  rw [hnone, if_neg (by decide)] at hrest
  cases hrest
  rfl

omit [NodeView σ] [LawfulNodeStore σ] in
/-- A read of an empty file does nothing. -/
theorem readHandle_empty {h h' : Handle σ} {offset size : Nat} {r : List UInt8}
    (hzero : h.file.totalSize = 0)
    (hrun : (readHandle ord offset size).run h = .ok r h') : h' = h := by
  obtain ⟨_, _, hget, hcont⟩ := run_bind_ok.mp hrun
  cases hget
  dsimp only at hcont
  rw [if_pos (by omega)] at hcont
  cases hcont
  rfl

omit [NodeStore σ] [LawfulNodeStore σ] in
/-- The state an operation that leaves the handle as it was ends in. -/
theorem Open.unchanged {A : Content} (ho : Open A s fh f fb ids chain) :
    Open A { s with container := s.container, openFiles := s.openFiles.insert fh f }
      fh f fb ids chain :=
  ⟨by simp, ho.inode, ho.ok⟩

/-- After a flush the bytes behind the cut are gone. -/
theorem flush_zero (h : CutState ino p s (some fh)) (hrun : (opFlush ord fh).run s = .ok () s') :
    ∃ f f' fb' ids' chain', s.openFiles.get fh = some f ∧
      Open (ZeroAt p) s' fh f' fb' ids' chain' ∧ f'.ino = ino ∧ Clean f' ∧
      f'.totalSize = f.totalSize ∧ ∀ i, 1 ≤ i → i < chunkLimit f.totalSize →
        (f'.slotMap[i]?.join ≠ none ↔ Occupied f i) := by
  cases h with
  | zero ho hino =>
    obtain ⟨f', fb', ids', chain', ho', hclean, hkeeps, -, hocc, -⟩ :=
      opFlush_ok ho (fun _ _ _ => .inl rfl) hrun
    exact ⟨_, f', fb', ids', chain', ho.entry, ho', hkeeps.ino.trans hino, hclean,
      hkeeps.totalSize, hocc⟩
  | behind ho hino hp =>
    obtain ⟨f', fb', ids', chain', ho', hclean, hkeeps, -, hocc, -⟩ :=
      opFlush_ok ho (fun _ _ => trivial) hrun
    rw [← hkeeps.totalSize] at hp
    exact ⟨_, f', fb', ids', chain', ho.entry,
      ho'.behind_zero hp (ho'.ok.handle.trimmed hclean.metaDirty), hkeeps.ino.trans hino,
      hclean, hkeeps.totalSize, hocc⟩
  | emptied ho hino hp hzero hmeta hcache hdirty =>
    obtain ⟨f', fb', ids', chain', ho', hclean, hkeeps, -, hocc, hdata⟩ :=
      opFlush_ok ho (fun _ _ => trivial) hrun
    have hempty : fb'.data = [] := by
      rw [hdata hmeta, inlineData, hcache]
      unfold cutHead
      dsimp only
      split <;> simp
    exact ⟨_, f', fb', ids', chain', ho.entry,
      ho'.emptied_zero hp (by rw [hkeeps.cache]; exact hcache) (.inr hempty),
      hkeeps.ino.trans hino, hclean, hkeeps.totalSize, hocc⟩

theorem flush_step (h : CutState ino p s (some fh)) (hrun : (opFlush ord fh).run s = .ok () s') :
    CutState ino p s' (some fh) := by
  obtain ⟨_, _, _, _, _, -, ho, hino, -⟩ := flush_zero h hrun
  exact .zero ho hino

theorem release_step (h : CutState ino p s (some fh)) (hsafe : CutOp.Safe s (some fh) .release)
    (hrun : (opRelease ord fh).run s = .ok () s') : CutState ino p s' none := by
  obtain ⟨s₁, hflush, rfl⟩ := opRelease_ok hrun
  obtain ⟨f, f', fb', ids', chain', hentry, ho, rfl, hclean, htotal, hocc⟩ := flush_zero h hflush
  have hfree : HoleFree f' := by
    intro i j hj hji hi
    have hlen : i < f'.slotMap.length := by
      by_contra hge
      rw [List.getElem?_eq_none (by omega)] at hi
      exact hi rfl
    have htrim : f'.slotMap.length ≤ chunkLimit f'.totalSize :=
      ho.ok.handle.trimmed hclean.metaDirty
    rw [htotal] at htrim
    exact (hocc j hj (by omega)).mpr
      (hsafe f hentry i j hj hji (by omega) ((hocc i (by omega) (by omega)).mp hi))
  exact .closed ((ho.closed hclean fun i hi =>
    .inl (ho.ok.handle.reopened_holeFree hclean hfree hi)).withHandles _)

theorem read_step {offset size : Nat} {r : List UInt8} (h : CutState ino p s (some fh))
    (hrun : (opRead ord fh offset size).run s = .ok r s') : CutState ino p s' (some fh) := by
  cases h with
  | zero ho hino =>
    obtain ⟨f', ho', -, hr, -⟩ := opRead_ok ho hrun
    exact .zero ho' (hr.ino.trans hino)
  | behind ho hino hp =>
    obtain ⟨f', ho', -, hr, -⟩ := opRead_ok ho hrun
    exact .behind ho' (hr.ino.trans hino) (by rw [hr.totalSize]; exact hp)
  | emptied ho hino hp hzero hmeta hcache hdirty =>
    rw [opRead_run ho.entry] at hrun
    obtain ⟨h', hread, rfl⟩ := withHandle_ok.mp hrun
    obtain rfl := readHandle_empty hzero hread
    exact .emptied ho.unchanged hino hp hzero hmeta hcache hdirty

theorem write_step {offset n : Nat} {data : List UInt8} (h : CutState ino p s (some fh))
    (hout : ¬ (offset ≤ p ∧ p < offset + data.length))
    (hsafe : CutOp.Safe s (some fh) (.write offset data))
    (hrun : (opWrite ord fh offset data).run s = .ok n s') : CutState ino p s' (some fh) := by
  cases h with
  | zero ho hino => exact hino ▸ write_zero ho hout hrun
  | @behind _ f _ _ _ ho hino hp =>
    by_cases hgrow : data ≠ [] ∧ f.totalSize < offset + data.length
    · have hz := ho.behind_zero hp (hsafe f ho.entry hgrow.1 hgrow.2).1
      exact hino ▸ write_zero hz hout hrun
    · obtain ⟨f', ho', -, hino', -, htotal, -⟩ := opWrite_ok (A := fun _ => Anything) ho
        (fun _ _ _ _ => ⟨fun _ _ => trivial, fun _ _ _ _ => trivial, fun _ _ _ => trivial⟩) hrun
      refine .behind ho' (hino'.trans hino) ?_
      have hsame : f'.totalSize = f.totalSize := by
        rw [htotal]
        split
        next => rfl
        next hne => exact max_eq_right (by have := not_and.mp hgrow hne; omega)
      rwa [hsame]
  | @emptied _ f _ _ _ ho hino hp hzero hmeta hcache hdirty =>
    by_cases hne : data = []
    · subst hne
      rw [opWrite_run ho.entry] at hrun
      obtain ⟨h', hwrite, rfl⟩ := withHandle_ok.mp hrun
      obtain rfl := writeHandle_nil hdirty hwrite
      exact .emptied ho.unchanged hino hp hzero hmeta hcache hdirty
    · have hpos := List.length_pos_iff.mpr hne
      rcases (hsafe f ho.entry hne (by omega)).2 hzero hmeta with hd | hoff
      · exact hino ▸ write_zero (ho.emptied_zero hp hcache (.inl hd)) hout hrun
      · -- the write itself makes chunk 0 dirty
        rw [opWrite_run ho.entry] at hrun
        obtain ⟨h', hwrite, rfl⟩ := withHandle_ok.mp hrun
        rw [writeHandle_dirty0 hcache hne hoff] at hwrite
        have hok : OpenOk Anything (chunkLimit f.totalSize)
            ⟨s.container, { f with dirty := f.dirty.insert 0 }⟩ _ _ _ := ho.ok.dirtied (i := 0)
        obtain ⟨hok', -, hino', hhead', -⟩ := writeHandle_ok (A := fun _ => ZeroAt p)
          (hok.emptied_zero hp hcache (.inl (HashSet.mem_insert.mpr (.inl rfl))))
          (fun _ _ => zeroAt_overwrites hout) hwrite
        exact .zero (ho.afterHandle hino' hhead' hok') (hino'.trans hino)

theorem extend_step {hint : Option Nat} {newSize : Nat} {fh : Option Nat}
    (h : CutState ino p s fh) (hallow : CutOp.Allowed p ord ino s fh (.extend hint newSize))
    (hsafe : CutOp.Safe s fh (.extend hint newSize))
    (hrun : (opSetattrSize ord ino hint newSize).run s = .ok () s') : CutState ino p s' fh := by
  obtain ⟨hfind, size, hsize, hle⟩ := hallow
  cases h with
  | closed hc =>
    have htotal := hc.fileSize.symm.trans hsize
    obtain ⟨fb', ids', chain', hc', -⟩ := opSetattrSize_closed hc hfind
      (fun hlt => by cases htotal; omega) (fun _ _ _ h => h) hrun
    exact .closed hc'
  | zero ho hino =>
    rw [fileSize, ho.entry] at hsize
    rw [opSetattrSize_found hfind] at hrun
    cases hsize
    exact hino ▸ extend_zero ho hle hrun
  | @behind _ f _ _ _ ho hino hp =>
    rw [fileSize, ho.entry] at hsize
    rw [opSetattrSize_found hfind] at hrun
    obtain rfl : f.totalSize = size := Option.some.inj hsize
    rcases Nat.lt_or_eq_of_le hle with hlt | rfl
    · exact hino ▸ extend_zero (ho.behind_zero hp (hsafe f ho.entry hlt).1) hle hrun
    · exact .behind (ho.resized_same hrun) hino hp
  | @emptied _ f _ _ _ ho hino hp hzero hmeta hcache hdirty =>
    rw [fileSize, ho.entry] at hsize
    rw [opSetattrSize_found hfind] at hrun
    obtain rfl : f.totalSize = size := Option.some.inj hsize
    rcases Nat.lt_or_eq_of_le hle with hlt | rfl
    · have hd := ((hsafe f ho.entry hlt).2 hzero hmeta).resolve_right id
      exact hino ▸ extend_zero (ho.emptied_zero hp hcache (.inl hd)) hle hrun
    · exact .emptied (ho.resized_same hrun) hino hp hzero hmeta hcache hdirty

/-- One careful step. -/
theorem cutOp_step {op : CutOp} {fh fh' : Option Nat} (h : CutState ino p s fh)
    (hallow : op.Allowed p ord ino s fh) (hsafe : op.Safe s fh)
    (hrun : (op.run ord ino fh).run s = .ok fh' s') : CutState ino p s' fh' := by
  cases op with
  | read offset size =>
    cases fh with
    | none => cases hrun
    | some fh =>
      obtain ⟨_, s₁, hread, hret⟩ := run_bind_ok.mp hrun
      cases hret
      exact read_step h hread
  | write offset data =>
    cases fh with
    | none => cases hrun
    | some fh =>
      obtain ⟨_, s₁, hwrite, hret⟩ := run_bind_ok.mp hrun
      cases hret
      exact write_step h hallow hsafe hwrite
  | extend hint newSize =>
    have hrun' : (opSetattrSize ord ino hint newSize >>= fun _ => pure fh).run s = .ok fh' s' := by
      cases fh <;> exact hrun
    obtain ⟨_, s₁, hresize, hret⟩ := run_bind_ok.mp hrun'
    cases hret
    exact extend_step h hallow hsafe hresize
  | flush =>
    cases fh with
    | none => cases hrun
    | some fh =>
      obtain ⟨_, s₁, hflush, hret⟩ := run_bind_ok.mp hrun
      cases hret
      exact flush_step h hflush
  | release =>
    cases fh with
    | none => cases hrun
    | some fh =>
      obtain ⟨_, s₁, hrelease, hret⟩ := run_bind_ok.mp hrun
      cases hret
      exact release_step h hsafe hrelease
  | reopen =>
    cases fh with
    | some fh => cases hrun
    | none =>
      obtain ⟨fh, s₁, hopen, hret⟩ := run_bind_ok.mp hrun
      cases hret
      cases h with
      | closed hc =>
        obtain ⟨ho, -⟩ := opOpen_ok hc hopen
        exact .zero ho rfl

end Steps

/-! ## What a read finds -/

theorem truncatedRun_cutState {ino p : Nat} {s : VenomFuse σ} {fh : Option Nat}
    (h : TruncatedRun True ino p s fh) : CutState ino p s fh := by
  induction h with
  | truncate ord hint newSize hfile hfind hsize hlt hp hsafe hrun =>
    exact truncate_cutState (fileRun_ok hfile) hfind hsize hlt hp (hsafe trivial) hrun
  | step ord op _ hallow hsafe hrun ih => exact cutOp_step ih hallow (hsafe trivial) hrun

/-- Behind a careful truncation a read gives a zero or nothing. -/
theorem truncated_zero {ino p fh offset size : Nat} {s s' : VenomFuse σ} {ord : IterOrder Nat}
    {r : List UInt8} (h : TruncatedRun True ino p s (some fh)) (hp : offset ≤ p)
    (hread : (opRead ord fh offset size).run s = .ok r s') :
    r[p - offset]? = none ∨ r[p - offset]? = some 0 := by
  have hat : p = offset + (p - offset) := by omega
  cases truncatedRun_cutState h with
  | zero ho hino =>
    obtain ⟨_, -, -, -, hshows⟩ := opRead_ok ho hread
    by_cases hlt : p - offset < r.length
    · exact hshows.bytes _ hlt hat.symm
    · exact .inl (List.getElem?_eq_none (by omega))
  | @behind _ f _ _ _ ho hino hbehind =>
    obtain ⟨_, -, -, -, hshows⟩ := opRead_ok ho hread
    have hlen := hshows.length
    have hend : f.totalSize ≤ p := by
      by_contra hlt
      exact absurd (div_lt_chunkLimit (p := p) (n := f.totalSize) (by omega)) (by omega)
    exact .inl (List.getElem?_eq_none (by omega))
  | emptied ho hino _ hzero =>
    obtain ⟨_, -, -, -, hshows⟩ := opRead_ok ho hread
    have hlen := hshows.length
    exact .inl (List.getElem?_eq_none (by omega))

/-- Two bytes, cut to one and extended to three: the second does not come back. -/
theorem truncated_zero_short : ∃ s : VenomFuse Volume, TruncatedRun True 2 1 s (some 1) ∧
    ∀ ord r s', (opRead ord 1 1 2).run s = .ok r s' → r[0]? = none ∨ r[0]? = some 0 := by
  have hwrite := FileRun.write .listed 0 [9, 9] created_run
    (run_of_valueOf (a := 2) (by decide +kernel))
  have hcut : TruncatedRun True 2 1 _ (some 1) := .truncate .listed (some 1) 1 hwrite rfl
    (show fileSize _ _ _ = some 2 by decide +kernel) (by decide) (by decide)
    (fun _ f hf => .inl (of_openFile (fun f => f.cache.get (lastChunk 1) ≠ none)
      (by decide +kernel) f hf))
    (run_of_valueOf (a := ()) (by decide +kernel))
  have hgrow := hcut.step .listed (.extend (some 1) 3) ⟨rfl, 1, by decide +kernel, by decide⟩
    (fun _ f hf _ => of_openFile (fun f => f.slotMap.length ≤ chunkLimit f.totalSize ∧
      (f.totalSize = 0 → f.metaDirty = true → 0 ∈ f.dirty ∨ False)) (by decide +kernel) f hf)
    (run_of_valueOf (a := some 1) (by decide +kernel))
  exact ⟨_, hgrow, fun ord r s' hread => truncated_zero hgrow (by decide) hread⟩

/-- Bytes written to a new file, the file cut and extended again, and read: the sizes before
    the two resizes and what the read gives. -/
def regrown (offset : Nat) (data : List UInt8) (cut grown size : Nat) :
    FuseM Volume (Option Nat × Option Nat × List UInt8) := do
  let _ ← opWrite .listed 1 offset data
  opFlush .listed 1
  let s ← get
  opSetattrSize .listed 2 (some 1) cut
  let t ← get
  opSetattrSize .listed 2 (some 1) grown
  let r ← opRead .listed 1 cut size
  pure (fileSize s 2 (some 1), fileSize t 2 (some 1), r)

/-- The states of such a run. -/
theorem regrown_runs {offset cut grown size n m : Nat} {data r : List UInt8}
    (h : valueOf (regrown offset data cut grown size) created = some (some n, some m, r)) :
    ∃ s₁ s₂ s₃ s₄ : VenomFuse Volume, FileRun 2 s₁ (some 1) ∧
      fileSize s₁ 2 (some 1) = some n ∧
      (opSetattrSize .listed 2 (some 1) cut).run s₁ = .ok () s₂ ∧
      fileSize s₂ 2 (some 1) = some m ∧
      (opSetattrSize .listed 2 (some 1) grown).run s₂ = .ok () s₃ ∧
      (opRead .listed 1 cut size).run s₃ = .ok r s₄ := by
  obtain ⟨_, s₀, hwrite, h₀⟩ := run_bind_ok.mp (run_of_valueOf h)
  obtain ⟨_, s₁, hflush, h₁⟩ := run_bind_ok.mp h₀
  obtain ⟨_, _, hget, h₁⟩ := run_bind_ok.mp h₁
  cases hget
  obtain ⟨_, s₂, hcut, h₂⟩ := run_bind_ok.mp h₁
  obtain ⟨_, _, hget, h₂⟩ := run_bind_ok.mp h₂
  cases hget
  obtain ⟨_, s₃, hgrow, h₃⟩ := run_bind_ok.mp h₂
  obtain ⟨_, s₄, hread, hret⟩ := run_bind_ok.mp h₃
  rw [run_pure, EStateM.Result.ok.injEq, Prod.mk.injEq, Prod.mk.injEq] at hret
  obtain ⟨⟨hn, hm, rfl⟩, -⟩ := hret
  exact ⟨s₁, s₂, s₃, s₄, .flush _ (.write _ _ _ created_run hwrite) hflush, hn, hcut, hm, hgrow,
    hread⟩

/-- A byte behind a cut at the end of chunk 0 is read again once the file is extended. -/
theorem truncated_byte_returns : ¬ ∀ (ino p fh offset size : Nat) (s s' : VenomFuse Volume)
    (ord : IterOrder Nat) (r : List UInt8), TruncatedRun False ino p s (some fh) → offset ≤ p →
    (opRead ord fh offset size).run s = .ok r s' →
    r[p - offset]? = none ∨ r[p - offset]? = some 0 := by
  have hruns : valueOf (regrown chunkSize [9] chunkSize (chunkSize + 1) 1) created =
      some (some (chunkSize + 1), some chunkSize, [9]) := by decide +kernel
  obtain ⟨s₁, s₂, s₃, s₄, hfile, hsize, hcut, hsize', hgrow, hread⟩ := regrown_runs hruns
  intro h
  have hrun : TruncatedRun False 2 chunkSize s₃ (some 1) :=
    .step .listed (.extend (some 1) (chunkSize + 1))
      (.truncate .listed (some 1) chunkSize hfile rfl hsize (Nat.lt_succ_self _) le_rfl nofun hcut)
      ⟨rfl, chunkSize, hsize', Nat.le_succ _⟩ nofun
      (by
        change (opSetattrSize .listed 2 (some 1) (chunkSize + 1) >>= fun _ => pure (some 1)).run s₂ = _
        rw [run_bind_of_ok hgrow, run_pure])
  have := h 2 chunkSize 1 chunkSize 1 s₃ s₄ .listed [9] hrun le_rfl hread
  rw [Nat.sub_self] at this
  revert this
  decide

end Venom.Fuse
