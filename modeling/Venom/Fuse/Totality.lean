import Venom.Fuse.WriteBack
import Venom.Storage.NodeSize

/-! # Operations that cannot fail

A handle that fits the disk can load every chunk its slot map covers, and chunks always fit
their slots; so a write fails only when the free list runs dry.  `Room` says that it will
not: there is a free slot for every chunk without one.
-/

namespace Venom.Fuse

open Venom.Storage
open Venom.Library
open Venom.Library.StateError
open Venom.Library.OptionLists

variable {σ : Type} [NodeStore σ]

/-! ## Loading -/

omit [NodeStore σ] in
theorem onContainer_run {α : Type} {x : StoreM σ α} {h : Handle σ} {c' : σ} {a : α}
    (hx : x.run h.container = .ok a c') :
    (onContainer x).run h = .ok a { h with container := c' } := onContainer_ok.mpr ⟨c', hx, rfl⟩

variable [NodeView σ] [LawfulNodeStore σ]

theorem loadChunk_run {h : Handle σ} {fb : FileBlock} {ids chain : List Nat} {ci : Nat}
    (hok : HandleOk h.container h.file fb ids chain) (hlt : ci < h.file.slotMap.length) :
    ∃ d, (loadChunk ci).run h = .ok d h := by
  unfold loadChunk
  rw [run_bind_of_ok run_get]
  cases hs : h.file.slotMap[ci]? with
  | none => rw [List.getElem?_eq_none_iff] at hs; omega
  | some o =>
    cases o with
    | some s =>
      have hmem := mem_of_getElem? hs
      obtain ⟨d, hd⟩ := hok.data s hmem
      have hread := readNode_run (hok.accounts.isDataSlot (List.mem_append_left _ hmem)) hd
      exact ⟨d.data, by dsimp only; rw [run_bind_of_ok (onContainer_run hread)]; rfl⟩
    | none =>
      by_cases hci : ci = 0
      · have hread := readNode_run
          (hok.accounts.isDataSlot (s := h.file.headSlot) (by simp [ownedSlots])) hok.head
        exact ⟨fb.data, by
          dsimp only; rw [if_pos hci, run_bind_of_ok (onContainer_run hread)]; rfl⟩
      · exact ⟨[], by dsimp only; rw [if_neg hci]; rfl⟩

theorem ensureCached_run {h : Handle σ} {fb : FileBlock} {ids chain : List Nat} {ci : Nat}
    (ord : IterOrder Nat) (hok : HandleOk h.container h.file fb ids chain)
    (hlt : ci < h.file.slotMap.length) : ∃ h', (ensureCached ord ci).run h = .ok () h' := by
  unfold ensureCached
  rw [run_bind_of_ok run_get]
  split
  · exact ⟨h, rfl⟩
  · obtain ⟨d, hd⟩ := loadChunk_run hok hlt
    exact ⟨_, by rw [run_bind_of_ok hd]; exact modifyFile_ok.mpr rfl⟩

theorem loadForWrite_run {A : Content} {lim : Nat} {h : Handle σ} {fb : FileBlock}
    {ids chain : List Nat} {ci : Nat} (ord : IterOrder Nat) (hok : OpenOk A lim h fb ids chain)
    (hci : ci < lim) (hlt : ci < h.file.slotMap.length) :
    ∃ h' d, (loadForWrite ord ci).run h = .ok () h' ∧ h'.file.cache.get ci = some d := by
  unfold loadForWrite
  rw [run_bind_of_ok run_get]
  split
  next hin =>
    obtain ⟨d, hd⟩ := (HashMap.containsKey_eq_true _ _).mp hin
    exact ⟨h, d, rfl, hd⟩
  next =>
    split
    next =>
      obtain ⟨h', hrun⟩ := ensureCached_run ord hok.handle hlt
      obtain ⟨-, -, -, ⟨d, hd⟩, -⟩ := ensureCached_ok hok hci hrun
      exact ⟨h', d, hrun, hd⟩
    next => exact ⟨_, List.replicate chunkSize 0, modifyFile_ok.mpr rfl, by simp [cacheInsert]⟩

/-! ## Writing in memory -/

theorem length_extendSlotMap (ci : Nat) (f : OpenFile) :
    (extendSlotMap ci f).slotMap.length = max f.slotMap.length (ci + 1) := by
  unfold extendSlotMap
  split
  next h => rw [List.length_append, List.length_replicate]; omega
  next h => omega

theorem writePiece_run {A : Content} {lim : Nat} {h : Handle σ} {fb : FileBlock}
    {ids chain : List Nat} {pos : Nat} (ord : IterOrder Nat) (stop : Nat) (piece : List UInt8)
    (hok : OpenOk A lim h fb ids chain) (hlim : pos / chunkSize < lim) :
    ∃ h', (writePiece ord stop pos piece).run h = .ok () h' ∧
      h'.file.slotMap.length = max h.file.slotMap.length (pos / chunkSize + 1) := by
  let h₁ : Handle σ := { h with file := extendSlotMap (pos / chunkSize) h.file }
  have hext : (modifyFile (extendSlotMap (pos / chunkSize))).run h = .ok () h₁ :=
    modifyFile_ok.mpr rfl
  have hok₁ : OpenOk A lim h₁ fb ids chain := extendSlotMap_ok hok
  have hlen : h₁.file.slotMap.length = max h.file.slotMap.length (pos / chunkSize + 1) :=
    length_extendSlotMap _ _
  obtain ⟨h₂, d, hload, hd⟩ := loadForWrite_run ord hok₁ hlim (by omega)
  obtain ⟨-, hr, -⟩ := loadForWrite_ok hok₁ hlim (by omega) hload
  unfold writePiece
  rw [run_bind_of_ok hext, run_bind_of_ok hload, run_bind_of_ok run_get, hd]
  refine ⟨_, modifyFile_ok.mpr rfl, ?_⟩
  rw [← hlen, ← hr.slotMap]
  rfl

/-- The loop of a write does not fail, and the slot map ends with the last chunk written. -/
theorem writeLoop_run {A : Nat → Content} {lim : Nat} {h : Handle σ} {fb : FileBlock}
    {ids chain : List Nat} (ord : IterOrder Nat) {offset pos : Nat} {data : List UInt8}
    (hok : OpenOk (A pos) lim h fb ids chain) (hpos : offset ≤ pos)
    (hlim : ∀ p, pos ≤ p → p < offset + data.length → p / chunkSize < lim)
    (hlen : h.file.slotMap.length ≤ lim)
    (hover : ∀ q k, offset ≤ q → q + k ≤ offset + data.length →
      Overwrites (A q) (A (q + k)) q ((data.drop (q - offset)).take k)) :
    ∃ h', (writeLoop ord offset data pos).run h = .ok () h' ∧ h'.file.slotMap.length ≤ lim := by
  induction hn : offset + data.length - pos using Nat.strongRecOn generalizing pos h with
  | _ n ih =>
    rw [writeLoop]
    split
    next hlt =>
      have hmod := Nat.mod_lt pos chunkSize_pos
      let take := pieceLen (offset + data.length) pos
      have htake : take = min (chunkSize - pos % chunkSize) (offset + data.length - pos) := rfl
      have hpiece : ((data.drop (pos - offset)).take take).length = take := by
        rw [List.length_take, List.length_drop]; omega
      obtain ⟨h₁, hrun₁, hlen₁⟩ := writePiece_run ord (offset + data.length)
        ((data.drop (pos - offset)).take take) hok (hlim pos le_rfl hlt)
      obtain ⟨-, hok₁, -, -⟩ := writePiece_ok hok (hlim pos le_rfl hlt) (by rw [hpiece]; omega)
        (hover pos take hpos (by omega)) hrun₁
      have := hlim pos le_rfl hlt
      obtain ⟨h₂, hrun₂, hlen₂⟩ := ih (offset + data.length - (pos + take)) (by omega) hok₁
        (by omega) (fun p hp => hlim p (by omega)) (by omega) rfl
      exact ⟨h₂, by rw [run_bind_of_ok hrun₁]; exact hrun₂, hlen₂⟩
    next => exact ⟨h, rfl, hlen⟩

/-! ## Storing -/

/-- There is a free slot for every chunk of the slot map without one. -/
def Room (c : σ) (f : OpenFile) : Prop :=
  f.slotMap.length ≤ f.slotMap.reduceOption.length + (free c).length + 1

omit [LawfulNodeStore σ] in
theorem Room.moves {c c' : σ} {f f' : OpenFile} {own : List Nat} (h : Room c f)
    (hmoves : Moves c c' (f.slotMap.reduceOption ++ own) (f'.slotMap.reduceOption ++ own))
    (hlen : f'.slotMap.length = f.slotMap.length) : Room c' f' := by
  have hperm := hmoves.perm.length_eq
  simp only [List.length_append] at hperm
  unfold Room at h ⊢
  omega

omit [NodeStore σ] [LawfulNodeStore σ] in
/-- A chunk without a slot finds a free one. -/
theorem Room.free_ne_nil {c : σ} {f : OpenFile} {ci : Nat} (h : Room c f)
    (h0 : f.slotMap[0]? = some none) (hci : 1 ≤ ci) (hnone : f.slotMap[ci]? = some none) :
    free c ≠ [] := by
  have hmem : none ∈ f.slotMap.drop 1 := List.mem_iff_getElem?.mpr
    ⟨ci - 1, by rw [List.getElem?_drop, show 1 + (ci - 1) = ci by omega]; exact hnone⟩
  have hlt := List.reduceOption_length_lt_iff.mpr hmem
  have hpos := (List.getElem?_eq_some_iff.mp h0).1
  rw [reduceOption_drop_one h0, List.length_drop] at hlt
  intro hnil
  unfold Room at h
  rw [hnil, List.length_nil] at h
  omega

theorem writeNode_run {c : σ} {n : VaultNode} (hfree : free c ≠ [])
    (hfits : Fits (NodeStore.cipher c) n) : ∃ s c', (writeNode n).run c = .ok s c' := by
  obtain ⟨s, c', hc'⟩ := writeNode_isOk hfree hfits
  exact ⟨s, c', by rw [writeNode, EStateM.run_adaptExcept, hc']⟩

/-- Storing a chunk takes at most the next free slot. -/
theorem storeChunk_run {c : σ} {f : OpenFile} {ci : Nat} {own : List Nat} (hci : 1 ≤ ci)
    (ha : Accounts c (f.slotMap.reduceOption ++ own)) (h0 : f.slotMap[0]? = some none)
    (hroom : Room c f) (hlen : ∀ d, f.cache.get ci = some d → d.length ≤ chunkSize) :
    ∃ h', (storeChunk ci).run ⟨c, f⟩ = .ok () h' ∧ free h'.container <+: free c := by
  unfold storeChunk
  rw [run_bind_of_ok run_get]
  dsimp only
  cases hd : f.cache.get ci with
  | none => exact ⟨_, rfl, List.prefix_rfl⟩
  | some d =>
    have hfits : Fits (NodeStore.cipher c) (dataNode d) := fileData_fits _ (hlen d hd)
    cases hs : f.slotMap[ci]? with
    | none => exact ⟨_, rfl, List.prefix_rfl⟩
    | some o =>
      cases o with
      | some slot =>
        obtain ⟨c', hc'⟩ := updateNode_run (s := slot) hfits
        obtain ⟨-, -, hfree⟩ :=
          updateNode_inv hc' ha (List.mem_append_left _ (mem_of_getElem? hs))
        exact ⟨_, onContainer_run hc', hfree ▸ List.prefix_rfl⟩
      | none =>
        obtain ⟨slot, c', hc'⟩ := writeNode_run (hroom.free_ne_nil h0 hci hs) hfits
        obtain ⟨-, -, hfree⟩ := writeNode_inv hc' ha
        have hpops : free c' <+: free c := hfree ▸ List.prefix_append _ _
        refine ⟨⟨c', assignSlot ci slot f⟩, ?_, hpops⟩
        dsimp only
        rw [run_bind_of_ok (onContainer_run hc')]
        exact modifyFile_ok.mpr rfl

/-- What storing chunks keeps, for those that come after. -/
structure Storing (c₀ : σ) (f₀ : OpenFile) (own : List Nat) (h : Handle σ) : Prop where
  moves : Moves c₀ h.container (f₀.slotMap.reduceOption ++ own)
    (h.file.slotMap.reduceOption ++ own)
  length : h.file.slotMap.length = f₀.slotMap.length
  mapHead : h.file.slotMap[0]? = some none
  pops : free h.container <+: free c₀
  cache : ∀ {i d}, h.file.cache.get i = some d → f₀.cache.get i = some d

omit [LawfulNodeStore σ] in
theorem Storing.refl {c : σ} {f : OpenFile} {own : List Nat} (h0 : f.slotMap[0]? = some none) :
    Storing c f own ⟨c, f⟩ := ⟨.refl _ _, rfl, h0, List.prefix_rfl, id⟩

/-- One more chunk. -/
theorem Storing.step {c₀ : σ} {f₀ : OpenFile} {own : List Nat} {h : Handle σ} {ci : Nat}
    (hst : Storing c₀ f₀ own h) (hci : 1 ≤ ci)
    (ha : Accounts c₀ (f₀.slotMap.reduceOption ++ own)) (hroom : Room c₀ f₀)
    (hlen : ∀ {i d}, f₀.cache.get i = some d → d.length ≤ chunkSize) :
    ∃ h', (storeChunk ci).run h = .ok () h' ∧ Storing c₀ f₀ own h' := by
  have ha₁ := hst.moves.accounts ha
  obtain ⟨h', hrun, hpops⟩ := storeChunk_run hci ha₁ hst.mapHead
    (hroom.moves hst.moves hst.length) fun d hd => hlen (hst.cache hd)
  obtain ⟨hone, m, b, hfile⟩ := storeChunk_ok hrun ha₁
  refine ⟨h', hrun, hst.moves.trans hone.moves, hone.length.trans hst.length, ?_,
    hpops.trans hst.pops, fun hd => hst.cache (by rwa [hfile] at hd)⟩
  rw [hone.others 0 (.inl (by simp; omega))]
  exact hst.mapHead

/-- Storing all dirty chunks. -/
theorem storeDirtyChunks_run {c : σ} {f : OpenFile} {own : List Nat} (ord : IterOrder Nat)
    (ha : Accounts c (f.slotMap.reduceOption ++ own)) (h0 : f.slotMap[0]? = some none)
    (hroom : Room c f) (hlen : ∀ {i d}, f.cache.get i = some d → d.length ≤ chunkSize) :
    ∃ h', (storeDirtyChunks ord).run ⟨c, f⟩ = .ok () h' ∧ Storing c f own h' := by
  unfold storeDirtyChunks
  rw [run_bind_of_ok run_get]
  refine forM_total (fun _ h => Storing c f own h) (.refl h0) fun done ci rest h hl hst => ?_
  have hmem : ci ∈ (ord.order f.dirty.elems).filter (1 ≤ ·) := by
    rw [show (ord.order f.dirty.elems).filter (1 ≤ ·) = _ from hl]; simp
  exact hst.step (by simpa using (List.mem_filter.mp hmem).2) ha hroom hlen

theorem writeThroughChunk_run {c₀ : σ} {f₀ : OpenFile} {own : List Nat} {h : Handle σ} {ci : Nat}
    (hst : Storing c₀ f₀ own h) (hci : 1 ≤ ci)
    (ha : Accounts c₀ (f₀.slotMap.reduceOption ++ own)) (hroom : Room c₀ f₀)
    (hlen : ∀ {i d}, f₀.cache.get i = some d → d.length ≤ chunkSize) :
    ∃ h', (writeThroughChunk ci).run h = .ok () h' ∧ Storing c₀ f₀ own h' := by
  unfold writeThroughChunk
  rw [run_bind_of_ok run_get]
  split
  next =>
    obtain ⟨h', hrun, hst'⟩ := hst.step hci ha hroom hlen
    refine ⟨{ h' with file := dropChunk ci h'.file }, ?_, hst'.moves, hst'.length, hst'.mapHead,
      hst'.pops, fun {i d} hd => hst'.cache ?_⟩
    · rw [run_bind_of_ok hrun]
      exact modifyFile_ok.mpr rfl
    · simp only [dropChunk, HashMap.get_remove] at hd
      split at hd
      · cases hd
      · exact hd
  next => exact ⟨h, rfl, hst⟩

/-- Writing chunks through. -/
theorem writeThroughFlush_run {c : σ} {f : OpenFile} {own : List Nat} (ord : IterOrder Nat)
    (n : Nat) (ha : Accounts c (f.slotMap.reduceOption ++ own)) (h0 : f.slotMap[0]? = some none)
    (hroom : Room c f) (hlen : ∀ {i d}, f.cache.get i = some d → d.length ≤ chunkSize) :
    ∃ h', (writeThroughFlush ord n).run ⟨c, f⟩ = .ok () h' ∧ Storing c f own h' := by
  unfold writeThroughFlush
  rw [run_bind_of_ok run_get]
  refine forM_total (fun _ h => Storing c f own h) (.refl h0) fun done ci rest h hl hst => ?_
  have hmem : ci ∈ (((ord.order f.dirty.elems).filter (1 ≤ ·)).mergeSort (· ≤ ·)).take n := by
    rw [show (((ord.order f.dirty.elems).filter (1 ≤ ·)).mergeSort (· ≤ ·)).take n = _ from hl]
    simp
  have hci := List.mem_mergeSort.mp (List.mem_of_mem_take hmem)
  exact writeThroughChunk_run hst (by simpa using (List.mem_filter.mp hci).2) ha hroom hlen

/-- A write finds its slots: it succeeds, and takes the next free slots if any. -/
theorem writeHandle_run {A : Nat → Content} {h : Handle σ} {fb : FileBlock}
    {ids chain : List Nat} (ord : IterOrder Nat) {offset lim : Nat} {data : List UInt8}
    (hok : OpenOk (A offset) lim h fb ids chain)
    (hlim : ∀ p, offset ≤ p → p < offset + data.length → p / chunkSize < lim)
    (hlen : h.file.slotMap.length ≤ lim)
    (hroom : lim ≤ h.file.slotMap.reduceOption.length + (free h.container).length + 1)
    (hover : ∀ q k, offset ≤ q → q + k ≤ offset + data.length →
      Overwrites (A q) (A (q + k)) q ((data.drop (q - offset)).take k)) :
    ∃ n h', (writeHandle ord offset data).run h = .ok n h' ∧
      h'.file.slotMap.length ≤ lim ∧ free h'.container <+: free h.container := by
  obtain ⟨h₁, hloop, hlen₁⟩ := writeLoop_run ord hok le_rfl hlim hlen hover
  obtain ⟨hc, hok₁, hw, -⟩ := writeLoop_ok hok le_rfl (by omega) hlim hover hloop
  unfold writeHandle
  rw [run_bind_of_ok hloop, run_bind_of_ok run_get]
  dsimp only
  split
  next =>
    have hroom₁ : Room h₁.container h₁.file := by
      unfold Room
      rw [hc, hw.reduceOption]
      omega
    obtain ⟨h₂, hflush, hst⟩ := writeThroughFlush_run ord
      (dirtyContinuations h₁.file - writeThroughThreshold / 2) hok₁.handle.accounts
      hok₁.handle.mapHead hroom₁ fun hd => (hok₁.backed.cached hd).1
    refine ⟨_, h₂, by rw [run_bind_of_ok hflush]; rfl, ?_, ?_⟩
    · rw [hst.length]; exact hlen₁
    · rw [← hc]; exact hst.pops
  next => exact ⟨_, h₁, rfl, hlen₁, hc ▸ List.prefix_rfl⟩

end Venom.Fuse
