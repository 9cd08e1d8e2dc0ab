import Venom.Fuse.FlatFile
import Venom.Fuse.History
import Venom.Fuse.Totality

/-! # The size of a head

A file written from the start to the end keeps its first chunk inline, next to the ids of
all its other slots, so the head of a long file outgrows its slot.  Writing itself never
fails while there are free slots, and the ids are the next ones the allocator hands out;
so whether the file can be flushed is known from its length and the free list.
-/

namespace Venom.Fuse

open Venom.Storage
open Venom.Container (CipherAlgorithm slotSize)
open Venom.Crypto (vnmbOverhead)
open Venom.Library
open Venom.Library.Chunks
open Venom.Library.MessagePack (Head)
open Venom.Library.StateError
open Venom.Library.OptionLists

/-! ## Sequential writes -/

/-- Each write starts where the one before ended. -/
def Sequential : Nat → List WriteCall → Prop
  | _, [] => True
  | offset, w :: ws => w.offset = offset ∧ Sequential (offset + w.data.length) ws

/-- The bytes of a sequence of writes. -/
def bytesOf (ws : List WriteCall) : List UInt8 := (ws.map (·.data)).flatten

/-- What is left for the numbers of a head with a full first chunk is enough for the size
    of the file and for the ids. -/
def HeadFits (cipher : CipherAlgorithm) (totalSize : Nat) (ids : List Nat) : Prop :=
  uintLen totalSize + (Head.array ids.length).width + idsLen ids + vnmbOverhead cipher ≤
    slotSize - chunkSize - 64

instance (cipher : CipherAlgorithm) (totalSize : Nat) (ids : List Nat) :
    Decidable (HeadFits cipher totalSize ids) := inferInstanceAs (Decidable (_ ≤ _))

variable {σ : Type} [NodeStore σ] [NodeView σ] [LawfulNodeStore σ]

/-- A file written without gaps, its slots taken from the end of the free list `pool`. -/
structure Appended (pool : List Nat) (s : VenomFuse σ) (fh : Nat) (f : OpenFile)
    (fb : FileBlock) (bytes : List UInt8) : Prop where
  opened : Open (Flat bytes) s fh f fb [] []
  size : f.totalSize = bytes.length
  mapLen : f.slotMap.length ≤ chunkLimit bytes.length
  pops : free s.container <+: pool
  taken : (free s.container ++ f.slotMap.reduceOption).Perm pool

theorem patch_append (bytes data : List UInt8) :
    patch 0 bytes bytes.length data = bytes ++ data := by
  have hlen : (growTo 0 (bytes.length + data.length) bytes).length =
      bytes.length + data.length := by
    rw [length_growTo]; omega
  rw [patch, List.drop_eq_nil_of_le hlen.le, List.append_nil, growTo,
    List.take_append_of_le_length le_rfl, List.take_length]

omit [LawfulNodeStore σ] in
/-- Slots taken from the free list for the slot map. -/
theorem taken_of_moves {c c' : σ} {f f' : OpenFile} {pool own : List Nat}
    (h : (free c ++ f.slotMap.reduceOption).Perm pool)
    (hmoves : Moves c c' (f.slotMap.reduceOption ++ own) (f'.slotMap.reduceOption ++ own)) :
    (free c' ++ f'.slotMap.reduceOption).Perm pool := by
  have hperm := hmoves.perm
  rw [← List.append_assoc, ← List.append_assoc, List.perm_append_right_iff] at hperm
  exact hperm.trans h

/-- One more write at the end, with a free slot for every chunk it may start. -/
theorem Appended.write {pool : List Nat} {s : VenomFuse σ} {fh : Nat} {f : OpenFile}
    {fb : FileBlock} {bytes : List UInt8} (h : Appended pool s fh f fb bytes)
    (ord : IterOrder Nat) (data : List UInt8)
    (hroom : chunkLimit (bytes ++ data).length ≤ pool.length + 1) :
    ∃ n s' f', (opWrite ord fh bytes.length data).run s = .ok n s' ∧
      Appended pool s' fh f' fb (bytes ++ data) ∧
      NodeStore.cipher s'.container = NodeStore.cipher s.container := by
  let A : Nat → Content := fun q => Flat (patch 0 bytes bytes.length (data.take (q - bytes.length)))
  have hstart : A bytes.length = Flat bytes := by
    dsimp only [A]
    rw [Nat.sub_self, List.take_zero, patch_nil 0 bytes le_rfl]
  have hstop : A (bytes.length + data.length) = Flat (bytes ++ data) := by
    dsimp only [A]
    rw [Nat.add_sub_cancel_left, List.take_length, patch_append]
  have hok : OpenOk (A bytes.length) (chunkLimit f.totalSize) ⟨s.container, f⟩ fb [] [] := by
    rw [hstart]; exact h.opened.ok
  have hle : chunkLimit f.totalSize ≤ chunkLimit (bytes ++ data).length :=
    chunkLimit_mono (by rw [h.size, List.length_append]; omega)
  have hcount := h.taken.length_eq
  rw [List.length_append] at hcount
  obtain ⟨n, h', hrun, hlen, hpops⟩ := writeHandle_run ord
    (⟨hok.handle, hok.backed.mono (fun _ _ => id) hle⟩ :
      OpenOk (A bytes.length) (chunkLimit (bytes ++ data).length) ⟨s.container, f⟩ fb [] [])
    (fun p _ hp => div_lt_chunkLimit (by rwa [List.length_append]))
    (h.mapLen.trans (h.size ▸ hle)) (by dsimp only; omega) (flat_overwrites le_rfl)
  obtain ⟨hok', hmoves, hino, hhead, -, htotal, -⟩ :=
    writeHandle_ok hok (flat_overwrites le_rfl) hrun
  change OpenOk (A (bytes.length + data.length)) _ _ _ _ _ at hok'
  rw [hstop] at hok'
  have hsize : h'.file.totalSize = (bytes ++ data).length := by
    rw [htotal, h.size, List.length_append]
    split
    next e => rw [e, List.length_nil, Nat.add_zero]
    next => omega
  refine ⟨n, _, h'.file, ?_, ⟨h.opened.afterHandle hino hhead hok', hsize, hlen,
    hpops.trans h.pops, ?_⟩, hmoves.same.cipher⟩
  · rw [opWrite_run h.opened.entry]
    exact withHandle_ok.mpr ⟨h', hrun, rfl⟩
  · unfold ownedSlots at hmoves
    rw [hhead] at hmoves
    exact taken_of_moves h.taken hmoves

/-- Writing sequentially does not fail. -/
theorem runWrites_appended {pool : List Nat} {fh : Nat} {fb : FileBlock} {ws : List WriteCall}
    {s : VenomFuse σ} {f : OpenFile} {bytes : List UInt8} (h : Appended pool s fh f fb bytes)
    (hseq : Sequential bytes.length ws)
    (hroom : chunkLimit (bytes ++ bytesOf ws).length ≤ pool.length + 1) :
    ∃ s' f', (runWrites fh ws).run s = .ok () s' ∧
      Appended pool s' fh f' fb (bytes ++ bytesOf ws) ∧
      NodeStore.cipher s'.container = NodeStore.cipher s.container := by
  induction ws generalizing s f bytes with
  | nil => exact ⟨s, f, rfl, by simpa [bytesOf] using h, rfl⟩
  | cons w ws ih =>
    obtain ⟨hoff, hrest⟩ := hseq
    have hbytes : bytes ++ bytesOf (w :: ws) = bytes ++ w.data ++ bytesOf ws := by
      simp [bytesOf]
    rw [hbytes] at hroom ⊢
    obtain ⟨n, s₁, f₁, hwrite, h₁, hcipher⟩ := h.write w.ord w.data
      ((chunkLimit_mono (List.prefix_append _ _).length_le).trans hroom)
    obtain ⟨s', f', hrun, h', hcipher'⟩ := ih h₁ (by rwa [List.length_append]) hroom
    refine ⟨s', f', ?_, h', hcipher'.trans hcipher⟩
    change ((opWrite w.ord fh w.offset w.data >>= fun _ => pure ()) >>=
      fun _ => runWrites fh ws).run s = _
    rw [hoff, run_bind_of_ok (by rw [run_bind_of_ok hwrite]; rfl)]
    exact hrun

/-! ## The head -/

omit [NodeView σ] [LawfulNodeStore σ] in
theorem placeIds_direct {c : σ} {ids : List Nat} (h : ids.length ≤ maxDirectSlots) :
    (placeIds ids).run c = .ok (ids, none) c := by
  unfold placeIds
  rw [if_pos h]
  rfl

theorem headChunk_run {h : Handle σ} {fb : FileBlock} (hdata : IsDataSlot h.container h.file.headSlot)
    (hhead : nodes h.container h.file.headSlot = some (.file fb)) :
    headChunk.run h = .ok (inlineData h.file fb) h := by
  unfold headChunk inlineData
  rw [run_bind_of_ok run_get]
  cases hcache : h.file.cache.get 0 with
  | some d =>
    dsimp only [cutHead]
    cases chunkActualSize 0 h.file.totalSize <;> rfl
  | none =>
    dsimp only
    rw [run_bind_of_ok (onContainer_run (readNode_run hdata hhead))]
    rfl

/-- A head is rewritten without an index chain where its ids fit beside the data. -/
theorem rewriteHead_run {h : Handle σ} {fb : FileBlock} {c₁ : σ}
    (hdata : IsDataSlot h.container h.file.headSlot)
    (hhead : nodes h.container h.file.headSlot = some (.file fb))
    (hfree : (freeIndexChain h.file.indexChain).run h.container = .ok () c₁)
    (hdirect : (continuationSlots (chunkCount h.file.totalSize) h.file.slotMap).length ≤
      maxDirectSlots)
    (hfits : Fits (NodeStore.cipher c₁) (headNode h.file.totalSize
      (continuationSlots (chunkCount h.file.totalSize) h.file.slotMap) none
      (inlineData h.file fb))) :
    ∃ c', rewriteHead.run h = .ok () ⟨c', { h.file with indexChain := none }⟩ := by
  obtain ⟨c', hc'⟩ := updateNode_run (s := h.file.headSlot) hfits
  unfold rewriteHead
  rw [run_bind_of_ok (headChunk_run hdata hhead), run_bind_of_ok run_get]
  dsimp only
  rw [run_bind_of_ok (onContainer_run hfree),
    run_bind_of_ok (onContainer_run (placeIds_direct hdirect))]
  exact ⟨_, onContainer_run hc'⟩

/-- A head that was rewritten fits its slot. -/
theorem rewriteHead_fits {h h' : Handle σ} {fb : FileBlock} (hrun : rewriteHead.run h = .ok () h')
    (hhead : nodes h.container h.file.headSlot = some (.file fb))
    (ha : Accounts h.container (ownedSlots h.file [])) (hchain : h.file.indexChain = none) :
    ∃ chain, Fits (NodeStore.cipher h.container) (headNode h.file.totalSize
      ((continuationSlots (chunkCount h.file.totalSize) h.file.slotMap).take maxDirectSlots) chain
      (inlineData h.file fb)) ∧
      ((continuationSlots (chunkCount h.file.totalSize) h.file.slotMap).length ≤ maxDirectSlots →
        chain = none) := by
  have hdata : IsDataSlot h.container h.file.headSlot := ha.isDataSlot (by simp [ownedSlots])
  unfold rewriteHead at hrun
  rw [run_bind_of_ok (headChunk_run hdata hhead), run_bind_of_ok run_get, hchain] at hrun
  obtain ⟨_, h₂, hon₂, hrest₂⟩ := run_bind_ok.mp hrun
  obtain ⟨c₂, hfree, rfl⟩ := onContainer_ok.mp hon₂
  cases hfree
  obtain ⟨⟨dataSlots, newChain⟩, h₃, hon₃, hrest₃⟩ := run_bind_ok.mp hrest₂
  obtain ⟨c₃, hplace, rfl⟩ := onContainer_ok.mp hon₃
  obtain ⟨_, h₄, hmod, hlast⟩ := run_bind_ok.mp hrest₃
  rw [modifyFile_ok] at hmod
  subst hmod
  obtain ⟨c₄, hupd, rfl⟩ := onContainer_ok.mp hlast
  obtain ⟨_, new, -, -, hmoves, -⟩ := placeIds_ok ha hplace
  obtain ⟨hstored, -, -⟩ := updateNode_inv hupd (hmoves.accounts ha) (s := h.file.headSlot)
    (by simp [ownedSlots])
  have hfits := hstored.fits
  rw [hmoves.same.cipher] at hfits
  dsimp only at hplace hfits
  by_cases hdirect : (continuationSlots (chunkCount h.file.totalSize) h.file.slotMap).length ≤
      maxDirectSlots
  · rw [placeIds_direct hdirect] at hplace
    cases hplace
    exact ⟨none, by rwa [List.take_of_length_le hdirect], fun _ => rfl⟩
  · refine ⟨newChain, ?_, fun hle => absurd hle hdirect⟩
    unfold placeIds at hplace
    rw [if_neg hdirect] at hplace
    obtain ⟨chain, c₅, hwrite, hret⟩ := run_bind_ok.mp hplace
    cases hret
    exact hfits

omit [NodeStore σ] [LawfulNodeStore σ] in
/-- The inline data of a head with a full first chunk. -/
theorem inlineData_full {s : VenomFuse σ} {fh : Nat} {f : OpenFile} {fb : FileBlock}
    {bytes : List UInt8} (ho : Open (Flat bytes) s fh f fb [] [])
    (hsize : f.totalSize = bytes.length) (hfull : chunkSize ≤ bytes.length) :
    (inlineData f fb).length = chunkSize := by
  -- what shows the first bytes of the file is as long as the chunk
  have hlen : ∀ {d}, Shows (Flat bytes) 0 d → d.length = chunkSize := by
    rintro d ⟨hle, hd⟩
    refine hle.antisymm (Nat.le_of_not_lt fun hlt => ?_)
    have := hd d.length hlt (by omega)
    rw [List.getElem?_eq_none le_rfl, eq_comm, List.getElem?_eq_none_iff] at this
    omega
  unfold inlineData
  split
  next d hd =>
    have hshown := hlen (ho.ok.backed.cached hd)
    unfold cutHead chunkActualSize
    have hpos := chunkSize_pos
    rw [if_neg (by omega)]
    dsimp only
    rw [List.length_take]
    omega
  next hnone => exact hlen (ho.ok.backed.inline fun hp => hp.2 hnone)

theorem length_reduceOption_full {m : List (Option Nat)} {n : Nat} (h0 : m[0]? = some none)
    (hlen : m.length ≤ max n 1) (hfull : ∀ i, 1 ≤ i → i < n → m[i]?.join ≠ none) :
    m.reduceOption.length = n - 1 := by
  have hpos := (List.getElem?_eq_some_iff.mp h0).1
  have hn : m.length = max n 1 := by
    refine hlen.antisymm (Nat.le_of_not_lt fun hlt => ?_)
    exact hfull m.length hpos (by omega) (by rw [List.getElem?_eq_none le_rfl]; rfl)
  have hall : (m.drop 1).reduceOption.length = (m.drop 1).length := by
    rw [List.reduceOption_length_eq_iff]
    intro o ho
    obtain ⟨i, hi⟩ := List.mem_iff_getElem?.mp ho
    rw [List.getElem?_drop] at hi
    have hlt := (List.getElem?_eq_some_iff.mp hi).1
    have := hfull (1 + i) (by omega) (by omega)
    rw [hi] at this
    exact Option.isSome_iff_ne_none.mpr this
  rw [← reduceOption_drop_one h0, hall, List.length_drop]
  omega

/-! ## The flush -/

omit [NodeStore σ] [LawfulNodeStore σ] in
/-- A file written without gaps has bytes for every chunk. -/
theorem Appended.occupied {pool : List Nat} {s : VenomFuse σ} {fh : Nat} {f : OpenFile}
    {fb : FileBlock} {bytes : List UInt8} (h : Appended pool s fh f fb bytes) {i : Nat}
    (h1 : 1 ≤ i) (hi : i < chunkCount bytes.length) : Occupied f i := by
  by_contra hno
  obtain ⟨hslot, hpend⟩ := not_or.mp hno
  have hlt := lt_chunkCount.mp hi
  have := (h.opened.ok.backed.gap h1 (not_not.mp hslot) hpend).2 0 chunkSize_pos (by omega)
  rw [List.getElem?_nil, eq_comm, List.getElem?_eq_none_iff] at this
  omega

/-- The state in which the flush of a file of `n` bytes rewrites the head. -/
structure ReadyForHead (pool : List Nat) (c : σ) (n : Nat) (fb : FileBlock) (h : Handle σ) :
    Prop where
  same : SameVolume c h.container
  head : nodes h.container h.file.headSlot = some (.file fb)
  accounts : Accounts h.container (ownedSlots h.file [])
  totalSize : h.file.totalSize = n
  chain : h.file.indexChain = none
  inline : (inlineData h.file fb).length = chunkSize
  ids : (continuationSlots (chunkCount n) h.file.slotMap).Perm
    (pool.reverse.take (chunkCount n - 1))

/-- Storing the chunks of such a file succeeds, and rewriting the head decides the flush. -/
theorem flush_ready {pool : List Nat} {s : VenomFuse σ} {fh : Nat} {f : OpenFile}
    {fb : FileBlock} {bytes : List UInt8} (ord : IterOrder Nat)
    (h : Appended pool s fh f fb bytes) (hnew : fb.totalSize = 0)
    (hfull : chunkSize ≤ bytes.length) (hroom : chunkLimit bytes.length ≤ pool.length + 1) :
    ∃ h₁, ReadyForHead pool s.container bytes.length fb h₁ ∧
      ((∃ h', (flushHandle ord).run ⟨s.container, f⟩ = .ok () h') ↔
        ∃ h', rewriteHead.run h₁ = .ok () h') := by
  obtain ⟨hh, hb⟩ := h.opened.ok
  have hcount := h.taken.length_eq
  rw [List.length_append] at hcount
  have hroom₀ : Room s.container f := by
    have := h.mapLen
    unfold Room
    omega
  obtain ⟨h₁, hstore, hst⟩ := storeDirtyChunks_run ord hh.accounts hh.mapHead hroom₀
    fun hd => (hb.cached hd).1
  have hlimit : max (chunkCount f.totalSize) 1 = chunkLimit bytes.length := by
    rw [h.size]; rfl
  have hcut : (freeExcessSlots (max (chunkCount f.totalSize) 1)).run h₁ = .ok () h₁ := by
    unfold freeExcessSlots
    rw [run_bind_of_ok run_get, if_neg]
    · rfl
    · rw [hst.length, hlimit]
      exact Nat.not_lt.mpr h.mapLen
  obtain ⟨hslots, ⟨m, b, hfile⟩, hmoves, hown, hclean⟩ := storeAndCut_ok hstore hcut hh.accounts
  have hmeta : f.metaDirty = true := by
    by_contra hm
    have := (hh.clean (by simpa using hm)).1
    rw [hnew, h.size] at this
    have := chunkSize_pos
    omega
  have hmeta₁ : h₁.file.metaDirty = true := by
    by_contra hm
    rw [(hclean (by simpa using hm)).1] at hmeta
    cases hmeta
  obtain rfl : b = true := by rw [hfile] at hmeta₁; exact hmeta₁
  have hmapLen : h₁.file.slotMap.length ≤ max (chunkCount bytes.length) 1 := by
    rw [hst.length]
    exact h.mapLen
  -- the slots in the map are the ones taken from the free list
  have hids : (continuationSlots (chunkCount bytes.length) h₁.file.slotMap).Perm
      (pool.reverse.take (chunkCount bytes.length - 1)) := by
    rw [continuationSlots_eq hmapLen hst.mapHead]
    obtain ⟨rest, hrest⟩ := hst.pops.trans h.pops
    have hperm := taken_of_moves h.taken hst.moves
    rw [← hrest, List.perm_append_left_iff] at hperm
    have hlen : h₁.file.slotMap.reduceOption.length = chunkCount bytes.length - 1 :=
      length_reduceOption_full hst.mapHead hmapLen fun i h1 hi =>
        (hslots.occupied hb h1 (by rw [hlimit]; exact hi.trans_le (le_max_left _ _))).mpr
          (h.occupied h1 hi)
    have hrestLen := hperm.length_eq
    rw [hlen] at hrestLen
    rw [← hrest, List.reverse_append, List.take_append_of_le_length (by simp [hrestLen]),
      List.take_of_length_le (by simp [hrestLen])]
    exact hperm.trans (List.reverse_perm _).symm
  have hchain : f.indexChain = none := hh.index.first_none
  have hhead : h₁.file.headSlot = f.headSlot := by rw [hfile]
  refine ⟨h₁, ⟨hst.moves.same, ?_, ?_, by rw [hfile]; exact h.size, by rw [hfile]; exact hchain,
    ?_, hids⟩, ?_⟩
  · rw [hhead]
    exact (hown _ List.mem_cons_self).trans hh.head
  · unfold ownedSlots
    rw [hhead]
    exact hst.moves.accounts hh.accounts
  · have hinline : inlineData h₁.file fb = inlineData f fb := by rw [hfile]; rfl
    rw [hinline]
    exact inlineData_full h.opened h.size hfull
  · have hrun : (flushHandle ord).run ⟨s.container, f⟩ =
        (rewriteHead >>= fun _ => modifyFile markClean).run h₁ := by
      unfold flushHandle
      rw [run_bind_of_ok run_get, if_neg (by simp [hmeta]), run_bind_of_ok hstore,
        run_bind_of_ok hcut, run_bind_of_ok run_get, if_pos (.inl hmeta₁)]
    rw [hrun]
    constructor
    · rintro ⟨h', hok⟩
      obtain ⟨_, h₂, hrewrite, -⟩ := run_bind_ok.mp hok
      exact ⟨h₂, hrewrite⟩
    · rintro ⟨h₂, hrewrite⟩
      exact ⟨_, by rw [run_bind_of_ok hrewrite]; exact modifyFile_ok.mpr rfl⟩

theorem HeadFits.idsLen_le {cipher : CipherAlgorithm} {totalSize : Nat} {ids : List Nat}
    (h : HeadFits cipher totalSize ids) : idsLen ids ≤ 2704 := by
  have hleft : slotSize - chunkSize - 64 = 2704 := by decide
  unfold HeadFits at h
  omega

theorem HeadFits.length_le {cipher : CipherAlgorithm} {totalSize : Nat} {ids : List Nat}
    (h : HeadFits cipher totalSize ids) : ids.length < maxDirectSlots := by
  have hle := length_le_idsLen ids
  have hids := h.idsLen_le
  have hmax : maxDirectSlots = 4000 := rfl
  omega

/-- The head with a full first chunk fits its slot exactly when the numbers do. -/
theorem headNode_fits {cipher : CipherAlgorithm} {totalSize : Nat} {ids : List Nat}
    {chain : Option Nat} {d : List UInt8} (htotal : totalSize < 2 ^ 64)
    (hids : ∀ t ∈ ids, t < 2 ^ 64) (hlen : ids.length < 2 ^ 32) (hd : d.length = chunkSize)
    (hchain : ∀ t ∈ chain, t < 2 ^ 64) :
    Fits cipher (headNode totalSize ids chain d) ↔
      uintLen totalSize + (Head.array ids.length).width + idsLen ids + vnmbOverhead cipher +
        (optUint chain).size ≤ slotSize - chunkSize - 63 := by
  have hcs : slotSize - chunkSize = 2768 := by decide
  have hbin : (Head.bin d.length).width = 3 := by rw [hd]; decide
  have hslot : slotSize = 32768 := rfl
  have hchunk : chunkSize = 30000 := rfl
  rw [headNode, file_fits htotal hlen hids hchain (by rw [hd]; decide), hbin, hd]
  omega

/-- Rewriting the head of such a file succeeds exactly when the numbers fit beside the data. -/
theorem ReadyForHead.rewrites {pool : List Nat} {c : σ} {n : Nat} {fb : FileBlock}
    {h : Handle σ} (hr : ReadyForHead pool c n fb h) (hpool : ∀ t ∈ pool, t < 2 ^ 18)
    (htotal : n < 2 ^ 64) (hlen : pool.length ≤ 2 ^ 18) :
    (∃ h', rewriteHead.run h = .ok () h') ↔
      HeadFits (NodeStore.cipher c) n (pool.reverse.take (chunkCount n - 1)) := by
  have hdata : IsDataSlot h.container h.file.headSlot :=
    hr.accounts.isDataSlot (by simp [ownedSlots])
  -- the head lists the ids in another order, which takes as many bytes
  let all := continuationSlots (chunkCount h.file.totalSize) h.file.slotMap
  have hall : all.Perm (pool.reverse.take (chunkCount n - 1)) := by
    dsimp only [all]
    rw [hr.totalSize]
    exact hr.ids
  have hallLen := hall.length_eq
  have hpoolLen : (pool.reverse.take (chunkCount n - 1)).length ≤ 2 ^ 18 := by
    rw [List.length_take, List.length_reverse]
    omega
  have hsmall : ∀ t ∈ all, t < 2 ^ 64 := fun t ht =>
    (hpool t (List.mem_reverse.mp (List.mem_of_mem_take (hall.mem_iff.mp ht)))).trans (by decide)
  have hsame : HeadFits (NodeStore.cipher c) n (pool.reverse.take (chunkCount n - 1)) ↔
      HeadFits (NodeStore.cipher h.container) h.file.totalSize all := by
    unfold HeadFits
    rw [hr.same.cipher, hr.totalSize, hallLen, idsLen_perm hall]
  have hno : ∀ t ∈ (none : Option Nat), t < 2 ^ 64 := by simp
  rw [hsame]
  constructor
  · rintro ⟨h', hrun⟩
    obtain ⟨chain, hfits, hnone⟩ := rewriteHead_fits hrun hr.head hr.accounts hr.chain
    have hcs : slotSize - chunkSize = 2768 := by decide
    by_cases hdirect : all.length ≤ maxDirectSlots
    · have hfits' : Fits (NodeStore.cipher h.container)
          (headNode h.file.totalSize all none (inlineData h.file fb)) := by
        rwa [hnone hdirect, List.take_of_length_le hdirect] at hfits
      have := (headNode_fits (by rw [hr.totalSize]; exact htotal) hsmall (by omega) hr.inline
        hno).mp hfits'
      have hnil : (optUint none).size = 1 := rfl
      unfold HeadFits
      omega
    · -- a full list of ids alone is too long
      have hlong := hfits.2
      rw [headNode, encodedLen_file, hr.inline] at hlong
      have hids := length_le_idsLen (all.take maxDirectSlots)
      have hmax : maxDirectSlots = 4000 := rfl
      have hslot : slotSize = 32768 := rfl
      have hchunk : chunkSize = 30000 := rfl
      rw [List.length_take] at hids
      change _ + idsLen (all.take maxDirectSlots) + _ + _ + _ + _ + _ ≤ _ at hlong
      omega
  · intro hfits
    have hfree : (freeIndexChain h.file.indexChain).run h.container = .ok () h.container := by
      rw [hr.chain]; rfl
    have hnode : Fits (NodeStore.cipher h.container) (headNode h.file.totalSize all none
        (inlineData h.file fb)) := by
      refine (headNode_fits (by rw [hr.totalSize]; exact htotal) hsmall (by omega) hr.inline
        hno).mpr ?_
      unfold HeadFits at hfits
      have hnil : (optUint none).size = 1 := rfl
      have hcs : slotSize - chunkSize = 2768 := by decide
      omega
    obtain ⟨c', hrun⟩ := rewriteHead_run hdata hr.head hfree hfits.length_le.le hnode
    exact ⟨_, hrun⟩

/-- A file written sequentially is released exactly when its head fits. -/
theorem release_iff {pool : List Nat} {s : VenomFuse σ} {fh : Nat} {f : OpenFile}
    {fb : FileBlock} {bytes : List UInt8} (ord : IterOrder Nat)
    (h : Appended pool s fh f fb bytes) (hnew : fb.totalSize = 0)
    (hnodup : pool.Nodup) (hpool : ∀ t ∈ pool, t < 2 ^ 18) (hfull : chunkSize ≤ bytes.length)
    (hroom : chunkLimit bytes.length ≤ pool.length + 1) :
    (∃ s', (opRelease ord fh).run s = .ok () s') ↔
      HeadFits (NodeStore.cipher s.container) bytes.length
        (pool.reverse.take (chunkCount bytes.length - 1)) := by
  have hlen : pool.length ≤ 2 ^ 18 := by
    have hsub : pool ⊆ List.range (2 ^ 18) := fun t ht => List.mem_range.mpr (hpool t ht)
    simpa using (List.subperm_of_subset hnodup hsub).length_le
  have htotal : bytes.length < 2 ^ 64 := by
    have hlim : chunkCount bytes.length ≤ pool.length + 1 := (le_max_left _ _).trans hroom
    by_contra hge
    have := lt_chunkCount.mpr (show (2 ^ 18 + 1) * chunkSize < bytes.length by
      unfold chunkSize; omega)
    omega
  obtain ⟨h₁, hready, hiff⟩ := flush_ready ord h hnew hfull hroom
  have hrelease : (∃ s', (opRelease ord fh).run s = .ok () s') ↔
      ∃ h', (flushHandle ord).run ⟨s.container, f⟩ = .ok () h' := by
    constructor
    · rintro ⟨s', hrun⟩
      obtain ⟨s₁, hflush, -⟩ := opRelease_ok hrun
      rw [opFlush_run h.opened.entry] at hflush
      obtain ⟨h', hok, -⟩ := withHandle_ok.mp hflush
      exact ⟨h', hok⟩
    · rintro ⟨h', hok⟩
      have hflush := (opFlush_run h.opened.entry ord).trans (withHandle_ok.mpr ⟨h', hok, rfl⟩)
      exact ⟨_, by unfold opRelease; rw [run_bind_of_ok hflush]; exact run_modify⟩
  rw [hrelease, hiff, hready.rewrites hpool htotal hlen]

/-! ## A new file written to the end -/

/-- A new file, before anything is written. -/
theorem opCreate_appended {s s' : VenomFuse σ} {parent ino fh : Nat} {name : String}
    (hs : DriverOk s) (hrun : (opCreate parent name).run s = .ok (ino, fh) s') :
    ∃ f fb, Appended (free s'.container) s' fh f fb [] ∧ fb.totalSize = 0 ∧
      (free s'.container).Nodup ∧ ∀ t ∈ free s'.container, IsDataSlot s'.container t := by
  obtain ⟨head, ho⟩ := opCreate_ok (A := Flat []) hs (fun p hlt => by simp at hlt) hrun
  have ha := ho.ok.handle.accounts
  exact ⟨_, _, ⟨ho, rfl, le_max_right _ _, List.prefix_rfl, by simp [newFile]⟩, rfl, ha.nodup_free,
    fun t ht => ha.dataSlot t (List.mem_append_left _ ht)⟩

/-- Writing such a file succeeds, and whether it is released is a matter of its numbers. -/
theorem writes_released {s s' : VenomFuse σ} {parent ino fh : Nat} {name : String}
    {ws : List WriteCall} (ord : IterOrder Nat) (hs : DriverOk s)
    (hcreate : (opCreate parent name).run s = .ok (ino, fh) s')
    (hslots : ∀ t, IsDataSlot s'.container t → t < 2 ^ 18) (hseq : Sequential 0 ws)
    (hfull : chunkSize ≤ (bytesOf ws).length)
    (hfree : chunkCount (bytesOf ws).length - 1 ≤ (free s'.container).length) :
    ∃ s₁, (runWrites fh ws).run s' = .ok () s₁ ∧
      ((∃ s₂, (opRelease ord fh).run s₁ = .ok () s₂) ↔
        HeadFits (NodeStore.cipher s'.container) (bytesOf ws).length
          ((free s'.container).reverse.take (chunkCount (bytesOf ws).length - 1))) := by
  obtain ⟨f, fb, h, hnew, hnodup, hdata⟩ := opCreate_appended hs hcreate
  have hroom : chunkLimit (bytesOf ws).length ≤ (free s'.container).length + 1 := by
    unfold chunkLimit
    omega
  obtain ⟨s₁, f₁, hrun, h₁, hcipher⟩ := runWrites_appended h hseq hroom
  rw [List.nil_append] at h₁
  refine ⟨s₁, hrun, ?_⟩
  rw [release_iff ord h₁ hnew hnodup (fun t ht => hslots t (hdata t ht)) hfull hroom, hcipher]

/-- A file written sequentially through one handle is released exactly when the ids of its
    slots, which are the next free ones, leave room for the first chunk in its head; index
    blocks always fit. -/
theorem sequential_file_released {s s' : VenomFuse σ} {parent ino fh : Nat} {name : String}
    {ws : List WriteCall} (ord : IterOrder Nat) (hs : DriverOk s)
    (hcreate : (opCreate parent name).run s = .ok (ino, fh) s')
    (hslots : ∀ t, IsDataSlot s'.container t → t < 2 ^ 18) (hseq : Sequential 0 ws)
    (hfull : chunkSize ≤ (bytesOf ws).length)
    (hfree : chunkCount (bytesOf ws).length - 1 ≤ (free s'.container).length) :
    (∀ ids next, ids.length ≤ maxIndexSlots → (∀ t ∈ ids, t < 2 ^ 18) →
      (∀ t ∈ next, t < 2 ^ 18) → Fits (NodeStore.cipher s'.container) (indexNode ids next)) ∧
    ∃ s₁, (runWrites fh ws).run s' = .ok () s₁ ∧
      ((∃ s₂, (opRelease ord fh).run s₁ = .ok () s₂) ↔
        HeadFits (NodeStore.cipher s'.container) (bytesOf ws).length
          ((free s'.container).reverse.take (chunkCount (bytesOf ws).length - 1))) :=
  ⟨fun _ _ hlen hids hnext => fileIndex_fits _ hlen
      (fun t ht => (hids t ht).trans (by decide)) (fun t ht => (hnext t ht).trans (by decide)),
    writes_released ord hs hcreate hslots hseq hfull hfree⟩

/-- Three chunks and a byte of a fourth one, in two writes. -/
def fourChunks : List WriteCall :=
  [⟨.listed, 0, List.replicate chunkSize 0⟩, ⟨.listed, chunkSize, List.replicate (2 * chunkSize + 1) 7⟩]

theorem length_fourChunks : (bytesOf fourChunks).length = 3 * chunkSize + 1 := by
  simp only [fourChunks, bytesOf, List.map_cons, List.map_nil, List.flatten_cons, List.flatten_nil,
    List.length_append, List.length_replicate, List.length_nil]
  omega

/-- They are written, into three slots, and released. -/
theorem sequential_file_released_four : ∃ s₁ s₂ : VenomFuse Volume,
    (runWrites 1 fourChunks).run created = .ok () s₁ ∧ (opRelease .listed 1).run s₁ = .ok () s₂ := by
  have hseq : Sequential 0 fourChunks := ⟨rfl, by simp, trivial⟩
  have hcount : chunkCount (bytesOf fourChunks).length = 4 := by
    rw [length_fourChunks]
    decide
  obtain ⟨-, s₁, hwrite, hiff⟩ := sequential_file_released .listed
    mounted_ok (run_of_valueOf (x := opCreate 1 "notes") (a := (2, 1)) (by decide +kernel))
    (fun t ht => lt_of_lt_of_le ht (by decide +kernel)) hseq
    (by rw [length_fourChunks]; omega) (by rw [hcount]; decide +kernel)
  obtain ⟨s₂, hrelease⟩ := hiff.mpr (by rw [hcount, length_fourChunks]; decide +kernel)
  exact ⟨s₁, s₂, hwrite, hrelease⟩

/-- The bytes of `n` chunks, all zero, in one write. -/
def zeroChunks (n : Nat) : List WriteCall := [⟨.listed, 0, List.replicate (n * chunkSize) 0⟩]

theorem bytesOf_zeroChunks (n : Nat) :
    bytesOf (zeroChunks n) = List.replicate (n * chunkSize) 0 := by
  simp [zeroChunks, bytesOf]

/-- A new file on a volume of 3000 slots. -/
def createdLarge : VenomFuse Volume :=
  after (opCreate 1 "notes") (VenomFuse.new 0 (Volume.fresh .xchacha20Poly1305 3000))

/-- A file of 2801 chunks is written, with slots to spare, and cannot be released. -/
theorem long_file_not_released :
    (opCreate 1 "notes").run (VenomFuse.new 0 (Volume.fresh .xchacha20Poly1305 3000)) =
        .ok (2, 1) createdLarge ∧
      2900 ≤ (free createdLarge.container).length ∧ Sequential 0 (zeroChunks 2801) ∧
      ∃ s₁, (runWrites 1 (zeroChunks 2801)).run createdLarge = .ok () s₁ ∧
        ¬ ∃ s₂, (opRelease .listed 1).run s₁ = .ok () s₂ := by
  have hcreate : (opCreate 1 "notes").run
      (VenomFuse.new 0 (Volume.fresh .xchacha20Poly1305 3000)) = .ok (2, 1) createdLarge :=
    run_of_valueOf (by decide +kernel)
  have hfree : 2900 ≤ (free createdLarge.container).length := by decide +kernel
  have hseq : Sequential 0 (zeroChunks 2801) := ⟨rfl, trivial⟩
  have hcount : chunkCount (bytesOf (zeroChunks 2801)).length = 2801 := by
    rw [bytesOf_zeroChunks, List.length_replicate]
    decide
  have hcountSlots : createdLarge.container.slotCount ≤ 2 ^ 18 := by decide +kernel
  obtain ⟨s₁, hwrite, hiff⟩ := writes_released .listed
    (VenomFuse.fresh_ok .xchacha20Poly1305 (by decide)) hcreate
    (fun t ht => (Volume.isDataSlot_iff.mp ht).trans_le hcountSlots)
    hseq (by rw [bytesOf_zeroChunks, List.length_replicate]; exact Nat.le_mul_of_pos_left _ (by omega))
    (by omega)
  refine ⟨hcreate, hfree, hseq, s₁, hwrite, fun hrelease => ?_⟩
  -- 2800 ids take at least 2800 bytes
  have hfits := (hiff.mp hrelease).idsLen_le
  rw [hcount] at hfits
  have hids := length_le_idsLen ((free createdLarge.container).reverse.take (2801 - 1))
  rw [List.length_take, List.length_reverse] at hids
  omega

end Venom.Fuse
