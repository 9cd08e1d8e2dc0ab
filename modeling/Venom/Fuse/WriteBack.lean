import Venom.Fuse.Content
import Venom.Fuse.Driver

/-! # Writing back, resizing and reopening

The rules of `Content` for the operations that move chunks from the cache to the disk:
write-through, flush, truncation, and the new handle an open makes from what a flush left.
-/

namespace Venom.Fuse

open Venom.Storage
open Venom.Library
open Venom.Library.Chunks
open Venom.Library.StateError
open Venom.Library.OptionLists

variable {σ : Type} [NodeStore σ] [NodeView σ]

/-! ## Write-through -/

/-- The handle stays consistent when chunks other than chunk 0 are stored. -/
theorem HandleOk.stored {c c' : σ} {f f' : OpenFile} {fb : FileBlock} {ids chain done : List Nat}
    (hok : HandleOk c f fb ids chain)
    (hst : StoredChunks c f (f.headSlot :: chain) done c' f')
    (hfile : ∃ m b, f' = { f with slotMap := m, metaDirty := b }) (h0 : 0 ∉ done) :
    HandleOk c' f' fb ids chain := by
  obtain ⟨m, b, rfl⟩ := hfile
  have hown : ∀ t ∈ f.headSlot :: chain, nodes c' t = nodes c t := fun t ht =>
    (hst.own_agree hok.accounts ht).2
  refine ⟨(hown _ List.mem_cons_self).trans hok.head, hok.chainEq,
    hok.index.congr fun s hs => hown s (List.mem_cons_of_mem _ hs),
    (hst.others 0 (.inl h0)).trans hok.mapHead, hst.moves.accounts hok.accounts, ?_, ?_, ?_⟩
  · intro s hs
    obtain ⟨i, hi⟩ := exists_getElem? hs
    by_cases hd : i ∉ done ∨ f.cache.get i = none
    · rw [hst.unstored hok.accounts hd hi]
      exact hok.data s (mem_of_getElem? ((hst.others i hd).symm.trans hi))
    · obtain ⟨hid, hc⟩ := not_or.mp hd
      obtain ⟨d, hd'⟩ := Option.ne_none_iff_exists'.mp hc
      have hlt : i < f.slotMap.length := by
        rw [← hst.length]; exact (List.getElem?_eq_some_iff.mp hi).1
      obtain ⟨s', hs', hnode⟩ := hst.stored i (not_not.mp hid) d hd' hlt
      obtain rfl : s = s' := by rw [hi] at hs'; simpa using hs'
      exact ⟨_, hnode⟩
  · intro hm
    obtain ⟨hm₀, hs₀⟩ := hst.metaKept hm
    dsimp only at hs₀
    rw [hs₀]
    exact hok.clean hm₀
  · intro hm
    obtain ⟨hm₀, hs₀⟩ := hst.metaKept hm
    dsimp only at hs₀
    rw [hs₀]
    exact hok.trimmed hm₀

variable [LawfulNodeStore σ]

/-- A chunk that has a slot or is about to get one. -/
def Occupied (f : OpenFile) (i : Nat) : Prop := f.slotMap[i]?.join ≠ none ∨ Pending f i

/-- What moving chunks to the disk leaves unchanged in a handle. -/
structure Drained (f f' : OpenFile) : Prop where
  ino : f'.ino = f.ino
  headSlot : f'.headSlot = f.headSlot
  indexChain : f'.indexChain = f.indexChain
  totalSize : f'.totalSize = f.totalSize
  metaDirty : f.metaDirty = true → f'.metaDirty = true
  occupied : ∀ i, Occupied f' i ↔ Occupied f i

theorem Drained.refl (f : OpenFile) : Drained f f := ⟨rfl, rfl, rfl, rfl, id, fun _ => .rfl⟩

theorem Drained.trans {f f' f'' : OpenFile} (h : Drained f f') (h' : Drained f' f'') :
    Drained f f'' :=
  ⟨h'.ino.trans h.ino, h'.headSlot.trans h.headSlot, h'.indexChain.trans h.indexChain,
   h'.totalSize.trans h.totalSize, h'.metaDirty ∘ h.metaDirty,
   fun i => (h'.occupied i).trans (h.occupied i)⟩

theorem dataNode_inj {d : List UInt8} {b : FileDataBlock}
    (h : some (dataNode d) = some (.fileData b)) : d = b.data := by
  rw [dataNode, Option.some.injEq, VaultNode.fileData.injEq] at h
  rw [← h]

omit [LawfulNodeStore σ] in
/-- One chunk stored and dropped from the cache. -/
theorem dropStored_ok {A : Content} {lim ci : Nat} {c c' : σ} {f f' : OpenFile} {fb : FileBlock}
    {ids chain : List Nat} {d : List UInt8} (hok : OpenOk A lim ⟨c, f⟩ fb ids chain)
    (hst : StoredChunks c f (f.headSlot :: chain) [ci] c' f')
    (hfile : ∃ m b, f' = { f with slotMap := m, metaDirty := b }) (hci : 1 ≤ ci)
    (hd : f.cache.get ci = some d) (hlt : ci < f.slotMap.length) :
    OpenOk A lim ⟨c', dropChunk ci f'⟩ fb ids chain ∧
      (ci ∈ f.dirty → Drained f (dropChunk ci f')) := by
  obtain ⟨hh, hb⟩ := hok
  have hh' := hh.stored hst hfile (by simp; omega)
  obtain ⟨s, hs, hnode⟩ := hst.stored ci (by simp) d hd hlt
  have hothers : ∀ i, i ≠ ci → f'.slotMap[i]? = f.slotMap[i]? := fun i hne =>
    hst.others i (.inl (by simpa using hne))
  have hlen := hst.length
  have hunstored : ∀ {i s}, i ≠ ci → f'.slotMap[i]? = some (some s) → nodes c' s = nodes c s :=
    fun hne => hst.unstored hh.accounts (.inl (by simpa using hne))
  obtain ⟨m, b, rfl⟩ := hfile
  dsimp only at hs hothers hlen hunstored
  have hpend : ∀ i, Pending (dropChunk ci { f with slotMap := m, metaDirty := b }) i ↔
      i ≠ ci ∧ Pending f i := fun i => by
    by_cases e : i = ci <;> simp [Pending, dropChunk, e]
  have hcache : ∀ {i d'}, (f.cache.remove ci).get i = some d' →
      i ≠ ci ∧ f.cache.get i = some d' := fun {i d'} h => by
    rw [HashMap.get_remove] at h
    split at h
    · cases h
    next hne => exact ⟨hne, h⟩
  refine ⟨⟨⟨hh'.head, hh'.chainEq, hh'.index, hh'.mapHead, hh'.accounts, hh'.data, hh'.clean,
    hh'.trimmed⟩,
    ⟨fun h => hb.cached (hcache h).2, fun h => ?_, fun hn => ?_, ?_, ?_, ?_⟩⟩,
    fun hdirty => ⟨rfl, rfl, rfl, rfl, hst.metaMono, fun i => ?_⟩⟩
  · have := hb.cachedLt (hcache h).2
    exact ⟨lt_of_lt_of_eq this.1 hlen.symm, this.2⟩
  · exact hb.inline fun hp => hn ((hpend 0).mpr ⟨by omega, hp⟩)
  · intro i s' d' hs' hnode' hn
    by_cases e : i = ci
    · subst e
      obtain rfl : s' = s := Option.some.inj (Option.some.inj (hs'.symm.trans hs))
      rw [← dataNode_inj (hnode.symm.trans hnode')]
      exact hb.cached hd
    · rw [hunstored e hs'] at hnode'
      exact hb.slot ((hothers i e).symm.trans hs') hnode' fun hp => hn ((hpend i).mpr ⟨e, hp⟩)
  · intro i h1 hjoin hn
    by_cases e : i = ci
    · subst e
      change m[i]?.join = none at hjoin
      rw [hs] at hjoin
      cases hjoin
    · refine hb.gap h1 ?_ fun hp => hn ((hpend i).mpr ⟨e, hp⟩)
      rw [← hothers i e]
      exact hjoin
  · intro i s' d' hs' hnode'
    by_cases e : i = ci
    · subst e
      obtain rfl : s' = s := Option.some.inj (Option.some.inj (hs'.symm.trans hs))
      rw [← dataNode_inj (hnode.symm.trans hnode')]
      exact (hb.cached hd).1
    · rw [hunstored e hs'] at hnode'
      exact hb.slotLen ((hothers i e).symm.trans hs') hnode'
  · have hmap : (dropChunk ci { f with slotMap := m, metaDirty := b }).slotMap = m := rfl
    unfold Occupied
    rw [hpend i, hmap]
    by_cases e : i = ci
    · subst e
      simp [hs, Pending, hd, hdirty]
    · rw [hothers i e]
      simp [e]

theorem writeThroughChunk_ok {A : Content} {lim ci : Nat} {h h' : Handle σ} {fb : FileBlock}
    {ids chain : List Nat} (hok : OpenOk A lim h fb ids chain) (hci : 1 ≤ ci)
    (hrun : (writeThroughChunk ci).run h = .ok () h') :
    OpenOk A lim h' fb ids chain ∧ (ci ∈ h.file.dirty → Drained h.file h'.file) ∧
      Moves h.container h'.container (ownedSlots h.file chain) (ownedSlots h'.file chain) ∧
      ∀ i, i ≠ ci → (i ∈ h'.file.dirty ↔ i ∈ h.file.dirty) := by
  obtain ⟨_, _, hget, hcont⟩ := run_bind_ok.mp hrun
  cases hget
  split at hcont
  next hin =>
    obtain ⟨d, hd⟩ := (HashMap.containsKey_eq_true _ _).mp hin.1
    obtain ⟨_, h₁, hstore, hmod⟩ := run_bind_ok.mp hcont
    rw [modifyFile_ok] at hmod
    subst hmod
    obtain ⟨hst, hfile⟩ := storeChunk_ok hstore hok.handle.accounts
    obtain ⟨hok', hdr⟩ := dropStored_ok hok hst hfile hci hd hin.2
    obtain ⟨m, b, e⟩ := hfile
    refine ⟨hok', hdr, ?_, fun i hne => by simp [dropChunk, e, hne]⟩
    have hmoves := hst.moves
    rw [e] at hmoves ⊢
    exact hmoves
  next =>
    cases hcont
    exact ⟨hok, fun _ => .refl _, .refl _ _, fun _ _ => .rfl⟩

theorem writeThroughFlush_ok {A : Content} {lim n : Nat} {h h' : Handle σ} {fb : FileBlock}
    {ids chain : List Nat} {ord : IterOrder Nat} (hok : OpenOk A lim h fb ids chain)
    (hrun : (writeThroughFlush ord n).run h = .ok () h') :
    OpenOk A lim h' fb ids chain ∧ Drained h.file h'.file ∧
      Moves h.container h'.container (ownedSlots h.file chain) (ownedSlots h'.file chain) := by
  obtain ⟨_, _, hget, hloop⟩ := run_bind_ok.mp hrun
  cases hget
  dsimp only at hloop
  let all := ((ord.order h.file.dirty.elems).filter (1 ≤ ·)).mergeSort (· ≤ ·)
  have hnd : (all.take n).Nodup :=
    ((List.mergeSort_perm _ _).nodup_iff.mpr
      ((ord.nodup_order h.file.dirty.nodup).filter _)).sublist (List.take_sublist _ _)
  have hmem : ∀ i ∈ all.take n, 1 ≤ i ∧ i ∈ h.file.dirty := fun i hi => by
    have := List.mem_of_mem_take hi
    simpa [all, List.mem_mergeSort, HashSet.mem_elems, and_comm] using this
  -- a chunk not yet reached is as dirty as at the start
  let inv (done : List Nat) (h₁ : Handle σ) : Prop := OpenOk A lim h₁ fb ids chain ∧
    Drained h.file h₁.file ∧
    Moves h.container h₁.container (ownedSlots h.file chain) (ownedSlots h₁.file chain) ∧
    ∀ i, i ∉ done → (i ∈ h₁.file.dirty ↔ i ∈ h.file.dirty)
  have hall : inv (all.take n) h' := by
    refine forM_ok_induction inv hloop ⟨hok, .refl _, .refl _ _, fun _ _ => .rfl⟩ ?_
    rintro done ci rest h₁ h₂ hl ⟨hok₁, hdr₁, hm₁, hdirty₁⟩ hstep
    have hci : ci ∈ all.take n := by rw [show all.take n = _ from hl]; simp
    have hnot : ci ∉ done := fun hm => by
      rw [show all.take n = _ from hl] at hnd
      exact (List.nodup_append.mp hnd).2.2 ci hm ci List.mem_cons_self rfl
    obtain ⟨hok₂, hdr₂, hm₂, hdirty₂⟩ := writeThroughChunk_ok hok₁ (hmem ci hci).1 hstep
    refine ⟨hok₂, hdr₁.trans (hdr₂ ((hdirty₁ ci hnot).mpr (hmem ci hci).2)), hm₁.trans hm₂,
      fun i hi => ?_⟩
    obtain ⟨hid, hic⟩ : i ∉ done ∧ i ≠ ci := by simpa using hi
    exact (hdirty₂ i hic).trans (hdirty₁ i hid)
  exact ⟨hall.1, hall.2.1, hall.2.2.1⟩

theorem Written.occupied {touched : Nat → Prop} {f f' : OpenFile} (h : Written touched f f')
    (i : Nat) : Occupied f' i ↔ Occupied f i ∨ touched i := by
  obtain ⟨k, hk⟩ := h.slotMap
  unfold Occupied
  rw [h.pending, hk, join_append_replicate_none, or_assoc]

/-- A whole write, with the write-through that may follow it. -/
theorem writeHandle_ok {A : Nat → Content} {h h' : Handle σ} {fb : FileBlock}
    {ids chain : List Nat} {ord : IterOrder Nat} {offset n : Nat} {data : List UInt8}
    (hok : OpenOk (A offset) (chunkLimit h.file.totalSize) h fb ids chain)
    (hover : ∀ q k, offset ≤ q → q + k ≤ offset + data.length →
      Overwrites (A q) (A (q + k)) q ((data.drop (q - offset)).take k))
    (hrun : (writeHandle ord offset data).run h = .ok n h') :
    OpenOk (A (offset + data.length)) (chunkLimit h'.file.totalSize) h' fb ids chain ∧
      Moves h.container h'.container (ownedSlots h.file chain) (ownedSlots h'.file chain) ∧
      h'.file.ino = h.file.ino ∧ h'.file.headSlot = h.file.headSlot ∧
      (h.file.metaDirty = true → h'.file.metaDirty = true) ∧
      h'.file.totalSize = (if data = [] then h.file.totalSize
        else max (offset + data.length) h.file.totalSize) ∧
      ∀ i, Occupied h'.file i ↔ Occupied h.file i ∨
        ∃ p, offset ≤ p ∧ p < offset + data.length ∧ i = p / chunkSize := by
  obtain ⟨_, h₁, hloop, hcont⟩ := run_bind_ok.mp hrun
  obtain ⟨_, _, hget, hrest⟩ := run_bind_ok.mp hcont
  cases hget
  have hempty : data = [] ↔ ¬ offset < offset + data.length := by
    rw [← List.length_eq_zero_iff]; omega
  let total := if data = [] then h.file.totalSize else max (offset + data.length) h.file.totalSize
  have hle : h.file.totalSize ≤ total := by dsimp only [total]; split <;> omega
  have hlim : ∀ p, offset ≤ p → p < offset + data.length → p / chunkSize < chunkLimit total := by
    intro p hp hlt
    exact div_lt_chunkLimit (by
      dsimp only [total]; rw [if_neg fun e => hempty.mp e (by omega)]; omega)
  obtain ⟨hc, hok₁, hw, htotal⟩ := writeLoop_ok
    (⟨hok.handle, hok.backed.mono (fun _ _ => id) (chunkLimit_mono hle)⟩ :
      OpenOk (A offset) (chunkLimit total) h fb ids chain) le_rfl (by omega) hlim hover hloop
  have htotal₁ : h₁.file.totalSize = total := by
    rw [htotal]
    dsimp only [total]
    by_cases e : data = []
    · rw [if_pos e, if_neg (hempty.mp e)]
    · rw [if_neg e, if_pos (not_not.mp (mt hempty.mpr e))]
  have hmoves₁ : Moves h.container h₁.container (ownedSlots h.file chain)
      (ownedSlots h₁.file chain) := by
    rw [hw.ownedSlots, hc]; exact .refl _ _
  dsimp only at hrest
  split at hrest
  next =>
    obtain ⟨_, h₂, hflush, hret⟩ := run_bind_ok.mp hrest
    cases hret
    obtain ⟨hok₂, hdr, hmoves₂⟩ := writeThroughFlush_ok hok₁ hflush
    refine ⟨?_, hmoves₁.trans hmoves₂, hdr.ino.trans hw.ino, hdr.headSlot.trans hw.headSlot,
      hdr.metaDirty ∘ hw.metaDirty, hdr.totalSize.trans htotal₁, fun i => (hdr.occupied i).trans (hw.occupied i)⟩
    rw [hdr.totalSize, htotal₁]; exact hok₂
  next =>
    cases hrest
    refine ⟨?_, hmoves₁, hw.ino, hw.headSlot, hw.metaDirty, htotal₁, hw.occupied⟩
    rw [htotal₁]; exact hok₁

/-! ## Flushing -/

theorem Shows.cutHead {A : Content} {n : Nat} {d : List UInt8} (h : Shows A 0 d)
    (hA : ∀ p, n ≤ p → A p none) : Shows A 0 (cutHead n d) := by
  unfold Venom.Fuse.cutHead chunkActualSize
  split
  next sz hsz =>
    split at hsz
    · cases hsz
    next hlt =>
      obtain rfl : min (n - 0 * chunkSize) chunkSize = sz := Option.some.inj hsz
      refine ⟨(List.length_take_le' ..).trans h.1, fun off hoff => ?_⟩
      by_cases hn : off < n
      · rw [List.getElem?_take_of_lt (by omega)]
        exact h.2 off hoff
      · rw [List.getElem?_eq_none (by rw [List.length_take]; omega)]
        exact hA _ (by omega)
  next => exact h

omit [NodeStore σ] [LawfulNodeStore σ] in
/-- A flushed handle shows what it showed, and nothing behind the end of the file. -/
theorem Flushed.backed {A : Content} {lim : Nat} {c c' : σ} {f f' : OpenFile} {fb fb' : FileBlock}
    (h : Flushed f fb f' fb') (hslots : SlotsFlushed (chunkLimit f.totalSize) c f c' f')
    (hb : Backed A lim c f fb) (h0 : f.slotMap[0]? = some none)
    (hlim : lim ≤ chunkLimit f.totalSize) (hA : ∀ p, f.totalSize ≤ p → A p none) :
    Backed A lim c' f' fb' := by
  obtain ⟨⟨m, x, rfl⟩, -, hinline⟩ := h
  have hlen : m.length = min f.slotMap.length (chunkLimit f.totalSize) := hslots.length
  -- a slot that is left holds a chunk of the cache, or what it held
  have hstood : ∀ {i s : Nat} {d : FileDataBlock}, m[i]? = some (some s) →
      nodes c' s = some (.fileData d) → (∃ d', f.cache.get i = some d' ∧ d' = d.data) ∨
        (f.slotMap[i]? = some (some s) ∧ nodes c s = some (.fileData d) ∧ ¬ Pending f i) := by
    intro i s d hs hnode
    by_cases hp : 1 ≤ i ∧ Pending f i
    · obtain ⟨h1, hdirty, hc⟩ := hp
      obtain ⟨d', hd'⟩ := Option.ne_none_iff_exists'.mp hc
      obtain ⟨s', hs', hnode'⟩ := hslots.stored i d' h1 hdirty hd' (List.getElem?_eq_some_iff.mp hs).1
      obtain rfl : s = s' := Option.some.inj (Option.some.inj (hs.symm.trans hs'))
      exact .inl ⟨d', hd', dataNode_inj (hnode'.symm.trans hnode)⟩
    · have hs₀ := (hslots.others i (List.getElem?_eq_some_iff.mp hs).1 hp).symm.trans hs
      rw [hslots.unstored i s hp hs] at hnode
      refine .inr ⟨hs₀, hnode, fun hpend => hp ⟨?_, hpend⟩⟩
      by_contra hi
      obtain rfl : i = 0 := by omega
      rw [h0] at hs₀
      cases hs₀
  refine ⟨hb.cached, fun hd => ?_, fun _ => ?_, ?_, ?_, ?_⟩
  · have h1 : _ < f.slotMap.length := (hb.cachedLt hd).1
    have h2 := (hb.cachedLt hd).2
    exact ⟨by change _ < m.length; omega, h2⟩
  · rcases hinline with e | ⟨e, -, hclean⟩
    · rw [e, inlineData]
      split
      next d hd => exact (hb.cached hd).cutHead hA
      next hnone => exact hb.inline fun hp => hp.2 hnone
    · rw [e]
      exact hb.inline fun hp => hclean hp.1
  · intro i s d hs hnode _
    rcases hstood hs hnode with ⟨d', hd', rfl⟩ | ⟨hs₀, hnode₀, hp⟩
    · exact hb.cached hd'
    · exact hb.slot hs₀ hnode₀ hp
  · intro i h1 hjoin _
    by_cases hlt : i < m.length
    · have hp : ¬ (1 ≤ i ∧ Pending f i) := by
        rintro ⟨-, hdirty, hc⟩
        obtain ⟨d', hd'⟩ := Option.ne_none_iff_exists'.mp hc
        obtain ⟨s', hs', -⟩ := hslots.stored i d' h1 hdirty hd' hlt
        rw [hs'] at hjoin
        cases hjoin
      refine hb.gap h1 ?_ fun hpend => hp ⟨h1, hpend⟩
      rw [← hslots.others i hlt hp]
      exact hjoin
    · by_cases hlt₀ : i < f.slotMap.length
      · have hi : ¬ i < chunkCount f.totalSize := by unfold chunkLimit at hlen; omega
        rw [lt_chunkCount, not_lt] at hi
        exact ⟨by simp, fun off _ => hA _ (by omega)⟩
      · refine hb.gap h1 (by rw [List.getElem?_eq_none (by omega)]; rfl) fun hp => ?_
        obtain ⟨d', hd'⟩ := Option.ne_none_iff_exists'.mp hp.2
        exact hlt₀ (hb.cachedLt hd').1
  · intro i s d hs hnode
    rcases hstood hs hnode with ⟨d', hd', rfl⟩ | ⟨hs₀, hnode₀, -⟩
    · exact (hb.cached hd').1
    · exact hb.slotLen hs₀ hnode₀

/-- A handle with nothing left to write. -/
structure Clean (f : OpenFile) : Prop where
  dirty : ∀ i, i ∉ f.dirty
  metaDirty : f.metaDirty = false

/-- What a flush leaves unchanged in a handle. -/
structure FlushKeeps (f f' : OpenFile) : Prop where
  ino : f'.ino = f.ino
  headSlot : f'.headSlot = f.headSlot
  totalSize : f'.totalSize = f.totalSize
  cache : f'.cache = f.cache

omit [NodeStore σ] [LawfulNodeStore σ] in
/-- Below the end of the file a flush gives every chunk it has bytes for a slot. -/
theorem SlotsFlushed.occupied {A : Content} {lim keep : Nat} {c c' : σ} {f f' : OpenFile}
    {fb : FileBlock} (h : SlotsFlushed keep c f c' f') (hb : Backed A lim c f fb) {i : Nat}
    (h1 : 1 ≤ i) (hi : i < keep) : f'.slotMap[i]?.join ≠ none ↔ Occupied f i := by
  have hlen := h.length
  by_cases hlt : i < f'.slotMap.length
  · by_cases hp : Pending f i
    · obtain ⟨d, hd⟩ := Option.ne_none_iff_exists'.mp hp.2
      obtain ⟨s, hs, -⟩ := h.stored i d h1 hp.1 hd hlt
      exact ⟨fun _ => .inr hp, fun _ => by simp [hs]⟩
    · rw [h.others i hlt fun hp' => hp hp'.2]
      exact ⟨.inl, fun ho => ho.resolve_right hp⟩
  · have hnone : ∀ {m : List (Option Nat)}, m.length ≤ i → m[i]?.join = none := fun hm => by
      rw [List.getElem?_eq_none hm]; rfl
    refine ⟨fun hn => absurd (hnone (by omega)) hn, fun ho => ?_⟩
    rcases ho with hn | hp
    · exact absurd (hnone (by omega)) hn
    · obtain ⟨d, hd⟩ := Option.ne_none_iff_exists'.mp hp.2
      have := (hb.cachedLt hd).1
      omega

theorem flush_ok {A : Content} {h h' : Handle σ} {fb : FileBlock} {ids chain : List Nat}
    {ord : IterOrder Nat} (hok : OpenOk A (chunkLimit h.file.totalSize) h fb ids chain)
    (hA : ∀ p, h.file.totalSize ≤ p → A p none) (hrun : (flushHandle ord).run h = .ok () h') :
    ∃ fb' ids' chain', OpenOk A (chunkLimit h.file.totalSize) h' fb' ids' chain' ∧
      Clean h'.file ∧ FlushKeeps h.file h'.file ∧
      Moves h.container h'.container (ownedSlots h.file chain) (ownedSlots h'.file chain') ∧
      (∀ i, 1 ≤ i → i < chunkLimit h.file.totalSize →
        (h'.file.slotMap[i]?.join ≠ none ↔ Occupied h.file i)) ∧
      (h.file.metaDirty = true → fb'.data = inlineData h.file fb) := by
  obtain ⟨c, f⟩ := h
  rcases flushHandle_ok hok.handle hrun with ⟨rfl, hd, hm⟩ | ⟨fb', ids', chain', hh, hfl, hsl, hmv⟩
  · refine ⟨fb, ids, chain, hok, ⟨hd, hm⟩, ⟨rfl, rfl, rfl, rfl⟩, .refl _ _, fun i _ _ => ?_, ?_⟩
    · exact ⟨.inl, fun ho => ho.resolve_right fun hp => hd i hp.1⟩
    · rintro e
      rw [hm] at e
      cases e
  · refine ⟨fb', ids', chain',
      ⟨hh, hfl.backed hsl hok.backed hok.handle.mapHead le_rfl hA⟩, ?_, ?_, hmv,
      fun i h1 hi => hsl.occupied hok.backed h1 hi, fun hm => ?_⟩
    · obtain ⟨m, x, e⟩ := hfl.file
      exact ⟨fun i => by rw [e]; exact HashSet.not_mem_empty i, by rw [e]⟩
    · obtain ⟨m, x, e⟩ := hfl.file
      rw [e]
      exact ⟨rfl, rfl, rfl, rfl⟩
    · rcases hfl.inline with e | ⟨-, e, -⟩
      · exact e
      · rw [hm] at e
        cases e

/-! ## Resizing -/

/-- The last chunk of a file. -/
def lastChunk (n : Nat) : Nat := if n = 0 then 0 else (n - 1) / chunkSize

theorem lastChunk_lt (n : Nat) : lastChunk n < chunkLimit n := by
  unfold lastChunk chunkLimit
  split
  next => omega
  next h => exact lt_of_lt_of_le (div_lt_chunkCount (by omega)) (le_max_left _ _)

/-- How a truncation changes what is known. A cached last chunk is cut; the chunks behind
    it are no longer known, and an uncached one stays as it was. -/
structure Truncates (A A' : Content) (newSize : Nat) (cut : Bool) : Prop where
  kept : ∀ p b, A p b → p < newSize ∨ p / chunkSize ≠ lastChunk newSize ∨ cut = false →
    p / chunkSize ≤ lastChunk newSize → A' p b
  cutOff : ∀ p, newSize ≤ p → p / chunkSize = lastChunk newSize → A' p none
  behind : ∀ p b, lastChunk newSize < p / chunkSize → A' p b

/-- Truncation cuts what is kept of a chunk only if the cached copy is written back. -/
def cutsLast (newSize : Nat) (f : OpenFile) : Bool :=
  decide (0 < newSize) && (f.cache.get (lastChunk newSize)).isSome

omit [NodeStore σ] [LawfulNodeStore σ] in
theorem HandleOk.resized {c : σ} {f : OpenFile} {fb : FileBlock} {ids chain : List Nat}
    {n : Nat} {m : HashMap Nat (List UInt8)} {ds : HashSet Nat} (h : HandleOk c f fb ids chain) :
    HandleOk c { f with totalSize := n, cache := m, dirty := ds, metaDirty := true }
      fb ids chain :=
  ⟨h.head, h.chainEq, h.index, h.mapHead, h.accounts, h.data, nofun, nofun⟩

theorem lastSize_eq (newSize : Nat) :
    (if newSize = 0 then 0 else (chunkActualSize (lastChunk newSize) newSize).getD 0) =
      newSize - lastChunk newSize * chunkSize := by
  unfold lastChunk
  split
  next h => simp [h]
  next h =>
    have hsplit := chunk_split (newSize - 1)
    have hmod := Nat.mod_lt (newSize - 1) chunkSize_pos
    rw [chunkActualSize, if_neg (by omega), Option.getD_some, Nat.min_eq_left (by omega)]

/-- The cache after a truncation. -/
theorem truncateFile_get (newSize : Nat) (f : OpenFile) (i : Nat) :
    (truncateFile newSize f).cache.get i =
      if i < lastChunk newSize then f.cache.get i
      else if i = lastChunk newSize then
        (f.cache.get i).map (List.take (newSize - lastChunk newSize * chunkSize))
      else none := by
  have hget : ∀ k, (f.cache.retain fun k _ => decide (k ≤ lastChunk newSize)).get k =
      if k ≤ lastChunk newSize then f.cache.get k else none := fun k => by
    rw [HashMap.get_retain_keys]; simp
  unfold truncateFile
  rw [show (if newSize = 0 then 0 else (newSize - 1) / chunkSize) = lastChunk newSize from rfl]
  dsimp only
  rw [lastSize_eq]
  split
  next v hv =>
    rw [hget, if_pos le_rfl] at hv
    rw [HashMap.get_insert, hget]
    rcases Nat.lt_trichotomy i (lastChunk newSize) with hlt | rfl | hgt
    · rw [if_neg hlt.ne, if_pos hlt.le, if_pos hlt]
    · rw [if_pos rfl, if_neg (Nat.lt_irrefl _), if_pos rfl, hv]; rfl
    · rw [if_neg hgt.ne', if_neg (by omega), if_neg (by omega), if_neg hgt.ne']
  next hv =>
    rw [hget, if_pos le_rfl] at hv
    rw [hget]
    rcases Nat.lt_trichotomy i (lastChunk newSize) with hlt | rfl | hgt
    · rw [if_pos hlt.le, if_pos hlt]
    · rw [if_pos le_rfl, if_neg (Nat.lt_irrefl _), if_pos rfl, hv]; rfl
    · rw [if_neg (by omega), if_neg (by omega), if_neg hgt.ne']

theorem truncateFile_dirty (newSize : Nat) (f : OpenFile) (i : Nat) :
    i ∈ (truncateFile newSize f).dirty ↔
      (i ∈ f.dirty ∧ i ≤ lastChunk newSize) ∨ (0 < newSize ∧ i = lastChunk newSize) := by
  have : (if newSize = 0 then 0 else (newSize - 1) / chunkSize) = lastChunk newSize := rfl
  unfold truncateFile
  dsimp only
  rw [this]
  split <;> simp [*, or_comm]

theorem truncateFile_pending {newSize : Nat} {f : OpenFile} {i : Nat}
    (h : i ≤ lastChunk newSize) (hn : ¬ Pending (truncateFile newSize f) i) :
    ¬ Pending f i ∧ (i = lastChunk newSize → cutsLast newSize f = false) := by
  have hget := truncateFile_get newSize f i
  have hcached : (truncateFile newSize f).cache.get i = none ↔ f.cache.get i = none := by
    rw [hget]
    split
    · rfl
    · rw [if_pos (by omega), Option.map_eq_none_iff]
  refine ⟨fun ⟨hd, hc⟩ => hn ⟨(truncateFile_dirty ..).mpr (.inl ⟨hd, h⟩), by rwa [Ne, hcached]⟩,
    fun e => ?_⟩
  by_contra hcut
  obtain ⟨hpos, hsome⟩ : 0 < newSize ∧ f.cache.get (lastChunk newSize) ≠ none := by
    simpa [cutsLast] using hcut
  exact hn ⟨(truncateFile_dirty ..).mpr (.inr ⟨hpos, e⟩), by rwa [Ne, hcached, e]⟩

omit [NodeStore σ] [LawfulNodeStore σ] in
/-- Truncation in memory. -/
theorem truncateFile_ok {A A' : Content} {lim newSize : Nat} {c : σ} {f : OpenFile}
    {fb : FileBlock} {ids chain : List Nat} (hok : OpenOk A lim ⟨c, f⟩ fb ids chain)
    (htr : Truncates A A' newSize (cutsLast newSize f)) :
    OpenOk A' (chunkLimit newSize)
      ⟨c, { truncateFile newSize f with totalSize := newSize, metaDirty := true }⟩
      fb ids chain := by
  obtain ⟨hh, hb⟩ := hok
  have hdirty : (truncateFile newSize f).dirty = (truncateFile newSize f).dirty := rfl
  have hbehind : ∀ {i d}, lastChunk newSize < i → d.length ≤ chunkSize → Shows A' i d :=
    fun hi hd => ⟨hd, fun off hoff => htr.behind _ _ (by rwa [div_chunk hoff])⟩
  -- a place that was not cut shows what it showed
  have hkept : ∀ {i d}, i ≤ lastChunk newSize →
      (i = lastChunk newSize → cutsLast newSize f = false) → Shows A i d → Shows A' i d := by
    intro i d hi hcut hd
    refine hd.mono fun off b hoff ha => htr.kept _ _ ha (.inr ?_) ?_
    · rw [div_chunk hoff]
      exact or_iff_not_imp_left.mpr fun e => hcut (not_not.mp e)
    · rwa [div_chunk hoff]
  refine ⟨hh.resized, ⟨fun {i d} hd => ?_, fun {i d} hd => ?_, fun hn => ?_, ?_, ?_, hb.slotLen⟩⟩
  · change (truncateFile newSize f).cache.get i = some d at hd
    rw [truncateFile_get] at hd
    split at hd
    next hlt => exact hkept hlt.le (fun e => absurd e hlt.ne) (hb.cached hd)
    next =>
      split at hd
      next e =>
        subst e
        obtain ⟨d₀, hd₀, rfl⟩ := Option.map_eq_some_iff.mp hd
        obtain ⟨hlen, hshows⟩ := hb.cached hd₀
        refine ⟨(List.length_take_le' ..).trans hlen, fun off hoff => ?_⟩
        by_cases hlt : off < newSize - lastChunk newSize * chunkSize
        · rw [List.getElem?_take_of_lt hlt]
          exact htr.kept _ _ (hshows off hoff) (.inl (by omega)) (by rw [div_chunk hoff])
        · rw [List.getElem?_eq_none (by rw [List.length_take]; omega)]
          exact htr.cutOff _ (by omega) (div_chunk hoff)
      next => cases hd
  · change (truncateFile newSize f).cache.get i = some d at hd
    rw [truncateFile_get] at hd
    have hlt := lastChunk_lt newSize
    split at hd
    next hi => exact ⟨(hb.cachedLt hd).1, by omega⟩
    next =>
      split at hd
      next e =>
        obtain ⟨d₀, hd₀, -⟩ := Option.map_eq_some_iff.mp hd
        exact ⟨(hb.cachedLt hd₀).1, by omega⟩
      next => cases hd
  · obtain ⟨hp, hcut⟩ := truncateFile_pending (Nat.zero_le _) hn
    exact hkept (Nat.zero_le _) hcut (hb.inline hp)
  · intro i s d hs hnode hn
    by_cases hi : i ≤ lastChunk newSize
    · obtain ⟨hp, hcut⟩ := truncateFile_pending hi hn
      exact hkept hi hcut (hb.slot hs hnode hp)
    · exact hbehind (by omega) (hb.slotLen hs hnode)
  · intro i h1 hs hn
    by_cases hi : i ≤ lastChunk newSize
    · obtain ⟨hp, hcut⟩ := truncateFile_pending hi hn
      exact hkept hi hcut (hb.gap h1 hs hp)
    · exact hbehind (by omega) (by simp)

omit [NodeStore σ] [LawfulNodeStore σ] in
/-- Growing a file in memory changes no bytes. -/
theorem growFile_ok {A : Content} {newSize : Nat} {c : σ} {f : OpenFile} {fb : FileBlock}
    {ids chain : List Nat} (hok : OpenOk A (chunkLimit f.totalSize) ⟨c, f⟩ fb ids chain)
    (hle : f.totalSize ≤ newSize) :
    OpenOk A (chunkLimit newSize) ⟨c, { f with totalSize := newSize, metaDirty := true }⟩
      fb ids chain := by
  obtain ⟨hh, hb⟩ := hok
  have hb' := hb.mono (fun _ _ => id) (chunkLimit_mono hle)
  exact ⟨hh.resized, ⟨hb'.cached, hb'.cachedLt, hb'.inline, hb'.slot, hb'.gap, hb'.slotLen⟩⟩

/-! ## Reopening -/

/-- The handle an open makes of a head and the ids of its index chain. -/
def reopened (ino head : Nat) (fb : FileBlock) (ids : List Nat) : OpenFile :=
  openedFile ino head fb.totalSize fb.indexChain (none :: (fb.dataSlots ++ ids).map some) fb.data

theorem openedFile_get {ino head totalSize : Nat} {indexChain : Option Nat}
    {slotMap : List (Option Nat)} {chunk0 d : List UInt8} {i : Nat}
    (h : (openedFile ino head totalSize indexChain slotMap chunk0).cache.get i = some d) :
    i = 0 ∧ d = chunk0 := by
  unfold openedFile at h
  dsimp only at h
  split at h
  · simp at h
  · rw [HashMap.get_insert] at h
    split at h
    next e => exact ⟨e, (Option.some.inj h).symm⟩
    next => simp at h

theorem not_pending_of_clean {f : OpenFile} (h : Clean f) (i : Nat) : ¬ Pending f i := fun hp =>
  h.dirty i hp.1

theorem reopened_clean (ino head : Nat) (fb : FileBlock) (ids : List Nat) :
    Clean (reopened ino head fb ids) := ⟨fun i => HashSet.not_mem_empty i, rfl⟩

omit [NodeStore σ] [LawfulNodeStore σ] in
theorem HandleOk.reopened_slots {c : σ} {f : OpenFile} {fb : FileBlock} {ids chain : List Nat}
    {ino : Nat} (h : HandleOk c f fb ids chain) (hclean : Clean f) :
    (reopened ino f.headSlot fb ids).slotMap.reduceOption = f.slotMap.reduceOption := by
  rw [← (h.clean hclean.metaDirty).2]
  simp only [reopened, openedFile]
  rw [List.reduceOption_cons_of_none, reduceOption_map_some]

omit [NodeStore σ] [LawfulNodeStore σ] in
/-- What a clean handle leaves on the disk opens consistently. -/
theorem HandleOk.reopen {c : σ} {f : OpenFile} {fb : FileBlock} {ids chain : List Nat} {ino : Nat}
    (h : HandleOk c f fb ids chain) (hclean : Clean f) :
    HandleOk c (reopened ino f.headSlot fb ids) fb ids chain := by
  have hred : (reopened ino f.headSlot fb ids).slotMap.reduceOption = f.slotMap.reduceOption :=
    h.reopened_slots hclean
  refine ⟨h.head, rfl, ?_, rfl, ?_, ?_, fun _ => ⟨rfl, ?_⟩, fun _ => ?_⟩
  · change IndexChain (nodes c) fb.indexChain ids chain
    rw [h.chainEq]
    exact h.index
  · unfold ownedSlots
    rw [hred]
    exact h.accounts
  · rw [hred]; exact h.data
  · rw [hred]; exact (h.clean hclean.metaDirty).2
  · have hlen := h.trimmed hclean.metaDirty
    have hle := List.reduceOption_length_le (f.slotMap.drop 1)
    have hpos := (List.getElem?_eq_some_iff.mp h.mapHead).1
    rw [reduceOption_drop_one h.mapHead, List.length_drop] at hle
    change (none :: (fb.dataSlots ++ ids).map some).length ≤ chunkLimit fb.totalSize
    rw [(h.clean hclean.metaDirty).1, (h.clean hclean.metaDirty).2, List.length_cons,
      List.length_map]
    omega

theorem reopened_slotMap_succ {ino head : Nat} {fb : FileBlock} {ids : List Nat} {i : Nat} :
    (reopened ino head fb ids).slotMap[i + 1]? = (fb.dataSlots ++ ids)[i]?.map some := by
  simp only [reopened, openedFile]
  rw [List.getElem?_cons_succ, List.getElem?_map]

omit [NodeStore σ] [LawfulNodeStore σ] in
/-- A slot below which no chunk is missing comes back at its index. -/
theorem HandleOk.reopened_at {c : σ} {f : OpenFile} {fb : FileBlock} {ids chain : List Nat}
    {ino i : Nat} (h : HandleOk c f fb ids chain) (hclean : Clean f) (h1 : 1 ≤ i)
    (hfull : ∀ j, 1 ≤ j → j ≤ i → f.slotMap[j]?.join ≠ none) :
    (reopened ino f.headSlot fb ids).slotMap[i]?.join = f.slotMap[i]?.join := by
  obtain ⟨k, rfl⟩ : ∃ k, i = k + 1 := ⟨i - 1, by omega⟩
  have hdrop := getElem?_reduceOption_full (l := f.slotMap.drop 1) (i := k) fun j hj => by
    rw [List.getElem?_drop]
    exact hfull (1 + j) (by omega) (by omega)
  rw [reduceOption_drop_one h.mapHead, List.getElem?_drop, Nat.add_comm] at hdrop
  rw [reopened_slotMap_succ, (h.clean hclean.metaDirty).2, hdrop]
  cases f.slotMap[k + 1]?.join <;> rfl

omit [LawfulNodeStore σ] in
omit [NodeStore σ] in
/-- A slot above a missing chunk does not. -/
theorem HandleOk.reopened_moved {c : σ} {f : OpenFile} {fb : FileBlock} {ids chain : List Nat}
    {ino i j s : Nat} (h : HandleOk c f fb ids chain) (hclean : Clean f) (h1 : 1 ≤ j) (hj : j < i)
    (hhole : f.slotMap[j]?.join = none) (hs : f.slotMap[i]? = some (some s)) :
    (reopened ino f.headSlot fb ids).slotMap[i]?.join ≠ some s := by
  intro hsame
  obtain ⟨k, rfl⟩ : ∃ k, i = k + 1 := ⟨i - 1, by omega⟩
  have hlt := (List.getElem?_eq_some_iff.mp hs).1
  -- its place in the head is the number of slots in front of it
  have hat : f.slotMap.reduceOption[k]? = some s := by
    rw [reopened_slotMap_succ, (h.clean hclean.metaDirty).2] at hsame
    cases hk : f.slotMap.reduceOption[k]? with
    | none => rw [hk] at hsame; cases hsame
    | some t => rw [hk] at hsame; exact hsame
  have hplace := getElem?_reduceOption (l := f.slotMap.drop 1) (i := k)
    (by rw [List.getElem?_drop, Nat.add_comm]; exact hs)
  rw [reduceOption_drop_one h.mapHead] at hplace
  have hnd : f.slotMap.reduceOption.Nodup := (List.nodup_append.mp h.accounts.nodup_own).1
  have hmem : none ∈ (f.slotMap.drop 1).take k := by
    refine List.mem_iff_getElem?.mpr ⟨j - 1, ?_⟩
    rw [List.getElem?_take_of_lt (by omega), List.getElem?_drop, show 1 + (j - 1) = j by omega]
    have hjlt : j < f.slotMap.length := by omega
    rw [List.getElem?_eq_getElem hjlt] at hhole ⊢
    exact congrArg some hhole
  have hshort := List.reduceOption_length_lt_iff.mpr hmem
  rw [List.length_take, List.length_drop, Nat.min_eq_left (by omega)] at hshort
  have := (List.getElem?_inj (List.getElem?_eq_some_iff.mp hplace).1 hnd).mp
    (hplace.trans hat.symm)
  omega

omit [NodeStore σ] [LawfulNodeStore σ] in
/-- It shows what the clean handle showed, wherever the new slot map agrees with the old. -/
theorem Backed.reopen {A : Content} {lim : Nat} {c : σ} {f : OpenFile} {fb : FileBlock}
    {ids chain : List Nat} {ino : Nat} (hb : Backed A lim c f fb) (h : HandleOk c f fb ids chain)
    (hclean : Clean f)
    (hmap : ∀ i, 1 ≤ i → (reopened ino f.headSlot fb ids).slotMap[i]?.join = f.slotMap[i]?.join ∨
      ∀ off b, off < chunkSize → A (i * chunkSize + off) b) :
    Backed A (chunkLimit fb.totalSize) c (reopened ino f.headSlot fb ids) fb := by
  have hinline := hb.inline (not_pending_of_clean hclean 0)
  have hred : (reopened ino f.headSlot fb ids).slotMap.reduceOption = f.slotMap.reduceOption :=
    h.reopened_slots hclean
  have hlen : ∀ {i s : Nat} {d}, (reopened ino f.headSlot fb ids).slotMap[i]? = some (some s) →
      nodes c s = some (.fileData d) → d.data.length ≤ chunkSize := by
    intro i s d hs hnode
    obtain ⟨j, hj⟩ := exists_getElem? (hred ▸ mem_of_getElem? hs)
    exact hb.slotLen hj hnode
  refine ⟨fun hd => ?_, fun hd => ?_, fun _ => hinline, ?_, ?_, hlen⟩
  · obtain ⟨rfl, rfl⟩ := openedFile_get hd
    exact hinline
  · obtain ⟨rfl, rfl⟩ := openedFile_get hd
    exact ⟨by simp [reopened, openedFile], by unfold chunkLimit; omega⟩
  · intro i s d hs hnode _
    have h1 : 1 ≤ i := by
      by_contra hi
      obtain rfl : i = 0 := by omega
      cases hs
    rcases hmap i h1 with hsame | htriv
    · rw [hs] at hsame
      refine hb.slot ?_ hnode (not_pending_of_clean hclean i)
      exact Option.join_eq_some_iff.mp hsame.symm
    · exact ⟨hlen hs hnode, fun off hoff => htriv off _ hoff⟩
  · intro i h1 hs _
    rcases hmap i h1 with hsame | htriv
    · exact hb.gap h1 (hsame.symm.trans hs) (not_pending_of_clean hclean i)
    · exact ⟨by simp, fun off hoff => htriv off _ hoff⟩

/-- No chunk is missing below a chunk that has a slot. -/
def HoleFree (f : OpenFile) : Prop :=
  ∀ i j, 1 ≤ j → j < i → f.slotMap[i]?.join ≠ none → f.slotMap[j]?.join ≠ none

omit [NodeStore σ] [LawfulNodeStore σ] in
/-- Without holes all positions come back. -/
theorem HandleOk.reopened_holeFree {c : σ} {f : OpenFile} {fb : FileBlock} {ids chain : List Nat}
    {ino i : Nat} (h : HandleOk c f fb ids chain) (hclean : Clean f) (hfree : HoleFree f)
    (h1 : 1 ≤ i) : (reopened ino f.headSlot fb ids).slotMap[i]?.join = f.slotMap[i]?.join := by
  have hat : ∀ j, 1 ≤ j → f.slotMap[j]?.join ≠ none →
      (reopened ino f.headSlot fb ids).slotMap[j]?.join = f.slotMap[j]?.join :=
    fun j hj hsome => h.reopened_at hclean hj fun k hk hkj => by
      rcases Nat.lt_or_eq_of_le hkj with hlt | rfl
      · exact hfree j k hk hlt hsome
      · exact hsome
  by_cases hi : f.slotMap[i]?.join = none
  · by_contra hne
    rw [hi] at hne
    obtain ⟨s, hs⟩ := Option.ne_none_iff_exists'.mp hne
    -- the slot stands elsewhere in the old map, and came back there too
    have hs' := Option.join_eq_some_iff.mp hs
    obtain ⟨j, hj⟩ := exists_getElem? (h.reopened_slots hclean ▸ mem_of_getElem? hs')
    have h1j : 1 ≤ j := by
      by_contra hlt
      obtain rfl : j = 0 := by omega
      rw [h.mapHead] at hj
      cases hj
    have hj' := hat j h1j (by rw [hj]; simp)
    rw [hj] at hj'
    have hnd : (reopened ino f.headSlot fb ids).slotMap.reduceOption.Nodup := by
      rw [h.reopened_slots hclean]
      exact (List.nodup_append.mp h.accounts.nodup_own).1
    obtain rfl := index_unique hnd hs' (Option.join_eq_some_iff.mp hj')
    rw [hj] at hi
    cases hi
  · exact hat i h1 hi

/-! ## Statements about one chunk -/

omit [NodeStore σ] [LawfulNodeStore σ] in
/-- What is known of chunk `i` alone has to be checked in the places of that chunk only. -/
theorem OpenOk.only {A : Content} {lim i : Nat} {h : Handle σ} {fb : FileBlock}
    {ids chain : List Nat} (hok : OpenOk Anything lim h fb ids chain)
    (hA : ∀ q b, q / chunkSize ≠ i → A q b)
    (hcached : ∀ d, h.file.cache.get i = some d → Shows A i d)
    (hinline : i = 0 → ¬ Pending h.file 0 → Shows A 0 fb.data)
    (hslot : ∀ s d, h.file.slotMap[i]? = some (some s) →
      nodes h.container s = some (.fileData d) → ¬ Pending h.file i → Shows A i d.data)
    (hgap : Shows A i []) : OpenOk A lim h fb ids chain := by
  obtain ⟨hh, hb⟩ := hok
  have hother : ∀ {j d}, j ≠ i → Shows Anything j d → Shows A j d := fun hne hd =>
    hd.mono fun off b hoff _ => hA _ b (by rwa [div_chunk hoff])
  refine ⟨hh, ⟨fun {j d} hd => ?_, hb.cachedLt, fun hn => ?_, fun {j s d} hs hnode hn => ?_,
    fun {j} h1 hs hn => ?_, hb.slotLen⟩⟩
  · by_cases e : j = i
    · subst e; exact hcached d hd
    · exact hother e (hb.cached hd)
  · by_cases e : 0 = i
    · exact hinline e.symm hn
    · exact hother e (hb.inline hn)
  · by_cases e : j = i
    · subst e; exact hslot s d hs hnode hn
    · exact hother e (hb.slot hs hnode hn)
  · by_cases e : j = i
    · subst e; exact hgap
    · exact hother e (hb.gap h1 hs hn)

end Venom.Fuse
