import Venom.Fuse.IndexChain
import Venom.Library.OptionLists

/-! # What a flush does

A flush stores the dirty continuation chunks, frees the slots past the end of the file
and rewrites the head with its index chain.  Each step has its own description;
`flushHandle_ok` puts them together: the handle stays consistent with the disk
(`HandleOk`), the owned slots are accounted for, and every chunk is where the slot map
says, with the bytes of the cache if it was dirty and its old bytes otherwise
(`Flushed`).
-/

namespace Venom.Fuse

open Venom.Storage
open Venom.Library
open Venom.Library.StateError
open Venom.Library.OptionLists

variable {σ : Type} [NodeStore σ] [NodeView σ]

/-- The slots a handle uses: its continuation slots, its head and its index chain. -/
def ownedSlots (f : OpenFile) (chain : List Nat) : List Nat :=
  f.slotMap.reduceOption ++ f.headSlot :: chain

/-! ## Step 1: storing chunks -/

/-- The chunks `done` have been stored, starting from `c₀` and `f₀`. -/
structure StoredChunks (c₀ : σ) (f₀ : OpenFile) (own : List Nat) (done : List Nat) (c : σ)
    (f : OpenFile) : Prop where
  moves : Moves c₀ c (f₀.slotMap.reduceOption ++ own) (f.slotMap.reduceOption ++ own)
  length : f.slotMap.length = f₀.slotMap.length
  kept : ∀ (i : Nat) s, f₀.slotMap[i]? = some (some s) → f.slotMap[i]? = some (some s)
  others : ∀ i : Nat, i ∉ done ∨ f₀.cache.get i = none → f.slotMap[i]? = f₀.slotMap[i]?
  stored : ∀ i ∈ done, ∀ d, f₀.cache.get i = some d → i < f₀.slotMap.length →
    ∃ s, f.slotMap[i]? = some (some s) ∧ nodes c s = some (dataNode d)
  agree : ∀ t, IsDataSlot c₀ t →
    (∀ i ∈ done, f₀.cache.get i ≠ none → f.slotMap[i]? ≠ some (some t)) →
    nodes c t = nodes c₀ t
  metaKept : f.metaDirty = false → f₀.metaDirty = false ∧ f.slotMap = f₀.slotMap
  metaMono : f₀.metaDirty = true → f.metaDirty = true

namespace StoredChunks

variable {c₀ c c' : σ} {f₀ f f' : OpenFile} {own done : List Nat}

theorem refl (c : σ) (f : OpenFile) (own : List Nat) : StoredChunks c f own [] c f :=
  ⟨.refl c _, rfl, fun _ _ h => h, fun _ _ => rfl, by simp, fun _ _ _ => rfl,
   fun h => ⟨h, rfl⟩, fun h => h⟩

/-- One more chunk, whose cached bytes nothing has changed so far. -/
theorem snoc {ci : Nat} (h : StoredChunks c₀ f₀ own done c f)
    (h' : StoredChunks c f own [ci] c' f') (hci : f.cache.get ci = f₀.cache.get ci)
    (ha : Accounts c₀ (f₀.slotMap.reduceOption ++ own)) :
    StoredChunks c₀ f₀ own (done ++ [ci]) c' f' := by
  have ha₁ := h.moves.accounts ha
  have hnd : f'.slotMap.reduceOption.Nodup :=
    (List.nodup_append.mp (h'.moves.accounts ha₁).nodup_own).1
  refine ⟨h.moves.trans h'.moves, h'.length.trans h.length,
    fun i s hs => h'.kept i s (h.kept i s hs), ?_, ?_, ?_, ?_, fun hm => h'.metaMono (h.metaMono hm)⟩
  · intro i hi
    have hi' : i ∉ [ci] ∨ f.cache.get i = none := by
      by_cases hic : i = ci
      · subst hic; exact hi.imp (fun hn => absurd (by simp) hn) (fun hn => hci.trans hn)
      · exact .inl (by simpa using hic)
    rw [h'.others i hi', h.others i (hi.imp_left fun hn hm => hn (List.mem_append_left _ hm))]
  · intro i hi d hd hlt
    by_cases hic : i = ci
    · subst hic
      exact h'.stored i (by simp) d (hci.trans hd) (by rw [h.length]; exact hlt)
    · have hdone : i ∈ done := by simpa [hic] using hi
      obtain ⟨s, hs, hnode⟩ := h.stored i hdone d hd hlt
      have hs' := h'.kept i s hs
      refine ⟨s, hs', ?_⟩
      rw [h'.agree s (ha₁.isDataSlot (List.mem_append_left _ (mem_of_getElem? hs))) ?_, hnode]
      intro j hj _ hsj
      obtain rfl : j = ci := by simpa using hj
      exact hic (index_unique hnd hs' hsj)
  · intro t ht hout
    rw [h'.agree t (h.moves.same.isDataSlot.mpr ht), h.agree t ht]
    · exact fun i hi hc hs => hout i (by simp [hi]) hc (h'.kept i t hs)
    · intro i hi hc hs
      obtain rfl : i = ci := by simpa using hi
      exact hout i (by simp) (by rwa [← hci]) hs
  · intro hm
    obtain ⟨hm₁, hs₁⟩ := h'.metaKept hm
    obtain ⟨hm₀, hs₀⟩ := h.metaKept hm₁
    exact ⟨hm₀, hs₁.trans hs₀⟩

end StoredChunks

namespace StoredChunks

variable {c₀ c : σ} {f₀ f : OpenFile} {own done : List Nat}

theorem nodup (h : StoredChunks c₀ f₀ own done c f)
    (ha : Accounts c₀ (f₀.slotMap.reduceOption ++ own)) : f.slotMap.reduceOption.Nodup :=
  (List.nodup_append.mp (h.moves.accounts ha).nodup_own).1

/-- The slot of a chunk that was not stored still holds what it held. -/
theorem unstored (h : StoredChunks c₀ f₀ own done c f)
    (ha : Accounts c₀ (f₀.slotMap.reduceOption ++ own)) {i s : Nat}
    (hi : i ∉ done ∨ f₀.cache.get i = none) (hs : f.slotMap[i]? = some (some s)) :
    nodes c s = nodes c₀ s := by
  have hd := (h.moves.accounts ha).isDataSlot (List.mem_append_left _ (mem_of_getElem? hs))
  refine h.agree s (h.moves.same.isDataSlot.mp hd) fun j hj hc hsj => ?_
  obtain rfl := index_unique (h.nodup ha) hs hsj
  exact hi.elim (fun hn => hn hj) hc

/-- So do the slots outside the slot map. -/
theorem own_agree (h : StoredChunks c₀ f₀ own done c f)
    (ha : Accounts c₀ (f₀.slotMap.reduceOption ++ own)) {t : Nat} (ht : t ∈ own) :
    t ∉ f.slotMap.reduceOption ∧ nodes c t = nodes c₀ t := by
  have hnot : t ∉ f.slotMap.reduceOption := fun hm =>
    (List.nodup_append.mp (h.moves.accounts ha).nodup_own).2.2 t hm t ht rfl
  exact ⟨hnot, h.agree t (ha.isDataSlot (List.mem_append_right _ ht))
    fun i _ _ hs => hnot (mem_of_getElem? hs)⟩

end StoredChunks

variable [LawfulNodeStore σ]

theorem storeChunk_ok {c : σ} {f : OpenFile} {h' : Handle σ} {ci : Nat} {own : List Nat}
    (hrun : (storeChunk ci).run ⟨c, f⟩ = .ok () h')
    (ha : Accounts c (f.slotMap.reduceOption ++ own)) :
    StoredChunks c f own [ci] h'.container h'.file ∧
      ∃ m b, h'.file = { f with slotMap := m, metaDirty := b } := by
  obtain ⟨_, _, hget, hcont⟩ := run_bind_ok.mp hrun
  cases hget
  dsimp only at hcont
  split at hcont
  next hnone =>
    cases hcont
    refine ⟨⟨.refl c _, rfl, fun _ _ h => h, fun _ _ => rfl, ?_, fun _ _ _ => rfl,
      fun h => ⟨h, rfl⟩, fun h => h⟩, _, _, rfl⟩
    intro i hi d hd
    obtain rfl : i = ci := by simpa using hi
    rw [hnone] at hd; cases hd
  next data hdata =>
    split at hcont
    next slotId hslot =>
      obtain ⟨c', hupd, rfl⟩ := onContainer_ok.mp hcont
      have hmem := mem_of_getElem? hslot
      obtain ⟨hstored, hmoves, -⟩ := updateNode_inv hupd ha (List.mem_append_left _ hmem)
      refine ⟨⟨hmoves, rfl, fun _ _ h => h, fun _ _ => rfl, ?_, ?_, fun h => ⟨h, rfl⟩,
        fun h => h⟩, _, _, rfl⟩
      · intro i hi d hd _
        obtain rfl : i = ci := by simpa using hi
        obtain rfl : data = d := Option.some.inj (hdata.symm.trans hd)
        exact ⟨slotId, hslot, hstored.node⟩
      · exact fun t ht hout => hstored.others t ht
          fun e => hout ci (by simp) (by simp [hdata]) (e ▸ hslot)
    next hslot =>
      obtain ⟨newSlot, h₁, hw, hmod⟩ := run_bind_ok.mp hcont
      obtain ⟨c', hwrite, rfl⟩ := onContainer_ok.mp hw
      rw [modifyFile_ok] at hmod
      subst hmod
      obtain ⟨hstored, hmoves, -⟩ := writeNode_inv hwrite ha
      have hlt : ci < f.slotMap.length := (List.getElem?_eq_some_iff.mp hslot).1
      have hset : (f.slotMap.set ci (some newSlot))[ci]? = some (some newSlot) :=
        List.getElem?_set_self hlt
      refine ⟨⟨?_, by simp [assignSlot], ?_, ?_, ?_, ?_, by simp [assignSlot], fun _ => rfl⟩, _, _, rfl⟩
      · refine hmoves.congr (.refl _) ?_
        exact (perm_reduceOption_set hslot).append_right own
      · intro i s hs
        have hne : ci ≠ i := fun e => by rw [← e, hslot] at hs; cases hs
        simpa [assignSlot, List.getElem?_set_ne hne] using hs
      · intro i hi
        have hne : ci ≠ i := fun e => by subst e; simp [hdata] at hi
        simp [assignSlot, List.getElem?_set_ne hne]
      · intro i hi d hd _
        obtain rfl : i = ci := by simpa using hi
        obtain rfl : data = d := Option.some.inj (hdata.symm.trans hd)
        exact ⟨newSlot, hset, hstored.node⟩
      · exact fun t ht hout => hstored.others t ht
          fun e => hout ci (by simp) (by simp [hdata]) (e ▸ hset)
    next hslot =>
      cases hcont
      refine ⟨⟨.refl c _, rfl, fun _ _ h => h, fun _ _ => rfl, ?_, fun _ _ _ => rfl,
        fun h => ⟨h, rfl⟩, fun h => h⟩, _, _, rfl⟩
      intro i hi d _ hlt
      obtain rfl : i = ci := by simpa using hi
      rw [List.getElem?_eq_none_iff] at hslot
      omega

theorem storeChunks_ok {c : σ} {f : OpenFile} {h' : Handle σ} {l : List Nat} {own : List Nat}
    (hrun : (l.forM storeChunk).run ⟨c, f⟩ = .ok () h')
    (ha : Accounts c (f.slotMap.reduceOption ++ own)) :
    StoredChunks c f own l h'.container h'.file ∧
      ∃ m b, h'.file = { f with slotMap := m, metaDirty := b } := by
  refine forM_ok_induction (fun done h => StoredChunks c f own done h.container h.file ∧
    ∃ m b, h.file = { f with slotMap := m, metaDirty := b }) hrun ⟨.refl c f own, _, _, rfl⟩ ?_
  rintro done ci rest ⟨c₁, _⟩ h₂ - ⟨hinv, m, b, rfl⟩ hstep
  obtain ⟨hst, m', b', hfile⟩ := storeChunk_ok hstep (hinv.moves.accounts ha)
  exact ⟨hinv.snoc hst rfl ha, m', b', hfile⟩

/-! ## Step 2: freeing slots -/

theorem freeNodes_ok {c c' : σ} {l own : List Nat} (hrun : (l.forM freeNode).run c = .ok () c')
    (ha : Accounts c (l ++ own)) :
    Moves c c' (l ++ own) own ∧ ∀ t, IsDataSlot c t → t ∉ l → nodes c' t = nodes c t := by
  induction l generalizing c with
  | nil => cases hrun; exact ⟨.refl _ own, fun _ _ _ => rfl⟩
  | cons s l ih =>
    obtain ⟨_, c₁, hfree, hrest⟩ := run_bind_ok.mp hrun
    obtain rfl := freeNode_run_ok.mp hfree
    obtain ⟨hothers, hmoves⟩ := freeNode_inv ha
    obtain ⟨hmoves', hagree⟩ := ih hrest (hmoves.accounts ha)
    refine ⟨hmoves.trans hmoves', fun t ht hnt => ?_⟩
    rw [List.mem_cons, not_or] at hnt
    rw [hagree t (hmoves.same.isDataSlot.mpr ht) hnt.2, hothers t ht hnt.1]

omit [LawfulNodeStore σ] in
omit [NodeStore σ] in
/-- A chain among the slots that are not freed stays. -/
theorem IndexChain.kept {c c' : σ} {first : Option Nat} {ids chain l own : List Nat}
    (h : IndexChain (nodes c) first ids chain) (ha : Accounts c (l ++ own))
    (hown : ∀ s ∈ chain, s ∈ own)
    (hagree : ∀ t, IsDataSlot c t → t ∉ l → nodes c' t = nodes c t) :
    IndexChain (nodes c') first ids chain :=
  h.congr fun s hs => hagree s (ha.isDataSlot (List.mem_append_right _ (hown s hs))) fun hm =>
    (List.nodup_append.mp ha.nodup_own).2.2 s hm s (hown s hs) rfl

omit [NodeView σ] [LawfulNodeStore σ] in
theorem freeNodes_run (l : List Nat) (c : σ) : ∃ c', (l.forM freeNode).run c = .ok () c' := by
  induction l generalizing c with
  | nil => exact ⟨c, rfl⟩
  | cons s l ih =>
    obtain ⟨c', hrun⟩ := ih (NodeStore.freeNode s c)
    refine ⟨c', ?_⟩
    change (freeNode s >>= fun _ => l.forM freeNode).run c = _
    rw [run_bind_of_ok (freeNode_run_ok (u := ()).mpr rfl), hrun]

omit [NodeView σ] [LawfulNodeStore σ] in
theorem forM_freeIfSome (l : List (Option Nat)) :
    (l.forM freeIfSome : StoreM σ Unit) = l.reduceOption.forM freeNode := by
  induction l with
  | nil => rfl
  | cons o l ih =>
    cases o with
    | none => exact ih
    | some s =>
      rw [List.reduceOption_cons_of_some]
      change (freeNode s >>= fun _ => l.forM freeIfSome) = _
      rw [ih]; rfl

theorem freeExcessSlots_ok {c : σ} {f : OpenFile} {h' : Handle σ} {keep : Nat} {own : List Nat}
    (hrun : (freeExcessSlots keep).run ⟨c, f⟩ = .ok () h')
    (ha : Accounts c (f.slotMap.reduceOption ++ own)) :
    Moves c h'.container (f.slotMap.reduceOption ++ own)
        (h'.file.slotMap.reduceOption ++ own) ∧
      (∀ t, IsDataSlot c t → t ∉ (f.slotMap.drop keep).reduceOption →
        nodes h'.container t = nodes c t) ∧
      ((f.slotMap.length ≤ keep ∧ h'.file = f) ∨ h'.file = keepSlots keep f) := by
  obtain ⟨_, _, hget, hcont⟩ := run_bind_ok.mp hrun
  cases hget
  dsimp only at hcont
  split at hcont
  next =>
    obtain ⟨_, h₁, hon, hmod⟩ := run_bind_ok.mp hcont
    obtain ⟨c', hfree, rfl⟩ := onContainer_ok.mp hon
    rw [modifyFile_ok] at hmod
    subst hmod
    have hsplit : (f.slotMap.reduceOption ++ own).Perm
        ((f.slotMap.drop keep).reduceOption ++ ((f.slotMap.take keep).reduceOption ++ own)) := by
      rw [← reduceOption_take_append_drop f.slotMap keep, ← List.append_assoc]
      exact List.perm_append_comm.append_right own
    rw [forM_freeIfSome] at hfree
    obtain ⟨hmoves, hagree⟩ := freeNodes_ok hfree (ha.of_perm hsplit.symm)
    exact ⟨hmoves.congr hsplit (.refl _), hagree, .inr rfl⟩
  next hle =>
    cases hcont
    exact ⟨.refl c _, fun _ _ _ => rfl, .inl ⟨Nat.le_of_not_lt hle, rfl⟩⟩

/-! ## Step 3: the head -/

/-- Chunk 0 cut to the size of the file. -/
def cutHead (totalSize : Nat) (d : List UInt8) : List UInt8 :=
  match chunkActualSize 0 totalSize with
  | some sz => d.take sz
  | none => d

/-- The inline data a rewritten head gets. -/
def inlineData (f : OpenFile) (fb : FileBlock) : List UInt8 :=
  match f.cache.get 0 with
  | some d => cutHead f.totalSize d
  | none => fb.data

theorem headChunk_ok {c : σ} {f : OpenFile} {fb : FileBlock} {h' : Handle σ} {d : List UInt8}
    (hrun : headChunk.run ⟨c, f⟩ = .ok d h') (hdata : IsDataSlot c f.headSlot)
    (hhead : nodes c f.headSlot = some (.file fb)) : d = inlineData f fb ∧ h' = ⟨c, f⟩ := by
  obtain ⟨_, _, hget, hcont⟩ := run_bind_ok.mp hrun
  cases hget
  dsimp only at hcont
  unfold inlineData
  cases hcache : f.cache.get 0 with
  | some d₀ =>
    rw [hcache] at hcont
    dsimp only [cutHead] at hcont ⊢
    cases hsz : chunkActualSize 0 f.totalSize with
    | some sz => rw [hsz] at hcont; cases hcont; exact ⟨rfl, rfl⟩
    | none => rw [hsz] at hcont; cases hcont; exact ⟨rfl, rfl⟩
  | none =>
    rw [hcache] at hcont
    obtain ⟨n, h₁, hon, hret⟩ := run_bind_ok.mp hcont
    obtain ⟨c', hread, rfl⟩ := onContainer_ok.mp hon
    obtain ⟨rfl, hn⟩ := readNode_inv hread
    obtain rfl : n = _ := Option.some.inj ((hn hdata).symm.trans hhead)
    cases hret
    exact ⟨rfl, rfl⟩

/-- The slots past the head chunk, when the slot map ends with the file. -/
theorem continuationSlots_eq {n : Nat} {m : List (Option Nat)} (hlen : m.length ≤ max n 1)
    (h0 : m[0]? = some none) : continuationSlots n m = m.reduceOption := by
  rw [continuationSlots, Nat.min_eq_right hlen, List.take_length, reduceOption_drop_one h0]

theorem rewriteHead_ok {c : σ} {f : OpenFile} {fb : FileBlock} {ids chain : List Nat}
    {h' : Handle σ} (hrun : rewriteHead.run ⟨c, f⟩ = .ok () h')
    (hhead : nodes c f.headSlot = some (.file fb))
    (hindex : IndexChain (nodes c) f.indexChain ids chain)
    (ha : Accounts c (ownedSlots f chain)) :
    ∃ dataSlots overflow new,
      dataSlots ++ overflow = continuationSlots (chunkCount f.totalSize) f.slotMap ∧
      (∃ x, h'.file = { f with indexChain := x }) ∧
      nodes h'.container f.headSlot = some (headNode f.totalSize dataSlots h'.file.indexChain
        (inlineData f fb)) ∧
      IndexChain (nodes h'.container) h'.file.indexChain overflow new ∧
      Moves c h'.container (ownedSlots f chain) (ownedSlots f new) ∧
      (∀ s ∈ f.slotMap.reduceOption, nodes h'.container s = nodes c s) := by
  have hhs : IsDataSlot c f.headSlot := ha.isDataSlot (by simp [ownedSlots])
  obtain ⟨d, h₁, hchunk, hrest⟩ := run_bind_ok.mp hrun
  obtain ⟨rfl, rfl⟩ := headChunk_ok hchunk hhs hhead
  obtain ⟨_, _, hget, hbody⟩ := run_bind_ok.mp hrest
  cases hget
  obtain ⟨_, h₂, hon₂, hrest₂⟩ := run_bind_ok.mp hbody
  obtain ⟨c₂, hfree, rfl⟩ := onContainer_ok.mp hon₂
  obtain ⟨⟨dataSlots, newChain⟩, h₃, hon₃, hrest₃⟩ := run_bind_ok.mp hrest₂
  obtain ⟨c₃, hplace, rfl⟩ := onContainer_ok.mp hon₃
  obtain ⟨_, h₄, hmod, hlast⟩ := run_bind_ok.mp hrest₃
  rw [modifyFile_ok] at hmod
  subst hmod
  obtain ⟨c₄, hupd, rfl⟩ := onContainer_ok.mp hlast
  -- the old chain is freed, then the new one is written, then the head
  let kept := f.slotMap.reduceOption ++ [f.headSlot]
  have hperm : ∀ l, (ownedSlots f l).Perm (l ++ kept) := fun l => by
    have : ownedSlots f l = kept ++ l := by simp [ownedSlots, kept]
    rw [this]; exact List.perm_append_comm
  have ha₁ := ha.of_perm (hperm chain).symm
  obtain ⟨hm₂, hagree₂⟩ := freeIndexChain_ok hindex ha₁ hfree
  have ha₂ := hm₂.accounts ha₁
  obtain ⟨overflow, new, hids, hnew, hm₃, hagree₃⟩ := placeIds_ok ha₂ hplace
  have ha₃ := hm₃.accounts ha₂
  have hheadmem : f.headSlot ∈ new ++ kept := by simp [kept]
  obtain ⟨hstored, hm₄, -⟩ := updateNode_inv hupd ha₃ hheadmem
  have hnd := ha₃.nodup_own
  refine ⟨dataSlots, overflow, new, hids, ⟨_, rfl⟩, hstored.node, ?_, ?_, ?_⟩
  · refine hnew.congr fun s hs => hstored.others s (ha₃.isDataSlot (List.mem_append_left _ hs)) ?_
    rintro rfl
    exact (List.nodup_append.mp hnd).2.2 _ hs _ (by simp [kept]) rfl
  · exact ((hm₂.trans hm₃).trans hm₄).congr (hperm chain) (hperm new)
  · intro s hs
    have hsk : s ∈ kept := by simp [kept, hs]
    have hne : s ≠ f.headSlot := by
      rintro rfl
      have := (List.nodup_append.mp (List.nodup_append.mp hnd).2.1).2.2 _ hs
      exact this _ (by simp) rfl
    have hnotchain : s ∉ chain := fun hm =>
      (List.nodup_append.mp ha₁.nodup_own).2.2 s hm s hsk rfl
    have hd : IsDataSlot c s := ha₁.isDataSlot (List.mem_append_right _ hsk)
    rw [hstored.others s (ha₃.isDataSlot (List.mem_append_right _ hsk)) hne,
      hagree₃ s (hm₂.same.isDataSlot.mpr hd) (ha₂.not_free hsk), hagree₂ s hd hnotchain]

/-! ## The whole flush -/

/-- The number of chunks a handle may hold: those of its file, and always chunk 0. -/
def chunkLimit (totalSize : Nat) : Nat := max (chunkCount totalSize) 1

/-- A handle and the disk fit together: the head is the handle's, the slots are its own
    and hold data, and an unchanged handle has the size and the slots of the head, none of
    them past the end. -/
structure HandleOk (c : σ) (f : OpenFile) (fb : FileBlock) (ids chain : List Nat) : Prop where
  head : nodes c f.headSlot = some (.file fb)
  chainEq : fb.indexChain = f.indexChain
  index : IndexChain (nodes c) f.indexChain ids chain
  mapHead : f.slotMap[0]? = some none
  accounts : Accounts c (ownedSlots f chain)
  data : ∀ s ∈ f.slotMap.reduceOption, ∃ d, nodes c s = some (.fileData d)
  clean : f.metaDirty = false →
    fb.totalSize = f.totalSize ∧ fb.dataSlots ++ ids = f.slotMap.reduceOption
  trimmed : f.metaDirty = false → f.slotMap.length ≤ chunkLimit f.totalSize

/-- A chunk index the flush has bytes for. -/
def Pending (f : OpenFile) (i : Nat) : Prop := i ∈ f.dirty ∧ f.cache.get i ≠ none

/-- A slot map after the pending chunks were stored and the rest was cut off at
    `keep`: what the remaining entries are and what their slots hold. -/
structure SlotsFlushed (keep : Nat) (c : σ) (f : OpenFile) (c' : σ) (f' : OpenFile) : Prop where
  length : f'.slotMap.length = min f.slotMap.length keep
  kept : ∀ (i : Nat) s, i < f'.slotMap.length → f.slotMap[i]? = some (some s) →
    f'.slotMap[i]? = some (some s)
  others : ∀ i : Nat, i < f'.slotMap.length → ¬ (1 ≤ i ∧ Pending f i) →
    f'.slotMap[i]? = f.slotMap[i]?
  stored : ∀ (i : Nat) d, 1 ≤ i → i ∈ f.dirty → f.cache.get i = some d → i < f'.slotMap.length →
    ∃ s, f'.slotMap[i]? = some (some s) ∧ nodes c' s = some (dataNode d)
  unstored : ∀ (i : Nat) s, ¬ (1 ≤ i ∧ Pending f i) → f'.slotMap[i]? = some (some s) →
    nodes c' s = nodes c s

/-- What a successful flush leaves in the handle and in the head. -/
structure Flushed (f : OpenFile) (fb : FileBlock) (f' : OpenFile) (fb' : FileBlock) : Prop where
  file : ∃ m x, f' = { f with slotMap := m, indexChain := x, dirty := .empty,
                              metaDirty := false }
  totalSize : fb'.totalSize = f.totalSize
  inline : fb'.data = inlineData f fb ∨
    (fb'.data = fb.data ∧ f.metaDirty = false ∧ 0 ∉ f.dirty)

namespace SlotsFlushed

variable {keep : Nat} {c c' c'' : σ} {f f' f'' : OpenFile}

omit [NodeStore σ] [LawfulNodeStore σ]

/-- The remaining slots hold data. -/
theorem data (h : SlotsFlushed keep c f c' f')
    (hdata : ∀ s ∈ f.slotMap.reduceOption, ∃ d, nodes c s = some (.fileData d)) :
    ∀ s ∈ f'.slotMap.reduceOption, ∃ d, nodes c' s = some (.fileData d) := by
  intro s hs
  obtain ⟨i, hi⟩ := exists_getElem? hs
  have hlt : i < f'.slotMap.length := (List.getElem?_eq_some_iff.mp hi).1
  by_cases hp : 1 ≤ i ∧ Pending f i
  · obtain ⟨h1, hd, hc⟩ := hp
    obtain ⟨d, hd'⟩ := Option.ne_none_iff_exists'.mp hc
    obtain ⟨s', hs', hnode⟩ := h.stored i d h1 hd hd' hlt
    obtain rfl : s = s' := by rw [hi] at hs'; simpa using hs'
    exact ⟨_, hnode⟩
  · rw [h.unstored i s hp hi]
    exact hdata s (mem_of_getElem? (by rw [← h.others i hlt hp]; exact hi))

theorem mapHead (h : SlotsFlushed keep c f c' f') (hk : 1 ≤ keep)
    (h0 : f.slotMap[0]? = some none) : f'.slotMap[0]? = some none := by
  have := (List.getElem?_eq_some_iff.mp h0).1
  have hlen := h.length
  rw [h.others 0 (by omega) (by omega)]
  exact h0

/-- What happens to other slots later does not matter. -/
theorem congr (h : SlotsFlushed keep c f c' f') (hmap : f''.slotMap = f'.slotMap)
    (hsame : ∀ s ∈ f'.slotMap.reduceOption, nodes c'' s = nodes c' s) :
    SlotsFlushed keep c f c'' f'' where
  length := by rw [hmap]; exact h.length
  kept := by rw [hmap]; exact h.kept
  others := by rw [hmap]; exact h.others
  stored i d h1 hd hc hlt := by
    rw [hmap] at hlt ⊢
    obtain ⟨s, hs, hnode⟩ := h.stored i d h1 hd hc hlt
    exact ⟨s, hs, by rw [hsame s (mem_of_getElem? hs), hnode]⟩
  unstored i s hp hs := by
    rw [hmap] at hs
    rw [hsame s (mem_of_getElem? hs), h.unstored i s hp hs]

end SlotsFlushed

/-- Steps 1 and 2 of a flush. -/
theorem storeAndCut_ok {c : σ} {f : OpenFile} {ord : IterOrder Nat} {keep : Nat}
    {own : List Nat} {h₁ h₂ : Handle σ}
    (hstore : (storeDirtyChunks ord).run ⟨c, f⟩ = .ok () h₁)
    (hcut : (freeExcessSlots keep).run h₁ = .ok () h₂)
    (ha : Accounts c (f.slotMap.reduceOption ++ own)) :
    SlotsFlushed keep c f h₂.container h₂.file ∧
      (∃ m b, h₂.file = { f with slotMap := m, metaDirty := b }) ∧
      Moves c h₂.container (f.slotMap.reduceOption ++ own)
        (h₂.file.slotMap.reduceOption ++ own) ∧
      (∀ t ∈ own, nodes h₂.container t = nodes c t) ∧
      (h₂.file.metaDirty = false → f.metaDirty = false ∧ h₂.file.slotMap = f.slotMap) := by
  obtain ⟨_, _, hget, hloop⟩ := run_bind_ok.mp hstore
  cases hget
  dsimp only at hloop
  have hmem : ∀ i, i ∈ (ord.order f.dirty.elems).filter (1 ≤ ·) ↔ 1 ≤ i ∧ i ∈ f.dirty := fun i => by
    simp [HashSet.mem_elems, and_comm]
  obtain ⟨hst, m₁, b₁, hf₁⟩ := storeChunks_ok hloop ha
  obtain ⟨c₁, f₁⟩ := h₁
  dsimp only at hst hf₁
  have ha₁ := hst.moves.accounts ha
  obtain ⟨hm₂, hagree, hfile⟩ := freeExcessSlots_ok hcut ha₁
  -- in both branches the slot map is the first `keep` entries
  have htake : h₂.file.slotMap = f₁.slotMap.take keep := by
    rcases hfile with ⟨hle, e⟩ | e
    · rw [e, List.take_of_length_le hle]
    · rw [e]; rfl
  have hnd₁ := hst.nodup ha
  have hpos : ∀ {i : Nat}, i < h₂.file.slotMap.length → h₂.file.slotMap[i]? = f₁.slotMap[i]? := by
    intro i hi
    rw [htake, List.length_take] at hi
    rw [htake, List.getElem?_take_of_lt (by omega)]
  -- a slot that stays in the map is not among the freed ones
  have hstays : ∀ {i s : Nat}, h₂.file.slotMap[i]? = some (some s) →
      nodes h₂.container s = nodes c₁ s := by
    intro i s hs
    have hlt := (List.getElem?_eq_some_iff.mp hs).1
    have hs₁ : f₁.slotMap[i]? = some (some s) := (hpos hlt).symm.trans hs
    refine hagree s (ha₁.isDataSlot (List.mem_append_left _ (mem_of_getElem? hs₁))) fun hm => ?_
    obtain ⟨j, hj⟩ := exists_getElem? hm
    rw [List.getElem?_drop] at hj
    have := index_unique hnd₁ hs₁ hj
    rw [htake, List.length_take] at hlt
    omega
  refine ⟨⟨?_, ?_, ?_, ?_, ?_⟩, ?_, hst.moves.trans hm₂, ?_, ?_⟩
  · rw [htake, List.length_take, hst.length, Nat.min_comm]
  · intro i s hlt hs
    rw [hpos hlt]; exact hst.kept i s hs
  · intro i hlt hp
    rw [hpos hlt]
    refine hst.others i ?_
    by_cases hd : 1 ≤ i ∧ i ∈ f.dirty
    · exact .inr (by_contra fun hc => hp ⟨hd.1, hd.2, hc⟩)
    · exact .inl fun hm => hd ((hmem i).mp hm)
  · intro i d h1 hd hc hlt
    have hlen : i < f.slotMap.length := by
      rw [htake, List.length_take, hst.length] at hlt; omega
    obtain ⟨s, hs, hnode⟩ := hst.stored i ((hmem i).mpr ⟨h1, hd⟩) d hc hlen
    have hs₂ := (hpos hlt).trans hs
    exact ⟨s, hs₂, by rw [hstays hs₂, hnode]⟩
  · intro i s hp hs
    have hs₁ := (hpos (List.getElem?_eq_some_iff.mp hs).1).symm.trans hs
    rw [hstays hs]
    refine hst.unstored ha ?_ hs₁
    by_cases hd : 1 ≤ i ∧ i ∈ f.dirty
    · exact .inr (by_contra fun hc => hp ⟨hd.1, hd.2, hc⟩)
    · exact .inl fun hm => hd ((hmem i).mp hm)
  · rcases hfile with ⟨-, e⟩ | e
    · exact ⟨m₁, b₁, by rw [e, hf₁]⟩
    · exact ⟨_, _, by rw [e, hf₁]; rfl⟩
  · intro t ht
    have hd : IsDataSlot c t := ha.isDataSlot (List.mem_append_right _ ht)
    obtain ⟨hnot, hsame⟩ := hst.own_agree ha ht
    rw [hagree t (hst.moves.same.isDataSlot.mpr hd)
      (fun hm => hnot (((List.drop_sublist keep _).filterMap id).subset hm)), hsame]
  · intro hm
    rcases hfile with ⟨-, e⟩ | e
    · rw [e] at hm ⊢; exact hst.metaKept hm
    · rw [e] at hm; cases hm

/-- Step 3 of a flush. -/
theorem headFlushed_ok {keep : Nat} {c : σ} {f : OpenFile} {fb : FileBlock}
    {ids chain : List Nat} {h h' : Handle σ} (hok : HandleOk c f fb ids chain)
    (hkeep : keep = chunkLimit f.totalSize)
    (hslots : SlotsFlushed keep c f h.container h.file)
    (hfile : ∃ m b, h.file = { f with slotMap := m, metaDirty := b })
    (hmoves : Moves c h.container (ownedSlots f chain) (h.file.slotMap.reduceOption ++
      f.headSlot :: chain))
    (hown : ∀ t ∈ f.headSlot :: chain, nodes h.container t = nodes c t)
    (hclean : h.file.metaDirty = false → f.metaDirty = false ∧ h.file.slotMap = f.slotMap)
    (hrun : (if h.file.metaDirty = true ∨ 0 ∈ h.file.dirty then
        rewriteHead >>= fun _ => modifyFile markClean
      else modifyFile markClean).run h = .ok () h') :
    ∃ fb' ids' chain', HandleOk h'.container h'.file fb' ids' chain' ∧
      Flushed f fb h'.file fb' ∧ SlotsFlushed keep c f h'.container h'.file ∧
      Moves c h'.container (ownedSlots f chain) (ownedSlots h'.file chain') := by
  obtain ⟨c₂, _⟩ := h
  obtain ⟨m, b, rfl⟩ := hfile
  dsimp only at hrun hslots hmoves hown hclean
  have ha₂ := hmoves.accounts hok.accounts
  have hhead₂ : nodes c₂ f.headSlot = some (.file fb) := by
    rw [hown _ List.mem_cons_self, hok.head]
  have hindex₂ : IndexChain (nodes c₂) f.indexChain ids chain :=
    hok.index.congr fun s hs => hown s (List.mem_cons_of_mem _ hs)
  have hmap₂ : m[0]? = some none := hslots.mapHead (hkeep ▸ le_max_right _ _) hok.mapHead
  have hlen : m.length ≤ chunkLimit f.totalSize := by
    have hl : m.length = min f.slotMap.length keep := hslots.length
    omega
  have hdata₂ := hslots.data hok.data
  split at hrun
  next hdirty =>
    obtain ⟨_, ⟨c₃, _⟩, hrewrite, hmark⟩ := run_bind_ok.mp hrun
    rw [modifyFile_ok] at hmark
    subst hmark
    obtain ⟨dataSlots, overflow, new, hids, ⟨x, hx⟩, hhead, hindex, hmoves₃, hsame⟩ :=
      rewriteHead_ok hrewrite hhead₂ hindex₂ ha₂
    dsimp only at hx
    subst hx
    rw [continuationSlots_eq hlen hmap₂] at hids
    refine ⟨_, overflow, new, ⟨hhead, rfl, hindex, hmap₂, hmoves₃.accounts ha₂, ?_, ?_,
      fun _ => hlen⟩, ⟨⟨m, x, rfl⟩, rfl, .inl rfl⟩, hslots.congr rfl hsame, hmoves.trans hmoves₃⟩
    · intro s hs
      obtain ⟨d, hd⟩ := hdata₂ s hs
      exact ⟨d, (hsame s hs).trans hd⟩
    · exact fun _ => ⟨rfl, hids⟩
  next hdirty =>
    rw [modifyFile_ok] at hrun
    subst hrun
    obtain ⟨hb, h0⟩ := not_or.mp hdirty
    obtain ⟨hmeta, hmap⟩ := hclean (by simpa using hb)
    obtain ⟨hsize, hids⟩ := hok.clean hmeta
    subst hmap
    refine ⟨fb, ids, chain, ⟨hhead₂, hok.chainEq, hindex₂, hmap₂, ha₂, hdata₂, ?_,
      fun _ => hlen⟩,
      ⟨⟨f.slotMap, f.indexChain, rfl⟩, hsize, .inr ⟨rfl, hmeta, h0⟩⟩,
      hslots.congr rfl fun _ _ => rfl, hmoves⟩
    exact fun _ => ⟨hsize, hids⟩

/-- A successful flush either had nothing to do, or stored everything. -/
theorem flushHandle_ok {c : σ} {f : OpenFile} {fb : FileBlock} {ids chain : List Nat}
    {ord : IterOrder Nat} {h' : Handle σ} (hok : HandleOk c f fb ids chain)
    (hrun : (flushHandle ord).run ⟨c, f⟩ = .ok () h') :
    (h' = ⟨c, f⟩ ∧ (∀ i, i ∉ f.dirty) ∧ f.metaDirty = false) ∨
    ∃ fb' ids' chain', HandleOk h'.container h'.file fb' ids' chain' ∧
      Flushed f fb h'.file fb' ∧
      SlotsFlushed (chunkLimit f.totalSize) c f h'.container h'.file ∧
      Moves c h'.container (ownedSlots f chain) (ownedSlots h'.file chain') := by
  obtain ⟨_, _, hget, hbody⟩ := run_bind_ok.mp hrun
  cases hget
  dsimp only at hbody
  split at hbody
  next hclean =>
    cases hbody
    exact .inl ⟨rfl, HashSet.isEmpty_eq_true.mp hclean.1, hclean.2⟩
  next =>
    obtain ⟨_, h₁, hstore, hrest⟩ := run_bind_ok.mp hbody
    obtain ⟨_, h₂, hcut, hrest₂⟩ := run_bind_ok.mp hrest
    obtain ⟨_, _, hget₂, hhead⟩ := run_bind_ok.mp hrest₂
    cases hget₂
    obtain ⟨hslots, hfile, hmoves, hown, hclean⟩ := storeAndCut_ok hstore hcut hok.accounts
    exact .inr (headFlushed_ok hok rfl hslots hfile hmoves hown hclean hhead)

end Venom.Fuse
