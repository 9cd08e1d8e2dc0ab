import Venom.Fuse.ChunkReads

/-! # Container calls that fail

A write or an update that fails changes no node; at most the free list has lost a slot.
What was known of a handle stays true, so a loop of stores that ends in an error leaves
what its finished part made of the handle.
-/

namespace Venom.Fuse

open Venom.Storage
open Venom.Library
open Venom.Library.StateError
open Venom.Library.OptionLists

variable {σ : Type} [NodeStore σ] [NodeView σ]

/-- The same nodes; the free list may have lost slots. -/
structure SameNodes (c c' : σ) : Prop where
  volume : SameVolume c c'
  agree : NodesAgree c c'
  sublist : (free c').Sublist (free c)

theorem SameNodes.refl (c : σ) : SameNodes c c := ⟨.refl c, fun _ _ => rfl, .refl _⟩

omit [NodeStore σ] [NodeView σ] in
theorem onContainer_error {α : Type} {x : StoreM σ α} {h h' : Handle σ} {e : Failure} :
    (onContainer x).run h = .error e h' ↔
      ∃ c', x.run h.container = .error e c' ∧ h' = { h with container := c' } := by
  change onContainer x h = _ ↔ _
  unfold onContainer
  cases x.run h.container with
  | ok b c => simp
  | error e' c => simp [eq_comm]

variable [LawfulNodeStore σ]

theorem writeNode_sameNodes {c c' : σ} {n : VaultNode} {e : Failure}
    (h : (writeNode n).run c = .error e c') : SameNodes c c' := by
  obtain ⟨e', he⟩ := writeNode_failed h
  obtain ⟨hagree, hsame, hfree⟩ := LawfulNodeStore.writeNode_error he
  refine ⟨hsame, hagree, ?_⟩
  rcases hfree with ⟨-, hnil⟩ | ⟨s, hpop, -⟩
  · rw [hnil]; exact List.nil_sublist _
  · rw [hpop]; exact List.sublist_append_left _ _

theorem updateNode_sameNodes {c c' : σ} {s : Nat} {n : VaultNode} {e : Failure}
    (h : (updateNode s n).run c = .error e c') : SameNodes c c' := by
  obtain ⟨-, hagree, hfree, hsame⟩ := updateNode_failed h
  exact ⟨hsame, hagree, hfree ▸ List.Sublist.refl _⟩

/-! ## What stays true -/

section SameNodes

variable {c c' : σ} {f : OpenFile} {fb : FileBlock} {ids chain own : List Nat}

omit [LawfulNodeStore σ] in
theorem SameNodes.accounts (h : SameNodes c c') (ha : Accounts c own) : Accounts c' own where
  nodup := ha.nodup.sublist (h.sublist.append_right own)
  dataSlot s hs := h.volume.isDataSlot.mpr
    (ha.dataSlot s ((h.sublist.append_right own).subset hs))

omit [LawfulNodeStore σ] in
theorem SameNodes.handleOk (h : SameNodes c c') (hok : HandleOk c f fb ids chain) :
    HandleOk c' f fb ids chain := by
  have hown : ∀ s ∈ ownedSlots f chain, nodes c' s = nodes c s := fun s hs =>
    h.agree s (hok.accounts.isDataSlot hs)
  refine ⟨?_, hok.chainEq, ?_, hok.mapHead, h.accounts hok.accounts, ?_, hok.clean, hok.trimmed⟩
  · rw [hown _ (by simp [ownedSlots])]
    exact hok.head
  · exact hok.index.congr fun s hs => hown s (by simp [ownedSlots, hs])
  · intro s hs
    rw [hown s (List.mem_append_left _ hs)]
    exact hok.data s hs

omit [LawfulNodeStore σ] in
theorem SameNodes.backed {A : Content} {lim : Nat} (h : SameNodes c c')
    (hok : HandleOk c f fb ids chain) (hb : Backed A lim c f fb) : Backed A lim c' f fb := by
  have hslot : ∀ {i s : Nat}, f.slotMap[i]? = some (some s) → nodes c' s = nodes c s := fun hs =>
    h.agree _ (hok.accounts.isDataSlot (List.mem_append_left _ (mem_of_getElem? hs)))
  refine ⟨hb.cached, hb.cachedLt, hb.inline, fun hs hnode => ?_, hb.gap, fun hs hnode => ?_⟩
  · rw [hslot hs] at hnode
    exact hb.slot hs hnode
  · rw [hslot hs] at hnode
    exact hb.slotLen hs hnode

omit [LawfulNodeStore σ] in
theorem SameNodes.openOk {A : Content} {lim : Nat} (h : SameNodes c c')
    (hok : OpenOk A lim ⟨c, f⟩ fb ids chain) : OpenOk A lim ⟨c', f⟩ fb ids chain :=
  ⟨h.handleOk hok.handle, h.backed hok.handle hok.backed⟩

/-- The disk shows the chunks it showed when the handle's slots hold the same nodes. -/
theorem diskChunk_agree (hdata : ∀ s ∈ ownedSlots f chain, IsDataSlot c s) (hsame : SameVolume c c')
    (hagree : ∀ s ∈ ownedSlots f chain, nodes c' s = nodes c s) :
    diskChunk c' f = diskChunk c f := by
  have hread : ∀ s ∈ ownedSlots f chain,
      (NodeStore.readNode s c').toOption = (NodeStore.readNode s c).toOption := fun s hs => by
    have hd := hdata s hs
    rw [LawfulNodeStore.readNode_eq c s hd,
      LawfulNodeStore.readNode_eq c' s (hsame.isDataSlot.mpr hd), hagree s hs]
  funext ci
  unfold diskChunk
  cases hs : f.slotMap[ci]? with
  | none => rfl
  | some o =>
    cases o with
    | some s => dsimp only; rw [hread s (List.mem_append_left _ (mem_of_getElem? hs))]
    | none => dsimp only; rw [hread f.headSlot (by simp [ownedSlots])]

theorem SameNodes.diskChunk (h : SameNodes c c') (hdata : ∀ s ∈ ownedSlots f chain, IsDataSlot c s) :
    diskChunk c' f = Venom.Fuse.diskChunk c f :=
  diskChunk_agree hdata h.volume fun s hs => h.agree s (hdata s hs)

end SameNodes

/-! ## Storing -/

/-- A chunk that cannot be stored leaves the handle as it was. -/
theorem storeChunk_error {h h' : Handle σ} {ci : Nat} {e : Failure}
    (hrun : (storeChunk ci).run h = .error e h') :
    h'.file = h.file ∧ SameNodes h.container h'.container := by
  rcases run_bind_error.mp hrun with hget | ⟨_, _, hget, hcont⟩
  · cases hget
  · cases hget
    split at hcont
    next => cases hcont
    next =>
      split at hcont
      next =>
        obtain ⟨c', hupd, rfl⟩ := onContainer_error.mp hcont
        exact ⟨rfl, updateNode_sameNodes hupd⟩
      next =>
        rcases run_bind_error.mp hcont with hwrite | ⟨_, _, -, hmod⟩
        · obtain ⟨c', hwrite', rfl⟩ := onContainer_error.mp hwrite
          exact ⟨rfl, writeNode_sameNodes hwrite'⟩
        · cases hmod
      next => cases hcont

/-- Chunks that were not stored are on the disk as before, and stored ones as they were
    in the cache. -/
theorem StoredChunks.diskChunk {c c' : σ} {f f' : OpenFile} {chain done : List Nat}
    (hst : StoredChunks c f (f.headSlot :: chain) done c' f')
    (ha : Accounts c (ownedSlots f chain)) (hhead : f'.headSlot = f.headSlot) (i : Nat) :
    Venom.Fuse.diskChunk c' f' i =
      if i ∈ done ∧ i < f.slotMap.length then
        f.cache.get i <|> Venom.Fuse.diskChunk c f i
      else Venom.Fuse.diskChunk c f i := by
  have hread : ∀ {s : Nat} {n : Option VaultNode}, IsDataSlot c s → nodes c' s = n →
      (NodeStore.readNode s c').toOption = n := fun hd hn => by
    rw [LawfulNodeStore.readNode_eq c' _ (hst.moves.same.isDataSlot.mpr hd), hn]
  have hheadData : IsDataSlot c f.headSlot := ha.isDataSlot (by simp [ownedSlots])
  -- a chunk whose entry and whose slot's node are the same is the same on the disk
  have hsame : f'.slotMap[i]? = f.slotMap[i]? →
      (∀ s, f'.slotMap[i]? = some (some s) → nodes c' s = nodes c s) →
      Venom.Fuse.diskChunk c' f' i = Venom.Fuse.diskChunk c f i := by
    intro hmap hnode
    unfold Venom.Fuse.diskChunk
    rw [hmap]
    cases hs : f.slotMap[i]? with
    | none => rfl
    | some o =>
      cases o with
      | some s =>
        have hd : IsDataSlot c s :=
          ha.isDataSlot (List.mem_append_left _ (mem_of_getElem? hs))
        dsimp only
        rw [hread hd (hnode s (hmap.trans hs)), LawfulNodeStore.readNode_eq c s hd]
      | none =>
        dsimp only
        rw [hhead, hread hheadData (hst.own_agree ha List.mem_cons_self).2,
          LawfulNodeStore.readNode_eq c _ hheadData]
  split
  next hin =>
    cases hc : f.cache.get i with
    | none => exact hsame (hst.others i (.inr hc)) fun s => hst.unstored ha (.inr hc)
    | some d =>
      obtain ⟨s, hs, hnode⟩ := hst.stored i hin.1 d hc hin.2
      have hd : IsDataSlot c s := hst.moves.same.isDataSlot.mp
        ((hst.moves.accounts ha).isDataSlot
          (List.mem_append_left _ (mem_of_getElem? hs)))
      unfold Venom.Fuse.diskChunk
      rw [hs]
      dsimp only
      rw [hread hd hnode]
      rfl
  next hout =>
    by_cases hd : i ∈ done
    · have hge : f.slotMap.length ≤ i := by
        by_contra hlt
        exact hout ⟨hd, by omega⟩
      have hnone : f'.slotMap[i]? = none := List.getElem?_eq_none (by rw [hst.length]; exact hge)
      exact hsame (hnone.trans (List.getElem?_eq_none hge).symm) fun s hs => by
        rw [hnone] at hs
        cases hs
    · exact hsame (hst.others i (.inl hd)) fun s => hst.unstored ha (.inl hd)

/-! ## Writing through -/

/-- A chunk that goes from the cache to the disk is the same chunk. -/
theorem writeThroughChunk_chunks {h h' : Handle σ} {ci : Nat} {chain : List Nat}
    (ha : Accounts h.container (ownedSlots h.file chain))
    (hrun : (writeThroughChunk ci).run h = .ok () h') :
    chunkBytes h' = chunkBytes h ∧ (Synced h → Synced h') ∧
      Accounts h'.container (ownedSlots h'.file chain) ∧ h'.file.ino = h.file.ino ∧
      h'.file.headSlot = h.file.headSlot ∧ h'.file.totalSize = h.file.totalSize := by
  obtain ⟨_, _, hget, hcont⟩ := run_bind_ok.mp hrun
  cases hget
  split at hcont
  next hin =>
    obtain ⟨d, hd⟩ := (HashMap.containsKey_eq_true _ _).mp hin.1
    obtain ⟨_, h₁, hstore, hmod⟩ := run_bind_ok.mp hcont
    rw [modifyFile_ok] at hmod
    subst hmod
    obtain ⟨hst, m, b, hfile⟩ := storeChunk_ok hstore ha
    have hdisk := hst.diskChunk ha (by rw [hfile])
    have hdrop : diskChunk h₁.container (dropChunk ci h₁.file) = diskChunk h₁.container h₁.file :=
      diskChunk_congr rfl rfl
    -- what is left in the cache is what was there, without the stored chunk
    have hcache : ∀ i, (dropChunk ci h₁.file).cache.get i =
        if i = ci then none else h.file.cache.get i := fun i => by
      simp [dropChunk, hfile]
    have hbytes : ∀ i, diskChunk h₁.container h₁.file i =
        if i = ci then some d else diskChunk h.container h.file i := fun i => by
      rw [hdisk i]
      by_cases e : i = ci
      · simp [e, hin.2, hd]
      · simp [e]
    refine ⟨?_, fun hs i d' hd' hi => ?_, ?_, by simp [dropChunk, hfile], by simp [dropChunk, hfile],
      by simp [dropChunk, hfile]⟩
    · funext i
      simp only [chunkBytes, hcache, hdrop, hbytes]
      by_cases e : i = ci
      · simp [e, hd]
      · simp [e]
    · dsimp only at hd' hi ⊢
      rw [hcache] at hd'
      split at hd'
      · cases hd'
      next hne =>
        rw [hdrop, hbytes, if_neg hne]
        refine hs i d' hd' fun hm => hi ?_
        simpa [dropChunk, hfile, hne] using hm
    · have hacc := hst.moves.accounts ha
      rw [hfile] at hacc ⊢
      exact hacc
  next =>
    cases hcont
    exact ⟨rfl, fun hs => hs, ha, rfl, rfl, rfl⟩

/-- One that cannot be stored stays where it is. -/
theorem writeThroughChunk_error {h h' : Handle σ} {ci : Nat} {e : Failure}
    (hrun : (writeThroughChunk ci).run h = .error e h') :
    h'.file = h.file ∧ SameNodes h.container h'.container := by
  rcases run_bind_error.mp hrun with hget | ⟨_, _, hget, hcont⟩
  · cases hget
  · cases hget
    split at hcont
    next =>
      rcases run_bind_error.mp hcont with hstore | ⟨_, _, -, hmod⟩
      · exact storeChunk_error hstore
      · cases hmod
    next => cases hcont

/-- No chunk changes. -/
theorem SameNodes.chunkBytes {h h' : Handle σ} {chain : List Nat}
    (hn : SameNodes h.container h'.container) (hfile : h'.file = h.file)
    (hdata : ∀ s ∈ ownedSlots h.file chain, IsDataSlot h.container s) :
    Venom.Fuse.chunkBytes h' = Venom.Fuse.chunkBytes h := by
  funext i
  rw [Venom.Fuse.chunkBytes, Venom.Fuse.chunkBytes, hfile, hn.diskChunk hdata]

end Venom.Fuse
