import Venom.Fuse.ChainWalks
import Venom.Fuse.ChunkReads
import Venom.Fuse.InVolume
import Venom.Fuse.Totality

/-! # What a flush needs

A flush fails when the free list runs dry, when a node does not fit its slot, or when the
head is no file any more.  Which slots it takes and which it gives back is known before it
starts: new chunks get the last slots of the free list, the excess of the slot map and the
old index chain go back.  `FlushFinds` says of the state before that nothing is missing,
whatever else the volume holds, and a flush that finds what it needs succeeds.
-/

namespace Venom.Fuse

open Venom.Storage
open Venom.Library
open Venom.Library.Chunks (rchunks)
open Venom.Library.LinkWalk
open Venom.Library.OptionLists
open Venom.Library.StateError

variable {σ : Type} [NodeStore σ] [NodeView σ]

/-! ## Storing -/

/-- The chunks a flush comes to, in order. -/
def toStore (ord : IterOrder Nat) (f : OpenFile) : List Nat := (ord.order f.dirty.elems).filter (1 ≤ ·)

/-- Those of them that get a new slot. -/
def newChunks (f : OpenFile) (cis : List Nat) : List Nat :=
  cis.filter fun ci => f.cache.get ci ≠ none ∧ f.slotMap[ci]? = some none

/-- The slot map when the chunks have been stored. -/
def slotsFilled (f : OpenFile) (pool cis : List Nat) : List (Option Nat) :=
  fill f.slotMap (newChunks f cis) pool

/-- The last of the chunks that is stored in slot `t`. -/
def lastStored (f : OpenFile) (pool cis : List Nat) (t : Nat) : Option Nat :=
  (cis.filter fun ci =>
    f.cache.get ci ≠ none ∧ (slotsFilled f pool cis)[ci]? = some (some t)).getLast?

theorem newChunks_snoc (f : OpenFile) (cis : List Nat) (ci : Nat) : newChunks f (cis ++ [ci]) =
    newChunks f cis ++ if f.cache.get ci ≠ none ∧ f.slotMap[ci]? = some none then [ci] else [] := by
  rw [newChunks, List.filter_append, List.filter_singleton]
  simp [newChunks]

/-- A chunk that gets no new slot has the one it had. -/
theorem slotsFilled_kept {f : OpenFile} {pool cis : List Nat} {ci : Nat} (h : ci ∉ newChunks f cis) :
    (slotsFilled f pool cis)[ci]? = f.slotMap[ci]? := getElem?_fill h

theorem slotsFilled_snoc {f : OpenFile} {pool cis : List Nat} {ci i : Nat} (h : i ≠ ci) :
    (slotsFilled f pool (cis ++ [ci]))[i]? = (slotsFilled f pool cis)[i]? := by
  rw [slotsFilled, slotsFilled, newChunks_snoc]
  split
  · exact getElem?_fill_append h
  · rw [List.append_nil]

theorem lastStored_snoc {f : OpenFile} {pool cis : List Nat} {ci : Nat} (h : ci ∉ cis) (t : Nat) :
    lastStored f pool (cis ++ [ci]) t =
      if f.cache.get ci ≠ none ∧ (slotsFilled f pool (cis ++ [ci]))[ci]? = some (some t) then some ci
      else lastStored f pool cis t := by
  have hbefore : (cis.filter fun i =>
      f.cache.get i ≠ none ∧ (slotsFilled f pool (cis ++ [ci]))[i]? = some (some t)) =
      cis.filter fun i => f.cache.get i ≠ none ∧ (slotsFilled f pool cis)[i]? = some (some t) := by
    refine List.filter_congr fun i hi => ?_
    have hne : i ≠ ci := fun e => h (e ▸ hi)
    rw [slotsFilled_snoc hne]
  rw [lastStored, List.filter_append, hbefore]
  split
  next hin => rw [List.filter_cons_of_pos (by simpa using hin), List.filter_nil, List.getLast?_concat]
  next hout =>
    rw [List.filter_cons_of_neg (by simpa using hout), List.filter_nil, List.append_nil, lastStored]

/-- The slots they are written to, the new ones from the front of `pool`. -/
def storedSlots (f : OpenFile) (pool cis : List Nat) : List Nat :=
  (cis.filter fun ci => f.cache.get ci ≠ none).filterMap (fun ci => f.slotMap[ci]?.join) ++
    pool.take (newChunks f cis).length

omit [NodeStore σ] in
/-- They are slots of the volume. -/
theorem storedSlots_within {D : Nat → Prop} {c : σ} {f : OpenFile} (hw : HandleWithin D ⟨c, f⟩)
    (cis : List Nat) : ∀ t ∈ storedSlots f (free c).reverse cis, D t := by
  intro t ht
  rcases List.mem_append.mp ht with ht | ht
  · obtain ⟨ci, -, hci⟩ := List.mem_filterMap.mp ht
    exact hw.file.slots t (List.mem_of_getElem? (Option.join_eq_some_iff.mp hci))
  · exact hw.container.free t (List.mem_reverse.mp (List.mem_of_mem_take ht))

/-- The chunks `done` have been stored, on any volume. -/
structure StoredUpTo (c : σ) (f : OpenFile) (done : List Nat) (g : Handle σ) : Prop where
  volume : SameVolume c g.container
  file : ∃ b, g.file = { f with
      slotMap := fill f.slotMap (newChunks f done) (free c).reverse, metaDirty := b } ∧
    (b = true ↔ f.metaDirty = true ∨ newChunks f done ≠ [])
  pool : (free g.container).reverse = (free c).reverse.drop (newChunks f done).length
  kept : ∀ t, IsDataSlot c t → t ∉ storedSlots f (free c).reverse done → nodes g.container t = nodes c t
  data : ∀ t ∈ storedSlots f (free c).reverse done, ∃ d, nodes g.container t = some (.fileData d)
  last : ∀ t, IsDataSlot c t → nodes g.container t =
    (lastStored f (free c).reverse done t).elim (nodes c t) fun ci => (f.cache.get ci).map dataNode

namespace StoredUpTo

variable {c : σ} {f : OpenFile} {done : List Nat} {g : Handle σ} {ci : Nat}

theorem start (c : σ) (f : OpenFile) : StoredUpTo c f [] ⟨c, f⟩ where
  volume := .refl c
  file := ⟨f.metaDirty, rfl, by simp [newChunks]⟩
  pool := rfl
  kept _ _ _ := rfl
  data t ht := by simp [storedSlots, newChunks] at ht
  last _ _ := rfl

/-- A chunk that is skipped. -/
theorem skip (h : StoredUpTo c f done g) (hci : ci ∉ done)
    (hskip : f.cache.get ci = none ∨ f.slotMap[ci]? = none) : StoredUpTo c f (done ++ [ci]) g := by
  have hnew : newChunks f (done ++ [ci]) = newChunks f done := by
    rw [newChunks_snoc, if_neg, List.append_nil]
    rcases hskip with hc | hs
    · simp [hc]
    · simp [hs]
  have hlast : ∀ t, lastStored f (free c).reverse (done ++ [ci]) t =
      lastStored f (free c).reverse done t := fun t => by
    rw [lastStored_snoc hci, if_neg]
    rintro ⟨hin, hslot⟩
    have hs := hskip.resolve_left hin
    rw [slotsFilled_kept fun hmem => ?_, hs] at hslot
    · cases hslot
    · rw [hnew] at hmem
      exact hci (List.mem_of_mem_filter hmem)
  have hslots : storedSlots f (free c).reverse (done ++ [ci]) = storedSlots f (free c).reverse done := by
    rw [storedSlots, storedSlots, hnew, List.filter_append, List.filterMap_append]
    rcases hskip with hc | hs
    · simp [hc]
    · by_cases hc : f.cache.get ci = none
      · simp [hc]
      · simp [hc, hs]
  exact ⟨h.volume, by rw [hnew]; exact h.file, by rw [hnew]; exact h.pool, by rw [hslots]; exact h.kept,
    by rw [hslots]; exact h.data, fun t ht => by rw [hlast]; exact h.last t ht⟩

theorem cache (h : StoredUpTo c f done g) : g.file.cache = f.cache := by
  obtain ⟨b, hfile, -⟩ := h.file
  rw [hfile]

/-- A chunk that is still to come has the entry it had. -/
theorem entry (h : StoredUpTo c f done g) (hci : ci ∉ done) : g.file.slotMap[ci]? = f.slotMap[ci]? := by
  obtain ⟨b, hfile, -⟩ := h.file
  rw [hfile]
  exact getElem?_fill fun hmem => hci (List.mem_filter.mp hmem).1

/-- One more chunk is in its slot, and the other slots hold what they held. -/
theorem last_snoc {c' : σ} {d : List UInt8} {slot : Nat} (h : StoredUpTo c f done g) (hci : ci ∉ done)
    (hd : f.cache.get ci = some d)
    (hentry : (slotsFilled f (free c).reverse (done ++ [ci]))[ci]? = some (some slot))
    (hnode : nodes c' slot = some (dataNode d)) (hothers : NodesAgreeExcept slot g.container c') (t : Nat)
    (ht : IsDataSlot c t) : nodes c' t = (lastStored f (free c).reverse (done ++ [ci]) t).elim (nodes c t)
      fun ci => (f.cache.get ci).map dataNode := by
  rw [lastStored_snoc hci, hentry]
  by_cases hts : t = slot
  · rw [if_pos ⟨by rw [hd]; nofun, by rw [hts]⟩, Option.elim_some, hd, hts]
    exact hnode
  · rw [if_neg fun hin => hts (by simpa using hin.2.symm)]
    exact (hothers t (h.volume.isDataSlot.mpr ht) hts).trans (h.last t ht)

section Chunks

variable [LawfulNodeStore σ] {d : List UInt8} {slot : Nat}

/-- A chunk that has a slot. -/
theorem update {c' : σ} (h : StoredUpTo c f done g) (hw : HandleWithin (IsDataSlot c) ⟨c, f⟩)
    (hci : ci ∉ done) (hd : f.cache.get ci = some d) (hs : f.slotMap[ci]? = some (some slot))
    (hrun : (updateNode slot (dataNode d)).run g.container = .ok () c') :
    StoredUpTo c f (done ++ [ci]) ⟨c', g.file⟩ := by
  have hslot : IsDataSlot c slot := hw.file.slots slot (List.mem_of_getElem? hs)
  obtain ⟨-, hnode, hfree, hothers, hsame⟩ :=
    LawfulNodeStore.updateNode_ok (updateNode_store hrun) (h.volume.isDataSlot.mpr hslot)
  have hnew : newChunks f (done ++ [ci]) = newChunks f done := by
    rw [newChunks_snoc, if_neg (by simp [hs]), List.append_nil]
  have hentry : (slotsFilled f (free c).reverse (done ++ [ci]))[ci]? = some (some slot) := by
    rw [slotsFilled_kept fun hmem => hci (List.mem_of_mem_filter (hnew ▸ hmem)), hs]
  have hslots : ∀ t, t ∈ storedSlots f (free c).reverse (done ++ [ci]) ↔
      t = slot ∨ t ∈ storedSlots f (free c).reverse done := fun t => by
    rw [storedSlots, storedSlots, hnew, List.filter_append, List.filterMap_append,
      List.filter_cons_of_pos (by simp [hd])]
    simp only [List.filter_nil, List.filterMap_cons, List.filterMap_nil, hs, Option.join_some,
      List.mem_append, List.mem_singleton]
    tauto
  refine ⟨h.volume.trans hsame, by rw [hnew]; exact h.file, ?_, fun t ht hout => ?_, fun t ht => ?_,
    h.last_snoc hci hd hentry hnode hothers⟩
  · rw [hnew, ← h.pool]
    exact congrArg List.reverse hfree
  · rw [hslots] at hout
    obtain ⟨hne, hout⟩ := not_or.mp hout
    exact (hothers t (h.volume.isDataSlot.mpr ht) hne).trans (h.kept t ht hout)
  · by_cases hts : t = slot
    · exact ⟨_, hts ▸ hnode⟩
    · have hbefore := ((hslots t).mp ht).resolve_left hts
      obtain ⟨d', hd'⟩ := h.data t hbefore
      have ht' := h.volume.isDataSlot.mpr (storedSlots_within hw done t hbefore)
      exact ⟨d', (hothers t ht' hts).trans hd'⟩

/-- A chunk that gets the next free slot. -/
theorem place {c' : σ} (h : StoredUpTo c f done g) (hw : HandleWithin (IsDataSlot c) ⟨c, f⟩)
    (hci : ci ∉ done) (hd : f.cache.get ci = some d) (hs : f.slotMap[ci]? = some none)
    (hrun : (writeNode (dataNode d)).run g.container = .ok slot c') :
    StoredUpTo c f (done ++ [ci]) ⟨c', assignSlot ci slot g.file⟩ := by
  have hmem := LawfulNodeStore.writeNode_ok_free (writeNode_store hrun)
  have hslot : IsDataSlot c slot := by
    have hrest := List.mem_reverse.mpr hmem
    rw [h.pool] at hrest
    exact hw.container.free slot (List.mem_reverse.mp (List.mem_of_mem_drop hrest))
  obtain ⟨hfree, -, hnode, hothers, hsame⟩ :=
    LawfulNodeStore.writeNode_ok (writeNode_store hrun) (h.volume.isDataSlot.mpr hslot)
  have hnew : newChunks f (done ++ [ci]) = newChunks f done ++ [ci] := by
    rw [newChunks_snoc, if_pos (by simp [hd, hs])]
  -- the slot is the next one of the pool
  have hdrop : (free c).reverse.drop (newChunks f done).length = slot :: (free c').reverse := by
    rw [← h.pool, hfree, List.reverse_append]
    rfl
  have hnext : (free c).reverse[(newChunks f done).length]? = some slot := by
    have hhead : ((free c).reverse.drop (newChunks f done).length)[0]? = some slot := by rw [hdrop]; rfl
    rwa [List.getElem?_drop, Nat.add_zero] at hhead
  have hentry : (slotsFilled f (free c).reverse (done ++ [ci]))[ci]? = some (some slot) := by
    rw [slotsFilled, hnew, fill_snoc hnext]
    exact List.getElem?_set_self (by rw [length_fill]; exact (List.getElem?_eq_some_iff.mp hs).1)
  have hslots : ∀ t, t ∈ storedSlots f (free c).reverse (done ++ [ci]) ↔
      t = slot ∨ t ∈ storedSlots f (free c).reverse done := fun t => by
    rw [storedSlots, storedSlots, hnew, List.filter_append, List.filterMap_append,
      List.filter_cons_of_pos (by simp [hd]), List.length_append, List.length_singleton,
      List.take_add_one, hnext]
    simp only [List.filter_nil, List.filterMap_cons, List.filterMap_nil, hs, Option.join_some,
      List.mem_append, List.not_mem_nil, or_false, Option.toList_some, List.mem_singleton]
    tauto
  refine ⟨h.volume.trans hsame, ?_, ?_, fun t ht hout => ?_, fun t ht => ?_,
    h.last_snoc hci hd hentry hnode hothers⟩
  · obtain ⟨b, hfile, -⟩ := h.file
    refine ⟨true, ?_, by simp [hnew]⟩
    rw [hnew, fill_snoc hnext, hfile]
    rfl
  · rw [hnew, List.length_append, List.length_singleton, ← List.drop_drop, hdrop]
    rfl
  · rw [hslots] at hout
    obtain ⟨hne, hout⟩ := not_or.mp hout
    exact (hothers t (h.volume.isDataSlot.mpr ht) hne).trans (h.kept t ht hout)
  · by_cases hts : t = slot
    · exact ⟨_, hts ▸ hnode⟩
    · have hbefore := ((hslots t).mp ht).resolve_left hts
      obtain ⟨d', hd'⟩ := h.data t hbefore
      have ht' := h.volume.isDataSlot.mpr (storedSlots_within hw done t hbefore)
      exact ⟨d', (hothers t ht' hts).trans hd'⟩

/-- One more chunk finds its slot, if it fits and the pool is large enough. -/
theorem step (h : StoredUpTo c f done g) (hw : HandleWithin (IsDataSlot c) ⟨c, f⟩) (hci : ci ∉ done)
    (hfits : ∀ d, f.cache.get ci = some d → ci < f.slotMap.length →
      Fits (NodeStore.cipher c) (dataNode d))
    (hroom : (newChunks f (done ++ [ci])).length ≤ (free c).length) :
    ∃ g', (storeChunk ci).run g = .ok () g' ∧ StoredUpTo c f (done ++ [ci]) g' := by
  unfold storeChunk
  rw [run_bind_of_ok run_get, h.cache, h.entry hci]
  cases hd : f.cache.get ci with
  | none => exact ⟨g, rfl, h.skip hci (.inl hd)⟩
  | some d =>
    dsimp only
    cases hs : f.slotMap[ci]? with
    | none => exact ⟨g, rfl, h.skip hci (.inr hs)⟩
    | some o =>
      have hfit : Fits (NodeStore.cipher g.container) (dataNode d) := by
        rw [h.volume.cipher]
        exact hfits d hd (List.getElem?_eq_some_iff.mp hs).1
      cases o with
      | some slot =>
        obtain ⟨c', hrun⟩ := updateNode_run (s := slot) hfit
        exact ⟨_, onContainer_run hrun, h.update hw hci hd hs hrun⟩
      | none =>
        have hne : free g.container ≠ [] := by
          rw [newChunks_snoc, if_pos (by simp [hd, hs]), List.length_append, List.length_singleton] at hroom
          intro hnil
          have hlen := congrArg List.length h.pool
          simp only [hnil, List.reverse_nil, List.length_nil, List.length_drop, List.length_reverse] at hlen
          omega
        obtain ⟨slot, c', hrun⟩ := writeNode_run hne hfit
        refine ⟨⟨c', assignSlot ci slot g.file⟩, ?_, h.place hw hci hd hs hrun⟩
        dsimp only
        rw [run_bind_of_ok (onContainer_run hrun)]
        exact modifyFile_ok.mpr rfl

end Chunks

end StoredUpTo

section Runs

variable [LawfulNodeStore σ] {c : σ} {f : OpenFile} {ord : IterOrder Nat}

theorem toStore_nodup (ord : IterOrder Nat) (f : OpenFile) : (toStore ord f).Nodup :=
  (ord.nodup_order f.dirty.nodup).filter _

/-- Step 1 of a flush. -/
theorem storeDirtyChunks_finds (hw : HandleWithin (IsDataSlot c) ⟨c, f⟩)
    (hfits : ∀ ci ∈ toStore ord f, ∀ d, f.cache.get ci = some d → ci < f.slotMap.length →
      Fits (NodeStore.cipher c) (dataNode d))
    (hroom : (newChunks f (toStore ord f)).length ≤ (free c).length) :
    ∃ g, (storeDirtyChunks ord).run ⟨c, f⟩ = .ok () g ∧ StoredUpTo c f (toStore ord f) g := by
  unfold storeDirtyChunks
  rw [run_bind_of_ok run_get]
  change ∃ g, ((toStore ord f).forM storeChunk).run ⟨c, f⟩ = .ok () g ∧ _
  refine forM_total (fun done g => StoredUpTo c f done g) (.start c f) fun done ci rest g hl hst => ?_
  have hnodup := toStore_nodup ord f
  rw [hl] at hnodup
  have hci : ci ∉ done := fun hmem =>
    (List.nodup_append.mp hnodup).2.2 ci hmem ci List.mem_cons_self rfl
  have hsub : (newChunks f (done ++ [ci])).Sublist (newChunks f (toStore ord f)) := by
    rw [hl, show done ++ ci :: rest = (done ++ [ci]) ++ rest by simp]
    exact (List.sublist_append_left _ _).filter _
  exact hst.step hw hci (hfits ci (by rw [hl]; simp)) (hsub.length_le.trans hroom)

end Runs

/-! ## Freeing -/

section Frees

variable [FreeingNodeStore σ]

theorem freed_free (slots : List Nat) (c : σ) :
    free (freed slots c) = slots.foldl (fun l s => insertFree s l) (free c) := by
  induction slots generalizing c with
  | nil => rfl
  | cons s slots ih =>
    rw [List.foldl_cons, ← FreeingNodeStore.free_freeNode]
    exact ih (NodeStore.freeNode s c)

variable [WipingNodeStore σ]

/-- Freeing wipes the slots, and no others. -/
theorem freed_nodes {slots : List Nat} {c : σ} (h : ∀ s ∈ slots, IsDataSlot c s) :
    SameVolume c (freed slots c) ∧ (∀ t ∈ slots, nodes (freed slots c) t = none) ∧
      ∀ t, IsDataSlot c t → t ∉ slots → nodes (freed slots c) t = nodes c t := by
  induction slots generalizing c with
  | nil => exact ⟨.refl c, fun t ht => absurd ht List.not_mem_nil, fun _ _ _ => rfl⟩
  | cons s slots ih =>
    have hs := h s List.mem_cons_self
    obtain ⟨-, hothers, hsame⟩ := LawfulNodeStore.freeNode_spec c s hs
    obtain ⟨hvolume, hwiped, hkept⟩ := @ih (NodeStore.freeNode s c) fun t ht =>
      hsame.isDataSlot.mpr (h t (List.mem_cons_of_mem _ ht))
    refine ⟨hsame.trans hvolume, fun t ht => ?_, fun t ht hout => ?_⟩
    · by_cases hmem : t ∈ slots
      · exact hwiped t hmem
      · obtain rfl : t = s := (List.mem_cons.mp ht).resolve_right hmem
        exact (hkept t (hsame.isDataSlot.mpr hs) hmem).trans (WipingNodeStore.freeNode_wiped c t hs)
    · obtain ⟨hne, hmem⟩ := not_or.mp (mt List.mem_cons.mpr hout)
      exact (hkept t (hsame.isDataSlot.mpr ht) hmem).trans (hothers t ht hne)

omit [NodeView σ] [WipingNodeStore σ] [FreeingNodeStore σ] in
theorem freeIfSome_run (opts : List (Option Nat)) (c : σ) :
    (opts.forM freeIfSome).run c = .ok () (freed opts.reduceOption c) := by
  induction opts generalizing c with
  | nil => rfl
  | cons opt opts ih =>
    change (freeIfSome opt >>= fun _ => opts.forM freeIfSome).run c = _
    cases opt with
    | none =>
      rw [List.reduceOption_cons_of_none]
      exact (run_bind_of_ok rfl).trans (ih c)
    | some s =>
      rw [List.reduceOption_cons_of_some]
      exact (run_bind_of_ok rfl).trans (ih (NodeStore.freeNode s c))

omit [FreeingNodeStore σ] in
omit [NodeView σ] [WipingNodeStore σ] in
/-- Step 2 of a flush. -/
theorem freeExcessSlots_frees (keep : Nat) (g : Handle σ) : ∃ b,
    (freeExcessSlots keep).run g = .ok () ⟨freed (g.file.slotMap.drop keep).reduceOption g.container,
      { g.file with slotMap := g.file.slotMap.take keep, metaDirty := b }⟩ ∧
    (b = true ↔ g.file.metaDirty = true ∨ keep < g.file.slotMap.length) := by
  unfold freeExcessSlots
  rw [run_bind_of_ok run_get]
  by_cases hkeep : keep < g.file.slotMap.length
  · refine ⟨true, ?_, by simp [hkeep]⟩
    rw [if_pos hkeep, run_bind_of_ok (onContainer_run (freeIfSome_run _ _))]
    exact modifyFile_ok.mpr rfl
  · refine ⟨g.file.metaDirty, ?_, by simp [hkeep]⟩
    rw [if_neg hkeep, List.drop_eq_nil_of_le (Nat.not_lt.mp hkeep),
      List.take_of_length_le (Nat.not_lt.mp hkeep)]
    rfl

end Frees

/-! ## The head -/

/-- The bytes a flush finds for the head, given what the head slot holds. -/
def headData (f : OpenFile) (head : Option VaultNode) : Option (List UInt8) :=
  match f.cache.get 0 with
  | some d => some (cutHead f.totalSize d)
  | none => head.bind headBytes

/-- Index blocks written to the slots at the end of a free list; `last` is the slot of the last. -/
inductive ChainFinds (cipher : Container.CipherAlgorithm) :
    List (List Nat) → Option Nat → List Nat → Option Nat → Prop
  | done {next : Option Nat} {pool : List Nat} : ChainFinds cipher [] next pool next
  | block {piece : List Nat} {pieces : List (List Nat)} {next last : Option Nat} {pool : List Nat}
      {slot : Nat} : Fits cipher (indexNode piece next) →
      ChainFinds cipher pieces (some slot) pool last →
      ChainFinds cipher (piece :: pieces) next (pool ++ [slot]) last

/-- The pieces of the ids that do not go into the head. -/
def indexPieces (ids : List Nat) : List (List Nat) :=
  if ids.length ≤ maxDirectSlots then [] else rchunks maxIndexSlots (ids.drop maxDirectSlots)

section Head

variable [LawfulNodeStore σ]

theorem headChunk_finds {g : Handle σ} {data : List UInt8} (hslot : IsDataSlot g.container g.file.headSlot)
    (h : headData g.file (nodes g.container g.file.headSlot) = some data) :
    headChunk.run g = .ok data g := by
  unfold headChunk
  unfold headData at h
  rw [run_bind_of_ok run_get]
  cases hc : g.file.cache.get 0 with
  | some d =>
    rw [hc] at h
    cases h
    dsimp only [cutHead]
    cases chunkActualSize 0 g.file.totalSize <;> rfl
  | none =>
    rw [hc] at h
    obtain ⟨n, hn, hdata⟩ := Option.bind_eq_some_iff.mp h
    dsimp only
    rw [run_bind_of_ok (onContainer_run (readNode_run hslot hn))]
    cases n with
    | file fb => cases hdata; rfl
    | fileData d => cases hdata
    | directory d => cases hdata
    | fileIndex fi => cases hdata

theorem writeChainFrom_finds {cipher : Container.CipherAlgorithm} {pieces : List (List Nat)}
    {next last : Option Nat} {pool : List Nat} (h : ChainFinds cipher pieces next pool last) {c : σ}
    (hcipher : NodeStore.cipher c = cipher) (hpool : free c = pool) (hdata : ∀ s ∈ pool, IsDataSlot c s) :
    ∃ c', (writeChainFrom pieces next).run c = .ok last c' ∧ SameVolume c c' := by
  induction h generalizing c with
  | done => exact ⟨c, rfl, .refl c⟩
  | @block piece pieces next last pool slot hfits _ ih =>
    obtain ⟨s, c₁, hrun⟩ := writeNode_run (c := c) (by rw [hpool]; simp) (by rw [hcipher]; exact hfits)
    have hmem := LawfulNodeStore.writeNode_ok_free (writeNode_store hrun)
    obtain ⟨hfree, -, -, -, hsame⟩ := LawfulNodeStore.writeNode_ok (writeNode_store hrun)
      (hdata s (hpool ▸ hmem))
    -- the allocator takes the last slot
    obtain ⟨rfl, hlast⟩ := List.append_inj' (hpool.symm.trans hfree) rfl
    obtain rfl : slot = s := by simpa using hlast
    obtain ⟨c', hrest, hsame'⟩ := ih (hsame.cipher.trans hcipher) rfl fun t ht =>
      hsame.isDataSlot.mpr (hdata t (List.mem_append_left _ ht))
    exact ⟨c', by rw [writeChainFrom, run_bind_of_ok hrun]; exact hrest, hsame.trans hsame'⟩

theorem placeIds_finds {c : σ} {ids : List Nat} {chain : Option Nat}
    (h : ChainFinds (NodeStore.cipher c) (indexPieces ids) none (free c) chain)
    (hdata : ∀ s ∈ free c, IsDataSlot c s) :
    ∃ c', (placeIds ids).run c = .ok (ids.take maxDirectSlots, chain) c' ∧ SameVolume c c' := by
  unfold placeIds
  unfold indexPieces at h
  by_cases hdirect : ids.length ≤ maxDirectSlots
  · rw [if_pos hdirect] at h ⊢
    cases h
    exact ⟨c, by rw [List.take_of_length_le hdirect]; rfl, .refl c⟩
  · rw [if_neg hdirect] at h ⊢
    obtain ⟨c', hrun, hsame⟩ := writeChainFrom_finds h rfl rfl hdata
    have hne : ¬ (ids.drop maxDirectSlots).isEmpty = true := by
      rw [List.isEmpty_iff, List.drop_eq_nil_iff]
      exact hdirect
    refine ⟨c', ?_, hsame⟩
    rw [writeIndexChain, if_neg hne, run_bind_of_ok hrun]
    rfl

end Head

/-! ## The old chain -/

/-- The links that are left when the slots `lost` have been written or wiped. -/
def linkLeft (c : σ) (lost : List Nat) (t : Nat) : Option (Option Nat) :=
  if t ∈ lost then none else blockLink (nodes c t)

section Chain

variable {c c₁ : σ}
  {lost slots : List Nat} {first : Option Nat}

omit [NodeStore σ] in
/-- The walk stays in the volume. -/
theorem walk_within {D : Nat → Prop} (hc : StoreWithin D c) (hfirst : ∀ s ∈ first, D s)
    (hwalk : EraseWalk (linkLeft c lost) first slots) : ∀ s ∈ slots, D s := by
  refine hwalk.all hfirst fun a b ha hlink => ?_
  unfold linkLeft at hlink
  split at hlink
  next => cases hlink
  next =>
    cases hn : nodes c a with
    | none => rw [hn] at hlink; cases hlink
    | some n =>
      rw [hn] at hlink
      cases n with
      | fileIndex fi =>
        refine hc.refs a _ ha hn b (List.mem_append_right _ ?_)
        rw [Option.mem_toList]
        exact Option.some.inj hlink
      | file fb => cases hlink
      | fileData d => cases hlink
      | directory d => cases hlink

variable [WipingNodeStore σ] [FreeingNodeStore σ] [FiniteNodeStore σ]

/-- The old chain is freed along the links that are left. -/
theorem freeIndexChain_finds (hc : StoreWithin (IsDataSlot c) c) (hfirst : ∀ s ∈ first, IsDataSlot c s)
    (hwalk : EraseWalk (linkLeft c lost) first slots) (hsame : SameVolume c c₁)
    (hlinks : ∀ t, IsDataSlot c t → blockLink (nodes c₁ t) = linkLeft c lost t) :
    (freeIndexChain first).run c₁ = .ok () (freed slots c₁) := by
  have hslots := walk_within hc hfirst hwalk
  have hlinkOf : ∀ s ∈ slots, linkOf c₁ s = linkLeft c lost s := fun s hs => by
    rw [linkOf, LawfulNodeStore.readNode_eq c₁ s (hsame.isDataSlot.mpr (hslots s hs))]
    exact hlinks s (hslots s hs)
  have hdata : ∀ s ∈ slots, IsDataSlot c₁ s := fun s hs => hsame.isDataSlot.mpr (hslots s hs)
  unfold freeIndexChain
  rw [run_bind_of_ok run_get]
  refine freeChainFrom_walk (hwalk.congr hlinkOf) (fun s hs _ => hdata s hs) ?_
  -- the blocks are different slots, and at most one more slot is visited
  obtain ⟨blocks, tail, rfl, htail, hnodup, -⟩ := hwalk.split
  have hle := FiniteNodeStore.length_le_slotCount c₁ blocks hnodup fun s hs =>
    hdata s (List.mem_append_left _ hs)
  rw [List.length_append, chainFuel]
  omega

end Chain

/-! ## The whole flush -/

/-- A handle with nothing to flush. -/
def Idle (f : OpenFile) : Prop := f.dirty.isEmpty = true ∧ f.metaDirty = false

/-- The slot map once the chunks are stored. -/
def filledMap (ord : IterOrder Nat) (c : σ) (f : OpenFile) : List (Option Nat) :=
  fill f.slotMap (newChunks f (toStore ord f)) (free c).reverse

/-- The slots past the end of the file, which go back. -/
def excessSlots (ord : IterOrder Nat) (c : σ) (f : OpenFile) : List Nat :=
  ((filledMap ord c f).drop (chunkLimit f.totalSize)).reduceOption

/-- The slots that hold something else once they are back. -/
def lostSlots (ord : IterOrder Nat) (c : σ) (f : OpenFile) : List Nat :=
  storedSlots f (free c).reverse (toStore ord f) ++ excessSlots ord c f

/-- The free list by then. -/
def freeLeft (ord : IterOrder Nat) (c : σ) (f : OpenFile) : List Nat :=
  (excessSlots ord c f).foldl (fun l s => insertFree s l)
    ((free c).reverse.drop (newChunks f (toStore ord f)).length).reverse

/-- The ids the head and its index blocks list. -/
def headIds (ord : IterOrder Nat) (c : σ) (f : OpenFile) : List Nat :=
  continuationSlots (chunkCount f.totalSize) ((filledMap ord c f).take (chunkLimit f.totalSize))

/-- The flush rewrites the head. -/
def RewritesHead (ord : IterOrder Nat) (f : OpenFile) : Prop :=
  f.metaDirty = true ∨ newChunks f (toStore ord f) ≠ [] ∨ chunkLimit f.totalSize < f.slotMap.length ∨
    0 ∈ f.dirty

/-- What rewriting the head needs: its bytes, slots for its index blocks, which may be those of the
    old chain, and that all of it fits. -/
def HeadFinds (ord : IterOrder Nat) (c : σ) (f : OpenFile) : Prop :=
  ∃ data slots chain,
    headData f (if f.headSlot ∈ lostSlots ord c f then none else nodes c f.headSlot) = some data ∧
    EraseWalk (linkLeft c (lostSlots ord c f)) f.indexChain slots ∧
    ChainFinds (NodeStore.cipher c) (indexPieces (headIds ord c f)) none
      (slots.foldl (fun l s => insertFree s l) (freeLeft ord c f)) chain ∧
    Fits (NodeStore.cipher c) (headNode f.totalSize ((headIds ord c f).take maxDirectSlots) chain data)

/-- What a flush needs of the state before it. -/
structure FlushFinds (ord : IterOrder Nat) (c : σ) (f : OpenFile) : Prop where
  /-- Every chunk fits a slot. -/
  fits : ∀ ci ∈ toStore ord f, ∀ d, f.cache.get ci = some d → ci < f.slotMap.length →
    Fits (NodeStore.cipher c) (dataNode d)
  /-- There are free slots for the new chunks. -/
  room : (newChunks f (toStore ord f)).length ≤ (free c).length
  head : RewritesHead ord f → HeadFinds ord c f

section Flush

variable [WipingNodeStore σ] [FreeingNodeStore σ] [FiniteNodeStore σ] {c : σ} {f : OpenFile}
  {ord : IterOrder Nat}

/-- Rewriting the head, on the state that steps 1 and 2 leave. -/
theorem rewriteHead_finds {c₁ : σ} {b : Bool} (hw : HandleWithin (IsDataSlot c) ⟨c, f⟩)
    (hsame : SameVolume c c₁) (hfree : free c₁ = freeLeft ord c f)
    (hdata : ∀ s ∈ free c₁, IsDataSlot c s)
    (hkept : ∀ t, IsDataSlot c t → t ∉ lostSlots ord c f → nodes c₁ t = nodes c t)
    (hlost : ∀ t ∈ lostSlots ord c f, blockLink (nodes c₁ t) = none)
    (h : HeadFinds ord c f) : ∃ h', rewriteHead.run ⟨c₁, { f with
      slotMap := (filledMap ord c f).take (chunkLimit f.totalSize), metaDirty := b }⟩ = .ok () h' := by
  obtain ⟨data, slots, chain, hhead, hwalk, hchain, hfits⟩ := h
  have hslots := walk_within hw.container hw.file.chain hwalk
  have hhead₁ : headData f (nodes c₁ f.headSlot) = some data := by
    split at hhead
    next =>
      -- the bytes come from the cache
      unfold headData at hhead ⊢
      cases hc : f.cache.get 0 with
      | some d => rw [hc] at hhead; exact hhead
      | none => rw [hc] at hhead; cases hhead
    next hout => rw [hkept _ hw.file.head hout]; exact hhead
  have hwalked := freeIndexChain_finds hw.container hw.file.chain hwalk hsame fun t ht => by
    unfold linkLeft
    split
    next hmem => exact hlost t hmem
    next hout => rw [hkept t ht hout]
  obtain ⟨hsame₂, -, -⟩ := freed_nodes (c := c₁) fun s hs => hsame.isDataSlot.mpr (hslots s hs)
  have hcipher : NodeStore.cipher (freed slots c₁) = NodeStore.cipher c := hsame₂.cipher.trans hsame.cipher
  obtain ⟨c₃, hplace, hsame₃⟩ := @placeIds_finds σ _ _ _ (freed slots c₁) (headIds ord c f) chain
    (by rw [hcipher, freed_free, hfree]; exact hchain) fun s hs => by
      rw [(free_freed slots c₁).mem_iff] at hs
      refine hsame₂.isDataSlot.mpr (hsame.isDataSlot.mpr ?_)
      exact (List.mem_append.mp hs).elim (hslots s) (hdata s)
  obtain ⟨c₄, hupdate⟩ := updateNode_run (c := c₃) (s := f.headSlot)
    (by rw [hsame₃.cipher, hcipher]; exact hfits)
  unfold rewriteHead
  rw [run_bind_of_ok (headChunk_finds (hsame.isDataSlot.mpr hw.file.head) hhead₁), run_bind_of_ok run_get]
  dsimp only
  rw [run_bind_of_ok (onContainer_run hwalked), run_bind_of_ok (onContainer_run hplace)]
  exact ⟨_, onContainer_run hupdate⟩

omit [NodeView σ] [WipingNodeStore σ] [FreeingNodeStore σ] [FiniteNodeStore σ] in
theorem flushHandle_idle (h : Idle f) : (flushHandle ord).run ⟨c, f⟩ = .ok () ⟨c, f⟩ := by
  unfold flushHandle
  rw [run_bind_of_ok run_get, if_pos (show f.dirty.isEmpty = true ∧ f.metaDirty = false from h)]
  rfl

/-- A flush that finds what it needs succeeds. -/
theorem flushHandle_finds (hw : HandleWithin (IsDataSlot c) ⟨c, f⟩) (h : Idle f ∨ FlushFinds ord c f) :
    ∃ h', (flushHandle ord).run ⟨c, f⟩ = .ok () h' := by
  by_cases hidle : Idle f
  · exact ⟨_, flushHandle_idle hidle⟩
  unfold flushHandle
  rw [run_bind_of_ok run_get]
  obtain ⟨hfits, hroom, hhead⟩ := h.resolve_left hidle
  obtain ⟨g, hstore, hst⟩ := storeDirtyChunks_finds hw hfits hroom
  obtain ⟨b, hfile, hb⟩ := hst.file
  have hw₁ : HandleWithin (IsDataSlot c) g :=
    ((Keeps.get.bind fun _ _ => Keeps.forM fun ci _ => storeChunk_keeps ci :
      Keeps (HandleWithin (IsDataSlot c)) (storeDirtyChunks ord) fun _ => True).ok hw hstore).1
  obtain ⟨b', hcut, hb'⟩ := freeExcessSlots_frees (chunkLimit f.totalSize) g
  have hw₂ := ((freeExcessSlots_keeps _).ok hw₁ hcut).1
  have hmap : g.file.slotMap = filledMap ord c f := by rw [hfile]; rfl
  have hexcess : ∀ s ∈ excessSlots ord c f, IsDataSlot c s := fun s hs => by
    have hmem := List.mem_of_mem_drop (List.reduceOption_mem_iff.mp hs)
    rw [← hmap] at hmem
    exact hw₁.file.slots s hmem
  rw [hmap] at hcut hb' hw₂
  change (freeExcessSlots (max (chunkCount f.totalSize) 1)).run g =
    .ok () ⟨freed (excessSlots ord c f) g.container, _⟩ at hcut
  change HandleWithin (IsDataSlot c) ⟨freed (excessSlots ord c f) g.container, _⟩ at hw₂
  rw [if_neg (show ¬ (f.dirty.isEmpty = true ∧ f.metaDirty = false) from hidle), run_bind_of_ok hstore,
    run_bind_of_ok hcut, run_bind_of_ok run_get]
  dsimp only
  have hdirty : g.file.dirty = f.dirty := by rw [hfile]
  by_cases hneeds : b' = true ∨ 0 ∈ g.file.dirty
  · have hrewrites : RewritesHead ord f := by
      rw [hb', hdirty, hfile] at hneeds
      dsimp only [filledMap] at hneeds
      rw [hb, length_fill] at hneeds
      exact or_assoc.mp (or_assoc.mp hneeds)
    obtain ⟨hsame, hwiped, hkept⟩ := freed_nodes (c := g.container) fun s hs =>
      hst.volume.isDataSlot.mpr (hexcess s hs)
    have hfree : free (freed (excessSlots ord c f) g.container) = freeLeft ord c f := by
      rw [freed_free, freeLeft, ← hst.pool, List.reverse_reverse]
    have hkept' : ∀ t, IsDataSlot c t → t ∉ lostSlots ord c f →
        nodes (freed (excessSlots ord c f) g.container) t = nodes c t := fun t ht hout => by
      obtain ⟨hstored, hexc⟩ := not_or.mp (mt List.mem_append.mpr hout)
      exact (hkept t (hst.volume.isDataSlot.mpr ht) hexc).trans (hst.kept t ht hstored)
    have hlost : ∀ t ∈ lostSlots ord c f,
        blockLink (nodes (freed (excessSlots ord c f) g.container) t) = none := fun t ht => by
      by_cases hexc : t ∈ excessSlots ord c f
      · rw [hwiped t hexc]
        rfl
      · have hstored := (List.mem_append.mp ht).resolve_right hexc
        obtain ⟨d, hd⟩ := hst.data t hstored
        rw [hkept t (hst.volume.isDataSlot.mpr (storedSlots_within hw _ t hstored)) hexc, hd]
        rfl
    obtain ⟨h', hrun⟩ := @rewriteHead_finds σ _ _ _ _ _ c f ord _ b' hw (hst.volume.trans hsame) hfree
      hw₂.container.free hkept' hlost (hhead hrewrites)
    rw [if_pos hneeds, hfile]
    exact ⟨_, by rw [run_bind_of_ok hrun]; exact modifyFile_ok.mpr rfl⟩
  · rw [if_neg hneeds]
    exact ⟨_, modifyFile_ok.mpr rfl⟩

end Flush

end Venom.Fuse
