import Venom.Fuse.Session

/-! # Slot numbers stay in the volume

A slot number travels from the free list into nodes, from nodes into handles and inodes,
and back.  Whatever the driver is asked to do, and however a call ends, all the slot
numbers it knows are data slots of the volume, and no node and no cache holds more than a
chunk of bytes in one piece: that is the invariant `DriverWithin`, which every operation
keeps.  It says nothing about which node a slot holds.
-/

namespace Venom.Fuse

open Venom.Storage
open Venom.Library
open Venom.Library.StateError

/-- The slots a node refers to. -/
def refs : VaultNode → List Nat
  | .directory d => d.entries.map (·.slot)
  | .file f => f.dataSlots ++ f.indexChain.toList
  | .fileData _ => []
  | .fileIndex f => f.slotIds ++ f.nextIndex.toList

/-- The bytes of a node. -/
def contents : VaultNode → List UInt8
  | .directory _ => []
  | .file f => f.data
  | .fileData d => d.data
  | .fileIndex _ => []

/-- A node that refers to data slots, and has a chunk of bytes at most. -/
structure NodeWithin (D : Nat → Prop) (n : VaultNode) : Prop where
  refs : ∀ t ∈ refs n, D t
  chunk : (contents n).length ≤ chunkSize

variable {σ : Type} [NodeStore σ] [NodeView σ]

/-- The data slots are `D`, and so are the free slots and what the nodes refer to. -/
structure StoreWithin (D : Nat → Prop) (c : σ) : Prop where
  dataSlot : IsDataSlot c = D
  free : ∀ s ∈ free c, D s
  nodes : ∀ s n, D s → nodes c s = some n → NodeWithin D n

structure FileWithin (D : Nat → Prop) (f : OpenFile) : Prop where
  head : D f.headSlot
  chain : ∀ s ∈ f.indexChain, D s
  slots : ∀ s, some s ∈ f.slotMap → D s
  cached : ∀ i d, f.cache.get i = some d → d.length ≤ chunkSize

structure HandleWithin (D : Nat → Prop) (h : Handle σ) : Prop where
  container : StoreWithin D h.container
  file : FileWithin D h.file

structure DriverWithin (D : Nat → Prop) (s : VenomFuse σ) : Prop where
  container : StoreWithin D s.container
  inodes : ∀ ino slot, s.inodes.slotOf ino = some slot → D slot
  handles : ∀ fh f, s.openFiles.get fh = some f → FileWithin D f

section Store

variable {D : Nat → Prop}

omit [NodeStore σ] in
theorem StoreWithin.refs {c : σ} (h : StoreWithin D c) (s : Nat) (n : VaultNode) (hs : D s)
    (hn : Storage.nodes c s = some n) : ∀ t ∈ Fuse.refs n, D t := (h.nodes s n hs hn).refs


/-- One slot gets a node that refers to data slots, or none. -/
theorem StoreWithin.changed {c c' : σ} {s : Nat} (h : StoreWithin D c) (hsame : SameVolume c c')
    (hfree : ∀ t ∈ Storage.free c', D t) (hagree : NodesAgreeExcept s c c')
    (hnode : ∀ n, Storage.nodes c' s = some n → NodeWithin D n) : StoreWithin D c' where
  dataSlot := hsame.dataSlot.trans h.dataSlot
  free := hfree
  nodes t n ht hn := by
    by_cases hts : t = s
    · subst hts
      exact hnode n hn
    · rw [hagree t (by rw [h.dataSlot]; exact ht) hts] at hn
      exact h.nodes t n ht hn

theorem StoreWithin.agree {c c' : σ} (h : StoreWithin D c) (hsame : SameVolume c c')
    (hfree : ∀ t ∈ Storage.free c', D t) (hagree : NodesAgree c c') : StoreWithin D c' where
  dataSlot := hsame.dataSlot.trans h.dataSlot
  free := hfree
  nodes t n ht hn := by
    rw [hagree t (by rw [h.dataSlot]; exact ht)] at hn
    exact h.nodes t n ht hn

variable [LawfulNodeStore σ]

theorem readNode_keeps {slot : Nat} (hslot : D slot) :
    Keeps (StoreWithin D) (readNode (σ := σ) slot) (NodeWithin D) where
  ok hs hrun := by
    obtain ⟨rfl, hn⟩ := readNode_inv hrun
    exact ⟨hs, hs.nodes _ _ hslot (hn (by rw [hs.dataSlot]; exact hslot))⟩
  error {c c' e} hs hrun := by
    change readNode slot c = _ at hrun
    unfold readNode at hrun
    split at hrun
    · cases hrun
    · cases hrun; exact hs

theorem writeNode_keeps {n : VaultNode} (hn : NodeWithin D n) :
    Keeps (StoreWithin D) (writeNode (σ := σ) n) D where
  ok {c c' s} hs hrun := by
    have hmem := LawfulNodeStore.writeNode_ok_free (writeNode_store hrun)
    have hslot := hs.free s hmem
    obtain ⟨hfree, -, hnode, hothers, hsame⟩ := LawfulNodeStore.writeNode_ok
      (writeNode_store hrun) (by rw [hs.dataSlot]; exact hslot)
    refine ⟨hs.changed hsame (fun t ht => hs.free t ?_) hothers fun m hm => ?_, hslot⟩
    · rw [hfree]; exact List.mem_append_left _ ht
    · rw [hnode] at hm
      cases hm
      exact hn
  error {c c' e} hs hrun := by
    obtain ⟨e', hrun'⟩ := writeNode_failed hrun
    obtain ⟨hagree, hsame, hfree⟩ := LawfulNodeStore.writeNode_error hrun'
    refine hs.agree hsame (fun t ht => ?_) hagree
    rcases hfree with ⟨-, hnil⟩ | ⟨s, happ, -⟩
    · rw [hnil] at ht; cases ht
    · exact hs.free t (by rw [happ]; exact List.mem_append_left _ ht)

theorem updateNode_keeps {slot : Nat} {n : VaultNode} (hslot : D slot) (hn : NodeWithin D n) :
    Keeps (StoreWithin D) (updateNode (σ := σ) slot n) fun _ => True where
  ok {c c' _} hs hrun := by
    obtain ⟨-, hnode, hfree, hothers, hsame⟩ := LawfulNodeStore.updateNode_ok
      (updateNode_store hrun) (by rw [hs.dataSlot]; exact hslot)
    refine ⟨hs.changed hsame (by rw [hfree]; exact hs.free) hothers fun m hm => ?_, trivial⟩
    rw [hnode] at hm
    cases hm
    exact hn
  error hs hrun := by
    obtain ⟨-, hagree, hfree, hsame⟩ := updateNode_failed hrun
    exact hs.agree hsame (by rw [hfree]; exact hs.free) hagree

end Store

section Chain

variable [WipingNodeStore σ] {D : Nat → Prop}

theorem freeNode_within {c : σ} {slot : Nat} (hslot : D slot) (hs : StoreWithin D c) :
    StoreWithin D (NodeStore.freeNode slot c) := by
  have hdata : IsDataSlot c slot := by rw [hs.dataSlot]; exact hslot
  obtain ⟨hfree, hothers, hsame⟩ := LawfulNodeStore.freeNode_spec c slot hdata
  refine hs.changed hsame (fun t ht => ?_) hothers fun n hn => ?_
  · rw [hfree, mem_insertFree] at ht
    rcases ht with rfl | ht
    · exact hslot
    · exact hs.free t ht
  · rw [WipingNodeStore.freeNode_wiped c slot hdata] at hn
    cases hn

theorem freeNode_keeps {slot : Nat} (hslot : D slot) :
    Keeps (StoreWithin D) (freeNode (σ := σ) slot) fun _ => True :=
  .modify fun _ => freeNode_within hslot

/-! ## Index chains -/

theorem indexNode_within {ids : List Nat} {next : Option Nat} (hids : ∀ t ∈ ids, D t)
    (hnext : ∀ t ∈ next, D t) : NodeWithin D (indexNode ids next) where
  refs t ht := by
    simp only [refs, indexNode, List.mem_append, Option.mem_toList] at ht
    exact ht.elim (hids t) (hnext t)
  chunk := Nat.zero_le _

theorem collectIndex_keeps (fuel : Nat) {first : Option Nat} (hfirst : ∀ s ∈ first, D s) :
    Keeps (StoreWithin D) (collectIndex (σ := σ) fuel first) fun ids => ∀ s ∈ ids, D s := by
  induction fuel generalizing first with
  | zero =>
    cases first with
    | none => exact .pure (by simp)
    | some s => exact .throw _
  | succ fuel ih =>
    cases first with
    | none => exact .pure (by simp)
    | some s =>
      refine (readNode_keeps (hfirst s rfl)).bind fun n hn => ?_
      cases n with
      | fileIndex fi =>
        have hn := hn.refs
        simp only [refs, List.mem_append, Option.mem_toList] at hn
        refine (ih fun t ht => hn t (.inr ht)).bind fun rest hrest => .pure fun t ht => ?_
        rcases List.mem_append.mp ht with ht | ht
        · exact hn t (.inl ht)
        · exact hrest t ht
      | directory => exact .throw _
      | file => exact .throw _
      | fileData => exact .throw _

theorem buildSlotMap_keeps {headSlot : Nat} (hhead : D headSlot) :
    Keeps (StoreWithin D) (buildSlotMap (σ := σ) headSlot) fun r =>
      (∀ s ∈ r.2.1, D s) ∧ ∀ s, some s ∈ r.2.2 → D s := by
  refine (readNode_keeps hhead).bind fun n hn => ?_
  cases n with
  | file fb =>
    have hn := hn.refs
    simp only [refs, List.mem_append, Option.mem_toList] at hn
    refine Keeps.get.bind fun c _ =>
      (collectIndex_keeps _ fun s hs => hn s (.inr hs)).bind fun ids hids => .pure ⟨?_, ?_⟩
    · exact fun s hs => hn s (.inr hs)
    · intro s hs
      simp only [List.mem_cons, List.mem_map, List.mem_append, reduceCtorEq, false_or,
        Option.some.injEq, exists_eq_right] at hs
      exact hs.elim (fun h => hn s (.inl h)) (hids s)
  | directory => exact .throw _
  | fileData => exact .throw _
  | fileIndex => exact .throw _

theorem freeChainFrom_keeps (fuel : Nat) {first : Option Nat} (hfirst : ∀ s ∈ first, D s) :
    Keeps (StoreWithin D) (freeChainFrom (σ := σ) fuel first) fun _ => True := by
  induction fuel generalizing first with
  | zero =>
    cases first with
    | none => exact .pure trivial
    | some s => exact .throw _
  | succ fuel ih =>
    cases first with
    | none => exact .pure trivial
    | some s =>
      have hs := hfirst s rfl
      refine Keeps.get.bind fun c hc => ?_
      -- the link is followed only out of a readable index block
      split
      next fi hread =>
        rw [readNode_ok (by rw [hc.dataSlot]; exact hs)] at hread
        have hrefs := hc.refs s _ hs hread
        simp only [refs, List.mem_append, Option.mem_toList] at hrefs
        exact (freeNode_keeps hs).bind fun _ _ => ih fun t ht => hrefs t (.inr ht)
      next => exact freeNode_keeps hs

theorem freeIndexChain_keeps {first : Option Nat} (hfirst : ∀ s ∈ first, D s) :
    Keeps (StoreWithin D) (freeIndexChain (σ := σ) first) fun _ => True :=
  Keeps.get.bind fun _ _ => freeChainFrom_keeps _ hfirst

theorem writeChainFrom_keeps {pieces : List (List Nat)} {next : Option Nat}
    (hpieces : ∀ p ∈ pieces, ∀ s ∈ p, D s) (hnext : ∀ s ∈ next, D s) :
    Keeps (StoreWithin D) (writeChainFrom (σ := σ) pieces next) fun r => ∀ s ∈ r, D s := by
  induction pieces generalizing next with
  | nil => exact .pure hnext
  | cons piece pieces ih =>
    exact (writeNode_keeps (indexNode_within (hpieces piece (.head _)) hnext)).bind fun s hs =>
      ih (fun p hp => hpieces p (.tail _ hp)) (by simpa using hs)

theorem writeIndexChain_keeps {ids : List Nat} (hids : ∀ s ∈ ids, D s) :
    Keeps (StoreWithin D) (writeIndexChain (σ := σ) ids) fun r => ∀ s ∈ r, D s := by
  unfold writeIndexChain
  refine .ite (fun _ => .pure (by simp)) fun _ => writeChainFrom_keeps (fun p hp s hs => ?_) (by simp)
  have hmem : s ∈ (Chunks.rchunks maxIndexSlots ids).reverse.flatten := by
    simp only [List.mem_flatten, List.mem_reverse]
    exact ⟨p, hp, hs⟩
  rw [Chunks.flatten_reverse_rchunks (by decide)] at hmem
  exact hids s hmem

theorem placeIds_keeps {ids : List Nat} (hids : ∀ s ∈ ids, D s) :
    Keeps (StoreWithin D) (placeIds (σ := σ) ids) fun r =>
      (∀ s ∈ r.1, D s) ∧ ∀ s ∈ r.2, D s := by
  unfold placeIds
  refine .ite (fun _ => .pure ⟨hids, by simp⟩) fun _ =>
    (writeIndexChain_keeps fun s hs => hids s (List.mem_of_mem_drop hs)).bind fun chain hchain =>
      .pure ⟨fun s hs => hids s (List.mem_of_mem_take hs), hchain⟩

end Chain

/-! ## Handles -/

section Handles

variable {D : Nat → Prop}

omit [NodeStore σ] in
theorem onContainer_keeps {α : Type} {x : StoreM σ α} {Q : α → Prop}
    (hx : Keeps (StoreWithin D) x Q) : Keeps (HandleWithin D) (onContainer x) Q where
  ok hs hrun := by
    obtain ⟨c, hrun', rfl⟩ := onContainer_ok.mp hrun
    obtain ⟨hc, hQ⟩ := hx.ok hs.container hrun'
    exact ⟨⟨hc, hs.file⟩, hQ⟩
  error {h h' e} hs hrun := by
    change onContainer x h = _ at hrun
    unfold onContainer at hrun
    split at hrun
    next => cases hrun
    next hrun' => cases hrun; exact ⟨hx.error hs.container hrun', hs.file⟩

omit [NodeStore σ] in
theorem modifyFile_keeps {g : OpenFile → OpenFile} (hg : ∀ f, FileWithin D f → FileWithin D (g f)) :
    Keeps (HandleWithin (σ := σ) D) (modifyFile g) fun _ => True :=
  .modify fun _ hs => ⟨hs.container, hg _ hs.file⟩

variable [LawfulNodeStore σ]

/-- A change of the cache or of the flags of a handle. -/
theorem FileWithin.recached {f f' : OpenFile} (h : FileWithin D f) (hhead : f'.headSlot = f.headSlot)
    (hchain : f'.indexChain = f.indexChain) (hmap : f'.slotMap = f.slotMap)
    (hcached : ∀ i d, f'.cache.get i = some d → d.length ≤ chunkSize) : FileWithin D f' :=
  ⟨hhead ▸ h.head, by rw [hchain]; exact h.chain, by rw [hmap]; exact h.slots, hcached⟩

/-- One chunk more in the cache. -/
theorem FileWithin.insert {f f' : OpenFile} {ci : Nat} {data : List UInt8} (h : FileWithin D f)
    (hdata : data.length ≤ chunkSize) (hhead : f'.headSlot = f.headSlot)
    (hchain : f'.indexChain = f.indexChain) (hmap : f'.slotMap = f.slotMap)
    (hcache : f'.cache = f.cache.insert ci data) : FileWithin D f' := by
  refine h.recached hhead hchain hmap fun i d hd => ?_
  rw [hcache, HashMap.get_insert] at hd
  split at hd
  · cases hd; exact hdata
  · exact h.cached i d hd

/-- One chunk less. -/
theorem FileWithin.remove {f f' : OpenFile} {ci : Nat} (h : FileWithin D f)
    (hhead : f'.headSlot = f.headSlot) (hchain : f'.indexChain = f.indexChain)
    (hmap : f'.slotMap = f.slotMap) (hcache : f'.cache = f.cache.remove ci) : FileWithin D f' := by
  refine h.recached hhead hchain hmap fun i d hd => ?_
  rw [hcache, HashMap.get_remove] at hd
  split at hd
  · cases hd
  · exact h.cached i d hd

theorem FileWithin.slotAt {f : OpenFile} (h : FileWithin D f) {ci s : Nat}
    (hs : f.slotMap[ci]? = some (some s)) : D s := h.slots s (List.mem_of_getElem? hs)

theorem evict_within (ord : IterOrder Nat) {f : OpenFile} (h : FileWithin D f) :
    FileWithin D (evict ord f) := by
  unfold evict
  split
  · split
    · exact h.remove rfl rfl rfl rfl
    · exact h
  · exact h

theorem loadChunk_keeps (ci : Nat) :
    Keeps (HandleWithin D) (loadChunk (σ := σ) ci) fun data => data.length ≤ chunkSize := by
  refine Keeps.get.bind fun h hh => ?_
  split
  next slotId hslot =>
    refine (onContainer_keeps (readNode_keeps (hh.file.slotAt hslot))).bind fun n hn => ?_
    cases n with
    | file fb => exact .ite (fun _ => .pure hn.chunk) fun _ => .throw _
    | fileData d => exact .pure hn.chunk
    | directory => exact .throw _
    | fileIndex => exact .throw _
  next =>
    refine .ite (fun _ => ?_) fun _ => .pure (Nat.zero_le _)
    refine (onContainer_keeps (readNode_keeps hh.file.head)).bind fun n hn => ?_
    cases n with
    | file fb => exact .pure hn.chunk
    | fileData => exact .throw _
    | directory => exact .throw _
    | fileIndex => exact .throw _
  next => exact .throw _

theorem ensureCached_keeps (ord : IterOrder Nat) (ci : Nat) :
    Keeps (HandleWithin D) (ensureCached (σ := σ) ord ci) fun _ => True := by
  refine Keeps.get.bind fun h _ => .ite (fun _ => .pure trivial) fun _ => ?_
  exact (loadChunk_keeps ci).bind fun data hdata =>
    modifyFile_keeps fun f hf => (evict_within ord hf).insert hdata rfl rfl rfl rfl

theorem readLoop_keeps (ord : IterOrder Nat) (stop pos : Nat) (acc : List UInt8) :
    Keeps (HandleWithin D) (readLoop (σ := σ) ord stop pos acc) fun _ => True := by
  induction h : stop - pos using Nat.strong_induction_on generalizing pos acc with
  | _ n ih =>
    rw [readLoop]
    refine .ite (fun hlt => ?_) fun _ => .pure trivial
    refine (ensureCached_keeps ord _).bind fun _ _ => Keeps.get.bind fun hd _ => ?_
    split
    next => exact .throw _
    next data _ =>
      exact .ite (fun _ => .pure trivial) fun hne => ih _ (by omega) _ _ rfl

theorem readHandle_keeps (ord : IterOrder Nat) (offset size : Nat) :
    Keeps (HandleWithin D) (readHandle (σ := σ) ord offset size) fun _ => True :=
  Keeps.get.bind fun _ _ => .ite (fun _ => .pure trivial) fun _ => readLoop_keeps _ _ _ _

theorem assignSlot_within {ci slot : Nat} (hslot : D slot) {f : OpenFile} (h : FileWithin D f) :
    FileWithin D (assignSlot ci slot f) := by
  refine ⟨h.head, h.chain, fun s hs => ?_, h.cached⟩
  rcases List.mem_or_eq_of_mem_set hs with hs | hs
  · exact h.slots s hs
  · cases hs; exact hslot

theorem storeChunk_keeps (ci : Nat) :
    Keeps (HandleWithin D) (storeChunk (σ := σ) ci) fun _ => True := by
  refine Keeps.get.bind fun h hh => ?_
  split
  next => exact .pure trivial
  next data hdata =>
    have hn : NodeWithin D (dataNode data) := ⟨by simp [refs, dataNode], hh.file.cached ci data hdata⟩
    split
    next slotId hslot => exact onContainer_keeps (updateNode_keeps (hh.file.slotAt hslot) hn)
    next =>
      exact (onContainer_keeps (writeNode_keeps hn)).bind fun slot hslot =>
        modifyFile_keeps fun f hf => assignSlot_within hslot hf
    next => exact .pure trivial

theorem writeThroughChunk_keeps (ci : Nat) :
    Keeps (HandleWithin D) (writeThroughChunk (σ := σ) ci) fun _ => True := by
  refine Keeps.get.bind fun h₁ _ => .ite (fun _ => ?_) fun _ => .pure trivial
  exact (storeChunk_keeps ci).bind fun _ _ => modifyFile_keeps fun f hf => hf.remove rfl rfl rfl rfl

theorem writeThroughFlush_keeps (ord : IterOrder Nat) (n : Nat) :
    Keeps (HandleWithin D) (writeThroughFlush (σ := σ) ord n) fun _ => True :=
  Keeps.get.bind fun _ _ => .forM fun ci _ => writeThroughChunk_keeps ci

end Handles

section Flushes

variable [WipingNodeStore σ] {D : Nat → Prop}

theorem freeExcessSlots_keeps (keep : Nat) :
    Keeps (HandleWithin D) (freeExcessSlots (σ := σ) keep) fun _ => True := by
  refine Keeps.get.bind fun h hh => .ite (fun _ => ?_) fun _ => .pure trivial
  refine (onContainer_keeps (.forM fun opt hopt => ?_)).bind fun _ _ =>
    modifyFile_keeps fun f hf =>
      ⟨hf.head, hf.chain, fun s hs => hf.slots s (List.mem_of_mem_take hs), hf.cached⟩
  cases opt with
  | none => exact .pure trivial
  | some s => exact freeNode_keeps (hh.file.slots s (List.mem_of_mem_drop hopt))

theorem headChunk_keeps :
    Keeps (HandleWithin D) (headChunk (σ := σ)) fun data => data.length ≤ chunkSize := by
  refine Keeps.get.bind fun h hh => ?_
  split
  next d hd =>
    have hle := hh.file.cached 0 d hd
    split
    · exact .pure ((List.length_take_le' _ _).trans hle)
    · exact .pure hle
  next =>
    refine (onContainer_keeps (readNode_keeps hh.file.head)).bind fun n hn => ?_
    cases n with
    | file fb => exact .pure hn.chunk
    | fileData => exact .throw _
    | directory => exact .throw _
    | fileIndex => exact .throw _

theorem continuationSlots_within {n : Nat} {f : OpenFile} (h : FileWithin D f) :
    ∀ s ∈ continuationSlots n f.slotMap, D s := by
  intro s hs
  rw [continuationSlots, List.reduceOption_mem_iff] at hs
  exact h.slots s (List.mem_of_mem_take (List.mem_of_mem_drop hs))

theorem rewriteHead_keeps : Keeps (HandleWithin D) (rewriteHead (σ := σ)) fun _ => True := by
  refine headChunk_keeps.bind fun chunk0 hchunk0 => Keeps.get.bind fun h hh => ?_
  refine (onContainer_keeps (freeIndexChain_keeps hh.file.chain)).bind fun _ _ => ?_
  refine (onContainer_keeps (placeIds_keeps (continuationSlots_within hh.file))).bind
    fun ⟨dataSlots, newChain⟩ ⟨hids, hchain⟩ => ?_
  have hset : ∀ f, FileWithin D f → FileWithin D { f with indexChain := newChain } :=
    fun f hf => ⟨hf.head, hchain, hf.slots, hf.cached⟩
  refine (modifyFile_keeps hset).bind fun _ _ => ?_
  refine onContainer_keeps (updateNode_keeps hh.file.head ⟨fun t ht => ?_, hchunk0⟩)
  simp only [headNode, refs, List.mem_append, Option.mem_toList] at ht
  exact ht.elim (hids t) (hchain t)

theorem flushHandle_keeps (ord : IterOrder Nat) :
    Keeps (HandleWithin D) (flushHandle (σ := σ) ord) fun _ => True := by
  refine Keeps.get.bind fun h _ => .ite (fun _ => .pure trivial) fun _ => ?_
  refine Keeps.bind (Q := fun _ => True) (Keeps.get.bind fun _ _ => .forM fun ci _ => storeChunk_keeps ci)
    fun _ _ => ?_
  refine (freeExcessSlots_keeps _).bind fun _ _ => Keeps.get.bind fun h₁ _ => ?_
  have hclean : Keeps (HandleWithin D) (modifyFile (σ := σ) markClean) fun _ => True :=
    modifyFile_keeps fun f hf => hf.recached rfl rfl rfl hf.cached
  exact .ite (fun _ => rewriteHead_keeps.bind fun _ _ => hclean) fun _ => hclean

end Flushes

section Writes

variable [LawfulNodeStore σ] {D : Nat → Prop}

theorem extendSlotMap_within (ci : Nat) {f : OpenFile} (h : FileWithin D f) :
    FileWithin D (extendSlotMap ci f) := by
  unfold extendSlotMap
  split
  · refine ⟨h.head, h.chain, fun s hs => ?_, h.cached⟩
    rcases List.mem_append.mp hs with hs | hs
    · exact h.slots s hs
    · simp at hs
  · exact h

theorem writePiece_keeps (ord : IterOrder Nat) (stop pos : Nat) {piece : List UInt8}
    (hpiece : pos % chunkSize + piece.length ≤ chunkSize) :
    Keeps (HandleWithin D) (writePiece (σ := σ) ord stop pos piece) fun _ => True := by
  refine (modifyFile_keeps fun f hf => extendSlotMap_within _ hf).bind fun _ _ => ?_
  refine Keeps.bind (Q := fun _ => True) ?_ fun _ _ => Keeps.get.bind fun h hh => ?_
  · refine Keeps.get.bind fun h _ => .ite (fun _ => .pure trivial) fun _ => ?_
    refine .ite (fun _ => ensureCached_keeps ord _) fun _ => modifyFile_keeps fun f hf => ?_
    exact hf.insert (List.length_replicate.le) rfl rfl rfl rfl
  · split
    next => exact .throw _
    next chunk hchunk =>
      have hle := hh.file.cached _ chunk hchunk
      refine modifyFile_keeps fun f hf => hf.insert ?_ rfl rfl rfl rfl
      rw [Chunks.length_patch]
      exact max_le hle hpiece

theorem writeLoop_keeps (ord : IterOrder Nat) (offset : Nat) (data : List UInt8) (pos : Nat) :
    Keeps (HandleWithin D) (writeLoop (σ := σ) ord offset data pos) fun _ => True := by
  induction h : offset + data.length - pos using Nat.strong_induction_on generalizing pos with
  | _ n ih =>
    rw [writeLoop]
    refine .ite (fun hlt => ?_) fun _ => .pure trivial
    have hpos := pieceLen_pos hlt
    have hmod := Nat.mod_lt pos chunkSize_pos
    refine (writePiece_keeps _ _ _ ?_).bind fun _ _ => ih _ (by omega) _ rfl
    rw [List.length_take]
    unfold pieceLen
    omega

theorem writeHandle_keeps (ord : IterOrder Nat) (offset : Nat) (data : List UInt8) :
    Keeps (HandleWithin D) (writeHandle (σ := σ) ord offset data) fun _ => True := by
  refine (writeLoop_keeps _ _ _ _).bind fun _ _ => Keeps.get.bind fun h _ => ?_
  exact .ite (fun _ => (writeThroughFlush_keeps _ _).bind fun _ _ => .pure trivial)
    fun _ => .pure trivial

/-- A truncation cuts or drops chunks. -/
theorem truncateFile_chunk {newSize i : Nat} {f : OpenFile} {d : List UInt8} (h : FileWithin D f)
    (hd : (truncateFile newSize f).cache.get i = some d) : d.length ≤ chunkSize := by
  rw [truncateFile_get] at hd
  split at hd
  · exact h.cached i d hd
  · split at hd
    · obtain ⟨v, hv, rfl⟩ := Option.map_eq_some_iff.mp hd
      exact (List.length_take_le' _ _).trans (h.cached i v hv)
    · cases hd

theorem resizeFile_within (newSize : Nat) {f : OpenFile} (h : FileWithin D f) :
    FileWithin D (resizeFile newSize f) := by
  unfold resizeFile
  split
  · exact h
  · dsimp only
    split
    · exact h.recached rfl rfl rfl fun i d hd => truncateFile_chunk h hd
    · exact h.recached rfl rfl rfl h.cached

end Writes

/-! ## The driver -/

section Driver

variable {D : Nat → Prop}

omit [NodeStore σ] in
theorem liftStore_keeps {α : Type} {x : StoreM σ α} {Q : α → Prop}
    (hx : Keeps (StoreWithin D) x Q) : Keeps (DriverWithin D) (liftStore x) Q where
  ok hs hrun := by
    obtain ⟨c, hrun', rfl⟩ := liftStore_ok.mp hrun
    obtain ⟨hc, hQ⟩ := hx.ok hs.container hrun'
    exact ⟨⟨hc, hs.inodes, hs.handles⟩, hQ⟩
  error {s s' e} hs hrun := by
    change liftStore x s = _ at hrun
    unfold liftStore at hrun
    split at hrun
    next => cases hrun
    next hrun' => cases hrun; exact ⟨hx.error hs.container hrun', hs.inodes, hs.handles⟩

omit [NodeStore σ] in
theorem DriverWithin.withFile {s : VenomFuse σ} {c : σ} {f : OpenFile} (hs : DriverWithin D s)
    (hc : StoreWithin D c) (hf : FileWithin D f) (fh : Nat) :
    DriverWithin D { s with container := c, openFiles := s.openFiles.insert fh f } := by
  refine ⟨hc, hs.inodes, fun fh' f' hf' => ?_⟩
  rw [HashMap.get_insert] at hf'
  split at hf'
  · cases hf'; exact hf
  · exact hs.handles fh' f' hf'

variable [WipingNodeStore σ]

omit [NodeStore σ] [WipingNodeStore σ] in
theorem withHandle_keeps {α : Type} {fh : Nat} {f : OpenFile} {x : HandleM σ α}
    (hf : FileWithin D f) (hx : Keeps (HandleWithin D) x fun _ => True) :
    Keeps (DriverWithin D) (withHandle fh f x) fun _ => True where
  ok {s s' a} hs hrun := by
    obtain ⟨h', hrun', rfl⟩ := withHandle_ok.mp hrun
    have hh : HandleWithin D ⟨s.container, f⟩ := ⟨hs.container, hf⟩
    obtain ⟨hh', -⟩ := hx.ok hh hrun'
    exact ⟨hs.withFile hh'.container hh'.file fh, trivial⟩
  error {s s' e} hs hrun := by
    change withHandle fh f x s = _ at hrun
    unfold withHandle at hrun
    split at hrun
    next => cases hrun
    next hrun' =>
      cases hrun
      have hh : HandleWithin D ⟨s.container, f⟩ := ⟨hs.container, hf⟩
      have hh' := hx.error hh hrun'
      exact hs.withFile hh'.container hh'.file fh

omit [NodeStore σ] [WipingNodeStore σ] in
theorem slotOfIno_keeps (ino : Nat) : Keeps (DriverWithin D) (slotOfIno (σ := σ) ino) D := by
  refine Keeps.get.bind fun s hs => ?_
  split
  next slot hslot => exact .pure (hs.inodes ino slot hslot)
  next => exact .throw _

omit [NodeStore σ] [WipingNodeStore σ] in
theorem allocFh_keeps : Keeps (DriverWithin D) (allocFh (σ := σ)) fun _ => True :=
  Keeps.get.bind fun _ hs =>
    (Keeps.set ⟨hs.container, hs.inodes, hs.handles⟩).bind fun _ _ => .pure trivial

theorem getOrAlloc_within {m : InodeMap} {slot : Nat} (hslot : D slot)
    (hm : ∀ ino t, m.slotOf ino = some t → D t) (ino t : Nat)
    (h : (m.getOrAlloc slot).2.slotOf ino = some t) : D t := by
  unfold InodeMap.getOrAlloc at h
  split at h
  · exact hm ino t h
  · simp only [InodeMap.slotOf, HashMap.get_insert] at h
    split at h
    · cases h; exact hslot
    · exact hm ino t h

theorem removeSlot_slotOf {m : InodeMap} {slot ino t : Nat}
    (h : (m.removeSlot slot).slotOf ino = some t) : m.slotOf ino = some t := by
  unfold InodeMap.removeSlot at h
  split at h
  · simp only [InodeMap.slotOf, HashMap.get_remove] at h
    split at h
    · cases h
    · exact h
  · exact h

omit [NodeStore σ] [WipingNodeStore σ] in
theorem inoOfSlot_keeps {slot : Nat} (hslot : D slot) :
    Keeps (DriverWithin D) (inoOfSlot (σ := σ) slot) fun _ => True :=
  Keeps.get.bind fun _ hs =>
    (Keeps.set ⟨hs.container, getOrAlloc_within hslot hs.inodes, hs.handles⟩).bind
      fun _ _ => .pure trivial

omit [NodeStore σ] [WipingNodeStore σ] in
theorem forgetSlot_keeps (slot : Nat) :
    Keeps (DriverWithin D) (forgetSlot (σ := σ) slot) fun _ => True :=
  .modify fun _ hs =>
    ⟨hs.container, fun ino t h => hs.inodes ino t (removeSlot_slotOf h), hs.handles⟩

omit [NodeStore σ] [WipingNodeStore σ] in
theorem insertHandle_keeps {fh : Nat} {f : OpenFile} (hf : FileWithin D f) :
    Keeps (DriverWithin D) (insertHandle (σ := σ) fh f) fun _ => True :=
  .modify fun _ hs => hs.withFile hs.container hf fh

/-! ## Directories -/

theorem readDirBlock_keeps {slot : Nat} (hslot : D slot) :
    Keeps (DriverWithin D) (readDirBlock (σ := σ) slot) fun d => ∀ e ∈ d.entries, D e.slot := by
  refine (liftStore_keeps (readNode_keeps hslot)).bind fun n hn => ?_
  cases n with
  | directory d => exact .pure fun e he => hn.refs _ (List.mem_map_of_mem he)
  | file => exact .throw _
  | fileData => exact .throw _
  | fileIndex => exact .throw _

/-- Writing a directory whose entries lead to data slots. -/
theorem updateDir_keeps {slot : Nat} {d : DirectoryBlock} (hslot : D slot)
    (hd : ∀ e ∈ d.entries, D e.slot) :
    Keeps (DriverWithin D) (liftStore (updateNode (σ := σ) slot (.directory d))) fun _ => True := by
  refine liftStore_keeps (updateNode_keeps hslot ⟨fun t ht => ?_, Nat.zero_le _⟩)
  obtain ⟨e, he, rfl⟩ := List.mem_map.mp ht
  exact hd e he

theorem dirAddEntry_keeps {slot : Nat} {entry : DirEntry} (hslot : D slot) (hentry : D entry.slot) :
    Keeps (DriverWithin D) (dirAddEntry (σ := σ) slot entry) fun _ => True := by
  refine (readDirBlock_keeps hslot).bind fun d hd => .ite (fun _ => .throw _) fun _ => ?_
  refine updateDir_keeps hslot fun e he => ?_
  rcases List.mem_append.mp he with he | he
  · exact hd e he
  · rw [List.mem_singleton.mp he]; exact hentry

theorem dirRemoveEntry_keeps {slot : Nat} (hslot : D slot) (name : String) :
    Keeps (DriverWithin D) (dirRemoveEntry (σ := σ) slot name) D := by
  refine (readDirBlock_keeps hslot).bind fun d hd => ?_
  split
  next => exact .throw _
  next e he =>
    refine (updateDir_keeps hslot fun e' he' => hd e' (List.mem_of_mem_eraseP he')).bind fun _ _ => ?_
    exact .pure (hd e (List.mem_of_find?_eq_some he))

theorem linkOrFree_keeps {parent slot : Nat} {entry : DirEntry} (hparent : D parent)
    (hslot : D slot) (hentry : D entry.slot) :
    Keeps (DriverWithin D) (linkOrFree (σ := σ) parent slot entry) fun _ => True where
  ok hs hrun := ⟨((dirAddEntry_keeps hparent hentry).ok hs (linkOrFree_ok hrun)).1, trivial⟩
  error {s s' e} hs hrun := by
    change linkOrFree parent slot entry s = _ at hrun
    unfold linkOrFree at hrun
    split at hrun
    next => cases hrun
    next hadd =>
      cases hrun
      have hs₁ := (dirAddEntry_keeps hparent hentry).error hs hadd
      exact ⟨freeNode_within hslot hs₁.container, hs₁.inodes, hs₁.handles⟩

/-! ## Operations -/

variable {ord : IterOrder Nat}

theorem opLookup_keeps (parent : Nat) (name : String) :
    Keeps (DriverWithin D) (opLookup (σ := σ) parent name) fun _ => True := by
  refine (slotOfIno_keeps parent).bind fun pSlot hp => (readDirBlock_keeps hp).bind fun d hd => ?_
  split
  next => exact .throw _
  next e he =>
    have hslot := hd e (List.mem_of_find?_eq_some he)
    exact (liftStore_keeps (readNode_keeps hslot)).bind fun _ _ =>
      (inoOfSlot_keeps hslot).bind fun _ _ => .pure trivial

theorem opMkdir_keeps (parent : Nat) (name : String) :
    Keeps (DriverWithin D) (opMkdir (σ := σ) parent name) fun _ => True :=
  (slotOfIno_keeps parent).bind fun _ hp =>
    (liftStore_keeps (writeNode_keeps ⟨by simp [refs, emptyDir], Nat.zero_le _⟩)).bind fun _ hslot =>
      (linkOrFree_keeps hp hslot hslot).bind fun _ _ =>
        (inoOfSlot_keeps hslot).bind fun _ _ => .pure trivial

theorem opRmdir_keeps (parent : Nat) (name : String) :
    Keeps (DriverWithin D) (opRmdir (σ := σ) parent name) fun _ => True := by
  refine (slotOfIno_keeps parent).bind fun pSlot hp => (readDirBlock_keeps hp).bind fun d hd => ?_
  split
  next => exact .throw _
  next e he =>
    refine (readDirBlock_keeps (hd e (List.mem_of_find?_eq_some he))).bind fun target _ => ?_
    refine .ite (fun _ => .throw _) fun _ => ?_
    exact (dirRemoveEntry_keeps hp name).bind fun removed hremoved =>
      (liftStore_keeps (freeNode_keeps hremoved)).bind fun _ _ => forgetSlot_keeps _

theorem opCreate_keeps (parent : Nat) (name : String) :
    Keeps (DriverWithin D) (opCreate (σ := σ) parent name) fun _ => True :=
  (slotOfIno_keeps parent).bind fun _ hp =>
    (liftStore_keeps (writeNode_keeps ⟨by simp [refs, headNode], Nat.zero_le _⟩)).bind fun _ hslot =>
      (linkOrFree_keeps hp hslot hslot).bind fun _ _ =>
        (inoOfSlot_keeps hslot).bind fun _ _ => allocFh_keeps.bind fun _ _ =>
          (insertHandle_keeps ⟨hslot, by simp [newFile], by simp [newFile], by simp [newFile]⟩).bind
            fun _ _ => .pure trivial

theorem opUnlink_keeps (parent : Nat) (name : String) :
    Keeps (DriverWithin D) (opUnlink (σ := σ) parent name) fun _ => True := by
  refine (slotOfIno_keeps parent).bind fun pSlot hp =>
    (dirRemoveEntry_keeps hp name).bind fun removed hremoved => ?_
  have hhead : Keeps (DriverWithin (σ := σ) D)
      (do liftStore (freeNode removed); forgetSlot removed) fun _ => True :=
    (liftStore_keeps (freeNode_keeps hremoved)).bind fun _ _ => forgetSlot_keeps _
  have hevict : ∀ s : VenomFuse σ, DriverWithin D s → DriverWithin D
      { s with openFiles := s.openFiles.retain (fun _ of => decide (of.headSlot ≠ removed)) } := by
    refine fun s hs => ⟨hs.container, hs.inodes, fun fh f hf => ?_⟩
    -- a handle that stays was open before
    rw [HashMap.get_retain] at hf
    exact hs.handles fh f (Option.filter_eq_some_iff.mp hf).1
  refine (Keeps.modify hevict).bind fun _ _ => Keeps.get.bind fun s hs => ?_
  split
  next fb hread =>
    have hrefs := hs.container.refs removed _ hremoved
      ((readNode_ok (by rw [hs.container.dataSlot]; exact hremoved)).mp hread)
    simp only [refs, List.mem_append, Option.mem_toList] at hrefs
    exact (liftStore_keeps (.forM fun t ht => freeNode_keeps (hrefs t (.inl ht)))).bind
      fun _ _ => (liftStore_keeps (freeIndexChain_keeps fun t ht => hrefs t (.inr ht))).bind
        fun _ _ => hhead
  next => exact hhead

theorem opRename_keeps (parent : Nat) (name : String) (newparent : Nat) (newname : String) :
    Keeps (DriverWithin D) (opRename (σ := σ) parent name newparent newname) fun _ => True := by
  refine (slotOfIno_keeps parent).bind fun pSlot hp => (slotOfIno_keeps newparent).bind
    fun npSlot hnp => (dirRemoveEntry_keeps hp name).bind fun moved hmoved => ?_
  refine (liftStore_keeps (readNode_keeps hmoved)).bind fun node _ =>
    (readDirBlock_keeps hnp).bind fun dest hdest => ?_
  refine Keeps.bind (Q := fun d => ∀ e ∈ d.entries, D e.slot) ?_ fun d hd => ?_
  · unfold replaceEntry
    split
    next => exact .pure hdest
    next old hold =>
      refine (liftStore_keeps (freeNode_keeps (hdest old (List.mem_of_find?_eq_some hold)))).bind
        fun _ _ => (forgetSlot_keeps _).bind fun _ _ => .pure fun e he => ?_
      exact hdest e (List.mem_of_mem_eraseP he)
  · refine updateDir_keeps hnp fun e he => ?_
    rcases List.mem_append.mp he with he | he
    · exact hd e he
    · rw [List.mem_singleton.mp he]; exact hmoved

/-- An opened file has its first chunk in the cache, or nothing. -/
theorem openedFile_chunk {ino head totalSize i : Nat} {chain : Option Nat} {map : List (Option Nat)}
    {chunk0 d : List UInt8} (h : chunk0.length ≤ chunkSize)
    (hd : (openedFile ino head totalSize chain map chunk0).cache.get i = some d) :
    d.length ≤ chunkSize := by
  unfold openedFile at hd
  dsimp only at hd
  split at hd
  · cases hd
  · rw [HashMap.get_insert] at hd
    split at hd
    · cases hd; exact h
    · cases hd

theorem opOpen_keeps (ino : Nat) : Keeps (DriverWithin D) (opOpen (σ := σ) ino) fun _ => True := by
  refine (slotOfIno_keeps ino).bind fun headSlot hhead =>
    (liftStore_keeps (buildSlotMap_keeps hhead)).bind fun ⟨totalSize, chain, map⟩ ⟨hchain, hmap⟩ => ?_
  refine (liftStore_keeps (readNode_keeps hhead)).bind fun n hn => ?_
  cases n with
  | file fb =>
    refine allocFh_keeps.bind fun _ _ =>
      (insertHandle_keeps ⟨hhead, hchain, hmap, fun i d hd => ?_⟩).bind fun _ _ => .pure trivial
    exact openedFile_chunk hn.chunk hd
  | directory => exact .throw _
  | fileData => exact .throw _
  | fileIndex => exact .throw _

theorem opFlush_keeps (fh : Nat) :
    Keeps (DriverWithin D) (opFlush (σ := σ) ord fh) fun _ => True := by
  refine Keeps.get.bind fun s hs => ?_
  split
  next => exact .pure trivial
  next f hf => exact withHandle_keeps (hs.handles fh f hf) (flushHandle_keeps ord)

theorem opRelease_keeps (fh : Nat) :
    Keeps (DriverWithin D) (opRelease (σ := σ) ord fh) fun _ => True := by
  refine (opFlush_keeps fh).bind fun _ _ => .modify fun s hs =>
    ⟨hs.container, hs.inodes, fun fh' f hf => ?_⟩
  rw [HashMap.get_remove] at hf
  split at hf
  · cases hf
  · exact hs.handles fh' f hf

theorem opRead_keeps (fh offset size : Nat) :
    Keeps (DriverWithin D) (opRead (σ := σ) ord fh offset size) fun _ => True := by
  refine Keeps.get.bind fun s hs => ?_
  split
  next => exact .throw _
  next f hf => exact withHandle_keeps (hs.handles fh f hf) (readHandle_keeps ord offset size)

theorem opWrite_keeps (fh offset : Nat) (data : List UInt8) :
    Keeps (DriverWithin D) (opWrite (σ := σ) ord fh offset data) fun _ => True := by
  refine Keeps.get.bind fun s hs => ?_
  split
  next => exact .ite (fun _ => .pure trivial) fun _ => .throw _
  next f hf => exact withHandle_keeps (hs.handles fh f hf) (writeHandle_keeps ord offset data)

theorem resizeOnDisk_keeps {headSlot : Nat} (hhead : D headSlot) (newSize : Nat) :
    Keeps (StoreWithin D) (resizeOnDisk (σ := σ) headSlot newSize) fun _ => True := by
  refine (readNode_keeps hhead).bind fun n hn => ?_
  cases n with
  | file fb =>
    have hrefs := hn.refs
    simp only [refs, List.mem_append, Option.mem_toList] at hrefs
    refine .ite (fun _ => ?_) fun _ => updateNode_keeps hhead ⟨hn.refs, hn.chunk⟩
    refine (Keeps.forM fun t ht => freeNode_keeps (hrefs t (.inl (List.mem_of_mem_drop ht)))).bind
      fun _ _ => (freeIndexChain_keeps fun t ht => hrefs t (.inr ht)).bind fun _ _ => ?_
    refine updateNode_keeps hhead ⟨fun t ht => ?_, ?_⟩
    · simp only [headNode, refs, Option.toList_none, List.append_nil] at ht
      exact hrefs t (.inl (List.mem_of_mem_take ht))
    · change (if chunkCount newSize = 0 then [] else fb.data.take newSize).length ≤ chunkSize
      split
      · exact Nat.zero_le _
      · exact (List.length_take_le' _ _).trans hn.chunk
  | directory => exact .throw _
  | fileData => exact .throw _
  | fileIndex => exact .throw _

theorem opSetattrSize_keeps (ino : Nat) (hint : Option Nat) (newSize : Nat) :
    Keeps (DriverWithin D) (opSetattrSize (σ := σ) ord ino hint newSize) fun _ => True := by
  refine Keeps.get.bind fun s hs => ?_
  split
  next fh _ =>
    split
    next => exact .throw _
    next f hf =>
      exact withHandle_keeps (hs.handles fh f hf) (modifyFile_keeps fun f hf => resizeFile_within _ hf)
  next =>
    exact (slotOfIno_keeps ino).bind fun headSlot hhead =>
      liftStore_keeps (resizeOnDisk_keeps hhead newSize)

end Driver

end Venom.Fuse
