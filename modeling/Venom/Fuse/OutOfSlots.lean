import Venom.Fuse.FailedCalls
import Venom.Fuse.FileSteps
import Venom.Fuse.FlushRoom

/-! # When the slots run out

A flush first stores its chunks, and a write that has made too many of them dirty stores some.
A call that ends there for want of a slot has stored a part of its chunks, and the handle knows
which.  What the file shows is what it showed, or, after a write, what was written.
-/

namespace Venom.Fuse

open Venom.Storage
open Venom.Library
open Venom.Library.Chunks
open Venom.Library.OptionLists
open Venom.Library.StateError

variable {σ : Type} [NodeStore σ] [NodeView σ] [LawfulNodeStore σ]

/-! ## Storing -/

section Storing

variable {A : Content} {lim : Nat} {c c' : σ} {f f' : OpenFile} {fb : FileBlock}
  {ids chain done : List Nat} {e : Failure} {h h' : Handle σ}

/-- A chunk that is not stored changes nothing: there was no slot for it. -/
theorem storeChunk_failed {ci : Nat} (hrun : (storeChunk ci).run h = .error e h')
    (hlen : ∀ d, h.file.cache.get ci = some d → d.length ≤ chunkSize) :
    h'.file = h.file ∧ NodesAgree h.container h'.container ∧ free h.container = [] ∧
      free h'.container = [] ∧ SameVolume h.container h'.container := by
  rcases run_bind_error.mp hrun with hget | ⟨_, _, hget, hcont⟩
  · cases hget
  cases hget
  split at hcont
  next => cases hcont
  next d hd =>
    have hfits : Fits (NodeStore.cipher h.container) (dataNode d) := fileData_fits _ (hlen d hd)
    split at hcont
    next =>
      obtain ⟨c', hupd, rfl⟩ := onContainer_error.mp hcont
      exact absurd hfits (updateNode_failed hupd).1
    next =>
      rcases run_bind_error.mp hcont with hwrite | ⟨slot, h₁, -, hassign⟩
      · obtain ⟨c', hwrite', rfl⟩ := onContainer_error.mp hwrite
        obtain ⟨e', hstore⟩ := writeNode_failed hwrite'
        obtain ⟨hagree, hsame, ⟨hnil, hnil'⟩ | ⟨_, -, hno⟩⟩ := LawfulNodeStore.writeNode_error hstore
        · exact ⟨rfl, hagree, hnil, hnil', hsame⟩
        · exact absurd hfits hno
      · cases hassign
    next => cases hcont

omit [LawfulNodeStore σ] in
/-- Chunks that are stored are still in the cache, and the file shows what it showed. -/
theorem OpenOk.stored (hok : OpenOk A lim ⟨c, f⟩ fb ids chain)
    (hst : StoredChunks c f (f.headSlot :: chain) done c' f')
    (hfile : ∃ m b, f' = { f with slotMap := m, metaDirty := b })
    (hdone : ∀ i ∈ done, 1 ≤ i ∧ i ∈ f.dirty) : OpenOk A lim ⟨c', f'⟩ fb ids chain := by
  obtain ⟨hh, hb⟩ := hok
  have hh' := hh.stored hst hfile fun h0 => absurd (hdone 0 h0).1 (by omega)
  -- a chunk that is not pending has not been stored
  have hleft : ∀ {i}, ¬ Pending f i → i ∉ done ∨ f.cache.get i = none := fun {i} hn => by
    by_cases hi : i ∈ done
    · exact .inr (by_contra fun hne => hn ⟨(hdone i hi).2, hne⟩)
    · exact .inl hi
  have hlen := hst.length
  have hothers := hst.others
  have hunstored : ∀ {i s}, (i ∉ done ∨ f.cache.get i = none) → f'.slotMap[i]? = some (some s) →
      nodes c' s = nodes c s := fun hi hs => hst.unstored hh.accounts hi hs
  obtain ⟨m, b, rfl⟩ := hfile
  dsimp only at hlen hothers hunstored
  refine ⟨hh', ⟨hb.cached, fun hd => ?_, hb.inline, fun {i s d} hs hnode hn => ?_,
    fun {i} h1 hnone hn => ?_, fun {i s d} hs hnode => ?_⟩⟩
  · obtain ⟨hlt, hlim⟩ := hb.cachedLt hd
    exact ⟨hlt.trans_eq hlen.symm, hlim⟩
  · have hi := hleft hn
    rw [hunstored hi hs] at hnode
    exact hb.slot ((hothers i hi).symm.trans hs) hnode hn
  · refine hb.gap h1 ?_ hn
    rw [← hothers i (hleft hn)]
    exact hnone
  · by_cases hi : i ∉ done ∨ f.cache.get i = none
    · rw [hunstored hi hs] at hnode
      exact hb.slotLen ((hothers i hi).symm.trans hs) hnode
    · rw [not_or, not_not] at hi
      obtain ⟨d', hd'⟩ := Option.ne_none_iff_exists'.mp hi.2
      obtain ⟨s', hs', hnode'⟩ := hst.stored i hi.1 d' hd' (hb.cachedLt hd').1
      obtain rfl : s = s' := Option.some.inj (Option.some.inj (hs.symm.trans hs'))
      rw [← dataNode_inj (hnode'.symm.trans hnode)]
      exact (hb.cached hd').1

omit [LawfulNodeStore σ] in
/-- A container in which nothing has changed does as well. -/
theorem OpenOk.quiet (hok : OpenOk A lim ⟨c, f⟩ fb ids chain) (hagree : NodesAgree c c')
    (hfree : free c' = free c) (hsame : SameVolume c c') :
    OpenOk A lim ⟨c', f⟩ fb ids chain ∧ Moves c c' (ownedSlots f chain) (ownedSlots f chain) := by
  have ha := hok.handle.accounts
  have hmoves : Moves c c' (ownedSlots f chain) (ownedSlots f chain) :=
    ⟨hsame, by rw [hfree], fun t ht _ _ => hagree t ht⟩
  exact ⟨hok.framed (hmoves.accounts ha) fun t ht => hagree t (ha.isDataSlot ht), hmoves⟩

/-- What a call that ran out of slots has made of the handle. -/
structure Partly (A : Content) (lim : Nat) (h h' : Handle σ) (fb : FileBlock) (ids chain : List Nat) :
    Prop where
  ok : OpenOk A lim h' fb ids chain
  moves : Moves h.container h'.container (ownedSlots h.file chain) (ownedSlots h'.file chain)
  kept : ∀ (i : Nat) x, h.file.slotMap[i]? = some (some x) → h'.file.slotMap[i]? = some (some x)
  ino : h'.file.ino = h.file.ino
  headSlot : h'.file.headSlot = h.file.headSlot
  totalSize : h'.file.totalSize = h.file.totalSize

theorem storeDirtyChunks_failed {ord : IterOrder Nat} (hok : OpenOk A lim h fb ids chain)
    (hrun : (storeDirtyChunks ord).run h = .error e h') : Partly A lim h h' fb ids chain := by
  rcases run_bind_error.mp hrun with hget | ⟨_, _, hget, hloop⟩
  · cases hget
  cases hget
  have ha := hok.handle.accounts
  let inv (done : List Nat) (g : Handle σ) : Prop :=
    StoredChunks h.container h.file (h.file.headSlot :: chain) done g.container g.file ∧
      ∃ m b, g.file = { h.file with slotMap := m, metaDirty := b }
  obtain ⟨done, ci, rest, g, hl, ⟨hst, hfile⟩, hfail⟩ :=
    forM_error_induction inv hloop ⟨.refl _ _ _, _, _, rfl⟩ fun done ci rest g g' _ ⟨hst, m, b, hg⟩ hstep => by
      have hmoved : Accounts g.container (g.file.slotMap.reduceOption ++ h.file.headSlot :: chain) :=
        hst.moves.accounts ha
      obtain ⟨hst', m', b', hg'⟩ := storeChunk_ok hstep hmoved
      exact ⟨hst.snoc hst' (by rw [hg]) ha, m', b', by rw [hg', hg]⟩
  have hdone : ∀ i ∈ done, 1 ≤ i ∧ i ∈ h.file.dirty := fun i hi => by
    have hmem : i ∈ toStore ord h.file := by
      change i ∈ (ord.order h.file.dirty.elems).filter (1 ≤ ·)
      rw [hl]
      exact List.mem_append_left _ hi
    rw [toStore, List.mem_filter, IterOrder.mem_order, HashSet.mem_elems, decide_eq_true_eq] at hmem
    exact hmem.symm
  have hg : OpenOk A lim ⟨g.container, g.file⟩ fb ids chain := OpenOk.stored hok hst hfile hdone
  obtain ⟨m, b, hgfile⟩ := hfile
  obtain ⟨hfile', hagree, hnil, hnil', hsame⟩ :=
    storeChunk_failed hfail fun d hd => (hg.backed.cached hd).1
  obtain ⟨hquiet, hmoves⟩ := OpenOk.quiet hg hagree (hnil'.trans hnil.symm) hsame
  rw [← hfile'] at hquiet hmoves hgfile
  have hhead : h'.file.headSlot = h.file.headSlot := by rw [hgfile]
  refine ⟨hquiet, ?_, fun i x hx => ?_, by rw [hgfile], hhead, by rw [hgfile]⟩
  · have hmoved := hst.moves
    rw [← hfile'] at hmoved
    unfold ownedSlots at hmoves ⊢
    rw [hhead] at hmoves ⊢
    exact hmoved.trans hmoves
  · rw [hfile']
    exact hst.kept i x hx

omit [LawfulNodeStore σ] in
/-- Chunks that are stored without a slot have taken one each. -/
theorem StoredChunks.room {cis own : List Nat} (hst : StoredChunks c f own cis c' f')
    (hnodup : cis.Nodup) : (newChunks f cis).length ≤ (free c).length := by
  have hlen := hst.moves.perm.length_eq
  have hgaps : f.slotMap.reduceOption.length + (newChunks f cis).length ≤
      f'.slotMap.reduceOption.length := by
    refine length_reduceOption_add_le (hnodup.filter _) (fun i a hi => ⟨a, hst.kept i a hi⟩)
      fun i hi => ?_
    obtain ⟨hmem, hnew⟩ := List.mem_filter.mp hi
    obtain ⟨hcached, hnone⟩ := of_decide_eq_true hnew
    obtain ⟨d, hd⟩ := Option.ne_none_iff_exists'.mp hcached
    obtain ⟨s, hs, -⟩ := hst.stored i hmem d hd (List.getElem?_eq_some_iff.mp hnone).1
    exact ⟨hnone, s, hs⟩
  simp only [List.length_append] at hlen
  omega

/-- A flush that is short of slots for its chunks ends while it stores them. -/
theorem flushHandle_short {ord : IterOrder Nat} (hok : OpenOk A lim h fb ids chain)
    (hshort : (free h.container).length < (newChunks h.file (toStore ord h.file)).length)
    (hrun : (flushHandle ord).run h = .error e h') : (storeDirtyChunks ord).run h = .error e h' := by
  rcases run_bind_error.mp hrun with hget | ⟨_, _, hget, hcont⟩
  · cases hget
  cases hget
  split at hcont
  next => cases hcont
  next =>
    rcases run_bind_error.mp hcont with hstore | ⟨_, h₁, hstore, -⟩
    · exact hstore
    · obtain ⟨_, _, hget, hloop⟩ := run_bind_ok.mp hstore
      cases hget
      have hroom := (storeChunks_ok hloop hok.handle.accounts).1.room (toStore_nodup ord h.file)
      exact absurd hroom (not_le.mpr hshort)

/-! ## Writing through -/

theorem writeThroughChunk_failed {ci : Nat} (hok : OpenOk A lim h fb ids chain)
    (hrun : (writeThroughChunk ci).run h = .error e h') : Partly A lim h h' fb ids chain := by
  rcases run_bind_error.mp hrun with hget | ⟨_, _, hget, hcont⟩
  · cases hget
  cases hget
  split at hcont
  next =>
    rcases run_bind_error.mp hcont with hstore | ⟨_, h₁, -, hmod⟩
    · obtain ⟨hfile, hagree, hnil, hnil', hsame⟩ :=
        storeChunk_failed hstore fun d hd => (hok.backed.cached hd).1
      obtain ⟨hquiet, hmoves⟩ := OpenOk.quiet hok hagree (hnil'.trans hnil.symm) hsame
      rw [← hfile] at hquiet
      exact ⟨hquiet, by rw [hfile]; exact hmoves, fun i x hx => by rwa [hfile], by rw [hfile],
        by rw [hfile], by rw [hfile]⟩
    · cases hmod
  next => cases hcont

omit [LawfulNodeStore σ] in
theorem Partly.refl (hok : OpenOk A lim h fb ids chain) : Partly A lim h h fb ids chain :=
  ⟨hok, .refl _ _, fun _ _ hx => hx, rfl, rfl, rfl⟩

omit [LawfulNodeStore σ] in
theorem Partly.trans {h₁ : Handle σ} (hp : Partly A lim h h₁ fb ids chain)
    (hp' : Partly A lim h₁ h' fb ids chain) : Partly A lim h h' fb ids chain :=
  ⟨hp'.ok, hp.moves.trans hp'.moves, fun i x hx => hp'.kept i x (hp.kept i x hx),
    hp'.ino.trans hp.ino, hp'.headSlot.trans hp.headSlot, hp'.totalSize.trans hp.totalSize⟩

/-- One chunk stored and dropped. -/
theorem writeThroughChunk_partly {ci : Nat} (hok : OpenOk A lim h fb ids chain) (hci : 1 ≤ ci)
    (hrun : (writeThroughChunk ci).run h = .ok () h') : Partly A lim h h' fb ids chain := by
  obtain ⟨hok', -, hmoves, -⟩ := writeThroughChunk_ok hok hci hrun
  obtain ⟨_, _, hget, hcont⟩ := run_bind_ok.mp hrun
  cases hget
  split at hcont
  next =>
    obtain ⟨_, h₁, hstore, hmod⟩ := run_bind_ok.mp hcont
    rw [modifyFile_ok] at hmod
    subst hmod
    obtain ⟨hst, m, b, hfile⟩ := storeChunk_ok hstore hok.handle.accounts
    refine ⟨hok', hmoves, fun i x hx => hst.kept i x hx, ?_, ?_, ?_⟩ <;> simp [dropChunk, hfile]
  next =>
    cases hcont
    exact .refl hok

/-- A write-through that fails stops at a chunk. -/
theorem writeThroughFlush_stops {ord : IterOrder Nat} {n : Nat} (hok : OpenOk A lim h fb ids chain)
    (hrun : (writeThroughFlush ord n).run h = .error e h') : ∃ ci g,
      Partly A lim h g fb ids chain ∧ (writeThroughChunk ci).run g = .error e h' := by
  rcases run_bind_error.mp hrun with hget | ⟨_, _, hget, hloop⟩
  · cases hget
  cases hget
  have hpos : ∀ ci ∈ (((ord.order h.file.dirty.elems).filter (1 ≤ ·)).mergeSort (· ≤ ·)).take n,
      1 ≤ ci := fun ci hci => by
    have hmem := List.mem_of_mem_take hci
    rw [List.mem_mergeSort, List.mem_filter] at hmem
    exact of_decide_eq_true hmem.2
  obtain ⟨done, ci, rest, g, -, hg, hfail⟩ :=
    forM_error_induction (fun _ g => Partly A lim h g fb ids chain) hloop (.refl hok)
      fun done ci rest g g' hl hg hstep =>
        hg.trans (writeThroughChunk_partly hg.ok (hpos ci (hl ▸ by simp)) hstep)
  exact ⟨ci, g, hg, hfail⟩

theorem writeThroughFlush_failed {ord : IterOrder Nat} {n : Nat} (hok : OpenOk A lim h fb ids chain)
    (hrun : (writeThroughFlush ord n).run h = .error e h') : Partly A lim h h' fb ids chain := by
  obtain ⟨ci, g, hg, hfail⟩ := writeThroughFlush_stops hok hrun
  exact hg.trans (writeThroughChunk_failed hg.ok hfail)

/-- A write that fails has put all its bytes into the cache before, and fails as it stores some. -/
theorem writeHandle_stores {ord : IterOrder Nat} {offset : Nat} {bytes data : List UInt8}
    (hok : OpenOk (Flat bytes) (chunkLimit h.file.totalSize) h fb ids chain)
    (hsize : h.file.totalSize = bytes.length) (hgap : offset ≤ bytes.length)
    (hrun : (writeHandle ord offset data).run h = .error e h') : ∃ g n,
      OpenOk (Flat (patch 0 bytes offset data)) (chunkLimit (patch 0 bytes offset data).length) g
        fb ids chain ∧
      (writeThroughFlush ord n).run g = .error e h' ∧
      g.container = h.container ∧ (∃ k, g.file.slotMap = h.file.slotMap ++ List.replicate k none) ∧
      g.file.ino = h.file.ino ∧ g.file.headSlot = h.file.headSlot ∧
      g.file.totalSize = (patch 0 bytes offset data).length := by
  let A (q : Nat) : Content := Flat (patch 0 bytes offset (data.take (q - offset)))
  have hstart : A offset = Flat bytes := by
    change Flat (patch 0 bytes offset (data.take (offset - offset))) = _
    rw [Nat.sub_self, List.take_zero, patch_nil 0 bytes hgap]
  have hstop : A (offset + data.length) = Flat (patch 0 bytes offset data) := by
    change Flat (patch 0 bytes offset (data.take (offset + data.length - offset))) = _
    rw [Nat.add_sub_cancel_left, List.take_length]
  have hlen : (patch 0 bytes offset data).length = max (offset + data.length) h.file.totalSize := by
    rw [length_patch]
    omega
  rw [← hstart] at hok
  have hlim : ∀ p, offset ≤ p → p < offset + data.length →
      p / chunkSize < chunkLimit (patch 0 bytes offset data).length := fun p _ hp =>
    div_lt_chunkLimit (hp.trans_le (hlen ▸ le_max_left _ _))
  have hok₀ : OpenOk (A offset) (chunkLimit (patch 0 bytes offset data).length) h fb ids chain :=
    ⟨hok.handle, hok.backed.mono (fun _ _ ha => ha) (chunkLimit_mono (hlen ▸ le_max_right _ _))⟩
  -- the slot map may go past the end of a file that was cut, which is no concern of the loop
  let lim := max (chunkLimit (patch 0 bytes offset data).length) h.file.slotMap.length
  have hok₁ : OpenOk (A offset) lim h fb ids chain :=
    ⟨hok₀.handle, hok₀.backed.mono (fun _ _ ha => ha) (le_max_left _ _)⟩
  obtain ⟨g, hloop, -⟩ := writeLoop_run ord hok₁ le_rfl
    (fun p hp hlt => (hlim p hp hlt).trans_le (le_max_left _ _)) (le_max_right _ _) (flat_overwrites hgap)
  obtain ⟨hc, hok₂, hw, htotal⟩ :=
    writeLoop_ok (A := A) hok₀ le_rfl (by omega) hlim (flat_overwrites hgap) hloop
  rw [hstop] at hok₂
  rcases run_bind_error.mp hrun with herror | ⟨_, h₁, hloop₁, hcont⟩
  · cases hloop.symm.trans herror
  cases hloop.symm.trans hloop₁
  obtain ⟨n, hflush⟩ : ∃ n, (writeThroughFlush ord n).run g = .error e h' := by
    rcases run_bind_error.mp hcont with hget | ⟨_, _, hget, hrest⟩
    · cases hget
    cases hget
    dsimp only at hrest
    split at hrest
    next =>
      rcases run_bind_error.mp hrest with hflush | ⟨_, _, -, hret⟩
      · exact ⟨_, hflush⟩
      · cases hret
    next => cases hrest
  refine ⟨g, n, hok₂, hflush, hc, hw.slotMap, hw.ino, hw.headSlot, ?_⟩
  rw [htotal, hlen]
  split <;> omega

/-! ## The volume is full -/

omit [NodeView σ] [LawfulNodeStore σ] in
theorem storeChunk_cache {ci : Nat} (hrun : (storeChunk ci).run h = .ok () h') :
    h'.file.cache = h.file.cache := by
  obtain ⟨_, _, hget, hcont⟩ := run_bind_ok.mp hrun
  cases hget
  split at hcont
  next => cases hcont; rfl
  next =>
    split at hcont
    next =>
      obtain ⟨c, -, rfl⟩ := onContainer_ok.mp hcont
      rfl
    next =>
      obtain ⟨slot, h₁, hwrite, hassign⟩ := run_bind_ok.mp hcont
      obtain ⟨c, -, rfl⟩ := onContainer_ok.mp hwrite
      rw [modifyFile_ok] at hassign
      rw [hassign]
      rfl
    next => cases hcont; rfl

/-- Chunks are not stored only when there is no slot for one. -/
theorem storeDirtyChunks_full {ord : IterOrder Nat} (hok : OpenOk A lim h fb ids chain)
    (hrun : (storeDirtyChunks ord).run h = .error e h') : free h'.container = [] := by
  rcases run_bind_error.mp hrun with hget | ⟨_, _, hget, hloop⟩
  · cases hget
  cases hget
  obtain ⟨done, ci, rest, g, -, hcache, hfail⟩ :=
    forM_error_induction (fun _ g => g.file.cache = h.file.cache) hloop rfl
      fun done ci rest g g' _ hg hstep => (storeChunk_cache hstep).trans hg
  obtain ⟨-, -, -, hnil, -⟩ := storeChunk_failed hfail fun d hd => by
    rw [hcache] at hd
    exact (hok.backed.cached hd).1
  exact hnil

theorem writeThroughChunk_full {ci : Nat} (hok : OpenOk A lim h fb ids chain)
    (hrun : (writeThroughChunk ci).run h = .error e h') : free h'.container = [] := by
  rcases run_bind_error.mp hrun with hget | ⟨_, _, hget, hcont⟩
  · cases hget
  cases hget
  split at hcont
  next =>
    rcases run_bind_error.mp hcont with hstore | ⟨_, h₁, -, hmod⟩
    · exact (storeChunk_failed hstore fun d hd => (hok.backed.cached hd).1).2.2.2.1
    · cases hmod
  next => cases hcont

theorem writeThroughFlush_full {ord : IterOrder Nat} {n : Nat} (hok : OpenOk A lim h fb ids chain)
    (hrun : (writeThroughFlush ord n).run h = .error e h') : free h'.container = [] := by
  obtain ⟨ci, g, hg, hfail⟩ := writeThroughFlush_stops hok hrun
  exact writeThroughChunk_full hg.ok hfail

end Storing

/-! ## What is left of the file -/

section Files

variable {root : Nat} {s s' : VenomFuse σ} {bytes : Nat → List UInt8} {own : Nat → List Nat} {fh : Nat}
  {f : OpenFile} {ord : IterOrder Nat} {e : Failure}

/-- A flush that is short of slots for its chunks leaves the file as it was. -/
theorem Backs.flush_short (h : Backs root s bytes own) (hf : s.openFiles.get fh = some f)
    (hshort : (free s.container).length < (newChunks f (toStore ord f)).length)
    (hrun : (opFlush ord fh).run s = .error e s') :
    FileStep root s s' bytes own f.headSlot (bytes f.headSlot) ∧
      ∀ k, (s'.openFiles.get k).map (·.headSlot) = (s.openFiles.get k).map (·.headSlot) := by
  obtain ⟨fb, ids, chain, ho, hsize, hown, hlists⟩ := h.opened hf
  rw [opFlush_run hf] at hrun
  obtain ⟨h', hflush, rfl⟩ := withHandle_error.mp hrun
  have hpartly := storeDirtyChunks_failed ho.ok (flushHandle_short ho.ok hshort hflush)
  have hok : OpenOk (Flat (bytes f.headSlot)) (chunkLimit h'.file.totalSize) h' fb ids chain := by
    rw [hpartly.totalSize]
    exact hpartly.ok
  have hnodup : f.slotMap.reduceOption.Nodup := (List.nodup_append.mp ho.ok.handle.accounts.nodup_own).1
  have hcarries : Carries h'.container h'.file fb ids chain (bytes f.headSlot)
      (ownedSlots h'.file chain) := by
    refine ⟨hok, hpartly.totalSize.trans hsize, rfl, hlists.trans (hnodup.subperm fun x hx => ?_)⟩
    obtain ⟨i, hi⟩ := exists_getElem? hx
    exact mem_of_getElem? (hpartly.kept i x hi)
  exact h.handleStep hf rfl hpartly.ino hpartly.headSlot hcarries (hown ▸ hpartly.moves)

/-- A write through a handle that fails has been made all the same. -/
theorem Backs.write_failed (h : Backs root s bytes own) (hf : s.openFiles.get fh = some f)
    {offset : Nat} {data : List UInt8} (hgap : offset ≤ (bytes f.headSlot).length)
    (hrun : (opWrite ord fh offset data).run s = .error e s') :
    FileStep root s s' bytes own f.headSlot (patch 0 (bytes f.headSlot) offset data) ∧
      ∀ k, (s'.openFiles.get k).map (·.headSlot) = (s.openFiles.get k).map (·.headSlot) := by
  obtain ⟨fb, ids, chain, ho, hsize, hown, hlists⟩ := h.opened hf
  rw [opWrite_run hf] at hrun
  obtain ⟨h', hwrite, rfl⟩ := withHandle_error.mp hrun
  obtain ⟨g, n, hg, hflush, hc, ⟨k, hmap⟩, hino, hhead, htotal⟩ :=
    writeHandle_stores ho.ok hsize hgap hwrite
  have hpartly := writeThroughFlush_failed hg hflush
  have hreduced : g.file.slotMap.reduceOption = f.slotMap.reduceOption := by
    rw [hmap, List.reduceOption_append, reduceOption_replicate_none, List.append_nil]
  have hok : OpenOk (Flat (patch 0 (bytes f.headSlot) offset data)) (chunkLimit h'.file.totalSize) h'
      fb ids chain := by
    rw [hpartly.totalSize, htotal]
    exact hpartly.ok
  have hmoves : Moves s.container h'.container (ownedSlots f chain) (ownedSlots h'.file chain) := by
    have hmoved := hpartly.moves
    rw [hc, ownedSlots, hreduced, hhead] at hmoved
    exact hmoved
  have hnodup : f.slotMap.reduceOption.Nodup := (List.nodup_append.mp ho.ok.handle.accounts.nodup_own).1
  have hcarries : Carries h'.container h'.file fb ids chain (patch 0 (bytes f.headSlot) offset data)
      (ownedSlots h'.file chain) := by
    refine ⟨hok, hpartly.totalSize.trans htotal, rfl, hlists.trans (hnodup.subperm fun x hx => ?_)⟩
    rw [← hreduced] at hx
    obtain ⟨i, hi⟩ := exists_getElem? hx
    exact mem_of_getElem? (hpartly.kept i x hi)
  exact h.handleStep hf rfl (hpartly.ino.trans hino) (hpartly.headSlot.trans hhead) hcarries
    (hown ▸ hmoves)

/-- A write or a flush that fails leaves no slot free. -/
theorem Backs.write_full (h : Backs root s bytes own) (hf : s.openFiles.get fh = some f)
    {offset : Nat} {data : List UInt8} (hgap : offset ≤ (bytes f.headSlot).length)
    (hrun : (opWrite ord fh offset data).run s = .error e s') : free s'.container = [] := by
  obtain ⟨fb, ids, chain, ho, hsize, -⟩ := h.opened hf
  rw [opWrite_run hf] at hrun
  obtain ⟨h', hwrite, rfl⟩ := withHandle_error.mp hrun
  obtain ⟨g, n, hg, hflush, -⟩ := writeHandle_stores ho.ok hsize hgap hwrite
  exact writeThroughFlush_full hg hflush

theorem Backs.flush_full (h : Backs root s bytes own) (hf : s.openFiles.get fh = some f)
    (hshort : (free s.container).length < (newChunks f (toStore ord f)).length)
    (hrun : (opFlush ord fh).run s = .error e s') : free s'.container = [] := by
  obtain ⟨fb, ids, chain, ho, -⟩ := h.opened hf
  rw [opFlush_run hf] at hrun
  obtain ⟨h', hflush, rfl⟩ := withHandle_error.mp hrun
  exact storeDirtyChunks_full ho.ok (flushHandle_short ho.ok hshort hflush)

end Files

end Venom.Fuse
