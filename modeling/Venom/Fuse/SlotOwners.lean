import Venom.Fuse.RenameTree
import Venom.Fuse.Sessions

/-! # Whose a slot is

A slot holds a directory, or a head, a chunk or an index block of one file, and an open handle
knows slots of its own file only.  In a session nobody else refers to such a slot, and the free
list does not give it out again.
-/

namespace Venom.Fuse

open Venom.Storage
open Venom.Library
open Venom.Library.NameTree
open Venom.Library.StateError
open Venom.Library.OptionLists

variable {σ : Type} [NodeStore σ] [NodeView σ]

/-! ## Index chains -/

theorem IndexChain.block_mem {nodes : Nat → Option VaultNode} {first : Option Nat} {ids slots : List Nat}
    {t : Nat} (h : IndexChain nodes first ids slots) (ht : OnChain nodes first t) : t ∈ slots := by
  induction h with
  | nil => cases ht
  | cons hnode _ ih =>
    cases ht with
    | first => exact List.mem_cons_self
    | next hfi ht =>
      cases hnode.symm.trans hfi
      exact List.mem_cons_of_mem _ (ih ht)

/-- What a block of the chain lists is listed by the chain. -/
theorem IndexChain.id_mem {nodes : Nat → Option VaultNode} {first : Option Nat} {ids slots : List Nat}
    {b t : Nat} {fi : FileIndexBlock} (h : IndexChain nodes first ids slots)
    (hb : OnChain nodes first b) (hfi : nodes b = some (.fileIndex fi)) (ht : t ∈ fi.slotIds) :
    t ∈ ids := by
  induction h with
  | nil => cases hb
  | cons hnode _ ih =>
    apply List.mem_append.mpr
    cases hb with
    | first =>
      cases hnode.symm.trans hfi
      exact .inl ht
    | next hnext hb =>
      cases hnode.symm.trans hnext
      exact .inr (ih hb)

/-! ## Owners -/

section Owners

variable {root u t : Nat} {s : VenomFuse σ} {f : OpenFile} {fb : FileBlock}
  {ids chain : List Nat} {b : List UInt8} {slots : List Nat} {bytes : Nat → List UInt8}
  {own : Nat → List Nat}

omit [NodeStore σ]

/-- The disk lists slots of the handle. -/
theorem Carries.listed_mem (h : Carries s.container f fb ids chain b slots)
    (ht : t ∈ fb.dataSlots ++ ids) : t ∈ slots := by
  rw [h.slots]
  exact List.mem_append_left _ (h.listed.subset ht)

theorem Carries.chain_mem (h : Carries s.container f fb ids chain b slots) (ht : t ∈ chain) :
    t ∈ slots := by
  rw [h.slots]
  exact List.mem_append_right _ (List.mem_cons_of_mem _ ht)

/-- What the disk has of a file belongs to it, whoever has it open. -/
theorem FileAt.stored (h : FileAt s u b slots) : ∃ f fb ids chain, f.headSlot = u ∧
    Carries s.container f fb ids chain b slots := by
  cases h with
  | opened _ hhead hcarries => exact ⟨_, _, _, _, hhead, hcarries⟩
  | closed _ hcarries => exact ⟨_, _, _, _, rfl, hcarries⟩

/-- What a node of the tree occupies is its own. -/
theorem Backs.occupies (h : Backs root s bytes own) (hin : InTree s.container root u)
    (hocc : Occupies s u t) : t ∈ own u := by
  cases hocc with
  | self => exact h.self_mem hin
  | file hfb hheld =>
    obtain ⟨f, fb', ids, chain, hhead, hcarries⟩ := (h.files u _ hin hfb).stored
    have hnode := hcarries.head.1
    rw [hhead, hfb] at hnode
    cases hnode
    have hok := hcarries.ok.handle
    have hindex := hok.index
    rw [← hok.chainEq] at hindex
    cases hheld with
    | head => exact h.self_mem hin
    | data ht => exact hcarries.listed_mem (List.mem_append_left _ ht)
    | block ht => exact hcarries.chain_mem (hindex.block_mem ht)
    | listed hb hfi ht => exact hcarries.listed_mem (List.mem_append_right _ (hindex.id_mem hb hfi ht))
    | handle hf hfu ht =>
      -- the handle is the only one on its file
      obtain ⟨_, _, _, hopen⟩ := h.openFile hf
      rw [hfu] at hopen
      rw [hopen.slots]
      exact List.mem_append_left _ (List.reduceOption_mem_iff.mpr ht)

/-- The slots of a file, as the disk lists them, are all different. -/
theorem Backs.file_nodup (h : Backs root s bytes own) (hin : InTree s.container root u)
    (hfb : nodes s.container u = some (.file fb)) : ∃ ids blocks,
      IndexChain (nodes s.container) fb.indexChain ids blocks ∧
      (fb.dataSlots ++ ids ++ u :: blocks).Nodup := by
  obtain ⟨f, fb', ids, chain, hhead, hcarries⟩ := (h.files u fb hin hfb).stored
  have hnode := hcarries.head.1
  rw [hhead, hfb] at hnode
  cases hnode
  have hok := hcarries.ok.handle
  refine ⟨ids, chain, hok.chainEq ▸ hok.index, ?_⟩
  have hnodup := h.divided.nodup u
  rw [hcarries.slots, ownedSlots, hhead] at hnodup
  obtain ⟨l, hperm, hsub⟩ := hcarries.listed
  have hall := hnodup.sublist (hsub.append_right (u :: chain))
  exact (hperm.append_right (u :: chain)).nodup_iff.mp hall

end Owners

/-! ## Sessions -/

/-- Every slot in use has one user, and is not free. -/
structure OneUser (root : Nat) (s : VenomFuse σ) : Prop where
  free : (free s.container).Nodup
  used : ∀ u t, InTree s.container root u → Occupies s u t →
    IsDataSlot s.container t ∧ t ∉ Storage.free s.container
  apart : ∀ u u' t, InTree s.container root u → InTree s.container root u' → Occupies s u t →
    Occupies s u' t → u = u'
  /-- The disk names each slot of a file once. -/
  files : ∀ u fb, InTree s.container root u → nodes s.container u = some (.file fb) → ∃ ids blocks,
    IndexChain (nodes s.container) fb.indexChain ids blocks ∧
      (fb.dataSlots ++ ids ++ u :: blocks).Nodup
  /-- And so does a handle, which is on a file of the tree. -/
  handles : ∀ fh f, s.openFiles.get fh = some f → InTree s.container root f.headSlot ∧
    (f.slotMap.reduceOption ++ [f.headSlot]).Nodup

section Sessions

variable [FiniteNodeStore σ] {M : Medium σ} {root : Nat} {c : σ} {events : List Event} {s : VenomFuse σ}
  {bytes : Nat → List UInt8} {own : Nat → List Nat}

omit [NodeStore σ] [FiniteNodeStore σ] in
theorem Backs.oneUser (h : Backs root s bytes own) : OneUser root s where
  free := h.divided.nodup_free
  used u t hin hocc :=
    have ht := h.occupies hin hocc
    ⟨h.dataSlot t (.inr ⟨u, ht⟩), h.divided.not_free u t ht⟩
  apart _ _ _ hin hin' hocc hocc' := h.divided.single (h.occupies hin hocc) (h.occupies hin' hocc')
  files _ _ hin hfb := h.file_nodup hin hfb
  handles fh f hf := by
    obtain ⟨_, _, chain, hcarries⟩ := h.openFile hf
    refine ⟨(h.handles fh f hf).1, ?_⟩
    have hnodup := h.divided.nodup f.headSlot
    rw [hcarries.slots, ownedSlots] at hnodup
    exact hnodup.sublist (((List.nil_sublist chain).cons_cons f.headSlot).append_left _)

/-- In every session no slot has two users, and none that is in use is free: neither the disk nor
    a handle refers to a slot that another file, a directory or the allocator may write. -/
theorem session_one_user (hc : Formatted c root) (h : Session M root c events s) : OneUser root s := by
  obtain ⟨A, bytes, own, -, hstands⟩ := h.refines hc
  exact hstands.backs.oneUser

end Sessions

/-- A file and a directory are made on a table of eight slots, and the file is open. -/
theorem session_one_user_letters :
    Session Volume.medium 0 (Volume.fresh .xchacha20Poly1305 8) letteredEvents lettered ∧
      Storage.free lettered.container = [7, 6, 5, 4, 3] ∧ OneUser 0 lettered :=
  ⟨lettered_session, by decide +kernel,
    session_one_user (Volume.fresh_formatted _ (by decide)) lettered_session⟩

end Venom.Fuse
