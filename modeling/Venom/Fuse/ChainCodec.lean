import Venom.Fuse.Totality
import Venom.Storage.NodeSize

/-! # The index chain as a codec

`write_index_chain` cuts the ids from the back and links each block to the one written
before it; `build_slot_map` walks the chain forward and finds the ids in their order, and
`free_index_chain` gives back the blocks of the chain and nothing else.
-/

namespace Venom.Fuse

open Venom.Storage
open Venom.Library
open Venom.Library.StateError
open Venom.Library.Chunks

variable {τ : Type} [NodeStore τ] [NodeView τ] [FiniteNodeStore τ]

/-! ## Writing comes to its end -/

/-- Index blocks are written as long as slots are free. -/
theorem writeChainFrom_run {c : τ} {pieces : List (List Nat)} {next : Option Nat} {own : List Nat}
    (ha : Accounts c own) (hroom : pieces.length ≤ (free c).length)
    (hpieces : ∀ piece ∈ pieces, piece.length ≤ maxIndexSlots ∧ ∀ id ∈ piece, id < 2 ^ 32)
    (hslots : ∀ s ∈ free c, s < 2 ^ 32) (hnext : ∀ s ∈ next, s < 2 ^ 32) :
    ∃ first c', (writeChainFrom pieces next).run c = .ok first c' := by
  induction pieces generalizing c next own with
  | nil => exact ⟨next, c, rfl⟩
  | cons piece pieces ih =>
    rw [List.length_cons] at hroom
    obtain ⟨hlen, hids⟩ := hpieces piece List.mem_cons_self
    have hne : free c ≠ [] := List.ne_nil_of_length_pos (by omega)
    obtain ⟨s, c₁, hwrite⟩ := writeNode_run (n := indexNode piece next) hne
      (fileIndex_fits _ hlen hids fun s hs => (hnext s hs).trans (by decide))
    obtain ⟨-, hmoves, hfree⟩ := writeNode_inv hwrite ha
    have hs : s ∈ free c := by
      rw [hfree]
      exact List.mem_append_right _ List.mem_cons_self
    obtain ⟨first, c', hrest⟩ := ih (hmoves.accounts ha)
      (by rw [hfree, List.length_append, List.length_singleton] at hroom; omega)
      (fun p hp => hpieces p (List.mem_cons_of_mem _ hp))
      (fun t ht => hslots t (by rw [hfree]; exact List.mem_append_left _ ht))
      (show ∀ t ∈ some s, t < 2 ^ 32 from fun t ht => by cases ht; exact hslots s hs)
    exact ⟨first, c', (run_bind_of_ok hwrite).trans hrest⟩

theorem writeIndexChain_run {c : τ} {ids own : List Nat} (ha : Accounts c own)
    (hroom : (ids.length + maxIndexSlots - 1) / maxIndexSlots ≤ (free c).length)
    (hids : ∀ id ∈ ids, id < 2 ^ 32) (hslots : ∀ s ∈ free c, s < 2 ^ 32) :
    ∃ first c', (writeIndexChain ids).run c = .ok first c' := by
  have hmax : 0 < maxIndexSlots := by decide
  unfold writeIndexChain
  by_cases hnil : ids.isEmpty = true
  · rw [if_pos hnil]
    exact ⟨none, c, rfl⟩
  · rw [if_neg hnil]
    refine writeChainFrom_run ha ?_ (fun piece hpiece => ?_) hslots (fun _ h => nomatch h)
    · rw [length_rchunks hmax]
      exact hroom
    · refine ⟨(mem_rchunks hmax hpiece).2, fun id hid => hids id ?_⟩
      rw [← flatten_reverse_rchunks hmax ids]
      exact List.mem_flatten.mpr ⟨piece, List.mem_reverse.mpr hpiece, hid⟩

/-! ## Reading back -/

/-- The slot map of a head that lists `ids` and points to a chain of `overflow`. -/
theorem buildSlotMap_chain {c : τ} {head totalSize : Nat} {ids overflow slots own : List Nat}
    {first : Option Nat} {data : List UInt8} (ha : Accounts c (slots ++ own)) (hhead : IsDataSlot c head)
    (hnode : nodes c head = some (headNode totalSize ids first data))
    (hchain : IndexChain (nodes c) first overflow slots) :
    (buildSlotMap head).run c = .ok (totalSize, first, none :: (ids ++ overflow).map some) c := by
  have hfuel : slots.length ≤ chainFuel c := by
    have hle := ha.length_le
    rw [List.length_append] at hle
    unfold chainFuel
    omega
  have hcollect : (collectIndex (chainFuel c) first).run c = .ok overflow c :=
    collectIndex_run hchain (fun s hs => ha.isDataSlot (List.mem_append_left _ hs)) hfuel
  unfold buildSlotMap
  rw [run_bind_of_ok (readNode_run hhead hnode)]
  change (get >>= fun c => _ : StoreM τ _).run c = _
  rw [run_bind_of_ok run_get]
  exact run_bind_of_ok hcollect

/-- Freeing a chain gives back its blocks, each once. -/
theorem freeIndexChain_blocks {c : τ} {first : Option Nat} {ids slots own : List Nat}
    (hchain : IndexChain (nodes c) first ids slots) (ha : Accounts c (slots ++ own)) :
    ∃ c', (freeIndexChain first).run c = .ok () c' ∧ (free c').Perm (free c ++ slots) ∧
      ∀ t, IsDataSlot c t → t ∉ slots → nodes c' t = nodes c t := by
  obtain ⟨c', hrun⟩ := freeIndexChain_run hchain ha
  obtain ⟨hmoves, hagree⟩ := freeIndexChain_ok hchain ha hrun
  refine ⟨c', hrun, ?_, hagree⟩
  have hperm := hmoves.perm
  rw [← List.append_assoc] at hperm
  exact (List.perm_append_right_iff own).mp hperm

/-- The ids past the direct ones are written as a chain, when there are slots for its blocks;
    slots are below 2^32 in every volume whose bitmap fits its allocation block.  However it
    was written: the blocks come from the free list and hold between one and
    `maxIndexSlots` ids each; with the head that points to it, the slot map is the ids in
    order; and freeing the chain gives back exactly its blocks. -/
theorem index_chain_codec {c : τ} {own ids : List Nat} {head : Nat} (totalSize : Nat)
    (data : List UInt8) (ha : Accounts c own) (hhead : head ∈ own) :
    (((ids.drop maxDirectSlots).length + maxIndexSlots - 1) / maxIndexSlots ≤ (free c).length →
        (∀ s ∈ ids ++ free c, s < 2 ^ 32) →
        ∃ first c₁, (writeIndexChain (ids.drop maxDirectSlots)).run c = .ok first c₁) ∧
    ∀ first c₁, (writeIndexChain (ids.drop maxDirectSlots)).run c = .ok first c₁ →
      ∃ blocks, free c = free c₁ ++ blocks ∧ blocks.Nodup ∧
        IndexChain (nodes c₁) first (ids.drop maxDirectSlots) blocks ∧
        (∀ s ∈ blocks, ∃ fi : FileIndexBlock, nodes c₁ s = some (.fileIndex fi) ∧
          1 ≤ fi.slotIds.length ∧ fi.slotIds.length ≤ maxIndexSlots) ∧
        (Fits (NodeStore.cipher c) (headNode totalSize (ids.take maxDirectSlots) first data) →
          ∃ c₂, (updateNode head (headNode totalSize (ids.take maxDirectSlots) first data)).run c₁ =
            .ok () c₂) ∧
        ∀ c₂, (updateNode head (headNode totalSize (ids.take maxDirectSlots) first data)).run c₁ =
            .ok () c₂ →
          (buildSlotMap head).run c₂ = .ok (totalSize, first, none :: ids.map some) c₂ ∧
          ∃ c₃, (freeIndexChain first).run c₂ = .ok () c₃ ∧ (free c₃).Perm (free c₂ ++ blocks) ∧
            ∀ t, IsDataSlot c₂ t → t ∉ blocks → nodes c₃ t = nodes c₂ t := by
  refine ⟨fun hroom hsmall => ?_, fun first c₁ hwrite => ?_⟩
  · exact writeIndexChain_run ha hroom
      (fun id hid => hsmall id (List.mem_append_left _ (List.mem_of_mem_drop hid)))
      (fun s hs => hsmall s (List.mem_append_right _ hs))
  · obtain ⟨blocks, hnew⟩ := writeIndexChain_ok ha hwrite
    have ha₁ := hnew.moves.accounts ha
    have hdistinct := List.nodup_append.mp ha₁.nodup_own
    refine ⟨blocks, hnew.free, hdistinct.1, hnew.chain, hnew.block, fun hfits => ?_, fun c₂ hstore => ?_⟩
    · rw [← hnew.moves.same.cipher] at hfits
      exact updateNode_run hfits
    have hhead₁ : head ∈ blocks ++ own := List.mem_append_right _ hhead
    obtain ⟨hstored, hmoves, -⟩ := updateNode_inv hstore ha₁ hhead₁
    have ha₂ := hmoves.accounts ha₁
    -- the head is none of the blocks
    have hchain : IndexChain (nodes c₂) first (ids.drop maxDirectSlots) blocks :=
      hnew.chain.congr fun s hs => hstored.others s (ha₁.isDataSlot (List.mem_append_left _ hs))
        fun heq => hdistinct.2.2 s hs head hhead heq
    refine ⟨?_, freeIndexChain_blocks hchain ha₂⟩
    have hmap := buildSlotMap_chain ha₂ (ha₂.isDataSlot hhead₁) hstored.node hchain
    rwa [List.take_append_drop] at hmap

/-- A chain lists no more ids than its blocks hold. -/
theorem IndexChain.length_ids_le {nodes : Nat → Option VaultNode} {first : Option Nat}
    {ids slots : List Nat} {k : Nat} (h : IndexChain nodes first ids slots)
    (hk : ∀ s ∈ slots, ∃ fi, nodes s = some (.fileIndex fi) ∧ fi.slotIds.length ≤ k) :
    ids.length ≤ k * slots.length := by
  induction h with
  | nil => exact Nat.zero_le _
  | @cons s fi ids slots hnode _ ih =>
    obtain ⟨fi', hnode', hle⟩ := hk s List.mem_cons_self
    cases hnode.symm.trans hnode'
    have hrest := ih fun t ht => hk t (List.mem_cons_of_mem s ht)
    rw [List.length_append, List.length_cons, Nat.mul_succ]
    omega

theorem IndexChain.first_mem {nodes : Nat → Option VaultNode} {s : Nat} {ids slots : List Nat}
    (h : IndexChain nodes (some s) ids slots) : s ∈ slots := by
  cases h with
  | cons => exact List.mem_cons_self

/-- A chain of two blocks in the two free slots is written, read back through its head and
    freed. -/
theorem index_chain_codec_two_blocks :
    ∃ (c : Volume) (ids : List Nat) (first : Option Nat) (c₁ c₂ c₃ : Volume) (blocks : List Nat),
      (writeIndexChain (ids.drop maxDirectSlots)).run c = .ok first c₁ ∧
        free c = free c₁ ++ blocks ∧ blocks.length = 2 ∧
        (buildSlotMap 1).run c₂ = .ok (1, first, none :: ids.map some) c₂ ∧
        (freeIndexChain first).run c₂ = .ok () c₃ ∧ (free c₃).Perm (free c₂ ++ blocks) := by
  let c : Volume := { Volume.fresh .triple 4 with free := [3, 2] }
  let ids := List.replicate 8081 3
  have hdata : ∀ s ∈ [3, 2, 1], s < 4 := by decide
  have ha : Accounts c [1] := ⟨by decide, hdata⟩
  have hlen : (ids.drop maxDirectSlots).length = 4081 := by
    rw [List.length_drop, List.length_replicate]
    rfl
  have hids : ∀ t ∈ ids, t < 2 ^ 32 := fun t ht => by
    rw [List.eq_of_mem_replicate ht]
    decide
  have hcodec := @index_chain_codec _ _ _ _ c [1] ids 1 1 [] ha List.mem_cons_self
  obtain ⟨first, c₁, hwrite⟩ := hcodec.1 (by rw [hlen]; decide) fun s hs => by
    rcases List.mem_append.mp hs with hs | hs
    · exact hids s hs
    · exact lt_of_lt_of_le (hdata s (List.mem_append_left [1] hs)) (by decide)
  obtain ⟨blocks, hfree, -, hchain, hblocks, hhead, hback⟩ := hcodec.2 first c₁ hwrite
  have htwo : blocks.length ≤ 2 := by
    have hsum := congrArg List.length hfree
    rw [List.length_append] at hsum
    exact le_of_le_of_eq (Nat.le_add_left _ _) hsum.symm
  have hfew := hchain.length_ids_le fun s hs => by
    obtain ⟨fi, hfi, -, hle⟩ := hblocks s hs
    exact ⟨fi, hfi, hle⟩
  rw [hlen, show maxIndexSlots = 4080 from rfl] at hfew
  have hsmall : idsLen (ids.take maxDirectSlots) ≤ 5 * 4000 := by
    refine (idsLen_le fun t ht => hids t (List.mem_of_mem_take ht)).trans ?_
    exact Nat.mul_le_mul_left 5 (List.length_take_le _ _)
  have hfirst : ∀ n ∈ first, n < 2 ^ 64 := fun n hn => by
    cases hn
    have hmem : n ∈ free c := hfree ▸ List.mem_append_right _ hchain.first_mem
    exact lt_of_lt_of_le (hdata n (List.mem_append_left [1] hmem)) (by decide)
  have hfits : Fits (NodeStore.cipher c) (headNode 1 (ids.take maxDirectSlots) first []) := by
    have hlow : (ids.take maxDirectSlots).length ≤ 4000 := List.length_take_le _ _
    refine (file_fits (by decide) (by omega) (fun t ht => ?_) hfirst (by decide)).mpr ?_
    · exact (hids t (List.mem_of_mem_take ht)).trans (by decide)
    · have hpointer := optUint_size_le first
      have hwidth : (MessagePack.Head.array (ids.take maxDirectSlots).length).width ≤ 3 := by
        rw [List.length_take, List.length_replicate]
        decide
      have htags := Crypto.vnmbOverhead_le (NodeStore.cipher c)
      have hone : uintLen 1 + (MessagePack.Head.bin ([] : List UInt8).length).width = 3 := rfl
      rw [show Container.slotSize = 32768 from rfl]
      simp only [List.length_nil] at hone ⊢
      omega
  obtain ⟨c₂, hstore⟩ := hhead hfits
  obtain ⟨hmap, c₃, hfreed, hperm, -⟩ := hback c₂ hstore
  exact ⟨c, ids, first, c₁, c₂, c₃, blocks, hwrite, hfree, by omega, hmap, hfreed, hperm⟩

end Venom.Fuse
