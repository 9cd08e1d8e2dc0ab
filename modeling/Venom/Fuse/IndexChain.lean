import Venom.Fuse.Accounts

/-! # Index chains

The ids that do not fit the head of a file lie in a linked list of index blocks.
`IndexChain` relates a chain pointer to the ids along it and to the slots it occupies;
reading, freeing and writing a chain are described by it.
-/

namespace Venom.Fuse

open Venom.Storage
open Venom.Library.StateError
open Venom.Library.Chunks

/-- The chain from a pointer lists `ids` and occupies `slots`. -/
inductive IndexChain (nodes : Nat → Option VaultNode) : Option Nat → List Nat → List Nat → Prop
  | nil : IndexChain nodes none [] []
  | cons {s : Nat} {fi : FileIndexBlock} {ids slots : List Nat} :
      nodes s = some (.fileIndex fi) → IndexChain nodes fi.nextIndex ids slots →
      IndexChain nodes (some s) (fi.slotIds ++ ids) (s :: slots)

namespace IndexChain

variable {nodes nodes' : Nat → Option VaultNode} {first : Option Nat} {ids slots : List Nat}

theorem congr (h : IndexChain nodes first ids slots) (hsame : ∀ s ∈ slots, nodes' s = nodes s) :
    IndexChain nodes' first ids slots := by
  induction h with
  | nil => exact .nil
  | cons hnode _ ih =>
    exact .cons ((hsame _ List.mem_cons_self).trans hnode)
      (ih fun s hs => hsame s (List.mem_cons_of_mem _ hs))

/-- A chain without slots is no chain. -/
theorem first_none (h : IndexChain nodes first ids []) : first = none := by
  cases h
  rfl

/-- A chain is determined by its pointer. -/
theorem unique {ids' slots' : List Nat} (h : IndexChain nodes first ids slots)
    (h' : IndexChain nodes first ids' slots') : ids' = ids ∧ slots' = slots := by
  induction h generalizing ids' slots' with
  | nil => cases h'; exact ⟨rfl, rfl⟩
  | cons hnode _ ih =>
    cases h' with
    | cons hnode' hrest' =>
      rw [hnode] at hnode'
      cases hnode'
      obtain ⟨rfl, rfl⟩ := ih hrest'
      exact ⟨rfl, rfl⟩

end IndexChain

variable {σ : Type} [NodeStore σ] [NodeView σ] [LawfulNodeStore σ]

/-! ## Reading -/

theorem collectIndex_ok {c c' : σ} {fuel : Nat} {first : Option Nat} {ids slots r : List Nat}
    (hchain : IndexChain (nodes c) first ids slots) (hdata : ∀ s ∈ slots, IsDataSlot c s)
    (h : (collectIndex fuel first).run c = .ok r c') : r = ids ∧ c' = c := by
  induction fuel generalizing c' first ids slots r with
  | zero =>
    cases hchain with
    | nil => cases h; exact ⟨rfl, rfl⟩
    | cons => cases h
  | succ fuel ih =>
    cases hchain with
    | nil => cases h; exact ⟨rfl, rfl⟩
    | cons hnode hrest =>
      obtain ⟨n, c₁, hread, hcont⟩ := run_bind_ok.mp h
      obtain ⟨rfl, hn⟩ := readNode_inv hread
      obtain rfl : n = _ := Option.some.inj ((hn (hdata _ List.mem_cons_self)).symm.trans hnode)
      obtain ⟨rest, c₂, hcol, hret⟩ := run_bind_ok.mp hcont
      obtain ⟨rfl, rfl⟩ := ih hrest (fun s hs => hdata s (List.mem_cons_of_mem _ hs)) hcol
      cases hret
      exact ⟨rfl, rfl⟩

theorem collectIndex_run {c : σ} {fuel : Nat} {first : Option Nat} {ids slots : List Nat}
    (hchain : IndexChain (nodes c) first ids slots) (hdata : ∀ s ∈ slots, IsDataSlot c s)
    (hfuel : slots.length ≤ fuel) : (collectIndex fuel first).run c = .ok ids c := by
  induction hchain generalizing fuel with
  | nil => cases fuel <;> rfl
  | cons hnode hrest ih =>
    obtain ⟨fuel, rfl⟩ : ∃ f, fuel = f + 1 := ⟨fuel - 1, by simp at hfuel; omega⟩
    have hdata' := fun s hs => hdata s (List.mem_cons_of_mem _ hs)
    have hrec := ih hdata' (by simpa using hfuel)
    rw [collectIndex, run_bind_of_ok (readNode_run (hdata _ List.mem_cons_self) hnode)]
    exact run_bind_of_ok hrec

/-! ## Freeing -/

omit [NodeView σ] [LawfulNodeStore σ] in
theorem freeNode_run_ok {c c' : σ} {s : Nat} {u : Unit} :
    (freeNode s).run c = .ok u c' ↔ c' = NodeStore.freeNode s c := by
  unfold freeNode
  rw [run_modify]
  simp [eq_comm]

theorem freeChainFrom_ok {c c' : σ} {fuel : Nat} {first : Option Nat} {ids slots own : List Nat}
    (hchain : IndexChain (nodes c) first ids slots) (ha : Accounts c (slots ++ own))
    (h : (freeChainFrom fuel first).run c = .ok () c') :
    Moves c c' (slots ++ own) own ∧
      ∀ t, IsDataSlot c t → t ∉ slots → nodes c' t = nodes c t := by
  induction fuel generalizing c first ids slots with
  | zero =>
    cases hchain with
    | nil => cases h; exact ⟨.refl _ own, fun _ _ _ => rfl⟩
    | cons => cases h
  | succ fuel ih =>
    cases hchain with
    | nil => cases h; exact ⟨.refl _ own, fun _ _ _ => rfl⟩
    | @cons s fi ids slots hnode hrest =>
      have hs : IsDataSlot c s := ha.isDataSlot List.mem_cons_self
      obtain ⟨_, _, hget, h⟩ := run_bind_ok.mp h
      cases hget
      rw [(readNode_ok hs).mpr hnode] at h
      obtain ⟨_, c₁, hfree, h⟩ := run_bind_ok.mp h
      rw [freeNode_run_ok] at hfree
      obtain ⟨hothers, hmoves⟩ := freeNode_inv ha
      rw [← hfree] at hothers hmoves
      have hnot : s ∉ slots := fun hm =>
        (List.nodup_cons.mp ha.nodup_own).1 (List.mem_append_left _ hm)
      have hdata : ∀ t ∈ slots, IsDataSlot c t := fun t ht =>
        ha.isDataSlot (List.mem_cons_of_mem _ (List.mem_append_left _ ht))
      have hrest' : IndexChain (nodes c₁) fi.nextIndex ids slots :=
        hrest.congr fun t ht => hothers t (hdata t ht) fun e => hnot (e ▸ ht)
      obtain ⟨hmoves', hagree⟩ := ih hrest' (hmoves.accounts ha) h
      refine ⟨hmoves.trans hmoves', fun t ht hnt => ?_⟩
      rw [List.mem_cons, not_or] at hnt
      rw [hagree t (hmoves.same.isDataSlot.mpr ht) hnt.2, hothers t ht hnt.1]

theorem freeIndexChain_ok {c c' : σ} {first : Option Nat} {ids slots own : List Nat}
    (hchain : IndexChain (nodes c) first ids slots) (ha : Accounts c (slots ++ own))
    (h : (freeIndexChain first).run c = .ok () c') :
    Moves c c' (slots ++ own) own ∧
      ∀ t, IsDataSlot c t → t ∉ slots → nodes c' t = nodes c t := by
  obtain ⟨_, _, hget, h⟩ := run_bind_ok.mp h
  cases hget
  exact freeChainFrom_ok hchain ha h

theorem freeChainFrom_run {c : σ} {fuel : Nat} {first : Option Nat} {ids slots own : List Nat}
    (hchain : IndexChain (nodes c) first ids slots) (ha : Accounts c (slots ++ own))
    (hfuel : slots.length ≤ fuel) : ∃ c', (freeChainFrom fuel first).run c = .ok () c' := by
  induction fuel generalizing c first ids slots with
  | zero =>
    cases hchain with
    | nil => exact ⟨c, rfl⟩
    | cons => simp at hfuel
  | succ fuel ih =>
    cases hchain with
    | nil => exact ⟨c, rfl⟩
    | @cons s fi ids slots hnode hrest =>
      have hs : IsDataSlot c s := ha.isDataSlot List.mem_cons_self
      obtain ⟨hothers, hmoves⟩ := freeNode_inv ha
      have hnot : s ∉ slots := fun hm =>
        (List.nodup_cons.mp ha.nodup_own).1 (List.mem_append_left _ hm)
      have hrest' : IndexChain (nodes (NodeStore.freeNode s c)) fi.nextIndex ids slots :=
        hrest.congr fun t ht => hothers t
          (ha.isDataSlot (List.mem_cons_of_mem _ (List.mem_append_left _ ht)))
          fun e => hnot (e ▸ ht)
      obtain ⟨c', hrun⟩ := ih hrest' (hmoves.accounts ha) (by simpa using hfuel)
      refine ⟨c', ?_⟩
      rw [freeChainFrom, run_bind_of_ok run_get, (readNode_ok hs).mpr hnode]
      dsimp only
      rw [run_bind_of_ok (freeNode_run_ok (u := ()).mpr rfl), hrun]

section Finite

variable {τ : Type} [NodeStore τ] [NodeView τ] [FiniteNodeStore τ]

/-- Owned slots are slots of the volume. -/
theorem Accounts.length_le {c : τ} {own : List Nat} (ha : Accounts c own) :
    own.length ≤ NodeStore.slotCount c :=
  FiniteNodeStore.length_le_slotCount c own ha.nodup_own fun _ hs => ha.isDataSlot hs

/-- Freeing a chain of owned slots comes to its end. -/
theorem freeIndexChain_run {c : τ} {first : Option Nat} {ids slots own : List Nat}
    (hchain : IndexChain (nodes c) first ids slots) (ha : Accounts c (slots ++ own)) :
    ∃ c', (freeIndexChain first).run c = .ok () c' := by
  unfold freeIndexChain
  rw [run_bind_of_ok run_get]
  refine freeChainFrom_run hchain ha ?_
  have hle := ha.length_le
  rw [List.length_append] at hle
  unfold chainFuel
  omega

end Finite

/-! ## Writing -/

/-- A chain written in front of an existing one.  Its slots are the end of the free list, the
    one written last in front, and each holds one of the pieces. -/
theorem writeChainFrom_ok {c c' : σ} {pieces : List (List Nat)} {next first : Option Nat}
    {ids slots own : List Nat} (hchain : IndexChain (nodes c) next ids slots)
    (ha : Accounts c own) (hown : ∀ s ∈ slots, s ∈ own)
    (h : (writeChainFrom pieces next).run c = .ok first c') :
    ∃ new, IndexChain (nodes c') first (pieces.reverse.flatten ++ ids) (new ++ slots) ∧
      free c = free c' ++ new ∧ Moves c c' own (new ++ own) ∧
      (∀ s ∈ new, ∃ piece ∈ pieces, ∃ link, nodes c' s = some (indexNode piece link)) ∧
      ∀ t, IsDataSlot c t → t ∉ free c → nodes c' t = nodes c t := by
  induction pieces generalizing c next ids slots own with
  | nil =>
    cases h
    exact ⟨[], by simpa using hchain, by simp, .refl _ own, by simp, fun _ _ _ => rfl⟩
  | cons piece pieces ih =>
    obtain ⟨s, c₁, hwrite, h⟩ := run_bind_ok.mp h
    obtain ⟨hstored, hmoves, hfree⟩ := writeNode_inv hwrite ha
    have hsfree : s ∈ free c := by rw [hfree]; simp
    have hchain₁ : IndexChain (nodes c₁) (some s) (piece ++ ids) (s :: slots) :=
      .cons hstored.node (hchain.congr fun t ht =>
        hstored.others t (ha.isDataSlot (hown t ht))
          fun e => ha.not_free (hown t ht) (e ▸ hsfree))
    have hown₁ : ∀ t ∈ s :: slots, t ∈ s :: own := fun t ht => by
      rcases List.mem_cons.mp ht with rfl | ht
      · exact List.mem_cons_self
      · exact List.mem_cons_of_mem _ (hown t ht)
    have ha₁ := hmoves.accounts ha
    obtain ⟨new, hnew, hfree', hmoves', hpieces, hagree⟩ := ih hchain₁ ha₁ hown₁ h
    refine ⟨new ++ [s], by simpa using hnew, ?_, ?_, fun t ht => ?_, fun t ht hnf => ?_⟩
    · rw [hfree, hfree', List.append_assoc]
    · exact hmoves.trans (by simpa using hmoves')
    · rcases List.mem_append.mp ht with ht | ht
      · obtain ⟨p, hp, hnode⟩ := hpieces t ht
        exact ⟨p, List.mem_cons_of_mem _ hp, hnode⟩
      · -- the first block is not touched by the writes that follow
        cases List.mem_singleton.mp ht
        have hs : s ∈ s :: own := List.mem_cons_self
        refine ⟨piece, List.mem_cons_self, next, ?_⟩
        rw [hagree s (ha₁.isDataSlot hs) (ha₁.not_free hs)]
        exact hstored.node
    · have hnf₁ : t ∉ free c₁ := fun hm => hnf (by rw [hfree]; exact List.mem_append_left _ hm)
      rw [hagree t (hmoves.same.isDataSlot.mpr ht) hnf₁,
        hstored.others t ht fun e => hnf (e ▸ hsfree)]

/-- What a chain of index blocks holds that has just been written. -/
structure ChainWritten (c c' : σ) (ids own : List Nat) (first : Option Nat) (new : List Nat) :
    Prop where
  chain : IndexChain (nodes c') first ids new
  free : free c = free c' ++ new
  moves : Moves c c' own (new ++ own)
  block : ∀ s ∈ new, ∃ fi : FileIndexBlock, nodes c' s = some (.fileIndex fi) ∧
    1 ≤ fi.slotIds.length ∧ fi.slotIds.length ≤ maxIndexSlots
  agree : ∀ t, IsDataSlot c t → t ∉ NodeView.free c → nodes c' t = nodes c t

theorem writeIndexChain_ok {c c' : σ} {ids own : List Nat} {first : Option Nat}
    (ha : Accounts c own) (h : (writeIndexChain ids).run c = .ok first c') :
    ∃ new, ChainWritten c c' ids own first new := by
  unfold writeIndexChain at h
  split at h
  next hnil =>
    rw [List.isEmpty_iff] at hnil
    cases h
    subst hnil
    exact ⟨[], .nil, by simp, .refl _ own, by simp, fun _ _ _ => rfl⟩
  next =>
    have hmax : 0 < maxIndexSlots := by decide
    obtain ⟨new, hnew, hfree, hmoves, hpieces, hagree⟩ := writeChainFrom_ok .nil ha (by simp) h
    rw [flatten_reverse_rchunks hmax] at hnew
    refine ⟨new, by simpa using hnew, hfree, hmoves, fun s hs => ?_, hagree⟩
    obtain ⟨piece, hpiece, link, hnode⟩ := hpieces s hs
    obtain ⟨hne, hle⟩ := mem_rchunks hmax hpiece
    exact ⟨_, hnode, List.length_pos_of_ne_nil hne, hle⟩

/-- The head's ids followed by the chain's ids are the ids that were placed. -/
theorem placeIds_ok {c c' : σ} {ids own dataSlots : List Nat} {first : Option Nat}
    (ha : Accounts c own) (h : (placeIds ids).run c = .ok (dataSlots, first) c') :
    ∃ overflow new, dataSlots ++ overflow = ids ∧ IndexChain (nodes c') first overflow new ∧
      Moves c c' own (new ++ own) ∧
      (∀ t, IsDataSlot c t → t ∉ free c → nodes c' t = nodes c t) := by
  unfold placeIds at h
  split at h
  next =>
    cases h
    exact ⟨[], [], by simp, .nil, .refl _ own, fun _ _ _ => rfl⟩
  next =>
    obtain ⟨chain, c₁, hchain, h⟩ := run_bind_ok.mp h
    cases h
    obtain ⟨new, hnew⟩ := writeIndexChain_ok ha hchain
    exact ⟨_, new, List.take_append_drop _ _, hnew.chain, hnew.moves, hnew.agree⟩

end Venom.Fuse
