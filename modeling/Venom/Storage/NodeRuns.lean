import Venom.Storage.NodeStore

/-! # Runs of node calls

A client of a node store writes nodes to slots that the store picks, updates them and gives
slots back.  As long as its calls succeed and concern its own slots, each of them holds the
node that was last put there.
-/

namespace Venom.Storage

open Venom.Library.StateError

variable {σ : Type} [NodeStore σ] [NodeView σ]

/-- The volume is opened again with the nodes and the free list it had. -/
structure Reopens (c c' : σ) : Prop where
  same : SameVolume c c'
  nodes : NodesAgree c c'
  free : (free c').Perm (free c)

/-- The nodes of a client, in the slots it holds. -/
abbrev Contents : Type := Nat → Option VaultNode

/-- A call that succeeds. -/
inductive NodeCall : σ × Contents → σ × Contents → Prop
  | wrote {c c' : σ} {C : Contents} {n : VaultNode} {s : Nat}
      (h : (NodeStore.writeNode n).run c = .ok s c') :
      NodeCall (c, C) (c', Function.update C s (some n))
  | updated {c c' : σ} {C : Contents} {n : VaultNode} {s : Nat} (hheld : C s ≠ none)
      (h : (NodeStore.updateNode s n).run c = .ok () c') :
      NodeCall (c, C) (c', Function.update C s (some n))
  | freed {c : σ} {C : Contents} {s : Nat} (hheld : C s ≠ none) :
      NodeCall (c, C) (NodeStore.freeNode s c, Function.update C s none)

/-- The store holds the nodes of the client, and none of their slots is free. -/
structure HoldsNodes (c : σ) (C : Contents) : Prop where
  sorted : (free c).SortedGT
  freeOk : FreeOk c
  held : ∀ s n, C s = some n → IsDataSlot c s ∧ s ∉ free c ∧ nodes c s = some n

/-- The slot `s`, which is free or the client's, gets the node `o`, or is given back. -/
structure SlotChange (c c' : σ) (C : Contents) (s : Nat) (o : Option VaultNode) : Prop where
  dataSlot : IsDataSlot c s
  mine : s ∈ free c ∨ C s ≠ none
  same : SameVolume c c'
  others : NodesAgreeExcept s c c'
  sorted : (free c').SortedGT
  free : ∀ t ∈ free c', t ∈ free c ∨ t = s
  held : ∀ n, o = some n → s ∉ Storage.free c' ∧ nodes c' s = some n

/-- The other slots are held or free as before. -/
theorem SlotChange.untouched {c c' : σ} {C : Contents} {s t : Nat} {o : Option VaultNode}
    (h : SlotChange c c' C s o) (hfree : t ∉ Storage.free c) (hheld : C t = none) :
    t ≠ s ∧ t ∉ Storage.free c' ∧ Function.update C s o t = none := by
  have hne : t ≠ s := fun heq => h.mine.elim (heq ▸ hfree) fun hs => hs (heq ▸ hheld)
  refine ⟨hne, fun hmem => (h.free t hmem).elim hfree hne, ?_⟩
  rw [Function.update_of_ne hne, hheld]

namespace HoldsNodes

variable {c c' : σ} {C C' : Contents}

omit [NodeStore σ] in
/-- A client has nodes in its slots. -/
theorem node (h : HoldsNodes c C) {s : Nat} (hs : C s ≠ none) :
    ∃ n, C s = some n ∧ IsDataSlot c s ∧ s ∉ free c ∧ nodes c s = some n := by
  obtain ⟨n, hn⟩ := Option.ne_none_iff_exists'.mp hs
  exact ⟨n, hn, h.held s n hn⟩

/-! ### What a call can do -/

variable [LawfulNodeStore σ]

theorem wrote (h : HoldsNodes c C) {n : VaultNode} {s : Nat}
    (hrun : (NodeStore.writeNode n).run c = .ok s c') : SlotChange c c' C s (some n) := by
  have hmem := LawfulNodeStore.writeNode_ok_free hrun
  have hs := h.freeOk.dataSlot s hmem
  obtain ⟨hfree, -, hnode, hothers, hsame⟩ := LawfulNodeStore.writeNode_ok hrun hs
  have hsorted := h.sorted
  have hnodup := h.freeOk.nodup
  rw [hfree] at hsorted hnodup
  refine ⟨hs, .inl hmem, hsame, hothers, ?_, fun t ht => .inl ?_, fun n' hn' => ⟨fun hmem' => ?_, ?_⟩⟩
  · rw [List.sortedGT_iff_pairwise] at hsorted ⊢
    exact (List.pairwise_append.mp hsorted).1
  · rw [hfree]
    exact List.mem_append_left _ ht
  · exact (List.nodup_append.mp hnodup).2.2 s hmem' s List.mem_cons_self rfl
  · rw [hnode, hn']

theorem updated (h : HoldsNodes c C) {n : VaultNode} {s : Nat} (hheld : C s ≠ none)
    (hrun : (NodeStore.updateNode s n).run c = .ok () c') : SlotChange c c' C s (some n) := by
  obtain ⟨-, -, hs, hnot, -⟩ := h.node hheld
  obtain ⟨-, hnode, hfree, hothers, hsame⟩ := LawfulNodeStore.updateNode_ok hrun hs
  refine ⟨hs, .inr hheld, hsame, hothers, ?_, fun t ht => .inl ?_, fun n' hn' => ⟨?_, ?_⟩⟩
  · rw [hfree]
    exact h.sorted
  · rwa [← hfree]
  · rwa [hfree]
  · rw [hnode, hn']

theorem freed (h : HoldsNodes c C) {s : Nat} (hheld : C s ≠ none) :
    SlotChange c (NodeStore.freeNode s c) C s none := by
  obtain ⟨-, -, hs, hnot, -⟩ := h.node hheld
  obtain ⟨hfree, hothers, hsame⟩ := LawfulNodeStore.freeNode_spec c s hs
  refine ⟨hs, .inr hheld, hsame, hothers, ?_, fun t ht => ?_, fun n hn => by cases hn⟩
  · rw [hfree]
    exact sortedGT_insertFree h.sorted hnot
  · rw [hfree, mem_insertFree] at ht
    exact ht.symm

omit [LawfulNodeStore σ] in
/-- One slot has changed, and the other slots of the client have their nodes. -/
theorem changed {s : Nat} {o : Option VaultNode} (h : HoldsNodes c C) (hchange : SlotChange c c' C s o) :
    HoldsNodes c' (Function.update C s o) := by
  refine ⟨hchange.sorted, ⟨hchange.sorted.nodup, fun t ht => hchange.same.isDataSlot.mpr ?_⟩,
    fun t n ht => ?_⟩
  · obtain ht | rfl := hchange.free t ht
    · exact h.freeOk.dataSlot t ht
    · exact hchange.dataSlot
  · by_cases heq : t = s
    · rw [heq] at ht ⊢
      rw [Function.update_self] at ht
      obtain ⟨hnot, hnode⟩ := hchange.held n ht
      exact ⟨hchange.same.isDataSlot.mpr hchange.dataSlot, hnot, hnode⟩
    · rw [Function.update_of_ne heq] at ht
      obtain ⟨hdataSlot, hnot, hnode⟩ := h.held t n ht
      refine ⟨hchange.same.isDataSlot.mpr hdataSlot, fun hmem => ?_, ?_⟩
      · exact (hchange.free t hmem).elim hnot heq
      · rw [hchange.others t hdataSlot heq, hnode]

theorem call (h : HoldsNodes c C) (hcall : NodeCall (c, C) (c', C')) : HoldsNodes c' C' := by
  cases hcall with
  | wrote hrun => exact h.changed (h.wrote hrun)
  | updated hheld hrun => exact h.changed (h.updated hheld hrun)
  | freed hheld => exact h.changed (h.freed hheld)

omit [LawfulNodeStore σ] in
/-- Another handle on the volume holds the same nodes. -/
theorem reopened (h : HoldsNodes c C) (hre : Reopens c c') (hsorted : (free c').SortedGT) : HoldsNodes c' C := by
  refine ⟨hsorted, ⟨hsorted.nodup, fun t ht => ?_⟩, fun s n hs => ?_⟩
  · exact hre.same.isDataSlot.mpr (h.freeOk.dataSlot t (hre.free.mem_iff.mp ht))
  · obtain ⟨hdata, hnot, hnode⟩ := h.held s n hs
    exact ⟨hre.same.isDataSlot.mpr hdata, fun hmem => hnot (hre.free.mem_iff.mp hmem), by
      rw [hre.nodes s hdata, hnode]⟩

end HoldsNodes

end Venom.Storage
