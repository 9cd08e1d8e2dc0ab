import Venom.Storage.NodeStore

/-! # Restricted stores

A property that the calls of a node store keep, whether they succeed or fail, makes a node
store of the states that have it.  Whatever is built on node stores then keeps the property,
and nothing about it has to be proved again.
-/

namespace Venom.Storage

open Venom.Library.StateError

variable {σ : Type} [NodeStore σ]

/-- Every call keeps the property. -/
class KeptByCalls (p : σ → Prop) : Prop where
  writeNode : ∀ n c, p c → p (after (NodeStore.writeNode n) c)
  updateNode : ∀ s n c, p c → p (after (NodeStore.updateNode s n) c)
  freeNode : ∀ s c, p c → p (NodeStore.freeNode s c)

/-- The states that have the property. -/
def Restricted (p : σ → Prop) : Type := { c : σ // p c }

namespace Restricted

variable {p : σ → Prop}

/-- A state without its property. -/
def plain (c : Restricted p) : σ := c.1

variable [KeptByCalls p]

instance : NodeStore (Restricted p) where
  cipher c := NodeStore.cipher c.plain
  slotCount c := NodeStore.slotCount c.plain
  readNode s c := NodeStore.readNode s c.plain
  writeNode n := onSubtype (NodeStore.writeNode n) (KeptByCalls.writeNode n)
  updateNode s n := onSubtype (NodeStore.updateNode s n) (KeptByCalls.updateNode s n)
  freeNode s c := ⟨NodeStore.freeNode s c.plain, KeptByCalls.freeNode s c.plain c.2⟩

variable [NodeView σ]

instance : NodeView (Restricted p) where
  IsDataSlot c := IsDataSlot c.plain
  nodes c := nodes c.plain
  free c := free c.plain

theorem sameVolume {c c' : Restricted p} (h : SameVolume c.plain c'.plain) : SameVolume c c' :=
  ⟨h.cipher, h.slotCount, h.dataSlot⟩

instance [LawfulNodeStore σ] : LawfulNodeStore (Restricted p) where
  readNode_eq c s hs := LawfulNodeStore.readNode_eq c.plain s hs
  writeNode_ok h hs := by
    obtain ⟨hfree, hfits, hnode, hothers, hsame⟩ := LawfulNodeStore.writeNode_ok (onSubtype_ok.mp h) hs
    exact ⟨hfree, hfits, hnode, hothers, sameVolume hsame⟩
  writeNode_ok_free h := by
    have hmem := LawfulNodeStore.writeNode_ok_free (onSubtype_ok.mp h)
    exact hmem
  writeNode_error h := by
    obtain ⟨hagree, hsame, hcause⟩ := LawfulNodeStore.writeNode_error (onSubtype_error.mp h)
    exact ⟨hagree, sameVolume hsame, hcause⟩
  updateNode_ok h hs := by
    obtain ⟨hfits, hnode, hfree, hothers, hsame⟩ := LawfulNodeStore.updateNode_ok (onSubtype_ok.mp h) hs
    exact ⟨hfits, hnode, hfree, hothers, sameVolume hsame⟩
  updateNode_error h := by
    obtain ⟨hno, hagree, hfree, hsame⟩ := LawfulNodeStore.updateNode_error (onSubtype_error.mp h)
    exact ⟨hno, hagree, hfree, sameVolume hsame⟩
  freeNode_spec c s hs := by
    obtain ⟨hfree, hothers, hsame⟩ := LawfulNodeStore.freeNode_spec c.plain s hs
    exact ⟨hfree, hothers, sameVolume hsame⟩

instance [FreeingNodeStore σ] : FreeingNodeStore (Restricted p) where
  free_freeNode c s := FreeingNodeStore.free_freeNode c.plain s
  readNode_freeNode c s t hs hne := FreeingNodeStore.readNode_freeNode c.plain s t hs hne

instance [FiniteNodeStore σ] : FiniteNodeStore (Restricted p) :=
  ⟨fun c slots => FiniteNodeStore.length_le_slotCount c.plain slots⟩

end Restricted

end Venom.Storage
