import Venom.Storage.VaultFs
import Venom.Crypto.Cipher
import Venom.Error
import Venom.Library.StateError
import Venom.Library.Pool
import Mathlib.Data.List.Sort
import Mathlib.Logic.Function.Basic

/-! # Node stores

The driver sees a container through four calls: read, write (allocate and store),
update and free a node.  `NodeStore` is that interface; `LawfulNodeStore` says what a
call does in terms of the nodes the slots hold and of the free list.  A slot that is
freed is wiped, and nothing is said about what a wiped slot decodes to.

`Volume` is the interface's plainest implementation, a table of nodes and a free list.
-/

namespace Venom.Storage

open Venom.Container (CipherAlgorithm slotSize)
open Venom.Crypto (vnmbOverhead)
open Venom.Library
open Venom.Library.StateError

/-- A node whose sealed encoding fits one slot, behind its length prefix. -/
def Fits (cipher : CipherAlgorithm) (n : VaultNode) : Prop :=
  n.toValue.valid = true ∧ encodedLen n + vnmbOverhead cipher + 4 ≤ slotSize

instance (cipher : CipherAlgorithm) (n : VaultNode) : Decidable (Fits cipher n) :=
  inferInstanceAs (Decidable (_ ∧ _))

/-- The free list is kept descending: a slot goes back behind the larger ones. -/
def insertFree (slot : Nat) (free : List Nat) : List Nat :=
  free.orderedInsert (· ≥ ·) slot

@[simp] theorem mem_insertFree {slot s : Nat} {free : List Nat} :
    s ∈ insertFree slot free ↔ s = slot ∨ s ∈ free := List.mem_orderedInsert _

theorem nodup_insertFree {slot : Nat} {free : List Nat} :
    (insertFree slot free).Nodup ↔ slot ∉ free ∧ free.Nodup := Pool.nodup_orderedInsert

theorem sortedGT_insertFree {slot : Nat} {free : List Nat} (h : free.SortedGT) (hnot : slot ∉ free) :
    (insertFree slot free).SortedGT := Pool.sortedGT_orderedInsert h hnot

/-- The slot taken last goes back to its place. -/
theorem insertFree_last {slot : Nat} {free : List Nat} (h : (free ++ [slot]).SortedGT) :
    insertFree slot free = free ++ [slot] := Pool.orderedInsert_last h

/-! ## The interface -/

class NodeStore (σ : Type) where
  cipher : σ → CipherAlgorithm
  /-- The number of slots of the volume. -/
  slotCount : σ → Nat
  readNode : Nat → σ → Except VnmError VaultNode
  writeNode : VaultNode → EStateM VnmError σ Nat
  updateNode : Nat → VaultNode → EStateM VnmError σ Unit
  freeNode : Nat → σ → σ

/-- The nodes and the free list behind a store, and the slots that can hold a node. -/
class NodeView (σ : Type) where
  IsDataSlot : σ → Nat → Prop
  nodes : σ → Nat → Option VaultNode
  free : σ → List Nat

export NodeView (IsDataSlot nodes free)

variable {σ : Type} [NodeStore σ] [NodeView σ]

/-- What no call changes. -/
structure SameVolume (c c' : σ) : Prop where
  cipher : NodeStore.cipher c' = NodeStore.cipher c
  slotCount : NodeStore.slotCount c' = NodeStore.slotCount c
  dataSlot : IsDataSlot c' = IsDataSlot c

/-- Only slot `s` holds another node. -/
def NodesAgreeExcept (s : Nat) (c c' : σ) : Prop :=
  ∀ t, IsDataSlot c t → t ≠ s → nodes c' t = nodes c t

/-- All slots hold the same nodes. -/
def NodesAgree (c c' : σ) : Prop := ∀ t, IsDataSlot c t → nodes c' t = nodes c t

class LawfulNodeStore (σ : Type) [NodeStore σ] [NodeView σ] : Prop where
  readNode_eq : ∀ (c : σ) s, IsDataSlot c s → (NodeStore.readNode s c).toOption = nodes c s
  writeNode_ok : ∀ {c c' : σ} {n s}, (NodeStore.writeNode n).run c = .ok s c' →
    IsDataSlot c s →
    free c = free c' ++ [s] ∧ Fits (NodeStore.cipher c) n ∧ nodes c' s = some n ∧
      NodesAgreeExcept s c c' ∧ SameVolume c c'
  writeNode_ok_free : ∀ {c c' : σ} {n s}, (NodeStore.writeNode n).run c = .ok s c' →
    s ∈ free c
  writeNode_error : ∀ {c c' : σ} {n e}, (NodeStore.writeNode n).run c = .error e c' →
    NodesAgree c c' ∧ SameVolume c c' ∧
      ((free c = [] ∧ free c' = []) ∨
        ∃ s, free c = free c' ++ [s] ∧ ¬ Fits (NodeStore.cipher c) n)
  updateNode_ok : ∀ {c c' : σ} {s n}, (NodeStore.updateNode s n).run c = .ok () c' →
    IsDataSlot c s →
    Fits (NodeStore.cipher c) n ∧ nodes c' s = some n ∧ free c' = free c ∧
      NodesAgreeExcept s c c' ∧ SameVolume c c'
  updateNode_error : ∀ {c c' : σ} {s n e}, (NodeStore.updateNode s n).run c = .error e c' →
    ¬ Fits (NodeStore.cipher c) n ∧ NodesAgree c c' ∧ free c' = free c ∧ SameVolume c c'
  freeNode_spec : ∀ (c : σ) s, IsDataSlot c s →
    free (NodeStore.freeNode s c) = insertFree s (free c) ∧
      NodesAgreeExcept s c (NodeStore.freeNode s c) ∧ SameVolume c (NodeStore.freeNode s c)

/-- A store whose wiped slots hold nothing: random bytes do not authenticate. -/
class WipingNodeStore (σ : Type) [NodeStore σ] [NodeView σ] : Prop extends LawfulNodeStore σ where
  freeNode_wiped : ∀ (c : σ) s, IsDataSlot c s → nodes (NodeStore.freeNode s c) s = none

/-- A store with no more data slots than slots. -/
class FiniteNodeStore (σ : Type) [NodeStore σ] [NodeView σ] : Prop extends LawfulNodeStore σ where
  length_le_slotCount : ∀ (c : σ) (slots : List Nat), slots.Nodup →
    (∀ s ∈ slots, IsDataSlot c s) → slots.length ≤ NodeStore.slotCount c

/-- A store that takes back every slot, and that wipes no other slot with it. -/
class FreeingNodeStore (σ : Type) [NodeStore σ] [NodeView σ] : Prop extends LawfulNodeStore σ where
  free_freeNode : ∀ (c : σ) s, free (NodeStore.freeNode s c) = insertFree s (free c)
  readNode_freeNode : ∀ (c : σ) s t, IsDataSlot c s → t ≠ s →
    (NodeStore.readNode t (NodeStore.freeNode s c)).toOption = (NodeStore.readNode t c).toOption

/-- Nodes lie in data slots, and at least one slot of the volume, that of the allocation
    block, holds none. -/
structure NodeSlots (c : σ) : Prop where
  dataSlot : ∀ s n, NodeStore.readNode s c = .ok n → IsDataSlot c s
  spare : ∀ slots : List Nat, slots.Nodup → (∀ s ∈ slots, ∃ n, NodeStore.readNode s c = .ok n) →
    slots.length < NodeStore.slotCount c

/-! ## Consequences -/

namespace SameVolume

theorem refl (c : σ) : SameVolume c c := ⟨rfl, rfl, rfl⟩

theorem trans {c c' c'' : σ} (h : SameVolume c c') (h' : SameVolume c' c'') :
    SameVolume c c'' :=
  ⟨h'.cipher.trans h.cipher, h'.slotCount.trans h.slotCount, h'.dataSlot.trans h.dataSlot⟩

theorem isDataSlot {c c' : σ} (h : SameVolume c c') {s : Nat} :
    IsDataSlot c' s ↔ IsDataSlot c s := by rw [h.dataSlot]

end SameVolume

/-- The allocator's state is sound: distinct free slots, all of them data slots. -/
structure FreeOk (c : σ) : Prop where
  nodup : (free c).Nodup
  dataSlot : ∀ s ∈ free c, IsDataSlot c s

variable [LawfulNodeStore σ]

theorem readNode_ok {c : σ} {s : Nat} {n : VaultNode} (hs : IsDataSlot c s) :
    NodeStore.readNode s c = .ok n ↔ nodes c s = some n := by
  rw [← LawfulNodeStore.readNode_eq c s hs]
  cases NodeStore.readNode s c <;> simp [Except.toOption]

theorem writeNode_isOk {c : σ} {n : VaultNode} (hfree : free c ≠ [])
    (hfits : Fits (NodeStore.cipher c) n) : ∃ s c', (NodeStore.writeNode n).run c = .ok s c' := by
  cases h : (NodeStore.writeNode n).run c with
  | ok s c' => exact ⟨s, c', rfl⟩
  | error e c' =>
    obtain ⟨-, -, ⟨hnil, -⟩ | ⟨s, -, hno⟩⟩ := LawfulNodeStore.writeNode_error h
    · exact absurd hnil hfree
    · exact absurd hfits hno

theorem updateNode_isOk {c : σ} {s : Nat} {n : VaultNode} (hfits : Fits (NodeStore.cipher c) n) :
    ∃ c', (NodeStore.updateNode s n).run c = .ok () c' := by
  cases h : (NodeStore.updateNode s n).run c with
  | ok u c' => exact ⟨c', rfl⟩
  | error e c' => exact absurd hfits (LawfulNodeStore.updateNode_error h).1

/-! ## A table of nodes -/

/-- A volume as a table: what each slot holds, and which slots are free. -/
structure Volume where
  cipher : CipherAlgorithm
  slotCount : Nat
  nodes : Nat → Option VaultNode
  free : List Nat

namespace Volume

def readNode (s : Nat) (v : Volume) : Except VnmError VaultNode :=
  match v.nodes s with
  | some n => .ok n
  | none => .error (.corruptedSlot s "authentication failed")

def put (s : Nat) (n : VaultNode) (v : Volume) : Volume :=
  { v with nodes := Function.update v.nodes s (some n) }

def updateNode (s : Nat) (n : VaultNode) : EStateM VnmError Volume Unit := fun v =>
  if Fits v.cipher n then .ok () (v.put s n)
  else .error (.serialization "plaintext too large for one slot") v

def writeNode (n : VaultNode) : EStateM VnmError Volume Nat := fun v =>
  match v.free.getLast? with
  | none => .error .noSpaceLeft v
  | some s =>
    let v := { v with free := v.free.dropLast }
    if Fits v.cipher n then .ok s (v.put s n)
    else .error (.serialization "plaintext too large for one slot") v

def freeNode (s : Nat) (v : Volume) : Volume :=
  { v with nodes := Function.update v.nodes s none, free := insertFree s v.free }

instance : NodeStore Volume := ⟨cipher, slotCount, readNode, writeNode, updateNode, freeNode⟩

instance : NodeView Volume := ⟨fun v s => s < v.slotCount, nodes, free⟩

theorem isDataSlot_iff {v : Volume} {s : Nat} : IsDataSlot v s ↔ s < v.slotCount := Iff.rfl

private theorem put_agrees (s : Nat) (n : VaultNode) (v : Volume) :
    NodesAgreeExcept s v (v.put s n) := fun _ _ hne => Function.update_of_ne hne _ _

instance : LawfulNodeStore Volume where
  readNode_eq v s _ := by
    change (readNode s v).toOption = v.nodes s
    unfold readNode
    cases v.nodes s <;> rfl
  writeNode_ok {v v' n s} h _ := by
    change writeNode n v = _ at h
    unfold writeNode at h
    split at h
    next => contradiction
    next last hlast =>
      dsimp only at h
      split at h
      next hfits =>
        cases h
        refine ⟨(List.dropLast_append_getLast? _ hlast).symm, hfits,
          Function.update_self .., ?_, ⟨rfl, rfl, rfl⟩⟩
        exact fun t _ hne => Function.update_of_ne hne _ _
      next => contradiction
  writeNode_ok_free {v v' n s} h := by
    change writeNode n v = _ at h
    unfold writeNode at h
    split at h
    next => contradiction
    next last hlast =>
      dsimp only at h
      split at h
      · cases h; exact List.mem_of_getLast? hlast
      · contradiction
  writeNode_error {v v' n e} h := by
    change writeNode n v = _ at h
    unfold writeNode at h
    split at h
    next hnil =>
      cases h
      rw [List.getLast?_eq_none_iff] at hnil
      exact ⟨fun _ _ => rfl, .refl v, .inl ⟨hnil, hnil⟩⟩
    next last hlast =>
      dsimp only at h
      split at h
      next => contradiction
      next hno =>
        cases h
        exact ⟨fun _ _ => rfl, ⟨rfl, rfl, rfl⟩,
          .inr ⟨last, (List.dropLast_append_getLast? _ hlast).symm, hno⟩⟩
  updateNode_ok {v v' s n} h _ := by
    change updateNode s n v = _ at h
    unfold updateNode at h
    split at h
    next hfits =>
      cases h
      exact ⟨hfits, Function.update_self .., rfl, put_agrees s n v, ⟨rfl, rfl, rfl⟩⟩
    next => contradiction
  updateNode_error {v v' s n e} h := by
    change updateNode s n v = _ at h
    unfold updateNode at h
    split at h
    next => contradiction
    next hno => cases h; exact ⟨hno, fun _ _ => rfl, rfl, .refl v⟩
  freeNode_spec v s _ :=
    ⟨rfl, fun _ _ hne => Function.update_of_ne hne _ _, ⟨rfl, rfl, rfl⟩⟩

instance : WipingNodeStore Volume := ⟨fun _ _ _ => Function.update_self ..⟩

instance : FreeingNodeStore Volume where
  free_freeNode _ _ := rfl
  readNode_freeNode v s t _ hne := by
    have hsame : (freeNode s v).nodes t = v.nodes t := Function.update_of_ne hne _ _
    change (readNode t (freeNode s v)).toOption = (readNode t v).toOption
    rw [readNode, readNode, hsame]

instance : FiniteNodeStore Volume := ⟨fun v slots hnodup hslots => by
  have hsub : slots ⊆ List.range v.slotCount := fun s hs => List.mem_range.mpr (hslots s hs)
  have hle := hnodup.length_le_of_subset hsub
  rwa [List.length_range] at hle⟩

/-- A new volume: an empty root directory in slot 0, every other slot free. -/
def fresh (cipher : CipherAlgorithm) (slotCount : Nat) : Volume :=
  { cipher, slotCount
    nodes := fun s => if s = 0 then some (.directory { kind := .directory, entries := [] }) else none
    free := (List.range' 1 (slotCount - 1)).reverse }

theorem fresh_freeOk (cipher : CipherAlgorithm) (slotCount : Nat) :
    FreeOk (fresh cipher slotCount) where
  nodup := List.nodup_reverse.mpr List.nodup_range'
  dataSlot s hs := by
    have := List.mem_range'_1.mp (List.mem_reverse.mp hs)
    change s < slotCount
    omega

end Volume

end Venom.Storage
