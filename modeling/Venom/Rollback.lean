import Venom.World
import Venom.Library.Words

/-! # Anti-rollback state

The device keeps the last-seen generation of every container, by container id.  A call
loads the whole map; an update inserts one entry in the loaded copy and writes the whole
map back.
-/

namespace Venom

open Venom.Library (HashMap)
open Venom.Library.Words (hexEncode hexEncode_inj)
open Venom.Crypto (Bytes)

structure RollbackState where
  entries : HashMap String Nat

namespace RollbackState

/-- The local rollback state on disk. -/
def load (w : World) : RollbackState := ⟨w.rollback⟩

/-- Whether `currentGen` is consistent with the stored baseline. -/
def check (r : RollbackState) (containerId : Bytes 16) (currentGen : Nat) : Except VnmError Unit :=
  match r.entries.get (hexEncode containerId.toList) with
  | some stored =>
    if currentGen < stored then .error (.rollbackDetected currentGen stored) else .ok ()
  | none => .ok ()

/-- Write the whole map. -/
def persist {ε : Type} (r : RollbackState) : EStateM ε World Unit :=
  modify fun w => { w with rollback := r.entries }

/-- Update the stored generation and persist. -/
def update {ε : Type} (r : RollbackState) (containerId : Bytes 16) (gen : Nat) :
    EStateM ε World Unit :=
  persist ⟨r.entries.insert (hexEncode containerId.toList) gen⟩

/-- Remove the baseline of a container. -/
def reset {ε : Type} (r : RollbackState) (containerId : Bytes 16) : EStateM ε World Unit :=
  persist ⟨r.entries.remove (hexEncode containerId.toList)⟩

/-- The map `update` writes. -/
def updated (r : RollbackState) (containerId : Bytes 16) (gen : Nat) : RollbackState :=
  ⟨r.entries.insert (hexEncode containerId.toList) gen⟩

/-- The map `reset` writes. -/
def removed (r : RollbackState) (containerId : Bytes 16) : RollbackState :=
  ⟨r.entries.remove (hexEncode containerId.toList)⟩

/-- The entry of a container. -/
def baseline (r : RollbackState) (containerId : Bytes 16) : Option Nat :=
  r.entries.get (hexEncode containerId.toList)

theorem baseline_updated (r : RollbackState) (i j : Bytes 16) (gen : Nat) :
    (r.updated i gen).baseline j = if j = i then some gen else r.baseline j := by
  unfold baseline updated
  rw [HashMap.get_insert]
  by_cases h : j = i
  · rw [if_pos h, if_pos (by rw [h])]
  · rw [if_neg h, if_neg fun he => h (List.Vector.toList_injective (hexEncode_inj.mp he))]

theorem baseline_removed (r : RollbackState) (i j : Bytes 16) :
    (r.removed i).baseline j = if j = i then none else r.baseline j := by
  unfold baseline removed
  rw [HashMap.get_remove]
  by_cases h : j = i
  · rw [if_pos h, if_pos (by rw [h])]
  · rw [if_neg h, if_neg fun he => h (List.Vector.toList_injective (hexEncode_inj.mp he))]

theorem check_eq_ok {r : RollbackState} {containerId : Bytes 16} {gen : Nat} :
    r.check containerId gen = .ok () ↔
      ∀ stored, r.baseline containerId = some stored → stored ≤ gen := by
  unfold check
  cases hget : r.entries.get (hexEncode containerId.toList) with
  | none => simp [baseline, hget]
  | some stored =>
    simp only [baseline, hget, Option.some.injEq]
    by_cases hlt : gen < stored
    · rw [if_pos hlt]
      simp
      omega
    · rw [if_neg hlt]
      simp
      omega

end RollbackState

/-- The stored baseline of a container. -/
def World.baseline (w : World) (containerId : Bytes 16) : Option Nat :=
  w.rollback.get (hexEncode containerId.toList)

/-- `RollbackState::load().update(..)`. -/
def updateRollback {ε : Type} (containerId : Bytes 16) (gen : Nat) : EStateM ε World Unit := do
  let w ← get
  (RollbackState.load w).update containerId gen

theorem RollbackState.check_ok {w : World} {containerId : Bytes 16} {gen : Nat} :
    (RollbackState.load w).check containerId gen = .ok () ↔
      ∀ stored, w.baseline containerId = some stored → stored ≤ gen := check_eq_ok

end Venom
