import Venom.Fuse.CallInvariants
import Venom.Fuse.Namespace

/-! # Inode numbers

An inode is handed out for a slot that has none, and both are forgotten together.  Whatever the
driver is asked to do, an inode leads to a slot that leads back to it.  The numbers are a counter
modulo 2^64: as long as it does not wrap around, slots and inodes are paired, and no number is
handed out twice.
-/

namespace Venom.Fuse

open Venom.Storage
open Venom.Library
open Venom.Library.StateError

variable {σ : Type} [NodeStore σ]

/-! ## Numbers to come -/

/-- The number after `n`. -/
def nextNumber (n : Nat) : Nat := (n + 1) % 2 ^ 64

/-- None of the next `k` numbers is `ino`. -/
def InodeMap.Avoids (m : InodeMap) (ino k : Nat) : Prop := ∀ i < k, nextNumber^[i] m.nextIno ≠ ino

instance (m : InodeMap) (ino k : Nat) : Decidable (m.Avoids ino k) :=
  inferInstanceAs (Decidable (∀ i < k, _))

theorem InodeMap.Avoids.ne {m : InodeMap} {ino k : Nat} (h : m.Avoids ino (k + 1)) : m.nextIno ≠ ino :=
  h 0 k.succ_pos

/-- A number may have been handed out. -/
theorem InodeMap.Avoids.getOrAlloc {m : InodeMap} {ino k : Nat} (h : m.Avoids ino (k + 1)) (slot : Nat) :
    (m.getOrAlloc slot).2.Avoids ino k := by
  unfold InodeMap.getOrAlloc
  split
  next => exact fun i hi => h i (Nat.lt_succ_of_lt hi)
  next => exact fun i hi => h (i + 1) (Nat.succ_lt_succ hi)

/-- An inode stays where it is when another slot gets another number. -/
theorem InodeMap.getOrAlloc_slotOf_of_ne {m : InodeMap} {ino t : Nat} (slot : Nat)
    (hne : m.nextIno ≠ ino) (hino : m.slotOf ino = some t) :
    (m.getOrAlloc slot).2.slotOf ino = some t := by
  unfold InodeMap.getOrAlloc
  split
  next => exact hino
  next => rwa [InodeMap.slotOf, HashMap.get_insert, if_neg (Ne.symm hne)]

omit [NodeStore σ] in
theorem inoOfSlot_run (slot : Nat) (s : VenomFuse σ) : (inoOfSlot slot).run s =
    .ok (s.inodes.getOrAlloc slot).1 { s with inodes := (s.inodes.getOrAlloc slot).2 } := rfl

/-- The inodes of several slots, one after the other. -/
def InodeMap.handOut (m : InodeMap) (slots : List Nat) : InodeMap :=
  slots.foldl (fun m slot => (m.getOrAlloc slot).2) m

theorem InodeMap.handOut_slotOf {m : InodeMap} {ino t : Nat} {slots : List Nat}
    (havoids : m.Avoids ino slots.length) (hino : m.slotOf ino = some t) :
    (m.handOut slots).slotOf ino = some t := by
  induction slots generalizing m with
  | nil => exact hino
  | cons slot slots ih =>
    exact ih (havoids.getOrAlloc slot) (getOrAlloc_slotOf_of_ne slot havoids.ne hino)

theorem InodeMap.Backed.handOut {m : InodeMap} (h : m.Backed) (slots : List Nat) :
    (m.handOut slots).Backed := by
  induction slots generalizing m with
  | nil => exact h
  | cons slot slots ih => exact ih (h.getOrAlloc slot).1

/-! ## Pairs -/

/-- Slots and inodes map to each other, one to one, and the next number is new.  So it is until the
    numbers wrap around. -/
structure InodeMap.Paired (m : InodeMap) : Prop where
  ok : m.Ok
  back : m.Backed

theorem InodeMap.Paired.new (root : Nat) : (InodeMap.new root).Paired := ⟨InodeMap.new_ok root, .new root⟩

theorem InodeMap.Paired.getOrAlloc {m : InodeMap} (h : m.Paired) (slot : Nat)
    (hroom : m.slotToIno.get slot = none → m.nextIno + 1 < 2 ^ 64) : (m.getOrAlloc slot).2.Paired := by
  refine ⟨?_, (h.back.getOrAlloc slot).1⟩
  unfold InodeMap.getOrAlloc
  split
  next => exact h.ok
  next hnone =>
    refine ⟨fun t ino ht => ?_, fun ino t ht => ?_⟩
    · simp only [HashMap.get_insert] at ht ⊢
      split at ht
      next hts => cases ht; rw [if_pos rfl, hts]
      next hts =>
        have hold := h.ok.mapped t ino ht
        have hlt := h.ok.fresh ino t hold
        rw [if_neg (Nat.ne_of_lt hlt), hold]
    · rw [Nat.mod_eq_of_lt (hroom hnone)]
      simp only [HashMap.get_insert] at ht
      split at ht
      next heq => rw [heq]; exact Nat.lt_succ_self _
      next => exact Nat.lt_succ_of_lt (h.ok.fresh ino t ht)

theorem InodeMap.Paired.removeSlot {m : InodeMap} (h : m.Paired) (slot : Nat) :
    (m.removeSlot slot).Paired := by
  refine ⟨?_, (h.back.removeSlot slot).1⟩
  unfold InodeMap.removeSlot
  split
  next ino hino =>
    have hmapped := h.ok.mapped slot ino hino
    refine ⟨fun t i ht => ?_, fun i t ht => ?_⟩
    · simp only [HashMap.get_remove] at ht ⊢
      split at ht
      next => cases ht
      next hts =>
        have hold := h.ok.mapped t i ht
        have hi : ¬ i = ino := fun heq => hts (by
          rw [heq, hmapped] at hold
          exact (Option.some.inj hold).symm)
        rw [if_neg hi, hold]
    · simp only [HashMap.get_remove] at ht
      split at ht
      next => cases ht
      next => exact h.ok.fresh i t ht
  next => exact h.ok

/-- An inode that is known stays where it is when another slot gets one. -/
theorem InodeMap.Ok.getOrAlloc_slotOf {m : InodeMap} (h : m.Ok) {ino t : Nat} (slot : Nat)
    (hino : m.slotOf ino = some t) : (m.getOrAlloc slot).2.slotOf ino = some t :=
  InodeMap.getOrAlloc_slotOf_of_ne slot (Nat.ne_of_gt (h.fresh ino t hino)) hino

/-- An inode leads to one slot, and no other inode leads there. -/
theorem InodeMap.Backed.inj {m : InodeMap} (h : m.Backed) {i j t : Nat} (hi : m.slotOf i = some t)
    (hj : m.slotOf j = some t) : i = j := by
  have hback := h i t hi
  rw [h j t hj] at hback
  exact (Option.some.inj hback).symm

/-- An inode is forgotten with its slot only. -/
theorem InodeMap.Paired.removeSlot_slotOf {m : InodeMap} (h : m.Paired) {slot ino t : Nat}
    (hino : m.slotOf ino = some t) :
    (m.removeSlot slot).slotOf ino = if t = slot then none else some t := by
  unfold InodeMap.removeSlot
  split
  next i hi =>
    rw [InodeMap.slotOf, HashMap.get_remove]
    by_cases hts : t = slot
    · have hsame : ino = i := h.back.inj hino (hts ▸ h.ok.mapped slot i hi)
      rw [if_pos hts, if_pos hsame]
    · have hne : ¬ ino = i := fun heq => hts (by
        rw [heq, InodeMap.slotOf, h.ok.mapped slot i hi] at hino
        exact (Option.some.inj hino).symm)
      rw [if_neg hts, if_neg hne]
      exact hino
  next hnone =>
    have hts : ¬ t = slot := fun heq => by
      have hback := h.back ino t hino
      rw [heq, hnone] at hback
      cases hback
    rw [if_neg hts, hino]

/-- How many numbers `handOut` takes. -/
def InodeMap.newNumbers : List Nat → InodeMap → Nat
  | [], _ => 0
  | slot :: slots, m =>
    (if m.slotToIno.get slot = none then 1 else 0) + newNumbers slots (m.getOrAlloc slot).2

/-- There is room for the rest after the first number. -/
theorem InodeMap.newNumbers_room {m : InodeMap} {slot : Nat} {slots : List Nat}
    (hroom : m.nextIno + m.newNumbers (slot :: slots) < 2 ^ 64) :
    (m.slotToIno.get slot = none → m.nextIno + 1 < 2 ^ 64) ∧
      (m.getOrAlloc slot).2.nextIno + (m.getOrAlloc slot).2.newNumbers slots < 2 ^ 64 := by
  rw [newNumbers] at hroom
  have hnext : (m.getOrAlloc slot).2.nextIno ≤
      m.nextIno + if m.slotToIno.get slot = none then 1 else 0 := by
    unfold InodeMap.getOrAlloc
    split
    next => exact Nat.le_add_right _ _
    next hnone =>
      rw [if_pos hnone]
      exact Nat.mod_le _ _
  refine ⟨fun hnone => ?_, by omega⟩
  rw [if_pos hnone] at hroom
  omega

theorem InodeMap.removeSlot_none {m : InodeMap} {ino : Nat} (slot : Nat) (hino : m.slotOf ino = none) :
    (m.removeSlot slot).slotOf ino = none := by
  cases h : (m.removeSlot slot).slotOf ino with
  | none => rfl
  | some t =>
    rw [removeSlot_slotOf h] at hino
    cases hino

/-- A slot that gets an inode and is forgotten again has used up a number. -/
theorem InodeMap.removeSlot_getOrAlloc {m : InodeMap} {slot : Nat} (hslot : m.slotToIno.get slot = none)
    (hnext : m.inoToSlot.get m.nextIno = none) :
    (m.getOrAlloc slot).2.removeSlot slot = { m with nextIno := nextNumber m.nextIno } := by
  have hnew : (m.getOrAlloc slot).2 =
      { slotToIno := m.slotToIno.insert slot m.nextIno
        inoToSlot := m.inoToSlot.insert m.nextIno slot
        nextIno := nextNumber m.nextIno } := by
    unfold InodeMap.getOrAlloc
    rw [hslot]
    rfl
  have hino : (m.slotToIno.insert slot m.nextIno).get slot = some m.nextIno := by
    rw [HashMap.get_insert, if_pos rfl]
  rw [hnew, InodeMap.removeSlot]
  simp only [hino]
  rw [HashMap.remove_insert_of_get_none hslot, HashMap.remove_insert_of_get_none hnext]

/-! ## What every call keeps -/

def Numbered (s : VenomFuse σ) : Prop := s.inodes.Backed

omit [NodeStore σ] in
theorem numbered_invariant : CallInvariant (Numbered (σ := σ)) where
  container hs _ := hs
  known hs slot := (InodeMap.Backed.getOrAlloc hs slot).1
  forgotten hs slot := (InodeMap.Backed.removeSlot hs slot).1
  updated hs _ _ := hs
  evicted hs _ := hs

theorem DriverCall.numbered (call : DriverCall) :
    Keeps Numbered (call.run (σ := σ)) fun _ => True := by
  -- a new handle has nothing to do with the inodes
  refine .of_after fun s hs => ?_
  rcases numbered_invariant.call (B := fun _ => False) (fun hs _ => .inl hs) call hs with h | ⟨_, _, h⟩
  · exact h
  · exact h.elim

theorem Reached.numbered [NodeView σ] {root : Nat} {s : VenomFuse σ} (h : Reached root s) :
    Numbered s := by
  induction h with
  | start | mount => exact InodeMap.Backed.new root
  | call call _ ih => exact call.numbered.after ih

end Venom.Fuse
