import Venom.Fuse.Reached
import Venom.Fuse.Session

/-! # What every call keeps

A property of the driver that no change of the nodes, of the inode map or of a handle that is
open can break is kept by every call.  Only a call that hands out a handle may end it.
-/

namespace Venom.Fuse

open Venom.Storage
open Venom.Library
open Venom.Library.StateError

variable {σ : Type}

/-- No computation on nodes or handles, and no change of the inode map, breaks `I`. -/
structure CallInvariant (I : VenomFuse σ → Prop) : Prop where
  container : ∀ {s}, I s → ∀ c, I { s with container := c }
  known : ∀ {s}, I s → ∀ slot, I { s with inodes := (s.inodes.getOrAlloc slot).2 }
  forgotten : ∀ {s}, I s → ∀ slot, I { s with inodes := s.inodes.removeSlot slot }
  updated : ∀ {s fh f}, I s → s.openFiles.get fh = some f → ∀ g,
    I { s with openFiles := s.openFiles.insert fh g }
  evicted : ∀ {s}, I s → ∀ p, I { s with openFiles := s.openFiles.retain p }

/-- The driver with a new handle. -/
def VenomFuse.registered (f : OpenFile) (s : VenomFuse σ) : VenomFuse σ :=
  { s with nextFh := max ((s.nextFh + 1) % 2 ^ 64) 1, openFiles := s.openFiles.insert s.nextFh f }

/-- A look-up changes nothing. -/
theorem keeps_slotOfIno {I : VenomFuse σ → Prop} (ino : Nat) : Keeps I (slotOfIno ino) fun _ => True := by
  refine Keeps.get.bind fun s _ => ?_
  split
  next => exact .pure trivial
  next => exact .throw _

variable {I : VenomFuse σ → Prop} (hI : CallInvariant I)

namespace CallInvariant

include hI

/-! ## Parts of calls -/

theorem liftStore {α : Type} (x : StoreM σ α) : Keeps I (liftStore x) fun _ => True where
  ok hs hrun := by
    obtain ⟨c, -, rfl⟩ := liftStore_ok.mp hrun
    exact ⟨hI.container hs c, trivial⟩
  error {s s' e} hs hrun := by
    change Fuse.liftStore x s = _ at hrun
    unfold Fuse.liftStore at hrun
    split at hrun
    next => cases hrun
    next => cases hrun; exact hI.container hs _

theorem inoOfSlot (slot : Nat) : Keeps I (inoOfSlot (σ := σ) slot) fun _ => True :=
  Keeps.get.bind fun _ hs => (Keeps.set (hI.known hs slot)).bind fun _ _ => .pure trivial

theorem forgetSlot (slot : Nat) : Keeps I (forgetSlot (σ := σ) slot) fun _ => True :=
  .modify fun _ hs => hI.forgotten hs slot

variable [NodeStore σ]

theorem readDirBlock (slot : Nat) : Keeps I (readDirBlock (σ := σ) slot) fun _ => True := by
  refine (hI.liftStore _).bind fun n _ => ?_
  cases n with
  | directory d => exact .pure trivial
  | file | fileData | fileIndex => exact .throw _

theorem dirRemoveEntry (slot : Nat) (name : String) :
    Keeps I (dirRemoveEntry (σ := σ) slot name) fun _ => True := by
  refine (hI.readDirBlock slot).bind fun d _ => ?_
  split
  next => exact .throw _
  next => exact (hI.liftStore _).bind fun _ _ => .pure trivial

theorem linkOrFree (parent slot : Nat) (entry : DirEntry) :
    Keeps I (linkOrFree (σ := σ) parent slot entry) fun _ => True := by
  have hadd : Keeps I (dirAddEntry (σ := σ) parent entry) fun _ => True :=
    (hI.readDirBlock parent).bind fun d _ => .ite (fun _ => .throw _) fun _ => hI.liftStore _
  refine ⟨fun {s s' u} hs hrun => ?_, fun {s s' e} hs hrun => ?_⟩
  all_goals
    change Fuse.linkOrFree parent slot entry s = _ at hrun
    unfold Fuse.linkOrFree at hrun
    split at hrun
  next hlink =>
    cases hrun
    exact hadd.ok hs hlink
  next => cases hrun
  next => cases hrun
  next hfail =>
    -- the slot of the node is given back
    cases hrun
    exact hI.container (hadd.error hs hfail) _

omit [NodeStore σ] in
theorem withHandle {α : Type} {s : VenomFuse σ} {fh : Nat} {f : OpenFile} (hs : I s)
    (hf : s.openFiles.get fh = some f) (x : HandleM σ α) : I (after (withHandle fh f x) s) := by
  rw [withHandle_after]
  exact hI.container (hI.updated hs hf _) _

omit [NodeStore σ] in
/-- A computation on the handle `fh`, which need not be open. -/
theorem onHandle {α : Type} (fh : Nat) {x : HandleM σ α} {other : FuseM σ α}
    (hother : Keeps I other fun _ => True) :
    Keeps I (do
      let s ← get
      match s.openFiles.get fh with
      | none => other
      | some f => Fuse.withHandle fh f x) fun _ => True := by
  refine .of_after fun s hs => ?_
  rw [after_bind_of_ok run_get]
  cases hf : s.openFiles.get fh with
  | none => exact hother.after hs
  | some f => exact hI.withHandle hs hf x

/-! ## Calls -/

theorem opLookup (parent : Nat) (name : String) :
    Keeps I (opLookup (σ := σ) parent name) fun _ => True := by
  refine (keeps_slotOfIno parent).bind fun _ _ => (hI.readDirBlock _).bind fun d _ => ?_
  split
  next => exact .throw _
  next => exact (hI.liftStore _).bind fun _ _ => (hI.inoOfSlot _).bind fun _ _ => .pure trivial

theorem opMkdir (parent : Nat) (name : String) :
    Keeps I (opMkdir (σ := σ) parent name) fun _ => True :=
  (keeps_slotOfIno parent).bind fun _ _ => (hI.liftStore _).bind fun _ _ =>
    (hI.linkOrFree _ _ _).bind fun _ _ => (hI.inoOfSlot _).bind fun _ _ => .pure trivial

theorem opRmdir (parent : Nat) (name : String) :
    Keeps I (opRmdir (σ := σ) parent name) fun _ => True := by
  refine (keeps_slotOfIno parent).bind fun _ _ => (hI.readDirBlock _).bind fun d _ => ?_
  split
  next => exact .throw _
  next =>
    refine (hI.readDirBlock _).bind fun _ _ => .ite (fun _ => .throw _) fun _ => ?_
    exact (hI.dirRemoveEntry _ _).bind fun _ _ => (hI.liftStore _).bind fun _ _ => hI.forgetSlot _

theorem opUnlink (parent : Nat) (name : String) :
    Keeps I (opUnlink (σ := σ) parent name) fun _ => True := by
  refine (keeps_slotOfIno parent).bind fun _ _ => (hI.dirRemoveEntry _ _).bind fun removed _ => ?_
  have hhead : Keeps I (do Fuse.liftStore (freeNode (σ := σ) removed); Fuse.forgetSlot removed)
      fun _ => True := (hI.liftStore _).bind fun _ _ => hI.forgetSlot _
  -- the handles on the file go first
  refine (Keeps.modify fun _ hs => hI.evicted hs _).bind fun _ _ => Keeps.get.bind fun s _ => ?_
  split
  next => exact (hI.liftStore _).bind fun _ _ => (hI.liftStore _).bind fun _ _ => hhead
  next => exact hhead

theorem opRename (parent : Nat) (name : String) (newparent : Nat) (newname : String) :
    Keeps I (opRename (σ := σ) parent name newparent newname) fun _ => True := by
  refine (keeps_slotOfIno parent).bind fun _ _ => (keeps_slotOfIno newparent).bind fun _ _ =>
    (hI.dirRemoveEntry _ _).bind fun _ _ => (hI.liftStore _).bind fun _ _ =>
    (hI.readDirBlock _).bind fun dest _ => ?_
  refine Keeps.bind (Q := fun _ => True) ?_ fun _ _ => hI.liftStore _
  unfold replaceEntry
  split
  next => exact .pure trivial
  next => exact (hI.liftStore _).bind fun _ _ => (hI.forgetSlot _).bind fun _ _ => .pure trivial

theorem opSetattrSize (ord : IterOrder Nat) (ino : Nat) (hint : Option Nat) (newSize : Nat) :
    Keeps I (opSetattrSize (σ := σ) ord ino hint newSize) fun _ => True := by
  refine .of_after fun s hs => ?_
  unfold Fuse.opSetattrSize
  rw [after_bind_of_ok run_get]
  cases findHandle ord ino hint s.openFiles with
  | some fh =>
    cases hf : s.openFiles.get fh with
    | none =>
      dsimp only
      rw [hf]
      exact hs
    | some f =>
      dsimp only
      rw [hf]
      exact hI.withHandle hs hf _
  | none =>
    exact ((keeps_slotOfIno ino).bind fun _ _ => hI.liftStore _).after hs

end CallInvariant

/-! ## Handles handed out -/

theorem newHandle_unless {B : Nat → Prop} (hnew : ∀ {s}, I s → ∀ f, I (s.registered f) ∨ B s.nextFh)
    (f : Nat → OpenFile) :
    KeepsUnless I (do let fh ← allocFh (σ := σ); insertHandle fh (f fh); pure fh) B where
  ok {s _ _} hs hrun := by
    cases hrun
    exact hnew hs (f s.nextFh)
  error _ hrun := by cases hrun

variable [NodeStore σ]

/-- The handle a call hands out. -/
def DriverCall.handsOut (s : VenomFuse σ) : DriverCall → Option Nat
  | .create parent name => (valueOf (opCreate parent name) s).map (·.2)
  | .openFile ino => valueOf (opOpen ino) s
  | _ => none

namespace CallInvariant

section Handles

variable {B : Nat → Prop} (hnew : ∀ {s}, I s → ∀ f, I (s.registered f) ∨ B s.nextFh)

include hI hnew

theorem opOpen (ino : Nat) : KeepsUnless I (opOpen (σ := σ) ino) B := by
  refine .bind (keeps_slotOfIno ino) fun head _ => .bind (hI.liftStore _) fun r _ =>
    .bind (hI.liftStore _) fun n _ => ?_
  cases n with
  | file fb => exact newHandle_unless hnew fun _ => openedFile ino head r.1 r.2.1 r.2.2 fb.data
  | directory | fileData | fileIndex => exact .of_keeps (Keeps.throw (Q := fun _ => True) _)

theorem opCreate (parent : Nat) (name : String) :
    KeepsUnless I (opCreate (σ := σ) parent name) fun r => B r.2 := by
  refine .bind (keeps_slotOfIno parent) fun _ _ => .bind (hI.liftStore _) fun head _ =>
    .bind (hI.linkOrFree _ _ _) fun _ _ => .bind (hI.inoOfSlot _) fun ino _ => ?_
  refine ⟨fun {s s' r} hs hrun => ?_, fun _ hrun => by cases hrun⟩
  cases hrun
  exact hnew hs (newFile ino head)

/-- A call keeps the property unless it hands out a handle that ends it. -/
theorem call (call : DriverCall) {s : VenomFuse σ} (hs : I s) :
    I (after call.run s) ∨ ∃ fh, call.handsOut s = some fh ∧ B fh := by
  cases call with
  | lookup parent name => exact .inl ((discard_keeps (hI.opLookup _ _)).after hs)
  | mkdir parent name => exact .inl ((discard_keeps (hI.opMkdir _ _)).after hs)
  | rmdir parent name => exact .inl ((hI.opRmdir _ _).after hs)
  | unlink parent name => exact .inl ((hI.opUnlink _ _).after hs)
  | rename parent name newparent newname => exact .inl ((hI.opRename _ _ _ _).after hs)
  | flush ord fh => exact .inl ((hI.onHandle fh (.pure trivial)).after hs)
  | release ord fh =>
    exact .inl (((hI.onHandle fh (.pure trivial)).bind fun _ _ =>
      .modify fun _ hs => hI.evicted hs _).after hs)
  | read ord fh offset size =>
    exact .inl ((discard_keeps (hI.onHandle fh (.throw _))).after hs)
  | write ord fh offset data =>
    exact .inl ((discard_keeps (hI.onHandle fh (.ite (fun _ => .pure trivial) fun _ => .throw _))).after hs)
  | setattrSize ord ino hint newSize => exact .inl ((hI.opSetattrSize _ _ _ _).after hs)
  | openFile ino =>
    rw [DriverCall.run, after_discard]
    exact (hI.opOpen hnew ino).after hs
  | create parent name =>
    rw [DriverCall.run, after_discard]
    refine ((hI.opCreate hnew parent name).after hs).imp_right fun ⟨r, hr, hb⟩ => ⟨r.2, ?_, hb⟩
    rw [DriverCall.handsOut, hr]
    rfl

end Handles

end CallInvariant

end Venom.Fuse
