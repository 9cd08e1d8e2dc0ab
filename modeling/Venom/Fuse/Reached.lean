import Venom.Fuse.InVolume

/-! # The states of the driver

A driver starts on a formatted volume and takes calls in any order, with any arguments;
a call may fail and keeps what it did before.  It may be dropped and the container mounted
again, with whatever free list was saved.  `Reached` are the states of all such runs.
-/

namespace Venom.Fuse

open Venom.Storage
open Venom.Library
open Venom.Library.StateError

variable {σ : Type} [NodeStore σ] [NodeView σ]

/-- A new volume: an empty directory in the root slot, every other slot free. -/
structure Formatted (c : σ) (root : Nat) : Prop where
  dataSlot : IsDataSlot c root
  rootNode : nodes c root = some emptyDir
  mem_free : ∀ s, s ∈ free c ↔ IsDataSlot c s ∧ s ≠ root
  nodup : (free c).Nodup

/-- What the kernel may ask for. -/
inductive DriverCall
  | lookup (parent : Nat) (name : String)
  | mkdir (parent : Nat) (name : String)
  | rmdir (parent : Nat) (name : String)
  | create (parent : Nat) (name : String)
  | unlink (parent : Nat) (name : String)
  | rename (parent : Nat) (name : String) (newparent : Nat) (newname : String)
  | openFile (ino : Nat)
  | flush (ord : IterOrder Nat) (fh : Nat)
  | release (ord : IterOrder Nat) (fh : Nat)
  | read (ord : IterOrder Nat) (fh offset size : Nat)
  | write (ord : IterOrder Nat) (fh offset : Nat) (data : List UInt8)
  | setattrSize (ord : IterOrder Nat) (ino : Nat) (fhHint : Option Nat) (newSize : Nat)

def DriverCall.run : DriverCall → FuseM σ Unit
  | .lookup parent name => discard (opLookup parent name)
  | .mkdir parent name => discard (opMkdir parent name)
  | .rmdir parent name => opRmdir parent name
  | .create parent name => discard (opCreate parent name)
  | .unlink parent name => opUnlink parent name
  | .rename parent name newparent newname => opRename parent name newparent newname
  | .openFile ino => discard (opOpen ino)
  | .flush ord fh => opFlush ord fh
  | .release ord fh => opRelease ord fh
  | .read ord fh offset size => discard (opRead ord fh offset size)
  | .write ord fh offset data => discard (opWrite ord fh offset data)
  | .setattrSize ord ino fhHint newSize => opSetattrSize ord ino fhHint newSize

/-- The states reached from a formatted volume with the root directory in `root`. -/
inductive Reached (root : Nat) : VenomFuse σ → Prop
  | start {c : σ} : Formatted c root → (∀ s, IsDataSlot c s → s ≠ root → nodes c s = none) →
      Reached root (VenomFuse.new root c)
  | call {s : VenomFuse σ} (call : DriverCall) : Reached root s →
      Reached root (after call.run s)
  | mount {s : VenomFuse σ} {c : σ} : Reached root s → SameVolume s.container c →
      NodesAgree s.container c → (∀ t ∈ free c, IsDataSlot c t) →
      Reached root (VenomFuse.new root c)

omit [NodeStore σ] [NodeView σ] in
theorem discard_keeps {α : Type} {I : VenomFuse σ → Prop} {x : FuseM σ α} {Q : α → Prop}
    (hx : Keeps I x Q) : Keeps I (discard x) fun _ => True := hx.bind fun _ _ => .pure trivial

variable [WipingNodeStore σ] {D : Nat → Prop}

/-- No call leaves the volume. -/
theorem DriverCall.keeps (call : DriverCall) :
    Keeps (DriverWithin D) (call.run (σ := σ)) fun _ => True := by
  cases call with
  | lookup parent name => exact discard_keeps (opLookup_keeps _ _)
  | mkdir parent name => exact discard_keeps (opMkdir_keeps _ _)
  | rmdir parent name => exact opRmdir_keeps _ _
  | create parent name => exact discard_keeps (opCreate_keeps _ _)
  | unlink parent name => exact opUnlink_keeps _ _
  | rename parent name newparent newname => exact opRename_keeps _ _ _ _
  | openFile ino => exact discard_keeps (opOpen_keeps _)
  | flush ord fh => exact opFlush_keeps _
  | release ord fh => exact opRelease_keeps _
  | read ord fh offset size => exact discard_keeps (opRead_keeps _ _ _)
  | write ord fh offset data => exact discard_keeps (opWrite_keeps _ _ _)
  | setattrSize ord ino hint newSize => exact opSetattrSize_keeps _ _ _

omit [NodeStore σ] [WipingNodeStore σ] in
theorem DriverWithin.mounted {c : σ} {root : Nat} (hc : StoreWithin D c) (hroot : D root) :
    DriverWithin D (VenomFuse.new root c) := by
  refine ⟨hc, fun ino slot h => ?_, fun fh f h => ?_⟩
  · simp only [VenomFuse.new, InodeMap.new, InodeMap.slotOf, HashMap.get_insert,
      HashMap.get_empty] at h
    split at h
    · cases h; exact hroot
    · cases h
  · cases h

/-- In every reached state the driver knows data slots only, and no piece of bytes is longer than a
    chunk. -/
theorem Reached.within {root : Nat} {s : VenomFuse σ} (h : Reached root s) :
    DriverWithin (IsDataSlot s.container) s ∧ IsDataSlot s.container root := by
  -- the set of data slots is the same along the run
  obtain ⟨D, hD, hroot⟩ : ∃ D : Nat → Prop, DriverWithin D s ∧ D root := by
    induction h with
    | @start c hc hblank =>
      refine ⟨IsDataSlot c, .mounted ⟨rfl, fun s hs => ((hc.mem_free s).mp hs).1, ?_⟩ hc.dataSlot, hc.dataSlot⟩
      intro s n hs hn
      by_cases hroot : s = root
      · rw [hroot, hc.rootNode] at hn
        cases hn
        exact ⟨nofun, Nat.zero_le _⟩
      · rw [hblank s hs hroot] at hn
        cases hn
    | call call _ ih =>
      obtain ⟨D, hD, hroot⟩ := ih
      exact ⟨D, call.keeps.after hD, hroot⟩
    | mount _ hsame hagree hfree ih =>
      obtain ⟨D, hD, hroot⟩ := ih
      refine ⟨D, .mounted (hD.container.agree hsame (fun t ht => ?_) hagree) hroot, hroot⟩
      rw [← hD.container.dataSlot, ← hsame.isDataSlot]
      exact hfree t ht
  rw [hD.container.dataSlot]
  exact ⟨hD, hroot⟩

/-! ## A new table -/

theorem Volume.fresh_formatted (cipher : Container.CipherAlgorithm) {slotCount : Nat}
    (h : 0 < slotCount) : Formatted (Volume.fresh cipher slotCount) 0 where
  dataSlot := h
  rootNode := rfl
  mem_free s := by
    simp only [Volume.isDataSlot_iff]
    change s ∈ (List.range' 1 (slotCount - 1)).reverse ↔ s < slotCount ∧ s ≠ 0
    rw [List.mem_reverse, List.mem_range'_1]
    omega
  nodup := (Volume.fresh_freeOk cipher slotCount).nodup

theorem Reached.fresh (cipher : Container.CipherAlgorithm) {slotCount : Nat} (h : 0 < slotCount) :
    Reached 0 (VenomFuse.new 0 (Volume.fresh cipher slotCount)) :=
  .start (Volume.fresh_formatted cipher h) fun _ _ hne => if_neg hne

/-- A volume of eight slots with one new file, `notes`. -/
def withNotes : VenomFuse Volume := after (DriverCall.create 1 "notes").run mounted

theorem withNotes_reached : Reached 0 withNotes := .call _ (.fresh _ (by decide))

theorem withNotes_root : withNotes.inodes.slotOf 1 = some 0 := by decide +kernel

theorem withNotes_dir : nodes withNotes.container 0 =
    some (.directory { kind := .directory, entries := [⟨"notes", 1, .file⟩] }) := by decide +kernel

end Venom.Fuse
