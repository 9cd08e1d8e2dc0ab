import Venom.Fuse.CallInvariants
import Venom.Fuse.FailedCalls
import Venom.Fuse.FlatFile
import Venom.Fuse.FlushRoom

/-! # Released handles

A release takes its handle out of the map when the flush succeeds.  After one that fails the
handle stays, with everything it has in its cache: it is flushed again when the driver is
dropped, over whatever has become of the file.  As long as each release finds what its flush
needs, a handle that was released is gone, and nothing happens on its behalf any more.
-/

namespace Venom.Fuse

open Venom.Storage
open Venom.Library
open Venom.Library.StateError

variable {σ : Type}

/-! ## Handles that are gone -/

/-- The driver without the open file `fh`. -/
def VenomFuse.without (fh : Nat) (s : VenomFuse σ) : VenomFuse σ :=
  { s with openFiles := s.openFiles.remove fh }

theorem VenomFuse.without_gone {fh : Nat} {s : VenomFuse σ} (h : s.openFiles.get fh = none) :
    s.without fh = s := by
  rw [without, HashMap.remove_of_get_none h]

/-- A handle that is gone stays so until it is handed out again. -/
theorem gone_invariant (fh : Nat) :
    CallInvariant fun s : VenomFuse σ => s.openFiles.get fh = none where
  container hs _ := hs
  known hs _ := hs
  forgotten hs _ := hs
  updated {s fh' f} hs hf g := by
    have hne : fh ≠ fh' := fun heq => by rw [heq, hf] at hs; cases hs
    rwa [HashMap.get_insert, if_neg hne]
  evicted hs p := by rw [HashMap.get_retain, hs]; rfl

variable [NodeStore σ]

theorem DriverCall.gone (call : DriverCall) {fh : Nat} {s : VenomFuse σ}
    (hs : s.openFiles.get fh = none) (hout : call.handsOut s ≠ some fh) :
    (after call.run s).openFiles.get fh = none := by
  -- a new handle is another one
  have hnew : ∀ {t : VenomFuse σ}, t.openFiles.get fh = none → ∀ f,
      (t.registered f).openFiles.get fh = none ∨ t.nextFh = fh := fun {t} ht f => by
    rw [VenomFuse.registered, HashMap.get_insert]
    split
    next heq => exact .inr heq.symm
    next => exact .inl ht
  rcases (gone_invariant fh).call (B := fun k => k = fh) hnew call hs with h | ⟨k, hk, rfl⟩
  · exact h
  · exact absurd hk hout

/-! ## Dropping the driver -/

theorem tryFlush_run (ord : IterOrder Nat) (fh : Nat) (s : VenomFuse σ) :
    (tryFlush ord fh).run s = .ok () (after (opFlush ord fh) s) := by
  change tryFlush ord fh s = _
  unfold tryFlush
  cases hflush : (opFlush ord fh).run s with
  | ok u t => rw [after_of_ok hflush]
  | error e t => rw [after_of_error hflush]

/-- No handle has anything to write. -/
structure AtRest (c : σ) (m : InodeMap) (s : VenomFuse σ) : Prop where
  container : s.container = c
  inodes : s.inodes = m
  idle : ∀ fh f, s.openFiles.get fh = some f → Idle f

theorem opFlush_atRest {c : σ} {m : InodeMap} {s : VenomFuse σ} (hs : AtRest c m s) (ord : IterOrder Nat)
    (fh : Nat) : AtRest c m (after (opFlush ord fh) s) := by
  unfold opFlush
  rw [after_bind_of_ok run_get]
  cases hf : s.openFiles.get fh with
  | none => exact hs
  | some f =>
    have hidle := hs.idle fh f hf
    dsimp only
    rw [withHandle_after, after_of_ok (flushHandle_idle hidle)]
    refine ⟨hs.container, hs.inodes, fun k g hg => ?_⟩
    rw [HashMap.get_insert] at hg
    split at hg
    next => cases hg; exact hidle
    next => exact hs.idle k g hg

/-- Then the drop saves the container as it is. -/
theorem flushAll_atRest {s : VenomFuse σ} (h : ∀ fh f, s.openFiles.get fh = some f → Idle f)
    (ord : IterOrder Nat) (dirtyOrd : Nat → IterOrder Nat) (save : σ → σ) :
    (after (flushAll ord dirtyOrd save) s).container = save s.container ∧
      (after (flushAll ord dirtyOrd save) s).inodes = s.inodes := by
  obtain ⟨s₁, hloop, hs₁⟩ := forM_total (fun _ t => AtRest s.container s.inodes t)
    (f := fun fh => tryFlush (dirtyOrd fh) fh) (l := ord.order s.openFiles.keys) ⟨rfl, rfl, h⟩
    fun _ fh _ t _ ht => ⟨_, tryFlush_run _ _ _, opFlush_atRest ht _ fh⟩
  unfold flushAll
  rw [after_bind_of_ok run_get, after_bind_of_ok hloop]
  exact ⟨congrArg save hs₁.container, hs₁.inodes⟩

/-! ## Runs with releases -/

/-- The handle a call names. -/
def DriverCall.names : DriverCall → Option Nat
  | .flush _ fh => some fh
  | .release _ fh => some fh
  | .read _ fh _ _ => some fh
  | .write _ fh _ _ => some fh
  | .setattrSize _ _ fhHint _ => fhHint
  | _ => none

/-- The handle a call releases. -/
def DriverCall.releases : DriverCall → Option Nat
  | .release _ fh => some fh
  | _ => none

/-- The handles released and not handed out again, after one more call. -/
def DriverCall.releasedAfter (s : VenomFuse σ) (released : List Nat) (call : DriverCall) : List Nat :=
  (call.releases.toList ++ released).filter fun fh => call.handsOut s ≠ some fh

variable [NodeView σ]

/-- A release finds what its flush needs. -/
def DriverCall.Finds (s : VenomFuse σ) : DriverCall → Prop
  | .release ord fh => ∀ f, s.openFiles.get fh = some f → Idle f ∨ FlushFinds ord s.container f
  | _ => True

/-- A run from any state of the driver, with the handles released in it.  In a careful run every
    release finds what it needs. -/
inductive ReleaseRun (careful : Prop) (root : Nat) : VenomFuse σ → List Nat → Prop
  | start {s : VenomFuse σ} : Reached root s → ReleaseRun careful root s []
  | call {s : VenomFuse σ} {released : List Nat} (call : DriverCall) :
      ReleaseRun careful root s released → (careful → call.Finds s) →
      ReleaseRun careful root (after call.run s) (call.releasedAfter s released)

/-- Nothing happens on behalf of the released handles. -/
structure Quiet (s : VenomFuse σ) (released : List Nat) : Prop where
  /-- A call that does not name the handle does to the container what it does without it. -/
  call : ∀ fh ∈ released, ∀ call : DriverCall, call.names ≠ some fh →
    (after call.run s).container = (after call.run (s.without fh)).container
  /-- So does the drop. -/
  drop : ∀ fh ∈ released, ∀ ord dirtyOrd save, (after (flushAll ord dirtyOrd save) s).container =
    (after (flushAll ord dirtyOrd save) (s.without fh)).container
  /-- It leaves the nodes as they are when no handle but the released ones has anything to write. -/
  left : (∀ fh f, s.openFiles.get fh = some f → fh ∉ released → Idle f) →
    ∀ ord dirtyOrd save, (∀ c, SameNodes c (save c)) →
      SameNodes s.container (after (flushAll ord dirtyOrd save) s).container
  /-- The bytes of a handle that is released now are the ones left after it. -/
  rewritten : ∀ fh f fb ids chain bytes ord s', Open (Flat bytes) s fh f fb ids chain →
    f.totalSize = bytes.length → (opRelease ord fh).run s = .ok () s' →
    (∀ k g, s'.openFiles.get k = some g → k ∉ released → Idle g) →
    ∀ mapOrd dirtyOrd save, (∀ c, SameNodes c (save c)) → ∃ fb' ids' chain',
      Closed (Flat bytes) (after (flushAll mapOrd dirtyOrd save) s') f.ino f.headSlot fb' ids' chain' ∧
        fb'.totalSize = bytes.length

section Careful

variable [WipingNodeStore σ] [FreeingNodeStore σ] [FiniteNodeStore σ] {root : Nat} {s : VenomFuse σ}
  {released : List Nat}

/-- A release that finds what it needs takes the handle away. -/
theorem opRelease_gone {ord : IterOrder Nat} {fh : Nat} (hs : DriverWithin (IsDataSlot s.container) s)
    (hfinds : (DriverCall.release ord fh).Finds s) :
    (after (opRelease ord fh) s).openFiles.get fh = none := by
  obtain ⟨s₁, hflush⟩ : ∃ s₁, (opFlush ord fh).run s = .ok () s₁ := by
    cases hf : s.openFiles.get fh with
    | none =>
      refine ⟨s, ?_⟩
      unfold opFlush
      rw [run_bind_of_ok run_get, hf]
      rfl
    | some f =>
      obtain ⟨h', hrun⟩ := flushHandle_finds ⟨hs.container, hs.handles fh f hf⟩ (hfinds f hf)
      exact ⟨_, (opFlush_run hf ord).trans (withHandle_ok.mpr ⟨h', hrun, rfl⟩)⟩
  unfold opRelease
  rw [after_bind_of_ok hflush]
  change (s₁.openFiles.remove fh).get fh = none
  rw [HashMap.get_remove, if_pos rfl]

omit [WipingNodeStore σ] [FreeingNodeStore σ] [FiniteNodeStore σ] in
theorem ReleaseRun.reached {careful : Prop} (h : ReleaseRun careful root s released) :
    Reached root s := by
  induction h with
  | start hs => exact hs
  | call call _ _ ih => exact .call call ih

/-- In a careful run the released handles are gone. -/
theorem ReleaseRun.gone (h : ReleaseRun True root s released) :
    ∀ fh ∈ released, s.openFiles.get fh = none := by
  induction h with
  | start => exact fun fh hfh => absurd hfh List.not_mem_nil
  | @call s released call hrun hfinds ih =>
    intro fh hfh
    obtain ⟨hmem, hout⟩ := List.mem_filter.mp hfh
    rcases List.mem_append.mp hmem with hrel | hbefore
    · cases call with
      | release ord k =>
        -- the handle of this call
        obtain rfl : fh = k := by simpa [DriverCall.releases] using hrel
        exact opRelease_gone hrun.reached.within.1 (hfinds trivial)
      | lookup | mkdir | rmdir | create | unlink | rename | openFile | flush | read | write | setattrSize =>
        cases hrel
    · exact call.gone (ih fh hbefore) (of_decide_eq_true hout)

end Careful

/-! ## A release that succeeds -/

/-- What a handle needs whose file has no index chain and gets none: that its chunks fit, that there
    are slots for the new ones, and that its head fits. -/
theorem flushFinds_direct {ord : IterOrder Nat} {c : σ} {f : OpenFile} {data : List UInt8}
    (hchunks : ∀ ci ∈ toStore ord f, ∀ d ∈ f.cache.get ci, Fits (NodeStore.cipher c) (dataNode d))
    (hroom : (newChunks f (toStore ord f)).length ≤ (free c).length) (hchain : f.indexChain = none)
    (hdirect : (headIds ord c f).length ≤ maxDirectSlots) (hkept : f.headSlot ∉ lostSlots ord c f)
    (hdata : headData f (nodes c f.headSlot) = some data)
    (hfits : Fits (NodeStore.cipher c)
      (headNode f.totalSize ((headIds ord c f).take maxDirectSlots) none data)) :
    FlushFinds ord c f := by
  have hpieces : indexPieces (headIds ord c f) = [] := if_pos hdirect
  refine ⟨fun ci hci d hd _ => hchunks ci hci d hd, hroom, fun _ => ⟨data, [], none, ?_, ?_, ?_, hfits⟩⟩
  · rw [if_neg hkept]
    exact hdata
  · rw [hchain]
    exact .done
  · rw [hpieces]
    exact .done

/-- The new file with a byte in each of two chunks, both in its handle. -/
def withTwoChunks : VenomFuse Volume :=
  after (DriverCall.write .listed 1 chunkSize [9]).run (after (DriverCall.write .listed 1 0 [1]).run withNotes)

/-- Two files on a volume of three slots, with a chunk in the cache that finds no slot. -/
def fullVolume : VenomFuse Volume :=
  let s := VenomFuse.new 0 (Volume.fresh .xchacha20Poly1305 3)
  let s := after (DriverCall.create 1 "first").run s
  let s := after (DriverCall.create 1 "second").run s
  let s := after (DriverCall.write .listed 1 chunkSize [7, 7]).run s
  after (DriverCall.setattrSize .listed 2 (some 1) (chunkSize + 1)).run s

theorem fullVolume_reached : Reached 0 fullVolume :=
  .call _ (.call _ (.call _ (.call _ (.fresh _ (by decide)))))

/-- The first file is closed in vain and the second one removed. -/
def closedInVain : VenomFuse Volume :=
  after (DriverCall.unlink 1 "second").run (after (DriverCall.release .listed 1).run fullVolume)

/-- The first one is opened again, rewritten with one byte and closed. -/
def rewrittenFirst : VenomFuse Volume :=
  let s := after (DriverCall.openFile 2).run closedInVain
  let s := after (DriverCall.write .listed 3 0 [1]).run s
  after (DriverCall.release .listed 3).run s

omit [NodeView σ] in
/-- Of a handle that another call hands out only, nothing changes. -/
theorem DriverCall.mem_releasedAfter {s : VenomFuse σ} {released : List Nat} {fh : Nat} (call : DriverCall)
    (h : fh ∈ released) (hout : call.handsOut s ≠ some fh) : fh ∈ call.releasedAfter s released :=
  List.mem_filter.mpr ⟨List.mem_append_right _ h, decide_eq_true hout⟩

theorem rewrittenFirst_run : ∃ released, ReleaseRun False 0 rewrittenFirst released ∧ 1 ∈ released := by
  refine ⟨_, .call (.release .listed 3) (.call (.write .listed 3 0 [1]) (.call (.openFile 2)
    (.call (.unlink 1 "second") (.call (.release .listed 1) (.start fullVolume_reached)
    False.elim) False.elim) False.elim) False.elim) False.elim, ?_⟩
  have hopened : (DriverCall.openFile 2).handsOut closedInVain ≠ some 1 := by decide +kernel
  refine DriverCall.mem_releasedAfter _ (DriverCall.mem_releasedAfter _ (DriverCall.mem_releasedAfter _
    (DriverCall.mem_releasedAfter _ ?_ fun heq => by cases heq) hopened) fun heq => by cases heq)
    fun heq => by cases heq
  exact List.mem_filter.mpr ⟨List.mem_cons_self, by decide⟩

end Venom.Fuse
