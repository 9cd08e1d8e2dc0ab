import Venom.Fuse.Session

/-! # A file is a byte array

`FileOp.apply` is the meaning of a file operation on a plain byte array.  A file used
through one handle at a time and written without gaps refines it: in every reachable state
the handle's size and every read are those of the array, and an operation touches no slot
that is neither free nor the file's own.
-/

namespace Venom.Fuse

open Venom.Storage
open Venom.Library
open Venom.Library.Chunks
open Venom.Library.StateError
open Venom.Library.OptionLists

/-! ## The byte array -/

inductive FileOp
  | write (offset : Nat) (data : List UInt8)
  | read (offset size : Nat)
  | truncate (newSize : Nat)
  | flush
  | reopen

/-- The operations that leave no gap in a file of the given size. -/
def FileOp.GapFree (size : Nat) : FileOp → Prop
  | .write offset _ => offset ≤ size
  | .truncate newSize => newSize ≤ size
  | _ => True

/-- What an operation makes of the bytes. -/
def FileOp.apply (bytes : List UInt8) : FileOp → List UInt8
  | .write offset data => patch 0 bytes offset data
  | .truncate newSize => bytes.take newSize
  | _ => bytes

/-- The bytes a file of content `bytes` shows. -/
def Flat (bytes : List UInt8) : Content := fun p b => p < bytes.length → b = bytes[p]?

theorem getElem?_patch {xs piece : List UInt8} {off : Nat} (h : off ≤ xs.length) (i : Nat) :
    (patch 0 xs off piece)[i]? =
      if off ≤ i ∧ i < off + piece.length then piece[i - off]? else xs[i]? := by
  split
  next hin => exact getElem?_patch_inside _ _ _ _ hin.1 hin.2
  next hout =>
    rw [getElem?_patch_outside _ _ _ _ (by omega)]
    split
    next => rfl
    next hge => rw [if_neg (by omega), List.getElem?_eq_none (by omega)]

/-- A write without a gap, piece by piece. -/
theorem flat_overwrites {bytes data : List UInt8} {offset : Nat} (hgap : offset ≤ bytes.length)
    (q k : Nat) (hq : offset ≤ q) (hk : q + k ≤ offset + data.length) :
    Overwrites (Flat (patch 0 bytes offset (data.take (q - offset))))
      (Flat (patch 0 bytes offset (data.take (q + k - offset)))) q
      ((data.drop (q - offset)).take k) := by
  have hlen : ((data.drop (q - offset)).take k).length = k := by
    rw [List.length_take, List.length_drop]; omega
  have hlen₁ : (data.take (q - offset)).length = q - offset := by rw [List.length_take]; omega
  have hlen₂ : (data.take (q + k - offset)).length = q + k - offset := by
    rw [List.length_take]; omega
  refine ⟨fun i hi _ => ?_, fun p b hp ha hlt => ?_, fun p hp ha hlt => ?_⟩
  · rw [hlen] at hi
    rw [getElem?_patch hgap, hlen₂, if_pos (by omega), List.getElem?_take_of_lt hi,
      List.getElem?_drop,
      List.getElem?_take_of_lt (show q + i - offset < q + k - offset by omega)]
    congr 1; omega
  · rw [hlen] at hp
    rw [length_patch, hlen₂] at hlt
    have := ha (by rw [length_patch, hlen₁]; omega)
    rw [this, getElem?_patch hgap, getElem?_patch hgap, hlen₁, hlen₂]
    by_cases hin : offset ≤ p ∧ p < offset + (q - offset)
    · rw [if_pos hin, if_pos (by omega), List.getElem?_take_of_lt (by omega),
        List.getElem?_take_of_lt (by omega)]
    · rw [if_neg hin, if_neg (by omega)]
  · -- a missing byte lies behind the end of the file, so behind the piece
    rw [hlen] at hp
    rw [length_patch, hlen₂] at hlt
    have hlt₁ : p < (patch 0 bytes offset (data.take (q - offset))).length := by
      rw [length_patch, hlen₁]; omega
    have := ha hlt₁
    rw [eq_comm, List.getElem?_eq_none_iff] at this
    omega

theorem le_of_lastChunk_lt {n p : Nat} (h : lastChunk n < p / chunkSize) : n ≤ p := by
  by_contra hlt
  have : (n - 1) / chunkSize < p / chunkSize := by
    unfold lastChunk at h
    rwa [if_neg (by omega)] at h
  exact absurd (Nat.div_le_div_right (c := chunkSize) (show p ≤ n - 1 by omega)) (by omega)

theorem flat_truncates {bytes : List UInt8} {newSize : Nat} {cut : Bool} :
    Truncates (Flat bytes) (Flat (bytes.take newSize)) newSize cut where
  kept p b ha _ _ hlt := by
    rw [List.length_take] at hlt
    rw [List.getElem?_take_of_lt (by omega)]
    exact ha (by omega)
  cutOff p hp _ hlt := by rw [List.length_take] at hlt; omega
  behind p b hp hlt := by
    rw [List.length_take] at hlt
    have := le_of_lastChunk_lt hp
    omega

/-- A read of a file whose bytes are known gives them. -/
theorem ReadShows.flat {bytes r : List UInt8} {offset size : Nat}
    (h : ReadShows (Flat bytes) (min (offset + size) bytes.length) offset r) :
    r = (bytes.drop offset).take size := by
  have hlen := h.length
  have hshort : ¬ offset + r.length < min (offset + size) bytes.length := fun hlt => by
    have := h.short hlt (by omega)
    rw [eq_comm, List.getElem?_eq_none_iff] at this
    omega
  refine List.ext_getElem? fun k => ?_
  by_cases hk : k < r.length
  · rw [h.bytes k hk (by omega), List.getElem?_take_of_lt (by omega), List.getElem?_drop]
  · rw [List.getElem?_eq_none (by omega), List.getElem?_eq_none]
    rw [List.length_take, List.length_drop]
    omega

/-! ## Runs -/

variable {σ : Type} [NodeStore σ]

/-- An operation of the driver on the open file `fh` of inode `ino`; the handle it ends with. -/
def runOp (ord : IterOrder Nat) (ino fh : Nat) : FileOp → FuseM σ Nat
  | .write offset data => do
    let _ ← opWrite ord fh offset data
    pure fh
  | .read offset size => do
    let _ ← opRead ord fh offset size
    pure fh
  | .truncate newSize => do
    opSetattrSize ord ino (some fh) newSize
    pure fh
  | .flush => do
    opFlush ord fh
    pure fh
  | .reopen => do
    opRelease ord fh
    opOpen ino

/-- The size an open file has in its handle. -/
def totalSizeOf (s : VenomFuse σ) (fh : Nat) : Option Nat := (s.openFiles.get fh).map (·.totalSize)

variable [NodeView σ]

/-- The slots an open file uses: its head, its continuation slots and its index chain. -/
def OwnedBy (s : VenomFuse σ) (fh slot : Nat) : Prop :=
  ∃ f ids chain, s.openFiles.get fh = some f ∧
    IndexChain (nodes s.container) f.indexChain ids chain ∧ slot ∈ ownedSlots f chain

/-- The states of a file that was created and then used without leaving gaps, through
    one handle at a time; each with the bytes the operations so far should have left. -/
inductive FlatRun (ino : Nat) : VenomFuse σ → Nat → List UInt8 → Prop
  | create {s s' : VenomFuse σ} {parent fh : Nat} {name : String} : DriverOk s →
      (opCreate parent name).run s = .ok (ino, fh) s' → FlatRun ino s' fh []
  | step {s s' : VenomFuse σ} {fh fh' size : Nat} {bytes : List UInt8} {op : FileOp}
      {ord : IterOrder Nat} : FlatRun ino s fh bytes → totalSizeOf s fh = some size →
      op.GapFree size → (runOp ord ino fh op).run s = .ok fh' s' →
      FlatRun ino s' fh' (op.apply bytes)

variable [LawfulNodeStore σ]

omit [NodeStore σ] [LawfulNodeStore σ] in
/-- In a file without gaps every chunk up to the end has its slot at its index. -/
theorem flat_positions {bytes : List UInt8} {s : VenomFuse σ} {fh : Nat} {f : OpenFile}
    {fb : FileBlock} {ids chain : List Nat} (ho : Open (Flat bytes) s fh f fb ids chain)
    (hclean : Clean f) (i : Nat) (hi : 1 ≤ i) :
    (reopened f.ino f.headSlot fb ids).slotMap[i]?.join = f.slotMap[i]?.join ∨
      ∀ off b, off < chunkSize → Flat bytes (i * chunkSize + off) b := by
  by_cases hlt : i * chunkSize < bytes.length
  · left
    have hhas : ∀ j, 1 ≤ j → j ≤ i → f.slotMap[j]?.join ≠ none := fun j hj hji hnone => by
      have := (ho.ok.backed.gap hj hnone (not_pending_of_clean hclean j)).2 0 chunkSize_pos
      have hle := Nat.mul_le_mul_right chunkSize hji
      have := this (by omega)
      rw [List.getElem?_nil, eq_comm, List.getElem?_eq_none_iff] at this
      omega
    exact ho.ok.handle.reopened_at hclean hi hhas
  · exact .inr fun off b _ h => by omega

/-- A release that succeeds leaves the bytes on the disk. -/
theorem opRelease_flat {bytes : List UInt8} {s s' : VenomFuse σ} {fh : Nat} {f : OpenFile}
    {fb : FileBlock} {ids chain : List Nat} {ord : IterOrder Nat}
    (ho : Open (Flat bytes) s fh f fb ids chain) (hsize : f.totalSize = bytes.length)
    (hrun : (opRelease ord fh).run s = .ok () s') :
    ∃ fb' ids' chain', Closed (Flat bytes) s' f.ino f.headSlot fb' ids' chain' ∧
      fb'.totalSize = bytes.length ∧ Moves s.container s'.container (ownedSlots f chain)
        (ownedSlots (reopened f.ino f.headSlot fb' ids') chain') := by
  obtain ⟨s₀, hflush, rfl⟩ := opRelease_ok hrun
  obtain ⟨f', fb', ids', chain', ho', hclean, hkeeps, hmoves, -⟩ :=
    opFlush_ok ho (fun p hp hlt => by omega) hflush
  have hclosed := (ho'.closed hclean (flat_positions ho' hclean)).withHandles (s₀.openFiles.remove fh)
  have hslots : (reopened f.ino f'.headSlot fb' ids').slotMap.reduceOption = f'.slotMap.reduceOption :=
    ho'.ok.handle.reopened_slots hclean
  rw [hkeeps.headSlot] at hslots
  rw [hkeeps.ino, hkeeps.headSlot] at hclosed
  refine ⟨fb', ids', chain', hclosed, ?_, hmoves.congr (.refl _) ?_⟩
  · exact ((ho'.ok.handle.clean hclean.metaDirty).1.trans hkeeps.totalSize).trans hsize
  · unfold ownedSlots
    rw [hslots, hkeeps.headSlot]
    exact .refl _

/-- One operation on an open file. -/
theorem runOp_flat {bytes : List UInt8} {s s' : VenomFuse σ} {fh fh' : Nat} {f : OpenFile}
    {fb : FileBlock} {ids chain : List Nat} {op : FileOp} {ord : IterOrder Nat}
    (ho : Open (Flat bytes) s fh f fb ids chain) (hsize : f.totalSize = bytes.length)
    (hgap : op.GapFree f.totalSize) (hrun : (runOp ord f.ino fh op).run s = .ok fh' s') :
    ∃ f' fb' ids' chain', Open (Flat (op.apply bytes)) s' fh' f' fb' ids' chain' ∧
      f'.ino = f.ino ∧ f'.totalSize = (op.apply bytes).length ∧
      Moves s.container s'.container (ownedSlots f chain) (ownedSlots f' chain') := by
  have hend : ∀ p, f.totalSize ≤ p → Flat bytes p none := fun p hp hlt => by omega
  cases op with
  | write offset data =>
    obtain ⟨_, s₁, hwrite, hret⟩ := run_bind_ok.mp hrun
    cases hret
    have hgap' : offset ≤ bytes.length := hsize ▸ hgap
    have hstart : patch 0 bytes offset (data.take (offset - offset)) = bytes := by
      rw [Nat.sub_self, List.take_zero, patch_nil 0 bytes hgap']
    have hstop : data.take (offset + data.length - offset) = data := by
      rw [Nat.add_sub_cancel_left, List.take_length]
    obtain ⟨f', ho', hmoves, hino, -, htotal, -⟩ :=
      opWrite_ok (A := fun q => Flat (patch 0 bytes offset (data.take (q - offset))))
        (by rw [hstart]; exact ho) (flat_overwrites hgap') hwrite
    rw [hstop] at ho'
    refine ⟨f', fb, ids, chain, ho', hino, ?_, hmoves⟩
    rw [htotal, FileOp.apply, length_patch]
    split
    next e => rw [e, List.length_nil]; omega
    next => omega
  | read offset size =>
    obtain ⟨_, s₁, hread, hret⟩ := run_bind_ok.mp hrun
    cases hret
    obtain ⟨f', ho', hc, hr, -⟩ := opRead_ok ho hread
    refine ⟨f', fb, ids, chain, ho', hr.ino, hr.totalSize.trans hsize, ?_⟩
    rw [hc, hr.ownedSlots]
    exact .refl _ _
  | truncate newSize =>
    obtain ⟨_, s₁, htrunc, hret⟩ := run_bind_ok.mp hrun
    cases hret
    have hgap' : newSize ≤ f.totalSize := hgap
    have hr := resizeFile_resized newSize f
    have hsame : newSize = f.totalSize → ∀ p b, Flat bytes p b → Flat (bytes.take newSize) p b :=
      fun e p b h => by rw [List.take_of_length_le (by omega)]; exact h
    obtain ⟨ho', hc⟩ := opSetattrSize_ok ho hsame (fun hlt => by omega) (fun _ => flat_truncates)
      htrunc
    refine ⟨_, fb, ids, chain, ho', hr.ino, ?_, ?_⟩
    · rw [hr.totalSize, FileOp.apply, List.length_take]; omega
    · rw [hc, hr.ownedSlots]
      exact .refl _ _
  | flush =>
    obtain ⟨_, s₁, hflush, hret⟩ := run_bind_ok.mp hrun
    cases hret
    obtain ⟨f', fb', ids', chain', ho', -, hkeeps, hmoves, -⟩ := opFlush_ok ho hend hflush
    exact ⟨f', fb', ids', chain', ho', hkeeps.ino, hkeeps.totalSize.trans hsize, hmoves⟩
  | reopen =>
    obtain ⟨_, s₁, hrelease, hopen⟩ := run_bind_ok.mp hrun
    obtain ⟨fb', ids', chain', hclosed, htotal, hmoves⟩ := opRelease_flat ho hsize hrelease
    obtain ⟨ho', hc, -⟩ := opOpen_ok hclosed hopen
    exact ⟨_, fb', ids', chain', ho', rfl, htotal, by rw [hc]; exact hmoves⟩

/-- What holds in every state of such a run. -/
theorem flatRun_open {ino fh : Nat} {s : VenomFuse σ} {bytes : List UInt8}
    (h : FlatRun ino s fh bytes) : ∃ f fb ids chain, Open (Flat bytes) s fh f fb ids chain ∧
      f.ino = ino ∧ f.totalSize = bytes.length := by
  induction h with
  | create hs hrun =>
    obtain ⟨head, ho⟩ := opCreate_ok (A := Flat []) hs (fun p hlt => by simp at hlt) hrun
    exact ⟨_, _, _, _, ho, rfl, rfl⟩
  | step _ hsize hgap hrun ih =>
    obtain ⟨f, fb, ids, chain, ho, rfl, htotal⟩ := ih
    rw [totalSizeOf, ho.entry] at hsize
    cases hsize
    obtain ⟨f', fb', ids', chain', ho', hino, htotal', -⟩ := runOp_flat ho htotal hgap hrun
    exact ⟨f', fb', ids', chain', ho', hino, htotal'⟩

/-- A gap-free file behaves as a flat byte array: its size is the array's, a read gives the
    array's bytes, and no operation touches a slot outside the file and the free list. -/
theorem flat_file {ino fh : Nat} {s : VenomFuse σ} {bytes : List UInt8}
    (h : FlatRun ino s fh bytes) :
    totalSizeOf s fh = some bytes.length ∧
    (∀ ord offset size r s', (opRead ord fh offset size).run s = .ok r s' →
      r = (bytes.drop offset).take size) ∧
    (∀ ord op fh' s', op.GapFree bytes.length → (runOp ord ino fh op).run s = .ok fh' s' →
      ∀ t, IsDataSlot s.container t → t ∉ free s.container → ¬ OwnedBy s fh t →
        nodes s'.container t = nodes s.container t) := by
  obtain ⟨f, fb, ids, chain, ho, rfl, htotal⟩ := flatRun_open h
  refine ⟨by rw [totalSizeOf, ho.entry, ← htotal]; rfl, fun ord offset size r s' hread => ?_,
    fun ord op fh' s' hgap hrun t ht hfree hown => ?_⟩
  · obtain ⟨_, _, _, _, hshows⟩ := opRead_ok ho hread
    rw [htotal] at hshows
    exact hshows.flat
  · obtain ⟨_, _, _, _, _, _, _, hmoves⟩ := runOp_flat ho htotal (htotal ▸ hgap) hrun
    exact hmoves.agree t ht hfree fun hm => hown ⟨f, ids, chain, ho.entry, ho.ok.handle.index, hm⟩

/-- Three bytes written to a new file and read back through a second handle. -/
theorem flat_file_reopened : ∃ s : VenomFuse Volume, totalSizeOf s 2 = some 3 ∧
    ∀ ord r s', (opRead ord 2 0 9).run s = .ok r s' → r = [97, 98, 99] := by
  have h₁ := FlatRun.create mounted_ok
    (run_of_valueOf (x := opCreate 1 "notes") (a := (2, 1)) (by decide +kernel))
  have h₂ : FlatRun 2 _ 1 (FileOp.apply [] (.write 0 [97, 98, 99])) :=
    h₁.step (show totalSizeOf _ 1 = some 0 by decide +kernel) (Nat.le_refl 0)
      (run_of_valueOf (x := runOp .listed 2 1 _) (a := 1) (by decide +kernel))
  have h₃ : FlatRun 2 _ 2 (FileOp.apply _ .reopen) :=
    h₂.step (show totalSizeOf _ 1 = some 3 by decide +kernel) trivial
      (run_of_valueOf (x := runOp .listed 2 1 _) (a := 2) (by decide +kernel))
  have hflat := flat_file h₃
  exact ⟨_, hflat.1, fun ord r s' hread => hflat.2.1 ord 0 9 r s' hread⟩

end Venom.Fuse
