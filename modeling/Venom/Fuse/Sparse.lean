import Venom.Fuse.History

/-! # Files with holes

A write may skip chunks.  The head of a file lists slots without chunk numbers, so a flush
that leaves a chunk out moves the later ones down; a reopened file has every written chunk
at its index exactly when no written chunk lies above a chunk that has no slot.
-/

namespace Venom.Fuse

open Venom.Storage
open Venom.Library
open Venom.Library.StateError
open Venom.Library.OptionLists

/-! ## Sequences of writes -/

/-- The byte the last write to a position left there. -/
def lastWritten : List WriteCall → Nat → Option UInt8
  | [], _ => none
  | w :: ws, p =>
    lastWritten ws p <|> if w.offset ≤ p then w.data[p - w.offset]? else none

/-- Some write touched chunk `i`. -/
def ChunkWritten (ws : List WriteCall) (i : Nat) : Prop :=
  ∃ p, lastWritten ws p ≠ none ∧ p / chunkSize = i

theorem lastWritten_snoc (ws : List WriteCall) (w : WriteCall) (p : Nat) :
    lastWritten (ws ++ [w]) p =
      if w.offset ≤ p ∧ p < w.offset + w.data.length then w.data[p - w.offset]?
      else lastWritten ws p := by
  have hone : lastWritten [w] p =
      if w.offset ≤ p ∧ p < w.offset + w.data.length then w.data[p - w.offset]? else none := by
    simp only [lastWritten]
    by_cases h : w.offset ≤ p
    · by_cases h' : p < w.offset + w.data.length
      · simp [h, h']
      · simp [h, h', List.getElem?_eq_none (show w.data.length ≤ p - w.offset by omega)]
    · simp [h]
  induction ws with
  | nil => exact hone
  | cons v ws ih =>
    rw [List.cons_append, lastWritten, ih]
    by_cases h : w.offset ≤ p ∧ p < w.offset + w.data.length
    · have : p - w.offset < w.data.length := by omega
      simp [h, this]
    · simp only [if_neg h]; rfl

/-- The bytes a sequence of writes left are known. -/
def Holds (ws : List WriteCall) : Content := fun p b => ∀ x, lastWritten ws p = some x → b = some x

/-- Up to `q` and up to `q + k` a write left the same bytes outside the piece between. -/
theorem lastWritten_outside (ws : List WriteCall) (w : WriteCall) {q k p : Nat}
    (hq : w.offset ≤ q) (hk : q + k ≤ w.offset + w.data.length) (hp : p < q ∨ q + k ≤ p) :
    lastWritten (ws ++ [{ w with data := w.data.take (q + k - w.offset) }]) p =
      lastWritten (ws ++ [{ w with data := w.data.take (q - w.offset) }]) p := by
  have hlen₁ : (w.data.take (q - w.offset)).length = q - w.offset := by
    rw [List.length_take]; omega
  have hlen₂ : (w.data.take (q + k - w.offset)).length = q + k - w.offset := by
    rw [List.length_take]; omega
  rw [lastWritten_snoc, lastWritten_snoc]
  dsimp only
  rw [hlen₁, hlen₂]
  by_cases hin : w.offset ≤ p ∧ p < w.offset + (q - w.offset)
  · rw [if_pos hin, if_pos (by omega), List.getElem?_take_of_lt (by omega),
      List.getElem?_take_of_lt (by omega)]
  · rw [if_neg hin, if_neg (by omega)]

/-- In the piece it left its own. -/
theorem lastWritten_inside (ws : List WriteCall) (w : WriteCall) {q k i : Nat}
    (hq : w.offset ≤ q) (hk : q + k ≤ w.offset + w.data.length) (hi : i < k) :
    lastWritten (ws ++ [{ w with data := w.data.take (q + k - w.offset) }]) (q + i) =
      ((w.data.drop (q - w.offset)).take k)[i]? := by
  have hlen : (w.data.take (q + k - w.offset)).length = q + k - w.offset := by
    rw [List.length_take]; omega
  rw [lastWritten_snoc]
  dsimp only
  rw [hlen, if_pos (by omega),
    List.getElem?_take_of_lt (show q + i - w.offset < q + k - w.offset by omega),
    List.getElem?_take_of_lt hi, List.getElem?_drop]
  congr 1; omega

theorem length_piece {w : WriteCall} {q k : Nat} (hq : w.offset ≤ q)
    (hk : q + k ≤ w.offset + w.data.length) :
    ((w.data.drop (q - w.offset)).take k).length = k := by
  rw [List.length_take, List.length_drop]; omega

theorem holds_overwrites (ws : List WriteCall) (w : WriteCall) (q k : Nat) (hq : w.offset ≤ q)
    (hk : q + k ≤ w.offset + w.data.length) :
    Overwrites (Holds (ws ++ [{ w with data := w.data.take (q - w.offset) }]))
      (Holds (ws ++ [{ w with data := w.data.take (q + k - w.offset) }])) q
      ((w.data.drop (q - w.offset)).take k) := by
  have hlen := length_piece hq hk
  refine ⟨fun i hi x hx => ?_, fun p b hp ha x hx => ?_, fun p hp ha x hx => ?_⟩
  · rw [hlen] at hi
    exact (lastWritten_inside ws w hq hk hi).symm.trans hx
  · rw [hlen] at hp
    exact ha x ((lastWritten_outside ws w hq hk hp).symm.trans hx)
  · rw [hlen] at hp
    cases ha x ((lastWritten_outside ws w hq hk hp).symm.trans hx)

/-! ## Writing, closing and opening again -/

variable {σ : Type} [NodeStore σ]

/-- The slot an open file has for chunk `i`. -/
def chunkSlot (s : VenomFuse σ) (fh i : Nat) : Option Nat :=
  (s.openFiles.get fh).bind fun f => f.slotMap[i]?.join

/-- The open file has a slot, or bytes to be flushed, for chunk `i`. -/
def HasChunk (s : VenomFuse σ) (fh i : Nat) : Prop :=
  ∃ f, s.openFiles.get fh = some f ∧ Occupied f i

/-- No written chunk lies above a chunk that has no slot. -/
def NoHoles (s : VenomFuse σ) (fh : Nat) (ws : List WriteCall) : Prop :=
  ∀ i j, ChunkWritten ws i → 1 ≤ j → j < i → HasChunk s fh j ∨ ChunkWritten ws j

/-- In state `s'` the handle `fh'` has every chunk written through `fh` in the slot that the
    flush in state `s` put it in, and reads of written bytes give them. -/
structure KeepsChunks (ord : IterOrder Nat) (fh : Nat) (ws : List WriteCall) (s : VenomFuse σ)
    (fh' : Nat) (s' : VenomFuse σ) : Prop where
  slots : ∀ i, ChunkWritten ws i → 1 ≤ i → ∃ slot,
    chunkSlot (after (opFlush ord fh) s) fh i = some slot ∧ chunkSlot s' fh' i = some slot
  reads : ∀ ord' offset size r s'', (∀ q, offset ≤ q → q < offset + size → lastWritten ws q ≠ none) →
    (opRead ord' fh' offset size).run s' = .ok r s'' →
    r.length = size ∧ ∀ k, k < size → r[k]? = lastWritten ws (offset + k)

variable [NodeView σ] [LawfulNodeStore σ]

/-- The handle after the writes, with what they left. -/
theorem runWrites_ok {s s' : VenomFuse σ} {fh : Nat} {f : OpenFile} {fb : FileBlock}
    {ids chain : List Nat} {ws : List WriteCall} (ho : Open Anything s fh f fb ids chain)
    (hrun : (runWrites fh ws).run s = .ok () s') :
    ∃ f', Open (Holds ws) s' fh f' fb ids chain ∧ f'.ino = f.ino ∧
      (∀ p, lastWritten ws p ≠ none → p < f'.totalSize) ∧
      ∀ i, Occupied f' i ↔ Occupied f i ∨ ChunkWritten ws i := by
  let inv (done : List WriteCall) (s₁ : VenomFuse σ) : Prop :=
    ∃ f', Open (Holds done) s₁ fh f' fb ids chain ∧ f'.ino = f.ino ∧
      (∀ p, lastWritten done p ≠ none → p < f'.totalSize) ∧
      ∀ i, Occupied f' i ↔ Occupied f i ∨ ChunkWritten done i
  refine forM_ok_induction inv hrun ⟨f, ?_, rfl, by simp [lastWritten], ?_⟩ ?_
  · exact ⟨ho.entry, ho.inode, ho.ok.handle,
      ho.ok.backed.mono (fun p b _ x hx => by simp [lastWritten] at hx) le_rfl⟩
  · simp [ChunkWritten, lastWritten]
  · rintro done w rest s₁ s₂ - ⟨f₁, ho₁, hino₁, hend₁, hocc₁⟩ hstep
    obtain ⟨n, s₂', hwrite, hret⟩ := run_bind_ok.mp hstep
    cases hret
    have hstart : Holds (done ++ [{ w with data := w.data.take (w.offset - w.offset) }]) =
        Holds done := by
      funext p b
      unfold Holds
      rw [lastWritten_snoc]
      simp
    have hstop : w.data.take (w.offset + w.data.length - w.offset) = w.data := by
      rw [Nat.add_sub_cancel_left, List.take_length]
    obtain ⟨f₂, ho₂, -, hino₂, -, htotal, hocc₂⟩ := opWrite_ok
      (A := fun q => Holds (done ++ [{ w with data := w.data.take (q - w.offset) }]))
      (by rw [hstart]; exact ho₁) (holds_overwrites done w) hwrite
    rw [hstop] at ho₂
    have hlast : ∀ p, lastWritten (done ++ [w]) p ≠ none ↔
        lastWritten done p ≠ none ∨ (w.offset ≤ p ∧ p < w.offset + w.data.length) := by
      intro p
      rw [lastWritten_snoc]
      split
      next h =>
        have : p - w.offset < w.data.length := by omega
        simp [h, this]
      next h => simp [h]
    refine ⟨f₂, ho₂, hino₂.trans hino₁, fun p hp => ?_, fun i => ?_⟩
    · rw [htotal]
      rcases (hlast p).mp hp with hp | hp
      · have := hend₁ p hp
        split <;> omega
      · rw [if_neg (by rintro e; rw [e] at hp; simp at hp; omega)]
        omega
    · rw [hocc₂, hocc₁, or_assoc]
      refine or_congr_right ⟨?_, ?_⟩
      · rintro (⟨p, hp, rfl⟩ | ⟨p, h1, h2, rfl⟩)
        · exact ⟨p, (hlast p).mpr (.inl hp), rfl⟩
        · exact ⟨p, (hlast p).mpr (.inr ⟨h1, h2⟩), rfl⟩
      · rintro ⟨p, hp, rfl⟩
        rcases (hlast p).mp hp with hp | ⟨h1, h2⟩
        · exact .inl ⟨p, hp, rfl⟩
        · exact .inr ⟨p, h1, h2, rfl⟩

/-- A read of written bytes gives them. -/
theorem ReadShows.holds {ws : List WriteCall} {offset size total : Nat} {r : List UInt8}
    (h : ReadShows (Holds ws) (min (offset + size) total) offset r)
    (hin : 0 < size → offset + size ≤ total)
    (hall : ∀ q, offset ≤ q → q < offset + size → lastWritten ws q ≠ none) :
    r.length = size ∧ ∀ k, k < size → r[k]? = lastWritten ws (offset + k) := by
  have hle := h.length
  have hlen : r.length = size := by
    by_contra hne
    have hlt : offset + r.length < offset + size := by omega
    obtain ⟨x, hx⟩ := Option.ne_none_iff_exists'.mp (hall _ (by omega) hlt)
    cases h.short (by have := hin (by omega); omega) x hx
  refine ⟨hlen, fun k hk => ?_⟩
  obtain ⟨x, hx⟩ := Option.ne_none_iff_exists'.mp (hall (offset + k) (by omega) (by omega))
  rw [hx, h.bytes k (by omega) x hx]

/-- Whether the writes keep their chunks, decided by the slots the flushed handle has. -/
theorem reopened_keeps {s s₁ : VenomFuse σ} {fh fh' ino : Nat} {ord : IterOrder Nat} {f : OpenFile}
    {fb : FileBlock} {ids chain : List Nat} {ws : List WriteCall} {closed : VenomFuse σ}
    (hflushed : Open (Holds ws) (after (opFlush ord fh) s) fh f fb ids chain) (hclean : Clean f)
    (hino : f.ino = ino) (hend : ∀ p, lastWritten ws p ≠ none → p < f.totalSize)
    (hhas : ∀ i, 1 ≤ i → ChunkWritten ws i → f.slotMap[i]?.join ≠ none)
    (hclosed : ∃ m, closed = { after (opFlush ord fh) s with openFiles := m })
    (hopen : (opOpen ino).run closed = .ok fh' s₁) :
    KeepsChunks ord fh ws s fh' s₁ ↔
      ∀ i j, ChunkWritten ws i → 1 ≤ j → j < i → f.slotMap[j]?.join ≠ none := by
  obtain ⟨m, rfl⟩ := hclosed
  subst hino
  have hslotOf : ∀ i, chunkSlot (after (opFlush ord fh) s) fh i = f.slotMap[i]?.join := fun i => by
    rw [chunkSlot, hflushed.entry]; rfl
  have hanything : Closed Anything (after (opFlush ord fh) s) f.ino f.headSlot fb ids chain :=
    ⟨hflushed.inode, hflushed.ok.handle.reopen hclean,
      (hflushed.ok.backed.mono (fun _ _ _ => trivial) le_rfl).reopen hflushed.ok.handle hclean
        fun _ _ => .inr fun _ _ _ => trivial⟩
  have hentry := (opOpen_ok (hanything.withHandles m) hopen).1.entry
  have hslotOf' : ∀ i, chunkSlot s₁ fh' i =
      (reopened f.ino f.headSlot fb ids).slotMap[i]?.join := fun i => by
    rw [chunkSlot, hentry]; rfl
  constructor
  · intro hkeep i j hi hj hji hhole
    obtain ⟨slot, hs, hs'⟩ := hkeep.slots i hi (by omega)
    rw [hslotOf] at hs
    rw [hslotOf'] at hs'
    exact hflushed.ok.handle.reopened_moved hclean hj hji hhole (Option.join_eq_some_iff.mp hs) hs'
  · intro hfull
    have hat : ∀ i, 1 ≤ i → ChunkWritten ws i →
        (reopened f.ino f.headSlot fb ids).slotMap[i]?.join = f.slotMap[i]?.join :=
      fun i h1 hi => hflushed.ok.handle.reopened_at hclean h1 fun j hj hji => by
        rcases Nat.lt_or_eq_of_le hji with hlt | rfl
        · exact hfull i j hi hj hlt
        · exact hhas j hj hi
    refine ⟨fun i hi h1 => ?_, fun ord' offset size r s'' hall hread => ?_⟩
    · obtain ⟨slot, hslot⟩ := Option.ne_none_iff_exists'.mp (hhas i h1 hi)
      exact ⟨slot, by rw [hslotOf, hslot], by rw [hslotOf', hat i h1 hi, hslot]⟩
    · have hc := hflushed.closed hclean fun i h1 => by
        by_cases hi : ChunkWritten ws i
        · exact .inl (hat i h1 hi)
        · refine .inr fun off b hoff x hx => absurd ⟨_, ?_, div_chunk hoff⟩ hi
          rw [hx]; simp
      obtain ⟨ho, -⟩ := opOpen_ok (hc.withHandles m) hopen
      obtain ⟨_, _, _, _, hshows⟩ := opRead_ok ho hread
      have htotal : (reopened f.ino f.headSlot fb ids).totalSize = f.totalSize :=
        (hflushed.ok.handle.clean hclean.metaDirty).1
      refine hshows.holds (fun hpos => ?_) hall
      have := hend _ (hall (offset + size - 1) (by omega) (by omega))
      omega

/-- One byte at the start of chunk `i`. -/
def byteAt (i : Nat) : List WriteCall := [⟨.listed, i * chunkSize, [7]⟩]

/-- Writes to a new file, flushed, and the file opened again: the states in between. -/
theorem writes_run {ws : List WriteCall} {a : Option Nat} (h : valueOf (do
    runWrites 1 ws
    opFlush .listed 1
    let fh ← opOpen 2
    let s ← get
    pure (fh, chunkSlot s 2 2)) created = some (2, a)) : ∃ s₁ s₂ s₃ : VenomFuse Volume,
      (runWrites 1 ws).run created = .ok () s₁ ∧ (opFlush .listed 1).run s₁ = .ok () s₂ ∧
      (opOpen 2).run s₂ = .ok 2 s₃ ∧ chunkSlot s₃ 2 2 = a := by
  obtain ⟨_, s₁, hwrite, h₁⟩ := run_bind_ok.mp (run_of_valueOf h)
  obtain ⟨_, s₂, hflush, h₂⟩ := run_bind_ok.mp h₁
  obtain ⟨fh, s₃, hopen, h₃⟩ := run_bind_ok.mp h₂
  obtain ⟨_, _, hget, hret⟩ := run_bind_ok.mp h₃
  cases hget
  rw [run_pure, EStateM.Result.ok.injEq, Prod.mk.injEq] at hret
  obtain ⟨⟨rfl, hslot⟩, -⟩ := hret
  exact ⟨s₁, s₂, s₃, hwrite, hflush, hopen, hslot⟩

end Venom.Fuse
