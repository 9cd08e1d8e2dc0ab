import Venom.Fs.NewTree
import Venom.Fuse.Reached

/-! # Wiped slots

A wiped slot holds random bytes, and so does a slot of a new file that nothing has been
written to yet.  Whether random bytes authenticate is up to the random source and the
ciphers.  `RejectsNoise` says that those still to be drawn do not; a mounted container for
which they do not is a node store whose wiped slots hold nothing, and a driver that is
started on a new one is in a reached state.
-/

namespace Venom.Fs

open Venom.Container
open Venom.Crypto
open Venom.Storage
open Venom.Storage.SlotStore
open Venom.Fuse
open Venom.Library
open Venom.Library.Words
open Venom.Library.StateError

variable {P : Primitives}

/-! ## Random bytes that do not authenticate -/

/-- From no position on do the random bytes still to be drawn decrypt as a slot of the store. -/
def RejectsNoise (P : Primitives) (st : SlotStore) (w : World) : Prop :=
  ∀ pos slot data, st.openSlot P slot ((w.skip pos).drawn slotSize).toList ≠ .ok data

/-- A store with the same key keeps rejecting them while they are drawn. -/
theorem RejectsNoise.later {st st' : SlotStore} {w w' : World} (h : RejectsNoise P st w)
    (hkey : st'.masterKey = st.masterKey) (hcipher : st'.cipher = st.cipher) (hlater : w.Later w') :
    RejectsNoise P st' w' := by
  obtain ⟨n, hn⟩ := hlater
  intro pos slot data hopen
  have hdrawn : (w'.skip pos).drawn slotSize = (w.skip (n + pos)).drawn slotSize := by
    refine drawn_congr (fun i => ?_) slotSize
    exact (hn (pos + i)).trans (congrArg w.rng (Nat.add_assoc n pos i).symm)
  rw [openSlot_congr hkey hcipher, hdrawn] at hopen
  exact h _ _ _ hopen

/-- A repeated byte is rejected when it makes a length prefix that is out of range. -/
theorem rejectsNoise_freePath {b : UInt8} (st : SlotStore)
    (hb : 4 + ofLittleEndian (List.replicate 4 b) > slotSize) : RejectsNoise P st (freePath b) := by
  intro pos slot data hopen
  have htake : (List.replicate slotSize b).take 4 = List.replicate 4 b := by
    rw [List.take_replicate]
    rfl
  rw [drawn_freePath] at hopen
  unfold openSlot at hopen
  dsimp only at hopen
  rw [htake, if_pos (.inr hb)] at hopen
  cases hopen

/-! ## The mounted container -/

namespace MountedVolume

/-- The random bytes still to be drawn do not authenticate in the volume. -/
def Noiseless (v : MountedVolume P) : Prop := RejectsNoise P v.store v.mounted.world

/-- No call of the driver changes the key or turns the random source back. -/
instance : KeptByCalls (Noiseless (P := P)) := keptByCalls fun hstep hv =>
  hv.later hstep.shape.masterKey hstep.shape.cipher hstep.later

end MountedVolume

/-- A mounted container in which random bytes do not authenticate. -/
abbrev WipedVolume (P : Primitives) : Type := Restricted (MountedVolume.Noiseless (P := P))

/-- A slot that holds a run of the random bytes holds no node. -/
theorem readNode_noise {m : Mounted} {f : ByteFile} {w : World} (pos : Nat) {slot : Nat}
    (hnoise : RejectsNoise P m.container.store w) (hf : m.world.file = some f)
    (hslice : f.slice (slotOffset slot) slotSize = ((w.skip pos).drawn slotSize).toList) :
    (readNode P slot m).toOption = none := by
  cases hread : readNode P slot m with
  | error e => rfl
  | ok node =>
    obtain ⟨data, hdata, -⟩ := except_bind_ok.mp hread
    have hopen := ((read_eq_ok hf).mp hdata).2
    rw [hslice] at hopen
    exact absurd hopen (hnoise _ _ _)

theorem skip_zero (w : World) : w.skip 0 = w := by
  unfold World.skip
  simp only [Nat.zero_add]

/-- A freed slot is not read any more. -/
theorem readNode_freed {m : Mounted} (slot : Nat)
    (hnoise : RejectsNoise P m.container.store m.world) (hfile : m.world.file ≠ none) :
    (readNode P slot (freeNode slot m)).toOption = none := by
  obtain ⟨hwrote, hcontainer⟩ := freeNode_wipes slot hfile
  obtain ⟨f, -, hf'⟩ := hwrote.file
  have hstore := congrArg VnmContainer.store hcontainer
  have hlater : RejectsNoise P (freeNode slot m).container.store m.world :=
    hnoise.later (by rw [hstore]) (by rw [hstore]) (.refl _)
  refine readNode_noise 0 hlater hf' ?_
  have hself := ByteFile.slice_write_self (slotOffset slot) (m.world.drawn slotSize).toList f
  rw [List.Vector.toList_length] at hself
  rw [hself, skip_zero]

instance : WipingNodeStore (WipedVolume P) where
  freeNode_wiped v s _ := readNode_freed s v.2 v.plain.2

/-! ## A new container -/

section New

variable {outerPassword : List UInt8} {totalSizeBytes : UInt64} {cipher : CipherAlgorithm}
  {kdfProfile : String} {label : Option String} {hidden : Option HiddenVolumeOptions}
  {w w' : World} {m : VnmContainer} {b : Blocks}

/-- `create` draws from the random source, and does not turn it back. -/
theorem create_later
    (h : (create P outerPassword totalSizeBytes cipher kdfProfile label hidden).run w = .ok m w') :
    w.Later w' := by
  obtain ⟨-, lay, v, v', -, hfilled, hhidden, houter⟩ := create_steps h
  obtain ⟨ws, -, -, hissued⟩ := createHidden?_ok hhidden
  obtain ⟨hdr, pwSlot, bitmap, root, alloc, -, w₁, hissued', hrollback⟩ := createOuter_ok houter
  have hfill : w.Later v := ⟨_, hfilled.rng⟩
  have hkey : v.Later ((v.skip 32).skip 16) := ((World.OnlyDrew.skip v 32).trans (.skip _ 16)).later
  have hparts : w.Later w₁ := ((hfill.trans hkey).trans hissued.later).trans hissued'.later
  cases hrollback
  exact hparts

/-- The fill puts the random bytes into the file as they come. -/
theorem byteAt_fillWrites (w : World) (n k : Nat) {i : Nat} (hi : i < n) (hk : i < k * 65536) :
    ((zeroFile n).replay ((List.range k).map (fillWrite w n))).byteAt i = w.rng i := by
  induction k with
  | zero => omega
  | succ k ih =>
    have hsize : i < ((zeroFile n).replay ((List.range k).map (fillWrite w n))).size :=
      lt_of_lt_of_le hi (ByteFile.size_le_replay _ (zeroFile n))
    rw [List.range_succ, List.map_append, List.map_singleton, ByteFile.replay_concat]
    generalize (zeroFile n).replay ((List.range k).map (fillWrite w n)) = f at ih hsize ⊢
    change (f.write (k * 65536) (((List.range 65536).map fun j => w.rng (65536 * k + j)).take
      (n - k * 65536))).byteAt i = w.rng i
    unfold ByteFile.write
    dsimp only
    rw [if_pos hsize]
    by_cases hin : k * 65536 ≤ i
    · -- the byte is in the last piece
      have hlt : i - k * 65536 < 65536 := by omega
      have hlast : 65536 * k + (i - k * 65536) = i := by omega
      have hpiece := List.getElem?_range hlt
      rw [if_pos hin, List.getElem?_take_of_lt (by omega), List.getElem?_map]
      simp only [hpiece, Option.map_some, Option.getD_some, hlast]
    · rw [if_neg hin, Option.getD_none]
      exact ih (Nat.lt_of_not_le hin)

namespace Created

variable (h : Created P outerPassword totalSizeBytes cipher kdfProfile label hidden w m w' b)
include h

/-- Nothing but the fill is written to a slot of the new volume that is neither its root nor its
    allocation slot. -/
theorem fill_stays {t : Nat} (ht : t < b.lay.outerSlots.toNat) (hroot : t ≠ outerRootSlot)
    (halloc : t ≠ outerAllocSlot) :
    (image b w').slice (slotOffset t) slotSize = ((w.skip (slotOffset t)).drawn slotSize).toList := by
  have hhas : b.lay.Has (.outerSlot t) := ht
  have hinside : slotOffset t + slotSize ≤ b.lay.fileSize.toNat := h.sizes.inside hhas
  have hothers : ∀ x ∈ b.hiddenWrites ++ outerWrites b.lay hidden.isSome outerPassword b.hdr b.pwSlot
      b.root b.alloc, ∃ q, AtPart b.lay q x ∧ q ≠ .outerSlot t := by
    intro x hx
    rcases List.mem_append.mp hx with hhid | hout
    · cases hidden with
      | none =>
        rw [h.hiddenNone rfl] at hhid
        cases hhid
      | some opts =>
        obtain ⟨p, hp, hat⟩ := (h.hiddenSome rfl).atPart h.sizes rfl x hhid
        refine ⟨p, hat, ?_⟩
        rintro rfl
        rcases hp with hp | hp | ⟨s, hp⟩ <;> cases hp
    · obtain ⟨q, hq, hat⟩ := forall₂_right h.outer_atPart hout
      refine ⟨q, hat, ?_⟩
      rintro rfl
      unfold outerParts at hq
      split at hq <;> simp [hroot, halloc] at hq
  have hagree : ByteFile.AgreeOn (slotOffset t) slotSize (image b w')
      ((zeroFile b.lay.fileSize.toNat).replay (fillWrites w b.lay.fileSize.toNat)) := by
    rw [image, h.issued, List.append_assoc, ByteFile.replay_append]
    refine ByteFile.agreeOn_replay (hinside.trans (ByteFile.size_le_replay _ (zeroFile _))) fun x hx => ?_
    obtain ⟨q, hat, hne⟩ := hothers x hx
    exact hat.beside h.sizes hhas hne.symm
  rw [hagree.slice_eq, World.toList_drawn, ByteFile.slice]
  refine List.map_congr_left fun i hi => ?_
  have hlt := List.mem_range.mp hi
  exact byteAt_fillWrites w _ _ (by omega) (by unfold fillPieces; omega)

/-- A slot of the new volume other than its root holds no node. -/
theorem blank (hnoise : RejectsNoise P m.store w) {t : Nat} (ht : IsDataSlot h.volume t)
    (hroot : t ≠ outerRootSlot) : nodes h.volume t = none := by
  obtain ⟨-, hlimit, halloc⟩ := h.slots
  obtain ⟨hrange, hne⟩ := (h.hasSlot_iff t).mp ht
  rw [halloc] at hne
  rw [hlimit] at hrange
  exact readNode_noise _ hnoise h.file_eq (h.fill_stays hrange.2 hroot hne)

end Created

/-- A driver on a new container is in a reached state, when random bytes do not authenticate. -/
theorem new_reached
    (hcreate : (create P outerPassword totalSizeBytes cipher kdfProfile label hidden).run w = .ok m w')
    (hnoise : RejectsNoise P m.store w) {v : WipedVolume P}
    (hv : v.plain.mounted = { container := m, world := w' }) :
    Reached m.rootSlot.toNat (VenomFuse.new m.rootSlot.toNat v) := by
  obtain ⟨b, h⟩ := create_ok hcreate
  have hplain : v.plain = h.volume := Subtype.ext hv
  rw [h.rootSlot]
  have hformatted := h.formatted
  rw [← hplain] at hformatted
  refine .start ⟨hformatted.dataSlot, hformatted.rootNode, hformatted.mem_free, hformatted.nodup⟩ ?_
  intro t ht hroot
  have hblank : IsDataSlot v.plain t → nodes v.plain t = none := by
    rw [hplain]
    exact fun ht => h.blank hnoise ht hroot
  exact hblank ht

/-- Such a container: 30 slots, and a random source that repeats one byte. -/
theorem new_reached_million : ∃ (m : VnmContainer) (w' : World) (v : WipedVolume plain),
    v.plain.mounted = { container := m, world := w' } ∧
      Reached m.rootSlot.toNat (VenomFuse.new m.rootSlot.toNat v) := by
  have hisOk : ∃ m w', (create plain [1] 1000000 .xchacha20Poly1305 "interactive" none none).run
      (freePath 7) = .ok m w' :=
    create_isOk rfl (show layout 1000000 none = .ok ⟨30, 0, 512, 999928⟩ from rfl)
      (fun _ => plain_hasKeys _ _) (by decide) (fun _ h => by cases h)
  obtain ⟨m, w', hcreate⟩ := hisOk
  obtain ⟨b, h⟩ := create_ok hcreate
  have hnoise : RejectsNoise plain m.store (freePath 7) := rejectsNoise_freePath _ (by decide)
  refine ⟨m, w', ⟨h.volume, hnoise.later rfl rfl (create_later hcreate)⟩, rfl, ?_⟩
  exact new_reached hcreate hnoise rfl

end New

end Venom.Fs
