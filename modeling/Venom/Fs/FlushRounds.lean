import Venom.Fs.SavedCopies

/-! # Rounds of calls, flushes and openings

What is put into an outer volume survives any number of flushes after each of which the file is
opened again, provided that the container id is not zero: `create` gives the volume of such an id
a generation, and `open` reads its block as a legacy one.
-/

namespace Venom.Fs

open Venom.Container
open Venom.Crypto
open Venom.Storage
open Venom.Storage.SlotStore
open Venom.Library
open Venom.Library.StateError

variable {P : Primitives}

/-! ## Rounds -/

/-- The outer volume of a new container, from `create` or from an `open` of its file. -/
inductive NewVolume (P : Primitives) (m : VnmContainer) (w' : World) (v : MountedVolume P) : Prop
  | created (hv : v.mounted = { container := m, world := w' })
  | opened {credential : OpenCredential} {c : VnmContainer} (hfinds : Recovers P m.kMaster w' credential)
      (hopen : openContainer P w' credential = .ok c) (hv : v.mounted = { container := c, world := w' })

/-- The root directory, which is empty. -/
def newContents : Contents := Function.update (fun _ => none) outerRootSlot (some emptyDirectory)

/-- A node call, a flush, or a flush and an `open` of what it has left. -/
inductive VolumeStep : MountedVolume P × Contents → MountedVolume P × Contents → Prop
  | called {x y : MountedVolume P × Contents} (h : NodeCall x y) : VolumeStep x y
  | flushed {v v' : MountedVolume P} {C : Contents} (h : (flush P).run v.mounted = .ok () v'.mounted) :
      VolumeStep (v, C) (v', C)
  | remounted {v v' : MountedVolume P} {C : Contents} (h : Remounts v v') : VolumeStep (v, C) (v', C)

/-- `open` hands the volume `m` out as it was saved, with what its client has put there. -/
structure HandedBack (P : Primitives) (m : VnmContainer) (C : Contents) (saved : SlotStore) (w : World)
    (c : VnmContainer) : Prop where
  cipher : c.cipher = m.cipher
  rootSlot : c.rootSlot = m.rootSlot
  label : (c.label.map utf8).getD [] = (m.label.map utf8).getD []
  free : c.store.free = saved.free
  generation : c.store.generation = saved.generation
  nodes : ∀ slot n, C slot = some n → readNode P slot { container := c, world := w } = .ok n

/-- A label of at most 64 bytes without NUL. -/
def LabelShort (label : Option String) : Prop :=
  ∀ s ∈ label, (utf8 s).length ≤ 64 ∧ (0 : UInt8) ∉ utf8 s

theorem LabelFits.short {label : Option String} (h : LabelFits label) : LabelShort label :=
  fun s hs => (h s hs).2

/-- Its bytes are kept; an empty label comes back as none. -/
theorem keptLabel_short {label : Option String} (h : LabelShort label) :
    ((keptLabel label).map utf8).getD [] = (label.map utf8).getD [] := by
  by_cases hempty : label = some ""
  · rw [hempty]
    decide
  · rw [keptLabel, labelFrom_labelBytes fun s hs => ⟨?_, h s hs⟩]
    rintro rfl
    exact hempty hs

section Steps

variable {v v' : MountedVolume P} {C C' : Contents} {lay : Layout} {k : Key} {payload : HeaderPayload}
  {l : AccessList} {total : UInt64} {hidden : Option UInt64} {f₀ : ByteFile} {w w' : World}

/-- Steps of a client that leaves the access list alone. -/
theorem VolumeStep.client (h : VolumeStep (v, C) (v', C')) :
    Client.Step ⟨v, C, l⟩ ⟨v', C', l⟩ := by
  cases h with
  | called hcall => exact .called hcall
  | flushed hrun => exact .flushed hrun
  | remounted hre => exact .remounted hre

/-! ## The front of the file -/

/-- The header and the recipient area are those of `f₀`. -/
def FrontOf (f₀ : ByteFile) (w : World) : Prop :=
  ∃ f, w.file = some f ∧ dataAreaOffset ≤ f.size ∧ ByteFile.AgreeOn 0 dataAreaOffset f f₀

/-- Slots lie behind it. -/
theorem FrontOf.wrote (h : FrontOf f₀ w) {slot : Nat} {bytes : List UInt8}
    (hwrote : World.Wrote (slotOffset slot) bytes w w') : FrontOf f₀ w' := by
  obtain ⟨f, hf, hsize, hfront⟩ := h
  obtain ⟨g, hg, hf'⟩ := hwrote.file
  cases hf.symm.trans hg
  refine ⟨_, hf', hsize.trans (Nat.le_max_left _ _), ByteFile.AgreeOn.trans ?_ hfront⟩
  exact ByteFile.agreeOn_write (by omega) (.inl ((Nat.zero_add _).trans_le (Nat.le_add_right _ _)))

theorem FrontOf.saved {H : OuterHeader P} {st : SlotStore} {m' : Mounted} (h : FrontOf f₀ v.mounted.world)
    (hsaved : SavedTo H v st m') : FrontOf f₀ m'.world := by
  obtain ⟨bytes, w₁, -, hwrote, hfile⟩ := hsaved.wrote
  obtain ⟨f, hf, hfront⟩ := h.wrote hwrote
  exact ⟨f, hfile.trans hf, hfront⟩

theorem FrontOf.step (h : FrontOf f₀ v.mounted.world) (hinv : Client.Inv lay k payload ⟨v, C, l⟩)
    (hstep : VolumeStep (v, C) (v', C')) : FrontOf f₀ v'.mounted.world := by
  obtain ⟨H, hv, -, -⟩ := hinv.header
  cases hstep with
  | called hcall =>
    obtain ⟨slot, o, -, -, -, bytes, -, hwrote⟩ := Client.slotWritten hinv.holds hcall
    exact h.wrote hwrote
  | flushed hrun =>
    obtain ⟨st, hst⟩ := hv.flushed hrun
    exact h.saved hst
  | remounted hre =>
    obtain ⟨st, m', store, hst, -, -, -, hv'⟩ := hre.loaded hv hinv.holds.freeOk
    have hsaved : FrontOf f₀ m'.world := h.saved hst
    rw [hv']
    exact hsaved

/-- Throughout a run the nodes are there, and the front of the file stays. -/
theorem volume_run (h : FrontOf f₀ v.mounted.world) (hinv : Client.Inv lay k payload ⟨v, C, l⟩)
    (hs : Sizes total hidden lay) (hslots : payload.outerSlots = lay.outerSlots)
    (hrun : Relation.ReflTransGen VolumeStep (v, C) (v', C')) :
    Client.Inv lay k payload ⟨v', C', l⟩ ∧ FrontOf f₀ v'.mounted.world := by
  generalize hend : (v', C') = y at hrun
  induction hrun generalizing v' C' with
  | refl =>
    cases hend
    exact ⟨hinv, h⟩
  | @tail x _ _ hstep ih =>
    obtain ⟨u, D⟩ := x
    cases hend
    obtain ⟨hinv', h'⟩ := ih rfl
    exact ⟨hinv'.step hs hslots hstep.client, h'.step hinv' hstep⟩

end Steps

section Created

variable {outerPassword : List UInt8} {totalSizeBytes : UInt64} {cipher : CipherAlgorithm}
  {kdfProfile : String} {label : Option String} {hidden : Option HiddenVolumeOptions}
  {w w' x : World} {m : VnmContainer} {b : Blocks} {f : ByteFile} {v v' : MountedVolume P}
  {C : Contents} {m' : Mounted}

/-- A password recovers the key as long as its slot has not changed. -/
theorem Created.recovers_front
    (h : Created P outerPassword totalSizeBytes cipher kdfProfile label hidden w m w' b)
    (hpw : outerPassword ≠ [])
    (honly : OnlyTriple P outerPassword ((Created.image b w').slice (pwSlotOffset 0) pwSlotSize))
    (hf : x.file = some f) (hg : Granted P b.lay m.kMaster
      (newPayload b cipher w outerPassword kdfProfile label) (.created outerPassword) f)
    (hfront : FrontOf (Created.image b w') x) : Recovers P m.kMaster x (.password outerPassword) := by
  have hlist : (AccessList.created outerPassword).passwords = [outerPassword] := by
    unfold AccessList.created
    cases outerPassword with
    | nil => exact absurd rfl hpw
    | cons _ _ => rfl
  have hone : (AccessList.created outerPassword).passwords[0]? = some outerPassword := by
    rw [hlist]
    rfl
  obtain ⟨g, hg', -, hagree⟩ := hfront
  cases hf.symm.trans hg'
  have hslot : f.slice (pwSlotOffset 0) pwSlotSize =
      (Created.image b w').slice (pwSlotOffset 0) pwSlotSize :=
    ByteFile.slice_eq_iff.mpr fun i _ hi =>
      hagree i (Nat.zero_le i) (hi.trans (show pwSlotOffset 0 + pwSlotSize < 0 + dataAreaOffset by decide))
  refine ⟨f, .triple, hf, ?_⟩
  rw [hg.recoverMaster_password h.sizes hf (by rw [hlist]; exact Nat.succ_pos _), hlist]
  change List.findSome? _ [0] = _
  rw [List.findSome?_cons, tryPasswordSlot_eq (hg.pwSlot 0 _ hone) (hslot ▸ honly)]

/-- A volume that `open` has handed out of the new file is as good as the one of `create`. -/
theorem NewVolume.inv (hnew : NewVolume P m w' v)
    (h : Created P outerPassword totalSizeBytes cipher kdfProfile label hidden w m w' b)
    (hid : m.containerId ≠ zeroId) (honly : OneHeader P m w') :
    Client.Inv b.lay m.kMaster (newPayload b cipher w outerPassword kdfProfile label)
      ⟨v, newContents, .created outerPassword⟩ := by
  have hinv := h.clientInv hid honly
  cases hnew with
  | created hv =>
    obtain rfl : v = h.volume := Subtype.ext hv
    exact hinv
  | @opened credential c hfinds hopen hv =>
    have hon := h.on hid honly
    rw [h.kMaster] at hfinds
    obtain ⟨store, hload, -, rfl⟩ :=
      (openContainer_eq_ok (H := h.outerHeader hid honly) hon.heads hfinds).mp hopen
    obtain ⟨store', hload', -, hfree, hshape⟩ := h.load (v := w') h.file_eq (Nat.le_refl _) rfl
      (show (newPayload b cipher w outerPassword kdfProfile label).cipher = _ from rfl)
      (show drawnContainerId w b.lay ≠ zeroId from h.containerId_eq ▸ hid)
    cases hload.symm.trans hload'
    have hstore : v.store = store := by rw [MountedVolume.store, hv]; rfl
    have hfile : v.mounted.world.file = some (Created.image b w') := by rw [hv]; exact h.file_eq
    have hold : h.volume.store.free = (List.range' 2 (b.lay.outerSlots.toNat - 2)).reverse := by
      rw [← h.free_eq]
      change m.store.free = _
      rw [h.store]
      rfl
    have hsame : v.store.free = h.volume.store.free := by rw [hstore, hfree, hold]
    have hblank : SameShape (h.outerHeader hid honly).blank v.store := by rw [hstore]; exact hshape
    refine ⟨⟨h.outerHeader hid honly, ⟨⟨_, hfile, h.slice_header, ?_⟩, hblank, ?_⟩, h.kMaster.symm,
      counted_newPayload.symm⟩, ⟨_, hfile, h.kMaster ▸ h.granted⟩, ?_, ?_, ?_, ?_⟩
    · obtain ⟨g, hg, -, hroom⟩ := hon.heads
      cases h.file_eq.symm.trans hg
      exact hroom
    · rw [hv]
      rfl
    · rw [hv]
      exact h.kMaster.symm
    · rw [hv]
      rfl
    · refine hinv.holds.reopened (MountedVolume.reopens_of_slices h.file_eq hfile rfl
        (hon.shape.symm.trans hblank) (.of_eq hsame) fun _ _ _ _ => rfl) ?_
      change v.store.free.SortedGT
      rw [hsame]
      exact h.sortedGT_free
    · rw [Mounted.openStore, hv]
      exact rootCurrent_of_load rfl hload

/-- Every round hands back what was put into the volume, if the container id is not zero. -/
theorem flush_rounds_persist
    (hcreate : (create P outerPassword totalSizeBytes cipher kdfProfile label hidden).run w = .ok m w')
    (hid : m.containerId ≠ zeroId) (hlabel : LabelShort label) (hf : w'.file = some f)
    (hdistinct : CiphersDistinct P f outerPassword m.kMaster cipher) (hnew : NewVolume P m w' v)
    (hrun : Relation.ReflTransGen VolumeStep (v, newContents) (v', C))
    (hflush : (flush P).run v'.mounted = .ok () m') :
    (outerPassword ≠ [] → Recovers P m.kMaster m'.world (.password outerPassword)) ∧
      ∀ credential, Recovers P m.kMaster m'.world credential →
        ∃ c, openContainer P m'.world credential = .ok c ∧
          HandedBack P m C m'.container.store m'.world c := by
  obtain ⟨b, h⟩ := create_ok hcreate
  cases hf.symm.trans h.file_eq
  have hcipher : m.cipher = cipher := by rw [h.parts.container]
  have honly : OneHeader P m w' := fun g hg => by
    cases hf.symm.trans hg
    rw [hcipher]
    exact hdistinct.header
  have hfront : FrontOf (Created.image b w') v.mounted.world := by
    have hw : v.mounted.world = w' := by
      cases hnew with
      | created hv => rw [hv]
      | opened _ _ hv => rw [hv]
    rw [hw]
    refine ⟨_, h.file_eq, ?_, fun _ _ _ => rfl⟩
    have hinside := h.sizes.inside h.alloc.has
    rw [← h.size] at hinside
    exact (Nat.le_add_right _ _).trans hinside
  obtain ⟨hinv, hfront'⟩ := volume_run hfront (hnew.inv h hid honly) h.sizes rfl hrun
  have hsaved := h.saved hinv hflush
  refine ⟨fun hpw => ?_, fun credential hfinds => ?_⟩
  · obtain ⟨H, st, hv, hkey, hpayload, hst, -⟩ := hsaved.volume
    obtain ⟨g, hg, hgranted⟩ := Client.granted_saved hinv h.sizes rfl hpayload hst
    exact h.recovers_front hpw hdistinct.slot hg hgranted (hfront'.saved hst)
  · obtain ⟨c, hopen, hpersisted⟩ := hsaved.copy_opens hsaved.self hfinds fun _ _ => rfl
    have hc := hpersisted.container
    refine ⟨c, hopen, ?_, ?_, ?_, hpersisted.free, hpersisted.generation, hpersisted.nodes⟩
    · rw [hc]
    · rw [hc]
    · have hm : m.label = label := by rw [h.parts.container]
      rw [hc, hm]
      exact keptLabel_short hlabel

/-- A note is written, the file is opened again, the note is changed, and the change comes back. -/
theorem flush_rounds_persist_million : ∃ (m : VnmContainer) (w' : World) (v v' : MountedVolume plain)
    (C : Contents) (m' : Mounted) (slot : Nat) (c : VnmContainer),
    (create plain [1] 1000000 .xchacha20Poly1305 "interactive" (some "vault") none).run (freePath 7) =
      .ok m w' ∧ v.mounted = { container := m, world := w' } ∧
      Relation.ReflTransGen VolumeStep (v, newContents) (v', C) ∧
      (flush plain).run v'.mounted = .ok () m' ∧ m'.container.store.generation = 3 ∧
      openContainer plain m'.world (.password [1]) = .ok c ∧ c.store.generation = 3 ∧
      readNode plain slot { container := c, world := m'.world } = .ok (note [4, 5]) := by
  obtain ⟨m, w', b, h, slot, v, v₂, hcreate, hwrite, hre, hgeneration, -⟩ := reopened_million
  have hid := created_million_id h
  obtain ⟨hthirty, -⟩ := free_million h
  have hrun₂ : Relation.ReflTransGen VolumeStep (h.volume, newContents)
      (v₂, Function.update newContents slot (some (note [1, 2, 3]))) :=
    (Relation.ReflTransGen.single (.called (.wrote hwrite))).tail (.remounted hre)
  have hinv₂ : Client.Inv b.lay m.kMaster _ ⟨v₂, _, .created [1]⟩ :=
    (h.clientInv hid h.oneHeader_plain).run h.sizes rfl
      ((Relation.ReflTransGen.single (.called (.wrote hwrite))).tail (.remounted hre))
  obtain ⟨v₃, hupdate⟩ := hinv₂.update_isOk (show Fits .xchacha20Poly1305 (note [4, 5]) by decide) slot
  have hcall := NodeCall.updated (C := Function.update newContents slot (some (note [1, 2, 3])))
    (by rw [Function.update_self]; exact Option.some_ne_none _) hupdate
  have hinv₃ : Client.Inv b.lay m.kMaster _ ⟨v₃, _, .created [1]⟩ := hinv₂.called h.sizes rfl hcall
  obtain ⟨u, hflush⟩ := hinv₃.flush_isOk (show AllocFits .xchacha20Poly1305 b.lay.outerSlots.toNat by
    rw [hthirty]; decide)
  obtain ⟨hfinds, hopens⟩ := flush_rounds_persist hcreate hid label_vault.short h.file_eq
    (h.distinct_plain (by simp) seven_unmarked) (.created rfl) (hrun₂.tail (.called hcall)) hflush
  obtain ⟨c, hopen, hback⟩ := hopens (.password [1]) (hfinds (by simp))
  have hsaved : u.store.generation = 3 := by
    obtain ⟨H, hv, -, -⟩ := hinv₃.header
    obtain ⟨-, -, hnext, -⟩ := flush_generation hflush hv.hasGeneration
    obtain ⟨-, -, -, -, ⟨st, hcontainer, -, hsame⟩, -⟩ := Client.slotWritten hinv₂.holds hcall
    refine hnext.trans ?_
    rw [hcontainer, hsame, hgeneration]
    decide
  exact ⟨m, w', h.volume, v₃, _, u.mounted, slot, c, hcreate, rfl, hrun₂.tail (.called hcall), hflush,
    hsaved, hopen, hback.generation.trans hsaved, hback.nodes slot _ (Function.update_self _ _ _)⟩

/-- The container of a zero id comes back with generation 0 after it has been flushed with another. -/
theorem flush_rounds_zero_id : ¬ ∀ (P : Primitives) (outerPassword : List UInt8) (totalSizeBytes : UInt64)
    (cipher : CipherAlgorithm) (kdfProfile : String) (label : Option String)
    (hidden : Option HiddenVolumeOptions) (w w' : World) (m : VnmContainer) (f : ByteFile)
    (v v' : MountedVolume P) (C : Contents) (m' : Mounted),
    (create P outerPassword totalSizeBytes cipher kdfProfile label hidden).run w = .ok m w' →
    LabelShort label → w'.file = some f → CiphersDistinct P f outerPassword m.kMaster cipher →
    NewVolume P m w' v → Relation.ReflTransGen VolumeStep (v, newContents) (v', C) →
    (flush P).run v'.mounted = .ok () m' → ∀ credential, Recovers P m.kMaster m'.world credential →
      ∃ c, openContainer P m'.world credential = .ok c ∧
        HandedBack P m C m'.container.store m'.world c := by
  intro hall
  obtain ⟨m, w', hcreate⟩ := create_million_isOk 0
  obtain ⟨b, h⟩ := create_ok hcreate
  have hmarks : ∀ c, (0 : UInt8) ≠ plainMark c := fun c => by cases c <;> decide
  have hmillion : layout 1000000 none = .ok ⟨30, 0, 512, 999928⟩ := rfl
  have hlay : b.lay = ⟨30, 0, 512, 999928⟩ := Except.ok.inj (h.layout.symm.trans hmillion)
  have hgen : m.store.hasGeneration = true := by
    rw [h.store]
    rfl
  have hfits : AllocFits .xchacha20Poly1305 b.lay.outerSlots.toNat := by rw [hlay]; decide
  obtain ⟨m', hflush⟩ := h.outerInv.flush_isOk h.sizes hgen hfits
  -- the flush writes the allocation slot, so the password still finds the header
  obtain ⟨m₁, hslots, -, hfile, -⟩ := flush_ok hflush
  obtain ⟨st, bitmap, bytes, s, hrooted, -, hwritten, rfl⟩ := flushSlots_ok hslots
  have halloc : st.allocSlot = outerAllocSlot := hrooted.sameShape.1.allocSlot.trans h.slots.2.2
  have hwrote := hwritten.wrote
  rw [halloc] at hwrote
  obtain ⟨g, hg, hgranted⟩ := Client.granted_wrote h.granted h.sizes h.file_eq h.alloc.has hwritten.length
    hwrote
  obtain ⟨⟨c, hmaster⟩, hheader⟩ := h.found_plain (by simp) hmarks (x := m'.world) (hfile.trans hg) hgranted
  have hdistinct := h.distinct_plain (by simp) hmarks
  have hshort := label_vault.short
  obtain ⟨c', hopen, hback⟩ := hall plain _ _ _ _ _ _ _ w' m _ h.volume h.volume newContents m' hcreate
    hshort h.file_eq hdistinct (.created rfl) .refl hflush (.password [1])
    ⟨g, c, hfile.trans hg, h.kMaster ▸ hmaster⟩
  rw [openContainer_outer (hfile.trans hg) (findOuter_eq_some.mpr ⟨⟨c, hmaster⟩, hheader⟩)] at hopen
  have hzero : c'.store.generation = 0 :=
    generation_of_zeroId hopen (List.Vector.toList_injective (drawn_freePath 0 _ 16))
  obtain ⟨-, -, hnext, -⟩ := flush_generation hflush hgen
  have hsaved := hback.generation
  have hone : (OuterSession.created m w').mounted.container.store.generation = 1 := h.generation
  rw [hzero, hnext, hone] at hsaved
  exact absurd hsaved (by decide)

end Created

end Venom.Fs
