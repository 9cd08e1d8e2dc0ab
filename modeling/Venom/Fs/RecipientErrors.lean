import Venom.Fs.RecipientRemoval

/-! # Recipient calls that fail

A call that ends in an error after it has written its slots leaves them behind.  That is
harmless when `open` does not look at them, and locks somebody out when it does.
-/

namespace Venom.Fs

open Venom.Container
open Venom.Crypto
open Venom.Storage
open Venom.Storage.SlotStore
open Venom.Library
open Venom.Library.Words
open Venom.Library.StateError

variable {P : Primitives}

/-! ## Files that open the same -/

/-- Two files of a container that agree in all that `open` looks at. -/
structure OpensAlike (lay : Layout) (f g : ByteFile) : Prop where
  area : StaysInArea lay f g
  primary : g.slice 0 512 = f.slice 0 512
  hiddenBackup : g.slice 512 512 = f.slice 512 512
  last : g.slice (f.size - 512) 512 = f.slice (f.size - 512) 512
  lastButOne : g.slice (f.size - 1024) 512 = f.slice (f.size - 1024) 512
  pwSlots : ∀ i < (countsOf f).1, g.slice (pwSlotOffset i) pwSlotSize = f.slice (pwSlotOffset i) pwSlotSize
  keySlots : ∀ j < (countsOf f).2, keySlotBytes g j = keySlotBytes f j

theorem findSome?_congr {α β : Type} {g g' : α → Option β} {l : List α} (h : ∀ a ∈ l, g a = g' a) :
    l.findSome? g = l.findSome? g' := by
  induction l with
  | nil => rfl
  | cons a l ih =>
    rw [List.findSome?_cons, List.findSome?_cons, h a (.head _), ih fun b hb => h b (.tail _ hb)]

section Alike

variable {total : UInt64} {hidden : Option UInt64} {lay : Layout} {w v : World} {f g : ByteFile}

theorem OpensAlike.refl (lay : Layout) (f : ByteFile) : OpensAlike lay f f :=
  ⟨.refl lay f, rfl, rfl, rfl, rfl, fun _ _ => rfl, fun _ _ => rfl⟩

namespace OpensAlike

theorem countsOf_eq (h : OpensAlike lay f g) : countsOf g = countsOf f := by
  rw [countsOf, countsOf, tailCounts, tailCounts, h.area.size, h.primary, h.last, h.lastButOne]

theorem recoverMaster_eq' (h : OpensAlike lay f g) (hlay : layout total hidden = .ok lay)
    (hsize : f.size = lay.fileSize.toNat) (hf : w.file = some f) (hv : v.file = some g)
    (credential : OpenCredential) :
    recoverMaster P v g.size credential = recoverMaster P w f.size credential := by
  rw [recoverMaster_eq hlay hsize hf, recoverMaster_eq hlay (h.area.size.trans hsize) hv, h.countsOf_eq]
  refine findSome?_congr fun j hj => ?_
  have hlt := (List.mem_range'_1.mp hj).2
  rw [Nat.zero_add] at hlt
  cases credential with
  | password p => exact congrArg (fun slot => tryPasswordSlot P slot p) (h.pwSlots j hlt)
  | privateKey sk => exact congrArg (fun slot => tryKeySlot P slot sk) (h.keySlots j hlt)

theorem findOuter_eq (h : OpensAlike lay f g) (hlay : layout total hidden = .ok lay)
    (hsize : f.size = lay.fileSize.toNat) (hf : w.file = some f) (hv : v.file = some g)
    (credential : OpenCredential) : findOuter P v g.size credential = findOuter P w f.size credential := by
  have hlarge := large_of_layout hlay hsize
  have hheader : ∀ k, findOuterHeader P v g.size k = findOuterHeader P w f.size k := by
    intro k
    rw [findOuterHeader_eq hf (by omega), findOuterHeader_eq hv (by rw [h.area.size]; omega),
      h.area.size, h.primary, h.last, h.lastButOne]
  unfold findOuter
  rw [h.recoverMaster_eq' hlay hsize hf hv]
  simp only [hheader]

theorem findHidden_eq (h : OpensAlike lay f g) (hlay : layout total hidden = .ok lay)
    (hsize : f.size = lay.fileSize.toNat) (hf : w.file = some f) (hv : v.file = some g)
    (password : List UInt8) : findHidden P v g.size password = findHidden P w f.size password := by
  have hlarge := large_of_layout hlay hsize
  have hlast : read512At v (f.size - 512) = read512At w (f.size - 512) := by
    rw [read512At_eq hf (by omega), read512At_eq hv (by rw [h.area.size]; omega), h.last]
  have hbackup : read512At v 512 = read512At w 512 := by
    rw [read512At_eq hf (by omega), read512At_eq hv (by rw [h.area.size]; omega), h.hiddenBackup]
  unfold findHidden tryHiddenAt
  rw [h.area.size, hlast, hbackup]

/-- Every credential opens what it opened. -/
theorem openContainer_eq (h : OpensAlike lay f g) (hlay : layout total hidden = .ok lay)
    (hsize : f.size = lay.fileSize.toNat) (hf : w.file = some f) (hv : v.file = some g)
    (hrollback : v.rollback = w.rollback) (credential : OpenCredential) :
    openContainer P v credential = openContainer P w credential := by
  have hreads := h.area.reads (layout_sizes hlay) hsize hf hv
  cases hfound : findOuter P w f.size credential with
  | some found =>
    rw [openContainer_outer hf hfound, openContainer_outer hv
      ((h.findOuter_eq hlay hsize hf hv credential).trans hfound)]
    exact openVolume_congr hreads hrollback _ _ _ _ _ _ _
  | none =>
    have hfound' := (h.findOuter_eq (P := P) hlay hsize hf hv credential).trans hfound
    cases credential with
    | privateKey sk => rw [openContainer_privateKey hf hfound, openContainer_privateKey hv hfound']
    | password p =>
      cases hhidden : findHidden P w f.size p with
      | none =>
        rw [openContainer_password_none hf hfound hhidden, openContainer_password_none hv hfound'
          ((h.findHidden_eq hlay hsize hf hv p).trans hhidden)]
      | some found =>
        rw [openContainer_hidden hf hfound hhidden, openContainer_hidden hv hfound'
          ((h.findHidden_eq hlay hsize hf hv p).trans hhidden)]
        exact openVolume_congr hreads hrollback _ _ _ _ _ _ _

end OpensAlike

/-- Writes to the recipient area that spare the slots in force. -/
theorem OpensAlike.of_writes (hlay : layout total hidden = .ok lay) (hsize : f.size = lay.fileSize.toNat)
    {ws : List ByteFile.Write}
    (hws : ∀ x ∈ ws, headerRegionSize ≤ x.off ∧ x.off + x.data.length ≤ dataAreaOffset)
    (hpw : ∀ x ∈ ws, ∀ i < (countsOf f).1,
      pwSlotOffset i + pwSlotSize ≤ x.off ∨ x.off + x.data.length ≤ pwSlotOffset i)
    (hkey : ∀ x ∈ ws, ∀ j < (countsOf f).2,
      keySlotOffset j + keySlotSize ≤ x.off ∨ x.off + x.data.length ≤ keySlotOffset j) :
    OpensAlike lay f (f.replay ws) := by
  have hs := layout_sizes hlay
  have hlarge := large_of_layout hlay hsize
  have hback := backup_inside hs
  have hge := backup_ge hlay
  have hregion : headerRegionSize = 1024 := rfl
  have hcounts := countsOf_lt f
  rw [dataAreaOffset_eq, slotSize_eq] at hge
  -- the headers lie in front of the recipient area and behind it
  have hbeside : ∀ off, off + 512 ≤ 1024 ∨ dataAreaOffset ≤ off → off + 512 ≤ f.size →
      (f.replay ws).slice off 512 = f.slice off 512 := by
    intro off hoff hle
    refine (ByteFile.agreeOn_replay hle fun x hx => ?_).slice_eq
    have := hws x hx
    rcases hoff with hoff | hoff
    · exact .inl (by omega)
    · exact .inr (by omega)
  rw [dataAreaOffset_eq] at hbeside
  refine ⟨.of_writes hs hsize (isAreaWrite_slots hlay hws), hbeside 0 (.inl (by omega)) (by omega),
    hbeside 512 (.inl (by omega)) (by omega), hbeside _ (.inr (by omega)) (by omega),
    hbeside _ (.inr (by omega)) (by omega), fun i hi => ?_, fun j hj => ?_⟩
  · exact (ByteFile.agreeOn_replay (slotIn_inside hlay hsize (by omega)).1
      fun x hx => hpw x hx i hi).slice_eq
  · exact (ByteFile.agreeOn_replay (slotIn_inside hlay hsize (by omega)).2
      fun x hx => hkey x hx j hj).slice_eq

end Alike

/-! ## Calls that fail -/

/-- A call puts something where `open` looks: a removal always, a new slot if its place is among
    those in force. -/
def RecipientCall.Overwrites (f : ByteFile) : RecipientCall → Prop
  | .addPassword _ => (primaryPwCount f).toNat < (countsOf f).1
  | .addKey _ => (primaryKeyCount f).toNat < (countsOf f).2 ∨ maxPasswordSlots < (countsOf f).1
  | .removeKey _ => True

/-- The volume a credential opened still opens with it. -/
def StillOpens (P : Primitives) (v : World) (credential : OpenCredential) (c : VnmContainer) : Prop :=
  ∃ c', openContainer P v credential = .ok c' ∧ c'.isHidden = c.isHidden ∧ c'.kMaster = c.kMaster

/-- A call that fails locks nobody out. -/
def LocksNobodyOut (P : Primitives) (m : Mounted) (c : RecipientCall) : Prop :=
  ∀ e m', (c.run P).run m = .error e m' → ∀ credential opened,
    openContainer P m.world credential = .ok opened → StillOpens P m'.world credential opened

section Errors

variable {total : UInt64} {hidden : Option UInt64} {lay : Layout} {m : Mounted} {f : ByteFile}
  {c : RecipientCall} {ws : List ByteFile.Write} {nPw nKey : UInt8}

/-- A slot that is not in force. -/
theorem SlotWrites.alike (h : SlotWrites P m f c ws nPw nKey) (hlay : layout total hidden = .ok lay)
    (hsize : f.size = lay.fileSize.toNat) (hno : ¬ c.Overwrites f) : OpensAlike lay f (f.replay ws) := by
  have hpwSize : pwSlotSize = 176 := rfl
  have hkeySize : keySlotSize = 1743 := rfl
  cases h with
  | addPassword hfree hslot =>
    have hlen : _ = 176 := hslot.1
    have hmax : maxPasswordSlots = 8 := rfl
    have hcount : (countsOf f).1 ≤ (primaryPwCount f).toNat := Nat.le_of_not_lt hno
    refine .of_writes hlay hsize (SlotWrites.within (.addPassword hfree hslot) id) ?_ ?_
    · intro x hx i hi
      rw [List.mem_singleton.mp hx, pwSlotOffset_eq, pwSlotOffset_eq]
      refine .inl ?_
      dsimp only
      omega
    · intro x hx j _
      rw [List.mem_singleton.mp hx, pwSlotOffset_eq, keySlotOffset_eq]
      refine .inr ?_
      dsimp only
      omega
  | addKey hfree hslot =>
    have hlen : _ = 1743 := hslot.1
    have hmax : maxPasswordSlots = 8 := rfl
    rw [RecipientCall.Overwrites, not_or] at hno
    refine .of_writes hlay hsize (SlotWrites.within (.addKey hfree hslot) id) ?_ ?_
    · intro x hx i hi
      rw [List.mem_singleton.mp hx, pwSlotOffset_eq, keySlotOffset_eq]
      refine .inl ?_
      dsimp only
      omega
    · intro x hx j hj
      rw [List.mem_singleton.mp hx, keySlotOffset_eq, keySlotOffset_eq]
      refine .inl ?_
      dsimp only
      omega
  | removeKey _ _ => exact absurd trivial hno

/-- A failing call locks nobody out when the primary header decodes under the handle's key, or
    when what it writes is not looked at. -/
theorem locksNobodyOut (hlay : layout total hidden = .ok lay) (hf : m.world.file = some f)
    (hsize : f.size = lay.fileSize.toNat)
    (hsafe : PrimaryDecodes P m f ∨ ¬ c.Proceeds P m f ∨ ¬ c.Overwrites f) : LocksNobodyOut P m c := by
  intro e m' hrun credential opened hopen
  have houtcome := @RecipientCall.outcome P m f c hf
  rw [hrun] at houtcome
  refine ⟨opened, ?_, rfl, rfl⟩
  rw [← hopen]
  cases houtcome with
  | refused huntouched _ =>
    exact (OpensAlike.refl lay f).openContainer_eq hlay hsize hf (huntouched.drew.file.trans hf)
      huntouched.drew.rollback credential
  | rejected hcall hslots hissued hdecode =>
    have hno : ¬ c.Overwrites f := by
      rcases hsafe with hdecodes | hrefused | hno
      · exact absurd hdecodes hdecode
      · exact absurd hcall hrefused
      · exact hno
    exact (hslots.alike hlay hsize hno).openContainer_eq hlay hsize hf (hissued.file_eq hf)
      hissued.rollback credential

/-- Who opens the container with one of the key slots counted, and with no other one. -/
structure HoldsOnly (P : Primitives) (f : ByteFile) (slotIndex : Nat) (random : List UInt8)
    (sk : HybridPrivateKey) : Prop where
  others : ∀ j < (primaryKeyCount f).toNat, j ≠ slotIndex → tryKeySlot P (keySlotBytes f j) sk = none
  wiped : tryKeySlot P random sk = none

/-- A removal under a header that does not decode fails, and locks the removed recipient out. -/
theorem removal_locks_out {slotIndex : Nat} {sk : HybridPrivateKey} (hlay : layout total hidden = .ok lay)
    (hf : m.world.file = some f) (hsize : f.size = lay.fileSize.toNat)
    (hplaces : (primaryKeyCount f).toNat ≤ maxKeySlots) (hdecode : ¬ PrimaryDecodes P m f)
    (hcall : (RecipientCall.removeKey slotIndex).Proceeds P m f)
    (hholds : HoldsOnly P f slotIndex (m.world.drawn keySlotSize).toList sk) :
    ∃ e m', ((RecipientCall.removeKey slotIndex).run P).run m = .error e m' ∧
      openContainer P m'.world (.privateKey sk) = .error .authenticationFailed := by
  have hs := layout_sizes hlay
  have houtcome := @RecipientCall.outcome P m f (.removeKey slotIndex) hf
  cases hrun : ((RecipientCall.removeKey slotIndex).run P).run m with
  | ok u m' =>
    rw [hrun] at houtcome
    cases houtcome with
    | finished _ _ hheader _ _ => exact absurd ⟨_, hheader⟩ hdecode
  | error e m' =>
    rw [hrun] at houtcome
    cases houtcome with
    | refused _ hrefused => exact absurd hcall hrefused
    | rejected _ hslots hissued _ =>
      cases hslots with
      | removeKey hrange _ =>
        refine ⟨e, _, rfl, ?_⟩
        have hlength := @length_slotsAfterRemoval m.world f slotIndex hrange
        have hr : Rewrites lay (keyParts (slotsAfterRemoval m.world f slotIndex))
            (keyWrites (slotsAfterRemoval m.world f slotIndex)) :=
          keySlots_rewrites (fun _ hmem => length_of_mem_slotsAfterRemoval hmem) (by omega)
        have hgsize := hr.size hs hsize
        have hprimary := hr.slice_other (f := f) (p := .outerHeader) hs hsize trivial fun hmem => by
          obtain ⟨j, he⟩ := mem_keyParts hmem
          cases he
        have hregion : lay.region .outerHeader = ⟨0, 512⟩ := rfl
        rw [hregion] at hprimary
        dsimp only at hprimary
        rw [← List.append_nil (keyParts _), ← List.append_nil (keyWrites _)] at hr
        have hslot := fun j (hj : j < maxKeySlots) => keySlot_replay hs hsize hr (by simp) hj
        rw [List.append_nil] at hslot
        -- the counts in force are still those of the primary header
        have hcounts : (countsOf (f.replay (keyWrites (slotsAfterRemoval m.world f slotIndex)))).2 =
            (primaryKeyCount f).toNat := by
          obtain ⟨kdf, nPw, nKey, hplain, -, hkey⟩ := primaryCounts_eq f
          rw [countsOf, hprimary, namedCounts, hplain]
          dsimp only
          rw [if_neg, Option.getD_some, hkey]
          rintro ⟨-, hzero⟩
          rw [hkey, hzero] at hrange
          exact absurd hrange (Nat.not_lt_zero _)
        refine openContainer_privateKey (hissued.file_eq hf) (findOuter_none_of_master ?_)
        rw [recoverMaster_eq hlay hgsize (hissued.file_eq hf), List.findSome?_eq_none_iff]
        intro j hj
        have hj' : j < 0 + (countsOf (f.replay (keyWrites (slotsAfterRemoval m.world f slotIndex)))).2 :=
          (List.mem_range'_1.mp hj).2
        rw [hcounts, Nat.zero_add] at hj'
        change tryKeySlot P (keySlotBytes _ j) sk = none
        rw [hslot j (by omega)]
        by_cases hlast : j < (primaryKeyCount f).toNat - 1
        · rw [getElem?_slotsAfterRemoval hrange hlast, Option.getD_some]
          refine hholds.others _ ?_ ?_
          · unfold movedFrom
            split <;> omega
          · unfold movedFrom
            split <;> omega
        · rw [show j = (primaryKeyCount f).toNat - 1 by omega, getElem?_slotsAfterRemoval_last hrange,
            Option.getD_some]
          exact hholds.wiped

/-- When a failing recipient call locks nobody out: if the primary header decodes under the
    handle's key, if the call is refused before it writes, or if `open` does not look at what it
    writes.  A removal that is none of these does lock its recipient out. -/
theorem failed_call_locks_nobody_out (hlay : layout total hidden = .ok lay)
    (hf : m.world.file = some f) (hsize : f.size = lay.fileSize.toNat) :
    (PrimaryDecodes P m f ∨ ¬ c.Proceeds P m f ∨ ¬ c.Overwrites f → LocksNobodyOut P m c) ∧
      ∀ slotIndex sk opened, c = .removeKey slotIndex → (primaryKeyCount f).toNat ≤ maxKeySlots →
        openContainer P m.world (.privateKey sk) = .ok opened →
        HoldsOnly P f slotIndex (m.world.drawn keySlotSize).toList sk →
        (LocksNobodyOut P m c ↔
          PrimaryDecodes P m f ∨ ¬ c.Proceeds P m f ∨ ¬ c.Overwrites f) := by
  refine ⟨locksNobodyOut hlay hf hsize, fun slotIndex sk opened hc hplaces hopen hholds =>
    ⟨fun hnobody => ?_, locksNobodyOut hlay hf hsize⟩⟩
  by_contra hbad
  rw [not_or, not_or] at hbad
  obtain ⟨hdecode, hcall, -⟩ := hbad
  subst hc
  obtain ⟨e, m', hrun, hrefused⟩ := removal_locks_out hlay hf hsize hplaces hdecode
    (not_not.mp hcall) hholds
  obtain ⟨c', hopen', -⟩ := hnobody e m' hrun _ opened hopen
  rw [hrefused] at hopen'
  cases hopen'

end Errors

/-! ## A new container -/

section Example

/-- No call on the handle of a new container locks anybody out by failing. -/
theorem failed_call_locks_nobody_out_new : ∃ m w',
    (create plain [1] 1000000 .xchacha20Poly1305 "interactive" (some "vault") none).run (freePath 7) =
      .ok m w' ∧ ∀ c, LocksNobodyOut plain ⟨m, w'⟩ c := by
  obtain ⟨m, w', hcreate⟩ := create_million_isOk 7
  obtain ⟨b, h⟩ := create_ok hcreate
  have hdecode := h.isHeader.decode
  rw [← show (Created.image b w').slice 0 512 = b.hdr from h.slice_header] at hdecode
  have hkey : m.kMaster = drawnKey (freePath 7) b.lay := by rw [h.parts.container]
  have hcipher : m.cipher = .xchacha20Poly1305 := by rw [h.parts.container]
  rw [← hkey] at hdecode
  refine ⟨m, w', hcreate, fun c =>
    (failed_call_locks_nobody_out (m := ⟨m, w'⟩) h.layout h.file_eq h.size).1 (.inl
      ⟨newPayload b .xchacha20Poly1305 (freePath 7) [1] "interactive" (some "vault"), ?_⟩)⟩
  change decodeHeader plain _ m.kMaster m.cipher false = _
  rw [hcipher]
  exact hdecode

/-- A header of zeros, as a damaged primary header. -/
def zeroedHeader : List UInt8 := List.replicate 512 0

theorem zeroedHeader_plaintext : readHeaderPlaintext zeroedHeader = (0, 0, 0) := by decide

variable {m : VnmContainer} {w' : World} {b : Blocks}

theorem countsOf_zeroed {f : ByteFile} (hsize : 1536 ≤ f.size) :
    countsOf (f.write 0 zeroedHeader) = tailCounts f := by
  have hraw : zeroedHeader.length = 512 := List.length_replicate ..
  have hnamed : namedCounts zeroedHeader = none := by
    rw [namedCounts, zeroedHeader_plaintext]
    rfl
  rw [countsOf, slice_damaged hraw, hnamed, Option.getD_none, tailCounts_damaged hraw hsize]

/-- The new container with zeros for its primary header: the counts come from the backup, and
    so does the header. -/
theorem opens_through_backup
    (h : Created plain [1] 1000000 .xchacha20Poly1305 "interactive" (some "vault") none (freePath 7) m
      w' b) :
    tailCounts (Created.image b w') = (1, 0) ∧
      ∃ c, openContainer plain (w'.write 0 zeroedHeader (Created.image b w')) (.password [1]) = .ok c ∧
        c.isHidden = false ∧ c.kMaster = drawnKey (freePath 7) b.lay := by
  have hraw : zeroedHeader.length = 512 := List.length_replicate ..
  have hlarge := h.size_ge'
  have hbytes : (drawnKey (freePath 7) b.lay).toList = List.replicate 32 7 := drawn_freePath 7 _ 32
  have hmarks : ∀ c, (7 : UInt8) ≠ plainMark c := fun c => by cases c <;> decide
  obtain ⟨f', hm⟩ := run_managed h.granted h.sizes
    (show ({ container := m, world := w' } : Mounted).world.file = _ from h.file_eq)
    (by rw [h.parts.container]) (by rw [h.parts.container]; rfl)
    (show (List.forM [] (RecipientCall.run plain)).run _ = _ from rfl)
  cases h.file_eq.symm.trans hm.file
  have htail : tailCounts (Created.image b w') = (1, 0) := h.tailCounts_outer hm rfl (by decide)
  refine ⟨htail, ?_⟩
  have hsize := size_damaged hraw (show 512 ≤ (Created.image b w').size by omega)
  have hmaster : recoverMaster plain (w'.write 0 zeroedHeader (Created.image b w'))
      ((Created.image b w').write 0 zeroedHeader).size (.password [1]) =
        some (drawnKey (freePath 7) b.lay, .triple) := by
    rw [recoverMaster_eq h.layout (hsize.trans h.size) rfl, countsOf_zeroed hlarge, htail]
    have hslot : OpenCredential.slotIn ((Created.image b w').write 0 zeroedHeader) (.password [1]) 0 =
        b.pwSlot :=
      (slice_behind hraw (by decide) h.size_ge.2).trans (h.slice_pwSlot (by simp))
    have hopens := tryPasswordSlot_eq (h.parts.pwSlot (by simp))
      ((h.parts.pwSlot (by simp)).onlyTriple_plain hbytes hmarks)
    refine findSome?_of_unique (a := 0) (.head _) ?_ fun i hi r hr => ?_
    · rw [hslot]
      exact hopens
    · have hzero : i = 0 := Nat.lt_one_iff.mp (List.mem_range'_1.mp hi).2
      rw [hzero, hslot] at hr
      exact (Option.some.inj (hopens.symm.trans hr)).symm
  have hheader : findOuterHeader plain (w'.write 0 zeroedHeader (Created.image b w'))
      ((Created.image b w').write 0 zeroedHeader).size (drawnKey (freePath 7) b.lay) =
        some (newPayload b .xchacha20Poly1305 (freePath 7) [1] "interactive" (some "vault")) := by
    rw [findOuterHeader_eq rfl (by rw [hsize]; omega), slice_damaged hraw, hsize,
      slice_behind hraw (by omega) (by omega), hm.backup h.hasHidden]
    have hprobe := probeHeader_eq hm.granted.header (hm.granted.header.onlyCipher_plain rfl)
    rw [show probeHeader plain zeroedHeader (drawnKey (freePath 7) b.lay) false = none from
      probeHeader_zeros _, hprobe]
    exact congrArg some counted_newPayload
  have halloc : slotOffset outerAllocSlot + slotSize ≤ (Created.image b w').size := by
    rw [h.size]
    exact h.sizes.inside (p := .outerSlot outerAllocSlot) h.alloc.has
  obtain ⟨store, hstore⟩ := h.opens (v := w'.write 0 zeroedHeader (Created.image b w')) rfl
    (Nat.le_of_eq hsize.symm) (slice_behind hraw (by decide) halloc)
    (fun stored hstored => h.baseline_le_one rfl hstored)
    (show (newPayload b .xchacha20Poly1305 (freePath 7) [1] "interactive" (some "vault")).cipher = _
      from rfl) rfl rfl
  exact ⟨_, (openContainer_outer rfl (findOuter_eq_some.mpr ⟨⟨_, hmaster⟩, hheader⟩)).trans hstore,
    rfl, rfl⟩

/-- The creation password is refused when the slot in its place is that of another one. -/
theorem overwritten_refuses {total : UInt64} {hidden : Option UInt64} {lay : Layout} {k : Key}
    {f : ByteFile} {v : World} {slot : List UInt8} (hlay : layout total hidden = .ok lay)
    (hsize : f.size = lay.fileSize.toNat) (hcounts : countsOf f = (1, 0))
    (hk : k.toList = List.replicate 32 7) (hslot : IsPasswordSlot plain k [2] slot)
    (hv : v.file = some (f.write (pwSlotOffset 0) slot)) :
    recoverMaster plain v (f.write (pwSlotOffset 0) slot).size (.password [1]) = none := by
  have hlarge := large_of_layout hlay hsize
  have hlen : slot.length = 176 := hslot.1
  have hpw : pwSlotOffset 0 = 1024 := rfl
  have hsame : (f.write (pwSlotOffset 0) slot).size = f.size := by
    rw [ByteFile.size_write_of_le]
    omega
  -- the headers are where they were, so the count is still one
  have hbeside : ∀ off, off + 512 ≤ 1024 ∨ 1200 ≤ off → off + 512 ≤ f.size →
      (f.write (pwSlotOffset 0) slot).slice off 512 = f.slice off 512 := fun off hoff hle =>
    (ByteFile.agreeOn_write hle (by omega)).slice_eq
  have hback := backup_inside (layout_sizes hlay)
  have hge := backup_ge hlay
  rw [dataAreaOffset_eq, slotSize_eq] at hge
  have hcounts' : countsOf (f.write (pwSlotOffset 0) slot) = (1, 0) := by
    rw [← hcounts, countsOf, countsOf, tailCounts, tailCounts, hsame,
      hbeside 0 (.inl (by omega)) (by omega), hbeside (f.size - 512) (.inr (by omega)) (by omega),
      hbeside (f.size - 1024) (.inr (by omega)) (by omega)]
  have hself : (f.write (pwSlotOffset 0) slot).slice (pwSlotOffset 0) pwSlotSize = slot := by
    rw [← hslot.1]
    exact ByteFile.slice_write_self _ _ _
  rw [recoverMaster_eq hlay (hsame.trans hsize) hv, hcounts', List.findSome?_eq_none_iff]
  intro i hi
  have hzero : i = 0 := Nat.lt_one_iff.mp (List.mem_range'_1.mp hi).2
  rw [hzero]
  change tryPasswordSlot plain ((f.write (pwSlotOffset 0) slot).slice (pwSlotOffset 0) pwSlotSize) [1] = none
  rw [hself]
  exact hslot.rejects_plain hk (fun c => by cases c <;> decide) (by decide)

/-- A handle opened through the backup header adds a password: the call fails, its slot has
    replaced that of the first password, and nobody gets in any more. -/
theorem failed_add_locks_out : ∃ m w' f c,
    (create plain [1] 1000000 .xchacha20Poly1305 "interactive" (some "vault") none).run (freePath 7) =
      .ok m w' ∧ w'.file = some f ∧
    openContainer plain (w'.write 0 zeroedHeader f) (.password [1]) = .ok c ∧
    ¬ LocksNobodyOut plain ⟨c, w'.write 0 zeroedHeader f⟩ (.addPassword [2]) := by
  obtain ⟨m, w', hcreate⟩ := create_million_isOk 7
  obtain ⟨b, h⟩ := create_ok hcreate
  obtain ⟨htail, c, hopen, houter, hkey⟩ := opens_through_backup h
  refine ⟨m, w', Created.image b w', c, hcreate, h.file_eq, hopen, fun hnobody => ?_⟩
  have hraw : zeroedHeader.length = 512 := List.length_replicate ..
  have hlarge := h.size_ge'
  have hbytes : (drawnKey (freePath 7) b.lay).toList = List.replicate 32 7 := drawn_freePath 7 _ 32
  obtain ⟨f, hf⟩ : ∃ f, f = (Created.image b w').write 0 zeroedHeader := ⟨_, rfl⟩
  obtain ⟨v, hv⟩ : ∃ v, v = w'.write 0 zeroedHeader (Created.image b w') := ⟨_, rfl⟩
  have hfile : v.file = some f := by rw [hv, hf]; rfl
  have hprimary : f.slice 0 512 = zeroedHeader := by rw [hf, slice_damaged hraw]
  have hfsize : f.size = b.lay.fileSize.toNat := by
    rw [hf, size_damaged hraw (by omega), h.size]
  have hflarge : 512 ≤ f.size := by
    rw [hfsize, ← h.size]
    omega
  have hcounts : countsOf f = (1, 0) := by rw [hf, countsOf_zeroed hlarge, htail]
  rw [← hv] at hopen hnobody
  have hpw : primaryPwCount f = 0 := by
    rw [primaryPwCount, primaryPlaintext, hprimary, zeroedHeader_plaintext]
  have hdecode : ¬ PrimaryDecodes plain ⟨c, v⟩ f := by
    rintro ⟨header, hheader⟩
    have hnone := List.findSome?_eq_none_iff.mp (probeHeader_zeros c.kMaster) c.cipher
      (by cases c.cipher <;> decide)
    rw [hprimary] at hheader
    rw [show decodeHeader plain (List.replicate 512 0) c.kMaster c.cipher false = .ok header
      from hheader] at hnone
    cases hnone
  obtain ⟨slot₀, w₀, hencode⟩ := @encodePasswordSlot_isOk plain c.kMaster v [2] (primaryPlaintext f).1
    ((plain_hasKeys _ _).slot _)
  have hcall : (RecipientCall.addPassword [2]).Proceeds plain ⟨c, v⟩ f :=
    ⟨hflarge, by rw [hpw]; decide, slot₀, w₀, hencode⟩
  have houtcome := @RecipientCall.outcome plain ⟨c, v⟩ f (.addPassword [2]) hfile
  cases hrun : ((RecipientCall.addPassword [2]).run plain).run ⟨c, v⟩ with
  | ok u m' =>
    rw [hrun] at houtcome
    cases houtcome with
    | finished _ _ hheader _ _ => exact absurd ⟨_, hheader⟩ hdecode
  | error e m' =>
    rw [hrun] at houtcome
    cases houtcome with
    | refused _ hrefused => exact absurd hcall hrefused
    | @rejected _ ws _ _ v' _ hslots hissued _ =>
      obtain ⟨c', hopen', houter', -⟩ := hnobody e _ hrun _ c hopen
      cases hslots with
      | @addPassword _ slot _ hslot =>
        rw [hpw] at hissued
        have hfile' := hissued.file_eq hfile
        obtain ⟨header, hfind, -⟩ := openContainer_isOuter hfile' hopen' (houter'.trans houter)
        obtain ⟨⟨c₀, hmaster⟩, -⟩ := findOuter_eq_some.mp hfind
        have hnone := overwritten_refuses h.layout hfsize hcounts (by rw [hkey]; exact hbytes) hslot hfile'
        exact Option.some_ne_none _ (hmaster.symm.trans hnone)

end Example

end Venom.Fs
