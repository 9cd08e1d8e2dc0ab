import Venom.Fs.RecipientWrites
import Venom.Fs.RoundTrip

/-! # The recipient area

Which bytes of a container a recipient call may change.  New slots are bounded by the number
of places; a removal follows the count of key slots, which nothing authenticates, and the
places it counts may run into the data slots.
-/

namespace Venom.Fs

open Venom.Container
open Venom.Crypto
open Venom.Storage
open Venom.Library
open Venom.Library.Words
open Venom.Library.StateError

variable {P : Primitives}

/-! ## The area -/

/-- A byte of one of the outer header copies, or of the recipient area. -/
def Layout.InRecipientArea (lay : Layout) (i : Nat) : Prop :=
  i < headerSize ∨ (headerRegionSize ≤ i ∧ i < dataAreaOffset) ∨
    (outerBackupOffset lay.fileSize.toNat lay.hasHidden ≤ i ∧
      i < outerBackupOffset lay.fileSize.toNat lay.hasHidden + headerSize)

/-- The same handle and file with another source of random bytes. -/
def Mounted.reseeded (m : Mounted) (rng : Nat → UInt8) : Mounted :=
  { m with world := { m.world with rng } }

@[simp] theorem Mounted.rng_reseeded (m : Mounted) (rng : Nat → UInt8) :
    (m.reseeded rng).world.rng = rng := rfl

/-- No byte outside the area differs, so no data slot does. -/
structure StaysInArea (lay : Layout) (f f' : ByteFile) : Prop where
  size : f'.size = f.size
  outside : ∀ i < f.size, ¬ lay.InRecipientArea i → f'.byteAt i = f.byteAt i
  slots : ∀ s < lay.outerSlots.toNat + lay.hiddenSlots.toNat,
    f'.slice (slotOffset s) slotSize = f.slice (slotOffset s) slotSize

theorem StaysInArea.refl (lay : Layout) (f : ByteFile) : StaysInArea lay f f :=
  ⟨rfl, fun _ _ _ => rfl, fun _ _ => rfl⟩

/-- A removal in range when more key slots are counted than there are places. -/
def RecipientCall.Overflows (f : ByteFile) : RecipientCall → Prop
  | .removeKey slotIndex =>
    slotIndex < (primaryKeyCount f).toNat ∧ maxKeySlots < (primaryKeyCount f).toNat
  | .addPassword _ | .addKey _ => False

/-! ## Where the writes go -/

theorem pwSlotOffset_eq (i : Nat) : pwSlotOffset i = 1024 + i * 176 := rfl

theorem keySlotOffset_eq (j : Nat) : keySlotOffset j = 2432 + j * 1743 := by
  change 1024 + (1408 + j * 1743) = _
  omega

theorem maxKeySlots_eq : maxKeySlots = 8 := rfl

section Within

variable {m : Mounted} {f : ByteFile} {c : RecipientCall} {ws : List ByteFile.Write} {nPw nKey : UInt8}

/-- The slots a call writes lie in the recipient area, unless it overflows. -/
theorem SlotWrites.within (h : SlotWrites P m f c ws nPw nKey) (hno : ¬ c.Overflows f) :
    ∀ x ∈ ws, headerRegionSize ≤ x.off ∧ x.off + x.data.length ≤ dataAreaOffset := by
  have hregion : headerRegionSize = 1024 := rfl
  intro x hx
  cases h with
  | addPassword hfree hslot =>
    have hlen : _ = 176 := hslot.1
    have hmax : maxPasswordSlots = 8 := rfl
    rw [List.mem_singleton.mp hx, pwSlotOffset_eq, dataAreaOffset_eq]
    dsimp only
    omega
  | addKey hfree hslot =>
    have hlen : _ = 1743 := hslot.1
    rw [List.mem_singleton.mp hx, keySlotOffset_eq, dataAreaOffset_eq]
    rw [maxKeySlots_eq] at hfree
    dsimp only
    omega
  | removeKey hrange hread =>
    obtain ⟨j, hj, hoff⟩ := of_mem_keyWrites hx
    have hlen : _ = 1743 := length_of_mem_slotsAfterRemoval (List.mem_of_getElem? hj)
    have hlt := (List.getElem?_eq_some_iff.mp hj).1
    rw [length_slotsAfterRemoval hrange] at hlt
    -- no more slots are counted than there are places
    have hle : (primaryKeyCount f).toNat ≤ maxKeySlots := Nat.le_of_not_lt fun hlt => hno ⟨hrange, hlt⟩
    rw [hoff, keySlotOffset_eq, dataAreaOffset_eq]
    rw [maxKeySlots_eq] at hle
    omega

end Within

/-! ## The bytes a call may change -/

section Area

variable {total : UInt64} {hidden : Option UInt64} {lay : Layout} {m : Mounted} {f f' : ByteFile}
  {c : RecipientCall}

/-- A container has at least fifteen slots. -/
theorem layout_slots_ge (h : layout total hidden = .ok lay) :
    15 ≤ lay.outerSlots.toNat + lay.hiddenSlots.toNat := by
  have hmin : minSize = 16376 + 16 * 32768 + 512 := rfl
  cases hidden with
  | none =>
    obtain ⟨htotal, -, -, houter, -⟩ := layout_none h
    rw [houter, totalDataSlots, dataAreaOffset_eq, slotSize_eq]
    omega
  | some size =>
    obtain ⟨htotal, hhid, -, houter, htwo, -⟩ := layout_some h
    rw [houter] at htwo ⊢
    rw [hhid]
    rw [totalDataSlots, dataAreaOffset_eq, slotSize_eq] at htwo ⊢
    omega

/-- Everything behind the recipient area but the backup header is outside. -/
theorem not_inRecipientArea {i : Nat} (hlo : dataAreaOffset ≤ i)
    (hhi : i < outerBackupOffset lay.fileSize.toNat lay.hasHidden) : ¬ lay.InRecipientArea i := by
  rw [dataAreaOffset_eq] at hlo
  rintro (h | ⟨-, h⟩ | ⟨h, -⟩)
  · have : headerSize = 512 := rfl
    omega
  · rw [dataAreaOffset_eq] at h
    omega
  · omega

/-- A write inside the file, of bytes of the area only. -/
def IsAreaWrite (lay : Layout) (x : ByteFile.Write) : Prop :=
  x.off + x.data.length ≤ lay.fileSize.toNat ∧
    ∀ i, x.off ≤ i → i < x.off + x.data.length → lay.InRecipientArea i

/-- The places of the header copies, and their room before the end of the file. -/
theorem backup_inside (hs : Sizes total hidden lay) :
    outerBackupOffset lay.fileSize.toNat lay.hasHidden + headerSize ≤ lay.fileSize.toNat :=
  hs.inside (p := .outerBackup) trivial

theorem backup_ge (hlay : layout total hidden = .ok lay) :
    dataAreaOffset + 15 * slotSize ≤ outerBackupOffset lay.fileSize.toNat lay.hasHidden := by
  rw [(layout_sizes hlay).outerBackup, slotOffset]
  exact Nat.add_le_add_left (Nat.mul_le_mul_right _ (layout_slots_ge hlay)) _

/-- Writes to the area change nothing else. -/
theorem StaysInArea.of_writes (hs : Sizes total hidden lay) (hsize : f.size = lay.fileSize.toNat)
    {ws : List ByteFile.Write} (hws : ∀ x ∈ ws, IsAreaWrite lay x) : StaysInArea lay f (f.replay ws) := by
  have hsame : (f.replay ws).size = f.size :=
    ByteFile.size_replay fun x hx => by rw [hsize]; exact (hws x hx).1
  have hout : ∀ i < f.size, ¬ lay.InRecipientArea i → (f.replay ws).byteAt i = f.byteAt i := by
    intro i hi hnot
    -- the byte lies beside every write
    refine @ByteFile.agreeOn_replay i 1 ws f (by omega) (fun x hx => ?_) i
      (Nat.le_refl i) (Nat.lt_succ_self i)
    by_contra hcross
    exact hnot ((hws x hx).2 i (by omega) (by omega))
  refine ⟨hsame, hout, fun s hs' => ByteFile.AgreeOn.slice_eq fun i hlo hhi => ?_⟩
  have hend := slotOffset_lt hs'
  rw [← hs.outerBackup] at hend
  have hback := backup_inside hs
  exact hout i (by omega) (not_inRecipientArea (Nat.le_trans (Nat.le_add_right _ _) hlo) (by omega))

/-- Slots inside the recipient area. -/
theorem isAreaWrite_slots (hlay : layout total hidden = .ok lay) {ws : List ByteFile.Write}
    (hws : ∀ x ∈ ws, headerRegionSize ≤ x.off ∧ x.off + x.data.length ≤ dataAreaOffset) :
    ∀ x ∈ ws, IsAreaWrite lay x := by
  have hback := backup_inside (layout_sizes hlay)
  have hge := backup_ge hlay
  intro x hx
  obtain ⟨hfrom, hto⟩ := hws x hx
  exact ⟨by omega, fun i hlo hhi => .inr (.inl ⟨by omega, by omega⟩)⟩

/-- The two copies of a header. -/
theorem isAreaWrite_headers (hlay : layout total hidden = .ok lay) {hdr : List UInt8}
    (hhdr : hdr.length = headerSize) : ∀ x ∈ headerWrites lay hdr, IsAreaWrite lay x := by
  have hs := layout_sizes hlay
  have hback := backup_inside hs
  have hge := backup_ge hlay
  intro x hx
  simp only [headerWrites, List.mem_cons, List.not_mem_nil, or_false] at hx
  rcases hx with rfl | rfl
  · refine ⟨?_, fun i _ hhi => .inl ?_⟩
    · change 0 + hdr.length ≤ _
      omega
    · change i < 0 + hdr.length at hhi
      omega
  · rw [IsAreaWrite, hs.inferredBackup]
    dsimp only
    rw [hhdr]
    exact ⟨hback, fun i hlo hhi => .inr (.inr ⟨hlo, hhi⟩)⟩

/-- Slots inside the area, and the headers behind them. -/
theorem isAreaWrite_call (hlay : layout total hidden = .ok lay) (hsize : f.size = lay.fileSize.toNat)
    {ws : List ByteFile.Write} {hdr : List UInt8}
    (hws : ∀ x ∈ ws, headerRegionSize ≤ x.off ∧ x.off + x.data.length ≤ dataAreaOffset)
    (hhdr : hdr.length = headerSize) :
    ∀ x ∈ ws ++ [⟨0, hdr⟩, ⟨inferredBackupOffset (f.replay ws).size, hdr⟩], IsAreaWrite lay x := by
  have hslots := isAreaWrite_slots hlay hws
  have hsame : (f.replay ws).size = lay.fileSize.toNat := by
    rw [ByteFile.size_replay fun x hx => by rw [hsize]; exact (hslots x hx).1, hsize]
  rw [hsame]
  exact fun x hx => (List.mem_append.mp hx).elim (hslots x) (isAreaWrite_headers hlay hhdr x)

/-- The wiped place holds random bytes, as long as nothing behind the wipe touches it. -/
theorem byteAt_wiped {w : World} {slotIndex : Nat} {after : List ByteFile.Write}
    (hrange : slotIndex < (primaryKeyCount f).toNat)
    (hafter : ∀ x ∈ after, keySlotOffset ((primaryKeyCount f).toNat - 1) + keySlotSize ≤ x.off ∨
      x.off + x.data.length ≤ keySlotOffset ((primaryKeyCount f).toNat - 1)) :
    (f.replay (keyWrites (slotsAfterRemoval w f slotIndex) ++ after)).byteAt
      (keySlotOffset ((primaryKeyCount f).toNat - 1)) = w.rng 0 := by
  have hlength := @length_slotsAfterRemoval w _ _ hrange
  rw [slotsAfterRemoval, List.length_append, List.length_singleton] at hlength
  obtain ⟨wipe, hwipe⟩ : ∃ wipe : ByteFile.Write, wipe =
    ⟨keySlotOffset ((primaryKeyCount f).toNat - 1), (w.drawn keySlotSize).toList⟩ := ⟨_, rfl⟩
  have hoff : wipe.off = keySlotOffset ((primaryKeyCount f).toNat - 1) := by rw [hwipe]
  have hdata : wipe.data = (w.drawn keySlotSize).toList := by rw [hwipe]
  have hlen : wipe.data.length = keySlotSize := by rw [hdata, List.Vector.toList_length]
  rw [slotsAfterRemoval, keyWrites_concat, List.append_assoc, List.singleton_append,
    show (keptSlots f slotIndex).length = (primaryKeyCount f).toNat - 1 by omega, ← hwipe]
  have hslice := @ByteFile.slice_replay (keyWrites (keptSlots f slotIndex)) after wipe f _ _ hoff hlen
    hafter
  have hpos : 0 < keySlotSize := Nat.lt_of_lt_of_eq (Nat.succ_pos 1742) rfl
  have hbyte := @ByteFile.getElem?_slice (f.replay (keyWrites (keptSlots f slotIndex) ++ wipe :: after))
    (keySlotOffset ((primaryKeyCount f).toNat - 1)) _ _ hpos
  rw [hslice, hdata, World.toList_drawn, List.getElem?_map, List.getElem?_range hpos, Option.map_some,
    Nat.add_zero] at hbyte
  exact (Option.some.inj hbyte).symm

/-- A removal that overflows overwrites a byte of a data slot with the first random one. -/
theorem overflow_changes (hlay : layout total hidden = .ok lay) (hf : m.world.file = some f)
    (hsize : f.size = lay.fileSize.toNat) (hover : c.Overflows f) :
    ∃ i < f.size, ¬ lay.InRecipientArea i ∧ ∀ rng, ∃ f',
      (after (c.run P) (m.reseeded rng)).world.file = some f' ∧ f'.byteAt i = rng 0 := by
  cases c with
  | addPassword | addKey => cases hover
  | removeKey slotIndex =>
    obtain ⟨hrange, hmany⟩ := hover
    have hs := layout_sizes hlay
    have hback := backup_inside hs
    have hge := backup_ge hlay
    have hcount := (primaryKeyCount f).toNat_lt
    rw [maxKeySlots_eq] at hmany
    rw [dataAreaOffset_eq, slotSize_eq] at hge
    have hplace : ∀ j < (primaryKeyCount f).toNat,
        keySlotOffset j + keySlotSize ≤ outerBackupOffset lay.fileSize.toNat lay.hasHidden := by
      intro j hj
      have hlen : keySlotSize = 1743 := rfl
      rw [keySlotOffset_eq]
      omega
    have hproceeds : (RecipientCall.removeKey slotIndex).Proceeds P m f :=
      ⟨by omega, hrange, fun j hj => by have := hplace j hj; omega⟩
    have hlast := hplace ((primaryKeyCount f).toNat - 1) (by omega)
    have hoff : keySlotOffset ((primaryKeyCount f).toNat - 1) =
      2432 + ((primaryKeyCount f).toNat - 1) * 1743 := keySlotOffset_eq _
    have hlen : keySlotSize = 1743 := rfl
    refine ⟨keySlotOffset ((primaryKeyCount f).toNat - 1), by omega,
      not_inRecipientArea (by rw [dataAreaOffset_eq]; omega) (by omega), fun rng => ?_⟩
    have houtcome := @RecipientCall.outcome P (m.reseeded rng) _ (.removeKey slotIndex) hf
    cases hrun : (RecipientCall.run P (.removeKey slotIndex)).run (m.reseeded rng) with
    | error e m' =>
      rw [after_of_error hrun]
      rw [hrun] at houtcome
      cases houtcome with
      | refused _ hcall => exact absurd hproceeds hcall
      | rejected _ hslots hissued _ =>
        cases hslots
        refine ⟨_, hissued.file_eq hf, ?_⟩
        have hbyte := @byteAt_wiped f (m.reseeded rng).world _ [] hrange (by simp)
        rw [List.append_nil] at hbyte
        exact hbyte
    | ok u m' =>
      rw [after_of_ok hrun]
      rw [hrun] at houtcome
      cases houtcome with
      | finished _ hslots _ hheader hissued =>
        cases hslots with
        | removeKey _ hread =>
          refine ⟨_, hissued.file_eq hf, byteAt_wiped hrange fun x hx => ?_⟩
          have hinside : ∀ x ∈ keyWrites (slotsAfterRemoval (m.reseeded rng).world f slotIndex),
              x.off + x.data.length ≤ f.size := by
            intro x hx
            obtain ⟨j, hj, hxoff⟩ := of_mem_keyWrites hx
            have hjlt := (List.getElem?_eq_some_iff.mp hj).1
            rw [length_slotsAfterRemoval hrange] at hjlt
            rw [hxoff, length_of_mem_slotsAfterRemoval (List.mem_of_getElem? hj)]
            exact hread j hjlt
          rw [ByteFile.size_replay hinside, hsize, hs.inferredBackup] at hx
          have hhdr : _ = 512 := hheader.length
          simp only [List.mem_cons, List.not_mem_nil, or_false] at hx
          rcases hx with rfl | rfl
          · right
            dsimp only
            omega
          · exact .inl hlast

/-- A recipient call changes nothing but the header copies and the recipient area, for all
    random bytes and whether it succeeds or not, exactly if it is no removal in range while
    more key slots are counted than there are places. -/
theorem recipient_area (hlay : layout total hidden = .ok lay) (hf : m.world.file = some f)
    (hsize : f.size = lay.fileSize.toNat) :
    (∀ rng f', (after (c.run P) (m.reseeded rng)).world.file = some f' → StaysInArea lay f f') ↔
      ¬ c.Overflows f := by
  constructor
  · intro hstays hover
    obtain ⟨i, hi, hnot, hwiped⟩ := overflow_changes hlay hf hsize hover
    -- a random byte that differs from the one that is there
    obtain ⟨f', hf', hbyte⟩ := hwiped fun _ => f.byteAt i + 1
    have hsame := (hstays _ f' hf').outside i hi hnot
    rw [hbyte] at hsame
    simp at hsame
  · intro hno rng f' hf'
    have hfile : (m.reseeded rng).world.file = some f := hf
    have houtcome := @RecipientCall.outcome P _ _ c hfile
    cases hrun : (c.run P).run (m.reseeded rng) with
    | error e m' =>
      rw [after_of_error hrun] at hf'
      rw [hrun] at houtcome
      cases houtcome with
      | refused huntouched _ =>
        cases (huntouched.drew.file.trans hfile).symm.trans hf'
        exact .refl lay f
      | rejected _ hslots hissued _ =>
        cases (hissued.file_eq hfile).symm.trans hf'
        exact .of_writes (layout_sizes hlay) hsize (isAreaWrite_slots hlay (hslots.within hno))
    | ok u m' =>
      rw [after_of_ok hrun] at hf'
      rw [hrun] at houtcome
      cases houtcome with
      | finished _ hslots _ hheader hissued =>
        cases (hissued.file_eq hfile).symm.trans hf'
        exact .of_writes (layout_sizes hlay) hsize
          (isAreaWrite_call hlay hsize (hslots.within hno) hheader.length)

end Area

/-! ## A new container -/

/-- What a header decodes to depends on its plaintext, whether it decodes does not. -/
theorem decodeHeader_of_body {raw raw' : List UInt8} {k : Key} {cipher : CipherAlgorithm}
    {isHidden : Bool} {header : HeaderPayload}
    (hbody : sub raw' bodyOffset bodyAvailable = sub raw bodyOffset bodyAvailable)
    (h : decodeHeader P raw k cipher isHidden = .ok header) :
    ∃ header', decodeHeader P raw' k cipher isHidden = .ok header' := by
  unfold decodeHeader at h ⊢
  rw [encBodySize_eq] at h ⊢
  rw [hbody]
  cases hdec : decryptBlock P k cipher (headerAad isHidden) (sub raw bodyOffset bodyAvailable) with
  | error e => rw [hdec] at h; cases h
  | ok body =>
    rw [hdec] at h
    dsimp only at h ⊢
    by_cases hshort : body.length < 112
    · rw [if_pos hshort] at h
      cases h
    · rw [if_neg hshort] at h ⊢
      by_cases hmagic : body.take 4 ≠ magic
      · rw [if_pos hmagic] at h
        cases h
      · rw [if_neg hmagic]
        exact ⟨_, rfl⟩

/-- The byte of the primary header that counts the key slots. -/
def keyCountOffset : Nat := 67

/-- The file with another count of key slots in its primary header. -/
def recounted (f : ByteFile) (count : UInt8) : ByteFile := f.write keyCountOffset [count]

section Recounted

variable {f : ByteFile}

theorem primaryKeyCount_recounted (count : UInt8) : primaryKeyCount (recounted f count) = count := by
  have hbyte : (recounted f count).byteAt 67 = count := by
    simp [recounted, ByteFile.write, keyCountOffset]
  have hget := @ByteFile.getElem?_slice (recounted f count) 0 512 67 (by omega)
  rw [Nat.zero_add, hbyte] at hget
  rw [primaryKeyCount, primaryPlaintext, readHeaderPlaintext]
  dsimp only
  rw [List.getD_eq_getElem?_getD, hget, Option.getD_some]

theorem size_recounted (hsize : 512 ≤ f.size) (count : UInt8) : (recounted f count).size = f.size :=
  ByteFile.size_write_of_le (by change 67 + 1 ≤ f.size; omega)

theorem primaryDecodes_recounted {m : Mounted} (hsize : 512 ≤ f.size) (count : UInt8)
    (h : PrimaryDecodes P m f) : PrimaryDecodes P m (recounted f count) := by
  obtain ⟨header, hdecode⟩ := h
  refine decodeHeader_of_body ?_ hdecode
  -- the body starts right behind the byte
  have hbody : ∀ g : ByteFile, sub (g.slice 0 512) bodyOffset bodyAvailable = g.slice 68 444 := by
    intro g
    rw [sub, ByteFile.slice_slice (show bodyOffset + bodyAvailable ≤ 512 from Nat.le_refl 512)]
    rfl
  rw [hbody, hbody]
  exact (ByteFile.agreeOn_write (by omega) (.inr (Nat.le_refl 68))).slice_eq

end Recounted

/-- With nine key slots counted in its otherwise intact header, removing the first one
    overwrites a data slot. -/
theorem recipient_area_overwritten : ∃ lay m w' f,
    (create plain [1] 1000000 .xchacha20Poly1305 "interactive" (some "vault") none).run (freePath 7) =
      .ok m w' ∧ layout 1000000 none = .ok lay ∧ f.size = lay.fileSize.toNat ∧
    PrimaryDecodes plain ⟨m, { w' with file := some f }⟩ f ∧ primaryKeyCount f = 9 ∧
    ¬ ∀ rng f', (after ((RecipientCall.removeKey 0).run plain)
      (Mounted.reseeded ⟨m, { w' with file := some f }⟩ rng)).world.file = some f' →
        StaysInArea lay f f' := by
  obtain ⟨m, w', hcreate⟩ := create_million_isOk 7
  obtain ⟨b, h⟩ := create_ok hcreate
  have hlarge : 512 ≤ (Created.image b w').size := by
    have := h.size_ge.1
    omega
  have hsize : (recounted (Created.image b w') 9).size = b.lay.fileSize.toNat := by
    rw [size_recounted hlarge, h.size]
  have hcount := @primaryKeyCount_recounted (Created.image b w') 9
  refine ⟨b.lay, m, w', recounted (Created.image b w') 9, hcreate, h.layout, hsize, ?_, hcount, ?_⟩
  · have hdecode := h.isHeader.decode
    rw [← show (Created.image b w').slice 0 512 = b.hdr from h.slice_header] at hdecode
    refine primaryDecodes_recounted hlarge 9 ⟨newPayload b .xchacha20Poly1305 (freePath 7) [1]
      "interactive" (some "vault"), ?_⟩
    rw [h.parts.container]
    exact hdecode
  · intro hstays
    have hover : (RecipientCall.removeKey 0).Overflows (recounted (Created.image b w') 9) := by
      unfold RecipientCall.Overflows
      rw [hcount]
      decide
    obtain ⟨i, hi, hnot, hwiped⟩ := @overflow_changes plain _ _ _
      ⟨m, { w' with file := some (recounted (Created.image b w') 9) }⟩ _ _ h.layout rfl hsize hover
    obtain ⟨f', hf', hbyte⟩ := hwiped fun _ => (recounted (Created.image b w') 9).byteAt i + 1
    have hsame := (hstays _ f' hf').outside i hi hnot
    rw [hbyte] at hsame
    simp at hsame

/-- A second password is added to a new container. -/
theorem recipient_area_second : ∃ lay m w' f,
    (create plain [1] 1000000 .xchacha20Poly1305 "interactive" (some "vault") none).run (freePath 7) =
      .ok m w' ∧ w'.file = some f ∧
    ∀ rng f', (after ((RecipientCall.addPassword [2]).run plain)
      (Mounted.reseeded ⟨m, w'⟩ rng)).world.file = some f' → StaysInArea lay f f' := by
  obtain ⟨m, w', hcreate⟩ := create_million_isOk 7
  obtain ⟨b, h⟩ := create_ok hcreate
  exact ⟨b.lay, m, w', Created.image b w', hcreate, h.file_eq,
    (recipient_area (m := ⟨m, w'⟩) h.layout h.file_eq h.size).mpr id⟩

end Venom.Fs
