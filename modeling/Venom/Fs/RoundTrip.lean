import Venom.Fs.NewFile
import Venom.Fs.Opening
import Venom.Container.PlainSlots

/-! # Create, then open

A new container opens with its password, and what `open` hands out is what `create`
returned, provided that the container id that was drawn is not zero: `create` always
writes an allocation block with a generation, but `open` takes a zero id for an old
container and reads the block as one without.
-/

namespace Venom.Fs

open Venom.Container
open Venom.Crypto
open Venom.Storage
open Venom.Storage.SlotStore
open Venom.Library
open Venom.Library.Words
open Venom.Library.StateError

variable {P : Primitives}

/-! ## Labels -/

/-- A label that fits the header: absent, or not empty, at most 64 bytes and without NUL. -/
def LabelFits (label : Option String) : Prop :=
  ∀ s ∈ label, s ≠ "" ∧ (utf8 s).length ≤ 64 ∧ (0 : UInt8) ∉ utf8 s

theorem labelFrom_labelBytes {label : Option String} (h : LabelFits label) :
    labelFrom (labelBytes label) = label := by
  have hfits : ((label.map utf8).getD []).length ≤ 64 ∧ (0 : UInt8) ∉ (label.map utf8).getD [] := by
    cases label with
    | none => simp
    | some s => exact (h s rfl).2
  have htext : ((labelBytes label).toList.takeWhile (· ≠ 0)) = (label.map utf8).getD [] := by
    rw [labelBytes, toList_toBytes_eq hfits.1, takeWhile_padTo hfits.2]
  unfold labelFrom
  dsimp only
  rw [htext]
  cases label with
  | none => rfl
  | some s =>
    have hne : utf8 s ≠ [] := by
      intro hnil
      exact (h s rfl).1 (utf8_inj.mp (hnil.trans (by decide : [] = utf8 "")))
    have hempty : ((some s).map utf8).getD [] = utf8 s := rfl
    rw [hempty, if_neg (by simpa using hne), ofUtf8_utf8]

/-! ## Loading the new store -/

section RoundTrip

variable {outerPassword : List UInt8} {totalSizeBytes : UInt64} {cipher : CipherAlgorithm}
  {kdfProfile : String} {label : Option String} {hidden : Option HiddenVolumeOptions}
  {w w' : World} {m : VnmContainer} {b : Blocks}

/-- The payload of the new outer header. -/
def newPayload (b : Blocks) (cipher : CipherAlgorithm) (w : World) (outerPassword : List UInt8)
    (kdfProfile : String) (label : Option String) : HeaderPayload :=
  outerPayload b.lay cipher w.now outerPassword kdfProfile label (drawnContainerId w b.lay)

namespace Created

theorem isHeader
    (h : Created P outerPassword totalSizeBytes cipher kdfProfile label hidden w m w' b) :
    IsHeader P (drawnKey w b.lay) false (newPayload b cipher w outerPassword kdfProfile label) b.hdr :=
  h.parts.header

/-- The store of the new volume before its allocation block was written. -/
theorem bits (h : Created P outerPassword totalSizeBytes cipher kdfProfile label hidden w m w' b) :
    ∀ i, Bitmap.getBit i b.bitmap = decide
      (0 + i ∈ (emptied (outerStore b.lay cipher (drawnKey w b.lay)) outerRootSlot).free) := by
  obtain ⟨bitmap, hbitmap, -, hbits⟩ := freeBitmap_isSome
    (freeInRange_emptied (outerStore b.lay cipher (drawnKey w b.lay)) outerRootSlot)
  cases hbitmap.symm.trans h.parts.volume.bits
  exact hbits

/-- Free are the slots from 2 on, in descending order. -/
theorem free_eq
    (h : Created P outerPassword totalSizeBytes cipher kdfProfile label hidden w m w' b) :
    (emptied (outerStore b.lay cipher (drawnKey w b.lay)) outerRootSlot).free =
      (List.range' 2 (b.lay.outerSlots.toNat - 2)).reverse := by
  have htwo := h.sizes.outer
  refine (sortedGT_emptied _ _).eq_of_mem_iff ?_ fun s => ?_
  · rw [List.sortedGT_reverse]
    exact List.sortedLT_range' _ _ Nat.one_ne_zero
  · rw [mem_emptied, List.mem_reverse, List.mem_range'_1]
    change (0 ≤ s ∧ s < b.lay.outerSlots.toNat) ∧ s ≠ 0 ∧ s ≠ 1 ↔ _
    omega

/-- The allocation block of the new file, in any file that has it. -/
theorem reads_alloc
    (h : Created P outerPassword totalSizeBytes cipher kdfProfile label hidden w m w' b)
    {v : World} {g : ByteFile} (hv : v.file = some g) (hsize : (image b w').size ≤ g.size)
    (hslice : g.slice (slotOffset outerAllocSlot) slotSize =
      (image b w').slice (slotOffset outerAllocSlot) slotSize) {st : SlotStore}
    (hkey : st.masterKey = drawnKey w b.lay) (hcipher : st.cipher = cipher) :
    st.read P v outerAllocSlot = .ok ((emptied (outerStore b.lay cipher (drawnKey w b.lay))
      outerRootSlot).saved.allocData b.bitmap) :=
  (read_eq_ok hv).mpr ((h.holds_alloc hkey hcipher).of_agree hsize (ByteFile.slice_eq_iff.mp hslice))

/-- The store that `open` loads. -/
theorem load (h : Created P outerPassword totalSizeBytes cipher kdfProfile label hidden w m w' b)
    {v : World} {g : ByteFile} (hv : v.file = some g) (hsize : (image b w').size ≤ g.size)
    (hslice : g.slice (slotOffset outerAllocSlot) slotSize =
      (image b w').slice (slotOffset outerAllocSlot) slotSize) {header : HeaderPayload}
    (hcipher : header.cipher = cipher) (hid : header.containerId ≠ zeroId) :
    ∃ store, (storeToLoad (drawnKey w b.lay) header 0 b.lay.outerSlots.toNat outerAllocSlot).loadFreeList
        P v = .ok store ∧ store.generation = 1 ∧
      store.free = (List.range' 2 (b.lay.outerSlots.toNat - 2)).reverse ∧
      SameShape (storeToLoad (drawnKey w b.lay) header 0 b.lay.outerSlots.toNat outerAllocSlot) store := by
  have hstore : storeToLoad (drawnKey w b.lay) header 0 b.lay.outerSlots.toNat outerAllocSlot =
      outerStore b.lay cipher (drawnKey w b.lay) := by
    rw [storeToLoad, decide_eq_true hid, hcipher, outerStore]
  have hinside : slotOffset outerAllocSlot + slotSize ≤ g.size := by
    have hin := h.sizes.inside h.alloc.has
    rw [← h.size] at hin
    exact hin.trans hsize
  rw [hstore, ← h.free_eq]
  exact h.parts.volume.load rfl ⟨rfl, rfl⟩ b.lay.outerSlots.toNat_lt hv hinside
    (hslice.trans h.slice_alloc)

end Created

/-! ## Finding the new volume -/

/-- Sealed blocks of a new file are rejected under other ciphers. -/
structure CiphersDistinct (P : Primitives) (f : ByteFile) (password : List UInt8) (k : Key)
    (cipher : CipherAlgorithm) : Prop where
  header : OnlyCipher P k false cipher (f.slice 0 headerSize)
  slot : OnlyTriple P password (f.slice (pwSlotOffset 0) pwSlotSize)

/-- The keys a password yields are rejected by the first password slot and by the headers
    at the two places of a hidden header. -/
structure Rejected (P : Primitives) (f : ByteFile) (password : List UInt8) : Prop where
  slot : tryPasswordSlot P (f.slice (pwSlotOffset 0) pwSlotSize) password = none
  hidden : ∀ off, off = f.size - 512 ∨ off = 512 → ∀ key,
    deriveHiddenKey P (f.slice off 512) password = .ok key →
      probeHeader P (f.slice off 512) key true = none

theorem tryHiddenAt_none {v : World} {f : ByteFile} {off : Nat} {password : List UInt8}
    (hf : v.file = some f) (hoff : off + 512 ≤ f.size)
    (h : ∀ key, deriveHiddenKey P (f.slice off 512) password = .ok key →
      probeHeader P (f.slice off 512) key true = none) : tryHiddenAt P v off password = none := by
  unfold tryHiddenAt
  rw [read512At_eq hf hoff]
  change (Option.bind (some (f.slice off 512)) _) = none
  rw [Option.bind_some]
  cases hkey : deriveHiddenKey P (f.slice off 512) password with
  | error e => rfl
  | ok key =>
    change (Option.bind (some key) _) = none
    rw [Option.bind_some, h key hkey]
    rfl

theorem findHidden_none {v : World} {f : ByteFile} {password : List UInt8} (hf : v.file = some f)
    (hsize : 1024 ≤ f.size) (h : Rejected P f password) : findHidden P v f.size password = none := by
  unfold findHidden
  rw [tryHiddenAt_none hf (by omega) (h.hidden _ (.inl rfl)),
    tryHiddenAt_none hf (by omega) (h.hidden _ (.inr rfl))]
  rfl

theorem readPwSlotRaw_eq {v : World} {f : ByteFile} {i : Nat} (hf : v.file = some f)
    (h : pwSlotOffset i + pwSlotSize ≤ f.size) :
    readPwSlotRaw v i = .ok (f.slice (pwSlotOffset i) pwSlotSize) := World.read_eq hf h

namespace Created

theorem size_ge (h : Created P outerPassword totalSizeBytes cipher kdfProfile label hidden w m w' b) :
    1024 ≤ (image b w').size ∧ pwSlotOffset 0 + pwSlotSize ≤ (image b w').size := by
  have hfile := h.sizes.fileSize_eq
  have htail := h.sizes.tail_eq
  have hdata : 16376 ≤ slotOffset (b.lay.outerSlots.toNat + b.lay.hiddenSlots.toNat) :=
    Nat.le_add_right _ _
  have hpw : pwSlotOffset 0 + pwSlotSize = 1200 := rfl
  rw [h.size, hpw]
  omega

/-- The counts of a new container: one password slot, no key slot. -/
theorem slotCounts_eq
    (h : Created P outerPassword totalSizeBytes cipher kdfProfile label hidden w m w' b)
    (hpw : outerPassword ≠ []) : slotCounts w' (image b w').size = (1, 0) := by
  have hempty : outerPassword.isEmpty = false := by
    cases outerPassword with
    | nil => exact absurd rfl hpw
    | cons _ _ => rfl
  have hslice : (image b w').slice 0 512 = b.hdr := h.slice_header
  have hone : (newPayload b cipher w outerPassword kdfProfile label).numPasswordSlots = 1 := by
    change (if outerPassword.isEmpty then 0 else 1 : UInt8) = 1
    rw [hempty]
    rfl
  refine slotCounts_primary h.file_eq (by have := h.size_ge.1; omega)
    (by rw [hslice, h.isHeader.plaintext]) ?_ |>.trans ?_
  · rw [hone]
    rintro ⟨hzero, -⟩
    exact absurd hzero (by decide)
  · rw [hone]
    rfl

theorem recoverMaster_eq
    (h : Created P outerPassword totalSizeBytes cipher kdfProfile label hidden w m w' b)
    (hcounts : slotCounts w' (image b w').size = (1, 0)) (p : List UInt8) :
    recoverMaster P w' (image b w').size (.password p) =
      tryPasswordSlot P ((image b w').slice (pwSlotOffset 0) pwSlotSize) p := by
  unfold recoverMaster
  rw [hcounts]
  change trySlots _ _ 0 1 = _
  have hslots := @trySlots_eq (readPwSlotRaw w') (fun slot => tryPasswordSlot P slot p)
    (fun i => (image b w').slice (pwSlotOffset i) pwSlotSize) 0 1
    (fun j _ hj => readPwSlotRaw_eq h.file_eq (by
      have hzero : j = 0 := by omega
      rw [hzero]
      exact h.size_ge.2))
  rw [hslots]
  change List.findSome? _ [0] = _
  rw [List.findSome?_cons, List.findSome?_nil]
  cases tryPasswordSlot P ((image b w').slice (pwSlotOffset 0) pwSlotSize) p <;> rfl

/-- The password finds the outer volume. -/
theorem open_eq (h : Created P outerPassword totalSizeBytes cipher kdfProfile label hidden w m w' b)
    (hpw : outerPassword ≠ [])
    (hdistinct : CiphersDistinct P (image b w') outerPassword (drawnKey w b.lay) cipher) :
    openContainer P w' (.password outerPassword) = openOuter P w' (drawnKey w b.lay)
      (newPayload b cipher w outerPassword kdfProfile label) := by
  refine openContainer_outer h.file_eq (findOuter_eq_some.mpr ⟨⟨.triple, ?_⟩, ?_⟩)
  · have hslot := h.parts.pwSlot hpw
    have honly := hdistinct.slot
    rw [h.slice_pwSlot hpw] at honly
    rw [h.recoverMaster_eq (h.slotCounts_eq hpw), h.slice_pwSlot hpw]
    exact tryPasswordSlot_eq hslot honly
  · refine findOuterHeader_primary h.file_eq h.size_ge.1 ?_
    have honly := hdistinct.header
    rw [h.slice_header] at honly
    have hslice : (image b w').slice 0 512 = b.hdr := h.slice_header
    rw [hslice]
    exact probeHeader_eq h.isHeader honly

end Created

/-! ## The round trip -/

/-- `open` with a password hands out the outer volume `create` returned, empty. -/
def Reopens (P : Primitives) (w : World) (m : VnmContainer) (password : List UInt8) : Prop :=
  ∃ c, openContainer P w (.password password) = .ok c ∧ c.isHidden = false ∧ c.cipher = m.cipher ∧
    c.outerSlots = m.outerSlots ∧ c.label = m.label ∧ c.createdAt = m.createdAt ∧
    c.containerId = m.containerId ∧ c.rootSlot = 1 ∧
    readNode P c.rootSlot.toNat { container := c, world := w } = .ok emptyDirectory ∧
    c.store.free = (List.range' 2 (m.outerSlots.toNat - 2)).reverse ∧ c.store.generation = 1

/-- Create, then open: with the password the volume comes back, with a password that is
    neither the outer nor the hidden one authentication fails. -/
def RoundTrips (P : Primitives) (w : World) (m : VnmContainer) (f : ByteFile)
    (outerPassword : List UInt8) (hidden : Option HiddenVolumeOptions) : Prop :=
  Reopens P w m outerPassword ∧
    ∀ p, p ≠ outerPassword → (∀ h ∈ hidden, p ≠ h.password) → Rejected P f p →
      openContainer P w (.password p) = .error .authenticationFailed

namespace Created

theorem reopens (h : Created P outerPassword totalSizeBytes cipher kdfProfile label hidden w m w' b)
    (hpw : outerPassword ≠ []) (hlabel : LabelFits label)
    (hdistinct : CiphersDistinct P (image b w') outerPassword (drawnKey w b.lay) cipher)
    (hid : drawnContainerId w b.lay ≠ zeroId) : Reopens P w' m outerPassword := by
  obtain ⟨store, hload, hgeneration, hfree, hshape⟩ := h.load h.file_eq (Nat.le_refl _) rfl
    (show (newPayload b cipher w outerPassword kdfProfile label).cipher = _ from rfl) hid
  have hm := h.parts.container
  refine ⟨containerOf (drawnKey w b.lay) (newPayload b cipher w outerPassword kdfProfile label)
    false b.lay.outerSlots store, ?_, rfl, ?_, ?_, ?_, ?_,
    ?_, rfl, ?_, ?_, hgeneration⟩
  · rw [h.open_eq hpw hdistinct]
    refine openVolume_eq_ok.mpr ⟨store, hload, fun _ stored hstored => ?_, rfl⟩
    have hbase := h.baseline (drawnContainerId w b.lay)
    rw [if_pos rfl] at hbase
    cases hbase.symm.trans hstored
    exact Nat.le_of_eq hgeneration.symm
  · rw [hm]
    rfl
  · rw [hm]
    rfl
  · rw [hm]
    exact labelFrom_labelBytes hlabel
  · rw [hm]
    rfl
  · rw [hm]
    rfl
  · have hroot := @Created.holds_root _ _ _ _ _ _ _ _ _ _ _ h store hshape.masterKey hshape.cipher
    have hread : store.read P w' outerRootSlot = .ok emptyPayload := (read_eq_ok h.file_eq).mpr hroot
    change (store.read P w' outerRootSlot >>= fun data => _) = _
    rw [except_bind_of_ok hread, fromSlice_toVecNamed toVecNamed_emptyDirectory]
  · rw [hm]
    exact hfree

theorem rejects (h : Created P outerPassword totalSizeBytes cipher kdfProfile label hidden w m w' b)
    (hpw : outerPassword ≠ []) {p : List UInt8} (hrejected : Rejected P (image b w') p) :
    openContainer P w' (.password p) = .error .authenticationFailed := by
  refine openContainer_password_none h.file_eq (findOuter_none_of_master ?_)
    (findHidden_none h.file_eq h.size_ge.1 hrejected)
  rw [h.recoverMaster_eq (h.slotCounts_eq hpw)]
  exact hrejected.slot

end Created

/-- Create then open is a round trip exactly if the container id that `create` draws is not
    zero. -/
theorem create_open_round_trip {lay : Layout} {f : ByteFile}
    (hcreate : (create P outerPassword totalSizeBytes cipher kdfProfile label hidden).run w =
      .ok m w')
    (hlay : layout totalSizeBytes (hidden.map (·.sizeBytes)) = .ok lay) (hf : w'.file = some f)
    (hpw : outerPassword ≠ []) (hlabel : LabelFits label)
    (hdistinct : CiphersDistinct P f outerPassword m.kMaster cipher) :
    RoundTrips P w' m f outerPassword hidden ↔ drawnContainerId w lay ≠ zeroId := by
  obtain ⟨b, h⟩ := create_ok hcreate
  cases hlay.symm.trans h.layout
  cases hf.symm.trans h.file_eq
  have hkey : m.kMaster = drawnKey w b.lay := by rw [h.parts.container]
  rw [hkey] at hdistinct
  constructor
  · rintro ⟨⟨c, hopen, -, -, -, -, -, -, -, -, -, hgeneration⟩, -⟩ hid
    rw [h.open_eq hpw hdistinct] at hopen
    have hzero := generation_of_zeroId hopen hid
    omega
  · intro hid
    exact ⟨h.reopens hpw hlabel hdistinct hid, fun p _ _ hrejected => h.rejects hpw hrejected⟩

/-! ## A million bytes -/

theorem Created.distinct_plain {b : Blocks} {v : UInt8}
    (h : Created plain outerPassword totalSizeBytes .xchacha20Poly1305 kdfProfile label hidden
      (freePath v) m w' b) (hpw : outerPassword ≠ []) (hv : ∀ c, v ≠ plainMark c) :
    CiphersDistinct plain (image b w') outerPassword m.kMaster .xchacha20Poly1305 := by
  have hkey : m.kMaster = drawnKey (freePath v) b.lay := by rw [h.parts.container]
  have hslot := h.parts.pwSlot hpw
  rw [hkey]
  refine ⟨?_, ?_⟩
  · rw [h.slice_header]
    exact h.isHeader.onlyCipher_plain rfl
  · rw [h.slice_pwSlot hpw]
    exact hslot.onlyTriple_plain (drawn_freePath v _ 32) hv

theorem create_million_isOk (v : UInt8) : ∃ m w', (create plain [1] 1000000 .xchacha20Poly1305
    "interactive" (some "vault") none).run (freePath v) = .ok m w' :=
  create_isOk rfl (show layout 1000000 none = .ok ⟨30, 0, 512, 999928⟩ from rfl)
    (fun _ => plain_hasKeys _ _) (by decide) (fun _ h => by cases h)

theorem label_vault : LabelFits (some "vault") := by
  rintro s ⟨⟩
  decide

theorem create_open_round_trip_million :
    ∃ m w' f, (create plain [1] 1000000 .xchacha20Poly1305 "interactive" (some "vault") none).run
        (freePath 7) = .ok m w' ∧ w'.file = some f ∧ RoundTrips plain w' m f [1] none := by
  obtain ⟨m, w', hcreate⟩ := create_million_isOk 7
  obtain ⟨b, h⟩ := create_ok hcreate
  refine ⟨m, w', _, hcreate, h.file_eq, ?_⟩
  refine (create_open_round_trip hcreate (show layout 1000000 none = .ok ⟨30, 0, 512, 999928⟩ from rfl)
    h.file_eq (by simp) label_vault (h.distinct_plain (by simp) fun c => by cases c <;> decide)).mpr fun hid => ?_
  have hbytes := drawn_freePath 7 (65536 * fillPieces 999928 + 32) 16
  have hzero := congrArg List.Vector.toList hid
  exact absurd (hbytes.symm.trans hzero) (by decide)

/-- What is opened without a container id has generation 0. -/
theorem openContainer_zeroId {credential : OpenCredential} {c : VnmContainer}
    (h : openContainer P w credential = .ok c) (hid : c.containerId = zeroId) :
    c.store.generation = 0 := by
  have hvolume : ∃ k header isHidden slotStart slotLimit allocSlot outerLimit,
      openVolume P w k header isHidden slotStart slotLimit allocSlot outerLimit = .ok c := by
    unfold openContainer at h
    cases hf : w.file with
    | none => rw [hf] at h; cases h
    | some f =>
      simp only [hf] at h
      cases ho : findOuter P w f.size credential with
      | some kh => simp only [ho] at h; exact ⟨_, _, _, _, _, _, _, h⟩
      | none =>
        simp only [ho] at h
        cases credential with
        | privateKey sk => cases h
        | password pw =>
          cases hh : findHidden P w f.size pw with
          | some kh => simp only [hh] at h; exact ⟨_, _, _, _, _, _, _, h⟩
          | none => simp only [hh] at h; cases h
  obtain ⟨k, header, isHidden, slotStart, slotLimit, allocSlot, outerLimit, hopen⟩ := hvolume
  refine generation_of_zeroId hopen ?_
  obtain ⟨store, -, -, rfl⟩ := openVolume_eq_ok.mp hopen
  exact hid

/-- A container whose id was drawn as zeros comes back with generation 0. -/
theorem zero_id_not_round_trip : ¬ ∀ (P : Primitives) (outerPassword : List UInt8)
    (totalSizeBytes : UInt64) (cipher : CipherAlgorithm) (kdfProfile : String)
    (label : Option String) (hidden : Option HiddenVolumeOptions) (w w' : World) (m : VnmContainer)
    (f : ByteFile),
    (create P outerPassword totalSizeBytes cipher kdfProfile label hidden).run w = .ok m w' →
    w'.file = some f → outerPassword ≠ [] → LabelFits label →
    CiphersDistinct P f outerPassword m.kMaster cipher →
    RoundTrips P w' m f outerPassword hidden := by
  intro hall
  obtain ⟨m, w', hcreate⟩ := create_million_isOk 0
  obtain ⟨b, h⟩ := create_ok hcreate
  obtain ⟨⟨c, hopen, -, -, -, -, -, hid, -, -, -, hgeneration⟩, -⟩ := hall _ _ _ _ _ _ _ _ _ _ _ hcreate
    h.file_eq (by simp) label_vault (h.distinct_plain (by simp) fun c => by cases c <;> decide)
  have hm : m.containerId = drawnContainerId (freePath 0) b.lay := by rw [h.parts.container]
  have hzero : m.containerId = zeroId := by
    rw [hm]
    exact List.Vector.toList_injective (drawn_freePath 0 _ 16)
  have := openContainer_zeroId hopen (hid.trans hzero)
  omega

end RoundTrip

end Venom.Fs
