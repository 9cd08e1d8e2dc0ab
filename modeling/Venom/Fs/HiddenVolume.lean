import Venom.Fs.HeaderCodec
import Venom.Fs.DamagedHeader
import Venom.Fs.Deniability

/-! # Opening a new hidden volume

`create` seals the slots of a hidden volume with a key it draws, and the header with a key it
derives from the password.  The drawn key is not kept anywhere: `open` takes the derived key
for both.  So the header of a new hidden volume is found, under XChaCha20-Poly1305, and its
slots are not.
-/

namespace Venom.Fs

open Venom.Container
open Venom.Crypto
open Venom.Storage
open Venom.Storage.SlotStore
open Venom.Library
open Venom.Library.Words
open Venom.Library.StateError

variable {P : Primitives}

/-! ## What the hidden part draws -/

/-- The number of random bytes drawn in front of the hidden part. -/
def drawnBeforeHidden (lay : Layout) : Nat := 65536 * fillPieces lay.fileSize.toNat + 32 + 16

def drawnHiddenKey (w : World) (lay : Layout) : Key := (w.skip (drawnBeforeHidden lay)).drawn 32

def drawnHiddenId (w : World) (lay : Layout) : Bytes 16 := (w.skip (drawnBeforeHidden lay + 32)).drawn 16

def drawnHiddenSalt (w : World) (lay : Layout) (cipher : CipherAlgorithm) : Bytes saltLen :=
  (w.skip (drawnBeforeHidden lay + drawnBeforeSalt cipher)).drawn saltLen

section Created

open Created

variable {outerPassword : List UInt8} {totalSizeBytes : UInt64} {cipher : CipherAlgorithm}
  {kdfProfile : String} {label : Option String} {opts : HiddenVolumeOptions}
  {w w' : World} {m : VnmContainer} {b : Blocks} {hb : HiddenBlocks}

/-- What a successful `create` with a hidden volume has done. -/
structure CreatedHidden (P : Primitives) (outerPassword : List UInt8) (totalSizeBytes : UInt64)
    (cipher : CipherAlgorithm) (kdfProfile : String) (label : Option String)
    (opts : HiddenVolumeOptions) (w : World) (m : VnmContainer) (w' : World) (b : Blocks)
    (hb : HiddenBlocks) : Prop where
  created : Created P outerPassword totalSizeBytes cipher kdfProfile label (some opts) w m w' b
  writes : b.hiddenWrites = hb.writes b.lay
  unusedLength : hb.unusedHdr.length = headerSize
  header : ∃ v v', v.drawn saltLen = drawnHiddenSalt w b.lay cipher ∧ (encodeHeaderWithPassword P
    (hiddenPayload b.lay cipher w.now opts (drawnHiddenId w b.lay)) opts.password true).run v =
      .ok hb.hdr v'
  volume : ∃ st, EmptyVolume P (hiddenStore b.lay cipher (drawnHiddenKey w b.lay))
    (b.lay.outerSlots.toNat + 1) st hb.bitmap hb.root hb.alloc

theorem create_hidden_ok
    (h : (create P outerPassword totalSizeBytes cipher kdfProfile label (some opts)).run w = .ok m w') :
    ∃ b hb, CreatedHidden P outerPassword totalSizeBytes cipher kdfProfile label opts w m w' b hb := by
  obtain ⟨hfresh, lay, v, v', hlay, hfilled, hhidden, houter⟩ := create_steps h
  obtain ⟨hb, hparts, hissued⟩ := createHidden_parts hhidden
  obtain ⟨hdr, pwSlot, bitmap, root, alloc, hc⟩ := Created.of_steps hfresh hlay hfilled
    (fun hn => by cases hn) (fun _ => hparts.hiddenWrites) hissued houter
  have htook : World.Took (drawnBeforeHidden lay) w ((v.skip 32).skip 16) := by
    have hfill : World.Took (65536 * fillPieces lay.fileSize.toNat) w v := hfilled.rng
    have hskip : ∀ (n : Nat) (u : World), World.Took n u (u.skip n) := fun _ _ _ => rfl
    exact (hfill.trans (hskip 32 v)).trans (hskip 16 _)
  have hkey : ((v.skip 32).skip 16).drawn 32 = drawnHiddenKey w lay := htook.drawn 32
  have hid : (((v.skip 32).skip 16).skip 32).drawn 16 = drawnHiddenId w lay :=
    (htook.trans (fun _ => rfl : World.Took 32 _ (((v.skip 32).skip 16).skip 32))).drawn 16
  obtain ⟨u, u', hsalt, hhdr⟩ := hparts.header
  have hvolume := hparts.volume
  rw [hid] at hhdr
  rw [hkey] at hvolume
  exact ⟨_, hb, hc, rfl, hparts.unusedLength, ⟨u, u', (htook.trans hsalt).drawn saltLen, hhdr⟩, hvolume⟩

namespace CreatedHidden

theorem slots (h : CreatedHidden P outerPassword totalSizeBytes cipher kdfProfile label opts w m w' b hb) :
    2 ≤ b.lay.hiddenSlots.toNat := h.created.sizes.hiddenSome rfl

theorem length_hdr
    (h : CreatedHidden P outerPassword totalSizeBytes cipher kdfProfile label opts w m w' b hb) :
    hb.hdr.length = headerSize := by
  obtain ⟨v, v', -, hhdr⟩ := h.header
  exact (encodeHeaderWithPassword_ok hhdr).2.1

theorem primary
    (h : CreatedHidden P outerPassword totalSizeBytes cipher kdfProfile label opts w m w' b hb) :
    AtPart b.lay .hiddenPrimary ⟨b.lay.fileSize.toNat - 512, hb.hdr⟩ :=
  ⟨h.created.hasHidden, rfl, h.length_hdr⟩

theorem backup
    (h : CreatedHidden P outerPassword totalSizeBytes cipher kdfProfile label opts w m w' b hb) :
    AtPart b.lay .hiddenBackup ⟨512, hb.hdr⟩ := ⟨trivial, rfl, h.length_hdr⟩

theorem root (h : CreatedHidden P outerPassword totalSizeBytes cipher kdfProfile label opts w m w' b hb) :
    AtPart b.lay (.hiddenSlot (b.lay.outerSlots.toNat + 1))
      ⟨slotOffset (b.lay.outerSlots.toNat + 1), hb.root⟩ := by
  have htwo := h.slots
  obtain ⟨st, hvolume⟩ := h.volume
  exact ⟨⟨by omega, by omega⟩, rfl, hvolume.rootLength⟩

theorem alloc
    (h : CreatedHidden P outerPassword totalSizeBytes cipher kdfProfile label opts w m w' b hb) :
    AtPart b.lay (.hiddenSlot (b.lay.outerSlots.toNat + b.lay.hiddenSlots.toNat - 1))
      ⟨slotOffset (b.lay.outerSlots.toNat + b.lay.hiddenSlots.toNat - 1), hb.alloc⟩ := by
  have htwo := h.slots
  obtain ⟨st, hvolume⟩ := h.volume
  exact ⟨⟨by omega, by omega⟩, rfl, hvolume.allocLength⟩

/-- Both copies of the hidden header. -/
theorem slice_header
    (h : CreatedHidden P outerPassword totalSizeBytes cipher kdfProfile label opts w m w' b hb)
    {off : Nat} (hoff : off = (image b w').size - 512 ∨ off = 512) :
    (image b w').slice off headerSize = hb.hdr := by
  rcases hoff with hoff | hoff <;> rw [hoff]
  · have hsplit : b.hiddenWrites = [⟨b.lay.fileSize.toNat - 512, hb.unusedHdr⟩] ++
        ⟨b.lay.fileSize.toNat - 512, hb.hdr⟩ :: _ := h.writes
    have hregion : b.lay.region .hiddenPrimary = ⟨b.lay.fileSize.toNat - 512, headerSize⟩ := rfl
    rw [h.created.size]
    refine h.created.slice_hidden hsplit (.inl rfl) h.primary hregion fun y hy => ?_
    simp only [List.mem_cons, List.not_mem_nil, or_false] at hy
    rcases hy with rfl | rfl | rfl
    · exact ⟨_, by simp, h.backup⟩
    · exact ⟨_, by simp, h.root⟩
    · exact ⟨_, by simp, h.alloc⟩
  · have hsplit : b.hiddenWrites = [⟨b.lay.fileSize.toNat - 512, hb.unusedHdr⟩,
        ⟨b.lay.fileSize.toNat - 512, hb.hdr⟩] ++ ⟨512, hb.hdr⟩ :: _ := h.writes
    have hregion : b.lay.region .hiddenBackup = ⟨512, headerSize⟩ := rfl
    refine h.created.slice_hidden hsplit (.inr (.inl rfl)) h.backup hregion fun y hy => ?_
    simp only [List.mem_cons, List.not_mem_nil, or_false] at hy
    rcases hy with rfl | rfl
    · exact ⟨_, by simp, h.root⟩
    · exact ⟨_, by simp, h.alloc⟩

theorem slice_alloc
    (h : CreatedHidden P outerPassword totalSizeBytes cipher kdfProfile label opts w m w' b hb) :
    (image b w').slice (slotOffset (b.lay.outerSlots.toNat + b.lay.hiddenSlots.toNat - 1)) slotSize =
      hb.alloc := by
  have hsplit : b.hiddenWrites = [⟨b.lay.fileSize.toNat - 512, hb.unusedHdr⟩,
      ⟨b.lay.fileSize.toNat - 512, hb.hdr⟩, ⟨512, hb.hdr⟩,
      ⟨slotOffset (b.lay.outerSlots.toNat + 1), hb.root⟩] ++
        ⟨slotOffset (b.lay.outerSlots.toNat + b.lay.hiddenSlots.toNat - 1), hb.alloc⟩ :: [] := h.writes
  exact h.created.slice_hidden hsplit (.inr (.inr ⟨_, rfl⟩)) h.alloc rfl (by simp)

/-- With three slots the root directory stays; with two the allocation block is written over it. -/
theorem slice_root
    (h : CreatedHidden P outerPassword totalSizeBytes cipher kdfProfile label opts w m w' b hb)
    (hthree : 3 ≤ b.lay.hiddenSlots.toNat) :
    (image b w').slice (slotOffset (b.lay.outerSlots.toNat + 1)) slotSize = hb.root := by
  have hsplit : b.hiddenWrites = [⟨b.lay.fileSize.toNat - 512, hb.unusedHdr⟩,
      ⟨b.lay.fileSize.toNat - 512, hb.hdr⟩, ⟨512, hb.hdr⟩] ++
        ⟨slotOffset (b.lay.outerSlots.toNat + 1), hb.root⟩ :: _ := h.writes
  refine h.created.slice_hidden hsplit (.inr (.inr ⟨_, rfl⟩)) h.root rfl fun y hy => ?_
  rw [List.mem_singleton.mp hy]
  refine ⟨_, fun heq => ?_, h.alloc⟩
  have hslot := Part.hiddenSlot.inj heq
  omega

/-- The slots in force are the one slot the header at the end of the file names, with or without an
    outer password. -/
theorem slotCounts
    (h : CreatedHidden P outerPassword totalSizeBytes cipher kdfProfile label opts w m w' b hb) :
    slotCounts w' (image b w').size = (1, 0) := by
  by_cases hpw : outerPassword = []
  · obtain ⟨kdf, htail⟩ := h.created.hidden_counts rfl
    have hprimary : namedCounts ((image b w').slice 0 512) = none := by
      have hslice : (image b w').slice 0 512 = b.hdr := h.created.slice_header
      rw [hslice, namedCounts, h.created.isHeader.plaintext]
      simp [newPayload, outerPayload, hpw]
    have htail' : namedCounts ((image b w').slice ((image b w').size - 512) 512) = some (1, 0) :=
      namedCounts_of_plaintext htail (by decide)
    rw [slotCounts_named h.created.file_eq h.created.size_ge.1, hprimary, tailCounts, htail']
    rfl
  · exact h.created.slotCounts_eq hpw

/-- The key the hidden password yields with the header. -/
theorem derive
    (h : CreatedHidden P outerPassword totalSizeBytes cipher kdfProfile label opts w m w' b hb) :
    deriveHiddenKey P hb.hdr opts.password =
      passwordKey P opts.password (drawnHiddenSalt w b.lay cipher).toList (kdfId opts.kdfProfile) := by
  obtain ⟨v, v', hsalt, hhdr⟩ := h.header
  rw [deriveHiddenKey_encoded hhdr, hsalt]
  rfl

end CreatedHidden

end Created

/-! ## An allocation block is no node -/

/-- The count of a small volume, which an allocation block begins with, is a MessagePack number. -/
theorem fromSlice_allocData {st : SlotStore} {bitmap : List UInt8}
    (hcount : st.slotLimit - st.slotStart < 128) : fromSlice (st.allocData bitmap) = none := by
  have hdata : ∃ rest, st.allocData bitmap = UInt8.ofNat (st.slotLimit - st.slotStart) :: rest :=
    ⟨_, rfl⟩
  obtain ⟨rest, hrest⟩ := hdata
  have hbyte : (UInt8.ofNat (st.slotLimit - st.slotStart)).toNat = st.slotLimit - st.slotStart := by
    rw [UInt8.toNat_ofNat']
    omega
  have hhead : MessagePack.Head.decode (UInt8.ofNat (st.slotLimit - st.slotStart) :: rest) =
      some (.uint (st.slotLimit - st.slotStart), rest) := by
    unfold MessagePack.Head.decode
    dsimp only
    rw [hbyte, if_pos hcount]
  have hvalue : MessagePack.fromSlice (UInt8.ofNat (st.slotLimit - st.slotStart) :: rest) =
      some (.uint (st.slotLimit - st.slotStart)) := by
    rw [MessagePack.fromSlice, List.length_cons, Nat.mul_add, MessagePack.Value.decode, hhead]
    rfl
  rw [hrest, fromSlice, hvalue]
  rfl

/-! ## Opening it -/

/-- What the ciphers reject of a new file: the hidden password in front of the first password slot,
    the sealed header under the other ciphers, and the root directory under another key. -/
structure HiddenRejects (P : Primitives) (f : ByteFile) (lay : Layout) (cipher : CipherAlgorithm)
    (kHidden : Key) (password : List UInt8) : Prop where
  slot : tryPasswordSlot P (f.slice (pwSlotOffset 0) pwSlotSize) password = none
  header : ∀ key, deriveHiddenKey P (f.slice (f.size - 512) headerSize) password = .ok key →
    OnlyCipher P key true cipher (f.slice (f.size - 512) headerSize)
  root : ∀ key, deriveHiddenKey P (f.slice (f.size - 512) headerSize) password = .ok key →
    key ≠ kHidden → ∀ data, (hiddenStore lay cipher key).openSlot P (lay.outerSlots.toNat + 1)
      (f.slice (slotOffset (lay.outerSlots.toNat + 1)) slotSize) ≠ .ok data

/-- `open` with the hidden password hands out the hidden volume as `create` set it up: an empty root
    directory, and the free list and the generation of its allocation block. -/
def HiddenReopens (P : Primitives) (w : World) (lay : Layout) (cipher : CipherAlgorithm)
    (kHidden : Key) (password : List UInt8) : Prop :=
  ∃ c, openContainer P w (.password password) = .ok c ∧ c.isHidden = true ∧
    c.rootSlot.toNat = lay.outerSlots.toNat + 1 ∧
    readNode P c.rootSlot.toNat { container := c, world := w } = .ok emptyDirectory ∧
    c.store.free = (emptied (hiddenStore lay cipher kHidden) (lay.outerSlots.toNat + 1)).free ∧
    c.rootSlot.toNat ∉ c.store.free ∧ c.store.allocSlot ∉ c.store.free ∧ c.store.generation = 1

/-- The hidden header decodes, the drawn key is the derived one, the root directory and the
    allocation block have a slot each, and the drawn id is neither zero nor the id of a container
    that the device has seen at a later generation. -/
structure HiddenUsable (P : Primitives) (w : World) (lay : Layout) (cipher : CipherAlgorithm)
    (opts : HiddenVolumeOptions) : Prop where
  decodes : cipher = .xchacha20Poly1305
  key : passwordKey P opts.password (drawnHiddenSalt w lay cipher).toList (kdfId opts.kdfProfile) =
    .ok (drawnHiddenKey w lay)
  slots : 3 ≤ lay.hiddenSlots.toNat
  hasId : drawnHiddenId w lay ≠ zeroId
  baseline : drawnHiddenId w lay ≠ drawnContainerId w lay →
    ∀ stored, w.baseline (drawnHiddenId w lay) = some stored → stored ≤ 1

section Opening

open Created

variable {outerPassword : List UInt8} {totalSizeBytes : UInt64} {cipher : CipherAlgorithm}
  {kdfProfile : String} {label : Option String} {opts : HiddenVolumeOptions}
  {w w' : World} {m : VnmContainer} {b : Blocks} {hb : HiddenBlocks} {key : Key}

/-- The payload of the new hidden header. -/
def newHiddenPayload (w : World) (lay : Layout) (cipher : CipherAlgorithm)
    (opts : HiddenVolumeOptions) : HeaderPayload :=
  hiddenPayload lay cipher w.now opts (drawnHiddenId w lay)

namespace CreatedHidden

theorem findOuter_none
    (h : CreatedHidden P outerPassword totalSizeBytes cipher kdfProfile label opts w m w' b hb)
    (hslot : tryPasswordSlot P ((image b w').slice (pwSlotOffset 0) pwSlotSize) opts.password = none) :
    findOuter P w' (image b w').size (.password opts.password) = none := by
  refine findOuter_none_of_master ?_
  rw [h.created.recoverMaster_eq h.slotCounts]
  exact hslot

/-- At both places of the hidden header the search sees the one that was encoded last. -/
theorem tryHiddenAt_eq
    (h : CreatedHidden P outerPassword totalSizeBytes cipher kdfProfile label opts w m w' b hb)
    (hkey : deriveHiddenKey P hb.hdr opts.password = .ok key) {off : Nat}
    (hoff : off = (image b w').size - 512 ∨ off = 512) :
    tryHiddenAt P w' off opts.password = (probeHeader P hb.hdr key true).map fun p => (key, p) := by
  have hsize := h.created.size_ge.1
  have hread := read512At_eq h.created.file_eq (show off + 512 ≤ (image b w').size by omega)
  have hslice : (image b w').slice off 512 = hb.hdr := h.slice_header hoff
  rw [hslice] at hread
  unfold tryHiddenAt
  rw [hread]
  change (Option.bind (some hb.hdr) _) = _
  rw [Option.bind_some, hkey]
  change (Option.bind (some key) _) = _
  rw [Option.bind_some]
  cases probeHeader P hb.hdr key true <;> rfl

/-- Under XChaCha20-Poly1305 the hidden password finds the header. -/
theorem opens
    (h : CreatedHidden P outerPassword totalSizeBytes cipher kdfProfile label opts w m w' b hb)
    (hrejects : HiddenRejects P (image b w') b.lay cipher (drawnHiddenKey w b.lay) opts.password)
    (hcipher : cipher = .xchacha20Poly1305)
    (hkey : deriveHiddenKey P hb.hdr opts.password = .ok key) :
    openContainer P w' (.password opts.password) =
      openHidden P w' key (newHiddenPayload w b.lay cipher opts) := by
  obtain ⟨v, v', -, hhdr⟩ := h.header
  have hslice := h.slice_header (.inl rfl)
  have honly := hrejects.header key
  rw [hslice] at honly
  have hprobe := probeHeader_eq (hiddenHeader_decode hcipher hhdr hkey) (honly hkey)
  refine openContainer_hidden h.created.file_eq (h.findOuter_none hrejects.slot) ?_
  rw [findHidden, h.tryHiddenAt_eq hkey (.inl rfl), hprobe]
  rfl

/-- Under the other ciphers it does not. -/
theorem refused
    (h : CreatedHidden P outerPassword totalSizeBytes cipher kdfProfile label opts w m w' b hb)
    (hrejects : HiddenRejects P (image b w') b.lay cipher (drawnHiddenKey w b.lay) opts.password)
    (hpadded : (P.outermost cipher).RejectsPadded (headerAad true))
    (hcipher : cipher ≠ .xchacha20Poly1305)
    (hkey : deriveHiddenKey P hb.hdr opts.password = .ok key) :
    openContainer P w' (.password opts.password) = .error .authenticationFailed := by
  obtain ⟨v, v', -, hhdr⟩ := h.header
  have hslice := h.slice_header (.inl rfl)
  have honly := hrejects.header key
  rw [hslice] at honly
  have hprobe : probeHeader P hb.hdr key true = none := by
    refine List.findSome?_eq_none_iff.mpr fun c _ => ?_
    by_cases hc : c = cipher
    · have hown := hiddenHeader_rejected hpadded hcipher hhdr hkey
      rw [hc]
      exact congrArg Except.toOption hown
    · exact honly hkey c hc
  refine openContainer_password_none h.created.file_eq (h.findOuter_none hrejects.slot) ?_
  rw [findHidden, h.tryHiddenAt_eq hkey (.inl rfl), h.tryHiddenAt_eq hkey (.inr rfl), hprobe]
  rfl

theorem rootSlot_toNat
    (h : CreatedHidden P outerPassword totalSizeBytes cipher kdfProfile label opts w m w' b hb) :
    (newHiddenPayload w b.lay cipher opts).rootSlot.toNat = b.lay.outerSlots.toNat + 1 := by
  have hfile := h.created.sizes.fileSize
  have hlt := b.lay.fileSize.toNat_lt
  have hslot : slotSize = 32768 := rfl
  change (b.lay.outerSlots + 1).toNat = _
  rw [UInt64.toNat_add]
  change (b.lay.outerSlots.toNat + 1) % 2 ^ 64 = _
  rw [hslot] at hfile
  omega

/-- Reading a slot of the opened volume. -/
theorem openSlot_of_read
    (h : CreatedHidden P outerPassword totalSizeBytes cipher kdfProfile label opts w m w' b hb)
    {store : SlotStore} (hstore : store.masterKey = key ∧ store.cipher = cipher) {slot : Nat}
    {data : List UInt8} (hread : store.read P w' slot = .ok data) :
    (hiddenStore b.lay cipher key).openSlot P slot ((image b w').slice (slotOffset slot) slotSize) =
      .ok data := by
  have hholds := ((read_eq_ok h.created.file_eq).mp hread).2
  rwa [@openSlot_congr _ (hiddenStore b.lay cipher key) _ hstore.1 hstore.2] at hholds

/-- The node in the root slot is the directory `create` wrote exactly if the key is the one that was
    drawn and the allocation block lies elsewhere. -/
theorem readNode_root
    (h : CreatedHidden P outerPassword totalSizeBytes cipher kdfProfile label opts w m w' b hb)
    (hrejects : HiddenRejects P (image b w') b.lay cipher (drawnHiddenKey w b.lay) opts.password)
    (hkey : deriveHiddenKey P hb.hdr opts.password = .ok key) {c : VnmContainer}
    (hstore : c.store.masterKey = key ∧ c.store.cipher = cipher) :
    readNode P (b.lay.outerSlots.toNat + 1) { container := c, world := w' } = .ok emptyDirectory ↔
      key = drawnHiddenKey w b.lay ∧ 3 ≤ b.lay.hiddenSlots.toNat := by
  obtain ⟨st, hvolume⟩ := h.volume
  have htwo := h.slots
  have hderive := hrejects.root key
  rw [h.slice_header (.inl rfl)] at hderive
  constructor
  · intro hnode
    obtain ⟨data, hread, hdecode⟩ := except_bind_ok.mp
      (show (c.store.read P w' (b.lay.outerSlots.toNat + 1) >>= fun data => _) = _ from hnode)
    have hopen := h.openSlot_of_read hstore hread
    have heq : key = drawnHiddenKey w b.lay := by
      by_contra hne
      exact hderive hkey hne data hopen
    refine ⟨heq, ?_⟩
    by_contra hfew
    -- with two slots the allocation block lies in the root slot
    have hlast : b.lay.outerSlots.toNat + b.lay.hiddenSlots.toNat - 1 = b.lay.outerSlots.toNat + 1 := by
      omega
    have halloc := hvolume.allocOpens
    have hslice := h.slice_alloc
    rw [show (hiddenStore b.lay cipher (drawnHiddenKey w b.lay)).allocSlot =
      b.lay.outerSlots.toNat + b.lay.hiddenSlots.toNat - 1 from rfl, hlast] at halloc
    rw [hlast] at hslice
    rw [heq, hslice] at hopen
    cases hopen.symm.trans halloc
    rw [fromSlice_allocData (by
      change b.lay.outerSlots.toNat + b.lay.hiddenSlots.toNat - b.lay.outerSlots.toNat < 128
      omega)] at hdecode
    cases hdecode
  · rintro ⟨rfl, hthree⟩
    have hroot := hvolume.rootOpens
    rw [← h.slice_root hthree, ← @openSlot_congr _ (hiddenStore b.lay cipher (drawnHiddenKey w b.lay)) _
      hstore.1 hstore.2] at hroot
    have hinside := h.created.sizes.inside h.root.has
    rw [← h.created.size] at hinside
    have hread : c.store.read P w' (b.lay.outerSlots.toNat + 1) = .ok emptyPayload :=
      (read_eq_ok h.created.file_eq).mpr ⟨hinside, hroot⟩
    change (c.store.read P w' (b.lay.outerSlots.toNat + 1) >>= fun data => _) = _
    rw [except_bind_of_ok hread, fromSlice_toVecNamed toVecNamed_emptyDirectory]

theorem derived
    (h : CreatedHidden P outerPassword totalSizeBytes cipher kdfProfile label opts w m w' b hb) :
    ∃ key, deriveHiddenKey P hb.hdr opts.password = .ok key := by
  obtain ⟨v, v', -, hhdr⟩ := h.header
  obtain ⟨-, key, -, hkey, -⟩ := encodeHeaderWithPassword_sealed hhdr
  exact ⟨key, (deriveHiddenKey_encoded hhdr).trans hkey⟩

/-- The baseline of the hidden volume is what the device had before, unless the two ids coincide. -/
theorem baseline_le
    (h : CreatedHidden P outerPassword totalSizeBytes cipher kdfProfile label opts w m w' b hb) :
    (∀ stored, w'.baseline (drawnHiddenId w b.lay) = some stored → stored ≤ 1) ↔
      (drawnHiddenId w b.lay ≠ drawnContainerId w b.lay →
        ∀ stored, w.baseline (drawnHiddenId w b.lay) = some stored → stored ≤ 1) := by
  have hbase := h.created.baseline (drawnHiddenId w b.lay)
  by_cases hsame : drawnHiddenId w b.lay = drawnContainerId w b.lay
  · rw [if_pos hsame] at hbase
    refine ⟨fun _ hne => absurd hsame hne, fun _ stored hstored => ?_⟩
    cases hbase.symm.trans hstored
    exact Nat.le_refl 1
  · rw [if_neg hsame] at hbase
    rw [hbase]
    exact ⟨fun hle _ => hle, fun hle => hle hsame⟩

theorem reopens
    (h : CreatedHidden P outerPassword totalSizeBytes cipher kdfProfile label opts w m w' b hb)
    (hrejects : HiddenRejects P (image b w') b.lay cipher (drawnHiddenKey w b.lay) opts.password)
    (husable : HiddenUsable P w b.lay cipher opts) :
    HiddenReopens P w' b.lay cipher (drawnHiddenKey w b.lay) opts.password := by
  have hkey := h.derive.trans husable.key
  have hopen := h.opens hrejects husable.decodes hkey
  have hstore : storeToLoad (drawnHiddenKey w b.lay) (newHiddenPayload w b.lay cipher opts)
      b.lay.outerSlots.toNat (b.lay.outerSlots.toNat + b.lay.hiddenSlots.toNat)
      (b.lay.outerSlots.toNat + b.lay.hiddenSlots.toNat - 1) =
        hiddenStore b.lay cipher (drawnHiddenKey w b.lay) := by
    rw [storeToLoad, decide_eq_true (show (newHiddenPayload w b.lay cipher opts).containerId ≠ zeroId from
      husable.hasId)]
    rfl
  have hinside : slotOffset (b.lay.outerSlots.toNat + b.lay.hiddenSlots.toNat - 1) + slotSize ≤
      (image b w').size := by
    have hin := h.created.sizes.inside h.alloc.has
    rwa [← h.created.size] at hin
  have hlimit : (hiddenStore b.lay cipher (drawnHiddenKey w b.lay)).slotLimit -
      (hiddenStore b.lay cipher (drawnHiddenKey w b.lay)).slotStart < 2 ^ 64 := by
    rw [slots_hiddenStore]
    exact b.lay.hiddenSlots.toNat_lt
  obtain ⟨st, hvolume⟩ := h.volume
  obtain ⟨store, hload, hgeneration, hfree, hshape⟩ := hvolume.load rfl ⟨rfl, rfl⟩ hlimit
    h.created.file_eq hinside h.slice_alloc
  refine ⟨containerOf (drawnHiddenKey w b.lay) (newHiddenPayload w b.lay cipher opts) true
    b.lay.outerSlots store, ?_, rfl, h.rootSlot_toNat, ?_, hfree, ?_, ?_, hgeneration⟩
  · rw [hopen]
    refine openVolume_eq_ok.mpr ⟨store, ?_, fun _ stored hstored => ?_, rfl⟩
    · rw [← hload, ← hstore]
      rfl
    · rw [hgeneration]
      exact h.baseline_le.mpr husable.baseline stored hstored
  · change readNode P (newHiddenPayload w b.lay cipher opts).rootSlot.toNat _ = _
    rw [h.rootSlot_toNat]
    exact (h.readNode_root hrejects hkey ⟨hshape.masterKey, hshape.cipher⟩).mpr ⟨rfl, husable.slots⟩
  · intro hmem
    have hroot : (newHiddenPayload w b.lay cipher opts).rootSlot.toNat ∈ store.free := hmem
    rw [h.rootSlot_toNat, hfree, mem_emptied] at hroot
    exact hroot.2.2 rfl
  · intro hmem
    have halloc : store.allocSlot ∈ store.free := hmem
    rw [hshape.allocSlot, hfree, mem_emptied] at halloc
    exact halloc.2.1 rfl

theorem usable
    (h : CreatedHidden P outerPassword totalSizeBytes cipher kdfProfile label opts w m w' b hb)
    (hrejects : HiddenRejects P (image b w') b.lay cipher (drawnHiddenKey w b.lay) opts.password)
    (hpadded : (P.outermost cipher).RejectsPadded (headerAad true))
    (hreopens : HiddenReopens P w' b.lay cipher (drawnHiddenKey w b.lay) opts.password) :
    HiddenUsable P w b.lay cipher opts := by
  obtain ⟨c, hopen, -, hroot, hread, -, -, -, hgeneration⟩ := hreopens
  obtain ⟨key, hkey⟩ := h.derived
  have hcipher : cipher = .xchacha20Poly1305 := by
    by_contra hne
    rw [h.refused hrejects hpadded hne hkey] at hopen
    cases hopen
  rw [h.opens hrejects hcipher hkey] at hopen
  have hid : drawnHiddenId w b.lay ≠ zeroId := by
    intro hzero
    have hnone := generation_of_zeroId hopen hzero
    omega
  obtain ⟨store, hload, hbase, rfl⟩ := openVolume_eq_ok.mp hopen
  have hshape := loadFreeList_sameShape hload
  have hbaseline : ∀ stored, w'.baseline (drawnHiddenId w b.lay) = some stored → stored ≤ 1 := by
    intro stored hstored
    have hle := hbase hid stored hstored
    have hone : store.generation = 1 := hgeneration
    omega
  rw [hroot] at hread
  obtain ⟨rfl, hthree⟩ := (h.readNode_root hrejects hkey ⟨hshape.masterKey, hshape.cipher⟩).mp hread
  exact ⟨hcipher, h.derive.symm.trans hkey, hthree, hid, h.baseline_le.mp hbaseline⟩

end CreatedHidden

/-- A hidden volume can be used after `open` exactly if the drawn key is the derived one, and the
    other conditions of `HiddenUsable` hold. -/
theorem hidden_reopens_iff {lay : Layout} {f : ByteFile}
    (hcreate : (create P outerPassword totalSizeBytes cipher kdfProfile label (some opts)).run w =
      .ok m w')
    (hlay : layout totalSizeBytes (some opts.sizeBytes) = .ok lay) (hf : w'.file = some f)
    (hrejects : HiddenRejects P f lay cipher (drawnHiddenKey w lay) opts.password)
    (hpadded : (P.outermost cipher).RejectsPadded (headerAad true)) :
    HiddenReopens P w' lay cipher (drawnHiddenKey w lay) opts.password ↔
      HiddenUsable P w lay cipher opts := by
  obtain ⟨b, hb, h⟩ := create_hidden_ok hcreate
  cases hlay.symm.trans h.created.layout
  cases hf.symm.trans h.created.file_eq
  exact ⟨h.usable hrejects hpadded, h.reopens hrejects⟩

/-! ## A million bytes -/

/-- A slot that opens under the example primitives ends in the tag of its key. -/
theorem openSlot_plain {st : SlotStore} {slot : Nat} {buf data : List UInt8}
    (h : st.openSlot plain slot buf = .ok data) :
    (sub buf 4 (ofLittleEndian (buf.take 4))).drop
      ((sub buf 4 (ofLittleEndian (buf.take 4))).length - 16) =
        plainTag (plainMark st.cipher) (plainLayerKey (st.deriveSlotKey plain slot) st.cipher) := by
  unfold openSlot at h
  dsimp only at h
  by_cases hlen : ofLittleEndian (buf.take 4) < 36 ∨ 4 + ofLittleEndian (buf.take 4) > slotSize
  · rw [if_pos hlen] at h
    cases h
  · rw [if_neg hlen] at h
    cases hdec : decryptBlock plain (st.deriveSlotKey plain slot) st.cipher (littleEndian 8 slot)
        (sub buf 4 (ofLittleEndian (buf.take 4))) with
    | error e => rw [hdec] at h; cases h
    | ok body => exact decryptBlock_plain hdec

/-- The beginning of a slot's key is the beginning of the master key. -/
theorem deriveSlotKey_plain (st : SlotStore) (slot : Nat) :
    (st.deriveSlotKey plain slot).toList.take 15 = 13 :: st.masterKey.toList.take 14 := by
  have hkey : (st.deriveSlotKey plain slot).toList =
      (13 :: (st.masterKey.toList ++ littleEndian 8 slot)).take 32 :=
    toList_toBytes (by rw [List.length_cons, List.length_append, st.masterKey.toList_length]; omega)
  have hmin : min 15 32 = 14 + 1 := rfl
  rw [hkey, List.take_take, hmin, List.take_succ_cons,
    List.take_append_of_le_length (by rw [st.masterKey.toList_length]; decide)]

/-- What the example primitives reject of a new file. -/
theorem CreatedHidden.rejects_plain
    (h : CreatedHidden plain [1] totalSizeBytes .xchacha20Poly1305 kdfProfile label opts w m w' b hb)
    (hthree : 3 ≤ b.lay.hiddenSlots.toNat) (hpassword : opts.password = [2])
    (hk : (drawnKey w b.lay).toList = List.replicate 32 7)
    (hkey : drawnHiddenKey w b.lay = toBytes 32 [1, 2] ∨
      (drawnHiddenKey w b.lay).toList.take 14 ≠ (toBytes 32 [1, 2]).toList.take 14) :
    HiddenRejects plain (image b w') b.lay .xchacha20Poly1305 (drawnHiddenKey w b.lay) opts.password := by
  have hslot := h.created.slice_pwSlot (by simp)
  have hderive : ∀ key, deriveHiddenKey plain hb.hdr opts.password = .ok key → key = toBytes 32 [1, 2] := by
    intro key hd
    rw [h.derive, hpassword, plain_passwordKey] at hd
    exact (Except.ok.inj hd).symm
  have hslice := h.slice_header (.inl rfl)
  refine ⟨?_, fun key hd => ?_, fun key hd hne data hopen => ?_⟩
  · rw [hslot, hpassword]
    exact (h.created.parts.pwSlot (by simp)).rejects_plain hk (fun c => by cases c <;> decide) (by decide)
  · rw [hslice] at hd ⊢
    obtain ⟨v, v', -, hhdr⟩ := h.header
    exact (hiddenHeader_decode rfl hhdr hd).onlyCipher_plain rfl
  · rw [hslice] at hd
    obtain rfl := hderive key hd
    obtain ⟨st, hvolume⟩ := h.volume
    have hroot := hvolume.rootOpens
    rw [← h.slice_root hthree] at hroot
    have htag := (openSlot_plain hopen).symm.trans (openSlot_plain hroot)
    have hbegin := (plainTag_inj htag).1
    change ((hiddenStore b.lay .xchacha20Poly1305 (toBytes 32 [1, 2])).deriveSlotKey plain _).toList.take 15 =
      ((hiddenStore b.lay .xchacha20Poly1305 (drawnHiddenKey w b.lay)).deriveSlotKey plain _).toList.take 15
      at hbegin
    rw [deriveSlotKey_plain, deriveSlotKey_plain] at hbegin
    rcases hkey with heq | hdiff
    · exact hne heq.symm
    · exact hdiff (List.cons.inj hbegin).2.symm

/-- The drawn key of a new hidden volume is lost, and its slots with it. -/
theorem drawn_key_lost : ¬ ∀ (P : Primitives) (outerPassword : List UInt8) (totalSizeBytes : UInt64)
    (cipher : CipherAlgorithm) (kdfProfile : String) (label : Option String)
    (opts : HiddenVolumeOptions) (lay : Layout) (w w' : World) (m : VnmContainer) (f : ByteFile),
    (create P outerPassword totalSizeBytes cipher kdfProfile label (some opts)).run w = .ok m w' →
    layout totalSizeBytes (some opts.sizeBytes) = .ok lay → w'.file = some f →
    HiddenRejects P f lay cipher (drawnHiddenKey w lay) opts.password →
    (P.outermost cipher).RejectsPadded (headerAad true) →
    HiddenReopens P w' lay cipher (drawnHiddenKey w lay) opts.password := by
  intro hall
  obtain ⟨m, w', hcreate⟩ := create_hidden_isOk
  obtain ⟨b, hb, h⟩ := create_hidden_ok hcreate
  have hlay : layout 1000000 (some hiddenOptions.sizeBytes) = .ok ⟨26, 3, 1024, 967672⟩ := rfl
  have hb' : b.lay = ⟨26, 3, 1024, 967672⟩ := Except.ok.inj (h.created.layout.symm.trans hlay)
  have hdrawn : (drawnHiddenKey (freePath 7) b.lay).toList = List.replicate 32 7 := drawn_freePath 7 _ 32
  have hrejects := h.rejects_plain (by rw [hb']; decide) rfl (drawn_freePath 7 _ 32)
    (.inr (by rw [hdrawn]; decide))
  have hreopens := hall _ _ _ _ _ _ _ _ _ _ _ _ hcreate h.created.layout h.created.file_eq hrejects
    (plain_rejectsPadded _ _)
  have hkey := (h.usable hrejects (plain_rejectsPadded _ _) hreopens).key
  rw [plain_passwordKey] at hkey
  have hlist := congrArg List.Vector.toList (Except.ok.inj hkey)
  rw [hdrawn] at hlist
  exact absurd hlist (by decide)

/-- A random source that draws the key the password `[2]` yields. -/
def guessedKey : World :=
  { freePath 7 with
    rng := fun i => if i < 983088 ∨ 983120 ≤ i then 7 else (toBytes 32 [1, 2]).toList.getD (i - 983088) 0 }

theorem hidden_reopens_guessed : ∃ m w' f,
    (create plain [1] 1000000 .xchacha20Poly1305 "interactive" none (some hiddenOptions)).run guessedKey =
      .ok m w' ∧ w'.file = some f ∧ HiddenReopens plain w' ⟨26, 3, 1024, 967672⟩ .xchacha20Poly1305
        (drawnHiddenKey guessedKey ⟨26, 3, 1024, 967672⟩) hiddenOptions.password := by
  have hlay : layout 1000000 (some hiddenOptions.sizeBytes) = .ok ⟨26, 3, 1024, 967672⟩ := rfl
  obtain ⟨m, w', hcreate⟩ := @create_isOk plain ⟨26, 3, 1024, 967672⟩ .xchacha20Poly1305 guessedKey [1]
    1000000 "interactive" none (some hiddenOptions) rfl hlay (fun _ => plain_hasKeys _ _) (by decide) (by
      rintro h ⟨⟩
      exact ⟨plain_hasKeys _ _, by decide, by decide⟩)
  obtain ⟨b, hb, h⟩ := create_hidden_ok hcreate
  have hb' : b.lay = ⟨26, 3, 1024, 967672⟩ := Except.ok.inj (h.created.layout.symm.trans hlay)
  have hkey : drawnHiddenKey guessedKey ⟨26, 3, 1024, 967672⟩ = toBytes 32 [1, 2] :=
    List.Vector.toList_injective (by decide +kernel)
  have hrejects := h.rejects_plain (by rw [hb']; decide) rfl (by rw [hb']; decide +kernel)
    (.inl (by rw [hb']; exact hkey))
  rw [hb'] at hrejects
  refine ⟨m, w', _, hcreate, h.created.file_eq, (hidden_reopens_iff hcreate hlay h.created.file_eq hrejects
    (plain_rejectsPadded _ _)).mpr ⟨rfl, ?_, by decide, ?_, ?_⟩⟩
  · rw [plain_passwordKey, hkey]
    rfl
  · intro hzero
    exact absurd (congrArg List.Vector.toList hzero) (by decide +kernel)
  · intro _ stored hstored
    cases hstored

end Opening

end Venom.Fs
