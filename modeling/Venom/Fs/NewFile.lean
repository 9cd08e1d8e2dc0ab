import Venom.Fs.Created

/-! # The new file

What the file of a new container holds: every part the outer part of `create` writes is
written once, and the parts do not overlap.  The random fill and the hidden part lie
elsewhere or are overwritten.
-/

namespace Venom.Fs

open Venom.Container
open Venom.Crypto
open Venom.Storage
open Venom.Storage.SlotStore
open Venom.Library
open Venom.Library.Words
open Venom.Library.StateError

variable {P : Primitives}

/-! ## Writes to parts -/

/-- A write to one of the parts of a container. -/
structure AtPart (lay : Layout) (p : Part) (x : ByteFile.Write) : Prop where
  has : lay.Has p
  off : x.off = (lay.region p).off
  length : x.data.length = (lay.region p).len

/-- Every element of the second list has its partner in the first. -/
theorem forall₂_right {α β : Type} {R : α → β → Prop} {as : List α} {bs : List β} {b : β}
    (h : List.Forall₂ R as bs) (hb : b ∈ bs) : ∃ a ∈ as, R a b := by
  induction h with
  | nil => cases hb
  | @cons a b' as bs hab _ ih =>
    rcases List.mem_cons.mp hb with rfl | hb
    · exact ⟨a, .head _, hab⟩
    · obtain ⟨a', ha', h'⟩ := ih hb
      exact ⟨a', .tail _ ha', h'⟩

namespace AtPart

variable {total : UInt64} {hidden : Option UInt64} {lay : Layout} {p q : Part} {x y : ByteFile.Write}

theorem inside (h : AtPart lay p x) (hs : Sizes total hidden lay) :
    x.off + x.data.length ≤ lay.fileSize.toNat := by
  rw [h.off, h.length]
  exact hs.inside h.has

/-- A write to another part leaves a part alone. -/
theorem beside (h : AtPart lay q y) (hs : Sizes total hidden lay) (hp : lay.Has p) (hne : p ≠ q) :
    (lay.region p).off + (lay.region p).len ≤ y.off ∨
      y.off + y.data.length ≤ (lay.region p).off := by
  rw [h.off, h.length]
  exact hs.disjoint hp h.has hne

/-- Each part of a list of distinct parts holds what has been written to it. -/
theorem slice {parts : List Part} {ws : List ByteFile.Write} {f : ByteFile}
    (h : List.Forall₂ (AtPart lay) parts ws) (hs : Sizes total hidden lay) (hnodup : parts.Nodup)
    (hmem : (p, x) ∈ parts.zip ws) :
    (f.replay ws).slice (lay.region p).off (lay.region p).len = x.data := by
  induction h generalizing f with
  | nil => cases hmem
  | @cons q y parts ws hq hrest ih =>
    obtain ⟨hnot, hnodup⟩ := List.nodup_cons.mp hnodup
    rw [List.zip_cons_cons, List.mem_cons] at hmem
    rcases hmem with heq | hmem
    · cases heq
      refine @ByteFile.slice_replay [] _ _ _ _ _ hq.off hq.length fun z hz => ?_
      obtain ⟨r, hr, hrz⟩ := forall₂_right hrest hz
      exact hrz.beside hs hq.has fun he => hnot (he ▸ hr)
    · exact ih hnodup hmem

end AtPart

section File

variable {outerPassword : List UInt8} {totalSizeBytes : UInt64} {cipher : CipherAlgorithm}
  {kdfProfile : String} {label : Option String} {hidden : Option HiddenVolumeOptions}
  {w w' : World} {m : VnmContainer} {b : Blocks}

/-- The parts the hidden part of `create` writes. -/
theorem HiddenWrites.atPart {total : UInt64} {size : Option UInt64} {lay : Layout}
    {ws : List ByteFile.Write} (h : HiddenWrites lay ws) (hs : Sizes total size lay)
    (hsize : size.isSome) : ∀ x ∈ ws, ∃ p, (p = .hiddenPrimary ∨ p = .hiddenBackup ∨
      ∃ s, p = .hiddenSlot s) ∧ AtPart lay p x := by
  obtain ⟨hdr₁, hdr₂, root, alloc, hlen₁, hlen₂, hroot, halloc, -, rfl⟩ := h
  have hhid : lay.Has .hiddenPrimary := hs.hasHidden.trans hsize
  have htwo := hs.hiddenSome hsize
  intro x hx
  simp only [List.mem_cons, List.not_mem_nil, or_false] at hx
  rcases hx with rfl | rfl | rfl | rfl | rfl
  · exact ⟨.hiddenPrimary, .inl rfl, hhid, rfl, hlen₁⟩
  · exact ⟨.hiddenPrimary, .inl rfl, hhid, rfl, hlen₂⟩
  · exact ⟨.hiddenBackup, .inr (.inl rfl), trivial, rfl, hlen₂⟩
  · exact ⟨.hiddenSlot _, .inr (.inr ⟨_, rfl⟩), ⟨by omega, by omega⟩, rfl, hroot⟩
  · exact ⟨.hiddenSlot _, .inr (.inr ⟨_, rfl⟩), ⟨by omega, by omega⟩, rfl, halloc⟩

namespace Created

theorem sizes (h : Created P outerPassword totalSizeBytes cipher kdfProfile label hidden w m w' b) :
    Sizes totalSizeBytes (hidden.map (·.sizeBytes)) b.lay := layout_sizes h.layout

theorem hasHidden (h : Created P outerPassword totalSizeBytes cipher kdfProfile label hidden w m w' b) :
    b.lay.hasHidden = hidden.isSome := by
  rw [h.sizes.hasHidden, Option.isSome_map]

theorem header (h : Created P outerPassword totalSizeBytes cipher kdfProfile label hidden w m w' b) :
    AtPart b.lay .outerHeader ⟨0, b.hdr⟩ := ⟨trivial, rfl, h.parts.header.length⟩

theorem backup (h : Created P outerPassword totalSizeBytes cipher kdfProfile label hidden w m w' b) :
    AtPart b.lay .outerBackup ⟨outerBackupOffset b.lay.fileSize.toNat hidden.isSome, b.hdr⟩ :=
  ⟨trivial, by rw [← h.hasHidden]; rfl, h.parts.header.length⟩

theorem firstSlot (h : Created P outerPassword totalSizeBytes cipher kdfProfile label hidden w m w' b)
    (hne : outerPassword ≠ []) : AtPart b.lay (.pwSlot 0) ⟨pwSlotOffset 0, b.pwSlot⟩ :=
  ⟨by change 0 < 8; omega, rfl, (h.parts.pwSlot hne).1⟩

theorem root (h : Created P outerPassword totalSizeBytes cipher kdfProfile label hidden w m w' b) :
    AtPart b.lay (.outerSlot outerRootSlot) ⟨slotOffset outerRootSlot, b.root⟩ := by
  have htwo := h.sizes.outer
  exact ⟨by change 1 < _; omega, rfl, h.parts.volume.rootLength⟩

theorem alloc (h : Created P outerPassword totalSizeBytes cipher kdfProfile label hidden w m w' b) :
    AtPart b.lay (.outerSlot outerAllocSlot) ⟨slotOffset outerAllocSlot, b.alloc⟩ := by
  have htwo := h.sizes.outer
  exact ⟨by change 0 < _; omega, rfl, h.parts.volume.allocLength⟩

/-- The parts the outer part of `create` writes, in order. -/
def outerParts (outerPassword : List UInt8) : List Part :=
  [.outerHeader, .outerBackup] ++ (if outerPassword.isEmpty then [] else [.pwSlot 0]) ++
    [.outerSlot outerRootSlot, .outerSlot outerAllocSlot]

theorem nodup_outerParts (outerPassword : List UInt8) : (outerParts outerPassword).Nodup := by
  unfold outerParts outerRootSlot outerAllocSlot
  split <;> simp

theorem outer_atPart
    (h : Created P outerPassword totalSizeBytes cipher kdfProfile label hidden w m w' b) :
    List.Forall₂ (AtPart b.lay) (outerParts outerPassword)
      (outerWrites b.lay hidden.isSome outerPassword b.hdr b.pwSlot b.root b.alloc) := by
  unfold outerParts outerWrites
  refine List.rel_append (List.rel_append ?_ ?_) ?_
  · exact .cons h.header (.cons h.backup .nil)
  · by_cases hempty : outerPassword.isEmpty = true
    · rw [if_pos hempty, if_pos hempty]
      exact .nil
    · rw [if_neg hempty, if_neg hempty]
      exact .cons (h.firstSlot fun hnil => hempty (by rw [hnil]; rfl)) .nil
  · exact .cons h.root (.cons h.alloc .nil)

theorem writes_inside
    (h : Created P outerPassword totalSizeBytes cipher kdfProfile label hidden w m w' b) :
    ∀ x ∈ w'.issued, x.off + x.data.length ≤ b.lay.fileSize.toNat := by
  intro x hx
  rw [h.issued, List.mem_append, List.mem_append] at hx
  rcases hx with (hx | hx) | hx
  · exact mem_fillWrites hx
  · cases hidden with
    | none =>
      rw [h.hiddenNone rfl] at hx
      cases hx
    | some opts =>
      obtain ⟨p, -, hp⟩ := (h.hiddenSome rfl).atPart h.sizes rfl x hx
      exact hp.inside h.sizes
  · obtain ⟨p, -, hp⟩ := forall₂_right h.outer_atPart hx
    exact hp.inside h.sizes

/-- The new file. -/
def image (b : Blocks) (w' : World) : ByteFile := (zeroFile b.lay.fileSize.toNat).replay w'.issued

theorem file_eq (h : Created P outerPassword totalSizeBytes cipher kdfProfile label hidden w m w' b) :
    w'.file = some (image b w') := h.file

theorem size (h : Created P outerPassword totalSizeBytes cipher kdfProfile label hidden w m w' b) :
    (image b w').size = b.lay.fileSize.toNat := ByteFile.size_replay h.writes_inside

/-- What has been written to a part of the outer volume is in the new file. -/
theorem slice (h : Created P outerPassword totalSizeBytes cipher kdfProfile label hidden w m w' b)
    {p : Part} {x : ByteFile.Write} (hmem : (p, x) ∈ (outerParts outerPassword).zip
      (outerWrites b.lay hidden.isSome outerPassword b.hdr b.pwSlot b.root b.alloc)) :
    (image b w').slice (b.lay.region p).off (b.lay.region p).len = x.data := by
  rw [image, h.issued, ByteFile.replay_append]
  exact AtPart.slice h.outer_atPart h.sizes (nodup_outerParts _) hmem

theorem slice_header
    (h : Created P outerPassword totalSizeBytes cipher kdfProfile label hidden w m w' b) :
    (image b w').slice 0 headerSize = b.hdr := by
  have hmem : (Part.outerHeader, (⟨0, b.hdr⟩ : ByteFile.Write)) ∈ (outerParts outerPassword).zip
      (outerWrites b.lay hidden.isSome outerPassword b.hdr b.pwSlot b.root b.alloc) := by
    simp [outerParts, outerWrites]
  have hslice := h.slice hmem
  have hregion : b.lay.region .outerHeader = ⟨0, headerSize⟩ := rfl
  rw [hregion] at hslice
  exact hslice

theorem slice_backup
    (h : Created P outerPassword totalSizeBytes cipher kdfProfile label hidden w m w' b) :
    (image b w').slice (outerBackupOffset b.lay.fileSize.toNat hidden.isSome) headerSize = b.hdr := by
  have hmem : (Part.outerBackup, (⟨outerBackupOffset b.lay.fileSize.toNat hidden.isSome, b.hdr⟩ :
      ByteFile.Write)) ∈ (outerParts outerPassword).zip
      (outerWrites b.lay hidden.isSome outerPassword b.hdr b.pwSlot b.root b.alloc) := by
    simp [outerParts, outerWrites]
  have hslice := h.slice hmem
  have hregion : b.lay.region .outerBackup =
      ⟨outerBackupOffset b.lay.fileSize.toNat hidden.isSome, headerSize⟩ := by
    rw [← h.hasHidden]
    rfl
  rw [hregion] at hslice
  exact hslice

theorem slice_pwSlot
    (h : Created P outerPassword totalSizeBytes cipher kdfProfile label hidden w m w' b)
    (hne : outerPassword ≠ []) : (image b w').slice (pwSlotOffset 0) pwSlotSize = b.pwSlot := by
  refine h.slice (p := .pwSlot 0) (x := ⟨pwSlotOffset 0, b.pwSlot⟩) ?_
  have hempty : outerPassword.isEmpty = false := by
    cases outerPassword with
    | nil => exact absurd rfl hne
    | cons _ _ => rfl
  simp [outerParts, outerWrites, hempty]

theorem slice_root
    (h : Created P outerPassword totalSizeBytes cipher kdfProfile label hidden w m w' b) :
    (image b w').slice (slotOffset outerRootSlot) slotSize = b.root := by
  refine h.slice (p := .outerSlot outerRootSlot) (x := ⟨slotOffset outerRootSlot, b.root⟩) ?_
  cases hempty : outerPassword.isEmpty <;> simp [outerParts, outerWrites, hempty]

theorem slice_alloc
    (h : Created P outerPassword totalSizeBytes cipher kdfProfile label hidden w m w' b) :
    (image b w').slice (slotOffset outerAllocSlot) slotSize = b.alloc := by
  refine h.slice (p := .outerSlot outerAllocSlot) (x := ⟨slotOffset outerAllocSlot, b.alloc⟩) ?_
  cases hempty : outerPassword.isEmpty <;> simp [outerParts, outerWrites, hempty]

/-- What the hidden part has written to one of its parts stays, unless the hidden part itself
    writes there again. -/
theorem slice_hidden
    (h : Created P outerPassword totalSizeBytes cipher kdfProfile label hidden w m w' b)
    {before after : List ByteFile.Write} {p : Part} {x : ByteFile.Write} {off len : Nat}
    (hws : b.hiddenWrites = before ++ x :: after)
    (hp : p = .hiddenPrimary ∨ p = .hiddenBackup ∨ ∃ s, p = .hiddenSlot s) (hat : AtPart b.lay p x)
    (hregion : b.lay.region p = ⟨off, len⟩) (hafter : ∀ y ∈ after, ∃ q, q ≠ p ∧ AtPart b.lay q y) :
    (image b w').slice off len = x.data := by
  have hothers : ∀ y ∈ after ++ outerWrites b.lay hidden.isSome outerPassword b.hdr b.pwSlot b.root
      b.alloc, ∃ q, q ≠ p ∧ AtPart b.lay q y := by
    intro y hy
    rcases List.mem_append.mp hy with hy | hy
    · exact hafter y hy
    · obtain ⟨q, hq, hy⟩ := forall₂_right h.outer_atPart hy
      refine ⟨q, ?_, hy⟩
      -- none of the outer parts is one of the hidden parts
      rintro rfl
      unfold outerParts at hq
      rcases hp with rfl | rfl | ⟨s, rfl⟩ <;> split at hq <;> simp at hq
  have hslice := @ByteFile.slice_replay (fillWrites w b.lay.fileSize.toNat ++ before) _ x
    (zeroFile b.lay.fileSize.toNat) _ _ hat.off hat.length fun y hy => by
      obtain ⟨q, hne, hy⟩ := hothers y hy
      exact hy.beside h.sizes hat.has hne.symm
  rw [hregion] at hslice
  have hissued : w'.issued = (fillWrites w b.lay.fileSize.toNat ++ before) ++ x :: (after ++
      outerWrites b.lay hidden.isSome outerPassword b.hdr b.pwSlot b.root b.alloc) := by
    rw [h.issued, hws]
    simp only [List.append_assoc, List.cons_append]
  rw [image, hissued, hslice]

/-- The hidden header at the end of the new file names one password slot. -/
theorem hidden_counts
    (h : Created P outerPassword totalSizeBytes cipher kdfProfile label hidden w m w' b)
    (hhidden : hidden.isSome) : ∃ kdfProfile, readHeaderPlaintext
      ((image b w').slice ((image b w').size - 512) headerSize) = (kdfProfile, 1, 0) := by
  obtain ⟨hdr₁, hdr₂, root, alloc, hlen₁, hlen₂, hroot, halloc, hplain, hws⟩ := h.hiddenSome hhidden
  have htwo := h.sizes.hiddenSome (by rw [Option.isSome_map]; exact hhidden)
  have hsplit : b.hiddenWrites = [⟨b.lay.fileSize.toNat - 512, hdr₁⟩] ++
      ⟨b.lay.fileSize.toNat - 512, hdr₂⟩ :: _ := hws
  have hregion : b.lay.region .hiddenPrimary = ⟨b.lay.fileSize.toNat - 512, headerSize⟩ := rfl
  have hslice := h.slice_hidden hsplit (.inl rfl) ⟨h.hasHidden.trans hhidden, rfl, hlen₂⟩ hregion
    fun y hy => by
      simp only [List.mem_cons, List.not_mem_nil, or_false] at hy
      rcases hy with rfl | rfl | rfl
      · exact ⟨.hiddenBackup, by simp, trivial, rfl, hlen₂⟩
      · exact ⟨.hiddenSlot _, by simp, ⟨by omega, by omega⟩, rfl, hroot⟩
      · exact ⟨.hiddenSlot _, by simp, ⟨by omega, by omega⟩, rfl, halloc⟩
  rw [h.size, hslice]
  exact hplain

/-! ## The store of a new container -/

theorem store (h : Created P outerPassword totalSizeBytes cipher kdfProfile label hidden w m w' b) :
    m.store = { (emptied (outerStore b.lay cipher (drawnKey w b.lay)) outerRootSlot).saved with
      merkleDirty := true } := h.parts.volume.store

/-- The generation is 1, and so is the baseline. -/
theorem generation
    (h : Created P outerPassword totalSizeBytes cipher kdfProfile label hidden w m w' b) :
    m.store.generation = 1 := by
  rw [h.store]
  rfl

theorem baseline
    (h : Created P outerPassword totalSizeBytes cipher kdfProfile label hidden w m w' b)
    (containerId : Bytes 16) : w'.baseline containerId =
      if containerId = drawnContainerId w b.lay then some 1 else w.baseline containerId := by
  change w'.rollback.get _ = _
  rw [h.rollback, h.generation]
  exact RollbackState.baseline_updated _ _ _ _

/-- The root directory of a new container is empty. -/
theorem holds_root
    (h : Created P outerPassword totalSizeBytes cipher kdfProfile label hidden w m w' b)
    {st : SlotStore} (hkey : st.masterKey = drawnKey w b.lay) (hcipher : st.cipher = cipher) :
    Holds P st (image b w') outerRootSlot emptyPayload := by
  refine ⟨?_, ?_⟩
  · rw [h.size]
    exact h.sizes.inside h.root.has
  · rw [h.slice_root, @openSlot_congr _ (outerStore b.lay cipher (drawnKey w b.lay)) _ hkey hcipher]
    exact h.parts.volume.rootOpens

theorem holds_alloc
    (h : Created P outerPassword totalSizeBytes cipher kdfProfile label hidden w m w' b)
    {st : SlotStore} (hkey : st.masterKey = drawnKey w b.lay) (hcipher : st.cipher = cipher) :
    Holds P st (image b w') outerAllocSlot
      ((emptied (outerStore b.lay cipher (drawnKey w b.lay)) outerRootSlot).saved.allocData
        b.bitmap) := by
  refine ⟨?_, ?_⟩
  · rw [h.size]
    exact h.sizes.inside h.alloc.has
  · rw [h.slice_alloc, @openSlot_congr _ (outerStore b.lay cipher (drawnKey w b.lay)) _ hkey
      hcipher]
    exact h.parts.volume.allocOpens

end Created

end File

end Venom.Fs
