import Venom.Fs.Reopening
import Venom.Fs.AccessList

/-! # Removing a key recipient

The slots behind the removed one move down one by one, the last place is filled with random
bytes, and the two header copies are written.  Whatever prefix of these writes reaches the
file, it opens for everybody else: a slot is copied before its old place is overwritten, and
the count in force covers both.
-/

namespace Venom.Fs

open Venom.Container
open Venom.Crypto
open Venom.Storage
open Venom.Storage.SlotStore
open Venom.Library
open Venom.Library.Words
open Venom.Library.StateError

variable {P : Primitives}

/-! ## The slots on their way -/

section Slots

variable {w : World} {f : ByteFile} {slotIndex j : Nat}

/-- Where the slot that moves to place `j` comes from. -/
def movedFrom (slotIndex j : Nat) : Nat := if j < slotIndex then j else j + 1

theorem getElem?_slotsAfterRemoval (hrange : slotIndex < (primaryKeyCount f).toNat)
    (hj : j < (primaryKeyCount f).toNat - 1) :
    (slotsAfterRemoval w f slotIndex)[j]? = some (keySlotBytes f (movedFrom slotIndex j)) := by
  have hlength := @length_slotsAfterRemoval w _ _ hrange
  rw [slotsAfterRemoval, List.length_append, List.length_singleton] at hlength
  rw [slotsAfterRemoval, List.getElem?_append_left (by omega), keptSlots, List.getElem?_eraseIdx,
    movedFrom]
  split
  · rw [List.getElem?_map, List.getElem?_range (by omega), Option.map_some]
  · rw [List.getElem?_map, List.getElem?_range (by omega), Option.map_some]

theorem getElem?_slotsAfterRemoval_last (hrange : slotIndex < (primaryKeyCount f).toNat) :
    (slotsAfterRemoval w f slotIndex)[(primaryKeyCount f).toNat - 1]? =
      some (w.drawn keySlotSize).toList := by
  have hlength := @length_slotsAfterRemoval w _ _ hrange
  rw [slotsAfterRemoval, List.length_append, List.length_singleton] at hlength
  have hlast : (primaryKeyCount f).toNat - 1 = (keptSlots f slotIndex).length := by omega
  rw [slotsAfterRemoval, hlast, List.getElem?_concat_length]

theorem keyWrites_take (slots : List (List UInt8)) (s : Nat) :
    (keyWrites slots).take s = keyWrites (slots.take s) := by
  rw [keyWrites, keyWrites, indexedWrites, indexedWrites, ← List.map_take]
  congr 1
  apply List.ext_getElem?
  intro j
  by_cases hj : j < s
  · simp [List.getElem?_take_of_lt hj, List.getElem?_zipIdx]
  · rw [List.getElem?_eq_none (by simp; omega), List.getElem?_eq_none (by simp; omega)]

end Slots

/-- A file on the way from `f`: every key slot counted is one that `f` has, or random bytes,
    and the slots of `f` but the removed one are all there. -/
structure Covers (f g : ByteFile) (slotIndex b : Nat) (random : List UInt8) : Prop where
  known : ∀ j < b, keySlotBytes g j = random ∨
    ∃ j' < (primaryKeyCount f).toNat, keySlotBytes g j = keySlotBytes f j'
  others : ∀ j' < (primaryKeyCount f).toNat, j' ≠ slotIndex →
    ∃ j < b, keySlotBytes g j = keySlotBytes f j'

/-- Nothing is left of the removed slot. -/
structure Removed (f g : ByteFile) (slotIndex : Nat) (random : List UInt8) : Prop where
  kept : ∀ j < (primaryKeyCount f).toNat - 1, ∃ j' < (primaryKeyCount f).toNat, j' ≠ slotIndex ∧
    keySlotBytes g j = keySlotBytes f j'
  wiped : keySlotBytes g ((primaryKeyCount f).toNat - 1) = random
  behind : ∀ j, (primaryKeyCount f).toNat ≤ j → j < 256 → keySlotBytes g j = keySlotBytes f j

section Moving

variable {total : UInt64} {hidden : Option UInt64} {lay : Layout} {w : World} {f g : ByteFile}
  {slotIndex : Nat}

/-- When `s` of the slots are written, the places before `s` hold them. -/
theorem covers_partial (hrange : slotIndex < (primaryKeyCount f).toNat) {s : Nat}
    (hslots : ∀ j < (primaryKeyCount f).toNat, keySlotBytes g j =
      (((slotsAfterRemoval w f slotIndex).take s)[j]?).getD (keySlotBytes f j)) :
    Covers f g slotIndex (primaryKeyCount f).toNat (w.drawn keySlotSize).toList := by
  have hbefore : ∀ j < s, j < (primaryKeyCount f).toNat - 1 →
      keySlotBytes g j = keySlotBytes f (movedFrom slotIndex j) := by
    intro j hj hlt
    rw [hslots j (by omega), List.getElem?_take_of_lt hj, getElem?_slotsAfterRemoval hrange hlt,
      Option.getD_some]
  have hafter : ∀ j, s ≤ j → j < (primaryKeyCount f).toNat → keySlotBytes g j = keySlotBytes f j := by
    intro j hj hlt
    rw [hslots j hlt, List.getElem?_eq_none (by rw [List.length_take]; omega), Option.getD_none]
  constructor
  · intro j hj
    by_cases hs : j < s
    · by_cases hlast : j < (primaryKeyCount f).toNat - 1
      · refine .inr ⟨movedFrom slotIndex j, ?_, hbefore j hs hlast⟩
        unfold movedFrom
        split <;> omega
      · -- the last place
        have he : j = (primaryKeyCount f).toNat - 1 := by omega
        rw [hslots j hj, List.getElem?_take_of_lt hs, he, getElem?_slotsAfterRemoval_last hrange]
        exact .inl rfl
    · exact .inr ⟨j, hj, hafter j (by omega) hj⟩
  · intro j' hj' hne
    rcases Nat.lt_or_gt_of_ne hne with hlt | hgt
    · -- a slot in front of the removed one stays where it is
      by_cases hs : j' < s
      · refine ⟨j', hj', (hbefore j' hs (by omega)).trans ?_⟩
        rw [movedFrom, if_pos hlt]
      · exact ⟨j', hj', hafter j' (by omega) hj'⟩
    · -- one behind it is copied before its place is overwritten
      by_cases hs : j' < s
      · refine ⟨j' - 1, by omega, (hbefore (j' - 1) (by omega) (by omega)).trans ?_⟩
        rw [movedFrom, if_neg (by omega), Nat.sub_add_cancel (by omega)]
      · exact ⟨j', hj', hafter j' (by omega) hj'⟩

/-- When all are written, the last place is no longer needed. -/
theorem covers_all (hrange : slotIndex < (primaryKeyCount f).toNat)
    (hslots : ∀ j < (primaryKeyCount f).toNat,
      (slotsAfterRemoval w f slotIndex)[j]? = some (keySlotBytes g j)) :
    Covers f g slotIndex ((primaryKeyCount f).toNat - 1) (w.drawn keySlotSize).toList := by
  have hmoved : ∀ j < (primaryKeyCount f).toNat - 1,
      keySlotBytes g j = keySlotBytes f (movedFrom slotIndex j) := by
    intro j hj
    have hget := hslots j (by omega)
    rw [getElem?_slotsAfterRemoval hrange hj] at hget
    exact (Option.some.inj hget).symm
  constructor
  · intro j hj
    refine .inr ⟨movedFrom slotIndex j, ?_, hmoved j hj⟩
    unfold movedFrom
    split <;> omega
  · intro j' hj' hne
    rcases Nat.lt_or_gt_of_ne hne with hlt | hgt
    · refine ⟨j', by omega, (hmoved j' (by omega)).trans ?_⟩
      rw [movedFrom, if_pos hlt]
    · refine ⟨j' - 1, by omega, (hmoved (j' - 1) (by omega)).trans ?_⟩
      rw [movedFrom, if_neg (by omega), Nat.sub_add_cancel (by omega)]

theorem removed_all (hrange : slotIndex < (primaryKeyCount f).toNat)
    (hslots : ∀ j < (primaryKeyCount f).toNat,
      (slotsAfterRemoval w f slotIndex)[j]? = some (keySlotBytes g j))
    (hbehind : ∀ j, (primaryKeyCount f).toNat ≤ j → j < 256 → keySlotBytes g j = keySlotBytes f j) :
    Removed f g slotIndex (w.drawn keySlotSize).toList := by
  refine ⟨fun j hj => ?_, ?_, hbehind⟩
  · have hget := hslots j (by omega)
    rw [getElem?_slotsAfterRemoval hrange hj] at hget
    refine ⟨movedFrom slotIndex j, ?_, ?_, (Option.some.inj hget).symm⟩
    · unfold movedFrom
      split <;> omega
    · unfold movedFrom
      split <;> omega
  · have hget := hslots ((primaryKeyCount f).toNat - 1) (by omega)
    rw [getElem?_slotsAfterRemoval_last hrange] at hget
    exact (Option.some.inj hget).symm

end Moving

/-! ## Every prefix of the writes -/

/-- The primary header and the slots of a file carry an access list; its backup header may be
    anything. -/
structure Listed (P : Primitives) (lay : Layout) (k : Key) (payload : HeaderPayload) (l : AccessList)
    (f : ByteFile) : Prop where
  size : f.size = lay.fileSize.toNat
  passwords_le : l.passwords.length ≤ maxPasswordSlots
  keys_le : l.keys.length ≤ maxKeySlots
  header : IsHeader P k false (counted payload l) (f.slice 0 512)
  pwSlot : ∀ i p, l.passwords[i]? = some p →
    IsPasswordSlot P k p (f.slice (pwSlotOffset i) pwSlotSize)
  keySlot : ∀ j pk, l.keys[j]? = some pk → IsKeySlot P k pk payload.cipher (keySlotBytes f j)

/-- The header after a removal, with `b` key slots. -/
def countedKeys (payload : HeaderPayload) (l : AccessList) (b : Nat) : HeaderPayload :=
  { counted payload l with numKeySlots := UInt8.ofNat b }

/-- What a prefix of the writes of a removal leaves. -/
structure Stage (P : Primitives) (lay : Layout) (k : Key) (payload : HeaderPayload) (l : AccessList)
    (slotIndex b : Nat) (random : List UInt8) (f g : ByteFile) : Prop where
  area : StaysInArea lay f g
  pwSlot : ∀ i < maxPasswordSlots,
    g.slice (pwSlotOffset i) pwSlotSize = f.slice (pwSlotOffset i) pwSlotSize
  header : IsHeader P k false (countedKeys payload l b) (g.slice 0 512)
  only : OnlyCipher P k false payload.cipher (g.slice 0 512)
  covers : Covers f g slotIndex b random

theorem Granted.toListed {lay : Layout} {k : Key} {payload : HeaderPayload} {l : AccessList}
    {f : ByteFile} (h : Granted P lay k payload l f) : Listed P lay k payload l f :=
  ⟨h.size, h.passwords_le, h.keys_le, h.header, h.pwSlot, h.keySlot⟩

section Prefixes

variable {total : UInt64} {hidden : Option UInt64} {lay : Layout} {k : Key} {payload : HeaderPayload}
  {l : AccessList} {w : World} {f : ByteFile} {slotIndex : Nat} {hdr : List UInt8}

theorem Listed.keyCount (h : Listed P lay k payload l f) :
    (primaryKeyCount f).toNat = l.keys.length := by
  rw [primaryKeyCount, primaryPlaintext, h.header.plaintext]
  exact toNat_ofNat_le h.keys_le

/-- A key slot after writes to the first few and to other parts. -/
theorem keySlot_replay {slots : List (List UInt8)} {ps : List Part} {rest : List ByteFile.Write}
    (hs : Sizes total hidden lay) (hsize : f.size = lay.fileSize.toNat)
    (hr : Rewrites lay (keyParts slots ++ ps) (keyWrites slots ++ rest))
    (hps : ∀ j, Part.keySlot j ∉ ps) {j : Nat} (hj : j < maxKeySlots) :
    keySlotBytes (f.replay (keyWrites slots ++ rest)) j = (slots[j]?).getD (keySlotBytes f j) := by
  cases hslot : slots[j]? with
  | some slot =>
    rw [Option.getD_some]
    refine hr.keySlot_self hs ?_
    rw [List.zip_append (length_keyWrites slots), keyParts, keyWrites, indexedWrites, List.zip_map']
    exact List.mem_append_left _
      (List.mem_map.mpr ⟨(slot, j), List.mem_zipIdx_iff_getElem?.mpr hslot, rfl⟩)
  | none =>
    rw [Option.getD_none]
    refine hr.keySlot_other hs hsize hj fun hmem => ?_
    rcases List.mem_append.mp hmem with hmem | hmem
    · rw [keyParts_eq] at hmem
      obtain ⟨i, hi, he⟩ := List.mem_map.mp hmem
      cases he
      have := List.getElem?_eq_none_iff.mp hslot
      have := List.mem_range.mp hi
      omega
    · exact hps j hmem

theorem pwSlot_replay {slots : List (List UInt8)} {ps : List Part} {rest : List ByteFile.Write}
    (hs : Sizes total hidden lay) (hsize : f.size = lay.fileSize.toNat)
    (hr : Rewrites lay (keyParts slots ++ ps) (keyWrites slots ++ rest))
    (hps : ∀ i, Part.pwSlot i ∉ ps) {i : Nat} (hi : i < maxPasswordSlots) :
    (f.replay (keyWrites slots ++ rest)).slice (pwSlotOffset i) pwSlotSize =
      f.slice (pwSlotOffset i) pwSlotSize := by
  refine hr.pwSlot_other hs hsize hi fun hmem => ?_
  rcases List.mem_append.mp hmem with hmem | hmem
  · obtain ⟨j, he⟩ := mem_keyParts hmem
    cases he
  · exact hps i hmem

/-- The slots of a removal fit their places. -/
theorem slots_rewrites (h : Listed P lay k payload l f) (hi : slotIndex < l.keys.length)
    {slots : List (List UInt8)} (hsub : slots <+: slotsAfterRemoval w f slotIndex) :
    Rewrites lay (keyParts slots) (keyWrites slots) := by
  have hlength := @length_slotsAfterRemoval w f slotIndex (by rw [h.keyCount]; exact hi)
  have hkeys := h.keys_le
  refine keySlots_rewrites (fun s hmem => length_of_mem_slotsAfterRemoval (hsub.subset hmem)) ?_
  have := hsub.length_le
  rw [h.keyCount] at hlength
  omega

/-- The header write alone, behind the slots. -/
theorem primary_rewrites (h : Listed P lay k payload l f) (hi : slotIndex < l.keys.length)
    (hhdr : hdr.length = headerSize) : Rewrites lay
      (keyParts (slotsAfterRemoval w f slotIndex) ++ [.outerHeader])
      (keyWrites (slotsAfterRemoval w f slotIndex) ++ [⟨0, hdr⟩]) := by
  have hslots := slots_rewrites (w := w) h hi (List.prefix_refl _)
  refine ⟨List.rel_append hslots.atPart (.cons ⟨trivial, rfl, hhdr⟩ .nil),
    hslots.nodup.append (List.nodup_singleton _) fun p hp hp' => ?_⟩
  obtain ⟨j, rfl⟩ := mem_keyParts hp
  cases List.mem_singleton.mp hp'

theorem all_rewrites (h : Listed P lay k payload l f) (hs : Sizes total hidden lay)
    (hi : slotIndex < l.keys.length) (hhdr : hdr.length = headerSize) : Rewrites lay
      (keyParts (slotsAfterRemoval w f slotIndex) ++ headerParts)
      (keyWrites (slotsAfterRemoval w f slotIndex) ++ headerWrites lay hdr) := by
  refine (slots_rewrites h hi (List.prefix_refl _)).headers hs hhdr fun p hp => ?_
  obtain ⟨j, rfl⟩ := mem_keyParts hp
  simp [headerParts]

/-- The writes of a removal stay in the area. -/
theorem removal_area (hlay : layout total hidden = .ok lay) (h : Listed P lay k payload l f)
    (hi : slotIndex < l.keys.length) (hhdr : hdr.length = headerSize) :
    ∀ x ∈ keyWrites (slotsAfterRemoval w f slotIndex) ++ headerWrites lay hdr, IsAreaWrite lay x := by
  have hlength := @length_slotsAfterRemoval w f slotIndex (by rw [h.keyCount]; exact hi)
  have hkeys := h.keys_le
  rw [h.keyCount] at hlength
  have hslots := @isAreaWrite_slots _ _ _ hlay (keyWrites (slotsAfterRemoval w f slotIndex))
    fun x hx => by
      obtain ⟨j, hj, hoff⟩ := of_mem_keyWrites hx
      have hlen : _ = 1743 := length_of_mem_slotsAfterRemoval (List.mem_of_getElem? hj)
      have hlt := (List.getElem?_eq_some_iff.mp hj).1
      have hregion : headerRegionSize = 1024 := rfl
      rw [maxKeySlots_eq] at hkeys
      rw [hoff, keySlotOffset_eq, dataAreaOffset_eq]
      omega
  exact fun x hx => (List.mem_append.mp hx).elim (hslots x) (isAreaWrite_headers hlay hhdr x)

/-- Bytes between the recipient area and the backup header. -/
theorem StaysInArea.slice_behind {g : ByteFile} (harea : StaysInArea lay f g)
    (hs : Sizes total hidden lay) (hsize : f.size = lay.fileSize.toNat) {off len : Nat}
    (hlo : dataAreaOffset ≤ off)
    (hhi : off + len ≤ outerBackupOffset lay.fileSize.toNat lay.hasHidden) :
    g.slice off len = f.slice off len := by
  have hback := backup_inside hs
  exact ByteFile.AgreeOn.slice_eq fun i hfrom hto =>
    harea.outside i (by omega) (not_inRecipientArea (by omega) (by omega))

/-- A number of slots has been written. -/
theorem stage_of_slots (h : Listed P lay k payload l f) (hs : Sizes total hidden lay)
    (hi : slotIndex < l.keys.length) (honly : OnlyCipher P k false payload.cipher (f.slice 0 512))
    {slots : List (List UInt8)} {s : Nat} (hslots : slots = (slotsAfterRemoval w f slotIndex).take s)
    (harea : StaysInArea lay f (f.replay (keyWrites slots))) :
    Stage P lay k payload l slotIndex l.keys.length (w.drawn keySlotSize).toList f
      (f.replay (keyWrites slots)) := by
  have hcount := h.keyCount
  have hkeys := h.keys_le
  have hr := slots_rewrites (w := w) h hi (hslots ▸ List.take_prefix s _)
  have hprimary : (f.replay (keyWrites slots)).slice 0 512 = f.slice 0 512 := by
    refine hr.slice_other (p := .outerHeader) hs h.size trivial fun hmem => ?_
    obtain ⟨j, he⟩ := mem_keyParts hmem
    cases he
  rw [← List.append_nil (keyParts _), ← List.append_nil (keyWrites _)] at hr
  rw [← List.append_nil (keyWrites slots)] at harea hprimary ⊢
  refine ⟨harea, fun i hi => pwSlot_replay hs h.size hr (by simp) hi, ?_, ?_, ?_⟩
  · rw [hprimary]
    exact h.header
  · rw [hprimary]
    exact honly
  · rw [← hcount]
    refine covers_partial (w := w) (s := s) (by omega) fun j hj => ?_
    rw [keySlot_replay hs h.size hr (by simp) (by omega), hslots]

/-- All slots and the primary header have been written, maybe the backup too. -/
theorem stage_of_header (hlay : layout total hidden = .ok lay) (h : Listed P lay k payload l f)
    (hi : slotIndex < l.keys.length)
    (hheader : IsHeader P k false (countedKeys payload l (l.keys.length - 1)) hdr)
    (honly : OnlyCipher P k false payload.cipher hdr) {ps : List Part} {rest : List ByteFile.Write}
    (hr : Rewrites lay (keyParts (slotsAfterRemoval w f slotIndex) ++ ps)
      (keyWrites (slotsAfterRemoval w f slotIndex) ++ rest))
    (hps : ∀ p ∈ ps, p ∈ headerParts) (hhead : (Part.outerHeader, ⟨0, hdr⟩) ∈ ps.zip rest)
    (harea : StaysInArea lay f (f.replay (keyWrites (slotsAfterRemoval w f slotIndex) ++ rest))) :
    Stage P lay k payload l slotIndex (l.keys.length - 1) (w.drawn keySlotSize).toList f
        (f.replay (keyWrites (slotsAfterRemoval w f slotIndex) ++ rest)) ∧
      Removed f (f.replay (keyWrites (slotsAfterRemoval w f slotIndex) ++ rest)) slotIndex
        (w.drawn keySlotSize).toList := by
  have hs := layout_sizes hlay
  have hcount := h.keyCount
  have hrange : slotIndex < (primaryKeyCount f).toNat := by omega
  have hlength := @length_slotsAfterRemoval w f slotIndex hrange
  have hkeys := h.keys_le
  have hnoKey : ∀ j, Part.keySlot j ∉ ps := fun j hmem => by simpa [headerParts] using hps _ hmem
  have hnoPw : ∀ i, Part.pwSlot i ∉ ps := fun i hmem => by simpa [headerParts] using hps _ hmem
  have hprimary := hr.slice (f := f) hs (p := .outerHeader) (x := ⟨0, hdr⟩) (by
    rw [List.zip_append (length_keyWrites _)]
    exact List.mem_append_right _ hhead)
  have hregion : lay.region .outerHeader = ⟨0, 512⟩ := rfl
  rw [hregion] at hprimary
  dsimp only at hprimary
  have hslots : ∀ j < (primaryKeyCount f).toNat, (slotsAfterRemoval w f slotIndex)[j]? =
      some (keySlotBytes (f.replay (keyWrites (slotsAfterRemoval w f slotIndex) ++ rest)) j) := by
    intro j hj
    rw [keySlot_replay hs h.size hr hnoKey (by omega), List.getElem?_eq_getElem (by omega),
      Option.getD_some]
  refine ⟨⟨harea, fun i hi => pwSlot_replay hs h.size hr hnoPw hi, ?_, ?_, ?_⟩,
    removed_all hrange hslots fun j hj hlt => ?_⟩
  · rw [hprimary]
    exact hheader
  · rw [hprimary]
    exact honly
  · rw [← hcount]
    exact covers_all hrange hslots
  · by_cases hplace : j < maxKeySlots
    · rw [keySlot_replay hs h.size hr hnoKey hplace, List.getElem?_eq_none (by omega), Option.getD_none]
    · -- behind the last place the data slots begin
      have hback := backup_ge hlay
      have hlen : keySlotSize = 1743 := rfl
      rw [maxKeySlots_eq] at hplace
      rw [dataAreaOffset_eq, slotSize_eq] at hback
      refine harea.slice_behind hs h.size ?_ ?_
      · rw [dataAreaOffset_eq, keySlotOffset_eq]
        omega
      · rw [keySlotOffset_eq]
        omega

/-- All writes have been done. -/
theorem stage_of_all (hlay : layout total hidden = .ok lay) (h : Listed P lay k payload l f)
    (hi : slotIndex < l.keys.length)
    (hheader : IsHeader P k false (countedKeys payload l (l.keys.length - 1)) hdr)
    (honly : OnlyCipher P k false payload.cipher hdr) :
    Stage P lay k payload l slotIndex (l.keys.length - 1) (w.drawn keySlotSize).toList f
        (f.replay (keyWrites (slotsAfterRemoval w f slotIndex) ++ headerWrites lay hdr)) ∧
      Removed f (f.replay (keyWrites (slotsAfterRemoval w f slotIndex) ++ headerWrites lay hdr)) slotIndex
        (w.drawn keySlotSize).toList :=
  stage_of_header hlay h hi hheader honly (all_rewrites h (layout_sizes hlay) hi hheader.length)
    (fun _ hp => hp) (.head _)
    (.of_writes (layout_sizes hlay) h.size (removal_area hlay h hi hheader.length))

/-- Every prefix of the writes leaves a file that covers all but the removed recipient. -/
theorem stage_of_prefix (hlay : layout total hidden = .ok lay) (h : Listed P lay k payload l f)
    (hi : slotIndex < l.keys.length) (honly : OnlyCipher P k false payload.cipher (f.slice 0 512))
    (hheader : IsHeader P k false (countedKeys payload l (l.keys.length - 1)) hdr)
    (honly' : OnlyCipher P k false payload.cipher hdr) {done : List ByteFile.Write}
    (hdone : done <+: keyWrites (slotsAfterRemoval w f slotIndex) ++ headerWrites lay hdr) :
    ∃ b ≤ l.keys.length,
      Stage P lay k payload l slotIndex b (w.drawn keySlotSize).toList f (f.replay done) := by
  have hs := layout_sizes hlay
  have hlength := @length_slotsAfterRemoval w f slotIndex (by rw [h.keyCount]; exact hi)
  rw [h.keyCount] at hlength
  have harea : StaysInArea lay f (f.replay done) := .of_writes hs h.size fun x hx =>
    removal_area hlay h hi hheader.length x (hdone.subset hx)
  have hwritesLen : (keyWrites (slotsAfterRemoval w f slotIndex)).length = l.keys.length := by
    rw [← length_keyWrites, keyParts_eq, List.length_map, List.length_range, hlength]
  have htake := List.prefix_iff_eq_take.mp hdone
  rcases Nat.lt_trichotomy done.length (l.keys.length + 1) with hlt | heq | hgt
  · -- some of the slots, under the old count
    rw [List.take_append_of_le_length (by omega), keyWrites_take] at htake
    rw [htake] at harea ⊢
    exact ⟨l.keys.length, Nat.le_refl _, stage_of_slots h hs hi honly rfl harea⟩
  · -- all slots, and the primary header with the new count
    have hwrites : done = keyWrites (slotsAfterRemoval w f slotIndex) ++ [⟨0, hdr⟩] := by
      rw [heq, headerWrites, ← hwritesLen, List.take_length_add_append] at htake
      exact htake
    rw [hwrites] at harea ⊢
    exact ⟨l.keys.length - 1, Nat.sub_le _ _, (stage_of_header hlay h hi hheader honly'
      (primary_rewrites h hi hheader.length) (by simp [headerParts]) (.head _) harea).1⟩
  · -- the backup header too
    rw [List.take_of_length_le (by rw [List.length_append, hwritesLen]; exact hgt)] at htake
    rw [htake]
    exact ⟨l.keys.length - 1, Nat.sub_le _ _, (stage_of_all hlay h hi hheader honly').1⟩

end Prefixes

/-! ## Opening on the way -/

section Opening

variable {total : UInt64} {hidden : Option UInt64} {lay : Layout} {k : Key} {payload : HeaderPayload}
  {l : AccessList} {w v : World} {f g : ByteFile} {slotIndex b : Nat} {random : List UInt8}

/-- The counts of an intact primary header are in force unless both are zero. -/
theorem countsOf_header {isHidden : Bool} {header : HeaderPayload}
    (h : IsHeader P k isHidden header (f.slice 0 512))
    (hne : ¬ (header.numPasswordSlots = 0 ∧ header.numKeySlots = 0)) :
    countsOf f = (header.numPasswordSlots.toNat, header.numKeySlots.toNat) := by
  have hnamed : namedCounts (f.slice 0 512) =
      some (header.numPasswordSlots.toNat, header.numKeySlots.toNat) := by
    rw [namedCounts, h.plaintext]
    exact if_neg hne
  rw [countsOf, hnamed, Option.getD_some]

namespace Stage

theorem countsOf_eq (hstage : Stage P lay k payload l slotIndex b random f g)
    (h : Listed P lay k payload l f) (hb : b ≤ l.keys.length) (hpos : 0 < l.passwords.length + b) :
    countsOf g = (l.passwords.length, b) := by
  have hpw := toNat_ofNat_le h.passwords_le
  have hkey := toNat_ofNat_le (hb.trans h.keys_le)
  refine (countsOf_header hstage.header ?_).trans (Prod.ext hpw hkey)
  rintro ⟨hzero, hzero'⟩
  change UInt8.ofNat l.passwords.length = 0 at hzero
  change UInt8.ofNat b = 0 at hzero'
  rw [hzero] at hpw
  rw [hzero'] at hkey
  change 0 = _ at hpw hkey
  omega

/-- A credential that recovers the master key opens the volume as it did before. -/
theorem opens (hstage : Stage P lay k payload l slotIndex b random f g)
    (hlay : layout total hidden = .ok lay) (h : Listed P lay k payload l f) (hf : w.file = some f)
    (hv : v.file = some g) (hrollback : v.rollback = w.rollback) {credential : OpenCredential}
    {c : CipherAlgorithm} (hmaster : recoverMaster P v g.size credential = some (k, c)) :
    openContainer P v credential = openOuter P w k payload := by
  have hsize : g.size = lay.fileSize.toNat := hstage.area.size.trans h.size
  rw [openContainer_of_master hlay hsize hv hstage.header hstage.only hmaster]
  exact openVolume_congr (hstage.area.reads (layout_sizes hlay) h.size hf hv) hrollback _ _ _ _ _ _ _

theorem opens_password (hstage : Stage P lay k payload l slotIndex b random f g)
    (hlay : layout total hidden = .ok lay) (h : Listed P lay k payload l f) (hf : w.file = some f)
    (hv : v.file = some g) (hrollback : v.rollback = w.rollback) (hb : b ≤ l.keys.length)
    {p : List UInt8} (hp : p ∈ l.passwords) (hexact : PasswordExact P f l p) :
    openContainer P v (.password p) = openOuter P w k payload := by
  have hsize : g.size = lay.fileSize.toNat := hstage.area.size.trans h.size
  have hpos := List.length_pos_of_mem hp
  refine hstage.opens hlay h hf hv hrollback (c := .triple) ?_
  rw [recoverMaster_eq hlay hsize hv, hstage.countsOf_eq h hb (by omega)]
  have hslot : ∀ i < l.passwords.length, OpenCredential.slotIn g (.password p) i =
      f.slice (pwSlotOffset i) pwSlotSize := fun i hi =>
    hstage.pwSlot i (Nat.lt_of_lt_of_le hi h.passwords_le)
  refine (@findSome?_range _ _ l.passwords p _ _ (fun i hi => ?_) fun i q hi hne => ?_).1 hp
  · rw [hslot i (List.getElem?_eq_some_iff.mp hi).1]
    exact tryPasswordSlot_eq (h.pwSlot i p hi) (hexact.own i hi)
  · rw [hslot i (List.getElem?_eq_some_iff.mp hi).1]
    exact hexact.other i q hi hne

theorem opens_key (hstage : Stage P lay k payload l slotIndex b random f g)
    (hlay : layout total hidden = .ok lay) (h : Listed P lay k payload l f) (hf : w.file = some f)
    (hv : v.file = some g) (hrollback : v.rollback = w.rollback) (hb : b ≤ l.keys.length)
    {sk : HybridPrivateKey} {j : Nat} (hj : l.keys[j]? = some (sk.publicKey P)) (hne : j ≠ slotIndex)
    (hexact : KeyExact P f l payload.cipher sk) (hrandom : tryKeySlot P random sk = none) :
    openContainer P v (.privateKey sk) = openOuter P w k payload := by
  have hsize : g.size = lay.fileSize.toNat := hstage.area.size.trans h.size
  have hcount := h.keyCount
  obtain ⟨j', hj', hhere⟩ := hstage.covers.others j
    (by rw [hcount]; exact (List.getElem?_eq_some_iff.mp hj).1) hne
  have hown : ∀ i, l.keys[i]? = some (sk.publicKey P) →
      tryKeySlot P (keySlotBytes f i) sk = some (k, payload.cipher) :=
    fun i hi => tryKeySlot_eq (h.keySlot i _ hi) (hexact.own i hi)
  refine hstage.opens hlay h hf hv hrollback (c := payload.cipher) ?_
  rw [recoverMaster_eq hlay hsize hv, hstage.countsOf_eq h hb (by omega),
    show (OpenCredential.privateKey sk).count (l.passwords.length, b) = b from rfl]
  refine findSome?_of_unique (a := j') (List.mem_range'_1.mpr ⟨Nat.zero_le _, by omega⟩) ?_ ?_
  · exact (congrArg (fun slot => tryKeySlot P slot sk) hhere).trans (hown j hj)
  · intro i hi r hr
    have hlt := (List.mem_range'_1.mp hi).2
    change tryKeySlot P (keySlotBytes g i) sk = some r at hr
    rcases hstage.covers.known i (by omega) with hwiped | ⟨i', hi', hold⟩
    · -- the wiped place
      rw [hwiped, hrandom] at hr
      cases hr
    · rw [hcount] at hi'
      obtain ⟨pk, hpk⟩ : ∃ pk, l.keys[i']? = some pk := ⟨_, List.getElem?_eq_getElem hi'⟩
      rw [hold] at hr
      by_cases he : pk = sk.publicKey P
      · rw [hown i' (he ▸ hpk)] at hr
        exact (Option.some.inj hr).symm
      · have hnone := hexact.other i' pk hpk he
        rw [keySlotBytes, hnone] at hr
        cases hr

end Stage

/-- When all writes are done, the removed recipient is refused. -/
theorem Removed.refused (hremoved : Removed f g slotIndex random)
    (hlay : layout total hidden = .ok lay) (h : Listed P lay k payload l f)
    (hstage : Stage P lay k payload l slotIndex (l.keys.length - 1) random f g)
    (hv : v.file = some g) {sk : HybridPrivateKey}
    (honce : ∀ j, j ≠ slotIndex → l.keys[j]? ≠ some (sk.publicKey P))
    (hexact : KeyExact P f l payload.cipher sk) (hrandom : tryKeySlot P random sk = none)
    (hbehind : ∀ j, l.keys.length ≤ j → j < 256 → tryKeySlot P (keySlotBytes f j) sk = none) :
    openContainer P v (.privateKey sk) = .error .authenticationFailed := by
  have hsize : g.size = lay.fileSize.toNat := hstage.area.size.trans h.size
  have hcount := h.keyCount
  have hlt := (countsOf_lt g).2
  refine openContainer_privateKey hv (findOuter_none_of_master ?_)
  rw [recoverMaster_eq hlay hsize hv, List.findSome?_eq_none_iff]
  intro j hj
  have hj' : j < 0 + (countsOf g).2 := (List.mem_range'_1.mp hj).2
  change tryKeySlot P (keySlotBytes g j) sk = none
  rcases Nat.lt_trichotomy j (l.keys.length - 1) with hkept | hlast | hgt
  · -- the slot of somebody else
    obtain ⟨i, hi, hne, hold⟩ := hremoved.kept j (by omega)
    rw [hcount] at hi
    have hpk : l.keys[i]? = some l.keys[i] := List.getElem?_eq_getElem hi
    rw [hold]
    exact hexact.other i _ hpk fun he => honce i hne (he ▸ hpk)
  · rw [hlast, ← hcount, hremoved.wiped]
    exact hrandom
  · rw [hremoved.behind j (by omega) (by omega)]
    exact hbehind j (by omega) (by omega)

end Opening

/-! ## The removal -/

/-- The file opens with every password and with every key recipient but the removed one, and
    gives the container that was there before. -/
structure ServesOthers (P : Primitives) (payload : HeaderPayload) (l : AccessList) (slotIndex : Nat)
    (random : List UInt8) (f : ByteFile) (c : VnmContainer) (v : World) : Prop where
  password : ∀ p ∈ l.passwords, PasswordExact P f l p → openContainer P v (.password p) = .ok c
  privateKey : ∀ sk j, l.keys[j]? = some (sk.publicKey P) → j ≠ slotIndex →
    KeyExact P f l payload.cipher sk → tryKeySlot P random sk = none →
    openContainer P v (.privateKey sk) = .ok c

/-- The removed recipient is refused, if listed once and if neither the random bytes nor what
    lies behind the slots happens to be a slot of theirs. -/
def RefusesRemoved (P : Primitives) (payload : HeaderPayload) (l : AccessList) (slotIndex : Nat)
    (random : List UInt8) (f : ByteFile) (v : World) : Prop :=
  ∀ sk, l.keys[slotIndex]? = some (sk.publicKey P) →
    (∀ j, j ≠ slotIndex → l.keys[j]? ≠ some (sk.publicKey P)) → KeyExact P f l payload.cipher sk →
    tryKeySlot P random sk = none →
    (∀ j, l.keys.length ≤ j → j < 256 → tryKeySlot P (keySlotBytes f j) sk = none) →
    openContainer P v (.privateKey sk) = .error .authenticationFailed

section Removal

variable {total : UInt64} {hidden : Option UInt64} {lay : Layout} {k : Key} {payload : HeaderPayload}
  {l : AccessList} {m m' : Mounted} {f : ByteFile} {slotIndex : Nat} {c : VnmContainer}

/-- The writes of a removal. -/
theorem removeKey_writes (hlay : layout total hidden = .ok lay) (h : Listed P lay k payload l f)
    (hf : m.world.file = some f) (hk : m.container.kMaster = k)
    (hcipher : payload.cipher = m.container.cipher) (hi : slotIndex < l.keys.length) :
    ∃ m' hdr, (removeKeyRecipient P slotIndex).run m = .ok () m' ∧
      IsHeader P k false (countedKeys payload l (l.keys.length - 1)) hdr ∧
      World.Issued (keyWrites (slotsAfterRemoval m.world f slotIndex) ++ headerWrites lay hdr)
        m.world m'.world := by
  subst hk
  have hs := layout_sizes hlay
  have hlarge := large_of_layout hlay h.size
  have hcount := h.keyCount
  have hkeys := h.keys_le
  rw [maxKeySlots_eq] at hkeys
  have hproceeds : (RecipientCall.removeKey slotIndex).Proceeds P m f :=
    ⟨by omega, by omega, fun j hj => (slotIn_inside hlay h.size (by omega)).2⟩
  have hdecodes : decodeHeader P (f.slice 0 512) m.container.kMaster m.container.cipher false =
      .ok (counted payload l) := by
    rw [← hcipher]
    exact h.header.decode
  have houtcome := @RecipientCall.outcome P m f (.removeKey slotIndex) hf
  change Outcome P m f _ ((removeKeyRecipient P slotIndex).run m) at houtcome
  cases hrun : (removeKeyRecipient P slotIndex).run m with
  | error e m' =>
    rw [hrun] at houtcome
    cases houtcome with
    | refused _ hcall => exact absurd hproceeds hcall
    | rejected _ _ _ hdecode => exact absurd ⟨_, hdecodes⟩ hdecode
  | ok u m' =>
    rw [hrun] at houtcome
    cases houtcome with
    | finished _ hslots hdecode hheader hissued =>
      cases hdecodes.symm.trans hdecode
      cases hslots with
      | removeKey hrange hread =>
        have hinside : ∀ x ∈ keyWrites (slotsAfterRemoval m.world f slotIndex),
            x.off + x.data.length ≤ f.size := by
          rw [h.size]
          exact (slots_rewrites (w := m.world) h hi (List.prefix_refl _)).inside hs
        rw [ByteFile.size_replay hinside, h.size] at hissued
        have hpw : primaryPwCount f = UInt8.ofNat l.passwords.length := by
          rw [primaryPwCount, primaryPlaintext, h.header.plaintext]
          rfl
        have hkey : primaryKeyCount f = UInt8.ofNat l.keys.length := by
          rw [primaryKeyCount, primaryPlaintext, h.header.plaintext]
          rfl
        rw [hpw, hkey, ofNat_pred (by omega)] at hheader
        exact ⟨_, _, rfl, hheader, hissued⟩

/-- A removal is crash-safe for the others: every prefix of its writes leaves a file that opens
    for them, and in the end it is closed to the one removed. -/
theorem removal_crash_safe (hlay : layout total hidden = .ok lay) (h : Listed P lay k payload l f)
    (hf : m.world.file = some f) (hk : m.container.kMaster = k)
    (hcipher : payload.cipher = m.container.cipher)
    (honly : OnlyCipher P k false payload.cipher (f.slice 0 512))
    (hopens : openOuter P m.world k payload = .ok c) (hi : slotIndex < l.keys.length) :
    ∃ m' ws, (removeKeyRecipient P slotIndex).run m = .ok () m' ∧
      m'.world.issued = m.world.issued ++ ws ∧ m'.world.file = some (f.replay ws) ∧ c.kMaster = k ∧
      IsHeader P k false (countedKeys payload l (l.keys.length - 1)) ((f.replay ws).slice 0 512) ∧
      (OnlyCipher P k false payload.cipher ((f.replay ws).slice 0 512) →
        (∀ done v, done <+: ws → v.file = some (f.replay done) → v.rollback = m.world.rollback →
          ServesOthers P payload l slotIndex (m.world.drawn keySlotSize).toList f c v) ∧
        RefusesRemoved P payload l slotIndex (m.world.drawn keySlotSize).toList f m'.world) := by
  obtain ⟨m', hdr, hrun, hheader, hissued⟩ := @removeKey_writes P _ _ _ _ _ _ m _ slotIndex hlay h hf hk
    hcipher hi
  have hs := layout_sizes hlay
  have hr := all_rewrites (w := m.world) h hs hi hheader.length
  have hprimary := hr.slice (f := f) hs (p := .outerHeader) (x := ⟨0, hdr⟩) (by
    rw [List.zip_append (length_keyWrites _)]
    exact List.mem_append_right _ (.head _))
  have hregion : lay.region .outerHeader = ⟨0, 512⟩ := rfl
  rw [hregion] at hprimary
  dsimp only at hprimary
  refine ⟨m', _, hrun, hissued.issued, hissued.file_eq hf, ?_, ?_, fun honly' => ⟨?_, ?_⟩⟩
  · obtain ⟨store, -, -, rfl⟩ := openVolume_eq_ok.mp hopens
    rfl
  · rw [hprimary]
    exact hheader
  · rw [hprimary] at honly'
    intro done v hdone hv hrollback
    obtain ⟨b, hle, hstage⟩ := stage_of_prefix hlay h hi honly hheader honly' hdone
    exact ⟨fun p hp hexact => (hstage.opens_password hlay h hf hv hrollback hle hp hexact).trans hopens,
      fun sk j hj hne hexact hrandom =>
        (hstage.opens_key hlay h hf hv hrollback hle hj hne hexact hrandom).trans hopens⟩
  · rw [hprimary] at honly'
    intro sk _ honce hexact hrandom hbehind
    obtain ⟨hstage, hremoved⟩ := stage_of_all (w := m.world) hlay h hi hheader honly'
    exact hremoved.refused hlay h hstage (hissued.file_eq hf) honce hexact hrandom hbehind

def examplePk : HybridPublicKey where
  x25519Pk := toBytes 32 [5]
  mlkemEk := toBytes 1568 [6]

/-- A new container gets a key recipient, who is removed again. -/
theorem removal_crash_safe_added : ∃ m w' m₁ m₂ ws f c,
    (create plain [1] 1000000 .xchacha20Poly1305 "interactive" (some "vault") none).run (freePath 7) =
      .ok m w' ∧
    (addKeyRecipient plain examplePk).run ⟨m, w'⟩ = .ok () m₁ ∧ m₁.world.file = some f ∧
    (removeKeyRecipient plain 0).run m₁ = .ok () m₂ ∧ m₂.world.issued = m₁.world.issued ++ ws ∧
    ∀ done v, done <+: ws → v.file = some (f.replay done) → v.rollback = m₁.world.rollback →
      openContainer plain v (.password [1]) = .ok c := by
  obtain ⟨m, w', hcreate⟩ := create_million_isOk 7
  obtain ⟨b, h⟩ := create_ok hcreate
  have hparts := h.parts.container
  have hkey : m.kMaster = drawnKey (freePath 7) b.lay := by rw [hparts]
  have hcipher : m.cipher = .xchacha20Poly1305 := by rw [hparts]
  have hbytes : (drawnKey (freePath 7) b.lay).toList = List.replicate 32 7 := drawn_freePath 7 _ 32
  have hmarks : ∀ c, (7 : UInt8) ≠ plainMark c := fun c => by cases c <;> decide
  obtain ⟨slot, w₁, hencode⟩ := @encodeKeySlot_isOk plain (drawnKey (freePath 7) b.lay) w' examplePk m.cipher
    fun _ _ => ⟨_, rfl⟩
  obtain ⟨m₁, hadd⟩ := addKey_isOk (m := ⟨m, w'⟩) h.granted h.sizes h.file_eq hkey hcipher.symm
    (by decide) hencode
  have hrun : ([.addKey examplePk].forM (RecipientCall.run plain)).run ⟨m, w'⟩ = .ok ⟨⟩ m₁ :=
    (run_bind_of_ok hadd).trans rfl
  obtain ⟨f, hm⟩ := run_managed (m := ⟨m, w'⟩) h.granted h.sizes h.file_eq hkey hcipher.symm hrun
  have hgranted := hm.granted
  have hsize : (Created.image b w').size ≤ f.size := by rw [hgranted.size, h.size]
  obtain ⟨store, hopens⟩ := h.opens hm.file hsize
    (hm.others (.outerSlot outerAllocSlot) h.alloc.has (fun hf => hf))
    (fun stored hstored => h.baseline_le_one hm.rollback hstored)
    (show (newPayload b .xchacha20Poly1305 (freePath 7) [1] "interactive" (some "vault")).cipher = _
      from rfl) rfl rfl
  obtain ⟨m₂, ws, hremove, hissued, -, -, hheader, hsafe⟩ := @removal_crash_safe plain _ _ _ _ _ _ m₁ _ 0 _
    h.layout hgranted.toListed hm.file (by rw [hm.container]; exact hkey)
    (by rw [hm.container]; exact hcipher.symm) (hgranted.header.onlyCipher_plain rfl) hopens Nat.one_pos
  refine ⟨m, w', m₁, m₂, ws, f, containerOf (drawnKey (freePath 7) b.lay)
    (newPayload b .xchacha20Poly1305 (freePath 7) [1] "interactive" (some "vault")) false
    b.lay.outerSlots store, hcreate, hadd, hm.file, hremove, hissued, fun done v hdone hv hroll => ?_⟩
  refine ((hsafe (hheader.onlyCipher_plain rfl)).1 done v hdone hv hroll).password [1] (.head _) ?_
  refine ⟨fun i hi => ?_, fun i q hi hne => ?_, fun hnot => absurd (.head _) hnot⟩
  · exact (hgranted.pwSlot i [1] hi).onlyTriple_plain hbytes hmarks
  · exact absurd (List.mem_singleton.mp (List.mem_of_getElem? hi)) hne

end Removal

end Venom.Fs
