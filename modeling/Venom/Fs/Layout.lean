import Venom.Fs.Container

/-! # The regions of a container file

The sizes `layout` computes, as natural numbers, and what they say about the regions of
the file: they do not overlap, they lie inside the file, and the place of the backup
header can be inferred from the size of the file.
-/

namespace Venom.Fs

open Venom.Container

/-! ## The sizes -/

theorem saturatingSub_toNat (a b : UInt64) : (saturatingSub a b).toNat = a.toNat - b.toNat := by
  unfold saturatingSub
  split
  next h =>
    have := UInt64.lt_iff_toNat_lt.mp h
    rw [Nat.sub_eq_zero_of_le (by omega)]
    rfl
  next h =>
    have hle : b ≤ a := UInt64.not_lt.mp h
    exact UInt64.toNat_sub_of_le a b hle

theorem dataAreaOffset_eq : dataAreaOffset = 16376 := rfl

theorem slotSize_eq : slotSize = 32768 := rfl

/-- What the sizes of a layout say. -/
structure Sizes (total : UInt64) (hidden : Option UInt64) (lay : Layout) : Prop where
  tailSize : lay.tailSize.toNat = if hidden.isSome then 1024 else 512
  outer : 2 ≤ lay.outerSlots.toNat
  hiddenNone : hidden = none → lay.hiddenSlots.toNat = 0
  hiddenSome : hidden.isSome → 2 ≤ lay.hiddenSlots.toNat
  fileSize : lay.fileSize.toNat =
    dataAreaOffset + (lay.outerSlots.toNat + lay.hiddenSlots.toNat) * slotSize + lay.tailSize.toNat
  le_total : lay.fileSize.toNat ≤ total.toNat

/-- The number of data slots that fit in front of a tail. -/
def totalDataSlots (total : UInt64) (tail : Nat) : Nat := (total.toNat - (dataAreaOffset + tail)) / slotSize

theorem totalDataSlots_toNat (total tail : UInt64) (htail : tail.toNat ≤ 1024) :
    (saturatingSub total (UInt64.ofNat dataAreaOffset + tail) / UInt64.ofNat slotSize).toNat =
      totalDataSlots total tail.toNat := by
  have hbase : (UInt64.ofNat dataAreaOffset + tail).toNat = dataAreaOffset + tail.toNat := by
    rw [UInt64.toNat_add]
    change (16376 + tail.toNat) % 2 ^ 64 = 16376 + tail.toNat
    omega
  rw [UInt64.toNat_div, saturatingSub_toNat, hbase]
  rfl

/-- The file size of a number of slots that fits below 2^64. -/
theorem fileSize_toNat (slots tail : UInt64) (h : dataAreaOffset + slots.toNat * slotSize + tail.toNat < 2 ^ 64) :
    (UInt64.ofNat dataAreaOffset + slots * UInt64.ofNat slotSize + tail).toNat =
      dataAreaOffset + slots.toNat * slotSize + tail.toNat := by
  have hslot : (UInt64.ofNat slotSize).toNat = slotSize := rfl
  have hdata : (UInt64.ofNat dataAreaOffset).toNat = dataAreaOffset := rfl
  rw [UInt64.toNat_add, UInt64.toNat_add, UInt64.toNat_mul, hslot, hdata]
  rw [Nat.mod_eq_of_lt (show slots.toNat * slotSize < 2 ^ 64 by omega),
    Nat.mod_eq_of_lt (show dataAreaOffset + slots.toNat * slotSize < 2 ^ 64 by omega),
    Nat.mod_eq_of_lt h]

theorem le_max_two (n : UInt64) : 2 ≤ (max n 2).toNat := by
  have hmax : max n 2 = if n ≤ 2 then 2 else n := rfl
  rw [hmax]
  split
  next => exact Nat.le_refl _
  next h => exact Nat.le_of_lt (UInt64.lt_iff_toNat_lt.mp (UInt64.not_le.mp h))

theorem minSize_le {total : UInt64} (h : ¬ total < UInt64.ofNat minSize) : minSize ≤ total.toNat := by
  have hmin : (UInt64.ofNat minSize).toNat = minSize := rfl
  have := UInt64.le_iff_toNat_le.mp (UInt64.not_lt.mp h)
  omega

theorem layout_none {total : UInt64} {lay : Layout} (h : layout total none = .ok lay) :
    minSize ≤ total.toNat ∧ lay.hiddenSlots = 0 ∧ lay.tailSize = 512 ∧
      lay.outerSlots.toNat = totalDataSlots total 512 ∧
      lay.fileSize = UInt64.ofNat dataAreaOffset + lay.outerSlots * UInt64.ofNat slotSize +
        lay.tailSize := by
  by_cases hmin : total < UInt64.ofNat minSize
  · rw [layout, if_pos hmin] at h
    cases h
  · rw [layout, if_neg hmin] at h
    cases h
    exact ⟨minSize_le hmin, rfl, rfl, totalDataSlots_toNat total 512 (by decide), by simp⟩

/-- The number of hidden slots: the requested size in slots, at least two. -/
def requestedSlots (size : UInt64) : UInt64 :=
  max ((size + UInt64.ofNat slotSize - 1) / UInt64.ofNat slotSize) 2

theorem layout_some {total size : UInt64} {lay : Layout} (h : layout total (some size) = .ok lay) :
    minSize ≤ total.toNat ∧ lay.hiddenSlots = requestedSlots size ∧ lay.tailSize = 1024 ∧
      lay.outerSlots.toNat = totalDataSlots total 1024 - (requestedSlots size).toNat ∧
      2 ≤ lay.outerSlots.toNat ∧
      lay.fileSize = UInt64.ofNat dataAreaOffset + (lay.outerSlots + lay.hiddenSlots) *
        UInt64.ofNat slotSize + lay.tailSize := by
  by_cases hmin : total < UInt64.ofNat minSize
  · rw [layout, if_pos hmin] at h
    cases h
  · rw [layout, if_neg hmin] at h
    simp only [Option.isSome_some, if_true] at h
    by_cases htwo : saturatingSub (saturatingSub total (UInt64.ofNat dataAreaOffset + 1024) /
        UInt64.ofNat slotSize) (requestedSlots size) < 2
    · rw [requestedSlots] at htwo
      rw [if_pos htwo] at h
      cases h
    · rw [requestedSlots] at htwo
      rw [if_neg htwo] at h
      cases h
      refine ⟨minSize_le hmin, rfl, rfl, ?_, UInt64.le_iff_toNat_le.mp (UInt64.not_lt.mp htwo), rfl⟩
      rw [saturatingSub_toNat, totalDataSlots_toNat total 1024 (by decide)]
      rfl

theorem layout_sizes {total : UInt64} {hidden : Option UInt64} {lay : Layout}
    (h : layout total hidden = .ok lay) : Sizes total hidden lay := by
  have htotal := total.toNat_lt
  have hmin16 : minSize = dataAreaOffset + 16 * slotSize + 512 := rfl
  cases hidden with
  | none =>
    obtain ⟨hmin, hhid, htail, houter, hfile⟩ := layout_none h
    have htail' : lay.tailSize.toNat = 512 := by rw [htail]; rfl
    have hhid' : lay.hiddenSlots.toNat = 0 := by rw [hhid]; rfl
    unfold totalDataSlots at houter
    rw [dataAreaOffset_eq, slotSize_eq] at *
    have hfit : dataAreaOffset + lay.outerSlots.toNat * slotSize + lay.tailSize.toNat ≤ total.toNat := by
      rw [dataAreaOffset_eq, slotSize_eq]; omega
    have hsize := fileSize_toNat lay.outerSlots lay.tailSize (by omega)
    rw [dataAreaOffset_eq, slotSize_eq] at hsize hfit
    refine ⟨htail', by omega, fun _ => hhid', fun hs => (by cases hs), ?_, ?_⟩
    · rw [hfile, hhid', Nat.add_zero, dataAreaOffset_eq, slotSize_eq]; exact hsize
    · rw [hfile]; omega
  | some size =>
    obtain ⟨hmin, hhid, htail, houter, htwo, hfile⟩ := layout_some h
    have htail' : lay.tailSize.toNat = 1024 := by rw [htail]; rfl
    have hreq : 2 ≤ (requestedSlots size).toNat := le_max_two _
    rw [← hhid] at houter hreq
    have hslots : lay.outerSlots.toNat + lay.hiddenSlots.toNat = totalDataSlots total 1024 := by omega
    unfold totalDataSlots at hslots
    have hsum : (lay.outerSlots + lay.hiddenSlots).toNat =
        lay.outerSlots.toNat + lay.hiddenSlots.toNat := by
      rw [UInt64.toNat_add]
      rw [slotSize_eq, dataAreaOffset_eq] at hslots
      omega
    have hfit : dataAreaOffset + (lay.outerSlots + lay.hiddenSlots).toNat * slotSize +
        lay.tailSize.toNat ≤ total.toNat := by
      rw [hsum, hslots]
      rw [dataAreaOffset_eq, slotSize_eq] at *
      omega
    have hsize := fileSize_toNat (lay.outerSlots + lay.hiddenSlots) lay.tailSize (by omega)
    refine ⟨htail', htwo, fun hn => (by cases hn), fun _ => hreq, ?_, ?_⟩
    · rw [hfile, hsize, hsum]
    · rw [hfile, hsize]; exact hfit

/-! ## Regions -/

/-- A range of bytes of the file. -/
structure Region where
  off : Nat
  len : Nat

namespace Region

def Disjoint (a b : Region) : Prop := a.off + a.len ≤ b.off ∨ b.off + b.len ≤ a.off

/-- `[off, off + len)` lies in `[lo, hi)`. -/
def Within (a : Region) (lo hi : Nat) : Prop := lo ≤ a.off ∧ a.off + a.len ≤ hi

end Region

/-- The parts of a container file. -/
inductive Part
  | outerHeader
  /-- The hidden backup header, random bytes without a hidden volume. -/
  | hiddenBackup
  | pwSlot (i : Nat)
  | keySlot (j : Nat)
  | outerSlot (s : Nat)
  | hiddenSlot (s : Nat)
  | outerBackup
  /-- Its place at the end of the file is the outer backup's without a hidden volume. -/
  | hiddenPrimary

namespace Layout

def hasHidden (lay : Layout) : Bool := decide (lay.tailSize = 1024)

def region (lay : Layout) : Part → Region
  | .outerHeader => ⟨0, headerSize⟩
  | .hiddenBackup => ⟨512, headerSize⟩
  | .pwSlot i => ⟨pwSlotOffset i, pwSlotSize⟩
  | .keySlot j => ⟨keySlotOffset j, keySlotSize⟩
  | .outerSlot s => ⟨Storage.slotOffset s, slotSize⟩
  | .hiddenSlot s => ⟨Storage.slotOffset s, slotSize⟩
  | .outerBackup => ⟨outerBackupOffset lay.fileSize.toNat lay.hasHidden, headerSize⟩
  | .hiddenPrimary => ⟨lay.fileSize.toNat - 512, headerSize⟩

/-- The parts a container has. -/
def Has (lay : Layout) : Part → Prop
  | .pwSlot i => i < maxPasswordSlots
  | .keySlot j => j < maxKeySlots
  | .outerSlot s => s < lay.outerSlots.toNat
  | .hiddenSlot s => lay.outerSlots.toNat ≤ s ∧ s < lay.outerSlots.toNat + lay.hiddenSlots.toNat
  | .hiddenPrimary => lay.hasHidden = true
  | _ => True

/-- The file in eight zones, in order. -/
def zoneStart (lay : Layout) : Nat → Nat
  | 0 => 0
  | 1 => 512
  | 2 => headerRegionSize
  | 3 => headerRegionSize + maxPasswordSlots * pwSlotSize
  | 4 => dataAreaOffset
  | 5 => Storage.slotOffset lay.outerSlots.toNat
  | 6 => Storage.slotOffset (lay.outerSlots.toNat + lay.hiddenSlots.toNat)
  | 7 => Storage.slotOffset (lay.outerSlots.toNat + lay.hiddenSlots.toNat) + 512
  | n + 8 => Storage.slotOffset (lay.outerSlots.toNat + lay.hiddenSlots.toNat) + 1024 + n

end Layout

def Part.zone : Part → Nat
  | .outerHeader => 0
  | .hiddenBackup => 1
  | .pwSlot _ => 2
  | .keySlot _ => 3
  | .outerSlot _ => 4
  | .hiddenSlot _ => 5
  | .outerBackup => 6
  | .hiddenPrimary => 7

section Regions

variable {total : UInt64} {hidden : Option UInt64} {lay : Layout}

theorem Layout.zoneStart_le_succ (lay : Layout) (n : Nat) : lay.zoneStart n ≤ lay.zoneStart (n + 1) := by
  match n with
  | 0 => exact Nat.zero_le _
  | 1 => exact (by decide : 512 ≤ headerRegionSize)
  | 2 => exact Nat.le_add_right _ _
  | 3 => exact (by decide : headerRegionSize + maxPasswordSlots * pwSlotSize ≤ dataAreaOffset)
  | 4 => exact Nat.le_add_right _ _
  | 5 => exact Nat.add_le_add_left (Nat.mul_le_mul_right _ (Nat.le_add_right _ _)) _
  | 6 => exact Nat.le_add_right _ _
  | 7 => exact Nat.add_le_add_left (by omega) _
  | n + 8 => exact Nat.le_succ _

theorem Layout.zoneStart_mono (lay : Layout) : Monotone lay.zoneStart :=
  monotone_nat_of_le_succ lay.zoneStart_le_succ

/-- The slots start behind the recipient area and the tail follows the last one. -/
theorem Sizes.fileSize_eq (h : Sizes total hidden lay) :
    lay.fileSize.toNat = Storage.slotOffset (lay.outerSlots.toNat + lay.hiddenSlots.toNat) +
      lay.tailSize.toNat := h.fileSize

theorem Sizes.hasHidden (h : Sizes total hidden lay) : lay.hasHidden = hidden.isSome := by
  have htail := h.tailSize
  unfold Layout.hasHidden
  cases hidden with
  | none =>
    refine decide_eq_false fun he => ?_
    rw [he] at htail
    cases htail
  | some size => exact decide_eq_true (UInt64.toNat_inj.mp htail)

theorem Sizes.tail_eq (h : Sizes total hidden lay) :
    lay.tailSize.toNat = if lay.hasHidden then 1024 else 512 := by rw [h.hasHidden, h.tailSize]

/-- The outer backup header follows the last slot. -/
theorem Sizes.outerBackup (h : Sizes total hidden lay) :
    outerBackupOffset lay.fileSize.toNat lay.hasHidden =
      Storage.slotOffset (lay.outerSlots.toNat + lay.hiddenSlots.toNat) := by
  have htail := h.tail_eq
  have hfile := h.fileSize_eq
  unfold outerBackupOffset
  cases hh : lay.hasHidden <;> simp only [hh, if_true, Bool.false_eq_true, if_false] at htail ⊢ <;> omega

theorem slotOffset_lt {s t : Nat} (h : s < t) :
    Storage.slotOffset s + slotSize ≤ Storage.slotOffset t := by
  unfold Storage.slotOffset
  have := Nat.mul_le_mul_right slotSize (Nat.succ_le_of_lt h)
  rw [Nat.succ_mul] at this
  omega

/-- A part lies in its zone. -/
theorem Sizes.within_zone (h : Sizes total hidden lay) {p : Part} (hp : lay.Has p) :
    (lay.region p).Within (lay.zoneStart p.zone) (lay.zoneStart (p.zone + 1)) := by
  cases p with
  | outerHeader => exact ⟨Nat.le_refl _, Nat.le_refl _⟩
  | hiddenBackup => exact ⟨Nat.le_refl _, Nat.le_refl _⟩
  | pwSlot i =>
    refine ⟨Nat.le_add_right _ _, ?_⟩
    change headerRegionSize + i * pwSlotSize + pwSlotSize ≤
      headerRegionSize + maxPasswordSlots * pwSlotSize
    rw [Nat.add_assoc, ← Nat.succ_mul]
    exact Nat.add_le_add_left (Nat.mul_le_mul_right _ hp) _
  | keySlot j =>
    refine ⟨Nat.add_le_add_left (Nat.le_add_right _ _) _, ?_⟩
    change headerRegionSize + (maxPasswordSlots * pwSlotSize + j * keySlotSize) + keySlotSize ≤
      headerRegionSize + (maxPasswordSlots * pwSlotSize + maxKeySlots * keySlotSize)
    rw [Nat.add_assoc, Nat.add_assoc, ← Nat.succ_mul]
    exact Nat.add_le_add_left (Nat.add_le_add_left (Nat.mul_le_mul_right _ hp) _) _
  | outerSlot s => exact ⟨Nat.le_add_right _ _, slotOffset_lt hp⟩
  | hiddenSlot s =>
    refine ⟨Nat.add_le_add_left (Nat.mul_le_mul_right _ hp.1) _, slotOffset_lt hp.2⟩
  | outerBackup =>
    change _ ≤ outerBackupOffset _ _ ∧ outerBackupOffset _ _ + 512 ≤ _
    rw [h.outerBackup]
    exact ⟨Nat.le_refl _, Nat.le_refl _⟩
  | hiddenPrimary =>
    have hhid : lay.hasHidden = true := hp
    have hfile := h.fileSize_eq
    rw [h.tail_eq, hhid, if_pos rfl] at hfile
    change Storage.slotOffset _ + 512 ≤ lay.fileSize.toNat - 512 ∧
      lay.fileSize.toNat - 512 + 512 ≤ Storage.slotOffset _ + 1024 + 0
    omega

/-- Two elements of an array of ranges. -/
theorem array_disjoint (base size : Nat) {i j : Nat} (h : i ≠ j) :
    Region.Disjoint ⟨base + i * size, size⟩ ⟨base + j * size, size⟩ := by
  have hlt : ∀ {i j : Nat}, i < j → base + i * size + size ≤ base + j * size := by
    intro i j hij
    rw [Nat.add_assoc, ← Nat.succ_mul]
    exact Nat.add_le_add_left (Nat.mul_le_mul_right _ hij) _
  exact (Nat.lt_or_gt_of_ne h).imp hlt hlt

/-- Two parts of one zone are slots of one array. -/
theorem region_disjoint_of_zone_eq {p q : Part} (hne : p ≠ q) (hzone : p.zone = q.zone) :
    (lay.region p).Disjoint (lay.region q) := by
  cases p <;> cases q <;> first | (exfalso; exact hne rfl) | (cases hzone; done) | skip
  case pwSlot.pwSlot i j => exact array_disjoint _ _ fun he => hne (by rw [he])
  case keySlot.keySlot i j =>
    change Region.Disjoint ⟨_ + (_ + _), _⟩ ⟨_ + (_ + _), _⟩
    rw [← Nat.add_assoc, ← Nat.add_assoc]
    exact array_disjoint _ _ fun he => hne (by rw [he])
  case outerSlot.outerSlot s t => exact array_disjoint _ _ fun he => hne (by rw [he])
  case hiddenSlot.hiddenSlot s t => exact array_disjoint _ _ fun he => hne (by rw [he])

theorem Sizes.disjoint (h : Sizes total hidden lay) {p q : Part} (hp : lay.Has p) (hq : lay.Has q)
    (hne : p ≠ q) : (lay.region p).Disjoint (lay.region q) := by
  obtain ⟨hplo, hphi⟩ := h.within_zone hp
  obtain ⟨hqlo, hqhi⟩ := h.within_zone hq
  rcases Nat.lt_trichotomy p.zone q.zone with hlt | heq | hgt
  · exact .inl (hphi.trans ((lay.zoneStart_mono hlt).trans hqlo))
  · exact region_disjoint_of_zone_eq hne heq
  · exact .inr (hqhi.trans ((lay.zoneStart_mono hgt).trans hplo))

/-- Every part lies inside the file. -/
theorem Sizes.inside (h : Sizes total hidden lay) {p : Part} (hp : lay.Has p) :
    (lay.region p).off + (lay.region p).len ≤ lay.fileSize.toNat := by
  have hzone := (h.within_zone hp).2
  have hfile := h.fileSize_eq
  have htail := h.tail_eq
  have hle : p.zone + 1 ≤ 7 ∨ p = .hiddenPrimary := by cases p <;> simp [Part.zone]
  rcases hle with hle | rfl
  · have h7 : lay.zoneStart (p.zone + 1) ≤ lay.zoneStart 7 := lay.zoneStart_mono hle
    have h7' : lay.zoneStart 7 =
      Storage.slotOffset (lay.outerSlots.toNat + lay.hiddenSlots.toNat) + 512 := rfl
    split at htail <;> omega
  · have hhid : lay.hasHidden = true := hp
    rw [hhid, if_pos rfl] at htail
    change lay.fileSize.toNat - 512 + 512 ≤ lay.fileSize.toNat
    omega

/-- The backup header's place is found again from the size of the file. -/
theorem Sizes.inferredBackup (h : Sizes total hidden lay) :
    inferredBackupOffset lay.fileSize.toNat =
      outerBackupOffset lay.fileSize.toNat lay.hasHidden := by
  have hfile := h.fileSize_eq
  have htail := h.tail_eq
  unfold Storage.slotOffset at hfile
  have hmod : (lay.fileSize.toNat - dataAreaOffset) % slotSize = lay.tailSize.toNat % slotSize := by
    have hsub : lay.fileSize.toNat - dataAreaOffset = lay.tailSize.toNat +
        (lay.outerSlots.toNat + lay.hiddenSlots.toNat) * slotSize := by omega
    rw [hsub, Nat.add_mul_mod_self_right]
  unfold inferredBackupOffset outerBackupOffset
  rw [hmod, htail]
  cases lay.hasHidden <;> rfl

end Regions

/-! ## No sum wraps -/

/-- The arithmetic behind a layout is exact: no sum reaches 2^64 and no difference is
    negative. -/
structure NoWrap (total : UInt64) (hidden : Option UInt64) (lay : Layout) : Prop where
  usable : dataAreaOffset + lay.tailSize.toNat ≤ total.toNat
  roundUp : ∀ size, hidden = some size → size.toNat + slotSize < 2 ^ 64
  requested : ∀ size, hidden = some size →
    lay.hiddenSlots.toNat = max ((size.toNat + slotSize - 1) / slotSize) 2
  remaining : lay.outerSlots.toNat + lay.hiddenSlots.toNat =
    (total.toNat - (dataAreaOffset + lay.tailSize.toNat)) / slotSize
  slots : lay.outerSlots.toNat + lay.hiddenSlots.toNat < 2 ^ 64
  bytes : (lay.outerSlots.toNat + lay.hiddenSlots.toNat) * slotSize < 2 ^ 64
  fileSize : dataAreaOffset + (lay.outerSlots.toNat + lay.hiddenSlots.toNat) * slotSize +
    lay.tailSize.toNat < 2 ^ 64
  hiddenRoot : (lay.outerSlots + 1).toNat = lay.outerSlots.toNat + 1
  tail : 1024 ≤ lay.fileSize.toNat

section Wrap

variable {total : UInt64} {hidden : Option UInt64} {lay : Layout}

/-- Rounding up does not wrap: a size for which it would leaves no room for the outer volume. -/
theorem requestedSlots_toNat {size : UInt64} (hle : size.toNat ≤ 2 ^ 64 - 32768)
    (hfit : (requestedSlots size).toNat + 2 ≤ 2 ^ 49) :
    size.toNat + slotSize < 2 ^ 64 ∧
      (requestedSlots size).toNat = max ((size.toNat + slotSize - 1) / slotSize) 2 := by
  have hslot : (UInt64.ofNat slotSize).toNat = 32768 := rfl
  have hround : (size + UInt64.ofNat slotSize - 1).toNat = size.toNat + 32767 := by
    rw [UInt64.toNat_sub, UInt64.toNat_add, hslot]
    change (2 ^ 64 - 1 + (size.toNat + 32768) % 2 ^ 64) % 2 ^ 64 = size.toNat + 32767
    omega
  have hdiv : ((size + UInt64.ofNat slotSize - 1) / UInt64.ofNat slotSize).toNat =
      (size.toNat + 32767) / 32768 := by rw [UInt64.toNat_div, hround, hslot]
  have hmax : requestedSlots size = if (size + UInt64.ofNat slotSize - 1) / UInt64.ofNat slotSize ≤ 2
      then 2 else (size + UInt64.ofNat slotSize - 1) / UInt64.ofNat slotSize := rfl
  have hreq : (requestedSlots size).toNat = max ((size.toNat + 32767) / 32768) 2 := by
    rw [hmax]
    split
    next hle2 =>
      have := UInt64.le_iff_toNat_le.mp hle2
      rw [hdiv] at this
      exact (Nat.max_eq_right this).symm
    next hgt =>
      have := UInt64.lt_iff_toNat_lt.mp (UInt64.not_le.mp hgt)
      rw [hdiv] at this
      rw [hdiv, Nat.max_eq_left (show 2 ≤ _ from Nat.le_of_lt this)]
  rw [slotSize_eq]
  refine ⟨?_, hreq⟩
  have hge : (size.toNat + 32767) / 32768 ≤ (requestedSlots size).toNat := by
    rw [hreq]; exact Nat.le_max_left _ _
  omega

theorem layout_noWrap (hsize : ∀ size, hidden = some size → size.toNat ≤ 2 ^ 64 - 32768)
    (h : layout total hidden = .ok lay) : NoWrap total hidden lay := by
  have hsizes := layout_sizes h
  have htotal := total.toNat_lt
  have hfile := hsizes.fileSize
  have hle := hsizes.le_total
  have hmin : minSize = 16376 + 16 * 32768 + 512 := rfl
  have hsum : lay.outerSlots.toNat + lay.hiddenSlots.toNat =
        (total.toNat - (dataAreaOffset + lay.tailSize.toNat)) / slotSize ∧
      (∀ size, hidden = some size → size.toNat + slotSize < 2 ^ 64 ∧
        lay.hiddenSlots.toNat = max ((size.toNat + slotSize - 1) / slotSize) 2) := by
    cases hidden with
    | none =>
      obtain ⟨-, hhid, htail, houter, -⟩ := layout_none h
      refine ⟨?_, fun _ hs => (by cases hs)⟩
      rw [houter, hhid, htail, UInt64.toNat_zero, Nat.add_zero, totalDataSlots]
      rfl
    | some size =>
      obtain ⟨-, hhid, htail, houter, htwo, -⟩ := layout_some h
      have hfit : lay.outerSlots.toNat + lay.hiddenSlots.toNat = totalDataSlots total 1024 := by
        rw [hhid]; omega
      have htds : totalDataSlots total 1024 ≤ 2 ^ 49 := by
        unfold totalDataSlots
        rw [slotSize_eq]
        omega
      refine ⟨by rw [hfit, htail, totalDataSlots]; rfl, ?_⟩
      rintro _ ⟨⟩
      rw [hhid] at hfit ⊢
      exact requestedSlots_toNat (hsize size rfl) (by omega)
  rw [dataAreaOffset_eq, slotSize_eq] at hfile
  refine ⟨by rw [dataAreaOffset_eq]; omega, fun size hs => (hsum.2 size hs).1,
    fun size hs => (hsum.2 size hs).2, hsum.1, ?_, ?_, ?_, ?_, by omega⟩
  · omega
  · rw [slotSize_eq]; omega
  · rw [dataAreaOffset_eq, slotSize_eq]; omega
  · rw [UInt64.toNat_add]
    change (lay.outerSlots.toNat + 1) % 2 ^ 64 = _
    omega

/-- The regions of a container `create` accepts: disjoint, inside a file no larger than
    asked for, computed without wrapping, and with the backup header where a later
    rewrite will look for it. -/
theorem layout_regions (hsize : ∀ size, hidden = some size → size.toNat ≤ 2 ^ 64 - 32768)
    (h : layout total hidden = .ok lay) :
    lay.hasHidden = hidden.isSome ∧
      (∀ p q, lay.Has p → lay.Has q → p ≠ q → (lay.region p).Disjoint (lay.region q)) ∧
      (∀ p, lay.Has p → (lay.region p).off + (lay.region p).len ≤ lay.fileSize.toNat) ∧
      lay.fileSize.toNat ≤ total.toNat ∧ NoWrap total hidden lay ∧
      inferredBackupOffset lay.fileSize.toNat =
        outerBackupOffset lay.fileSize.toNat hidden.isSome := by
  have hsizes := layout_sizes h
  refine ⟨hsizes.hasHidden, fun p q hp hq hne => hsizes.disjoint hp hq hne, fun p hp => hsizes.inside hp,
    hsizes.le_total, layout_noWrap hsize h, ?_⟩
  rw [hsizes.inferredBackup, hsizes.hasHidden]

/-- A container of a million bytes, 70000 of them for a hidden volume. -/
theorem layout_regions_hidden :
    (∀ p q, Layout.Has ⟨26, 3, 1024, 967672⟩ p → Layout.Has ⟨26, 3, 1024, 967672⟩ q → p ≠ q →
      (Layout.region ⟨26, 3, 1024, 967672⟩ p).Disjoint (Layout.region ⟨26, 3, 1024, 967672⟩ q)) ∧
      inferredBackupOffset 967672 = 967672 - 1024 := by
  have h := @layout_regions 1000000 (some 70000) ⟨26, 3, 1024, 967672⟩ (by rintro _ ⟨⟩; decide) rfl
  exact ⟨h.2.1, h.2.2.2.2.2⟩

end Wrap

end Venom.Fs
