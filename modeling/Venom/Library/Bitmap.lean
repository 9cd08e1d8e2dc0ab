import Mathlib.Data.Nat.Bitwise
import Mathlib.Data.List.Basic

/-! # Bitmaps

A set of numbers below `n` as a string of bytes, eight to a byte, the lowest bit first.
Setting a bit past the last byte is refused; a bit past the last byte reads as clear.
-/

namespace Venom.Library.Bitmap

/-- The bitmap of no number. -/
def zeros (n : Nat) : List UInt8 := List.replicate ((n + 7) / 8) 0

def setBit (i : Nat) (bitmap : List UInt8) : Option (List UInt8) :=
  if i / 8 < bitmap.length then
    some (bitmap.modify (i / 8) fun b => b ||| (1 <<< UInt8.ofNat (i % 8)))
  else none

def getBit (i : Nat) (bitmap : List UInt8) : Bool :=
  (bitmap[i / 8]?.map fun b => (b >>> UInt8.ofNat (i % 8)) &&& 1 == 1).getD false

def setBits : List Nat → List UInt8 → Option (List UInt8)
  | [], bitmap => some bitmap
  | i :: is, bitmap => setBit i bitmap >>= setBits is

/-! ## One byte -/

private theorem testBit_byte (b : UInt8) (j : Nat) (hj : j < 8) :
    ((b >>> UInt8.ofNat j) &&& 1 == 1) = b.toNat.testBit j := by
  have hmod : j % 256 % 8 = j := by omega
  have hval : ((b >>> UInt8.ofNat j) &&& 1).toNat = b.toNat >>> j % 2 := by
    simp [hmod, Nat.and_one_is_mod]
  have hone : ((b >>> UInt8.ofNat j) &&& 1 = 1) ↔ b.toNat >>> j % 2 = 1 := by
    rw [← UInt8.toNat_inj, hval]; rfl
  rw [Nat.testBit, Nat.one_and_eq_mod_two, Bool.eq_iff_iff, beq_iff_eq, hone]
  simp

private theorem testBit_or_byte (b : UInt8) (i j : Nat) (hi : i < 8) :
    (b ||| (1 <<< UInt8.ofNat i)).toNat.testBit j = (decide (i = j) || b.toNat.testBit j) := by
  have hmod : i % 256 % 8 = i := by omega
  have hpow : 2 ^ i < 256 := (Nat.pow_lt_pow_right (by decide) hi).trans_le (by decide)
  have hval : (1 <<< UInt8.ofNat i : UInt8).toNat = 2 ^ i := by
    simp only [UInt8.toNat_shiftLeft, UInt8.toNat_ofNat', hmod, UInt8.toNat_one,
      Nat.one_shiftLeft]
    exact Nat.mod_eq_of_lt hpow
  rw [UInt8.toNat_or, hval, Nat.testBit_or, Nat.testBit_two_pow, Bool.or_comm]

/-! ## Bits of a bitmap -/

@[simp] theorem length_zeros (n : Nat) : (zeros n).length = (n + 7) / 8 := by simp [zeros]

theorem getBit_zeros (n i : Nat) : getBit i (zeros n) = false := by
  unfold getBit zeros
  rw [List.getElem?_replicate]
  by_cases h : i / 8 < (n + 7) / 8
  · rw [if_pos h]
    exact (testBit_byte 0 (i % 8) (Nat.mod_lt _ (by decide))).trans (by simp)
  · rw [if_neg h]
    rfl

theorem setBit_isSome {i n : Nat} {bitmap : List UInt8} (hlen : bitmap.length = (n + 7) / 8)
    (hi : i < n) : ∃ bitmap', setBit i bitmap = some bitmap' ∧ bitmap'.length = bitmap.length := by
  refine ⟨_, if_pos (by omega), List.length_modify _ _ _⟩

theorem length_setBit {i : Nat} {bitmap bitmap' : List UInt8} (h : setBit i bitmap = some bitmap') :
    bitmap'.length = bitmap.length := by
  unfold setBit at h
  split at h
  · cases h
    exact List.length_modify _ _ _
  · cases h

/-- A set bit reads as set, the others are unchanged. -/
theorem getBit_setBit {i j : Nat} {bitmap bitmap' : List UInt8} (h : setBit i bitmap = some bitmap') :
    getBit j bitmap' = (decide (i = j) || getBit j bitmap) := by
  unfold setBit at h
  split at h
  next hi =>
    cases h
    unfold getBit
    rw [List.getElem?_modify]
    by_cases hbyte : i / 8 = j / 8
    · rw [List.getElem?_eq_getElem (hbyte ▸ hi)]
      simp only [hbyte, if_true, Option.map_eq_map, Option.map_some, Option.getD_some]
      rw [testBit_byte _ _ (Nat.mod_lt _ (by decide)), testBit_byte _ _ (Nat.mod_lt _ (by decide)),
        testBit_or_byte _ _ _ (Nat.mod_lt _ (by decide))]
      congr 1
      rw [decide_eq_decide]
      omega
    · rw [decide_eq_false (fun he => hbyte (by rw [he]))]
      simp [hbyte]
  next => contradiction

/-- Numbers below `n` fit a bitmap of `n` bits, and exactly their bits are set. -/
theorem setBits_spec {n : Nat} {is : List Nat} {bitmap : List UInt8}
    (hlen : bitmap.length = (n + 7) / 8) (his : ∀ i ∈ is, i < n) :
    ∃ bitmap', setBits is bitmap = some bitmap' ∧ bitmap'.length = (n + 7) / 8 ∧
      ∀ j, getBit j bitmap' = (decide (j ∈ is) || getBit j bitmap) := by
  induction is generalizing bitmap with
  | nil => exact ⟨bitmap, rfl, hlen, by simp⟩
  | cons i is ih =>
    obtain ⟨b₁, hb₁, hlen₁⟩ := setBit_isSome hlen (his i (.head _))
    obtain ⟨b₂, hb₂, hlen₂, hbits⟩ := ih (hlen₁.trans hlen) (fun j hj => his j (.tail _ hj))
    refine ⟨b₂, by rw [setBits, hb₁]; exact hb₂, hlen₂, ?_⟩
    intro j
    rw [hbits j, getBit_setBit hb₁, Bool.eq_iff_iff]
    simp only [Bool.or_eq_true, decide_eq_true_eq, List.mem_cons, eq_comm (a := i)]
    tauto

/-- The bitmap of a list of numbers below `n`. -/
theorem setBits_zeros {n : Nat} {is : List Nat} (his : ∀ i ∈ is, i < n) :
    ∃ bitmap, setBits is (zeros n) = some bitmap ∧ bitmap.length = (n + 7) / 8 ∧
      ∀ j, getBit j bitmap = decide (j ∈ is) := by
  obtain ⟨bitmap, h, hlen, hbits⟩ := setBits_spec (length_zeros n) his
  exact ⟨bitmap, h, hlen, fun j => by rw [hbits, getBit_zeros, Bool.or_false]⟩

end Venom.Library.Bitmap
