import Mathlib.Data.List.Basic
import Mathlib.Data.Nat.Basic
import Mathlib.Tactic.Ring

/-! # Fixed-width words as bytes

The big-endian and the little-endian spelling of a natural number in a fixed number
of bytes.  A number that fits its width is read back unchanged.  Last, bytes spelled as
hexadecimal digits.
-/

namespace Venom.Library.Words

/-- The `width` low bytes of `n`, most significant first. -/
def bigEndian : Nat → Nat → List UInt8
  | 0, _ => []
  | width + 1, n => bigEndian width (n / 256) ++ [UInt8.ofNat n]

def ofBigEndian (bytes : List UInt8) : Nat :=
  bytes.foldl (fun acc b => acc * 256 + b.toNat) 0

/-- The `width` low bytes of `n`, least significant first. -/
def littleEndian : Nat → Nat → List UInt8
  | 0, _ => []
  | width + 1, n => UInt8.ofNat n :: littleEndian width (n / 256)

def ofLittleEndian : List UInt8 → Nat
  | [] => 0
  | b :: bytes => b.toNat + 256 * ofLittleEndian bytes

@[simp] theorem length_bigEndian (width n : Nat) : (bigEndian width n).length = width := by
  induction width generalizing n with
  | zero => rfl
  | succ width ih => simp [bigEndian, ih]

@[simp] theorem length_littleEndian (width n : Nat) : (littleEndian width n).length = width := by
  induction width generalizing n with
  | zero => rfl
  | succ width ih => simp [littleEndian, ih]

private theorem div_lt_of_lt_pow {n width : Nat} (h : n < 256 ^ (width + 1)) :
    n / 256 < 256 ^ width :=
  Nat.div_lt_of_lt_mul (by rwa [pow_succ, Nat.mul_comm] at h)

theorem ofBigEndian_append (xs : List UInt8) (b : UInt8) :
    ofBigEndian (xs ++ [b]) = ofBigEndian xs * 256 + b.toNat := by
  simp [ofBigEndian]

theorem ofBigEndian_bigEndian {width n : Nat} (h : n < 256 ^ width) :
    ofBigEndian (bigEndian width n) = n := by
  induction width generalizing n with
  | zero => simp only [pow_zero, Nat.lt_one_iff] at h; subst h; rfl
  | succ width ih =>
    rw [bigEndian, ofBigEndian_append, ih (div_lt_of_lt_pow h), UInt8.toNat_ofNat']
    omega

theorem ofLittleEndian_littleEndian {width n : Nat} (h : n < 256 ^ width) :
    ofLittleEndian (littleEndian width n) = n := by
  induction width generalizing n with
  | zero => simp only [pow_zero, Nat.lt_one_iff] at h; subst h; rfl
  | succ width ih =>
    rw [littleEndian, ofLittleEndian, ih (div_lt_of_lt_pow h), UInt8.toNat_ofNat']
    omega

/-- Four bytes hold every `u32`, eight every `u64`. -/
theorem ofLittleEndian_u32 {n : Nat} (h : n < 2 ^ 32) :
    ofLittleEndian (littleEndian 4 n) = n := ofLittleEndian_littleEndian (by omega)

theorem ofLittleEndian_u64 {n : Nat} (h : n < 2 ^ 64) :
    ofLittleEndian (littleEndian 8 n) = n := ofLittleEndian_littleEndian (by omega)

/-! ## Slices of a byte string -/

/-- The bytes `[off, off + len)`. -/
def sub (bytes : List UInt8) (off len : Nat) : List UInt8 := (bytes.drop off).take len

theorem length_sub {bytes : List UInt8} {off len : Nat} (h : off + len ≤ bytes.length) :
    (sub bytes off len).length = len := by
  simp only [sub, List.length_take, List.length_drop]
  omega

/-- A slice behind a prefix. -/
theorem sub_append_right {a : List UInt8} {n : Nat} (h : a.length = n) (b : List UInt8)
    (off len : Nat) : sub (a ++ b) (n + off) len = sub b off len := by
  rw [sub, sub, ← h, List.drop_length_add_append]

/-- The slice that is a prefix. -/
theorem sub_append_left {a : List UInt8} {n : Nat} (h : a.length = n) (b : List UInt8) :
    sub (a ++ b) 0 n = a := by
  rw [sub, List.drop_zero, ← h, List.take_left]

/-- A field of a record of consecutive fields. -/
theorem sub_field {bytes before field rest : List UInt8} {off len : Nat}
    (hsplit : bytes = before ++ (field ++ rest)) (hoff : before.length = off)
    (hlen : field.length = len) : sub bytes off len = field := by
  rw [hsplit, ← Nat.add_zero off, sub_append_right hoff, sub_append_left hlen]

/-- Fill up with zeros to a fixed length. -/
def padTo (n : Nat) (bytes : List UInt8) : List UInt8 :=
  bytes ++ List.replicate (n - bytes.length) 0

theorem length_padTo {n : Nat} {bytes : List UInt8} (h : bytes.length ≤ n) :
    (padTo n bytes).length = n := by
  simp only [padTo, List.length_append, List.length_replicate]
  omega

/-- Text without a zero byte is what stands in front of the first one. -/
theorem takeWhile_padTo {bytes : List UInt8} (h : (0 : UInt8) ∉ bytes) (n : Nat) :
    (padTo n bytes).takeWhile (· ≠ 0) = bytes := by
  have hall : ∀ x ∈ bytes, decide (x ≠ 0) = true := by
    intro x hx
    exact decide_eq_true fun he => h (he ▸ hx)
  rw [padTo, List.takeWhile_append_of_pos hall]
  cases n - bytes.length with
  | zero => simp
  | succ n => simp [List.replicate_succ]

/-! ## Hexadecimal text -/

def hexDigit (n : Nat) : Char := "0123456789abcdef".toList.getD n '0'

def hexValue (c : Char) : Option Nat :=
  if '0' ≤ c ∧ c ≤ '9' then some (c.toNat - '0'.toNat)
  else if 'a' ≤ c ∧ c ≤ 'f' then some (c.toNat - 'a'.toNat + 10)
  else if 'A' ≤ c ∧ c ≤ 'F' then some (c.toNat - 'A'.toNat + 10)
  else none

def hexChars (bytes : List UInt8) : List Char :=
  bytes.flatMap fun b => [hexDigit (b.toNat / 16), hexDigit (b.toNat % 16)]

def ofHexChars : List Char → Option (List UInt8)
  | [] => some []
  | [_] => none
  | hi :: lo :: rest => do
    let h ← hexValue hi
    let l ← hexValue lo
    let bytes ← ofHexChars rest
    some (UInt8.ofNat (h * 16 + l) :: bytes)

/-- Two lower-case digits a byte. -/
def hexEncode (bytes : List UInt8) : String := String.ofList (hexChars bytes)

def hexDecode (s : String) : Option (List UInt8) := ofHexChars s.toList

theorem hexValue_hexDigit {n : Nat} (h : n < 16) : hexValue (hexDigit n) = some n := by
  have hall : ∀ n : Fin 16, hexValue (hexDigit n) = some n.val := by decide
  exact hall ⟨n, h⟩

theorem ofHexChars_hexChars (bytes : List UInt8) : ofHexChars (hexChars bytes) = some bytes := by
  induction bytes with
  | nil => rfl
  | cons b bytes ih =>
    have hlt : b.toNat < 256 := b.toNat_lt
    have hval : b.toNat / 16 * 16 + b.toNat % 16 = b.toNat := Nat.div_add_mod' _ _
    change ofHexChars (hexDigit (b.toNat / 16) :: hexDigit (b.toNat % 16) :: hexChars bytes) = _
    rw [ofHexChars, hexValue_hexDigit (by omega), hexValue_hexDigit (by omega), ih]
    simp only [Option.bind_eq_bind, Option.bind_some, hval, UInt8.ofNat_toNat]

/-- Decoding inverts encoding. -/
@[simp] theorem hexDecode_hexEncode (bytes : List UInt8) :
    hexDecode (hexEncode bytes) = some bytes := by
  rw [hexDecode, hexEncode, String.toList_ofList, ofHexChars_hexChars]

theorem hexEncode_inj {bytes bytes' : List UInt8} :
    hexEncode bytes = hexEncode bytes' ↔ bytes = bytes' := by
  refine ⟨fun h => ?_, fun h => h ▸ rfl⟩
  have := hexDecode_hexEncode bytes
  rw [h, hexDecode_hexEncode, Option.some.injEq] at this
  exact this.symm

end Venom.Library.Words
