import Mathlib.Data.List.Basic

/-! # Lossy reading of UTF-8

Bytes are read as text that always exists: what is no character becomes U+FFFD.  One
replacement stands for the longest beginning of a character, or for a single byte.  Valid
text is read unchanged.
-/

namespace Venom.Library.Utf8Lossy

/-- May `b` stand second in a character of three or four bytes that starts with `first`? -/
def secondOk (first b : UInt8) : Bool :=
  if first = 0xE0 then 0xA0 ≤ b && b ≤ 0xBF
  else if first = 0xED then 0x80 ≤ b && b ≤ 0x9F
  else if first = 0xF0 then 0x90 ≤ b && b ≤ 0xBF
  else if first = 0xF4 then 0x80 ≤ b && b ≤ 0x8F
  else 0xE1 ≤ first && first ≤ 0xF3 && 0x80 ≤ b && b ≤ 0xBF

/-- How many bytes one replacement stands for, where the bytes start with no character. -/
def invalidLen : List UInt8 → Nat
  | first :: second :: rest =>
    if secondOk first second then
      -- the last byte of a character is the one that is wrong or missing
      match rest with
      | third :: _ => if 0xF0 ≤ first && 0x80 ≤ third && third ≤ 0xBF then 3 else 2
      | [] => 2
    else 1
  | _ => 1

/-- The characters of the bytes; every round uses up at least one byte. -/
def chars : Nat → List UInt8 → List Char
  | 0, _ => []
  | _ + 1, [] => []
  | fuel + 1, b :: bytes =>
    match ByteArray.utf8DecodeChar? ⟨(b :: bytes).toArray⟩ 0 with
    | some c => c :: chars fuel ((b :: bytes).drop c.utf8Size)
    | none => '\uFFFD' :: chars fuel ((b :: bytes).drop (invalidLen (b :: bytes)))

/-- `String::from_utf8_lossy`. -/
def fromUtf8Lossy (bytes : List UInt8) : String := String.ofList (chars bytes.length bytes)

/-- A character in front is read, and the rest goes on behind its bytes. -/
theorem chars_cons (fuel : Nat) (c : Char) (l : List Char) :
    chars (fuel + 1) ((c :: l).flatMap String.utf8EncodeChar) =
      c :: chars fuel (l.flatMap String.utf8EncodeChar) := by
  have hdecode : ByteArray.utf8DecodeChar? (c :: l).utf8Encode 0 = some c :=
    List.utf8DecodeChar?_utf8Encode_cons
  have hdrop : ((c :: l).flatMap String.utf8EncodeChar).drop c.utf8Size =
      l.flatMap String.utf8EncodeChar := by
    rw [List.flatMap_cons, ← String.length_utf8EncodeChar c, List.drop_left]
  have hbytes : (c :: l).utf8Encode = ⟨((c :: l).flatMap String.utf8EncodeChar).toArray⟩ := by
    apply ByteArray.ext
    simp [List.utf8Encode]
  rw [hbytes] at hdecode
  cases hsplit : (c :: l).flatMap String.utf8EncodeChar with
  | nil => simp at hsplit
  | cons b bytes =>
    rw [hsplit] at hdecode hdrop
    rw [chars, hdecode]
    exact congrArg (c :: chars fuel ·) hdrop

theorem chars_encoded {fuel : Nat} {l : List Char} (h : l.length ≤ fuel) :
    chars fuel (l.flatMap String.utf8EncodeChar) = l := by
  induction l generalizing fuel with
  | nil => cases fuel <;> rfl
  | cons c l ih =>
    cases fuel with
    | zero => cases h
    | succ fuel => rw [chars_cons, ih (Nat.le_of_succ_le_succ h)]

theorem length_le_flatMap (l : List Char) :
    l.length ≤ (l.flatMap String.utf8EncodeChar).length := by
  induction l with
  | nil => exact Nat.le_refl _
  | cons c l ih =>
    have hpos : 0 < c.utf8Size := c.utf8Size_pos
    simp only [List.flatMap_cons, List.length_append, List.length_cons, String.length_utf8EncodeChar]
    omega

/-- Text is read back unchanged. -/
theorem fromUtf8Lossy_toUTF8 (s : String) : fromUtf8Lossy s.toUTF8.data.toList = s := by
  have hbytes : s.toUTF8.data.toList = s.toList.flatMap String.utf8EncodeChar := by
    rw [String.toUTF8_eq_toByteArray, ← String.utf8Encode_toList]
    simp [List.utf8Encode]
  rw [fromUtf8Lossy, hbytes, chars_encoded (length_le_flatMap _), String.ofList_toList]

-- a byte that starts no character, and a character cut short behind its third byte
example : fromUtf8Lossy [0x61, 0xFF, 0x62, 0xF0, 0x9F, 0x92] = "a\uFFFDb\uFFFD" := by
  decide +kernel

end Venom.Library.Utf8Lossy
