import Venom.Library.Words

/-! # MessagePack

The part of the MessagePack format that a `to_vec_named` serializer produces: nil,
unsigned integers, strings, binary blobs, arrays, and maps whose keys are strings.
Every value starts with a *head* (its marker byte and the number or length that
follows), so the reader is a head reader plus a recursion over the announced number
of elements.  `decode_encode` is the round trip; `length_encode` gives the exact size
of an encoding from the widths of its heads.
-/

namespace Venom.Library.MessagePack

open Venom.Library.Words

/-! ## Heads -/

inductive Head
  | nil
  | uint (n : Nat)
  | str (len : Nat)
  | bin (len : Nat)
  | array (len : Nat)
  | map (len : Nat)
  deriving DecidableEq, Repr

namespace Head

/-- The largest number a head of this kind can carry, plus one. -/
def bound : Head → Nat
  | .nil => 1
  | .uint _ => 2 ^ 64
  | .str _ | .bin _ | .array _ | .map _ => 2 ^ 32

def number : Head → Nat
  | .nil => 0
  | .uint n | .str n | .bin n | .array n | .map n => n

def Valid (h : Head) : Prop := h.number < h.bound

instance (h : Head) : Decidable h.Valid := inferInstanceAs (Decidable (_ < _))

/-- A marker byte followed by a big-endian number. -/
def marked (marker width n : Nat) : List UInt8 := UInt8.ofNat marker :: bigEndian width n

def encode : Head → List UInt8
  | .nil => [0xc0]
  | .uint n =>
    if n < 128 then [UInt8.ofNat n]
    else if n < 2 ^ 8 then marked 0xcc 1 n
    else if n < 2 ^ 16 then marked 0xcd 2 n
    else if n < 2 ^ 32 then marked 0xce 4 n
    else marked 0xcf 8 n
  | .str n =>
    if n < 32 then [UInt8.ofNat (0xa0 + n)]
    else if n < 2 ^ 8 then marked 0xd9 1 n
    else if n < 2 ^ 16 then marked 0xda 2 n
    else marked 0xdb 4 n
  | .bin n =>
    if n < 2 ^ 8 then marked 0xc4 1 n
    else if n < 2 ^ 16 then marked 0xc5 2 n
    else marked 0xc6 4 n
  | .array n =>
    if n < 16 then [UInt8.ofNat (0x90 + n)]
    else if n < 2 ^ 16 then marked 0xdc 2 n
    else marked 0xdd 4 n
  | .map n =>
    if n < 16 then [UInt8.ofNat (0x80 + n)]
    else if n < 2 ^ 16 then marked 0xde 2 n
    else marked 0xdf 4 n

/-- The number of bytes of a head. -/
def width : Head → Nat
  | .nil => 1
  | .uint n =>
    if n < 128 then 1 else if n < 2 ^ 8 then 2 else if n < 2 ^ 16 then 3
    else if n < 2 ^ 32 then 5 else 9
  | .str n => if n < 32 then 1 else if n < 2 ^ 8 then 2 else if n < 2 ^ 16 then 3 else 5
  | .bin n => if n < 2 ^ 8 then 2 else if n < 2 ^ 16 then 3 else 5
  | .array n | .map n => if n < 16 then 1 else if n < 2 ^ 16 then 3 else 5

theorem length_encode (h : Head) : h.encode.length = h.width := by
  cases h <;> simp only [encode, width, marked] <;> (repeat' split) <;> simp_all

theorem width_pos (h : Head) : 0 < h.width := by
  cases h <;> simp only [width] <;> (repeat' split) <;> omega

/-- Read a big-endian number of `width` bytes. -/
def readNumber (width : Nat) (bytes : List UInt8) : Option (Nat × List UInt8) :=
  if width ≤ bytes.length then some (ofBigEndian (bytes.take width), bytes.drop width) else none

theorem readNumber_bigEndian {width n : Nat} (h : n < 256 ^ width) (rest : List UInt8) :
    readNumber width (bigEndian width n ++ rest) = some (n, rest) := by
  have hlen := length_bigEndian width n
  rw [readNumber, if_pos (by simp [hlen]), List.take_left' hlen, List.drop_left' hlen,
    ofBigEndian_bigEndian h]

def decode : List UInt8 → Option (Head × List UInt8)
  | [] => none
  | b :: rest =>
    let m := b.toNat
    if m < 0x80 then some (.uint m, rest)
    else if m < 0x90 then some (.map (m - 0x80), rest)
    else if m < 0xa0 then some (.array (m - 0x90), rest)
    else if m < 0xc0 then some (.str (m - 0xa0), rest)
    else match m with
      | 0xc0 => some (.nil, rest)
      | 0xc4 => (readNumber 1 rest).map (Prod.map .bin id)
      | 0xc5 => (readNumber 2 rest).map (Prod.map .bin id)
      | 0xc6 => (readNumber 4 rest).map (Prod.map .bin id)
      | 0xcc => (readNumber 1 rest).map (Prod.map .uint id)
      | 0xcd => (readNumber 2 rest).map (Prod.map .uint id)
      | 0xce => (readNumber 4 rest).map (Prod.map .uint id)
      | 0xcf => (readNumber 8 rest).map (Prod.map .uint id)
      | 0xd9 => (readNumber 1 rest).map (Prod.map .str id)
      | 0xda => (readNumber 2 rest).map (Prod.map .str id)
      | 0xdb => (readNumber 4 rest).map (Prod.map .str id)
      | 0xdc => (readNumber 2 rest).map (Prod.map .array id)
      | 0xdd => (readNumber 4 rest).map (Prod.map .array id)
      | 0xde => (readNumber 2 rest).map (Prod.map .map id)
      | 0xdf => (readNumber 4 rest).map (Prod.map .map id)
      | _ => none

private theorem decode_marked {marker width n : Nat} {f : Nat → Head} {rest : List UInt8}
    (hn : n < 256 ^ width)
    (hread : decode (UInt8.ofNat marker :: (bigEndian width n ++ rest)) =
      (readNumber width (bigEndian width n ++ rest)).map (Prod.map f id)) :
    decode (marked marker width n ++ rest) = some (f n, rest) := by
  rw [marked, List.cons_append, hread, readNumber_bigEndian hn]
  rfl

theorem decode_encode (h : Head) (hv : h.Valid) (rest : List UInt8) :
    decode (h.encode ++ rest) = some (h, rest) := by
  cases h with
  | nil => rfl
  | uint n =>
    simp only [Valid, number, bound] at hv
    simp only [encode]
    split
    next h => simp [decode, UInt8.toNat_ofNat', Nat.mod_eq_of_lt (show n < 256 by omega), h]
    next => (repeat' split) <;> exact decode_marked (by omega) rfl
  | str n =>
    simp only [Valid, number, bound] at hv
    simp only [encode]
    split
    next h =>
      have hb : (UInt8.ofNat (0xa0 + n)).toNat = 0xa0 + n := by
        rw [UInt8.toNat_ofNat']; omega
      simp only [List.cons_append, List.nil_append, decode, hb]
      rw [if_neg (by omega), if_neg (by omega), if_neg (by omega), if_pos (by omega)]
      simp
    next => (repeat' split) <;> exact decode_marked (by omega) rfl
  | bin n =>
    simp only [Valid, number, bound] at hv
    simp only [encode]
    (repeat' split) <;> exact decode_marked (by omega) rfl
  | array n =>
    simp only [Valid, number, bound] at hv
    simp only [encode]
    split
    next h =>
      have hb : (UInt8.ofNat (0x90 + n)).toNat = 0x90 + n := by
        rw [UInt8.toNat_ofNat']; omega
      simp only [List.cons_append, List.nil_append, decode, hb]
      rw [if_neg (by omega), if_neg (by omega), if_pos (by omega)]
      simp
    next => (repeat' split) <;> exact decode_marked (by omega) rfl
  | map n =>
    simp only [Valid, number, bound] at hv
    simp only [encode]
    split
    next h =>
      have hb : (UInt8.ofNat (0x80 + n)).toNat = 0x80 + n := by
        rw [UInt8.toNat_ofNat']; omega
      simp only [List.cons_append, List.nil_append, decode, hb]
      rw [if_neg (by omega), if_pos (by omega)]
      simp
    next => (repeat' split) <;> exact decode_marked (by omega) rfl

end Head

/-! ## Values -/

mutual
inductive Value
  | nil
  | uint (n : Nat)
  | str (bytes : List UInt8)
  | bin (bytes : List UInt8)
  | array (items : Values)
  | map (fields : Fields)

inductive Values
  | nil
  | cons (head : Value) (tail : Values)

inductive Fields
  | nil
  | cons (key : List UInt8) (value : Value) (tail : Fields)
end

def Values.length : Values → Nat
  | .nil => 0
  | .cons _ tail => tail.length + 1

def Fields.length : Fields → Nat
  | .nil => 0
  | .cons _ _ tail => tail.length + 1

/-- The values stored under a key, in order. -/
def Fields.lookup (key : List UInt8) : Fields → List Value
  | .nil => []
  | .cons k v tail => if k = key then v :: tail.lookup key else tail.lookup key

@[simp] theorem Fields.lookup_nil (key : List UInt8) : Fields.nil.lookup key = [] := rfl

mutual
def Value.encode : Value → List UInt8
  | .nil => Head.encode .nil
  | .uint n => Head.encode (.uint n)
  | .str bytes => Head.encode (.str bytes.length) ++ bytes
  | .bin bytes => Head.encode (.bin bytes.length) ++ bytes
  | .array items => Head.encode (.array items.length) ++ items.encode
  | .map fields => Head.encode (.map fields.length) ++ fields.encode

def Values.encode : Values → List UInt8
  | .nil => []
  | .cons head tail => head.encode ++ tail.encode

def Fields.encode : Fields → List UInt8
  | .nil => []
  | .cons key value tail =>
    Head.encode (.str key.length) ++ key ++ value.encode ++ tail.encode
end

mutual
/-- Every number fits its head. -/
def Value.valid : Value → Bool
  | .nil => true
  | .uint n => decide (Head.uint n).Valid
  | .str bytes => decide (Head.str bytes.length).Valid
  | .bin bytes => decide (Head.bin bytes.length).Valid
  | .array items => decide (Head.array items.length).Valid && items.valid
  | .map fields => decide (Head.map fields.length).Valid && fields.valid

def Values.valid : Values → Bool
  | .nil => true
  | .cons head tail => head.valid && tail.valid

def Fields.valid : Fields → Bool
  | .nil => true
  | .cons key value tail =>
    decide (Head.str key.length).Valid && value.valid && tail.valid
end

mutual
/-- The size of an encoding. -/
def Value.size : Value → Nat
  | .nil => Head.width .nil
  | .uint n => Head.width (.uint n)
  | .str bytes => Head.width (.str bytes.length) + bytes.length
  | .bin bytes => Head.width (.bin bytes.length) + bytes.length
  | .array items => Head.width (.array items.length) + items.size
  | .map fields => Head.width (.map fields.length) + fields.size

def Values.size : Values → Nat
  | .nil => 0
  | .cons head tail => head.size + tail.size

def Fields.size : Fields → Nat
  | .nil => 0
  | .cons key value tail =>
    Head.width (.str key.length) + key.length + value.size + tail.size
end

mutual
theorem Value.length_encode (v : Value) : v.encode.length = v.size := by
  cases v with
  | nil | uint _ | str _ | bin _ => simp [Value.encode, Value.size, Head.length_encode]
  | array items => simp [Value.encode, Value.size, Head.length_encode, items.length_encode]
  | map fields => simp [Value.encode, Value.size, Head.length_encode, fields.length_encode]

theorem Values.length_encode (vs : Values) : vs.encode.length = vs.size := by
  cases vs with
  | nil => rfl
  | cons head tail =>
    simp [Values.encode, Values.size, head.length_encode, tail.length_encode]

theorem Fields.length_encode (fs : Fields) : fs.encode.length = fs.size := by
  cases fs with
  | nil => rfl
  | cons key value tail =>
    simp [Fields.encode, Fields.size, Head.length_encode, value.length_encode,
      tail.length_encode, Nat.add_assoc]
end

theorem Value.size_pos (v : Value) : 0 < v.size := by
  cases v <;> simp only [Value.size] <;> have := Head.width_pos <;> grind

/-! ## Reading -/

def readBytes (n : Nat) (bytes : List UInt8) : Option (List UInt8 × List UInt8) :=
  if n ≤ bytes.length then some (bytes.take n, bytes.drop n) else none

theorem readBytes_append (xs rest : List UInt8) :
    readBytes xs.length (xs ++ rest) = some (xs, rest) := by
  simp [readBytes]

mutual
/-- Read one value; the fuel bounds the nesting and the number of elements. -/
def Value.decode : Nat → List UInt8 → Option (Value × List UInt8)
  | 0, _ => none
  | fuel + 1, bytes => do
    let (head, rest) ← Head.decode bytes
    match head with
    | .nil => some (.nil, rest)
    | .uint n => some (.uint n, rest)
    | .str n => do
      let (s, rest) ← readBytes n rest
      some (.str s, rest)
    | .bin n => do
      let (s, rest) ← readBytes n rest
      some (.bin s, rest)
    | .array n => do
      let (items, rest) ← Values.decode fuel n rest
      some (.array items, rest)
    | .map n => do
      let (fields, rest) ← Fields.decode fuel n rest
      some (.map fields, rest)

def Values.decode : Nat → Nat → List UInt8 → Option (Values × List UInt8)
  | 0, _, _ => none
  | _ + 1, 0, bytes => some (.nil, bytes)
  | fuel + 1, n + 1, bytes => do
    let (head, rest) ← Value.decode fuel bytes
    let (tail, rest) ← Values.decode fuel n rest
    some (.cons head tail, rest)

def Fields.decode : Nat → Nat → List UInt8 → Option (Fields × List UInt8)
  | 0, _, _ => none
  | _ + 1, 0, bytes => some (.nil, bytes)
  | fuel + 1, n + 1, bytes => do
    let (keyHead, rest) ← Head.decode bytes
    match keyHead with
    | .str len => do
      let (key, rest) ← readBytes len rest
      let (value, rest) ← Value.decode fuel rest
      let (tail, rest) ← Fields.decode fuel n rest
      some (.cons key value tail, rest)
    | _ => none
end

mutual
theorem Value.decode_encode (v : Value) (hv : v.valid = true) (fuel : Nat)
    (hfuel : 2 * v.size ≤ fuel) (rest : List UInt8) :
    Value.decode fuel (v.encode ++ rest) = some (v, rest) := by
  obtain ⟨fuel, rfl⟩ : ∃ f, fuel = f + 1 := ⟨fuel - 1, by have := v.size_pos; omega⟩
  cases v with
  | nil => rfl
  | uint n =>
    simp only [Value.valid, decide_eq_true_eq] at hv
    simp [Value.decode, Value.encode, Head.decode_encode _ hv]
  | str bytes =>
    simp only [Value.valid, decide_eq_true_eq] at hv
    simp [Value.decode, Value.encode, Head.decode_encode _ hv, readBytes_append]
  | bin bytes =>
    simp only [Value.valid, decide_eq_true_eq] at hv
    simp [Value.decode, Value.encode, Head.decode_encode _ hv, readBytes_append]
  | array items =>
    simp only [Value.valid, Bool.and_eq_true, decide_eq_true_eq] at hv
    have hw := (Head.array items.length).width_pos
    simp only [Value.size] at hfuel
    have ih := items.decode_encode hv.2 fuel (by omega) rest
    simp [Value.decode, Value.encode, Head.decode_encode _ hv.1, ih]
  | map fields =>
    simp only [Value.valid, Bool.and_eq_true, decide_eq_true_eq] at hv
    have hw := (Head.map fields.length).width_pos
    simp only [Value.size] at hfuel
    have ih := fields.decode_encode hv.2 fuel (by omega) rest
    simp [Value.decode, Value.encode, Head.decode_encode _ hv.1, ih]

theorem Values.decode_encode (vs : Values) (hv : vs.valid = true) (fuel : Nat)
    (hfuel : 2 * vs.size + 1 ≤ fuel) (rest : List UInt8) :
    Values.decode fuel vs.length (vs.encode ++ rest) = some (vs, rest) := by
  obtain ⟨fuel, rfl⟩ : ∃ f, fuel = f + 1 := ⟨fuel - 1, by omega⟩
  cases vs with
  | nil => rfl
  | cons head tail =>
    simp only [Values.valid, Bool.and_eq_true] at hv
    simp only [Values.size] at hfuel
    have hpos := head.size_pos
    have ihead := head.decode_encode hv.1 fuel (by omega) (tail.encode ++ rest)
    have itail := tail.decode_encode hv.2 fuel (by omega) rest
    simp [Values.decode, Values.encode, Values.length, ihead, itail]

theorem Fields.decode_encode (fs : Fields) (hv : fs.valid = true) (fuel : Nat)
    (hfuel : 2 * fs.size + 1 ≤ fuel) (rest : List UInt8) :
    Fields.decode fuel fs.length (fs.encode ++ rest) = some (fs, rest) := by
  obtain ⟨fuel, rfl⟩ : ∃ f, fuel = f + 1 := ⟨fuel - 1, by omega⟩
  cases fs with
  | nil => rfl
  | cons key value tail =>
    simp only [Fields.valid, Bool.and_eq_true, decide_eq_true_eq] at hv
    simp only [Fields.size] at hfuel
    have hpos := value.size_pos
    have ivalue := value.decode_encode hv.1.2 fuel (by omega) (tail.encode ++ rest)
    have itail := tail.decode_encode hv.2 fuel (by omega) rest
    simp [Fields.decode, Fields.encode, Fields.length, Head.decode_encode _ hv.1.1,
      readBytes_append, ivalue, itail]
end

/-- A slice is read as one value from its start; what follows the value is ignored. -/
def fromSlice (bytes : List UInt8) : Option Value :=
  (Value.decode (2 * bytes.length) bytes).map Prod.fst

theorem fromSlice_encode (v : Value) (hv : v.valid = true) : fromSlice v.encode = some v := by
  have h := v.decode_encode hv (2 * v.encode.length) (by rw [v.length_encode]) []
  rw [List.append_nil] at h
  rw [fromSlice, h]
  rfl

end Venom.Library.MessagePack
