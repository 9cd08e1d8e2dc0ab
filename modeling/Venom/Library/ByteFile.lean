import Mathlib.Data.List.Basic

/-! # Files of bytes

A file is a size and a byte at every position.  Reads are exact: they fail when they
reach past the end.  A write past the end makes the file grow, and a gap it leaves reads
as zeros.

`replay` applies a sequence of writes; what a process that dies leaves behind is the
replay of the writes it had issued.
-/

namespace Venom.Library

structure ByteFile where
  size : Nat
  byteAt : Nat → UInt8

namespace ByteFile

/-- The bytes of `[off, off + len)`. -/
def slice (f : ByteFile) (off len : Nat) : List UInt8 :=
  (List.range len).map fun i => f.byteAt (off + i)

/-- Seek to `off` and read exactly `len` bytes. -/
def read (off len : Nat) (f : ByteFile) : Option (List UInt8) :=
  if off + len ≤ f.size then some (f.slice off len) else none

/-- Seek to `off` and write all of `data`. -/
def write (off : Nat) (data : List UInt8) (f : ByteFile) : ByteFile where
  size := max f.size (off + data.length)
  byteAt i := (if off ≤ i then data[i - off]? else none).getD
    (if i < f.size then f.byteAt i else 0)

/-! ## Reading -/

@[simp] theorem length_slice (f : ByteFile) (off len : Nat) : (f.slice off len).length = len := by
  simp [slice]

theorem getElem?_slice {f : ByteFile} {off len i : Nat} (hi : i < len) :
    (f.slice off len)[i]? = some (f.byteAt (off + i)) := by
  simp [slice, hi]

theorem read_eq {f : ByteFile} {off len : Nat} (h : off + len ≤ f.size) :
    f.read off len = some (f.slice off len) := if_pos h

theorem read_eq_some {f : ByteFile} {off len : Nat} {bytes : List UInt8} :
    f.read off len = some bytes ↔ off + len ≤ f.size ∧ f.slice off len = bytes := by
  unfold read
  split
  next h => simp [h]
  next h => simp [h]

/-- A slice of a slice. -/
theorem slice_slice {f : ByteFile} {off len a b : Nat} (h : a + b ≤ len) :
    ((f.slice off len).drop a).take b = f.slice (off + a) b := by
  apply List.ext_getElem?
  intro i
  by_cases hi : i < b
  · rw [List.getElem?_take_of_lt hi, List.getElem?_drop, getElem?_slice (by omega),
      getElem?_slice hi, Nat.add_assoc]
  · rw [List.getElem?_eq_none (by simp; omega), List.getElem?_eq_none (by simp; omega)]

/-- A slice that starts like another. -/
theorem take_slice {f : ByteFile} {off len b : Nat} (h : b ≤ len) :
    (f.slice off len).take b = f.slice off b := by
  have := @slice_slice f off _ 0 _ (show 0 + b ≤ len by omega)
  simpa using this

/-! ## Agreement of two files -/

/-- Two files hold the same bytes in `[off, off + len)`. -/
def AgreeOn (off len : Nat) (f g : ByteFile) : Prop :=
  ∀ i, off ≤ i → i < off + len → f.byteAt i = g.byteAt i

theorem AgreeOn.trans {off len : Nat} {f g k : ByteFile} (h : AgreeOn off len f g)
    (h' : AgreeOn off len g k) : AgreeOn off len f k :=
  fun i h₁ h₂ => (h i h₁ h₂).trans (h' i h₁ h₂)

theorem slice_eq_iff {off len : Nat} {f g : ByteFile} :
    f.slice off len = g.slice off len ↔ AgreeOn off len f g := by
  constructor
  · intro h i h₁ h₂
    have hf := @getElem?_slice f off _ _ (show i - off < len by omega)
    have hg := @getElem?_slice g off _ _ (show i - off < len by omega)
    rw [h, hg, show off + (i - off) = i by omega, Option.some.injEq] at hf
    exact hf.symm
  · intro h
    unfold slice
    apply List.map_congr_left
    intro i hi
    exact h (off + i) (by omega) (by have := List.mem_range.mp hi; omega)

alias ⟨_, AgreeOn.slice_eq⟩ := slice_eq_iff

/-! ## Writing -/

@[simp] theorem size_write (off : Nat) (data : List UInt8) (f : ByteFile) :
    (f.write off data).size = max f.size (off + data.length) := rfl

theorem size_write_of_le {off : Nat} {data : List UInt8} {f : ByteFile}
    (h : off + data.length ≤ f.size) : (f.write off data).size = f.size := by
  rw [size_write, Nat.max_eq_left h]

/-- A write is read back. -/
theorem slice_write_self (off : Nat) (data : List UInt8) (f : ByteFile) :
    (f.write off data).slice off data.length = data := by
  apply List.ext_getElem?
  intro i
  by_cases hi : i < data.length
  · rw [getElem?_slice hi]
    simp [write, hi]
  · rw [List.getElem?_eq_none (by simpa using hi), List.getElem?_eq_none (by omega)]

/-- What lies beside a write is unchanged. -/
theorem agreeOn_write {off off' len : Nat} {data : List UInt8} {f : ByteFile}
    (hsize : off' + len ≤ f.size) (h : off' + len ≤ off ∨ off + data.length ≤ off') :
    AgreeOn off' len (f.write off data) f := by
  intro i h₁ h₂
  have hget : (if off ≤ i then data[i - off]? else none) = none := by
    by_cases hi : off ≤ i
    · rw [if_pos hi, List.getElem?_eq_none (by omega)]
    · rw [if_neg hi]
  simp only [write, hget, Option.getD_none]
  rw [if_pos (by omega)]

/-! ## Sequences of writes -/

/-- One write issued to a file. -/
structure Write where
  off : Nat
  data : List UInt8

def replay (ws : List Write) (f : ByteFile) : ByteFile :=
  ws.foldl (fun f w => f.write w.off w.data) f

@[simp] theorem replay_nil (f : ByteFile) : f.replay [] = f := rfl

theorem replay_append (ws ws' : List Write) (f : ByteFile) :
    f.replay (ws ++ ws') = (f.replay ws).replay ws' := List.foldl_append

theorem replay_concat (ws : List Write) (w : Write) (f : ByteFile) :
    f.replay (ws ++ [w]) = (f.replay ws).write w.off w.data := by
  rw [replay_append]; rfl

theorem size_le_replay (ws : List Write) (f : ByteFile) : f.size ≤ (f.replay ws).size := by
  induction ws generalizing f with
  | nil => exact Nat.le_refl _
  | cons w ws ih => exact Nat.le_trans (Nat.le_max_left _ _) (ih (f.write w.off w.data))

/-- No write reaches past the end of the file. -/
theorem size_replay {ws : List Write} {f : ByteFile}
    (h : ∀ w ∈ ws, w.off + w.data.length ≤ f.size) : (f.replay ws).size = f.size := by
  induction ws generalizing f with
  | nil => rfl
  | cons w ws ih =>
    have hw := size_write_of_le (h w (.head _))
    change ((f.write w.off w.data).replay ws).size = _
    rw [ih, hw]
    intro w' hw'
    rw [hw]
    exact h w' (.tail _ hw')

/-- What lies beside all writes is unchanged. -/
theorem agreeOn_replay {off len : Nat} {ws : List Write} {f : ByteFile}
    (hsize : off + len ≤ f.size)
    (h : ∀ w ∈ ws, off + len ≤ w.off ∨ w.off + w.data.length ≤ off) :
    AgreeOn off len (f.replay ws) f := by
  induction ws generalizing f with
  | nil => exact fun _ _ _ => rfl
  | cons w ws ih =>
    have hsize' : off + len ≤ (f.write w.off w.data).size :=
      Nat.le_trans hsize (Nat.le_max_left _ _)
    exact (ih hsize' (fun w' hw' => h w' (.tail _ hw'))).trans
      (agreeOn_write hsize (h w (.head _)))

/-- A write is read back as long as no later one touches its place. -/
theorem slice_replay {before after : List Write} {w : Write} {f : ByteFile} {off len : Nat}
    (hoff : w.off = off) (hlen : w.data.length = len)
    (h : ∀ w' ∈ after, off + len ≤ w'.off ∨ w'.off + w'.data.length ≤ off) :
    (f.replay (before ++ w :: after)).slice off len = w.data := by
  subst hoff hlen
  rw [replay_append]
  have hsize : w.off + w.data.length ≤ ((f.replay before).write w.off w.data).size :=
    Nat.le_max_right _ _
  exact ((agreeOn_replay hsize h).slice_eq).trans (slice_write_self _ _ _)

end ByteFile

end Venom.Library
