import Mathlib.Data.List.Basic
import Mathlib.Data.List.TakeDrop

/-! # Pieces of a list

`patch` overwrites a list from an offset on, growing it with a filler where needed;
it is described by its positions.  `rchunks` cuts a list into pieces of a fixed length
from the end, so only the first piece of the list can be short.
-/

namespace Venom.Library.Chunks

variable {α : Type}

/-! ## Overwriting -/

/-- `xs` with at least `n` elements, filled up with `z`. -/
def growTo (z : α) (n : Nat) (xs : List α) : List α := xs ++ List.replicate (n - xs.length) z

/-- `xs` with `piece` written at `off`. -/
def patch (z : α) (xs : List α) (off : Nat) (piece : List α) : List α :=
  (growTo z (off + piece.length) xs).take off ++ piece ++
    (growTo z (off + piece.length) xs).drop (off + piece.length)

theorem length_growTo (z : α) (n : Nat) (xs : List α) :
    (growTo z n xs).length = max xs.length n := by
  simp [growTo]; omega

theorem length_patch (z : α) (xs : List α) (off : Nat) (piece : List α) :
    (patch z xs off piece).length = max xs.length (off + piece.length) := by
  simp [patch, length_growTo]; omega

theorem getElem?_growTo (z : α) (n : Nat) (xs : List α) (i : Nat) :
    (growTo z n xs)[i]? = if i < xs.length then xs[i]? else if i < n then some z else none := by
  rw [growTo]
  by_cases h : i < xs.length
  · rw [List.getElem?_append_left h, if_pos h]
  · rw [List.getElem?_append_right (by omega), if_neg h, List.getElem?_replicate]
    have : i - xs.length < n - xs.length ↔ i < n := by omega
    simp only [this]

/-- Inside the piece. -/
theorem getElem?_patch_inside (z : α) (xs : List α) (off : Nat) (piece : List α) {i : Nat}
    (h : off ≤ i) (h' : i < off + piece.length) :
    (patch z xs off piece)[i]? = piece[i - off]? := by
  have hlen : ((growTo z (off + piece.length) xs).take off).length = off := by
    rw [List.length_take, length_growTo]; omega
  rw [patch, List.append_assoc, List.getElem?_append_right (by omega), hlen,
    List.getElem?_append_left (by omega)]

/-- Outside the piece. -/
theorem getElem?_patch_outside (z : α) (xs : List α) (off : Nat) (piece : List α) {i : Nat}
    (h : i < off ∨ off + piece.length ≤ i) :
    (patch z xs off piece)[i]? =
      if i < xs.length then xs[i]? else if i < off + piece.length then some z else none := by
  have hlen : ((growTo z (off + piece.length) xs).take off).length = off := by
    rw [List.length_take, length_growTo]; omega
  rw [← getElem?_growTo, patch]
  rcases h with h | h
  · rw [List.append_assoc, List.getElem?_append_left (by omega), List.getElem?_take_of_lt h]
  · rw [List.getElem?_append_right (by simp only [List.length_append, hlen]; omega),
      List.getElem?_drop]
    congr 1
    simp only [List.length_append, hlen]; omega

theorem patch_nil (z : α) (xs : List α) {off : Nat} (h : off ≤ xs.length) :
    patch z xs off [] = xs := by
  have : off - xs.length = 0 := by omega
  simp [patch, growTo, this]

/-! ## Cutting from the end -/

/-- Pieces of length `n`, the last elements first. -/
def rchunks (n : Nat) (l : List α) : List (List α) :=
  if _h : n = 0 ∨ l = [] then []
  else l.drop (l.length - n) :: rchunks n (l.take (l.length - n))
termination_by l.length
decreasing_by
  obtain ⟨hn, hl⟩ := not_or.mp ‹_›
  have := List.length_pos_of_ne_nil hl
  rw [List.length_take]; omega

theorem rchunks_nil (n : Nat) : rchunks n ([] : List α) = [] := by rw [rchunks]; simp

theorem rchunks_of_ne_nil {n : Nat} (hn : 0 < n) {l : List α} (hl : l ≠ []) :
    rchunks n l = l.drop (l.length - n) :: rchunks n (l.take (l.length - n)) := by
  rw [rchunks, dif_neg (by simp [hl]; omega)]

/-- Rule of induction that follows the cuts. -/
theorem rchunks_induction {n : Nat} (hn : 0 < n) {motive : List α → Prop}
    (nil : motive [])
    (cut : ∀ l, l ≠ [] → motive (l.take (l.length - n)) → motive l) (l : List α) : motive l := by
  by_cases hl : l = []
  · rw [hl]; exact nil
  · exact cut l hl (rchunks_induction hn nil cut (l.take (l.length - n)))
termination_by l.length
decreasing_by
  have := List.length_pos_of_ne_nil hl
  rw [List.length_take]; omega

/-- Every piece is non-empty and no longer than asked. -/
theorem mem_rchunks {n : Nat} (hn : 0 < n) {l piece : List α} (h : piece ∈ rchunks n l) :
    piece ≠ [] ∧ piece.length ≤ n := by
  induction l using rchunks_induction hn with
  | nil => simp [rchunks_nil] at h
  | cut l hl ih =>
    rw [rchunks_of_ne_nil hn hl, List.mem_cons] at h
    rcases h with rfl | h
    · have hpos := List.length_pos_of_ne_nil hl
      refine ⟨?_, by rw [List.length_drop]; omega⟩
      rw [Ne, List.drop_eq_nil_iff]; omega
    · exact ih h

theorem length_rchunks {n : Nat} (hn : 0 < n) (l : List α) :
    (rchunks n l).length = (l.length + n - 1) / n := by
  induction l using rchunks_induction hn with
  | nil =>
    rw [rchunks_nil, List.length_nil, List.length_nil, Nat.div_eq_of_lt (by omega)]
  | cut l hl ih =>
    have hpos := List.length_pos_of_ne_nil hl
    rw [rchunks_of_ne_nil hn hl, List.length_cons, ih, List.length_take]
    by_cases hle : l.length ≤ n
    · -- the last cut
      have hzero : min (l.length - n) l.length + n - 1 = n - 1 := by omega
      have hone : l.length + n - 1 = l.length - 1 + n := by omega
      rw [hzero, Nat.div_eq_of_lt (by omega), hone, Nat.add_div_right _ hn, Nat.div_eq_of_lt (by omega)]
    · have hstep : l.length + n - 1 = l.length - 1 + n := by omega
      have hrest : min (l.length - n) l.length + n - 1 = l.length - 1 := by omega
      rw [hrest, hstep, Nat.add_div_right _ hn]

/-- Put back in order, the pieces give the list. -/
theorem flatten_reverse_rchunks {n : Nat} (hn : 0 < n) (l : List α) :
    (rchunks n l).reverse.flatten = l := by
  induction l using rchunks_induction hn with
  | nil => simp [rchunks_nil]
  | cut l hl ih =>
    rw [rchunks_of_ne_nil hn hl, List.reverse_cons, List.flatten_append, ih]
    simp

end Venom.Library.Chunks
