import Mathlib.Data.List.ReduceOption
import Mathlib.Data.List.Perm.Basic
import Mathlib.Data.List.Nodup

/-! # Lists with gaps

A list of optional entries and the entries that are there, `reduceOption`; `fill` puts entries
into gaps.
-/

namespace Venom.Library.OptionLists

variable {α : Type}

theorem mem_of_getElem? {l : List (Option α)} {i : Nat} {a : α} (h : l[i]? = some (some a)) :
    a ∈ l.reduceOption := List.reduceOption_mem_iff.mpr (List.mem_of_getElem? h)

theorem exists_getElem? {l : List (Option α)} {a : α} (h : a ∈ l.reduceOption) :
    ∃ i : Nat, l[i]? = some (some a) :=
  List.mem_iff_getElem?.mp (List.reduceOption_mem_iff.mp h)

/-- Filling a gap adds its entry. -/
theorem perm_reduceOption_set {l : List (Option α)} {i : Nat} {a : α}
    (h : l[i]? = some none) : (l.set i (some a)).reduceOption.Perm (a :: l.reduceOption) := by
  induction l generalizing i with
  | nil => simp at h
  | cons o l ih =>
    cases i with
    | zero =>
      obtain rfl : o = none := by simpa using h
      simp [List.reduceOption_cons_of_some, List.reduceOption_cons_of_none]
    | succ i =>
      have ih := ih (by simpa using h)
      cases o with
      | none => simpa [List.reduceOption_cons_of_none] using ih
      | some b =>
        simp only [List.set_cons_succ, List.reduceOption_cons_of_some]
        exact (ih.cons b).trans (.swap a b _)

/-- Distinct entries stand at one position each. -/
theorem index_unique {l : List (Option α)} (hnd : l.reduceOption.Nodup) {i j : Nat} {a : α}
    (hi : l[i]? = some (some a)) (hj : l[j]? = some (some a)) : i = j := by
  induction l generalizing i j with
  | nil => simp at hi
  | cons o l ih =>
    cases o with
    | none =>
      rw [List.reduceOption_cons_of_none] at hnd
      cases i with
      | zero => simp at hi
      | succ i =>
        cases j with
        | zero => simp at hj
        | succ j => exact congrArg _ (ih hnd (by simpa using hi) (by simpa using hj))
    | some b =>
      rw [List.reduceOption_cons_of_some, List.nodup_cons] at hnd
      cases i with
      | zero =>
        cases j with
        | zero => rfl
        | succ j =>
          obtain rfl : b = a := by simpa using hi
          exact absurd (mem_of_getElem? (by simpa using hj)) hnd.1
      | succ i =>
        cases j with
        | zero =>
          obtain rfl : b = a := by simpa using hj
          exact absurd (mem_of_getElem? (by simpa using hi)) hnd.1
        | succ j => exact congrArg _ (ih hnd.2 (by simpa using hi) (by simpa using hj))

/-- With every entry of `l` kept, `l'` has no fewer entries, and one more for each gap that is
    filled. -/
theorem length_reduceOption_add_le {l l' : List (Option α)} {gaps : List Nat} (hgaps : gaps.Nodup)
    (hkept : ∀ (i : Nat) a, l[i]? = some (some a) → ∃ b, l'[i]? = some (some b))
    (hfilled : ∀ i ∈ gaps, l[i]? = some none ∧ ∃ b, l'[i]? = some (some b)) :
    l.reduceOption.length + gaps.length ≤ l'.reduceOption.length := by
  induction gaps generalizing l with
  | nil =>
    clear hfilled
    rw [List.length_nil, Nat.add_zero]
    induction l generalizing l' with
    | nil => exact Nat.zero_le _
    | cons o l ih =>
      cases l' with
      | nil =>
        cases o with
        | none => exact ih fun i a hi => hkept (i + 1) a hi
        | some a =>
          obtain ⟨b, hb⟩ := hkept 0 a rfl
          cases hb
      | cons o' l' =>
        have hle : l.reduceOption.length ≤ l'.reduceOption.length :=
          ih fun i a hi => hkept (i + 1) a hi
        cases o with
        | none =>
          rw [List.reduceOption_cons_of_none]
          cases o' with
          | none => rwa [List.reduceOption_cons_of_none]
          | some b =>
            rw [List.reduceOption_cons_of_some, List.length_cons]
            omega
        | some a =>
          obtain ⟨b, hb⟩ := hkept 0 a rfl
          cases hb
          rw [List.reduceOption_cons_of_some, List.reduceOption_cons_of_some, List.length_cons,
            List.length_cons]
          omega
  | cons i gaps ih =>
    obtain ⟨hi, b, hb⟩ := hfilled i List.mem_cons_self
    obtain ⟨hnot, hnodup⟩ := List.nodup_cons.mp hgaps
    -- one gap is filled as `l'` has it
    have hlen := (perm_reduceOption_set (a := b) hi).length_eq
    have hle := ih (l := l.set i (some b)) hnodup (fun j a hj => ?_) fun j hj => ?_
    · rw [List.length_cons] at hlen ⊢
      omega
    · by_cases hji : j = i
      · exact ⟨b, hji ▸ hb⟩
      · rw [List.getElem?_set_ne (Ne.symm hji)] at hj
        exact hkept j a hj
    · have hji : i ≠ j := fun heq => hnot (heq ▸ hj)
      rw [List.getElem?_set_ne hji]
      exact hfilled j (List.mem_cons_of_mem _ hj)

theorem reduceOption_take_append_drop (l : List (Option α)) (k : Nat) :
    (l.take k).reduceOption ++ (l.drop k).reduceOption = l.reduceOption := by
  rw [← List.reduceOption_append, List.take_append_drop]

/-- A gap in front does not count. -/
theorem reduceOption_drop_one {l : List (Option α)} (h : l[0]? = some none) :
    (l.drop 1).reduceOption = l.reduceOption := by
  cases l with
  | nil => simp at h
  | cons o l =>
    obtain rfl : o = none := by simpa using h
    simp [List.reduceOption_cons_of_none]

theorem reduceOption_map_some (l : List α) : (l.map some).reduceOption = l := by
  induction l with
  | nil => rfl
  | cons a l ih => rw [List.map_cons, List.reduceOption_cons_of_some, ih]

/-- An entry keeps its order among the entries that are there. -/
theorem getElem?_reduceOption {l : List (Option α)} {i : Nat} {a : α}
    (h : l[i]? = some (some a)) : l.reduceOption[(l.take i).reduceOption.length]? = some a := by
  induction l generalizing i with
  | nil => simp at h
  | cons o l ih =>
    cases i with
    | zero =>
      obtain rfl : o = some a := by simpa using h
      simp [List.reduceOption_cons_of_some]
    | succ i =>
      have ih := ih (by simpa using h)
      cases o with
      | none => simpa [List.reduceOption_cons_of_none] using ih
      | some b => simpa [List.reduceOption_cons_of_some] using ih

/-- Entries in front of which nothing is missing keep their positions. -/
theorem getElem?_reduceOption_full {l : List (Option α)} {i : Nat}
    (h : ∀ j, j ≤ i → l[j]?.join ≠ none) : l.reduceOption[i]? = l[i]?.join := by
  induction l generalizing i with
  | nil => rfl
  | cons o l ih =>
    cases o with
    | none => exact absurd rfl (h 0 (Nat.zero_le _))
    | some b =>
      rw [List.reduceOption_cons_of_some]
      cases i with
      | zero => rfl
      | succ i =>
        simpa using ih (i := i) fun j hj => by simpa using h (j + 1) (by omega)

/-! ## Filling gaps -/

/-- `l` with the entries of `pool` put at the `positions`, one after another. -/
def fill (l : List (Option α)) (positions : List Nat) (pool : List α) : List (Option α) :=
  (positions.zip pool).foldl (fun l p => l.set p.1 (some p.2)) l

theorem fill_snoc {l : List (Option α)} {positions : List Nat} {pool : List α} {i : Nat} {a : α}
    (h : pool[positions.length]? = some a) :
    fill l (positions ++ [i]) pool = (fill l positions pool).set i (some a) := by
  unfold fill
  induction positions generalizing l pool with
  | nil =>
    cases pool with
    | nil => cases h
    | cons b pool => cases h; rfl
  | cons j positions ih =>
    cases pool with
    | nil => cases h
    | cons b pool => exact ih (by simpa using h)

theorem length_fill (l : List (Option α)) (positions : List Nat) (pool : List α) :
    (fill l positions pool).length = l.length := by
  unfold fill
  induction positions.zip pool generalizing l with
  | nil => rfl
  | cons p ps ih => exact (ih _).trans (List.length_set ..)

/-- Other positions keep their entries. -/
theorem getElem?_fill {l : List (Option α)} {positions : List Nat} {pool : List α} {i : Nat}
    (h : i ∉ positions) : (fill l positions pool)[i]? = l[i]? := by
  unfold fill
  induction positions generalizing l pool with
  | nil => rfl
  | cons j positions ih =>
    obtain ⟨hne, hrest⟩ := not_or.mp (mt List.mem_cons.mpr h)
    cases pool with
    | nil => rfl
    | cons b pool =>
      rw [List.zip_cons_cons, List.foldl_cons, ih hrest, List.getElem?_set_ne fun e => hne e.symm]

/-- One position more changes no other entry. -/
theorem getElem?_fill_append {l : List (Option α)} {positions : List Nat} {pool : List α} {i j : Nat}
    (h : j ≠ i) : (fill l (positions ++ [i]) pool)[j]? = (fill l positions pool)[j]? := by
  unfold fill
  induction positions generalizing l pool with
  | nil =>
    cases pool with
    | nil => rfl
    | cons a pool => exact List.getElem?_set_ne fun e => h e.symm
  | cons k positions ih =>
    cases pool with
    | nil => rfl
    | cons a pool => exact ih

/-- Every position gets an entry of the pool when there are enough. -/
theorem getElem?_fill_mem {l : List (Option α)} {positions : List Nat} {pool : List α} {i : Nat}
    (hpool : positions.length ≤ pool.length) (hi : i ∈ positions) (hlt : i < l.length) :
    ∃ a ∈ pool, (fill l positions pool)[i]? = some (some a) := by
  induction positions generalizing l pool with
  | nil => cases hi
  | cons k positions ih =>
    cases pool with
    | nil => exact absurd hpool (Nat.not_succ_le_zero _)
    | cons a pool =>
      by_cases hmem : i ∈ positions
      · obtain ⟨b, hb, hget⟩ := ih (l := l.set k (some a)) (Nat.le_of_succ_le_succ hpool) hmem
          (by rw [List.length_set]; exact hlt)
        exact ⟨b, List.mem_cons_of_mem _ hb, hget⟩
      · obtain rfl : i = k := (List.mem_cons.mp hi).resolve_right hmem
        refine ⟨a, List.mem_cons_self, ?_⟩
        change (fill (l.set i (some a)) positions pool)[i]? = _
        rw [getElem?_fill hmem]
        exact List.getElem?_set_self hlt

end Venom.Library.OptionLists
