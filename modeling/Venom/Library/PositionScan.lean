import Mathlib.Data.List.Basic
import Mathlib.Data.List.Count
import Mathlib.Data.List.Nodup

/-! # Scanning a list by position while it changes

A list of keys is read in pieces, each piece from the position where the last one ended, and
between two pieces keys are taken out of the list and put behind its end.  A scan that ends
has met a key exactly once when the key was there all the time and never changed sides of the
position.  A change keeps the keys on their sides when what it takes out is not in front of
the position, or when there is nothing behind it.
-/

namespace Venom.Library.PositionScan

variable {α : Type} [DecidableEq α] {pos : Nat} {l l' out : List α}

/-! ## Changes -/

/-- Keys of `out` have been taken out, and one key at most has been put at the end: a new one,
    or one that was taken out. -/
structure Edit (out l l' : List α) : Prop where
  parts : ∃ gone add, l' = l.filter (· ∉ gone) ++ add ∧ gone ⊆ out ∧ add.length ≤ 1 ∧
    ∀ k ∈ add, k ∈ l → k ∈ gone

namespace Edit

theorem refl (out l : List α) : Edit out l l := ⟨[], [], by simp, by simp, by simp, by simp⟩

theorem removed {k : α} (hk : k ∈ out) : Edit out l (l.filter (· ≠ k)) := by
  refine ⟨[k], [], ?_, by simpa using hk, by simp, by simp⟩
  simp

theorem added {k : α} (hk : k ∉ l) : Edit out l (l ++ [k]) := by
  refine ⟨[], [k], by simp, by simp, by simp, fun x hx hl => ?_⟩
  rw [List.mem_singleton.mp hx] at hl
  exact absurd hl hk

/-- Keys that were taken out, one of them put back at the end. -/
theorem moved {gone : List α} {k : α} (hgone : gone ⊆ out) (hk : k ∈ gone) :
    Edit out l (l.filter (· ∉ gone) ++ [k]) := by
  refine ⟨gone, [k], rfl, hgone, by simp, fun x hx _ => ?_⟩
  rwa [List.mem_singleton.mp hx]

/-- A key moves to the end, or is put there. -/
theorem replaced {k : α} (hk : k ∈ out) : Edit out l (l.filter (· ≠ k) ++ [k]) := by
  have hone : l.filter (· ≠ k) = l.filter (· ∉ [k]) := List.filter_congr fun x _ => by simp
  rw [hone]
  exact moved (by simpa using hk) (by simp)

/-- Two keys taken out, the second one put at the end. -/
theorem renamed {k k' : α} (hk : k ∈ out) (hk' : k' ∈ out) :
    Edit out l ((l.filter (· ≠ k)).filter (· ≠ k') ++ [k']) := by
  have hboth : (l.filter (· ≠ k)).filter (· ≠ k') = l.filter (· ∉ [k, k']) := by
    rw [List.filter_filter]
    refine List.filter_congr fun x _ => ?_
    simp [Bool.and_comm]
  rw [hboth]
  exact moved (by simp [hk, hk']) (by simp)

theorem mono {out' : List α} (h : Edit out l l') (hout : out ⊆ out') : Edit out' l l' := by
  obtain ⟨gone, add, hl, hgone, hrest⟩ := h.parts
  exact ⟨gone, add, hl, List.Subset.trans hgone hout, hrest⟩

/-- The same change behind keys that stay. -/
theorem append_left (front : List α) (h : Edit out l l') (hfront : ∀ k ∈ front, k ∉ out)
    (hapart : ∀ k ∈ front, k ∉ l') : Edit out (front ++ l) (front ++ l') := by
  obtain ⟨gone, add, rfl, hgone, hone, hadd⟩ := h.parts
  refine ⟨gone, add, ?_, hgone, hone, fun k hk hl => ?_⟩
  · have hkeep : front.filter (· ∉ gone) = front := List.filter_eq_self.mpr fun k hk => by
      simpa using fun hg => hfront k hk (hgone hg)
    rw [List.filter_append, hkeep, List.append_assoc]
  · rcases List.mem_append.mp hl with hf | hl
    · exact absurd (List.mem_append_right _ hk) (hapart k hf)
    · exact hadd k hk hl

theorem map {β : Type} [DecidableEq β] (f : α → β) (hf : Function.Injective f) (h : Edit out l l') :
    Edit (out.map f) (l.map f) (l'.map f) := by
  obtain ⟨gone, add, rfl, hgone, hone, hadd⟩ := h.parts
  refine ⟨gone.map f, add.map f, ?_, List.map_subset f hgone, by simpa using hone, fun k hk hl => ?_⟩
  · rw [List.map_append, List.filter_map]
    congr 2
    refine List.filter_congr fun x _ => ?_
    simp only [Function.comp_apply, List.mem_map_of_injective hf]
  · obtain ⟨a, ha, rfl⟩ := List.mem_map.mp hk
    obtain ⟨b, hb, heq⟩ := List.mem_map.mp hl
    exact List.mem_map_of_mem (hadd a ha (hf heq ▸ hb))

theorem nodup (h : Edit out l l') (hl : l.Nodup) : l'.Nodup := by
  obtain ⟨gone, add, rfl, -, hone, hadd⟩ := h.parts
  refine List.nodup_append.mpr ⟨hl.filter _, ?_, fun a ha b hb heq => ?_⟩
  · match add, hone with
    | [], _ => exact List.nodup_nil
    | [a], _ => exact List.nodup_singleton a
  · obtain ⟨hmem, hkept⟩ := List.mem_filter.mp ha
    rw [decide_eq_true_eq] at hkept
    exact hkept (heq ▸ hadd b hb (heq ▸ hmem))

end Edit

/-! ## Sides of the position -/

/-- The keys that stay are in front of the position if they were, and behind it if they were. -/
def Steady (pos : Nat) (l l' : List α) : Prop :=
  ∀ k ∈ l, k ∈ l' → (k ∈ l'.take pos ↔ k ∈ l.take pos)

/-- A change that takes out nothing in front of the position. -/
theorem Edit.steady_behind (h : Edit out l l') (hout : ∀ k ∈ out, k ∉ l.take pos) :
    Steady pos l l' := by
  obtain ⟨gone, add, rfl, hgone, -, -⟩ := h.parts
  have hfront : (l.take pos).filter (· ∉ gone) = l.take pos := List.filter_eq_self.mpr fun k hk => by
    simpa using fun hg => hout k (hgone hg) hk
  have hsplit : l.filter (· ∉ gone) ++ add =
      l.take pos ++ ((l.drop pos).filter (· ∉ gone) ++ add) := by
    conv_lhs => rw [← List.take_append_drop pos l]
    rw [List.filter_append, hfront, List.append_assoc]
  intro k hk _
  rw [hsplit, List.take_append]
  refine ⟨fun hmem => ?_, fun hmem => List.mem_append_left _ ?_⟩
  · by_cases hfull : pos ≤ l.length
    · rw [List.length_take, Nat.min_eq_left hfull, Nat.sub_self, List.take_zero, List.append_nil,
        List.take_take, Nat.min_self] at hmem
      exact hmem
    · rwa [List.take_of_length_le (Nat.le_of_not_le hfull)]
  · rwa [List.take_take, Nat.min_self]

/-- A change when nothing is left behind the position. -/
theorem Edit.steady_end (h : Edit out l l') (hend : l.length ≤ pos) : Steady pos l l' := by
  obtain ⟨gone, add, rfl, -, hone, hadd⟩ := h.parts
  have hlen := List.length_filter_le (· ∉ gone) l
  intro k hk hk'
  refine ⟨fun _ => by rwa [List.take_of_length_le hend], fun _ => ?_⟩
  rcases List.mem_append.mp hk' with hkept | hnew
  · rw [List.take_append]
    apply List.mem_append_left
    rwa [List.take_of_length_le (Nat.le_trans hlen hend)]
  · -- the key was taken out before it was put at the end
    have hless : (l.filter (· ∉ gone)).length < l.length :=
      List.length_filter_lt_length_iff_exists.mpr ⟨k, hk, by simpa using hadd k hnew hk⟩
    rwa [List.take_of_length_le (by rw [List.length_append]; omega)]

/-! ## The scan -/

/-- What a scan that stands at `pos` has met of the keys that were there all the time. -/
structure Scanned (l : List α) (pos : Nat) (met : List α) (present : α → Prop) : Prop where
  listed : ∀ k, present k → k ∈ l
  count : ∀ k, present k → met.count k = (l.take pos).count k

namespace Scanned

variable {met : List α} {present : α → Prop}

theorem start (l : List α) : Scanned l 0 [] (· ∈ l) := ⟨fun _ hk => hk, fun _ _ => by simp⟩

theorem restrict {present' : α → Prop} (h : Scanned l pos met present)
    (hless : ∀ k, present' k → present k) : Scanned l pos met present' :=
  ⟨fun k hk => h.listed k (hless k hk), fun k hk => h.count k (hless k hk)⟩

/-- A piece read from the position on. -/
theorem read (h : Scanned l pos met present) (n : Nat) :
    Scanned l (pos + n) (met ++ (l.drop pos).take n) present where
  listed := h.listed
  count k hk := by rw [List.count_append, h.count k hk, List.take_add, List.count_append]

/-- The list changes, and the keys that stay keep their sides. -/
theorem changed (h : Scanned l pos met present) (hl : l.Nodup) (hl' : l'.Nodup)
    (hsteady : Steady pos l l') : Scanned l' pos met fun k => present k ∧ k ∈ l' where
  listed _ hk := hk.2
  count k hk := by
    have hside := hsteady k (h.listed k hk.1) hk.2
    rw [h.count k hk.1, (hl.sublist (List.take_sublist _ _)).count,
      (hl'.sublist (List.take_sublist _ _)).count]
    simp only [hside]

/-- Nothing is met twice. -/
theorem count_le_one (h : Scanned l pos met present) (hl : l.Nodup) {k : α} (hk : present k) :
    met.count k ≤ 1 := by
  rw [h.count k hk]
  exact List.nodup_iff_count_le_one.mp (hl.sublist (List.take_sublist _ _)) k

/-- A scan with nothing left has met every key once. -/
theorem count_eq_one (h : Scanned l pos met present) (hl : l.Nodup) (hend : l.drop pos = []) {k : α}
    (hk : present k) : met.count k = 1 := by
  rw [h.count k hk, List.take_of_length_le (List.drop_eq_nil_iff.mp hend)]
  exact List.count_eq_one_of_mem hl (h.listed k hk)

end Scanned

end Venom.Library.PositionScan
