import Mathlib.Data.Finset.Basic
import Mathlib.Data.List.Sort
import Mathlib.Logic.Relation

/-! # Pools

Things of a linear order that are taken from a pool and given back.  The free ones are
listed in descending order, so that the least of them is the last; a thing given back goes
behind the larger ones.  Nothing is lost and nothing is there twice: what is free and what
has been handed out are disjoint, and together they never change.
-/

namespace Venom.Library

universe u

/-- The free things, largest first, and those handed out. -/
structure Pool (α : Type u) where
  free : List α
  held : Finset α

namespace Pool

variable {α : Type u} [LinearOrder α] {p q : Pool α} {x : α} {init l : List α}

/-! ## Descending lists -/

theorem nodup_orderedInsert : (l.orderedInsert (· ≥ ·) x).Nodup ↔ x ∉ l ∧ l.Nodup := by
  rw [(List.perm_orderedInsert _ x l).nodup_iff, List.nodup_cons]

theorem sortedGT_orderedInsert (h : l.SortedGT) (hnot : x ∉ l) :
    (l.orderedInsert (· ≥ ·) x).SortedGT := by
  have hge : (l.orderedInsert (· ≥ ·) x).Pairwise (· ≥ ·) :=
    (h.pairwise.imp fun hab => le_of_lt hab).orderedInsert _ _
  have hnodup := nodup_orderedInsert.mpr ⟨hnot, h.nodup⟩
  exact (hge.imp₂ (fun _ _ hab hne => lt_of_le_of_ne hab (Ne.symm hne)) hnodup).sortedGT

theorem sortedGT_append_singleton :
    (init ++ [x]).SortedGT ↔ init.SortedGT ∧ ∀ y ∈ init, x < y := by
  rw [List.sortedGT_iff_pairwise, List.sortedGT_iff_pairwise, List.pairwise_append]
  constructor
  · rintro ⟨hinit, -, hlt⟩
    exact ⟨hinit, fun y hy => hlt y hy x List.mem_cons_self⟩
  · rintro ⟨hinit, hlt⟩
    exact ⟨hinit, List.pairwise_singleton _ _, fun y hy z hz => by
      rw [List.mem_singleton.mp hz]; exact hlt y hy⟩

/-- The last of a descending list is its least. -/
theorem last_le (h : (init ++ [x]).SortedGT) : ∀ y ∈ init ++ [x], x ≤ y := by
  intro y hy
  rcases List.mem_append.mp hy with hy | hy
  · exact le_of_lt ((sortedGT_append_singleton.mp h).2 y hy)
  · exact le_of_eq (List.mem_singleton.mp hy).symm

theorem last_notMem (h : (init ++ [x]).SortedGT) : x ∉ init := fun hmem =>
  lt_irrefl x ((sortedGT_append_singleton.mp h).2 x hmem)

/-- What was taken last goes back to its place. -/
theorem orderedInsert_last (h : (init ++ [x]).SortedGT) :
    init.orderedInsert (· ≥ ·) x = init ++ [x] := by
  have hinit := (sortedGT_append_singleton.mp h).1
  refine (sortedGT_orderedInsert hinit (last_notMem h)).eq_of_mem_iff h fun y => ?_
  simp [or_comm]

/-! ## Steps -/

/-- The least free thing is taken, or a thing handed out is given back. -/
inductive Step : Pool α → Pool α → Prop
  | take (init : List α) (x : α) (held : Finset α) :
      Step ⟨init ++ [x], held⟩ ⟨init, insert x held⟩
  | give (free : List α) (x : α) (held : Finset α) (hx : x ∈ held) :
      Step ⟨free, held⟩ ⟨free.orderedInsert (· ≥ ·) x, held.erase x⟩

/-- Each of `all` is either free or handed out, and nothing else is. -/
structure Accounts (all : Finset α) (p : Pool α) : Prop where
  descending : p.free.SortedGT
  disjoint : ∀ x ∈ p.free, x ∉ p.held
  union : p.free.toFinset ∪ p.held = all

theorem Accounts.mem_iff {all : Finset α} (h : Accounts all p) :
    x ∈ all ↔ x ∈ p.free ∨ x ∈ p.held := by
  rw [← h.union, Finset.mem_union, List.mem_toFinset]

theorem Step.accounts {all : Finset α} (hstep : Step p q) (h : Accounts all p) : Accounts all q := by
  cases hstep with
  | take init x held =>
    obtain ⟨hinit, hlt⟩ := sortedGT_append_singleton.mp h.descending
    refine ⟨hinit, fun y hy hheld => ?_, ?_⟩
    · rcases Finset.mem_insert.mp hheld with rfl | hheld
      · exact lt_irrefl y (hlt y hy)
      · exact h.disjoint y (List.mem_append_left _ hy) hheld
    · ext y
      have := h.mem_iff (x := y)
      simp only [List.mem_append, List.mem_singleton] at this
      simp only [Finset.mem_union, List.mem_toFinset, Finset.mem_insert, this]
      tauto
  | give free x held hx =>
    have hnot : x ∉ free := fun hmem => h.disjoint x hmem hx
    refine ⟨sortedGT_orderedInsert h.descending hnot, fun y hy hheld => ?_, ?_⟩
    · obtain ⟨hne, hheld⟩ := Finset.mem_erase.mp hheld
      rcases (List.mem_orderedInsert _).mp hy with rfl | hy
      · exact hne rfl
      · exact h.disjoint y hy hheld
    · ext y
      have := h.mem_iff (x := y)
      simp only [Finset.mem_union, List.mem_toFinset, List.mem_orderedInsert, Finset.mem_erase, this]
      by_cases hyx : y = x
      · subst hyx
        simp [hx]
      · simp [hyx]

/-- A run of any length keeps the accounts. -/
theorem Accounts.run {all : Finset α} (h : Accounts all p) (hrun : Relation.ReflTransGen Step p q) :
    Accounts all q := by
  induction hrun with
  | refl => exact h
  | tail _ hstep ih => exact hstep.accounts ih

end Pool

end Venom.Library
