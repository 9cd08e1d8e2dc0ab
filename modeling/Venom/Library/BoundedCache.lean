import Mathlib.Data.Finset.Card
import Mathlib.Data.Finset.Sort

/-! # A bounded cache with dirty keys

A cache seen as the set of its keys, next to the set of the dirty ones.  A dirty key must not
leave the cache before it is written back: a key loaded into a full cache takes the place of
a clean one, and when there is none the cache grows past its bound.  Writing back takes keys
out of both sets.
-/

namespace Venom.Library.BoundedCache

variable {κ : Type} [DecidableEq κ] {cap : Nat} {dirty c c' : Finset κ} {k : κ}

/-! ## Loading -/

/-- `c'` is the cache `c` after `k` has been loaded. -/
inductive Load (cap : Nat) (dirty : Finset κ) (k : κ) (c : Finset κ) : Finset κ → Prop
  /-- It was there. -/
  | hit (h : k ∈ c) : Load cap dirty k c c
  /-- There was room. -/
  | room (h : c.card < cap) : Load cap dirty k c (insert k c)
  /-- A clean key has made room. -/
  | replaced (old : κ) (hold : old ∈ c) (hclean : old ∉ dirty) (h : k ∉ c) :
      Load cap dirty k c (insert k (c.erase old))
  /-- There was no room and no clean key. -/
  | overfull (h : c ⊆ dirty) : Load cap dirty k c (insert k c)

namespace Load

theorem mem (h : Load cap dirty k c c') : k ∈ c' := by
  cases h with
  | hit hk => exact hk
  | room | replaced | overfull => exact Finset.mem_insert_self _ _

theorem subset (h : Load cap dirty k c c') : c' ⊆ insert k c := by
  cases h with
  | hit => exact Finset.subset_insert _ _
  | room | overfull => exact Finset.Subset.refl _
  | replaced => exact Finset.insert_subset_insert _ (Finset.erase_subset _ _)

/-- Dirty keys stay. -/
theorem keeps (h : Load cap dirty k c c') {x : κ} (hx : x ∈ c) (hdirty : x ∈ dirty) : x ∈ c' := by
  cases h with
  | hit => exact hx
  | room | overfull => exact Finset.mem_insert_of_mem hx
  | replaced old _ hclean =>
    have hne : x ≠ old := fun e => hclean (e ▸ hdirty)
    exact Finset.mem_insert_of_mem (Finset.mem_erase.mpr ⟨hne, hx⟩)

/-- A key that is there changes nothing. -/
theorem eq_of_mem (h : Load cap dirty k c c') (hk : k ∈ c) : c' = c := by
  cases h with
  | hit => rfl
  | room | overfull => exact Finset.insert_eq_of_mem hk
  | replaced _ _ _ hnot => exact absurd hk hnot

theorem card_replaced {old : κ} (hold : old ∈ c) : (insert k (c.erase old)).card ≤ c.card := by
  have hcard := Finset.card_insert_le k (c.erase old)
  have herase := Finset.card_erase_add_one hold
  omega

/-- With fewer dirty keys in it than the bound, a cache within its bound stays there. -/
theorem card_le (h : Load cap dirty k c c') (hc : c.card ≤ cap) (hfew : (dirty ∩ c).card < cap) :
    c'.card ≤ cap := by
  cases h with
  | hit => exact hc
  | room hlt => exact (Finset.card_insert_le _ _).trans hlt
  | replaced old hold => exact (card_replaced hold).trans hc
  | overfull hsub =>
    rw [Finset.inter_eq_right.mpr hsub] at hfew
    exact (Finset.card_insert_le _ _).trans hfew

end Load

/-- Within the bound, or past it with dirty keys only. -/
def Settled (cap : Nat) (dirty c : Finset κ) : Prop := c.card ≤ cap ∨ c ⊆ dirty

/-- Loading a key that becomes dirty. -/
theorem Load.settled (h : Load cap dirty k c c') (hs : Settled cap dirty c) :
    Settled cap (insert k dirty) c' := by
  have hgrow : c ⊆ dirty → insert k c ⊆ insert k dirty := Finset.insert_subset_insert k
  cases h with
  | hit => exact hs.imp_right fun hsub => hsub.trans (Finset.subset_insert _ _)
  | room hlt => exact .inl ((Finset.card_insert_le _ _).trans hlt)
  | replaced old hold hclean =>
    rcases hs with hc | hsub
    · exact .inl ((card_replaced hold).trans hc)
    · exact absurd (hsub hold) hclean
  | overfull hsub => exact .inr (hgrow hsub)

/-! ## Writing back -/

/-- Keys that are written back leave the cache and are clean. -/
theorem Settled.sdiff (hs : Settled cap dirty c) (out : Finset κ) :
    Settled cap (dirty \ out) (c \ out) :=
  hs.imp (fun hc => (Finset.card_le_card Finset.sdiff_subset).trans hc)
    fun hsub => Finset.sdiff_subset_sdiff hsub (Finset.Subset.refl _)

omit [DecidableEq κ] in
/-- A settled cache with at most `cap` dirty keys is within its bound. -/
theorem Settled.card_le (hs : Settled cap dirty c) (hdirty : dirty.card ≤ cap) : c.card ≤ cap :=
  hs.elim id fun hsub => (Finset.card_le_card hsub).trans hdirty

section Lowest

variable {α : Type} [LinearOrder α]

/-- The `n` lowest keys of a set. -/
def lowest (n : Nat) (s : Finset α) : Finset α := ((s.sort (· ≤ ·)).take n).toFinset

theorem lowest_subset (n : Nat) (s : Finset α) : lowest n s ⊆ s := by
  intro x hx
  exact (Finset.mem_sort _).mp (List.mem_of_mem_take (List.mem_toFinset.mp hx))

theorem card_lowest {n : Nat} {s : Finset α} (h : n ≤ s.card) : (lowest n s).card = n := by
  have hnodup : ((s.sort (· ≤ ·)).take n).Nodup := (Finset.sort_nodup _ _).sublist (List.take_sublist _ _)
  rw [lowest, List.toFinset_card_of_nodup hnodup, List.length_take, Finset.length_sort]
  exact Nat.min_eq_left h

/-- Of `n` lowest keys tried, those in `present` are written back: as many stay as were not
    tried, and as were tried in vain. -/
theorem card_sdiff_lowest {n : Nat} {s present : Finset α} (h : n ≤ s.card) :
    (s \ (lowest n s ∩ present)).card = s.card - n + (lowest n s \ present).card := by
  have hsub : lowest n s ∩ present ⊆ s := Finset.inter_subset_left.trans (lowest_subset n s)
  have hcount := Finset.card_sdiff_add_card_inter (lowest n s) present
  have hlow := @card_lowest α _ n s h
  have hcard := Finset.card_sdiff_of_subset hsub
  omega

end Lowest

end Venom.Library.BoundedCache
