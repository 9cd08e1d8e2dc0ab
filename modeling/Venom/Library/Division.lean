import Mathlib.Data.List.Nodup
import Mathlib.Data.List.Perm.Subperm
import Mathlib.Logic.Function.Basic

/-! # Dividing things among owners

Things are listed as free or by an owner, each in one place and once.  An owner exchanges
things with the free list: it may take some, give some back, and lose some for good; what
the other owners list is not concerned.
-/

namespace Venom.Library

universe u v

structure Division {α : Type u} {ι : Type v} (free : List α) (own : ι → List α) : Prop where
  nodup_free : free.Nodup
  nodup : ∀ i, (own i).Nodup
  not_free : ∀ i, ∀ x ∈ own i, x ∉ free
  single : ∀ {i j x}, x ∈ own i → x ∈ own j → i = j

namespace Division

variable {α : Type u} {ι : Type v} {free free' : List α} {own : ι → List α} {own' : List α}

/-- Free, or listed by an owner. -/
def Listed (free : List α) (own : ι → List α) (x : α) : Prop := x ∈ free ∨ ∃ i, x ∈ own i

theorem nodup_append (h : Division free own) (i : ι) : (free ++ own i).Nodup :=
  List.nodup_append.mpr ⟨h.nodup_free, h.nodup i, fun _ hx _ hy heq => h.not_free i _ hy (heq ▸ hx)⟩

/-- What one owner lists is out of reach for an exchange of another one. -/
theorem notMem_of_ne (h : Division free own) {i j : ι} (hne : j ≠ i) {x : α} (hx : x ∈ own j) :
    x ∉ free ++ own i := by
  rw [List.mem_append]
  rintro (hfree | hi)
  · exact h.not_free j x hx hfree
  · exact hne (h.single hx hi)

/-- The order of the free list does not matter. -/
theorem reorder (h : Division free own) (hperm : free'.Perm free) : Division free' own where
  nodup_free := hperm.nodup_iff.mpr h.nodup_free
  nodup := h.nodup
  not_free i x hx := fun hf => h.not_free i x hx (hperm.mem_iff.mp hf)
  single := h.single

variable [DecidableEq ι]

/-- One owner exchanges things with the free list. -/
theorem exchange (h : Division free own) {i : ι} (hsub : (free' ++ own').Subperm (free ++ own i)) :
    Division free' (Function.update own i own') := by
  have hnodup : (free' ++ own').Nodup := by
    obtain ⟨l, hperm, hl⟩ := hsub
    exact hperm.nodup_iff.mp ((h.nodup_append i).sublist hl)
  have hout : ∀ {j x}, j ≠ i → x ∈ own j → x ∉ free' ∧ x ∉ own' := fun hne hx => by
    have hnot := h.notMem_of_ne hne hx
    exact ⟨fun hf => hnot (hsub.subset (List.mem_append_left _ hf)),
      fun ho => hnot (hsub.subset (List.mem_append_right _ ho))⟩
  obtain ⟨hfree, hown, hapart⟩ := List.nodup_append.mp hnodup
  refine ⟨hfree, fun j => ?_, fun j x hx => ?_, fun {j k x} hj hk => ?_⟩
  · by_cases hji : j = i
    · rwa [hji, Function.update_self]
    · rw [Function.update_of_ne hji]
      exact h.nodup j
  · by_cases hji : j = i
    · rw [hji, Function.update_self] at hx
      exact fun hf => hapart x hf x hx rfl
    · rw [Function.update_of_ne hji] at hx
      exact (hout hji hx).1
  · by_cases hji : j = i
    · by_cases hki : k = i
      · rw [hji, hki]
      · rw [hji, Function.update_self] at hj
        rw [Function.update_of_ne hki] at hk
        exact absurd hj (hout hki hk).2
    · rw [Function.update_of_ne hji] at hj
      by_cases hki : k = i
      · rw [hki, Function.update_self] at hk
        exact absurd hk (hout hji hj).2
      · rw [Function.update_of_ne hki] at hk
        exact h.single hj hk

/-- An exchange in which nothing is lost and nothing new comes up. -/
theorem listed_exchange {i : ι} (hperm : (free' ++ own').Perm (free ++ own i)) (x : α) :
    Listed free' (Function.update own i own') x ↔ Listed free own x := by
  have hmem : x ∈ free' ∨ x ∈ own' ↔ x ∈ free ∨ x ∈ own i := by
    rw [← List.mem_append, hperm.mem_iff, List.mem_append]
  constructor
  · rintro (hx | ⟨j, hx⟩)
    · exact (hmem.mp (.inl hx)).imp_right fun hi => ⟨i, hi⟩
    · by_cases hji : j = i
      · rw [hji, Function.update_self] at hx
        exact (hmem.mp (.inr hx)).imp_right fun hi => ⟨i, hi⟩
      · rw [Function.update_of_ne hji] at hx
        exact .inr ⟨j, hx⟩
  · -- what was free, or the owner's, may have changed sides
    have hback : x ∈ free ∨ x ∈ own i → Listed free' (Function.update own i own') x := fun hx =>
      (hmem.mpr hx).imp_right fun ho => ⟨i, by rwa [Function.update_self]⟩
    rintro (hx | ⟨j, hx⟩)
    · exact hback (.inl hx)
    · by_cases hji : j = i
      · exact hback (.inr (hji ▸ hx))
      · exact .inr ⟨j, by rwa [Function.update_of_ne hji]⟩

end Division

end Venom.Library
