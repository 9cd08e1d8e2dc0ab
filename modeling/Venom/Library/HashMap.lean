import Mathlib.Data.List.Nodup
import Mathlib.Data.List.Basic

/-! # Hash maps and hash sets

Finite maps and sets whose iteration order says nothing.  A map is an association
list without repeated keys, a set a list without repetitions; `IterOrder` is the
order in which a traversal meets the elements, any permutation of them.
-/

namespace Venom.Library

variable {κ ν : Type}

/-- The order in which a hash container yields its elements. -/
structure IterOrder (κ : Type) where
  order : List κ → List κ
  perm : ∀ l, (order l).Perm l

namespace IterOrder

/-- The traversal in the order of the list. -/
def listed : IterOrder κ := ⟨id, fun _ => .refl _⟩

@[simp] theorem order_listed (l : List κ) : (listed : IterOrder κ).order l = l := rfl

@[simp] theorem mem_order (ord : IterOrder κ) {l : List κ} {k : κ} : k ∈ ord.order l ↔ k ∈ l :=
  (ord.perm l).mem_iff

theorem nodup_order (ord : IterOrder κ) {l : List κ} (h : l.Nodup) : (ord.order l).Nodup :=
  (ord.perm l).nodup_iff.mpr h

end IterOrder

/-! ## Maps -/

structure HashMap (κ ν : Type) where
  entries : List (κ × ν)
  nodupKeys : (entries.map Prod.fst).Nodup

namespace HashMap

def empty : HashMap κ ν := ⟨[], by simp⟩

def keys (m : HashMap κ ν) : List κ := m.entries.map Prod.fst

def len (m : HashMap κ ν) : Nat := m.entries.length

def retain (m : HashMap κ ν) (p : κ → ν → Bool) : HashMap κ ν :=
  ⟨m.entries.filter (fun e => p e.1 e.2),
   m.nodupKeys.sublist (List.filter_sublist.map Prod.fst)⟩

theorem nodup_keys (m : HashMap κ ν) : m.keys.Nodup := m.nodupKeys

theorem length_keys (m : HashMap κ ν) : m.keys.length = m.len := by simp [keys, len]

variable [DecidableEq κ]

def get (m : HashMap κ ν) (k : κ) : Option ν :=
  (m.entries.find? (fun e => e.1 = k)).map Prod.snd

def containsKey (m : HashMap κ ν) (k : κ) : Bool := (m.get k).isSome

def remove (m : HashMap κ ν) (k : κ) : HashMap κ ν := m.retain (fun k' _ => k' ≠ k)

def insert (m : HashMap κ ν) (k : κ) (v : ν) : HashMap κ ν :=
  ⟨(k, v) :: (m.remove k).entries, by
    refine List.nodup_cons.mpr ⟨?_, (m.remove k).nodupKeys⟩
    simp [remove, retain]⟩

/-- A lookup finds exactly the entries. -/
theorem get_eq_some (m : HashMap κ ν) (k : κ) (v : ν) : m.get k = some v ↔ (k, v) ∈ m.entries := by
  obtain ⟨l, hl⟩ := m
  simp only [get]
  induction l with
  | nil => simp
  | cons e l ih =>
    simp only [List.map_cons, List.nodup_cons] at hl
    obtain ⟨k', v'⟩ := e
    by_cases hk : k' = k
    · subst hk
      have hnot : (k', v) ∉ l := fun h => hl.1 (List.mem_map.mpr ⟨_, h, rfl⟩)
      simp [hnot, eq_comm]
    · rw [List.find?_cons_of_neg (by simpa using hk), ih hl.2]
      simp [Ne.symm hk]

theorem mem_keys (m : HashMap κ ν) (k : κ) : k ∈ m.keys ↔ (m.get k).isSome := by
  rw [Option.isSome_iff_exists]
  simp only [get_eq_some, keys, List.mem_map, Prod.exists, exists_and_right, exists_eq_right]

theorem get_eq_none (m : HashMap κ ν) (k : κ) : m.get k = none ↔ k ∉ m.keys := by
  rw [mem_keys]; cases m.get k <;> simp

@[simp] theorem get_empty (k : κ) : (empty : HashMap κ ν).get k = none := rfl

theorem get_retain (m : HashMap κ ν) (p : κ → ν → Bool) (k : κ) :
    (m.retain p).get k = (m.get k).filter (p k) := by
  ext v
  rw [get_eq_some, Option.filter_eq_some_iff, get_eq_some]
  simp [retain]

/-- Lookup after a `retain` that only looks at keys. -/
@[simp] theorem get_retain_keys (m : HashMap κ ν) (p : κ → Bool) (k : κ) :
    (m.retain (fun k _ => p k)).get k = if p k then m.get k else none := by
  rw [get_retain]
  cases m.get k <;> cases p k <;> simp

@[simp] theorem get_remove (m : HashMap κ ν) (k k' : κ) :
    (m.remove k).get k' = if k' = k then none else m.get k' := by
  rw [remove, get_retain]
  by_cases h : k' = k
  · cases m.get k' <;> simp [h]
  · cases m.get k' <;> simp [h]

/-- There is nothing to remove for a key that is not there. -/
theorem remove_of_get_none {m : HashMap κ ν} {k : κ} (h : m.get k = none) : m.remove k = m := by
  have hkept : m.entries.filter (fun e => decide (e.1 ≠ k)) = m.entries := by
    refine List.filter_eq_self.mpr fun e he => decide_eq_true fun heq => ?_
    rw [← heq, get_eq_none] at h
    exact h (List.mem_map_of_mem he)
  obtain ⟨l, hl⟩ := m
  simp only [remove, retain, mk.injEq]
  exact hkept

@[simp] theorem get_insert (m : HashMap κ ν) (k k' : κ) (v : ν) :
    (m.insert k v).get k' = if k' = k then some v else m.get k' := by
  by_cases h : k' = k
  · subst h; simp [get, insert]
  · rw [if_neg h]
    have hne : k ≠ k' := fun e => h e.symm
    have : (m.insert k v).get k' = (m.remove k).get k' := by
      simp only [get, insert]
      rw [List.find?_cons_of_neg (by simpa using hne)]
    rw [this, get_remove, if_neg h]

theorem remove_insert_of_get_none {m : HashMap κ ν} {k : κ} (h : m.get k = none) (v : ν) :
    (m.insert k v).remove k = m := by
  have hgone : (m.insert k v).remove k = (m.remove k).remove k := by
    simp [remove, retain, insert]
  rw [hgone, remove_of_get_none h, remove_of_get_none h]

/-- What the keys of a map are does not depend on its values. -/
theorem keys_remove (m : HashMap κ ν) (k : κ) : (m.remove k).keys = m.keys.filter (· ≠ k) := by
  rw [keys, keys, List.filter_map]
  rfl

theorem keys_insert (m : HashMap κ ν) (k : κ) (v : ν) :
    (m.insert k v).keys = k :: m.keys.filter (· ≠ k) := by
  rw [← keys_remove]
  rfl

@[simp] theorem containsKey_eq_true (m : HashMap κ ν) (k : κ) :
    m.containsKey k = true ↔ ∃ v, m.get k = some v := by
  rw [containsKey, Option.isSome_iff_exists]

theorem containsKey_eq_false (m : HashMap κ ν) (k : κ) :
    m.containsKey k = false ↔ m.get k = none := by
  rw [containsKey]; cases m.get k <;> simp

end HashMap

/-! ## Sets -/

structure HashSet (κ : Type) where
  elems : List κ
  nodup : elems.Nodup

namespace HashSet

def empty : HashSet κ := ⟨[], by simp⟩

def isEmpty (s : HashSet κ) : Bool := s.elems.isEmpty

def retain (s : HashSet κ) (p : κ → Bool) : HashSet κ := ⟨s.elems.filter p, s.nodup.filter _⟩

instance : Membership κ (HashSet κ) := ⟨fun s k => k ∈ s.elems⟩

theorem mem_elems {s : HashSet κ} {k : κ} : k ∈ s.elems ↔ k ∈ s := Iff.rfl

@[simp] theorem not_mem_empty (k : κ) : k ∉ (empty : HashSet κ) := List.not_mem_nil

@[simp] theorem mem_retain {s : HashSet κ} {p : κ → Bool} {k : κ} :
    k ∈ s.retain p ↔ k ∈ s ∧ p k = true := List.mem_filter

@[simp] theorem isEmpty_eq_true {s : HashSet κ} : s.isEmpty = true ↔ ∀ k, k ∉ s := by
  simp only [isEmpty, List.isEmpty_iff, ← mem_elems, List.eq_nil_iff_forall_not_mem]

variable [DecidableEq κ]

instance (s : HashSet κ) (k : κ) : Decidable (k ∈ s) := inferInstanceAs (Decidable (k ∈ s.elems))

def insert (s : HashSet κ) (k : κ) : HashSet κ := ⟨s.elems.insert k, s.nodup.insert⟩

@[simp] theorem insert_insert {s : HashSet κ} {k : κ} : (s.insert k).insert k = s.insert k := by
  simp [insert]

def remove (s : HashSet κ) (k : κ) : HashSet κ := s.retain (fun k' => k' ≠ k)

@[simp] theorem mem_insert {s : HashSet κ} {k k' : κ} : k' ∈ s.insert k ↔ k' = k ∨ k' ∈ s :=
  List.mem_insert_iff

@[simp] theorem mem_remove {s : HashSet κ} {k k' : κ} : k' ∈ s.remove k ↔ k' ∈ s ∧ k' ≠ k := by
  simp [remove]

end HashSet

end Venom.Library
