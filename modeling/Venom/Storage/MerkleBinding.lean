import Venom.Crypto.Plain
import Venom.Storage.FreeList

/-! # What a Merkle root says

The root of a set of used slots determines which slots they are, in which order, and their
raw bytes, as far as the hash keeps its inputs apart: two different sets with one root show
two inputs with one hash, or an input that hashes to the root of no slot.
-/

namespace Venom.Storage

open Venom.Container (slotSize)
open Venom.Crypto (Primitives Key)
open Venom.Library.Words
open Venom.Library
open Venom.Library.MerkleTree
open Venom.Library.StateError

variable (P : Primitives)

/-- The raw bytes of a slot. -/
def rawSlot (w : World) (slot : Nat) : List UInt8 :=
  (w.read (slotOffset slot) slotSize).toOption.getD []

/-- The leaves of the tree before they are hashed: each slot with its bytes. -/
def rawLeaves (w : World) (slots : List Nat) : List (Nat × List UInt8) :=
  slots.map fun slot => (slot, rawSlot w slot)

/-- What the hash is given for an input of the tree: the context and the bytes. -/
def hashInput : Input Key (Nat × List UInt8) → String × List UInt8
  | .leaf (slot, raw) => (leafCtx, littleEndian 8 slot ++ raw)
  | .node left right => (nodeCtx, left.toList ++ right.toList)

def blake3 (input : String × List UInt8) : Key := P.blake3DeriveKey input.1 input.2

/-- Everything that is hashed for the Merkle root of the slots. -/
def merkleInputs (w : World) (slots : List Nat) : List (String × List UInt8) :=
  (hashed (fun x => blake3 P (hashInput x)) (rawLeaves w slots)).map hashInput

/-- Two different inputs of two computations have one hash, or the hash of an input is the
    root of no slot. -/
def HashFailure (inputs inputs' : List (String × List UInt8)) : Prop :=
  (∃ x ∈ inputs, ∃ y ∈ inputs', x ≠ y ∧ blake3 P x = blake3 P y) ∨
    ∃ x ∈ inputs ++ inputs', blake3 P x = zeroRoot

variable {P} {w w' : World} {slots slots' : List Nat} {root : Key}

/-! ## The leaves -/

theorem rawSlot_of_read {slot : Nat} {raw : List UInt8}
    (h : w.read (slotOffset slot) slotSize = .ok raw) : rawSlot w slot = raw := by
  rw [rawSlot, h]
  rfl

/-- The leaves of readable slots are the hashes of their bytes. -/
theorem merkleLeaves_ok {leaves : List Key} (h : merkleLeaves P w slots = .ok leaves) :
    leaves = (rawLeaves w slots).map (fun x => blake3 P (hashInput (.leaf x))) ∧
      ∀ slot ∈ slots, w.read (slotOffset slot) slotSize = .ok (rawSlot w slot) := by
  induction slots generalizing leaves with
  | nil => cases h; exact ⟨rfl, by simp⟩
  | cons slot slots ih =>
    obtain ⟨raw, hread, h₁⟩ := except_bind_ok.mp h
    obtain ⟨rest, hrest, h₂⟩ := except_bind_ok.mp h₁
    cases h₂
    obtain ⟨rfl, hreads⟩ := ih hrest
    have hraw := rawSlot_of_read hread
    refine ⟨?_, fun s hs => ?_⟩
    · have hcons : rawLeaves w (slot :: slots) = (slot, raw) :: rawLeaves w slots := by
        rw [rawLeaves, List.map_cons, hraw]
        rfl
      rw [hcons]
      rfl
    · rcases List.mem_cons.mp hs with rfl | hs
      · rw [hraw, hread]
      · exact hreads s hs

/-- The root of some slots is the root of their leaves. -/
theorem computeMerkleRoot_ok (h : computeMerkleRoot P w slots = .ok root) :
    (∀ slot ∈ slots, w.read (slotOffset slot) slotSize = .ok (rawSlot w slot)) ∧
      ((slots = [] ∧ root = zeroRoot) ∨
        root? (fun a b => blake3 P (hashInput (.node a b)))
          ((rawLeaves w slots).map fun x => blake3 P (hashInput (.leaf x))) = some root) := by
  unfold computeMerkleRoot at h
  split at h
  next hnil =>
    cases h
    rw [List.isEmpty_iff] at hnil
    subst hnil
    exact ⟨by simp, .inl ⟨rfl, rfl⟩⟩
  next hne =>
    obtain ⟨leaves, hleaves, hret⟩ := except_bind_ok.mp h
    cases hret
    obtain ⟨rfl, hreads⟩ := merkleLeaves_ok hleaves
    refine ⟨hreads, .inr ?_⟩
    have hnonempty : (rawLeaves w slots).map (fun x => blake3 P (hashInput (.leaf x))) ≠ [] := by
      rw [rawLeaves, List.map_map, Ne, List.map_eq_nil_iff]
      simpa using hne
    obtain ⟨r, hroot, hclimb⟩ := @root?_isSome _ (nodeHash P) _ hnonempty
    rw [hclimb]
    exact hroot

/-- The inputs of the tree and what the hash is given determine each other. -/
theorem hashInput_inj {x y : Input Key (Nat × List UInt8)}
    (hx : ∀ slot raw, x = .leaf (slot, raw) → slot < 2 ^ 64)
    (hy : ∀ slot raw, y = .leaf (slot, raw) → slot < 2 ^ 64)
    (h : hashInput x = hashInput y) : x = y := by
  cases x with
  | leaf x =>
    cases y with
    | leaf y =>
      obtain ⟨hslot, hraw⟩ := List.append_inj (Prod.mk.inj h).2 (by simp)
      have hword := congrArg ofLittleEndian hslot
      rw [ofLittleEndian_u64 (hx _ _ rfl), ofLittleEndian_u64 (hy _ _ rfl)] at hword
      rw [Prod.ext hword hraw]
    | node left right =>
      exact absurd (Prod.mk.inj h).1 (by decide)
  | node left right =>
    cases y with
    | leaf y =>
      exact absurd (Prod.mk.inj h).1 (by decide)
    | node left' right' =>
      obtain ⟨hleft, hright⟩ := List.append_inj (Prod.mk.inj h).2 (by
        rw [left.toList_length, left'.toList_length])
      rw [List.Vector.toList_injective hleft, List.Vector.toList_injective hright]

/-! ## Binding -/

/-- An input of the tree over slots that are machine words. -/
theorem slot_lt_of_mem {hash : Input Key (Nat × List UInt8) → Key}
    (hslots : ∀ slot ∈ slots, slot < 2 ^ 64) {x : Input Key (Nat × List UInt8)}
    (hx : x ∈ hashed hash (rawLeaves w slots)) :
    ∀ slot raw, x = .leaf (slot, raw) → slot < 2 ^ 64 := by
  rintro slot raw rfl
  obtain ⟨s, hs, heq⟩ := List.mem_map.mp (leaf_mem_hashed hash hx)
  cases heq
  exact hslots _ hs

/-- The root of no slot as the root of some slots. -/
theorem zero_hashed
    (h : root? (fun a b => blake3 P (hashInput (.node a b)))
      ((rawLeaves w slots).map fun x => blake3 P (hashInput (.leaf x))) = some zeroRoot) :
    ∃ x ∈ merkleInputs P w slots, blake3 P x = zeroRoot := by
  obtain ⟨x, hx, hzero⟩ := root_hashed (fun x => blake3 P (hashInput x)) h
  exact ⟨hashInput x, List.mem_map_of_mem hx, hzero⟩

/-- One root on two files: the same slots with the same bytes, or the hash has failed. -/
theorem merkle_root_binds (P : Primitives) (w w' : World) (slots slots' : List Nat) (root : Key)
    (hslots : ∀ slot ∈ slots ++ slots', slot < 2 ^ 64)
    (hroot : computeMerkleRoot P w slots = .ok root)
    (hroot' : computeMerkleRoot P w' slots' = .ok root) :
    ((slots = slots' ∧ ∀ slot ∈ slots,
        w.read (slotOffset slot) slotSize = w'.read (slotOffset slot) slotSize) ∨
      HashFailure P (merkleInputs P w slots) (merkleInputs P w' slots')) ∧
    ∀ leaves : List Key, leaves ≠ [] → ∃ r, climb (nodeHash P) leaves = [r] := by
  refine ⟨?_, fun leaves hne => (root?_isSome hne).imp fun _ h => h.2⟩
  obtain ⟨hreads, hcase⟩ := computeMerkleRoot_ok hroot
  obtain ⟨hreads', hcase'⟩ := computeMerkleRoot_ok hroot'
  rcases hcase with ⟨rfl, hzero⟩ | htree
  · rcases hcase' with ⟨rfl, -⟩ | htree'
    · exact .inl ⟨rfl, by simp⟩
    · rw [hzero] at htree'
      obtain ⟨x, hx, hfail⟩ := zero_hashed htree'
      exact .inr (.inr ⟨x, List.mem_append_right _ hx, hfail⟩)
  · rcases hcase' with ⟨rfl, hzero⟩ | htree'
    · rw [hzero] at htree
      obtain ⟨x, hx, hfail⟩ := zero_hashed htree
      exact .inr (.inr ⟨x, List.mem_append_left _ hx, hfail⟩)
    · rcases eq_or_collision (fun x => blake3 P (hashInput x)) htree htree' with
        heq | ⟨x, hx, y, hy, hne, hsame⟩
      · -- the leaves name their slots
        have hfst : ∀ (v : World) (l : List Nat), (rawLeaves v l).map Prod.fst = l := fun v l => by
          simp [rawLeaves, Function.comp_def]
        obtain rfl : slots = slots' := by rw [← hfst w slots, heq, hfst]
        refine .inl ⟨rfl, fun slot hs => ?_⟩
        have hraw := List.map_inj_left.mp heq slot hs
        rw [hreads slot hs, hreads' slot hs, (Prod.mk.inj hraw).2]
      · refine .inr (.inl ⟨_, List.mem_map_of_mem hx, _, List.mem_map_of_mem hy, fun heq => ?_, hsame⟩)
        exact hne (hashInput_inj
          (slot_lt_of_mem (fun s hs => hslots s (List.mem_append_left _ hs)) hx)
          (slot_lt_of_mem (fun s hs => hslots s (List.mem_append_right _ hs)) hy) heq)

/-- The slots 1 and 3 of a file of zeros, and of one in which slot 2 has been written. -/
theorem merkle_root_binds_beside :
    ∃ w w' root, w.read (slotOffset 2) 1 = .ok [0] ∧ w'.read (slotOffset 2) 1 = .ok [7] ∧
      computeMerkleRoot Crypto.plain w [1, 3] = .ok root ∧
      computeMerkleRoot Crypto.plain w' [1, 3] = .ok root ∧
      ((([1, 3] : List Nat) = [1, 3] ∧ ∀ slot ∈ [1, 3],
          w.read (slotOffset slot) slotSize = w'.read (slotOffset slot) slotSize) ∨
        HashFailure Crypto.plain (merkleInputs Crypto.plain w [1, 3])
          (merkleInputs Crypto.plain w' [1, 3])) ∧
      ∀ leaves : List Key, leaves ≠ [] → ∃ r, climb (nodeHash Crypto.plain) leaves = [r] := by
  let f : ByteFile := { size := 2 ^ 20, byteAt := fun _ => 0 }
  let w : World :=
    { path := "container.vnm", file := some f, issued := [], rollback := .empty
      rng := fun _ => 0, now := 0 }
  let w' : World := { w with file := some (f.write (slotOffset 2) [7]) }
  have hin : ∀ slot ∈ [1, 3], slotOffset slot + slotSize ≤ f.size := by decide
  have hbeside : ∀ slot ∈ [1, 3],
      w'.read (slotOffset slot) slotSize = w.read (slotOffset slot) slotSize := fun slot hs => by
    have hapart : slotOffset slot + slotSize ≤ slotOffset 2 ∨ slotOffset 2 + 1 ≤ slotOffset slot := by
      revert slot
      decide
    have hsize : slotOffset slot + slotSize ≤ (f.write (slotOffset 2) [7]).size :=
      (hin slot hs).trans (Nat.le_max_left _ _)
    rw [World.read_eq (w := w') rfl hsize, World.read_eq (w := w) rfl (hin slot hs),
      ByteFile.slice_eq_iff.mpr (ByteFile.agreeOn_write (hin slot hs) hapart)]
  obtain ⟨root, hroot⟩ := SlotStore.computeMerkleRoot_isOk (P := Crypto.plain) (w := w) rfl hin
  have hroot' : computeMerkleRoot Crypto.plain w' [1, 3] = .ok root := by
    rw [← hroot]
    simp only [computeMerkleRoot, merkleLeaves]
    rw [hbeside 1 (by decide), hbeside 3 (by decide)]
  exact ⟨w, w', root, rfl, rfl, hroot, hroot',
    merkle_root_binds Crypto.plain w w' [1, 3] [1, 3] root (by decide) hroot hroot'⟩

end Venom.Storage
