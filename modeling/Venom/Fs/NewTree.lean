import Venom.Fs.MountedVolume
import Venom.Fuse.Namespace

/-! # The tree of a new container

A container that `create` has made is mounted with an empty root directory and every slot
free but the root and the allocation slot.  From there the name space calls refine the
abstract tree.
-/

namespace Venom.Fs

open Venom.Container
open Venom.Crypto
open Venom.Storage
open Venom.Storage.SlotStore
open Venom.Fuse
open Venom.Library.StateError
open Venom.Library.NameTree

variable {P : Primitives} {outerPassword : List UInt8} {totalSizeBytes : UInt64}
  {cipher : CipherAlgorithm} {kdfProfile : String} {label : Option String}
  {hidden : Option HiddenVolumeOptions} {w w' : World} {m : VnmContainer} {b : Blocks}

namespace Created

theorem mounted_file
    (h : Created P outerPassword totalSizeBytes cipher kdfProfile label hidden w m w' b) :
    w'.file ≠ none := by
  rw [h.file_eq]
  exact Option.some_ne_none _

/-- The new container, mounted. -/
def volume (h : Created P outerPassword totalSizeBytes cipher kdfProfile label hidden w m w' b) :
    MountedVolume P := ⟨{ container := m, world := w' }, h.mounted_file⟩

theorem slots (h : Created P outerPassword totalSizeBytes cipher kdfProfile label hidden w m w' b) :
    m.store.slotStart = 0 ∧ m.store.slotLimit = b.lay.outerSlots.toNat ∧
      m.store.allocSlot = outerAllocSlot := by
  rw [h.store]
  exact ⟨rfl, rfl, rfl⟩

/-- The slots of the new volume but its first, which holds the free list. -/
theorem hasSlot_iff
    (h : Created P outerPassword totalSizeBytes cipher kdfProfile label hidden w m w' b) (t : Nat) :
    IsDataSlot h.volume t ↔
      (m.store.slotStart ≤ t ∧ t < m.store.slotLimit) ∧ t ≠ m.store.allocSlot := by
  refine ⟨fun ht => ⟨ht.range, ht.ne_alloc⟩, fun ⟨hrange, hne⟩ => ⟨hrange, hne, ?_⟩⟩
  refine ⟨image b w', h.file_eq, ?_⟩
  have hpart : t < b.lay.outerSlots.toNat := h.slots.2.1 ▸ hrange.2
  rw [h.size]
  exact h.sizes.inside (p := .outerSlot t) hpart

/-- The new volume is formatted. -/
theorem formatted
    (h : Created P outerPassword totalSizeBytes cipher kdfProfile label hidden w m w' b) :
    Formatted h.volume outerRootSlot where
  dataSlot := by
    obtain ⟨hstart, hlimit, halloc⟩ := h.slots
    rw [h.hasSlot_iff, hstart, hlimit, halloc]
    exact ⟨⟨Nat.zero_le _, h.sizes.outer⟩, by decide⟩
  rootNode := by
    have hroot := @Created.holds_root P _ _ _ _ _ _ _ _ _ _ h m.store (by rw [h.store]; rfl)
      (by rw [h.store]; rfl)
    have hread : m.store.read P w' outerRootSlot = .ok emptyPayload := (read_eq_ok h.file_eq).mpr hroot
    refine MountedVolume.nodes_of_read ?_
    change (m.store.read P w' outerRootSlot >>= fun data => _) = _
    rw [except_bind_of_ok hread, fromSlice_toVecNamed toVecNamed_emptyDirectory]
    rfl
  mem_free s := by
    obtain ⟨hstart, hlimit, halloc⟩ := h.slots
    rw [h.hasSlot_iff, hstart, hlimit, halloc, and_assoc]
    change s ∈ m.store.free ↔ _
    rw [h.store]
    exact mem_emptied
  nodup := by
    change m.store.free.Nodup
    rw [h.store]
    exact (sortedGT_emptied _ outerRootSlot).nodup

theorem sortedGT_free
    (h : Created P outerPassword totalSizeBytes cipher kdfProfile label hidden w m w' b) :
    (free h.volume).SortedGT := by
  change m.store.free.SortedGT
  rw [h.store]
  exact sortedGT_emptied _ outerRootSlot

theorem rootSlot
    (h : Created P outerPassword totalSizeBytes cipher kdfProfile label hidden w m w' b) :
    m.rootSlot.toNat = outerRootSlot := by
  rw [h.parts.container]
  rfl

end Created

/-! ## Runs -/

/-- The free list, the allocation slot and the tree below the root share the slots of the
    volume among them. -/
structure Partitioned (st : SlotStore) (v : MountedVolume P) (root : Nat) : Prop where
  slots : ∀ t, st.slotStart ≤ t ∧ t < st.slotLimit ↔
    t ∈ free v ∨ t = st.allocSlot ∨ InTree v root t
  nodup : (free v).Nodup
  apart : ∀ t ∈ free v, ¬ InTree v root t
  alloc : st.allocSlot ∉ free v ∧ ¬ InTree v root st.allocSlot

/-- Every call of a run refines the abstract tree or leaves all as it was. -/
theorem namespace_refines
    (hcreate : (create P outerPassword totalSizeBytes cipher kdfProfile label hidden).run w = .ok m w')
    {v : MountedVolume P} (hv : v.mounted = { container := m, world := w' })
    {s : VenomFuse (MountedVolume P)} (hrun : NamespaceRun (VenomFuse.new m.rootSlot.toNat v) s)
    (call : NamespaceCall)
    (hallowed : call.Allowed s) :
    (∀ u s', call.run.run s = .ok u s' → ∃ p, Refines m.rootSlot.toNat call s s' p) ∧
      (∀ e s', call.run.run s = .error e s' → Fuse.Untouched m.rootSlot.toNat s s') ∧
      (∀ t d, InTree s.container m.rootSlot.toNat t → nodes s.container t = some (.directory d) →
        UniqueNames d) ∧
      Partitioned m.store s.container m.rootSlot.toNat := by
  obtain ⟨b, h⟩ := create_ok hcreate
  obtain rfl : v = h.volume := Subtype.ext hv
  rw [h.rootSlot] at hrun ⊢
  obtain ⟨hok, hsame⟩ := hrun.sound (.formatted h.formatted h.sortedGT_free)
  have hstep := call.step hok hallowed
  have hslot : ∀ t, IsDataSlot s.container t ↔
      (m.store.slotStart ≤ t ∧ t < m.store.slotLimit) ∧ t ≠ m.store.allocSlot := fun t =>
    hsame.isDataSlot.trans (h.hasSlot_iff t)
  -- no node and no free slot is at the allocation slot
  have halloc : ¬ (m.store.allocSlot ∈ free s.container ∨ InTree s.container outerRootSlot
      m.store.allocSlot) := fun hmem => ((hslot _).mp ((hok.covers _).mpr hmem)).2 rfl
  have hinside : m.store.slotStart ≤ m.store.allocSlot ∧ m.store.allocSlot < m.store.slotLimit := by
    obtain ⟨hstart, hlimit, halloc⟩ := h.slots
    rw [hstart, hlimit, halloc]
    exact ⟨Nat.zero_le _, Nat.lt_of_lt_of_le (by decide) h.sizes.outer⟩
  refine ⟨fun u s' hu => (hstep.ok u s' hu).2, hstep.error, hok.tree.names, fun t => ?_,
    hok.sorted.nodup, hok.apart, not_or.mp halloc⟩
  by_cases ht : t = m.store.allocSlot
  · simp only [ht, hinside, true_or, or_true, and_self]
  · have hiff := (hslot t).symm.trans (hok.covers t)
    rw [and_iff_left ht] at hiff
    rw [hiff]
    simp only [ht, false_or]

/-- Two calls on a container of 30 slots. -/
theorem namespace_refines_million : ∃ (m : VnmContainer) (w' : World) (v : MountedVolume plain),
    v.mounted = { container := m, world := w' } ∧
      Partitioned m.store (after (NamespaceCall.mk .mkdir 1 "a").run
        (VenomFuse.new m.rootSlot.toNat v)).container m.rootSlot.toNat := by
  have hisOk : ∃ m w', (create plain [1] 1000000 .xchacha20Poly1305 "interactive" none none).run
      (freePath 7) = .ok m w' :=
    create_isOk rfl (show layout 1000000 none = .ok ⟨30, 0, 512, 999928⟩ from rfl)
      (fun _ => plain_hasKeys _ _) (by decide) (fun _ h => by cases h)
  obtain ⟨m, w', hcreate⟩ := hisOk
  obtain ⟨b, h⟩ := create_ok hcreate
  refine ⟨m, w', h.volume, rfl, ?_⟩
  exact (namespace_refines hcreate rfl (.call ⟨.mkdir, 1, "a"⟩ .start fun hop => by cases hop)
    ⟨.rmdir, 1, "a"⟩ fun hop => by cases hop).2.2.2

end Venom.Fs
