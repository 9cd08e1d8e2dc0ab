import Venom.Fuse.Readdir
import Venom.Fuse.Rename

/-! # What a call does to a listing

A create or a mkdir puts one name at the end of a directory, an unlink or a rmdir takes one
out, a rename does both; a call that fails half-way has done a part of it.  The directory may
also be lost on the way, when a damaged volume has its slot freed with another node: then
there is nothing left to list.
-/

namespace Venom.Fuse

open Venom.Storage
open Venom.Library
open Venom.Library.PositionScan
open Venom.Library.StateError

/-! ## Names -/

theorem names_nodup {d : DirectoryBlock} : (names d).Nodup ↔ UniqueNames d := Iff.rfl

theorem names_without {d : DirectoryBlock} (h : UniqueNames d) (name : String) :
    names (without d name) = (names d).filter (· ≠ name) := by
  have herase : names (without d name) = (names d).erase name := by
    rw [names, without, names, List.erase_eq_eraseP', List.eraseP_map]
    rfl
  rw [herase, List.Nodup.erase_eq_filter (names_nodup.mpr h)]
  refine List.filter_congr fun x _ => ?_
  by_cases hx : x = name <;> simp [hx]

theorem names_withEntry (d : DirectoryBlock) (e : DirEntry) :
    names (withEntry d e) = names d ++ [e.name] := by
  simp [names, withEntry]

theorem entryOf_none_names {d : DirectoryBlock} {name : String} (h : entryOf d name = none) :
    name ∉ names d := by
  intro hmem
  obtain ⟨e, he, rfl⟩ := List.mem_map.mp hmem
  simpa using List.find?_eq_none.mp h e he

theorem names_linked {d : DirectoryBlock} (h : UniqueNames d) (newname : String) (moved : Nat)
    (node : VaultNode) :
    names (linked d newname moved node) = (names d).filter (· ≠ newname) ++ [newname] := by
  rw [linked, names_withEntry, names_without h]

variable {σ : Type} [NodeStore σ] [NodeView σ]

/-! ## A directory that may be lost -/

/-- The block `d` is stored in `slot`, which is in use. -/
def InPlace (slot : Nat) (d : DirectoryBlock) (c : σ) : Prop :=
  nodes c slot = some (.directory d) ∧ slot ∉ free c

/-- There is no directory in `slot`. -/
def Lost (slot : Nat) (c : σ) : Prop := ∀ d, nodes c slot ≠ some (.directory d)

/-- The inode leads to the directory block `d`. -/
structure LiveDir (ino slot : Nat) (d : DirectoryBlock) (s : VenomFuse σ) : Prop where
  inode : s.inodes.slotOf ino = some slot
  stored : InPlace slot d s.container

omit [NodeStore σ] in
theorem LiveDir.listing {ino slot : Nat} {d : DirectoryBlock} {s : VenomFuse σ}
    (h : LiveDir ino slot d s) : listing s ino = listed (names d) :=
  listing_directory h.inode h.stored.1

/-- What is left after slots have been freed and inodes forgotten. -/
structure Kept (D : Nat → Prop) (ino slot : Nat) (d : DirectoryBlock) (s : VenomFuse σ) : Prop where
  within : DriverWithin D s
  numbered : Numbered s
  inode : s.inodes.slotOf ino = some slot ∨ s.inodes.slotOf ino = none
  stored : InPlace slot d s.container ∨ Lost slot s.container

/-- A call leaves the directory with a block like those of `P`, or nothing to list. -/
def Leaves (ino slot : Nat) (P : DirectoryBlock → Prop) (s : VenomFuse σ) : Prop :=
  (∃ d, LiveDir ino slot d s ∧ P d) ∨ listing s ino = []

omit [NodeStore σ] in
theorem LiveDir.leaves {ino slot : Nat} {d : DirectoryBlock} {s : VenomFuse σ}
    {P : DirectoryBlock → Prop} (h : LiveDir ino slot d s) (hP : P d) : Leaves ino slot P s :=
  .inl ⟨d, h, hP⟩

omit [NodeStore σ] in
theorem leaves_of_no_inode {ino slot : Nat} {s : VenomFuse σ} {P : DirectoryBlock → Prop}
    (h : s.inodes.slotOf ino = none) : Leaves ino slot P s := .inr (listing_no_slot h)

omit [NodeStore σ] in
theorem Kept.leaves {D : Nat → Prop} {ino slot : Nat} {d : DirectoryBlock} {s : VenomFuse σ}
    {P : DirectoryBlock → Prop} (h : Kept D ino slot d s) (hP : P d) : Leaves ino slot P s := by
  rcases h.inode with hslot | hslot
  · rcases h.stored with hstored | hlost
    · exact .inl ⟨d, ⟨hslot, hstored⟩, hP⟩
    · exact .inr (listing_no_directory hslot hlost)
  · exact leaves_of_no_inode hslot

omit [NodeStore σ] in
theorem LiveDir.kept {D : Nat → Prop} {ino slot : Nat} {d : DirectoryBlock} {s : VenomFuse σ}
    (h : LiveDir ino slot d s) (hs : DriverWithin D s) (hnum : Numbered s) : Kept D ino slot d s :=
  ⟨hs, hnum, .inl h.inode, .inl h.stored⟩

/-! ## Freeing -/

section Freeing

variable [WipingNodeStore σ] {D : Nat → Prop} {ino slot : Nat} {d : DirectoryBlock}

def StoreKept (D : Nat → Prop) (slot : Nat) (d : DirectoryBlock) (c : σ) : Prop :=
  StoreWithin D c ∧ D slot ∧ (InPlace slot d c ∨ Lost slot c)

theorem freeNode_stored {c : σ} {t : Nat} (ht : IsDataSlot c t) (hslot : IsDataSlot c slot)
    (h : InPlace slot d c ∨ Lost slot c) :
    InPlace slot d (NodeStore.freeNode t c) ∨ Lost slot (NodeStore.freeNode t c) := by
  obtain ⟨hfree, hothers, -⟩ := LawfulNodeStore.freeNode_spec c t ht
  by_cases hts : slot = t
  · right
    intro d' hd'
    rw [hts, WipingNodeStore.freeNode_wiped c t ht] at hd'
    cases hd'
  · have hsame := hothers slot hslot hts
    rcases h with ⟨hnode, hused⟩ | hlost
    · refine .inl ⟨hsame.trans hnode, fun hmem => ?_⟩
      rw [hfree, mem_insertFree] at hmem
      exact hmem.elim hts hused
    · exact .inr fun d' hd' => hlost d' (hsame.symm.trans hd')

theorem freeNode_storeKept {t : Nat} (ht : D t) :
    Keeps (StoreKept D slot d) (freeNode (σ := σ) t) fun _ => True := by
  refine .modify fun c ⟨hc, hslot, hstored⟩ => ⟨freeNode_within ht hc, hslot, ?_⟩
  exact freeNode_stored (by rw [hc.dataSlot]; exact ht) (by rw [hc.dataSlot]; exact hslot) hstored

theorem freeChainFrom_storeKept (fuel : Nat) {first : Option Nat} (hfirst : ∀ t ∈ first, D t) :
    Keeps (StoreKept D slot d) (freeChainFrom (σ := σ) fuel first) fun _ => True := by
  induction fuel generalizing first with
  | zero =>
    cases first with
    | none => exact .pure trivial
    | some t => exact .throw _
  | succ fuel ih =>
    cases first with
    | none => exact .pure trivial
    | some t =>
      have ht := hfirst t rfl
      refine Keeps.get.bind fun c hc => ?_
      split
      next fi hread =>
        rw [readNode_ok (by rw [hc.1.dataSlot]; exact ht)] at hread
        have hrefs := hc.1.refs t _ ht hread
        simp only [refs, List.mem_append, Option.mem_toList] at hrefs
        exact (freeNode_storeKept ht).bind fun _ _ => ih fun u hu => hrefs u (.inr hu)
      next => exact freeNode_storeKept ht

omit [NodeStore σ] [WipingNodeStore σ] in
theorem Kept.store {s : VenomFuse σ} (h : Kept D ino slot d s) (hslot : D slot) : StoreKept D slot d s.container :=
  ⟨h.within.container, hslot, h.stored⟩

omit [NodeStore σ] [WipingNodeStore σ] in
/-- A call of the container that keeps the directory's slot. -/
theorem liftStore_kept {α : Type} {x : StoreM σ α} {Q : α → Prop} (hslot : D slot)
    (hx : Keeps (StoreKept D slot d) x Q) : Keeps (Kept D ino slot d) (liftStore x) Q where
  ok hs hrun := by
    obtain ⟨c, hrun', rfl⟩ := liftStore_ok.mp hrun
    obtain ⟨⟨hc, -, hstored⟩, hQ⟩ := hx.ok (hs.store hslot) hrun'
    exact ⟨⟨⟨hc, hs.within.inodes, hs.within.handles⟩, hs.numbered, hs.inode, hstored⟩, hQ⟩
  error hs hrun := by
    obtain ⟨c, hrun', rfl⟩ := liftStore_error.mp hrun
    obtain ⟨hc, -, hstored⟩ := hx.error (hs.store hslot) hrun'
    exact ⟨⟨hc, hs.within.inodes, hs.within.handles⟩, hs.numbered, hs.inode, hstored⟩

omit [NodeStore σ] [WipingNodeStore σ] in
theorem forgetSlot_kept (t : Nat) :
    Keeps (Kept D ino slot d) (forgetSlot (σ := σ) t) fun _ => True := by
  refine .modify fun s hs => ⟨?_, (InodeMap.Backed.removeSlot hs.numbered t).1, ?_, hs.stored⟩
  · exact ⟨hs.within.container, fun i u hi => hs.within.inodes i u (removeSlot_slotOf hi),
      hs.within.handles⟩
  · change (s.inodes.removeSlot t).slotOf ino = _ ∨ (s.inodes.removeSlot t).slotOf ino = _
    cases hi : (s.inodes.removeSlot t).slotOf ino with
    | none => exact .inr rfl
    | some u =>
      rcases hs.inode with hslot | hslot
      · rw [removeSlot_slotOf hi] at hslot
        exact .inl hslot
      · rw [removeSlot_slotOf hi] at hslot
        cases hslot

end Freeing

/-! ## Adding -/

section Adding

variable {D : Nat → Prop} {ino slot : Nat} {d : DirectoryBlock}
  {s s' : VenomFuse σ}

omit [NodeStore σ] in
/-- Only the slot's node, the free list and the inode count. -/
theorem LiveDir.of_same (h : LiveDir ino slot d s)
    (hnode : nodes s'.container slot = nodes s.container slot)
    (hfree : slot ∈ free s'.container → slot ∈ free s.container)
    (hinodes : s'.inodes.slotOf ino = s.inodes.slotOf ino) : LiveDir ino slot d s' :=
  ⟨hinodes.trans h.inode, hnode.trans h.stored.1, fun hmem => h.stored.2 (hfree hmem)⟩

omit [NodeStore σ] in
theorem LiveDir.dataSlot (h : LiveDir ino slot d s) (hs : DriverWithin D s) :
    IsDataSlot s.container slot := by
  rw [hs.container.dataSlot]
  exact hs.inodes ino slot h.inode

variable [WipingNodeStore σ]

omit [WipingNodeStore σ] in
theorem LiveDir.unchanged (h : LiveDir ino slot d s) (hs : DriverWithin D s) (hu : Unchanged s s') :
    LiveDir ino slot d s' :=
  h.of_same (hu.nodes slot (h.dataSlot hs)) (by rw [hu.free]; exact id) (by rw [hu.inodes])

/-- A new node goes to a free slot, so not to the directory's. -/
theorem LiveDir.wrote (h : LiveDir ino slot d s) (hs : DriverWithin D s) {n : VaultNode} {t : Nat}
    (hrun : (liftStore (writeNode n)).run s = .ok t s') : LiveDir ino slot d s' ∧ slot ≠ t := by
  obtain ⟨c, hrun', rfl⟩ := liftStore_ok.mp hrun
  have hmem := LawfulNodeStore.writeNode_ok_free (writeNode_store hrun')
  obtain ⟨hfree, -, -, hothers, -⟩ := LawfulNodeStore.writeNode_ok (writeNode_store hrun')
    (by rw [hs.container.dataSlot]; exact hs.container.free t hmem)
  have hne : slot ≠ t := fun heq => h.stored.2 (heq ▸ hmem)
  refine ⟨h.of_same (hothers slot (h.dataSlot hs) hne) (fun hin => ?_) rfl, hne⟩
  rw [hfree]
  exact List.mem_append_left _ hin

theorem LiveDir.write_failed (h : LiveDir ino slot d s) (hs : DriverWithin D s) {n : VaultNode}
    {e : Failure} (hrun : (liftStore (writeNode n)).run s = .error e s') : LiveDir ino slot d s' := by
  obtain ⟨c, hrun', rfl⟩ := liftStore_error.mp hrun
  obtain ⟨e', hfailed⟩ := writeNode_failed hrun'
  obtain ⟨hagree, -, hfree⟩ := LawfulNodeStore.writeNode_error hfailed
  refine h.of_same (hagree slot (h.dataSlot hs)) (fun hin => ?_) rfl
  rcases hfree with ⟨-, hnil⟩ | ⟨t, hpop, -⟩
  · rw [hnil] at hin
    cases hin
  · rw [hpop]
    exact List.mem_append_left _ hin

/-- The block of a directory after an entry has come to the directory in `p`. -/
def withEntryIn (slot p : Nat) (d : DirectoryBlock) (e : DirEntry) : DirectoryBlock :=
  if p = slot then withEntry d e else d

omit [WipingNodeStore σ] in
theorem LiveDir.added (h : LiveDir ino slot d s) (hs : DriverWithin D s) {p : Nat} {b : DirectoryBlock}
    {e : DirEntry} (hadd : Added s s' p b e) :
    LiveDir ino slot (withEntryIn slot p d e) s' ∧
      Edit [] (names d) (names (withEntryIn slot p d e)) := by
  unfold withEntryIn
  have hinodes : s'.inodes = s.inodes := by rw [hadd.state]
  by_cases hp : p = slot
  · rw [if_pos hp]
    subst hp
    have hsame := hadd.dir.symm.trans h.stored.1
    cases hsame
    refine ⟨⟨by rw [hinodes]; exact h.inode, hadd.node, by rw [hadd.free]; exact h.stored.2⟩, ?_⟩
    rw [names_withEntry]
    exact .added (entryOf_none_names hadd.new)
  · rw [if_neg hp]
    exact ⟨h.of_same (hadd.others slot (h.dataSlot hs) (Ne.symm hp)) (by rw [hadd.free]; exact id)
      (by rw [hinodes]), .refl _ _⟩

/-- A freshly written node is linked, or given up again.  No inode comes of that. -/
theorem LiveDir.linkOrFree (h : LiveDir ino slot d s) (hs : DriverWithin D s) {p t : Nat}
    {e : DirEntry} (hp : D p) (ht : D t) (hne : slot ≠ t) :
    (∃ b, LiveDir ino slot b (after (linkOrFree p t e) s) ∧ Edit [] (names d) (names b)) ∧
      (after (linkOrFree p t e) s).inodes = s.inodes := by
  cases hrun : (Fuse.linkOrFree p t e).run s with
  | ok u s₁ =>
    rw [after_of_ok hrun]
    obtain ⟨b, hadd⟩ := dirAddEntry_added (by rw [hs.container.dataSlot]; exact hp) (linkOrFree_ok hrun)
    exact ⟨⟨_, h.added hs hadd⟩, by rw [hadd.state]⟩
  | error f s₂ =>
    rw [after_of_error hrun]
    obtain ⟨s₁, hun, rfl⟩ := linkOrFree_error hrun
    have h₁ := h.unchanged hs hun
    obtain ⟨hfree, hothers, -⟩ := LawfulNodeStore.freeNode_spec s₁.container t
      (hun.same.isDataSlot.mpr (by rw [hs.container.dataSlot]; exact ht))
    refine ⟨⟨d, h₁.of_same (hothers slot (hun.same.isDataSlot.mpr (h.dataSlot hs)) hne) (fun hin => ?_) rfl,
      .refl _ _⟩, hun.inodes⟩
    change slot ∈ free (NodeStore.freeNode t s₁.container) at hin
    rw [hfree, mem_insertFree] at hin
    exact hin.resolve_left hne

omit [NodeStore σ] [WipingNodeStore σ] in
/-- Handing out an inode that is not the directory's. -/
theorem LiveDir.inoOfSlot (h : LiveDir ino slot d s) (hne : s.inodes.nextIno ≠ ino) (t : Nat) :
    LiveDir ino slot d { s with inodes := (s.inodes.getOrAlloc t).2 } :=
  ⟨InodeMap.getOrAlloc_slotOf_of_ne t hne h.inode, h.stored⟩

end Adding

/-! ## Creating -/

section Creating

variable [WipingNodeStore σ] {D : Nat → Prop} {ino slot : Nat} {d : DirectoryBlock}
  {s : VenomFuse σ}

/-- What follows the link of a new node keeps the directory, unless its inode is the next one. -/
def KeepsLive (σ : Type) [NodeStore σ] [NodeView σ] {α : Type} (ino slot : Nat) (x : FuseM σ α) : Prop :=
  ∀ b (s : VenomFuse σ), LiveDir ino slot b s → s.inodes.nextIno ≠ ino → LiveDir ino slot b (after x s)

/-- A create or a mkdir adds a name, or leaves the directory as it was. -/
theorem LiveDir.create {α : Type} (h : LiveDir ino slot d s) (hs : DriverWithin D s)
    (hne : s.inodes.nextIno ≠ ino) (parent : Nat) {n : VaultNode} (hn : NodeWithin D n) (entry : Nat → DirEntry)
    {rest : Nat → FuseM σ α} (hrest : ∀ t, KeepsLive σ ino slot (rest t)) :
    ∃ b, LiveDir ino slot b (after (do
        let pSlot ← slotOfIno parent
        let t ← liftStore (writeNode n)
        Fuse.linkOrFree pSlot t (entry t)
        rest t) s) ∧ Edit [] (names d) (names b) := by
  cases hslot : (slotOfIno (σ := σ) parent).run s with
  | error e s₁ =>
    rw [after_of_error (run_bind_of_error hslot), slotOfIno_error hslot]
    exact ⟨d, h, .refl _ _⟩
  | ok p s₁ =>
    obtain ⟨hp, rfl⟩ := slotOfIno_ok.mp hslot
    rw [after_bind_of_ok hslot]
    cases hwrite : (liftStore (writeNode n)).run s₁ with
    | error e s₂ =>
      rw [after_of_error (run_bind_of_error hwrite)]
      exact ⟨d, h.write_failed hs hwrite, .refl _ _⟩
    | ok t s₂ =>
      rw [after_bind_of_ok hwrite]
      obtain ⟨h₂, hother⟩ := h.wrote hs hwrite
      obtain ⟨hs₂, ht⟩ := (liftStore_keeps (writeNode_keeps hn)).ok hs hwrite
      obtain ⟨⟨b, hb, hedit⟩, hinodes⟩ := h₂.linkOrFree hs₂ (e := entry t) (hs.inodes parent p hp) ht hother
      obtain ⟨c, -, rfl⟩ := liftStore_ok.mp hwrite
      refine ⟨b, ?_, hedit⟩
      cases hlink : (Fuse.linkOrFree p t (entry t)).run { s₁ with container := c } with
      | error e s₃ =>
        rw [after_of_error (run_bind_of_error hlink), ← after_of_error hlink]
        exact hb
      | ok u s₃ =>
        rw [after_bind_of_ok hlink]
        rw [after_of_ok hlink] at hb hinodes
        exact hrest t b s₃ hb (by rw [hinodes]; exact hne)

end Creating

/-! ## Removing -/

section Removing

variable [WipingNodeStore σ] {D : Nat → Prop} {ino slot : Nat} {d : DirectoryBlock}
  {s s' : VenomFuse σ} {parent p : Nat} {name : String}

/-- The block of a directory after an entry has left the directory in `p`. -/
def withoutIn (slot p : Nat) (d : DirectoryBlock) (name : String) : DirectoryBlock :=
  if p = slot then without d name else d

omit [WipingNodeStore σ] in
theorem LiveDir.removed (h : LiveDir ino slot d s) (hs : DriverWithin D s) {b : DirectoryBlock}
    {e : DirEntry} (hrem : Removed s s' p b name e) : LiveDir ino slot (withoutIn slot p d name) s' := by
  unfold withoutIn
  have hinodes : s'.inodes = s.inodes := by rw [hrem.state]
  by_cases hp : p = slot
  · rw [if_pos hp]
    subst hp
    have hsame := hrem.dir.symm.trans h.stored.1
    cases hsame
    exact ⟨by rw [hinodes]; exact h.inode, hrem.node, by rw [hrem.free]; exact h.stored.2⟩
  · rw [if_neg hp]
    exact h.of_same (hrem.others slot (h.dataSlot hs) (Ne.symm hp)) (by rw [hrem.free]; exact id)
      (by rw [hinodes])

omit [NodeStore σ] [WipingNodeStore σ] in
/-- The directory of an inode is the only one with its slot. -/
theorem LiveDir.parent_iff (h : LiveDir ino slot d s) (hnum : Numbered s)
    (hp : s.inodes.slotOf parent = some p) : p = slot ↔ parent = ino := by
  constructor
  · rintro rfl
    exact InodeMap.Backed.inj hnum hp h.inode
  · rintro rfl
    exact Option.some.inj (hp.symm.trans h.inode)

omit [NodeStore σ] [WipingNodeStore σ] in
theorem LiveDir.edit_removed (h : LiveDir ino slot d s) (hnum : Numbered s) (hunique : UniqueNames d)
    (hp : s.inodes.slotOf parent = some p) (name : String) :
    Edit (if parent = ino then [name] else []) (names d) (names (withoutIn slot p d name)) := by
  unfold withoutIn
  by_cases hsame : p = slot
  · rw [if_pos hsame, if_pos ((h.parent_iff hnum hp).mp hsame), names_without hunique]
    exact .removed (List.mem_singleton_self name)
  · rw [if_neg hsame]
    exact .refl _ _

/-- Taking an entry out, and what follows if that succeeds. -/
theorem LiveDir.afterRemoval {α : Type} (h : LiveDir ino slot d s) (hs : DriverWithin D s)
    (hnum : Numbered s) {P : DirectoryBlock → Prop} (hd : P d) (hp : D p) (name : String)
    {rest : Nat → FuseM σ α} (hrest : ∀ b e s₁, Removed s s₁ p b name e → DriverWithin D s₁ →
      Numbered s₁ → LiveDir ino slot (withoutIn slot p d name) s₁ → D e.slot →
      Leaves ino slot P (after (rest e.slot) s₁)) :
    Leaves ino slot P (after (dirRemoveEntry p name >>= rest) s) := by
  cases hrun : (dirRemoveEntry p name).run s with
  | error e s₁ =>
    rw [after_of_error (run_bind_of_error hrun)]
    exact (h.unchanged hs (dirRemoveEntry_error hrun)).leaves hd
  | ok moved s₁ =>
    rw [after_bind_of_ok hrun]
    obtain ⟨hs₁, hmoved⟩ := (dirRemoveEntry_keeps hp name).ok hs hrun
    have hnum₁ := ((numbered_invariant.dirRemoveEntry p name).ok hnum hrun).1
    obtain ⟨b, e, hrem, rfl⟩ := dirRemoveEntry_ok (by rw [hs.container.dataSlot]; exact hp) hrun
    exact hrest b e s₁ hrem hs₁ hnum₁ (h.removed hs hrem) hmoved

theorem freeAndForget_kept {t : Nat} (hslot : D slot) (ht : D t) :
    Keeps (Kept D ino slot d) (do liftStore (freeNode (σ := σ) t); forgetSlot t) fun _ => True :=
  (liftStore_kept hslot (freeNode_storeKept ht)).bind fun _ _ => forgetSlot_kept t

/-- An unlink takes out its name, and may lose the directory. -/
theorem LiveDir.unlink (h : LiveDir ino slot d s) (hs : DriverWithin D s) (hnum : Numbered s)
    (hunique : UniqueNames d) (parent : Nat) (name : String) :
    Leaves ino slot (fun b => Edit (if parent = ino then [name] else []) (names d) (names b))
      (after (opUnlink parent name) s) := by
  have hslotD := hs.inodes ino slot h.inode
  cases hslot : (slotOfIno (σ := σ) parent).run s with
  | error e s₁ =>
    rw [opUnlink, after_of_error (run_bind_of_error hslot), slotOfIno_error hslot]
    exact h.leaves (.refl _ _)
  | ok p s₁ =>
    obtain ⟨hp, rfl⟩ := slotOfIno_ok.mp hslot
    rw [opUnlink, after_bind_of_ok hslot]
    refine h.afterRemoval hs hnum (.refl _ _) (hs.inodes parent p hp) name
      fun b e s₂ _ hs₂ hnum₂ h₂ he => ?_
    refine Kept.leaves (Keeps.after (Q := fun _ => True) ?_ (h₂.kept hs₂ hnum₂))
      (h.edit_removed hnum hunique hp name)
    -- the slots of a file are freed one by one
    have hevict : ∀ s : VenomFuse σ, Kept D ino slot (withoutIn slot p d name) s →
        Kept D ino slot (withoutIn slot p d name)
          { s with openFiles := s.openFiles.retain (fun _ of => decide (of.headSlot ≠ e.slot)) } := by
      refine fun s hk => ⟨⟨hk.within.container, hk.within.inodes, fun fh f hf => ?_⟩,
        hk.numbered, hk.inode, hk.stored⟩
      rw [HashMap.get_retain] at hf
      exact hk.within.handles fh f (Option.filter_eq_some_iff.mp hf).1
    refine (Keeps.modify hevict).bind fun _ _ => Keeps.get.bind fun s₃ hs₃ => ?_
    split
    next fb hread =>
      have hrefs := hs₃.within.container.refs e.slot _ he
        ((readNode_ok (by rw [hs₃.within.container.dataSlot]; exact he)).mp hread)
      simp only [refs, List.mem_append, Option.mem_toList] at hrefs
      refine (liftStore_kept hslotD (.forM fun t ht => freeNode_storeKept (hrefs t (.inl ht)))).bind
        fun _ _ => ?_
      exact (liftStore_kept hslotD (Keeps.get.bind fun _ _ =>
        freeChainFrom_storeKept _ fun t ht => hrefs t (.inr ht))).bind
        fun _ _ => freeAndForget_kept hslotD he
    next => exact freeAndForget_kept hslotD he

/-! ### Empty directories -/

def isEmptyDir : VaultNode → Bool
  | .directory d => d.entries.isEmpty
  | _ => false

/-- The slot a name leads to. -/
def target (s : VenomFuse σ) (parent : Nat) (name : String) : Option Nat :=
  ((dirBlock s parent).bind fun d => entryOf d name).map (·.slot)

omit [NodeStore σ] [WipingNodeStore σ] in
theorem target_eq {b : DirectoryBlock} (hp : s.inodes.slotOf parent = some p)
    (hb : nodes s.container p = some (.directory b)) :
    target s parent name = (entryOf b name).map (·.slot) := by
  simp [target, dirBlock, hp, hb]

/-- A rmdir takes out its name if that leads to an empty directory. -/
theorem LiveDir.rmdir (h : LiveDir ino slot d s) (hs : DriverWithin D s) (hnum : Numbered s)
    (hunique : UniqueNames d) (parent : Nat) (name : String) :
    Leaves ino slot (fun b => Edit
        (if parent = ino ∧ ((target s parent name).bind (nodes s.container)).any isEmptyDir then [name] else [])
        (names d) (names b))
      (after (opRmdir parent name) s) := by
  have hslotD := hs.inodes ino slot h.inode
  have hkeep : ∀ out, Leaves ino slot (fun b => Edit out (names d) (names b)) s := fun out =>
    h.leaves (.refl _ _)
  cases hslot : (slotOfIno (σ := σ) parent).run s with
  | error e s₁ =>
    rw [opRmdir, after_of_error (run_bind_of_error hslot), slotOfIno_error hslot]
    exact hkeep _
  | ok p s₁ =>
    obtain ⟨hp, rfl⟩ := slotOfIno_ok.mp hslot
    have hpD := hs.inodes parent p hp
    rw [opRmdir, after_bind_of_ok hslot]
    cases hdir : (readDirBlock p).run s₁ with
    | error e s₂ =>
      rw [after_of_error (run_bind_of_error hdir), (readDirBlock_error hdir).1]
      exact hkeep _
    | ok b s₂ =>
      obtain ⟨rfl, hb⟩ := readDirBlock_ok hdir
      have hb' := hb (by rw [hs.container.dataSlot]; exact hpD)
      have hentries := (readDirBlock_keeps hpD).ok hs hdir
      rw [after_bind_of_ok hdir]
      cases hentry : entryOf b name with
      | none =>
        have hfind : b.entries.find? (fun e => decide (e.name = name)) = none := hentry
        rw [hfind]
        exact hkeep _
      | some e =>
        have hfind : b.entries.find? (fun e => decide (e.name = name)) = some e := hentry
        have heD := hentries.2 e (entryOf_mem hentry).1
        rw [hfind]
        dsimp only
        cases hread : (readDirBlock e.slot).run s₂ with
        | error f s₃ =>
          rw [after_of_error (run_bind_of_error hread), (readDirBlock_error hread).1]
          exact hkeep _
        | ok t s₃ =>
          obtain ⟨rfl, ht⟩ := readDirBlock_ok hread
          rw [after_bind_of_ok hread]
          by_cases hnonempty : t.entries ≠ []
          · rw [if_pos hnonempty]
            exact hkeep _
          · rw [if_neg hnonempty]
            have hempty : ((target s₃ parent name).bind (nodes s₃.container)).any isEmptyDir = true := by
              rw [target_eq hp hb', hentry, Option.map_some, Option.bind_some,
                ht (by rw [hs.container.dataSlot]; exact heD)]
              simpa [isEmptyDir] using hnonempty
            refine h.afterRemoval hs hnum (.refl _ _) hpD name fun _ e' s₄ _ hs₄ hnum₄ h₄ he' => ?_
            refine Kept.leaves ((freeAndForget_kept hslotD he').after (h₄.kept hs₄ hnum₄)) ?_
            simp only [hempty, and_true]
            exact h.edit_removed hnum hunique hp name

end Removing

/-! ## Renaming -/

section Renaming

variable [WipingNodeStore σ] {D : Nat → Prop} {ino slot : Nat} {d : DirectoryBlock}
  {s : VenomFuse σ} {npSlot moved : Nat} {newname : String}

theorem readNode_storeKept {t : Nat} (ht : D t) :
    Keeps (StoreKept D slot d) (readNode (σ := σ) t) (NodeWithin D) where
  ok hc hrun := by
    obtain ⟨rfl, -⟩ := readNode_inv hrun
    exact ⟨hc, ((readNode_keeps ht).ok hc.1 hrun).2⟩
  error hc hrun := by
    obtain ⟨rfl, -⟩ := readNode_error hrun
    exact hc

omit [NodeStore σ] [WipingNodeStore σ] in
theorem inPlace_of_agree {c c' : σ} (hnode : nodes c' slot = nodes c slot) (hfree : free c' = free c)
    (h : InPlace slot d c ∨ Lost slot c) : InPlace slot d c' ∨ Lost slot c' := by
  rcases h with ⟨hd, hused⟩ | hlost
  · exact .inl ⟨hnode.trans hd, by rwa [hfree]⟩
  · exact .inr fun d' hd' => hlost d' (hnode.symm.trans hd')

/-- Writing another node. -/
theorem updateNode_storeKept {t : Nat} {n : VaultNode} (hne : slot ≠ t) (ht : D t)
    (hn : NodeWithin D n) :
    Keeps (StoreKept D slot d) (updateNode (σ := σ) t n) fun _ => True where
  ok {c c' _} hc hrun := by
    obtain ⟨-, -, hfree, hothers, -⟩ := LawfulNodeStore.updateNode_ok (updateNode_store hrun)
      (by rw [hc.1.dataSlot]; exact ht)
    have hnode := hothers slot (by rw [hc.1.dataSlot]; exact hc.2.1) hne
    exact ⟨⟨((updateNode_keeps ht hn).ok hc.1 hrun).1, hc.2.1, inPlace_of_agree hnode hfree hc.2.2⟩, trivial⟩
  error {c c' _} hc hrun := by
    obtain ⟨-, hagree, hfree, -⟩ := updateNode_failed hrun
    have hnode := hagree slot (by rw [hc.1.dataSlot]; exact hc.2.1)
    exact ⟨(updateNode_keeps ht hn).error hc.1 hrun, hc.2.1, inPlace_of_agree hnode hfree hc.2.2⟩

/-- A link in another directory. -/
theorem linkMoved_kept (hslot : D slot) (hne : slot ≠ npSlot) (hnp : D npSlot) (hmoved : D moved) :
    Keeps (Kept D ino slot d) (linkMoved (σ := σ) npSlot newname moved) fun _ => True := by
  refine (liftStore_kept hslot (readNode_storeKept hmoved)).bind fun node _ => ?_
  refine Keeps.bind (Q := fun b => ∀ e ∈ b.entries, D e.slot) ?_ fun dest hdest => ?_
  · refine (liftStore_kept hslot (readNode_storeKept hnp)).bind fun n hn => ?_
    cases n with
    | directory b => exact .pure fun e he => hn.refs _ (List.mem_map_of_mem he)
    | file | fileData | fileIndex => exact .throw _
  refine Keeps.bind (Q := fun b => ∀ e ∈ b.entries, D e.slot) ?_ fun b hb => ?_
  · unfold replaceEntry
    split
    next => exact .pure hdest
    next old hold =>
      have hfreed := @freeAndForget_kept σ _ _ _ D ino slot d old.slot hslot
        (hdest old (List.mem_of_find?_eq_some hold))
      exact hfreed.bind fun _ _ => .pure fun e he => hdest e (List.mem_of_mem_eraseP he)
  · refine liftStore_kept hslot (updateNode_storeKept hne hnp ⟨fun u hu => ?_, Nat.zero_le _⟩)
    obtain ⟨e, he, rfl⟩ := List.mem_map.mp hu
    rcases List.mem_append.mp he with he | he
    · exact hb e he
    · rw [List.mem_singleton.mp he]
      exact hmoved

/-- A slot that was given up has lost its inode. -/
theorem LiveDir.vacated_used (h : LiveDir ino slot d s) (hs : DriverWithin D s) (hnum : Numbered s)
    {old : Option DirEntry} (hold : ∀ e ∈ old, D e.slot)
    (hslot : (vacated old s).inodes.slotOf ino = some slot) : slot ∉ free (vacated old s).container := by
  cases old with
  | none => exact h.stored.2
  | some e =>
    have hfreed := (vacated_some (s := s) (e := e) (by rw [hs.container.dataSlot]; exact hold e rfl)).1
    rw [hfreed, mem_insertFree]
    rintro (heq | hmem)
    · exact ((InodeMap.Backed.removeSlot hnum e.slot).2 ino slot hslot).2 heq
    · exact h.stored.2 hmem

/-- A link in the directory itself. -/
theorem LiveDir.linkMoved (h : LiveDir ino slot d s) (hs : DriverWithin D s) (hnum : Numbered s)
    (hmoved : D moved) {P : DirectoryBlock → Prop} (hd : P d)
    (hlinked : ∀ node, nodes s.container moved = some node → P (linked d newname moved node)) :
    Leaves ino slot P (after (linkMoved slot newname moved) s) := by
  have hdata := h.dataSlot hs
  have hslotD : D slot := hs.inodes ino slot h.inode
  have hentry : ∀ e ∈ entryOf d newname, D e.slot := fun e he =>
    hs.container.refs slot _ hslotD h.stored.1 _ (List.mem_map_of_mem (entryOf_mem he).1)
  have hvacated : Kept D ino slot d (vacated (entryOf d newname) s) := by
    cases hold : entryOf d newname with
    | none => exact h.kept hs hnum
    | some e =>
      exact (freeAndForget_kept hslotD (hentry e hold)).after (h.kept hs hnum)
  cases hread : (liftStore (readNode moved)).run s with
  | error e s₁ =>
    obtain ⟨c, hread', rfl⟩ := liftStore_error.mp hread
    obtain ⟨rfl, -⟩ := readNode_error hread'
    rw [Fuse.linkMoved, after_of_error (run_bind_of_error hread)]
    exact h.leaves hd
  | ok node s₁ =>
    obtain ⟨c, hread', rfl⟩ := liftStore_ok.mp hread
    obtain ⟨rfl, hnode⟩ := readNode_inv hread'
    have hstate : Leaves ino slot P (after (liftStore (updateNode slot
        (.directory (linked d newname moved node)))) (vacated (entryOf d newname) s)) := by
      cases hupd : (updateNode slot (.directory (linked d newname moved node))).run
          (vacated (entryOf d newname) s).container with
      | error e c =>
        rw [after_of_error (liftStore_error.mpr ⟨c, hupd, rfl⟩)]
        obtain ⟨-, hagree, hfree, -⟩ := updateNode_failed hupd
        have hsame := hagree slot (by rw [hvacated.within.container.dataSlot]; exact hslotD)
        have hkept := inPlace_of_agree hsame hfree hvacated.stored
        rcases hvacated.inode with hslot | hnone
        · rcases hkept with hplace | hlost
          · exact .inl ⟨d, ⟨hslot, hplace⟩, hd⟩
          · exact .inr (listing_no_directory hslot hlost)
        · exact leaves_of_no_inode hnone
      | ok u c =>
        rw [after_of_ok (liftStore_ok.mpr ⟨c, hupd, rfl⟩)]
        obtain ⟨-, hnew, hfree, -, -⟩ := LawfulNodeStore.updateNode_ok (updateNode_store hupd)
          (by rw [hvacated.within.container.dataSlot]; exact hslotD)
        rcases hvacated.inode with hslot | hnone
        · refine .inl ⟨_, ⟨hslot, hnew, ?_⟩, hlinked node (hnode (by rw [hs.container.dataSlot]; exact hmoved))⟩
          change slot ∉ free c
          rw [hfree]
          exact h.vacated_used hs hnum hentry hslot
        · exact leaves_of_no_inode hnone
    rw [Fuse.linkMoved, after_bind_of_ok hread, after_bind_of_ok (readDirBlock_run hdata h.stored.1),
      after_bind_of_ok (replaceEntry_run d newname s)]
    exact hstate

/-- The names a rename takes out of the directory of an inode: the old name, and the new one if
    the node that gets it can be read. -/
def renameTakes (s : VenomFuse σ) (ino parent : Nat) (name : String) (newparent : Nat)
    (newname : String) : List String :=
  match target s parent name with
  | none => []
  | some moved =>
    if (s.inodes.slotOf newparent).isSome then
      (if parent = ino then [name] else []) ++
        (if newparent = ino ∧ (nodes s.container moved).isSome then [newname] else [])
    else []

/-- A rename takes out the names it should, and puts the new one at the end. -/
theorem LiveDir.rename (h : LiveDir ino slot d s) (hs : DriverWithin D s) (hnum : Numbered s)
    (hunique : UniqueNames d) (parent : Nat) (name : String) (newparent : Nat) (newname : String) :
    Leaves ino slot (fun b => Edit (renameTakes s ino parent name newparent newname) (names d) (names b))
      (after (opRename parent name newparent newname) s) := by
  have hkeep : ∀ out, Leaves ino slot (fun b => Edit out (names d) (names b)) s := fun out =>
    h.leaves (.refl _ _)
  have hslotD : D slot := hs.inodes ino slot h.inode
  rw [opRename_eq]
  cases hslot : (slotOfIno (σ := σ) parent).run s with
  | error e s₁ =>
    rw [after_of_error (run_bind_of_error hslot), slotOfIno_error hslot]
    exact hkeep _
  | ok p s₁ =>
  obtain ⟨hp, rfl⟩ := slotOfIno_ok.mp hslot
  rw [after_bind_of_ok hslot]
  cases hslot' : (slotOfIno (σ := σ) newparent).run s₁ with
  | error e s₂ =>
    rw [after_of_error (run_bind_of_error hslot'), slotOfIno_error hslot']
    exact hkeep _
  | ok np s₂ =>
  obtain ⟨hnp, rfl⟩ := slotOfIno_ok.mp hslot'
  rw [after_bind_of_ok hslot']
  have hpD := hs.inodes parent p hp
  have hnpD := hs.inodes newparent np hnp
  refine h.afterRemoval hs hnum (.refl _ _) hpD name fun b e s₃ hrem hs₃ hnum₃ h₃ he => ?_
  have hmoved : target s₂ parent name = some e.slot := by
    rw [target_eq hp hrem.dir, hrem.entry]
    rfl
  unfold renameTakes
  rw [hmoved]
  dsimp only
  rw [if_pos (by rw [hnp]; rfl)]
  have hremoved := h.edit_removed hnum hunique hp name
  have hleft := List.subset_append_left (if parent = ino then [name] else [])
    (if newparent = ino ∧ (nodes s₂.container e.slot).isSome then [newname] else [])
  by_cases hself : slot = np
  · subst hself
    have hnewparent : newparent = ino := (h.parent_iff hnum hnp).mp rfl
    refine h₃.linkMoved hs₃ hnum₃ he (hremoved.mono hleft) fun node hnode => ?_
    have hread : (nodes s₂.container e.slot).isSome = true := by
      cases hn : nodes s₂.container e.slot with
      | some n => rfl
      | none =>
        rw [(hrem.node_iff hs he).2 hn] at hnode
        cases hnode
    have hnew : (if newparent = ino ∧ (nodes s₂.container e.slot).isSome then [newname] else []) = [newname] :=
      if_pos ⟨hnewparent, hread⟩
    rw [hnew]
    unfold withoutIn
    by_cases hp' : p = slot
    · rw [if_pos hp', if_pos ((h.parent_iff hnum hp).mp hp'), names_linked (hunique.without name),
        names_without hunique]
      exact .renamed (by simp) (by simp)
    · rw [if_neg hp', names_linked hunique]
      exact .replaced (by simp)
  · have hlink : Keeps (Kept D ino slot (withoutIn slot p d name)) (Fuse.linkMoved (σ := σ) np newname e.slot) fun _ => True :=
      linkMoved_kept hslotD hself hnpD he
    exact (hlink.after (h₃.kept hs₃ hnum₃)).leaves (hremoved.mono hleft)

end Renaming

end Venom.Fuse
