import Venom.Fuse.Session

/-! # Directory blocks

What the driver's calls on one directory block do: when they succeed, which block they
leave, and that a failed one leaves everything as it was.
-/

namespace Venom.Fuse

open Venom.Storage
open Venom.Library
open Venom.Library.StateError

/-- The entry of a name. -/
def entryOf (d : DirectoryBlock) (name : String) : Option DirEntry :=
  d.entries.find? fun e => e.name = name

/-- The directory without its entry of a name. -/
def without (d : DirectoryBlock) (name : String) : DirectoryBlock :=
  { d with entries := d.entries.eraseP fun e => e.name = name }

/-- The directory with a further entry. -/
def withEntry (d : DirectoryBlock) (entry : DirEntry) : DirectoryBlock :=
  { d with entries := d.entries ++ [entry] }

theorem entryOf_mem {d : DirectoryBlock} {name : String} {e : DirEntry}
    (h : entryOf d name = some e) : e ∈ d.entries ∧ e.name = name :=
  ⟨List.mem_of_find?_eq_some h, by simpa using List.find?_some h⟩

/-- A directory without such an entry stays as it is. -/
theorem without_eq_self {d : DirectoryBlock} {name : String} (h : entryOf d name = none) :
    without d name = d := by
  have hnot : ∀ e ∈ d.entries, ¬ (decide (e.name = name)) = true := List.find?_eq_none.mp h
  rw [without, List.eraseP_of_forall_not hnot]

/-- A directory is changed by taking an entry out. -/
theorem without_ne_self {d : DirectoryBlock} {name : String} {e : DirEntry}
    (h : entryOf d name = some e) : without d name ≠ d := by
  obtain ⟨hmem, hname⟩ := entryOf_mem h
  intro heq
  have hlen := congrArg (fun d : DirectoryBlock => d.entries.length) heq
  simp only [without] at hlen
  rw [List.length_eraseP_of_mem hmem (by simpa using hname)] at hlen
  have := List.length_pos_of_mem hmem
  omega

variable {σ : Type} [NodeStore σ] [NodeView σ] [LawfulNodeStore σ]

/-- Nothing the driver stores or remembers has changed. -/
structure Unchanged (s s' : VenomFuse σ) : Prop where
  nodes : NodesAgree s.container s'.container
  free : free s'.container = free s.container
  same : SameVolume s.container s'.container
  inodes : s'.inodes = s.inodes
  handles : s'.openFiles = s.openFiles

omit [LawfulNodeStore σ] in
theorem Unchanged.refl (s : VenomFuse σ) : Unchanged s s :=
  ⟨fun _ _ => rfl, rfl, .refl _, rfl, rfl⟩

/-! ## Failing calls -/

omit [NodeStore σ] [NodeView σ] [LawfulNodeStore σ] in
theorem slotOfIno_error {ino : Nat} {s s' : VenomFuse σ} {e : Failure}
    (h : (slotOfIno ino).run s = .error e s') : s' = s := by
  unfold slotOfIno at h
  rw [run_bind_of_ok run_get] at h
  split at h
  · cases h
  · cases h; rfl

omit [NodeStore σ] [NodeView σ] [LawfulNodeStore σ] in
theorem liftStore_error {α : Type} {x : StoreM σ α} {s s' : VenomFuse σ} {e : Failure} :
    (liftStore x).run s = .error e s' ↔
      ∃ c, x.run s.container = .error e c ∧ s' = { s with container := c } := by
  change liftStore x s = _ ↔ _
  unfold liftStore
  cases x.run s.container with
  | ok b c => simp
  | error e' c => simp [eq_comm]

theorem readNode_error {c c' : σ} {slot : Nat} {e : Failure}
    (h : (readNode slot).run c = .error e c') :
    c' = c ∧ (IsDataSlot c slot → nodes c slot = none) := by
  change readNode slot c = _ at h
  unfold readNode at h
  split at h
  next => cases h
  next hread =>
    cases h
    refine ⟨rfl, fun hs => ?_⟩
    rw [← LawfulNodeStore.readNode_eq c slot hs, hread]
    rfl

theorem readDirBlock_run {s : VenomFuse σ} {slot : Nat} {d : DirectoryBlock}
    (hs : IsDataSlot s.container slot) (hd : nodes s.container slot = some (.directory d)) :
    (readDirBlock slot).run s = .ok d s := by
  have hread : (liftStore (readNode slot)).run s = .ok (.directory d) s :=
    liftStore_ok.mpr ⟨_, readNode_run hs hd, rfl⟩
  rw [readDirBlock, run_bind_of_ok hread]
  rfl

theorem readDirBlock_error {s s' : VenomFuse σ} {slot : Nat} {e : Failure}
    (h : (readDirBlock slot).run s = .error e s') :
    s' = s ∧ (IsDataSlot s.container slot → ∀ d, nodes s.container slot ≠ some (.directory d)) := by
  rcases run_bind_error.mp h with hread | ⟨n, s₁, hread, hcont⟩
  · obtain ⟨c, hread', rfl⟩ := liftStore_error.mp hread
    obtain ⟨rfl, hnone⟩ := readNode_error hread'
    exact ⟨rfl, fun hs d hd => by rw [hnone hs] at hd; cases hd⟩
  · obtain ⟨c, hread', rfl⟩ := liftStore_ok.mp hread
    obtain ⟨rfl, hn⟩ := readNode_inv hread'
    cases n with
    | directory d => cases hcont
    | file | fileData | fileIndex =>
      cases hcont
      exact ⟨rfl, fun hs d hd => by rw [hn hs] at hd; cases hd⟩

/-- What taking an entry out of the directory block of `slot` leaves. -/
structure Removed (s s' : VenomFuse σ) (slot : Nat) (d : DirectoryBlock) (name : String)
    (e : DirEntry) : Prop where
  dir : nodes s.container slot = some (.directory d)
  entry : entryOf d name = some e
  fits : Fits (NodeStore.cipher s.container) (.directory (without d name))
  state : s' = { s with container := s'.container }
  node : nodes s'.container slot = some (.directory (without d name))
  free : free s'.container = free s.container
  others : NodesAgreeExcept slot s.container s'.container
  same : SameVolume s.container s'.container

theorem dirRemoveEntry_ok {s s' : VenomFuse σ} {slot removed : Nat} {name : String}
    (hs : IsDataSlot s.container slot) (h : (dirRemoveEntry slot name).run s = .ok removed s') :
    ∃ d e, Removed s s' slot d name e ∧ removed = e.slot := by
  obtain ⟨d, s₁, hread, hcont⟩ := run_bind_ok.mp h
  obtain ⟨rfl, hd⟩ := readDirBlock_ok hread
  split at hcont
  next => cases hcont
  next e he =>
    obtain ⟨_, s₂, hupd, hret⟩ := run_bind_ok.mp hcont
    cases hret
    obtain ⟨c, hupd', rfl⟩ := liftStore_ok.mp hupd
    obtain ⟨hfits, hnode, hfree, hothers, hsame⟩ :=
      LawfulNodeStore.updateNode_ok (updateNode_store hupd') hs
    exact ⟨d, e, ⟨hd hs, he, hfits, rfl, hnode, hfree, hothers, hsame⟩, rfl⟩

/-- An entry is taken out of a readable directory when the shorter block fits. -/
theorem dirRemoveEntry_run {s : VenomFuse σ} {slot : Nat} {d : DirectoryBlock} {name : String}
    {e : DirEntry} (hs : IsDataSlot s.container slot)
    (hd : nodes s.container slot = some (.directory d)) (he : entryOf d name = some e)
    (hfits : Fits (NodeStore.cipher s.container) (.directory (without d name))) :
    ∃ s', (dirRemoveEntry slot name).run s = .ok e.slot s' := by
  obtain ⟨c, hc⟩ := updateNode_run (s := slot) hfits
  refine ⟨{ s with container := c }, ?_⟩
  have hfind : d.entries.find? (fun e => decide (e.name = name)) = some e := he
  rw [dirRemoveEntry, run_bind_of_ok (readDirBlock_run hs hd), hfind]
  change (liftStore (updateNode slot (.directory (without d name))) >>= fun _ => pure e.slot).run s = _
  rw [run_bind_of_ok (liftStore_ok.mpr ⟨c, hc, rfl⟩)]
  rfl

/-- A failed call leaves everything as it was. -/
theorem dirRemoveEntry_error {s s' : VenomFuse σ} {slot : Nat} {name : String} {e : Failure}
    (h : (dirRemoveEntry slot name).run s = .error e s') : Unchanged s s' := by
  rcases run_bind_error.mp h with hread | ⟨d, s₁, hread, hcont⟩
  · obtain ⟨rfl, -⟩ := readDirBlock_error hread
    exact .refl _
  · obtain ⟨rfl, -⟩ := readDirBlock_ok hread
    split at hcont
    next => cases hcont; exact .refl _
    next =>
      rcases run_bind_error.mp hcont with hupd | ⟨_, s₂, -, hret⟩
      · obtain ⟨c, hupd', rfl⟩ := liftStore_error.mp hupd
        obtain ⟨-, hagree, hfree, hsame⟩ := updateNode_failed hupd'
        exact ⟨hagree, hfree, hsame, rfl, rfl⟩
      · cases hret

/-! ## Adding an entry -/

/-- What a further entry in the directory block of `slot` leaves. -/
structure Added (s s' : VenomFuse σ) (slot : Nat) (d : DirectoryBlock) (entry : DirEntry) :
    Prop where
  dir : nodes s.container slot = some (.directory d)
  new : entryOf d entry.name = none
  state : s' = { s with container := s'.container }
  node : nodes s'.container slot = some (.directory (withEntry d entry))
  free : free s'.container = free s.container
  others : NodesAgreeExcept slot s.container s'.container
  same : SameVolume s.container s'.container

theorem entryOf_none_iff {d : DirectoryBlock} {name : String} :
    entryOf d name = none ↔ ¬ d.entries.any (fun e => e.name = name) = true := by
  simp [entryOf]

theorem dirAddEntry_added {s s' : VenomFuse σ} {slot : Nat} {entry : DirEntry}
    (hs : IsDataSlot s.container slot) (h : (dirAddEntry slot entry).run s = .ok () s') :
    ∃ d, Added s s' slot d entry := by
  obtain ⟨d, s₁, hread, hcont⟩ := run_bind_ok.mp h
  obtain ⟨rfl, hd⟩ := readDirBlock_ok hread
  split at hcont
  next => cases hcont
  next hnew =>
    obtain ⟨c, hupd, rfl⟩ := liftStore_ok.mp hcont
    obtain ⟨-, hnode, hfree, hothers, hsame⟩ :=
      LawfulNodeStore.updateNode_ok (updateNode_store hupd) hs
    exact ⟨d, hd hs, entryOf_none_iff.mpr hnew, rfl, hnode, hfree, hothers, hsame⟩

theorem dirAddEntry_error {s s' : VenomFuse σ} {slot : Nat} {entry : DirEntry} {e : Failure}
    (h : (dirAddEntry slot entry).run s = .error e s') : Unchanged s s' := by
  rcases run_bind_error.mp h with hread | ⟨d, s₁, hread, hcont⟩
  · obtain ⟨rfl, -⟩ := readDirBlock_error hread
    exact .refl _
  · obtain ⟨rfl, -⟩ := readDirBlock_ok hread
    split at hcont
    next => cases hcont; exact .refl _
    next =>
      obtain ⟨c, hupd, rfl⟩ := liftStore_error.mp hcont
      obtain ⟨-, hagree, hfree, hsame⟩ := updateNode_failed hupd
      exact ⟨hagree, hfree, hsame, rfl, rfl⟩

/-! ## Linking a new node -/

/-- The slot of a node that was written. -/
theorem writeNode_written {s s' : VenomFuse σ} {n : VaultNode} {slot : Nat}
    (hdata : ∀ t ∈ free s.container, IsDataSlot s.container t)
    (h : (liftStore (writeNode n)).run s = .ok slot s') :
    s' = { s with container := s'.container } ∧ free s.container = free s'.container ++ [slot] ∧
      nodes s'.container slot = some n ∧ NodesAgreeExcept slot s.container s'.container ∧
      SameVolume s.container s'.container ∧ slot ∈ free s.container := by
  obtain ⟨c, hwrite, rfl⟩ := liftStore_ok.mp h
  have hmem := LawfulNodeStore.writeNode_ok_free (writeNode_store hwrite)
  obtain ⟨hfree, -, hnode, hothers, hsame⟩ :=
    LawfulNodeStore.writeNode_ok (writeNode_store hwrite) (hdata slot hmem)
  exact ⟨rfl, hfree, hnode, hothers, hsame, hmem⟩

/-- A node that fits is not written only for want of a slot. -/
theorem writeNode_unchanged {s s' : VenomFuse σ} {n : VaultNode} {e : Failure}
    (hfits : Fits (NodeStore.cipher s.container) n)
    (h : (liftStore (writeNode n)).run s = .error e s') : Unchanged s s' := by
  obtain ⟨c, hwrite, rfl⟩ := liftStore_error.mp h
  obtain ⟨e', hrun⟩ := writeNode_failed hwrite
  obtain ⟨hagree, hsame, ⟨hnil, hnil'⟩ | ⟨_, -, hno⟩⟩ := LawfulNodeStore.writeNode_error hrun
  · exact ⟨hagree, by rw [hnil, hnil'], hsame, rfl, rfl⟩
  · exact absurd hfits hno

/-- A node that is not linked goes back to the free list. -/
theorem linkOrFree_error {s s' : VenomFuse σ} {parent slot : Nat} {entry : DirEntry} {e : Failure}
    (h : (linkOrFree parent slot entry).run s = .error e s') :
    ∃ s₁, Unchanged s s₁ ∧ s' = { s₁ with container := NodeStore.freeNode slot s₁.container } := by
  change linkOrFree parent slot entry s = _ at h
  unfold linkOrFree at h
  split at h
  next => cases h
  next hadd => cases h; exact ⟨_, dirAddEntry_error hadd, rfl⟩

end Venom.Fuse
