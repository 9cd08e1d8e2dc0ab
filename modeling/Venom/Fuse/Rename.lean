import Venom.Fuse.Directory
import Venom.Fuse.Reached
import Venom.Storage.NodeSize

/-! # A failed rename

A rename takes the entry out of its directory first and links the node under its new name
afterwards.  Only a failure before the entry is out leaves everything as it was: there is
no way back from a node that cannot be read, a new parent that is no directory, or a new
directory block that does not fit its slot.
-/

namespace Venom.Fuse

open Venom.Storage
open Venom.Library
open Venom.Library.StateError

/-- The directory block a rename writes: the old entry of the name goes, the node comes last. -/
def linked (dest : DirectoryBlock) (newname : String) (moved : Nat) (node : VaultNode) :
    DirectoryBlock :=
  withEntry (without dest newname) { name := newname, slot := moved, kind := kindOf node }

/-- The block takes at least the bytes of the new name. -/
theorem name_le_linked (dest : DirectoryBlock) (newname : String) (moved : Nat) (node : VaultNode) :
    (utf8 newname).length ≤ encodedLen (.directory (linked dest newname moved node)) := by
  have hmem : ⟨newname, moved, kindOf node⟩ ∈ (linked dest newname moved node).entries :=
    List.mem_append_right _ List.mem_cons_self
  exact name_le_encodedLen hmem

variable {σ : Type} [NodeStore σ] [NodeView σ]

/-- The state after a replaced entry's slot and inode are given up. -/
def vacated (old : Option DirEntry) (s : VenomFuse σ) : VenomFuse σ :=
  match old with
  | none => s
  | some e =>
    { s with
      container := NodeStore.freeNode e.slot s.container
      inodes := s.inodes.removeSlot e.slot }

/-- The second half of a rename: the node `moved` gets its new name. -/
def linkMoved (npSlot : Nat) (newname : String) (moved : Nat) : FuseM σ Unit := do
  let node ← liftStore (readNode moved)
  let dest ← readDirBlock npSlot
  let dest ← replaceEntry dest newname
  let entry : DirEntry := { name := newname, slot := moved, kind := kindOf node }
  liftStore (updateNode npSlot (.directory { dest with entries := dest.entries ++ [entry] }))

omit [NodeView σ] in
theorem opRename_eq (parent : Nat) (name : String) (newparent : Nat) (newname : String) :
    (opRename parent name newparent newname : FuseM σ Unit) = (do
      let pSlot ← slotOfIno parent
      let npSlot ← slotOfIno newparent
      let moved ← dirRemoveEntry pSlot name
      linkMoved npSlot newname moved) := rfl

omit [NodeView σ] in
theorem replaceEntry_run (dest : DirectoryBlock) (newname : String) (s : VenomFuse σ) :
    (replaceEntry dest newname).run s =
      .ok (without dest newname) (vacated (entryOf dest newname) s) := by
  unfold replaceEntry
  cases hfind : dest.entries.find? (fun e => decide (e.name = newname)) with
  | none =>
    have hnone : entryOf dest newname = none := hfind
    rw [without_eq_self hnone, hnone]
    rfl
  | some old =>
    have hsome : entryOf dest newname = some old := hfind
    rw [hsome]
    rfl

section Linking

variable [LawfulNodeStore σ] {s s' : VenomFuse σ} {npSlot moved : Nat} {newname : String}

/-- Giving up an entry's slot frees it and touches nothing else. -/
theorem vacated_some {s : VenomFuse σ} {e : DirEntry} (he : IsDataSlot s.container e.slot) :
    free (vacated (some e) s).container = insertFree e.slot (free s.container) ∧
      NodesAgreeExcept e.slot s.container (vacated (some e) s).container ∧
      SameVolume s.container (vacated (some e) s).container :=
  LawfulNodeStore.freeNode_spec s.container e.slot he

theorem vacated_same {old : Option DirEntry} (h : ∀ e ∈ old, IsDataSlot s.container e.slot) :
    SameVolume s.container (vacated old s).container := by
  cases old with
  | none => exact .refl _
  | some e => exact (vacated_some (h e rfl)).2.2

/-- Linking succeeds when the node and the directory are read and the new block fits. -/
theorem linkMoved_run {node : VaultNode} {dest : DirectoryBlock}
    (hmoved : IsDataSlot s.container moved) (hnp : IsDataSlot s.container npSlot)
    (hold : ∀ e ∈ entryOf dest newname, IsDataSlot s.container e.slot)
    (hnode : nodes s.container moved = some node)
    (hdest : nodes s.container npSlot = some (.directory dest))
    (hfits : Fits (NodeStore.cipher s.container) (.directory (linked dest newname moved node))) :
    ∃ c, (updateNode npSlot (.directory (linked dest newname moved node))).run
        (vacated (entryOf dest newname) s).container = .ok () c ∧
      (linkMoved npSlot newname moved).run s =
        .ok () { vacated (entryOf dest newname) s with container := c } := by
  rw [← (vacated_same hold).cipher] at hfits
  obtain ⟨c, hc⟩ := updateNode_run (s := npSlot) hfits
  refine ⟨c, hc, ?_⟩
  have hread : (liftStore (readNode moved)).run s = .ok node s :=
    liftStore_ok.mpr ⟨_, readNode_run hmoved hnode, rfl⟩
  rw [linkMoved, run_bind_of_ok hread, run_bind_of_ok (readDirBlock_run hnp hdest),
    run_bind_of_ok (replaceEntry_run dest newname s)]
  exact liftStore_ok.mpr ⟨c, hc, rfl⟩

/-- A successful link, in parts. -/
theorem linkMoved_ok (hmoved : IsDataSlot s.container moved) (hnp : IsDataSlot s.container npSlot)
    (h : (linkMoved npSlot newname moved).run s = .ok () s') :
    ∃ node dest, nodes s.container moved = some node ∧
      nodes s.container npSlot = some (.directory dest) ∧
      ∃ c, (updateNode npSlot (.directory (linked dest newname moved node))).run
          (vacated (entryOf dest newname) s).container = .ok () c ∧
        s' = { vacated (entryOf dest newname) s with container := c } := by
  obtain ⟨node, s₁, hread, h₁⟩ := run_bind_ok.mp h
  obtain ⟨c₁, hread', rfl⟩ := liftStore_ok.mp hread
  obtain ⟨rfl, hnode⟩ := readNode_inv hread'
  obtain ⟨dest, s₂, hdir, h₂⟩ := run_bind_ok.mp h₁
  obtain ⟨rfl, hdest⟩ := readDirBlock_ok hdir
  obtain ⟨dest', s₃, hrep, h₃⟩ := run_bind_ok.mp h₂
  rw [replaceEntry_run] at hrep
  cases hrep
  obtain ⟨c, hc, rfl⟩ := liftStore_ok.mp h₃
  exact ⟨node, dest, hnode hmoved, hdest hnp, c, hc, rfl⟩

/-- A failed link leaves the nodes and the free list, unless it has freed a slot. -/
theorem linkMoved_error {e : Failure} (hnp : IsDataSlot s.container npSlot)
    (hold : ∀ dest, nodes s.container npSlot = some (.directory dest) →
      ∀ e ∈ entryOf dest newname, IsDataSlot s.container e.slot)
    (h : (linkMoved npSlot newname moved).run s = .error e s') :
    (NodesAgree s.container s'.container ∧ free s'.container = free s.container) ∨
      (free s'.container).length = (free s.container).length + 1 := by
  rcases run_bind_error.mp h with hread | ⟨node, s₁, hread, h₁⟩
  · obtain ⟨c, hread', rfl⟩ := liftStore_error.mp hread
    obtain ⟨rfl, -⟩ := readNode_error hread'
    exact .inl ⟨fun _ _ => rfl, rfl⟩
  obtain ⟨c₁, hread', rfl⟩ := liftStore_ok.mp hread
  obtain ⟨rfl, -⟩ := readNode_inv hread'
  rcases run_bind_error.mp h₁ with hdir | ⟨dest, s₂, hdir, h₂⟩
  · obtain ⟨rfl, -⟩ := readDirBlock_error hdir
    exact .inl ⟨fun _ _ => rfl, rfl⟩
  obtain ⟨rfl, hdest⟩ := readDirBlock_ok hdir
  rcases run_bind_error.mp h₂ with hrep | ⟨dest', s₃, hrep, h₃⟩
  · rw [replaceEntry_run] at hrep
    cases hrep
  rw [replaceEntry_run] at hrep
  cases hrep
  obtain ⟨c, hc, rfl⟩ := liftStore_error.mp h₃
  obtain ⟨-, hagree, hfree, -⟩ := updateNode_failed hc
  -- the update changed nothing; what happened before depends on the replaced entry
  cases hentry : entryOf dest newname with
  | none =>
    rw [hentry] at hagree hfree
    exact .inl ⟨hagree, hfree⟩
  | some old =>
    rw [hentry] at hfree
    have hfreed := (vacated_some (hold dest (hdest hnp) old hentry)).1
    refine .inr ?_
    simp only [hfree, hfreed, insertFree, List.orderedInsert_length]

end Linking

/-! ## Failing renames -/

/-- Once the entry is out of its directory, the rename goes through: the node is read, the
    new parent is a directory, and its block with the entry fits. -/
def Completes (s : VenomFuse σ) (parent : Nat) (name : String) (newparent : Nat)
    (newname : String) : Prop :=
  ∀ pSlot npSlot d e, s.inodes.slotOf parent = some pSlot →
    s.inodes.slotOf newparent = some npSlot →
    nodes s.container pSlot = some (.directory d) → entryOf d name = some e →
    Fits (NodeStore.cipher s.container) (.directory (without d name)) →
    ∃ node dest, nodes s.container e.slot = some node ∧
      nodes s.container npSlot = some (.directory dest) ∧
      Fits (NodeStore.cipher s.container) (.directory
        (linked (if npSlot = pSlot then without d name else dest) newname e.slot node))

section Failing

variable {s s₁ : VenomFuse σ} {pSlot npSlot : Nat} {d dest : DirectoryBlock}
  {name newname : String} {e : DirEntry}

/-- The kind of the moved node is the same before and after the entry is taken out. -/
theorem Removed.node_iff {D : Nat → Prop} (hs : DriverWithin D s) (h : Removed s s₁ pSlot d name e)
    {t : Nat} (ht : D t) :
    (∀ node, nodes s.container t = some node →
      ∃ node', nodes s₁.container t = some node' ∧ kindOf node' = kindOf node) ∧
    (nodes s.container t = none → nodes s₁.container t = none) := by
  have hdata : IsDataSlot s.container t := by rw [hs.container.dataSlot]; exact ht
  by_cases hp : t = pSlot
  · subst hp
    refine ⟨fun node hnode => ?_, fun hnone => ?_⟩
    · rw [h.dir] at hnode
      cases hnode
      exact ⟨_, h.node, rfl⟩
    · rw [h.dir] at hnone; cases hnone
  · rw [h.others t hdata hp]
    exact ⟨fun node hnode => ⟨node, hnode, rfl⟩, id⟩

/-- The block of the new parent once the entry is out. -/
theorem Removed.dest_eq {D : Nat → Prop} (hs : DriverWithin D s) (h : Removed s s₁ pSlot d name e)
    (hnp : D npSlot) (hdest : nodes s.container npSlot = some (.directory dest)) :
    nodes s₁.container npSlot =
      some (.directory (if npSlot = pSlot then without d name else dest)) := by
  split
  next heq => rw [heq]; exact h.node
  next hne => rw [h.others npSlot (by rw [hs.container.dataSlot]; exact hnp) hne, hdest]

variable [LawfulNodeStore σ]

theorem linked_congr {node node' : VaultNode} (h : kindOf node' = kindOf node) (moved : Nat) :
    linked dest newname moved node' = linked dest newname moved node := by
  rw [linked, h, linked]

/-- Linking after the entry is out, said of the state before. -/
theorem Removed.links_iff {D : Nat → Prop} (hs : DriverWithin D s)
    (h : Removed s s₁ pSlot d name e) (hp : D pSlot) (hnp : D npSlot) :
    (∃ s', (linkMoved npSlot newname e.slot).run s₁ = .ok () s') ↔
      ∃ node dest, nodes s.container e.slot = some node ∧
        nodes s.container npSlot = some (.directory dest) ∧
        Fits (NodeStore.cipher s.container) (.directory
          (linked (if npSlot = pSlot then without d name else dest) newname e.slot node)) := by
  have hdata : ∀ t, D t → IsDataSlot s.container t := fun t ht => by
    rw [hs.container.dataSlot]; exact ht
  have hdata₁ : ∀ t, D t → IsDataSlot s₁.container t := fun t ht =>
    h.same.isDataSlot.mpr (hdata t ht)
  have hslots : ∀ t b, D t → nodes s.container t = some (.directory b) → ∀ e ∈ b.entries, D e.slot :=
    fun t b ht hb e he => hs.container.refs t _ ht hb _ (List.mem_map_of_mem he)
  have hmoved : D e.slot := hslots pSlot d hp h.dir e (entryOf_mem h.entry).1
  constructor
  · rintro ⟨s', hlink⟩
    obtain ⟨node₁, dest₁, hnode₁, hdest₁, c, hupd, -⟩ :=
      linkMoved_ok (hdata₁ _ hmoved) (hdata₁ _ hnp) hlink
    -- what is read after the removal was there before it
    cases hnode : nodes s.container e.slot with
    | none => rw [(h.node_iff hs hmoved).2 hnode] at hnode₁; cases hnode₁
    | some node =>
      obtain ⟨node', hnode', hkind⟩ := (h.node_iff hs hmoved).1 node hnode
      obtain rfl : node' = node₁ := Option.some.inj (hnode'.symm.trans hnode₁)
      obtain ⟨dest, hdest⟩ : ∃ dest, nodes s.container npSlot = some (.directory dest) := by
        by_cases heq : npSlot = pSlot
        · exact ⟨d, heq ▸ h.dir⟩
        · exact ⟨dest₁, by rw [← h.others npSlot (hdata _ hnp) heq]; exact hdest₁⟩
      have hsame := (h.dest_eq hs hnp hdest).symm.trans hdest₁
      simp only [Option.some.injEq, VaultNode.directory.injEq] at hsame
      refine ⟨node, dest, rfl, hdest, ?_⟩
      have hold : ∀ o ∈ entryOf dest₁ newname, IsDataSlot s₁.container o.slot := by
        intro o ho
        have hmem := (entryOf_mem ho).1
        rw [← hsame] at hmem
        split at hmem
        · exact hdata₁ _ (hslots pSlot d hp h.dir o (List.mem_of_mem_eraseP hmem))
        · exact hdata₁ _ (hslots npSlot dest hnp hdest o hmem)
      have hvac := vacated_same hold
      obtain ⟨hfits, -⟩ := LawfulNodeStore.updateNode_ok (updateNode_store hupd)
        (hvac.isDataSlot.mpr (hdata₁ _ hnp))
      rw [hvac.cipher, h.same.cipher, linked_congr hkind, ← hsame] at hfits
      exact hfits
  · rintro ⟨node, dest, hnode, hdest, hfits⟩
    obtain ⟨node', hnode', hkind⟩ := (h.node_iff hs hmoved).1 node hnode
    rw [← linked_congr hkind, ← h.same.cipher] at hfits
    have hold : ∀ o ∈ entryOf (if npSlot = pSlot then without d name else dest) newname,
        IsDataSlot s₁.container o.slot := by
      intro o ho
      have hmem := (entryOf_mem ho).1
      split at hmem
      · exact hdata₁ _ (hslots pSlot d hp h.dir o (List.mem_of_mem_eraseP hmem))
      · exact hdata₁ _ (hslots npSlot dest hnp hdest o hmem)
    obtain ⟨c, -, hlink⟩ := linkMoved_run (hdata₁ _ hmoved) (hdata₁ _ hnp) hold hnode'
      (h.dest_eq hs hnp hdest) hfits
    exact ⟨_, hlink⟩

/-- A link that fails after the entry is out leaves the change behind. -/
theorem Removed.not_unchanged {D : Nat → Prop} {s' : VenomFuse σ} {err : Failure}
    (hs : DriverWithin D s) (h : Removed s s₁ pSlot d name e) (hp : D pSlot) (hnp : D npSlot)
    (hrun : (linkMoved npSlot newname e.slot).run s₁ = .error err s') : ¬ Unchanged s s' := by
  intro hsame
  have hdata : ∀ t, D t → IsDataSlot s.container t := fun t ht => by
    rw [hs.container.dataSlot]; exact ht
  have hdata₁ : ∀ t, D t → IsDataSlot s₁.container t := fun t ht =>
    h.same.isDataSlot.mpr (hdata t ht)
  have hold : ∀ dest, nodes s₁.container npSlot = some (.directory dest) →
      ∀ o ∈ entryOf dest newname, IsDataSlot s₁.container o.slot := by
    intro dest hdest o ho
    have hmem := (entryOf_mem ho).1
    apply hdata₁
    by_cases heq : npSlot = pSlot
    · rw [heq, h.node] at hdest
      cases hdest
      exact hs.container.refs pSlot _ hp h.dir _ (List.mem_map_of_mem (List.mem_of_mem_eraseP hmem))
    · rw [h.others npSlot (hdata _ hnp) heq] at hdest
      exact hs.container.refs npSlot _ hnp hdest _ (List.mem_map_of_mem hmem)
  rcases linkMoved_error (hdata₁ _ hnp) hold hrun with ⟨hagree, -⟩ | hlen
  · have hdir := hsame.nodes pSlot (hdata _ hp)
    rw [hagree pSlot (hdata₁ _ hp), h.node, h.dir] at hdir
    exact without_ne_self h.entry (VaultNode.directory.inj (Option.some.inj hdir))
  · rw [hsame.free, h.free] at hlen
    omega

end Failing

variable [WipingNodeStore σ]

/-- A failed rename leaves everything as it was exactly when nothing can fail once the entry
    is out of its directory. -/
theorem failed_rename_unchanged {root : Nat} {s : VenomFuse σ} (hr : Reached root s)
    (parent : Nat) (name : String) (newparent : Nat) (newname : String) :
    (∀ e s', (opRename parent name newparent newname).run s = .error e s' → Unchanged s s') ↔
      Completes s parent name newparent newname := by
  obtain ⟨hs, -⟩ := hr.within
  constructor
  · intro hunchanged pSlot npSlot d e hp hnp hdir hentry hfits
    have hpdata := hs.inodes parent pSlot hp
    have hnpdata := hs.inodes newparent npSlot hnp
    obtain ⟨s₁, hremove⟩ := dirRemoveEntry_run hpdata hdir hentry hfits
    have hrun : (opRename parent name newparent newname).run s =
        (linkMoved npSlot newname e.slot).run s₁ := by
      rw [opRename_eq, run_bind_of_ok (slotOfIno_ok.mpr ⟨hp, rfl⟩),
        run_bind_of_ok (slotOfIno_ok.mpr ⟨hnp, rfl⟩), run_bind_of_ok hremove]
    obtain ⟨d', e', hremoved, -⟩ := dirRemoveEntry_ok hpdata hremove
    obtain rfl : d' = d := by
      have := hremoved.dir.symm.trans hdir
      simpa using this
    obtain rfl : e' = e := Option.some.inj (hremoved.entry.symm.trans hentry)
    refine (hremoved.links_iff hs hpdata hnpdata).mp ?_
    rcases run_cases (linkMoved npSlot newname e'.slot) s₁ with ⟨_, hok⟩ | ⟨err, herror⟩
    · exact ⟨_, hok⟩
    · exact absurd (hunchanged err _ (hrun.trans herror))
        (hremoved.not_unchanged hs hpdata hnpdata herror)
  · intro hcompletes err s' hrun
    rw [opRename_eq] at hrun
    rcases run_bind_error.mp hrun with hp | ⟨pSlot, s₁, hp, hrun₁⟩
    · rw [slotOfIno_error hp]; exact .refl _
    obtain ⟨hp', rfl⟩ := slotOfIno_ok.mp hp
    rcases run_bind_error.mp hrun₁ with hnp | ⟨npSlot, s₂, hnp, hrun₂⟩
    · rw [slotOfIno_error hnp]; exact .refl _
    obtain ⟨hnp', rfl⟩ := slotOfIno_ok.mp hnp
    have hpdata := hs.inodes parent pSlot hp'
    have hnpdata := hs.inodes newparent npSlot hnp'
    rcases run_bind_error.mp hrun₂ with hremove | ⟨removed, s₃, hremove, hlink⟩
    · exact dirRemoveEntry_error hremove
    -- past this point nothing can fail
    obtain ⟨d, e, hremoved, rfl⟩ := dirRemoveEntry_ok hpdata hremove
    obtain ⟨s₄, hok⟩ := (hremoved.links_iff hs hpdata hnpdata).mpr
      (hcompletes pSlot npSlot d e hp' hnp' hremoved.dir hremoved.entry hremoved.fits)
    rw [hok] at hlink
    cases hlink

/-! ## A name too long -/

/-- A file gets another name in its directory: were the call to fail, nothing would change. -/
theorem failed_rename_unchanged_notes : Completes withNotes 1 "notes" 1 "letters" ∧
    ∀ e s', (opRename 1 "notes" 1 "letters").run withNotes = .error e s' →
      Unchanged withNotes s' := by
  have hcompletes : Completes withNotes 1 "notes" 1 "letters" := by
    intro pSlot npSlot d e hp hnp hdir hentry _
    obtain rfl : pSlot = 0 := Option.some.inj (hp.symm.trans withNotes_root)
    obtain rfl : npSlot = 0 := Option.some.inj (hnp.symm.trans withNotes_root)
    rw [withNotes_dir] at hdir
    cases hdir
    obtain rfl : e = ⟨"notes", 1, .file⟩ := (Option.some.inj hentry).symm
    exact ⟨.file { kind := .file, totalSize := 0, dataSlots := [], indexChain := none, data := [] },
      _, by decide +kernel, withNotes_dir, by decide +kernel⟩
  exact ⟨hcompletes,
    (failed_rename_unchanged withNotes_reached 1 "notes" 1 "letters").mpr hcompletes⟩

/-- A name of `2 ^ n` bytes. -/
def longName : Nat → String
  | 0 => "x"
  | n + 1 => longName n ++ longName n

theorem length_longName (n : Nat) : (utf8 (longName n)).length = 2 ^ n := by
  rw [length_utf8]
  induction n with
  | zero => rfl
  | succ n ih => rw [longName, String.utf8ByteSize_append, ih]; omega

/-- A rename to a name that fits no slot fails, and the file is gone from its directory. -/
theorem failed_rename_loses_entry : ¬ ∀ (root : Nat) (s : VenomFuse Volume) (parent : Nat)
    (name : String) (newparent : Nat) (newname : String), Reached root s →
    ∀ e s', (opRename parent name newparent newname).run s = .error e s' → Unchanged s s' := by
  intro h
  have hfit : Fits (NodeStore.cipher withNotes.container)
      (.directory (without { kind := .directory, entries := [⟨"notes", 1, .file⟩] } "notes")) := by
    decide +kernel
  have hentry : entryOf { kind := .directory, entries := [⟨"notes", 1, .file⟩] } "notes" =
      some ⟨"notes", 1, .file⟩ := rfl
  obtain ⟨hs, -⟩ := withNotes_reached.within
  have hdata := hs.inodes 1 0 withNotes_root
  obtain ⟨s₁, hremove⟩ := dirRemoveEntry_run hdata withNotes_dir hentry hfit
  obtain ⟨d, e, hremoved, he⟩ := dirRemoveEntry_ok hdata hremove
  obtain rfl : d = _ := VaultNode.directory.inj (Option.some.inj (hremoved.dir.symm.trans withNotes_dir))
  obtain rfl : e = _ := Option.some.inj (hremoved.entry.symm.trans hentry)
  have hrun : (opRename 1 "notes" 1 (longName 16)).run withNotes =
      (linkMoved 0 (longName 16) 1).run s₁ := by
    rw [opRename_eq, run_bind_of_ok (slotOfIno_ok.mpr ⟨withNotes_root, rfl⟩),
      run_bind_of_ok (slotOfIno_ok.mpr ⟨withNotes_root, rfl⟩), run_bind_of_ok hremove]
  rcases run_cases (linkMoved 0 (longName 16) 1) s₁ with ⟨_, hok⟩ | ⟨err, herror⟩
  · -- the block would have to hold the name
    obtain ⟨node, dest, -, -, hfits⟩ := (hremoved.links_iff hs hdata hdata).mp ⟨_, hok⟩
    have hlen := (name_le_linked _ _ _ _).trans (Nat.le_of_add_right_le (Nat.le_of_add_right_le hfits.2))
    rw [length_longName] at hlen
    exact absurd hlen (by decide)
  · exact hremoved.not_unchanged hs hdata hdata herror
      (h 0 withNotes 1 "notes" 1 (longName 16) withNotes_reached err _ (hrun.trans herror))

end Venom.Fuse
