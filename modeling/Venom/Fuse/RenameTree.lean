import Venom.Fuse.Namespace
import Venom.Fuse.Rename
import Venom.Fuse.Unlink

/-! # A successful rename on the tree

A rename that succeeds moves a node with everything below it.  What was under the new name
before has its head freed and nothing else: the slots of a longer file stay behind, and
whatever hung below a directory is lost.
-/

namespace Venom.Fuse

open Venom.Storage
open Venom.Library
open Venom.Library.NameTree
open Venom.Library.StateError

variable {σ : Type} [NodeStore σ] [NodeView σ]

/-! ## What a rename does to the nodes -/

/-- The node whose place a rename takes. -/
def replaced (nodes : Nat → Option VaultNode) (pSlot : Nat) (name : String) (npSlot : Nat)
    (newname : String) : Option Nat :=
  if npSlot = pSlot ∧ newname = name then none else child nodes npSlot newname

/-- The entry of `name` is taken out of a directory, and its node is linked under `newname` in
    place of what was there. -/
structure Relinked (s s' : VenomFuse σ) (pSlot : Nat) (name : String) (npSlot : Nat)
    (newname : String) (d dest : DirectoryBlock) (e : DirEntry) (node : VaultNode) : Prop where
  dir : nodes s.container pSlot = some (.directory d)
  entry : entryOf d name = some e
  kind : (nodes s.container e.slot).map kindOf = some (kindOf node)
  destDir : nodes s.container npSlot = some (.directory dest)
  new : nodes s'.container npSlot = some (.directory
    (linked (if npSlot = pSlot then without d name else dest) newname e.slot node))
  source : pSlot ≠ npSlot → replaced (nodes s.container) pSlot name npSlot newname ≠ some pSlot →
    nodes s'.container pSlot = some (.directory (without d name))
  others : ∀ t, IsDataSlot s.container t → t ≠ pSlot → t ≠ npSlot →
    replaced (nodes s.container) pSlot name npSlot newname ≠ some t →
    nodes s'.container t = nodes s.container t
  free : ∀ t, t ∈ free s'.container ↔
    replaced (nodes s.container) pSlot name npSlot newname = some t ∨ t ∈ free s.container
  same : SameVolume s.container s'.container

/-- Where freed slots are wiped, nothing is left of what was replaced. -/
structure Renamed (s s' : VenomFuse σ) (pSlot : Nat) (name : String) (npSlot : Nat)
    (newname : String) (d dest : DirectoryBlock) (e : DirEntry) (node : VaultNode) : Prop
    extends Relinked s s' pSlot name npSlot newname d dest e node where
  wiped : ∀ o ∈ replaced (nodes s.container) pSlot name npSlot newname, o ≠ npSlot →
    nodes s'.container o = none

/-- What else a rename changes: the slot of what it replaces is free, and has no inode. -/
structure Vacates (s s' : VenomFuse σ) (o : Option Nat) : Prop where
  free : free s'.container = o.elim (free s.container) (insertFree · (free s.container))
  state : s' = { s with
    container := s'.container
    inodes := o.elim s.inodes s.inodes.removeSlot }

section Parts

variable {s s' s₁ : VenomFuse σ} {parent newparent pSlot npSlot : Nat}
  {name newname : String} {d dest : DirectoryBlock} {e : DirEntry} {node : VaultNode}

omit [NodeStore σ] in
theorem entryOf_replaced (hd : nodes s.container pSlot = some (.directory d))
    (hunique : UniqueNames d) (hdest : nodes s.container npSlot = some (.directory dest)) :
    (entryOf (if npSlot = pSlot then without d name else dest) newname).map (·.slot) =
      replaced (nodes s.container) pSlot name npSlot newname := by
  unfold replaced
  rw [child_directory hdest]
  by_cases hsame : npSlot = pSlot
  · rw [hsame, hd] at hdest
    cases hdest
    by_cases hname : newname = name
    · rw [if_pos hsame, if_pos ⟨hsame, hname⟩, hname, entryOf_without_self hunique]
      rfl
    · rw [if_pos hsame, if_neg fun h => hname h.2, entryOf_without_ne hname]
  · rw [if_neg hsame, if_neg fun h => hsame h.1]

variable [LawfulNodeStore σ]

/-- A successful rename, in parts: an entry is taken out, another one is given up if the new name
    has one, and the new directory is written once. -/
theorem opRename_ok (hp : s.inodes.slotOf parent = some pSlot)
    (hnp : s.inodes.slotOf newparent = some npSlot) (hpdata : IsDataSlot s.container pSlot)
    (hnpdata : IsDataSlot s.container npSlot)
    (hslots : ∀ t b, t = pSlot ∨ t = npSlot → nodes s.container t = some (.directory b) →
      ∀ e ∈ b.entries, IsDataSlot s.container e.slot)
    (hunique : ∀ d, nodes s.container pSlot = some (.directory d) → UniqueNames d)
    (hrun : (opRename parent name newparent newname).run s = .ok () s') :
    ∃ d dest e node s₁ c, ∃ old : Option DirEntry, Removed s s₁ pSlot d name e ∧
      (nodes s.container e.slot).map kindOf = some (kindOf node) ∧
      nodes s.container npSlot = some (.directory dest) ∧
      old.map (·.slot) = replaced (nodes s.container) pSlot name npSlot newname ∧
      (∀ o ∈ old, IsDataSlot s.container o.slot) ∧
      (updateNode npSlot (.directory
        (linked (if npSlot = pSlot then without d name else dest) newname e.slot node))).run
        (vacated old s₁).container = .ok () c ∧
      s' = { vacated old s₁ with container := c } := by
  rw [opRename_eq, run_bind_of_ok (slotOfIno_ok.mpr ⟨hp, rfl⟩),
    run_bind_of_ok (slotOfIno_ok.mpr ⟨hnp, rfl⟩)] at hrun
  obtain ⟨moved, s₁, hremove, hlink⟩ := run_bind_ok.mp hrun
  obtain ⟨d, e, hrem, rfl⟩ := dirRemoveEntry_ok hpdata hremove
  have he := hslots pSlot d (.inl rfl) hrem.dir e (entryOf_mem hrem.entry).1
  obtain ⟨node, dest₁, hnode, hdest₁, c, hupd, rfl⟩ :=
    linkMoved_ok (hrem.same.isDataSlot.mpr he) (hrem.same.isDataSlot.mpr hnpdata) hlink
  -- the moved node may be the old directory, and then it has lost an entry
  have hkind : (nodes s.container e.slot).map kindOf = some (kindOf node) := by
    by_cases hep : e.slot = pSlot
    · rw [hep, hrem.node] at hnode
      cases hnode
      rw [hep, hrem.dir]
      rfl
    · rw [← hrem.others e.slot he hep, hnode, Option.map_some]
  obtain ⟨dest, hdest⟩ : ∃ dest, nodes s.container npSlot = some (.directory dest) := by
    by_cases heq : npSlot = pSlot
    · exact ⟨d, heq ▸ hrem.dir⟩
    · exact ⟨dest₁, by rw [← hrem.others npSlot hnpdata heq]; exact hdest₁⟩
  have hbase : dest₁ = if npSlot = pSlot then without d name else dest := by
    split
    next heq =>
      rw [heq, hrem.node] at hdest₁
      exact (VaultNode.directory.inj (Option.some.inj hdest₁)).symm
    next hne =>
      rw [hrem.others npSlot hnpdata hne, hdest] at hdest₁
      exact (VaultNode.directory.inj (Option.some.inj hdest₁)).symm
  subst hbase
  refine ⟨d, dest, e, node, s₁, c, _, hrem, hkind, hdest,
    entryOf_replaced hrem.dir (hunique d hrem.dir) hdest, fun o ho => ?_, hupd, rfl⟩
  have hmem := (entryOf_mem ho).1
  split at hmem
  next heq => exact hslots pSlot d (.inl rfl) hrem.dir o (List.mem_of_mem_eraseP hmem)
  next => exact hslots npSlot dest (.inr rfl) hdest o hmem

/-- The parts together. -/
theorem Removed.relinked (hrem : Removed s s₁ pSlot d name e)
    (hkind : (nodes s.container e.slot).map kindOf = some (kindOf node))
    (hpdata : IsDataSlot s.container pSlot) (hnpdata : IsDataSlot s.container npSlot)
    (hdest : nodes s.container npSlot = some (.directory dest)) {old : Option DirEntry}
    (hold : old.map (·.slot) = replaced (nodes s.container) pSlot name npSlot newname)
    (hreplaced : ∀ o ∈ old, IsDataSlot s.container o.slot) {c : σ}
    (hupd : (updateNode npSlot (.directory
      (linked (if npSlot = pSlot then without d name else dest) newname e.slot node))).run
      (vacated old s₁).container = .ok () c) :
    Relinked s { vacated old s₁ with container := c } pSlot name npSlot newname d dest e node ∧
      Vacates s { vacated old s₁ with container := c }
        (replaced (nodes s.container) pSlot name npSlot newname) := by
  have hdata₁ : ∀ {t}, IsDataSlot s.container t → IsDataSlot s₁.container t := hrem.same.isDataSlot.mpr
  have hvac : SameVolume s₁.container (vacated old s₁).container :=
    vacated_same fun o ho => hdata₁ (hreplaced o ho)
  obtain ⟨-, hnew, hfree, hothers, hsame⟩ :=
    LawfulNodeStore.updateNode_ok (updateNode_store hupd) (hvac.isDataSlot.mpr (hdata₁ hnpdata))
  have hkept : ∀ t, IsDataSlot s.container t → t ≠ npSlot → some t ≠ old.map (·.slot) →
      nodes c t = nodes s₁.container t := fun t ht hne hto => by
    refine (hothers t (hvac.isDataSlot.mpr (hdata₁ ht)) hne).trans ?_
    cases old with
    | none => rfl
    | some o =>
      exact (vacated_some (hdata₁ (hreplaced o rfl))).2.1 t (hdata₁ ht) fun heq => hto (by rw [heq]; rfl)
  have hvacates : Vacates s { vacated old s₁ with container := c }
      (replaced (nodes s.container) pSlot name npSlot newname) := by
    rw [← hold]
    cases old with
    | none => exact ⟨hfree.trans hrem.free, by rw [hrem.state]; rfl⟩
    | some o =>
      refine ⟨?_, ?_⟩
      · change Storage.free c = insertFree o.slot (Storage.free s.container)
        rw [hfree, (vacated_some (hdata₁ (hreplaced o rfl))).1, hrem.free]
      · rw [hrem.state]
        rfl
  refine ⟨⟨hrem.dir, hrem.entry, hkind, hdest, hnew, fun hne hno => ?_, fun t ht htp htnp hno => ?_,
    fun t => ?_, (hrem.same.trans hvac).trans hsame⟩, hvacates⟩
  · exact (hkept pSlot hpdata hne (by rw [hold]; exact Ne.symm hno)).trans hrem.node
  · exact (hkept t ht htnp (by rw [hold]; exact Ne.symm hno)).trans (hrem.others t ht htp)
  · rw [hvacates.free]
    cases replaced (nodes s.container) pSlot name npSlot newname with
    | none => simp
    | some o => simp [mem_insertFree, eq_comm]

theorem opRename_relinked (hp : s.inodes.slotOf parent = some pSlot)
    (hnp : s.inodes.slotOf newparent = some npSlot) (hpdata : IsDataSlot s.container pSlot)
    (hnpdata : IsDataSlot s.container npSlot)
    (hslots : ∀ t b, t = pSlot ∨ t = npSlot → nodes s.container t = some (.directory b) →
      ∀ e ∈ b.entries, IsDataSlot s.container e.slot)
    (hunique : ∀ d, nodes s.container pSlot = some (.directory d) → UniqueNames d)
    (hrun : (opRename parent name newparent newname).run s = .ok () s') :
    ∃ d dest e node, Relinked s s' pSlot name npSlot newname d dest e node ∧
      Vacates s s' (replaced (nodes s.container) pSlot name npSlot newname) := by
  obtain ⟨d, dest, e, node, s₁, c, old, hrem, hkind, hdest, hold, hreplaced, hupd, rfl⟩ :=
    opRename_ok hp hnp hpdata hnpdata hslots hunique hrun
  exact ⟨d, dest, e, node, hrem.relinked hkind hpdata hnpdata hdest hold hreplaced hupd⟩

end Parts

section Renaming

variable {D : Nat → Prop} {s s' : VenomFuse σ} {parent newparent pSlot npSlot : Nat}
  {name newname : String}

omit [NodeStore σ] in
/-- In a state within its volume the entries of a directory lead to slots of the volume. -/
theorem DriverWithin.entries (hs : DriverWithin D s) {t : Nat} {b : DirectoryBlock} (ht : D t)
    (hb : nodes s.container t = some (.directory b)) :
    ∀ e ∈ b.entries, IsDataSlot s.container e.slot := fun e he => by
  rw [hs.container.dataSlot]
  exact hs.container.refs t _ ht hb _ (List.mem_map_of_mem he)

variable [WipingNodeStore σ]

theorem opRename_renamed (hs : DriverWithin D s) (hp : s.inodes.slotOf parent = some pSlot)
    (hnp : s.inodes.slotOf newparent = some npSlot)
    (hunique : ∀ d, nodes s.container pSlot = some (.directory d) → UniqueNames d)
    (hrun : (opRename parent name newparent newname).run s = .ok () s') :
    ∃ d dest e node, Renamed s s' pSlot name npSlot newname d dest e node := by
  have hpD := hs.inodes parent pSlot hp
  have hnpD := hs.inodes newparent npSlot hnp
  have hdata : ∀ t, D t → IsDataSlot s.container t := fun t ht => by
    rw [hs.container.dataSlot]; exact ht
  obtain ⟨d, dest, e, node, s₁, c, old, hrem, hkind, hdest, hold, hreplaced, hupd, rfl⟩ :=
    opRename_ok hp hnp (hdata _ hpD) (hdata _ hnpD)
      (fun t b ht => hs.entries (by obtain rfl | rfl := ht <;> assumption)) hunique hrun
  have hrelinked := (hrem.relinked hkind (hdata _ hpD) (hdata _ hnpD) hdest hold hreplaced hupd).1
  refine ⟨d, dest, e, node, hrelinked, fun x hx hne => ?_⟩
  rw [← hold] at hx
  obtain ⟨o, rfl, rfl⟩ := Option.map_eq_some_iff.mp hx
  have ho := hrem.same.isDataSlot.mpr (hreplaced o rfl)
  have hvac := (vacated_some ho).2.2
  obtain ⟨-, -, -, hothers, -⟩ := LawfulNodeStore.updateNode_ok (updateNode_store hupd)
    (hvac.isDataSlot.mpr (hrem.same.isDataSlot.mpr (hdata _ hnpD)))
  exact (hothers _ (hvac.isDataSlot.mpr ho) hne).trans
    (WipingNodeStore.freeNode_wiped s₁.container o.slot ho)

/-- What a successful rename does to the free list and to the inodes. -/
theorem opRename_vacates (hs : DriverWithin D s) (hp : s.inodes.slotOf parent = some pSlot)
    (hnp : s.inodes.slotOf newparent = some npSlot)
    (hunique : ∀ d, nodes s.container pSlot = some (.directory d) → UniqueNames d)
    (hrun : (opRename parent name newparent newname).run s = .ok () s') :
    (replaced (nodes s.container) pSlot name npSlot newname = none →
      free s'.container = free s.container ∧ s'.inodes = s.inodes) ∧
    ∀ o, replaced (nodes s.container) pSlot name npSlot newname = some o →
      free s'.container = insertFree o (free s.container) ∧ s'.inodes = s.inodes.removeSlot o := by
  have hpD := hs.inodes parent pSlot hp
  have hnpD := hs.inodes newparent npSlot hnp
  have hdata : ∀ t, D t → IsDataSlot s.container t := fun t ht => by
    rw [hs.container.dataSlot]; exact ht
  obtain ⟨_, _, _, _, -, hfree, hstate⟩ := opRename_relinked hp hnp (hdata _ hpD) (hdata _ hnpD)
    (fun t b ht => hs.entries (by obtain rfl | rfl := ht <;> assumption)) hunique hrun
  refine ⟨fun hnone => ?_, fun o ho => ?_⟩
  · rw [hnone] at hfree hstate
    exact ⟨hfree, by rw [hstate]; rfl⟩
  · rw [ho] at hfree hstate
    exact ⟨hfree, by rw [hstate]; rfl⟩

end Renaming

/-! ## What the tree keeps -/

/-- The slots of a node: its own, and for a file those of its bytes and indexes. -/
inductive Occupies (s : VenomFuse σ) (u : Nat) : Nat → Prop
  | self : Occupies s u u
  | file {fb : FileBlock} {t : Nat} : nodes s.container u = some (.file fb) → Held s u fb t →
      Occupies s u t

/-- The node `moved`, at `name` in the directory at `path` before, is at `newname` in the
    directory at `path'`, and nothing else has changed but what was there. -/
structure Moved (root : Nat) (s s' : VenomFuse σ) (path : List String) (pSlot : Nat) (name : String)
    (path' : List String) (npSlot : Nat) (newname : String) : Prop where
  source : (npSlot = pSlot → newname ≠ name) → child (nodes s'.container) pSlot name = none
  moved : ∃ moved, child (nodes s.container) pSlot name = some moved ∧
    child (nodes s'.container) npSlot newname = some moved
  below : ∀ q, walk (child (nodes s'.container)) root (path' ++ [newname] ++ q) =
    walk (child (nodes s.container)) root (path ++ [name] ++ q)
  beside : ∀ q, ¬ path ++ [name] <+: q → ¬ path' ++ [newname] <+: q →
    walk (child (nodes s'.container)) root q = walk (child (nodes s.container)) root q
  /-- The blocks of the two directories hold no file's bytes. -/
  content : ∀ u, InTree s.container root u →
    replaced (nodes s.container) pSlot name npSlot newname ≠ some u →
    ∀ t, Occupies s u t → t ≠ pSlot → t ≠ npSlot → nodes s'.container t = nodes s.container t
  leaf : ∀ o ∈ replaced (nodes s.container) pSlot name npSlot newname, IsLeaf (nodes s.container) o
  reclaimed : ∀ o ∈ replaced (nodes s.container) pSlot name npSlot newname, ∀ t, Occupies s o t →
    nodes s'.container t = none ∧ t ∈ free s'.container

/-- A node whose place can be taken: a file or an empty directory, with no slot but its own
    that is not given up already, and with its own slot to itself. -/
structure Replaceable (root : Nat) (s : VenomFuse σ) (o : Nat) : Prop where
  leaf : IsLeaf (nodes s.container) o
  single : ∀ t, Occupies s o t → t ≠ o → nodes s.container t = none ∧ t ∈ free s.container
  apart : ∀ u, InTree s.container root u → Occupies s u o → u = o

section Relocating

variable {root : Nat} {s s' : VenomFuse σ} {pSlot npSlot : Nat}
  {name newname : String} {d dest : DirectoryBlock} {e : DirEntry} {node : VaultNode}
  {path path' : List String}

section Relinking


theorem Relinked.source_child (h : Relinked s s' pSlot name npSlot newname d dest e node) :
    child (nodes s.container) pSlot name = some e.slot := by
  rw [child_directory h.dir, h.entry]
  rfl

/-- The node replaced is not the one moved. -/
theorem Relinked.replaced_ne (h : Relinked s s' pSlot name npSlot newname d dest e node)
    (htree : IsTree (child (nodes s.container)) root) (hp : InTree s.container root pSlot)
    (hnp : InTree s.container root npSlot) :
    replaced (nodes s.container) pSlot name npSlot newname ≠ some e.slot := by
  unfold replaced
  split
  next => exact (Option.some_ne_none _).symm
  next hne =>
    intro hc
    obtain ⟨h₁, h₂⟩ := htree.parent_unique hnp hp hc h.source_child
    exact hne ⟨h₁, h₂⟩

/-- The entries of the new directory. -/
theorem Relinked.child_new (h : Relinked s s' pSlot name npSlot newname d dest e node)
    (hunique : ∀ b, nodes s.container npSlot = some (.directory b) → UniqueNames b) :
    child (nodes s'.container) npSlot newname = some e.slot ∧
      ∀ n, n ≠ newname → (npSlot = pSlot → n ≠ name) →
        child (nodes s'.container) npSlot n = child (nodes s.container) npSlot n := by
  have hbase : UniqueNames (if npSlot = pSlot then without d name else dest) := by
    split
    next heq =>
      rw [heq] at hunique
      exact (hunique d h.dir).without name
    next => exact hunique dest h.destDir
  refine ⟨?_, fun n hn hname => ?_⟩
  · rw [child_directory h.new, linked, entryOf_withEntry, entryOf_without_self hbase]
    simp
  · rw [child_directory h.new, linked, entryOf_withEntry, if_neg (Ne.symm hn), Option.or_none,
      entryOf_without_ne hn, child_directory h.destDir]
    by_cases heq : npSlot = pSlot
    · have hd : d = dest := by
        have := h.destDir
        rw [heq, h.dir] at this
        simpa using this
      rw [if_pos heq, entryOf_without_ne (hname heq), hd]
    · rw [if_neg heq]

/-- A rename that takes the place of nothing or of a leaf relocates a node. -/
theorem Relinked.relocation (h : Relinked s s' pSlot name npSlot newname d dest e node)
    (htree : TreeOk s.container root) (hp : InTree s.container root pSlot)
    (hnp : InTree s.container root npSlot)
    (hleaf : ∀ o ∈ replaced (nodes s.container) pSlot name npSlot newname,
      IsLeaf (nodes s.container) o) :
    Relocation (child (nodes s.container)) (child (nodes s'.container)) root pSlot name npSlot newname
      e.slot := by
  obtain ⟨htarget, hothers⟩ := h.child_new (fun b hb => htree.names npSlot b hnp hb)
  -- the old directory holds the name, so it is no leaf
  have hpnot : replaced (nodes s.container) pSlot name npSlot newname ≠ some pSlot := fun hc => by
    have hnone := (hleaf pSlot hc).child name
    rw [h.source_child] at hnone
    cases hnone
  have hreplaced : ∀ t, child (nodes s.container) npSlot newname = some t → t ≠ e.slot →
      replaced (nodes s.container) pSlot name npSlot newname = some t := by
    intro t ht hne
    unfold replaced
    rw [if_neg, ht]
    rintro ⟨hslot, hname⟩
    rw [hslot, hname, h.source_child] at ht
    exact hne (Option.some.inj ht).symm
  refine ⟨fun u n hu hmoved hun hun' => ?_, h.source_child, htarget, fun hne => ?_,
    fun t ht hne => (hleaf t (hreplaced t ht hne)).child⟩
  · by_cases hunp : u = npSlot
    · rw [hunp]
      exact hothers n (hun' hunp) fun heq => hun (hunp.trans heq)
    · by_cases hup : u = pSlot
      · have hnode := h.source (fun heq => hunp (hup.trans heq)) hpnot
        rw [hup, child_directory hnode, child_directory h.dir, entryOf_without_ne (hun hup)]
      · refine child_congr (h.others u (htree.dataSlot u hu) hup hunp fun hc => ?_) n
        -- a replaced node is no moved one
        have hchild : child (nodes s.container) npSlot newname = some u := by
          unfold replaced at hc
          split at hc
          next => cases hc
          next => exact hc
        exact h.replaced_ne htree.tree hp hnp (hmoved hchild ▸ hc)
  · by_cases hsame : pSlot = npSlot
    · have hn := hne hsame
      have hnew := h.new
      rw [if_pos hsame.symm, ← hsame] at hnew
      rw [child_directory hnew, linked, entryOf_withEntry, if_neg (Ne.symm hn), Option.or_none,
        entryOf_without_ne hn, entryOf_without_self (htree.names pSlot d hp h.dir)]
      rfl
    · rw [child_directory (h.source hsame hpnot), entryOf_without_self (htree.names pSlot d hp h.dir)]
      rfl

omit [NodeStore σ] in
theorem Renamed.replaced_child
    {o : Nat} (ho : replaced (nodes s.container) pSlot name npSlot newname = some o) :
    child (nodes s.container) npSlot newname = some o := by
  unfold replaced at ho
  split at ho
  next => cases ho
  next => exact ho

/-- Neither directory of a rename is a leaf that is replaced. -/
theorem Relinked.replaced_apart (h : Relinked s s' pSlot name npSlot newname d dest e node)
    (htree : TreeOk s.container root) (hnp : InTree s.container root npSlot) {o : Nat}
    (ho : replaced (nodes s.container) pSlot name npSlot newname = some o)
    (hleaf : IsLeaf (nodes s.container) o) : o ≠ pSlot ∧ o ≠ npSlot := by
  refine ⟨fun heq => ?_, fun heq => ?_⟩
  · have hnone := hleaf.child name
    rw [heq, h.source_child] at hnone
    cases hnone
  · obtain ⟨q, hq⟩ := hnp
    have hc := Renamed.replaced_child ho
    rw [heq] at hc
    have hloop := htree.tree (walk_concat_eq_some.mpr ⟨npSlot, hq, hc⟩) hq
    simp at hloop

end Relinking

variable [WipingNodeStore σ]

omit [NodeStore σ] [WipingNodeStore σ] in
theorem Occupies.dataSlot {D : Nat → Prop} (hs : DriverWithin D s) {u t : Nat}
    (hu : IsDataSlot s.container u) (h : Occupies s u t) : IsDataSlot s.container t := by
  cases h with
  | self => exact hu
  | file hfile ht =>
    rw [hs.container.dataSlot] at hu ⊢
    exact ht.within hs hu hfile

omit [WipingNodeStore σ] in
/-- A slot that holds nothing after a rename is no directory of it. -/
theorem Renamed.ne_of_none (h : Renamed s s' pSlot name npSlot newname d dest e node)
    (hpnot : replaced (nodes s.container) pSlot name npSlot newname ≠ some pSlot) {t : Nat}
    (ht : nodes s'.container t = none) : t ≠ pSlot ∧ t ≠ npSlot := by
  have htnp : t ≠ npSlot := fun heq => by
    rw [heq, h.new] at ht
    cases ht
  refine ⟨fun heq => ?_, htnp⟩
  rw [heq, h.source (fun hsame => htnp (heq.trans hsame)) hpnot] at ht
  cases ht

/-- A rename that succeeds moves its node, gives back what was replaced and loses nothing else
    exactly when what is replaced is a file or an empty directory with a single slot. -/
theorem rename_moves (hr : Reached root s) (htree : TreeOk s.container root) {parent newparent : Nat}
    (hp : s.inodes.slotOf parent = some pSlot) (hnp : s.inodes.slotOf newparent = some npSlot)
    (hpath : walk (child (nodes s.container)) root path = some pSlot)
    (hpath' : walk (child (nodes s.container)) root path' = some npSlot)
    (hoff : ¬ path ++ [name] <+: path')
    (hrun : (opRename parent name newparent newname).run s = .ok () s') :
    Moved root s s' path pSlot name path' npSlot newname ↔
      ∀ o ∈ replaced (nodes s.container) pSlot name npSlot newname, Replaceable root s o := by
  obtain ⟨hs, -⟩ := hr.within
  have hpin : InTree s.container root pSlot := ⟨path, hpath⟩
  have hnpin : InTree s.container root npSlot := ⟨path', hpath'⟩
  obtain ⟨d, dest, e, node, h⟩ :=
    opRename_renamed hs hp hnp (fun d hd => htree.names pSlot d hpin hd) hrun
  have hchild : ∀ o, replaced (nodes s.container) pSlot name npSlot newname = some o →
      InTree s.container root o := fun o ho => Reachable.step hnpin (Renamed.replaced_child ho)
  have hslots : ∀ u, InTree s.container root u → ∀ t, Occupies s u t → IsDataSlot s.container t :=
    fun u hu t ht => ht.dataSlot hs (htree.dataSlot u hu)
  constructor
  · intro hmoved o ho
    have hleaf := hmoved.leaf o ho
    obtain ⟨hop, honp⟩ := h.replaced_apart htree hnpin ho hleaf
    have hpnot : replaced (nodes s.container) pSlot name npSlot newname ≠ some pSlot := fun hc => by
      rw [ho] at hc
      exact hop (Option.some.inj hc)
    refine ⟨hleaf, fun t ht hne => ?_, fun u hu hou => ?_⟩
    · obtain ⟨hnone, hfree⟩ := hmoved.reclaimed o ho t ht
      obtain ⟨htp, htnp⟩ := h.ne_of_none hpnot hnone
      have hrep : replaced (nodes s.container) pSlot name npSlot newname ≠ some t := fun hc => by
        rw [ho] at hc
        exact hne (Option.some.inj hc).symm
      rw [h.others t (hslots o (hchild o ho) t ht) htp htnp hrep] at hnone
      exact ⟨hnone, ((h.free t).mp hfree).resolve_left hrep⟩
    · by_contra hne
      -- the slot was wiped, so the other node has lost it
      have hkept := hmoved.content u hu (fun hc => by
        rw [ho] at hc
        exact hne (Option.some.inj hc).symm) o hou hop honp
      rw [h.wiped o ho honp] at hkept
      obtain ⟨b, hb, -⟩ | ⟨fb, hfb⟩ := hleaf
      · rw [hb] at hkept; cases hkept
      · rw [hfb] at hkept; cases hkept
  · intro hreplaceable
    have hleaf := fun o ho => (hreplaceable o ho).leaf
    have hreloc := h.relocation htree hpin hnpin hleaf
    have hpnot : replaced (nodes s.container) pSlot name npSlot newname ≠ some pSlot := fun hc =>
      (h.replaced_apart htree hnpin hc (hleaf _ hc)).1 rfl
    refine ⟨fun hne => hreloc.vacated fun heq => Ne.symm (hne heq.symm),
      ⟨e.slot, hreloc.source, hreloc.target⟩,
      fun q => hreloc.walk_moved htree.tree hpath hpath' hoff,
      fun q hq hq' => hreloc.walk_beside htree.tree hpath hpath' hq hq',
      fun u hu hne t ht htp htnp => ?_, hleaf, fun o ho t ht => ?_⟩
    · refine h.others t (hslots u hu t ht) htp htnp fun hc => hne ?_
      rw [(hreplaceable t hc).apart u hu ht, hc]
    · obtain ⟨hop, honp⟩ := h.replaced_apart htree hnpin ho (hleaf o ho)
      by_cases hto : t = o
      · rw [hto]
        exact ⟨h.wiped o ho honp, (h.free o).mpr (.inl ho)⟩
      · obtain ⟨hnone, hfree⟩ := (hreplaceable o ho).single t ht hto
        have htp : t ≠ pSlot := fun heq => by
          rw [heq, h.dir] at hnone
          cases hnone
        have htnp : t ≠ npSlot := fun heq => by
          rw [heq, h.destDir] at hnone
          cases hnone
        have hrep : replaced (nodes s.container) pSlot name npSlot newname ≠ some t := fun hc => by
          rw [ho] at hc
          exact hto (Option.some.inj hc).symm
        exact ⟨(h.others t (hslots o (hchild o ho) t ht) htp htnp hrep).trans hnone,
          (h.free t).mpr (.inr hfree)⟩

end Relocating

/-! ## A file over a file -/

/-- A directory `a` with a file in it, and an empty directory `b`. -/
def twoDirectories : VenomFuse Volume :=
  after (DriverCall.mkdir 1 "b").run (after (DriverCall.create 2 "x").run
    (after (DriverCall.mkdir 1 "a").run mounted))

theorem twoDirectories_reached : Reached 0 twoDirectories :=
  .call _ (.call _ (.call _ (.fresh _ (by decide))))

theorem twoDirectories_run : NamespaceRun mounted twoDirectories :=
  ((NamespaceRun.start.call ⟨.mkdir, 1, "a"⟩ fun h => by cases h).call ⟨.create, 2, "x"⟩
    fun h => by cases h).call ⟨.mkdir, 1, "b"⟩ fun h => by cases h

/-- What name space calls make of the new volume is a tree. -/
theorem namespaceRun_tree {s : VenomFuse Volume} (h : NamespaceRun mounted s) : TreeOk s.container 0 := by
  have hsorted : (free (Volume.fresh .xchacha20Poly1305 8)).SortedGT := by decide
  exact (h.sound (.formatted (Volume.fresh_formatted .xchacha20Poly1305 (by decide)) hsorted)).1.tree

/-- A file in each of the two. -/
def fileInEach : VenomFuse Volume := after (DriverCall.create 4 "y").run twoDirectories

/-- No file of a table has a slot besides its head. -/
def headsOnly (v : VenomFuse Volume) : Bool :=
  (v.openFiles.entries.all fun p => p.2.slotMap = [none]) ∧
    (List.range 8).all fun u =>
      match nodes v.container u with
      | some (.file fb) => fb.dataSlots = [] ∧ fb.indexChain = none
      | _ => true

theorem headsOnly_occupies {s : VenomFuse Volume} (h : headsOnly s = true) {u t : Nat} (hu : u < 8)
    (ht : Occupies s u t) : t = u := by
  obtain ⟨hmaps, hheads⟩ := of_decide_eq_true h
  cases ht with
  | self => rfl
  | @file fb t hfile hheld =>
    have hhead := List.all_eq_true.mp hheads u (List.mem_range.mpr hu)
    rw [hfile] at hhead
    obtain ⟨hids, hchain⟩ := of_decide_eq_true hhead
    cases hheld with
    | head => rfl
    | data hmem => rw [hids] at hmem; cases hmem
    | block hon => rw [hchain] at hon; cases hon
    | listed hon => rw [hchain] at hon; cases hon
    | @handle fh t f hf _ hmem =>
      have hmap := List.all_eq_true.mp hmaps _ ((HashMap.get_eq_some _ _ _).mp hf)
      rw [of_decide_eq_true hmap] at hmem
      simp at hmem

/-- The file in `a` takes the place of the one in `b`. -/
theorem rename_moves_over : ∃ s' : VenomFuse Volume,
    (opRename 2 "x" 4 "y").run fileInEach = .ok () s' ∧
      Moved 0 fileInEach s' ["a"] 1 "x" ["b"] 3 "y" := by
  obtain ⟨ha, hb, hroot, hdirA, hdirB, hrun, hheads, hleaf⟩ : fileInEach.inodes.slotOf 2 = some 1 ∧
      fileInEach.inodes.slotOf 4 = some 3 ∧
      nodes fileInEach.container 0 = some (.directory
        { kind := .directory, entries := [⟨"a", 1, .directory⟩, ⟨"b", 3, .directory⟩] }) ∧
      nodes fileInEach.container 1 = some (.directory
        { kind := .directory, entries := [⟨"x", 2, .file⟩] }) ∧
      nodes fileInEach.container 3 = some (.directory
        { kind := .directory, entries := [⟨"y", 4, .file⟩] }) ∧
      valueOf (opRename 2 "x" 4 "y") fileInEach = some () ∧ headsOnly fileInEach = true ∧
      nodes fileInEach.container 4 = some (.file
        { kind := .file, totalSize := 0, dataSlots := [], indexChain := none, data := [] }) := by
    decide +kernel
  have hreached : Reached 0 fileInEach := .call _ twoDirectories_reached
  have htree : TreeOk fileInEach.container 0 :=
    namespaceRun_tree (twoDirectories_run.call ⟨.create, 4, "y"⟩ fun h => by cases h)
  have hchild : ∀ n, child (nodes fileInEach.container) 0 n = _ := fun n => child_directory hroot n
  have hpathA : walk (child (nodes fileInEach.container)) 0 ["a"] = some 1 := by
    simp [walk, hchild, entryOf]
  have hpathB : walk (child (nodes fileInEach.container)) 0 ["b"] = some 3 := by
    simp [walk, hchild, entryOf]
  have hdone := run_of_valueOf hrun
  refine ⟨_, hdone, (rename_moves hreached htree ha hb hpathA hpathB (by decide) hdone).mpr
    fun o ho => ?_⟩
  -- the node under the new name is the file `y`
  have hold : replaced (nodes fileInEach.container) 1 "x" 3 "y" = some 4 := by
    rw [replaced, child_directory hdirB]
    rfl
  rw [hold] at ho
  cases ho
  have hdata : ∀ u, InTree fileInEach.container 0 u → u < 8 := fun u hu => by
    have hu := htree.dataSlot u hu
    rw [Volume.isDataSlot_iff] at hu
    exact lt_of_lt_of_eq hu (by decide +kernel)
  exact ⟨.inr ⟨_, hleaf⟩, fun t ht hne => absurd (headsOnly_occupies hheads (by decide) ht) hne,
    fun u hu ht => (headsOnly_occupies hheads (hdata u hu) ht).symm⟩

/-! ## A directory that is not empty -/

/-- A rename onto a directory that is not empty succeeds. -/
theorem rename_replaces_directory : ¬ ∀ (root : Nat) (s s' : VenomFuse Volume)
    (parent newparent pSlot npSlot : Nat) (name newname : String) (path path' : List String),
    Reached root s → TreeOk s.container root → s.inodes.slotOf parent = some pSlot →
    s.inodes.slotOf newparent = some npSlot →
    walk (child (nodes s.container)) root path = some pSlot →
    walk (child (nodes s.container)) root path' = some npSlot → ¬ path ++ [name] <+: path' →
    (∀ m o, child (nodes s.container) pSlot name = some m →
      child (nodes s.container) npSlot newname = some o →
      (nodes s.container m).map kindOf = (nodes s.container o).map kindOf) →
    (opRename parent name newparent newname).run s = .ok () s' →
    Moved root s s' path pSlot name path' npSlot newname := by
  intro h
  have htree := namespaceRun_tree twoDirectories_run
  obtain ⟨hroot, hdir, ha, hb, hrun⟩ : twoDirectories.inodes.slotOf 1 = some 0 ∧
      nodes twoDirectories.container 0 = some (.directory
        { kind := .directory, entries := [⟨"a", 1, .directory⟩, ⟨"b", 3, .directory⟩] }) ∧
      nodes twoDirectories.container 1 = some (.directory
        { kind := .directory, entries := [⟨"x", 2, .file⟩] }) ∧
      nodes twoDirectories.container 3 = some emptyDir ∧
      valueOf (opRename 1 "b" 1 "a") twoDirectories = some () := by
    decide +kernel
  have hchild : ∀ n, child (nodes twoDirectories.container) 0 n = _ := fun n => child_directory hdir n
  have hmoved := h 0 twoDirectories _ 1 1 0 0 "b" "a" [] [] twoDirectories_reached htree hroot hroot rfl rfl (by decide)
    (fun m o hm ho => by
      rw [hchild] at hm ho
      cases hm
      cases ho
      rw [ha, hb]
      rfl) (run_of_valueOf hrun)
  have hleaf := hmoved.leaf 1 (by
    change replaced _ _ _ _ _ = some 1
    rw [replaced, hchild]
    rfl)
  obtain ⟨d, hd, hnil⟩ | ⟨fb, hfb⟩ := hleaf
  · rw [ha] at hd
    cases hd
    cases hnil
  · rw [ha] at hfb
    cases hfb

end Venom.Fuse
