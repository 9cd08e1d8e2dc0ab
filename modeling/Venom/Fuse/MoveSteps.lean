import Venom.Fuse.RenameTree
import Venom.Fuse.RequestSteps

/-! # A node moves

A rename that takes the place of nothing, or of a file or an empty directory that nobody has
open, moves a node with everything below it.  The numbers and the handles that were given out
follow their nodes; only those of the node that is replaced are gone.
-/

namespace Venom.Fuse

open Venom.Storage
open Venom.Library
open Venom.Library.NameTree
open Venom.Library.StateError

variable {σ : Type} [NodeStore σ] [NodeView σ] {root : Nat} {s s' : VenomFuse σ}
  {pSlot npSlot : Nat} {name newname : String} {d dest : DirectoryBlock} {e : DirEntry}
  {node : VaultNode} {path path' : List String}

/-! ## The tree -/

omit [NodeStore σ] in
/-- The slots of a directory's entries are data slots. -/
theorem TreeOk.entrySlot {c : σ} {t : Nat} {b : DirectoryBlock} (h : TreeOk c root)
    (hin : InTree c root t) (hb : nodes c t = some (.directory b)) : ∀ en ∈ b.entries, IsDataSlot c en.slot :=
  fun _ hen => h.dataSlot _ (hin.entry hb ((h.names t b hin hb).find hen))

variable [LawfulNodeStore σ]

theorem entryOf_without_some {n : String} {e' : DirEntry} (h : UniqueNames d)
    (he : entryOf (without d name) n = some e') : entryOf d n = some e' := by
  by_cases hn : n = name
  · rw [hn, entryOf_without_self h] at he
    cases he
  · rwa [entryOf_without_ne hn] at he

namespace Relinked

omit [LawfulNodeStore σ]

/-- A directory is still one, and its entries were there before or are that of the moved node. -/
theorem directory (h : Relinked s s' pSlot name npSlot newname d dest e node)
    (htree : TreeOk s.container root) {t : Nat} (ht : InTree s.container root t)
    (hleft : replaced (nodes s.container) pSlot name npSlot newname ≠ some t) {b : DirectoryBlock}
    (hb : nodes s.container t = some (.directory b)) :
    ∃ b', nodes s'.container t = some (.directory b') ∧ UniqueNames b' ∧
      ∀ n e', entryOf b' n = some e' → entryOf b n = some e' ∨
        e'.slot = e.slot ∧ e'.kind = kindOf node := by
  have hunique := htree.names t b ht hb
  by_cases htnp : t = npSlot
  · obtain rfl : dest = b := by
      rw [htnp, h.destDir] at hb
      exact VaultNode.directory.inj (Option.some.inj hb)
    have hbase : UniqueNames (if npSlot = pSlot then without d name else dest) ∧
        ∀ n e', entryOf (if npSlot = pSlot then without d name else dest) n = some e' →
          entryOf dest n = some e' := by
      split
      next heq =>
        rw [htnp, heq, h.dir] at hb
        cases hb
        exact ⟨hunique.without name, fun n e' he => entryOf_without_some hunique he⟩
      next => exact ⟨hunique, fun _ _ he => he⟩
    have hlinked : UniqueNames
        (linked (if npSlot = pSlot then without d name else dest) newname e.slot node) :=
      (hbase.1.without newname).withEntry (entryOf_without_self hbase.1)
    refine ⟨_, by rw [htnp]; exact h.new, hlinked, fun n e' he => ?_⟩
    rw [linked, entryOf_withEntry] at he
    cases hold : entryOf (without (if npSlot = pSlot then without d name else dest) newname) n with
    | some e₁ =>
      rw [hold, Option.some_or] at he
      cases he
      exact .inl (hbase.2 n e' (entryOf_without_some hbase.1 hold))
    | none =>
      rw [hold, Option.none_or] at he
      split at he
      next =>
        cases he
        exact .inr ⟨rfl, rfl⟩
      next => cases he
  · by_cases htp : t = pSlot
    · rw [htp, h.dir] at hb
      cases hb
      rw [htp] at htnp hleft ⊢
      exact ⟨_, h.source htnp hleft, hunique.without name,
        fun n e' he => .inl (entryOf_without_some hunique he)⟩
    · exact ⟨b, by rw [h.others t (htree.dataSlot t ht) htp htnp hleft, hb], hunique,
        fun _ _ he => .inl he⟩

/-- A file is what it was. -/
theorem file (h : Relinked s s' pSlot name npSlot newname d dest e node)
    (htree : TreeOk s.container root) {t : Nat} (ht : InTree s.container root t)
    (hleft : replaced (nodes s.container) pSlot name npSlot newname ≠ some t) {fb : FileBlock}
    (hfb : nodes s.container t = some (.file fb)) :
    nodes s'.container t = some (.file fb) := by
  have hdir : ∀ {u b}, nodes s.container u = some (.directory b) → t ≠ u := fun hb heq => by
    rw [← heq, hfb] at hb
    cases hb
  rw [h.others t (htree.dataSlot t ht) (hdir h.dir) (hdir h.destDir) hleft, hfb]

/-- Everything but what was replaced is in the tree still. -/
theorem treeOk (h : Relinked s s' pSlot name npSlot newname d dest e node)
    (htree : TreeOk s.container root)
    (hpath : walk (child (nodes s.container)) root path = some pSlot)
    (hpath' : walk (child (nodes s.container)) root path' = some npSlot)
    (hoff : ¬ path ++ [name] <+: path')
    (hleaf : ∀ o ∈ replaced (nodes s.container) pSlot name npSlot newname,
      IsLeaf (nodes s.container) o) :
    TreeOk s'.container root ∧ ∀ t, InTree s'.container root t ↔
      InTree s.container root t ∧
        replaced (nodes s.container) pSlot name npSlot newname ≠ some t := by
  have hp : InTree s.container root pSlot := ⟨path, hpath⟩
  have hnp : InTree s.container root npSlot := ⟨path', hpath'⟩
  have hreloc := h.relocation htree hp hnp hleaf
  have hin : ∀ t, InTree s'.container root t ↔ InTree s.container root t ∧
      replaced (nodes s.container) pSlot name npSlot newname ≠ some t := fun t => by
    rw [InTree, hreloc.reachable htree.tree hpath hpath' hoff]
    refine and_congr_right fun _ => ⟨fun hc ho => ?_, fun hno hc => by_contra fun hne => hno ?_⟩
    · exact h.replaced_ne htree.tree hp hnp (hc (Renamed.replaced_child ho) ▸ ho)
    · -- the new name led to another node than the moved one, so it was not the old name
      rw [replaced, if_neg, hc]
      rintro ⟨hslot, hname⟩
      rw [hslot, hname, h.source_child] at hc
      exact hne (Option.some.inj hc).symm
  refine ⟨⟨?_, hreloc.isTree htree.tree hpath hpath' hoff, fun t ht => ?_, fun t ht => ?_,
    fun t b ht hb => ?_⟩, hin⟩
  · obtain ⟨d₀, hd₀⟩ := htree.rootDir
    obtain ⟨b', hb', -⟩ := h.directory htree .self ((hin root).mp .self).2 hd₀
    exact ⟨b', hb'⟩
  · exact h.same.isDataSlot.mpr (htree.dataSlot t ((hin t).mp ht).1)
  · obtain ⟨hold, hleft⟩ := (hin t).mp ht
    obtain ⟨b, hb⟩ | ⟨fb, hfb⟩ := htree.node t hold
    · obtain ⟨b', hb', -⟩ := h.directory htree hold hleft hb
      exact .inl ⟨b', hb'⟩
    · exact .inr ⟨fb, h.file htree hold hleft hfb⟩
  · obtain ⟨hold, hleft⟩ := (hin t).mp ht
    obtain ⟨b₀, hb₀⟩ | ⟨fb, hfb⟩ := htree.node t hold
    · obtain ⟨b', hb', hunique, -⟩ := h.directory htree hold hleft hb₀
      cases hb.symm.trans hb'
      exact hunique
    · cases hb.symm.trans (h.file htree hold hleft hfb)

end Relinked

/-! ## What lies behind it -/

section Behind

variable {bytes : Nat → List UInt8} {own : Nat → List Nat} {o : Option Nat}

omit [LawfulNodeStore σ]

omit [NodeStore σ] in
/-- The node that was replaced has lost its slots: its own is free, and others it had are lost. -/
theorem Backs.vacated (h : Backs root s bytes own) (hv : Vacates s s' o)
    (hin : ∀ t, o = some t → InTree s.container root t) :
    ∃ own', Division (free s'.container) own' ∧ (∀ t, o ≠ some t → own' t = own t) ∧
      (∀ t, o = some t → own' t = []) ∧
      ∀ t, Division.Listed (free s'.container) own' t → IsDataSlot s.container t := by
  cases o with
  | none =>
    have hfree : free s'.container = free s.container := hv.free
    rw [hfree]
    exact ⟨own, h.divided, fun _ _ => rfl, fun t ht => (by cases ht), h.dataSlot⟩
  | some u =>
    have hfree : free s'.container = insertFree u (free s.container) := hv.free
    have hself := h.self_mem (hin u rfl)
    have hsub : (free s'.container ++ []).Subperm (free s.container ++ own u) := by
      have hperm : (insertFree u (free s.container)).Perm (u :: free s.container) :=
        List.perm_orderedInsert _ _ _
      rw [List.append_nil, hfree]
      refine (hperm.trans (List.perm_append_singleton u _).symm).subperm.trans ?_
      exact (List.subperm_append_left _).mpr (List.singleton_subperm_iff.mpr hself)
    refine ⟨Function.update own u [], h.divided.exchange hsub, fun t ht => ?_, fun t ht => ?_, ?_⟩
    · exact Function.update_of_ne (fun heq => ht (by rw [heq])) _ _
    · rw [← Option.some.inj ht, Function.update_self]
    · rintro t (ht | ⟨i, ht⟩)
      · refine h.dataSlot t ((List.mem_append.mp (hsub.subset ?_)).imp_right fun hown => ⟨u, hown⟩)
        exact List.mem_append_left _ ht
      · by_cases hiu : i = u
        · rw [hiu, Function.update_self] at ht
          cases ht
        · rw [Function.update_of_ne hiu] at ht
          exact h.dataSlot t (.inr ⟨i, ht⟩)

omit [NodeStore σ] in
/-- The inode of what was replaced is forgotten, and no other one. -/
theorem Vacates.slotOf (hv : Vacates s s' o) (hpaired : s.inodes.Paired) :
    s'.inodes.Paired ∧ ∀ k t, s'.inodes.slotOf k = some t ↔ s.inodes.slotOf k = some t ∧ o ≠ some t := by
  rw [hv.state]
  cases o with
  | none => exact ⟨hpaired, fun k t => by simp⟩
  | some u =>
    refine ⟨hpaired.removeSlot u, fun k t => ⟨fun hk => ?_, fun ⟨hk, hne⟩ => ?_⟩⟩
    · obtain ⟨hold, hne⟩ := (hpaired.back.removeSlot u).2 k t hk
      exact ⟨hold, fun heq => hne (Option.some.inj heq).symm⟩
    · refine (hpaired.removeSlot_slotOf hk).trans (if_neg fun heq => hne ?_)
      rw [heq]

theorem Backs.moved (hb : Backs root s bytes own)
    (h : Relinked s s' pSlot name npSlot newname d dest e node)
    (hv : Vacates s s' (replaced (nodes s.container) pSlot name npSlot newname))
    (hpath : walk (child (nodes s.container)) root path = some pSlot)
    (hpath' : walk (child (nodes s.container)) root path' = some npSlot)
    (hoff : ¬ path ++ [name] <+: path')
    (hleaf : ∀ o ∈ replaced (nodes s.container) pSlot name npSlot newname,
      IsLeaf (nodes s.container) o)
    (hclosed : ∀ o ∈ replaced (nodes s.container) pSlot name npSlot newname,
      ∀ fh f, s.openFiles.get fh = some f → f.headSlot ≠ o) :
    ∃ own', Backs root s' bytes own' := by
  have hp : InTree s.container root pSlot := ⟨path, hpath⟩
  have hnp : InTree s.container root npSlot := ⟨path', hpath'⟩
  obtain ⟨htree, hin⟩ := h.treeOk hb.tree hpath hpath' hoff hleaf
  obtain ⟨own', hdivided, hown, hgone, hdata⟩ :=
    hb.vacated hv fun t ht => Reachable.step hnp (Renamed.replaced_child ht)
  obtain ⟨hpaired, hslots⟩ := hv.slotOf hb.inodes
  have hopen : s'.openFiles = s.openFiles := by rw [hv.state]
  refine ⟨own', hb.reshaped h.same hdivided hdata htree
    (fun t ht => ⟨((hin t).mp ht).1, hown t ((hin t).mp ht).2⟩) (fun t ht => ?_)
    (fun t b ht hd => ?_) (fun t b n e' ht hd he => ?_) (fun t fb ht hfb u hu => ?_)
    (fun k => by rw [hopen]) (by rw [hv.state]) (fun fh f hf => ?_) hpaired (fun ino t ht hino => ?_)
    fun ino t hino => ?_⟩
  · by_cases ho : replaced (nodes s.container) pSlot name npSlot newname = some t
    · exact hgone t ho
    · rw [hown t ho]
      exact hb.outside t fun hold => ht ((hin t).mpr ⟨hold, ho⟩)
  · obtain ⟨hold, hleft⟩ := (hin t).mp ht
    obtain ⟨b', hb', -⟩ := h.directory hb.tree hold hleft hd
    exact ⟨b', hb'⟩
  · obtain ⟨hold, hleft⟩ := (hin t).mp ht
    obtain ⟨hold', hleft'⟩ := (hin _).mp (ht.entry hd he)
    -- the kind of every node is as before
    have hkindOf : (nodes s'.container e'.slot).map kindOf = (nodes s.container e'.slot).map kindOf := by
      obtain ⟨b₁, hb₁⟩ | ⟨fb, hfb⟩ := hb.tree.node _ hold'
      · obtain ⟨b', hb', -⟩ := h.directory hb.tree hold' hleft' hb₁
        rw [hb₁, hb']
        rfl
      · rw [hfb, h.file hb.tree hold' hleft' hfb]
    rw [hkindOf]
    obtain ⟨b₁, hb₁⟩ | ⟨fb, hfb⟩ := hb.tree.node t hold
    · obtain ⟨b', hb', -, hentries⟩ := h.directory hb.tree hold hleft hb₁
      cases hd.symm.trans hb'
      obtain hsame | ⟨hslot, hkind⟩ := hentries n e' he
      · exact hb.kinds t b₁ n e' hold hb₁ hsame
      · rw [hslot, hkind]
        exact h.kind
    · cases hd.symm.trans (h.file hb.tree hold hleft hfb)
  · obtain ⟨hold, hleft⟩ := (hin t).mp ht
    -- the slots of a file are neither a directory's nor those of what was replaced
    have hne : ∀ {v}, InTree s.container root v → v ≠ t → u ≠ v := fun hv hvt huv =>
      hvt (hb.divided.single (hb.self_mem hv) (huv ▸ hu))
    have hdir : ∀ {v b}, nodes s.container v = some (.directory b) → v ≠ t := fun hd heq => by
      rw [heq, hfb] at hd
      cases hd
    refine h.others u (hb.dataSlot u (.inr ⟨t, hu⟩)) (hne hp (hdir h.dir)) (hne hnp (hdir h.destDir))
      fun ho => ?_
    exact hne (Reachable.step hnp (Renamed.replaced_child ho)) (fun heq => hleft (heq ▸ ho)) rfl
  · exact (hin _).mpr ⟨(hb.handles fh f hf).1, fun ho => hclosed _ ho fh f hf rfl⟩
  · exact (hslots ino t).mpr ⟨hino, ((hin t).mp ht).2⟩
  · obtain ⟨hold, hne⟩ := (hslots ino t).mp hino
    exact (hin t).mpr ⟨hb.known ino t hold, hne⟩

end Behind

/-! ## What is seen of it -/

namespace StandsFor

variable {A : FileSystem} {bytes : Nat → List UInt8} {own : Nat → List Nat}

omit [LawfulNodeStore σ] in
/-- What the paths lead to after a node has moved. -/
theorem moved (hs : StandsFor root s A bytes own)
    (h : Relinked s s' pSlot name npSlot newname d dest e node)
    (hv : Vacates s s' (replaced (nodes s.container) pSlot name npSlot newname))
    (hpath : walk (child (nodes s.container)) root path = some pSlot)
    (hpath' : walk (child (nodes s.container)) root path' = some npSlot)
    (hoff : ¬ path ++ [name] <+: path')
    (hleaf : ∀ o ∈ replaced (nodes s.container) pSlot name npSlot newname,
      IsLeaf (nodes s.container) o)
    (hclosed : ∀ o ∈ replaced (nodes s.container) pSlot name npSlot newname,
      ∀ fh f, s.openFiles.get fh = some f → f.headSlot ≠ o) :
    ∃ own', StandsFor root s' (if path ++ [name] = path' ++ [newname] then A else
      A.move (path ++ [name]) (path' ++ [newname])) bytes own' := by
  have hp : InTree s.container root pSlot := ⟨path, hpath⟩
  have hnp : InTree s.container root npSlot := ⟨path', hpath'⟩
  have htree := hs.backs.tree
  have hreloc := h.relocation htree hp hnp hleaf
  obtain ⟨-, hin⟩ := h.treeOk htree hpath hpath' hoff hleaf
  obtain ⟨own', hbacks⟩ := hs.backs.moved h hv hpath hpath' hoff hleaf hclosed
  have hwalk : ∀ q, walk (child (nodes s'.container)) root q =
      relocate (path ++ [name]) (path' ++ [newname]) (walk (child (nodes s.container)) root) q :=
    fun q => hreloc.walk_eq htree.tree hpath hpath' hoff
  -- every node that is left is what it was, with the content it had
  have hentry : ∀ t, InTree s'.container root t →
      entryAt s'.container bytes t = entryAt s.container bytes t := fun t ht => by
    obtain ⟨hold, hleft⟩ := (hin t).mp ht
    obtain ⟨b, hb⟩ | ⟨fb, hfb⟩ := htree.node t hold
    · obtain ⟨b', hb', -⟩ := h.directory htree hold hleft hb
      rw [entryAt_directory hb, entryAt_directory hb']
    · rw [entryAt_file hfb, entryAt_file (h.file htree hold hleft hfb)]
  have hfiles : fileTree s'.container root bytes =
      relocate (path ++ [name]) (path' ++ [newname]) (fileTree s.container root bytes) := by
    funext q
    change _ = relocate _ _ (fun q => (walk (child (nodes s.container)) root q).bind _) q
    rw [← relocate_bind, ← hwalk, fileTree]
    cases hq : walk (child (nodes s'.container)) root q with
    | none => rfl
    | some t => exact hentry t ⟨q, hq⟩
  have hslots := (hv.slotOf hs.backs.inodes).2
  have hheads : headOf s' = headOf s := by
    funext k
    rw [headOf, headOf, hv.state]
  refine ⟨own', ?_⟩
  split
  next heq =>
    -- a name for itself: no path changes
    have hsame : pSlot = npSlot ∧ name = newname := by
      obtain ⟨hpp, hnn⟩ := List.append_inj' heq rfl
      rw [hpp] at hpath
      exact ⟨Option.some.inj (hpath.symm.trans hpath'), by simpa using hnn⟩
    have hnone : replaced (nodes s.container) pSlot name npSlot newname = none :=
      if_pos ⟨hsame.1.symm, hsame.2.symm⟩
    rw [heq, relocate_self] at hfiles hwalk
    refine ⟨hbacks, hs.tree.trans hfiles.symm, hs.inodes.congr hwalk fun k => ?_,
      hs.handles.congr hwalk fun k => by rw [hheads]⟩
    rw [hv.state, hnone]
    rfl
  next hne =>
    have hreplaced : replaced (nodes s.container) pSlot name npSlot newname =
        child (nodes s.container) npSlot newname := by
      refine if_neg fun hitself => hne ?_
      rw [hitself.1] at hpath'
      rw [htree.tree hpath hpath', hitself.2]
    rw [hreplaced] at hslots hclosed
    refine ⟨hbacks, ?_, ?_, ?_⟩
    · rw [hfiles, ← hs.tree]
      rfl
    · exact hs.inodes.relocated hreloc htree.tree hpath hpath' hoff hne hslots
    · refine hs.handles.relocated hreloc htree.tree hpath hpath' hoff hne fun k u => ?_
      rw [hheads]
      refine ⟨fun hu => ⟨hu, fun hc => ?_⟩, And.left⟩
      obtain ⟨f, hf, hhead⟩ := headOf_eq_some.mp hu
      exact hclosed u hc k f hf hhead

theorem serve_rename (hs : StandsFor root s A bytes own) {ords : Orders} {parent newparent : Nat}
    {fname fnewname : Option String} {reply : Reply}
    (hallowed : ∀ n n' p np, fname = some n → fnewname = some n' →
      s.inodes.slotOf parent = some p → s.inodes.slotOf newparent = some np →
      (∀ m, child (nodes s.container) p n = some m → ¬ InTree s.container m np) ∧
      ∀ o ∈ replaced (nodes s.container) p n np n', IsLeaf (nodes s.container) o ∧
        ∀ fh f, s.openFiles.get fh = some f → f.headSlot ≠ o)
    (hrun : ((Request.rename parent fname newparent fnewname).serve ords).run s = .ok reply s') :
    Serves root A (.rename parent fname newparent fnewname) reply s' := by
  obtain ⟨name, rfl, h₁⟩ := toStr_ok hrun
  obtain ⟨newname, rfl, h₂⟩ := toStr_ok h₁
  obtain ⟨_, s₁, hrename, hret⟩ := run_bind_ok.mp h₂
  cases hret
  obtain ⟨pSlot, s₂, hslot, h₃⟩ := run_bind_ok.mp hrename
  obtain ⟨hp, rfl⟩ := slotOfIno_ok.mp hslot
  obtain ⟨npSlot, s₃, hslot', -⟩ := run_bind_ok.mp h₃
  obtain ⟨hnp, rfl⟩ := slotOfIno_ok.mp hslot'
  obtain ⟨path, hpath, hwalk⟩ := hs.of_ino hp
  obtain ⟨path', hpath', hwalk'⟩ := hs.of_ino hnp
  obtain ⟨hbelow, hreplaced⟩ := hallowed name newname pSlot npSlot rfl rfl hp hnp
  have htree := hs.backs.tree
  obtain ⟨d, dest, e, node, h, hv⟩ := opRename_relinked hp hnp (htree.dataSlot _ ⟨path, hwalk⟩)
    (htree.dataSlot _ ⟨path', hwalk'⟩) (fun t b ht hb => by
      obtain rfl | rfl := ht
      · exact htree.entrySlot ⟨path, hwalk⟩ hb
      · exact htree.entrySlot ⟨path', hwalk'⟩ hb)
    (fun d hd => htree.names _ d ⟨path, hwalk⟩ hd) hrename
  have hsource : walk (child (nodes s₃.container)) root (path ++ [name]) = some e.slot :=
    walk_concat_eq_some.mpr ⟨pSlot, hwalk, h.source_child⟩
  have hoff : ¬ path ++ [name] <+: path' := by
    rintro ⟨rest, rfl⟩
    obtain ⟨m, hm, hrest⟩ := walk_append_eq_some.mp hwalk'
    cases hsource.symm.trans hm
    exact hbelow e.slot h.source_child ⟨rest, hrest⟩
  obtain ⟨own', hs'⟩ := hs.moved h hv hwalk hwalk' hoff (fun o ho => (hreplaced o ho).1)
    fun o ho => (hreplaced o ho).2
  obtain ⟨en, hen⟩ : ∃ en, A.tree (path ++ [name]) = some en := by
    obtain ⟨b, hb⟩ | ⟨fb, hfb⟩ := htree.node e.slot ⟨_, hsource⟩
    · exact ⟨_, hs.tree_dir hsource hb⟩
    · exact ⟨_, hs.tree_file hsource hfb⟩
  by_cases heq : path ++ [name] = path' ++ [newname]
  · rw [if_pos heq] at hs'
    obtain ⟨rfl, hnn⟩ := List.append_inj' heq rfl
    cases hnn
    exact ⟨A, bytes, own', .renameSelf hpath hpath' hen, hs'⟩
  · rw [if_neg heq] at hs'
    have hchild : ∀ o, child (nodes s₃.container) npSlot newname = some o →
        replaced (nodes s₃.container) pSlot name npSlot newname = some o := fun o ho => by
      rw [replaced, if_neg, ho]
      rintro ⟨rfl, rfl⟩
      exact heq (by rw [htree.tree hwalk hwalk'])
    refine ⟨_, bytes, own', .rename hpath hpath' hen (hs.tree_dir hwalk' h.destDir) heq hoff
      (fun n => ?_) (fun fh hfh => ?_), hs'⟩
    · -- what is replaced is a leaf
      rw [hs.tree, fileTree_none htree, walk_append]
      cases hw : walk (child (nodes s₃.container)) root (path' ++ [newname]) with
      | none => rfl
      | some o =>
        obtain ⟨u, hu, ho⟩ := walk_concat_eq_some.mp hw
        cases hwalk'.symm.trans hu
        simp [(hreplaced o (hchild o ho)).1.child]
    · obtain ⟨o, ho, hw⟩ := (hs.handles fh _).mp hfh
      obtain ⟨u, hu, hc⟩ := walk_concat_eq_some.mp hw
      cases hwalk'.symm.trans hu
      obtain ⟨f, hf, hhead⟩ := headOf_eq_some.mp ho
      exact (hreplaced o (hchild o hc)).2 fh f hf hhead

end StandsFor

end Venom.Fuse
