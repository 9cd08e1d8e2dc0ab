import Venom.Fuse.Directory
import Venom.Library.NameTree

/-! # The directory tree of a container

The directory blocks of a container are the edges of a tree of names.  `TreeOk` says that
what hangs below the root is one: every slot on it is a data slot and holds a directory
or the head of a file, it has one path, and a directory has each name once.  An entry
that comes or goes changes one edge.
-/

namespace Venom.Fuse

open Venom.Storage
open Venom.Library
open Venom.Library.NameTree
open Venom.Library.StateError

/-! ## Entries -/

section Entries

variable {d : DirectoryBlock} {name n : String} {e : DirEntry}

/-- A directory has each name once. -/
def UniqueNames (d : DirectoryBlock) : Prop := (d.entries.map (·.name)).Nodup

theorem entryOf_without_ne (h : n ≠ name) : entryOf (without d name) n = entryOf d n := by
  unfold entryOf without
  induction d.entries with
  | nil => rfl
  | cons e es ih =>
    by_cases hname : e.name = name
    · have hn : ¬ e.name = n := fun hn => h (hn.symm.trans hname)
      simp [hname, Ne.symm h]
    · simp only [List.eraseP_cons, hname, decide_false, cond_false, List.find?_cons]
      rw [ih]

theorem entryOf_without_self (h : UniqueNames d) : entryOf (without d name) name = none := by
  unfold UniqueNames at h
  unfold entryOf without
  generalize d.entries = es at h ⊢
  induction es with
  | nil => rfl
  | cons e es ih =>
    rw [List.map_cons, List.nodup_cons] at h
    by_cases hname : e.name = name
    · have hnone : ∀ x ∈ es, ¬ x.name = name := fun x hx heq =>
        h.1 (List.mem_map.mpr ⟨x, hx, heq.trans hname.symm⟩)
      simp only [List.eraseP_cons, hname, decide_true, cond_true]
      exact List.find?_eq_none.mpr fun x hx => by simpa using hnone x hx
    · simp only [List.eraseP_cons, hname, decide_false, cond_false, List.find?_cons]
      exact ih h.2

theorem entryOf_withEntry : entryOf (withEntry d e) n =
    (entryOf d n).or (if e.name = n then some e else none) := by
  simp only [entryOf, withEntry, List.find?_append]
  congr 1
  by_cases h : e.name = n <;> simp [h]

theorem UniqueNames.without (h : UniqueNames d) (name : String) : UniqueNames (without d name) :=
  h.sublist (List.eraseP_sublist.map _)

theorem UniqueNames.withEntry (h : UniqueNames d) (hnew : entryOf d e.name = none) :
    UniqueNames (withEntry d e) := by
  have hnot : ∀ x ∈ d.entries, ¬ x.name = e.name := fun x hx => by
    simpa using List.find?_eq_none.mp hnew x hx
  simp only [UniqueNames, Fuse.withEntry, List.map_append, List.map_cons, List.map_nil]
  refine List.nodup_append.mpr ⟨h, List.nodup_singleton _, ?_⟩
  intro x hx y hy heq
  obtain ⟨x', hx', rfl⟩ := List.mem_map.mp hx
  rw [List.mem_singleton.mp hy] at heq
  exact hnot x' hx' heq

/-- Every entry of a directory is found under its name. -/
theorem UniqueNames.find (h : UniqueNames d) (he : e ∈ d.entries) : entryOf d e.name = some e := by
  cases hfind : entryOf d e.name with
  | none => exact absurd (rfl : e.name = e.name) (by simpa using List.find?_eq_none.mp hfind e he)
  | some e' =>
    obtain ⟨hmem, hname⟩ := entryOf_mem hfind
    rw [List.inj_on_of_nodup_map h hmem he hname]

end Entries

/-! ## Edges -/

/-- What a name denotes in a node. -/
def child (nodes : Nat → Option VaultNode) (s : Nat) (name : String) : Option Nat :=
  match nodes s with
  | some (.directory d) => (entryOf d name).map (·.slot)
  | _ => none

section Edges

variable {nodes nodes' : Nat → Option VaultNode} {s t : Nat} {name n : String}
  {d : DirectoryBlock} {e : DirEntry}

theorem child_directory (h : nodes s = some (.directory d)) (name : String) :
    child nodes s name = (entryOf d name).map (·.slot) := by
  rw [child, h]

theorem child_file {fb : FileBlock} (h : nodes s = some (.file fb)) (name : String) :
    child nodes s name = none := by
  rw [child, h]

theorem child_congr (h : nodes' s = nodes s) (name : String) :
    child nodes' s name = child nodes s name := by
  rw [child, child, h]

end Edges

/-! ## The tree -/

variable {σ : Type} [NodeStore σ] [NodeView σ]

/-- A slot on the tree below the root. -/
abbrev InTree (c : σ) (root t : Nat) : Prop := Reachable (child (nodes c)) root t

omit [NodeStore σ] in
theorem InTree.entry {c : σ} {root p : Nat} {d : DirectoryBlock} {name : String} {e : DirEntry}
    (hp : InTree c root p) (hd : nodes c p = some (.directory d))
    (he : entryOf d name = some e) : InTree c root e.slot :=
  Reachable.step hp (by rw [child_directory hd, he]; rfl)

structure TreeOk (c : σ) (root : Nat) : Prop where
  rootDir : ∃ d, nodes c root = some (.directory d)
  tree : IsTree (child (nodes c)) root
  dataSlot : ∀ t, InTree c root t → IsDataSlot c t
  node : ∀ t, InTree c root t → (∃ d, nodes c t = some (.directory d)) ∨
    ∃ fb, nodes c t = some (.file fb)
  names : ∀ t d, InTree c root t → nodes c t = some (.directory d) → UniqueNames d

/-- Nothing hangs below the slot: it is an empty directory or a file. -/
def IsLeaf (nodes : Nat → Option VaultNode) (t : Nat) : Prop :=
  (∃ d, nodes t = some (.directory d) ∧ d.entries = []) ∨ ∃ fb, nodes t = some (.file fb)

theorem IsLeaf.child {nodes : Nat → Option VaultNode} {t : Nat} (h : IsLeaf nodes t) (n : String) :
    child nodes t n = none := by
  obtain ⟨d, hd, hnil⟩ | ⟨fb, hfb⟩ := h
  · rw [child_directory hd, entryOf, hnil]
    rfl
  · exact child_file hfb n

namespace TreeOk

variable {c c' : σ} {root p : Nat} {d : DirectoryBlock} {e : DirEntry} {name : String}

/-- One edge changes: what the tree keeps of its soundness. -/
theorem changed (h : TreeOk c root) (hp : InTree c root p)
    (hchange : EdgeChange (child (nodes c)) (child (nodes c')) root p name)
    (hsame : SameVolume c c') (hdir : ∃ d', nodes c' p = some (.directory d') ∧ UniqueNames d')
    (hothers : ∀ t, InTree c root t → t ≠ p → child (nodes c) p name ≠ some t →
      nodes c' t = nodes c t)
    (hnew : ∀ t, child (nodes c') p name = some t →
      ¬ InTree c root t ∧ IsDataSlot c t ∧ IsLeaf (nodes c') t) : TreeOk c' root := by
  obtain ⟨path, hpath⟩ := hp
  have hreach := fun t => hchange.reachable (t := t) h.tree hpath
  -- a node of the new tree is the changed directory, an old node, or the new leaf
  have hcases : ∀ t, InTree c' root t → t = p ∨
      (InTree c root t ∧ nodes c' t = nodes c t) ∨ child (nodes c') p name = some t := by
    intro t ht
    rcases (hreach t).mp ht with ⟨hold, hne⟩ | hc
    · by_cases htp : t = p
      · exact .inl htp
      · exact .inr (.inl ⟨hold, hothers t hold htp hne⟩)
    · exact .inr (.inr hc)
  obtain ⟨d', hd', hunique⟩ := hdir
  refine ⟨?_, ?_, fun t ht => ?_, fun t ht => ?_, fun t d ht hd => ?_⟩
  · by_cases hroot : root = p
    · exact ⟨d', hroot ▸ hd'⟩
    · obtain ⟨d, hd⟩ := h.rootDir
      exact ⟨d, (hothers root Reachable.self hroot (IsTree.root_top h.tree ⟨path, hpath⟩)).trans hd⟩
  · refine hchange.isTree h.tree ⟨path, hpath⟩ fun t ht _ => (hnew t ht).1
  · apply hsame.isDataSlot.mpr
    rcases hcases t ht with rfl | ⟨hold, -⟩ | hc
    · exact h.dataSlot _ ⟨path, hpath⟩
    · exact h.dataSlot t hold
    · exact (hnew t hc).2.1
  · rcases hcases t ht with rfl | ⟨hold, hnode⟩ | hc
    · exact .inl ⟨d', hd'⟩
    · rw [hnode]
      exact h.node t hold
    · exact (hnew t hc).2.2.imp (fun ⟨d, hd, _⟩ => ⟨d, hd⟩) id
  · rcases hcases t ht with rfl | ⟨hold, hnode⟩ | hc
    · rw [hd'] at hd
      cases hd
      exact hunique
    · rw [hnode] at hd
      exact h.names t d hold hd
    · obtain ⟨d₁, hd₁, hnil⟩ | ⟨fb, hfb⟩ := (hnew t hc).2.2
      · rw [hd₁] at hd
        cases hd
        rw [UniqueNames, hnil]
        exact List.nodup_nil
      · rw [hfb] at hd
        cases hd

/-- A leaf is linked under a new name. -/
theorem linked (h : TreeOk c root) (hp : InTree c root p) (hd : nodes c p = some (.directory d))
    (hnew : entryOf d e.name = none) (hfresh : ¬ InTree c root e.slot)
    (hdata : IsDataSlot c e.slot) (hsame : SameVolume c c')
    (hdir : nodes c' p = some (.directory (withEntry d e))) (hleaf : IsLeaf (nodes c') e.slot)
    (hothers : ∀ t, InTree c root t → t ≠ p → nodes c' t = nodes c t) :
    EdgeChange (child (nodes c)) (child (nodes c')) root p e.name ∧
      child (nodes c') p e.name = some e.slot ∧ TreeOk c' root := by
  have hnone : child (nodes c) p e.name = none := by rw [child_directory hd, hnew]; rfl
  have hsome : child (nodes c') p e.name = some e.slot := by
    rw [child_directory hdir, entryOf_withEntry, hnew]
    simp
  have hchange : EdgeChange (child (nodes c)) (child (nodes c')) root p e.name := by
    refine ⟨fun s n hs _ hne => ?_, fun t ht => ?_, fun t ht => ?_⟩
    · by_cases hsp : s = p
      · have hn : ¬ e.name = n := fun heq => hne hsp heq.symm
        rw [hsp, child_directory hdir, child_directory hd, entryOf_withEntry, if_neg hn, Option.or_none]
      · exact child_congr (hothers s hs hsp) n
    · rw [hnone] at ht
      cases ht
    · rw [hsome] at ht
      cases ht
      exact hleaf.child
  refine ⟨hchange, hsome, h.changed hp hchange hsame ⟨_, hdir, (h.names p d hp hd).withEntry hnew⟩
    (fun t ht htp _ => hothers t ht htp) fun t ht => ?_⟩
  rw [hsome] at ht
  cases ht
  exact ⟨hfresh, hdata, hleaf⟩

/-- The entry of a leaf is taken out. -/
theorem unlinked (h : TreeOk c root) (hp : InTree c root p) (hd : nodes c p = some (.directory d))
    (he : entryOf d name = some e) (hleaf : IsLeaf (nodes c) e.slot) (hsame : SameVolume c c')
    (hdir : nodes c' p = some (.directory (without d name)))
    (hothers : ∀ t, InTree c root t → t ≠ p → t ≠ e.slot → nodes c' t = nodes c t) :
    EdgeChange (child (nodes c)) (child (nodes c')) root p name ∧
      child (nodes c') p name = none ∧ TreeOk c' root := by
  have hsome : child (nodes c) p name = some e.slot := by rw [child_directory hd, he]; rfl
  have hnone : child (nodes c') p name = none := by
    rw [child_directory hdir, entryOf_without_self (h.names p d hp hd)]
    rfl
  have hchange : EdgeChange (child (nodes c)) (child (nodes c')) root p name := by
    refine ⟨fun s n hs hne hn => ?_, fun t ht => ?_, fun t ht => ?_⟩
    · by_cases hsp : s = p
      · rw [hsp, child_directory hdir, child_directory hd, entryOf_without_ne (hn hsp)]
      · exact child_congr (hothers s hs hsp fun heq => hne (heq ▸ hsome)) n
    · rw [hsome] at ht
      cases ht
      exact hleaf.child
    · rw [hnone] at ht
      cases ht
  refine ⟨hchange, hnone, h.changed hp hchange hsame ⟨_, hdir, (h.names p d hp hd).without name⟩
    (fun t ht htp hne => hothers t ht htp fun heq => hne (heq ▸ hsome)) fun t ht => ?_⟩
  rw [hnone] at ht
  cases ht

end TreeOk

end Venom.Fuse
