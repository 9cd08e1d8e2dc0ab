import Venom.Fuse.Tree
import Venom.Fuse.Reached

/-! # The name space

Looking up, making and removing names, seen as changes of an abstract tree: a kind for
every path that is there.  `NamespaceOk` ties the directory blocks, the free list and the
inode map together; every call keeps it, changes the abstract tree as it should when it
succeeds, and leaves every directory and the free list as they were when it fails.
-/

namespace Venom.Fuse

open Venom.Storage
open Venom.Library
open Venom.Library.NameTree
open Venom.Library.StateError

variable {σ : Type} [NodeStore σ] [NodeView σ]

/-! ## The abstract tree -/

/-- Which paths there are, and what kind of node each leads to. -/
abbrev PathTree := List String → Option NodeKind

/-- The tree of a container. -/
def pathTree (c : σ) (root : Nat) : PathTree := fun q =>
  (walk (child (nodes c)) root q).bind fun t => (nodes c t).map kindOf

inductive NamespaceOp
  | lookup
  | mkdir
  | create
  | unlink
  | rmdir

/-- What an operation on `name` in the directory at `path` does to a tree. -/
def NamespaceOp.Effect (op : NamespaceOp) (path : List String) (name : String) (T T' : PathTree) :
    Prop :=
  T path = some .directory ∧
  match op with
  | .lookup => T (path ++ [name]) ≠ none ∧ T' = T
  | .mkdir => T (path ++ [name]) = none ∧
      T' = Function.update T (path ++ [name]) (some .directory)
  | .create => T (path ++ [name]) = none ∧ T' = Function.update T (path ++ [name]) (some .file)
  | .unlink => T (path ++ [name]) = some .file ∧ T' = Function.update T (path ++ [name]) none
  | .rmdir => T (path ++ [name]) = some .directory ∧ (∀ n, T (path ++ [name] ++ [n]) = none) ∧
      T' = Function.update T (path ++ [name]) none

/-! ## The calls -/

structure NamespaceCall where
  op : NamespaceOp
  parent : Nat
  name : String

def NamespaceCall.run (call : NamespaceCall) : FuseM σ Unit :=
  match call.op with
  | .lookup => discard (opLookup call.parent call.name)
  | .mkdir => discard (opMkdir call.parent call.name)
  | .create => discard (opCreate call.parent call.name)
  | .unlink => opUnlink call.parent call.name
  | .rmdir => opRmdir call.parent call.name

/-- An unlink is asked for files only. -/
def NamespaceCall.Allowed (call : NamespaceCall) (s : VenomFuse σ) : Prop :=
  call.op = .unlink → ∀ p t, s.inodes.slotOf call.parent = some p →
    child (nodes s.container) p call.name = some t → ∃ fb, nodes s.container t = some (.file fb)

/-- The states a run of calls leads to from `s₀`, whether they succeed or fail. -/
inductive NamespaceRun (s₀ : VenomFuse σ) : VenomFuse σ → Prop
  | start : NamespaceRun s₀ s₀
  | call {s : VenomFuse σ} (call : NamespaceCall) : NamespaceRun s₀ s → call.Allowed s →
      NamespaceRun s₀ (after call.run s)

/-! ## Inodes -/

/-- An inode leads to a slot that leads back to it.  That stays so when the numbers wrap around and
    one is handed out again. -/
def InodeMap.Backed (m : InodeMap) : Prop :=
  ∀ ino slot, m.slotOf ino = some slot → m.slotToIno.get slot = some ino

theorem InodeMap.Backed.new (root : Nat) : (InodeMap.new root).Backed := by
  intro ino slot h
  simp only [InodeMap.new, InodeMap.slotOf, HashMap.get_insert] at h ⊢
  split at h
  next e => cases h; rw [if_pos rfl, e]
  next => simp at h

theorem InodeMap.Backed.getOrAlloc {m : InodeMap} (h : m.Backed) (slot : Nat) :
    (m.getOrAlloc slot).2.Backed ∧
      ∀ ino t, (m.getOrAlloc slot).2.slotOf ino = some t → m.slotOf ino = some t ∨ t = slot := by
  unfold InodeMap.getOrAlloc
  split
  next ino hino => exact ⟨h, fun ino t ht => .inl ht⟩
  next hnone =>
    refine ⟨fun ino t ht => ?_, fun ino t ht => ?_⟩
    · simp only [InodeMap.slotOf, HashMap.get_insert] at ht ⊢
      split at ht
      next heq => cases ht; rw [if_pos rfl, heq]
      next hne =>
        have hback := h ino t ht
        have hts : ¬ t = slot := fun heq => by rw [heq, hnone] at hback; cases hback
        rw [if_neg hts, hback]
    · simp only [InodeMap.slotOf, HashMap.get_insert] at ht
      split at ht
      next => exact .inr (Option.some.inj ht).symm
      next => exact .inl ht

/-- A slot that is forgotten has no inode. -/
theorem InodeMap.Backed.removeSlot {m : InodeMap} (h : m.Backed) (slot : Nat) :
    (m.removeSlot slot).Backed ∧
      ∀ ino t, (m.removeSlot slot).slotOf ino = some t → m.slotOf ino = some t ∧ t ≠ slot := by
  unfold InodeMap.removeSlot
  split
  next ino hino =>
    refine ⟨fun i t ht => ?_, fun i t ht => ?_⟩
    · simp only [InodeMap.slotOf, HashMap.get_remove] at ht ⊢
      split at ht
      next => cases ht
      next hi =>
        have hback := h i t ht
        have hts : ¬ t = slot := fun heq => hi (by
          rw [heq, hino] at hback
          exact (Option.some.inj hback).symm)
        rw [if_neg hts, hback]
    · simp only [InodeMap.slotOf, HashMap.get_remove] at ht
      split at ht
      next => cases ht
      next hi =>
        refine ⟨ht, fun heq => hi ?_⟩
        have hback := h i t ht
        rw [heq, hino] at hback
        exact (Option.some.inj hback).symm
  next hnone =>
    refine ⟨h, fun i t ht => ⟨ht, fun heq => ?_⟩⟩
    have hback := h i t ht
    rw [heq, hnone] at hback
    cases hback

/-! ## The invariant -/

structure NamespaceOk (root : Nat) (s : VenomFuse σ) : Prop where
  tree : TreeOk s.container root
  plain : ∀ t fb, InTree s.container root t → nodes s.container t = some (.file fb) →
    fb.dataSlots = [] ∧ fb.indexChain = none
  sorted : (free s.container).SortedGT
  covers : ∀ t, IsDataSlot s.container t ↔ t ∈ free s.container ∨ InTree s.container root t
  apart : ∀ t ∈ free s.container, ¬ InTree s.container root t
  inodes : s.inodes.Backed
  known : ∀ ino slot, s.inodes.slotOf ino = some slot → InTree s.container root slot

/-- A call on the directory in slot `p`, seen on the abstract tree. -/
structure Refines (root : Nat) (call : NamespaceCall) (s s' : VenomFuse σ) (p : Nat) : Prop where
  parent : s.inodes.slotOf call.parent = some p
  effect : ∃ path, walk (child (nodes s.container)) root path = some p ∧
    call.op.Effect path call.name (pathTree s.container root) (pathTree s'.container root)
  same : SameVolume s.container s'.container
  others : ∀ t, InTree s.container root t → InTree s'.container root t → t ≠ p →
    nodes s'.container t = nodes s.container t

/-- What a failed call leaves as it was. -/
structure Untouched (root : Nat) (s s' : VenomFuse σ) : Prop where
  nodes : ∀ t, InTree s.container root t → nodes s'.container t = nodes s.container t
  free : free s'.container = free s.container
  same : SameVolume s.container s'.container
  inodes : s'.inodes = s.inodes

section Invariant

variable {root : Nat} {s s' : VenomFuse σ}

omit [NodeStore σ] in
theorem NamespaceOk.withInodes (h : NamespaceOk root s) (hc : s'.container = s.container)
    (hinodes : s'.inodes.Backed)
    (hknown : ∀ ino slot, s'.inodes.slotOf ino = some slot → InTree s.container root slot) :
    NamespaceOk root s' := by
  obtain ⟨htree, hplain, hsorted, hcovers, hapart, -, -⟩ := h
  rw [← hc] at htree hplain hsorted hcovers hapart hknown
  exact ⟨htree, hplain, hsorted, hcovers, hapart, hinodes, hknown⟩

theorem walk_concat_eq_none {f : Nat → String → Option Nat} {path : List String} {name : String}
    {p : Nat} (hpath : walk f root path = some p) (hnone : f p name = none) :
    walk f root (path ++ [name]) = none := by
  simp [walk_append, hpath, hnone]

omit [NodeStore σ] in
/-- The nodes of a tree determine it. -/
theorem walk_of_nodes {c c' : σ} (h : ∀ t, InTree c root t → nodes c' t = nodes c t)
    (q : List String) : walk (child (nodes c')) root q = walk (child (nodes c)) root q :=
  walk_congr fun _ n _ _ hs => child_congr (h _ ⟨_, hs⟩) n

omit [NodeStore σ] in
theorem inTree_of_nodes {c c' : σ} (h : ∀ t, InTree c root t → nodes c' t = nodes c t) (t : Nat) :
    InTree c' root t ↔ InTree c root t :=
  exists_congr fun q => by rw [walk_of_nodes h]

theorem TreeOk.of_nodes {c c' : σ} (h : TreeOk c root) (hsame : SameVolume c c')
    (hnodes : ∀ t, InTree c root t → nodes c' t = nodes c t) : TreeOk c' root where
  rootDir := by rw [hnodes root Reachable.self]; exact h.rootDir
  tree := fun hp hq => by
    rw [walk_of_nodes hnodes] at hp hq
    exact h.tree hp hq
  dataSlot t ht := hsame.isDataSlot.mpr (h.dataSlot t ((inTree_of_nodes hnodes t).mp ht))
  node t ht := by
    have ht' := (inTree_of_nodes hnodes t).mp ht
    rw [hnodes t ht']
    exact h.node t ht'
  names t d ht hd := by
    have ht' := (inTree_of_nodes hnodes t).mp ht
    rw [hnodes t ht'] at hd
    exact h.names t d ht' hd

/-- A failed call keeps the invariant. -/
theorem Untouched.keeps (h : Untouched root s s') (hs : NamespaceOk root s) : NamespaceOk root s' where
  tree := hs.tree.of_nodes h.same h.nodes
  plain t fb ht hfb := by
    have ht' := (inTree_of_nodes h.nodes t).mp ht
    rw [h.nodes t ht'] at hfb
    exact hs.plain t fb ht' hfb
  sorted := by rw [h.free]; exact hs.sorted
  covers t := by
    rw [h.same.isDataSlot, h.free, inTree_of_nodes h.nodes]
    exact hs.covers t
  apart t ht := by
    rw [h.free] at ht
    rw [inTree_of_nodes h.nodes]
    exact hs.apart t ht
  inodes := by rw [h.inodes]; exact hs.inodes
  known ino slot hslot := by
    rw [h.inodes] at hslot
    rw [inTree_of_nodes h.nodes]
    exact hs.known ino slot hslot

theorem Untouched.refl (root : Nat) (s : VenomFuse σ) : Untouched root s s :=
  ⟨fun _ _ => rfl, rfl, .refl _, rfl⟩

omit [NodeStore σ] in
/-- One edge of the tree changes on the abstract tree as well. -/
theorem pathTree_changed {c c' : σ} {p : Nat} {path : List String} {name : String}
    {d d' : DirectoryBlock} (h : TreeOk c root) (hpath : walk (child (nodes c)) root path = some p)
    (hchange : EdgeChange (child (nodes c)) (child (nodes c')) root p name)
    (hd : nodes c p = some (.directory d)) (hd' : nodes c' p = some (.directory d'))
    (hothers : ∀ t, InTree c root t → t ≠ p → child (nodes c) p name ≠ some t →
      nodes c' t = nodes c t) :
    pathTree c' root = Function.update (pathTree c root) (path ++ [name])
      ((child (nodes c') p name).bind fun t => (nodes c' t).map kindOf) := by
  funext q
  rw [pathTree, hchange.walk_eq h.tree hpath]
  by_cases hq : q = path ++ [name]
  · rw [if_pos hq, hq, Function.update_self]
  · rw [if_neg hq, Function.update_of_ne hq, pathTree]
    cases hw : walk (child (nodes c)) root q with
    | none => rfl
    | some t =>
      simp only [Option.bind_some]
      by_cases htp : t = p
      · rw [htp, hd, hd']
        rfl
      · rw [hothers t ⟨q, hw⟩ htp fun hc => hq (h.tree hw (walk_concat_eq_some.mpr ⟨p, hpath, hc⟩))]

end Invariant

section Operations

variable {root : Nat} {s s₁ s₂ s' : VenomFuse σ}

omit [NodeStore σ] in
theorem NamespaceOk.free_dataSlot (h : NamespaceOk root s) {t : Nat} (ht : t ∈ free s.container) :
    IsDataSlot s.container t := (h.covers t).mpr (.inl ht)

variable [LawfulNodeStore σ]

/-- A node that fits is not written only for want of a slot. -/
theorem write_failed {n : VaultNode} {e : Failure} (hfits : Fits (NodeStore.cipher s.container) n)
    (hdata : ∀ t, InTree s.container root t → IsDataSlot s.container t)
    (hwrite : (liftStore (writeNode n)).run s = .error e s₁) : Untouched root s s₁ := by
  have hun := writeNode_unchanged hfits hwrite
  exact ⟨fun t ht => hun.nodes t (hdata t ht), hun.free, hun.same, hun.inodes⟩

omit [LawfulNodeStore σ] in
theorem Unchanged.untouched (h : Unchanged s s') (hs : NamespaceOk root s) : Untouched root s s' :=
  ⟨fun t ht => h.nodes t (hs.tree.dataSlot t ht), h.free, h.same, h.inodes⟩

/-- A node that could not be linked is gone, and its slot is where it was. -/
theorem NamespaceOk.notLinked (h : NamespaceOk root s) {n : VaultNode} {slot p : Nat}
    {entry : DirEntry} {e : Failure} (hwrite : (liftStore (writeNode n)).run s = .ok slot s₁)
    (hlink : (linkOrFree p slot entry).run s₁ = .error e s₂) : Untouched root s s₂ := by
  obtain ⟨hs₁, hfree, -, hothers, hsame, hmem⟩ := writeNode_written (fun _ => h.free_dataSlot) hwrite
  obtain ⟨s₃, hun, rfl⟩ := linkOrFree_error hlink
  have hdata : ∀ t, IsDataSlot s.container t → IsDataSlot s₃.container t := fun t ht =>
    hun.same.isDataSlot.mpr (hsame.isDataSlot.mpr ht)
  obtain ⟨hfreed, hothers', hsame'⟩ :=
    LawfulNodeStore.freeNode_spec s₃.container slot (hdata _ (h.free_dataSlot hmem))
  refine ⟨fun t ht => ?_, ?_, (hsame.trans hun.same).trans hsame', ?_⟩
  · have ht' := h.tree.dataSlot t ht
    have hne : t ≠ slot := fun heq => h.apart slot hmem (heq ▸ ht)
    exact (hothers' t (hdata t ht') hne).trans
      ((hun.nodes t (hsame.isDataSlot.mpr ht')).trans (hothers t ht' hne))
  · have hsorted := h.sorted
    rw [hfree] at hsorted
    change free (NodeStore.freeNode slot s₃.container) = _
    rw [hfreed, hun.free, insertFree_last hsorted, hfree]
  · change s₃.inodes = s.inodes
    rw [hun.inodes, hs₁]

/-- A leaf that was written and linked. -/
theorem NamespaceOk.linked (h : NamespaceOk root s) {n : VaultNode} {slot p : Nat} {name : String}
    {kind : NodeKind} {path : List String}
    (hpath : walk (child (nodes s.container)) root path = some p)
    (hn : n = emptyDir ∨ n = headNode 0 [] none [])
    (hwrite : (liftStore (writeNode n)).run s = .ok slot s₁)
    (hlink : (linkOrFree p slot { name, slot, kind }).run s₁ = .ok () s₂) :
    NamespaceOk root s₂ ∧ InTree s₂.container root slot ∧ s₂ = { s with container := s₂.container } ∧
      pathTree s.container root path = some .directory ∧
      pathTree s.container root (path ++ [name]) = none ∧
      pathTree s₂.container root =
        Function.update (pathTree s.container root) (path ++ [name]) (some (kindOf n)) ∧
      SameVolume s.container s₂.container ∧
      ∀ t, InTree s.container root t → t ≠ p → nodes s₂.container t = nodes s.container t := by
  obtain ⟨hs₁, hfree, hnode, hothers, hsame, hmem⟩ := writeNode_written (fun _ => h.free_dataSlot) hwrite
  have hp : InTree s.container root p := ⟨path, hpath⟩
  have hpdata := h.tree.dataSlot p hp
  obtain ⟨d, hadd⟩ := dirAddEntry_added (hsame.isDataSlot.mpr hpdata) (linkOrFree_ok hlink)
  have hfresh : ¬ InTree s.container root slot := h.apart slot hmem
  have hne : ∀ t, InTree s.container root t → t ≠ slot := fun t ht heq => hfresh (heq ▸ ht)
  have hd : nodes s.container p = some (.directory d) := by
    rw [← hothers p hpdata (hne p hp)]
    exact hadd.dir
  have hslot : nodes s₂.container slot = some n := by
    rw [hadd.others slot (hsame.isDataSlot.mpr (h.free_dataSlot hmem)) (hne p hp).symm, hnode]
  have hkept : ∀ t, InTree s.container root t → t ≠ p →
      nodes s₂.container t = nodes s.container t := fun t ht htp => by
    have ht' := h.tree.dataSlot t ht
    rw [hadd.others t (hsame.isDataSlot.mpr ht') htp, hothers t ht' (hne t ht)]
  have hleaf : IsLeaf (nodes s₂.container) slot := by
    rcases hn with rfl | rfl
    · exact .inl ⟨_, hslot, rfl⟩
    · exact .inr ⟨_, hslot⟩
  obtain ⟨hchange, hsome, htree⟩ := h.tree.linked (e := ⟨name, slot, kind⟩) hp hd hadd.new hfresh
    (h.free_dataSlot hmem) (hsame.trans hadd.same) hadd.node hleaf hkept
  have hnone : child (nodes s.container) p name = none := by
    rw [child_directory hd, show entryOf d name = none from hadd.new]
    rfl
  have hreach : ∀ t, InTree s₂.container root t ↔ InTree s.container root t ∨ t = slot := fun t => by
    rw [InTree, hchange.reachable h.tree.tree hpath, hsome, hnone]
    simp [eq_comm]
  have hfree₂ : free s.container = free s₂.container ++ [slot] := by rw [hadd.free, hfree]
  refine ⟨⟨htree, fun t fb ht hfb => ?_, ?_, fun t => ?_, fun t ht => ?_, ?_, fun ino t ht => ?_⟩,
    (hreach slot).mpr (.inr rfl), ?_, ?_, ?_, ?_, hsame.trans hadd.same, hkept⟩
  · by_cases htp : t = p
    · rw [htp, hadd.node] at hfb
      cases hfb
    · rcases (hreach t).mp ht with hold | rfl
      · rw [hkept t hold htp] at hfb
        exact h.plain t fb hold hfb
      · rw [hslot] at hfb
        rcases hn with rfl | rfl
        · cases hfb
        · cases hfb
          exact ⟨rfl, rfl⟩
  · have hsorted := h.sorted.pairwise
    rw [hfree₂] at hsorted
    exact (List.pairwise_append.mp hsorted).1.sortedGT
  · rw [(hsame.trans hadd.same).isDataSlot, h.covers t, hreach, hfree₂, List.mem_append,
      List.mem_singleton]
    tauto
  · have hnodup := h.sorted.nodup
    rw [hfree₂] at hnodup
    rw [hreach]
    rintro (hold | rfl)
    · exact h.apart t (by rw [hfree₂]; exact List.mem_append_left _ ht) hold
    · exact (List.nodup_append.mp hnodup).2.2 t ht t List.mem_cons_self rfl
  · rw [hadd.state, hs₁]
    exact h.inodes
  · rw [hadd.state, hs₁] at ht
    exact (hreach t).mpr (.inl (h.known ino t ht))
  · rw [hadd.state, hs₁]
  · simp [pathTree, hpath, hd, kindOf]
  · rw [pathTree, walk_concat_eq_none hpath hnone]
    rfl
  · rw [pathTree_changed h.tree hpath hchange hd hadd.node fun t ht htp _ => hkept t ht htp]
    simp [hsome, hslot]

/-- A leaf whose entry was taken out, with its slot and its inode given up. -/
theorem NamespaceOk.unlinked (h : NamespaceOk root s) {p : Nat} {d : DirectoryBlock} {name : String}
    {e : DirEntry} {path : List String} (hpath : walk (child (nodes s.container)) root path = some p)
    (hrem : Removed s s₁ p d name e) (hleaf : IsLeaf (nodes s.container) e.slot)
    (hc : s₂.container = NodeStore.freeNode e.slot s₁.container)
    (hinodes : s₂.inodes = s.inodes.removeSlot e.slot) :
    NamespaceOk root s₂ ∧ pathTree s.container root path = some .directory ∧
      pathTree s.container root (path ++ [name]) = (nodes s.container e.slot).map kindOf ∧
      pathTree s₂.container root = Function.update (pathTree s.container root) (path ++ [name]) none ∧
      SameVolume s.container s₂.container ∧
      ∀ t, InTree s.container root t → InTree s₂.container root t → t ≠ p →
        nodes s₂.container t = nodes s.container t := by
  have hp : InTree s.container root p := ⟨path, hpath⟩
  have hsome : child (nodes s.container) p name = some e.slot := by
    rw [child_directory hrem.dir, hrem.entry]; rfl
  have he : InTree s.container root e.slot := InTree.entry hp hrem.dir hrem.entry
  have hne : p ≠ e.slot := fun heq => by
    rw [heq] at hsome
    rw [hleaf.child] at hsome
    cases hsome
  have hedata := h.tree.dataSlot _ he
  obtain ⟨hfree, hothers, hsame⟩ := LawfulNodeStore.freeNode_spec s₁.container e.slot
    (hrem.same.isDataSlot.mpr hedata)
  rw [← hc] at hfree hothers hsame
  have hkept : ∀ t, InTree s.container root t → t ≠ p → t ≠ e.slot →
      nodes s₂.container t = nodes s.container t := fun t ht htp hte => by
    have ht' := h.tree.dataSlot t ht
    rw [hothers t (hrem.same.isDataSlot.mpr ht') hte, hrem.others t ht' htp]
  have hdir : nodes s₂.container p = some (.directory (without d name)) := by
    rw [hothers p (hrem.same.isDataSlot.mpr (h.tree.dataSlot p hp)) hne, hrem.node]
  obtain ⟨hchange, hnone, htree⟩ := h.tree.unlinked hp hrem.dir hrem.entry hleaf
    (hrem.same.trans hsame) hdir hkept
  have hreach : ∀ t, InTree s₂.container root t ↔ InTree s.container root t ∧ t ≠ e.slot := fun t => by
    rw [InTree, hchange.reachable h.tree.tree hpath, hsome, hnone]
    simp [eq_comm]
  rw [hrem.free] at hfree
  have hnotfree : e.slot ∉ free s.container := fun hmem => h.apart _ hmem he
  obtain ⟨hbacked, hknown⟩ := h.inodes.removeSlot e.slot
  refine ⟨⟨htree, fun t fb ht hfb => ?_, ?_, fun t => ?_, fun t ht => ?_, ?_, fun ino t ht => ?_⟩,
    ?_, ?_, ?_, hrem.same.trans hsame, fun t ht ht' htp => hkept t ht htp ((hreach t).mp ht').2⟩
  · obtain ⟨hold, hte⟩ := (hreach t).mp ht
    by_cases htp : t = p
    · rw [htp, hdir] at hfb
      cases hfb
    · rw [hkept t hold htp hte] at hfb
      exact h.plain t fb hold hfb
  · rw [hfree]
    exact sortedGT_insertFree h.sorted hnotfree
  · rw [(hrem.same.trans hsame).isDataSlot, h.covers t, hreach, hfree, mem_insertFree]
    by_cases hte : t = e.slot
    · simp [hte, he]
    · simp [hte]
  · rw [hfree, mem_insertFree] at ht
    rw [hreach]
    rintro ⟨hold, hte⟩
    exact h.apart t (ht.resolve_left hte) hold
  · rw [hinodes]
    exact hbacked
  · rw [hinodes] at ht
    obtain ⟨ht', hte⟩ := hknown ino t ht
    exact (hreach t).mpr ⟨h.known ino t ht', hte⟩
  · simp [pathTree, hpath, hrem.dir, kindOf]
  · rw [pathTree, walk_concat_eq_some.mpr ⟨p, hpath, hsome⟩]
    rfl
  · rw [pathTree_changed h.tree hpath hchange hrem.dir hdir
      fun t ht htp hc' => hkept t ht htp fun hte => hc' (hte ▸ hsome)]
    rw [hnone]
    rfl

/-! ## Each call -/

/-- What a call does to a sound name space. -/
structure Stepped (root : Nat) (call : NamespaceCall) (s : VenomFuse σ) : Prop where
  ok : ∀ u s', call.run.run s = .ok u s' → NamespaceOk root s' ∧ ∃ p, Refines root call s s' p
  error : ∀ e s', call.run.run s = .error e s' → Untouched root s s'

variable {parent : Nat} {name : String}

theorem lookup_step (h : NamespaceOk root s) : Stepped root ⟨.lookup, parent, name⟩ s := by
  constructor
  · intro u s' hrun
    obtain ⟨r, hrun⟩ := discard_ok.mp hrun
    obtain ⟨p, s₁, hslot, h₁⟩ := run_bind_ok.mp hrun
    obtain ⟨hp, rfl⟩ := slotOfIno_ok.mp hslot
    obtain ⟨path, hpath⟩ := h.known parent p hp
    have hpdata := h.tree.dataSlot p ⟨path, hpath⟩
    obtain ⟨d, s₂, hread, h₂⟩ := run_bind_ok.mp h₁
    obtain ⟨rfl, hd⟩ := readDirBlock_ok hread
    split at h₂
    next => cases h₂
    next e he =>
      obtain ⟨n, s₃, hnode, h₃⟩ := run_bind_ok.mp h₂
      obtain ⟨c, hnode', rfl⟩ := liftStore_ok.mp hnode
      obtain ⟨rfl, -⟩ := readNode_inv hnode'
      obtain ⟨ino, s₄, hino, h₄⟩ := run_bind_ok.mp h₃
      obtain ⟨rfl, -⟩ := inoOfSlot_ok hino
      cases h₄
      have hsome : child (nodes s₂.container) p name = some e.slot := by
        rw [child_directory (hd hpdata), show entryOf d name = some e from he]; rfl
      obtain ⟨hbacked, hknown⟩ := h.inodes.getOrAlloc e.slot
      have hin : InTree s₂.container root e.slot := Reachable.step ⟨path, hpath⟩ hsome
      refine ⟨h.withInodes rfl hbacked fun ino t ht => ?_, p, hp, ⟨path, hpath, ?_, ?_, rfl⟩,
        .refl _, fun _ _ _ _ => rfl⟩
      · rcases hknown ino t ht with ht | rfl
        · exact h.known ino t ht
        · exact hin
      · simp [pathTree, hpath, hd hpdata, kindOf]
      · rw [pathTree, walk_concat_eq_some.mpr ⟨p, hpath, hsome⟩]
        obtain ⟨d', hd'⟩ | ⟨fb, hfb⟩ := h.tree.node _ hin
        · simp [hd']
        · simp [hfb]
  · intro e s' hrun
    rw [NamespaceCall.run, discard_error] at hrun
    have hsame : s' = s := by
      rcases run_bind_error.mp hrun with hslot | ⟨p, s₁, hslot, h₁⟩
      · exact slotOfIno_error hslot
      obtain ⟨-, rfl⟩ := slotOfIno_ok.mp hslot
      rcases run_bind_error.mp h₁ with hread | ⟨d, s₂, hread, h₂⟩
      · exact (readDirBlock_error hread).1
      obtain ⟨rfl, -⟩ := readDirBlock_ok hread
      split at h₂
      next => cases h₂; rfl
      next =>
        rcases run_bind_error.mp h₂ with hnode | ⟨n, s₃, hnode, h₃⟩
        · obtain ⟨c, hnode', rfl⟩ := liftStore_error.mp hnode
          obtain ⟨rfl, -⟩ := readNode_error hnode'
          rfl
        · rcases run_bind_error.mp h₃ with hino | ⟨ino, s₄, -, h₄⟩
          · cases hino
          · cases h₄
    rw [hsame]
    exact .refl root s

theorem emptyDir_fits (cipher : Container.CipherAlgorithm) : Fits cipher emptyDir := by
  cases cipher <;> decide +kernel

theorem emptyHead_fits (cipher : Container.CipherAlgorithm) : Fits cipher (headNode 0 [] none []) := by
  cases cipher <;> decide +kernel

theorem mkdir_step (h : NamespaceOk root s) : Stepped root ⟨.mkdir, parent, name⟩ s := by
  constructor
  · intro u s' hrun
    obtain ⟨r, hrun⟩ := discard_ok.mp hrun
    obtain ⟨p, s₁, hslot, h₁⟩ := run_bind_ok.mp hrun
    obtain ⟨hp, rfl⟩ := slotOfIno_ok.mp hslot
    obtain ⟨path, hpath⟩ := h.known parent p hp
    obtain ⟨slot, s₂, hwrite, h₂⟩ := run_bind_ok.mp h₁
    obtain ⟨_, s₃, hlink, h₃⟩ := run_bind_ok.mp h₂
    obtain ⟨ino, s₄, hino, h₄⟩ := run_bind_ok.mp h₃
    obtain ⟨rfl, -⟩ := inoOfSlot_ok hino
    cases h₄
    obtain ⟨hok, hin, -, hdir, hnone, heffect, hvolume, hothers⟩ := h.linked hpath (.inl rfl) hwrite hlink
    obtain ⟨hbacked, hknown⟩ := hok.inodes.getOrAlloc slot
    refine ⟨hok.withInodes rfl hbacked fun ino t ht => ?_, p, hp, ⟨path, hpath, hdir, hnone, heffect⟩,
      hvolume, fun t ht _ htp => hothers t ht htp⟩
    rcases hknown ino t ht with ht | rfl
    · exact hok.known ino t ht
    · exact hin
  · intro e s' hrun
    rw [NamespaceCall.run, discard_error] at hrun
    rcases run_bind_error.mp hrun with hslot | ⟨p, s₁, hslot, h₁⟩
    · rw [slotOfIno_error hslot]
      exact .refl root s
    obtain ⟨-, rfl⟩ := slotOfIno_ok.mp hslot
    rcases run_bind_error.mp h₁ with hwrite | ⟨slot, s₂, hwrite, h₂⟩
    · exact write_failed (emptyDir_fits _) h.tree.dataSlot hwrite
    rcases run_bind_error.mp h₂ with hlink | ⟨_, s₃, -, h₃⟩
    · exact h.notLinked hwrite hlink
    rcases run_bind_error.mp h₃ with hino | ⟨ino, s₄, -, h₄⟩
    · cases hino
    · cases h₄

theorem create_step (h : NamespaceOk root s) : Stepped root ⟨.create, parent, name⟩ s := by
  constructor
  · intro u s' hrun
    obtain ⟨r, hrun⟩ := discard_ok.mp hrun
    obtain ⟨p, s₁, hslot, h₁⟩ := run_bind_ok.mp hrun
    obtain ⟨hp, rfl⟩ := slotOfIno_ok.mp hslot
    obtain ⟨path, hpath⟩ := h.known parent p hp
    obtain ⟨slot, s₂, hwrite, h₂⟩ := run_bind_ok.mp h₁
    obtain ⟨_, s₃, hlink, h₃⟩ := run_bind_ok.mp h₂
    obtain ⟨ino, s₄, hino, h₄⟩ := run_bind_ok.mp h₃
    obtain ⟨rfl, -⟩ := inoOfSlot_ok hino
    obtain ⟨fh, s₅, halloc, h₅⟩ := run_bind_ok.mp h₄
    obtain ⟨_, s₆, hins, h₆⟩ := run_bind_ok.mp h₅
    rw [insertHandle_ok] at hins
    cases halloc
    subst hins
    cases h₆
    obtain ⟨hok, hin, -, hdir, hnone, heffect, hvolume, hothers⟩ := h.linked hpath (.inr rfl) hwrite hlink
    obtain ⟨hbacked, hknown⟩ := hok.inodes.getOrAlloc slot
    refine ⟨hok.withInodes rfl hbacked fun ino t ht => ?_, p, hp, ⟨path, hpath, hdir, hnone, heffect⟩,
      hvolume, fun t ht _ htp => hothers t ht htp⟩
    rcases hknown ino t ht with ht | rfl
    · exact hok.known ino t ht
    · exact hin
  · intro e s' hrun
    rw [NamespaceCall.run, discard_error] at hrun
    rcases run_bind_error.mp hrun with hslot | ⟨p, s₁, hslot, h₁⟩
    · rw [slotOfIno_error hslot]
      exact .refl root s
    obtain ⟨-, rfl⟩ := slotOfIno_ok.mp hslot
    rcases run_bind_error.mp h₁ with hwrite | ⟨slot, s₂, hwrite, h₂⟩
    · exact write_failed (emptyHead_fits _) h.tree.dataSlot hwrite
    rcases run_bind_error.mp h₂ with hlink | ⟨_, s₃, -, h₃⟩
    · exact h.notLinked hwrite hlink
    -- once the head is linked nothing fails
    rcases run_bind_error.mp h₃ with hino | ⟨ino, s₄, -, h₄⟩
    · cases hino
    · cases h₄

theorem rmdir_step (h : NamespaceOk root s) : Stepped root ⟨.rmdir, parent, name⟩ s := by
  constructor
  · intro u s' hrun
    obtain ⟨p, s₁, hslot, h₁⟩ := run_bind_ok.mp (show (opRmdir parent name).run s = .ok u s' from hrun)
    obtain ⟨hp, rfl⟩ := slotOfIno_ok.mp hslot
    obtain ⟨path, hpath⟩ := h.known parent p hp
    have hpdata := h.tree.dataSlot p ⟨path, hpath⟩
    obtain ⟨d, s₂, hread, h₂⟩ := run_bind_ok.mp h₁
    obtain ⟨rfl, hd⟩ := readDirBlock_ok hread
    split at h₂
    next => cases h₂
    next e he =>
      have hin := InTree.entry ⟨path, hpath⟩ (hd hpdata) (show entryOf d name = some e from he)
      obtain ⟨target, s₃, htarget, h₃⟩ := run_bind_ok.mp h₂
      obtain ⟨rfl, ht⟩ := readDirBlock_ok htarget
      have ht := ht (h.tree.dataSlot _ hin)
      by_cases hempty : target.entries ≠ []
      · rw [if_pos hempty] at h₃
        cases h₃
      · rw [if_neg hempty] at h₃
        have hnil : target.entries = [] := not_not.mp hempty
        obtain ⟨removed, s₄, hremove, h₄⟩ := run_bind_ok.mp h₃
        obtain ⟨d', e', hrem, rfl⟩ := dirRemoveEntry_ok hpdata hremove
        obtain rfl : d' = d :=
          VaultNode.directory.inj (Option.some.inj (hrem.dir.symm.trans (hd hpdata)))
        obtain rfl : e' = e := Option.some.inj (hrem.entry.symm.trans he)
        obtain ⟨_, s₅, hfree, h₅⟩ := run_bind_ok.mp h₄
        obtain ⟨c, hfree', rfl⟩ := liftStore_ok.mp hfree
        rw [freeNode_run_ok] at hfree'
        cases h₅
        have hleaf : IsLeaf (nodes s₃.container) e'.slot := .inl ⟨target, ht, hnil⟩
        obtain ⟨hok, hdir, hkind, heffect, hvolume, hothers⟩ := @NamespaceOk.unlinked _ _ _ root s₃ s₄
          { s₄ with container := c, inodes := s₄.inodes.removeSlot e'.slot } _ h p d' name e' path hpath
          hrem hleaf hfree' (by rw [hrem.state])
        have hbelow : ∀ n, pathTree s₃.container root (path ++ [name] ++ [n]) = none := fun n => by
          have hsome : child (nodes s₃.container) p name = some e'.slot := by
            rw [child_directory hrem.dir, hrem.entry]; rfl
          rw [pathTree, walk_concat_eq_none (walk_concat_eq_some.mpr ⟨p, hpath, hsome⟩) (hleaf.child n)]
          rfl
        refine ⟨hok, p, hp, ⟨path, hpath, hdir, ?_, hbelow, heffect⟩, hvolume, hothers⟩
        rw [hkind, ht]
        rfl
  · intro e s' hrun
    rcases run_bind_error.mp (show (opRmdir parent name).run s = .error e s' from hrun) with
      hslot | ⟨p, s₁, hslot, h₁⟩
    · rw [slotOfIno_error hslot]
      exact .refl root s
    obtain ⟨-, rfl⟩ := slotOfIno_ok.mp hslot
    rcases run_bind_error.mp h₁ with hread | ⟨d, s₂, hread, h₂⟩
    · rw [(readDirBlock_error hread).1]
      exact .refl root _
    obtain ⟨rfl, -⟩ := readDirBlock_ok hread
    split at h₂
    next =>
      cases h₂
      exact .refl root _
    next =>
      rcases run_bind_error.mp h₂ with htarget | ⟨target, s₃, htarget, h₃⟩
      · rw [(readDirBlock_error htarget).1]
        exact .refl root _
      obtain ⟨rfl, -⟩ := readDirBlock_ok htarget
      split at h₃
      next =>
        cases h₃
        exact .refl root _
      next =>
        rcases run_bind_error.mp h₃ with hremove | ⟨removed, s₄, -, h₄⟩
        · exact (dirRemoveEntry_error hremove).untouched h
        -- once the entry is out nothing fails
        rcases run_bind_error.mp h₄ with hfree | ⟨_, s₅, -, h₅⟩
        · cases hfree
        · cases h₅

/-- What follows the removal of an entry whose node has no further slots: its slot is freed, and
    nothing can fail. -/
theorem opUnlink_plain {p : Nat} {d : DirectoryBlock} {e : DirEntry}
    (hp : s.inodes.slotOf parent = some p) (hremove : (dirRemoveEntry p name).run s = .ok e.slot s₁)
    (hrem : Removed s s₁ p d name e) (hdata : IsDataSlot s₁.container e.slot)
    (hplain : ∀ fb, nodes s₁.container e.slot = some (.file fb) →
      fb.dataSlots = [] ∧ fb.indexChain = none) :
    ∃ s₂, (opUnlink parent name).run s = .ok () s₂ ∧
      s₂.container = NodeStore.freeNode e.slot s₁.container ∧
      s₂.inodes = s.inodes.removeSlot e.slot := by
  refine ⟨{ s₁ with
    container := NodeStore.freeNode e.slot s₁.container
    openFiles := s₁.openFiles.retain (fun _ of => decide (of.headSlot ≠ e.slot))
    inodes := s₁.inodes.removeSlot e.slot }, ?_, rfl, by rw [hrem.state]⟩
  unfold opUnlink
  rw [run_bind_of_ok (slotOfIno_ok.mpr ⟨hp, rfl⟩), run_bind_of_ok hremove,
    run_bind_of_ok run_modify, run_bind_of_ok run_get]
  dsimp only
  split
  next fb hread =>
    obtain ⟨hids, hchain⟩ := hplain fb ((readNode_ok hdata).mp hread)
    rw [hids, hchain]
    rfl
  next => rfl

theorem unlink_step (h : NamespaceOk root s)
    (hallowed : NamespaceCall.Allowed ⟨.unlink, parent, name⟩ s) :
    Stepped root ⟨.unlink, parent, name⟩ s := by
  -- either the entry is not taken out, and nothing happens, or the whole call succeeds
  have hcases : (∀ u s', (opUnlink parent name).run s ≠ .ok u s') ∧
      (∀ e s', (opUnlink parent name).run s = .error e s' → Untouched root s s') ∨
      ∃ p s', (opUnlink parent name).run s = .ok () s' ∧ NamespaceOk root s' ∧
        Refines root ⟨.unlink, parent, name⟩ s s' p := by
    rcases run_cases (slotOfIno parent) s with ⟨p, hslot⟩ | ⟨err, hslot⟩
    · obtain ⟨hp, hs⟩ := slotOfIno_ok.mp hslot
      rw [hs] at hslot
      obtain ⟨path, hpath⟩ := h.known parent p hp
      have hpdata := h.tree.dataSlot p ⟨path, hpath⟩
      rcases run_cases (dirRemoveEntry p name) s with ⟨removed, hremove⟩ | ⟨err, hremove⟩
      · obtain ⟨d, e, hrem, rfl⟩ := dirRemoveEntry_ok hpdata hremove
        have hin := InTree.entry ⟨path, hpath⟩ hrem.dir hrem.entry
        have hedata := h.tree.dataSlot _ hin
        have hsome : child (nodes s.container) p name = some e.slot := by
          rw [child_directory hrem.dir, hrem.entry]; rfl
        obtain ⟨fb, hfile⟩ := hallowed rfl p e.slot hp hsome
        obtain ⟨hids, hchain⟩ := h.plain _ fb hin hfile
        have hne : e.slot ≠ p := fun heq => by
          rw [heq, hrem.dir] at hfile
          cases hfile
        obtain ⟨s', hrun, hc, hinodes⟩ := opUnlink_plain hp hremove hrem
          (hrem.same.isDataSlot.mpr hedata) fun fb' hfb' => by
            rw [hrem.others _ hedata hne, hfile] at hfb'
            cases hfb'
            exact ⟨hids, hchain⟩
        obtain ⟨hok, hdir, hkind, heffect, hvolume, hothers⟩ :=
          h.unlinked hpath hrem (.inr ⟨fb, hfile⟩) hc hinodes
        refine .inr ⟨p, s', hrun, hok, hp, ⟨path, hpath, hdir, ?_, heffect⟩, hvolume, hothers⟩
        rw [hkind, hfile]
        rfl
      · have hrun : (opUnlink parent name).run s = .error err _ :=
          (run_bind_of_ok hslot).trans (run_bind_of_error hremove)
        refine .inl ⟨fun u s' hok => ?_, fun e s' herror => ?_⟩
        · rw [hrun] at hok; cases hok
        · rw [hrun] at herror
          cases herror
          exact (dirRemoveEntry_error hremove).untouched h
    · have hrun : (opUnlink parent name).run s = .error err _ := run_bind_of_error hslot
      refine .inl ⟨fun u s' hok => ?_, fun e s' herror => ?_⟩
      · rw [hrun] at hok; cases hok
      · rw [hrun] at herror
        cases herror
        rw [slotOfIno_error hslot]
        exact .refl root s
  obtain ⟨hno, herror⟩ | ⟨p, s', hrun, hok, hrefines⟩ := hcases
  · exact ⟨fun u s' hok => absurd hok (hno u s'), herror⟩
  · refine ⟨fun u s'' hrun' => ?_, fun e s'' hrun' => ?_⟩
    · cases hrun.symm.trans hrun'
      exact ⟨hok, p, hrefines⟩
    · cases hrun.symm.trans hrun'

/-- Every call refines its effect on the abstract tree, or leaves everything as it was. -/
theorem NamespaceCall.step (h : NamespaceOk root s) (call : NamespaceCall) (hallowed : call.Allowed s) :
    Stepped root call s := by
  obtain ⟨op, parent, name⟩ := call
  cases op with
  | lookup => exact lookup_step h
  | mkdir => exact mkdir_step h
  | create => exact create_step h
  | unlink => exact unlink_step h hallowed
  | rmdir => exact rmdir_step h

/-- The name space stays sound along every run. -/
theorem NamespaceRun.sound {s₀ : VenomFuse σ} (hs₀ : NamespaceOk root s₀) (h : NamespaceRun s₀ s) :
    NamespaceOk root s ∧ SameVolume s₀.container s.container := by
  induction h with
  | start => exact ⟨hs₀, .refl _⟩
  | @call s call _ hallowed ih =>
    obtain ⟨hok, hsame⟩ := ih
    have hstep := call.step hok hallowed
    rcases run_cases call.run s with ⟨u, hrun⟩ | ⟨e, hrun⟩
    · obtain ⟨hok', p, hrefines⟩ := hstep.ok _ _ hrun
      exact ⟨hok', hsame.trans hrefines.same⟩
    · have huntouched := hstep.error _ _ hrun
      exact ⟨huntouched.keeps hok, hsame.trans huntouched.same⟩

/-! ## A new volume -/

omit [NodeStore σ] [LawfulNodeStore σ] in
/-- The root of a new volume is all there is of its tree. -/
theorem Formatted.inTree {c : σ} (h : Formatted c root) (t : Nat) : InTree c root t ↔ t = root := by
  have hleaf : IsLeaf (nodes c) root := .inl ⟨_, h.rootNode, rfl⟩
  refine ⟨fun ⟨q, hq⟩ => ?_, fun ht => ht ▸ Reachable.self⟩
  cases q with
  | nil => exact (Option.some.inj hq).symm
  | cons n q =>
    rw [walk, hleaf.child] at hq
    cases hq

omit [NodeStore σ] [LawfulNodeStore σ] in
theorem Formatted.treeOk {c : σ} (h : Formatted c root) : TreeOk c root where
  rootDir := ⟨_, h.rootNode⟩
  tree := IsTree.of_leaf (IsLeaf.child (.inl ⟨_, h.rootNode, rfl⟩))
  dataSlot t ht := by
    rw [(h.inTree t).mp ht]
    exact h.dataSlot
  node t ht := by
    rw [(h.inTree t).mp ht]
    exact .inl ⟨_, h.rootNode⟩
  names t d ht hd := by
    rw [(h.inTree t).mp ht] at hd
    cases h.rootNode.symm.trans hd
    exact List.nodup_nil

omit [NodeStore σ] [LawfulNodeStore σ] in
/-- The name space of a new volume is sound. -/
theorem NamespaceOk.formatted {c : σ} (h : Formatted c root) (hsorted : (free c).SortedGT) :
    NamespaceOk root (VenomFuse.new root c) where
  tree := h.treeOk
  plain t fb ht hfb := by
    rw [(h.inTree t).mp ht] at hfb
    cases h.rootNode.symm.trans hfb
  sorted := hsorted
  covers t := by
    change IsDataSlot c t ↔ t ∈ free c ∨ InTree c root t
    rw [h.mem_free, h.inTree]
    by_cases ht : t = root
    · simp [ht, h.dataSlot]
    · simp [ht]
  apart t ht hin := ((h.mem_free t).mp ht).2 ((h.inTree t).mp hin)
  inodes := .new root
  known ino slot hslot := by
    refine (h.inTree slot).mpr ?_
    simp only [VenomFuse.new, InodeMap.new, InodeMap.slotOf, HashMap.get_insert] at hslot
    split at hslot
    next => exact (Option.some.inj hslot).symm
    next => simp at hslot

end Operations

end Venom.Fuse
