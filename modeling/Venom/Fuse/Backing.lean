import Venom.Fuse.FlatFile
import Venom.Fuse.Namespace
import Venom.Library.Division
import Venom.Fuse.InodeNumbers

/-! # What lies behind a file system

The tree of directories, the files in it and the open handles, in one invariant of the
driver.  Each node of the tree owns slots: a directory its own, a file its head, its chunks
and its index chain, as far as the handle knows that has it open.  The owners and the free
list divide the slots of the volume, so what one of them does is no concern of the others.
-/

namespace Venom.Fuse

open Venom.Storage
open Venom.Library
open Venom.Library.NameTree
open Venom.Library.StateError
open Venom.Library.OptionLists

variable {σ : Type} [NodeStore σ] [NodeView σ]

/-! ## Files -/

/-- The slots the head and its index chain list on the disk are among those of the handle. -/
def Lists (f : OpenFile) (fb : FileBlock) (ids : List Nat) : Prop :=
  (fb.dataSlots ++ ids).Subperm f.slotMap.reduceOption

/-- The handle `f` fits the disk and shows `bytes`; its slots are `slots`. -/
structure Carries (c : σ) (f : OpenFile) (fb : FileBlock) (ids chain : List Nat) (bytes : List UInt8)
    (slots : List Nat) : Prop where
  ok : OpenOk (Flat bytes) (chunkLimit f.totalSize) ⟨c, f⟩ fb ids chain
  size : f.totalSize = bytes.length
  slots : slots = ownedSlots f chain
  listed : Lists f fb ids

/-- The file with its head in `t`, as its handle has it or as an open would find it. -/
inductive FileAt (s : VenomFuse σ) (t : Nat) (bytes : List UInt8) (slots : List Nat) : Prop
  | opened {fh : Nat} {f : OpenFile} {fb : FileBlock} {ids chain : List Nat} :
      s.openFiles.get fh = some f → f.headSlot = t →
      Carries s.container f fb ids chain bytes slots → FileAt s t bytes slots
  | closed {fb : FileBlock} {ids chain : List Nat} :
      (∀ fh f, s.openFiles.get fh = some f → f.headSlot ≠ t) →
      Carries s.container (reopened 0 t fb ids) fb ids chain bytes slots → FileAt s t bytes slots

section Frames

variable {A : Content} {lim : Nat} {c c' : σ} {f : OpenFile} {fb : FileBlock}
  {ids chain : List Nat} {bytes : List UInt8} {slots : List Nat}

omit [NodeStore σ]

/-- A handle sees its own slots only. -/
theorem OpenOk.framed (h : OpenOk A lim ⟨c, f⟩ fb ids chain) (ha : Accounts c' (ownedSlots f chain))
    (hagree : ∀ t ∈ ownedSlots f chain, nodes c' t = nodes c t) :
    OpenOk A lim ⟨c', f⟩ fb ids chain := by
  have hok := h.handle
  have hb := h.backed
  have hslot : ∀ {i t : Nat}, f.slotMap[i]? = some (some t) → nodes c' t = nodes c t := fun ht =>
    hagree _ (List.mem_append_left _ (mem_of_getElem? ht))
  refine ⟨⟨?_, hok.chainEq, ?_, hok.mapHead, ha, fun t ht => ?_, hok.clean, hok.trimmed⟩,
    hb.cached, hb.cachedLt, hb.inline, fun hs hnode => ?_, hb.gap, fun hs hnode => ?_⟩
  · rw [hagree _ (by simp [ownedSlots])]
    exact hok.head
  · exact hok.index.congr fun t ht => hagree t (by simp [ownedSlots, ht])
  · rw [hagree t (List.mem_append_left _ ht)]
    exact hok.data t ht
  · rw [hslot hs] at hnode
    exact hb.slot hs hnode
  · rw [hslot hs] at hnode
    exact hb.slotLen hs hnode

/-- The inode number in a handle is not looked at. -/
theorem OpenOk.withIno (h : OpenOk A lim ⟨c, f⟩ fb ids chain) (ino : Nat) :
    OpenOk A lim ⟨c, { f with ino }⟩ fb ids chain where
  handle :=
    have hok := h.handle
    ⟨hok.head, hok.chainEq, hok.index, hok.mapHead, hok.accounts, hok.data, hok.clean, hok.trimmed⟩
  backed :=
    have hb := h.backed
    ⟨hb.cached, hb.cachedLt, hb.inline, hb.slot, hb.gap, hb.slotLen⟩

theorem Carries.framed (h : Carries c f fb ids chain bytes slots) (ha : Accounts c' slots)
    (hagree : ∀ t ∈ slots, nodes c' t = nodes c t) : Carries c' f fb ids chain bytes slots := by
  obtain ⟨hok, hsize, rfl, hlists⟩ := h
  exact ⟨hok.framed ha hagree, hsize, rfl, hlists⟩

/-- A handle whose meta data are written back lists what the head lists. -/
theorem OpenOk.lists (h : OpenOk A lim ⟨c, f⟩ fb ids chain) (hclean : f.metaDirty = false) :
    Lists f fb ids := by
  rw [Lists, (h.handle.clean hclean).2]

/-- A handle has one view of the disk. -/
theorem OpenOk.unique {A' : Content} {lim' : Nat} {fb' : FileBlock} {ids' chain' : List Nat}
    (h : OpenOk A lim ⟨c, f⟩ fb ids chain) (h' : OpenOk A' lim' ⟨c, f⟩ fb' ids' chain') :
    fb' = fb ∧ ids' = ids := by
  have hhead := h.handle.head
  rw [h'.handle.head] at hhead
  cases hhead
  exact ⟨rfl, (h.handle.index.unique h'.handle.index).1⟩

theorem Carries.head (h : Carries c f fb ids chain bytes slots) :
    nodes c f.headSlot = some (.file fb) ∧ f.headSlot ∈ slots := by
  refine ⟨h.ok.handle.head, ?_⟩
  rw [h.slots]
  simp [ownedSlots]

end Frames

/-! ## The invariant -/

/-- The state `s` holds a tree of directories and files, the file with its head in `t` having the
    content `bytes t`, and each node `t` of it owning the slots `own t`. -/
structure Backs (root : Nat) (s : VenomFuse σ) (bytes : Nat → List UInt8) (own : Nat → List Nat) :
    Prop where
  tree : TreeOk s.container root
  divided : Division (free s.container) own
  dataSlot : ∀ t, Division.Listed (free s.container) own t → IsDataSlot s.container t
  outside : ∀ t, ¬ InTree s.container root t → own t = []
  dirs : ∀ t d, InTree s.container root t → nodes s.container t = some (.directory d) → own t = [t]
  kinds : ∀ t d n e, InTree s.container root t → nodes s.container t = some (.directory d) →
    entryOf d n = some e → (nodes s.container e.slot).map kindOf = some e.kind
  files : ∀ t fb, InTree s.container root t → nodes s.container t = some (.file fb) →
    FileAt s t (bytes t) (own t)
  handles : ∀ fh f, s.openFiles.get fh = some f → InTree s.container root f.headSlot ∧
    (∃ fb, nodes s.container f.headSlot = some (.file fb)) ∧
    s.inodes.slotOf f.ino = some f.headSlot
  single : ∀ fh fh' f f', s.openFiles.get fh = some f → s.openFiles.get fh' = some f' →
    f.headSlot = f'.headSlot → fh = fh'
  nextFh : ∀ fh f, s.openFiles.get fh = some f → fh < s.nextFh
  inodes : s.inodes.Paired
  known : ∀ ino t, s.inodes.slotOf ino = some t → InTree s.container root t

namespace Backs

variable {root : Nat} {s : VenomFuse σ} {bytes : Nat → List UInt8}
  {own : Nat → List Nat}

omit [NodeStore σ]

theorem accounts (h : Backs root s bytes own) (t : Nat) : Accounts s.container (own t) where
  nodup := h.divided.nodup_append t
  dataSlot u hu := h.dataSlot u ((List.mem_append.mp hu).imp_right fun hown => ⟨t, hown⟩)

theorem freeOk (h : Backs root s bytes own) : FreeOk s.container :=
  ⟨h.divided.nodup_free, fun u hu => h.dataSlot u (.inl hu)⟩

/-- What a handle shows is the content of its file. -/
theorem openFile (h : Backs root s bytes own) {fh : Nat} {f : OpenFile}
    (hf : s.openFiles.get fh = some f) : ∃ fb ids chain,
      Carries s.container f fb ids chain (bytes f.headSlot) (own f.headSlot) := by
  obtain ⟨hin, ⟨fb, hfb⟩, -⟩ := h.handles fh f hf
  cases h.files _ fb hin hfb with
  | opened hf' hhead hcarries =>
    have hfh := h.single _ _ _ _ hf' hf hhead
    rw [hfh] at hf'
    cases hf.symm.trans hf'
    exact ⟨_, _, _, hcarries⟩
  | closed hno _ => exact absurd rfl (hno fh f hf)

theorem closedFile (h : Backs root s bytes own) {t : Nat} {fb : FileBlock}
    (hin : InTree s.container root t) (hfb : nodes s.container t = some (.file fb))
    (hno : ∀ fh f, s.openFiles.get fh = some f → f.headSlot ≠ t) : ∃ ids chain,
      Carries s.container (reopened 0 t fb ids) fb ids chain (bytes t) (own t) := by
  cases h.files t fb hin hfb with
  | opened hf hhead _ => exact absurd hhead (hno _ _ hf)
  | closed _ hcarries =>
    cases hfb.symm.trans hcarries.head.1
    exact ⟨_, _, hcarries⟩

/-- Every node of the tree owns its own slot. -/
theorem self_mem (h : Backs root s bytes own) {t : Nat} (hin : InTree s.container root t) :
    t ∈ own t := by
  obtain ⟨d, hd⟩ | ⟨fb, hfb⟩ := h.tree.node t hin
  · rw [h.dirs t d hin hd]
    exact List.mem_cons_self
  · cases h.files t fb hin hfb with
    | opened _ hhead hcarries => exact hhead ▸ hcarries.head.2
    | closed _ hcarries => exact hcarries.head.2

theorem not_free (h : Backs root s bytes own) {t : Nat} (hin : InTree s.container root t) :
    t ∉ free s.container := h.divided.not_free t t (h.self_mem hin)

theorem opened (h : Backs root s bytes own) {fh : Nat} {f : OpenFile}
    (hf : s.openFiles.get fh = some f) : ∃ fb ids chain,
      Open (Flat (bytes f.headSlot)) s fh f fb ids chain ∧
      f.totalSize = (bytes f.headSlot).length ∧ own f.headSlot = ownedSlots f chain ∧
      Lists f fb ids := by
  obtain ⟨fb, ids, chain, hcarries⟩ := h.openFile hf
  exact ⟨fb, ids, chain, ⟨hf, (h.handles fh f hf).2.2, hcarries.ok⟩, hcarries.size, hcarries.slots,
    hcarries.listed⟩

end Backs

/-! ## Changes of one file -/

section Refiled

variable {root : Nat} {c c' : σ}

/-- Between `c` and `c'` the directories of the tree stay, and the heads of its files stay heads of
    files. -/
structure Refiled (root : Nat) (c c' : σ) : Prop where
  same : SameVolume c c'
  dirs : ∀ t d, InTree c root t → nodes c t = some (.directory d) → nodes c' t = some (.directory d)
  files : ∀ t fb, InTree c root t → nodes c t = some (.file fb) → ∃ fb', nodes c' t = some (.file fb')

namespace Refiled

theorem child_eq (h : Refiled root c c') (htree : TreeOk c root) {t : Nat} (hin : InTree c root t)
    (n : String) : child (nodes c') t n = child (nodes c) t n := by
  obtain ⟨d, hd⟩ | ⟨fb, hfb⟩ := htree.node t hin
  · rw [child_directory hd, child_directory (h.dirs t d hin hd)]
  · obtain ⟨fb', hfb'⟩ := h.files t fb hin hfb
    rw [child_file hfb, child_file hfb']

/-- All paths lead where they led. -/
theorem walk_eq (h : Refiled root c c') (htree : TreeOk c root) (q : List String) :
    walk (child (nodes c')) root q = walk (child (nodes c)) root q :=
  walk_congr fun p n _ _ hs => h.child_eq htree ⟨p, hs⟩ n

theorem inTree_iff (h : Refiled root c c') (htree : TreeOk c root) (t : Nat) :
    InTree c' root t ↔ InTree c root t :=
  exists_congr fun q => by rw [h.walk_eq htree q]

theorem treeOk (h : Refiled root c c') (htree : TreeOk c root) : TreeOk c' root where
  rootDir := by
    obtain ⟨d, hd⟩ := htree.rootDir
    exact ⟨d, h.dirs root d Reachable.self hd⟩
  tree hp hq := by
    rw [h.walk_eq htree] at hp hq
    exact htree.tree hp hq
  dataSlot t ht := h.same.isDataSlot.mpr (htree.dataSlot t ((h.inTree_iff htree t).mp ht))
  node t ht := by
    have hin := (h.inTree_iff htree t).mp ht
    obtain ⟨d, hd⟩ | ⟨fb, hfb⟩ := htree.node t hin
    · exact .inl ⟨d, h.dirs t d hin hd⟩
    · exact .inr (h.files t fb hin hfb)
  names t d ht hd := by
    have hin := (h.inTree_iff htree t).mp ht
    obtain ⟨d₀, hd₀⟩ | ⟨fb, hfb⟩ := htree.node t hin
    · cases hd.symm.trans (h.dirs t d₀ hin hd₀)
      exact htree.names t d hin hd₀
    · obtain ⟨fb', hfb'⟩ := h.files t fb hin hfb
      cases hd.symm.trans hfb'

end Refiled

variable {s s' : VenomFuse σ} {bytes : Nat → List UInt8} {own : Nat → List Nat}
  {t : Nat} {fb : FileBlock} {b : List UInt8} {slots : List Nat}

omit [NodeStore σ] in
theorem FileAt.head (h : FileAt s t b slots) : ∃ fb, nodes s.container t = some (.file fb) := by
  cases h with
  | opened _ hhead hcarries => exact ⟨_, hhead ▸ hcarries.head.1⟩
  | closed _ hcarries => exact ⟨_, hcarries.head.1⟩

omit [NodeStore σ] in
/-- A file whose handles and slots are as before. -/
theorem FileAt.framed (h : FileAt s t b slots) (ha : Accounts s'.container slots)
    (hagree : ∀ u ∈ slots, nodes s'.container u = nodes s.container u)
    (hhandles : ∀ fh f, f.headSlot = t →
      (s'.openFiles.get fh = some f ↔ s.openFiles.get fh = some f)) : FileAt s' t b slots := by
  cases h with
  | opened hf hhead hcarries =>
    exact .opened ((hhandles _ _ hhead).mpr hf) hhead (hcarries.framed ha hagree)
  | closed hno hcarries =>
    exact .closed (fun fh f hf hhead => hno fh f ((hhandles fh f hhead).mp hf) hhead)
      (hcarries.framed ha hagree)

/-- A call that concerns one file: its bytes, its slots and its handle change, and the others have
    theirs. -/
theorem Backs.refiled (h : Backs root s bytes own) (hin : InTree s.container root t)
    (hfb : nodes s.container t = some (.file fb)) (hmoves : Moves s.container s'.container (own t) slots)
    (hfile : FileAt s' t b slots) (hinodes : s'.inodes = s.inodes) (hnext : s.nextFh ≤ s'.nextFh)
    (hothers : ∀ fh f, f.headSlot ≠ t →
      (s'.openFiles.get fh = some f ↔ s.openFiles.get fh = some f))
    (hmine : ∀ fh f, s'.openFiles.get fh = some f → f.headSlot = t →
      s.inodes.slotOf f.ino = some t ∧ fh < s'.nextFh ∧
        ∀ fh' f', s'.openFiles.get fh' = some f' → f'.headSlot = t → fh' = fh) :
    Refiled root s.container s'.container ∧
      Backs root s' (Function.update bytes t b) (Function.update own t slots) := by
  -- the slots of the others are neither free nor this file's
  have hframe : ∀ i, i ≠ t → ∀ u ∈ own i, nodes s'.container u = nodes s.container u :=
    fun i hi u hu => by
      have hnot := h.divided.notMem_of_ne hi hu
      exact hmoves.agree u (h.dataSlot u (.inr ⟨i, hu⟩)) (fun hf => hnot (List.mem_append_left _ hf))
        fun ho => hnot (List.mem_append_right _ ho)
  have hnode : ∀ u, InTree s.container root u → u ≠ t →
      nodes s'.container u = nodes s.container u := fun u hu hne => hframe u hne u (h.self_mem hu)
  have hrefiled : Refiled root s.container s'.container := by
    refine ⟨hmoves.same, fun u d hu hd => ?_, fun u fb' hu hfb' => ?_⟩
    · have hne : u ≠ t := fun heq => by
        rw [heq, hfb] at hd
        cases hd
      rw [hnode u hu hne, hd]
    · by_cases hut : u = t
      · rw [hut]
        exact hfile.head
      · exact ⟨fb', by rw [hnode u hu hut, hfb']⟩
  have hin' := hrefiled.inTree_iff h.tree
  have hdivided := h.divided.exchange hmoves.perm.subperm
  have hdata : ∀ u, Division.Listed (free s'.container) (Function.update own t slots) u →
      IsDataSlot s'.container u := fun u hu => hmoves.same.isDataSlot.mpr
    (h.dataSlot u ((Division.listed_exchange hmoves.perm u).mp hu))
  have haccounts : ∀ i, i ≠ t → Accounts s'.container (own i) := fun i hi => by
    have hnodup := hdivided.nodup_append i
    rw [Function.update_of_ne hi] at hnodup
    exact ⟨hnodup, fun u hu => hdata u ((List.mem_append.mp hu).imp_right fun hown =>
      ⟨i, by rwa [Function.update_of_ne hi]⟩)⟩
  refine ⟨hrefiled, hrefiled.treeOk h.tree, hdivided, hdata, fun u hu => ?_, fun u d hu hd => ?_,
    fun u d n e hu hd he => ?_, fun u fb' hu hfb' => ?_, fun fh f hf => ?_, fun fh fh' f f' hf hf' heq => ?_, fun fh f hf => ?_,
    hinodes ▸ h.inodes, fun ino u hu => ?_⟩
  · have hu' : ¬ InTree s.container root u := fun hold => hu ((hin' u).mpr hold)
    rw [Function.update_of_ne fun heq => hu' (by rw [heq]; exact hin)]
    exact h.outside u hu'
  · have hold := (hin' u).mp hu
    have hne : u ≠ t := fun heq => by
      obtain ⟨fb', hfb'⟩ := hfile.head
      rw [heq, hfb'] at hd
      cases hd
    rw [Function.update_of_ne hne]
    exact h.dirs u d hold (by rw [← hnode u hold hne, hd])
  · have hold := (hin' u).mp hu
    have hne : u ≠ t := fun heq => by
      obtain ⟨fb', hfb'⟩ := hfile.head
      rw [heq, hfb'] at hd
      cases hd
    rw [hnode u hold hne] at hd
    have hin₂ := hold.entry hd he
    have hkind := h.kinds u d n e hold hd he
    by_cases het : e.slot = t
    · obtain ⟨fb', hfb'⟩ := hfile.head
      rw [het, hfb] at hkind
      rw [het, hfb']
      exact hkind
    · rw [hnode _ hin₂ het]
      exact hkind
  · by_cases hut : u = t
    · rw [hut, Function.update_self, Function.update_self]
      exact hfile
    · have hold := (hin' u).mp hu
      rw [hnode u hold hut] at hfb'
      rw [Function.update_of_ne hut, Function.update_of_ne hut]
      exact (h.files u fb' hold hfb').framed (haccounts u hut) (hframe u hut) fun fh f hhead =>
        hothers fh f (hhead ▸ hut)
  · by_cases hft : f.headSlot = t
    · obtain ⟨fb', hfb'⟩ := hfile.head
      rw [hft, hinodes]
      exact ⟨(hin' t).mpr hin, ⟨fb', hfb'⟩, (hmine fh f hf hft).1⟩
    · obtain ⟨hold, ⟨fb', hfb'⟩, hino⟩ := h.handles fh f ((hothers fh f hft).mp hf)
      exact ⟨(hin' _).mpr hold, hrefiled.files _ fb' hold hfb', hinodes ▸ hino⟩
  · by_cases hft : f.headSlot = t
    · exact ((hmine fh f hf hft).2.2 fh' f' hf' (heq ▸ hft)).symm
    · exact h.single fh fh' f f' ((hothers fh f hft).mp hf) ((hothers fh' f' (heq ▸ hft)).mp hf') heq
  · by_cases hft : f.headSlot = t
    · exact (hmine fh f hf hft).2.1
    · exact (h.nextFh fh f ((hothers fh f hft).mp hf)).trans_le hnext
  · rw [hinodes] at hu
    exact (hin' u).mpr (h.known ino u hu)

end Refiled

end Venom.Fuse
