import Venom.Fuse.FileSteps
import Venom.Fuse.InodeNumbers

/-! # Names that come and go

What a path leads to, with the content of its file, is the tree a user sees.  A call on one
file changes it at one path; a name that comes or goes changes it at one path, and hands the
slots of its node to the tree or back to the free list.
-/

namespace Venom.Fuse

open Venom.Storage
open Venom.Library
open Venom.Library.NameTree
open Venom.Library.StateError
open Venom.Library.OptionLists

variable {σ : Type} [NodeStore σ] [NodeView σ]

/-! ## The tree of a volume -/

/-- What a path leads to. -/
inductive Entry
  | directory
  | file (bytes : List UInt8)
  deriving DecidableEq

abbrev FileTree := List String → Option Entry

/-- A node of the tree with the content `bytes`, if it is a file. -/
def Entry.ofNode (bytes : List UInt8) : VaultNode → Entry
  | .directory _ => .directory
  | _ => .file bytes

def entryAt (c : σ) (bytes : Nat → List UInt8) (t : Nat) : Option Entry :=
  (nodes c t).map (Entry.ofNode (bytes t))

/-- The tree of a container, with the content each file has. -/
def fileTree (c : σ) (root : Nat) (bytes : Nat → List UInt8) : FileTree := fun q =>
  (walk (child (nodes c)) root q).bind (entryAt c bytes)

section Trees

variable {root p t : Nat} {c c' : σ} {bytes bytes' : Nat → List UInt8} {b : List UInt8}
  {d d' : DirectoryBlock} {fb : FileBlock} {path q : List String} {name : String}

omit [NodeStore σ] in
theorem entryAt_directory (h : nodes c t = some (.directory d)) :
    entryAt c bytes t = some .directory := by
  simp [entryAt, h, Entry.ofNode]

omit [NodeStore σ] in
theorem entryAt_file (h : nodes c t = some (.file fb)) :
    entryAt c bytes t = some (.file (bytes t)) := by
  simp [entryAt, h, Entry.ofNode]

omit [NodeStore σ] in
theorem fileTree_walk (h : walk (child (nodes c)) root path = some t) :
    fileTree c root bytes path = entryAt c bytes t := by
  simp [fileTree, h]

omit [NodeStore σ] in
theorem fileTree_none (htree : TreeOk c root) :
    fileTree c root bytes path = none ↔ walk (child (nodes c)) root path = none := by
  constructor
  · intro h
    cases hw : walk (child (nodes c)) root path with
    | none => rfl
    | some t =>
      rw [fileTree_walk hw] at h
      obtain ⟨d, hd⟩ | ⟨fb, hfb⟩ := htree.node t ⟨path, hw⟩
      · rw [entryAt_directory hd] at h
        cases h
      · rw [entryAt_file hfb] at h
        cases h
  · exact fun h => by simp [fileTree, h]

/-- The content of one file changes. -/
theorem Refiled.fileTree (h : Refiled root c c') (htree : TreeOk c root)
    (hpath : walk (child (nodes c)) root path = some t) (hfb : nodes c t = some (.file fb)) :
    fileTree c' root (Function.update bytes t b) =
      Function.update (fileTree c root bytes) path (some (.file b)) := by
  funext q
  rw [Fuse.fileTree, h.walk_eq htree]
  by_cases hq : q = path
  · rw [hq, hpath, Function.update_self, Option.bind_some]
    obtain ⟨fb', hfb'⟩ := h.files t fb ⟨path, hpath⟩ hfb
    rw [entryAt_file hfb', Function.update_self]
  · rw [Function.update_of_ne hq, Fuse.fileTree]
    cases hw : walk (child (nodes c)) root q with
    | none => rfl
    | some u =>
      -- another path leads to another node
      have hut : u ≠ t := fun heq => hq (htree.tree (heq ▸ hw) hpath)
      simp only [Option.bind_some]
      obtain ⟨d, hd⟩ | ⟨fb', hfb'⟩ := htree.node u ⟨q, hw⟩
      · rw [entryAt_directory hd, entryAt_directory (h.dirs u d ⟨q, hw⟩ hd)]
      · obtain ⟨fb'', hfb''⟩ := h.files u fb' ⟨q, hw⟩ hfb'
        rw [entryAt_file hfb', entryAt_file hfb'', Function.update_of_ne hut]

omit [NodeStore σ] in
/-- One edge of the tree changes. -/
theorem fileTree_changed (h : TreeOk c root) (hpath : walk (child (nodes c)) root path = some p)
    (hchange : EdgeChange (child (nodes c)) (child (nodes c')) root p name)
    (hd : nodes c p = some (.directory d)) (hd' : nodes c' p = some (.directory d'))
    (hothers : ∀ t, InTree c root t → t ≠ p → child (nodes c) p name ≠ some t →
      nodes c' t = nodes c t ∧ bytes' t = bytes t) :
    fileTree c' root bytes' = Function.update (fileTree c root bytes) (path ++ [name])
      ((child (nodes c') p name).bind (entryAt c' bytes')) := by
  funext q
  rw [fileTree, hchange.walk_eq h.tree hpath]
  by_cases hq : q = path ++ [name]
  · rw [if_pos hq, hq, Function.update_self]
  · rw [if_neg hq, Function.update_of_ne hq, fileTree]
    cases hw : walk (child (nodes c)) root q with
    | none => rfl
    | some t =>
      simp only [Option.bind_some]
      by_cases htp : t = p
      · rw [htp, entryAt_directory hd, entryAt_directory hd']
      · obtain ⟨hnode, hbytes⟩ := hothers t ⟨q, hw⟩ htp fun hc =>
          hq (h.tree hw (walk_concat_eq_some.mpr ⟨p, hpath, hc⟩))
        rw [entryAt, entryAt, hnode, hbytes]

end Trees

/-! ## Nothing but the inodes -/

section Kept

variable [LawfulNodeStore σ] {root : Nat} {s s' : VenomFuse σ} {bytes : Nat → List UInt8}
  {own : Nat → List Nat}

omit [LawfulNodeStore σ] in
/-- A call that changes directory blocks and nothing else of the nodes that are left in the tree,
    and leaves the open files in it.  A node that is gone owns nothing any more. -/
theorem Backs.reshaped (h : Backs root s bytes own) {own' : Nat → List Nat}
    (hsame : SameVolume s.container s'.container) (hdivided : Division (free s'.container) own')
    (hdata : ∀ t, Division.Listed (free s'.container) own' t → IsDataSlot s.container t)
    (htree : TreeOk s'.container root)
    (hin : ∀ t, InTree s'.container root t → InTree s.container root t ∧ own' t = own t)
    (hgone : ∀ t, ¬ InTree s'.container root t → own' t = [])
    (hdirs : ∀ t d, InTree s'.container root t → nodes s.container t = some (.directory d) →
      ∃ d', nodes s'.container t = some (.directory d'))
    (hkinds : ∀ t d n e, InTree s'.container root t → nodes s'.container t = some (.directory d) →
      entryOf d n = some e → (nodes s'.container e.slot).map kindOf = some e.kind)
    (hfiles : ∀ t fb, InTree s'.container root t → nodes s.container t = some (.file fb) →
      ∀ u ∈ own t, nodes s'.container u = nodes s.container u)
    (hopen : ∀ k, s'.openFiles.get k = s.openFiles.get k) (hnext : s'.nextFh = s.nextFh)
    (hheld : ∀ fh f, s.openFiles.get fh = some f → InTree s'.container root f.headSlot)
    (hpaired : s'.inodes.Paired)
    (hinodes : ∀ ino t, InTree s'.container root t → s.inodes.slotOf ino = some t →
      s'.inodes.slotOf ino = some t)
    (hknown : ∀ ino t, s'.inodes.slotOf ino = some t → InTree s'.container root t) :
    Backs root s' bytes own' := by
  have hdata' : ∀ t, Division.Listed (free s'.container) own' t → IsDataSlot s'.container t :=
    fun t ht => hsame.isDataSlot.mpr (hdata t ht)
  -- a file is still one: it has its own slot
  have hhead : ∀ t fb, InTree s'.container root t → nodes s.container t = some (.file fb) →
      nodes s'.container t = some (.file fb) := fun t fb ht hfb => by
    rw [hfiles t fb ht hfb t (h.self_mem (hin t ht).1), hfb]
  refine ⟨htree, hdivided, hdata', hgone, fun t d ht hd => ?_, hkinds, fun t fb ht hfb => ?_,
    fun fh f hf => ?_, ?_, ?_, hpaired, hknown⟩
  · obtain ⟨hold, hown⟩ := hin t ht
    rw [hown]
    obtain ⟨d₀, hd₀⟩ | ⟨fb, hfb⟩ := h.tree.node t hold
    · exact h.dirs t d₀ hold hd₀
    · cases hd.symm.trans (hhead t fb ht hfb)
  · obtain ⟨hold, hown⟩ := hin t ht
    obtain ⟨d₀, hd₀⟩ | ⟨fb₀, hfb₀⟩ := h.tree.node t hold
    · obtain ⟨d', hd'⟩ := hdirs t d₀ ht hd₀
      cases hfb.symm.trans hd'
    · rw [hown]
      refine (h.files t fb₀ hold hfb₀).framed ⟨?_, fun u hu => hdata' u ?_⟩ (hfiles t fb₀ ht hfb₀)
        fun fh f _ => by rw [hopen]
      · rw [← hown]
        exact hdivided.nodup_append t
      · exact (List.mem_append.mp hu).imp_right fun hmem => ⟨t, by rwa [hown]⟩
  · rw [hopen] at hf
    obtain ⟨-, ⟨fb, hfb⟩, hino⟩ := h.handles fh f hf
    have hold := hheld fh f hf
    exact ⟨hold, ⟨fb, hhead _ _ hold hfb⟩, hinodes _ _ hold hino⟩
  · simp only [hopen]
    exact h.single
  · simp only [hopen, hnext]
    exact h.nextFh

omit [LawfulNodeStore σ] in
/-- A call that leaves all slots in use, the handles and the inodes of the handles. -/
theorem Backs.kept (h : Backs root s bytes own) (hsame : SameVolume s.container s'.container)
    (hfree : (free s'.container).Perm (free s.container))
    (hagree : ∀ t, IsDataSlot s.container t → t ∉ free s.container →
      nodes s'.container t = nodes s.container t)
    (hopen : ∀ k, s'.openFiles.get k = s.openFiles.get k) (hnext : s'.nextFh = s.nextFh)
    (hpaired : s'.inodes.Paired)
    (hinodes : ∀ ino t, s.inodes.slotOf ino = some t → s'.inodes.slotOf ino = some t)
    (hknown : ∀ ino t, s'.inodes.slotOf ino = some t → InTree s.container root t) :
    Backs root s' bytes own := by
  have hown : ∀ i, ∀ u ∈ own i, nodes s'.container u = nodes s.container u := fun i u hu =>
    hagree u (h.dataSlot u (.inr ⟨i, hu⟩)) (h.divided.not_free i u hu)
  have hnode : ∀ t, InTree s.container root t → nodes s'.container t = nodes s.container t :=
    fun t ht => hown t t (h.self_mem ht)
  have hin := inTree_of_nodes hnode
  refine h.reshaped hsame (h.divided.reorder hfree)
    (fun t ht => h.dataSlot t (ht.imp_left hfree.mem_iff.mp)) (h.tree.of_nodes hsame hnode)
    (fun t ht => ⟨(hin t).mp ht, rfl⟩) (fun t ht => h.outside t ((hin t).not.mp ht))
    (fun t d ht hd => ⟨d, by rw [hnode t ((hin t).mp ht), hd]⟩) (fun t d n e ht hd he => ?_)
    (fun t _ _ _ => hown t) hopen hnext (fun fh f hf => (hin _).mpr (h.handles fh f hf).1) hpaired
    (fun ino t _ => hinodes ino t) (fun ino t ht => (hin t).mpr (hknown ino t ht))
  have hold := (hin t).mp ht
  rw [hnode t hold] at hd
  rw [hnode _ (hold.entry hd he)]
  exact h.kinds t d n e hold hd he

/-- The number of a slot: its own, or a new one when it has none. -/
theorem InodeMap.Paired.getOrAlloc_update {m : InodeMap} (h : m.Paired) (slot : Nat) :
    (m.getOrAlloc slot).2.slotOf =
      Function.update m.slotOf (m.getOrAlloc slot).1 (some slot) ∧
    (m.slotOf (m.getOrAlloc slot).1 = some slot ∨
      m.slotOf (m.getOrAlloc slot).1 = none ∧ ∀ i, m.slotOf i ≠ some slot) := by
  unfold InodeMap.getOrAlloc
  split
  next ino hino =>
    have hslot := h.ok.mapped slot ino hino
    exact ⟨(Function.update_eq_self_iff.mpr hslot.symm).symm, .inl hslot⟩
  next hnone =>
    refine ⟨?_, .inr ⟨?_, fun i hi => ?_⟩⟩
    · funext i
      simp only [InodeMap.slotOf, HashMap.get_insert, Function.update_apply]
    · -- numbers in use are below the next one
      cases hi : m.slotOf m.nextIno with
      | none => rfl
      | some t => exact absurd (h.ok.fresh _ t hi) (lt_irrefl _)
    · rw [h.back i slot hi] at hnone
      cases hnone

omit [LawfulNodeStore σ] in
/-- A node of the tree gets a number. -/
theorem Backs.numbered (h : Backs root s bytes own) {t : Nat} (ht : InTree s.container root t)
    (hroom : s.inodes.slotToIno.get t = none → s.inodes.nextIno + 1 < 2 ^ 64) :
    Backs root { s with inodes := (s.inodes.getOrAlloc t).2 } bytes own := by
  refine h.kept (.refl _) (.refl _) (fun _ _ _ => rfl) (fun _ => rfl) rfl (h.inodes.getOrAlloc t hroom)
    (fun ino u hu => h.inodes.ok.getOrAlloc_slotOf t hu) fun ino u hu => ?_
  obtain hold | rfl := (h.inodes.back.getOrAlloc t).2 ino u hu
  · exact h.known ino u hold
  · exact ht

end Kept

/-! ## One leaf -/

section Relinked

variable [LawfulNodeStore σ] {root p l : Nat} {s s' : VenomFuse σ} {bytes : Nat → List UInt8}
  {own : Nat → List Nat} {d d' : DirectoryBlock} {b : List UInt8} {slots : List Nat}

/-- What a change of one entry of the directory `p` does to what lies behind the tree: the node `l`
    comes with its slots or goes, no handle is on it that was on it before, and the rest stays. -/
structure LeafChange (root : Nat) (s s' : VenomFuse σ) (own : Nat → List Nat) (p l : Nat)
    (slots : List Nat) : Prop where
  same : SameVolume s.container s'.container
  tree : TreeOk s'.container root
  dir : ∃ d, nodes s.container p = some (.directory d)
  dir' : ∃ d, nodes s'.container p = some (.directory d)
  inTree : ∀ t, t ≠ l → (InTree s'.container root t ↔ InTree s.container root t)
  slots : (free s'.container ++ slots).Subperm (free s.container ++ own l)
  kept : ∀ t, IsDataSlot s.container t → t ≠ p → t ∉ free s.container → t ∉ own l →
    nodes s'.container t = nodes s.container t
  openFiles : ∀ fh f, s'.openFiles.get fh = some f ↔ s.openFiles.get fh = some f ∧ f.headSlot ≠ l
  nextFh : s'.nextFh = s.nextFh
  paired : s'.inodes.Paired
  inodes : ∀ ino t, s'.inodes.slotOf ino = some t ↔ s.inodes.slotOf ino = some t ∧ t ≠ l

omit [LawfulNodeStore σ] in
/-- The slots of a node but for the directory and the leaf hold what they held. -/
theorem LeafChange.agree (h : LeafChange root s s' own p l slots) (hs : Backs root s bytes own)
    (hp : InTree s.container root p) {i : Nat} (hi : i ≠ l) (hip : i ≠ p) {u : Nat} (hu : u ∈ own i) :
    nodes s'.container u = nodes s.container u := by
  have hnot := hs.divided.notMem_of_ne hi hu
  rw [List.mem_append, not_or] at hnot
  refine h.kept u (hs.dataSlot u (.inr ⟨i, hu⟩)) (fun heq => hip ?_) hnot.1 hnot.2
  subst heq
  exact hs.divided.single hu (hs.self_mem hp)

omit [LawfulNodeStore σ] in
theorem Backs.leafChange (h : Backs root s bytes own) (hp : InTree s.container root p)
    (hchange : LeafChange root s s' own p l slots)
    (honly : ∀ t n, InTree s.container root t → t ≠ p → child (nodes s.container) t n ≠ some l)
    (hentries : ∀ d' n e, nodes s'.container p = some (.directory d') → entryOf d' n = some e →
      (∃ d, nodes s.container p = some (.directory d) ∧ entryOf d n = some e ∧ e.slot ≠ l) ∨
        e.slot = l ∧ (nodes s'.container l).map kindOf = some e.kind)
    (hempty : ∀ d, InTree s'.container root l → nodes s'.container l = some (.directory d) →
      d.entries = [])
    (hgone : ¬ InTree s'.container root l → slots = [])
    (hdir : ∀ d, InTree s'.container root l → nodes s'.container l = some (.directory d) → slots = [l])
    (hfile : ∀ fb, InTree s'.container root l → nodes s'.container l = some (.file fb) →
      FileAt s' l b slots) :
    Backs root s' (Function.update bytes l b) (Function.update own l slots) := by
  have hdivided := h.divided.exchange hchange.slots
  obtain ⟨d, hd⟩ := hchange.dir
  obtain ⟨d', hd'⟩ := hchange.dir'
  have hdata : ∀ u, Division.Listed (free s'.container) (Function.update own l slots) u →
      IsDataSlot s'.container u := by
    have hnew : ∀ u, u ∈ free s'.container ++ slots → IsDataSlot s'.container u := fun u hu => by
      refine hchange.same.isDataSlot.mpr (h.dataSlot u ?_)
      exact (List.mem_append.mp (hchange.slots.subset hu)).imp_right fun hown => ⟨l, hown⟩
    rintro u (hu | ⟨i, hu⟩)
    · exact hnew u (List.mem_append_left _ hu)
    · by_cases hi : i = l
      · rw [hi, Function.update_self] at hu
        exact hnew u (List.mem_append_right _ hu)
      · rw [Function.update_of_ne hi] at hu
        exact hchange.same.isDataSlot.mpr (h.dataSlot u (.inr ⟨i, hu⟩))
  have haccounts : ∀ i, i ≠ l → Accounts s'.container (own i) := fun i hi => by
    have hnodup := hdivided.nodup_append i
    rw [Function.update_of_ne hi] at hnodup
    exact ⟨hnodup, fun u hu => hdata u ((List.mem_append.mp hu).imp_right fun hown =>
      ⟨i, by rwa [Function.update_of_ne hi]⟩)⟩
  have hkept : ∀ t, InTree s.container root t → t ≠ l → t ≠ p →
      nodes s'.container t = nodes s.container t := fun t ht htl htp =>
    hchange.agree h hp htl htp (h.self_mem ht)
  have hkindOf : ∀ t, InTree s.container root t → t ≠ l →
      (nodes s'.container t).map kindOf = (nodes s.container t).map kindOf := fun t ht htl => by
    by_cases htp : t = p
    · rw [htp, hd, hd']
      rfl
    · rw [hkept t ht htl htp]
  refine ⟨hchange.tree, hdivided, hdata, fun t ht => ?_, fun t e ht he => ?_,
    fun t d₀ n e ht hd₀ he => ?_, fun t fb ht hfb => ?_, fun fh f hf => ?_, fun fh fh' f f' hf hf' heq => ?_, fun fh f hf => ?_, hchange.paired,
    fun ino t ht => ?_⟩
  · by_cases htl : t = l
    · rw [htl, Function.update_self]
      exact hgone (htl ▸ ht)
    · rw [Function.update_of_ne htl]
      exact h.outside t fun hold => ht ((hchange.inTree t htl).mpr hold)
  · by_cases htl : t = l
    · rw [htl, Function.update_self]
      exact hdir e (htl ▸ ht) (htl ▸ he)
    · rw [Function.update_of_ne htl]
      have hold := (hchange.inTree t htl).mp ht
      by_cases htp : t = p
      · exact htp ▸ h.dirs p d hp hd
      · exact h.dirs t e hold (by rw [← hkept t hold htl htp, he])
  · by_cases htp : t = p
    · obtain ⟨d₁, hd₁, he₁, hel⟩ | ⟨hel, hkind⟩ := hentries d₀ n e (htp ▸ hd₀) he
      · rw [hkindOf _ (hp.entry hd₁ he₁) hel]
        exact h.kinds p d₁ n e hp hd₁ he₁
      · rwa [hel]
    · by_cases htl : t = l
      · have hnil := hempty d₀ (htl ▸ ht) (htl ▸ hd₀)
        rw [entryOf, hnil] at he
        cases he
      · have hold := (hchange.inTree t htl).mp ht
        rw [hkept t hold htl htp] at hd₀
        rw [hkindOf _ (hold.entry hd₀ he) fun heq =>
          honly t n hold htp (by rw [child_directory hd₀, he, ← heq]; rfl)]
        exact h.kinds t d₀ n e hold hd₀ he
  · by_cases htl : t = l
    · rw [htl, Function.update_self, Function.update_self]
      exact hfile fb (htl ▸ ht) (htl ▸ hfb)
    · have htp : t ≠ p := fun heq => by
        rw [heq, hd'] at hfb
        cases hfb
      have hold := (hchange.inTree t htl).mp ht
      rw [hkept t hold htl htp] at hfb
      rw [Function.update_of_ne htl, Function.update_of_ne htl]
      refine (h.files t fb hold hfb).framed (haccounts t htl)
        (fun u hu => hchange.agree h hp htl htp hu) fun fh f hhead => ?_
      rw [hchange.openFiles]
      exact and_iff_left (hhead ▸ htl)
  · obtain ⟨hf', hne⟩ := (hchange.openFiles fh f).mp hf
    obtain ⟨hin, ⟨fb, hfb⟩, hino⟩ := h.handles fh f hf'
    have hnp : f.headSlot ≠ p := fun heq => by
      rw [heq, hd] at hfb
      cases hfb
    exact ⟨(hchange.inTree _ hne).mpr hin, ⟨fb, by rw [hkept _ hin hne hnp, hfb]⟩,
      (hchange.inodes _ _).mpr ⟨hino, hne⟩⟩
  · exact h.single fh fh' f f' ((hchange.openFiles fh f).mp hf).1 ((hchange.openFiles fh' f').mp hf').1
      heq
  · rw [hchange.nextFh]
    exact h.nextFh fh f ((hchange.openFiles fh f).mp hf).1
  · obtain ⟨hold, htl⟩ := (hchange.inodes ino t).mp ht
    exact (hchange.inTree t htl).mpr (h.known ino t hold)

/-! ## A name comes -/

/-- The head of an empty file. -/
def emptyFile : FileBlock :=
  { kind := .file, totalSize := 0, dataSlots := [], indexChain := none, data := [] }

omit [NodeStore σ] [LawfulNodeStore σ] in
/-- An empty file is its head. -/
theorem Carries.empty {c : σ} {t : Nat} (ino : Nat)
    (hnode : nodes c t = some (headNode 0 [] none [])) (ha : Accounts c [t]) :
    Carries c (reopened ino t emptyFile []) emptyFile [] [] [] [t] := by
  have hmap : (reopened ino t emptyFile []).slotMap = [none] := rfl
  have hcache : ∀ i, (reopened ino t emptyFile []).cache.get i = none := fun _ => rfl
  have hshows : ∀ i, Shows (Flat []) i [] := fun i =>
    ⟨by simp, fun off _ hlt => absurd hlt (Nat.not_lt_zero _)⟩
  have hslot : ∀ {i u : Nat}, (reopened ino t emptyFile []).slotMap[i]? ≠ some (some u) := by
    intro i u
    rw [hmap]
    cases i <;> simp
  refine ⟨⟨⟨hnode, rfl, .nil, rfl, ha, fun u hu => ?_, fun _ => ⟨rfl, rfl⟩, fun _ => le_max_right _ _⟩,
    ⟨fun hd => ?_, fun hd => ?_, fun _ => hshows 0, fun hs => absurd hs hslot, fun _ _ _ => hshows _,
      fun hs => absurd hs hslot⟩⟩, rfl, rfl, ?_⟩
  · rw [hmap] at hu
    cases hu
  · rw [hcache] at hd
    cases hd
  · rw [hcache] at hd
    cases hd
  · exact List.nil_subperm

/-- A leaf in the slot `slot` hangs under a new name in the directory at `path`. -/
structure LeafLinked (root : Nat) (s s' : VenomFuse σ) (bytes : Nat → List UInt8)
    (own : Nat → List Nat) (path : List String) (name : String) (slot : Nat) (n : VaultNode) :
    Prop where
  state : s' = { s with container := s'.container }
  fresh : slot ∈ free s.container
  node : nodes s'.container slot = some n
  dir : ∃ p d, walk (child (nodes s.container)) root path = some p ∧
    nodes s.container p = some (.directory d)
  new : walk (child (nodes s.container)) root (path ++ [name]) = none
  walk : ∀ q, walk (child (nodes s'.container)) root q =
    if q = path ++ [name] then some slot else walk (child (nodes s.container)) root q
  backs : Backs root s' (Function.update bytes slot []) (Function.update own slot [slot])
  tree : fileTree s'.container root (Function.update bytes slot []) =
    Function.update (fileTree s.container root bytes) (path ++ [name]) (some (Entry.ofNode [] n))

theorem Backs.linked (h : Backs root s bytes own) {s₁ s₂ : VenomFuse σ} {n : VaultNode} {slot : Nat}
    {name : String} {kind : NodeKind} {path : List String}
    (hpath : walk (child (nodes s.container)) root path = some p)
    (hn : n = emptyDir ∨ n = headNode 0 [] none []) (hkind : kindOf n = kind)
    (hwrite : (liftStore (writeNode n)).run s = .ok slot s₁)
    (hlink : (linkOrFree p slot { name, slot, kind }).run s₁ = .ok () s₂) :
    LeafLinked root s s₂ bytes own path name slot n := by
  obtain ⟨hs₁, hfree, hnode, hothers, hsame, hmem⟩ := writeNode_written h.freeOk.2 hwrite
  have hp : InTree s.container root p := ⟨path, hpath⟩
  have hpdata := h.tree.dataSlot p hp
  have hslotdata := h.freeOk.2 slot hmem
  obtain ⟨d, hadd⟩ := dirAddEntry_added (hsame.isDataSlot.mpr hpdata) (linkOrFree_ok hlink)
  have hfresh : ¬ InTree s.container root slot := fun hin => h.not_free hin hmem
  have hps : slot ≠ p := fun heq => hfresh (heq ▸ hp)
  have hd : nodes s.container p = some (.directory d) := by
    rw [← hothers p hpdata hps.symm]
    exact hadd.dir
  have hslot : nodes s₂.container slot = some n := by
    rw [hadd.others slot (hsame.isDataSlot.mpr hslotdata) hps, hnode]
  have hkept : ∀ t, IsDataSlot s.container t → t ≠ p → t ≠ slot →
      nodes s₂.container t = nodes s.container t := fun t ht htp hts => by
    rw [hadd.others t (hsame.isDataSlot.mpr ht) htp, hothers t ht hts]
  have hleaf : IsLeaf (nodes s₂.container) slot := by
    obtain rfl | rfl := hn
    · exact .inl ⟨_, hslot, rfl⟩
    · exact .inr ⟨_, hslot⟩
  have hvolume := hsame.trans hadd.same
  obtain ⟨hchange, hsome, htree⟩ := h.tree.linked (e := ⟨name, slot, kind⟩) hp hd hadd.new hfresh
    hslotdata hvolume hadd.node hleaf fun t ht htp =>
      hkept t (h.tree.dataSlot t ht) htp fun heq => hfresh (heq ▸ ht)
  have hnone : child (nodes s.container) p name = none := by
    rw [child_directory hd, show entryOf d name = none from hadd.new]
    rfl
  have hreach : ∀ t, InTree s₂.container root t ↔ InTree s.container root t ∨ t = slot := fun t => by
    rw [InTree, hchange.reachable h.tree.tree hpath, hsome, hnone]
    simp [eq_comm]
  have hstate : s₂ = { s with container := s₂.container } := by rw [hadd.state, hs₁]
  have hfree₂ : free s.container = free s₂.container ++ [slot] := by rw [hadd.free, hfree]
  have hperm : (free s₂.container ++ [slot]).Perm (free s.container ++ own slot) := by
    rw [h.outside slot hfresh, List.append_nil, hfree₂]
  -- no handle and no inode leads to a slot that was free
  have hunused : ∀ fh f, s.openFiles.get fh = some f → f.headSlot ≠ slot := fun fh f hf heq =>
    hfresh (heq ▸ (h.handles fh f hf).1)
  have hunknown : ∀ ino t, s.inodes.slotOf ino = some t → t ≠ slot := fun ino t ht heq =>
    hfresh (heq ▸ h.known ino t ht)
  have hleafChange : LeafChange root s s₂ own p slot [slot] :=
    { same := hvolume
      tree := htree
      dir := ⟨d, hd⟩
      dir' := ⟨_, hadd.node⟩
      inTree := fun t ht => by
        rw [hreach]
        exact or_iff_left ht
      slots := hperm.subperm
      kept := fun t ht htp htf _ => hkept t ht htp fun heq => htf (heq ▸ hmem)
      openFiles := fun fh f => by
        rw [hstate]
        exact ⟨fun hf => ⟨hf, hunused fh f hf⟩, And.left⟩
      nextFh := by rw [hstate]
      paired := by
        rw [hstate]
        exact h.inodes
      inodes := fun ino t => by
        rw [hstate]
        exact ⟨fun ht => ⟨ht, hunknown ino t ht⟩, And.left⟩ }
  have haccounts : Accounts s₂.container [slot] := by
    refine ⟨hperm.nodup_iff.mpr (h.divided.nodup_append slot), fun u hu => hvolume.isDataSlot.mpr ?_⟩
    exact h.dataSlot u ((List.mem_append.mp (hperm.mem_iff.mp hu)).imp_right fun hown => ⟨slot, hown⟩)
  have hentries : ∀ d' m e, nodes s₂.container p = some (.directory d') → entryOf d' m = some e →
      (∃ d, nodes s.container p = some (.directory d) ∧ entryOf d m = some e ∧ e.slot ≠ slot) ∨
        e.slot = slot ∧ (nodes s₂.container slot).map kindOf = some e.kind := by
    intro d' m e hd' he
    cases hd'.symm.trans hadd.node
    rw [entryOf_withEntry] at he
    cases hold : entryOf d m with
    | none =>
      rw [hold, Option.none_or] at he
      split at he
      next =>
        cases he
        exact .inr ⟨rfl, by rw [hslot, Option.map_some, hkind]⟩
      next => cases he
    | some e₁ =>
      rw [hold, Option.some_or] at he
      cases he
      exact .inl ⟨d, hd, hold, fun heq => hfresh (heq ▸ hp.entry hd hold)⟩
  have hbacks := h.leafChange (b := []) hp hleafChange (fun t m ht _ hc => hfresh (ht.step hc)) hentries
    (fun d' _ hd' => by
      obtain rfl | rfl := hn
      · cases hslot.symm.trans hd'
        rfl
      · cases hslot.symm.trans hd')
    (fun hnot => absurd ((hreach slot).mpr (.inr rfl)) hnot) (fun _ _ _ => rfl) fun fb _ hfb => by
      obtain rfl | rfl := hn
      · cases hslot.symm.trans hfb
      · refine .closed (fun fh f hf => hunused fh f ?_) (.empty 0 hslot haccounts)
        rwa [hstate] at hf
  refine ⟨hstate, hmem, hslot, ⟨p, d, hpath, hd⟩, walk_concat_eq_none hpath hnone, fun q => ?_, hbacks,
    ?_⟩
  · rw [hchange.walk_eq h.tree.tree hpath, hsome]
  · rw [fileTree_changed h.tree hpath hchange hd hadd.node fun t ht htp _ =>
      have hts : t ≠ slot := fun heq => hfresh (heq ▸ ht)
      ⟨hkept t (h.tree.dataSlot t ht) htp hts, Function.update_of_ne hts _ _⟩]
    simp [hsome, entryAt, hslot]

/-! ## A name goes -/

omit [NodeStore σ] [LawfulNodeStore σ] in
theorem Accounts.subperm {c : σ} {l l' : List Nat} (h : Accounts c l) (hsub : l'.Subperm l) :
    Accounts c l' := by
  obtain ⟨m, hperm, hm⟩ := hsub
  exact (h.sublist hm).of_perm hperm.symm

omit [LawfulNodeStore σ] in
/-- What the calls behind a name are accounted for in is what the whole volume is. -/
theorem Backs.accounts_of_removed (h : Backs root s bytes own) {s₁ : VenomFuse σ} {name : String}
    {e : DirEntry} (hrem : Removed s s₁ p d name e) (t : Nat) : Accounts s₁.container (own t) where
  nodup := by
    rw [hrem.free]
    exact (h.accounts t).nodup
  dataSlot u hu := by
    rw [hrem.free] at hu
    exact hrem.same.isDataSlot.mpr ((h.accounts t).dataSlot u hu)

/-- A leaf in the slot `slot` is gone from the directory at `path`, with the handles on it. -/
structure LeafUnlinked (root : Nat) (s s' : VenomFuse σ) (bytes : Nat → List UInt8)
    (own : Nat → List Nat) (path : List String) (name : String) (slot : Nat) : Prop where
  old : walk (child (nodes s.container)) root (path ++ [name]) = some slot
  walk : ∀ q, walk (child (nodes s'.container)) root q =
    if q = path ++ [name] then none else walk (child (nodes s.container)) root q
  openFiles : ∀ fh f, s'.openFiles.get fh = some f ↔ s.openFiles.get fh = some f ∧ f.headSlot ≠ slot
  inodes : s'.inodes = s.inodes.removeSlot slot
  backs : Backs root s' bytes (Function.update own slot [])
  tree : fileTree s'.container root bytes =
    Function.update (fileTree s.container root bytes) (path ++ [name]) none

omit [LawfulNodeStore σ] in
/-- An entry is taken out, and slots of its node go back to the free list. -/
theorem Backs.unlinked (h : Backs root s bytes own) {s₁ s₂ : VenomFuse σ} {name : String} {e : DirEntry}
    {path : List String} {freed : List Nat}
    (hpath : walk (child (nodes s.container)) root path = some p) (hrem : Removed s s₁ p d name e)
    (hleaf : IsLeaf (nodes s.container) e.slot) (hmoves : Moves s₁.container s₂.container freed [])
    (hfreed : freed.Subperm (own e.slot)) (hinodes : s₂.inodes = s.inodes.removeSlot e.slot)
    (hnext : s₂.nextFh = s.nextFh)
    (hopen : ∀ fh f, s₂.openFiles.get fh = some f ↔
      s.openFiles.get fh = some f ∧ f.headSlot ≠ e.slot) :
    LeafUnlinked root s s₂ bytes own path name e.slot := by
  have hp : InTree s.container root p := ⟨path, hpath⟩
  have hsome : child (nodes s.container) p name = some e.slot := by
    rw [child_directory hrem.dir, hrem.entry]
    rfl
  have he : InTree s.container root e.slot := InTree.entry hp hrem.dir hrem.entry
  have hne : p ≠ e.slot := fun heq => by
    rw [heq, hleaf.child] at hsome
    cases hsome
  have hvolume := hrem.same.trans hmoves.same
  -- what was neither free nor a slot of the leaf is as it was
  have hagree : ∀ t, IsDataSlot s.container t → t ∉ free s.container → t ∉ own e.slot →
      nodes s₂.container t = nodes s₁.container t := fun t ht hf ho =>
    hmoves.agree t (hrem.same.isDataSlot.mpr ht) (by rwa [hrem.free]) fun hmem => ho (hfreed.subset hmem)
  have hapart : ∀ t, InTree s.container root t → t ≠ e.slot → t ∉ own e.slot := fun t ht hte hmem =>
    hte (h.divided.single (h.self_mem ht) hmem)
  have hkept : ∀ t, InTree s.container root t → t ≠ p → t ≠ e.slot →
      nodes s₂.container t = nodes s.container t := fun t ht htp hte => by
    have hdata := h.tree.dataSlot t ht
    rw [hagree t hdata (h.not_free ht) (hapart t ht hte), hrem.others t hdata htp]
  have hdir : nodes s₂.container p = some (.directory (without d name)) := by
    rw [hagree p (h.tree.dataSlot p hp) (h.not_free hp) (hapart p hp hne), hrem.node]
  obtain ⟨hchange, hnone, htree⟩ :=
    h.tree.unlinked hp hrem.dir hrem.entry hleaf hvolume hdir hkept
  have hreach : ∀ t, InTree s₂.container root t ↔ InTree s.container root t ∧ t ≠ e.slot := fun t => by
    rw [InTree, hchange.reachable h.tree.tree hpath, hsome, hnone]
    simp [eq_comm]
  have hslots : (free s₂.container ++ []).Subperm (free s.container ++ own e.slot) := by
    have hperm := hmoves.perm
    rw [hrem.free] at hperm
    exact hperm.subperm.trans ((List.subperm_append_left _).mpr hfreed)
  have hpaired := h.inodes.removeSlot e.slot
  have hknown := (h.inodes.back.removeSlot e.slot).2
  have hleafChange : LeafChange root s s₂ own p e.slot [] :=
    { same := hvolume
      tree := htree
      dir := ⟨d, hrem.dir⟩
      dir' := ⟨_, hdir⟩
      inTree := fun t ht => by
        rw [hreach]
        exact and_iff_left ht
      slots := hslots
      kept := fun t ht htp hf ho => by rw [hagree t ht hf ho, hrem.others t ht htp]
      openFiles := hopen
      nextFh := hnext
      paired := by
        rw [hinodes]
        exact hpaired
      inodes := fun ino t => by
        rw [hinodes]
        refine ⟨hknown ino t, fun hkeeps => ?_⟩
        rw [h.inodes.removeSlot_slotOf hkeeps.1, if_neg hkeeps.2] }
  have hgone : ¬ InTree s₂.container root e.slot := fun hin => ((hreach _).mp hin).2 rfl
  have honly : ∀ t n, InTree s.container root t → child (nodes s.container) t n = some e.slot →
      t = p ∧ n = name := fun t n ht hc => IsTree.parent_unique h.tree.tree ht hp hc hsome
  have hentries : ∀ d' n e', nodes s₂.container p = some (.directory d') → entryOf d' n = some e' →
      (∃ d, nodes s.container p = some (.directory d) ∧ entryOf d n = some e' ∧ e'.slot ≠ e.slot) ∨
        e'.slot = e.slot ∧ (nodes s₂.container e.slot).map kindOf = some e'.kind := by
    intro d' n e' hd' he'
    cases hd'.symm.trans hdir
    have hnn : n ≠ name := fun heq => by
      rw [heq, entryOf_without_self (h.tree.names p d hp hrem.dir)] at he'
      cases he'
    rw [entryOf_without_ne hnn] at he'
    refine .inl ⟨d, hrem.dir, he', fun heq => hnn (honly p n hp ?_).2⟩
    rw [child_directory hrem.dir, he', ← heq]
    rfl
  have hbacks := h.leafChange (b := bytes e.slot) hp hleafChange
    (fun t n ht htp hc => htp (honly t n ht hc).1) hentries (fun _ hin => absurd hin hgone)
    (fun _ => rfl) (fun _ hin => absurd hin hgone) (fun _ hin => absurd hin hgone)
  rw [Function.update_eq_self] at hbacks
  refine ⟨walk_concat_eq_some.mpr ⟨p, hpath, hsome⟩, fun q => ?_, hopen, hinodes, hbacks, ?_⟩
  · rw [hchange.walk_eq h.tree.tree hpath, hnone]
  · rw [fileTree_changed h.tree hpath hchange hrem.dir hdir fun t ht htp hc =>
      ⟨hkept t ht htp fun heq => hc (heq ▸ hsome), rfl⟩]
    rw [hnone]
    rfl

end Relinked

end Venom.Fuse
