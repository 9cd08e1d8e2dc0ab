import Venom.Fuse.FileSystem

/-! # Serving requests

Each request on a state that stands for a file system is a step of the file system, and one
that fails without having written leaves it as it is.
-/

namespace Venom.Fuse

open Venom.Storage
open Venom.Library
open Venom.Library.Chunks (patch)
open Venom.Library.NameTree
open Venom.Library.StateError

variable {σ : Type} [NodeStore σ] [NodeView σ]

/-- The reply is one of the file system's, and the new state stands for what becomes of it. -/
def Serves (root : Nat) (A : FileSystem) (req : Request) (reply : Reply) (s' : VenomFuse σ) : Prop :=
  ∃ A' bytes' own', A.Step req reply A' ∧ StandsFor root s' A' bytes' own'

variable [LawfulNodeStore σ] {root t : Nat} {s s' : VenomFuse σ} {A : FileSystem}
  {bytes : Nat → List UInt8} {own : Nat → List Nat} {q : List String} {fb : FileBlock}
  {ino fh : Nat} {ord : IterOrder Nat} {reply : Reply} {b : List UInt8}

namespace StandsFor

/-! ## Files -/

omit [LawfulNodeStore σ] in
/-- A call on one file changes the tree at its path. -/
theorem fileStep (h : StandsFor root s A bytes own)
    (hq : walk (child (nodes s.container)) root q = some t)
    (hfb : nodes s.container t = some (.file fb)) (hstep : FileStep root s s' bytes own t b)
    {H : Nat → Option (List String)} (hH : Named (child (nodes s.container)) root (headOf s') H) :
    ∃ slots, StandsFor root s' { A.put q (.file b) with handles := H } (Function.update bytes t b)
      (Function.update own t slots) := by
  obtain ⟨hrefiled, hinodes, slots, hbacks, -⟩ := hstep
  have hwalk := hrefiled.walk_eq h.backs.tree
  refine ⟨slots, hbacks, ?_, ?_, hH.congr hwalk fun _ => rfl⟩
  · rw [hrefiled.fileTree h.backs.tree hq hfb, ← h.tree]
    rfl
  · exact h.inodes.congr hwalk fun k => by rw [hinodes]

omit [LawfulNodeStore σ] in
omit [NodeStore σ] in
/-- Bytes that are those of the file already. -/
theorem put_same (h : StandsFor root s A bytes own)
    (hq : walk (child (nodes s.container)) root q = some t)
    (hfb : nodes s.container t = some (.file fb)) : A.put q (.file (bytes t)) = A := by
  rw [FileSystem.put, ← h.tree_file hq hfb, Function.update_eq_self]

omit [LawfulNodeStore σ] in
/-- A call that gives the file of a handle the content `b`. -/
theorem handleStep (h : StandsFor root s A bytes own) {f : OpenFile}
    (hf : s.openFiles.get fh = some f)
    (hstep : FileStep root s s' bytes own f.headSlot b ∧
      ∀ k, (s'.openFiles.get k).map (·.headSlot) = (s.openFiles.get k).map (·.headSlot)) :
    ∃ q, A.handles fh = some q ∧ A.tree q = some (.file (bytes f.headSlot)) ∧
      walk (child (nodes s.container)) root q = some f.headSlot ∧
      ∃ bytes' own', bytes' f.headSlot = b ∧
        StandsFor root s' (A.put q (.file b)) bytes' own' := by
  obtain ⟨q, hq, hwalk, htree⟩ := h.of_handle hf
  obtain ⟨-, ⟨fb, hfb⟩, -⟩ := h.backs.handles fh f hf
  obtain ⟨slots, hs'⟩ := h.fileStep hwalk hfb hstep.1 (H := A.handles)
    (h.handles.congr (fun _ => rfl) hstep.2)
  exact ⟨q, hq, htree, hwalk, _, _, Function.update_self _ _ _, hs'⟩

/-- An operation through a handle. -/
theorem runOp (h : StandsFor root s A bytes own) (op : FileOp) {f : OpenFile} {fh' : Nat}
    (hf : s.openFiles.get fh = some f) (hop : op ≠ .reopen)
    (hgap : op.GapFree (bytes f.headSlot).length)
    (hrun : (runOp ord f.ino fh op).run s = .ok fh' s') :
    ∃ q, A.handles fh = some q ∧ A.tree q = some (.file (bytes f.headSlot)) ∧
      walk (child (nodes s.container)) root q = some f.headSlot ∧
      ∃ bytes' own', bytes' f.headSlot = op.apply (bytes f.headSlot) ∧
        StandsFor root s' (A.put q (.file (op.apply (bytes f.headSlot)))) bytes' own' :=
  h.handleStep hf (h.backs.runOp hf hop hgap hrun)

omit [NodeStore σ] [LawfulNodeStore σ] in
/-- The content of the file of a handle, in its handle's size. -/
theorem size_of_handle (h : StandsFor root s A bytes own) {f : OpenFile}
    (hf : s.openFiles.get fh = some f) : totalSizeOf s fh = some (bytes f.headSlot).length := by
  obtain ⟨_, _, _, hcarries⟩ := h.backs.openFile hf
  rw [totalSizeOf, hf, Option.map_some, hcarries.size]

theorem serve_read (h : StandsFor root s A bytes own) {ords : Orders} {offset size : Nat}
    (hrun : ((Request.read fh offset size).serve ords).run s = .ok reply s') :
    Serves root A (.read fh offset size) reply s' := by
  obtain ⟨r, s₁, hread, hret⟩ := run_bind_ok.mp hrun
  cases hret
  cases hf : s.openFiles.get fh with
  | none =>
    obtain ⟨_, _, hget, hcont⟩ := run_bind_ok.mp hread
    cases hget
    rw [hf] at hcont
    cases hcont
  | some f =>
    have hrunOp : (Fuse.runOp ords.chunks f.ino fh (.read offset size)).run s = .ok fh s' :=
      run_bind_ok.mpr ⟨_, _, hread, rfl⟩
    obtain ⟨q, hq, htree, hwalk, bytes', own', -, hs'⟩ :=
      h.runOp (.read offset size) hf (fun heq => by cases heq) trivial hrunOp
    obtain ⟨-, ⟨fb, hfb⟩, -⟩ := h.backs.handles fh f hf
    rw [show (FileOp.read offset size).apply (bytes f.headSlot) = bytes f.headSlot from rfl,
      h.put_same hwalk hfb] at hs'
    rw [h.backs.read hf hread]
    exact ⟨A, bytes', own', .read hq htree, hs'⟩

theorem serve_write (h : StandsFor root s A bytes own) {ords : Orders} {offset : Nat}
    {data : List UInt8} (hgap : ∀ size, totalSizeOf s fh = some size → offset ≤ size)
    (hrun : ((Request.write fh offset data).serve ords).run s = .ok reply s') :
    Serves root A (.write fh offset data) reply s' := by
  obtain ⟨n, s₁, hwrite, hret⟩ := run_bind_ok.mp hrun
  cases hret
  cases hf : s.openFiles.get fh with
  | none =>
    obtain ⟨_, _, hget, hcont⟩ := run_bind_ok.mp hwrite
    cases hget
    rw [hf] at hcont
    dsimp only at hcont
    split at hcont
    next hempty =>
      cases hcont
      obtain rfl := List.isEmpty_iff.mp hempty
      exact ⟨A, bytes, own, .writeNothing (h.handle_none hf), h⟩
    next => cases hcont
  | some f =>
    have hle : offset ≤ (bytes f.headSlot).length := hgap _ (h.size_of_handle hf)
    have hrunOp : (Fuse.runOp ords.chunks f.ino fh (.write offset data)).run s = .ok fh s' :=
      run_bind_ok.mpr ⟨_, _, hwrite, rfl⟩
    obtain ⟨q, hq, htree, -, bytes', own', -, hs'⟩ :=
      h.runOp (.write offset data) hf (fun heq => by cases heq) hle hrunOp
    have hn : n = data.length % 2 ^ 32 := by
      rw [opWrite_run hf] at hwrite
      obtain ⟨h₁, hhandle, -⟩ := withHandle_ok.mp hwrite
      obtain ⟨_, h₂, -, hcont⟩ := run_bind_ok.mp hhandle
      obtain ⟨_, _, hget, hrest⟩ := run_bind_ok.mp hcont
      cases hget
      dsimp only at hrest
      split at hrest
      next =>
        obtain ⟨_, h₃, -, hret⟩ := run_bind_ok.mp hrest
        cases hret
        rfl
      next =>
        cases hrest
        rfl
    rw [hn]
    exact ⟨_, bytes', own', .write hq htree, hs'⟩

/-- A flush changes nothing that is seen. -/
theorem opFlush (h : StandsFor root s A bytes own) (hrun : (opFlush ord fh).run s = .ok () s') :
    ∃ bytes' own', StandsFor root s' A bytes' own' := by
  cases hf : s.openFiles.get fh with
  | none =>
    obtain ⟨_, _, hget, hcont⟩ := run_bind_ok.mp hrun
    cases hget
    rw [hf] at hcont
    cases hcont
    exact ⟨bytes, own, h⟩
  | some f =>
    have hrunOp : (Fuse.runOp ord f.ino fh .flush).run s = .ok fh s' :=
      run_bind_ok.mpr ⟨_, _, hrun, rfl⟩
    obtain ⟨q, -, -, hwalk, bytes', own', -, hs'⟩ :=
      h.runOp .flush hf (fun heq => by cases heq) trivial hrunOp
    obtain ⟨-, ⟨fb, hfb⟩, -⟩ := h.backs.handles fh f hf
    rw [show FileOp.flush.apply (bytes f.headSlot) = bytes f.headSlot from rfl,
      h.put_same hwalk hfb] at hs'
    exact ⟨bytes', own', hs'⟩

theorem serve_flush (h : StandsFor root s A bytes own) {ords : Orders}
    (hrun : ((Request.flush fh).serve ords).run s = .ok reply s') :
    Serves root A (.flush fh) reply s' := by
  obtain ⟨_, s₁, hflush, hret⟩ := run_bind_ok.mp hrun
  cases hret
  obtain ⟨bytes', own', hs'⟩ := h.opFlush hflush
  exact ⟨A, bytes', own', .flush, hs'⟩

theorem serve_fsync (h : StandsFor root s A bytes own) {ords : Orders}
    (hrun : ((Request.fsync fh).serve ords).run s = .ok reply s') :
    Serves root A (.fsync fh) reply s' := by
  obtain ⟨_, s₁, hflush, hret⟩ := run_bind_ok.mp hrun
  cases hret
  obtain ⟨bytes', own', hs'⟩ := h.opFlush hflush
  exact ⟨A, bytes', own', .fsync, hs'⟩

/-- A release whose flush succeeds. -/
theorem serve_release (h : StandsFor root s A bytes own) {ords : Orders}
    (hflushed : ∃ s₁, (opRelease ords.chunks fh).run s = .ok () s₁)
    (hrun : ((Request.release fh).serve ords).run s = .ok reply s') :
    Serves root A (.release fh) reply s' := by
  obtain ⟨s₁, hrel⟩ := hflushed
  change Filesystem.release ords.chunks fh s = _ at hrun
  rw [Filesystem.release, hrel] at hrun
  cases hrun
  cases hf : s.openFiles.get fh with
  | none =>
    obtain ⟨s₂, hflush, rfl⟩ := opRelease_ok hrel
    obtain ⟨_, _, hget, hcont⟩ := run_bind_ok.mp hflush
    cases hget
    rw [hf] at hcont
    cases hcont
    -- nothing was open under this number
    have hget : ∀ k, (s.openFiles.remove fh).get k = s.openFiles.get k := fun k => by
      rw [HashMap.get_remove]
      split
      next hk => rw [hk, hf]
      next => rfl
    have hbacks : Backs root { s with openFiles := s.openFiles.remove fh } bytes own :=
      h.backs.kept (.refl _) (.refl _) (fun _ _ _ => rfl) hget rfl h.backs.inodes
        (fun _ _ hu => hu) h.backs.known
    have hhold : A.hold fh none = A := by
      rw [FileSystem.hold, ← h.handle_none hf, Function.update_eq_self]
    have hheads : Named (child (nodes s.container)) root
        (headOf { s with openFiles := s.openFiles.remove fh }) A.handles :=
      h.handles.congr (fun _ => rfl) fun k => by rw [headOf, headOf, hget]
    refine ⟨A.hold fh none, bytes, own, .release, ?_⟩
    rw [hhold]
    exact ⟨hbacks, h.tree, h.inodes, hheads⟩
  | some f =>
    obtain ⟨hin, ⟨fb, hfb⟩, -⟩ := h.backs.handles fh f hf
    obtain ⟨q, hq⟩ := hin
    obtain ⟨hstep, hget⟩ := h.backs.release hf hrel
    have hheads : headOf s' = Function.update (headOf s) fh none := by
      funext k
      rw [headOf, hget, Function.update_apply]
      split <;> rfl
    obtain ⟨slots, hs'⟩ := h.fileStep hq hfb hstep (H := Function.update A.handles fh none)
      (by rw [hheads]; exact h.handles.erase fh)
    rw [h.put_same hq hfb] at hs'
    exact ⟨_, _, _, .release, hs'⟩

/-! ## Opening -/

omit [LawfulNodeStore σ] in
/-- A file that has no handle gets one. -/
theorem held (h : StandsFor root s A bytes own)
    (hq : walk (child (nodes s.container)) root q = some t)
    (hfb : nodes s.container t = some (.file fb)) (hstep : FileStep root s s' bytes own t (bytes t))
    (hnone : s.openFiles.get fh = none) {f : OpenFile} (hhead : f.headSlot = t)
    (hget : ∀ k, s'.openFiles.get k = if k = fh then some f else s.openFiles.get k) :
    A.handles fh = none ∧ ∃ bytes' own', StandsFor root s' (A.hold fh (some q)) bytes' own' := by
  have hheads : headOf s' = Function.update (headOf s) fh (some t) := by
    funext k
    rw [headOf, hget, Function.update_apply]
    split
    next => rw [Option.map_some, hhead]
    next => rfl
  obtain ⟨slots, hs'⟩ := h.fileStep hq hfb hstep (H := Function.update A.handles fh (some q))
    (by rw [hheads]; exact h.handles.insert h.backs.tree.tree hq fh)
  rw [h.put_same hq hfb] at hs'
  exact ⟨h.handle_none hnone, _, _, hs'⟩

theorem serve_openFile (h : StandsFor root s A bytes own) {ords : Orders}
    (hno : ∀ t, s.inodes.slotOf ino = some t → ∀ k g, s.openFiles.get k = some g → g.headSlot ≠ t)
    (hnext : s.nextFh + 1 < 2 ^ 64)
    (hrun : ((Request.openFile ino).serve ords).run s = .ok reply s') :
    Serves root A (.openFile ino) reply s' := by
  obtain ⟨fh, s₁, hopen, hret⟩ := run_bind_ok.mp hrun
  cases hret
  obtain ⟨t, hino, fb, hfb⟩ : ∃ t, s.inodes.slotOf ino = some t ∧
      ∃ fb, nodes s.container t = some (.file fb) := by
    obtain ⟨t, s₂, hslot, hcont⟩ := run_bind_ok.mp hopen
    obtain ⟨hino, rfl⟩ := slotOfIno_ok.mp hslot
    obtain ⟨r, s₃, hbuild, -⟩ := run_bind_ok.mp hcont
    obtain ⟨c₃, hbuild', -⟩ := liftStore_ok.mp hbuild
    obtain ⟨n, c₄, hread, hcont₂⟩ := run_bind_ok.mp hbuild'
    obtain ⟨-, hn⟩ := readNode_inv hread
    have hin := h.backs.known ino t hino
    refine ⟨t, hino, ?_⟩
    obtain ⟨d, hd⟩ | hfile := h.backs.tree.node t hin
    · have hnode := hn (h.backs.tree.dataSlot t hin)
      rw [hd] at hnode
      cases hnode
      cases hcont₂
    · exact hfile
  obtain ⟨q, hq, hwalk⟩ := h.of_ino hino
  obtain ⟨hstep, hnone, f', hhead, hget⟩ := h.backs.openFh hino hfb (hno t hino) hnext hopen
  obtain ⟨hfree, _, _, hs'⟩ := h.held hwalk hfb hstep hnone hhead hget
  exact ⟨_, _, _, .openFile hq (h.tree_file hwalk hfb) hfree, hs'⟩

/-! ## Attributes -/

/-- The attributes of a known inode. -/
theorem attrOfIno (h : StandsFor root s A bytes own)
    (hrun : (attrOfIno ord ino).run s = .ok reply s') :
    s' = s ∧ ∃ q e, A.inodes ino = some q ∧ A.tree q = some e ∧ reply = .attr (e.attr ino) := by
  obtain ⟨t, s₁, hslot, hcont⟩ := run_bind_ok.mp hrun
  obtain ⟨hino, rfl⟩ := slotOfIno_ok.mp hslot
  obtain ⟨n, s₂, hread, hcont₂⟩ := run_bind_ok.mp hcont
  obtain ⟨c, hread', rfl⟩ := liftStore_ok.mp hread
  obtain ⟨rfl, hn⟩ := readNode_inv hread'
  obtain ⟨_, _, hget, hret⟩ := run_bind_ok.mp hcont₂
  cases hget
  cases hret
  have hnode := hn (h.backs.tree.dataSlot t (h.backs.known ino t hino))
  obtain ⟨q, hq, hwalk⟩ := h.of_ino hino
  refine ⟨rfl, q, Entry.ofNode (bytes t) n, hq, ?_, ?_⟩
  · rw [h.tree_walk hwalk, entryAt, hnode, Option.map_some]
  · exact congrArg Reply.attr (h.attr_eq ord hino hnode)

theorem serve_getattr (h : StandsFor root s A bytes own) {ords : Orders}
    (hrun : ((Request.getattr ino).serve ords).run s = .ok reply s') :
    Serves root A (.getattr ino) reply s' := by
  obtain ⟨rfl, q, e, hq, he, rfl⟩ := h.attrOfIno hrun
  exact ⟨A, bytes, own, .getattr hq he, h⟩

theorem serve_setattr (h : StandsFor root s A bytes own) {ords : Orders} {hint : Option Nat}
    (hrun : ((Request.setattr ino none hint).serve ords).run s = .ok reply s') :
    Serves root A (.setattr ino none hint) reply s' := by
  obtain ⟨rfl, q, e, hq, he, rfl⟩ := h.attrOfIno hrun
  exact ⟨A, bytes, own, .setattr hq he, h⟩

/-- A file is cut through its handle. -/
theorem serve_resize (h : StandsFor root s A bytes own) {ords : Orders} {newSize : Nat}
    {hint : Option Nat} {f : OpenFile} (hfind : findHandle ords.handles ino hint s.openFiles = some fh)
    (hf : s.openFiles.get fh = some f) (hfino : f.ino = ino) (hcut : newSize ≤ f.totalSize)
    (hrun : ((Request.setattr ino (some newSize) hint).serve ords).run s = .ok reply s') :
    Serves root A (.setattr ino (some newSize) hint) reply s' := by
  obtain ⟨_, s₁, hresize, hattr⟩ := run_bind_ok.mp hrun
  -- the handle that is found is the one given, or the only one there is
  have hcall : (opSetattrSize ords.handles f.ino (some fh) newSize).run s = .ok () s₁ := by
    rw [opSetattrSize_run hf, ← opSetattrSize_handle hf hfind]
    exact hresize
  have hrunOp : (Fuse.runOp ords.handles f.ino fh (.truncate newSize)).run s = .ok fh s₁ :=
    run_bind_ok.mpr ⟨_, _, hcall, rfl⟩
  obtain ⟨_, _, _, hcarries⟩ := h.backs.openFile hf
  obtain ⟨q, -, htree, hwalk, bytes', own', -, hs₁⟩ := h.runOp (.truncate newSize) hf
    (fun heq => by cases heq) (hcarries.size ▸ hcut) hrunOp
  obtain ⟨-, -, hino⟩ := h.backs.handles fh f hf
  rw [hfino] at hino
  have hq : A.inodes ino = some q := h.inodes.path_eq hino hwalk
  obtain ⟨rfl, q', e, hq', he, rfl⟩ := hs₁.attrOfIno hattr
  cases hq.symm.trans hq'
  rw [show (A.put q _).tree q = _ from Function.update_self _ _ _] at he
  cases he
  exact ⟨_, bytes', own', .resize hq htree, hs₁⟩

/-! ## Names -/

omit [LawfulNodeStore σ] in
/-- A path gets a number. -/
theorem numbered (h : StandsFor root s A bytes own)
    (hq : walk (child (nodes s.container)) root q = some t)
    (hroom : s.inodes.slotToIno.get t = none → s.inodes.nextIno + 1 < 2 ^ 64)
    (hrun : (inoOfSlot t).run s = .ok ino s') :
    StandsFor root s' (A.know ino q) bytes own ∧ A.Numbers ino q ∧ s'.inodes.slotOf ino = some t := by
  obtain ⟨rfl, rfl⟩ := inoOfSlot_ok hrun
  obtain ⟨hupdate, hnumber⟩ := h.backs.inodes.getOrAlloc_update t
  refine ⟨⟨h.backs.numbered ⟨q, hq⟩ hroom, h.tree, ?_, h.handles⟩, ?_, ?_⟩
  · rw [show (VenomFuse.inodes _).slotOf = _ from hupdate]
    exact h.inodes.insert h.backs.tree.tree hq _
  · refine hnumber.imp (fun hold => h.inodes.path_eq hold hq) fun ⟨hnone, hno⟩ => ⟨?_, ?_⟩
    · cases hk : A.inodes (s.inodes.getOrAlloc t).1 with
      | none => rfl
      | some p =>
        rw [← h.inodes.walk_eq hk] at hnone
        obtain ⟨u, hu, hp⟩ := (h.inodes _ p).mp hk
        rw [hp] at hnone
        cases hnone
    · exact (h.inodes.node_ne hq).mpr hno
  · exact getOrAlloc_slotOf h.backs.inodes.ok t

theorem serve_lookup (h : StandsFor root s A bytes own) {ords : Orders} {parent : Nat}
    {fname : Option String} (hroom : s.inodes.nextIno + 1 < 2 ^ 64) (hrun : ((Request.lookup parent fname).serve ords).run s = .ok reply s') :
    Serves root A (.lookup parent fname) reply s' := by
  obtain ⟨name, rfl, hcont⟩ := toStr_ok hrun
  obtain ⟨r, s₂, hlookup, hcont₂⟩ := run_bind_ok.mp hcont
  obtain ⟨p, s₃, hslot, h₁⟩ := run_bind_ok.mp hlookup
  obtain ⟨hp, rfl⟩ := slotOfIno_ok.mp hslot
  obtain ⟨path, hpath, hwalk⟩ := h.of_ino hp
  have hpdata := h.backs.tree.dataSlot p ⟨path, hwalk⟩
  obtain ⟨d, s₄, hread, h₂⟩ := run_bind_ok.mp h₁
  obtain ⟨rfl, hd⟩ := readDirBlock_ok hread
  split at h₂
  next => cases h₂
  next e he =>
    have hsome : child (nodes s₄.container) p name = some e.slot := by
      rw [child_directory (hd hpdata), show entryOf d name = some e from he]
      rfl
    have hq : walk (child (nodes s₄.container)) root (path ++ [name]) = some e.slot :=
      walk_concat_eq_some.mpr ⟨p, hwalk, hsome⟩
    obtain ⟨node, s₅, hnode, h₃⟩ := run_bind_ok.mp h₂
    obtain ⟨c, hnode', rfl⟩ := liftStore_ok.mp hnode
    obtain ⟨rfl, hn⟩ := readNode_inv hnode'
    obtain ⟨ino, s₆, hino, h₄⟩ := run_bind_ok.mp h₃
    cases h₄
    obtain ⟨hs', hnumber, hslot'⟩ := h.numbered hq (fun _ => hroom) hino
    have hnode₀ := hn (h.backs.tree.dataSlot _ ⟨_, hq⟩)
    have hstep : A.Step (.lookup parent (some name))
        (.entry ((Entry.ofNode (bytes e.slot) node).attr ino)) (A.know ino (path ++ [name])) := by
      refine .lookup hpath (h.tree_dir hwalk (hd hpdata)) ?_ hnumber
      rw [h.tree_walk hq, entryAt, hnode₀, Option.map_some]
    have hattr := hs'.attr_eq ords.handles hslot' (n := node) (by
      obtain ⟨hs₂, -⟩ := inoOfSlot_ok hino
      rw [hs₂]
      exact hnode₀)
    obtain ⟨_, _, hget, hret⟩ := run_bind_ok.mp hcont₂
    cases hget
    obtain ⟨d', hd'⟩ | ⟨fb, hfb⟩ := h.backs.tree.node e.slot ⟨_, hq⟩
    · cases hnode₀.symm.trans hd'
      cases hret
      exact ⟨_, bytes, own, hstep, hs'⟩
    · cases hnode₀.symm.trans hfb
      cases hret
      rw [hattr]
      exact ⟨_, bytes, own, hstep, hs'⟩

omit [LawfulNodeStore σ] in
/-- Every entry that is listed gets a number. -/
theorem childEntries (h : StandsFor root s A bytes own) {entries : List DirEntry}
    {children : List (Nat × FileType × String)}
    (hentries : ∀ e ∈ entries, walk (child (nodes s.container)) root (q ++ [e.name]) = some e.slot ∧
      (nodes s.container e.slot).map kindOf = some e.kind)
    (hroom : s.inodes.nextIno + s.inodes.newNumbers (entries.map (·.slot)) < 2 ^ 64)
    (hrun : (childEntries entries).run s = .ok children s') :
    ∃ A', A.Lists q children A' ∧ StandsFor root s' A' bytes own ∧
      children.map (·.2.2) = entries.map (·.name) := by
  induction entries generalizing s A children with
  | nil =>
    cases hrun
    exact ⟨A, .nil, h, rfl⟩
  | cons e entries ih =>
    obtain ⟨ino, s₁, hino, hcont⟩ := run_bind_ok.mp hrun
    obtain ⟨rest, s₂, hrest, hret⟩ := run_bind_ok.mp hcont
    cases hret
    obtain ⟨hq, hkind⟩ := hentries e List.mem_cons_self
    obtain ⟨hone, hmore⟩ := InodeMap.newNumbers_room hroom
    obtain ⟨hs₁, hnumber, -⟩ := h.numbered hq hone hino
    obtain ⟨rfl, -⟩ := inoOfSlot_ok hino
    obtain ⟨A', hlists, hs', hnames⟩ := ih hs₁
      (fun e' he' => hentries e' (List.mem_cons_of_mem _ he')) hmore hrest
    obtain ⟨en, hen, htype⟩ : ∃ en, A.tree (q ++ [e.name]) = some en ∧
        en.fileType = fileTypeOf e.kind := by
      rw [h.tree_walk hq]
      obtain ⟨d, hd⟩ | ⟨fb, hfb⟩ := h.backs.tree.node e.slot ⟨_, hq⟩
      · rw [hd] at hkind
        cases hkind' : e.kind with
        | directory => exact ⟨_, entryAt_directory hd, rfl⟩
        | _ => rw [hkind'] at hkind; cases hkind
      · rw [hfb] at hkind
        cases hkind' : e.kind with
        | file => exact ⟨_, entryAt_file hfb, rfl⟩
        | _ => rw [hkind'] at hkind; cases hkind
    refine ⟨A', ?_, hs', ?_⟩
    · rw [← htype]
      exact .cons hen hnumber hlists
    · rw [List.map_cons, List.map_cons, hnames]

theorem serve_readdir (h : StandsFor root s A bytes own) {ords : Orders} {room : ReplyRoom}
    {offset : Nat} (hroom : s.inodes.nextIno + s.inodes.newNumbers (entrySlots s ino) < 2 ^ 64)
    (hrun : ((Request.readdir room ino offset).serve ords).run s = .ok reply s') :
    Serves root A (.readdir room ino offset) reply s' := by
  obtain ⟨r, s₁, hreaddir, hret⟩ := run_bind_ok.mp hrun
  cases hret
  obtain ⟨t, s₂, hslot, h₁⟩ := run_bind_ok.mp hreaddir
  obtain ⟨hino, rfl⟩ := slotOfIno_ok.mp hslot
  obtain ⟨d, s₃, hread, h₂⟩ := run_bind_ok.mp h₁
  obtain ⟨rfl, hd⟩ := readDirBlock_ok hread
  obtain ⟨children, s₄, hchildren, h₃⟩ := run_bind_ok.mp h₂
  cases h₃
  obtain ⟨q, hq, hwalk⟩ := h.of_ino hino
  have hd₀ := hd (h.backs.tree.dataSlot t ⟨q, hwalk⟩)
  have hunique := h.backs.tree.names t d ⟨q, hwalk⟩ hd₀
  rw [entrySlots_directory hino hd₀] at hroom
  obtain ⟨A', hlists, hs', hnames⟩ := h.childEntries (q := q) (fun e he => by
    have hfind := hunique.find he
    refine ⟨walk_concat_eq_some.mpr ⟨t, hwalk, ?_⟩, h.backs.kinds t d _ e ⟨q, hwalk⟩ hd₀ hfind⟩
    rw [child_directory hd₀, hfind]
    rfl) hroom hchildren
  refine ⟨A', bytes, own, .readdir hq (h.tree_dir hwalk hd₀) hlists (hnames ▸ hunique) ?_, hs'⟩
  intro name hname
  rw [h.tree] at hname
  have hwalk' := (fileTree_none h.backs.tree).not.mp hname
  rw [hnames]
  obtain ⟨u, hu⟩ := Option.ne_none_iff_exists'.mp hwalk'
  obtain ⟨t', ht', hc⟩ := walk_concat_eq_some.mp hu
  cases hwalk.symm.trans ht'
  rw [child_directory hd₀] at hc
  obtain ⟨e, he, -⟩ := Option.map_eq_some_iff.mp hc
  obtain ⟨hmem, rfl⟩ := entryOf_mem he
  exact List.mem_map_of_mem hmem

omit [NodeStore σ] [LawfulNodeStore σ] in
/-- A leaf is linked under a new name. -/
theorem linked (h : StandsFor root s A bytes own) {path : List String} {name : String} {slot : Nat}
    {n : VaultNode} (hleaf : LeafLinked root s s' bytes own path name slot n) :
    StandsFor root s' (A.put (path ++ [name]) (Entry.ofNode [] n)) (Function.update bytes slot [])
      (Function.update own slot [slot]) := by
  have hfresh : ¬ InTree s.container root slot := fun hin => h.backs.not_free hin hleaf.fresh
  have hinodes : s'.inodes = s.inodes := by rw [hleaf.state]
  have hheads : headOf s' = headOf s := by
    rw [hleaf.state]
    rfl
  refine ⟨hleaf.backs, ?_, ?_, ?_⟩
  · rw [hleaf.tree, ← h.tree]
    rfl
  · rw [hinodes]
    exact h.inodes.linked hleaf.walk hleaf.new fun k hk => hfresh (h.backs.known k slot hk)
  · rw [hheads]
    refine h.handles.linked hleaf.walk hleaf.new fun k hk => ?_
    obtain ⟨f, hf, rfl⟩ := headOf_eq_some.mp hk
    exact hfresh (h.backs.handles k f hf).1

omit [NodeStore σ] [LawfulNodeStore σ] in
/-- A path that was not there has no number. -/
theorem new_number (h : StandsFor root s A bytes own) {e : Entry}
    (hnew : walk (child (nodes s.container)) root q = none) (hnumber : (A.put q e).Numbers ino q) :
    A.inodes ino = none := by
  obtain hold | ⟨hnone, -⟩ := hnumber
  · obtain ⟨t, -, ht⟩ := (h.inodes ino q).mp hold
    rw [hnew] at ht
    cases ht
  · exact hnone

theorem serve_mkdir (h : StandsFor root s A bytes own) {ords : Orders} {parent : Nat}
    {fname : Option String} (hroom : s.inodes.nextIno + 1 < 2 ^ 64) (hrun : ((Request.mkdir parent fname).serve ords).run s = .ok reply s') :
    Serves root A (.mkdir parent fname) reply s' := by
  obtain ⟨name, rfl, hcont⟩ := toStr_ok hrun
  obtain ⟨r, s₂, hmkdir, hret⟩ := run_bind_ok.mp hcont
  cases hret
  obtain ⟨p, s₃, hslot, h₁⟩ := run_bind_ok.mp hmkdir
  obtain ⟨hp, rfl⟩ := slotOfIno_ok.mp hslot
  obtain ⟨path, hpath, hwalk⟩ := h.of_ino hp
  obtain ⟨slot, s₄, hwrite, h₂⟩ := run_bind_ok.mp h₁
  obtain ⟨_, s₅, hlink, h₃⟩ := run_bind_ok.mp h₂
  obtain ⟨ino, s₆, hino, h₄⟩ := run_bind_ok.mp h₃
  cases h₄
  have hleaf := h.backs.linked hwalk (.inl rfl) rfl hwrite hlink
  obtain ⟨hs', hnumber, -⟩ := (h.linked hleaf).numbered
    (by rw [hleaf.walk, if_pos rfl]) (fun _ => by rw [hleaf.state]; exact hroom) hino
  obtain ⟨u, d, hu, hd⟩ := hleaf.dir
  refine ⟨_, _, _, .mkdir hpath (h.tree_dir hu hd) ?_ (h.new_number hleaf.new hnumber), hs'⟩
  rw [h.tree, fileTree_none h.backs.tree]
  exact hleaf.new

theorem serve_create (h : StandsFor root s A bytes own) {ords : Orders} {parent : Nat}
    {fname : Option String} (hroom : s.inodes.nextIno + 1 < 2 ^ 64) (hnext : s.nextFh + 1 < 2 ^ 64)
    (hrun : ((Request.create parent fname).serve ords).run s = .ok reply s') :
    Serves root A (.create parent fname) reply s' := by
  obtain ⟨name, rfl, hcont⟩ := toStr_ok hrun
  obtain ⟨r, s₂, hcreate, hret⟩ := run_bind_ok.mp hcont
  cases hret
  obtain ⟨p, s₃, hslot, h₁⟩ := run_bind_ok.mp hcreate
  obtain ⟨hp, rfl⟩ := slotOfIno_ok.mp hslot
  obtain ⟨path, hpath, hwalk⟩ := h.of_ino hp
  obtain ⟨slot, s₄, hwrite, h₂⟩ := run_bind_ok.mp h₁
  obtain ⟨_, s₅, hlink, h₃⟩ := run_bind_ok.mp h₂
  obtain ⟨ino, s₆, hino, h₄⟩ := run_bind_ok.mp h₃
  obtain ⟨fh, s₇, halloc, h₅⟩ := run_bind_ok.mp h₄
  obtain ⟨_, s₈, hins, h₆⟩ := run_bind_ok.mp h₅
  rw [insertHandle_ok] at hins
  cases halloc
  subst hins
  cases h₆
  have hleaf := h.backs.linked hwalk (.inr rfl) rfl hwrite hlink
  have hq : walk (child (nodes s₅.container)) root (path ++ [name]) = some slot := by
    rw [hleaf.walk, if_pos rfl]
  obtain ⟨hs₆, hnumber, hslot⟩ := (h.linked hleaf).numbered hq
    (fun _ => by rw [hleaf.state]; exact hroom) hino
  obtain ⟨hs₆', -⟩ := inoOfSlot_ok hino
  -- the handle of the new file is the one an open would make of it
  have hnode : nodes s₆.container slot = some (headNode 0 [] none []) := by
    rw [hs₆']
    exact hleaf.node
  have hown : Accounts s₆.container [slot] := by
    have haccounts := hs₆.backs.accounts slot
    rwa [Function.update_self] at haccounts
  have hcarries := Carries.empty ino hnode hown
  have hopenFiles : s₆.openFiles = s₃.openFiles ∧ s₆.nextFh = s₃.nextFh := by
    rw [hs₆', hleaf.state]
    exact ⟨rfl, rfl⟩
  have hno : ∀ k g, s₆.openFiles.get k = some g → g.headSlot ≠ slot := fun k g hg heq => by
    rw [hopenFiles.1] at hg
    exact h.backs.not_free (h.backs.handles k g hg).1 (heq ▸ hleaf.fresh)
  have hq₆ : walk (child (nodes s₆.container)) root (path ++ [name]) = some slot := by
    rw [hs₆']
    exact hq
  obtain ⟨hstep, hnone, hget⟩ := hs₆.backs.addHandle hslot
    (by rw [Function.update_self, Function.update_self]; exact hcarries) hno
    (by rw [hopenFiles.2]; exact hnext) rfl
  obtain ⟨-, _, _, hs'⟩ := hs₆.held hq₆ hnode hstep hnone rfl hget
  obtain ⟨u, d, hu, hd⟩ := hleaf.dir
  have hfree : A.handles s₆.nextFh = none := h.handle_none (by rw [← hopenFiles.1]; exact hnone)
  refine ⟨_, _, _, .create hpath (h.tree_dir hu hd) ?_ (h.new_number hleaf.new hnumber) hfree, hs'⟩
  rw [h.tree, fileTree_none h.backs.tree]
  exact hleaf.new

omit [LawfulNodeStore σ] in
omit [NodeStore σ] in
/-- A leaf is taken out of its directory. -/
theorem unlinked (h : StandsFor root s A bytes own) {path : List String} {name : String} {slot : Nat}
    (hleaf : LeafUnlinked root s s' bytes own path name slot) :
    StandsFor root s' (A.drop (path ++ [name])) bytes (Function.update own slot []) := by
  refine ⟨hleaf.backs, ?_, ?_, ?_⟩
  · rw [hleaf.tree, ← h.tree]
    rfl
  · refine h.inodes.unlinked h.backs.tree.tree hleaf.walk hleaf.old fun k u => ?_
    rw [hleaf.inodes]
    refine ⟨(h.backs.inodes.back.removeSlot slot).2 k u, fun ⟨hu, hne⟩ => ?_⟩
    rw [h.backs.inodes.removeSlot_slotOf hu, if_neg hne]
  · refine h.handles.unlinked h.backs.tree.tree hleaf.walk hleaf.old fun k u => ?_
    rw [headOf_eq_some, headOf_eq_some]
    constructor
    · rintro ⟨f, hf, rfl⟩
      obtain ⟨hold, hne⟩ := (hleaf.openFiles k f).mp hf
      exact ⟨⟨f, hold, rfl⟩, hne⟩
    · rintro ⟨⟨f, hf, rfl⟩, hne⟩
      exact ⟨f, (hleaf.openFiles k f).mpr ⟨hf, hne⟩, rfl⟩

theorem serve_rmdir (h : StandsFor root s A bytes own) {ords : Orders} {parent : Nat}
    {fname : Option String} (hrun : ((Request.rmdir parent fname).serve ords).run s = .ok reply s') :
    Serves root A (.rmdir parent fname) reply s' := by
  obtain ⟨name, rfl, hcont⟩ := toStr_ok hrun
  obtain ⟨_, s₂, hrmdir, hret⟩ := run_bind_ok.mp hcont
  cases hret
  obtain ⟨p, s₃, hslot, h₁⟩ := run_bind_ok.mp hrmdir
  obtain ⟨hp, hs₃⟩ := slotOfIno_ok.mp hslot
  rw [hs₃] at h₁
  obtain ⟨path, hpath, hwalk⟩ := h.of_ino hp
  have hpdata := h.backs.tree.dataSlot p ⟨path, hwalk⟩
  obtain ⟨d, s₄, hread, h₂⟩ := run_bind_ok.mp h₁
  obtain ⟨hs₄, hd⟩ := readDirBlock_ok hread
  rw [hs₄] at h₂
  split at h₂
  next => cases h₂
  next e he =>
    have hin := InTree.entry ⟨path, hwalk⟩ (hd hpdata) (show entryOf d name = some e from he)
    obtain ⟨target, s₅, htarget, h₃⟩ := run_bind_ok.mp h₂
    obtain ⟨hs₅, ht⟩ := readDirBlock_ok htarget
    rw [hs₅] at h₃
    have htdir := ht (h.backs.tree.dataSlot _ hin)
    by_cases hempty : target.entries ≠ []
    · rw [if_pos hempty] at h₃
      cases h₃
    · rw [if_neg hempty] at h₃
      obtain ⟨removed, s₆, hremove, h₄⟩ := run_bind_ok.mp h₃
      obtain ⟨d', e', hrem, rfl⟩ := dirRemoveEntry_ok hpdata hremove
      cases hrem.dir.symm.trans (hd hpdata)
      cases hrem.entry.symm.trans he
      obtain ⟨_, s₇, hfree, h₅⟩ := run_bind_ok.mp h₄
      obtain ⟨c, hfree', rfl⟩ := liftStore_ok.mp hfree
      rw [freeNode_run_ok] at hfree'
      cases h₅
      have hown : own e.slot = [e.slot] := h.backs.dirs _ _ hin htdir
      have hleaf : IsLeaf (nodes s.container) e.slot := .inl ⟨target, htdir, not_not.mp hempty⟩
      have haccounts := h.backs.accounts_of_removed hrem e.slot
      rw [hown] at haccounts
      have hmoves : Moves s₆.container c [e.slot] [] := by
        rw [hfree']
        exact (freeNode_inv haccounts).2
      -- a directory has no handles
      have hopen : ∀ fh f, s₆.openFiles.get fh = some f ↔
          s.openFiles.get fh = some f ∧ f.headSlot ≠ e.slot := fun fh f => by
        rw [hrem.state]
        refine ⟨fun hf => ⟨hf, fun heq => ?_⟩, And.left⟩
        obtain ⟨-, ⟨fb, hfb⟩, -⟩ := h.backs.handles fh f hf
        rw [heq, htdir] at hfb
        cases hfb
      have hinodes : s₆.inodes = s.inodes := by rw [hrem.state]
      have hnext : s₆.nextFh = s.nextFh := by rw [hrem.state]
      have hunlinked : LeafUnlinked root s
          { s₆ with container := c, inodes := s₆.inodes.removeSlot e.slot } bytes own path name
          e.slot :=
        h.backs.unlinked hwalk hrem hleaf hmoves (by rw [hown]) (by rw [hinodes]) hnext hopen
      refine ⟨_, _, _, .rmdir hpath ?_ fun n => ?_, h.unlinked hunlinked⟩
      · exact h.tree_dir hunlinked.old htdir
      · rw [h.tree, fileTree_none h.backs.tree]
        exact walk_concat_eq_none hunlinked.old (hleaf.child n)

end StandsFor

/-! ## Removing a file -/

section Finite

variable {τ : Type} [NodeStore τ] [NodeView τ] [FiniteNodeStore τ] {u u' u₁ : VenomFuse τ} {p : Nat}
  {d : DirectoryBlock} {name : String} {e : DirEntry} {path : List String}

/-- Once the entry of a file is out, nothing fails: the slots its head lists go back, and those of
    its index chain. -/
theorem opUnlink_removed (h : Backs root u bytes own) {parent : Nat}
    (hp : u.inodes.slotOf parent = some p) (hwalk : walk (child (nodes u.container)) root path = some p)
    (hremove : (dirRemoveEntry p name).run u = .ok e.slot u₁) (hrem : Removed u u₁ p d name e)
    (hfb : nodes u.container e.slot = some (.file fb)) :
    ∃ u', (opUnlink parent name).run u = .ok () u' ∧
      LeafUnlinked root u u' bytes own path name e.slot := by
  have hin := InTree.entry ⟨path, hwalk⟩ hrem.dir hrem.entry
  have hdata := h.tree.dataSlot _ hin
  have hne : e.slot ≠ p := fun heq => by
    rw [heq, hrem.dir] at hfb
    cases hfb
  obtain ⟨f, ids, chain, hcarries⟩ : ∃ f ids chain, f.headSlot = e.slot ∧
      Carries u.container f fb ids chain (bytes e.slot) (own e.slot) := by
    cases h.files _ fb hin hfb with
    | opened hf hhead hcarries =>
      have hnode := hcarries.head.1
      rw [hhead, hfb] at hnode
      cases hnode
      exact ⟨_, _, _, hhead, hcarries⟩
    | closed hno _ =>
      obtain ⟨_, _, hcarries⟩ := h.closedFile hin hfb hno
      exact ⟨_, _, _, rfl, hcarries⟩
  obtain ⟨hhead, hcarries⟩ := hcarries
  have hown := hcarries.slots
  rw [ownedSlots, hhead] at hown
  -- what the head and the chain list on the disk belongs to the file
  have hlisted : (fb.dataSlots ++ (chain ++ [e.slot])).Subperm (own e.slot) := by
    have hids : fb.dataSlots.Subperm f.slotMap.reduceOption :=
      (List.sublist_append_left _ _).subperm.trans hcarries.listed
    have hchain : (chain ++ [e.slot]).Perm (e.slot :: chain) := List.perm_append_singleton _ _
    rw [hown]
    exact (hids.append hchain.subperm)
  have haccounts := (h.accounts_of_removed hrem e.slot).subperm hlisted
  have hnodes : ∀ t ∈ own e.slot, nodes u₁.container t = nodes u.container t := fun t ht => by
    refine hrem.others t (h.dataSlot t (.inr ⟨e.slot, ht⟩)) fun heq => hne ?_
    rw [heq] at ht
    exact h.divided.single ht (h.self_mem ⟨path, hwalk⟩)
  have hslot : e.slot ∈ own e.slot := h.self_mem hin
  have hchain₁ : IndexChain (nodes u₁.container) fb.indexChain ids chain := by
    rw [hcarries.ok.handle.chainEq]
    refine hcarries.ok.handle.index.congr fun t ht => hnodes t ?_
    rw [hown]
    exact List.mem_append_right _ (List.mem_cons_of_mem _ ht)
  -- the slots of the bytes go first, then the blocks of the chain, then the head
  obtain ⟨c₁, hfree₁⟩ := freeNodes_run fb.dataSlots u₁.container
  obtain ⟨hmoves₁, hagree₁⟩ := freeNodes_ok hfree₁ haccounts
  have haccounts₁ := hmoves₁.accounts haccounts
  have hnodup := List.nodup_append.mp haccounts.nodup_own
  have hchain₂ : IndexChain (nodes c₁) fb.indexChain ids chain := by
    refine hchain₁.congr fun t ht => hagree₁ t ?_ fun hmem => ?_
    · exact haccounts.isDataSlot (List.mem_append_right _ (List.mem_append_left _ ht))
    · exact hnodup.2.2 t hmem t (List.mem_append_left _ ht) rfl
  obtain ⟨c₂, hfree₂⟩ := freeIndexChain_run hchain₂ haccounts₁
  obtain ⟨hmoves₂, -⟩ := freeIndexChain_ok hchain₂ haccounts₁ hfree₂
  have hmoves₃ := (freeNode_inv (hmoves₂.accounts haccounts₁)).2
  refine ⟨{ u₁ with
    container := NodeStore.freeNode e.slot c₂
    openFiles := u₁.openFiles.retain (fun _ of => decide (of.headSlot ≠ e.slot))
    inodes := u₁.inodes.removeSlot e.slot }, ?_, ?_⟩
  · have hread : NodeStore.readNode e.slot u₁.container = .ok (.file fb) :=
      (readNode_ok (hrem.same.isDataSlot.mpr hdata)).mpr (by rw [hnodes _ hslot, hfb])
    unfold opUnlink
    rw [run_bind_of_ok (slotOfIno_ok.mpr ⟨hp, rfl⟩), run_bind_of_ok hremove,
      run_bind_of_ok run_modify, run_bind_of_ok run_get]
    dsimp only
    rw [hread]
    dsimp only
    refine run_bind_ok.mpr ⟨(), _, liftStore_ok.mpr ⟨c₁, hfree₁, rfl⟩, ?_⟩
    refine run_bind_ok.mpr ⟨(), _, liftStore_ok.mpr ⟨c₂, hfree₂, rfl⟩, ?_⟩
    rfl
  · refine h.unlinked hwalk hrem (.inr ⟨fb, hfb⟩) (hmoves₁.trans (hmoves₂.trans hmoves₃)) hlisted
      (by rw [hrem.state]) (by rw [hrem.state]) fun fh f => ?_
    rw [HashMap.get_retain, Option.filter_eq_some_iff, decide_eq_true_eq, hrem.state]

/-- An unlink fails before it has changed anything, or takes the file out. -/
theorem opUnlink_cases (h : Backs root u bytes own) {parent : Nat}
    (hfile : ∀ p t, u.inodes.slotOf parent = some p → child (nodes u.container) p name = some t →
      ∃ fb, nodes u.container t = some (.file fb)) :
    (∃ p t path fb u', u.inodes.slotOf parent = some p ∧
      walk (child (nodes u.container)) root path = some p ∧
      nodes u.container t = some (.file fb) ∧ (opUnlink parent name).run u = .ok () u' ∧
      LeafUnlinked root u u' bytes own path name t) ∨
    ∃ e u', (opUnlink parent name).run u = .error e u' ∧ Unchanged u u' ∧
      ((slotOfIno parent).run u = .error e u' ∨
        ∃ p, u.inodes.slotOf parent = some p ∧ (dirRemoveEntry p name).run u = .error e u') := by
  rcases run_cases (slotOfIno parent) u with ⟨p, hslot⟩ | ⟨err, hslot⟩
  · obtain ⟨hp, hs⟩ := slotOfIno_ok.mp hslot
    rw [hs] at hslot
    obtain ⟨path, hwalk⟩ := h.known parent p hp
    have hpdata := h.tree.dataSlot p ⟨path, hwalk⟩
    rcases run_cases (dirRemoveEntry p name) u with ⟨removed, hremove⟩ | ⟨err, hremove⟩
    · obtain ⟨d, e, hrem, rfl⟩ := dirRemoveEntry_ok hpdata hremove
      have hsome : child (nodes u.container) p name = some e.slot := by
        rw [child_directory hrem.dir, hrem.entry]
        rfl
      obtain ⟨fb, hfb⟩ := hfile p e.slot hp hsome
      obtain ⟨u', hrun, hleaf⟩ := opUnlink_removed h hp hwalk hremove hrem hfb
      exact .inl ⟨p, e.slot, path, fb, u', hp, hwalk, hfb, hrun, hleaf⟩
    · exact .inr ⟨err, _, (run_bind_of_ok hslot).trans (run_bind_of_error hremove),
        dirRemoveEntry_error hremove, .inr ⟨p, hp, hremove⟩⟩
  · have hs := slotOfIno_error hslot
    rw [hs] at hslot
    exact .inr ⟨err, _, run_bind_of_error hslot, .refl u, .inl hslot⟩

theorem StandsFor.serve_unlink (h : StandsFor root u A bytes own) {ords : Orders} {parent : Nat}
    {fname : Option String}
    (hfile : ∀ name p t, fname = some name → u.inodes.slotOf parent = some p →
      child (nodes u.container) p name = some t → ∃ fb, nodes u.container t = some (.file fb))
    (hrun : ((Request.unlink parent fname).serve ords).run u = .ok reply u') :
    Serves root A (.unlink parent fname) reply u' := by
  obtain ⟨name, rfl, hcont⟩ := toStr_ok hrun
  obtain ⟨_, u₂, hunlink, hret⟩ := run_bind_ok.mp hcont
  cases hret
  obtain ⟨p, t, path, fb, v, hp, hwalk, hfb, hok, hleaf⟩ | ⟨e, v, herror, -⟩ :=
    opUnlink_cases h.backs (hfile name · · rfl)
  · cases hunlink.symm.trans hok
    have hpath := h.inodes.path_eq hp hwalk
    exact ⟨_, _, _, .unlink hpath (h.tree_file hleaf.old hfb), h.unlinked hleaf⟩
  · cases hunlink.symm.trans herror

end Finite

end Venom.Fuse
