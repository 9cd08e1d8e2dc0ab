import Venom.Fuse.MoveSteps
import Venom.Fuse.CallInvariants
import Venom.Fuse.OutOfSlots
import Venom.Fuse.TruncatePaths

/-! # Requests of a careful client

The driver is a file system for a client that restricts itself: it opens no file twice, leaves no
gaps in a file and does not extend it by a new size.  Each of its requests is a step of the file
system when it is served.  When it fails, the file system is as it was, but a write that fails has
been made.
-/

namespace Venom.Fuse

open Venom.Storage
open Venom.Library
open Venom.Library.Chunks (patch)
open Venom.Library.NameTree
open Venom.Library.StateError

variable {σ : Type} [NodeStore σ] [NodeView σ]

/-- The restrictions of the client in the state `s`, for which the driver has no check: a file that
    is open is not opened again; a write begins within the file or at its end; a size is changed
    through an open handle and does not grow; an unlink is for files; a rename does not put a
    directory below itself, and takes the place of nothing, or of a file or an empty directory that
    nobody has open; and a release finds the room to write the file back.  The numbers of inodes
    and handles stay below 2^64. -/
def Request.Allowed (ords : Orders) (s : VenomFuse σ) : Request → Prop
  | .lookup _ _ | .mkdir _ _ => s.inodes.nextIno + 1 < 2 ^ 64
  | .readdir _ ino _ => s.inodes.nextIno + s.inodes.newNumbers (entrySlots s ino) < 2 ^ 64
  | .openFile ino => s.nextFh + 1 < 2 ^ 64 ∧ ∀ t, s.inodes.slotOf ino = some t →
      ∀ fh f, s.openFiles.get fh = some f → f.headSlot ≠ t
  | .create _ _ => s.inodes.nextIno + 1 < 2 ^ 64 ∧ s.nextFh + 1 < 2 ^ 64
  | .write fh offset _ => ∀ size, totalSizeOf s fh = some size → offset ≤ size
  | .setattr ino (some newSize) hint => ∃ fh f,
      findHandle ords.handles ino hint s.openFiles = some fh ∧ s.openFiles.get fh = some f ∧
      f.ino = ino ∧ newSize ≤ f.totalSize
  | .unlink parent name => ∀ n p t, name = some n → s.inodes.slotOf parent = some p →
      child (nodes s.container) p n = some t → ∃ fb, nodes s.container t = some (.file fb)
  | .release fh => ∃ s', (opRelease ords.chunks fh).run s = .ok () s'
  | .rename parent name newparent newname => ∀ n n' p np, name = some n → newname = some n' →
      s.inodes.slotOf parent = some p → s.inodes.slotOf newparent = some np →
      (∀ m, child (nodes s.container) p n = some m → ¬ InTree s.container m np) ∧
      ∀ o ∈ replaced (nodes s.container) p n np n', IsLeaf (nodes s.container) o ∧
        ∀ fh f, s.openFiles.get fh = some f → f.headSlot ≠ o
  | _ => True

/-- A request whose failure is contained: a flush that fails lacks the slots for its chunks, and not
    just those for its index chain; a rename does not fail once the entry is out of its
    directory. -/
def Request.Contained (ords : Orders) (s : VenomFuse σ) : Request → Prop
  | .flush fh | .fsync fh => ∀ f, s.openFiles.get fh = some f →
      (free s.container).length < (newChunks f (toStore ords.chunks f)).length
  | .rename parent name newparent newname => ∀ n n', name = some n → newname = some n' →
      Completes s parent n newparent n'
  | _ => True

/-- What becomes of a file system by a request that fails: nothing, but the bytes of a write through
    a handle are written. -/
inductive FileSystem.Fail (A : FileSystem) : Request → FileSystem → Prop
  | refused {req : Request} : (∀ fh offset data, req = .write fh offset data → A.handles fh = none) →
      Fail A req A
  | written {fh offset : Nat} {data bytes : List UInt8} {q : List String} : A.handles fh = some q →
      A.tree q = some (.file bytes) →
      Fail A (.write fh offset data) (A.put q (.file (patch 0 bytes offset data)))

variable [FiniteNodeStore σ] {root : Nat} {s s₁ s' : VenomFuse σ} {A : FileSystem}
  {bytes : Nat → List UInt8} {own : Nat → List Nat} {ords : Orders} {req : Request} {reply : Reply}
  {e : Failure}

namespace StandsFor

/-! ## Requests that are served -/

theorem serve (h : StandsFor root s A bytes own) (hallowed : req.Allowed ords s)
    (hrun : (req.serve ords).run s = .ok reply s') : Serves root A req reply s' := by
  cases req with
  | lookup parent name => exact h.serve_lookup hallowed hrun
  | getattr ino => exact h.serve_getattr hrun
  | setattr ino size hint =>
    cases size with
    | none => exact h.serve_setattr hrun
    | some newSize =>
      obtain ⟨fh, f, hfind, hf, hino, hcut⟩ := hallowed
      exact h.serve_resize hfind hf hino hcut hrun
  | readdir room ino offset => exact h.serve_readdir hallowed hrun
  | mkdir parent name => exact h.serve_mkdir hallowed hrun
  | rmdir parent name => exact h.serve_rmdir hrun
  | create parent name => exact h.serve_create hallowed.1 hallowed.2 hrun
  | unlink parent name => exact h.serve_unlink hallowed hrun
  | rename parent name newparent newname => exact h.serve_rename hallowed hrun
  | openFile ino => exact h.serve_openFile hallowed.2 hallowed.1 hrun
  | release fh => exact h.serve_release hallowed hrun
  | flush fh => exact h.serve_flush hrun
  | fsync fh => exact h.serve_fsync hrun
  | read fh offset size => exact h.serve_read hrun
  | write fh offset data => exact h.serve_write hallowed hrun

/-! ## Requests that fail -/

omit [FiniteNodeStore σ] in
/-- Nothing in use has changed, and nothing that was given out. -/
theorem kept (h : StandsFor root s A bytes own) (hsame : SameVolume s.container s'.container)
    (hfree : (free s'.container).Perm (free s.container))
    (hagree : ∀ t, IsDataSlot s.container t → t ∉ free s.container →
      nodes s'.container t = nodes s.container t)
    (hopen : s'.openFiles = s.openFiles) (hnext : s'.nextFh = s.nextFh)
    (hinodes : s'.inodes = s.inodes) : StandsFor root s' A bytes own := by
  have hnode : ∀ t, InTree s.container root t → nodes s'.container t = nodes s.container t := fun t ht =>
    hagree t (h.backs.tree.dataSlot t ht) (h.backs.not_free ht)
  have hwalk := walk_of_nodes hnode
  refine ⟨h.backs.kept hsame hfree hagree (fun k => by rw [hopen]) hnext (hinodes ▸ h.backs.inodes)
    (fun ino t ht => by rwa [hinodes]) (fun ino t ht => h.backs.known ino t (by rwa [← hinodes])),
    ?_, h.inodes.congr hwalk fun k => by rw [hinodes],
    h.handles.congr hwalk fun k => by rw [headOf, headOf, hopen]⟩
  funext q
  rw [h.tree, fileTree, fileTree, hwalk q]
  cases hq : walk (child (nodes s.container)) root q with
  | none => rfl
  | some t => rw [Option.bind_some, Option.bind_some, entryAt, entryAt, hnode t ⟨q, hq⟩]

omit [FiniteNodeStore σ] in
theorem unchanged (h : StandsFor root s A bytes own) (hun : Unchanged s s')
    (hnext : s'.nextFh = s.nextFh) : StandsFor root s' A bytes own :=
  h.kept hun.same (by rw [hun.free]) (fun t ht _ => hun.nodes t ht) hun.handles hnext hun.inodes

/-- A node that could not be linked is gone, and its slot is free again. -/
theorem notLinked (h : StandsFor root s A bytes own) {n : VaultNode} {slot p : Nat} {entry : DirEntry}
    (hwrite : (liftStore (writeNode n)).run s = .ok slot s₁)
    (hlink : (linkOrFree p slot entry).run s₁ = .error e s') (hnext : s'.nextFh = s.nextFh) :
    StandsFor root s' A bytes own := by
  obtain ⟨hs₁, hfree, -, hothers, hsame, hmem⟩ := writeNode_written h.backs.freeOk.2 hwrite
  obtain ⟨s₂, hun, rfl⟩ := linkOrFree_error hlink
  have haccounts : Accounts s₂.container [slot] := by
    refine ⟨?_, fun t ht => hun.same.isDataSlot.mpr (hsame.isDataSlot.mpr (h.backs.freeOk.2 t ?_))⟩
    · rw [hun.free, ← hfree]
      exact h.backs.freeOk.1
    · rw [hun.free, ← hfree] at ht
      exact ht
  obtain ⟨hagree, hmoves⟩ := freeNode_inv haccounts
  refine h.kept ((hsame.trans hun.same).trans hmoves.same) ?_ (fun t ht hf => ?_) ?_ hnext ?_
  · have hperm := hmoves.perm
    rw [List.append_nil, hun.free, ← hfree] at hperm
    exact hperm
  · have hts : t ≠ slot := fun heq => hf (heq ▸ hmem)
    have ht₁ := hsame.isDataSlot.mpr ht
    rw [hagree t (hun.same.isDataSlot.mpr ht₁) hts, hun.nodes t ht₁, hothers t ht hts]
  · rw [hun.handles, hs₁]
  · rw [hun.inodes, hs₁]

end StandsFor

/-! ### What the driver had done -/

omit [NodeStore σ] [NodeView σ] [FiniteNodeStore σ] in
/-- No call on names changes the next handle. -/
theorem nextFh_invariant (n : Nat) : CallInvariant (σ := σ) fun s => s.nextFh = n where
  container hs _ := hs
  known hs _ := hs
  forgotten hs _ := hs
  updated hs _ _ := hs
  evicted hs _ := hs

theorem opLookup_error {parent : Nat} {name : String}
    (hrun : (opLookup parent name).run s = .error e s') : s' = s := by
  rcases run_bind_error.mp hrun with hslot | ⟨p, s₁, hslot, h₁⟩
  · exact slotOfIno_error hslot
  obtain ⟨-, rfl⟩ := slotOfIno_ok.mp hslot
  rcases run_bind_error.mp h₁ with hread | ⟨d, s₂, hread, h₂⟩
  · exact (readDirBlock_error hread).1
  obtain ⟨rfl, -⟩ := readDirBlock_ok hread
  split at h₂
  next =>
    cases h₂
    rfl
  next =>
    rcases run_bind_error.mp h₂ with hnode | ⟨n, s₃, hnode, h₃⟩
    · obtain ⟨c, hnode', rfl⟩ := liftStore_error.mp hnode
      obtain ⟨rfl, -⟩ := readNode_error hnode'
      rfl
    · rcases run_bind_error.mp h₃ with hino | ⟨ino, s₄, -, h₄⟩
      · cases hino
      · cases h₄

theorem attrOfIno_error {ord : IterOrder Nat} {ino : Nat}
    (hrun : (attrOfIno ord ino).run s = .error e s') : s' = s := by
  rcases run_bind_error.mp hrun with hslot | ⟨t, s₁, hslot, h₁⟩
  · exact slotOfIno_error hslot
  obtain ⟨-, rfl⟩ := slotOfIno_ok.mp hslot
  rcases run_bind_error.mp h₁ with hnode | ⟨n, s₂, hnode, h₂⟩
  · obtain ⟨c, hnode', rfl⟩ := liftStore_error.mp hnode
    obtain ⟨rfl, -⟩ := readNode_error hnode'
    rfl
  · cases h₂

theorem readdir_error {room : ReplyRoom} {ino offset : Nat}
    (hrun : (Fuse.readdir room ino offset).run s = .error e s') : s' = s := by
  rcases run_bind_error.mp hrun with hslot | ⟨t, s₁, hslot, h₁⟩
  · exact slotOfIno_error hslot
  obtain ⟨-, rfl⟩ := slotOfIno_ok.mp hslot
  rcases run_bind_error.mp h₁ with hread | ⟨d, s₂, hread, h₂⟩
  · exact (readDirBlock_error hread).1
  obtain ⟨rfl, -⟩ := readDirBlock_ok hread
  obtain ⟨children, hchildren, -⟩ := childEntries_run d.entries s₂
  rcases run_bind_error.mp h₂ with herror | ⟨_, s₄, -, h₃⟩
  · cases hchildren.symm.trans herror
  · cases h₃

omit [NodeView σ] [FiniteNodeStore σ] in
theorem opFlush_noHandle {ord : IterOrder Nat} {fh : Nat} (hf : s.openFiles.get fh = none) :
    (Fuse.opFlush ord fh).run s = .ok () s := by
  rw [Fuse.opFlush, run_bind_of_ok run_get, hf]
  rfl

omit [NodeView σ] [FiniteNodeStore σ] in
theorem opRead_noHandle {ord : IterOrder Nat} {fh offset size : Nat} (hf : s.openFiles.get fh = none) :
    (opRead ord fh offset size).run s = .error (.errno .enoent) s := by
  rw [opRead, run_bind_of_ok run_get, hf]
  rfl

omit [NodeView σ] [FiniteNodeStore σ] in
theorem opWrite_noHandle {ord : IterOrder Nat} {fh offset : Nat} {data : List UInt8}
    (hf : s.openFiles.get fh = none) (hrun : (opWrite ord fh offset data).run s = .error e s') :
    e = .errno .enoent ∧ s' = s := by
  rw [opWrite, run_bind_of_ok run_get, hf] at hrun
  dsimp only at hrun
  split at hrun
  next => cases hrun
  next =>
    cases hrun
    exact ⟨rfl, rfl⟩

/-- How `mkdir` and `create` fail: the directory is unknown, or the node is not written, or it is
    not linked. -/
inductive NotMade (s : VenomFuse σ) (parent : Nat) (n : VaultNode) (entry : Nat → DirEntry)
    (e : Failure) (s' : VenomFuse σ) : Prop
  | unknown (h : (slotOfIno parent).run s = .error e s')
  | notWritten (h : (liftStore (writeNode n)).run s = .error e s')
  | notLinked {p slot : Nat} {s₁ : VenomFuse σ} (hp : s.inodes.slotOf parent = some p)
      (hwrite : (liftStore (writeNode n)).run s = .ok slot s₁)
      (hlink : (linkOrFree p slot (entry slot)).run s₁ = .error e s')

omit [NodeView σ] [FiniteNodeStore σ] in
theorem opMkdir_error {parent : Nat} {name : String} (hrun : (opMkdir parent name).run s = .error e s') :
    NotMade s parent emptyDir (fun slot => { name, slot, kind := .directory }) e s' := by
  rcases run_bind_error.mp hrun with hslot | ⟨p, s₁, hslot, h₁⟩
  · exact .unknown hslot
  obtain ⟨hp, rfl⟩ := slotOfIno_ok.mp hslot
  rcases run_bind_error.mp h₁ with hwrite | ⟨slot, s₂, hwrite, h₂⟩
  · exact .notWritten hwrite
  rcases run_bind_error.mp h₂ with hlink | ⟨_, s₃, -, h₃⟩
  · exact .notLinked hp hwrite hlink
  -- once the directory is linked nothing fails
  rcases run_bind_error.mp h₃ with hino | ⟨ino, s₄, -, h₄⟩
  · cases hino
  · cases h₄

omit [NodeView σ] [FiniteNodeStore σ] in
theorem opCreate_error {parent : Nat} {name : String}
    (hrun : (opCreate parent name).run s = .error e s') :
    NotMade s parent (headNode 0 [] none []) (fun slot => { name, slot, kind := .file }) e s' := by
  rcases run_bind_error.mp hrun with hslot | ⟨p, s₁, hslot, h₁⟩
  · exact .unknown hslot
  obtain ⟨hp, rfl⟩ := slotOfIno_ok.mp hslot
  rcases run_bind_error.mp h₁ with hwrite | ⟨slot, s₂, hwrite, h₂⟩
  · exact .notWritten hwrite
  rcases run_bind_error.mp h₂ with hlink | ⟨_, s₃, -, h₃⟩
  · exact .notLinked hp hwrite hlink
  rcases run_bind_error.mp h₃ with hino | ⟨ino, s₄, -, h₄⟩
  · cases hino
  · cases h₄

/-- How `rmdir` fails: the directory is unknown or none, the entry is not there, not a directory or
    not an empty one, or it is not taken out. -/
inductive NotRemoved (s : VenomFuse σ) (parent : Nat) (name : String) (e : Failure)
    (s' : VenomFuse σ) : Prop
  | unknown (h : (slotOfIno parent).run s = .error e s')
  | unread {p : Nat} (hp : s.inodes.slotOf parent = some p) (h : (readDirBlock p).run s = .error e s')
  | noEntry {p : Nat} {d : DirectoryBlock} (hp : s.inodes.slotOf parent = some p)
      (hd : (readDirBlock p).run s = .ok d s) (hnone : entryOf d name = none)
      (he : e = .errno .enoent) (hs : s' = s)
  | unreadTarget {p : Nat} {d : DirectoryBlock} {en : DirEntry} (hp : s.inodes.slotOf parent = some p)
      (hd : (readDirBlock p).run s = .ok d s) (hen : entryOf d name = some en)
      (h : (readDirBlock en.slot).run s = .error e s')
  | notEmpty {p : Nat} {d target : DirectoryBlock} {en : DirEntry}
      (hp : s.inodes.slotOf parent = some p) (hd : (readDirBlock p).run s = .ok d s)
      (hen : entryOf d name = some en) (htarget : (readDirBlock en.slot).run s = .ok target s)
      (hentries : target.entries ≠ []) (he : e = .errno .enotempty) (hs : s' = s)
  | notTaken {p : Nat} (hp : s.inodes.slotOf parent = some p)
      (h : (dirRemoveEntry p name).run s = .error e s')

theorem opRmdir_error {parent : Nat} {name : String} (hrun : (opRmdir parent name).run s = .error e s') :
    NotRemoved s parent name e s' := by
  rcases run_bind_error.mp hrun with hslot | ⟨p, s₁, hslot, h₁⟩
  · exact .unknown hslot
  obtain ⟨hp, rfl⟩ := slotOfIno_ok.mp hslot
  rcases run_bind_error.mp h₁ with hread | ⟨d, s₂, hread, h₂⟩
  · exact .unread hp hread
  obtain ⟨rfl, -⟩ := readDirBlock_ok hread
  split at h₂
  next hnone =>
    cases h₂
    exact .noEntry hp hread hnone rfl rfl
  next en hen =>
    rcases run_bind_error.mp h₂ with htarget | ⟨target, s₃, htarget, h₃⟩
    · exact .unreadTarget hp hread hen htarget
    obtain ⟨rfl, -⟩ := readDirBlock_ok htarget
    split at h₃
    next hentries =>
      cases h₃
      exact .notEmpty hp hread hen htarget hentries rfl rfl
    next =>
      rcases run_bind_error.mp h₃ with hremove | ⟨removed, s₄, -, h₄⟩
      · exact .notTaken hp hremove
      -- once the entry is out nothing fails
      rcases run_bind_error.mp h₄ with hfree | ⟨_, s₅, -, h₅⟩
      · cases hfree
      · cases h₅

/-- A name in a request is not UTF-8, and that is an error. -/
inductive Request.NotUtf8 : Request → Errno → Prop
  | lookup {parent : Nat} : NotUtf8 (.lookup parent none) .enoent
  | mkdir {parent : Nat} : NotUtf8 (.mkdir parent none) .einval
  | rmdir {parent : Nat} : NotUtf8 (.rmdir parent none) .einval
  | create {parent : Nat} : NotUtf8 (.create parent none) .einval
  | unlink {parent : Nat} : NotUtf8 (.unlink parent none) .einval
  | rename {parent newparent : Nat} {newname : Option String} :
      NotUtf8 (.rename parent none newparent newname) .einval
  | renameTo {parent newparent : Nat} {name : String} :
      NotUtf8 (.rename parent (some name) newparent none) .einval

/-- How a request fails: a name in it is not UTF-8, or the call that it makes fails. -/
inductive CallFailed (ords : Orders) (s : VenomFuse σ) (e : Failure) (s' : VenomFuse σ) :
    Request → Prop
  | notUtf8 {req : Request} {code : Errno} (hname : req.NotUtf8 code) (he : e = .errno code)
      (hs : s' = s) : CallFailed ords s e s' req
  | lookup {parent : Nat} {name : String} (h : (opLookup parent name).run s = .error e s') :
      CallFailed ords s e s' (.lookup parent (some name))
  | getattr {ino : Nat} (h : (attrOfIno ords.handles ino).run s = .error e s') :
      CallFailed ords s e s' (.getattr ino)
  | setattr {ino : Nat} {size hint : Option Nat}
      (h : (Filesystem.setattr ords.handles ino size hint).run s = .error e s') :
      CallFailed ords s e s' (.setattr ino size hint)
  | readdir {room : ReplyRoom} {ino offset : Nat}
      (h : (Fuse.readdir room ino offset).run s = .error e s') :
      CallFailed ords s e s' (.readdir room ino offset)
  | mkdir {parent : Nat} {name : String} (h : (opMkdir parent name).run s = .error e s') :
      CallFailed ords s e s' (.mkdir parent (some name))
  | rmdir {parent : Nat} {name : String} (h : (opRmdir parent name).run s = .error e s') :
      CallFailed ords s e s' (.rmdir parent (some name))
  | create {parent : Nat} {name : String} (h : (opCreate parent name).run s = .error e s') :
      CallFailed ords s e s' (.create parent (some name))
  | unlink {parent : Nat} {name : String} (h : (opUnlink parent name).run s = .error e s') :
      CallFailed ords s e s' (.unlink parent (some name))
  | rename {parent newparent : Nat} {name newname : String}
      (h : (opRename parent name newparent newname).run s = .error e s') :
      CallFailed ords s e s' (.rename parent (some name) newparent (some newname))
  | openFile {ino : Nat} (h : (opOpen ino).run s = .error e s') :
      CallFailed ords s e s' (.openFile ino)
  | release {fh : Nat} (h : (opRelease ords.chunks fh).run s = .error e s') :
      CallFailed ords s e s' (.release fh)
  | flush {fh : Nat} (h : (opFlush ords.chunks fh).run s = .error e s') :
      CallFailed ords s e s' (.flush fh)
  | fsync {fh : Nat} (h : (opFlush ords.chunks fh).run s = .error e s') :
      CallFailed ords s e s' (.fsync fh)
  | read {fh offset size : Nat} (h : (opRead ords.chunks fh offset size).run s = .error e s') :
      CallFailed ords s e s' (.read fh offset size)
  | write {fh offset : Nat} {data : List UInt8}
      (h : (opWrite ords.chunks fh offset data).run s = .error e s') :
      CallFailed ords s e s' (.write fh offset data)

omit [NodeView σ] [FiniteNodeStore σ] in
/-- The reply to a call is given without failing. -/
theorem serve_error (hrun : (req.serve ords).run s = .error e s') : CallFailed ords s e s' req := by
  cases req with
  | lookup parent fname =>
    obtain ⟨rfl, he, hs⟩ | ⟨name, rfl, hcont⟩ := toStr_error hrun
    · exact .notUtf8 .lookup he hs
    rcases run_bind_error.mp hcont with hlookup | ⟨r, s₂, -, hrest⟩
    · exact .lookup hlookup
    · rcases run_bind_error.mp hrest with hget | ⟨_, _, hget, hret⟩
      · cases hget
      · cases hget
        split at hret <;> cases hret
  | getattr ino => exact .getattr hrun
  | setattr ino size hint => exact .setattr hrun
  | readdir room ino offset =>
    rcases run_bind_error.mp hrun with hreaddir | ⟨r, s₁, -, hret⟩
    · exact .readdir hreaddir
    · cases hret
  | mkdir parent fname =>
    obtain ⟨rfl, he, hs⟩ | ⟨name, rfl, hcont⟩ := toStr_error hrun
    · exact .notUtf8 .mkdir he hs
    rcases run_bind_error.mp hcont with hmkdir | ⟨r, s₁, -, hret⟩
    · exact .mkdir hmkdir
    · cases hret
  | rmdir parent fname =>
    obtain ⟨rfl, he, hs⟩ | ⟨name, rfl, hcont⟩ := toStr_error hrun
    · exact .notUtf8 .rmdir he hs
    rcases run_bind_error.mp hcont with hrmdir | ⟨r, s₁, -, hret⟩
    · exact .rmdir hrmdir
    · cases hret
  | create parent fname =>
    obtain ⟨rfl, he, hs⟩ | ⟨name, rfl, hcont⟩ := toStr_error hrun
    · exact .notUtf8 .create he hs
    rcases run_bind_error.mp hcont with hcreate | ⟨r, s₁, -, hret⟩
    · exact .create hcreate
    · cases hret
  | unlink parent fname =>
    obtain ⟨rfl, he, hs⟩ | ⟨name, rfl, hcont⟩ := toStr_error hrun
    · exact .notUtf8 .unlink he hs
    rcases run_bind_error.mp hcont with hunlink | ⟨r, s₁, -, hret⟩
    · exact .unlink hunlink
    · cases hret
  | rename parent fname newparent fnewname =>
    obtain ⟨rfl, he, hs⟩ | ⟨name, rfl, hcont⟩ := toStr_error hrun
    · exact .notUtf8 .rename he hs
    obtain ⟨rfl, he, hs⟩ | ⟨newname, rfl, hcont'⟩ := toStr_error hcont
    · exact .notUtf8 .renameTo he hs
    rcases run_bind_error.mp hcont' with hrename | ⟨r, s₁, -, hret⟩
    · exact .rename hrename
    · cases hret
  | openFile ino =>
    rcases run_bind_error.mp hrun with hopen | ⟨fh, s₁, -, hret⟩
    · exact .openFile hopen
    · cases hret
  | release fh =>
    -- any other error of a release is dropped
    change Filesystem.release ords.chunks fh s = _ at hrun
    unfold Filesystem.release at hrun
    split at hrun
    next => cases hrun
    next hrelease => cases hrun; exact .release hrelease
    next => cases hrun
  | flush fh =>
    rcases run_bind_error.mp hrun with hflush | ⟨r, s₁, -, hret⟩
    · exact .flush hflush
    · cases hret
  | fsync fh =>
    rcases run_bind_error.mp hrun with hflush | ⟨r, s₁, -, hret⟩
    · exact .fsync hflush
    · cases hret
  | read fh offset size =>
    rcases run_bind_error.mp hrun with hread | ⟨r, s₁, -, hret⟩
    · exact .read hread
    · cases hret
  | write fh offset data =>
    rcases run_bind_error.mp hrun with hwrite | ⟨n, s₁, -, hret⟩
    · exact .write hwrite
    · cases hret

namespace StandsFor

/-- A node that is not made leaves no trace. -/
theorem notMade (h : StandsFor root s A bytes own) {parent : Nat} {n : VaultNode}
    {entry : Nat → DirEntry} (hfits : Fits (NodeStore.cipher s.container) n)
    (hfail : NotMade s parent n entry e s') : StandsFor root s' A bytes own := by
  cases hfail with
  | unknown hslot => rwa [slotOfIno_error hslot]
  | notWritten hwrite =>
    obtain ⟨c, -, hs'⟩ := liftStore_error.mp hwrite
    exact h.unchanged (writeNode_unchanged hfits hwrite) (by rw [hs'])
  | @notLinked p slot s₁ hp hwrite hlink =>
    obtain ⟨c, -, hs₁⟩ := liftStore_ok.mp hwrite
    have hnext := ((nextFh_invariant s₁.nextFh).linkOrFree p slot _).error rfl hlink
    exact h.notLinked hwrite hlink (by rw [hnext, hs₁])

theorem rmdir_error (h : StandsFor root s A bytes own) {parent : Nat} {name : String}
    (hrun : (opRmdir parent name).run s = .error e s') : StandsFor root s' A bytes own := by
  have hnext : s'.nextFh = s.nextFh := ((nextFh_invariant s.nextFh).opRmdir parent name).error rfl hrun
  cases opRmdir_error hrun with
  | unknown hslot => rwa [slotOfIno_error hslot]
  | unread _ hread => rwa [(readDirBlock_error hread).1]
  | noEntry _ _ _ _ hs => rwa [hs]
  | unreadTarget _ _ _ hread => rwa [(readDirBlock_error hread).1]
  | notEmpty _ _ _ _ _ _ hs => rwa [hs]
  | notTaken _ hremove => exact h.unchanged (dirRemoveEntry_error hremove) hnext

theorem unlink_error (h : StandsFor root s A bytes own) {parent : Nat} {name : String}
    (hfile : ∀ p t, s.inodes.slotOf parent = some p → child (nodes s.container) p name = some t →
      ∃ fb, nodes s.container t = some (.file fb))
    (hrun : (opUnlink parent name).run s = .error e s') : StandsFor root s' A bytes own := by
  have hnext : s'.nextFh = s.nextFh := ((nextFh_invariant s.nextFh).opUnlink parent name).error rfl hrun
  obtain ⟨_, _, _, _, _, -, -, -, hok, -⟩ | ⟨e', u', herror, hun, -⟩ := opUnlink_cases h.backs hfile
  · cases hrun.symm.trans hok
  · cases hrun.symm.trans herror
    exact h.unchanged hun hnext

/-- A file nobody has open can be opened, and nothing else can be. -/
theorem openFile_error (h : StandsFor root s A bytes own) {ino : Nat}
    (hno : ∀ t, s.inodes.slotOf ino = some t → ∀ k g, s.openFiles.get k = some g → g.headSlot ≠ t)
    (hrun : (opOpen ino).run s = .error e s') : s' = s ∧ ((slotOfIno ino).run s = .error e s' ∨
      e = .errno .eisdir ∧ ∃ t d, s.inodes.slotOf ino = some t ∧
        nodes s.container t = some (.directory d)) := by
  rcases run_bind_error.mp hrun with hslot | ⟨t, s₁, hslot, h₁⟩
  · exact ⟨slotOfIno_error hslot, .inl hslot⟩
  obtain ⟨hino, rfl⟩ := slotOfIno_ok.mp hslot
  have hin := h.backs.known ino t hino
  obtain ⟨d, hd⟩ | ⟨fb, hfb⟩ := h.backs.tree.node t hin
  · -- the head is a directory, and no slot map is built
    have hread : (readNode t).run s₁.container = .ok (.directory d) s₁.container :=
      readNode_run (h.backs.tree.dataSlot t hin) hd
    have hbuild : (buildSlotMap t).run s₁.container = .error (.errno .eisdir) s₁.container := by
      unfold buildSlotMap
      rw [run_bind_of_ok hread]
      rfl
    rcases run_bind_error.mp h₁ with hlift | ⟨r, s₂, hlift, -⟩
    · obtain ⟨c, hc, rfl⟩ := liftStore_error.mp hlift
      cases hbuild.symm.trans hc
      exact ⟨rfl, .inr ⟨rfl, t, d, hino, hd⟩⟩
    · obtain ⟨c, hc, -⟩ := liftStore_ok.mp hlift
      cases hbuild.symm.trans hc
  · obtain ⟨ids, chain, hcarries⟩ := h.backs.closedFile hin hfb (hno t hino)
    obtain ⟨fh, n, hok⟩ := opOpen_run (⟨hino, hcarries.ok.withIno ino⟩ : Closed _ s₁ ino t fb ids chain)
    cases hrun.symm.trans hok

/-- A read fails for want of a handle only. -/
theorem read_error (h : StandsFor root s A bytes own) {ord : IterOrder Nat} {fh offset size : Nat}
    (hrun : (opRead ord fh offset size).run s = .error e s') : s' = s := by
  cases hf : s.openFiles.get fh with
  | some f =>
    obtain ⟨r, s₁, hok⟩ := h.backs.read_run hf offset size
    cases hrun.symm.trans hok
  | none =>
    cases (opRead_noHandle hf).symm.trans hrun
    rfl

/-- A rename fails while it takes the entry out, when nothing fails after that. -/
theorem opRename_error (h : StandsFor root s A bytes own) {parent newparent : Nat} {name newname : String}
    (hcompletes : Completes s parent name newparent newname)
    (hrun : (opRename parent name newparent newname).run s = .error e s') :
    (slotOfIno parent).run s = .error e s' ∨ (slotOfIno newparent).run s = .error e s' ∨
      ∃ p, s.inodes.slotOf parent = some p ∧ (dirRemoveEntry p name).run s = .error e s' := by
  have htree := h.backs.tree
  rw [opRename_eq] at hrun
  rcases run_bind_error.mp hrun with hslot | ⟨p, s₁, hslot, h₁⟩
  · exact .inl hslot
  obtain ⟨hp, rfl⟩ := slotOfIno_ok.mp hslot
  rcases run_bind_error.mp h₁ with hslot' | ⟨np, s₂, hslot', h₂⟩
  · exact .inr (.inl hslot')
  obtain ⟨hnp, rfl⟩ := slotOfIno_ok.mp hslot'
  have hpin := h.backs.known parent p hp
  have hnpin := h.backs.known newparent np hnp
  rcases run_bind_error.mp h₂ with hremove | ⟨_, s₃, hremove, hlink⟩
  · exact .inr (.inr ⟨p, hp, hremove⟩)
  -- the entry is out: the node, the directory and the room for it are there
  obtain ⟨d, en, hrem, rfl⟩ := dirRemoveEntry_ok (htree.dataSlot p hpin) hremove
  obtain ⟨node, dest, hnode, hdest, hfits⟩ :=
    hcompletes p np d en hp hnp hrem.dir hrem.entry hrem.fits
  have hin : InTree s₂.container root en.slot := hpin.entry hrem.dir hrem.entry
  have hnode₃ : ∃ node', nodes s₃.container en.slot = some node' ∧ kindOf node' = kindOf node := by
    by_cases heq : en.slot = p
    · rw [heq, hrem.dir] at hnode
      cases hnode
      exact ⟨.directory (without d name), by rw [heq, hrem.node], rfl⟩
    · exact ⟨node, by rw [hrem.others _ (htree.dataSlot _ hin) heq, hnode], rfl⟩
  obtain ⟨node', hnode', hkind⟩ := hnode₃
  have hdest₃ : nodes s₃.container np =
      some (.directory (if np = p then without d name else dest)) := by
    split
    next heq => rw [heq]; exact hrem.node
    next hne => rw [hrem.others np (htree.dataSlot np hnpin) hne, hdest]
  have hold : ∀ o ∈ entryOf (if np = p then without d name else dest) newname,
      IsDataSlot s₃.container o.slot := by
    intro o ho
    have hmem := (entryOf_mem ho).1
    apply hrem.same.isDataSlot.mpr
    split at hmem
    · exact htree.entrySlot hpin hrem.dir o (List.mem_of_mem_eraseP hmem)
    · exact htree.entrySlot hnpin hdest o hmem
  rw [← linked_congr hkind, ← hrem.same.cipher] at hfits
  obtain ⟨c, -, hlinked⟩ := linkMoved_run (hrem.same.isDataSlot.mpr (htree.dataSlot _ hin))
    (hrem.same.isDataSlot.mpr (htree.dataSlot _ hnpin)) hold hnode' hdest₃ hfits
  cases hlinked.symm.trans hlink

theorem rename_error (h : StandsFor root s A bytes own) {parent newparent : Nat} {name newname : String}
    (hcompletes : Completes s parent name newparent newname)
    (hrun : (opRename parent name newparent newname).run s = .error e s') :
    StandsFor root s' A bytes own := by
  have hnext : s'.nextFh = s.nextFh :=
    ((nextFh_invariant s.nextFh).opRename parent name newparent newname).error rfl hrun
  obtain hslot | hslot | ⟨p, -, hremove⟩ := h.opRename_error hcompletes hrun
  · rwa [slotOfIno_error hslot]
  · rwa [slotOfIno_error hslot]
  · exact h.unchanged (dirRemoveEntry_error hremove) hnext

/-- A known inode has attributes. -/
theorem attrOfIno_run (h : StandsFor root s A bytes own) {ord : IterOrder Nat} {ino t : Nat}
    (hino : s.inodes.slotOf ino = some t) : ∃ reply, (Fuse.attrOfIno ord ino).run s = .ok reply s := by
  have hin := h.backs.known ino t hino
  obtain ⟨n, hn⟩ : ∃ n, nodes s.container t = some n := by
    obtain ⟨d, hd⟩ | ⟨fb, hfb⟩ := h.backs.tree.node t hin
    · exact ⟨_, hd⟩
    · exact ⟨_, hfb⟩
  have hread : (liftStore (readNode t)).run s = .ok n s :=
    liftStore_ok.mpr ⟨_, readNode_run (h.backs.tree.dataSlot t hin) hn, rfl⟩
  exact ⟨_, run_bind_ok.mpr ⟨_, _, slotOfIno_ok.mpr ⟨hino, rfl⟩, run_bind_ok.mpr ⟨_, _, hread, rfl⟩⟩⟩

/-- A size is changed through a handle, and that does not fail. -/
theorem resize_run (h : StandsFor root s A bytes own) {ord : IterOrder Nat} {fh newSize ino : Nat}
    {hint : Option Nat} {f : OpenFile} (hfind : findHandle ord ino hint s.openFiles = some fh)
    (hf : s.openFiles.get fh = some f) (hfino : f.ino = ino) (hcut : newSize ≤ f.totalSize) :
    ∃ reply t, (Filesystem.setattr ord ino (some newSize) hint).run s = .ok reply t := by
  have hresize : (opSetattrSize ord ino hint newSize).run s =
      .ok () { s with openFiles := s.openFiles.insert fh (resizeFile newSize f) } := by
    rw [opSetattrSize_handle hf hfind]
    exact withHandle_ok.mpr ⟨_, modifyFile_ok.mpr rfl, rfl⟩
  have hrunOp : (Fuse.runOp ord f.ino fh (.truncate newSize)).run s =
      .ok fh { s with openFiles := s.openFiles.insert fh (resizeFile newSize f) } := by
    refine run_bind_ok.mpr ⟨(), _, ?_, rfl⟩
    rw [opSetattrSize_run hf]
    exact withHandle_ok.mpr ⟨_, modifyFile_ok.mpr rfl, rfl⟩
  obtain ⟨-, -, hslot⟩ := h.backs.handles fh f hf
  obtain ⟨_, _, _, hcarries⟩ := h.backs.openFile hf
  obtain ⟨q, -, -, -, bytes', own', -, hs'⟩ :=
    h.runOp (.truncate newSize) hf (fun heq => by cases heq) (hcarries.size ▸ hcut) hrunOp
  obtain ⟨reply, hattr⟩ : ∃ reply, (Fuse.attrOfIno ord ino).run _ = .ok reply _ :=
    hs'.attrOfIno_run (hfino ▸ hslot)
  exact ⟨reply, _, run_bind_ok.mpr ⟨(), _, hresize, hattr⟩⟩

/-- A write fails without a handle before it has begun, and with one when it is done. -/
theorem write_error (h : StandsFor root s A bytes own) {ord : IterOrder Nat} {fh offset : Nat}
    {data : List UInt8} (hgap : ∀ size, totalSizeOf s fh = some size → offset ≤ size)
    (hrun : (opWrite ord fh offset data).run s = .error e s') :
    ∃ A' bytes' own', A.Fail (.write fh offset data) A' ∧ StandsFor root s' A' bytes' own' := by
  cases hf : s.openFiles.get fh with
  | none =>
    obtain ⟨-, rfl⟩ := opWrite_noHandle hf hrun
    refine ⟨A, bytes, own, .refused fun k o d heq => ?_, h⟩
    cases heq
    exact h.handle_none hf
  | some f =>
    obtain ⟨q, hq, htree, -, bytes', own', -, hs'⟩ :=
      h.handleStep hf (h.backs.write_failed hf (hgap _ (h.size_of_handle hf)) hrun)
    exact ⟨_, bytes', own', .written hq htree, hs'⟩

/-- A flush that is short of slots fails without a trace. -/
theorem flush_error (h : StandsFor root s A bytes own) {ord : IterOrder Nat} {fh : Nat}
    (hshort : ∀ f, s.openFiles.get fh = some f →
      (free s.container).length < (newChunks f (toStore ord f)).length)
    (hrun : (Fuse.opFlush ord fh).run s = .error e s') : ∃ bytes' own', StandsFor root s' A bytes' own' := by
  cases hf : s.openFiles.get fh with
  | none => cases (opFlush_noHandle hf).symm.trans hrun
  | some f =>
    obtain ⟨q, -, -, hwalk, bytes', own', -, hs'⟩ :=
      h.handleStep hf (h.backs.flush_short hf (hshort f hf) hrun)
    obtain ⟨-, ⟨fb, hfb⟩, -⟩ := h.backs.handles fh f hf
    rw [h.put_same hwalk hfb] at hs'
    exact ⟨bytes', own', hs'⟩

/-- The driver stands for what the failure has made of the file system. -/
theorem failed (h : StandsFor root s A bytes own) (hallowed : req.Allowed ords s)
    (hcontained : req.Contained ords s) (hrun : (req.serve ords).run s = .error e s') :
    ∃ A' bytes' own', A.Fail req A' ∧ StandsFor root s' A' bytes' own' := by
  -- but for writes, it is as it was
  suffices hkept : (∀ fh offset data, req ≠ .write fh offset data) →
      ∃ bytes' own', StandsFor root s' A bytes' own' by
    by_cases hwrite : ∃ fh offset data, req = .write fh offset data
    · obtain ⟨fh, offset, data, rfl⟩ := hwrite
      cases serve_error hrun with
      | notUtf8 hname => cases hname
      | write hfail => exact h.write_error hallowed hfail
    · have hne : ∀ fh offset data, req ≠ .write fh offset data := fun fh offset data heq =>
        hwrite ⟨fh, offset, data, heq⟩
      obtain ⟨bytes', own', hs'⟩ := hkept hne
      exact ⟨A, bytes', own', .refused fun fh offset data heq => absurd heq (hne fh offset data), hs'⟩
  intro hne
  cases serve_error hrun with
  | notUtf8 _ _ hs => exact hs ▸ ⟨bytes, own, h⟩
  | lookup hlookup => exact opLookup_error hlookup ▸ ⟨bytes, own, h⟩
  | getattr hattr => exact attrOfIno_error hattr ▸ ⟨bytes, own, h⟩
  | @setattr ino size hint hset =>
    cases size with
    | none => exact attrOfIno_error hset ▸ ⟨bytes, own, h⟩
    | some newSize =>
      obtain ⟨fh, f, hfind, hf, hino, hcut⟩ := hallowed
      obtain ⟨reply, t, hok⟩ := h.resize_run hfind hf hino hcut
      cases hok.symm.trans hset
  | readdir hreaddir => exact readdir_error hreaddir ▸ ⟨bytes, own, h⟩
  | mkdir hmkdir => exact ⟨bytes, own, h.notMade (emptyDir_fits _) (opMkdir_error hmkdir)⟩
  | rmdir hrmdir => exact ⟨bytes, own, h.rmdir_error hrmdir⟩
  | create hcreate => exact ⟨bytes, own, h.notMade (emptyHead_fits _) (opCreate_error hcreate)⟩
  | unlink hunlink => exact ⟨bytes, own, h.unlink_error (hallowed _ · · rfl) hunlink⟩
  | rename hrename => exact ⟨bytes, own, h.rename_error (hcontained _ _ rfl rfl) hrename⟩
  | openFile hopen => exact (h.openFile_error hallowed.2 hopen).1 ▸ ⟨bytes, own, h⟩
  | release hrelease =>
    -- a release that finds the room does not fail
    obtain ⟨t, hok⟩ := hallowed
    cases hok.symm.trans hrelease
  | flush hflush => exact h.flush_error hcontained hflush
  | fsync hflush => exact h.flush_error hcontained hflush
  | read hread => exact h.read_error hread ▸ ⟨bytes, own, h⟩
  | write hwrite => exact absurd rfl (hne _ _ _)

end StandsFor

end Venom.Fuse
