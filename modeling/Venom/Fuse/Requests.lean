import Venom.Fuse.Readdir

/-! # Requests

The calls of the kernel, as the driver answers them on top of its `op_*` methods.  A name
comes as bytes and is refused when they are no UTF-8, here `none`.  Attributes come from the
node on the disk, but the size of an open file comes from its handle.
-/

namespace Venom.Fuse

open Venom.Storage
open Venom.Library
open Venom.Library.StateError

/-! ## Attributes -/

structure FileAttr where
  ino : Nat
  size : Nat
  blocks : Nat
  kind : FileType
  perm : Nat
  nlink : Nat
  blksize : Nat
  deriving DecidableEq

/-- Blocks of 512 bytes.  The sum wraps at 2^64. -/
def blocksOf (size : Nat) : Nat := (size + 511) % 2 ^ 64 / 512

def makeDirAttr (ino : Nat) : FileAttr :=
  { ino, size := 0, blocks := 0, kind := .directory, perm := 0o755, nlink := 2, blksize := 512 }

def makeFileAttr (ino size : Nat) : FileAttr :=
  { ino, size, blocks := blocksOf size, kind := .regularFile, perm := 0o644, nlink := 1,
    blksize := 4096 }

def makeAttr (ino : Nat) : VaultNode → FileAttr
  | .directory _ => makeDirAttr ino
  | .file f => makeFileAttr ino f.totalSize
  | _ => makeFileAttr ino 0

/-- The size in a handle on the inode: that of the first one a traversal meets. -/
def cachedSizeForIno (ord : IterOrder Nat) (ino : Nat) (openFiles : HashMap Nat OpenFile) :
    Option Nat :=
  ((ord.order openFiles.keys).find? fun fh => ((openFiles.get fh).map (·.ino)) = some ino).bind
    fun fh => (openFiles.get fh).map (·.totalSize)

theorem cachedSizeForIno_some {ord : IterOrder Nat} {ino sz : Nat} {openFiles : HashMap Nat OpenFile}
    (h : cachedSizeForIno ord ino openFiles = some sz) :
    ∃ fh f, openFiles.get fh = some f ∧ f.ino = ino ∧ f.totalSize = sz := by
  obtain ⟨fh, hfind, hget⟩ := Option.bind_eq_some_iff.mp h
  obtain ⟨f, hf, hsz⟩ := Option.map_eq_some_iff.mp hget
  have hino := List.find?_some hfind
  simp only [hf, Option.map_some, Option.some.injEq, decide_eq_true_eq] at hino
  exact ⟨fh, f, hf, hino, hsz⟩

/-- With a handle on the inode there is a size in one. -/
theorem cachedSizeForIno_isSome (ord : IterOrder Nat) {fh : Nat} {f : OpenFile}
    {openFiles : HashMap Nat OpenFile} (hf : openFiles.get fh = some f) :
    ∃ sz, cachedSizeForIno ord f.ino openFiles = some sz := by
  have hkey : fh ∈ ord.order openFiles.keys := by
    rw [IterOrder.mem_order, HashMap.mem_keys, hf]
    rfl
  have hsome : ((ord.order openFiles.keys).find?
      fun fh => decide ((openFiles.get fh).map (·.ino) = some f.ino)).isSome := by
    rw [List.find?_isSome]
    exact ⟨fh, hkey, by simp [hf]⟩
  obtain ⟨fh', hfind⟩ := Option.isSome_iff_exists.mp hsome
  have hino := List.find?_some hfind
  rw [decide_eq_true_eq] at hino
  obtain ⟨g, hg, -⟩ := Option.map_eq_some_iff.mp hino
  refine ⟨g.totalSize, ?_⟩
  rw [cachedSizeForIno, hfind, Option.bind_some, hg, Option.map_some]

/-- The attributes with the size of an open file. -/
def withCachedSize (ord : IterOrder Nat) (openFiles : HashMap Nat OpenFile) (attr : FileAttr) :
    FileAttr :=
  match cachedSizeForIno ord attr.ino openFiles with
  | some sz => { attr with size := sz, blocks := blocksOf sz }
  | none => attr

/-! ## Requests and replies -/

/-- The traversal orders a request meets: of the open files, and of a handle's chunks. -/
structure Orders where
  handles : IterOrder Nat
  chunks : IterOrder Nat

inductive Request
  | lookup (parent : Nat) (name : Option String)
  | getattr (ino : Nat)
  | setattr (ino : Nat) (size fh : Option Nat)
  | readdir (room : ReplyRoom) (ino offset : Nat)
  | mkdir (parent : Nat) (name : Option String)
  | rmdir (parent : Nat) (name : Option String)
  | create (parent : Nat) (name : Option String)
  | unlink (parent : Nat) (name : Option String)
  | rename (parent : Nat) (name : Option String) (newparent : Nat) (newname : Option String)
  | openFile (ino : Nat)
  | release (fh : Nat)
  | flush (fh : Nat)
  | fsync (fh : Nat)
  | read (fh offset size : Nat)
  | write (fh offset : Nat) (data : List UInt8)

inductive Reply
  | ok
  | entry (attr : FileAttr)
  | attr (attr : FileAttr)
  | created (attr : FileAttr) (fh : Nat)
  | opened (fh : Nat)
  | data (bytes : List UInt8)
  | written (n : Nat)
  | listing (entries : List DirReply)
  deriving DecidableEq

section Model

variable {σ : Type} [NodeStore σ]

/-- `OsStr::to_str`, or the given error. -/
def toStr (e : Errno) : Option String → FuseM σ String
  | some name => pure name
  | none => throw (.errno e)

omit [NodeStore σ] in
/-- A request on a name is served for names that are UTF-8. -/
theorem toStr_ok {e : Errno} {fname : Option String} {x : String → FuseM σ Reply}
    {s s' : VenomFuse σ} {reply : Reply}
    (h : (toStr e fname >>= x).run s = .ok reply s') :
    ∃ name, fname = some name ∧ (x name).run s = .ok reply s' := by
  cases fname with
  | none => cases h
  | some name => exact ⟨name, rfl, h⟩

omit [NodeStore σ] in
theorem toStr_error {err : Errno} {fname : Option String} {x : String → FuseM σ Reply}
    {s s' : VenomFuse σ} {e : Failure} (h : (toStr err fname >>= x).run s = .error e s') :
    (fname = none ∧ e = .errno err ∧ s' = s) ∨
      ∃ name, fname = some name ∧ (x name).run s = .error e s' := by
  cases fname with
  | none =>
    cases h
    exact .inl ⟨rfl, rfl, rfl⟩
  | some name => exact .inr ⟨name, rfl, h⟩

/-- What `getattr` and `setattr` end with. -/
def attrOfIno (ord : IterOrder Nat) (ino : Nat) : FuseM σ Reply := do
  let slot ← slotOfIno ino
  let node ← liftStore (readNode slot)
  let s ← get
  pure (.attr (withCachedSize ord s.openFiles (makeAttr ino node)))

namespace Filesystem

def lookup (ord : IterOrder Nat) (parent : Nat) (name : Option String) : FuseM σ Reply := do
  let name ← toStr .enoent name
  let (ino, node) ← opLookup parent name
  let s ← get
  match node with
  | .file _ => pure (.entry (withCachedSize ord s.openFiles (makeAttr ino node)))
  | _ => pure (.entry (makeAttr ino node))

def getattr (ord : IterOrder Nat) (ino : Nat) : FuseM σ Reply := attrOfIno ord ino

/-- A change of anything but the size is ignored. -/
def setattr (ord : IterOrder Nat) (ino : Nat) (size fh : Option Nat) : FuseM σ Reply := do
  match size with
  | some newSize => opSetattrSize ord ino fh newSize
  | none => pure ()
  attrOfIno ord ino

def mkdir (parent : Nat) (name : Option String) : FuseM σ Reply := do
  let name ← toStr .einval name
  let (ino, node) ← opMkdir parent name
  pure (.entry (makeAttr ino node))

def rmdir (parent : Nat) (name : Option String) : FuseM σ Reply := do
  let name ← toStr .einval name
  opRmdir parent name
  pure .ok

def create (parent : Nat) (name : Option String) : FuseM σ Reply := do
  let name ← toStr .einval name
  let (ino, fh) ← opCreate parent name
  pure (.created (makeFileAttr ino 0) fh)

def unlink (parent : Nat) (name : Option String) : FuseM σ Reply := do
  let name ← toStr .einval name
  opUnlink parent name
  pure .ok

def rename (parent : Nat) (name : Option String) (newparent : Nat) (newname : Option String) :
    FuseM σ Reply := do
  let name ← toStr .einval name
  let newname ← toStr .einval newname
  opRename parent name newparent newname
  pure .ok

/-- The error of a release is dropped, whatever became of the flush in it. -/
def release (ord : IterOrder Nat) (fh : Nat) : FuseM σ Reply := fun s =>
  match (opRelease ord fh).run s with
  | .ok _ s => .ok .ok s
  | .error .diverges s => .error .diverges s
  | .error (.errno _) s => .ok .ok s

end Filesystem

def Request.serve (ords : Orders) : Request → FuseM σ Reply
  | .lookup parent name => Filesystem.lookup ords.handles parent name
  | .getattr ino => Filesystem.getattr ords.handles ino
  | .setattr ino size fh => Filesystem.setattr ords.handles ino size fh
  | .readdir room ino offset => do
    let entries ← Fuse.readdir room ino offset
    pure (.listing entries)
  | .mkdir parent name => Filesystem.mkdir parent name
  | .rmdir parent name => Filesystem.rmdir parent name
  | .create parent name => Filesystem.create parent name
  | .unlink parent name => Filesystem.unlink parent name
  | .rename parent name newparent newname => Filesystem.rename parent name newparent newname
  | .openFile ino => do
    let fh ← opOpen ino
    pure (.opened fh)
  | .release fh => Filesystem.release ords.chunks fh
  | .flush fh => do
    opFlush ords.chunks fh
    pure .ok
  | .fsync fh => do
    opFlush ords.chunks fh
    pure .ok
  | .read fh offset size => do
    let bytes ← opRead ords.chunks fh offset size
    pure (.data bytes)
  | .write fh offset data => do
    let n ← opWrite ords.chunks fh offset data
    pure (.written n)

end Model

end Venom.Fuse
