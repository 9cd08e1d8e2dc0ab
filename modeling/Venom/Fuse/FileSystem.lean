import Venom.Fuse.Requests
import Venom.Fuse.NameSteps
import Venom.Fuse.Totality
import Venom.Library.NamedNodes

/-! # A file system

What the driver is for: a tree of directories and files, numbers given out for its paths and
handles held on its files.  `FileSystem.Step` says what a request may answer and what it makes
of the tree.  `StandsFor` relates
a state of the driver to the file system behind it.
-/

namespace Venom.Fuse

open Venom.Storage
open Venom.Library
open Venom.Library.Chunks (patch)
open Venom.Library.NameTree
open Venom.Library.StateError

/-! ## The file system -/

structure FileSystem where
  tree : FileTree
  /-- The paths of the inode numbers that were given out. -/
  inodes : Nat → Option (List String)
  /-- The paths of the open files. -/
  handles : Nat → Option (List String)

def Entry.attr (ino : Nat) : Entry → FileAttr
  | .directory => makeDirAttr ino
  | .file bytes => makeFileAttr ino bytes.length

def Entry.fileType : Entry → FileType
  | .directory => .directory
  | .file _ => .regularFile

namespace FileSystem

/-- An empty directory, known as inode 1. -/
def empty : FileSystem where
  tree := Function.update (fun _ => none) [] (some .directory)
  inodes := Function.update (fun _ => none) 1 (some [])
  handles := fun _ => none

def put (A : FileSystem) (q : List String) (e : Entry) : FileSystem :=
  { A with tree := Function.update A.tree q (some e) }

def know (A : FileSystem) (ino : Nat) (q : List String) : FileSystem :=
  { A with inodes := Function.update A.inodes ino (some q) }

def hold (A : FileSystem) (fh : Nat) (q : Option (List String)) : FileSystem :=
  { A with handles := Function.update A.handles fh q }

/-- A path goes, with what was given out for it. -/
def drop (A : FileSystem) (q : List String) : FileSystem where
  tree := Function.update A.tree q none
  inodes := fun ino => (A.inodes ino).filter (· ≠ q)
  handles := fun fh => (A.handles fh).filter (· ≠ q)

/-- What is at `src` goes to `dst` with all that is below it, and what was given out follows.  What
    was given out for `dst` is gone. -/
def move (A : FileSystem) (src dst : List String) : FileSystem where
  tree := relocate src dst A.tree
  inodes := fun ino => ((A.inodes ino).filter (· ≠ dst)).map (rebase src dst)
  handles := fun fh => ((A.handles fh).filter (· ≠ dst)).map (rebase src dst)

/-- After another mount nothing but the tree is left. -/
def mounted (A : FileSystem) : FileSystem := { empty with tree := A.tree }

/-- The number is that of the path, or a new one for a path without a number. -/
def Numbers (A : FileSystem) (ino : Nat) (q : List String) : Prop :=
  A.inodes ino = some q ∨ A.inodes ino = none ∧ ∀ i, A.inodes i ≠ some q

/-- A list of names in the directory `q`, each with a number. -/
inductive Lists (q : List String) :
    FileSystem → List (Nat × FileType × String) → FileSystem → Prop
  | nil {A : FileSystem} : Lists q A [] A
  | cons {A A' : FileSystem} {ino : Nat} {name : String} {e : Entry}
      {rest : List (Nat × FileType × String)} : A.tree (q ++ [name]) = some e →
      A.Numbers ino (q ++ [name]) → Lists q (A.know ino (q ++ [name])) rest A' →
      Lists q A ((ino, e.fileType, name) :: rest) A'

/-- The requests a file system serves, with what it answers and what becomes of it. -/
inductive Step (A : FileSystem) : Request → Reply → FileSystem → Prop
  | lookup {parent ino : Nat} {name : String} {path : List String} {e : Entry} :
      A.inodes parent = some path → A.tree path = some .directory →
      A.tree (path ++ [name]) = some e → A.Numbers ino (path ++ [name]) →
      Step A (.lookup parent (some name)) (.entry (e.attr ino)) (A.know ino (path ++ [name]))
  | getattr {ino : Nat} {q : List String} {e : Entry} : A.inodes ino = some q → A.tree q = some e →
      Step A (.getattr ino) (.attr (e.attr ino)) A
  | setattr {ino : Nat} {fh : Option Nat} {q : List String} {e : Entry} : A.inodes ino = some q →
      A.tree q = some e → Step A (.setattr ino none fh) (.attr (e.attr ino)) A
  | resize {ino newSize : Nat} {fh : Option Nat} {q : List String} {bytes : List UInt8} :
      A.inodes ino = some q → A.tree q = some (.file bytes) →
      Step A (.setattr ino (some newSize) fh)
        (.attr ((Entry.file (bytes.take newSize)).attr ino)) (A.put q (.file (bytes.take newSize)))
  /-- The names of a directory come in any order, and a reply is a piece of them. -/
  | readdir {room : ReplyRoom} {ino offset : Nat} {q : List String}
      {children : List (Nat × FileType × String)} {A' : FileSystem} : A.inodes ino = some q →
      A.tree q = some .directory → Lists q A children A' → (children.map (·.2.2)).Nodup →
      (∀ name, A.tree (q ++ [name]) ≠ none → name ∈ children.map (·.2.2)) →
      Step A (.readdir room ino offset) (.listing (addEntries room [] ((enumerated
        ((ino, .directory, ".") :: (ino, .directory, "..") :: children)).drop offset))) A'
  | mkdir {parent ino : Nat} {name : String} {path : List String} : A.inodes parent = some path →
      A.tree path = some .directory → A.tree (path ++ [name]) = none → A.inodes ino = none →
      Step A (.mkdir parent (some name)) (.entry (Entry.directory.attr ino))
        ((A.put (path ++ [name]) .directory).know ino (path ++ [name]))
  | rmdir {parent : Nat} {name : String} {path : List String} : A.inodes parent = some path →
      A.tree (path ++ [name]) = some .directory → (∀ n, A.tree (path ++ [name] ++ [n]) = none) →
      Step A (.rmdir parent (some name)) .ok (A.drop (path ++ [name]))
  | create {parent ino fh : Nat} {name : String} {path : List String} : A.inodes parent = some path →
      A.tree path = some .directory → A.tree (path ++ [name]) = none → A.inodes ino = none →
      A.handles fh = none →
      Step A (.create parent (some name)) (.created ((Entry.file []).attr ino) fh)
        (((A.put (path ++ [name]) (.file [])).know ino (path ++ [name])).hold fh
          (some (path ++ [name])))
  | unlink {parent : Nat} {name : String} {path : List String} {bytes : List UInt8} :
      A.inodes parent = some path → A.tree (path ++ [name]) = some (.file bytes) →
      Step A (.unlink parent (some name)) .ok (A.drop (path ++ [name]))
  | rename {parent newparent : Nat} {name newname : String} {path path' : List String} {e : Entry} :
      A.inodes parent = some path → A.inodes newparent = some path' →
      A.tree (path ++ [name]) = some e → A.tree path' = some .directory →
      path ++ [name] ≠ path' ++ [newname] → ¬ path ++ [name] <+: path' →
      (∀ n, A.tree (path' ++ [newname] ++ [n]) = none) →
      (∀ fh, A.handles fh ≠ some (path' ++ [newname])) →
      Step A (.rename parent (some name) newparent (some newname)) .ok
        (A.move (path ++ [name]) (path' ++ [newname]))
  | renameSelf {parent newparent : Nat} {name : String} {path : List String} {e : Entry} :
      A.inodes parent = some path → A.inodes newparent = some path →
      A.tree (path ++ [name]) = some e →
      Step A (.rename parent (some name) newparent (some name)) .ok A
  | openFile {ino fh : Nat} {q : List String} {bytes : List UInt8} : A.inodes ino = some q →
      A.tree q = some (.file bytes) → A.handles fh = none →
      Step A (.openFile ino) (.opened fh) (A.hold fh (some q))
  | release {fh : Nat} : Step A (.release fh) .ok (A.hold fh none)
  | flush {fh : Nat} : Step A (.flush fh) .ok A
  | fsync {fh : Nat} : Step A (.fsync fh) .ok A
  | read {fh offset size : Nat} {q : List String} {bytes : List UInt8} : A.handles fh = some q →
      A.tree q = some (.file bytes) →
      Step A (.read fh offset size) (.data ((bytes.drop offset).take size)) A
  | write {fh offset : Nat} {data : List UInt8} {q : List String} {bytes : List UInt8} :
      A.handles fh = some q → A.tree q = some (.file bytes) →
      Step A (.write fh offset data) (.written (data.length % 2 ^ 32))
        (A.put q (.file (patch 0 bytes offset data)))
  /-- An empty write never looks at its handle. -/
  | writeNothing {fh offset : Nat} : A.handles fh = none →
      Step A (.write fh offset []) (.written 0) A

end FileSystem

/-! ## What the driver shows -/

variable {σ : Type} [NodeStore σ]

/-- The head slot of an open file. -/
def headOf (s : VenomFuse σ) (fh : Nat) : Option Nat := (s.openFiles.get fh).map (·.headSlot)

omit [NodeStore σ] in
theorem headOf_eq_some {s : VenomFuse σ} {fh t : Nat} :
    headOf s fh = some t ↔ ∃ f, s.openFiles.get fh = some f ∧ f.headSlot = t := by
  simp [headOf]

omit [NodeStore σ] in
theorem headOf_eq_none {s : VenomFuse σ} {fh : Nat} : headOf s fh = none ↔ s.openFiles.get fh = none := by
  simp [headOf]

variable [NodeView σ]

/-- The state of the driver stands for the file system `A`. -/
structure StandsFor (root : Nat) (s : VenomFuse σ) (A : FileSystem) (bytes : Nat → List UInt8)
    (own : Nat → List Nat) : Prop where
  backs : Backs root s bytes own
  tree : A.tree = fileTree s.container root bytes
  inodes : Named (child (nodes s.container)) root s.inodes.slotOf A.inodes
  handles : Named (child (nodes s.container)) root (headOf s) A.handles

namespace StandsFor

variable {root t : Nat} {s s' : VenomFuse σ} {A : FileSystem}
  {bytes : Nat → List UInt8} {own : Nat → List Nat} {q path : List String} {fb : FileBlock}
  {d : DirectoryBlock} {ino fh : Nat}

omit [NodeStore σ]

/-! ### Reading the state -/

/-- The path of a known inode. -/
theorem of_ino (h : StandsFor root s A bytes own) (hino : s.inodes.slotOf ino = some t) :
    ∃ q, A.inodes ino = some q ∧ walk (child (nodes s.container)) root q = some t :=
  h.inodes.exists_path hino (h.backs.known ino t hino)

/-- The path of an open file. -/
theorem of_handle (h : StandsFor root s A bytes own) {f : OpenFile} (hf : s.openFiles.get fh = some f) :
    ∃ q, A.handles fh = some q ∧ walk (child (nodes s.container)) root q = some f.headSlot ∧
      A.tree q = some (.file (bytes f.headSlot)) := by
  obtain ⟨hin, ⟨fb, hfb⟩, -⟩ := h.backs.handles fh f hf
  obtain ⟨q, hq, hwalk⟩ := h.handles.exists_path (headOf_eq_some.mpr ⟨f, hf, rfl⟩) hin
  exact ⟨q, hq, hwalk, by rw [h.tree, fileTree_walk hwalk, entryAt_file hfb]⟩

theorem handle_none (h : StandsFor root s A bytes own) (hf : s.openFiles.get fh = none) :
    A.handles fh = none := by
  cases hk : A.handles fh with
  | none => rfl
  | some q =>
    obtain ⟨t, ht, -⟩ := (h.handles fh q).mp hk
    rw [headOf_eq_none.mpr hf] at ht
    cases ht

theorem tree_walk (h : StandsFor root s A bytes own)
    (hq : walk (child (nodes s.container)) root q = some t) : A.tree q = entryAt s.container bytes t := by
  rw [h.tree, fileTree_walk hq]

theorem tree_dir (h : StandsFor root s A bytes own)
    (hq : walk (child (nodes s.container)) root q = some t)
    (hd : nodes s.container t = some (.directory d)) : A.tree q = some .directory := by
  rw [h.tree_walk hq, entryAt_directory hd]

theorem tree_file (h : StandsFor root s A bytes own)
    (hq : walk (child (nodes s.container)) root q = some t)
    (hfb : nodes s.container t = some (.file fb)) : A.tree q = some (.file (bytes t)) := by
  rw [h.tree_walk hq, entryAt_file hfb]

/-- The size of a file is in the handle on it, or in its head when nobody has it open. -/
theorem attr_eq (h : StandsFor root s A bytes own) (ord : IterOrder Nat) {n : VaultNode}
    (hino : s.inodes.slotOf ino = some t) (hn : nodes s.container t = some n) :
    withCachedSize ord s.openFiles (makeAttr ino n) = (Entry.ofNode (bytes t) n).attr ino := by
  have hattr : (makeAttr ino n).ino = ino := by cases n <;> rfl
  -- a handle on the inode is a handle on its file
  have hfile : ∀ fh f, s.openFiles.get fh = some f → f.ino = ino →
      (∃ fb, n = .file fb) ∧ f.totalSize = (bytes t).length := by
    intro fh f hf hfino
    obtain ⟨-, ⟨fb, hfb⟩, hslot⟩ := h.backs.handles fh f hf
    rw [hfino, hino, Option.some.injEq] at hslot
    rw [← hslot, hn, Option.some.injEq] at hfb
    obtain ⟨_, _, _, hcarries⟩ := h.backs.openFile hf
    exact ⟨⟨fb, hfb⟩, by rw [hcarries.size, ← hslot]⟩
  rw [withCachedSize, hattr]
  cases hc : cachedSizeForIno ord ino s.openFiles with
  | some sz =>
    obtain ⟨fh, f, hf, hfino, rfl⟩ := cachedSizeForIno_some hc
    obtain ⟨⟨fb, rfl⟩, hsize⟩ := hfile fh f hf hfino
    change makeFileAttr ino f.totalSize = makeFileAttr ino (bytes t).length
    rw [hsize]
  | none =>
    have hin := h.backs.known ino t hino
    obtain ⟨d, hd⟩ | ⟨fb, hfb⟩ := h.backs.tree.node t hin
    · cases hn.symm.trans hd
      rfl
    · cases hn.symm.trans hfb
      cases h.backs.files t fb hin hfb with
      | closed hno _ =>
        obtain ⟨_, _, hcarries⟩ := h.backs.closedFile hin hfb hno
        change makeFileAttr ino fb.totalSize = makeFileAttr ino (bytes t).length
        rw [← hcarries.size]
        rfl
      | opened hf hhead _ =>
        have hslot := (h.backs.handles _ _ hf).2.2
        rw [hhead] at hslot
        obtain ⟨sz, hsz⟩ := cachedSizeForIno_isSome ord hf
        rw [h.backs.inodes.back.inj hslot hino, hc] at hsz
        cases hsz

end StandsFor

end Venom.Fuse
